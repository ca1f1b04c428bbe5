import Mylib.Proofs.Thread.NoLostTask

/-!
# `Mylib.Proofs.Thread.FailedSubmission`: what a failed submission leaves behind

A submission fails at one of three points: `task_max` is reached, there is no task object,
or no worker thread can be created. The first two leave the pool as it was. At the third the
task is already linked and counted, and nothing takes it out again.

`failsClean_iff` says exactly when a submission that fails leaves the queues unchanged: unless
it gets as far as creating a worker and that fails.
-/

set_option autoImplicit false

namespace Mylib.Proofs.Thread

open Mylib.Lib.Ring
open Mylib.Spec.Thread

/-- `base_threadpool_addtask` and `base_threadpool_top` (`push` is set or not), or
`base_threadpool_scheduletask`. -/
inductive Call where
  | addTask (a : Submission) (priority : Int) (push : Bool)
  | scheduleTask (a : Submission) (time junk : Int)
  deriving Repr

/-- A call, when allocation and thread creation have the given results. -/
def Call.result (c : Call) (p : Pool) (alloc : Bool) (spawn now : Int) :
    Option (Submitted × Pool) :=
  match c with
  | .addTask a priority push => p.addTask a priority push alloc spawn now
  | .scheduleTask a time junk => p.scheduleTask a time alloc spawn now junk

/-- The two rings, their counters and the index are the same. -/
def SameQueues (p p' : Pool) : Prop :=
  p'.queue .tasks = p.queue .tasks ∧ p'.queue .scheduled = p.queue .scheduled ∧
    p'.taskCnt = p.taskCnt ∧ p'.scheduledTaskCnt = p.scheduledTaskCnt ∧
    ∀ seg, p'.taskIdx seg = p.taskIdx seg

/-- The call returns, and if the code is not zero, the queues are unchanged. -/
def FailsClean (c : Call) (p : Pool) (alloc : Bool) (spawn now : Int) : Prop :=
  ∃ r p', c.result p alloc spawn now = some (r, p') ∧ (r.rv ≠ 0 → SameQueues p p')

/-- The call creates a worker for the task it has added. -/
def createsWorker (c : Call) (p : Pool) (alloc : Bool) : Bool :=
  match c with
  | .addTask .. => !p.full && p.hasObject alloc && p.needsWorker
  | .scheduleTask .. => p.hasObject alloc && p.thdCnt = 0

/-- Nothing was queued. -/
theorem sameQueues_refl (p : Pool) : SameQueues p p :=
  ⟨rfl, rfl, rfl, rfl, fun _ => rfl⟩

/-- A submission that added a task fails clean exactly if it does not fail. -/
theorem failsClean_of_added {c : Call} {p p' : Pool} {alloc worker : Bool} {spawn now : Int}
    (hcall : c.result p alloc spawn now = some (submitted worker spawn, p'))
    (hchanged : ¬ SameQueues p p') :
    FailsClean c p alloc spawn now ↔ ¬(worker = true ∧ spawn ≠ 0) := by
  have hclean : FailsClean c p alloc spawn now ↔ (submitted worker spawn).rv = 0 := by
    constructor
    · rintro ⟨r, p'', hr, hsame⟩
      obtain ⟨rfl, rfl⟩ : submitted worker spawn = r ∧ p' = p'' := by simpa [hcall] using hr
      by_contra hrv
      exact hchanged (hsame hrv)
    · intro hrv
      exact ⟨_, p', hcall, fun hne => absurd hrv hne⟩
  rw [hclean]
  cases worker with
  | false => simp [submitted]
  | true => simp [submitted]

/-- A failed submission leaves the queues unchanged, unless it failed to create a worker for
the task it had added. -/
theorem failsClean_iff {p : Pool} {q : TaskRing → List Nat} (h : WellFormed p q) (c : Call)
    (alloc : Bool) (spawn now : Int) :
    FailsClean c p alloc spawn now ↔ ¬(createsWorker c p alloc = true ∧ spawn ≠ 0) := by
  cases c with
  | addTask a priority push =>
      rcases h.addTask a priority push alloc spawn now with
        ⟨hfull, hcall⟩ | ⟨hfull, hobj, hcall⟩ |
        ⟨hfull, hobj, n, t, p', q', xs, ys, hcall, hadd, hplace, htasks, hscheduled, -⟩
      · simp only [createsWorker, hfull, Bool.not_true, Bool.false_and, Bool.false_eq_true,
          false_and, not_false_eq_true, iff_true]
        exact ⟨_, p, hcall, fun _ => sameQueues_refl p⟩
      · simp only [createsWorker, hobj, Bool.and_false, Bool.false_and, Bool.false_eq_true,
          false_and, not_false_eq_true, iff_true]
        exact ⟨_, p, hcall, fun _ => sameQueues_refl p⟩
      -- The task is linked before the worker is created, and it stays linked when that fails.
      · have hchanged : ¬ SameQueues p p' := by
          rintro ⟨htasks', -⟩
          rw [h.queue_eq, hadd.wellFormed.queue_eq, htasks, hplace.cut] at htasks'
          simpa using congrArg List.length htasks'
        rw [failsClean_of_added (c := .addTask a priority push) hcall hchanged, createsWorker,
          hfull, hobj]
        simp
  | scheduleTask a time junk =>
      rcases h.scheduleTask a time alloc spawn now junk with
        ⟨hobj, hcall⟩ | ⟨hobj, n, t, p', q', xs, ys, hcall, hadd, hcut, hscheduled, -⟩
      · simp only [createsWorker, hobj, Bool.false_and, Bool.false_eq_true, false_and,
          not_false_eq_true, iff_true]
        exact ⟨_, p, hcall, fun _ => sameQueues_refl p⟩
      · have hchanged : ¬ SameQueues p p' := by
          rintro ⟨-, hscheduled', -⟩
          rw [h.queue_eq, hadd.wellFormed.queue_eq, hscheduled, hcut] at hscheduled'
          simpa using congrArg List.length hscheduled'
        rw [failsClean_of_added (c := .scheduleTask a time junk) hcall hchanged, createsWorker,
          hobj]
        simp

/-- A call for which no object can be allocated. -/
theorem failsClean_enomem :
    FailsClean (.addTask ⟨1, 0, 2, 3⟩ 5 true) (threadPoolConstruct 0 4 0) false 11 0 :=
  (failsClean_iff (wellFormed_construct 0 4 0) _ _ _ _).mpr (by decide)

/-- A pool without a worker when thread creation returns `EAGAIN`: the call returns that
code, and the task is queued. -/
theorem not_failsClean_of_spawn :
    ¬ FailsClean (.addTask ⟨1, 0, 2, 3⟩ 5 true) (threadPoolConstruct 0 4 0) true 11 0 := by
  have hcall :
      ∀ x ∈ (Call.addTask ⟨1, 0, 2, 3⟩ 5 true).result (threadPoolConstruct 0 4 0) true 11 0,
        x.1.rv = 11 ∧ x.2.taskCnt = 1 := by decide
  rintro ⟨r, p', hr, hsame⟩
  have hrv : r.rv = 11 := (hcall (r, p') hr).1
  have hcnt : p'.taskCnt = 1 := (hcall (r, p') hr).2
  obtain ⟨-, -, hsamecnt, -⟩ := hsame (by simp [hrv])
  rw [hcnt] at hsamecnt
  exact absurd hsamecnt (by decide)

end Mylib.Proofs.Thread
