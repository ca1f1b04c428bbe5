import Mylib.Proofs.Thread.WorkerRings

/-!
# `Mylib.Proofs.Thread.CancelComplete`: cancelling is complete

`base_threadpool_cancel_tasks` removes the owner's queued tasks in one section, and later
walks over the busy workers until it finds none that runs a task of the owner. In between
other workers and callers have the lock.

`CancelsKept` is what every section keeps. A call that has removed the queued tasks leaves
only tasks of the owner in the queues that were submitted later. They may start, so this is
also all that can be said of running tasks once the call has returned. The walk ends with
no busy worker on a task of the owner, because a worker publishes the owner in the section
in which it takes the task.

The owner may also be `NULL`: a busy worker always has a task while it does not hold the
lock.
-/

set_option autoImplicit false

namespace Mylib.Proofs.Thread

open Mylib.Lib.Ring
open Mylib.Spec.Thread

/-- The calls of `base_threadpool_cancel_tasks` have had their effect so far. -/
structure CancelsKept (v : View) (cs : List Cancel) : Prop where
  since : ∀ c ∈ cs, c.since ≤ v.pool.submissions
  queued : ∀ c ∈ cs, ∀ t, Queued v t → t.owner = c.owner → c.since ≤ t.ticket
  running : ∀ c ∈ cs, c.phase = .returned → ∀ t, Running v t → t.owner = c.owner →
    c.since ≤ t.ticket

section
variable {v v' : View} {cs : List Cancel}

/-- Tasks that are new are later than every call so far. -/
theorem CancelsKept.flow (h : CancelsKept v cs) (hflow : Flow v v') : CancelsKept v' cs := by
  constructor
  · intro c hc
    exact Nat.le_trans (h.since c hc) hflow.submissions
  · intro c hc t ht howner
    rcases hflow.queued t ht with ht | hnew
    · exact h.queued c hc t ht howner
    · exact Nat.le_trans (h.since c hc) hnew
  · intro c hc hphase t ht howner
    rcases hflow.running t ht with ht | ht | hnew
    · exact h.running c hc hphase t ht howner
    · exact h.queued c hc t ht howner
    · exact Nat.le_trans (h.since c hc) hnew

/-- A call removes the queued tasks of its owner. -/
theorem CancelsKept.removed (h : CancelsKept v cs) {owner since : Nat}
    (hsince : since ≤ v.pool.submissions) (hnone : ∀ t, Queued v t → t.owner ≠ owner) :
    CancelsKept v (cs ++ [⟨owner, since, .removed⟩]) := by
  constructor
  · intro c hc
    rcases List.mem_append.mp hc with hc | hc
    · exact h.since c hc
    · obtain rfl := List.mem_singleton.mp hc
      exact hsince
  · intro c hc t ht howner
    rcases List.mem_append.mp hc with hc | hc
    · exact h.queued c hc t ht howner
    · obtain rfl := List.mem_singleton.mp hc
      exact absurd howner (hnone t ht)
  · intro c hc hphase t ht howner
    rcases List.mem_append.mp hc with hc | hc
    · exact h.running c hc hphase t ht howner
    · obtain rfl := List.mem_singleton.mp hc
      exact absurd hphase (by simp)

/-- A call changes its phase. It returns only if no task of its owner runs. -/
theorem CancelsKept.set (h : CancelsKept v cs) {i : Nat} {c : Cancel} (hc : cs[i]? = some c)
    (phase : CancelPhase)
    (hnone : phase = .returned → ∀ t, Running v t → t.owner ≠ c.owner) :
    CancelsKept v (cs.set i { c with phase := phase }) := by
  have hcmem : c ∈ cs := List.mem_of_getElem? hc
  constructor
  · intro c' hc'
    rcases List.mem_or_eq_of_mem_set hc' with hc' | rfl
    · exact h.since c' hc'
    · exact h.since c hcmem
  · intro c' hc' t ht howner
    rcases List.mem_or_eq_of_mem_set hc' with hc' | rfl
    · exact h.queued c' hc' t ht howner
    · exact h.queued c hcmem t ht howner
  · intro c' hc' hphase t ht howner
    rcases List.mem_or_eq_of_mem_set hc' with hc' | rfl
    · exact h.running c' hc' hphase t ht howner
    · exact absurd howner (hnone hphase t ht)

end

/-! ### Runs -/

section
variable {k : Nat} {s s' : Sys} {q : TaskRing → List Nat} {b : ThdRing → List Nat}

/-- When the walk finds no busy worker on a task of the owner, no such task runs. -/
theorem Consistent.not_running (h : Consistent k (view s q b)) {owner : Nat}
    (hnone : ∀ e ∈ b .busy, (s.pool.elt e).currentOwner ≠ owner) (t : PoolTask)
    (ht : Running (view s q b) t) : t.owner ≠ owner := by
  obtain ⟨w, x, n, hx, hn, rfl⟩ := ht
  cases x with
  | busy e m =>
      obtain rfl : m = some n := hn
      have hmem : e ∈ b .busy := (h.mem .busy e (by simp)).mpr ⟨w, _, hx, rfl⟩
      have howner : (s.pool.elt e).currentOwner = (s.pool.task n).owner :=
        (h.elt w _ .busy e hx rfl).2
      exact howner ▸ hnone e hmem
  | _ => simp [Place.object] at hn

/-- A section of `wait_on_busy_threads`. -/
theorem CancelsKept.scan (hc : CancelsKept (view s q b) s.cancels) (h : Consistent k (view s q b))
    {i : Nat} {c : Cancel} (hi : s.cancels[i]? = some c) (hscan : s.scan i c = some s') :
    CancelsKept (view s q b) s'.cancels := by
  rw [Sys.scan] at hscan
  rcases h.scan c.owner with ⟨e, he⟩ | ⟨hend, hnone⟩
  · obtain rfl : { s with cancels := s.cancels.set i { c with phase := .sleeping e } } = s' := by
      simpa [he] using hscan
    exact hc.set hi (.sleeping e) (by simp)
  · obtain rfl : { s with cancels := s.cancels.set i { c with phase := .returned } } = s' := by
      simpa [hend] using hscan
    exact hc.set hi .returned fun _ => h.not_running hnone

/-- No queued task has the owner after a cancellation. -/
theorem not_queued_cancelled {p : Pool} {owner : Nat} {ws : List Place}
    (htask : p.task = s.pool.task) (t : PoolTask)
    (ht : Queued ⟨p, cancelled s.pool.task owner q, b, ws⟩ t) : t.owner ≠ owner := by
  obtain ⟨r, n, hr, hn, rfl⟩ := ht
  show (p.task n).owner ≠ owner
  rw [htask]
  cases r with
  | tasks => simpa using List.of_mem_filter hn
  | scheduled => simpa using List.of_mem_filter hn
  | recycled => exact absurd rfl hr

/-- The sections of workers and of submissions leave the calls alone. -/
theorem cancels_of_bind {α : Type} {o : Option α} {f : α → Sys}
    (h : (do let x ← o; return f x) = some s') (hf : ∀ x, (f x).cancels = s.cancels) :
    s'.cancels = s.cancels := by
  cases o with
  | none => simp at h
  | some x =>
      obtain rfl : f x = s' := by simpa using h
      exact hf x

/-- Every section keeps what the calls have done. -/
theorem CancelsKept.step (hc : CancelsKept (view s q b) s.cancels)
    (h : Consistent k (view s q b)) (a : Action) :
    ∃ s' q' b', s.step a = some s' ∧ Consistent k (view s' q' b') ∧
      CancelsKept (view s' q' b') s'.cancels := by
  -- A step that leaves the calls alone keeps their promises because tasks only flow on.
  have hother : (∀ s', s.step a = some s' → s'.cancels = s.cancels) →
      ∃ s' q' b', s.step a = some s' ∧ Consistent k (view s' q' b') ∧
        CancelsKept (view s' q' b') s'.cancels := by
    intro hcancels
    obtain ⟨s', q', b', hstep, hcons, hflow, -⟩ := h.step a
    exact ⟨s', q', b', hstep, hcons, (hcancels s' hstep).symm ▸ hc.flow hflow⟩
  -- A scan changes the phase of its call and nothing in the pool.
  have hscanned : ∀ {i c}, s.cancels[i]? = some c → ∀ {s'}, s.scan i c = some s' →
      Consistent k (view s' q b) ∧ CancelsKept (view s' q b) s'.cancels := by
    intro i c hi s' hscan
    obtain ⟨hpool, hworkers⟩ := scan_frame hscan
    have hview : view s' q b = view s q b := by rw [view, view, hpool, hworkers]
    rw [hview]
    exact ⟨h, hc.scan h hi hscan⟩
  cases a with
  | cancelTasks owner =>
      have hw : WellFormed s.pool q := h.tasks
      obtain ⟨p, hcall, hdrops⟩ := hw.cancelTasks owner
      obtain ⟨hcons, hflow⟩ := h.cancelled hdrops
      have htask : p.task = s.pool.task := by rw [hdrops.frame]
      refine ⟨{ s with
          pool := p
          cancels := s.cancels ++ [⟨owner, s.pool.submissions, .removed⟩] }, _, b,
        by simp [Sys.step, hcall], hcons, (hc.flow hflow).removed hflow.submissions ?_⟩
      exact not_queued_cancelled htask
  | cancelScan i =>
      cases hi : s.cancels[i]? with
      | none => exact ⟨s, q, b, by simp [Sys.step, hi], h, hc⟩
      | some c =>
          obtain ⟨s', hscan⟩ := h.scan_isSome i c
          obtain ⟨hcons, hkept⟩ := hscanned hi hscan
          by_cases hphase : c.phase = .removed
          · exact ⟨s', q, b, by simp [Sys.step, hi, hphase, hscan], hcons, hkept⟩
          · exact ⟨s, q, b, by simp [Sys.step, hi, hphase], h, hc⟩
  | cancelRelock i =>
      cases hi : s.cancels[i]? with
      | none => exact ⟨s, q, b, by simp [Sys.step, hi], h, hc⟩
      | some c =>
          obtain ⟨s', hscan⟩ := h.scan_isSome i c
          obtain ⟨hcons, hkept⟩ := hscanned hi hscan
          cases hphase : c.phase with
          | removed => exact ⟨s, q, b, by simp [Sys.step, hi, hphase], h, hc⟩
          | returned => exact ⟨s, q, b, by simp [Sys.step, hi, hphase], h, hc⟩
          | sleeping e =>
              by_cases howner : (s.pool.elt e).currentOwner = c.owner
              · exact ⟨s, q, b, by simp [Sys.step, hi, hphase, howner], h, hc⟩
              · exact ⟨s', q, b, by simp [Sys.step, hi, hphase, howner, hscan], hcons, hkept⟩
  | addTask a priority push alloc spawn now =>
      exact hother fun s' hstep => cancels_of_bind hstep fun _ => rfl
  | scheduleTask a time alloc spawn now junk =>
      exact hother fun s' hstep => cancels_of_bind hstep fun _ => rfl
  | workerStart w alloc now =>
      refine hother fun s' hstep => ?_
      simp only [Sys.step] at hstep
      split at hstep
      · exact cancels_of_bind hstep fun _ => rfl
      · obtain rfl : s = s' := by simpa using hstep
        rfl
  | taskEnd w now =>
      refine hother fun s' hstep => ?_
      simp only [Sys.step] at hstep
      split at hstep
      · exact cancels_of_bind hstep fun _ => rfl
      · obtain rfl : s = s' := by simpa using hstep
        rfl
  | workerWake w now =>
      refine hother fun s' hstep => ?_
      simp only [Sys.step] at hstep
      split at hstep
      · exact cancels_of_bind hstep fun _ => rfl
      · obtain rfl : s = s' := by simpa using hstep
        rfl
  | setIdleWait idleWait =>
      refine hother fun s' hstep => ?_
      obtain rfl : _ = s' := by simpa [Sys.step] using hstep
      rfl
  | setThreshold threshold =>
      refine hother fun s' hstep => ?_
      obtain rfl : _ = s' := by simpa [Sys.step] using hstep
      rfl

/-- Any run keeps what the cancels have achieved. By induction on the actions. -/
theorem CancelsKept.run (hc : CancelsKept (view s q b) s.cancels) (h : Consistent k (view s q b))
    (as : List Action) :
    ∃ s' q' b', s.run as = some s' ∧ Consistent k (view s' q' b') ∧
      CancelsKept (view s' q' b') s'.cancels := by
  induction as generalizing s q b with
  | nil => exact ⟨s, q, b, rfl, h, hc⟩
  | cons a as ih =>
      obtain ⟨s₁, q₁, b₁, hstep, h₁, hc₁⟩ := hc.step h a
      obtain ⟨s', q', b', hrun, h', hc'⟩ := ih hc₁ h₁
      exact ⟨s', q', b', by simp [Sys.run, hstep, hrun], h', hc'⟩

end

/-- A task of the call's owner that was added before the call. -/
def Cancelled (c : Cancel) (t : PoolTask) : Prop := t.owner = c.owner ∧ t.ticket < c.since

/-- No task of the owner that was added before the call is queued, scheduled or being
executed. -/
structure CancelDone (s : Sys) (c : Cancel) : Prop where
  queued : ∀ n ∈ s.pool.queue .tasks, ¬ Cancelled c (s.pool.task n)
  scheduled : ∀ n ∈ s.pool.queue .scheduled, ¬ Cancelled c (s.pool.task n)
  executed : ∀ (w e n : Nat), s.workers[w]? = some (WorkerState.running e n) →
     ¬ Cancelled c (s.pool.task n)

/-- In every interleaving, a call of `base_threadpool_cancel_tasks` that has returned has
done its work. -/
theorem cancelDone_run (initThreads maxThreads maxTasks : Nat) (as : List Action) :
    ∃ s, (Sys.baseInitThreadpool initThreads maxThreads maxTasks).run as = some s ∧
      ∀ c ∈ s.cancels, c.phase = .returned → CancelDone s c := by
  have hinit := consistent_init (max 1 initThreads) initThreads maxThreads maxTasks
    (Nat.le_max_left 1 initThreads)
    (Nat.le_trans (Nat.le_max_right 1 initThreads) (Nat.le_max_left _ maxThreads))
  have hnone : CancelsKept
      (view (Sys.baseInitThreadpool initThreads maxThreads maxTasks) (fun _ => []) (fun _ => []))
      -- A new pool has no call of `base_tp_tasks_cancel` in it.
      (Sys.baseInitThreadpool initThreads maxThreads maxTasks).cancels := by
    constructor <;> simp [Sys.baseInitThreadpool]
  obtain ⟨s, q, b, hrun, h, hc⟩ := hnone.run hinit as
  have hqueue : s.pool.queue = q := h.tasks.queue_eq
  refine ⟨s, hrun, ?_⟩
  -- A queued or running task of the owner was added after the call began.
  intro c hcmem hphase
  constructor
  · rw [hqueue]
    rintro n hn ⟨howner, hlt⟩
    have hle := hc.queued c hcmem _ ⟨.tasks, n, by simp, hn, rfl⟩ howner
    exact absurd hlt (Nat.not_lt.mpr hle)
  · rw [hqueue]
    rintro n hn ⟨howner, hlt⟩
    have hle := hc.queued c hcmem _ ⟨.scheduled, n, by simp, hn, rfl⟩ howner
    exact absurd hlt (Nat.not_lt.mpr hle)
  · rintro w e n hx ⟨howner, hlt⟩
    have hle := hc.running c hcmem hphase _ ⟨w, _, n, h.workers_get hx, rfl, rfl⟩ howner
    exact absurd hlt (Nat.not_lt.mpr hle)

end Mylib.Proofs.Thread
