import Mylib.Proofs.Thread.WorkerRings

/-!
# `Mylib.Proofs.Thread.WorkerAccounting`: the counters and rings of the workers

`WorkersCounted` states what the pool knows of its workers: how many are idle, which are busy,
how many there are, and that there are not too many. `workersCounted_run` proves it for every
interleaving of sections from `base_init_threadpool` on. The worker elements must get their
memory, because a worker that gets none exits and stays counted.
-/

set_option autoImplicit false

namespace Mylib.Proofs.Thread

open Mylib.Lib.Ring
open Mylib.Spec.Thread

/-- The threads whose elements are in a ring. -/
def threads (p : Pool) (r : ThdRing) : List Nat := (p.thds r).map fun e => (p.elt e).thd

/-- The worker has entered its loop and has not exited. -/
def entered : WorkerState → Bool
  | .running _ _ => true
  | .waiting _ => true
  | _ => false

/-- The worker has been created and has not exited. -/
def live : WorkerState → Bool
  | .exited => false
  | .failed => false
  | _ => true

/-- What the pool knows of its workers. -/
structure WorkersCounted (s : Sys) : Prop where
  /-- `idle_cnt` is the length of the idle ring. -/
  idleCnt : s.pool.idleCnt = (s.pool.thds .idle).length
  /-- The busy ring holds the live workers that have entered their loop and are not idle. -/
  busy : ∀ w, w ∈ threads s.pool .busy ↔
    (∃ x, s.workers[w]? = some x ∧ entered x = true) ∧ w ∉ threads s.pool .idle
  /-- A worker is in one of these rings once. -/
  once : (threads s.pool .busy ++ threads s.pool .idle).Nodup
  /-- `thd_cnt` is the number of workers created and not yet exited. -/
  thdCnt : s.pool.thdCnt = s.workers.countP live
  /-- There are not too many workers. -/
  thdMax : s.pool.thdCnt ≤ max 1 s.pool.thdMax

section
variable {k : Nat} {s : Sys} {q : TaskRing → List Nat} {b : ThdRing → List Nat}

/-- The rings that are counted are those of the view. -/
theorem Consistent.thds_eq (h : Consistent k (view s q b)) (r : ThdRing) : s.pool.thds r = b r :=
  h.rings.toList_eq r (h.length_le r)

/-- A thread is in a ring when its worker is at that place. -/
theorem Consistent.mem_threads (h : Consistent k (view s q b)) {r : ThdRing} (hr : r ≠ .recycled)
    (w : Nat) :
    w ∈ threads s.pool r ↔ ∃ x e, s.workers[w]? = some x ∧ (place x).linked = some (r, e) := by
  rw [threads, h.thds_eq, List.mem_map]
  constructor
  · rintro ⟨e, he, rfl⟩
    obtain ⟨w, y, hy, hlinked⟩ := (h.mem r e hr).mp he
    have hthd : (s.pool.elt e).thd = w := (h.elt w y r e hy hlinked).1
    obtain ⟨x, hx, rfl⟩ : ∃ x, s.workers[w]? = some x ∧ place x = y := by
      simpa [view] using hy
    rw [hthd]
    exact ⟨x, e, hx, hlinked⟩
  · rintro ⟨x, e, hx, hlinked⟩
    have hplace := h.workers_get hx
    exact ⟨e, (h.mem r e hr).mpr ⟨w, _, hplace, hlinked⟩, (h.elt w _ r e hplace hlinked).1⟩

/-- Different elements of a ring belong to different threads. -/
theorem Consistent.threads_nodup (h : Consistent k (view s q b)) {r : ThdRing}
    (hr : r ≠ .recycled) : (threads s.pool r).Nodup := by
  rw [threads, h.thds_eq]
  refine List.Nodup.map_on ?_ (h.rings.nodup r)
  intro e he e' he' heq
  obtain ⟨w, x, hx, hlinked⟩ := (h.mem r e hr).mp he
  obtain ⟨w', x', hx', hlinked'⟩ := (h.mem r e' hr).mp he'
  have hw : (s.pool.elt e).thd = w := (h.elt w x r e hx hlinked).1
  have hw' : (s.pool.elt e').thd = w' := (h.elt w' x' r e' hx' hlinked').1
  obtain rfl : w = w' := by rw [← hw, ← hw', heq]
  obtain rfl : x = x' := by simpa [hx] using hx'
  simpa [hlinked] using hlinked'

/-- In a consistent system the workers are counted, as long as none has failed. -/
theorem Consistent.workersCounted (h : Consistent 1 (view s q b))
    (hfail : WorkerState.failed ∉ s.workers) : WorkersCounted s := by
  -- Between two sections a worker in the idle ring waits, and one in the busy ring runs a task.
  have hidle : ∀ w, w ∈ threads s.pool .idle ↔ ∃ e, s.workers[w]? = some (.waiting e) := by
    intro w
    rw [h.mem_threads (by simp)]
    constructor
    · rintro ⟨x, e, hx, hlinked⟩
      cases x with
      | waiting e' => exact ⟨e', hx⟩
      | _ => simp [place, Place.linked] at hlinked
    · rintro ⟨e, hx⟩
      exact ⟨_, e, hx, rfl⟩
  have hbusy : ∀ w, w ∈ threads s.pool .busy ↔ ∃ e n, s.workers[w]? = some (.running e n) := by
    intro w
    rw [h.mem_threads (by simp)]
    constructor
    · rintro ⟨x, e, hx, hlinked⟩
      cases x with
      | running e' n => exact ⟨e', n, hx⟩
      | _ => simp [place, Place.linked] at hlinked
    · rintro ⟨e, n, hx⟩
      exact ⟨_, e, hx, rfl⟩
  refine ⟨?_, ?_, ?_, ?_, h.thdMax⟩
  · rw [h.thds_eq]
    exact h.idleCnt
  · intro w
    rw [hbusy, hidle]
    constructor
    · rintro ⟨e, n, hx⟩
      exact ⟨⟨_, hx, rfl⟩, by simp [hx]⟩
    · rintro ⟨⟨x, hx, hent⟩, hnot⟩
      cases x with
      | running e n => exact ⟨e, n, hx⟩
      | waiting e => exact absurd ⟨e, hx⟩ hnot
      | _ => simp [entered] at hent
  · refine List.nodup_append.mpr ⟨h.threads_nodup (by simp), h.threads_nodup (by simp), ?_⟩
    rintro w hw w' hw' rfl
    obtain ⟨e, n, hx⟩ := (hbusy w).mp hw
    obtain ⟨e', hx'⟩ := (hidle w).mp hw'
    simp [hx] at hx'
  · have hcnt : s.pool.thdCnt = (s.workers.map place).countP (· ≠ .exited) := h.thdCnt
    rw [hcnt, List.countP_map]
    refine List.countP_congr ?_
    intro x hx
    cases x with
    -- A worker without an element has not left, but it is not in its loop either.
    | failed => exact absurd hx hfail
    | _ => simp [place, live]

/-- Every interleaving in which the worker elements get their memory. -/
theorem Consistent.run (h : Consistent k (view s q b)) (hfail : WorkerState.failed ∉ s.workers)
    {as : List Action} (halloc : ∀ w now, Action.workerStart w false now ∉ as) :
    ∃ s' q' b', s.run as = some s' ∧ Consistent k (view s' q' b') ∧
      WorkerState.failed ∉ s'.workers := by
  induction as generalizing s q b with
  | nil => exact ⟨s, q, b, rfl, h, hfail⟩
  | cons a as ih =>
      obtain ⟨s₁, q₁, b₁, hstep, h₁, -, hfail₁⟩ := h.step a
      have hnone : WorkerState.failed ∉ s₁.workers := by
        intro hmem
        rcases hfail₁ hmem with hmem | ⟨w, now, rfl⟩
        · exact hfail hmem
        · exact halloc w now List.mem_cons_self
      obtain ⟨s', q', b', hrun, h', hfail'⟩ :=
        ih h₁ hnone fun w now hin => halloc w now (List.mem_cons_of_mem a hin)
      exact ⟨s', q', b', by simp [Sys.run, hstep, hrun], h', hfail'⟩

end

/-- In every interleaving from the initialised pool on, the workers are counted. -/
theorem workersCounted_run (initThreads maxThreads maxTasks : Nat) (hle : initThreads ≤ maxThreads)
    (as : List Action) (halloc : ∀ w now, Action.workerStart w false now ∉ as) :
    ∃ s, (Sys.baseInitThreadpool initThreads maxThreads maxTasks).run as = some s ∧
      WorkersCounted s := by
  have hinit := consistent_init 1 initThreads maxThreads maxTasks (Nat.le_refl 1)
    (Nat.le_trans hle (Nat.le_max_right 1 maxThreads))
  have hfail : WorkerState.failed
      ∉ (Sys.baseInitThreadpool initThreads maxThreads maxTasks).workers := by
    simp [Sys.baseInitThreadpool, List.mem_replicate]
  obtain ⟨s, q, b, hrun, h, hnone⟩ := hinit.run hfail halloc
  exact ⟨s, hrun, h.workersCounted hnone⟩

/-- Two workers start and wait, a task is added, one of them runs it and waits again. -/
theorem workersCounted_task :
    2 ≤ 2 ∧ ∃ s, (Sys.baseInitThreadpool 2 2 0).run
      [.workerStart 0 true 0, .workerStart 1 true 0, .addTask ⟨1, 0, 2, 3⟩ 5 true true 0 0,
        .workerWake 1 0, .taskEnd 1 0] = some s ∧ WorkersCounted s :=
  ⟨by decide, workersCounted_run 2 2 0 (by decide) _ (by simp)⟩

end Mylib.Proofs.Thread
