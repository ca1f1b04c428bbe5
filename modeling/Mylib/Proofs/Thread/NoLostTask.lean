import Mylib.Proofs.Thread.Queues

/-!
# `Mylib.Proofs.Thread.NoLostTask`: no task is lost or duplicated

`Ledger` is the bookkeeping of tickets: a ticket is queued exactly when it was added and
neither popped nor cancelled. It knows nothing of rings. Its step lemmas take the change
of the queued tickets up to order.

`Tracked s q` couples the ledger to the rings `q` of a run `s`, and says that the objects
that workers hold are in no ring. `Tracked.step` keeps it over every call with arbitrary
priorities and delays, and shows that the call returns. `queuesKept_run` reads off what
every run keeps.
-/

set_option autoImplicit false

namespace Mylib.Proofs.Thread

open Mylib.Lib.Ring
open Mylib.Spec.Thread

/-! ### Tickets -/

/-- A ticket is queued exactly when it was added and neither popped nor cancelled. All
tickets so far are below `next`. -/
structure Ledger (queued added popped cancelled : List Nat) (next : Nat) : Prop where
  mem_queued : ∀ k, k ∈ queued ↔ k ∈ added ∧ k ∉ popped ∧ k ∉ cancelled
  nodup : queued.Nodup
  lt : ∀ k ∈ added, k < next
  popped_added : ∀ k ∈ popped, k ∈ added
  popped_nodup : popped.Nodup
  cancelled_added : ∀ k ∈ cancelled, k ∈ added

namespace Ledger
variable {queued queued' added popped cancelled : List Nat} {next : Nat}

/-- A new task is queued. -/
theorem add (h : Ledger queued added popped cancelled next)
    (hperm : queued'.Perm (next :: queued)) :
    Ledger queued' (next :: added) popped cancelled (next + 1) := by
  -- The tickets are numbered in order, so the next one was never added.
  have hnew : next ∉ added := fun hin => absurd (h.lt next hin) (Nat.lt_irrefl next)
  refine ⟨?_, ?_, ?_, ?_, h.popped_nodup, ?_⟩
  · intro k
    rw [hperm.mem_iff, List.mem_cons, List.mem_cons, h.mem_queued]
    constructor
    · rintro (rfl | ⟨hin, hout⟩)
      · exact ⟨Or.inl rfl, fun hp => hnew (h.popped_added k hp),
          fun hc => hnew (h.cancelled_added k hc)⟩
      · exact ⟨Or.inr hin, hout⟩
    · rintro ⟨rfl | hin, hout⟩
      · exact Or.inl rfl
      · exact Or.inr ⟨hin, hout⟩
  · refine hperm.nodup_iff.mpr (List.nodup_cons.mpr ⟨?_, h.nodup⟩)
    intro hin
    exact hnew ((h.mem_queued next).mp hin).1
  · intro k hk
    rcases List.mem_cons.mp hk with rfl | hk
    · exact Nat.lt_succ_self k
    · exact Nat.lt_succ_of_lt (h.lt k hk)
  · intro k hk
    exact List.mem_cons_of_mem next (h.popped_added k hk)
  · intro k hk
    exact List.mem_cons_of_mem next (h.cancelled_added k hk)

/-- A queued task is taken to be run. -/
theorem pop {k : Nat} (h : Ledger queued added popped cancelled next)
    (hperm : queued.Perm (k :: queued')) :
    Ledger queued' added (k :: popped) cancelled next := by
  -- The ticket that leaves was queued, hence added and neither popped nor cancelled before.
  have hnd := List.nodup_cons.mp (hperm.nodup_iff.mp h.nodup)
  have hk := (h.mem_queued k).mp (hperm.mem_iff.mpr List.mem_cons_self)
  refine ⟨?_, hnd.2, h.lt, ?_, List.nodup_cons.mpr ⟨hk.2.1, h.popped_nodup⟩,
    h.cancelled_added⟩
  · intro j
    have hj := h.mem_queued j
    rw [hperm.mem_iff, List.mem_cons] at hj
    rw [List.mem_cons]
    constructor
    · intro hin
      obtain ⟨hadd, hpop, hcan⟩ := hj.mp (Or.inr hin)
      refine ⟨hadd, ?_, hcan⟩
      rintro (rfl | hp)
      · exact hnd.1 hin
      · exact hpop hp
    · rintro ⟨hadd, hpop, hcan⟩
      rcases hj.mpr ⟨hadd, fun hp => hpop (Or.inr hp), hcan⟩ with rfl | hin
      · exact absurd (Or.inl rfl) hpop
      · exact hin
  · intro j hj
    rcases List.mem_cons.mp hj with rfl | hj
    · exact hk.1
    · exact h.popped_added j hj

/-- Some queued tasks are cancelled. -/
theorem cancel {gone : List Nat} (h : Ledger queued added popped cancelled next)
    (hperm : queued.Perm (gone ++ queued')) :
    Ledger queued' added popped (gone ++ cancelled) next := by
  -- The cancelled tickets are those of a part of the queue, apart from what stays.
  obtain ⟨-, hnd, hdisj⟩ := List.nodup_append.mp (hperm.nodup_iff.mp h.nodup)
  refine ⟨?_, hnd, h.lt, h.popped_added, h.popped_nodup, ?_⟩
  · intro j
    have hj := h.mem_queued j
    rw [hperm.mem_iff, List.mem_append] at hj
    rw [List.mem_append]
    constructor
    · intro hin
      obtain ⟨hadd, hpop, hcan⟩ := hj.mp (Or.inr hin)
      refine ⟨hadd, hpop, ?_⟩
      rintro (hg | hc)
      · exact hdisj j hg j hin rfl
      · exact hcan hc
    · rintro ⟨hadd, hpop, hcan⟩
      rcases hj.mpr ⟨hadd, hpop, fun hc => hcan (Or.inr hc)⟩ with hg | hin
      · exact absurd (Or.inl hg) hcan
      · exact hin
  · intro j hj
    rcases List.mem_append.mp hj with hg | hc
    · exact ((h.mem_queued j).mp (hperm.mem_iff.mpr (List.mem_append_left _ hg))).1
    · exact h.cancelled_added j hc

end Ledger

/-- The tickets of both queues. -/
def queuedTickets (task : Nat → PoolTask) (q : TaskRing → List Nat) : List Nat :=
  (q .tasks ++ q .scheduled).map fun n => (task n).ticket

/-- A queue gains a task with a fresh object. -/
theorem queuedTickets_add (task : Nat → PoolTask) (t : PoolTask) {q q' : TaskRing → List Nat}
    {n : Nat} (htasks : n ∉ q .tasks) (hscheduled : n ∉ q .scheduled)
    (hperm : (q' .tasks ++ q' .scheduled).Perm (n :: (q .tasks ++ q .scheduled))) :
    (queuedTickets (Function.update task n t) q').Perm (t.ticket :: queuedTickets task q) := by
  have hold : (q .tasks ++ q .scheduled).map (fun m => (Function.update task n t m).ticket)
      = queuedTickets task q := by
    refine List.map_congr_left ?_
    intro m hm
    have hmn : m ≠ n := by
      rintro rfl
      rcases List.mem_append.mp hm with hm | hm
      · exact htasks hm
      · exact hscheduled hm
    rw [Function.update_of_ne hmn]
  have hmap := hperm.map fun m => (Function.update task n t m).ticket
  rwa [List.map_cons, Function.update_self, hold] at hmap

/-- A cancellation takes the owner's tickets out of both queues. -/
theorem queuedTickets_cancel (task : Nat → PoolTask) (owner : Nat) (q : TaskRing → List Nat) :
    (queuedTickets task q).Perm
      ((((q .tasks).filter fun n => (task n).owner = owner).map fun n => (task n).ticket) ++
        (((q .scheduled).filter fun n => (task n).owner = owner).map fun n => (task n).ticket) ++
        queuedTickets task (cancelled task owner q)) := by
  have hsplit := List.filter_append_perm (fun n => decide ((task n).owner = owner))
    (q .tasks ++ q .scheduled)
  have hmap := (hsplit.map fun n => (task n).ticket).symm
  simpa [queuedTickets, cancelled, others, List.filter_append] using hmap

/-! ### Runs -/

/-- The rings of the run are `q`, the ledger is right about them, and workers hold objects
that are in no ring. -/
structure Tracked (s : QueueRun) (q : TaskRing → List Nat) : Prop where
  wellFormed : WellFormed s.pool q
  ledger : Ledger (queuedTickets s.pool.task q) s.added s.popped s.cancelled s.pool.submissions
  held_fresh : ∀ n ∈ s.held, (∀ r, n ∉ q r) ∧ n < s.pool.taskBrk
  held_nodup : s.held.Nodup

/-- At the start nothing was added. -/
theorem tracked_initial (initThreads maxThreads maxTasks : Nat) :
    Tracked (QueueRun.initial initThreads maxThreads maxTasks) (fun _ => []) := by
  refine ⟨wellFormed_construct initThreads maxThreads maxTasks, ?_, ?_, List.nodup_nil⟩
  · constructor <;> simp [queuedTickets, QueueRun.initial]
  · intro n hn
    simp [QueueRun.initial] at hn

/-- The object of a new task was in neither queue. -/
theorem TaskAdded.fresh {p p' : Pool} {q q' : TaskRing → List Nat} {n : Nat} {t : PoolTask}
    (hadd : TaskAdded p q n t p' q') (h : WellFormed p q) {r : TaskRing} (hr : r ≠ .recycled) :
    n ∉ q r := by
  intro hin
  rcases hadd.source with rfl | hrec
  · exact absurd (h.brk r p.taskBrk hin) (Nat.lt_irrefl _)
  · exact hr (h.rings.disjoint r .recycled n hin hrec)

section
variable {s : QueueRun} {q q' : TaskRing → List Nat}

/-- The tickets in the queues are from the past. -/
theorem Tracked.ticket_lt (h : Tracked s q) {n : Nat} (hn : n ∈ q .tasks ++ q .scheduled) :
    (s.pool.task n).ticket < s.pool.submissions :=
  h.ledger.lt _ ((h.ledger.mem_queued _).mp (List.mem_map_of_mem hn)).1

/-- A queue gains a task. -/
theorem Tracked.added (h : Tracked s q) {n : Nat} {t : PoolTask} {p' : Pool}
    {topped : List Nat} (hadd : TaskAdded s.pool q n t p' q') (ht : t.ticket = s.pool.submissions)
    (hperm : (q' .tasks ++ q' .scheduled).Perm (n :: (q .tasks ++ q .scheduled))) :
    Tracked { s with pool := p', added := s.pool.submissions :: s.added, topped := topped } q' := by
  refine ⟨hadd.wellFormed, ?_, ?_, h.held_nodup⟩
  · have htickets := queuedTickets_add s.pool.task t
      (hadd.fresh h.wellFormed (by simp)) (hadd.fresh h.wellFormed (by simp)) hperm
    rw [ht, ← hadd.task] at htickets
    have hledger := h.ledger.add htickets
    rwa [← hadd.submissions] at hledger
  · intro m hm
    obtain ⟨hfresh, hlt⟩ := h.held_fresh m hm
    -- The object is new or was recycled, and a held one is neither.
    have hmn : m ≠ n := by
      rintro rfl
      rcases hadd.source with rfl | hrec
      · exact absurd hlt (Nat.lt_irrefl _)
      · exact hfresh .recycled hrec
    have hqueues : m ∉ q' .tasks ++ q' .scheduled := by
      rw [hperm.mem_iff]
      simp [hmn, hfresh .tasks, hfresh .scheduled]
    refine ⟨?_, Nat.lt_of_lt_of_le hlt hadd.brk⟩
    intro r hin
    cases r with
    | tasks => exact hqueues (List.mem_append_left _ hin)
    | scheduled => exact hqueues (List.mem_append_right _ hin)
    | recycled => exact hfresh .recycled (hadd.recycled hin)

/-- A worker takes a task out of a queue. -/
theorem Tracked.popped (h : Tracked s q) {r : TaskRing} {n : Nat} {xs ys : List Nat}
    {p' : Pool} (hr : r ≠ .recycled) (hq : q r = xs ++ n :: ys)
    (hwf : WellFormed p' (Function.update q r (xs ++ ys))) (htask : p'.task = s.pool.task)
    (hsub : p'.submissions = s.pool.submissions) (hbrk : p'.taskBrk = s.pool.taskBrk) :
    Tracked { s with pool := p', held := n :: s.held, popped := (p'.task n).ticket :: s.popped }
      (Function.update q r (xs ++ ys)) := by
  have hin : n ∈ q r := by simp [hq]
  -- The two queues are one multiset of objects for the ledger, wherever the task comes from.
  have hperm : (q .tasks ++ q .scheduled).Perm
      (n :: (Function.update q r (xs ++ ys) .tasks
        ++ Function.update q r (xs ++ ys) .scheduled)) := by
    cases r with
    | tasks =>
        rw [Function.update_self, Function.update_of_ne (by simp), hq]
        exact List.perm_middle.append_right (q .scheduled)
    | scheduled =>
        rw [Function.update_self, Function.update_of_ne (by simp), hq, ← List.append_assoc,
          ← List.append_assoc]
        exact List.perm_middle
    | recycled => exact absurd rfl hr
  refine ⟨hwf, ?_, ?_, ?_⟩
  · have htickets := hperm.map fun m => (s.pool.task m).ticket
    rw [List.map_cons] at htickets
    have hledger := h.ledger.pop htickets
    rw [← hsub] at hledger
    rw [htask]
    exact hledger
  · intro m hm
    rcases List.mem_cons.mp hm with rfl | hm
    · exact ⟨h.wellFormed.rings.notMem_remove hq, hbrk.symm ▸ h.wellFormed.brk r m hin⟩
    · obtain ⟨hfresh, hlt⟩ := h.held_fresh m hm
      exact ⟨fun r' hmr => hfresh r' (mem_of_mem_removed hq hmr), hbrk.symm ▸ hlt⟩
  · refine List.nodup_cons.mpr ⟨?_, h.held_nodup⟩
    intro hheld
    exact (h.held_fresh n hheld).1 r hin

/-- A cancellation. -/
theorem Tracked.cancelled (h : Tracked s q) {owner : Nat} {p' : Pool}
    (hdrops : Drops s.pool q p' (cancelled s.pool.task owner q)) :
    Tracked { s with
        pool := p'
        cancelled := s.pool.ticketsOf .tasks owner ++ s.pool.ticketsOf .scheduled owner ++
          s.cancelled }
      (Thread.cancelled s.pool.task owner q) := by
  have htask : p'.task = s.pool.task := by rw [hdrops.frame]
  have hsub : p'.submissions = s.pool.submissions := by rw [hdrops.frame]
  have hbrk : p'.taskBrk = s.pool.taskBrk := by rw [hdrops.frame]
  refine ⟨hdrops.wellFormed h.wellFormed, ?_, ?_, h.held_nodup⟩
  · have hledger := h.ledger.cancel (queuedTickets_cancel s.pool.task owner q)
    rw [Pool.ticketsOf, Pool.ticketsOf, h.wellFormed.queue_eq, htask, hsub]
    exact hledger
  · intro m hm
    obtain ⟨hfresh, hlt⟩ := h.held_fresh m hm
    refine ⟨?_, hbrk.symm ▸ hlt⟩
    intro r hin
    cases r with
    | tasks => exact hfresh .tasks (List.mem_of_mem_filter hin)
    | scheduled => exact hfresh .scheduled (List.mem_of_mem_filter hin)
    | recycled => exact hfresh .recycled hin

/-- A worker gives an object back. -/
theorem Tracked.recycled (h : Tracked s q) {i n : Nat} (hi : s.held[i]? = some n) :
    Tracked { s with pool := s.pool.recycleTask n, held := s.held.eraseIdx i }
      (Function.update q .recycled (q .recycled ++ [n])) := by
  obtain ⟨hilt, hget⟩ := List.getElem?_eq_some_iff.mp hi
  have hn : n ∈ s.held := List.mem_of_getElem? hi
  obtain ⟨hfresh, hlt⟩ := h.held_fresh n hn
  -- No object is held twice, so its position is as good as its number.
  have herase : s.held.eraseIdx i = s.held.erase n := by
    rw [← hget, h.held_nodup.erase_getElem i hilt]
  refine ⟨h.wellFormed.recycleTask hfresh hlt, h.ledger, ?_, ?_⟩
  · intro m hm
    rw [herase] at hm
    obtain ⟨hmn, hm⟩ := (h.held_nodup.mem_erase_iff).mp hm
    obtain ⟨hmfresh, hmlt⟩ := h.held_fresh m hm
    refine ⟨?_, hmlt⟩
    intro r hin
    rcases mem_or_eq_of_mem_inserted hin with hin | hin
    · exact hmfresh r hin
    · exact hmn hin
  · exact h.held_nodup.sublist (List.eraseIdx_sublist s.held i)

/-- Workers change their counters. -/
theorem Tracked.workers (h : Tracked s q) (thdCnt idleCnt : Nat) :
    Tracked { s with pool := { s.pool with thdCnt := thdCnt, idleCnt := idleCnt } } q := by
  have hw := h.wellFormed
  exact ⟨⟨⟨hw.rings, hw.brk, hw.idx⟩, hw.taskCnt, hw.scheduledTaskCnt, hw.taskMax⟩, h.ledger,
    h.held_fresh, h.held_nodup⟩

/-- Every call returns and keeps track of the tasks. -/
theorem Tracked.step (h : Tracked s q) (op : QueueOp) :
    ∃ s' q', s.step op = some s' ∧ Tracked s' q' := by
  cases op with
  | addTask a priority push alloc spawn now =>
      -- Refused at the task limit, refused for want of an object, or added.
      rcases h.wellFormed.addTask a priority push alloc spawn now with
        ⟨hfull, hcall⟩ | ⟨hfull, hobj, hcall⟩ |
        ⟨hfull, hobj, n, t, p', q', xs, ys, hcall, hadd, hplace, htasks, hscheduled, -⟩
      · exact ⟨s, q, by simp [QueueRun.step, hcall, hfull], h⟩
      · exact ⟨s, q, by simp [QueueRun.step, hcall, hobj], h⟩
      · refine ⟨_, q', by simp [QueueRun.step, hcall, hfull, hobj]; rfl, h.added hadd rfl ?_⟩
        rw [htasks, hscheduled, hplace.cut]
        exact List.perm_middle.append_right (q .scheduled)
  | scheduleTask a time alloc spawn now junk =>
      rcases h.wellFormed.scheduleTask a time alloc spawn now junk with
        ⟨hobj, hcall⟩ | ⟨hobj, n, t, p', q', xs, ys, hcall, hadd, hcut, hscheduled, htasks, -⟩
      · exact ⟨s, q, by simp [QueueRun.step, hcall, hobj], h⟩
      · refine ⟨_, q', by simp [QueueRun.step, hcall, hobj]; rfl, h.added hadd rfl ?_⟩
        rw [htasks, hscheduled, hcut, ← List.append_assoc, ← List.append_assoc]
        exact List.perm_middle
  | popTask now =>
      -- Nothing is due, a scheduled task is due, or the head of the tasks goes.
      rcases h.wellFormed.popTask now with
        ⟨-, hcall⟩ | ⟨n, ys, hq, -, hcall⟩ | ⟨n, ys, hq, hcall⟩
      · exact ⟨s, q, by simp [QueueRun.step, hcall], h⟩
      · have hcut : q .scheduled = [] ++ n :: ys := hq
        exact ⟨_, _, by simp [QueueRun.step, hcall],
          h.popped (by simp) hcut (h.wellFormed.dropScheduled hcut) rfl rfl rfl⟩
      · have hcut : q .tasks = [] ++ n :: ys := hq
        exact ⟨_, _, by simp [QueueRun.step, hcall],
          h.popped (by simp) hcut (h.wellFormed.dropTask hcut) rfl rfl rfl⟩
  | cancelTasks owner =>
      obtain ⟨p', hcall, hdrops⟩ := h.wellFormed.cancelTasks owner
      exact ⟨_, _, by simp [QueueRun.step, hcall], h.cancelled hdrops⟩
  | recycleTask i =>
      cases hi : s.held[i]? with
      | none => exact ⟨s, q, by simp [QueueRun.step, hi], h⟩
      | some n => exact ⟨_, _, by simp [QueueRun.step, hi], h.recycled hi⟩
  | workers thdCnt idleCnt =>
      exact ⟨_, q, rfl, h.workers thdCnt idleCnt⟩

/-- Every run keeps the record. By induction on the operations. -/
theorem Tracked.run (h : Tracked s q) (ops : List QueueOp) :
    ∃ s' q', s.run ops = some s' ∧ Tracked s' q' := by
  induction ops generalizing s q with
  | nil => exact ⟨s, q, rfl, h⟩
  | cons op ops ih =>
      obtain ⟨s₁, q₁, hstep, h₁⟩ := h.step op
      obtain ⟨s', q', hrun, h'⟩ := ih h₁
      exact ⟨s', q', by simp [QueueRun.run, hstep, hrun], h'⟩

end

/-- What a run keeps of the queues. `queue` reads a ring along `next`. -/
structure QueuesKept (s : QueueRun) : Prop where
  /-- `task_cnt` and `scheduled_task_cnt` are the lengths of the rings. -/
  taskCnt : s.pool.taskCnt = (s.pool.queue .tasks).length
  scheduledTaskCnt : s.pool.scheduledTaskCnt = (s.pool.queue .scheduled).length
  /-- The rings are linked up as their elements say. -/
  rings : Rings s.pool.taskLinks s.pool.queue
  /-- On each ring, `next` and `prev` are inverse to each other. -/
  inverse : ∀ r e, (e = .head r ∨ ∃ n ∈ s.pool.queue r, e = .elem n) →
    s.pool.taskLinks.prev (s.pool.taskLinks.next e) = e ∧
      s.pool.taskLinks.next (s.pool.taskLinks.prev e) = e
  /-- No element is in both rings, or twice in one. -/
  apart : (s.pool.queue .tasks ++ s.pool.queue .scheduled).Nodup
  /-- The queued tasks are those added and neither popped nor cancelled, each once. -/
  queued : ∀ k, k ∈ s.pool.tickets .tasks ++ s.pool.tickets .scheduled ↔
    k ∈ s.added ∧ k ∉ s.popped ∧ k ∉ s.cancelled
  once : (s.pool.tickets .tasks ++ s.pool.tickets .scheduled).Nodup
  /-- No task is popped twice. -/
  popped : s.popped.Nodup
  /-- The index points to queued tasks of its segments. -/
  idx : ∀ seg, s.pool.taskIdx seg ≠ .null →
    ∃ n ∈ s.pool.queue .tasks, s.pool.taskIdx seg = .elem n ∧ (s.pool.task n).seg = seg
  /-- A positive `task_max` is not exceeded. -/
  taskMax : 0 < s.pool.taskMax → s.pool.taskCnt ≤ s.pool.taskMax

/-- A record that is kept says that no task is lost or run twice. -/
theorem Tracked.queuesKept {s : QueueRun} {q : TaskRing → List Nat} (h : Tracked s q) :
    QueuesKept s := by
  have hq := h.wellFormed.queue_eq
  have hw := h.wellFormed
  -- The tickets are read off the two rings, first the tasks, then the scheduled ones.
  have htickets : s.pool.tickets .tasks ++ s.pool.tickets .scheduled
      = queuedTickets s.pool.task q := by
    rw [Pool.tickets, Pool.tickets, hq, queuedTickets, List.map_append]
  constructor
  · rw [hq]
    exact hw.taskCnt
  · rw [hq]
    exact hw.scheduledTaskCnt
  · rw [hq]
    exact hw.rings
  · rw [hq]
    intro r e he
    exact ⟨hw.rings.prev_next he, hw.rings.next_prev he⟩
  · rw [hq]
    refine List.nodup_append.mpr ⟨hw.rings.nodup .tasks, hw.rings.nodup .scheduled, ?_⟩
    rintro n hn m hm rfl
    exact absurd (hw.rings.disjoint .tasks .scheduled n hn hm) (by simp)
  · rw [htickets]
    exact h.ledger.mem_queued
  · rw [htickets]
    exact h.ledger.nodup
  · exact h.ledger.popped_nodup
  · rw [hq]
    exact hw.idx
  · intro hpos
    have hmax := hw.taskMax
    omega

/-- Every sequence of calls returns, and the queues neither lose nor duplicate a task. -/
theorem queuesKept_run (initThreads maxThreads maxTasks : Nat) (ops : List QueueOp) :
    ∃ s, (QueueRun.initial initThreads maxThreads maxTasks).run ops = some s ∧ QueuesKept s := by
  obtain ⟨s, q, hrun, h⟩ := (tracked_initial initThreads maxThreads maxTasks).run ops
  exact ⟨s, hrun, h.queuesKept⟩

end Mylib.Proofs.Thread
