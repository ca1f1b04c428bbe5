import Mylib.Proofs.Thread.PriorityOrder

/-!
# `Mylib.Proofs.Thread.DueOrder`: the order in which scheduled tasks are popped

A task that `base_threadpool_scheduletask` takes at the time `now` with the delay `time` is
due at `now + time`. `DueRun` keeps these times beside a run. `InDueOrder` says that the
scheduled ring is sorted by them, and `PopsDue` that `pop_task` takes a scheduled task only
when it is the earliest one and is due.

The ring is sorted by the times that `task_new` stores (`Scheduled`), whatever the delays and
the clock are. The stored time is the due time as long as the sum fits in `microsecond_t`.
A sum of `2 ^ 63` or more wraps to a time in the past, and the task is popped at once
(`not_dueOrderRun_of_wrap`).
-/

set_option autoImplicit false

namespace Mylib.Proofs.Thread

open Mylib.Lib.Ring
open Mylib.Spec.Thread

/-! ### The promised order -/

/-- A run, with the due time of each ticket. -/
structure DueRun where
  run : QueueRun
  due : Nat → Int

namespace DueRun

/-- A pool before its first task. -/
def initial (initThreads maxThreads maxTasks : Nat) : DueRun :=
  ⟨QueueRun.initial initThreads maxThreads maxTasks, fun _ => 0⟩

/-- The due times after a call: a scheduled task is due `time` after the call. -/
def dueAfter (s : DueRun) : QueueOp → Nat → Int
  | .scheduleTask _ time _ _ now _ => Function.update s.due s.run.pool.submissions (now + time)
  | _ => s.due

def step (s : DueRun) (op : QueueOp) : Option DueRun :=
  (s.run.step op).map fun run => ⟨run, s.dueAfter op⟩

/-- When the task in the object `n` is due. -/
def dueOf (s : DueRun) (n : Nat) : Int := s.due (s.run.pool.task n).ticket

/-- `m` is due before `n`, or they are due at one time and `m` was submitted first. -/
def Earlier (s : DueRun) (m n : Nat) : Prop :=
  s.dueOf m < s.dueOf n ∨
    (s.dueOf m = s.dueOf n ∧ (s.run.pool.task m).ticket < (s.run.pool.task n).ticket)

/-- The scheduled ring is sorted. -/
def InDueOrder (s : DueRun) : Prop := (s.run.pool.queue .scheduled).Pairwise s.Earlier

/-- If `pop_task` takes a scheduled task, then it is due and earlier than all others. -/
def PopsDue (s : DueRun) (now : Int) : Prop :=
  match s.run.pool.popTask now with
  | some (some n, _) =>
      n ∈ s.run.pool.queue .scheduled → s.dueOf n ≤ now ∧
        ∀ m ∈ s.run.pool.queue .scheduled, m ≠ n → s.Earlier n m
  | some (none, _) => True
  | none => False

/-- What is promised of a call. -/
def Promised (s : DueRun) : QueueOp → Prop
  | .popTask now => s.PopsDue now
  | _ => True

/-- Every call of the run returns, the scheduled ring is sorted in every state, and every
`pop_task` keeps to it. -/
def DueOrderRun (s : DueRun) : List QueueOp → Prop
  | [] => s.InDueOrder
  | op :: ops => s.InDueOrder ∧ s.Promised op ∧ ∃ s' ∈ s.step op, DueOrderRun s' ops

end DueRun

/-- The clock is a `microsecond_t`, and the delay of a scheduled task is positive. -/
def PositiveDelay : QueueOp → Prop
  | .scheduleTask _ time _ _ now _ => 0 < time ∧ -2 ^ 63 ≤ now
  | _ => True

/-- The due time of a scheduled task is a `microsecond_t`, unless no object can be had for it. -/
def DueFits (s : QueueRun) : QueueOp → Prop
  | .scheduleTask _ time alloc _ now _ => s.pool.hasObject alloc = true → now + time < 2 ^ 63
  | _ => True

namespace DueRun
variable (s : DueRun)

instance (m n : Nat) : Decidable (s.Earlier m n) := inferInstanceAs (Decidable (_ ∨ (_ ∧ _)))

instance : Decidable s.InDueOrder := inferInstanceAs (Decidable (List.Pairwise _ _))

instance (now : Int) : Decidable (s.PopsDue now) :=
  match h : s.run.pool.popTask now with
  | some (some n, _) =>
      decidable_of_iff
        (n ∈ s.run.pool.queue .scheduled → s.dueOf n ≤ now ∧
          ∀ m ∈ s.run.pool.queue .scheduled, m ≠ n → s.Earlier n m)
        (by simp [PopsDue, h])
  | some (none, _) => isTrue (by simp [PopsDue, h])
  | none => isFalse (by simp [PopsDue, h])

instance : (op : QueueOp) → Decidable (s.Promised op)
  | .popTask now => inferInstanceAs (Decidable (s.PopsDue now))
  | .addTask .. => isTrue trivial
  | .scheduleTask .. => isTrue trivial
  | .cancelTasks _ => isTrue trivial
  | .recycleTask _ => isTrue trivial
  | .workers .. => isTrue trivial

instance decidableDueOrderRun :
    (s : DueRun) → (ops : List QueueOp) → Decidable (s.DueOrderRun ops)
  | s, [] => inferInstanceAs (Decidable s.InDueOrder)
  | s, op :: ops =>
      have := fun s' => decidableDueOrderRun s' ops
      inferInstanceAs (Decidable (s.InDueOrder ∧ s.Promised op ∧
        ∃ s' ∈ s.step op, DueOrderRun s' ops))

end DueRun

instance : (op : QueueOp) → Decidable (PositiveDelay op)
  | .scheduleTask _ time _ _ now _ => inferInstanceAs (Decidable (0 < time ∧ -2 ^ 63 ≤ now))
  | .popTask _ => isTrue trivial
  | .addTask .. => isTrue trivial
  | .cancelTasks _ => isTrue trivial
  | .recycleTask _ => isTrue trivial
  | .workers .. => isTrue trivial

instance (s : QueueRun) : (op : QueueOp) → Decidable (DueFits s op)
  | .scheduleTask _ time alloc _ now _ =>
      inferInstanceAs (Decidable (s.pool.hasObject alloc = true → now + time < 2 ^ 63))
  | .popTask _ => isTrue trivial
  | .addTask .. => isTrue trivial
  | .cancelTasks _ => isTrue trivial
  | .recycleTask _ => isTrue trivial
  | .workers .. => isTrue trivial

/-! ### The ring is sorted by the stored times -/

/-- `m` is stored with an earlier time than `n`, or with the same and submitted first. -/
def StoredEarlier (task : Nat → PoolTask) (m n : Nat) : Prop :=
  (task m).time < (task n).time ∨
    ((task m).time = (task n).time ∧ (task m).ticket < (task n).ticket)

/-- A task that is stored earlier has no later time. -/
theorem StoredEarlier.time_le {task : Nat → PoolTask} {m n : Nat} (h : StoredEarlier task m n) :
    (task m).time ≤ (task n).time := by
  rcases h with hlt | ⟨heq, -⟩
  · exact Int.le_of_lt hlt
  · exact Int.le_of_eq heq

/-- A new task at the place `schedule_task` finds for it keeps the order. -/
theorem pairwise_insert {task : Nat → PoolTask} {n : Nat} {xs ys : List Nat}
    (hsorted : (xs ++ ys).Pairwise (StoredEarlier task))
    (hplace : SchedulePlace task (task n).time xs ys)
    (hticket : ∀ m ∈ xs, (task m).ticket < (task n).ticket) :
    (xs ++ n :: ys).Pairwise (StoredEarlier task) := by
  obtain ⟨hxs, hys, hxy⟩ := List.pairwise_append.mp hsorted
  -- The head of `ys` is later than `n`, and no task behind it is earlier than the head.
  have hbehind : ∀ m ∈ ys, (task n).time < (task m).time := by
    cases ys with
    | nil => simp
    | cons k ys =>
        have hk := hplace.behind k rfl
        intro m hm
        rcases List.mem_cons.mp hm with rfl | hm
        · exact hk
        · have hkm := ((List.pairwise_cons.mp hys).1 m hm).time_le
          omega
  refine List.pairwise_append.mpr ⟨hxs, List.pairwise_cons.mpr ⟨?_, hys⟩, ?_⟩
  · intro m hm
    exact Or.inl (hbehind m hm)
  · intro k hk m hm
    rcases List.mem_cons.mp hm with rfl | hm
    · have hle := hplace.front k hk
      rcases Int.lt_or_eq_of_le hle with hlt | heq
      · exact Or.inl hlt
      · exact Or.inr ⟨heq, hticket k hk⟩
    · exact hxy k hk m hm

/-- The scheduled ring of a tracked run is sorted by the stored times, and these are the due
times of the tasks. -/
structure Scheduled (s : DueRun) (q : TaskRing → List Nat) : Prop extends Tracked s.run q where
  sorted : (q .scheduled).Pairwise (StoredEarlier s.run.pool.task)
  stored : ∀ n ∈ q .scheduled, s.dueOf n = (s.run.pool.task n).time

section
variable {s : DueRun} {q q' : TaskRing → List Nat}

/-- The promise about the ring, read off the stored times. -/
theorem Scheduled.earlier (h : Scheduled s q) {m n : Nat} (hm : m ∈ q .scheduled)
    (hn : n ∈ q .scheduled) (hmn : StoredEarlier s.run.pool.task m n) : s.Earlier m n := by
  rw [DueRun.Earlier, h.stored m hm, h.stored n hn]
  exact hmn

/-- A ring that is sorted by the stored times is in the order of the due times. -/
theorem Scheduled.inDueOrder (h : Scheduled s q) : s.InDueOrder := by
  rw [DueRun.InDueOrder, h.wellFormed.queue_eq]
  exact h.sorted.imp_of_mem fun hm hn hmn => h.earlier hm hn hmn

/-- A scheduled task leaves the ring only as its first element, and when its time has come. -/
theorem Scheduled.popsDue (h : Scheduled s q) (now : Int) : s.PopsDue now := by
  have hqueue := h.wellFormed.queue_eq
  rw [DueRun.PopsDue, hqueue]
  rcases h.wellFormed.popTask now with
    ⟨-, hcall⟩ | ⟨n, ys, hq, hdue, hcall⟩ | ⟨n, ys, hq, hcall⟩
  · simp only [hcall]
  · simp only [hcall]
    intro hn
    have hsorted := h.sorted
    rw [hq] at hsorted
    refine ⟨(h.stored n hn).symm ▸ hdue, ?_⟩
    intro m hm hmn
    have hbehind : m ∈ ys := List.mem_of_ne_of_mem hmn (hq ▸ hm)
    exact h.earlier hn hm ((List.pairwise_cons.mp hsorted).1 m hbehind)
  · simp only [hcall]
    intro hn
    -- It came from the ring of immediate tasks, which shares no object with this one.
    have hboth := h.wellFormed.rings.disjoint .tasks .scheduled n (by simp [hq]) hn
    exact absurd hboth (by simp)

/-- A call that adds no scheduled task keeps the order. -/
theorem Scheduled.frame (h : Scheduled s q) {run : QueueRun} (h' : Tracked run q')
    (hsub : (q' .scheduled).Sublist (q .scheduled))
    (hold : ∀ m ∈ q .scheduled, run.pool.task m = s.run.pool.task m) :
    Scheduled ⟨run, s.due⟩ q' := by
  refine ⟨h', ?_, ?_⟩
  · refine (h.sorted.sublist hsub).imp_of_mem ?_
    intro m n hm hn hmn
    simpa only [StoredEarlier, hold m (hsub.subset hm), hold n (hsub.subset hn)] using hmn
  · intro n hn
    have hstored := h.stored n (hsub.subset hn)
    rw [DueRun.dueOf] at hstored ⊢
    rw [hold n (hsub.subset hn), hstored]

/-- What `task_new` stores is the due time, if that is a `microsecond_t`. -/
theorem init_time (t : PoolTask) (a : Submission) {time now : Int} (ticket : Nat)
    (hpos : 0 < time ∧ -2 ^ 63 ≤ now) (hfits : now + time < 2 ^ 63) :
    (t.init a 0 time now ticket).time = now + time := by
  have hdispatch : (t.init a 0 time now ticket).dispatch = BitVec.ofInt 64 (now + time) :=
    if_pos hpos.1
  rw [PoolTask.time, hdispatch, BitVec.toInt_ofInt]
  exact Int.bmod_eq_of_le (by omega) (by omega)

/-- `schedule_task` keeps the order. -/
theorem Scheduled.scheduled (h : Scheduled s q) {n : Nat} {t : PoolTask} {p' : Pool}
    {xs ys : List Nat} {run : QueueRun} {due : Int} (h' : Tracked run q') (hrun : run.pool = p')
    (hadd : TaskAdded s.run.pool q n t p' q') (ht : t.ticket = s.run.pool.submissions)
    (hdue : t.time = due) (hcut : q .scheduled = xs ++ ys) (hq' : q' .scheduled = xs ++ n :: ys)
    (hplace : SchedulePlace s.run.pool.task t.time xs ys) :
    Scheduled ⟨run, Function.update s.due s.run.pool.submissions due⟩ q' := by
  have hnew : run.pool.task n = t := by rw [hrun, hadd.task, Function.update_self]
  -- The tasks that stay in the ring keep their contents, since the object of `n` is new to it.
  have hold : ∀ m ∈ xs ++ ys, run.pool.task m = s.run.pool.task m := by
    intro m hm
    rw [hrun, hadd.task, Function.update_of_ne]
    rintro rfl
    exact hadd.fresh h.wellFormed (r := .scheduled) (by simp) (hcut ▸ hm)
  have hticket : ∀ m ∈ xs ++ ys, (s.run.pool.task m).ticket < s.run.pool.submissions := by
    intro m hm
    exact h.ticket_lt (List.mem_append_right _ (hcut ▸ hm))
  -- So the ring without `n` is still ordered.
  have hsorted : (xs ++ ys).Pairwise (StoredEarlier run.pool.task) := by
    refine (hcut ▸ h.sorted).imp_of_mem ?_
    intro k m hk hm hkm
    simpa only [StoredEarlier, hold k hk, hold m hm] using hkm
  refine ⟨h', ?_, ?_⟩
  · rw [hq']
    refine pairwise_insert hsorted ⟨?_, ?_⟩ ?_
    · intro m hm
      rw [hold m (List.mem_append_left _ hm), hnew]
      exact hplace.front m hm
    · intro m hm
      rw [hold m (List.mem_append_right _ (List.mem_of_head? hm)), hnew]
      exact hplace.behind m hm
    · intro m hm
      rw [hold m (List.mem_append_left _ hm), hnew, ht]
      exact hticket m (List.mem_append_left _ hm)
  · intro m hm
    -- The new ticket is recorded with its due time, and the old tickets are below it.
    rw [hq'] at hm
    show Function.update s.due s.run.pool.submissions due (run.pool.task m).ticket = _
    rcases List.mem_cons.mp (List.perm_middle.subset hm) with rfl | hm
    · rw [hnew, ht, Function.update_self, hdue]
    · have hlt := hticket m hm
      rw [hold m hm, Function.update_of_ne (by omega), ← h.stored m (hcut ▸ hm), DueRun.dueOf]

/-- A task that is added at once does not touch the scheduled ring. -/
theorem Scheduled.addTask (h : Scheduled s q) (a : Submission) (priority : Int)
    (push alloc : Bool) (spawn now : Int) :
    ∃ s' q', s.step (.addTask a priority push alloc spawn now) = some s' ∧ Scheduled s' q' := by
  rcases h.wellFormed.addTask a priority push alloc spawn now with
    ⟨hfull, hcall⟩ | ⟨hfull, hobj, hcall⟩ |
    ⟨hfull, hobj, n, t, p', q', xs, ys, hcall, hadd, hplace, htasks, hscheduled, -⟩
  · exact ⟨s, q, by simp [DueRun.step, DueRun.dueAfter, QueueRun.step, hcall, hfull], h⟩
  · exact ⟨s, q, by simp [DueRun.step, DueRun.dueAfter, QueueRun.step, hcall, hobj], h⟩
  · refine ⟨⟨_, s.due⟩, q', by
      simp [DueRun.step, DueRun.dueAfter, QueueRun.step, hcall, hfull, hobj]; rfl,
      h.frame (h.toTracked.added hadd rfl ?_) (hscheduled ▸ List.Sublist.refl _) ?_⟩
    · rw [htasks, hscheduled, hplace.cut]
      exact List.perm_middle.append_right (q .scheduled)
    · intro m hm
      change p'.task m = s.run.pool.task m
      rw [hadd.task, Function.update_of_ne]
      rintro rfl
      exact hadd.fresh h.wellFormed (r := .scheduled) (by simp) hm

/-- A scheduled task is stored with its due time, if that is a `microsecond_t`. -/
theorem Scheduled.scheduleTask (h : Scheduled s q) (a : Submission) {time now : Int}
    (alloc : Bool) (spawn junk : Int) (hpos : 0 < time ∧ -2 ^ 63 ≤ now)
    (hfits : s.run.pool.hasObject alloc = true → now + time < 2 ^ 63) :
    ∃ s' q', s.step (.scheduleTask a time alloc spawn now junk) = some s' ∧ Scheduled s' q' := by
  rcases h.wellFormed.scheduleTask a time alloc spawn now junk with
    ⟨hobj, hcall⟩ |
    ⟨hobj, n, t, p', q', xs, ys, hcall, hadd, hcut, hscheduled, htasks, -, -, hplace⟩
  · -- No object: the ticket is not given out, so its entry says nothing yet.
    refine ⟨⟨s.run, s.dueAfter (.scheduleTask a time alloc spawn now junk)⟩, q,
      by simp [DueRun.step, QueueRun.step, hcall, hobj], h.toTracked, h.sorted, ?_⟩
    intro m hm
    have hlt := h.ticket_lt (List.mem_append_right _ hm)
    rw [← h.stored m hm]
    exact Function.update_of_ne (Nat.ne_of_lt hlt) _ _
  · have htracked : Tracked { s.run with
        pool := p', added := s.run.pool.submissions :: s.run.added } q' := by
      refine h.toTracked.added hadd rfl ?_
      rw [htasks, hscheduled, hcut, ← List.append_assoc, ← List.append_assoc]
      exact List.perm_middle
    exact ⟨_, q', by simp [DueRun.step, QueueRun.step, hcall, hobj]; rfl,
      h.scheduled htracked rfl hadd rfl (init_time t a _ hpos (hfits hobj)) hcut hscheduled hplace⟩

/-- A pop takes the first element of one of the two rings. -/
theorem Scheduled.popTask (h : Scheduled s q) (now : Int) :
    ∃ s' q', s.step (.popTask now) = some s' ∧ Scheduled s' q' := by
  rcases h.wellFormed.popTask now with
    ⟨-, hcall⟩ | ⟨n, ys, hq, -, hcall⟩ | ⟨n, ys, hq, hcall⟩
  · exact ⟨s, q, by simp [DueRun.step, DueRun.dueAfter, QueueRun.step, hcall], h⟩
  · have hcut : q .scheduled = [] ++ n :: ys := hq
    refine ⟨_, _, by simp [DueRun.step, DueRun.dueAfter, QueueRun.step, hcall],
      h.frame (h.toTracked.popped (by simp) hcut (h.wellFormed.dropScheduled hcut) rfl rfl rfl)
        ?_ fun m _ => rfl⟩
    rw [Function.update_self, hq]
    exact List.sublist_cons_self n ys
  · have hcut : q .tasks = [] ++ n :: ys := hq
    refine ⟨_, _, by simp [DueRun.step, DueRun.dueAfter, QueueRun.step, hcall],
      h.frame (h.toTracked.popped (by simp) hcut (h.wellFormed.dropTask hcut) rfl rfl rfl)
        ?_ fun m _ => rfl⟩
    -- The other ring is as it was.
    rw [Function.update_of_ne (by simp)]

/-- Every call that meets the condition keeps the order. -/
theorem Scheduled.step (h : Scheduled s q) {op : QueueOp} (hpos : PositiveDelay op)
    (hfits : DueFits s.run op) : ∃ s' q', s.step op = some s' ∧ Scheduled s' q' := by
  cases op with
  | addTask a priority push alloc spawn now => exact h.addTask a priority push alloc spawn now
  | scheduleTask a time alloc spawn now junk =>
      exact h.scheduleTask a alloc spawn junk hpos hfits
  | popTask now => exact h.popTask now
  | cancelTasks owner =>
      obtain ⟨p', hcall, hdrops⟩ := h.wellFormed.cancelTasks owner
      have htask : p'.task = s.run.pool.task := by rw [hdrops.frame]
      exact ⟨_, _, by simp [DueRun.step, DueRun.dueAfter, QueueRun.step, hcall],
        h.frame (h.toTracked.cancelled hdrops) List.filter_sublist fun m _ => congrFun htask m⟩
  | recycleTask i =>
      cases hi : s.run.held[i]? with
      | none => exact ⟨s, q, by simp [DueRun.step, DueRun.dueAfter, QueueRun.step, hi], h⟩
      | some n =>
          exact ⟨_, _, by simp [DueRun.step, DueRun.dueAfter, QueueRun.step, hi],
            h.frame (h.toTracked.recycled hi) (List.Sublist.refl _) fun m _ => rfl⟩
  | workers thdCnt idleCnt =>
      exact ⟨_, q, rfl,
        h.frame (h.toTracked.workers thdCnt idleCnt) (List.Sublist.refl _) fun m _ => rfl⟩

/-- A run whose steps all fit keeps the order. By induction on the operations. -/
theorem Scheduled.run (h : Scheduled s q) {ops : List QueueOp}
    (hpos : ∀ op ∈ ops, PositiveDelay op) (hfits : AllSteps DueFits s.run ops) :
    s.DueOrderRun ops := by
  induction ops generalizing s q with
  | nil => exact h.inDueOrder
  | cons op ops ih =>
      obtain ⟨hop, hrest⟩ := hfits
      obtain ⟨s', q', hstep, h'⟩ := h.step (hpos op List.mem_cons_self) hop
      -- the due times beside the run do not change what it does
      obtain ⟨run, hrun, rfl⟩ := Option.map_eq_some_iff.mp hstep
      refine ⟨h.inDueOrder, ?_, _, hstep,
        ih h' (fun o ho => hpos o (List.mem_cons_of_mem _ ho)) (hrest run hrun)⟩
      cases op with
      | popTask now => exact h.popsDue now
      | _ => trivial

end

/-- In every run whose due times fit in `microsecond_t`, scheduled tasks are kept and popped
in due order. -/
theorem dueOrderRun_of_dueFits (initThreads maxThreads maxTasks : Nat) (ops : List QueueOp)
    (hpos : ∀ op ∈ ops, PositiveDelay op)
    (hfits : AllSteps DueFits (QueueRun.initial initThreads maxThreads maxTasks) ops) :
    (DueRun.initial initThreads maxThreads maxTasks).DueOrderRun ops := by
  refine Scheduled.run (q := fun _ => []) ⟨tracked_initial initThreads maxThreads maxTasks,
    List.Pairwise.nil, ?_⟩ hpos hfits
  intro n hn
  exact absurd hn (by simp)

/-- A task with the given delay, taken at the given time. The sentinel of the empty ring reads
as the time 3. -/
def schedule (time now : Int) : QueueOp := .scheduleTask ⟨1, 0, 2, 3⟩ time true 0 now 3

/-- Two tasks for one time with an earlier one, a task on another ring, a cancellation of
another owner, and pops before and after the due times. -/
theorem dueOrderRun_mixed :
    (DueRun.initial 1 1 0).DueOrderRun
      [schedule 9 1, schedule 4 2, schedule 8 2, .addTask ⟨1, 0, 2, 5⟩ 7 true true 0 2, .popTask 2,
        .cancelTasks 7, .popTask 6, .popTask 6, .recycleTask 0, schedule 1 7, .popTask 11] :=
  dueOrderRun_of_dueFits 1 1 0 _ (by decide) (by decide)

/-- A task with the longest delay, taken one microsecond after the epoch, is due at `2 ^ 63`.
The sum wraps, and the next `pop_task` takes the task. -/
theorem not_dueOrderRun_of_wrap :
    (∀ op ∈ [schedule (2 ^ 63 - 1) 1, .popTask 2], PositiveDelay op) ∧
      ¬ (DueRun.initial 1 1 0).DueOrderRun [schedule (2 ^ 63 - 1) 1, .popTask 2] := by
  decide

end Mylib.Proofs.Thread
