import Mylib.Proofs.Thread.NoLostTask

/-!
# `Mylib.Proofs.Thread.PriorityOrder`: the order in which tasks are popped

`Entry` is what the order depends on: the priority, the ticket and whether the task was
added with `top`. `Entry.Before` is the promised order, and `PriorityRun` says that every
`pop_task` of a run takes a task that is before all others in the queue.

The ring keeps this order only while the index of each segment points to the first task of
the segment, because `add_task` starts its walk there. A pushed task that is linked in front
of the indexed task does not take over the index. So the next task of the segment may be
linked behind it although it has a higher priority (`not_priorityRun_of_rising`).

`StepOk` excludes this: a pushed task has at most the priority of the task that is indexed
for its segment. Then `Indexed` holds in every state, that is, the ring is sorted and the
index is right, and `priorityRun_of_runOk` follows.
-/

set_option autoImplicit false

namespace Mylib.Proofs.Thread

open Mylib.Lib.Ring
open Mylib.Spec.Thread

/-! ### The promised order -/

/-- What the order of tasks depends on. -/
structure Entry where
  priority : Int
  ticket : Nat
  top : Bool
  deriving DecidableEq, Repr

/-- `e` comes out while `f` stays queued: it has a higher priority; or they have the same,
`f` was not put on top of it, and if both were pushed, `e` was first. -/
def Entry.Before (e f : Entry) : Prop :=
  f.priority < e.priority ∨
    (f.priority = e.priority ∧ (f.top → f.ticket < e.ticket) ∧
      (!e.top → !f.top → e.ticket < f.ticket))

/-- The entry of a task object. -/
def entry (task : Nat → PoolTask) (topped : List Nat) (n : Nat) : Entry where
  priority := (task n).priority
  ticket := (task n).ticket
  top := (task n).ticket ∈ topped

instance (e f : Entry) : Decidable (e.Before f) :=
  inferInstanceAs (Decidable (_ ∨ (_ ∧ _ ∧ _)))

/-- `pop_task` takes a queued task that is before all others, and none only if none is
queued. -/
def PopsFirst (s : QueueRun) (now : Int) : Prop :=
  match s.pool.popTask now with
  | some (some n, _) =>
      n ∈ s.pool.queue .tasks ∧
        ∀ m ∈ s.pool.queue .tasks, m ≠ n →
          (entry s.pool.task s.topped n).Before (entry s.pool.task s.topped m)
  | some (none, _) => s.pool.queue .tasks = []
  | none => False

/-- What is promised of a call. -/
def Promised (s : QueueRun) : QueueOp → Prop
  | .popTask now => PopsFirst s now
  | _ => True

/-- Every call of the run returns, and every `pop_task` takes a task that is before all
others. -/
def PriorityRun (s : QueueRun) : List QueueOp → Prop
  | [] => True
  | op :: ops => Promised s op ∧ ∃ s' ∈ s.step op, PriorityRun s' ops

/-- Priorities are from 0 to 255, and no scheduled task is due at a `pop_task`. -/
def InRange (s : QueueRun) : QueueOp → Prop
  | .addTask _ priority _ _ _ _ => 0 ≤ priority ∧ priority ≤ 255
  | .popTask now => ∀ n ∈ s.pool.queue .scheduled, now < (s.pool.task n).time
  | _ => True

/-- A pushed task has at most the priority of the task indexed for its segment, unless the call is
refused: at the limit of tasks, or where no object can be had. -/
def PushOk (s : QueueRun) : QueueOp → Prop
  | .addTask _ priority true alloc _ _ =>
      s.pool.full = true ∨ s.pool.hasObject alloc = false ∨
        match s.pool.taskIdx (prioritySeg priority) with
        | .elem m => priority ≤ (s.pool.task m).priority
        | _ => True
  | _ => True

/-- The condition under which the order is kept. -/
def StepOk (s : QueueRun) (op : QueueOp) : Prop := InRange s op ∧ PushOk s op

/-- All calls of a run meet a condition on the state before them. -/
def AllSteps (P : QueueRun → QueueOp → Prop) (s : QueueRun) : List QueueOp → Prop
  | [] => True
  | op :: ops => P s op ∧ ∀ s' ∈ s.step op, AllSteps P s' ops

section
variable (s : QueueRun)

instance (now : Int) : Decidable (PopsFirst s now) :=
  match h : s.pool.popTask now with
  | some (some n, _) =>
      decidable_of_iff
        (n ∈ s.pool.queue .tasks ∧ ∀ m ∈ s.pool.queue .tasks, m ≠ n →
          (entry s.pool.task s.topped n).Before (entry s.pool.task s.topped m))
        (by simp [PopsFirst, h])
  | some (none, _) => decidable_of_iff (s.pool.queue .tasks = []) (by simp [PopsFirst, h])
  | none => isFalse (by simp [PopsFirst, h])

instance : (op : QueueOp) → Decidable (Promised s op)
  | .popTask now => inferInstanceAs (Decidable (PopsFirst s now))
  | .addTask .. => isTrue trivial
  | .scheduleTask .. => isTrue trivial
  | .cancelTasks _ => isTrue trivial
  | .recycleTask _ => isTrue trivial
  | .workers .. => isTrue trivial

instance : (op : QueueOp) → Decidable (InRange s op)
  | .popTask now =>
      inferInstanceAs (Decidable (∀ n ∈ s.pool.queue .scheduled, now < (s.pool.task n).time))
  | .addTask _ priority .. => inferInstanceAs (Decidable (0 ≤ priority ∧ priority ≤ 255))
  | .scheduleTask .. => isTrue trivial
  | .cancelTasks _ => isTrue trivial
  | .recycleTask _ => isTrue trivial
  | .workers .. => isTrue trivial

instance : (op : QueueOp) → Decidable (PushOk s op)
  | .addTask _ priority true alloc _ _ =>
      match h : s.pool.taskIdx (prioritySeg priority) with
      | .elem m =>
          decidable_of_iff (s.pool.full = true ∨ s.pool.hasObject alloc = false ∨
            priority ≤ (s.pool.task m).priority) (by simp [PushOk, h])
      | .null => isTrue (by simp [PushOk, h])
      | .head _ => isTrue (by simp [PushOk, h])
  | .addTask _ _ false .. => isTrue trivial
  | .scheduleTask .. => isTrue trivial
  | .popTask _ => isTrue trivial
  | .cancelTasks _ => isTrue trivial
  | .recycleTask _ => isTrue trivial
  | .workers .. => isTrue trivial

instance (op : QueueOp) : Decidable (StepOk s op) := inferInstanceAs (Decidable (_ ∧ _))

end

instance decidableAllSteps (P : QueueRun → QueueOp → Prop) [∀ s op, Decidable (P s op)] :
    (s : QueueRun) → (ops : List QueueOp) → Decidable (AllSteps P s ops)
  | _, [] => isTrue trivial
  | s, op :: ops =>
      have := fun s' => decidableAllSteps P s' ops
      inferInstanceAs (Decidable (P s op ∧ ∀ s' ∈ s.step op, AllSteps P s' ops))

instance decidablePriorityRun :
    (s : QueueRun) → (ops : List QueueOp) → Decidable (PriorityRun s ops)
  | _, [] => isTrue trivial
  | s, op :: ops =>
      have := fun s' => decidablePriorityRun s' ops
      inferInstanceAs (Decidable (Promised s op ∧ ∃ s' ∈ s.step op, PriorityRun s' ops))

/-! ### The sorted ring and its index -/

/-- The segment of a priority is its quarter of the range. -/
theorem prioritySeg_val {k : Int} (h0 : 0 ≤ k) (h1 : k ≤ 255) :
    ((prioritySeg k).val : Int) = k / 64 := by
  have hval : (prioritySeg k).val = (k % 256).toNat / 64 := rfl
  omega

/-- Below 256, higher segments have higher priorities. -/
theorem lt_of_prioritySeg_lt {j k : Int} (hj : 0 ≤ j ∧ j ≤ 255) (hk : 0 ≤ k ∧ k ≤ 255)
    (h : prioritySeg j < prioritySeg k) : j < k := by
  have hjv := prioritySeg_val hj.1 hj.2
  have hkv := prioritySeg_val hk.1 hk.2
  have hlt := Fin.lt_def.mp h
  omega

/-- A higher priority has no lower segment. -/
theorem prioritySeg_le_of_le {j k : Int} (hj : 0 ≤ j ∧ j ≤ 255) (hk : 0 ≤ k ∧ k ≤ 255)
    (h : j ≤ k) : prioritySeg j ≤ prioritySeg k := by
  by_contra hlt
  have hkj := lt_of_prioritySeg_lt hk hj (by omega)
  omega

/-- The priorities fall along the ring, and each segment's index points to its first task,
or nowhere if it has none. -/
structure Indexed (idx : Fin 4 → TaskPtr) (task : Nat → PoolTask) (tasks : List Nat) : Prop where
  nodup : tasks.Nodup
  range : ∀ n ∈ tasks, 0 ≤ (task n).priority ∧ (task n).priority ≤ 255
  sorted : tasks.Pairwise fun m n => (task n).priority ≤ (task m).priority
  null : ∀ seg, idx seg = .null → ∀ m ∈ tasks, (task m).seg ≠ seg
  elem : ∀ seg n, idx seg = .elem n → (task n).seg = seg ∧
    ∃ xs ys, tasks = xs ++ n :: ys ∧ ∀ m ∈ xs, (task m).seg ≠ seg

namespace Indexed
variable {idx idx' : Fin 4 → TaskPtr} {task task' : Nat → PoolTask} {tasks xs ys : List Nat}
  {n m : Nat} {seg : Fin 4} {push : Bool}

/-- No task of the segment is in front of the indexed one. -/
theorem front (h : Indexed idx task tasks) (hidx : idx seg = .elem n)
    (hcut : tasks = xs ++ n :: ys) : ∀ m ∈ xs, (task m).seg ≠ seg := by
  obtain ⟨-, xs', ys', hcut', hfront⟩ := h.elem seg n hidx
  have hnd := h.nodup
  rw [hcut] at hnd hcut'
  have hxs : xs = xs' := eq_of_firstNode_eq (i := TaskRing.tasks) hnd hcut' rfl
  rwa [hxs]

/-- In front of a task there are tasks of at least its priority, and so of its segment or a
higher one. -/
theorem le_of_front (h : Indexed idx task tasks) (hcut : tasks = xs ++ n :: ys) :
    ∀ m ∈ xs, (task n).priority ≤ (task m).priority ∧ (task n).seg ≤ (task m).seg := by
  intro m hm
  have hsorted := h.sorted
  rw [hcut] at hsorted
  have hle := (List.pairwise_append.mp hsorted).2.2 m hm n List.mem_cons_self
  have hrange := h.range
  rw [hcut] at hrange
  exact ⟨hle, prioritySeg_le_of_le (hrange n (by simp)) (hrange m (by simp [hm])) hle⟩

/-- Behind a task there are tasks of at most its priority. -/
theorem le_of_behind (h : Indexed idx task tasks) (hcut : tasks = xs ++ n :: ys) :
    ∀ m ∈ ys, (task m).priority ≤ (task n).priority ∧ (task m).seg ≤ (task n).seg := by
  intro m hm
  have hsorted := h.sorted
  rw [hcut] at hsorted
  have hle := (List.pairwise_cons.mp (List.pairwise_append.mp hsorted).2.1).1 m hm
  have hrange := h.range
  rw [hcut] at hrange
  exact ⟨hle, prioritySeg_le_of_le (hrange m (by simp [hm])) (hrange n (by simp)) hle⟩

/-- Only the queued tasks matter. -/
theorem congr (h : Indexed idx task tasks) (hagree : ∀ m ∈ tasks, task' m = task m) :
    Indexed idx task' tasks := by
  refine ⟨h.nodup, ?_, ?_, ?_, ?_⟩
  · intro m hm
    rw [hagree m hm]
    exact h.range m hm
  · refine h.sorted.imp_of_mem ?_
    intro m k hm hk hle
    rw [hagree m hm, hagree k hk]
    exact hle
  · intro seg hnull m hm
    rw [hagree m hm]
    exact h.null seg hnull m hm
  · intro seg k hidx
    obtain ⟨hseg, xs, ys, hcut, hfront⟩ := h.elem seg k hidx
    have hk : k ∈ tasks := by simp [hcut]
    refine ⟨by rw [hagree k hk, hseg], xs, ys, hcut, ?_⟩
    intro m hm
    rw [hagree m (by simp [hcut, hm])]
    exact hfront m hm

/-- Taking a task out. -/
theorem advance (h : Indexed idx task tasks) (hcut : tasks = xs ++ n :: ys)
    (hidx' : ∀ seg, idx' seg = if idx seg = .elem n then headOfSeg task seg ys else idx seg) :
    Indexed idx' task (xs ++ ys) := by
  -- Taking `n` out leaves a part of the same list, so order and range hold of it.
  have hsub : ∀ m ∈ xs ++ ys, m ∈ tasks := by
    intro m hm
    rw [hcut]
    exact mem_middle_of_mem n hm
  have hsublist : (xs ++ ys).Sublist tasks := by
    rw [hcut]
    exact (List.sublist_cons_self n ys).append_left xs
  refine ⟨h.nodup.sublist hsublist, fun m hm => h.range m (hsub m hm), h.sorted.sublist hsublist,
    ?_, ?_⟩
  -- A segment whose entry is null now: it was null before, or `n` was its last task.
  · intro seg hnull m hm
    rw [hidx'] at hnull
    by_cases hn : idx seg = .elem n
    · rw [if_pos hn] at hnull
      rcases List.mem_append.mp hm with hm | hm
      · exact h.front hn hcut m hm
      · -- The task behind `n` is of a lower segment, and so are all tasks behind it.
        cases ys with
        | nil => exact absurd hm (by simp)
        | cons k ys =>
            have hk : (task k).seg ≠ seg := by
              intro hk
              simp [headOfSeg, hk] at hnull
            have hkn := (h.le_of_behind hcut k List.mem_cons_self).2
            rw [(h.elem seg n hn).1] at hkn
            have hmk : (task m).seg ≤ (task k).seg := by
              rcases List.mem_cons.mp hm with rfl | hm
              · exact Fin.le_refl _
              · exact (h.le_of_behind (hcut.trans (by simp : _ = (xs ++ [n]) ++ k :: ys)) m hm).2
            omega
    · rw [if_neg hn] at hnull
      exact h.null seg hnull m (hsub m hm)
  -- An entry that is set now: moved on to the task behind `n`, or not `n` at all.
  · intro seg k hk
    rw [hidx'] at hk
    by_cases hn : idx seg = .elem n
    · rw [if_pos hn] at hk
      cases ys with
      | nil => exact absurd hk (by simp [headOfSeg])
      | cons m ys =>
          by_cases hm : (task m).seg = seg
          · obtain rfl : m = k := by simpa [headOfSeg, hm] using hk
            exact ⟨hm, xs, ys, rfl, h.front hn hcut⟩
          · simp [headOfSeg, hm] at hk
    · rw [if_neg hn] at hk
      obtain ⟨hseg, as, bs, has, hfront⟩ := h.elem seg k hk
      refine ⟨hseg, ?_⟩
      have hkn : k ≠ n := by
        rintro rfl
        exact hn hk
      have hkmem : k ∈ xs ++ n :: ys := by simp [← hcut, has]
      -- The entry is in front of `n` or behind it; either way it is still the first of its segment.
      rcases List.mem_append.mp hkmem with hkx | hky
      · obtain ⟨cs, ds, rfl⟩ := List.append_of_mem hkx
        have hcut' : tasks = cs ++ k :: (ds ++ n :: ys) := by simp [hcut]
        exact ⟨cs, ds ++ ys, by simp, h.front hk hcut'⟩
      · obtain ⟨cs, ds, hys⟩ := List.append_of_mem (List.mem_of_ne_of_mem hkn hky)
        have hcut' : tasks = (xs ++ n :: cs) ++ k :: ds := by simp [hcut, hys]
        refine ⟨xs ++ cs, ds, by simp [hys], ?_⟩
        intro m hm
        refine h.front hk hcut' m ?_
        exact mem_middle_of_mem n hm

/-- A higher priority goes before a lower one. -/
theorem goesBefore_of_lt {priority : Int} (h : priority < (task m).priority) :
    goesBefore task push priority m = true := by
  cases push with
  | true => simp [goesBefore, Int.le_of_lt h]
  | false => simp [goesBefore, h]

/-- A lower priority does not go before a higher one. -/
theorem not_goesBefore_of_lt {priority : Int} (h : (task m).priority < priority) :
    goesBefore task push priority m = false := by
  cases push with
  | true => simp [goesBefore, h]
  | false => simp [goesBefore, Int.le_of_lt h]

/-- A task goes before no higher priority. -/
theorem le_of_goesBefore {priority : Int} (h : goesBefore task push priority m = true) :
    priority ≤ (task m).priority := by
  by_contra hlt
  rw [not_goesBefore_of_lt (by omega)] at h
  exact absurd h (by simp)

/-- A task goes behind no lower priority. -/
theorem le_of_not_goesBefore {priority : Int} (h : goesBefore task push priority m = false) :
    (task m).priority ≤ priority := by
  by_contra hlt
  rw [goesBefore_of_lt (by omega)] at h
  exact absurd h (by simp)

/-- A task is linked behind tasks that go before it only. -/
theorem place_front (h : Indexed idx task tasks)
    (hplace : TaskPlace idx task tasks n push xs ys idx')
    (hn : 0 ≤ (task n).priority ∧ (task n).priority ≤ 255) :
    ∀ m ∈ xs, goesBefore task push (task n).priority m = true := by
  intro m hm
  cases hplace with
  | lower next k xs ys hnull hlt hbetween hnext hcut =>
      -- `m` is in front of the first task of `next`, so its segment is above `next`, and
      -- the segments from there up to that of `n` are empty.
      have hrange := h.range m (by simp [hcut, hm])
      have hge := (h.le_of_front hcut m hm).2
      rw [(h.elem next k hnext).1] at hge
      have hne := h.front hnext hcut m hm
      have habove : next < (task m).seg := by omega
      have hseg : (task n).seg < (task m).seg := by
        by_contra hle
        by_cases heq : (task m).seg = (task n).seg
        · exact h.null _ hnull m (by simp [hcut, hm]) heq
        · exact h.null _ (hbetween _ habove (by omega)) m (by simp [hcut, hm]) rfl
      exact goesBefore_of_lt (lt_of_prioritySeg_lt hn hrange hseg)
  | tail hnull hbelow =>
      have hseg : (task n).seg < (task m).seg := by
        by_contra hle
        by_cases heq : (task m).seg = (task n).seg
        · exact h.null _ hnull m hm heq
        · exact h.null _ (hbelow _ (by omega)) m hm rfl
      exact goesBefore_of_lt (lt_of_prioritySeg_lt hn (h.range m hm) hseg)
  | inside k xs ys hidx hcut =>
      rcases List.mem_append.mp hm with hm | hm
      · have hge := (h.le_of_front hcut m hm).2
        rw [(h.elem _ k hidx).1] at hge
        have hne := h.front hidx hcut m hm
        have hseg : (task n).seg < (task m).seg := by omega
        exact goesBefore_of_lt (lt_of_prioritySeg_lt hn (h.range m (by simp [hcut, hm])) hseg)
      · exact List.mem_takeWhile_imp hm

/-- A task is linked in front of tasks that do not go before it only. -/
theorem place_behind (h : Indexed idx task tasks)
    (hplace : TaskPlace idx task tasks n push xs ys idx')
    (hn : 0 ≤ (task n).priority ∧ (task n).priority ≤ 255) :
    ∀ m ∈ ys, goesBefore task push (task n).priority m = false := by
  intro m hm
  cases hplace with
  | lower next k xs ys hnull hlt hbetween hnext hcut =>
      have hrange := h.range m (by rw [hcut]; exact List.mem_append_right xs hm)
      have hle : (task m).seg ≤ next := by
        rw [← (h.elem next k hnext).1]
        rcases List.mem_cons.mp hm with rfl | hm
        · exact Fin.le_refl _
        · exact (h.le_of_behind hcut m hm).2
      have hseg : (task m).seg < (task n).seg := by omega
      exact not_goesBefore_of_lt (lt_of_prioritySeg_lt hrange hn hseg)
  | tail hnull hbelow => exact absurd hm (by simp)
  | inside k xs ys hidx hcut =>
      -- The walk stops at a task that does not go before `n`, and the priorities fall
      -- from there on.
      cases hdrop : (k :: ys).dropWhile (goesBefore task push (task n).priority) with
      | nil =>
          rw [hdrop] at hm
          exact absurd hm (by simp)
      | cons j rest =>
          have hj : goesBefore task push (task n).priority j = false := by
            have hnot := List.dropWhile_get_zero_not (goesBefore task push (task n).priority)
              (k :: ys) (by simp [hdrop])
            simpa only [hdrop, List.get_eq_getElem, List.getElem_cons_zero, Bool.not_eq_true]
              using hnot
          have hcut' : tasks
              = (xs ++ (k :: ys).takeWhile (goesBefore task push (task n).priority))
                ++ j :: rest := by
            rw [← hdrop, List.append_assoc, List.takeWhile_append_dropWhile]
            exact hcut
          rw [hdrop] at hm
          rcases List.mem_cons.mp hm with rfl | hm
          · exact hj
          · have hle := (h.le_of_behind hcut' m hm).1
            cases push with
            | true =>
                have hlt : (task j).priority < (task n).priority := by simpa [goesBefore] using hj
                exact not_goesBefore_of_lt (by omega)
            | false =>
                have hlt : (task j).priority ≤ (task n).priority := by simpa [goesBefore] using hj
                simp only [goesBefore, Bool.false_eq_true, if_false, decide_eq_false_iff_not]
                omega

/-- The index of the segment of `n`: no task of the segment is in front of it. -/
theorem insert_own (h : Indexed idx task tasks)
    (hplace : TaskPlace idx task tasks n push xs ys idx')
    (hpush : push → ∀ m, idx (task n).seg = .elem m → (task n).priority ≤ (task m).priority)
    {k : Nat} (hk : idx' (task n).seg = .elem k) : (task k).seg = (task n).seg ∧
      ∃ as bs, xs ++ n :: ys = as ++ k :: bs ∧ ∀ m ∈ as, (task m).seg ≠ (task n).seg := by
  cases hplace with
  -- The segment was empty: the entry is set to `n`, and nothing of the segment is in front of it.
  | lower next j xs ys hnull hlt hbetween hnext hcut' =>
      obtain rfl : n = k := by simpa using hk
      refine ⟨rfl, xs, j :: ys, rfl, ?_⟩
      intro m hm
      exact h.null _ hnull m (by simp [hcut', hm])
  | tail hnull hbelow =>
      obtain rfl : n = k := by simpa using hk
      exact ⟨rfl, tasks, [], rfl, fun m hm => h.null _ hnull m hm⟩
  -- The segment has the entry `j`, and `n` is placed from `j` on.
  | inside j xs ys hidx hcut' =>
      have hfront := h.front hidx hcut'
      split at hk
      · next hnil =>
          obtain rfl : n = k := by simpa using hk
          refine ⟨rfl, _, _, rfl, ?_⟩
          rw [hnil.2, List.append_nil]
          exact hfront
      -- The entry stays at `j`, which goes before `n`.
      · next hstay =>
          obtain rfl : j = k := by simpa [hidx] using hk
          have hj : goesBefore task push (task n).priority j = true := by
            cases push with
            | true => simpa [goesBefore] using hpush rfl j hidx
            | false =>
                by_contra hj
                exact hstay ⟨rfl, by rw [List.takeWhile_cons, if_neg hj]⟩
          refine ⟨(h.elem _ j hidx).1, xs,
            ys.takeWhile (goesBefore task push (task n).priority) ++
              n :: ys.dropWhile (goesBefore task push (task n).priority), ?_, hfront⟩
          rw [List.takeWhile_cons, List.dropWhile_cons, if_pos hj, if_pos hj]
          simp

/-- The segment of `n` has an index. -/
theorem insert_ne_null (hplace : TaskPlace idx task tasks n push xs ys idx') :
    idx' (task n).seg ≠ .null := by
  intro hnull
  cases hplace with
  | lower next j xs ys hnull' hlt hbetween hnext hcut' => simp at hnull
  | tail hnull' hbelow => simp at hnull
  | inside j xs ys hidx hcut' =>
      split at hnull
      · simp at hnull
      · simp [hidx] at hnull

/-- The index of another segment stays, and no task of the segment comes in front of it. -/
theorem insert_other (h : Indexed idx task tasks)
    (hplace : TaskPlace idx task tasks n push xs ys idx') (hseg : seg ≠ (task n).seg) {k : Nat}
    (hk : idx seg = .elem k) : (task k).seg = seg ∧
      ∃ as bs, xs ++ n :: ys = as ++ k :: bs ∧ ∀ m ∈ as, (task m).seg ≠ seg := by
  have hcut := hplace.cut
  obtain ⟨hkseg, as, bs, has, -⟩ := h.elem seg k hk
  refine ⟨hkseg, ?_⟩
  have hkmem : k ∈ xs ++ ys := by simp [← hcut, has]
  rcases List.mem_append.mp hkmem with hkx | hky
  · obtain ⟨cs, ds, rfl⟩ := List.append_of_mem hkx
    have hcut' : tasks = cs ++ k :: (ds ++ ys) := by simp [hcut]
    exact ⟨cs, ds ++ n :: ys, by simp, h.front hk hcut'⟩
  · obtain ⟨cs, ds, rfl⟩ := List.append_of_mem hky
    have hcut' : tasks = (xs ++ cs) ++ k :: ds := by simp [hcut]
    refine ⟨xs ++ n :: cs, ds, by simp, ?_⟩
    intro m hm
    rcases List.mem_cons.mp (List.perm_middle.subset hm) with rfl | hm
    · exact fun heq => hseg heq.symm
    · exact h.front hk hcut' m hm

/-- Linking a task, if a pushed one does not come in front of the indexed one. -/
theorem insert (h : Indexed idx task tasks)
    (hplace : TaskPlace idx task tasks n push xs ys idx') (hfresh : n ∉ tasks)
    (hn : 0 ≤ (task n).priority ∧ (task n).priority ≤ 255)
    (hpush : push → ∀ m, idx (task n).seg = .elem m → (task n).priority ≤ (task m).priority) :
    Indexed idx' task (xs ++ n :: ys) := by
  have hcut := hplace.cut
  -- The new list is the old one and `n`.
  have hmem : ∀ m, m ∈ xs ++ n :: ys ↔ m = n ∨ m ∈ tasks := by
    intro m
    rw [hcut, List.perm_middle.mem_iff, List.mem_cons]
  -- Only the entry of the segment of `n` changes.
  have hother : ∀ seg, seg ≠ (task n).seg → idx' seg = idx seg := by
    intro seg hseg
    rcases hplace.idx_cases with rfl | rfl
    · rfl
    · rw [Function.update_of_ne hseg]
  refine ⟨?_, ?_, ?_, ?_, ?_⟩
  -- The object of `n` is fresh, so it occurs once.
  · have hnd := h.nodup
    rw [hcut] at hnd hfresh
    exact List.nodup_middle.mpr (List.nodup_cons.mpr ⟨hfresh, hnd⟩)
  · intro m hm
    rcases (hmem m).mp hm with rfl | hm
    · exact hn
    · exact h.range m hm
  -- `n` goes behind what is of higher priority and before the rest.
  · have hsorted := h.sorted
    rw [hcut] at hsorted
    obtain ⟨hxs, hys, hxy⟩ := List.pairwise_append.mp hsorted
    refine List.pairwise_append.mpr ⟨hxs, List.pairwise_cons.mpr ⟨?_, hys⟩, ?_⟩
    · intro m hm
      exact le_of_not_goesBefore (h.place_behind hplace hn m hm)
    · intro m hm k hk
      rcases List.mem_cons.mp hk with rfl | hk
      · exact le_of_goesBefore (h.place_front hplace hn m hm)
      · exact hxy m hm k hk
  · intro seg hnull m hm
    have hseg : seg ≠ (task n).seg := by
      rintro rfl
      exact insert_ne_null hplace hnull
    rcases (hmem m).mp hm with rfl | hm
    · exact fun heq => hseg heq.symm
    · exact h.null seg (hother seg hseg ▸ hnull) m hm
  · intro seg k hk
    -- The segment of `n`, or one of the others.
    by_cases hseg : seg = (task n).seg
    · subst hseg
      exact h.insert_own hplace hpush hk
    · exact h.insert_other hplace hseg (hother seg hseg ▸ hk)

end Indexed

/-- Dropping tasks keeps the index to the first task of each segment. -/
theorem Drops.indexed {p p' : Pool} {q q' : TaskRing → List Nat} (hdrops : Drops p q p' q')
    (hw : WellFormed p q) (h : Indexed p.taskIdx p.task (q .tasks)) :
    Indexed p'.taskIdx p'.task (q' .tasks) := by
  induction hdrops with
  | refl p q => exact h
  | task hq rest ih =>
      refine ih (hw.dropTask hq) ?_
      rw [Function.update_self]
      exact h.advance hq fun seg => hw.toLinked.advanceIdx_eq hq seg
  | scheduled hq rest ih => exact ih (hw.dropScheduled hq) h

/-! ### Runs -/

/-- The priority of a new immediate task. -/
theorem init_priority (t : PoolTask) (a : Submission) {priority : Int} (now : Int) (k : Nat)
    (h : 0 ≤ priority ∧ priority ≤ 255) : (t.init a priority 0 now k).priority = priority := by
  have hlow : ((t.init a priority 0 now k).dispatch).setWidth 32 = BitVec.ofInt 32 priority :=
    BitVec.setWidth_append_eq_right
  rw [PoolTask.priority, hlow, BitVec.toInt_ofInt]
  exact Int.bmod_eq_of_le (by omega) (by omega)

/-- The state of a run in which the order has been kept. -/
structure Ordered (s : QueueRun) (q : TaskRing → List Nat) : Prop extends Tracked s q where
  indexed : Indexed s.pool.taskIdx s.pool.task (q .tasks)
  before : (q .tasks).Pairwise fun n m =>
    (entry s.pool.task s.topped n).Before (entry s.pool.task s.topped m)
  topped_lt : ∀ k ∈ s.topped, k < s.pool.submissions

section
variable {s : QueueRun} {q q' : TaskRing → List Nat}

section
variable {n : Nat} {t : PoolTask} {p' : Pool} {push : Bool} {xs ys : List Nat}

/-- The tasks that were queued stay as they are. -/
theorem Ordered.task_old (h : Ordered s q) (hadd : TaskAdded s.pool q n t p' q') :
    ∀ m ∈ q .tasks, p'.task m = s.pool.task m := by
  intro m hm
  have hmn : m ≠ n := by
    rintro rfl
    exact hadd.fresh h.wellFormed (r := .tasks) (by simp) hm
  rw [hadd.task, Function.update_of_ne hmn]

/-- The entries of the tasks that were queued stay. -/
theorem Ordered.entry_old (h : Ordered s q) (hadd : TaskAdded s.pool q n t p' q') (push : Bool) :
    ∀ m ∈ q .tasks,
      entry p'.task (if push then s.topped else s.pool.submissions :: s.topped) m
        = entry s.pool.task s.topped m := by
  intro m hm
  have hold := h.task_old hadd m hm
  have hlt := h.ticket_lt (List.mem_append_left _ hm)
  have hne : (s.pool.task m).ticket ≠ s.pool.submissions := by omega
  cases push with
  | true => simp [entry, hold]
  | false => simp [entry, hold, hne]

/-- The new task is on top unless it was pushed. -/
theorem Ordered.entry_new (h : Ordered s q) (hadd : TaskAdded s.pool q n t p' q')
    (ht : t.ticket = s.pool.submissions) (push : Bool) :
    entry p'.task (if push then s.topped else s.pool.submissions :: s.topped) n
      = ⟨t.priority, s.pool.submissions, !push⟩ := by
  have hn : p'.task n = t := by rw [hadd.task, Function.update_self]
  have hout : s.pool.submissions ∉ s.topped := fun hin =>
    absurd (h.topped_lt _ hin) (Nat.lt_irrefl _)
  cases push with
  | true => simp [entry, hn, ht, hout]
  | false => simp [entry, hn, ht]

/-- The new task, against the tasks behind its place. -/
theorem Ordered.new_before (h : Ordered s q) (hadd : TaskAdded s.pool q n t p' q')
    (hplace : TaskPlace s.pool.taskIdx p'.task (q .tasks) n push xs ys p'.taskIdx)
    (hrange : 0 ≤ t.priority ∧ t.priority ≤ 255) :
    ∀ m ∈ ys, Entry.Before ⟨t.priority, s.pool.submissions, !push⟩
      (entry s.pool.task s.topped m) := by
  intro m hm
  have hn : p'.task n = t := by rw [hadd.task, Function.update_self]
  have hmem : m ∈ q .tasks := hplace.cut ▸ List.mem_append_right xs hm
  have hnot := (h.indexed.congr (h.task_old hadd)).place_behind hplace (hn ▸ hrange) m hm
  have hlt := h.ticket_lt (List.mem_append_left _ hmem)
  rw [goesBefore, hn, h.task_old hadd m hmem] at hnot
  cases push with
  | true => exact Or.inl (by simpa [entry] using hnot)
  | false =>
      rcases Int.lt_or_eq_of_le (by simpa using hnot : (s.pool.task m).priority ≤ t.priority)
        with hlt' | heq
      · exact Or.inl hlt'
      · exact Or.inr ⟨heq, fun _ => hlt, by simp⟩

/-- The tasks in front of its place, against the new task. -/
theorem Ordered.before_new (h : Ordered s q) (hadd : TaskAdded s.pool q n t p' q')
    (hplace : TaskPlace s.pool.taskIdx p'.task (q .tasks) n push xs ys p'.taskIdx)
    (hrange : 0 ≤ t.priority ∧ t.priority ≤ 255) :
    ∀ m ∈ xs, (entry s.pool.task s.topped m).Before
      ⟨t.priority, s.pool.submissions, !push⟩ := by
  intro m hm
  have hn : p'.task n = t := by rw [hadd.task, Function.update_self]
  have hmem : m ∈ q .tasks := hplace.cut ▸ List.mem_append_left ys hm
  have hgoes := (h.indexed.congr (h.task_old hadd)).place_front hplace (hn ▸ hrange) m hm
  have hlt := h.ticket_lt (List.mem_append_left _ hmem)
  rw [goesBefore, hn, h.task_old hadd m hmem] at hgoes
  cases push with
  | false => exact Or.inl (by simpa [entry] using hgoes)
  | true =>
      rcases Int.lt_or_eq_of_le (by simpa using hgoes : t.priority ≤ (s.pool.task m).priority)
        with hlt' | heq
      · exact Or.inl hlt'
      · exact Or.inr ⟨heq, by simp, fun _ _ => hlt⟩

end

/-- `add_task` keeps the order. -/
theorem Ordered.added (h : Ordered s q) {n : Nat} {t : PoolTask} {p' : Pool} {push : Bool}
    {xs ys : List Nat} (hadd : TaskAdded s.pool q n t p' q')
    (ht : t.ticket = s.pool.submissions)
    (hplace : TaskPlace s.pool.taskIdx p'.task (q .tasks) n push xs ys p'.taskIdx)
    (htasks : q' .tasks = xs ++ n :: ys) (hscheduled : q' .scheduled = q .scheduled)
    (hrange : 0 ≤ t.priority ∧ t.priority ≤ 255)
    (hpush : push → ∀ m, s.pool.taskIdx t.seg = .elem m → t.priority ≤ (s.pool.task m).priority) :
    Ordered { s with
        pool := p'
        added := s.pool.submissions :: s.added
        topped := if push then s.topped else s.pool.submissions :: s.topped } q' := by
  have hfresh := hadd.fresh h.wellFormed (r := .tasks) (by simp)
  have hn : p'.task n = t := by rw [hadd.task, Function.update_self]
  have hold := h.task_old hadd
  -- What was noted of the old tasks is unchanged by the one that is added.
  have hentry := h.entry_old hadd push
  have hcut := hplace.cut
  have hxmem : ∀ m ∈ xs, m ∈ q .tasks := fun m hm => hcut ▸ List.mem_append_left ys hm
  have hymem : ∀ m ∈ ys, m ∈ q .tasks := fun m hm => hcut ▸ List.mem_append_right xs hm
  refine ⟨h.toTracked.added hadd ht ?_, ?_, ?_, ?_⟩
  · rw [htasks, hscheduled, hcut]
    exact List.perm_middle.append_right (q .scheduled)
  -- The index follows the new list.
  · change Indexed p'.taskIdx p'.task (q' .tasks)
    rw [htasks]
    refine (h.indexed.congr hold).insert hplace hfresh (hn ▸ hrange) ?_
    intro hp m hm
    rw [hn] at hm ⊢
    rw [hold m (h.wellFormed.idx_elem hm).1]
    exact hpush hp m hm
  -- The order: old pairs as before, and `n` against what is in front of it and behind it.
  · change (q' .tasks).Pairwise fun k m =>
      (entry p'.task (if push then s.topped else s.pool.submissions :: s.topped) k).Before
        (entry p'.task (if push then s.topped else s.pool.submissions :: s.topped) m)
    have hbefore := h.before
    rw [hcut] at hbefore
    obtain ⟨hxs, hys, hxy⟩ := List.pairwise_append.mp hbefore
    rw [htasks]
    refine List.pairwise_append.mpr ⟨?_, List.pairwise_cons.mpr ⟨?_, ?_⟩, ?_⟩
    · refine hxs.imp_of_mem ?_
      intro k m hk hm hkm
      rwa [hentry k (hxmem k hk), hentry m (hxmem m hm)]
    · intro m hm
      rw [h.entry_new hadd ht push, hentry m (hymem m hm)]
      exact h.new_before hadd hplace hrange m hm
    · refine hys.imp_of_mem ?_
      intro k m hk hm hkm
      rwa [hentry k (hymem k hk), hentry m (hymem m hm)]
    · intro k hk m hm
      rcases List.mem_cons.mp hm with rfl | hm
      · rw [h.entry_new hadd ht push, hentry k (hxmem k hk)]
        exact h.before_new hadd hplace hrange k hk
      · rw [hentry k (hxmem k hk), hentry m (hymem m hm)]
        exact hxy k hk m hm
  -- The tickets pushed to the front are all numbered below the next one.
  · intro k hk
    change k < p'.submissions
    rw [hadd.submissions]
    cases push with
    | true => exact Nat.lt_succ_of_lt (h.topped_lt k hk)
    | false =>
        rcases List.mem_cons.mp hk with rfl | hk
        · exact Nat.lt_succ_self _
        · exact Nat.lt_succ_of_lt (h.topped_lt k hk)

/-- A call that leaves the immediate tasks alone, up to objects that are not queued. -/
theorem Ordered.frame (h : Ordered s q) {s' : QueueRun} (h' : Tracked s' q')
    (htasks : q' .tasks = q .tasks) (hidx : s'.pool.taskIdx = s.pool.taskIdx)
    (hold : ∀ m ∈ q .tasks, s'.pool.task m = s.pool.task m) (htopped : s'.topped = s.topped)
    (hsub : s.pool.submissions ≤ s'.pool.submissions) : Ordered s' q' := by
  refine ⟨h', ?_, ?_, ?_⟩
  · rw [htasks, hidx]
    exact h.indexed.congr hold
  · rw [htasks, htopped]
    refine h.before.imp_of_mem ?_
    intro n m hn hm hnm
    simpa only [entry, hold n hn, hold m hm] using hnm
  · rw [htopped]
    intro k hk
    exact Nat.lt_of_lt_of_le (h.topped_lt k hk) hsub

/-- Every call that meets the condition keeps the order. -/
theorem Ordered.step (h : Ordered s q) {op : QueueOp} (hok : StepOk s op) :
    ∃ s' q', s.step op = some s' ∧ Ordered s' q' := by
  have hqueue := h.wellFormed.queue_eq
  obtain ⟨hrange, hpush⟩ := hok
  cases op with
  | addTask a priority push alloc spawn now =>
      rcases h.wellFormed.addTask a priority push alloc spawn now with
        ⟨hfull, hcall⟩ | ⟨hfull, hobj, hcall⟩ |
        ⟨hfull, hobj, n, t, p', q', xs, ys, hcall, hadd, hplace, htasks, hscheduled, -⟩
      · exact ⟨s, q, by simp [QueueRun.step, hcall, hfull], h⟩
      · exact ⟨s, q, by simp [QueueRun.step, hcall, hobj], h⟩
      · have hprio := init_priority t a now s.pool.submissions hrange
        refine ⟨_, q', by simp [QueueRun.step, hcall, hfull, hobj],
          h.added hadd rfl hplace htasks hscheduled (hprio.symm ▸ hrange) ?_⟩
        -- A pushed task never becomes the index, so it must not belong in front of it: `PushOk`.
        rintro rfl m hm
        rw [PoolTask.seg, hprio] at hm
        rw [hprio]
        -- The call is not refused, so it is the task that has to fit.
        have hindexed := (hpush.resolve_left (by simp [hfull])).resolve_left (by simp [hobj])
        rwa [hm] at hindexed
  | scheduleTask a time alloc spawn now junk =>
      rcases h.wellFormed.scheduleTask a time alloc spawn now junk with
        ⟨hobj, hcall⟩ |
        ⟨hobj, n, t, p', q', xs, ys, hcall, hadd, hcut, hscheduled, htasks, hidx, -⟩
      · exact ⟨s, q, by simp [QueueRun.step, hcall, hobj], h⟩
      · refine ⟨_, q', by simp [QueueRun.step, hcall, hobj],
          h.frame (h.toTracked.added hadd rfl ?_) htasks hidx ?_ rfl ?_⟩
        · rw [htasks, hscheduled, hcut, ← List.append_assoc, ← List.append_assoc]
          exact List.perm_middle
        · intro m hm
          have hmn : m ≠ n := by
            rintro rfl
            exact hadd.fresh h.wellFormed (r := .tasks) (by simp) hm
          change p'.task m = s.pool.task m
          rw [hadd.task, Function.update_of_ne hmn]
        · exact Nat.le_of_lt (hadd.submissions ▸ Nat.lt_succ_self _)
  | popTask now =>
      rcases h.wellFormed.popTask now with
        ⟨-, hcall⟩ | ⟨n, ys, hq, hdue, hcall⟩ | ⟨n, ys, hq, hcall⟩
      · exact ⟨s, q, by simp [QueueRun.step, hcall], h⟩
      -- A due scheduled task would overtake; `StepOk` excludes it.
      · have hlate := hrange n (by simp [hqueue, hq])
        omega
      · have hcut : q .tasks = [] ++ n :: ys := hq
        refine ⟨_, _, by simp [QueueRun.step, hcall],
          h.popped (by simp) hcut (h.wellFormed.dropTask hcut) rfl rfl rfl, ?_, ?_, h.topped_lt⟩
        · rw [Function.update_self]
          exact h.indexed.advance hcut fun seg => h.wellFormed.toLinked.advanceIdx_eq hcut seg
        · have hbefore := h.before
          rw [hq] at hbefore
          rw [Function.update_self]
          exact (List.pairwise_cons.mp hbefore).2
  | cancelTasks owner =>
      obtain ⟨p', hcall, hdrops⟩ := h.wellFormed.cancelTasks owner
      have htask : p'.task = s.pool.task := by rw [hdrops.frame]
      have hsub : p'.submissions = s.pool.submissions := by rw [hdrops.frame]
      refine ⟨_, _, by simp [QueueRun.step, hcall], h.toTracked.cancelled hdrops,
        hdrops.indexed h.wellFormed h.indexed, ?_, ?_⟩
      · change (cancelled s.pool.task owner q .tasks).Pairwise fun n m =>
          (entry p'.task s.topped n).Before (entry p'.task s.topped m)
        rw [htask]
        exact h.before.sublist List.filter_sublist
      · change ∀ k ∈ s.topped, k < p'.submissions
        rw [hsub]
        exact h.topped_lt
  | recycleTask i =>
      cases hi : s.held[i]? with
      | none => exact ⟨s, q, by simp [QueueRun.step, hi], h⟩
      | some n =>
          exact ⟨_, _, by simp [QueueRun.step, hi],
            h.frame (h.toTracked.recycled hi) rfl rfl (fun m _ => rfl) rfl (Nat.le_refl _)⟩
  | workers thdCnt idleCnt =>
      exact ⟨_, q, rfl, h.frame (h.toTracked.workers thdCnt idleCnt) rfl rfl (fun m _ => rfl) rfl
        (Nat.le_refl _)⟩

/-- The first task of the ring is before all others. -/
theorem Ordered.popsFirst (h : Ordered s q) {now : Int} (hrange : InRange s (.popTask now)) :
    PopsFirst s now := by
  have hqueue := h.wellFormed.queue_eq
  rw [PopsFirst, hqueue]
  rcases h.wellFormed.popTask now with
    ⟨hnil, hcall⟩ | ⟨n, ys, hq, hdue, hcall⟩ | ⟨n, ys, hq, hcall⟩
  · rw [hcall]
    exact hnil
  · have hlate := hrange n (by simp [hqueue, hq])
    omega
  · have hbefore := h.before
    rw [hq] at hbefore
    rw [hcall, hq]
    refine ⟨List.mem_cons_self, ?_⟩
    intro m hm hmn
    exact (List.pairwise_cons.mp hbefore).1 m (List.mem_of_ne_of_mem hmn hm)

/-- Every run that meets the condition keeps the order. -/
theorem Ordered.run (h : Ordered s q) {ops : List QueueOp} (hok : AllSteps StepOk s ops) :
    PriorityRun s ops := by
  induction ops generalizing s q with
  | nil => trivial
  | cons op ops ih =>
      obtain ⟨hop, hrest⟩ := hok
      obtain ⟨s', q', hstep, h'⟩ := h.step hop
      refine ⟨?_, s', hstep, ih h' (hrest s' hstep)⟩
      cases op with
      | popTask now => exact h.popsFirst hop.1
      | _ => trivial

end

/-- The empty queue is in order. -/
theorem ordered_initial (initThreads maxThreads maxTasks : Nat) :
    Ordered (QueueRun.initial initThreads maxThreads maxTasks) (fun _ => []) := by
  refine ⟨tracked_initial initThreads maxThreads maxTasks, ⟨List.nodup_nil, ?_, List.Pairwise.nil,
    ?_, ?_⟩, List.Pairwise.nil, ?_⟩
  · intro n hn
    exact absurd hn (by simp)
  · intro seg hnull m hm
    exact absurd hm (by simp)
  · intro seg n hn
    exact absurd hn (by simp [QueueRun.initial, threadPoolConstruct])
  · intro k hk
    exact absurd hk (by simp [QueueRun.initial])

/-- In every run whose pushed tasks have at most the priority of the task indexed for their
segment, the order is kept. -/
theorem priorityRun_of_runOk (initThreads maxThreads maxTasks : Nat) (ops : List QueueOp)
    (hok : AllSteps StepOk (QueueRun.initial initThreads maxThreads maxTasks) ops) :
    PriorityRun (QueueRun.initial initThreads maxThreads maxTasks) ops :=
  (ordered_initial initThreads maxThreads maxTasks).run hok

/-- A task with the given priority, pushed or put on top. -/
def submit (priority : Int) (push : Bool) : QueueOp :=
  .addTask ⟨1, 0, 2, 3⟩ priority push true 0 0

/-- Falling priorities in one segment, a task on top, a task of a higher segment and a
cancellation of another owner. -/
theorem priorityRun_falling :
    PriorityRun (QueueRun.initial 1 1 0)
      [submit 40 true, submit 20 true, submit 40 false, submit 200 true, .popTask 0,
        .cancelTasks 7, .popTask 0, submit 30 true, .popTask 0, .popTask 0, .popTask 0] :=
  priorityRun_of_runOk 1 1 0 _ (by decide)

/-- The priorities 10, 20 and 30 are pushed. The second task is linked in front of the
first, which stays indexed, and the third is linked between them. So 20 comes out before
30. -/
theorem not_priorityRun_of_rising :
    AllSteps InRange (QueueRun.initial 1 1 0)
      [submit 10 true, submit 20 true, submit 30 true, .popTask 0] ∧
    ¬ PriorityRun (QueueRun.initial 1 1 0)
      [submit 10 true, submit 20 true, submit 30 true, .popTask 0] := by
  decide

end Mylib.Proofs.Thread
