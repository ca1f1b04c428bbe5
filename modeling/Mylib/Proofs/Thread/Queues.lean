import Mylib.Spec.Thread.TaskQueue

/-!
# `Mylib.Proofs.Thread.Queues`: the queue functions on the element lists

`WellFormed p q` says what the pool `p` holds when its rings of immediate, scheduled
and recycled tasks are `q`. The rings are linked up, the counters are the lengths, and
an indexed task is queued and has the segment of its index. The segments may be mixed
in the ring, so this is all that can be said of the index for arbitrary priorities.

There is one lemma per function. Each says that the call returns, what it returns, and
how `q` changes:

- `WellFormed.popTask` takes the first task of a ring.
- `Linked.taskNew` gets an object that is in no ring.
- `Linked.linkTask` links it at a cut of the immediate tasks, and `TaskPlace` says at
  which one and what becomes of the index.
- `WellFormed.addTask` and `WellFormed.scheduleTask` put these together.
- `WellFormed.cancelTasks` filters the two rings by the owner.
-/

set_option autoImplicit false

namespace Mylib.Proofs.Thread

open Mylib.Lib.Ring
open Mylib.Spec.Thread

/-- The rings of `p` are `q`, and the index points to queued tasks of its segments. -/
structure Linked (p : Pool) (q : TaskRing → List Nat) : Prop where
  rings : Rings p.taskLinks q
  brk : ∀ r, ∀ n ∈ q r, n < p.taskBrk
  idx : ∀ seg, p.taskIdx seg ≠ .null →
    ∃ n ∈ q .tasks, p.taskIdx seg = .elem n ∧ (p.task n).seg = seg

/-- The rings of `p` are `q`, and the counters are their lengths. -/
structure WellFormed (p : Pool) (q : TaskRing → List Nat) : Prop extends Linked p q where
  taskCnt : p.taskCnt = (q .tasks).length
  scheduledTaskCnt : p.scheduledTaskCnt = (q .scheduled).length
  taskMax : p.taskMax = 0 ∨ p.taskCnt ≤ p.taskMax

section
variable {p : Pool} {q : TaskRing → List Nat}

/-- What holds of every object in a ring, after a change of one ring. -/
theorem forall_mem_update {P : Nat → Prop} {r : TaskRing} {zs : List Nat}
    (hq : ∀ r, ∀ n ∈ q r, P n) (hzs : ∀ n ∈ zs, P n) :
    ∀ r', ∀ n ∈ Function.update q r zs r', P n := by
  intro r' n hn
  by_cases hr : r' = r
  · subst hr
    rw [Function.update_self] at hn
    exact hzs n hn
  · rw [Function.update_of_ne hr] at hn
    exact hq r' n hn

/-- A ring is no longer than the number of objects. -/
theorem Linked.length_le (h : Linked p q) (r : TaskRing) : (q r).length ≤ p.taskBrk := by
  have hsub : (q r).Subperm (List.range p.taskBrk) :=
    List.subperm_of_subset (h.rings.nodup r) fun n hn => List.mem_range.mpr (h.brk r n hn)
  simpa using hsub.length_le

/-- The links can be read back. -/
theorem Linked.queue_eq (h : Linked p q) : p.queue = q := by
  funext r
  exact h.rings.toList_eq r (h.length_le r)

/-- The task in an index entry. -/
theorem Linked.idx_elem (h : Linked p q) {seg : Fin 4} {n : Nat}
    (hidx : p.taskIdx seg = .elem n) : n ∈ q .tasks ∧ (p.task n).seg = seg := by
  obtain ⟨m, hm, hmidx, hseg⟩ := h.idx seg (by simp [hidx])
  obtain rfl : n = m := by simpa [hidx] using hmidx
  exact ⟨hm, hseg⟩

/-- The index of a segment is null or a task's link, and never a sentinel. -/
theorem Linked.idx_null_or_elem (h : Linked p q) (seg : Fin 4) :
    p.taskIdx seg = .null ∨ ∃ n, p.taskIdx seg = .elem n := by
  by_cases hnull : p.taskIdx seg = .null
  · exact Or.inl hnull
  · obtain ⟨n, -, hn, -⟩ := h.idx seg hnull
    exact Or.inr ⟨n, hn⟩

/-- A pool that has just been constructed. -/
theorem wellFormed_construct (initThreads maxThreads maxTasks : Nat) :
    WellFormed (threadPoolConstruct initThreads maxThreads maxTasks) (fun _ => []) := by
  refine ⟨⟨.empty (fun _ => rfl) (fun _ => rfl), ?_, ?_⟩, rfl, rfl, Or.inr (Nat.zero_le _)⟩
  · intro r n hn
    simp at hn
  · intro seg hseg
    exact absurd rfl hseg

/-! ### Taking a task -/

/-- The first of the tasks if it is of the segment. -/
def headOfSeg (task : Nat → PoolTask) (seg : Fin 4) : List Nat → TaskPtr
  | m :: _ => if (task m).seg = seg then .elem m else .null
  | [] => .null

/-- Where the index of a segment is after its task `n` is taken. -/
theorem Linked.advanceIdx_eq (h : Linked p q) {xs ys : List Nat} {n : Nat}
    (hq : q .tasks = xs ++ n :: ys) (seg : Fin 4) :
    p.advanceIdx n seg =
      if p.taskIdx seg = .elem n then headOfSeg p.task seg ys else p.taskIdx seg := by
  have hnext := h.rings.next_elem hq
  by_cases hidx : p.taskIdx seg = .elem n
  · obtain ⟨-, rfl⟩ := h.idx_elem hidx
    rw [Pool.advanceIdx, if_pos hidx, if_pos hidx, Function.update_self, hnext]
    cases ys with
    | nil => rfl
    | cons m ys => rfl
  · rw [if_neg hidx, Pool.advanceIdx]
    split
    · next hn =>
        have hne : seg ≠ (p.task n).seg := by
          rintro rfl
          exact hidx hn
        rw [Function.update_of_ne hne]
    · rfl

/-- A task is cut out of its ring. -/
theorem Linked.dropTask (h : Linked p q) {xs ys : List Nat} {n : Nat}
    (hq : q .tasks = xs ++ n :: ys) :
    Linked (p.dropTask n) (Function.update q .tasks (xs ++ ys)) := by
  refine ⟨h.rings.remove hq, ?_, ?_⟩
  · refine forall_mem_update h.brk fun m hm => h.brk .tasks m ?_
    rw [hq]
    exact mem_middle_of_mem n hm
  · intro seg hseg
    rw [Function.update_self]
    change p.advanceIdx n seg ≠ .null at hseg
    change ∃ m ∈ xs ++ ys, p.advanceIdx n seg = .elem m ∧ (p.task m).seg = seg
    rw [h.advanceIdx_eq hq] at hseg ⊢
    -- An index moves only if it was the task that goes: to the next one of the segment.
    by_cases hidx : p.taskIdx seg = .elem n
    · rw [if_pos hidx] at hseg ⊢
      cases ys with
      | nil => exact absurd rfl hseg
      | cons m ys =>
          by_cases hm : (p.task m).seg = seg
          · exact ⟨m, by simp, by simp [headOfSeg, hm], hm⟩
          · simp [headOfSeg, hm] at hseg
    · rw [if_neg hidx] at hseg ⊢
      obtain ⟨m, hm, hmidx, hmseg⟩ := h.idx seg hseg
      have hmn : m ≠ n := by
        rintro rfl
        exact hidx hmidx
      rw [hq] at hm
      exact ⟨m, by simpa [hmn] using hm, hmidx, hmseg⟩

/-- Dropping a task keeps the counters and the index. -/
theorem WellFormed.dropTask (h : WellFormed p q) {xs ys : List Nat} {n : Nat}
    (hq : q .tasks = xs ++ n :: ys) :
    WellFormed (p.dropTask n) (Function.update q .tasks (xs ++ ys)) := by
  have hcnt : (p.dropTask n).taskCnt = p.taskCnt - 1 := rfl
  have hmax := h.taskMax
  refine ⟨h.toLinked.dropTask hq, ?_, h.scheduledTaskCnt, ?_⟩
  · rw [hcnt, h.taskCnt, hq, Function.update_self]
    simp
  · change p.taskMax = 0 ∨ p.taskCnt - 1 ≤ p.taskMax
    omega

/-- Dropping a scheduled task keeps the counters and the index. -/
theorem WellFormed.dropScheduled (h : WellFormed p q) {xs ys : List Nat} {n : Nat}
    (hq : q .scheduled = xs ++ n :: ys) :
    WellFormed (p.dropScheduled n) (Function.update q .scheduled (xs ++ ys)) := by
  refine ⟨⟨h.rings.remove hq, ?_, h.idx⟩, h.taskCnt, ?_, h.taskMax⟩
  · refine forall_mem_update h.brk fun m hm => h.brk .scheduled m ?_
    rw [hq]
    exact mem_middle_of_mem n hm
  · change p.scheduledTaskCnt - 1 = _
    rw [h.scheduledTaskCnt, hq, Function.update_self]
    simp

/-- `pop_task` finds no task, or it takes the first scheduled task because that is due,
or it takes the first immediate task because the first scheduled task is not due. -/
theorem WellFormed.popTask (h : WellFormed p q) (now : Int) :
    (q .tasks = [] ∧ p.popTask now = some (none, p)) ∨
    (∃ n ys, q .scheduled = n :: ys ∧ (p.task n).time ≤ now ∧
      p.popTask now = some (some n, p.dropScheduled n)) ∨
    (∃ n ys, q .tasks = n :: ys ∧ p.popTask now = some (some n, p.dropTask n)) := by
  -- What is left when no scheduled task is due.
  have hready : (q .tasks = [] ∧ p.popReady = some (none, p)) ∨
      ∃ n ys, q .tasks = n :: ys ∧ p.popReady = some (some n, p.dropTask n) := by
    have hfirst := h.rings.next_head .tasks
    have hcnt := h.taskCnt
    cases hq : q .tasks with
    | nil =>
        rw [hq] at hcnt
        exact Or.inl ⟨rfl, by simp [Pool.popReady, hcnt]⟩
    | cons n ys =>
        rw [hq] at hcnt hfirst
        exact Or.inr ⟨n, ys, rfl, by simp [Pool.popReady, hcnt, hfirst]⟩
  have hfirst := h.rings.next_head .scheduled
  have hcnt := h.scheduledTaskCnt
  cases hq : q .scheduled with
  | nil =>
      rw [hq] at hcnt
      have hpop : p.popTask now = p.popReady := by simp [Pool.popTask, hcnt]
      rw [hpop]
      exact hready.imp_right Or.inr
  | cons n ys =>
      rw [hq] at hcnt hfirst
      by_cases hdue : (p.task n).time ≤ now
      · exact Or.inr (Or.inl ⟨n, ys, rfl, hdue, by simp [Pool.popTask, hcnt, hfirst, hdue]⟩)
      · have hpop : p.popTask now = p.popReady := by simp [Pool.popTask, hcnt, hfirst, hdue]
        rw [hpop]
        exact hready.imp_right Or.inr

/-! ### Getting an object -/

/-- A task object is there if one can be allocated or recycled. -/
theorem Linked.hasObject_eq (h : Linked p q) (alloc : Bool) :
    p.hasObject alloc = (alloc || decide (q .recycled ≠ [])) := by
  rw [Pool.hasObject, h.queue_eq]
  cases alloc with
  | false => simp
  | true => simp

/-- The object `n` holds the task `t` and is in no ring yet. -/
structure TaskReady (p : Pool) (q : TaskRing → List Nat) (n : Nat) (t : PoolTask) (p' : Pool)
    (q' : TaskRing → List Nat) : Prop where
  linked : Linked p' q'
  fresh : ∀ r, n ∉ q' r
  lt : n < p'.taskBrk
  tasks : q' .tasks = q .tasks
  scheduled : q' .scheduled = q .scheduled
  recycled : q' .recycled ⊆ q .recycled
  source : n = p.taskBrk ∨ n ∈ q .recycled
  brk : p.taskBrk ≤ p'.taskBrk
  task : p'.task = Function.update p.task n t
  submissions : p'.submissions = p.submissions + 1
  frame : p' = { p with taskLinks := p'.taskLinks, taskBrk := p'.taskBrk, task := p'.task,
                        submissions := p'.submissions }

/-- Setting up an object that was just taken from the recycled ring, or allocated. -/
theorem Linked.initTask (h : Linked p q) (p1 : Pool) (rest : List Nat) {n : Nat}
    (hrings : Rings p1.taskLinks (Function.update q .recycled rest))
    (hfresh : ∀ r, n ∉ Function.update q .recycled rest r) (hrest : rest ⊆ q .recycled)
    (hsource : n = p.taskBrk ∨ n ∈ q .recycled) (hlt : n < p1.taskBrk)
    (hbrk : p.taskBrk ≤ p1.taskBrk)
    (hframe : p1 = { p with taskLinks := p1.taskLinks, taskBrk := p1.taskBrk })
    (t : PoolTask) (a : Submission) (priority time now : Int) :
    TaskReady p q n (t.init a priority time now p.submissions)
      (p1.initTask n t a priority time now) (Function.update q .recycled rest) := by
  have htask : p1.task = p.task := by rw [hframe]
  have hsub : p1.submissions = p.submissions := by rw [hframe]
  have hidx : p1.taskIdx = p.taskIdx := by rw [hframe]
  refine ⟨⟨hrings.elemInit hfresh, ?_, ?_⟩, hfresh, hlt, rfl, rfl, ?_, hsource, hbrk, ?_, ?_, ?_⟩
  -- Every linked object is below the allocation mark, which only grows.
  · intro r m hm
    refine Nat.lt_of_lt_of_le ?_ hbrk
    exact forall_mem_update h.brk (fun k hk => h.brk .recycled k (hrest hk)) r m hm
  -- No index entry is at the new object, so the entries keep their segments.
  · intro seg hseg
    change p1.taskIdx seg ≠ .null at hseg
    rw [hidx] at hseg
    obtain ⟨m, hm, hmidx, hmseg⟩ := h.idx seg hseg
    have hmn : m ≠ n := by
      rintro rfl
      exact hfresh .tasks hm
    refine ⟨m, hm, (congrFun hidx seg).trans hmidx, ?_⟩
    simp [Pool.initTask, Function.update_of_ne hmn, htask, hmseg]
  · rwa [Function.update_self]
  · simp [Pool.initTask, htask, hsub]
  · simp [Pool.initTask, hsub]
  · rw [hframe]
    rfl

/-- `task_new` finds no object, or it sets up an object that was recycled or is new. -/
theorem Linked.taskNew (h : Linked p q) (a : Submission) (priority time : Int) (alloc : Bool)
    (now : Int) :
    (p.hasObject alloc = false ∧ p.taskNew a priority time alloc now = some (none, p)) ∨
    (p.hasObject alloc = true ∧
      ∃ (n : Nat) (t : PoolTask) (p' : Pool) (q' : TaskRing → List Nat),
        p.taskNew a priority time alloc now = some (some n, p') ∧
        TaskReady p q n (t.init a priority time now p.submissions) p' q') := by
  have hfirst := h.rings.next_head .recycled
  rw [h.hasObject_eq]
  -- An object is taken from the recycled ones, and only without any from `calloc`.
  cases hq : q .recycled with
  | nil =>
      rw [hq] at hfirst
      cases alloc with
      | false => exact Or.inl ⟨by simp, by simp [Pool.taskNew, hfirst]⟩
      | true =>
          have hfresh : ∀ r, p.taskBrk ∉ q r := fun r hin =>
            absurd (h.brk r _ hin) (Nat.lt_irrefl _)
          have hupd : Function.update q .recycled [] = q := by
            rw [← hq, Function.update_eq_self]
          refine Or.inr ⟨by simp, p.taskBrk, PoolTask.zeroed, _, _, ?_,
            h.initTask { p with taskBrk := p.taskBrk + 1 } [] ?_ ?_
              (List.nil_subset _) (Or.inl rfl) (Nat.lt_succ_self _) (Nat.le_succ _) rfl _ _ _ _ _⟩
          · simp [Pool.taskNew, hfirst]
          · rw [hupd]
            exact h.rings
          · rw [hupd]
            exact hfresh
  | cons n ys =>
      rw [hq] at hfirst
      have hcut : q .recycled = [] ++ n :: ys := hq
      have hmem : n ∈ q .recycled := by simp [hq]
      have hfresh : ∀ r, n ∉ Function.update q .recycled ys r := h.rings.notMem_remove hcut
      refine Or.inr ⟨by simp, n, p.task n, _, _, ?_,
        h.initTask { p with taskLinks := p.taskLinks.remove (.elem n) } ys
          (h.rings.remove hcut) hfresh ?_ (Or.inr hmem) (h.brk .recycled n hmem) (Nat.le_refl _)
          rfl _ _ _ _ _⟩
      · simp [Pool.taskNew, hfirst]
      · rw [hq]
        exact List.subset_cons_self n ys

/-! ### Linking a task -/

/-- The walk over the tasks of higher priority stops at the cut behind them. -/
theorem Linked.skipHigher_eq (h : Linked p q) (priority : Int) {xs ys : List Nat}
    (hq : q .tasks = xs ++ ys) (hne : ys ≠ []) {fuel : Nat} (hfuel : ys.length ≤ fuel) :
    p.skipHigher priority fuel (firstNode .tasks ys)
      = some (firstNode .tasks (ys.dropWhile fun m => priority < (p.task m).priority)) := by
  induction ys generalizing xs fuel with
  | nil => exact absurd rfl hne
  | cons n ys ih =>
      cases fuel with
      | zero => simp at hfuel
      | succ fuel =>
          rw [firstNode_cons, Pool.skipHigher, List.dropWhile_cons, h.rings.next_elem hq]
          by_cases hlt : priority < (p.task n).priority
          · have hq' : q .tasks = (xs ++ [n]) ++ ys := by simp [hq]
            cases ys with
            | nil => simp [hlt]
            | cons m ys =>
                have hrest := ih hq' (by simp) (Nat.le_of_succ_le_succ hfuel)
                rw [firstNode_cons] at hrest
                simp [hlt, hrest]
          · simp [hlt]

/-- The walk over the tasks of at least the same priority stops at the cut behind
them. -/
theorem Linked.skipNotLower_eq (h : Linked p q) (priority : Int) {xs ys : List Nat}
    (hq : q .tasks = xs ++ ys) {fuel : Nat} (hfuel : ys.length < fuel) :
    p.skipNotLower priority fuel (firstNode .tasks ys)
      = some (firstNode .tasks (ys.dropWhile fun m => priority ≤ (p.task m).priority)) := by
  induction ys generalizing xs fuel with
  | nil =>
      cases fuel with
      | zero => simp at hfuel
      | succ fuel => rfl
  | cons n ys ih =>
      cases fuel with
      | zero => simp at hfuel
      | succ fuel =>
          have hq' : q .tasks = (xs ++ [n]) ++ ys := by simp [hq]
          rw [firstNode_cons, Pool.skipNotLower, List.dropWhile_cons, h.rings.next_elem hq,
            ih hq' (Nat.lt_of_succ_lt_succ hfuel)]
          by_cases hle : priority ≤ (p.task n).priority
          · simp [hle]
          · simp [hle]

/-- The segment that `add_if_empty` finds below `k`. -/
theorem lowerSeg_eq_some {k : Nat} {next : Fin 4} (hk : k ≤ 4)
    (h : p.lowerSeg k = some next) :
    next.val < k ∧ p.taskIdx next ≠ .null ∧
      ∀ s : Fin 4, next < s → s.val < k → p.taskIdx s = .null := by
  induction k with
  | zero => simp [Pool.lowerSeg] at h
  | succ k ih =>
      have hval : (Fin.ofNat 4 k).val = k := Nat.mod_eq_of_lt hk
      rw [Pool.lowerSeg] at h
      -- The search goes down: entry `k` is null and the rest decides, or it is the one found.
      by_cases hidx : p.taskIdx (Fin.ofNat 4 k) = .null
      · rw [if_neg (not_not.mpr hidx)] at h
        obtain ⟨hlt, hne, hbetween⟩ := ih (Nat.le_of_succ_le hk) h
        refine ⟨Nat.lt_succ_of_lt hlt, hne, ?_⟩
        intro s hs hsk
        rcases Nat.lt_succ_iff_lt_or_eq.mp hsk with hsk | hsk
        · exact hbetween s hs hsk
        · obtain rfl : s = Fin.ofNat 4 k := Fin.ext (hsk.trans hval.symm)
          exact hidx
      · rw [if_pos hidx] at h
        obtain rfl : Fin.ofNat 4 k = next := by simpa using h
        refine ⟨by omega, hidx, ?_⟩
        intro s hs hsk
        have hks : k < s.val := hval ▸ Fin.lt_def.mp hs
        omega

/-- If the search for a lower segment fails, none has a task. -/
theorem lowerSeg_eq_none {k : Nat} (hk : k ≤ 4) (h : p.lowerSeg k = none) (s : Fin 4)
    (hs : s.val < k) : p.taskIdx s = .null := by
  induction k with
  | zero => exact absurd hs (Nat.not_lt_zero _)
  | succ k ih =>
      have hval : (Fin.ofNat 4 k).val = k := Nat.mod_eq_of_lt hk
      rw [Pool.lowerSeg] at h
      by_cases hidx : p.taskIdx (Fin.ofNat 4 k) = .null
      · rw [if_neg (not_not.mpr hidx)] at h
        rcases Nat.lt_succ_iff_lt_or_eq.mp hs with hs | hs
        · exact ih (Nat.le_of_succ_le hk) h hs
        · obtain rfl : s = Fin.ofNat 4 k := Fin.ext (hs.trans hval.symm)
          exact hidx
      · rw [if_pos hidx] at h
        exact absurd h (by simp)

/-- The tasks that a new task of the given priority is linked behind, once the walk has
started in its segment: those of at least its priority when it is pushed, those of higher
priority otherwise. -/
def goesBefore (task : Nat → PoolTask) (push : Bool) (priority : Int) (m : Nat) : Bool :=
  if push then priority ≤ (task m).priority else priority < (task m).priority

/-- The cut `xs`, `ys` of the immediate tasks at which `add_task` links the task `n`, and
the index afterwards. -/
inductive TaskPlace (idx : Fin 4 → TaskPtr) (task : Nat → PoolTask) (tasks : List Nat)
    (n : Nat) (push : Bool) : List Nat → List Nat → (Fin 4 → TaskPtr) → Prop
  /-- Its segment has no indexed task: in front of the nearest lower indexed task. -/
  | lower (next : Fin 4) (m : Nat) (xs ys : List Nat)
      (hnull : idx (task n).seg = .null)
      (hlt : next < (task n).seg)
      (hbetween : ∀ s, next < s → s < (task n).seg → idx s = .null)
      (hnext : idx next = .elem m)
      (hcut : tasks = xs ++ m :: ys) :
      TaskPlace idx task tasks n push xs (m :: ys) (Function.update idx (task n).seg (.elem n))
  /-- No lower segment has one either: at the tail. -/
  | tail
      (hnull : idx (task n).seg = .null)
      (hbelow : ∀ s < (task n).seg, idx s = .null) :
      TaskPlace idx task tasks n push tasks [] (Function.update idx (task n).seg (.elem n))
  /-- Its segment has the indexed task `m`: behind those it is linked behind, from `m` on.
  Only a task that is not pushed takes over the index. -/
  | inside (m : Nat) (xs ys : List Nat)
      (hidx : idx (task n).seg = .elem m)
      (hcut : tasks = xs ++ m :: ys) :
      TaskPlace idx task tasks n push
        (xs ++ (m :: ys).takeWhile (goesBefore task push (task n).priority))
        ((m :: ys).dropWhile (goesBefore task push (task n).priority))
        (if !push ∧ (m :: ys).takeWhile (goesBefore task push (task n).priority) = [] then
          Function.update idx (task n).seg (.elem n)
        else idx)

section
variable {idx idx' : Fin 4 → TaskPtr} {task : Nat → PoolTask} {tasks xs ys : List Nat} {n : Nat}
  {push : Bool}

/-- The place of a new task cuts the ring in two. -/
theorem TaskPlace.cut (h : TaskPlace idx task tasks n push xs ys idx') : tasks = xs ++ ys := by
  cases h with
  | lower next m xs ys hnull hlt hbetween hnext hcut => exact hcut
  | tail hnull hbelow => exact (List.append_nil tasks).symm
  | inside m xs ys hidx hcut =>
      rw [List.append_assoc, List.takeWhile_append_dropWhile]
      exact hcut

/-- The new task is the only one that the index gains. -/
theorem TaskPlace.idx_cases (h : TaskPlace idx task tasks n push xs ys idx') :
    idx' = idx ∨ idx' = Function.update idx (task n).seg (.elem n) := by
  cases h with
  | lower next m xs ys hnull hlt hbetween hnext hcut => exact Or.inr rfl
  | tail hnull hbelow => exact Or.inr rfl
  | inside m xs ys hidx hcut =>
      split
      · exact Or.inr rfl
      · exact Or.inl rfl

end

/-- The walk of `add_task` from an indexed task stays there only if it passes nothing. -/
theorem firstNode_dropWhile_eq_iff {f : Nat → Bool} {m : Nat} {ys : List Nat}
    (hnd : (m :: ys).Nodup) :
    firstNode TaskRing.tasks ((m :: ys).dropWhile f) = .elem m ↔ (m :: ys).takeWhile f = [] := by
  rw [List.dropWhile_cons, List.takeWhile_cons]
  cases hf : f m with
  | false => simp
  | true =>
      have hmem : m ∉ ys.dropWhile f := fun hin =>
        (List.nodup_cons.mp hnd).1 ((List.dropWhile_sublist f).subset hin)
      constructor
      · intro heq
        obtain ⟨zs, hzs⟩ := firstNode_eq_elem.mp heq
        rw [if_pos rfl] at hzs
        simp [hzs] at hmem
      · intro heq
        simp at heq

/-- The two walks of a pushed task together pass the tasks of at least its priority. -/
theorem dropWhile_goesBefore (priority : Int) (ys : List Nat) :
    (ys.dropWhile fun m => priority < (p.task m).priority).dropWhile
        (fun m => priority ≤ (p.task m).priority)
      = ys.dropWhile (goesBefore p.task true priority) := by
  have hfun : goesBefore p.task true priority
      = fun m => decide (priority ≤ (p.task m).priority) := by
    funext m
    simp [goesBefore]
  rw [hfun]
  induction ys with
  | nil => rfl
  | cons m ys ih =>
      by_cases hlt : priority < (p.task m).priority
      · simp [hlt, Int.le_of_lt hlt, ih]
      · simp [hlt]

/-- `add_task` links a task that is in no ring at a `TaskPlace`. -/
theorem Linked.linkTask (h : Linked p q) (n : Nat) (push : Bool) :
    ∃ xs ys idx, TaskPlace p.taskIdx p.task (q .tasks) n push xs ys idx ∧
      p.linkTask n push = some { p with
        taskLinks := p.taskLinks.insertBefore (firstNode .tasks ys) (.elem n)
        taskIdx := idx } := by
  -- A segment without an index is placed by the next lower one that has an index.
  rcases h.idx_null_or_elem (p.task n).seg with hnull | ⟨m, hidx⟩
  · cases hlow : p.lowerSeg (p.task n).seg.val with
    | none =>
        refine ⟨_, _, _, .tail hnull ?_, ?_⟩
        · intro s hs
          exact lowerSeg_eq_none (Nat.le_of_lt (p.task n).seg.isLt) hlow s hs
        · simp [Pool.linkTask, Pool.addIfEmpty, hnull, hlow, Links.insertTail]
    | some next =>
        obtain ⟨hlt, hne, hbetween⟩ :=
          lowerSeg_eq_some (Nat.le_of_lt (p.task n).seg.isLt) hlow
        obtain ⟨m, hm, hmidx, -⟩ := h.idx next hne
        obtain ⟨xs, ys, hcut⟩ := List.append_of_mem hm
        refine ⟨_, _, _, .lower next m xs ys hnull hlt hbetween hmidx hcut, ?_⟩
        simp [Pool.linkTask, Pool.addIfEmpty, hnull, hlow, hmidx]
  · obtain ⟨hm, -⟩ := h.idx_elem hidx
    obtain ⟨xs, ys, hcut⟩ := List.append_of_mem hm
    have hnd : (m :: ys).Nodup := by
      have hnd := h.rings.nodup .tasks
      rw [hcut] at hnd
      exact (List.nodup_append.mp hnd).2.1
    have hlen : (m :: ys).length ≤ p.taskBrk := by
      have hlen := h.length_le .tasks
      rw [hcut, List.length_append] at hlen
      omega
    refine ⟨_, _, _, .inside m xs ys hidx hcut, ?_⟩
    -- Both walks end inside the fuel: they pass no object twice.
    have hhigher := h.skipHigher_eq (p.task n).priority hcut (by simp)
      (Nat.le_succ_of_le hlen)
    have hhead : ∀ zs, firstNode TaskRing.tasks zs ≠ .null := by
      intro zs
      cases zs with
      | nil => simp
      | cons z zs => simp
    -- Without `push` the first walk gives the place, and with it a second one goes on behind the
    -- tasks of the same priority.
    cases push with
    | false =>
        have hfun : goesBefore p.task false (p.task n).priority
            = fun m => decide ((p.task n).priority < (p.task m).priority) := by
          funext m
          simp [goesBefore]
        rw [firstNode_cons] at hhigher
        rw [Pool.linkTask, Pool.addIfEmpty]
        simp only [hidx, ne_eq, reduceCtorEq, not_false_eq_true, if_true, Pool.walkFuel, hhigher,
          Option.bind_eq_bind, Option.bind_some, Option.pure_def, hhead, if_false,
          Bool.not_false, true_and, firstNode_dropWhile_eq_iff hnd, hfun]
        split
        · rfl
        · rfl
    | true =>
        have hcut' : q .tasks
            = (xs ++ (m :: ys).takeWhile fun m => (p.task n).priority < (p.task m).priority)
              ++ (m :: ys).dropWhile fun m => (p.task n).priority < (p.task m).priority := by
          rw [List.append_assoc, List.takeWhile_append_dropWhile]
          exact hcut
        have hlen' := (List.dropWhile_sublist
          (fun m => decide ((p.task n).priority < (p.task m).priority)) (l := m :: ys)).length_le
        have hlower := h.skipNotLower_eq (p.task n).priority hcut'
          (Nat.lt_succ_of_le (Nat.le_trans hlen' hlen))
        rw [dropWhile_goesBefore] at hlower
        rw [firstNode_cons] at hhigher
        rw [Pool.linkTask, Pool.addIfEmpty]
        simp only [hidx, ne_eq, reduceCtorEq, not_false_eq_true, if_true, Pool.walkFuel, hhigher,
          Option.bind_eq_bind, Option.bind_some, Option.pure_def, hhead, if_false,
          Bool.not_true, Bool.false_eq_true, false_and, hlower]

/-! ### Submitting a task -/

/-- The fields that only the worker loop changes. -/
structure WorkerView where
  thdMax : Nat
  idleMax : Nat
  idleWait : Int
  idleCnt : Nat
  thdLinks : Links ThdRing
  elt : Nat → Elt
  eltBrk : Nat
  terminated : Bool

/-- The worker fields of a pool. -/
def workerView (p : Pool) : WorkerView where
  thdMax := p.thdMax
  idleMax := p.idleMax
  idleWait := p.idleWait
  idleCnt := p.idleCnt
  thdLinks := p.thdLinks
  elt := p.elt
  eltBrk := p.eltBrk
  terminated := p.terminated

/-- A submission took the object `n` for the task `t`. -/
structure TaskAdded (p : Pool) (q : TaskRing → List Nat) (n : Nat) (t : PoolTask) (p' : Pool)
    (q' : TaskRing → List Nat) : Prop where
  wellFormed : WellFormed p' q'
  task : p'.task = Function.update p.task n t
  submissions : p'.submissions = p.submissions + 1
  brk : p.taskBrk ≤ p'.taskBrk
  source : n = p.taskBrk ∨ n ∈ q .recycled
  recycled : q' .recycled ⊆ q .recycled
  workers : workerView p' = workerView p

/-- The result of a submission that added a task, depending on whether a worker is
created for it. -/
def submitted (worker : Bool) (spawn : Int) : Submitted :=
  if worker then ⟨spawn, spawn = 0⟩ else ⟨0, false⟩

/-- The answer to the caller depends on the thread that is started only. -/
theorem startWorker_fst (p : Pool) (spawn : Int) :
    (p.startWorker spawn).1 = submitted true spawn := by
  rw [Pool.startWorker]
  split
  · next h => simp [submitted, h]
  · next h => simp [submitted, h]

/-- Creating a worker changes the thread counts only. -/
theorem startWorker_snd (p : Pool) (spawn : Int) :
    ∃ high, (p.startWorker spawn).2 =
      { p with thdCnt := p.thdCnt + (submitted true spawn).spawned.toNat, thdHigh := high } := by
  rw [Pool.startWorker]
  split
  · next h => exact ⟨_, by simp [submitted, h]; rfl⟩
  · next h => exact ⟨p.thdHigh, by simp [submitted, h]⟩

/-- Counting a task, and starting a thread for it where one is needed. -/
theorem countTask_eq (p : Pool) (spawn : Int) :
    ∃ tasksHigh thdHigh, p.countTask spawn =
      (submitted p.needsWorker spawn, { p with
        taskCnt := p.taskCnt + 1
        tasksHigh := tasksHigh
        thdCnt := p.thdCnt + (submitted p.needsWorker spawn).spawned.toNat
        thdHigh := thdHigh }) := by
  rw [Pool.countTask]
  split
  · next h =>
      have hworker : p.needsWorker = true := by simpa [Pool.needsWorker] using h
      obtain ⟨high, hstart⟩ := startWorker_snd
        { p with taskCnt := p.taskCnt + 1, tasksHigh := max p.tasksHigh (p.taskCnt + 1) } spawn
      refine ⟨max p.tasksHigh (p.taskCnt + 1), high, ?_⟩
      rw [hworker]
      exact Prod.ext (startWorker_fst _ spawn) hstart
  · next h =>
      have hworker : p.needsWorker = false := by simpa [Pool.needsWorker] using h
      exact ⟨max p.tasksHigh (p.taskCnt + 1), p.thdHigh, by simp [hworker, submitted]⟩

/-- A task object that is in no ring joins the immediate tasks at a `TaskPlace`. -/
theorem Linked.insert (h : Linked p q) {n : Nat} (hn : ∀ r, n ∉ q r) (hbrk : n < p.taskBrk)
    {push : Bool} {xs ys : List Nat} {idx : Fin 4 → TaskPtr}
    (hplace : TaskPlace p.taskIdx p.task (q .tasks) n push xs ys idx) :
    Linked { p with
        taskLinks := p.taskLinks.insertBefore (firstNode .tasks ys) (.elem n)
        taskIdx := idx }
      (Function.update q .tasks (xs ++ n :: ys)) := by
  have hcut := hplace.cut
  have hsub : ∀ m ∈ q .tasks, m ∈ xs ++ n :: ys := by
    intro m hm
    rw [hcut] at hm
    exact mem_middle_of_mem n hm
  refine ⟨h.rings.insertBefore hcut hn, ?_, ?_⟩
  · refine forall_mem_update h.brk ?_
    intro m hm
    rcases List.mem_cons.mp (List.perm_middle.subset hm) with rfl | hm
    · exact hbrk
    · exact h.brk .tasks m (hcut ▸ hm)
  · intro seg hseg
    rw [Function.update_self]
    change idx seg ≠ .null at hseg
    change ∃ m ∈ xs ++ n :: ys, idx seg = .elem m ∧ (p.task m).seg = seg
    have hold : p.taskIdx seg ≠ .null →
        ∃ m ∈ xs ++ n :: ys, p.taskIdx seg = .elem m ∧ (p.task m).seg = seg := by
      intro hne
      obtain ⟨m, hm, hidx, hmseg⟩ := h.idx seg hne
      exact ⟨m, hsub m hm, hidx, hmseg⟩
    -- The indexes are the old ones, but for the segment of `n` where `n` is in front.
    rcases hplace.idx_cases with rfl | rfl
    · exact hold hseg
    · by_cases hs : seg = (p.task n).seg
      · subst hs
        exact ⟨n, by simp, Function.update_self _ _ _, rfl⟩
      · rw [Function.update_of_ne hs] at hseg ⊢
        exact hold hseg

/-- `add_task` is refused, or it adds a task at a `TaskPlace`. -/
theorem WellFormed.addTask (h : WellFormed p q) (a : Submission) (priority : Int)
    (push alloc : Bool) (spawn now : Int) :
    (p.full = true ∧ p.addTask a priority push alloc spawn now = some (⟨erange, false⟩, p)) ∨
    (p.full = false ∧ p.hasObject alloc = false ∧
      p.addTask a priority push alloc spawn now = some (⟨enomem, false⟩, p)) ∨
    (p.full = false ∧ p.hasObject alloc = true ∧
      ∃ (n : Nat) (t : PoolTask) (p' : Pool) (q' : TaskRing → List Nat) (xs ys : List Nat),
        p.addTask a priority push alloc spawn now = some (submitted p.needsWorker spawn, p') ∧
        TaskAdded p q n (t.init a priority 0 now p.submissions) p' q' ∧
        TaskPlace p.taskIdx p'.task (q .tasks) n push xs ys p'.taskIdx ∧
        q' .tasks = xs ++ n :: ys ∧ q' .scheduled = q .scheduled ∧
        p'.thdCnt = p.thdCnt + (submitted p.needsWorker spawn).spawned.toNat) := by
  cases hfull : p.full with
  | true =>
      refine Or.inl ⟨rfl, ?_⟩
      rw [Pool.addTask, if_pos (by simpa [Pool.full] using hfull)]
  | false =>
      have hlimit : ¬(p.taskMax ≠ 0 ∧ p.taskMax ≤ p.taskCnt) := by
        simpa [Pool.full] using hfull
      have hmax := h.taskMax
      rcases h.toLinked.taskNew a priority 0 alloc now with
        ⟨hobj, hnew⟩ | ⟨hobj, n, t, p1, q1, hnew, hready⟩
      · refine Or.inr (Or.inl ⟨rfl, hobj, ?_⟩)
        rw [Pool.addTask, if_neg hlimit, hnew]
        rfl
      · obtain ⟨xs, ys, idx, hplace, hlink⟩ := hready.linked.linkTask n push
        have hins := hready.linked.insert hready.fresh hready.lt hplace
        -- The pool behind the linking gets a name; the rest of the call is read off its fields.
        obtain ⟨p2, hp2⟩ : ∃ p2 : Pool, p2 = { p1 with
          taskLinks := p1.taskLinks.insertBefore (firstNode .tasks ys) (.elem n)
          taskIdx := idx } := ⟨_, rfl⟩
        rw [← hp2] at hlink hins
        obtain ⟨tasksHigh, thdHigh, hcount⟩ := countTask_eq p2 spawn
        have hframe : p2 = { p with
            taskLinks := p2.taskLinks, taskBrk := p2.taskBrk, task := p2.task,
            submissions := p2.submissions, taskIdx := p2.taskIdx } := by
          rw [hp2, hready.frame]
        have hworker : p2.needsWorker = p.needsWorker := by
          rw [hframe]
          rfl
        have hcut : q .tasks = xs ++ ys := hready.tasks ▸ hplace.cut
        have hcnt : p2.taskCnt = p.taskCnt := by rw [hframe]
        have hpmax : p2.taskMax = p.taskMax := by rw [hframe]
        have htask : p2.task = p1.task := by rw [hp2]
        rw [hworker] at hcount
        refine Or.inr (Or.inr ⟨rfl, hobj, n, t,
          { p2 with taskCnt := p2.taskCnt + 1, tasksHigh := tasksHigh,
                    thdCnt := p2.thdCnt + (submitted p.needsWorker spawn).spawned.toNat,
                    thdHigh := thdHigh },
          Function.update q1 .tasks (xs ++ n :: ys), xs, ys, ?_, ?_, ?_,
          Function.update_self _ _ _, hready.scheduled, ?_⟩)
        · rw [Pool.addTask, if_neg hlimit, hnew]
          simp only [Option.bind_eq_bind, Option.bind_some, hlink, hcount]
          rfl
        · refine ⟨⟨⟨hins.rings, hins.brk, hins.idx⟩, ?_, ?_, ?_⟩, ?_, ?_, ?_, hready.source,
            hready.recycled, ?_⟩
          · rw [Function.update_self]
            simp [hcnt, h.taskCnt, hcut]
            omega
          · rw [Function.update_of_ne (by simp), hready.scheduled, ← h.scheduledTaskCnt]
            rw [hframe]
          · simp only [hcnt, hpmax]
            omega
          · exact htask.trans hready.task
          · rw [← hready.submissions, hp2]
          · exact hp2 ▸ hready.brk
          · rw [hframe]
            rfl
        · rw [← hready.tasks]
          convert hplace using 1
          · rw [hready.frame]
          · rw [hp2]
        · rw [hframe]

/-- `schedule_task` links its task in front of the first task with a later time. On the empty
ring the time it compares with is not a time, but both branches link the task at the tail. -/
theorem Linked.linkScheduled (h : Linked p q) (n : Nat) (junk : Int) {xs ys : List Nat}
    (hq : q .scheduled = xs ++ ys) (hne : ys = [] → q .scheduled = []) {fuel : Nat}
    (hfuel : ys.length < fuel) :
    p.linkScheduled n junk fuel (firstNode .scheduled ys) = some { p with
      scheduledTaskCnt := p.scheduledTaskCnt + 1
      taskLinks := p.taskLinks.insertBefore
        (firstNode .scheduled (ys.dropWhile fun m => (p.task m).time ≤ (p.task n).time))
        (.elem n) } := by
  -- The walk is at the first of `ys`; what it has passed is `xs`.
  induction ys generalizing xs fuel with
  | nil =>
      cases fuel with
      | zero => simp at hfuel
      | succ fuel =>
          have hnext := h.rings.next_head .scheduled
          rw [hne rfl, firstNode_nil] at hnext
          simp only [firstNode_nil, List.dropWhile_nil, Pool.linkScheduled, hnext, if_true,
            Links.insertTail]
          split
          · rfl
          · rfl
  | cons m ys ih =>
      cases fuel with
      | zero => simp at hfuel
      | succ fuel =>
          rw [firstNode_cons, Pool.linkScheduled]
          by_cases hlt : (p.task n).time < (p.task m).time
          · have hnle : ¬ (p.task m).time ≤ (p.task n).time := by omega
            simp [hlt, hnle]
          · have hle : (p.task m).time ≤ (p.task n).time := by omega
            have hq' : q .scheduled = (xs ++ [m]) ++ ys := by simp [hq]
            simp only [hlt, if_false, h.rings.next_elem hq]
            cases ys with
            | nil => simp [Links.insertTail, hle]
            | cons k ys =>
                have hlink := ih hq' (by simp) (Nat.lt_of_succ_lt_succ hfuel)
                rw [firstNode_cons] at hlink
                simp [hlink, hle]

/-- The place where `schedule_task` links a task of the given time: behind all tasks that are
not later. -/
structure SchedulePlace (task : Nat → PoolTask) (time : Int) (xs ys : List Nat) : Prop where
  front : ∀ m ∈ xs, (task m).time ≤ time
  behind : ∀ m, ys.head? = some m → time < (task m).time

/-- The place of a scheduled task is behind all those that are due no later. -/
theorem schedulePlace_split (task : Nat → PoolTask) (time : Int) (zs : List Nat) :
    SchedulePlace task time (zs.takeWhile fun m => (task m).time ≤ time)
      (zs.dropWhile fun m => (task m).time ≤ time) := by
  constructor
  · intro m hm
    simpa using List.mem_takeWhile_imp hm
  · intro m hm
    have hhead := List.head?_dropWhile_not (fun m => decide ((task m).time ≤ time)) zs
    rw [hm] at hhead
    simpa using hhead

/-- Where the walk of `schedule_task` links a task object that is set up. -/
theorem TaskReady.linkScheduled {n : Nat} {t : PoolTask} {p1 : Pool} {q1 : TaskRing → List Nat}
    (hready : TaskReady p q n t p1 q1) (junk : Int) :
    ∃ xs ys, q1 .scheduled = xs ++ ys ∧ SchedulePlace p.task t.time xs ys ∧
      p1.linkScheduled n junk p1.walkFuel (firstNode .scheduled (q1 .scheduled)) = some { p1 with
        scheduledTaskCnt := p1.scheduledTaskCnt + 1
        taskLinks := p1.taskLinks.insertBefore (firstNode .scheduled ys) (.elem n) } := by
  have hlink := hready.linked.linkScheduled n junk (List.nil_append (q1 .scheduled)).symm id
    (Nat.lt_succ_of_le (hready.linked.length_le .scheduled))
  have hsplit := schedulePlace_split p1.task (p1.task n).time (q1 .scheduled)
  have hcut := (List.takeWhile_append_dropWhile
    (p := fun m => decide ((p1.task m).time ≤ (p1.task n).time)) (l := q1 .scheduled)).symm
  -- Only the task `n` is new, and it is in no ring yet.
  have hnew : p1.task n = t := by rw [hready.task, Function.update_self]
  have hold : ∀ m ∈ q1 .scheduled, p1.task m = p.task m := by
    intro m hm
    rw [hready.task, Function.update_of_ne]
    rintro rfl
    exact hready.fresh .scheduled hm
  refine ⟨_, _, hcut, ⟨?_, ?_⟩, hlink⟩
  · intro m hm
    rw [← hold m (hcut ▸ List.mem_append_left _ hm), ← hnew]
    exact hsplit.front m hm
  · intro m hm
    rw [← hold m (hcut ▸ List.mem_append_right _ (List.mem_of_head? hm)), ← hnew]
    exact hsplit.behind m hm

/-- A task object that is set up joins the scheduled tasks at a cut. The thread counts may
change too. -/
theorem TaskReady.insertScheduled {n : Nat} {t : PoolTask} {p1 p' : Pool}
    {q1 : TaskRing → List Nat} {xs ys : List Nat} (hready : TaskReady p q n t p1 q1)
    (h : WellFormed p q) (hcut : q1 .scheduled = xs ++ ys)
    (hp' : p' = { p1 with
      scheduledTaskCnt := p1.scheduledTaskCnt + 1
      taskLinks := p1.taskLinks.insertBefore (firstNode .scheduled ys) (.elem n)
      thdCnt := p'.thdCnt
      thdHigh := p'.thdHigh }) :
    TaskAdded p q n t p' (Function.update q1 .scheduled (xs ++ n :: ys)) := by
  have htask : p'.task = p1.task := by rw [hp']
  have hbrk : p'.taskBrk = p1.taskBrk := by rw [hp']
  have hidx : p'.taskIdx = p1.taskIdx := by rw [hp']
  -- The tasks ring is left as it is.
  have htasks : (Function.update q1 .scheduled (xs ++ n :: ys)) .tasks = q .tasks := by
    rw [Function.update_of_ne (by simp), hready.tasks]
  refine ⟨⟨⟨?_, ?_, ?_⟩, ?_, ?_, ?_⟩, htask.trans hready.task, ?_, hbrk ▸ hready.brk,
    hready.source, hready.recycled, ?_⟩
  -- The rings with `n` in front of `ys`.
  · rw [hp']
    exact hready.linked.rings.insertBefore hcut hready.fresh
  · rw [hbrk]
    refine forall_mem_update hready.linked.brk ?_
    intro m hm
    rcases List.mem_cons.mp (List.perm_middle.subset hm) with rfl | hm
    · exact hready.lt
    · exact hready.linked.brk .scheduled m (hcut ▸ hm)
  · rw [hidx, htask]
    exact hready.linked.idx
  · rw [htasks, ← h.taskCnt, hp', hready.frame]
  -- One more scheduled task, and the ring is longer by one.
  · have hcnt : p'.scheduledTaskCnt = p.scheduledTaskCnt + 1 := by rw [hp', hready.frame]
    rw [hcnt, Function.update_self, h.scheduledTaskCnt, ← hready.scheduled, hcut]
    simp
    omega
  · have hcnt : p'.taskCnt = p.taskCnt := by rw [hp', hready.frame]
    have hmax : p'.taskMax = p.taskMax := by rw [hp', hready.frame]
    rw [hcnt, hmax]
    exact h.taskMax
  · rw [← hready.submissions, hp']
  · rw [hp', hready.frame]
    rfl

/-- `schedule_task` is refused, or it adds a task in front of the first later one. -/
theorem WellFormed.scheduleTask (h : WellFormed p q) (a : Submission) (time : Int)
    (alloc : Bool) (spawn now junk : Int) :
    (p.hasObject alloc = false ∧
      p.scheduleTask a time alloc spawn now junk = some (⟨enomem, false⟩, p)) ∨
    (p.hasObject alloc = true ∧
      ∃ (n : Nat) (t : PoolTask) (p' : Pool) (q' : TaskRing → List Nat) (xs ys : List Nat),
        p.scheduleTask a time alloc spawn now junk
          = some (submitted (p.thdCnt = 0) spawn, p') ∧
        TaskAdded p q n (t.init a 0 time now p.submissions) p' q' ∧
        q .scheduled = xs ++ ys ∧ q' .scheduled = xs ++ n :: ys ∧ q' .tasks = q .tasks ∧
        p'.taskIdx = p.taskIdx ∧
        p'.thdCnt = p.thdCnt + (submitted (p.thdCnt = 0) spawn).spawned.toNat ∧
        SchedulePlace p.task (t.init a 0 time now p.submissions).time xs ys) := by
  rcases h.toLinked.taskNew a 0 time alloc now with
    ⟨hobj, hnew⟩ | ⟨hobj, n, t, p1, q1, hnew, hready⟩
  · refine Or.inl ⟨hobj, ?_⟩
    rw [Pool.scheduleTask, hnew]
    rfl
  · obtain ⟨xs, ys, hcut, hplace, hlink⟩ := hready.linkScheduled junk
    rw [← hready.linked.rings.next_head] at hlink
    obtain ⟨p2, hp2⟩ : ∃ p2 : Pool, p2 = { p1 with
      scheduledTaskCnt := p1.scheduledTaskCnt + 1
      taskLinks := p1.taskLinks.insertBefore (firstNode .scheduled ys) (.elem n) } := ⟨_, rfl⟩
    have hthd : p2.thdCnt = p.thdCnt := by rw [hp2, hready.frame]
    have hidx : p2.taskIdx = p.taskIdx := by rw [hp2, hready.frame]
    have hcut' : q .scheduled = xs ++ ys := hready.scheduled ▸ hcut
    obtain ⟨high, hstart⟩ := startWorker_snd p2 spawn
    have hcall : p.scheduleTask a time alloc spawn now junk
        = some (if p2.thdCnt = 0 then p2.startWorker spawn else (⟨0, false⟩, p2)) := by
      rw [Pool.scheduleTask, hnew]
      simp only [Option.bind_eq_bind, Option.bind_some]
      rw [hlink, hp2]
      rfl
    -- A worker is started only if there is none.
    by_cases hzero : p.thdCnt = 0
    · refine Or.inr ⟨hobj, n, t, (p2.startWorker spawn).2, _, xs, ys, ?_,
        hready.insertScheduled h hcut ?_, hcut', Function.update_self _ _ _, hready.tasks, ?_, ?_,
        hplace⟩
      · rw [hcall, if_pos (hthd.trans hzero)]
        exact congrArg some (Prod.ext (by simp [hzero, startWorker_fst]) rfl)
      · rw [hstart, hp2]
      · rw [hstart]
        exact hidx
      · rw [hstart]
        simp [hthd, hzero]
    · refine Or.inr ⟨hobj, n, t, p2, _, xs, ys, ?_, hready.insertScheduled h hcut ?_, hcut',
        Function.update_self _ _ _, hready.tasks, hidx, ?_, hplace⟩
      · rw [hcall, if_neg (hthd ▸ hzero)]
        simp [hzero, submitted]
      · rw [hp2]
      · simp [hthd, hzero, submitted]

/-! ### Cancelling -/

/-- Tasks are taken out of the two queues one after another. -/
inductive Drops : Pool → (TaskRing → List Nat) → Pool → (TaskRing → List Nat) → Prop
  | refl (p : Pool) (q : TaskRing → List Nat) : Drops p q p q
  | task {p : Pool} {q : TaskRing → List Nat} {p' : Pool} {q' : TaskRing → List Nat}
      {xs ys : List Nat} {n : Nat} (hq : q .tasks = xs ++ n :: ys)
      (rest : Drops (p.dropTask n) (Function.update q .tasks (xs ++ ys)) p' q') : Drops p q p' q'
  | scheduled {p : Pool} {q : TaskRing → List Nat} {p' : Pool} {q' : TaskRing → List Nat}
      {xs ys : List Nat} {n : Nat} (hq : q .scheduled = xs ++ n :: ys)
      (rest : Drops (p.dropScheduled n) (Function.update q .scheduled (xs ++ ys)) p' q') :
      Drops p q p' q'

/-- Two drops one after the other. -/
theorem Drops.trans {p₁ p₂ p₃ : Pool} {q₁ q₂ q₃ : TaskRing → List Nat}
    (h : Drops p₁ q₁ p₂ q₂) (h' : Drops p₂ q₂ p₃ q₃) : Drops p₁ q₁ p₃ q₃ := by
  induction h with
  | refl p q => exact h'
  | task hq rest ih => exact .task hq (ih h')
  | scheduled hq rest ih => exact .scheduled hq (ih h')

/-- What taking tasks out of the queues leaves alone. -/
theorem Drops.frame {p' : Pool} {q' : TaskRing → List Nat} (h : Drops p q p' q') :
    p' = { p with taskCnt := p'.taskCnt, scheduledTaskCnt := p'.scheduledTaskCnt,
                  taskIdx := p'.taskIdx, taskLinks := p'.taskLinks } := by
  induction h with
  | refl p q => rfl
  | task hq rest ih => exact ih
  | scheduled hq rest ih => exact ih

/-- Dropping keeps the queues well-formed. -/
theorem Drops.wellFormed {p' : Pool} {q' : TaskRing → List Nat} (h : Drops p q p' q')
    (hp : WellFormed p q) : WellFormed p' q' := by
  induction h with
  | refl p q => exact hp
  | task hq rest ih => exact ih (hp.dropTask hq)
  | scheduled hq rest ih => exact ih (hp.dropScheduled hq)

/-- The objects of a queue whose tasks have another owner. -/
def others (task : Nat → PoolTask) (owner : Nat) (zs : List Nat) : List Nat :=
  zs.filter fun n => (task n).owner ≠ owner

/-- Of no tasks none is someone else's. -/
@[simp] theorem others_nil (task : Nat → PoolTask) (owner : Nat) : others task owner [] = [] := rfl

/-- A task of the owner is left out. -/
theorem others_cons_of_eq {task : Nat → PoolTask} {owner n : Nat} {zs : List Nat}
    (h : (task n).owner = owner) : others task owner (n :: zs) = others task owner zs := by
  simp [others, h]

/-- A task of someone else is kept. -/
theorem others_cons_of_ne {task : Nat → PoolTask} {owner n : Nat} {zs : List Nat}
    (h : (task n).owner ≠ owner) : others task owner (n :: zs) = n :: others task owner zs := by
  simp [others, h]

/-- The walk of `remove_tasks` from a cut on. -/
theorem WellFormed.removeTasksFrom (h : WellFormed p q) (owner : Nat) {xs ys : List Nat}
    (hq : q .tasks = xs ++ ys) {fuel : Nat} (hfuel : ys.length < fuel) :
    ∃ p', Pool.removeTasksFrom owner fuel (firstNode .tasks ys) p = some p' ∧
      Drops p q p' (Function.update q .tasks (xs ++ others p.task owner ys)) := by
  induction ys generalizing p q xs fuel with
  | nil =>
      cases fuel with
      | zero => simp at hfuel
      | succ fuel =>
          refine ⟨p, rfl, ?_⟩
          have hself : Function.update q .tasks (xs ++ others p.task owner []) = q := by
            rw [others_nil, ← hq, Function.update_eq_self]
          rw [hself]
          exact .refl p q
  | cons n ys ih =>
      cases fuel with
      | zero => simp at hfuel
      | succ fuel =>
          have hfuel' := Nat.lt_of_succ_lt_succ hfuel
          rw [firstNode_cons, Pool.removeTasksFrom, h.rings.next_elem hq]
          by_cases howner : (p.task n).owner = owner
          · rw [if_pos howner, others_cons_of_eq howner]
            -- The successor was read before the task was taken out, so the walk goes on there.
            obtain ⟨p', hrun, hdrops⟩ := ih (h.dropTask hq) (Function.update_self _ _ _) hfuel'
            rw [Function.update_idem] at hdrops
            exact ⟨p', hrun, .task hq hdrops⟩
          · rw [if_neg howner, others_cons_of_ne howner]
            have hq' : q .tasks = (xs ++ [n]) ++ ys := by simp [hq]
            obtain ⟨p', hrun, hdrops⟩ := ih h hq' hfuel'
            rw [List.append_assoc, List.singleton_append] at hdrops
            exact ⟨p', hrun, hdrops⟩

/-- The walk of `remove_scheduled_tasks` from a cut on. -/
theorem WellFormed.removeScheduledFrom (h : WellFormed p q) (owner : Nat) {xs ys : List Nat}
    (hq : q .scheduled = xs ++ ys) {fuel : Nat} (hfuel : ys.length < fuel) :
    ∃ p', Pool.removeScheduledFrom owner fuel (firstNode .scheduled ys) p = some p' ∧
      Drops p q p' (Function.update q .scheduled (xs ++ others p.task owner ys)) := by
  induction ys generalizing p q xs fuel with
  | nil =>
      cases fuel with
      | zero => simp at hfuel
      -- The end of the ring: nothing is dropped.
      | succ fuel =>
          refine ⟨p, rfl, ?_⟩
          have hself : Function.update q .scheduled (xs ++ others p.task owner []) = q := by
            rw [others_nil, ← hq, Function.update_eq_self]
          rw [hself]
          exact .refl p q
  | cons n ys ih =>
      cases fuel with
      | zero => simp at hfuel
      | succ fuel =>
          have hfuel' := Nat.lt_of_succ_lt_succ hfuel
          rw [firstNode_cons, Pool.removeScheduledFrom, h.rings.next_elem hq]
          -- A task of the owner is dropped, and the ones in front of it stay; any other is passed
          -- over.
          by_cases howner : (p.task n).owner = owner
          · rw [if_pos howner, others_cons_of_eq howner]
            obtain ⟨p', hrun, hdrops⟩ :=
              ih (h.dropScheduled hq) (Function.update_self _ _ _) hfuel'
            rw [Function.update_idem] at hdrops
            exact ⟨p', hrun, .scheduled hq hdrops⟩
          · rw [if_neg howner, others_cons_of_ne howner]
            have hq' : q .scheduled = (xs ++ [n]) ++ ys := by simp [hq]
            obtain ⟨p', hrun, hdrops⟩ := ih h hq' hfuel'
            rw [List.append_assoc, List.singleton_append] at hdrops
            exact ⟨p', hrun, hdrops⟩

/-- The rings after a cancellation. -/
def cancelled (task : Nat → PoolTask) (owner : Nat) (q : TaskRing → List Nat) :
    TaskRing → List Nat
  | .tasks => others task owner (q .tasks)
  | .scheduled => others task owner (q .scheduled)
  | .recycled => q .recycled

/-- `base_threadpool_cancel_tasks` takes the owner's tasks out of both queues. -/
theorem WellFormed.cancelTasks (h : WellFormed p q) (owner : Nat) :
    ∃ p', p.cancelTasks owner = some p' ∧ Drops p q p' (cancelled p.task owner q) := by
  -- Each of the two walks is left out when its counter is zero; then its ring is empty.
  have htasks : ∃ p1, (if 0 < p.taskCnt then p.removeTasks owner else some p) = some p1 ∧
      Drops p q p1 (Function.update q .tasks (others p.task owner (q .tasks))) := by
    split
    · rw [Pool.removeTasks, h.rings.next_head]
      exact h.removeTasksFrom owner (List.nil_append _).symm
        (Nat.lt_succ_of_le (h.length_le .tasks))
    · next hzero =>
        have hnil : q .tasks = [] := by
          have hcnt := h.taskCnt
          exact List.eq_nil_of_length_eq_zero (by omega)
        refine ⟨p, rfl, ?_⟩
        have hself : Function.update q .tasks (others p.task owner (q .tasks)) = q := by
          rw [hnil, others_nil, ← hnil, Function.update_eq_self]
        rw [hself]
        exact .refl p q
  obtain ⟨p1, hrun1, hdrops1⟩ := htasks
  have h1 := hdrops1.wellFormed h
  have htask : p1.task = p.task := by rw [hdrops1.frame]
  have hq1 : Function.update
      (Function.update q .tasks (others p.task owner (q .tasks))) .scheduled
      (others p.task owner (q .scheduled)) = cancelled p.task owner q := by
    funext r
    cases r with
    | tasks => rfl
    | scheduled => rfl
    | recycled => rfl
  have hscheduled : ∃ p2,
      (if 0 < p1.scheduledTaskCnt then p1.removeScheduledTasks owner else some p1) = some p2 ∧
      Drops p1 (Function.update q .tasks (others p.task owner (q .tasks))) p2
        (cancelled p.task owner q) := by
    split
    · rw [Pool.removeScheduledTasks, h1.rings.next_head, ← hq1, ← htask]
      rw [← htask] at h1
      exact h1.removeScheduledFrom owner (List.nil_append _).symm
        (Nat.lt_succ_of_le (h1.length_le .scheduled))
    · next hzero =>
        have hnil : q .scheduled = [] := by
          have hcnt : p1.scheduledTaskCnt = (q .scheduled).length := h1.scheduledTaskCnt
          exact List.eq_nil_of_length_eq_zero (by omega)
        refine ⟨p1, rfl, ?_⟩
        rw [← hq1, hnil]
        have hself : Function.update
            (Function.update q .tasks (others p.task owner (q .tasks))) .scheduled
            (others p.task owner [])
              = Function.update q .tasks (others p.task owner (q .tasks)) := by
          rw [others_nil]
          exact Function.update_eq_self_iff.mpr hnil.symm
        rw [hself]
        exact .refl _ _
  obtain ⟨p2, hrun2, hdrops2⟩ := hscheduled
  refine ⟨p2, ?_, hdrops1.trans hdrops2⟩
  rw [Pool.cancelTasks, hrun1]
  exact hrun2

/-- A task object that is in no ring is given back. -/
theorem WellFormed.recycleTask (h : WellFormed p q) {n : Nat} (hn : ∀ r, n ∉ q r)
    (hbrk : n < p.taskBrk) :
    WellFormed (p.recycleTask n) (Function.update q .recycled (q .recycled ++ [n])) := by
  refine ⟨⟨h.rings.insertTail .recycled hn, ?_, h.idx⟩, h.taskCnt, h.scheduledTaskCnt,
    h.taskMax⟩
  refine forall_mem_update h.brk ?_
  intro m hm
  rcases List.mem_append.mp hm with hm | hm
  · exact h.brk .recycled m hm
  · obtain rfl := List.mem_singleton.mp hm
    exact hbrk

end

end Mylib.Proofs.Thread
