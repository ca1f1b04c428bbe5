import Mylib.Spec.Thread.Workers
import Mylib.Proofs.Thread.NoLostTask

/-!
# `Mylib.Proofs.Thread.WorkerRings`: what a section of the pool does

A `View` is the pool with its rings of tasks and of worker elements, and with the place of
every worker. Inside a section a worker can also be busy without a task. `Consistent` says
that the rings, the counters and the elements agree with the places.

A section is a sequence of moves of one worker. There is one lemma per move: `goBusy` after
`eltNew` or after a wait, `finish` of a task, `startTask`, `retire` and `goIdle`. Each says
that `Consistent` is kept. `Flow` records which tasks were queued and running before and
after, and composes.

`Consistent.step` puts the moves together: every section returns and keeps `Consistent`.
There is no termination and no trimming in the system, so no worker is ever stopped.
-/

set_option autoImplicit false

namespace Mylib.Proofs.Thread

open Mylib.Lib.Ring
open Mylib.Spec.Thread

/-- The place of a worker, also inside its section. -/
inductive Place where
  | created
  | busy (e : Nat) (n : Option Nat)
  | idle (e : Nat)
  | exited
  | failed
  deriving DecidableEq

/-- The place of a worker that does not hold the lock. -/
def place : WorkerState → Place
  | .created => .created
  | .running e n => .busy e (some n)
  | .waiting e => .idle e
  | .exited => .exited
  | .failed => .failed

namespace Place

/-- The ring a worker is in, and its element. -/
def linked : Place → Option (ThdRing × Nat)
  | .busy e _ => some (.busy, e)
  | .idle e => some (.idle, e)
  | _ => none

/-- No worker is linked to the ring of recycled elements. -/
theorem linked_ne_recycled (x : Place) {r : ThdRing} {e : Nat} (h : x.linked = some (r, e)) :
    r ≠ .recycled := by
  cases x with
  | busy e' n =>
      obtain ⟨rfl, -⟩ : ThdRing.busy = r ∧ e' = e := by simpa [linked] using h
      simp
  | idle e' =>
      obtain ⟨rfl, -⟩ : ThdRing.idle = r ∧ e' = e := by simpa [linked] using h
      simp
  | created => simp [linked] at h
  | exited => simp [linked] at h
  | failed => simp [linked] at h

/-- The object of the task a worker runs. -/
def object : Place → Option Nat
  | .busy _ n => n
  | _ => none

/-- The owner of the task a worker runs. -/
def owner (task : Nat → PoolTask) (x : Place) : Nat :=
  match x.object with
  | some n => (task n).owner
  | none => 0

end Place

/-- The pool with its rings and the places of the workers. -/
structure View where
  pool : Pool
  q : TaskRing → List Nat
  b : ThdRing → List Nat
  ws : List Place

/-- The rings, the counters and the elements agree with the places of the workers. There are
at most `thd_max` workers, or `k` if there may be that many regardless. -/
structure Consistent (k : Nat) (v : View) : Prop where
  tasks : WellFormed v.pool v.q
  rings : Rings v.pool.thdLinks v.b
  brk : ∀ r, ∀ e ∈ v.b r, e < v.pool.eltBrk
  alive : v.pool.terminated = false
  noStop : ∀ e, (v.pool.elt e).state ≠ .stop
  idleCnt : v.pool.idleCnt = (v.b .idle).length
  mem : ∀ r e, r ≠ .recycled →
    (e ∈ v.b r ↔ ∃ (w : Nat) (x : Place), v.ws[w]? = some x ∧ x.linked = some (r, e))
  elt : ∀ (w : Nat) (x : Place) r e, v.ws[w]? = some x → x.linked = some (r, e) →
    (v.pool.elt e).thd = w ∧ (v.pool.elt e).currentOwner = x.owner v.pool.task
  held : ∀ (w : Nat) (x : Place) n, v.ws[w]? = some x → x.object = some n →
    n < v.pool.taskBrk ∧ ∀ r, n ∉ v.q r
  distinct : ∀ (w w' : Nat) (x x' : Place) n, v.ws[w]? = some x → v.ws[w']? = some x' →
    x.object = some n → x'.object = some n → w = w'
  thdCnt : v.pool.thdCnt = v.ws.countP (· ≠ .exited)
  pos : 1 ≤ k
  thdMax : v.pool.thdCnt ≤ max k v.pool.thdMax

/-- The tasks that are queued. -/
def Queued (v : View) (t : PoolTask) : Prop :=
  ∃ r n, r ≠ .recycled ∧ n ∈ v.q r ∧ t = v.pool.task n

/-- The tasks that are being executed. -/
def Running (v : View) (t : PoolTask) : Prop :=
  ∃ (w : Nat) (x : Place) (n : Nat), v.ws[w]? = some x ∧ x.object = some n ∧ t = v.pool.task n

/-- Tasks go from new to queued to running only. -/
structure Flow (v v' : View) : Prop where
  queued : ∀ t, Queued v' t → Queued v t ∨ v.pool.submissions ≤ t.ticket
  running : ∀ t, Running v' t → Running v t ∨ Queued v t ∨ v.pool.submissions ≤ t.ticket
  submissions : v.pool.submissions ≤ v'.pool.submissions

/-- Two steps one after the other. -/
theorem Flow.trans {v₁ v₂ v₃ : View} (h : Flow v₁ v₂) (h' : Flow v₂ v₃) : Flow v₁ v₃ := by
  refine ⟨?_, ?_, Nat.le_trans h.submissions h'.submissions⟩
  · intro t ht
    rcases h'.queued t ht with ht | ht
    · exact h.queued t ht
    · exact Or.inr (Nat.le_trans h.submissions ht)
  · intro t ht
    rcases h'.running t ht with ht | ht | ht
    · exact h.running t ht
    · exact Or.inr (h.queued t ht)
    · exact Or.inr (Or.inr (Nat.le_trans h.submissions ht))

/-- A move that touches neither the queues nor the running tasks. -/
theorem Flow.of_eq {v v' : View} (hq : ∀ r, r ≠ .recycled → v'.q r = v.q r)
    (htask : v'.pool.task = v.pool.task) (hsub : v'.pool.submissions = v.pool.submissions)
    (hrun : ∀ (w : Nat) (x : Place) n, v'.ws[w]? = some x → x.object = some n →
      ∃ (w' : Nat) (x' : Place), v.ws[w']? = some x' ∧ x'.object = some n) : Flow v v' := by
  refine ⟨?_, ?_, Nat.le_of_eq hsub.symm⟩
  · rintro t ⟨r, n, hr, hn, rfl⟩
    exact Or.inl ⟨r, n, hr, hq r hr ▸ hn, by rw [htask]⟩
  · rintro t ⟨w, x, n, hx, hn, rfl⟩
    obtain ⟨w', x', hx', hn'⟩ := hrun w x n hx hn
    exact Or.inl ⟨w', x', n, hx', hn', by rw [htask]⟩

/-! ### Changing the place of one worker -/

section
variable {ws : List Place} {w w' : Nat} {x y z : Place}

/-- A place after one was replaced. -/
theorem getElem?_set_eq_some (h : (ws.set w y)[w']? = some x) :
    (w' = w ∧ x = y) ∨ (w' ≠ w ∧ ws[w']? = some x) := by
  by_cases hw : w' = w
  · subst hw
    rw [List.getElem?_set_self'] at h
    cases hget : ws[w']? with
    | none => simp [hget] at h
    | some z => exact Or.inl ⟨rfl, by simpa [hget] using h.symm⟩
  · rw [List.getElem?_set_ne (Ne.symm hw)] at h
    exact Or.inr ⟨hw, h⟩

/-- The place that was replaced. -/
theorem getElem?_set_self_of_some (h : ws[w]? = some z) : (ws.set w y)[w]? = some y := by
  rw [List.getElem?_set_self', h]
  rfl

/-- The number of workers that have not exited, before and after one of them moves. -/
theorem countP_set (h : ws[w]? = some z) :
    (ws.set w y).countP (· ≠ .exited) + (if z = .exited then 0 else 1)
      = ws.countP (· ≠ .exited) + (if y = .exited then 0 else 1) := by
  induction ws generalizing w with
  | nil => simp at h
  | cons x ws ih =>
      cases w with
      | zero =>
          obtain rfl : x = z := by simpa using h
          simp only [List.set_cons_zero, List.countP_cons]
          by_cases hx : x = .exited <;> by_cases hy : y = .exited <;> simp [hx, hy]
      | succ w =>
          have ih := ih (w := w) (by simpa using h)
          simp only [List.set_cons_succ, List.countP_cons]
          omega

end

section
variable {k : Nat} {v : View} {w w' e : Nat} {x x' : Place}

/-- A worker element belongs to one worker. -/
theorem Consistent.worker_inj (h : Consistent k v) {r r' : ThdRing} (hx : v.ws[w]? = some x)
    (hx' : v.ws[w']? = some x') (he : x.linked = some (r, e)) (he' : x'.linked = some (r', e)) :
    w = w' :=
  (h.elt w x r e hx he).1.symm.trans (h.elt w' x' r' e hx' he').1

/-- A ring is no longer than the number of elements. -/
theorem Consistent.length_le (h : Consistent k v) (r : ThdRing) :
    (v.b r).length ≤ v.pool.eltBrk := by
  have hsub : (v.b r).Subperm (List.range v.pool.eltBrk) :=
    List.subperm_of_subset (h.rings.nodup r) fun e he => List.mem_range.mpr (h.brk r e he)
  simpa using hsub.length_le

/-- The rings after the worker `w` moves from the place `x` to the place `y`. -/
theorem Consistent.mem_set (h : Consistent k v) (hx : v.ws[w]? = some x) (y : Place)
    {b : ThdRing → List Nat}
    (hb : ∀ r e, r ≠ .recycled →
      (e ∈ b r ↔ (e ∈ v.b r ∧ x.linked ≠ some (r, e)) ∨ y.linked = some (r, e)))
    (r : ThdRing) (e : Nat) (hr : r ≠ .recycled) :
    e ∈ b r ↔ ∃ (w' : Nat) (z : Place), (v.ws.set w y)[w']? = some z ∧ z.linked = some (r, e) := by
  rw [hb r e hr]
  constructor
  · rintro (⟨he, hne⟩ | he)
    · obtain ⟨w', z, hz, hze⟩ := (h.mem r e hr).mp he
      have hw : w ≠ w' := by
        rintro rfl
        obtain rfl : x = z := by simpa [hx] using hz
        exact hne hze
      exact ⟨w', z, by rw [List.getElem?_set_ne hw, hz], hze⟩
    · exact ⟨w, y, getElem?_set_self_of_some hx, he⟩
  · rintro ⟨w', z, hz, hze⟩
    rcases getElem?_set_eq_some hz with ⟨-, rfl⟩ | ⟨hw, hz⟩
    · exact Or.inr hze
    · refine Or.inl ⟨(h.mem r e hr).mpr ⟨w', z, hz, hze⟩, ?_⟩
      intro hxe
      exact hw (h.worker_inj hz hx hze hxe)

/-- The worker `w` moves from the place `x` to the place `y`, and only its own element
changes. -/
theorem Consistent.moved (h : Consistent k v) (hx : v.ws[w]? = some x) (y : Place) {p : Pool}
    {q : TaskRing → List Nat} {b : ThdRing → List Nat}
    (htasks : WellFormed p q) (htask : p.task = v.pool.task)
    (hrings : Rings p.thdLinks b) (hbrk : ∀ r, ∀ e ∈ b r, e < p.eltBrk)
    (halive : p.terminated = false) (hstop : ∀ e, (p.elt e).state ≠ .stop)
    (hidle : p.idleCnt = (b .idle).length)
    (hb : ∀ r e, r ≠ .recycled →
      (e ∈ b r ↔ (e ∈ v.b r ∧ x.linked ≠ some (r, e)) ∨ y.linked = some (r, e)))
    (hy : ∀ r e, y.linked = some (r, e) →
      (p.elt e).thd = w ∧ (p.elt e).currentOwner = y.owner p.task)
    (hother : ∀ (w' : Nat) (x' : Place) r e, w' ≠ w → v.ws[w']? = some x' →
      x'.linked = some (r, e) → p.elt e = v.pool.elt e)
    (hheld : ∀ n, y.object = some n → n < p.taskBrk ∧ (∀ r, n ∉ q r) ∧
      ∀ (w' : Nat) (x' : Place), w' ≠ w → v.ws[w']? = some x' → x'.object ≠ some n)
    (hheld' : ∀ (w' : Nat) (x' : Place) n, w' ≠ w → v.ws[w']? = some x' → x'.object = some n →
      n < p.taskBrk ∧ ∀ r, n ∉ q r)
    (hcnt : p.thdCnt + (if x = .exited then 0 else 1)
      = v.pool.thdCnt + (if y = .exited then 0 else 1))
    (hle : p.thdCnt ≤ v.pool.thdCnt) (hmax : p.thdMax = v.pool.thdMax) :
    Consistent k ⟨p, q, b, v.ws.set w y⟩ := by
  refine ⟨htasks, hrings, hbrk, halive, hstop, hidle, h.mem_set hx y hb, ?_, ?_, ?_, ?_, h.pos,
    ?_⟩
  -- Each statement about all workers is the new one about `w` and the old one about the others.
  · intro w' x' r e hx' he
    rcases getElem?_set_eq_some hx' with ⟨rfl, rfl⟩ | ⟨hw, hx'⟩
    · exact hy r e he
    · show (p.elt e).thd = w' ∧ (p.elt e).currentOwner = x'.owner p.task
      rw [hother w' x' r e hw hx' he, htask]
      exact h.elt w' x' r e hx' he
  · intro w' x' n hx' hn
    rcases getElem?_set_eq_some hx' with ⟨rfl, rfl⟩ | ⟨hw, hx'⟩
    · exact ⟨(hheld n hn).1, (hheld n hn).2.1⟩
    · exact hheld' w' x' n hw hx' hn
  · intro w₁ w₂ x₁ x₂ n h₁ h₂ hn₁ hn₂
    rcases getElem?_set_eq_some h₁ with ⟨rfl, rfl⟩ | ⟨hw₁, hold₁⟩
    · rcases getElem?_set_eq_some h₂ with ⟨rfl, -⟩ | ⟨hw₂, hold₂⟩
      · rfl
      · exact absurd hn₂ ((hheld n hn₁).2.2 w₂ x₂ hw₂ hold₂)
    · rcases getElem?_set_eq_some h₂ with ⟨rfl, rfl⟩ | ⟨hw₂, hold₂⟩
      · exact absurd hn₁ ((hheld n hn₂).2.2 w₁ x₁ hw₁ hold₁)
      · exact h.distinct w₁ w₂ x₁ x₂ n hold₁ hold₂ hn₁ hn₂
  · have hcount := countP_set (y := y) hx
    have hold := h.thdCnt
    show p.thdCnt = (v.ws.set w y).countP (· ≠ .exited)
    omega
  · have hold := h.thdMax
    show p.thdCnt ≤ max k p.thdMax
    rw [hmax]
    omega

/-! ### The moves of a worker -/

/-- The queues do not depend on the fields of the workers. -/
theorem WellFormed.of_workers {p p' : Pool} {q : TaskRing → List Nat} (h : WellFormed p q)
    (hp' : p' = { p with
      idleWait := p'.idleWait, thdCnt := p'.thdCnt, idleCnt := p'.idleCnt,
      threshold := p'.threshold, tasksRun := p'.tasksRun, thdHigh := p'.thdHigh,
      thdTimedOut := p'.thdTimedOut, thdLinks := p'.thdLinks, elt := p'.elt,
      eltBrk := p'.eltBrk }) : WellFormed p' q := by
  rw [hp']
  exact ⟨⟨h.rings, h.brk, h.idx⟩, h.taskCnt, h.scheduledTaskCnt, h.taskMax⟩

/-- A busy worker without a task is in the ring of busy workers. -/
theorem Consistent.busy_cut (h : Consistent k v) {n : Option Nat}
    (hx : v.ws[w]? = some (.busy e n)) : ∃ xs ys, v.b .busy = xs ++ e :: ys :=
  List.append_of_mem ((h.mem .busy e (by simp)).mpr ⟨w, _, hx, rfl⟩)

/-- The element of an idle worker is in the idle ring. -/
theorem Consistent.idle_cut (h : Consistent k v) (hx : v.ws[w]? = some (.idle e)) :
    ∃ xs ys, v.b .idle = xs ++ e :: ys :=
  List.append_of_mem ((h.mem .idle e (by simp)).mpr ⟨w, _, hx, rfl⟩)

/-- The rings after an element moves to the tail of another ring. -/
theorem Consistent.rings_move (h : Consistent k v) {r r' : ThdRing} {xs ys : List Nat}
    (hcut : v.b r = xs ++ e :: ys) (hr : r' ≠ r) :
    Rings ((v.pool.thdLinks.remove (.elem e)).insertTail r' (.elem e))
      (Function.update (Function.update v.b r (xs ++ ys)) r' (v.b r' ++ [e])) := by
  have hins := (h.rings.remove hcut).insertTail r' (h.rings.notMem_remove hcut)
  rwa [Function.update_of_ne hr] at hins

/-- What is in the rings after an element moves to the tail of another ring. -/
theorem Consistent.mem_move (h : Consistent k v) {r r' : ThdRing} {xs ys : List Nat}
    (hcut : v.b r = xs ++ e :: ys) (hr : r' ≠ r) (i : ThdRing) (e' : Nat) :
    e' ∈ Function.update (Function.update v.b r (xs ++ ys)) r' (v.b r' ++ [e]) i ↔
      (e' ∈ v.b i ∧ (r, e) ≠ (i, e')) ∨ (r', e) = (i, e') := by
  -- In a ring without repetition `e` is gone once it is taken out.
  have hnd := h.rings.nodup r
  rw [hcut] at hnd
  have hout : e ∉ xs ++ ys := (List.nodup_cons.mp (List.nodup_middle.mp hnd)).1
  -- The ring it goes to, the ring it comes from, and any other.
  by_cases hi : i = r'
  · subst hi
    have hne : (r, e) ≠ (i, e') := fun heq => hr (congrArg Prod.fst heq).symm
    rw [Function.update_self, List.mem_append, List.mem_singleton]
    simp [hne, eq_comm]
  · rw [Function.update_of_ne hi]
    have hne : (r', e) ≠ (i, e') := fun heq => hi (congrArg Prod.fst heq).symm
    by_cases hir : i = r
    · subst hir
      rw [Function.update_self, hcut, List.perm_middle.mem_iff, List.mem_cons]
      by_cases hee : e' = e
      · subst hee
        simp [hne, hout]
      · simp [hne, hee, Ne.symm hee]
    · rw [Function.update_of_ne hir]
      have hne' : (r, e) ≠ (i, e') := fun heq => hir (congrArg Prod.fst heq).symm
      simp [hne, hne']

/-- Moving an element from ring to ring takes it from those that were allocated. -/
theorem Consistent.brk_move (h : Consistent k v) {r r' : ThdRing} {xs ys : List Nat}
    (hcut : v.b r = xs ++ e :: ys) (hr : r' ≠ r) :
    ∀ i, ∀ e' ∈ Function.update (Function.update v.b r (xs ++ ys)) r' (v.b r' ++ [e]) i,
      e' < v.pool.eltBrk := by
  intro i e' he'
  rcases (h.mem_move hcut hr i e').mp he' with ⟨hold, -⟩ | heq
  · exact h.brk i e' hold
  · obtain rfl : e = e' := congrArg Prod.snd heq
    exact h.brk r e (by simp [hcut])

/-- An idle worker that wakes joins the busy ones. -/
theorem Consistent.wake (h : Consistent k v) (hx : v.ws[w]? = some (.idle e)) :
    ∃ b, Consistent k ⟨v.pool.goBusy e, v.q, b, v.ws.set w (.busy e none)⟩ := by
  obtain ⟨xs, ys, hcut⟩ := h.idle_cut hx
  -- An element in a ring has a neighbour, so `goBusy` takes it out of the idle ring first.
  have hne := h.rings.next_ne_self (i := .idle) (n := e) (by simp [hcut])
  have hpool : v.pool.goBusy e = { v.pool with
      idleCnt := v.pool.idleCnt - 1
      thdLinks := (v.pool.thdLinks.remove (.elem e)).insertTail .busy (.elem e) } := by
    rw [Pool.goBusy, if_pos hne]
  have htasks := h.tasks
  rw [hpool]
  refine ⟨_, h.moved hx (.busy e none) (htasks.of_workers rfl) rfl
    (h.rings_move hcut (by simp)) (h.brk_move hcut (by simp)) h.alive h.noStop ?_ ?_ ?_ ?_ ?_ ?_ ?_
    (Nat.le_refl _) rfl⟩
  · have hcnt := h.idleCnt
    rw [hcut] at hcnt
    show v.pool.idleCnt - 1 = _
    rw [hcnt, Function.update_of_ne (by simp), Function.update_self]
    simp
  · intro r e' hr
    rw [h.mem_move hcut (by simp)]
    simp [Place.linked]
  · intro r e' he'
    obtain ⟨-, rfl⟩ : ThdRing.busy = r ∧ e = e' := by simpa [Place.linked] using he'
    exact h.elt w (.idle e) .idle e hx rfl
  · intro w' x' r e' hw hx' he'
    rfl
  · intro n hn
    exact absurd hn (by simp [Place.object])
  · intro w' x' n hw hx' hn
    exact h.held w' x' n hx' hn
  · simp

/-- A worker that starts joins the busy ones with an element that is in no ring. The element
is linked to itself, so it is not taken for an idle one. -/
theorem Consistent.goBusy_initElt (h : Consistent k v) (hx : v.ws[w]? = some .created) (p : Pool)
    (rest : List Nat) (hp : p = { v.pool with thdLinks := p.thdLinks, eltBrk := p.eltBrk })
    (hrings : Rings p.thdLinks (Function.update v.b .recycled rest))
    (hfresh : ∀ r, e ∉ Function.update v.b .recycled rest r) (hrest : rest ⊆ v.b .recycled)
    (hlt : e < p.eltBrk) (hbrk : v.pool.eltBrk ≤ p.eltBrk) :
    ∃ b, Consistent k ⟨(p.initElt e w).goBusy e, v.q, b, v.ws.set w (.busy e none)⟩ := by
  -- The element is linked to itself, so `goBusy` has nothing to take it out of.
  have hself : (p.initElt e w).thdLinks.next (.elem e) = .elem e := by
    simp [Pool.initElt, Links.elemInit_next]
  have hpool : (p.initElt e w).goBusy e = { p.initElt e w with
      thdLinks := (p.initElt e w).thdLinks.insertTail .busy (.elem e) } := by
    rw [Pool.goBusy, if_neg (not_not.mpr hself)]
  have hfree : ∀ r, r ≠ .recycled → e ∉ v.b r := by
    intro r hr
    have hout := hfresh r
    rwa [Function.update_of_ne hr] at hout
  have hother : ∀ e', e' ≠ e → (p.initElt e w).elt e' = v.pool.elt e' := by
    intro e' he'
    rw [Pool.initElt, hp]
    exact Function.update_of_ne he' _ _
  have helt : (p.initElt e w).elt e = ⟨w, 0, .run⟩ := Function.update_self _ _ _
  have hins := (hrings.elemInit hfresh).insertTail .busy hfresh
  rw [Function.update_of_ne (by simp)] at hins
  rw [hpool]
  refine ⟨_, h.moved hx (.busy e none) (h.tasks.of_workers ?_) ?_ hins ?_ ?_ ?_ ?_ ?_ ?_ ?_ ?_ ?_
    ?_ ?_ ?_⟩
  · rw [Pool.initElt, hp]
  · rw [Pool.initElt, hp]
  · intro r e' he'
    show e' < p.eltBrk
    by_cases hr : r = .busy
    · subst hr
      rw [Function.update_self, List.mem_append, List.mem_singleton] at he'
      rcases he' with he' | rfl
      · exact Nat.lt_of_lt_of_le (h.brk .busy e' he') hbrk
      · exact hlt
    · rw [Function.update_of_ne hr] at he'
      by_cases hr' : r = .recycled
      · subst hr'
        rw [Function.update_self] at he'
        exact Nat.lt_of_lt_of_le (h.brk .recycled e' (hrest he')) hbrk
      · rw [Function.update_of_ne hr'] at he'
        exact Nat.lt_of_lt_of_le (h.brk r e' he') hbrk
  · rw [Pool.initElt, hp]
    exact h.alive
  · intro e'
    show ((p.initElt e w).elt e').state ≠ .stop
    by_cases he' : e' = e
    · rw [he', helt]
      simp
    · rw [hother e' he']
      exact h.noStop e'
  · rw [Pool.initElt, hp]
    exact h.idleCnt
  · intro r e' hr
    by_cases hrb : r = .busy
    · subst hrb
      rw [Function.update_self, List.mem_append, List.mem_singleton]
      simp [Place.linked, eq_comm]
    · rw [Function.update_of_ne hrb, Function.update_of_ne hr]
      simp [Place.linked, Ne.symm hrb]
  · intro r e' he'
    obtain ⟨-, rfl⟩ : ThdRing.busy = r ∧ e = e' := by simpa [Place.linked] using he'
    show ((p.initElt e w).elt e).thd = w ∧ ((p.initElt e w).elt e).currentOwner = 0
    rw [helt]
    exact ⟨rfl, rfl⟩
  · intro w' x' r e' hw hx' he'
    have hr := x'.linked_ne_recycled he'
    refine hother e' ?_
    rintro rfl
    exact hfree r hr ((h.mem r e' hr).mpr ⟨w', x', hx', he'⟩)
  · intro n hn
    exact absurd hn (by simp [Place.object])
  · intro w' x' n hw hx' hn
    have hheld := h.held w' x' n hx' hn
    rw [Pool.initElt, hp]
    exact hheld
  · show (p.initElt e w).thdCnt + 1 = v.pool.thdCnt + 1
    rw [Pool.initElt, hp]
  · exact Nat.le_of_eq (by rw [Pool.initElt, hp])
  · rw [Pool.initElt, hp]

/-- A worker that starts gets an element and joins the busy ones, unless there is no memory
for an element. -/
theorem Consistent.start (h : Consistent k v) (hx : v.ws[w]? = some .created) (alloc : Bool) :
    (alloc = false ∧ v.pool.eltNew w alloc = some (none, v.pool)) ∨
    ∃ e p b, v.pool.eltNew w alloc = some (some e, p) ∧
      p.task = v.pool.task ∧ p.submissions = v.pool.submissions ∧
      Consistent k ⟨p.goBusy e, v.q, b, v.ws.set w (.busy e none)⟩ := by
  have hfirst := h.rings.next_head .recycled
  cases hb : v.b .recycled with
  -- Nothing to recycle: a new object, if the allocation succeeds.
  | nil =>
      rw [hb] at hfirst
      cases alloc with
      | false => exact Or.inl ⟨rfl, by simp [Pool.eltNew, hfirst]⟩
      | true =>
          have hupd : Function.update v.b .recycled [] = v.b := by
            rw [← hb, Function.update_eq_self]
          obtain ⟨b, hcons⟩ := h.goBusy_initElt (e := v.pool.eltBrk) hx
            { v.pool with eltBrk := v.pool.eltBrk + 1 } [] rfl (hupd.symm ▸ h.rings)
            (by
              rw [hupd]
              exact fun r hin => absurd (h.brk r _ hin) (Nat.lt_irrefl _))
            (List.nil_subset _) (Nat.lt_succ_self _) (Nat.le_succ _)
          refine Or.inr ⟨_, _, b, ?_, ?_, ?_, hcons⟩
          · simp [Pool.eltNew, hfirst]
          · rfl
          · rfl
  -- The first recycled object is taken.
  | cons e rest =>
      rw [hb] at hfirst
      have hcut : v.b .recycled = [] ++ e :: rest := hb
      obtain ⟨b, hcons⟩ := h.goBusy_initElt (e := e) hx
        { v.pool with thdLinks := v.pool.thdLinks.remove (.elem e) } rest rfl
        (h.rings.remove hcut) (h.rings.notMem_remove hcut)
        (by
          rw [hb]
          exact List.subset_cons_self e rest)
        (h.brk .recycled e (by simp [hb])) (Nat.le_refl _)
      refine Or.inr ⟨e, _, b, ?_, ?_, ?_, hcons⟩
      · simp [Pool.eltNew, hfirst]
      · rfl
      · rfl

/-- A worker that gets no element exits and stays counted. -/
theorem Consistent.fail (h : Consistent k v) (hx : v.ws[w]? = some .created) :
    Consistent k ⟨v.pool, v.q, v.b, v.ws.set w .failed⟩ := by
  refine h.moved hx .failed h.tasks rfl h.rings h.brk h.alive h.noStop h.idleCnt ?_ ?_
    (fun _ _ _ _ _ _ _ => rfl) ?_ (fun w' x' n _ => h.held w' x' n) ?_ (Nat.le_refl _) rfl
  · intro r e hr
    simp [Place.linked]
  · intro r e he
    simp [Place.linked] at he
  · intro n hn
    simp [Place.object] at hn
  · simp

/-- A busy worker that takes up a task or puts one down stays where it is in the rings. -/
theorem Consistent.mem_busy (h : Consistent k v) {t : Option Nat}
    (hx : v.ws[w]? = some (.busy e t)) (t' : Option Nat) (r : ThdRing) (e' : Nat)
    (hr : r ≠ .recycled) :
    e' ∈ v.b r ↔ (e' ∈ v.b r ∧ (Place.busy e t).linked ≠ some (r, e')) ∨
      (Place.busy e t').linked = some (r, e') := by
  constructor
  · intro he'
    by_cases heq : (ThdRing.busy, e) = (r, e')
    · exact Or.inr (congrArg some heq)
    · exact Or.inl ⟨he', fun hlinked => heq (by simpa [Place.linked] using hlinked)⟩
  · rintro (⟨he', -⟩ | he')
    · exact he'
    · obtain ⟨rfl, rfl⟩ : ThdRing.busy = r ∧ e = e' := by simpa [Place.linked] using he'
      exact (h.mem .busy e hr).mpr ⟨w, _, hx, rfl⟩

/-- It writes the owner of the task into its own element, and no other worker has that one. -/
theorem Consistent.elt_busy (h : Consistent k v) {t : Option Nat}
    (hx : v.ws[w]? = some (.busy e t)) (elt : Elt) (w' : Nat) (x' : Place) (r : ThdRing)
    (e' : Nat) (hw : w' ≠ w) (hx' : v.ws[w']? = some x') (he' : x'.linked = some (r, e')) :
    Function.update v.pool.elt e elt e' = v.pool.elt e' := by
  have hee : e' ≠ e := by
    rintro rfl
    exact hw (h.worker_inj hx' hx he' rfl)
  exact Function.update_of_ne hee _ _

/-- The owner of an element does not matter for who is told to stop. -/
theorem Consistent.noStop_owner (h : Consistent k v) (e owner e' : Nat) :
    (Function.update v.pool.elt e { v.pool.elt e with currentOwner := owner } e').state ≠
      .stop := by
  by_cases he' : e' = e
  · subst he'
    rw [Function.update_self]
    exact h.noStop e'
  · rw [Function.update_of_ne he']
    exact h.noStop e'

/-- A worker has finished its task: the object is recycled. -/
theorem Consistent.finish (h : Consistent k v) {n : Nat} (hx : v.ws[w]? = some (.busy e (some n))) :
    Consistent k ⟨{ v.pool.recycleTask n with
        elt := Function.update v.pool.elt e { v.pool.elt e with currentOwner := 0 } },
      Function.update v.q .recycled (v.q .recycled ++ [n]), v.b, v.ws.set w (.busy e none)⟩ := by
  obtain ⟨hnlt, hnout⟩ := h.held w _ n hx rfl
  have hthd := (h.elt w _ .busy e hx rfl).1
  refine h.moved hx (.busy e none) ((h.tasks.recycleTask hnout hnlt).of_workers rfl) rfl h.rings
    h.brk h.alive (h.noStop_owner e 0) h.idleCnt (h.mem_busy hx none) ?_ (h.elt_busy hx _) ?_ ?_ ?_
    (Nat.le_refl _) rfl
  · intro r e' he'
    obtain ⟨-, rfl⟩ : ThdRing.busy = r ∧ e = e' := by simpa [Place.linked] using he'
    show (Function.update v.pool.elt e _ e).thd = w ∧
      (Function.update v.pool.elt e _ e).currentOwner = 0
    rw [Function.update_self]
    exact ⟨hthd, rfl⟩
  · intro m hm
    exact absurd hm (by simp [Place.object])
  · intro w' x' m hw hx' hm
    obtain ⟨hmlt, hmout⟩ := h.held w' x' m hx' hm
    -- Two workers never run the same object, so the recycled one is not that of another.
    have hmn : m ≠ n := by
      rintro rfl
      exact hw (h.distinct w' w x' _ m hx' hx hm rfl)
    refine ⟨hmlt, ?_⟩
    intro r hin
    rcases mem_or_eq_of_mem_inserted hin with hin | hin
    · exact hmout r hin
    · exact hmn hin
  · simp [Pool.recycleTask]

/-- A busy worker starts a task that it has taken out of a queue. -/
theorem Consistent.startTask (h : Consistent k v) (hx : v.ws[w]? = some (.busy e none))
    {r : TaskRing} {n : Nat} {xs ys : List Nat} (hcut : v.q r = xs ++ n :: ys) {p : Pool}
    (hp : p = { v.pool with taskLinks := p.taskLinks, taskIdx := p.taskIdx, taskCnt := p.taskCnt,
                            scheduledTaskCnt := p.scheduledTaskCnt })
    (hwf : WellFormed p (Function.update v.q r (xs ++ ys))) :
    Consistent k ⟨{ p with
        tasksRun := p.tasksRun + 1
        elt := Function.update p.elt e { p.elt e with currentOwner := (p.task n).owner } },
      Function.update v.q r (xs ++ ys), v.b, v.ws.set w (.busy e (some n))⟩ := by
  have hthd := (h.elt w _ .busy e hx rfl).1
  have hnin : n ∈ v.q r := by simp [hcut]
  have helt : p.elt = v.pool.elt := by rw [hp]
  have htask : p.task = v.pool.task := by rw [hp]
  have hlinks : p.thdLinks = v.pool.thdLinks := by rw [hp]
  have heltBrk : p.eltBrk = v.pool.eltBrk := by rw [hp]
  have hbrk : p.taskBrk = v.pool.taskBrk := by rw [hp]
  have hcnt : p.thdCnt = v.pool.thdCnt := by rw [hp]
  refine h.moved hx (.busy e (some n)) (hwf.of_workers rfl) htask (hlinks ▸ h.rings)
    (heltBrk ▸ h.brk) ?_ ?_ ?_ ?_ ?_ ?_ ?_ ?_ ?_ ?_ ?_
  · rw [hp]
    exact h.alive
  · intro e'
    show (Function.update p.elt e _ e').state ≠ .stop
    rw [helt]
    exact h.noStop_owner e _ e'
  · rw [hp]
    exact h.idleCnt
  · exact h.mem_busy hx (some n)
  · intro r' e' he'
    obtain ⟨-, rfl⟩ : ThdRing.busy = r' ∧ e = e' := by simpa [Place.linked] using he'
    show (Function.update p.elt e _ e).thd = w ∧
      (Function.update p.elt e _ e).currentOwner = (p.task n).owner
    rw [Function.update_self, helt]
    exact ⟨hthd, rfl⟩
  · show ∀ w' x' r' e', _ → _ → _ → Function.update p.elt e _ e' = v.pool.elt e'
    rw [helt]
    exact h.elt_busy hx _
  · intro m hm
    obtain rfl : n = m := by simpa [Place.object] using hm
    -- The object was queued until now, and what is queued no worker runs.
    refine ⟨hbrk ▸ h.tasks.brk r n hnin, h.tasks.rings.notMem_remove hcut, ?_⟩
    intro w' x' hw hx' hn
    exact (h.held w' x' n hx' hn).2 r hnin
  · intro w' x' m hw hx' hm
    obtain ⟨hmlt, hmout⟩ := h.held w' x' m hx' hm
    exact ⟨hbrk ▸ hmlt, fun r' hin => hmout r' (mem_of_mem_removed hcut hin)⟩
  · simp [hcnt]
  · exact Nat.le_of_eq hcnt
  · rw [hp]

/-- A busy worker without a task exits. -/
theorem Consistent.retire (h : Consistent k v) (hx : v.ws[w]? = some (.busy e none)) :
    ∃ b, Consistent k
      ⟨{ v.pool with thdLinks := v.pool.thdLinks.remove (.elem e) }.retire e, v.q, b,
        v.ws.set w .exited⟩ := by
  obtain ⟨xs, ys, hcut⟩ := h.busy_cut hx
  have hpos : 0 < v.pool.thdCnt := by
    rw [h.thdCnt]
    exact List.countP_pos_iff.mpr ⟨_, List.mem_of_getElem? hx, by simp⟩
  refine ⟨_, h.moved hx .exited (h.tasks.of_workers rfl) rfl (h.rings_move hcut (by simp))
    (h.brk_move hcut (by simp)) h.alive h.noStop ?_ ?_ ?_ (fun _ _ _ _ _ _ _ => rfl) ?_
    (fun w' x' n _ => h.held w' x' n) ?_ (Nat.sub_le _ _) rfl⟩
  · rw [Function.update_of_ne (by simp), Function.update_of_ne (by simp)]
    exact h.idleCnt
  · intro r e' hr
    rw [h.mem_move hcut (by simp)]
    have hne : (ThdRing.recycled, e) ≠ (r, e') := fun heq => hr (congrArg Prod.fst heq).symm
    simp [Place.linked, hne]
  · intro r e' he'
    simp [Place.linked] at he'
  · intro n hn
    simp [Place.object] at hn
  · show v.pool.thdCnt - 1 + 1 = v.pool.thdCnt + 0
    omega

/-- A busy worker without a task becomes idle. -/
theorem Consistent.goIdle (h : Consistent k v) (hx : v.ws[w]? = some (.busy e none)) :
    ∃ p b, { v.pool with thdLinks := v.pool.thdLinks.remove (.elem e) }.goIdle e = some p ∧
      p.task = v.pool.task ∧ p.submissions = v.pool.submissions ∧
      Consistent k ⟨p, v.q, b, v.ws.set w (.idle e)⟩ := by
  obtain ⟨xs, ys, hcut⟩ := h.busy_cut hx
  have hown := h.elt w _ .busy e hx rfl
  have hidle : v.pool.idleCnt + 1 = (Function.update (Function.update v.b .busy (xs ++ ys)) .idle
      (v.b .idle ++ [e]) .idle).length := by
    rw [Function.update_self, h.idleCnt]
    simp
  -- Whatever the state of the worker is afterwards, as long as it is not stopped.
  have hmove : ∀ x : Elt, x.thd = (v.pool.elt e).thd →
      x.currentOwner = (v.pool.elt e).currentOwner → x.state ≠ .stop →
      Consistent k ⟨{ v.pool with
          idleCnt := v.pool.idleCnt + 1
          thdLinks := (v.pool.thdLinks.remove (.elem e)).insertTail .idle (.elem e)
          elt := Function.update v.pool.elt e x }, v.q,
        Function.update (Function.update v.b .busy (xs ++ ys)) .idle (v.b .idle ++ [e]),
        v.ws.set w (.idle e)⟩ := by
    intro x hthd howner hstate
    refine h.moved hx (.idle e) (h.tasks.of_workers rfl) rfl (h.rings_move hcut (by simp))
      (h.brk_move hcut (by simp)) h.alive ?_ hidle ?_ ?_ ?_ ?_ (fun w' x' n _ => h.held w' x' n) ?_
      (Nat.le_refl _) rfl
    · intro e'
      show (Function.update v.pool.elt e x e').state ≠ .stop
      by_cases he' : e' = e
      · subst he'
        rw [Function.update_self]
        exact hstate
      · rw [Function.update_of_ne he']
        exact h.noStop e'
    · intro r e' hr
      rw [h.mem_move hcut (by simp)]
      simp [Place.linked]
    · intro r e' he'
      obtain ⟨-, rfl⟩ : ThdRing.idle = r ∧ e = e' := by simpa [Place.linked] using he'
      show (Function.update v.pool.elt e x e).thd = w ∧
        (Function.update v.pool.elt e x e).currentOwner = 0
      rw [Function.update_self, hthd, howner]
      exact hown
    · intro w' x' r e' hw hx' he'
      have hee : e' ≠ e := by
        rintro rfl
        exact hw (h.worker_inj hx' hx he' rfl)
      exact Function.update_of_ne hee _ _
    · intro n hn
      simp [Place.object] at hn
    · simp
  have hsame := hmove (v.pool.elt e) rfl rfl (h.noStop e)
  rw [Function.update_eq_self] at hsame
  rw [Pool.goIdle]
  have hcnt := h.tasks.scheduledTaskCnt
  by_cases hsched : v.pool.scheduledTaskCnt = 0
  · by_cases hmany : v.pool.idleMax < v.pool.idleCnt + 1
    · refine ⟨_, _, ?_, ?_, ?_,
        hmove { v.pool.elt e with state := .probation } rfl rfl (by simp)⟩
      · simp [hsched, hmany]
      · rfl
      · rfl
    · refine ⟨_, _, ?_, ?_, ?_, hsame⟩
      · simp [hsched, hmany]
      · rfl
      · rfl
  · have hfirst := h.tasks.rings.next_head .scheduled
    cases hq : v.q .scheduled with
    | nil =>
        rw [hq] at hcnt
        exact absurd hcnt hsched
    | cons m ms =>
        rw [hq] at hfirst
        refine ⟨_, _, ?_, ?_, ?_, hsame⟩
        · simp [hsched, hfirst]
        · rfl
        · rfl

/-- A move of a worker to a place where it runs no task. -/
theorem Flow.of_move {p : Pool} {q : TaskRing → List Nat} {b : ThdRing → List Nat} {y : Place}
    (hy : y.object = none) (hq : ∀ r, r ≠ .recycled → q r = v.q r)
    (htask : p.task = v.pool.task) (hsub : p.submissions = v.pool.submissions) :
    Flow v ⟨p, q, b, v.ws.set w y⟩ := by
  refine Flow.of_eq hq htask hsub ?_
  intro w' x n hx hn
  rcases getElem?_set_eq_some hx with ⟨-, rfl⟩ | ⟨-, hx⟩
  · simp [hy] at hn
  · exact ⟨w', x, hx, hn⟩

/-- A busy worker that finds no task becomes idle or exits. -/
theorem Consistent.afterTasks (h : Consistent k v) (hx : v.ws[w]? = some (.busy e none)) :
    ∃ x p b, v.pool.afterTasks e = some (x, p) ∧ x ≠ .failed ∧
      Consistent k ⟨p, v.q, b, v.ws.set w (place x)⟩ ∧
      Flow v ⟨p, v.q, b, v.ws.set w (place x)⟩ := by
  have howner : (v.pool.elt e).currentOwner = 0 := (h.elt w _ .busy e hx rfl).2
  have hstate := h.noStop e
  obtain ⟨b₁, hretire⟩ := h.retire hx
  obtain ⟨p, b₂, hcall, htask, hsub, hidle⟩ := h.goIdle hx
  by_cases hret : { v.pool with thdLinks := v.pool.thdLinks.remove (.elem e) }.retires e = true
  · refine ⟨.exited, _, b₁, ?_, by simp, hretire, Flow.of_move rfl (fun _ _ => rfl) rfl rfl⟩
    simp [Pool.afterTasks, howner, hstate, hret]
  · refine ⟨.waiting e, p, b₂, ?_, by simp, hidle, Flow.of_move rfl (fun _ _ => rfl) htask hsub⟩
    simp [Pool.afterTasks, howner, hstate, hret, hcall]

/-- A busy worker without a task starts the next one, becomes idle or exits. -/
theorem Consistent.nextTask (h : Consistent k v) (hx : v.ws[w]? = some (.busy e none)) (now : Int) :
    ∃ x p q b, v.pool.nextTask e now = some (x, p) ∧ x ≠ .failed ∧
      Consistent k ⟨p, q, b, v.ws.set w (place x)⟩ ∧
      Flow v ⟨p, q, b, v.ws.set w (place x)⟩ := by
  -- A task that is taken was queued.
  have hflow : ∀ {r : TaskRing} {n : Nat} {ys : List Nat} {p : Pool}, r ≠ .recycled →
      v.q r = n :: ys → p.task = v.pool.task → p.submissions = v.pool.submissions →
      Flow v ⟨p, Function.update v.q r ys, v.b, v.ws.set w (.busy e (some n))⟩ := by
    intro r n ys p hr hq htask hsub
    refine ⟨?_, ?_, Nat.le_of_eq hsub.symm⟩
    · rintro t ⟨r', m, hr', hm, rfl⟩
      refine Or.inl ⟨r', m, hr', ?_, by rw [htask]⟩
      change m ∈ Function.update v.q r ys r' at hm
      by_cases hrr : r' = r
      · subst hrr
        rw [Function.update_self] at hm
        simp [hq, hm]
      · rwa [Function.update_of_ne hrr] at hm
    · rintro t ⟨w', x, m, hx', hm, rfl⟩
      rcases getElem?_set_eq_some hx' with ⟨-, rfl⟩ | ⟨-, hx'⟩
      · obtain rfl : n = m := by simpa [Place.object] using hm
        exact Or.inr (Or.inl ⟨r, n, hr, by simp [hq], by rw [htask]⟩)
      · exact Or.inl ⟨w', x, m, hx', hm, by rw [htask]⟩
  have halive := h.alive
  rcases h.tasks.popTask now with ⟨-, hcall⟩ | ⟨n, ys, hq, -, hcall⟩ | ⟨n, ys, hq, hcall⟩
  · obtain ⟨x, p, b, hafter, hx', hcons, hflow'⟩ := h.afterTasks hx
    exact ⟨x, p, v.q, b, by simp [Pool.nextTask, hcall, Pool.afterPop, hafter], hx', hcons, hflow'⟩
  · have hcut : v.q .scheduled = [] ++ n :: ys := hq
    have hdead : (v.pool.dropScheduled n).terminated = false := halive
    exact ⟨.running e n, _, _, v.b, by simp [Pool.nextTask, hcall, Pool.afterPop, hdead], by simp,
      h.startTask hx hcut rfl (h.tasks.dropScheduled hcut), hflow (by simp) hq rfl rfl⟩
  · have hcut : v.q .tasks = [] ++ n :: ys := hq
    have hdead : (v.pool.dropTask n).terminated = false := halive
    exact ⟨.running e n, _, _, v.b, by simp [Pool.nextTask, hcall, Pool.afterPop, hdead], by simp,
      h.startTask hx hcut rfl (h.tasks.dropTask hcut), hflow (by simp) hq rfl rfl⟩

/-! ### Submissions and cancellations -/

/-- A new worker has no element and no task. -/
theorem place_spawned {ws : List Place} {spawned : Bool} {w : Nat} {x : Place}
    (hx : (if spawned then ws ++ [.created] else ws)[w]? = some x) :
    x = .created ∨ ws[w]? = some x := by
  cases spawned with
  | false => exact Or.inr hx
  | true =>
      rw [if_pos rfl, List.getElem?_append] at hx
      split at hx
      · exact Or.inr hx
      · exact Or.inl (by simpa using (List.mem_of_getElem? hx))

/-- The workers that there are keep their places. -/
theorem spawned_place {ws : List Place} {w : Nat} {x : Place} (hx : ws[w]? = some x)
    (spawned : Bool) : (if spawned then ws ++ [.created] else ws)[w]? = some x := by
  cases spawned with
  | false => exact hx
  | true =>
      rw [if_pos rfl, List.getElem?_append_left (List.getElem?_eq_some_iff.mp hx).1]
      exact hx

/-- The other tasks are as before. -/
theorem TaskAdded.task_of_ne {p p' : Pool} {q q' : TaskRing → List Nat} {n m : Nat} {t : PoolTask}
    (hadd : TaskAdded p q n t p' q') (hmn : m ≠ n) : p'.task m = p.task m := by
  rw [hadd.task, Function.update_of_ne hmn]

/-- A running task keeps its object: the object of the new one was not in use. -/
theorem Consistent.ne_added (h : Consistent k v) {n : Nat} {t : PoolTask} {p : Pool}
    {q : TaskRing → List Nat} (hadd : TaskAdded v.pool v.q n t p q) {w m : Nat} {x : Place}
    (hx : v.ws[w]? = some x) (hm : x.object = some m) : m ≠ n := by
  rintro rfl
  obtain ⟨hlt, hout⟩ := h.held w x m hx hm
  rcases hadd.source with rfl | hrec
  · exact absurd hlt (Nat.lt_irrefl _)
  · exact hout .recycled hrec

/-- A submission queues the new task, and starts none. -/
theorem Consistent.submitted_flow (h : Consistent k v) {n : Nat} {t : PoolTask} {p : Pool}
    {q : TaskRing → List Nat} {spawned : Bool} (hadd : TaskAdded v.pool v.q n t p q)
    (ht : t.ticket = v.pool.submissions)
    (hmem : ∀ r, r ≠ .recycled → ∀ m ∈ q r, m = n ∨ m ∈ v.q r) :
    Flow v ⟨p, q, v.b, if spawned then v.ws ++ [.created] else v.ws⟩ := by
  refine ⟨?_, ?_, hadd.submissions ▸ Nat.le_succ _⟩
  · rintro t' ⟨r, m, hr, hm, rfl⟩
    rcases hmem r hr m hm with rfl | hin
    · refine Or.inr (Nat.le_of_eq ?_)
      show v.pool.submissions = (p.task m).ticket
      rw [hadd.task, Function.update_self, ht]
    · have hmn : m ≠ n := by
        rintro rfl
        exact hadd.fresh h.tasks hr hin
      exact Or.inl ⟨r, m, hr, hin, hadd.task_of_ne hmn⟩
  · rintro t' ⟨w, x, m, hx, hm, rfl⟩
    rcases place_spawned hx with rfl | hx
    · simp [Place.object] at hm
    · exact Or.inl ⟨w, x, m, hx, hm, hadd.task_of_ne (h.ne_added hadd hx hm)⟩

/-- A submission adds a task, and perhaps a worker. -/
theorem Consistent.submitted (h : Consistent k v) {n : Nat} {t : PoolTask} {p : Pool}
    {q : TaskRing → List Nat} {spawned : Bool} (hadd : TaskAdded v.pool v.q n t p q)
    (ht : t.ticket = v.pool.submissions)
    (hmem : ∀ r, r ≠ .recycled → ∀ m ∈ q r, m = n ∨ m ∈ v.q r)
    (hcnt : p.thdCnt = v.pool.thdCnt + spawned.toNat)
    (hspawn : spawned = true → v.pool.thdCnt = 0 ∨ v.pool.thdCnt < v.pool.thdMax) :
    Consistent k ⟨p, q, v.b, if spawned then v.ws ++ [.created] else v.ws⟩ ∧
      Flow v ⟨p, q, v.b, if spawned then v.ws ++ [.created] else v.ws⟩ := by
  -- Adding a task touches no field of the workers, and `addThread` only counts.
  have hview := hadd.workers
  have hlinks : p.thdLinks = v.pool.thdLinks := congrArg WorkerView.thdLinks hview
  have helt : p.elt = v.pool.elt := congrArg WorkerView.elt hview
  have hbrk : p.eltBrk = v.pool.eltBrk := congrArg WorkerView.eltBrk hview
  have hidle : p.idleCnt = v.pool.idleCnt := congrArg WorkerView.idleCnt hview
  have halive : p.terminated = v.pool.terminated := congrArg WorkerView.terminated hview
  have hmax : p.thdMax = v.pool.thdMax := congrArg WorkerView.thdMax hview
  refine ⟨⟨hadd.wellFormed, hlinks ▸ h.rings, hbrk ▸ h.brk, halive.trans h.alive,
    helt ▸ h.noStop, hidle.trans h.idleCnt, ?_, ?_, ?_, ?_, ?_, h.pos, ?_⟩,
    h.submitted_flow hadd ht hmem⟩
  -- A worker that was just created is linked nowhere and holds no object.
  · intro r e hr
    show e ∈ v.b r ↔ _
    rw [h.mem r e hr]
    constructor
    · rintro ⟨w, x, hx, he⟩
      exact ⟨w, x, spawned_place hx spawned, he⟩
    · rintro ⟨w, x, hx, he⟩
      rcases place_spawned hx with rfl | hx
      · simp [Place.linked] at he
      · exact ⟨w, x, hx, he⟩
  · intro w x r e hx he
    rcases place_spawned hx with rfl | hx
    · simp [Place.linked] at he
    · have hxe := h.elt w x r e hx he
      have howner : x.owner p.task = x.owner v.pool.task := by
        cases hm : x.object with
        | none => simp [Place.owner, hm]
        | some m => simp [Place.owner, hm, hadd.task_of_ne (h.ne_added hadd hx hm)]
      show (p.elt e).thd = w ∧ (p.elt e).currentOwner = x.owner p.task
      rw [helt, howner]
      exact hxe
  · intro w x m hx hm
    rcases place_spawned hx with rfl | hx
    · simp [Place.object] at hm
    · obtain ⟨hlt, hout⟩ := h.held w x m hx hm
      refine ⟨Nat.lt_of_lt_of_le hlt hadd.brk, ?_⟩
      -- In the recycled ring it was before; in another one it was, too, or it is the new task.
      intro r hin
      by_cases hr : r = .recycled
      · subst hr
        exact hout .recycled (hadd.recycled hin)
      · rcases hmem r hr m hin with rfl | hin
        · exact h.ne_added hadd hx hm rfl
        · exact hout r hin
  · intro w w' x x' m hx hx' hm hm'
    rcases place_spawned hx with rfl | hx
    · simp [Place.object] at hm
    · rcases place_spawned hx' with rfl | hx'
      · simp [Place.object] at hm'
      · exact h.distinct w w' x x' m hx hx' hm hm'
  · show p.thdCnt = _
    rw [hcnt, h.thdCnt]
    cases spawned with
    | false => simp
    | true => simp [List.countP_append]
  -- A worker is added only while there is none or fewer than `thdMax`.
  · have hle := h.thdMax
    show p.thdCnt ≤ max k p.thdMax
    rw [hcnt, hmax]
    cases spawned with
    | false => simpa using hle
    | true =>
        have hroom := hspawn rfl
        have hpos := h.pos
        simp only [Bool.toNat_true]
        omega

/-- A cancellation takes tasks out of the queues. -/
theorem Consistent.cancelled (h : Consistent k v) {owner : Nat} {p : Pool}
    (hdrops : Drops v.pool v.q p (cancelled v.pool.task owner v.q)) :
    Consistent k ⟨p, cancelled v.pool.task owner v.q, v.b, v.ws⟩ ∧
      Flow v ⟨p, cancelled v.pool.task owner v.q, v.b, v.ws⟩ := by
  have hframe := hdrops.frame
  have htask : p.task = v.pool.task := by rw [hframe]
  -- Cancelling only takes tasks away.
  have hsub : ∀ r, ∀ m ∈ Thread.cancelled v.pool.task owner v.q r, m ∈ v.q r := by
    intro r m hm
    cases r with
    | tasks => exact List.mem_of_mem_filter hm
    | scheduled => exact List.mem_of_mem_filter hm
    | recycled => exact hm
  constructor
  -- Nothing of the workers moves.
  · refine ⟨hdrops.wellFormed h.tasks, ?_, ?_, ?_, ?_, ?_, h.mem, ?_, ?_, h.distinct, ?_, h.pos, ?_⟩
    · rw [hframe]
      exact h.rings
    · rw [hframe]
      exact h.brk
    · rw [hframe]
      exact h.alive
    · rw [hframe]
      exact h.noStop
    · rw [hframe]
      exact h.idleCnt
    · rw [hframe]
      exact h.elt
    · intro w x n hx hn
      obtain ⟨hlt, hout⟩ := h.held w x n hx hn
      refine ⟨?_, fun r hin => hout r (hsub r n hin)⟩
      rw [hframe]
      exact hlt
    · rw [hframe]
      exact h.thdCnt
    · rw [hframe]
      exact h.thdMax
  · refine ⟨?_, ?_, ?_⟩
    · rintro t ⟨r, n, hr, hn, rfl⟩
      exact Or.inl ⟨r, n, hr, hsub r n hn, congrFun htask n⟩
    · rintro t ⟨w, x, n, hx, hn, rfl⟩
      exact Or.inl ⟨w, x, n, hx, hn, congrFun htask n⟩
    · exact Nat.le_of_eq (by rw [hframe])

end

/-! ### The system -/

/-- The view of a system between two sections. -/
def view (s : Sys) (q : TaskRing → List Nat) (b : ThdRing → List Nat) : View :=
  ⟨s.pool, q, b, s.workers.map place⟩

section
variable {k : Nat} {s : Sys} {q : TaskRing → List Nat} {b : ThdRing → List Nat}

/-- The view after one worker has gone on. -/
theorem view_setWorker (s : Sys) (w : Nat) (x : WorkerState) (p : Pool)
    (q : TaskRing → List Nat) (b : ThdRing → List Nat) :
    view (s.setWorker w x p) q b = ⟨p, q, b, (s.workers.map place).set w (place x)⟩ := by
  rw [view, Sys.setWorker, List.map_set]

/-- The view after a submission. -/
theorem view_submitted (s : Sys) (r : Submitted) (p : Pool)
    (q : TaskRing → List Nat) (b : ThdRing → List Nat) :
    view (s.submitted r p) q b
      = ⟨p, q, b,
          if r.spawned then s.workers.map place ++ [.created] else s.workers.map place⟩ := by
  rw [view, Sys.submitted]
  split
  · simp [place]
  · rfl

/-- A worker has its place in the view. -/
theorem Consistent.workers_get (_ : Consistent k (view s q b)) {w : Nat} {x : WorkerState}
    (hx : s.workers[w]? = some x) : (view s q b).ws[w]? = some (place x) := by
  simp [view, hx]

/-- A section of a worker that has become busy ends with `nextTask`. -/
theorem Consistent.nextTask_set {v : View} {w e : Nat} {p : Pool} {q₁ : TaskRing → List Nat}
    {b₁ : ThdRing → List Nat} (h : Consistent k ⟨p, q₁, b₁, v.ws.set w (.busy e none)⟩)
    (hflow : Flow v ⟨p, q₁, b₁, v.ws.set w (.busy e none)⟩) (hw : w < v.ws.length) (now : Int) :
    ∃ x p' q' b', p.nextTask e now = some (x, p') ∧ x ≠ .failed ∧
      Consistent k ⟨p', q', b', v.ws.set w (place x)⟩ ∧
      Flow v ⟨p', q', b', v.ws.set w (place x)⟩ := by
  obtain ⟨x, p', q', b', hcall, hx, hcons, hflow'⟩ :=
    h.nextTask (w := w) (e := e) (by simp [hw]) now
  have hset : (v.ws.set w (.busy e none)).set w (place x) = v.ws.set w (place x) :=
    List.set_set _
  simp only [hset] at hcons hflow'
  exact ⟨x, p', q', b', hcall, hx, hcons, hflow.trans hflow'⟩

/-- `goBusy` moves an element and may count an idle worker less. -/
theorem goBusy_frame (p : Pool) (e : Nat) :
    p.goBusy e = { p with idleCnt := (p.goBusy e).idleCnt, thdLinks := (p.goBusy e).thdLinks } := by
  rw [Pool.goBusy]
  split
  · rfl
  · rfl

/-- The sections of a worker keep the rings and the places in step. -/
theorem Consistent.workerLoop (h : Consistent k (view s q b)) {w e : Nat}
    (hx : s.workers[w]? = some (.waiting e)) (now : Int) :
    ∃ x p q' b', s.pool.workerLoop e now = some (x, p) ∧ x ≠ .failed ∧
      Consistent k (view (s.setWorker w x p) q' b') ∧
      Flow (view s q b) (view (s.setWorker w x p) q' b') := by
  have hplace := h.workers_get hx
  have hw : w < (view s q b).ws.length := (List.getElem?_eq_some_iff.mp hplace).1
  -- Waking puts the worker into the busy ring, where it looks for its next task.
  obtain ⟨b₁, hbusy⟩ := h.wake hplace
  have hflow : Flow (view s q b)
      ⟨s.pool.goBusy e, q, b₁, (view s q b).ws.set w (.busy e none)⟩ := by
    refine Flow.of_move rfl (fun _ _ => rfl) ?_ ?_
    · rw [goBusy_frame]
      rfl
    · rw [goBusy_frame]
      rfl
  obtain ⟨x, p, q', b', hcall, hne, hcons, hflow'⟩ := hbusy.nextTask_set hflow hw now
  refine ⟨x, p, q', b', ?_, hne, ?_, ?_⟩
  · have halive : s.pool.terminated = false := h.alive
    have hstate : (s.pool.elt e).state ≠ .stop := h.noStop e
    rw [Pool.workerLoop, if_neg (by simp [halive, hstate])]
    exact hcall
  · rw [view_setWorker]
    exact hcons
  · rw [view_setWorker]
    exact hflow'

/-- A thread that begins: it gets an element and works, or finds none. -/
theorem Consistent.workerStart (h : Consistent k (view s q b)) {w : Nat}
    (hx : s.workers[w]? = some .created) (alloc : Bool) (now : Int) :
    ∃ x p q' b', s.pool.workerStart w alloc now = some (x, p) ∧ (x = .failed → alloc = false) ∧
      Consistent k (view (s.setWorker w x p) q' b') ∧
      Flow (view s q b) (view (s.setWorker w x p) q' b') := by
  have hplace := h.workers_get hx
  have hw : w < (view s q b).ws.length := (List.getElem?_eq_some_iff.mp hplace).1
  -- No object could be allocated, or the worker is busy with its element.
  rcases h.start hplace alloc with ⟨hfail, hcall⟩ | ⟨e, p, b₁, hcall, htask, hsub, hbusy⟩
  · refine ⟨.failed, s.pool, q, b, ?_, fun _ => hfail, ?_, ?_⟩
    · have hcall' : s.pool.eltNew w alloc = some (none, s.pool) := hcall
      simp [Pool.workerStart, hcall']
    · rw [view_setWorker]
      exact h.fail hplace
    · rw [view_setWorker]
      exact Flow.of_move (y := .failed) (v := view s q b) rfl (fun _ _ => rfl) rfl rfl
  · have hflow : Flow (view s q b)
        ⟨p.goBusy e, q, b₁, (view s q b).ws.set w (.busy e none)⟩ := by
      refine Flow.of_move rfl (fun _ _ => rfl) ?_ ?_
      · rw [goBusy_frame]
        exact htask
      · rw [goBusy_frame]
        exact hsub
    obtain ⟨x, p', q', b', hnext, hne, hcons, hflow'⟩ := hbusy.nextTask_set hflow hw now
    refine ⟨x, p', q', b', ?_, fun heq => absurd heq hne, ?_, ?_⟩
    -- `goBusy` only relinks, so the pool is not terminated and the worker was not told to stop.
    · have halive : p.terminated = false := by
        have halive : (p.goBusy e).terminated = false := hbusy.alive
        rwa [goBusy_frame] at halive
      have hstate : (p.elt e).state ≠ .stop := by
        have hstate : ((p.goBusy e).elt e).state ≠ .stop := hbusy.noStop e
        rwa [goBusy_frame] at hstate
      have hcall' : s.pool.eltNew w alloc = some (some e, p) := hcall
      have hloop : p.workerLoop e now = (p.goBusy e).nextTask e now := by
        rw [Pool.workerLoop, if_neg (by simp [halive, hstate])]
      simp [Pool.workerStart, hcall', hloop, hnext]
    · rw [view_setWorker]
      exact hcons
    · rw [view_setWorker]
      exact hflow'

/-- A worker whose task has ended: it takes the next one, waits or exits. -/
theorem Consistent.taskEnd (h : Consistent k (view s q b)) {w e n : Nat}
    (hx : s.workers[w]? = some (.running e n)) (now : Int) :
    ∃ x p q' b', s.pool.taskEnd e n now = some (x, p) ∧ x ≠ .failed ∧
      Consistent k (view (s.setWorker w x p) q' b') ∧
      Flow (view s q b) (view (s.setWorker w x p) q' b') := by
  have hplace := h.workers_get hx
  have hw : w < (view s q b).ws.length := (List.getElem?_eq_some_iff.mp hplace).1
  -- The task is over: its object is recycled, and the worker holds none.
  have hdone := h.finish hplace
  have hflow := Flow.of_move (v := view s q b) (w := w) (y := .busy e none) (b := b)
    (p := { s.pool.recycleTask n with
      elt := Function.update s.pool.elt e { s.pool.elt e with currentOwner := 0 } })
    (q := Function.update q .recycled (q .recycled ++ [n])) rfl
    (fun r hr => Function.update_of_ne hr _ _) rfl rfl
  obtain ⟨x, p, q', b', hcall, hne, hcons, hflow'⟩ := hdone.nextTask_set hflow hw now
  refine ⟨x, p, q', b', ?_, hne, ?_, ?_⟩
  · have hstate : (s.pool.elt e).state ≠ .stop := h.noStop e
    have hstate' : (Function.update (s.pool.recycleTask n).elt e
        { (s.pool.recycleTask n).elt e with currentOwner := 0 } e).state ≠ .stop := by
      rw [Function.update_self]
      exact hstate
    rw [Pool.taskEnd]
    simp only [hstate', if_false]
    exact hcall
  · rw [view_setWorker]
    exact hcons
  · rw [view_setWorker]
    exact hflow'

/-- A submission creates a worker only if there is none or there may be more. -/
theorem spawned_room {p : Pool} {spawn : Int}
    (h : (submitted p.needsWorker spawn).spawned = true) : p.thdCnt = 0 ∨ p.thdCnt < p.thdMax := by
  cases hneeds : p.needsWorker with
  | false => simp [submitted, hneeds] at h
  | true =>
      have hneeds' : p.thdCnt = 0 ∨
          (p.idleCnt = 0 ∧ p.thdCnt < p.thdMax ∧ p.threshold < p.taskCnt + 1) := by
        simpa [Pool.needsWorker] using hneeds
      omega

/-- A section of `wait_on_busy_threads` changes the phase of its caller only. -/
theorem scan_frame {s' : Sys} {i : Nat} {c : Cancel} (h : s.scan i c = some s') :
    s'.pool = s.pool ∧ s'.workers = s.workers := by
  rw [Sys.scan] at h
  cases hscan : s.pool.scan c.owner with
  | none => simp [hscan] at h
  | some e =>
      simp only [hscan, Option.bind_eq_bind, Option.bind_some, Option.pure_def,
        Option.some.injEq] at h
      subst h
      exact ⟨rfl, rfl⟩

/-- The walk over the busy workers ends. It stops at one that runs a task of the owner, or
there is none. -/
theorem Consistent.scanFrom (h : Consistent k (view s q b)) (owner : Nat) {xs ys : List Nat}
    (hb : b .busy = xs ++ ys) {fuel : Nat} (hfuel : ys.length < fuel) :
    (∃ e, s.pool.scanFrom owner fuel (firstNode .busy ys) = some (some e)) ∨
    (s.pool.scanFrom owner fuel (firstNode .busy ys) = some none ∧
      ∀ e ∈ ys, (s.pool.elt e).currentOwner ≠ owner) := by
  -- By induction on what is left of the busy ring.
  induction ys generalizing xs fuel with
  | nil =>
      cases fuel with
      | zero => simp at hfuel
      | succ fuel => exact Or.inr ⟨rfl, by simp⟩
  | cons e ys ih =>
      cases fuel with
      | zero => simp at hfuel
      | succ fuel =>
          have hnext : s.pool.thdLinks.next (.elem e) = firstNode .busy ys := h.rings.next_elem hb
          rw [firstNode_cons, Pool.scanFrom, hnext]
          -- The first worker with the owner stops the scan; the others go on behind it.
          by_cases howner : (s.pool.elt e).currentOwner = owner
          · exact Or.inl ⟨e, by simp [howner]⟩
          · have hb' : b .busy = (xs ++ [e]) ++ ys := by simp [hb]
            rw [if_pos howner]
            rcases ih hb' (Nat.lt_of_succ_lt_succ hfuel) with hstop | ⟨hend, hnone⟩
            · exact Or.inl hstop
            · refine Or.inr ⟨hend, ?_⟩
              intro e' he'
              rcases List.mem_cons.mp he' with rfl | he'
              · exact howner
              · exact hnone e' he'

/-- The search for a busy worker of the owner finds one, or there is none. -/
theorem Consistent.scan (h : Consistent k (view s q b)) (owner : Nat) :
    (∃ e, s.pool.scan owner = some (some e)) ∨
    (s.pool.scan owner = some none ∧ ∀ e ∈ b .busy, (s.pool.elt e).currentOwner ≠ owner) := by
  have hfirst : s.pool.thdLinks.next (.head .busy) = firstNode .busy (b .busy) :=
    h.rings.next_head .busy
  rw [Pool.scan, hfirst]
  exact h.scanFrom owner (List.nil_append _).symm (Nat.lt_succ_of_le (h.length_le .busy))

/-- So a cancelling call can always go on. -/
theorem Consistent.scan_isSome (h : Consistent k (view s q b)) (i : Nat) (c : Cancel) :
    ∃ s', s.scan i c = some s' := by
  rcases h.scan c.owner with ⟨e, he⟩ | ⟨hnone, -⟩
  · exact ⟨_, by simp [Sys.scan, he]; rfl⟩
  · exact ⟨_, by simp [Sys.scan, hnone]; rfl⟩

/-- A section leaves the system unchanged, up to the callers of `cancel_tasks`. -/
theorem Flow.refl (v : View) : Flow v v :=
  Flow.of_eq (fun _ _ => rfl) rfl rfl fun w x _ hx hn => ⟨w, x, hx, hn⟩

/-- A worker that failed has done so in this step or before. -/
theorem failed_mem_of_setWorker {w : Nat} {x : WorkerState} {p : Pool}
    (h : WorkerState.failed ∈ (s.setWorker w x p).workers) : x = .failed ∨ .failed ∈ s.workers := by
  rcases List.mem_or_eq_of_mem_set h with h | h
  · exact Or.inr h
  · exact Or.inl h.symm

/-- No worker fails by a submission. -/
theorem failed_mem_of_submitted {r : Submitted} {p : Pool}
    (h : WorkerState.failed ∈ (s.submitted r p).workers) : .failed ∈ s.workers := by
  rw [Sys.submitted] at h
  split at h
  · simpa using h
  · exact h

/-- Every section returns and keeps the rings and the places in step. A worker fails only
for want of memory. -/
theorem Consistent.step (h : Consistent k (view s q b)) (a : Action) :
    ∃ s' q' b', s.step a = some s' ∧ Consistent k (view s' q' b') ∧
      Flow (view s q b) (view s' q' b') ∧
      (WorkerState.failed ∈ s'.workers →
        WorkerState.failed ∈ s.workers ∨ ∃ w now, a = .workerStart w false now) := by
  -- The sections of `cancel` behind the first one change only the list of the calls.
  have hstay : ∀ s' : Sys, s'.pool = s.pool → s'.workers = s.workers →
      Consistent k (view s' q b) ∧ Flow (view s q b) (view s' q b) := by
    intro s' hpool hworkers
    rw [view, hpool, hworkers]
    exact ⟨h, Flow.refl _⟩
  have hw : WellFormed s.pool q := h.tasks
  cases a with
  | addTask a priority push alloc spawn now =>
      rcases hw.addTask a priority push alloc spawn now with
        ⟨-, hcall⟩ | ⟨-, -, hcall⟩ |
        ⟨-, -, n, t, p, q', xs, ys, hcall, hadd, hplace, htasks, hscheduled, hcnt⟩
      -- The pool is full, or there is no memory: the submission leaves no trace.
      · exact ⟨s, q, b, by simp [Sys.step, hcall]; rfl, h, Flow.refl _, Or.inl⟩
      · exact ⟨s, q, b, by simp [Sys.step, hcall]; rfl, h, Flow.refl _, Or.inl⟩
      · have hmem : ∀ r, r ≠ .recycled → ∀ m ∈ q' r, m = n ∨ m ∈ q r := by
          intro r hr m hm
          cases r with
          | tasks =>
              have hcut : q .tasks = xs ++ ys := hplace.cut
              rw [htasks, List.perm_middle.mem_iff, List.mem_cons, ← hcut] at hm
              exact hm
          | scheduled => exact Or.inr (hscheduled ▸ hm)
          | recycled => exact absurd rfl hr
        obtain ⟨hcons, hflow⟩ := h.submitted hadd rfl hmem hcnt spawned_room
        refine ⟨_, q', b, by simp [Sys.step, hcall]; rfl, ?_, ?_, ?_⟩
        · rw [view_submitted]
          exact hcons
        · rw [view_submitted]
          exact hflow
        · intro hfail
          exact Or.inl (failed_mem_of_submitted hfail)
  | scheduleTask a time alloc spawn now junk =>
      rcases hw.scheduleTask a time alloc spawn now junk with
        ⟨-, hcall⟩ | ⟨-, n, t, p, q', xs, ys, hcall, hadd, hcut, hscheduled, htasks, -, hcnt, -⟩
      · exact ⟨s, q, b, by simp [Sys.step, hcall]; rfl, h, Flow.refl _, Or.inl⟩
      · have hmem : ∀ r, r ≠ .recycled → ∀ m ∈ q' r, m = n ∨ m ∈ q r := by
          intro r hr m hm
          cases r with
          | tasks => exact Or.inr (htasks ▸ hm)
          | scheduled =>
              have hcut' : q .scheduled = xs ++ ys := hcut
              rw [hscheduled, List.perm_middle.mem_iff, List.mem_cons, ← hcut'] at hm
              exact hm
          | recycled => exact absurd rfl hr
        -- Unlike `add_task`, `schedule_task` starts a worker only where there is none.
        have hroom : (Thread.submitted (decide (s.pool.thdCnt = 0)) spawn).spawned = true →
            s.pool.thdCnt = 0 ∨ s.pool.thdCnt < s.pool.thdMax := by
          intro hspawned
          by_cases hzero : s.pool.thdCnt = 0
          · exact Or.inl hzero
          · simp [Thread.submitted, hzero] at hspawned
        obtain ⟨hcons, hflow⟩ := h.submitted hadd rfl hmem hcnt hroom
        refine ⟨_, q', b, by simp [Sys.step, hcall]; rfl, ?_, ?_, ?_⟩
        · rw [view_submitted]
          exact hcons
        · rw [view_submitted]
          exact hflow
        · intro hfail
          exact Or.inl (failed_mem_of_submitted hfail)
  | workerStart w alloc now =>
      by_cases hx : s.workers[w]? = some .created
      · obtain ⟨x, p, q', b', hcall, hfail, hcons, hflow⟩ := h.workerStart hx alloc now
        refine ⟨_, q', b', by simp [Sys.step, hx, hcall], hcons, hflow, ?_⟩
        intro hmem
        rcases failed_mem_of_setWorker hmem with hx' | hmem
        · exact Or.inr ⟨w, now, by rw [hfail hx']⟩
        · exact Or.inl hmem
      · refine ⟨s, q, b, ?_, h, Flow.refl _, Or.inl⟩
        simp only [Sys.step]
  | taskEnd w now =>
      by_cases hx : ∃ e n, s.workers[w]? = some (.running e n)
      · obtain ⟨e, n, hx⟩ := hx
        obtain ⟨x, p, q', b', hcall, hne, hcons, hflow⟩ := h.taskEnd hx now
        refine ⟨_, q', b', by simp [Sys.step, hx, hcall], hcons, hflow, ?_⟩
        intro hmem
        rcases failed_mem_of_setWorker hmem with hx' | hmem
        · exact absurd hx' hne
        · exact Or.inl hmem
      · refine ⟨s, q, b, ?_, h, Flow.refl _, Or.inl⟩
        simp only [Sys.step]
        split
        · next e n hx' => exact absurd ⟨e, n, hx'⟩ hx
        · rfl
  | workerWake w now =>
      by_cases hx : ∃ e, s.workers[w]? = some (.waiting e)
      · obtain ⟨e, hx⟩ := hx
        obtain ⟨x, p, q', b', hcall, hne, hcons, hflow⟩ := h.workerLoop hx now
        refine ⟨_, q', b', by simp [Sys.step, hx, hcall], hcons, hflow, ?_⟩
        intro hmem
        rcases failed_mem_of_setWorker hmem with hx' | hmem
        · exact absurd hx' hne
        · exact Or.inl hmem
      · refine ⟨s, q, b, ?_, h, Flow.refl _, Or.inl⟩
        simp only [Sys.step]
        split
        · next e hx' => exact absurd ⟨e, hx'⟩ hx
        · rfl
  | cancelTasks owner =>
      obtain ⟨p, hcall, hdrops⟩ := hw.cancelTasks owner
      obtain ⟨hcons, hflow⟩ := h.cancelled hdrops
      exact ⟨{ s with
          pool := p
          cancels := s.cancels ++ [⟨owner, s.pool.submissions, .removed⟩] }, _, b,
        by simp [Sys.step, hcall], hcons, hflow, Or.inl⟩
  | cancelScan i =>
      cases hc : s.cancels[i]? with
      | none => exact ⟨s, q, b, by simp [Sys.step, hc], h, Flow.refl _, Or.inl⟩
      | some c =>
          obtain ⟨s', hscan⟩ := h.scan_isSome i c
          obtain ⟨hpool, hworkers⟩ := scan_frame hscan
          obtain ⟨hcons, hflow⟩ := hstay s' hpool hworkers
          by_cases hphase : c.phase = .removed
          · exact ⟨s', q, b, by simp [Sys.step, hc, hphase, hscan], hcons, hflow,
              fun hfail => Or.inl (hworkers ▸ hfail)⟩
          · exact ⟨s, q, b, by simp [Sys.step, hc, hphase], h, Flow.refl _, Or.inl⟩
  | cancelRelock i =>
      cases hc : s.cancels[i]? with
      | none => exact ⟨s, q, b, by simp [Sys.step, hc], h, Flow.refl _, Or.inl⟩
      | some c =>
          obtain ⟨s', hscan⟩ := h.scan_isSome i c
          obtain ⟨hpool, hworkers⟩ := scan_frame hscan
          obtain ⟨hcons, hflow⟩ := hstay s' hpool hworkers
          cases hphase : c.phase with
          | removed => exact ⟨s, q, b, by simp [Sys.step, hc, hphase], h, Flow.refl _, Or.inl⟩
          | returned => exact ⟨s, q, b, by simp [Sys.step, hc, hphase], h, Flow.refl _, Or.inl⟩
          | sleeping e =>
              by_cases howner : (s.pool.elt e).currentOwner = c.owner
              · exact ⟨s, q, b, by simp [Sys.step, hc, hphase, howner], h, Flow.refl _, Or.inl⟩
              · exact ⟨s', q, b, by simp [Sys.step, hc, hphase, howner, hscan], hcons, hflow,
                  fun hfail => Or.inl (hworkers ▸ hfail)⟩
  | setIdleWait idleWait =>
      refine ⟨_, q, b, rfl, ?_,
        Flow.of_eq (fun _ _ => rfl) rfl rfl fun w x _ hx hn => ⟨w, x, hx, hn⟩, Or.inl⟩
      exact ⟨h.tasks.of_workers rfl, h.rings, h.brk, h.alive, h.noStop, h.idleCnt, h.mem, h.elt,
        h.held, h.distinct, h.thdCnt, h.pos, h.thdMax⟩
  | setThreshold threshold =>
      refine ⟨_, q, b, rfl, ?_,
        Flow.of_eq (fun _ _ => rfl) rfl rfl fun w x _ hx hn => ⟨w, x, hx, hn⟩, Or.inl⟩
      exact ⟨h.tasks.of_workers rfl, h.rings, h.brk, h.alive, h.noStop, h.idleCnt, h.mem, h.elt,
        h.held, h.distinct, h.thdCnt, h.pos, h.thdMax⟩

end

/-- A pool that has just been initialised. -/
theorem consistent_init (k initThreads maxThreads maxTasks : Nat) (hpos : 1 ≤ k)
    (hle : initThreads ≤ max k maxThreads) :
    Consistent k (view (Sys.baseInitThreadpool initThreads maxThreads maxTasks) (fun _ => [])
      (fun _ => [])) := by
  -- At the start every worker is just created, so it is linked nowhere and holds nothing.
  have hws : ∀ (w : Nat) (x : Place),
      (List.map place (List.replicate initThreads .created))[w]? = some x → x = .created := by
    intro w x hx
    have hmem := List.mem_of_getElem? hx
    simp only [List.map_replicate, List.mem_replicate] at hmem
    exact hmem.2
  refine ⟨?_, .empty (fun _ => rfl) (fun _ => rfl), ?_, rfl, ?_, rfl, ?_, ?_, ?_, ?_, ?_, hpos, hle⟩
  · exact (wellFormed_construct initThreads maxThreads maxTasks).of_workers rfl
  · intro r e he
    exact absurd he (by simp [view])
  · intro e
    show ThdState.run ≠ .stop
    simp
  · intro r e hr
    constructor
    · intro he
      exact absurd he (by simp [view])
    · rintro ⟨w, x, hx, he⟩
      rw [hws w x hx] at he
      simp [Place.linked] at he
  · intro w x r e hx he
    rw [hws w x hx] at he
    simp [Place.linked] at he
  · intro w x n hx hn
    rw [hws w x hx] at hn
    simp [Place.object] at hn
  · intro w w' x x' n hx hx' hn
    rw [hws w x hx] at hn
    simp [Place.object] at hn
  · show initThreads = (List.map place (List.replicate initThreads .created)).countP _
    rw [List.map_replicate, List.countP_replicate]
    simp [place]

end Mylib.Proofs.Thread
