import Mathlib

/-!
# `Mylib.Lib.Custody`: tokens that pass between holders

A list of holders, each with one token or none, and the multiset of the tokens they hold.
Then the rule for runs of a machine in which a property is lost by some steps and kept by all
others: it holds in every state reached exactly when no such step is taken.
-/

set_option autoImplicit false

namespace Mylib.Lib.Custody

section

/-! ### Holders -/

variable {α τ : Type} (token : α → Option τ)

/-- The tokens of the holders. -/
def held (holders : List α) : Multiset τ := holders.filterMap token

variable {token}

/-- The holders are counted one after the other. -/
theorem held_append (before after : List α) :
    held token (before ++ after) = held token before + held token after := by
  unfold held
  rw [List.filterMap_append, Multiset.coe_add]

/-- The first holder counts by itself. -/
theorem held_cons (a : α) (holders : List α) :
    held token (a :: holders) = held token [a] + held token holders :=
  held_append [a] holders

variable (token) in
/-- One holder of many: what the others hold is the same whatever becomes of it. -/
theorem exists_held_set {holders : List α} {k : Nat} {a : α} (h : holders[k]? = some a) :
    ∃ others : Multiset τ, held token holders = others + held token [a] ∧
      ∀ b, held token (holders.set k b) = others + held token [b] := by
  induction holders generalizing k with
  | nil => simp at h
  | cons c holders ih =>
    cases k with
    | zero =>
      obtain rfl : c = a := by simpa using h
      refine ⟨held token holders, ?_, fun b => ?_⟩
      · rw [held_cons, add_comm]
      · rw [List.set_cons_zero, held_cons, add_comm]
    | succ k =>
      obtain ⟨others, hbefore, hafter⟩ := ih (k := k) (by simpa using h)
      refine ⟨held token [c] + others, ?_, fun b => ?_⟩
      · rw [held_cons, hbefore, add_assoc]
      · rw [List.set_cons_succ, held_cons, hafter, add_assoc]

end

section

/-! ### Runs -/

variable {σ α : Type} (step : σ → α → σ)

/-- Every step of the run is taken in a state where it is `Good`. -/
def EachStep (Good : σ → α → Prop) : σ → List α → Prop
  | _, [] => True
  | s, a :: actions => Good s a ∧ EachStep Good (step s a) actions

variable {step}

/-- If exactly the good steps keep a property, the runs of good steps are those that have it in
every state they reach. -/
theorem forall_prefix_iff {P : σ → Prop} {Good : σ → α → Prop}
    (hstep : ∀ s a, P s → (P (step s a) ↔ Good s a)) {s : σ} (hs : P s) (actions : List α) :
    (∀ before, before <+: actions → P (before.foldl step s)) ↔
      EachStep step Good s actions := by
  induction actions generalizing s with
  | nil =>
    refine iff_of_true (fun before h => ?_) trivial
    rw [List.prefix_nil.mp h]
    exact hs
  | cons a actions ih =>
    -- The first action leads from a good state to one with the property, and the rest is the
    -- hypothesis.
    constructor
    · intro h
      have hnext : P (step s a) := h [a] (by simp)
      refine ⟨(hstep s a hs).mp hnext, (ih hnext).mp fun before hbefore => ?_⟩
      exact h (a :: before) (List.cons_prefix_cons.mpr ⟨rfl, hbefore⟩)
    · intro h before hbefore
      have hnext : P (step s a) := (hstep s a hs).mpr h.1
      cases before with
      | nil => exact hs
      -- A prefix that is not empty begins with the first action.
      | cons b before =>
        obtain ⟨rfl, hrest⟩ := List.cons_prefix_cons.mp hbefore
        exact (ih hnext).mpr h.2 before hrest

end

end Mylib.Lib.Custody
