import Mathlib

/-!
# `Mylib.Lib.History`: outputs that do not depend on the past

A machine answers an input with an output and a new state. It is free of history on a
run when every answer is the one the first state would have given. Here is the rule for
a machine with two modes: the first state, and one that is never left.
-/

set_option autoImplicit false

namespace Mylib.Lib.History

section

variable {σ ι ω : Type} (step : σ → ι → ω × σ)

/-- The outputs of a run. -/
def outputs : σ → List ι → List ω
  | _, [] => []
  | s, i :: inputs => (step s i).1 :: outputs (step s i).2 inputs

/-- Every output of the run is the output of the first state. -/
def HistoryFree (s : σ) (inputs : List ι) : Prop :=
  outputs step s inputs = inputs.map fun i => (step s i).1

variable {step} {s p : σ}

/-- A state that no input changes leaves every output to its own input. -/
theorem outputs_of_fixed (hp : ∀ i, (step p i).2 = p) (inputs : List ι) :
    outputs step p inputs = inputs.map fun i => (step p i).1 := by
  induction inputs with
  | nil => rfl
  | cons i inputs ih => rw [outputs, hp, ih, List.map_cons]

variable (step) in
/-- A machine that stays at `s` or falls into `p` for good is free of history exactly
when no input behind the fall is answered differently at `p`. -/
theorem historyFree_iff (hs : ∀ i, (step s i).2 = s ∨ (step s i).2 = p)
    (hp : ∀ i, (step p i).2 = p) (inputs : List ι) :
    HistoryFree step s inputs ↔
      inputs.Pairwise fun i j => (step s i).2 = p → (step p j).1 = (step s j).1 := by
  induction inputs with
  | nil => exact ⟨fun _ => List.Pairwise.nil, fun _ => rfl⟩
  | cons i inputs ih =>
    rw [HistoryFree, outputs, List.map_cons, List.cons.injEq, List.pairwise_cons, and_iff_right rfl]
    by_cases hfall : (step s i).2 = p
    · -- Behind the fall every input is answered at `p`.
      rw [hfall, outputs_of_fixed hp, List.map_inj_left]
      constructor
      · intro hall
        refine ⟨fun j hj _ => hall j hj, ?_⟩
        exact List.pairwise_of_forall_mem_list fun j _ k hk _ => hall k hk
      · intro h j hj
        exact h.1 j hj rfl
    -- Where the state stays, the later inputs are answered as if this one had not been.
    · have hstay : (step s i).2 = s := (hs i).resolve_right hfall
      have hvacuous : ∀ j ∈ inputs, (step s i).2 = p → (step p j).1 = (step s j).1 :=
        fun j _ hp' => absurd hp' hfall
      rw [and_iff_right hvacuous, hstay]
      exact ih

end

end Mylib.Lib.History
