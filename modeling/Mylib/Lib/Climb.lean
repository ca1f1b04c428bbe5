import Mathlib.Algebra.BigOperators.Group.List.Basic
import Mathlib.Algebra.Order.Group.Int
import Mathlib.Tactic.Ring

/-!
# `Mylib.Lib.Climb`: sums that get above a bound

`Climbs c ws` says that the numbers `ws`, added up one after the other from zero, come to a sum
above `c` at some point, or that zero is above it. A list of numbers that is repeated climbs
above every bound exactly if its sum is positive, and otherwise no higher than the first time
(`climbs_replicate_iff`).
-/

set_option autoImplicit false

namespace Mylib.Lib.Climb

/-- A sum of the first numbers is above `c`. -/
def Climbs : Int → List Int → Prop
  | c, [] => c < 0
  | c, w :: ws => c < 0 ∨ Climbs (c - w) ws

instance decidableClimbs : (c : Int) → (ws : List Int) → Decidable (Climbs c ws)
  | c, [] => inferInstanceAs (Decidable (c < 0))
  | c, w :: ws =>
    haveI := decidableClimbs (c - w) ws
    inferInstanceAs (Decidable (c < 0 ∨ Climbs (c - w) ws))

section

variable {c c' : Int} {ws xs ys : List Int}

/-- Zero is above a negative bound. -/
theorem Climbs.of_neg (h : c < 0) (ws : List Int) : Climbs c ws := by
  cases ws with
  | nil => exact h
  | cons w ws => exact .inl h

/-- The sum of the first numbers, written out. -/
theorem climbs_iff_prefix : Climbs c ws ↔ ∃ pre, pre <+: ws ∧ c < pre.sum := by
  induction ws generalizing c with
  | nil =>
    constructor
    · intro h
      exact ⟨[], List.prefix_rfl, h⟩
    · rintro ⟨pre, hpre, h⟩
      rw [List.prefix_nil.mp hpre] at h
      exact h
  | cons w ws ih =>
    constructor
    · rintro (h | h)
      · exact ⟨[], List.nil_prefix, h⟩
      -- The first number stays in front of the prefix that gets above the bound.
      · obtain ⟨pre, hpre, h⟩ := ih.mp h
        refine ⟨w :: pre, List.cons_prefix_cons.mpr ⟨rfl, hpre⟩, ?_⟩
        rw [List.sum_cons]
        omega
    · rintro ⟨pre, hpre, h⟩
      cases pre with
      | nil => exact .inl h
      | cons x pre =>
        -- Without its first number the prefix gets above the bound that is left.
        obtain ⟨rfl, hrest⟩ := List.cons_prefix_cons.mp hpre
        rw [List.sum_cons] at h
        exact .inr (ih.mpr ⟨pre, hrest, by omega⟩)

/-- A lower bound is easier to get above. -/
theorem Climbs.mono (h : Climbs c ws) (hle : c' ≤ c) : Climbs c' ws := by
  obtain ⟨pre, hpre, hsum⟩ := climbs_iff_prefix.mp h
  exact climbs_iff_prefix.mpr ⟨pre, hpre, hle.trans_lt hsum⟩

/-- The sum of all is the sum of the first numbers, too. -/
theorem climbs_of_lt_sum (h : c < ws.sum) : Climbs c ws :=
  climbs_iff_prefix.mpr ⟨ws, List.prefix_rfl, h⟩

/-- The sum gets above the bound in the first part, or it goes on from the sum of the first part. -/
theorem climbs_append_iff : Climbs c (xs ++ ys) ↔ Climbs c xs ∨ Climbs (c - xs.sum) ys := by
  induction xs generalizing c with
  | nil =>
    have hneg : Climbs c [] → Climbs c ys := fun h => .of_neg h ys
    simpa using hneg
  | cons x xs ih =>
    show (c < 0 ∨ Climbs (c - x) (xs ++ ys)) ↔ (c < 0 ∨ Climbs (c - x) xs) ∨ _
    rw [ih, List.sum_cons, ← Int.sub_sub, or_assoc]

/-! ### Repetition -/

/-- A list that is repeated gets above a bound at once, or by its sum. -/
theorem climbs_replicate_iff :
    (∃ n, Climbs c (List.replicate n ws).flatten) ↔ Climbs c ws ∨ 0 < ws.sum := by
  constructor
  · rintro ⟨n, h⟩
    induction n generalizing c with
    | zero => exact .inl (.of_neg h ws)
    | succ n ih =>
      rw [List.replicate_succ, List.flatten_cons] at h
      rcases climbs_append_iff.mp h with h | h
      · exact .inl h
      · rcases ih h with h | hsum
        · -- Without a gain, the second time starts no higher than the first.
          rcases lt_or_ge 0 ws.sum with hsum | hsum
          · exact .inr hsum
          · exact .inl (h.mono (by omega))
        · exact .inr hsum
  · rintro (h | hsum)
    · exact ⟨1, by simpa using h⟩
    · refine ⟨c.toNat + 1, climbs_of_lt_sum ?_⟩
      have htotal : (List.replicate (c.toNat + 1) ws).flatten.sum = (c.toNat + 1) * ws.sum := by
        rw [List.sum_flatten, List.map_replicate, List.sum_replicate, nsmul_eq_mul]
        push_cast
        ring
      have hle : ((c.toNat : Int) + 1) * 1 ≤ (c.toNat + 1) * ws.sum :=
        Int.mul_le_mul_of_nonneg_left hsum (by omega)
      omega

end

end Mylib.Lib.Climb
