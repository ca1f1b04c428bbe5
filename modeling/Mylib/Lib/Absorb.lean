import Mathlib

/-!
# `Mylib.Lib.Absorb`: a value built block by block

`absorb n f s l` feeds the full blocks of `n` elements of `l` to `f`, one after the other, and
keeps what is behind them. An input that comes in pieces is absorbed with the kept elements in
front of the next piece (`absorb_append`), so the cuts make no difference.
-/

set_option autoImplicit false

namespace Mylib.Lib.Absorb

variable {σ α : Type}

/-- The value behind the full blocks of `l`, and the elements that fill none. -/
def absorb (n : ℕ) (f : σ → List α → σ) (s : σ) (l : List α) : σ × List α :=
  if 0 < n ∧ n ≤ l.length then absorb n f (f s (l.take n)) (l.drop n) else (s, l)
termination_by l.length
decreasing_by
  rw [List.length_drop]
  omega

variable {n : ℕ} {f : σ → List α → σ}

/-- A list shorter than a block is kept. -/
theorem absorb_short (s : σ) {l : List α} (h : l.length < n) : absorb n f s l = (s, l) := by
  rw [absorb, if_neg (by omega)]

/-- A full block is fed first. -/
theorem absorb_block (hn : 0 < n) (s : σ) {b : List α} (hb : b.length = n) (l : List α) :
    absorb n f s (b ++ l) = absorb n f (f s b) l := by
  rw [absorb, if_pos ⟨hn, by simp [hb]⟩, List.take_left' hb, List.drop_left' hb]

/-- The elements that are kept fill no block. -/
theorem length_absorb (hn : 0 < n) (s : σ) (l : List α) :
    (absorb n f s l).2.length = l.length % n := by
  fun_induction absorb n f s l with
  | case1 s l h ih => rw [ih, List.length_drop, ← Nat.mod_eq_sub_mod h.2]
  | case2 s l h => rw [Nat.mod_eq_of_lt (by omega)]

/-- The next piece is absorbed behind the elements that were kept. -/
theorem absorb_append (hn : 0 < n) (s : σ) (l l' : List α) :
    absorb n f s (l ++ l') = absorb n f (absorb n f s l).1 ((absorb n f s l).2 ++ l') := by
  fun_induction absorb n f s l with
  | case1 s l h ih =>
    have hfirst : (l.take n).length = n := List.length_take_of_le h.2
    rw [← ih, ← absorb_block hn s hfirst, ← List.append_assoc, List.take_append_drop]
  | case2 s l h => rfl

/-- What completes a block is fed at once. -/
theorem absorb_complete (hn : 0 < n) (s : σ) {l b : List α}
    (hb : (absorb n f s l).2.length + b.length = n) (l' : List α) :
    absorb n f s (l ++ (b ++ l')) =
      absorb n f (f (absorb n f s l).1 ((absorb n f s l).2 ++ b)) l' := by
  rw [absorb_append hn, ← List.append_assoc, absorb_block hn _ (by rw [List.length_append, hb])]

end Mylib.Lib.Absorb
