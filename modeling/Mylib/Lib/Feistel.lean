import Mathlib

/-!
# `Mylib.Lib.Feistel`: rounds that add to one half a function of the other

A round adds a function of the second half to the first half, and a function of the new first
half to the second. Subtracting in the other order undoes it, whatever the two functions are,
so a round is a permutation of the pairs (`round`), and so is a list of them (`rounds`).

The functions may depend on a round key. Where the key is a running sum, `sums` lists its
values; a loop that counts the sum down meets them from the end (`sums_succ`).
-/

set_option autoImplicit false

namespace Mylib.Lib.Feistel

variable {α σ : Type*}

section Rounds

variable [AddGroup α]

/-- One round, and what undoes it. -/
@[simps]
def round (f g : α → α) : Equiv.Perm (α × α) where
  toFun v := (v.1 + f v.2, v.2 + g (v.1 + f v.2))
  invFun v := (v.1 - f (v.2 - g v.1), v.2 - g v.1)
  left_inv v := by simp
  right_inv v := by simp

/-- The rounds with these keys, in order. -/
def rounds (f g : σ → α → α) : List σ → Equiv.Perm (α × α)
  | [] => Equiv.refl _
  | key :: keys => (round (f key) (g key)).trans (rounds f g keys)

variable (f g : σ → α → α)

/-- The last key is used in the last round. -/
theorem rounds_concat (key : σ) (keys : List σ) :
    rounds f g (keys ++ [key]) = (rounds f g keys).trans (round (f key) (g key)) := by
  induction keys with
  | nil => rfl
  | cons first keys ih =>
    show (round (f first) (g first)).trans (rounds f g (keys ++ [key])) = _
    rw [ih]
    rfl

/-- The last round is undone first. -/
theorem rounds_concat_symm_apply (key : σ) (keys : List σ) (v : α × α) :
    (rounds f g (keys ++ [key])).symm v
      = (rounds f g keys).symm ((round (f key) (g key)).symm v) := by
  rw [rounds_concat]
  rfl

end Rounds

section Sums

variable [AddCommMonoid α]

/-- The values of a sum that grows by `delta` before each of `n` rounds. -/
def sums (delta : α) : (sum : α) → ℕ → List α
  | _, 0 => []
  | sum, n + 1 => (sum + delta) :: sums delta (sum + delta) n

/-- One round more adds one sum at the end. -/
theorem sums_succ (delta sum : α) (n : ℕ) :
    sums delta sum (n + 1) = sums delta sum n ++ [sum + (n + 1) • delta] := by
  induction n generalizing sum with
  | zero =>
    rw [zero_add, one_nsmul]
    rfl
  | succ n ih =>
    have hlast : sum + delta + (n + 1) • delta = sum + (n + 1 + 1) • delta := by
      rw [succ_nsmul delta (n + 1), add_assoc, add_comm delta]
    show (sum + delta) :: sums delta (sum + delta) (n + 1) = _
    rw [ih, hlast]
    rfl

end Sums

end Mylib.Lib.Feistel
