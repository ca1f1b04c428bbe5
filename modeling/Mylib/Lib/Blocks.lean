import Mathlib

/-!
# `Mylib.Lib.Blocks`: a list cut into blocks

`block n l k` is the `k`-th of the consecutive blocks of `n` elements that `l` is cut into; the
last one may be shorter. A list that grows block after block has the blocks it was built from
(`block_flatten_append`).
-/

set_option autoImplicit false

namespace Mylib.Lib.Blocks

variable {α : Type}

/-- The `k`-th block of `n` elements. -/
def block (n : ℕ) (l : List α) (k : ℕ) : List α := (l.drop (k * n)).take n

/-- The first block is the beginning of the list. -/
theorem block_zero (n : ℕ) (l : List α) : block n l 0 = l.take n := by
  rw [block, Nat.zero_mul, List.drop_zero]

/-- Behind a full block, the blocks are those of the rest. -/
theorem block_append_succ {n : ℕ} {b : List α} (h : b.length = n) (l : List α) (k : ℕ) :
    block n (b ++ l) (k + 1) = block n l k := by
  rw [block, block, Nat.succ_mul, Nat.add_comm, ← List.drop_drop, List.drop_left' h]

/-- The blocks of full blocks with a shorter one behind them: nothing else. -/
theorem block_flatten_append {n : ℕ} {blocks : List (List α)} (h : ∀ b ∈ blocks, b.length = n)
    {rest : List α} (hrest : rest.length ≤ n) (k : ℕ) :
    block n (blocks.flatten ++ rest) k = (blocks ++ [rest]).getD k [] := by
  -- Each whole block in front moves the index by one.
  induction blocks generalizing k with
  | nil =>
    cases k with
    | zero =>
      rw [block_zero]
      exact List.take_of_length_le hrest
    | succ k =>
      show ((rest.drop ((k + 1) * n)).take n) = []
      -- Behind the last block nothing is left.
      rw [List.drop_eq_nil_of_le (hrest.trans (Nat.le_mul_of_pos_left n k.succ_pos)),
        List.take_nil]
  | cons b blocks ih =>
    have hb : b.length = n := h b List.mem_cons_self
    rw [List.flatten_cons, List.append_assoc]
    cases k with
    | zero =>
      rw [block_zero, List.take_left' hb]
      rfl
    | succ k =>
      rw [block_append_succ hb, ih fun b' hb' => h b' (List.mem_cons_of_mem b hb')]
      rfl

end Mylib.Lib.Blocks
