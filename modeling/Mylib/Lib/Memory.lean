import Mathlib

/-!
# `Mylib.Lib.Memory`: blocks of memory and bounded copies

A block is the list of the cells of one allocation, addressed by the offset from
its start. A cell is `none` until something is stored in it, so a read of fresh
memory is visible in the result. `copyOut` and `copyIn` are the two halves of a
`memcpy` whose other side is a plain list: both return `none` when the region
leaves the block.

The region read by `copyOut` is `slice`, the block written by `copyIn` is
`splice`. The lemmas say where the two meet: a splice is read back whole
(`slice_splice_self`), leaves every region before it and after it unchanged
(`slice_splice_of_le`, `slice_splice_of_ge`), and adjacent regions join
(`slice_add`).
-/

set_option autoImplicit false

namespace Mylib.Lib.Memory

variable {α : Type}

/-- The cells of one allocation. A cell is `none` while it is uninitialised. -/
abbrev Block (α : Type) := List (Option α)

/-- A fresh allocation of `n` cells. -/
def alloc (n : Nat) : Block α := List.replicate n none

/-- The `n` cells from offset `off` on. -/
def slice (m : Block α) (off n : Nat) : Block α := (m.drop off).take n

/-- The block with `xs` stored from offset `off` on. -/
def splice (m : Block α) (off : Nat) (xs : Block α) : Block α :=
  m.take off ++ xs ++ m.drop (off + xs.length)

/-- Copy `n` cells out of the block, `none` when the region leaves the block. -/
def copyOut (m : Block α) (off n : Nat) : Option (Block α) :=
  if off + n ≤ m.length then some (slice m off n) else none

/-- Copy `xs` into the block, `none` when the region leaves the block. -/
def copyIn (m : Block α) (off : Nat) (xs : Block α) : Option (Block α) :=
  if off + xs.length ≤ m.length then some (splice m off xs) else none

/-- A read that stays inside of the block gives what stands there. -/
theorem copyOut_of_le {m : Block α} {off n : Nat} (h : off + n ≤ m.length) :
    copyOut m off n = some (slice m off n) := if_pos h

/-- A write that stays inside of the block succeeds. -/
theorem copyIn_of_le {m xs : Block α} {off : Nat} (h : off + xs.length ≤ m.length) :
    copyIn m off xs = some (splice m off xs) := if_pos h

/-- A new block has the length that was asked for. -/
@[simp] theorem length_alloc (n : Nat) : (alloc n : Block α).length = n := by
  simp [alloc]

/-- Nothing is read where nothing is asked for. -/
@[simp] theorem slice_zero (m : Block α) (off : Nat) : slice m off 0 = [] := by
  simp [slice]

/-- Inside of the block as much is read as was asked for. -/
theorem length_slice {m : Block α} {off n : Nat} (h : off + n ≤ m.length) :
    (slice m off n).length = n := by
  simp only [slice, List.length_take, List.length_drop]
  omega

/-- A write does not change the length of the block. -/
theorem length_splice {m xs : Block α} {off : Nat} (h : off + xs.length ≤ m.length) :
    (splice m off xs).length = m.length := by
  simp only [splice, List.length_append, List.length_take, List.length_drop]
  omega

/-- The cells of a slice are the cells of the block, shifted. -/
theorem getElem?_slice (m : Block α) (off n i : Nat) :
    (slice m off n)[i]? = if i < n then m[off + i]? else none := by
  simp [slice, List.getElem?_take, List.getElem?_drop]

/-- The cells of a splice are the new cells inside the region and the old ones
outside it. -/
theorem getElem?_splice {m xs : Block α} {off : Nat} (h : off + xs.length ≤ m.length)
    (i : Nat) :
    (splice m off xs)[i]?
      = if i < off then m[i]? else if i < off + xs.length then xs[i - off]? else m[i]? := by
  have hoff : (m.take off).length = off := by
    rw [List.length_take]
    omega
  by_cases h1 : i < off
  · rw [if_pos h1, splice, List.append_assoc, List.getElem?_append_left (by omega)]
    simp [h1]
  · rw [if_neg h1, splice, List.append_assoc, List.getElem?_append_right (by omega), hoff]
    by_cases h2 : i < off + xs.length
    · rw [if_pos h2, List.getElem?_append_left (by omega)]
    · rw [if_neg h2, List.getElem?_append_right (by omega), List.getElem?_drop]
      congr 1
      omega

/-- Adjacent regions join. -/
theorem slice_add (m : Block α) (off n k : Nat) :
    slice m off (n + k) = slice m off n ++ slice m (off + n) k := by
  simp only [slice, List.take_add, List.drop_drop]

/-- A region that starts `k` cells later and ends at the same place. -/
theorem slice_drop (m : Block α) (off n k : Nat) :
    slice m (off + k) (n - k) = (slice m off n).drop k := by
  simp only [slice, List.drop_take, List.drop_drop]

/-- The first `k` cells of a region. -/
theorem slice_take {m : Block α} {off n k : Nat} (h : k ≤ n) :
    slice m off k = (slice m off n).take k := by
  simp only [slice, List.take_take, Nat.min_eq_left h]

/-- The stored cells are read back whole. -/
theorem slice_splice_self {m xs : Block α} {off : Nat} (h : off + xs.length ≤ m.length) :
    slice (splice m off xs) off xs.length = xs := by
  refine List.ext_getElem? fun i => ?_
  rw [getElem?_slice, getElem?_splice h]
  by_cases hi : i < xs.length
  · rw [if_pos hi, if_neg (by omega), if_pos (by omega)]
    congr 1
    omega
  · rw [if_neg hi, List.getElem?_eq_none (by omega)]

/-- A region that ends before the stored cells is unchanged. -/
theorem slice_splice_of_le {m xs : Block α} {off o n : Nat}
    (h : off + xs.length ≤ m.length) (hle : o + n ≤ off) :
    slice (splice m off xs) o n = slice m o n := by
  refine List.ext_getElem? fun i => ?_
  rw [getElem?_slice, getElem?_slice, getElem?_splice h]
  by_cases hi : i < n
  · rw [if_pos hi, if_pos hi, if_pos (by omega)]
  · rw [if_neg hi, if_neg hi]

/-- A region that starts after the stored cells is unchanged. -/
theorem slice_splice_of_ge {m xs : Block α} {off o n : Nat}
    (h : off + xs.length ≤ m.length) (hge : off + xs.length ≤ o) :
    slice (splice m off xs) o n = slice m o n := by
  refine List.ext_getElem? fun i => ?_
  rw [getElem?_slice, getElem?_slice, getElem?_splice h]
  by_cases hi : i < n
  · rw [if_pos hi, if_pos hi, if_neg (by omega), if_neg (by omega)]
  · rw [if_neg hi, if_neg hi]

/-- Storing two runs of cells one after the other stores their concatenation. -/
theorem splice_append (m : Block α) (off : Nat) (xs ys : Block α)
    (h : off + xs.length ≤ m.length) :
    splice (splice m off xs) (off + xs.length) ys = splice m off (xs ++ ys) := by
  have hoff : (m.take off ++ xs).length = off + xs.length := by
    rw [List.length_append, List.length_take]
    omega
  rw [splice, splice, splice, List.take_append_of_le_length (by omega),
    List.take_of_length_le (by omega), List.drop_append, List.drop_of_length_le (by omega), hoff,
    List.nil_append, List.drop_drop, List.length_append, List.append_assoc (m.take off)]
  congr 2
  omega

end Mylib.Lib.Memory
