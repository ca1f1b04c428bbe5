import Mylib.Proofs.Comm.CycBufLayout

/-!
# `Mylib.Proofs.Comm.CycBufRepos`: the cases of `_repos`

`_repos` brings the unread bytes of `cyc_buf` into one piece, in five cases of
overlapping `memmove`s. `InArray` is all it needs: the two pointers are inside the array
or at its end.

The proofs follow single cells. The unread byte number `k` is in `cell b k`, the array
after a `memmove` is given cell by cell (`getElem?_memmoved`), and each case comes down
to an inequality between the lengths of the two parts and the gap.

* `InArray.reposFuel_flat`, `_case1`, `_case2`, `_case5`: the cases that return.
* `InArray.reposFuel_case3`, `_case4`: the cases that go on in case 1 and in case 2.
* `repos_keeps_contents`: all cases together.
* `Layout.repos`: what is left of that for a buffer with a free cell.
-/

set_option autoImplicit false

namespace Mylib.Proofs.Comm

open Mylib.Lib.Memory
open Mylib.Spec.Comm

/-! ### `memmove` -/

/-- The array after a `memmove` that stays inside it. -/
def memmoved (m : Block UInt8) (dst src n : Nat) : Block UInt8 := splice m dst (slice m src n)

/-- Inside of the array `memmove` succeeds. -/
theorem memmove_of_le {m : Block UInt8} {dst src n : Nat} (hsrc : src + n ≤ m.length)
    (hdst : dst + n ≤ m.length) : memmove m dst src n = some (memmoved m dst src n) := by
  rw [memmove, copyOut_of_le hsrc]
  show copyIn m dst (slice m src n) = _
  rw [copyIn_of_le (by rw [length_slice hsrc]; exact hdst), memmoved]

/-- `memmove` does not change the length of the array. -/
theorem length_memmoved {m : Block UInt8} {dst src n : Nat} (hsrc : src + n ≤ m.length)
    (hdst : dst + n ≤ m.length) : (memmoved m dst src n).length = m.length :=
  length_splice (by rw [length_slice hsrc]; exact hdst)

/-- The cells of the destination come from the source as it was, also where the two
overlap. -/
theorem getElem?_memmoved {m : Block UInt8} {dst src n : Nat} (hsrc : src + n ≤ m.length)
    (hdst : dst + n ≤ m.length) (i : Nat) :
    (memmoved m dst src n)[i]?
      = if dst ≤ i ∧ i < dst + n then m[src + (i - dst)]? else m[i]? := by
  have hlen := length_slice hsrc
  rw [memmoved, getElem?_splice (by rw [hlen]; exact hdst), hlen]
  by_cases hbefore : i < dst
  · rw [if_pos hbefore, if_neg (by omega)]
  · rw [if_neg hbefore]
    by_cases hin : i < dst + n
    · rw [if_pos hin, if_pos ⟨by omega, hin⟩, getElem?_slice, if_pos (by omega)]
    · rw [if_neg hin, if_neg (by omega)]

/-! ### The unread bytes, cell by cell -/

/-- The cell of the unread byte number `k`. -/
def cell (b : CycBuf) (k : Nat) : Nat :=
  if b.pbeg + k < b.total then b.pbeg + k else b.pbeg + k - b.total

section
variable {b : CycBuf}

/-- The unread bytes, by their cells. -/
theorem InArray.getElem?_unread (h : InArray b) {k : Nat} (hk : k < b.size) :
    (unread b)[k]? = b.data[cell b k]? := by
  have hd := h.data_length
  have hb := h.pbeg_le
  have he := h.pend_le
  rcases h.size_cases with ⟨hflat, hsize⟩ | ⟨hwrap, hsize⟩
  · rw [unread, if_pos hflat, getElem?_slice, if_pos (by omega), cell, if_pos (by omega)]
  · have hpart : (slice b.data b.pbeg (b.total - b.pbeg)).length = b.total - b.pbeg :=
      length_slice (by omega)
    rw [unread, if_neg (by omega), cell]
    by_cases htail : b.pbeg + k < b.total
    · rw [if_pos htail, List.getElem?_append_left (by omega), getElem?_slice, if_pos (by omega)]
    · rw [if_neg htail, List.getElem?_append_right (by omega), getElem?_slice, hpart,
        if_pos (by omega)]
      congr 1
      omega

/-- Two buffers hold the same bytes when their cells agree in order. -/
theorem InArray.unread_eq {b' : CycBuf} (h : InArray b) (h' : InArray b')
    (hsize : b'.size = b.size)
    (hcells : ∀ k < b.size, b'.data[cell b' k]? = b.data[cell b k]?) :
    unread b' = unread b := by
  refine List.ext_getElem? fun k => ?_
  by_cases hk : k < b.size
  · rw [h'.getElem?_unread (hsize ▸ hk), h.getElem?_unread hk, hcells k hk]
  · rw [List.getElem?_eq_none (by rw [h'.length_unread]; omega),
      List.getElem?_eq_none (by rw [h.length_unread]; omega)]

/-- `b` with the same bytes in one piece from `pbeg` on. -/
theorem InArray.unread_moved (h : InArray b) {data : Block UInt8} (hdata : data.length = b.total)
    {pbeg : Nat} (hin : pbeg + b.size ≤ b.total)
    (hcells : ∀ k < b.size, data[pbeg + k]? = b.data[cell b k]?) :
    unread { b with data := data, pbeg := pbeg, pend := pbeg + b.size } = unread b := by
  have hsize : CycBuf.size { b with data := data, pbeg := pbeg, pend := pbeg + b.size }
      = b.size := by
    rw [CycBuf.size, if_pos (Nat.le_add_right _ _)]
    exact Nat.add_sub_cancel_left _ _
  have h' : InArray { b with data := data, pbeg := pbeg, pend := pbeg + b.size } :=
    ⟨hdata, h.total_lt, by show pbeg ≤ b.total; omega, hin⟩
  refine h.unread_eq h' hsize fun k hk => ?_
  show data[if pbeg + k < b.total then pbeg + k else _]? = _
  rw [if_pos (by omega)]
  exact hcells k hk

/-- The same at the front of the array. -/
theorem InArray.unread_front (h : InArray b) {data : Block UInt8} (hdata : data.length = b.total)
    (hin : b.size ≤ b.total) (hcells : ∀ k < b.size, data[k]? = b.data[cell b k]?) :
    unread { b with data := data, pbeg := 0, pend := b.size } = unread b := by
  have hmoved := @InArray.unread_moved b h data hdata 0 (by omega) (by simpa using hcells)
  rwa [Nat.zero_add] at hmoved

/-! ### The cases that return -/

/-- Bytes in one piece are moved to the front. -/
theorem InArray.reposFuel_flat (h : InArray b) (hflat : b.pbeg ≤ b.pend) (array : Nat) :
    ∃ data, data.length = b.total ∧
      unread { b with data := data, pbeg := 0, pend := b.size } = unread b ∧
      ∀ fuel, ElasticBuf.reposFuel (fuel + 1) ⟨array, b⟩
        = some ⟨array, { b with data := data, pbeg := 0, pend := b.size }⟩ := by
  have hd := h.data_length
  have he := h.pend_le
  have hsize := h.size_cases
  have hsrc : b.pbeg + b.size ≤ b.data.length := by omega
  have hdst : 0 + b.size ≤ b.data.length := by omega
  have hlen := (length_memmoved hsrc hdst).trans hd
  refine ⟨memmoved b.data 0 b.pbeg b.size, hlen, ?_, ?_⟩
  · refine h.unread_front hlen (by omega) fun k hk => ?_
    rw [getElem?_memmoved hsrc hdst, if_pos (by omega), cell, if_pos (by omega), Nat.sub_zero]
  · intro fuel
    simp only [ElasticBuf.reposFuel, if_pos hflat]
    rw [memmove_of_le hsrc hdst]
    rfl

/-- Case 1: the first part fits into the unused cells. -/
theorem InArray.reposFuel_case1 (h : InArray b) (hwrap : b.pend < b.pbeg)
    (hpart : b.total - b.pbeg ≤ b.pbeg - b.pend) (array : Nat) :
    ∃ data, data.length = b.total ∧
      unread { b with data := data, pbeg := 0, pend := b.size } = unread b ∧
      ∀ fuel, ElasticBuf.reposFuel (fuel + 1) ⟨array, b⟩
        = some ⟨array, { b with data := data, pbeg := 0, pend := b.size }⟩ := by
  have hd := h.data_length
  have hb := h.pbeg_le
  have hsize := h.size_cases
  have hsrc₁ : 0 + b.pend ≤ b.data.length := by omega
  have hdst₁ : b.total - b.pbeg + b.pend ≤ b.data.length := by omega
  have hlen₁ := length_memmoved hsrc₁ hdst₁
  have hsrc₂ : b.pbeg + (b.total - b.pbeg)
      ≤ (memmoved b.data (b.total - b.pbeg) 0 b.pend).length := by omega
  have hdst₂ : 0 + (b.total - b.pbeg)
      ≤ (memmoved b.data (b.total - b.pbeg) 0 b.pend).length := by omega
  have hlen₂ := (length_memmoved hsrc₂ hdst₂).trans (hlen₁.trans hd)
  refine ⟨memmoved (memmoved b.data (b.total - b.pbeg) 0 b.pend) 0 b.pbeg (b.total - b.pbeg),
    hlen₂, ?_, ?_⟩
  · refine h.unread_front hlen₂ (by omega) fun k hk => ?_
    rw [getElem?_memmoved hsrc₂ hdst₂, getElem?_memmoved hsrc₁ hdst₁,
      getElem?_memmoved hsrc₁ hdst₁, cell]
    -- A byte of the first part, read behind what the first move wrote, or one of the second.
    by_cases hfirst : b.pbeg + k < b.total
    · rw [if_pos hfirst, if_pos (by omega), if_neg (by omega), Nat.sub_zero]
    · rw [if_neg hfirst, if_neg (by omega), if_pos (by omega)]
      congr 1
      omega
  · intro fuel
    simp only [ElasticBuf.reposFuel, if_neg (Nat.not_le.mpr hwrap), if_pos hpart]
    rw [memmove_of_le hsrc₁ hdst₁]
    show Option.bind (memmove _ _ _ _) _ = _
    rw [memmove_of_le hsrc₂ hdst₂]
    rfl

/-- Case 2: the second part fits into the unused cells, the first does not. -/
theorem InArray.reposFuel_case2 (h : InArray b) (hwrap : b.pend < b.pbeg)
    (hbig : b.pbeg - b.pend < b.total - b.pbeg) (hpart : b.pend ≤ b.pbeg - b.pend)
    (array : Nat) :
    ∃ data, data.length = b.total ∧
      unread { b with data := data, pbeg := b.pend, pend := b.pend + b.size } = unread b ∧
      ∀ fuel, ElasticBuf.reposFuel (fuel + 1) ⟨array, b⟩
        = some ⟨array, { b with data := data, pbeg := b.pend, pend := b.pend + b.size }⟩ := by
  have hd := h.data_length
  have hb := h.pbeg_le
  have hsize := h.size_cases
  have hsrc₁ : b.pbeg + (b.total - b.pbeg) ≤ b.data.length := by omega
  have hdst₁ : b.pend + (b.total - b.pbeg) ≤ b.data.length := by omega
  have hlen₁ := length_memmoved hsrc₁ hdst₁
  have hsrc₂ : 0 + b.pend ≤ (memmoved b.data b.pend b.pbeg (b.total - b.pbeg)).length := by omega
  have hdst₂ : b.pend + (b.total - b.pbeg) + b.pend
      ≤ (memmoved b.data b.pend b.pbeg (b.total - b.pbeg)).length := by omega
  have hlen₂ := (length_memmoved hsrc₂ hdst₂).trans (hlen₁.trans hd)
  refine ⟨memmoved (memmoved b.data b.pend b.pbeg (b.total - b.pbeg))
      (b.pend + (b.total - b.pbeg)) 0 b.pend, hlen₂, ?_, ?_⟩
  · refine h.unread_moved hlen₂ (by omega) fun k hk => ?_
    rw [getElem?_memmoved hsrc₂ hdst₂, getElem?_memmoved hsrc₁ hdst₁,
      getElem?_memmoved hsrc₁ hdst₁, cell]
    -- The second part is read before the cells the first move wrote.
    by_cases hfirst : b.pbeg + k < b.total
    · rw [if_pos hfirst, if_neg (by omega), if_pos (by omega), Nat.add_sub_cancel_left]
    · rw [if_neg hfirst, if_pos (by omega), if_neg (by omega)]
      congr 1
      omega
  · intro fuel
    simp only [ElasticBuf.reposFuel, if_neg (Nat.not_le.mpr hwrap), if_neg (Nat.not_le.mpr hbig),
      if_pos hpart]
    rw [memmove_of_le hsrc₁ hdst₁]
    show Option.bind (memmove _ _ _ _) _ = _
    rw [memmove_of_le hsrc₂ hdst₂]
    rfl

/-- Case 5: both parts go to a new array. -/
theorem InArray.reposFuel_case5 (h : InArray b) (hwrap : b.pend < b.pbeg)
    (hbig : b.pbeg - b.pend < b.total - b.pbeg) (hlong : b.pbeg - b.pend < b.pend)
    (hnot₃ : ¬ (b.total - b.pbeg ≤ szMul (b.pbeg - b.pend) 2 ∧ b.pend ≤ b.total - b.pbeg))
    (hnot₄ : ¬ (b.pend ≤ szMul (b.pbeg - b.pend) 2 ∧ b.total - b.pbeg ≤ b.pend))
    (array : Nat) :
    ∃ data, data.length = b.total ∧
      unread { b with data := data, pbeg := 0, pend := b.size } = unread b ∧
      ∀ fuel, ElasticBuf.reposFuel (fuel + 1) ⟨array, b⟩
        = some ⟨array + 1, { b with data := data, pbeg := 0, pend := b.size }⟩ := by
  have hd := h.data_length
  have hb := h.pbeg_le
  have hsize := h.size_cases
  have hlen₁ : (slice b.data b.pbeg (b.total - b.pbeg)).length = b.total - b.pbeg :=
    length_slice (by omega)
  have hlen₂ : (slice b.data 0 b.pend).length = b.pend := length_slice (by omega)
  have halloc : (alloc b.total : Block UInt8).length = b.total := length_alloc _
  have hin₁ : 0 + (slice b.data b.pbeg (b.total - b.pbeg)).length
      ≤ (alloc b.total : Block UInt8).length := by omega
  have hin₂ : b.total - b.pbeg + (slice b.data 0 b.pend).length
      ≤ (splice (alloc b.total) 0 (slice b.data b.pbeg (b.total - b.pbeg))).length := by
    rw [length_splice hin₁]
    omega
  have hlen := (length_splice hin₂).trans ((length_splice hin₁).trans halloc)
  refine ⟨_, hlen, ?_, ?_⟩
  · refine h.unread_front hlen (by omega) fun k hk => ?_
    rw [getElem?_splice hin₂, getElem?_splice hin₁, hlen₁, hlen₂, cell]
    -- The byte number `k` comes from the tail of the old array, or from its front.
    by_cases hfirst : b.pbeg + k < b.total
    · rw [if_pos hfirst, if_pos (by omega), if_neg (by omega), if_pos (by omega), getElem?_slice,
        if_pos (by omega), Nat.sub_zero]
    · rw [if_neg hfirst, if_neg (by omega), if_pos (by omega), getElem?_slice, if_pos (by omega)]
      congr 1
      omega
  · intro fuel
    rw [ElasticBuf.reposFuel]
    simp only [if_neg (Nat.not_le.mpr hwrap), if_neg (Nat.not_le.mpr hbig),
      if_neg (Nat.not_le.mpr hlong), if_neg hnot₃, if_neg hnot₄]
    rw [Option.bind_eq_bind, copyOut_of_le (by omega), Option.bind_some,
      copyIn_of_le hin₁, Option.bind_some, copyOut_of_le (by omega), Option.bind_some,
      copyIn_of_le hin₂]
    rfl

/-! ### The cases that go on -/

/-- Case 3 leaves a buffer for case 1, with the free cells `unuse` further on: the end of
the first part stands before the second part now. -/
theorem InArray.reposFuel_case3 (h : InArray b) (hwrap : b.pend < b.pbeg)
    (hbig : b.pbeg - b.pend < b.total - b.pbeg) (hlong : b.pbeg - b.pend < b.pend)
    (hpart : b.total - b.pbeg ≤ szMul (b.pbeg - b.pend) 2) (hle : b.pend ≤ b.total - b.pbeg)
    (array : Nat) :
    ∃ data, data.length = b.total ∧
      (∀ k < b.size, data[cell { b with pbeg := b.pbeg + (b.pbeg - b.pend) } k]?
        = b.data[cell b k]?) ∧
      ∀ fuel, ElasticBuf.reposFuel (fuel + 1) ⟨array, b⟩
        = ElasticBuf.reposFuel fuel
          ⟨array, { b with data := data, pbeg := b.pbeg + (b.pbeg - b.pend), pend := b.pbeg }⟩ := by
  have hd := h.data_length
  have hb := h.pbeg_le
  have ht := h.total_lt
  have hsize := h.size_cases
  obtain ⟨unuse, hun⟩ : ∃ unuse, unuse = b.pbeg - b.pend := ⟨_, rfl⟩
  rw [← hun] at hbig hlong hpart ⊢
  have htwice : szMul unuse 2 ≤ unuse * 2 := Nat.mod_le _ _
  have hsrc₁ : 0 + b.pend ≤ b.data.length := by omega
  have hdst₁ : unuse + b.pend ≤ b.data.length := by omega
  have hlen₁ := length_memmoved hsrc₁ hdst₁
  have hcell₁ := getElem?_memmoved hsrc₁ hdst₁
  obtain ⟨d₁, hd₁⟩ : ∃ d₁, d₁ = memmoved b.data unuse 0 b.pend := ⟨_, rfl⟩
  rw [← hd₁] at hlen₁ hcell₁
  have hsrc₂ : b.total - unuse + unuse ≤ d₁.length := by omega
  have hdst₂ : 0 + unuse ≤ d₁.length := by omega
  have hlen₂ := length_memmoved hsrc₂ hdst₂
  have hcell₂ := getElem?_memmoved hsrc₂ hdst₂
  obtain ⟨d₂, hd₂⟩ : ∃ d₂, d₂ = memmoved d₁ 0 (b.total - unuse) unuse := ⟨_, rfl⟩
  rw [← hd₂] at hlen₂ hcell₂
  have hsrc₃ : b.pbeg + (b.total - b.pbeg - unuse) ≤ d₂.length := by omega
  have hdst₃ : b.pbeg + unuse + (b.total - b.pbeg - unuse) ≤ d₂.length := by omega
  have hassert : szSub b.total (b.pbeg + unuse) ≤ unuse := by
    simp only [szSub]
    omega
  refine ⟨memmoved d₂ (b.pbeg + unuse) b.pbeg (b.total - b.pbeg - unuse),
    (length_memmoved hsrc₃ hdst₃).trans (by omega), ?_, ?_⟩
  · intro k hk
    show (memmoved d₂ _ _ _)[if b.pbeg + unuse + k < b.total then b.pbeg + unuse + k
      else b.pbeg + unuse + k - b.total]? = _
    rw [cell, getElem?_memmoved hsrc₃ hdst₃]
    -- The beginning of the first part, its end, and the second part.
    by_cases hstay : b.pbeg + unuse + k < b.total
    · rw [if_pos hstay, if_pos (by omega), if_pos (by omega), hcell₂, if_neg (by omega), hcell₁,
        if_neg (by omega)]
      congr 1
      omega
    · rw [if_neg hstay, if_neg (by omega), hcell₂]
      by_cases hfirst : b.pbeg + k < b.total
      · rw [if_pos (by omega), if_pos hfirst, hcell₁, if_neg (by omega)]
        congr 1
        omega
      · rw [if_neg (by omega), if_neg hfirst, hcell₁, if_pos (by omega)]
        congr 1
        omega
  · intro fuel
    rw [ElasticBuf.reposFuel]
    simp only [← hun, if_neg (Nat.not_le.mpr hwrap), if_neg (Nat.not_le.mpr hbig),
      if_neg (Nat.not_le.mpr hlong), if_pos (And.intro hpart hle)]
    rw [Option.bind_eq_bind, memmove_of_le hsrc₁ hdst₁, ← hd₁, Option.bind_some,
      memmove_of_le hsrc₂ hdst₂, ← hd₂, Option.bind_some,
      memmove_of_le hsrc₃ hdst₃, Option.bind_some, if_pos hassert]

/-- Case 4 leaves a buffer for case 2, with the free cells `unuse` before: the beginning
of the second part stands behind the first part now. -/
theorem InArray.reposFuel_case4 (h : InArray b) (hwrap : b.pend < b.pbeg)
    (hbig : b.pbeg - b.pend < b.total - b.pbeg) (hlong : b.pbeg - b.pend < b.pend)
    (hnot : ¬ (b.total - b.pbeg ≤ szMul (b.pbeg - b.pend) 2 ∧ b.pend ≤ b.total - b.pbeg))
    (hpart : b.pend ≤ szMul (b.pbeg - b.pend) 2) (hle : b.total - b.pbeg ≤ b.pend)
    (array : Nat) :
    ∃ data, data.length = b.total ∧
      (∀ k < b.size, data[cell { b with pbeg := b.pend } k]? = b.data[cell b k]?) ∧
      ∀ fuel, ElasticBuf.reposFuel (fuel + 1) ⟨array, b⟩
        = ElasticBuf.reposFuel fuel
          ⟨array, { b with data := data, pbeg := b.pend, pend := b.pend - (b.pbeg - b.pend) }⟩ := by
  have hd := h.data_length
  have hb := h.pbeg_le
  have hsize := h.size_cases
  obtain ⟨unuse, hun⟩ : ∃ unuse, unuse = b.pbeg - b.pend := ⟨_, rfl⟩
  rw [← hun] at hbig hlong hnot hpart ⊢
  have htwice : szMul unuse 2 ≤ unuse * 2 := Nat.mod_le _ _
  have hsrc₁ : b.pbeg + (b.total - b.pbeg) ≤ b.data.length := by omega
  have hdst₁ : b.pend + (b.total - b.pbeg) ≤ b.data.length := by omega
  have hlen₁ := length_memmoved hsrc₁ hdst₁
  have hcell₁ := getElem?_memmoved hsrc₁ hdst₁
  obtain ⟨d₁, hd₁⟩ : ∃ d₁, d₁ = memmoved b.data b.pend b.pbeg (b.total - b.pbeg) := ⟨_, rfl⟩
  rw [← hd₁] at hlen₁ hcell₁
  have hsrc₂ : 0 + unuse ≤ d₁.length := by omega
  have hdst₂ : b.total - b.pbeg + b.pend + unuse ≤ d₁.length := by omega
  have hlen₂ := length_memmoved hsrc₂ hdst₂
  have hcell₂ := getElem?_memmoved hsrc₂ hdst₂
  obtain ⟨d₂, hd₂⟩ : ∃ d₂, d₂ = memmoved d₁ (b.total - b.pbeg + b.pend) 0 unuse := ⟨_, rfl⟩
  rw [← hd₂] at hlen₂ hcell₂
  have hsrc₃ : unuse + (b.pend - unuse) ≤ d₂.length := by omega
  have hdst₃ : 0 + (b.pend - unuse) ≤ d₂.length := by omega
  have hassert : b.pend - unuse ≤ unuse := by omega
  refine ⟨memmoved d₂ 0 unuse (b.pend - unuse), (length_memmoved hsrc₃ hdst₃).trans (by omega),
    ?_, ?_⟩
  · intro k hk
    show (memmoved d₂ _ _ _)[if b.pend + k < b.total then b.pend + k else b.pend + k - b.total]? = _
    rw [cell, getElem?_memmoved hsrc₃ hdst₃]
    -- The first part, the beginning of the second part, and its end.
    by_cases hfirst : b.pbeg + k < b.total
    · rw [if_pos (show b.pend + k < b.total by omega), if_neg (by omega), if_pos hfirst, hcell₂,
        if_neg (by omega), hcell₁, if_pos (by omega), Nat.add_sub_cancel_left]
    · rw [if_neg hfirst]
      by_cases hmoved : b.pend + k < b.total
      · rw [if_pos hmoved, if_neg (by omega), hcell₂, if_pos (by omega), hcell₁,
          if_neg (by omega)]
        congr 1
        omega
      · rw [if_neg hmoved, if_pos (by omega), hcell₂, if_neg (by omega), hcell₁,
          if_neg (by omega)]
        congr 1
        omega
  · intro fuel
    rw [ElasticBuf.reposFuel]
    simp only [← hun, if_neg (Nat.not_le.mpr hwrap), if_neg (Nat.not_le.mpr hbig),
      if_neg (Nat.not_le.mpr hlong), if_neg hnot, if_pos (And.intro hpart hle)]
    rw [Option.bind_eq_bind, memmove_of_le hsrc₁ hdst₁, ← hd₁, Option.bind_some,
      memmove_of_le hsrc₂ hdst₂, ← hd₂, Option.bind_some,
      memmove_of_le hsrc₃ hdst₃, Option.bind_some, if_pos hassert]

/-! ### All cases together -/

/-- `b'` has the unread bytes of `b`, in one piece. -/
structure Reposed (b b' : CycBuf) : Prop where
  inArray : InArray b'
  flat : b'.pbeg ≤ b'.pend
  unread_eq : unread b' = unread b
  total_eq : b'.total = b.total
  locks : SameLocks b b'

/-- The result of a case that leaves the bytes from `pbeg` on. -/
theorem InArray.reposed (h : InArray b) {data : Block UInt8} (hdata : data.length = b.total)
    {pbeg : Nat} (hin : pbeg + b.size ≤ b.total)
    (hunread : unread { b with data := data, pbeg := pbeg, pend := pbeg + b.size } = unread b) :
    Reposed b { b with data := data, pbeg := pbeg, pend := pbeg + b.size } where
  inArray := ⟨hdata, h.total_lt, by show pbeg ≤ b.total; omega, hin⟩
  flat := Nat.le_add_right _ _
  unread_eq := hunread
  total_eq := rfl
  locks := ⟨rfl, rfl⟩

/-- Once the bytes are at the front, the ends are put there. -/
theorem InArray.reposed_front (h : InArray b) {data : Block UInt8} (hdata : data.length = b.total)
    (hin : b.size ≤ b.total)
    (hunread : unread { b with data := data, pbeg := 0, pend := b.size } = unread b) :
    Reposed b { b with data := data, pbeg := 0, pend := b.size } where
  inArray := ⟨hdata, h.total_lt, Nat.zero_le _, hin⟩
  flat := Nat.zero_le _
  unread_eq := hunread
  total_eq := rfl
  locks := ⟨rfl, rfl⟩

/-- There are no more unread bytes than cells. -/
theorem InArray.size_le (h : InArray b) : b.size ≤ b.total := by
  have hb := h.pbeg_le
  have he := h.pend_le
  have hsize := h.size_cases
  omega

/-- A first pass that keeps the bytes, and what the second pass makes of it. -/
theorem Reposed.of_same {mid b' : CycBuf} (h : Reposed mid b') (hunread : unread mid = unread b)
    (htotal : mid.total = b.total) (hlocks : SameLocks b mid) : Reposed b b' where
  inArray := h.inArray
  flat := h.flat
  unread_eq := h.unread_eq.trans hunread
  total_eq := h.total_eq.trans htotal
  locks := ⟨h.locks.rlocked_eq.trans hlocks.rlocked_eq, h.locks.wlocked_eq.trans hlocks.wlocked_eq⟩

/-- `_repos` returns within two passes, whatever fuel is left, with the same bytes in one
piece. -/
theorem InArray.repos (h : InArray b) (array : Nat) :
    ∃ array' b', (∀ fuel, ElasticBuf.reposFuel (fuel + 2) ⟨array, b⟩ = some ⟨array', b'⟩) ∧
      Reposed b b' := by
  have hb := h.pbeg_le
  have ht := h.total_lt
  have hsize := h.size_cases
  have hle := h.size_le
  by_cases hflat : b.pbeg ≤ b.pend
  · obtain ⟨data, hdata, hunread, hrun⟩ := h.reposFuel_flat hflat array
    exact ⟨array, _, fun fuel => hrun (fuel + 1), h.reposed_front hdata hle hunread⟩
  have hwrap := Nat.not_le.mp hflat
  by_cases hcase1 : b.total - b.pbeg ≤ b.pbeg - b.pend
  · obtain ⟨data, hdata, hunread, hrun⟩ := h.reposFuel_case1 hwrap hcase1 array
    exact ⟨array, _, fun fuel => hrun (fuel + 1), h.reposed_front hdata hle hunread⟩
  have hbig := Nat.not_le.mp hcase1
  by_cases hcase2 : b.pend ≤ b.pbeg - b.pend
  · obtain ⟨data, hdata, hunread, hrun⟩ := h.reposFuel_case2 hwrap hbig hcase2 array
    exact ⟨array, _, fun fuel => hrun (fuel + 1), h.reposed hdata (by omega) hunread⟩
  have hlong := Nat.not_le.mp hcase2
  have htwice : szMul (b.pbeg - b.pend) 2 ≤ (b.pbeg - b.pend) * 2 := Nat.mod_le _ _
  by_cases hcase3 : b.total - b.pbeg ≤ szMul (b.pbeg - b.pend) 2 ∧ b.pend ≤ b.total - b.pbeg
  · obtain ⟨data, hdata, hcells, hrun⟩ :=
      h.reposFuel_case3 hwrap hbig hlong hcase3.1 hcase3.2 array
    obtain ⟨mid, hmid⟩ : ∃ mid : CycBuf, mid = { b with
        data := data
        pbeg := b.pbeg + (b.pbeg - b.pend)
        pend := b.pbeg } := ⟨_, rfl⟩
    rw [← hmid] at hrun
    have hinArray : InArray mid := by
      rw [hmid]
      exact ⟨hdata, ht, by show b.pbeg + (b.pbeg - b.pend) ≤ b.total; omega, hb⟩
    have hpend : mid.pend = b.pbeg := by rw [hmid]
    have hpbeg : mid.pbeg = b.pbeg + (b.pbeg - b.pend) := by rw [hmid]
    have htotal : mid.total = b.total := by rw [hmid]
    have hmidsize := hinArray.size_cases
    have hsame : unread mid = unread b :=
      h.unread_eq hinArray (by omega) (by rw [hmid]; exact hcells)
    -- The assertion of the source is the condition of case 1.
    obtain ⟨data', hdata', hunread', hrun'⟩ :=
      hinArray.reposFuel_case1 (by omega) (by omega) array
    have hreposed := hinArray.reposed_front hdata' hinArray.size_le hunread'
    exact ⟨array, _, fun fuel => (hrun (fuel + 1)).trans (hrun' fuel),
      hreposed.of_same hsame htotal (by rw [hmid]; exact ⟨rfl, rfl⟩)⟩
  by_cases hcase4 : b.pend ≤ szMul (b.pbeg - b.pend) 2 ∧ b.total - b.pbeg ≤ b.pend
  · obtain ⟨data, hdata, hcells, hrun⟩ :=
      h.reposFuel_case4 hwrap hbig hlong hcase3 hcase4.1 hcase4.2 array
    obtain ⟨mid, hmid⟩ : ∃ mid : CycBuf, mid = { b with
        data := data
        pbeg := b.pend
        pend := b.pend - (b.pbeg - b.pend) } := ⟨_, rfl⟩
    rw [← hmid] at hrun
    have hinArray : InArray mid := by
      rw [hmid]
      exact ⟨hdata, ht, h.pend_le, by show b.pend - (b.pbeg - b.pend) ≤ b.total; omega⟩
    have hpend : mid.pend = b.pend - (b.pbeg - b.pend) := by rw [hmid]
    have hpbeg : mid.pbeg = b.pend := by rw [hmid]
    have htotal : mid.total = b.total := by rw [hmid]
    have hmidsize := hinArray.size_cases
    have hsame : unread mid = unread b :=
      h.unread_eq hinArray (by omega) (by rw [hmid]; exact hcells)
    -- The assertion of the source is the condition of case 2.
    obtain ⟨data', hdata', hunread', hrun'⟩ :=
      hinArray.reposFuel_case2 (by omega) (by omega) (by omega) array
    have hreposed := hinArray.reposed hdata' (by omega) hunread'
    exact ⟨array, _, fun fuel => (hrun (fuel + 1)).trans (hrun' fuel),
      hreposed.of_same hsame htotal (by rw [hmid]; exact ⟨rfl, rfl⟩)⟩
  · obtain ⟨data, hdata, hunread, hrun⟩ := h.reposFuel_case5 hwrap hbig hlong hcase3 hcase4 array
    exact ⟨array + 1, _, fun fuel => hrun (fuel + 1), h.reposed_front hdata hle hunread⟩

/-- For every array, and wherever in it `_pbeg` and `_pend` stand, `_repos` returns after at
most one call of itself, with no assertion failed and no byte moved outside of the array.
The bytes from `_pbeg` to `_pend` are the same before and after, and are in one piece. -/
theorem repos_keeps_contents {b : ElasticBuf} (h : InArray b.buf) :
    ∃ b', (∀ fuel, 2 ≤ fuel → ElasticBuf.reposFuel fuel b = some b') ∧
      unread b'.buf = unread b.buf ∧ b'.buf.pbeg ≤ b'.buf.pend ∧
      b'.buf.pend ≤ b'.buf.total ∧ b'.buf.data.length = b'.buf.total := by
  obtain ⟨array', buf', hrun, hreposed⟩ := h.repos b.array
  refine ⟨⟨array', buf'⟩, fun fuel hfuel => ?_, hreposed.unread_eq, hreposed.flat,
    hreposed.inArray.pend_le, hreposed.inArray.data_length⟩
  have hrun' := hrun (fuel - 2)
  rwa [Nat.sub_add_cancel hfuel] at hrun'

/-- `22222---1111` in an array of 12: the fourth case, and then the second. -/
theorem repos_keeps_contents_twice :
    let b : ElasticBuf :=
      ⟨0, ⟨[4, 5, 6, 7, 8, 0, 0, 0, 0, 1, 2, 3].map some, 12, 8, 5, false, false⟩⟩
    ∃ b', (∀ fuel, 2 ≤ fuel → ElasticBuf.reposFuel fuel b = some b') ∧
      unread b'.buf = unread b.buf ∧ b'.buf.pbeg ≤ b'.buf.pend ∧
      b'.buf.pend ≤ b'.buf.total ∧ b'.buf.data.length = b'.buf.total :=
  repos_keeps_contents ⟨rfl, by decide, by decide, by decide⟩

/-! ### `_repos` on a buffer with a free cell -/

/-- `b'` holds as many bytes as `b`, in one piece. -/
structure Placed (b b' : CycBuf) : Prop where
  layout : Layout b'
  flat : b'.pbeg ≤ b'.pend
  size_eq : b'.size = b.size
  total_eq : b'.total = b.total
  locks : SameLocks b b'

/-- Reposing keeps the size. -/
theorem Reposed.size_eq {b' : CycBuf} (h : Reposed b b') (hb : InArray b) : b'.size = b.size := by
  rw [← h.inArray.length_unread, ← hb.length_unread, h.unread_eq]

/-- Reposing keeps the contents, so the layout, too. -/
theorem Reposed.placed {b' : CycBuf} (h : Reposed b b') (hb : Layout b) : Placed b b' := by
  have hsize := h.size_eq hb.inArray
  have hlt := hb.size_lt
  have hpos := hb.total_pos
  have htotal := h.total_eq
  have hflat := h.flat
  have hcases := h.inArray.size_cases
  refine ⟨⟨h.inArray.data_length, h.inArray.total_lt, by omega, h.inArray.pbeg_le,
    h.inArray.pend_le, fun hzero => ?_⟩, hflat, hsize, htotal, h.locks⟩
  omega

/-- From a layout `Repos` always returns, and what it leaves is one in front of the array. -/
theorem Layout.repos (h : Layout b) (array : Nat) :
    ∃ array' b', ElasticBuf.repos ⟨array, b⟩ = some ⟨array', b'⟩ ∧ Placed b b' := by
  obtain ⟨array', b', hrun, hreposed⟩ := h.inArray.repos array
  exact ⟨array', b', hrun 0, hreposed.placed h⟩

end

end Mylib.Proofs.Comm
