import Mylib.Spec.Comm.ElasticBuf

/-!
# `Mylib.Proofs.Comm.CycBufLayout`: the two pointers of `cyc_buf`

`Layout b` is the part of the buffer's invariant that does not speak of the bytes:
`_pbeg` and `_pend` are inside the array or at its end, and the cells they enclose
leave one cell free. It holds of locked buffers too, where `runlock` can leave `_pbeg`
at the end of the array.

Each call has one lemma: it returns, keeps `Layout`, and moves `size()` and the two
pointers as it should.
-/

set_option autoImplicit false

namespace Mylib.Proofs.Comm

open Mylib.Lib.Memory
open Mylib.Spec.Comm

/-- The two pointers are inside the array or at its end. -/
structure InArray (b : CycBuf) : Prop where
  data_length : b.data.length = b.total
  total_lt : b.total < 2 ^ 64
  pbeg_le : b.pbeg ≤ b.total
  pend_le : b.pend ≤ b.total

/-- The two pointers are inside the array and one cell is free. -/
structure Layout (b : CycBuf) : Prop where
  data_length : b.data.length = b.total
  total_lt : b.total < 2 ^ 64
  total_pos : 0 < b.total
  pbeg_le : b.pbeg ≤ b.total
  pend_le : b.pend ≤ b.total
  free : b.pbeg = 0 → b.pend < b.total

/-- `b'` has the flags of `b`. -/
structure SameLocks (b b' : CycBuf) : Prop where
  rlocked_eq : b'.rlocked = b.rlocked
  wlocked_eq : b'.wlocked = b.wlocked

/-- The unread cells of the buffer, oldest first. -/
def unread (b : CycBuf) : Block UInt8 :=
  if b.pbeg ≤ b.pend then slice b.data b.pbeg (b.pend - b.pbeg)
  else slice b.data b.pbeg (b.total - b.pbeg) ++ slice b.data 0 b.pend

/-- A growth by `inc` bytes asks for an array whose size fits `size_t`. -/
def GrowthFits (b : CycBuf) (inc : Nat) : Prop :=
  b.capacity + max inc (b.capacity / 2) + 4 < 2 ^ 64

instance (b : CycBuf) (inc : Nat) : Decidable (GrowthFits b inc) :=
  inferInstanceAs (Decidable (_ < _))

section
variable {b : CycBuf}

/-! ### `size` and `avail` -/

/-- The unread cells lie in one piece, or wrap at the end of the array. -/
theorem InArray.size_cases (h : InArray b) :
    (b.pbeg ≤ b.pend ∧ b.size = b.pend - b.pbeg) ∨
      (b.pend < b.pbeg ∧ b.size + b.pbeg = b.pend + b.total) := by
  have ht := h.total_lt
  have hb := h.pbeg_le
  have he := h.pend_le
  by_cases hwrap : b.pbeg ≤ b.pend
  · exact .inl ⟨hwrap, by rw [CycBuf.size, if_pos hwrap]⟩
  · refine .inr ⟨Nat.not_le.mp hwrap, ?_⟩
    rw [CycBuf.size, if_neg hwrap]
    simp only [szSub, szAdd]
    omega

/-- As many bytes are unread as the size says. -/
theorem InArray.length_unread (h : InArray b) : (unread b).length = b.size := by
  have hd := h.data_length
  have hb := h.pbeg_le
  have he := h.pend_le
  rcases h.size_cases with ⟨hflat, hsize⟩ | ⟨hwrap, hsize⟩
  · rw [unread, if_pos hflat, length_slice (by omega), hsize]
  · rw [unread, if_neg (by omega), List.length_append, length_slice (by omega),
      length_slice (by omega)]
    omega

/-- The unread cells of a buffer whose bytes start at the front of the array. -/
theorem unread_of_pbeg_zero (hb : b.pbeg = 0) : unread b = slice b.data 0 b.pend := by
  rw [unread, hb, if_pos (Nat.zero_le _), Nat.sub_zero]

/-- Both ends are inside of the array. -/
theorem Layout.inArray (h : Layout b) : InArray b :=
  ⟨h.data_length, h.total_lt, h.pbeg_le, h.pend_le⟩

/-- The unread bytes are in one piece or wrap around. -/
theorem Layout.size_cases (h : Layout b) :
    (b.pbeg ≤ b.pend ∧ b.size = b.pend - b.pbeg) ∨
      (b.pend < b.pbeg ∧ b.size + b.pbeg = b.pend + b.total) :=
  h.inArray.size_cases

/-- The buffer is never full to the last byte, so equal ends mean that it is empty. -/
theorem Layout.size_lt (h : Layout b) : b.size < b.total := by
  have hpos := h.total_pos
  have hb := h.pbeg_le
  have he := h.pend_le
  have hfree := h.free
  have hsize := h.size_cases
  omega

/-- One byte of the array is never used. -/
theorem Layout.capacity_eq (h : Layout b) : b.capacity = b.total - 1 := by
  have hpos := h.total_pos
  have ht := h.total_lt
  simp only [CycBuf.capacity, szSub]
  omega

/-- What is free is the capacity less the size. -/
theorem Layout.avail_eq (h : Layout b) : b.avail = b.total - 1 - b.size := by
  have hlt := h.size_lt
  have ht := h.total_lt
  rw [CycBuf.avail, h.capacity_eq]
  simp only [szSub]
  omega

/-- `Layout` and `size()` from the pointers of a buffer that is given by its fields. -/
theorem layout_of_pointers {data : Block UInt8} {total pbeg pend : Nat} {r w : Bool}
    (hd : data.length = total) (ht : total < 2 ^ 64) (hle : pbeg ≤ pend) (he : pend ≤ total)
    (hfree : pend - pbeg < total) :
    Layout ⟨data, total, pbeg, pend, r, w⟩ ∧
      CycBuf.size ⟨data, total, pbeg, pend, r, w⟩ = pend - pbeg := by
  refine ⟨⟨hd, ht, ?_, ?_, he, ?_⟩, ?_⟩
  · show 0 < total
    omega
  · show pbeg ≤ total
    omega
  · show pbeg = 0 → pend < total
    omega
  · rw [CycBuf.size, if_pos hle]

/-! ### The calls without a pointer -/

/-- A new buffer is well-formed. -/
theorem layout_cycBuf {n : Nat} (hn : n + 4 < 2 ^ 64) : Layout (CycBuf.cycBuf n) := by
  have htotal : dwordAlign (szAdd n 1) = (n + 4) / 4 * 4 := by
    simp only [dwordAlign, szAdd]
    omega
  constructor
  all_goals simp only [CycBuf.cycBuf, length_alloc, htotal]
  all_goals omega

/-- `peek` returns, with as many bytes as there are. -/
theorem Layout.peek (h : Layout b) (len : Nat) :
    ∃ out, b.peek len = some out ∧ (b.rlocked = false → out.length = min b.size len) := by
  have hd := h.data_length
  have hb := h.pbeg_le
  have he := h.pend_le
  have hsize := h.size_cases
  have hlt := h.size_lt
  rw [CycBuf.peek]
  by_cases hr : b.rlocked = true
  · exact ⟨[], if_pos hr, by simp [hr]⟩
  · rw [if_neg hr]
    simp only []
    by_cases hone : b.pbeg ≤ b.pend ∨ min b.size len ≤ b.total - b.pbeg
    · exact ⟨_, by rw [if_pos hone, copyOut_of_le (by omega)], fun _ => length_slice (by omega)⟩
    · refine ⟨_, by rw [if_neg hone, copyOut_of_le (by omega), copyOut_of_le (by omega)]; rfl, ?_⟩
      intro _
      rw [List.length_append, length_slice (by omega), length_slice (by omega)]
      omega

/-- `read` moves `_pbeg` only, unless it takes all the bytes while `_pend` stands at the
end of the array. -/
theorem Layout.read (h : Layout b) (len : Nat)
    (hok : b.rlocked = false → ¬ (b.pend = b.total ∧ b.total - b.pbeg ≤ len)) :
    ∃ out b', b.read len = some (out, b') ∧ Layout b' ∧ b'.size ≤ b.size ∧ b'.pend = b.pend ∧
      b'.data = b.data ∧ b'.total = b.total ∧ SameLocks b b' := by
  have hb := h.pbeg_le
  have he := h.pend_le
  have hfree := h.free
  have hsize := h.size_cases
  have hlt := h.size_lt
  rw [CycBuf.read]
  by_cases hr : b.rlocked = true
  · exact ⟨[], b, if_pos hr, h, Nat.le_refl _, rfl, rfl, rfl, rfl, rfl⟩
  · have hopen : b.rlocked = false := by simpa using hr
    have hdrain := hok hopen
    obtain ⟨out, hpeek, hcount⟩ := h.peek len
    have hlen := hcount hopen
    obtain ⟨pbeg, hpbeg⟩ : ∃ pbeg, pbeg =
        if b.total ≤ b.pbeg + out.length then b.pbeg + out.length - b.total
        else b.pbeg + out.length := ⟨_, rfl⟩
    -- `_pbeg` wraps when it reaches the end; the drained buffer that `hok` excludes breaks there.
    have hcases : (b.total ≤ b.pbeg + out.length ∧ pbeg = b.pbeg + out.length - b.total) ∨
        (b.pbeg + out.length < b.total ∧ pbeg = b.pbeg + out.length) := by
      rw [hpbeg]
      split <;> omega
    have hlay : Layout { b with pbeg := pbeg } := by
      refine ⟨h.data_length, h.total_lt, h.total_pos, ?_, he, ?_⟩
      · show pbeg ≤ b.total
        omega
      · show pbeg = 0 → b.pend < b.total
        omega
    refine ⟨out, _, by rw [if_neg hr, hpeek, hpbeg]; rfl, hlay, ?_, rfl, rfl, rfl, rfl, rfl⟩
    have hafter := hlay.size_cases
    simp only at hafter
    omega

/-- The copy in `write` moves `_pend` only, and leaves the unread bytes before the end of
the array where they are. -/
theorem Layout.append (h : Layout b) (bs : List UInt8) (hfit : bs.length ≤ b.avail) :
    ∃ b', b.append bs = some b' ∧ Layout b' ∧ b'.size = b.size + bs.length ∧
      b'.pbeg = b.pbeg ∧ b'.total = b.total ∧ SameLocks b b' ∧
      ∀ n ≤ b.size, b.pbeg + n ≤ b.total → slice b'.data b.pbeg n = slice b.data b.pbeg n := by
  have hd := h.data_length
  have ht := h.total_lt
  have hb := h.pbeg_le
  have he := h.pend_le
  have hsize := h.size_cases
  have hlt := h.size_lt
  have ha := h.avail_eq
  have hbs : (bs.map some).length = bs.length := List.length_map some
  simp only [CycBuf.append, Option.bind_eq_bind]
  by_cases htail : bs.length ≤ b.total - b.pend
  · have hin : b.pend + (bs.map some).length ≤ b.data.length := by omega
    have hlay : Layout { b with
        data := splice b.data b.pend (bs.map some)
        pend := b.pend + bs.length } := by
      refine ⟨(length_splice hin).trans hd, ht, h.total_pos, hb, ?_, ?_⟩
      · show b.pend + bs.length ≤ b.total
        omega
      · show b.pbeg = 0 → b.pend + bs.length < b.total
        omega
    have hafter := hlay.size_cases
    simp only at hafter
    refine ⟨_, by rw [if_pos htail, copyIn_of_le hin]; rfl, hlay, by omega, rfl, rfl, ⟨rfl, rfl⟩,
      ?_⟩
    intro n hn hend
    -- The new cells start at `_pend`: behind the region, or before it when it wraps.
    cases Nat.lt_or_ge b.pend b.pbeg with
    | inl hwrap => exact slice_splice_of_ge hin (by omega)
    | inr hflat => exact slice_splice_of_le hin (by omega)
  · have htake : ((bs.take (b.total - b.pend)).map some).length = b.total - b.pend := by
      simp only [List.length_map, List.length_take]
      omega
    have hdrop : ((bs.drop (b.total - b.pend)).map some).length
        = bs.length - (b.total - b.pend) := by simp
    have hin₁ : b.pend + ((bs.take (b.total - b.pend)).map some).length ≤ b.data.length := by omega
    have hin₂ : 0 + ((bs.drop (b.total - b.pend)).map some).length
        ≤ (splice b.data b.pend ((bs.take (b.total - b.pend)).map some)).length := by
      rw [length_splice hin₁]
      omega
    have hlay : Layout { b with
        data := splice (splice b.data b.pend ((bs.take (b.total - b.pend)).map some)) 0
          ((bs.drop (b.total - b.pend)).map some)
        pend := bs.length - (b.total - b.pend) } := by
      refine ⟨(length_splice hin₂).trans ((length_splice hin₁).trans hd), ht, h.total_pos, hb, ?_,
        ?_⟩
      · show bs.length - (b.total - b.pend) ≤ b.total
        omega
      · show b.pbeg = 0 → bs.length - (b.total - b.pend) < b.total
        omega
    have hafter := hlay.size_cases
    simp only at hafter
    refine ⟨_, by rw [if_neg htail, copyIn_of_le hin₁, Option.bind_some, copyIn_of_le hin₂]; rfl,
      hlay, by omega, rfl, rfl, ⟨rfl, rfl⟩, ?_⟩
    intro n hn hend
    show slice (splice (splice b.data b.pend ((bs.take (b.total - b.pend)).map some)) 0
      ((bs.drop (b.total - b.pend)).map some)) b.pbeg n = _
    rw [slice_splice_of_ge hin₂ (by omega), slice_splice_of_le hin₁ (by omega)]

/-- Both branches of the copy in `reserve` store the unread bytes, in order, at the front
of the new array. -/
theorem InArray.copyUnread (h : InArray b) {pnew : Block UInt8} (hfit : b.size ≤ pnew.length) :
    b.copyUnread pnew = some (splice pnew 0 (unread b)) := by
  have hd := h.data_length
  have ht := h.total_lt
  have hb := h.pbeg_le
  have he := h.pend_le
  have hsize := h.size_cases
  simp only [CycBuf.copyUnread, Option.bind_eq_bind]
  by_cases hwrap : b.pbeg ≤ b.pend
  · have hlen : (slice b.data b.pbeg b.size).length = b.size := length_slice (by omega)
    have hin : 0 + (slice b.data b.pbeg b.size).length ≤ pnew.length := by omega
    have hcount : b.size = b.pend - b.pbeg := by omega
    rw [if_pos hwrap, copyOut_of_le (by omega), Option.bind_some, copyIn_of_le hin, unread,
      if_pos hwrap, hcount]
  · have hsub : szSub b.size (b.total - b.pbeg) = b.pend := by
      simp only [szSub]
      omega
    have hlen₁ : (slice b.data b.pbeg (b.total - b.pbeg)).length = b.total - b.pbeg :=
      length_slice (by omega)
    have hlen₂ : (slice b.data 0 b.pend).length = b.pend := length_slice (by omega)
    have hin₁ : 0 + (slice b.data b.pbeg (b.total - b.pbeg)).length ≤ pnew.length := by omega
    have hin₂ : b.total - b.pbeg + (slice b.data 0 b.pend).length
        ≤ (splice pnew 0 (slice b.data b.pbeg (b.total - b.pbeg))).length := by
      rw [length_splice hin₁]
      omega
    -- The second copy starts where the first one ends.
    have hjoin := splice_append pnew 0 (slice b.data b.pbeg (b.total - b.pbeg))
      (slice b.data 0 b.pend) hin₁
    rw [hlen₁, Nat.zero_add] at hjoin
    rw [if_neg hwrap, hsub, copyOut_of_le (by omega), Option.bind_some, copyIn_of_le hin₁,
      Option.bind_some, copyOut_of_le (by omega), Option.bind_some, copyIn_of_le hin₂, unread,
      if_neg hwrap, hjoin]

/-- `reserve` is refused on a locked buffer, and otherwise keeps the unread bytes and leaves
an array of at least the aligned size. -/
theorem Layout.reserve (h : Layout b) (n : Nat) :
    ∃ b', b.reserve n = some (!b.anyLocked, b') ∧ Layout b' ∧ b'.size = b.size ∧ SameLocks b b' ∧
      (b.anyLocked = true → b' = b) ∧
      (b.anyLocked = false → b'.total = max b.total (dwordAlign (szAdd n 1))) ∧
      (b'.total = b.total → b' = b) ∧ unread b' = unread b := by
  have hlt := h.size_lt
  have hpos := h.total_pos
  by_cases hlock : b.anyLocked = true
  · refine ⟨b, ?_, h, rfl, ⟨rfl, rfl⟩, fun _ => rfl, by simp [hlock], fun _ => rfl, rfl⟩
    simp only [CycBuf.reserve, hlock, if_true, Bool.not_true]
  · have hfree : b.anyLocked = false := by simpa using hlock
    by_cases hn : dwordAlign (szAdd n 1) ≤ b.total
    · refine ⟨b, ?_, h, rfl, ⟨rfl, rfl⟩, fun _ => rfl, fun _ => by omega, fun _ => rfl, rfl⟩
      simp only [CycBuf.reserve, hfree, Bool.false_eq_true, if_false, if_pos hn, Bool.not_false]
    · have hbig : dwordAlign (szAdd n 1) < 2 ^ 64 := by
        simp only [dwordAlign, szAdd]
        omega
      have hfit : b.size ≤ (alloc (dwordAlign (szAdd n 1)) : Block UInt8).length := by
        rw [length_alloc]
        omega
      -- A growth: the unread bytes move to the front of the new array.
      have hcopy := h.inArray.copyUnread hfit
      have hin : 0 + (unread b).length ≤ (alloc (dwordAlign (szAdd n 1)) : Block UInt8).length := by
        rw [h.inArray.length_unread, Nat.zero_add]
        exact hfit
      have hlen := (length_splice hin).trans (length_alloc _)
      obtain ⟨hlay, hsize⟩ := layout_of_pointers (r := b.rlocked) (w := b.wlocked) hlen hbig
        (Nat.zero_le b.size) (by omega) (by omega)
      rw [Nat.sub_zero] at hsize
      refine ⟨_, ?_, hlay, hsize, ⟨rfl, rfl⟩, by simp [hfree], ?_, ?_, ?_⟩
      · simp only [CycBuf.reserve, hfree, Bool.false_eq_true, if_false, if_neg hn, Bool.not_false,
          hcopy]
        rfl
      · intro _
        show dwordAlign (szAdd n 1) = _
        omega
      · intro htotal
        exact absurd htotal (by show dwordAlign (szAdd n 1) ≠ b.total; omega)
      · have hself := slice_splice_self hin
        rw [h.inArray.length_unread] at hself
        rw [unread_of_pbeg_zero rfl]
        exact hself

/-- A growth of an unlocked buffer whose request fits `size_t` makes room for the missing
bytes. -/
theorem Layout.grow (h : Layout b) {inc : Nat} (hfree : b.anyLocked = false)
    (hfit : GrowthFits b inc) :
    ∃ b', b.grow inc = some b' ∧ Layout b' ∧ b'.size = b.size ∧ SameLocks b b' ∧
      b.total + inc ≤ b'.total ∧ unread b' = unread b := by
  have hpos := h.total_pos
  have hc := h.capacity_eq
  obtain ⟨b', hrun, hlay, hsize, hlocks, -, htotal, -, hunread⟩ :=
    h.reserve (growSize b.capacity inc)
  refine ⟨b', by rw [CycBuf.grow, hrun]; rfl, hlay, hsize, hlocks, ?_, hunread⟩
  have halign : dwordAlign (szAdd (growSize b.capacity inc) 1)
      = (b.capacity + max inc (b.capacity / 2) + 4) / 4 * 4 := by
    simp only [GrowthFits] at hfit
    simp only [dwordAlign, growSize, szAdd]
    omega
  have hnew := htotal hfree
  omega

end

end Mylib.Proofs.Comm
