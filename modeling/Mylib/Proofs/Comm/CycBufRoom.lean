import Mylib.Proofs.Comm.CycBufRegions

/-!
# `Mylib.Proofs.Comm.CycBufRoom`: the room that `wlock` promises

`wlock(len)` counts the free bytes, grows the array when they are too few, and calls
`_repos` when they do not lie in one piece behind `_pend`. The sum in `_grow` is a
`size_t`: when the unread bytes and `len` come near to `2 ^ 64`, it wraps, nothing
grows, and the pointer is returned all the same.

* `Layout.wlock_returns`: `wlock` on an unlocked buffer returns a pointer and keeps the
  unread bytes.
* `givesRoom_iff`: it points to `len` free bytes exactly when that sum does not wrap.
-/

set_option autoImplicit false

namespace Mylib.Proofs.Comm

open Mylib.Lib.Memory
open Mylib.Spec.Comm

/-- The promise of `wlock(len)`: a pointer to `len` cells of the array, none of which
holds an unread byte, and the unread bytes are the same as before. -/
def GivesRoom (b : ElasticBuf) (len : Nat) : Prop :=
  ∃ p b', b.wlock len = some (some (p, len), b') ∧
    (p.array = b'.array ∧ p.off + len ≤ b'.buf.total) ∧
    (∀ i, p.off ≤ i → i < p.off + len → ¬ Unread b'.buf i) ∧
    unread b'.buf = unread b.buf

/-- The size of the array after the growth in `wlock(len)`. -/
def grownTotal (b : CycBuf) (len : Nat) : Nat :=
  if b.avail < len then
    max b.total (dwordAlign (szAdd (growSize b.capacity (szSub len b.avail)) 1))
  else b.total

section
variable {b : ElasticBuf}

/-! ### `wlock` returns and keeps the bytes -/

/-- Making room grows the array or does nothing, and keeps what is unread. -/
theorem Layout.makeRoom_returns (h : Layout b.buf) (hfree : b.buf.anyLocked = false) (len : Nat) :
    ∃ b', b.makeRoom len = some b' ∧ Layout b'.buf ∧ unread b'.buf = unread b.buf ∧
      b'.buf.total = grownTotal b.buf len := by
  by_cases hfew : b.buf.avail < len
  · obtain ⟨buf', hrun, hlay, -, -, -, htotal, -, hunread⟩ :=
      h.reserve (growSize b.buf.capacity (szSub len b.buf.avail))
    refine ⟨b.after buf', ?_, hlay, hunread, ?_⟩
    · rw [ElasticBuf.makeRoom, if_pos hfew, CycBuf.grow, hrun]
      rfl
    · rw [grownTotal, if_pos hfew]
      exact htotal hfree
  · refine ⟨b, if_neg hfew, h, rfl, ?_⟩
    rw [grownTotal, if_neg hfew]

/-- The free part is put in one piece if it is not, without growing. -/
theorem Layout.onePiece_returns (h : Layout b.buf) (room len : Nat) :
    ∃ b', b.onePiece room len = some b' ∧ Layout b'.buf ∧ unread b'.buf = unread b.buf ∧
      b'.buf.total = b.buf.total := by
  by_cases hshort : room < len
  · obtain ⟨array', buf', hrun, hreposed⟩ := h.inArray.repos b.array
    exact ⟨⟨array', buf'⟩, (if_pos hshort).trans (hrun 0), (hreposed.placed h).layout,
      hreposed.unread_eq, hreposed.total_eq⟩
  · exact ⟨b, if_neg hshort, h, rfl, rfl⟩

/-- `wlock` on an unlocked buffer returns `_pend`, and the unread bytes are the same. -/
theorem Layout.wlock_returns (h : Layout b.buf) (hfree : b.buf.anyLocked = false) (len : Nat) :
    ∃ b' : ElasticBuf, b.wlock len = some (some (⟨b'.array, b'.buf.pend⟩, len),
        { b' with buf := { b'.buf with wlocked := true } }) ∧
      Layout b'.buf ∧ unread b'.buf = unread b.buf ∧ b'.buf.total = grownTotal b.buf len := by
  have hopen : ¬ b.buf.wlocked = true := by
    intro hw
    simp [CycBuf.anyLocked, hw] at hfree
  obtain ⟨b₁, hmake, hlay₁, hunread₁, htotal₁⟩ := h.makeRoom_returns hfree len
  obtain ⟨b₂, hpiece, hlay₂, hunread₂, htotal₂⟩ :=
    hlay₁.onePiece_returns (b₁.buf.total - b₁.buf.pend) len
  refine ⟨b₂, ?_, hlay₂, hunread₂.trans hunread₁, htotal₂.trans htotal₁⟩
  rw [ElasticBuf.wlock, if_neg hopen, hmake, Option.bind_eq_bind, Option.bind_some, hpiece]
  rfl

/-! ### When the growth is large enough -/

/-- The request of the growth fits when the unread bytes and `len` do. The half of an array
that exists is never too much. -/
theorem Layout.growthFits (h : Layout b.buf) (hreal : b.buf.total < 2 ^ 63) {len : Nat}
    (hfit : b.buf.size + len + 4 < 2 ^ 64) : GrowthFits b.buf (len - b.buf.avail) := by
  have hlt := h.size_lt
  rw [GrowthFits, h.capacity_eq, h.avail_eq]
  omega

/-- A sum that wraps asks for an array that is hardly larger than the old one, if at all. -/
theorem wrapped_request_le {cap inc : Nat} (hcap : cap < 2 ^ 63) (hinc : inc < 2 ^ 64)
    (hwrap : 2 ^ 64 ≤ cap + inc + 4) :
    dwordAlign (szAdd (growSize cap inc) 1) ≤ cap + 4 := by
  have hmax : max inc (cap / 2) = inc := by omega
  rw [growSize, hmax]
  obtain ⟨sum, hsum⟩ : ∃ sum, sum = szAdd cap inc := ⟨_, rfl⟩
  have hcases : (2 ^ 64 ≤ sum + 4 ∧ sum < 2 ^ 64) ∨ sum < cap := by
    rw [hsum]
    simp only [szAdd]
    omega
  rw [← hsum]
  simp only [dwordAlign, szAdd]
  omega

/-- Where the sum wraps, the array grows by less than was asked for. -/
theorem Layout.grownTotal_le (h : Layout b.buf) (hreal : b.buf.total < 2 ^ 63) {len : Nat}
    (hlen : len < 2 ^ 64) (hwrap : 2 ^ 64 ≤ b.buf.size + len + 4) :
    grownTotal b.buf len ≤ b.buf.total + 3 := by
  have hlt := h.size_lt
  have ha := h.avail_eq
  have hc := h.capacity_eq
  have hsub : szSub len b.buf.avail = len - b.buf.avail := by
    simp only [szSub]
    omega
  have hrequest := @wrapped_request_le b.buf.capacity (len - b.buf.avail) (by omega) (by omega)
    (by omega)
  rw [grownTotal, if_pos (by omega), hsub]
  omega

/-- Free cells behind `_pend`, in one piece, are as many as the unread bytes leave. -/
theorem Layout.size_add_le (h : Layout b.buf) {len : Nat}
    (hin : b.buf.pend + len ≤ b.buf.total)
    (hfree : ∀ i, b.buf.pend ≤ i → i < b.buf.pend + len → ¬ Unread b.buf i) :
    b.buf.size + len ≤ b.buf.total := by
  rcases h.size_cases with ⟨hflat, hsize⟩ | ⟨hwrap, hsize⟩
  · omega
  · -- The first unread byte is at `_pbeg`, so the free cells end there at the latest.
    by_contra hmore
    refine hfree b.buf.pbeg (by omega) (by omega) ?_
    have hb := h.pbeg_le
    rw [Unread, if_neg (by omega)]
    omega

/-! ### The exact condition -/

/-- On an unlocked buffer, `wlock(len)` gives the room it promises exactly when the unread
bytes and the `len` new ones, with the free byte and the alignment, fit into `size_t`. An
array of `char` is shorter than `2 ^ 63`. -/
theorem givesRoom_iff (h : Layout b.buf) (hfree : b.buf.anyLocked = false)
    (hreal : b.buf.total < 2 ^ 63) {len : Nat} (hlen : len < 2 ^ 64) :
    GivesRoom b len ↔ b.buf.size + len + 4 < 2 ^ 64 := by
  obtain ⟨b', hrun, hlay, hunread, htotal⟩ := h.wlock_returns hfree len
  have hlocks : b.buf.wlocked = false ∧ b.buf.rlocked = false := by
    simpa [CycBuf.anyLocked] using hfree
  constructor
  · rintro ⟨p, b'', hrun', ⟨-, hin⟩, hdisjoint, -⟩
    rw [hrun] at hrun'
    cases hrun'
    -- Past `size_t` the request wraps, and the array it gets is too small for the region.
    by_contra hwrap
    have hlt := h.size_lt
    have hsame : b'.buf.size = b.buf.size := by
      rw [← hlay.inArray.length_unread, ← h.inArray.length_unread, hunread]
    have hgrown := h.grownTotal_le hreal hlen (Nat.not_lt.mp hwrap)
    have hle := hlay.size_add_le hin hdisjoint
    omega
  · intro hfit
    have hok : RegionStepOk b (.wlock len) := by
      intro _
      exact ⟨fun _ => ⟨hlocks.2, h.growthFits hreal hfit⟩, by simp [hlocks.2]⟩
    obtain ⟨r, b'', hrun', -, hregion⟩ := h.wlock len hok
    rw [hrun] at hrun'
    cases hrun'
    have hwrite := hregion _ _ rfl
    exact ⟨_, _, hrun, ⟨rfl, hwrite.inside⟩,
      fun i hi hi' => hwrite.not_unread (hlay.set_locks _ _) hi hi', hunread⟩

end

/-- Five bytes asked of a fresh buffer of size 3. -/
theorem givesRoom_growing : GivesRoom (ElasticBuf.elasticBuf 3) 5 :=
  (givesRoom_iff (layout_cycBuf (by decide)) rfl (by decide) (by decide)).mpr (by decide)

/-- `2 ^ 64 - 1` bytes asked of a fresh buffer of size 3: the array of 4 bytes stays, and
the pointer to its start is returned. -/
theorem not_givesRoom_max : ¬ GivesRoom (ElasticBuf.elasticBuf 3) (2 ^ 64 - 1) := by
  rintro ⟨p, b', hrun, ⟨-, hin⟩, -, -⟩
  have hrun' : (ElasticBuf.elasticBuf 3).wlock (2 ^ 64 - 1)
      = some (some (⟨0, 0⟩, 2 ^ 64 - 1), ⟨0, ⟨alloc 4, 4, 0, 0, false, true⟩⟩) := by decide
  rw [hrun'] at hrun
  cases hrun
  exact absurd hin (by decide)

end Mylib.Proofs.Comm
