import Mylib.Proofs.Protocol.PacketWrites
import Mylib.Spec.File.FileUtil

/-!
# `Mylib.Proofs.File.WriteLoop`: when `WriteFileDescriptor` returns

The loop goes on while the last write was shorter than the whole data. So it ends after a first
write that takes everything (`writesAll_full`). After a shorter one every request is smaller
than the data, and so is every answer, even when nothing is left to write: the loop never ends
(`writeLoop_running`).

`writesAll_iff` puts this together.
-/

set_option autoImplicit false

namespace Mylib.Proofs.File

open Mylib.Proofs.Protocol (int32_of_lt sizeT_of_nonneg)
open Mylib.Spec.File
open Mylib.Spec.Protocol (Str int32 sizeT)

/-- A `write` that may be short but does not fail. -/
structure Short (write : Writes) : Prop where
  positive : ∀ call request, 0 < request → 1 ≤ write call request ∧ write call request ≤ request
  zero : ∀ call, write call 0 = 0

/-- What is promised: the loop ends, with all bytes written once and in order. -/
def WritesAll (write : Writes) (data : Str) : Prop :=
  ∃ fuel, writeFileDescriptor write fuel data = some ((data.length : Int), data)

variable {write : Writes} {data : Str}

/-- An answer is between zero and the request. -/
theorem Short.bounds (hwrite : Short write) (call request : Nat) :
    0 ≤ write call request ∧ write call request ≤ request := by
  rcases Nat.eq_zero_or_pos request with rfl | hpos
  · rw [hwrite.zero call]
    exact ⟨le_rfl, le_rfl⟩
  · have hbounds := hwrite.positive call request hpos
    omega

/-- The size of a request is kept by the conversion. -/
theorem sizeT_sub {size total : Int} (htotal : 0 ≤ total) (hle : total ≤ size)
    (hsize : size < 2 ^ 31) : (sizeT (size - total) : Int) = size - total := by
  rw [sizeT_of_nonneg (by omega) (by omega)]
  exact Int.toNat_of_nonneg (by omega)

/-- After a short write, every request is smaller than the data. -/
theorem writeLoop_running (hwrite : Short write) {size : Int} (hsize : size < 2 ^ 31)
    {fuel call : Nat} {last total : Int} (hlast : last < size) (hpos : 1 ≤ total)
    (hle : total ≤ size) (file : Str) :
    writeLoop write data size fuel call last total file = none := by
  induction fuel generalizing call last total file with
  | zero => rfl
  | succ fuel ih =>
    have hrequest := sizeT_sub (by omega) hle hsize
    -- The answer is at most the request, which is smaller than the data.
    obtain ⟨hlow, hhigh⟩ := hwrite.bounds call (sizeT (size - total))
    rw [hrequest] at hhigh
    rw [writeLoop, if_pos hlast]
    dsimp only
    rw [if_neg (not_lt.mpr hlow)]
    exact ih (by omega) (by omega) (by omega) _

/-- The first round. -/
theorem writeFileDescriptor_first (hwrite : Short write) (hne : data ≠ [])
    (hlen : data.length < 2 ^ 31) (fuel : Nat) :
    writeFileDescriptor write (fuel + 1) data
      = writeLoop write data data.length fuel 1 (write 0 data.length) (write 0 data.length)
        (data.take (write 0 data.length).toNat) := by
  have hpos : 0 < data.length := List.length_pos_iff.mpr hne
  have hrequest : sizeT ((data.length : Int) - 0) = data.length :=
    Int.ofNat_inj.mp ((sizeT_sub le_rfl (Int.natCast_nonneg _) (by omega)).trans (sub_zero _))
  have hlow := (hwrite.bounds 0 data.length).1
  rw [writeFileDescriptor, writeLoop, if_pos (by omega)]
  dsimp only
  rw [hrequest, if_neg (not_lt.mpr hlow), zero_add (write 0 data.length)]
  rfl

/-- A first write that takes everything is the last one. -/
theorem writesAll_full (hwrite : Short write) (hlen : data.length < 2 ^ 31) (hne : data ≠ [])
    (hfirst : write 0 data.length = data.length) : WritesAll write data := by
  have hresult : int32 (data.length : Int) = data.length :=
    int32_of_lt (Int.natCast_nonneg _) (by omega)
  -- The second round only sees that the first one has written everything.
  refine ⟨2, ?_⟩
  rw [writeFileDescriptor_first hwrite hne hlen, hfirst, writeLoop, if_neg (lt_irrefl _), hresult,
    Int.toNat_natCast, List.take_length]

/-- After a short first write there is no number of rounds that suffices. -/
theorem not_writesAll_short (hwrite : Short write) (hlen : data.length < 2 ^ 31) (hne : data ≠ [])
    (hfirst : write 0 data.length ≠ data.length) : ¬ WritesAll write data := by
  rintro ⟨fuel, hloop⟩
  cases fuel with
  | zero => cases hloop
  | succ fuel =>
    -- Something was written, so no request is as large as the data again.
    have hbounds := hwrite.positive 0 data.length (List.length_pos_iff.mpr hne)
    rw [writeFileDescriptor_first hwrite hne hlen,
      writeLoop_running hwrite (by omega) (by omega) hbounds.1 hbounds.2] at hloop
    cases hloop

/-- **All bytes are written exactly if** there are none or the first `write` takes all of them. -/
theorem writesAll_iff (hwrite : Short write) (hlen : data.length < 2 ^ 31) :
    WritesAll write data ↔ data = [] ∨ write 0 data.length = data.length := by
  by_cases hne : data = []
  · subst hne
    exact iff_of_true ⟨1, rfl⟩ (.inl rfl)
  · rw [or_iff_right hne]
    constructor
    · intro hall
      by_contra hfirst
      exact not_writesAll_short hwrite hlen hne hfirst hall
    · exact writesAll_full hwrite hlen hne

/-! ### Two answers -/

/-- Everything is taken at once. -/
def whole : Writes := fun _ request => request

/-- A `write` that takes everything. -/
theorem short_whole : Short whole where
  positive _ _ hpos := ⟨Int.natCast_pos.mpr hpos, le_rfl⟩
  zero _ := rfl

/-- With a `write` that takes everything, all bytes are written. -/
theorem writesAll_whole : Short whole ∧ WritesAll whole [1, 2, 3] :=
  ⟨short_whole, (writesAll_iff short_whole (by decide)).mpr (.inr rfl)⟩

/-- One byte at a time. -/
def single : Writes := fun _ request => (min 1 request : Nat)

/-- A `write` that takes a byte at a time. -/
theorem short_single : Short single where
  positive _ request hpos := by
    show 1 ≤ ((min 1 request : Nat) : Int) ∧ ((min 1 request : Nat) : Int) ≤ request
    omega
  zero _ := rfl

/-- The first of two bytes is taken alone. -/
theorem not_writesAll_single : Short single ∧ ¬ WritesAll single [1, 2] :=
  ⟨short_single, not_writesAll_short short_single (by decide) (by simp) (by decide)⟩

end Mylib.Proofs.File
