import Mylib.Spec.Protocol.DataPacket

/-!
# `Mylib.Proofs.Protocol.PacketWrites`: a packet under construction

`Holds s bytes` says that the packet holds the bytes written so far, inside a block of
`buffer_length_` bytes. Each writer keeps it where its bytes fit or the buffer can
grow (`writeWord_holds`, `writeData_holds`, `writeString_holds`).

`WriteString` tests for one byte less than it stores. A string that ends in the last
byte of the buffer is therefore written with its terminator behind the end
(`writeString_overruns`). A run of calls writes inside the buffer when no call meets
that case and none grows the buffer past `2 ^ 31` (`writesInside_of_runOk`).
-/

set_option autoImplicit false

namespace Mylib.Proofs.Protocol

open Mylib.Lib.ByteOrder
open Mylib.Lib.Memory
open Mylib.Spec.Protocol
open DataOutPacket

/-! ### Machine integers -/

/-- A length in range survives the cast to `int32`. -/
theorem int32_of_lt {x : Int} (h₀ : 0 ≤ x) (h : x < 2 ^ 31) : int32 x = x := by
  rw [int32, Int.bmod_eq_of_le] <;> omega

/-- A length that is not negative survives the cast to `size_t`. -/
theorem sizeT_of_nonneg {x : Int} (h₀ : 0 ≤ x) (h : x < 2 ^ 64) : sizeT x = x.toNat := by
  rw [sizeT, Int.emod_eq_of_lt h₀ h]

/-- The new length of a buffer that is to hold `size` bytes, in the arithmetic of the
word writers and of `WriteData`. -/
theorem doubled_of_lt {size : Nat} (h : size < 2 ^ 30) :
    int32 (int32 (size : Int) * 2) = 2 * size := by
  rw [int32_of_lt (x := (size : Int)) (by omega) (by omega), int32_of_lt (by omega) (by omega)]
  omega

/-- The same in the arithmetic of `WriteString`. -/
theorem doubled_unsigned_of_lt {size : Nat} (h : size < 2 ^ 30) :
    int32 ((size % 2 ^ 32 * 2 % 2 ^ 32 : Nat) : Int) = 2 * size := by
  have hmod : size % 2 ^ 32 * 2 % 2 ^ 32 = size * 2 := by omega
  rw [hmod, int32_of_lt (by omega) (by omega)]
  omega

/-! ### The invariant -/

/-- The packet holds `bytes`, in a block of `buffer_length_` bytes. -/
structure Holds (s : DataOutPacket) (bytes : List UInt8) : Prop where
  block : ∃ block, s.buffer = some block ∧ (block.length : Int) = s.bufferLength ∧
    block.take s.cursor = bytes.map some
  cursor_eq : s.cursor = bytes.length
  cursor_le : (s.cursor : Int) ≤ s.bufferLength
  bounded : s.bufferLength < 2 ^ 31

section

variable {s : DataOutPacket} {bytes : List UInt8}

/-- The length of the buffer is not negative. -/
theorem Holds.sizeT_eq (h : Holds s bytes) : (sizeT s.bufferLength : Int) = s.bufferLength := by
  have hle := h.cursor_le
  have hlt := h.bounded
  rw [sizeT_of_nonneg (by omega) (by omega)]
  omega

/-- The length of the packet is what was written. -/
theorem Holds.getLength_eq (h : Holds s bytes) : s.getLength = bytes.length := by
  have hle := h.cursor_le
  have hlt := h.bounded
  rw [getLength, int32_of_lt (by omega) (by omega), h.cursor_eq]

/-- A new packet has a buffer of the length it is given and nothing in it. -/
theorem dataOutPacket_holds {len : Int} (h₀ : 0 ≤ len) (h : len < 2 ^ 31) :
    ∃ s, dataOutPacket len = some s ∧ Holds s [] ∧ s.bufferLength = len := by
  rw [dataOutPacket, if_pos h₀]
  refine ⟨_, rfl, ⟨⟨_, rfl, ?_, rfl⟩, rfl, h₀, h⟩, rfl⟩
  rw [List.length_replicate]
  exact Int.toNat_of_nonneg h₀

/-- Stores that fit. -/
theorem put_holds (new : List UInt8) (h : Holds s bytes)
    (hroom : (s.cursor + new.length : Int) ≤ s.bufferLength) :
    ∃ s', s.put new = some s' ∧ Holds s' (bytes ++ new) ∧ s'.bufferLength = s.bufferLength := by
  obtain ⟨block, hblock, hlength, htake⟩ := h.block
  -- The room is counted against `bufferLength`, which the allocated block covers.
  have hfits : s.cursor + (new.map some).length ≤ block.length := by
    rw [List.length_map]
    omega
  unfold put
  rw [hblock]
  show ∃ s', (copyIn block s.cursor (new.map some)).bind _ = some s' ∧ _
  rw [copyIn_of_le hfits]
  refine ⟨_, rfl, ⟨⟨_, rfl, ?_, ?_⟩, ?_, ?_, h.bounded⟩, rfl⟩
  · rw [length_splice hfits]
    exact hlength
  · -- The cells before the cursor are the old ones, then come the new ones.
    show (splice block s.cursor (new.map some)).take (s.cursor + new.length) = _
    have htotal : (block.take s.cursor ++ new.map some).length = s.cursor + new.length := by
      rw [List.length_append, List.length_take, List.length_map]
      rw [List.length_map] at hfits
      omega
    rw [splice, ← htotal, List.take_left, htake, List.map_append]
  · show s.cursor + new.length = (bytes ++ new).length
    rw [List.length_append, h.cursor_eq]
  · show ((s.cursor + new.length : Nat) : Int) ≤ s.bufferLength
    omega

/-- Stores that do not fit. -/
theorem put_overruns {new : List UInt8} (h : Holds s bytes)
    (hroom : s.bufferLength < (s.cursor + new.length : Int)) : s.put new = none := by
  obtain ⟨block, hblock, hlength, -⟩ := h.block
  have hleaves : ¬s.cursor + (new.map some).length ≤ block.length := by
    rw [List.length_map]
    omega
  unfold put
  rw [hblock]
  show (copyIn block s.cursor (new.map some)).bind _ = none
  rw [copyIn, if_neg hleaves]
  rfl

/-- A buffer that grows keeps what it holds. -/
theorem growThen_holds (newLength : Int) (h : Holds s bytes) (hmore : s.bufferLength ≤ newLength)
    (hpos : 0 < newLength) (hbound : newLength < 2 ^ 31)
    (rest : DataOutPacket → Option DataOutPacket) :
    ∃ s', s.growThen newLength rest = rest s' ∧ Holds s' bytes ∧ s'.bufferLength = newLength ∧
      s'.cursor = s.cursor := by
  obtain ⟨block, hblock, hlength, htake⟩ := h.block
  have hle := h.cursor_le
  -- `realloc` keeps the old block in front, since the new one is no smaller.
  have hkept : block.take newLength.toNat = block := List.take_of_length_le (by omega)
  have hgrown : realloc s.buffer newLength
      = some (block ++ alloc (newLength.toNat - block.length)) := by
    rw [realloc, if_pos hpos, hblock]
    show some (block.take newLength.toNat ++ _) = _
    rw [hkept]
    rfl
  unfold growThen
  rw [hgrown]
  refine ⟨_, rfl, ⟨⟨_, rfl, ?_, ?_⟩, h.cursor_eq, by show (s.cursor : Int) ≤ newLength; omega,
    hbound⟩, rfl, rfl⟩
  · rw [List.length_append, length_alloc]
    show ((block.length + (newLength.toNat - block.length) : Nat) : Int) = newLength
    omega
  · show (block ++ _).take s.cursor = _
    rw [List.take_append_of_le_length (by omega), htake]

/-- A buffer that grows to twice what `new` needs takes it. -/
theorem growThen_put_holds (new : List UInt8) (h : Holds s bytes)
    (hgrow : s.bufferLength < (s.cursor + new.length : Nat))
    (hsmall : s.cursor + new.length < 2 ^ 30) :
    ∃ s', s.growThen (2 * (s.cursor + new.length : Nat)) (fun self => self.put new) = some s' ∧
      Holds s' (bytes ++ new) ∧ s'.bufferLength = 2 * (s.cursor + new.length : Nat) := by
  have hle := h.cursor_le
  obtain ⟨s₁, hcall, h₁, hlength, hcursor⟩ := growThen_holds (2 * (s.cursor + new.length : Nat)) h
    (by omega) (by omega) (by omega) fun self => self.put new
  obtain ⟨s₂, hput, h₂, hlength'⟩ := put_holds new h₁ (by omega)
  exact ⟨s₂, hcall.trans hput, h₂, hlength'.trans hlength⟩

/-! ### The writers -/

/-- The length of a buffer of length `cap` behind a write that tests for `size` bytes. -/
def grown (cap : Int) (size : Nat) : Int := if cap < size then 2 * size else cap

/-- The tested bytes fit, or the doubled size is an `int32`. -/
def Roomy (s : DataOutPacket) (need : Nat) : Prop :=
  ((s.cursor + need : Nat) : Int) ≤ s.bufferLength ∨ s.cursor + need < 2 ^ 30

/-- A word is written behind what is there; the buffer grows if it has to. -/
theorem writeWord_holds (size n : Nat) (h : Holds s bytes) (hroom : Roomy s size) :
    ∃ s', writeWord size n s = some s' ∧ Holds s' (bytes ++ wordBytes size n) ∧
      s'.bufferLength = grown s.bufferLength (s.cursor + size) := by
  have hcap := h.sizeT_eq
  have hlength : (wordBytes size n).length = size := length_wordBytes size n
  unfold writeWord grown
  by_cases hgrow : s.bufferLength < ((s.cursor + size : Nat) : Int)
  · have hsmall : s.cursor + size < 2 ^ 30 := hroom.resolve_left (by omega)
    rw [if_pos hgrow]
    rw [if_pos (by omega), doubled_of_lt hsmall]
    have hstored := growThen_put_holds (wordBytes size n) h
    rw [hlength] at hstored
    exact hstored hgrow hsmall
  · rw [if_neg hgrow]
    rw [if_neg (by omega)]
    exact put_holds _ h (by omega)

/-- So are bytes. -/
theorem writeData_holds (buf : List UInt8) (h : Holds s bytes) (hroom : Roomy s buf.length) :
    ∃ s', writeData buf s = some s' ∧ Holds s' (bytes ++ buf) ∧
      s'.bufferLength = grown s.bufferLength (s.cursor + buf.length) := by
  unfold writeData grown
  by_cases hgrow : s.bufferLength < ((s.cursor + buf.length : Nat) : Int)
  · have hsmall : s.cursor + buf.length < 2 ^ 30 := hroom.resolve_left (by omega)
    rw [if_pos hgrow, if_pos hgrow, doubled_of_lt hsmall]
    exact growThen_put_holds buf h hgrow hsmall
  · rw [if_neg hgrow, if_neg hgrow]
    exact put_holds buf h (by omega)

/-- What `WriteString` stores: the count of its bytes and the terminator, the bytes, the
terminator. -/
def stringBytes (str : List UInt8) : List UInt8 :=
  wordBytes 4 (UInt32.ofNat (htonl (str.length + 1))).toNat ++ (str ++ [0])

/-- A string takes its bytes, four for its length and one for the terminator. -/
theorem length_stringBytes (str : List UInt8) : (stringBytes str).length = str.length + 5 := by
  rw [stringBytes, List.length_append, length_wordBytes, List.length_append]
  exact Nat.add_comm 4 _

/-- The stores of `WriteString` into a buffer with room for the terminator too. -/
theorem storeString_holds (str : List UInt8) (h : Holds s bytes)
    (hroom : ((s.cursor + str.length + 5 : Nat) : Int) ≤ s.bufferLength) :
    ∃ s', (s.write32 (UInt32.ofNat (htonl (str.length + 1)))).bind
        (fun self => self.put (str ++ [0])) = some s' ∧
      Holds s' (bytes ++ stringBytes str) ∧ s'.bufferLength = s.bufferLength := by
  obtain ⟨s₁, hcount, h₁, hlength⟩ := writeWord_holds 4
    (UInt32.ofNat (htonl (str.length + 1))).toNat h (Or.inl (by omega))
  have hcursor : s₁.cursor = s.cursor + 4 := by
    rw [h₁.cursor_eq, List.length_append, length_wordBytes, h.cursor_eq]
  rw [grown, if_neg (by omega)] at hlength
  obtain ⟨s₂, hput, h₂, hlength'⟩ := put_holds (str ++ [0]) h₁ (by
    rw [List.length_append, List.length_singleton]
    omega)
  refine ⟨s₂, ?_, ?_, hlength'.trans hlength⟩
  · unfold write32
    rw [hcount]
    exact hput
  · rw [stringBytes, ← List.append_assoc]
    exact h₂

/-- So is a string, unless its length and bytes end exactly at the end: its terminator is not tested
for. -/
theorem writeString_holds (str : List UInt8) (h : Holds s bytes) (hroom : Roomy s (str.length + 4))
    (hexact : ((s.cursor + (str.length + 4) : Nat) : Int) ≠ s.bufferLength) :
    ∃ s', writeString str s = some s' ∧ Holds s' (bytes ++ stringBytes str) ∧
      s'.bufferLength = grown s.bufferLength (s.cursor + (str.length + 4)) := by
  have hcap := h.sizeT_eq
  unfold writeString grown
  by_cases hgrow : s.bufferLength < ((s.cursor + (str.length + 4) : Nat) : Int)
  · have hsmall : s.cursor + (str.length + 4) < 2 ^ 30 := hroom.resolve_left (by omega)
    have hle := h.cursor_le
    rw [if_pos hgrow]
    rw [if_pos (by omega), Nat.add_assoc, doubled_unsigned_of_lt hsmall]
    obtain ⟨s₁, hcall, h₁, hlength, hcursor⟩ := growThen_holds
      (2 * (s.cursor + (str.length + 4) : Nat)) h (by omega) (by omega) (by omega) fun self =>
        (self.write32 (UInt32.ofNat (htonl (str.length + 1)))).bind fun self =>
          self.put (str ++ [0])
    obtain ⟨s₂, hstore, h₂, hlength'⟩ := storeString_holds str h₁ (by omega)
    exact ⟨s₂, hcall.trans hstore, h₂, hlength'.trans hlength⟩
  · rw [if_neg hgrow]
    rw [if_neg (by omega)]
    exact storeString_holds str h (by omega)

/-- A string whose count and bytes fill the buffer to its end: the terminator is stored
behind the end. -/
theorem writeString_overruns (str : List UInt8) (h : Holds s bytes)
    (hexact : ((s.cursor + (str.length + 4) : Nat) : Int) = s.bufferLength) :
    writeString str s = none := by
  have hcap := h.sizeT_eq
  unfold writeString
  rw [if_neg (by omega)]
  obtain ⟨s₁, hcount, h₁, hlength⟩ := writeWord_holds 4
    (UInt32.ofNat (htonl (str.length + 1))).toNat h (Or.inl (by omega))
  have hcursor : s₁.cursor = s.cursor + 4 := by
    rw [h₁.cursor_eq, List.length_append, length_wordBytes, h.cursor_eq]
  rw [grown, if_neg (by omega)] at hlength
  show (s.write32 _).bind _ = none
  unfold write32
  rw [hcount]
  refine put_overruns h₁ ?_
  rw [List.length_append, List.length_singleton]
  omega

end

/-! ### Runs of writers -/

/-- The writers, each with what it is given. -/
inductive Call where
  | write8 (b : UInt8)
  | write16 (w : UInt16)
  | write32 (dw : UInt32)
  | write64 (lw : UInt64)
  | writeData (buf : List UInt8)
  | writeString (str : List UInt8)
  deriving DecidableEq, Repr

namespace Call

def apply (s : DataOutPacket) : Call → Option DataOutPacket
  | write8 b => s.write8 b
  | write16 w => s.write16 w
  | write32 dw => s.write32 dw
  | write64 lw => s.write64 lw
  | writeData buf => s.writeData buf
  | writeString str => s.writeString str

/-- The bytes a call is to write. -/
def bytes : Call → List UInt8
  | write8 b => wordBytes 1 b.toNat
  | write16 w => wordBytes 2 w.toNat
  | write32 dw => wordBytes 4 dw.toNat
  | write64 lw => wordBytes 8 lw.toNat
  | writeData buf => buf
  | writeString str => stringBytes str

/-- The bytes a call tests for. -/
def tested : Call → Nat
  | writeString str => str.length + 4
  | call => call.bytes.length

/-- The call does not grow the buffer to `2 ^ 31` bytes or more, and is no `WriteString`
whose count and bytes end where the buffer ends. -/
def Ok (s : DataOutPacket) (call : Call) : Prop :=
  Roomy s call.tested ∧
    ∀ str, call = writeString str → ((s.cursor + (str.length + 4) : Nat) : Int) ≠ s.bufferLength

end Call

/-- Every step of the run is made in a state that allows it. -/
def RunOk : DataOutPacket → List Call → Prop
  | _, [] => True
  | s, call :: calls => call.Ok s ∧ ∀ s', call.apply s = some s' → RunOk s' calls

/-- Every call returns, so every byte is stored inside the block. The block has
`buffer_length_` bytes, the packet holds what has been written, and `GetLength` counts
it. -/
def WritesInside (written : List UInt8) : DataOutPacket → List Call → Prop
  | s, [] => Holds s written ∧ s.getLength = written.length
  | s, call :: calls => (Holds s written ∧ s.getLength = written.length) ∧
      ∃ s', call.apply s = some s' ∧ WritesInside (written ++ call.bytes) s' calls

/-- One call. -/
theorem apply_holds {s : DataOutPacket} {written : List UInt8} {call : Call}
    (h : Holds s written) (hok : call.Ok s) :
    ∃ s', call.apply s = some s' ∧ Holds s' (written ++ call.bytes) := by
  obtain ⟨hroom, hexact⟩ := hok
  -- Each call writes one run of bytes; only `writeString` needs the exact length as well.
  cases call with
  | write8 b =>
    obtain ⟨s', hcall, h', -⟩ := writeWord_holds 1 b.toNat h hroom
    exact ⟨s', hcall, h'⟩
  | write16 w =>
    obtain ⟨s', hcall, h', -⟩ := writeWord_holds 2 w.toNat h hroom
    exact ⟨s', hcall, h'⟩
  | write32 dw =>
    obtain ⟨s', hcall, h', -⟩ := writeWord_holds 4 dw.toNat h hroom
    exact ⟨s', hcall, h'⟩
  | write64 lw =>
    obtain ⟨s', hcall, h', -⟩ := writeWord_holds 8 lw.toNat h hroom
    exact ⟨s', hcall, h'⟩
  | writeData buf =>
    obtain ⟨s', hcall, h', -⟩ := writeData_holds buf h hroom
    exact ⟨s', hcall, h'⟩
  | writeString str =>
    obtain ⟨s', hcall, h', -⟩ := writeString_holds str h hroom (hexact str rfl)
    exact ⟨s', hcall, h'⟩

/-- A run whose steps are all allowed, from a packet that holds `written`. -/
theorem writesInside_of_holds {s : DataOutPacket} {written : List UInt8} (calls : List Call)
    (h : Holds s written) (hok : RunOk s calls) : WritesInside written s calls := by
  induction calls generalizing s written with
  | nil => exact ⟨h, h.getLength_eq⟩
  | cons call calls ih =>
    obtain ⟨s', hcall, h'⟩ := apply_holds h hok.1
    exact ⟨⟨h, h.getLength_eq⟩, s', hcall, ih h' (hok.2 s' hcall)⟩

/-- In every run whose steps are all allowed, from a new packet whose length is not
negative, every byte is stored below `buffer_length_` and `GetLength` is the number of
bytes written. -/
theorem writesInside_of_runOk (len : Int32) (calls : List Call) (h₀ : 0 ≤ len.toInt)
    (hok : ∀ s, dataOutPacket len.toInt = some s → RunOk s calls) :
    ∃ s, dataOutPacket len.toInt = some s ∧ WritesInside [] s calls := by
  obtain ⟨s, hnew, hholds, -⟩ := dataOutPacket_holds h₀ len.toInt_lt
  exact ⟨s, hnew, writesInside_of_holds calls hholds (hok s hnew)⟩

/-- A string that the empty packet of nine bytes takes with its terminator, and then a
byte for which the buffer grows. -/
theorem writesInside_nine :
    ∃ s, dataOutPacket (9 : Int32).toInt = some s ∧
      WritesInside [] s [.writeString [97, 98, 99, 100], .write8 7] := by
  refine writesInside_of_runOk 9 _ (by decide) ?_
  intro s hs
  cases hs
  refine ⟨⟨Or.inr (by decide), fun str hstr => ?_⟩, fun s' hs' => ⟨⟨Or.inr ?_, ?_⟩, ?_⟩⟩
  · cases hstr
    decide
  · cases hs'
    decide
  · exact fun str hstr => nomatch hstr
  · exact fun _ _ => trivial

/-- In a packet of eight bytes the count and the bytes of `abcd` end at the end of the
buffer. -/
theorem not_writesInside_eight :
    ¬∃ s, dataOutPacket (8 : Int32).toInt = some s ∧
      WritesInside [] s [.writeString [97, 98, 99, 100]] := by
  rintro ⟨s, hs, -, s', hcall, -⟩
  cases hs
  cases hcall

end Mylib.Proofs.Protocol
