import Mylib.Proofs.Protocol.PacketReads
import Mylib.Proofs.Protocol.PacketWrites

/-!
# `Mylib.Proofs.Protocol.PacketRoundTrip`: what is written is read back

A sequence of values goes through `operator<<` into a new packet, and its bytes through
`operator>>`. Each value is read back from its own bytes (`extract_encoded`), with one
exception: `operator>>(int64&)` is `ntohl64(Read64())`, and the macro reads the packet
eight times. A sequence without that kind comes back unless a string of it ends in the
last byte of the buffer (`packetRoundTrips_of_noExactEnd`).
-/

set_option autoImplicit false

namespace Mylib.Proofs.Protocol

open Mylib.Lib.ByteOrder
open Mylib.Lib.Memory
open Mylib.Spec.Protocol
open DataOutPacket DataInPacket

/-! ### The bytes of a value -/

/-- What `operator<<` writes. -/
def encode : PacketValue → List UInt8
  | .int8 b => wordBytes 1 b.toUInt8.toNat
  | .int16 w => wordBytes 2 (UInt16.ofNat (htons w.toUInt16.toNat)).toNat
  | .int32 dw => wordBytes 4 (UInt32.ofNat (htonl dw.toUInt32.toNat)).toNat
  | .int64 lw => wordBytes 8 (htonl64 lw.toUInt64).toNat
  | .bool b => wordBytes 1 (if b then 1 else 0 : UInt8).toNat
  | .string str => stringBytes str

/-- The bytes `operator<<` tests for. -/
def tested : PacketValue → Nat
  | .string str => str.length + 4
  | value => (encode value).length

/-- The strings hold no zero. -/
def NulFree : PacketValue → Prop
  | .string str => 0 ∉ str
  | _ => True

/-- A string whose count and bytes end where a buffer of length `cap` ends. -/
def EndsExactly (cap : Int) (off : Nat) : PacketValue → Prop
  | .string str => ((off + (str.length + 4) : Nat) : Int) = cap
  | _ => False

/-- What is tested for is never more than what is written; a string writes one byte more. -/
theorem tested_le (value : PacketValue) : tested value ≤ (encode value).length := by
  cases value with
  | string str =>
    rw [tested, encode, length_stringBytes]
    omega
  | _ => exact le_rfl

/-- A text without a zero is taken as a whole. -/
theorem takeWhile_nulFree {str : Str} (h : 0 ∉ str) : str.takeWhile (· ≠ 0) = str := by
  refine List.takeWhile_eq_self_iff.mpr fun b hb => ?_
  have hne : b ≠ 0 := fun h0 => h (h0 ▸ hb)
  simpa using hne

section

variable {s : DataOutPacket} {written : List UInt8} {value : PacketValue}

/-- A value that does not end exactly at the end of the buffer is written. -/
theorem insert_holds (h : Holds s written) (hnul : NulFree value) (hroom : Roomy s (tested value))
    (hexact : ¬EndsExactly s.bufferLength s.cursor value) :
    ∃ s', s.insert value = some s' ∧ Holds s' (written ++ encode value) ∧
      s'.bufferLength = grown s.bufferLength (s.cursor + tested value) := by
  cases value with
  | string str =>
    rw [DataOutPacket.insert, takeWhile_nulFree hnul]
    exact writeString_holds str h hroom hexact
  | int8 b => exact writeWord_holds 1 _ h hroom
  | int16 w => exact writeWord_holds 2 _ h hroom
  | int32 dw => exact writeWord_holds 4 _ h hroom
  | int64 lw => exact writeWord_holds 8 _ h hroom
  | bool b => exact writeWord_holds 1 _ h hroom

/-- One that does writes its terminator behind the buffer. -/
theorem insert_overruns (h : Holds s written) (hnul : NulFree value)
    (hexact : EndsExactly s.bufferLength s.cursor value) : s.insert value = none := by
  cases value with
  | string str =>
    rw [DataOutPacket.insert, takeWhile_nulFree hnul]
    exact writeString_overruns str h hexact
  | _ => cases hexact

end

/-! ### Writing a sequence -/

/-- `operator<<` for each value in turn. -/
def insertAll : DataOutPacket → List PacketValue → Option DataOutPacket
  | s, [] => some s
  | s, value :: values => (s.insert value).bind fun s => insertAll s values

/-- No string of the sequence ends exactly where the buffer ends, from a buffer of length
`cap` with `off` bytes in it on. -/
def NoExactEnd : (cap : Int) → (off : Nat) → List PacketValue → Prop
  | _, _, [] => True
  | cap, off, value :: values => ¬EndsExactly cap off value ∧
      NoExactEnd (grown cap (off + tested value)) (off + (encode value).length) values

/-- The size of the sequence. -/
def totalSize (values : List PacketValue) : Nat := (values.flatMap encode).length

/-- The sizes add up. -/
theorem totalSize_cons (value : PacketValue) (values : List PacketValue) :
    totalSize (value :: values) = (encode value).length + totalSize values := by
  rw [totalSize, List.flatMap_cons, List.length_append]
  rfl

/-- All values are written exactly if none of them ends at the end. By induction on the values, the
buffer growing on the way. -/
theorem insertAll_iff {s : DataOutPacket} {written : List UInt8} (values : List PacketValue)
    (h : Holds s written) (hnul : ∀ value ∈ values, NulFree value)
    (hsize : s.cursor + totalSize values < 2 ^ 30) :
    (NoExactEnd s.bufferLength s.cursor values →
      ∃ s', insertAll s values = some s' ∧ Holds s' (written ++ values.flatMap encode)) ∧
    (¬NoExactEnd s.bufferLength s.cursor values → insertAll s values = none) := by
  induction values generalizing s written with
  | nil => exact ⟨fun _ => ⟨s, rfl, by simpa using h⟩, fun hexact => absurd trivial hexact⟩
  | cons value values ih =>
    rw [totalSize_cons] at hsize
    have hvalue : NulFree value := hnul value List.mem_cons_self
    -- A string that ends exactly with the buffer passes the test; its terminator does not fit.
    by_cases hexact : EndsExactly s.bufferLength s.cursor value
    · constructor
      · intro hok
        exact absurd hexact hok.1
      · intro _
        rw [insertAll, insert_overruns h hvalue hexact]
        rfl
    · have htested := tested_le value
      obtain ⟨s', hinsert, h', hlength⟩ := insert_holds h hvalue (Or.inr (by omega)) hexact
      have hcursor : s'.cursor = s.cursor + (encode value).length := by
        rw [h'.cursor_eq, List.length_append, h.cursor_eq]
      have hrest := ih h' (fun v hv => hnul v (List.mem_cons_of_mem _ hv)) (by omega)
      rw [hlength, hcursor, List.append_assoc] at hrest
      rw [insertAll, hinsert, NoExactEnd, and_iff_right hexact, List.flatMap_cons]
      exact hrest

/-! ### Reading a sequence -/

/-- The overloads of `operator>>` for a value. -/
def Corresponds : ReadKind → PacketValue → Prop
  | .int8, .int8 _ => True
  | .int16, .int16 _ => True
  | .int32, .int32 _ => True
  | .int64, .int64 _ => True
  | .bool, .bool _ => True
  | .charPtr, .string _ => True
  | .stdString, .string _ => True
  | _, _ => False

/-- `operator>>` for each kind in turn. -/
def extractAll (order : List (Fin 8)) : DataInPacket → List ReadKind →
    Option (List PacketValue × DataInPacket)
  | s, [] => some ([], s)
  | s, kind :: kinds => do
    let (value, s) ← s.extract order kind
    let (values, s) ← extractAll order s kinds
    return (value :: values, s)

def IsInt64 : PacketValue → Prop
  | .int64 _ => True
  | _ => False

section

variable {s : DataInPacket} {data : List UInt8}

/-- A word at the cursor. -/
theorem readWord_at {bs rest : List UInt8} (h : Inside s data) (hbound : data.length < 2 ^ 31)
    (hdata : data.drop s.cursor = bs ++ rest) :
    readWord bs.length s =
      some (bytesWord bs, { s with cursor := s.cursor + bs.length }) := by
  have hlength := congrArg List.length hdata
  rw [List.length_drop, List.length_append] at hlength
  have hle := h.cursor_le
  have htest : bs.length ≤ sizeT s.remaining := by
    rw [h.remaining_eq, sizeT]
    omega
  rw [readWord, if_pos htest, if_pos (by rw [h.data_eq]; omega), h.data_eq, hdata, List.take_left]

/-- What a word writer has stored, in either byte order. -/
theorem bytesWord_of_lt {size n : Nat} (h : n < 256 ^ size) : bytesWord (wordBytes size n) = n := by
  rw [bytesWord_wordBytes, Nat.mod_eq_of_lt h]

/-- A swapped word is a word. -/
theorem swap_lt (size n : Nat) : swap size n < 256 ^ size := by
  have h := bytesWord_lt (wordBytes size n).reverse
  rw [List.length_reverse, length_wordBytes] at h
  exact h

/-- Swapping two bytes twice does nothing. -/
theorem htons_htons (w : UInt16) :
    UInt16.ofNat (htons (UInt16.ofNat (htons w.toNat)).toNat) = w := by
  have hlt : htons w.toNat < 2 ^ 16 := swap_lt 2 w.toNat
  have hback : htons (htons w.toNat) = w.toNat := by
    rw [htons, htons, swap_swap]
    exact Nat.mod_eq_of_lt w.toNat_lt
  rw [UInt16.toNat_ofNat_of_lt' hlt, hback, UInt16.ofNat_toNat]

/-- Swapping four bytes twice does nothing. -/
theorem htonl_htonl (dw : UInt32) :
    UInt32.ofNat (htonl (UInt32.ofNat (htonl dw.toNat)).toNat) = dw := by
  have hlt : htonl dw.toNat < 2 ^ 32 := swap_lt 4 dw.toNat
  have hback : htonl (htonl dw.toNat) = dw.toNat := by
    rw [htonl, htonl, swap_swap]
    exact Nat.mod_eq_of_lt dw.toNat_lt
  rw [UInt32.toNat_ofNat_of_lt' hlt, hback, UInt32.ofNat_toNat]

/-- A signed word of four bytes at the cursor. -/
theorem extractInt32_at {dw : UInt32} {rest : List UInt8} (h : Inside s data)
    (hbound : data.length < 2 ^ 31)
    (hdata : data.drop s.cursor = wordBytes 4 (UInt32.ofNat (htonl dw.toNat)).toNat ++ rest) :
    s.extractInt32 = some (dw.toInt32, { s with cursor := s.cursor + 4 }) := by
  have hread := readWord_at h hbound hdata
  rw [length_wordBytes] at hread
  rw [extractInt32, read32, hread, bytesWord_of_lt (UInt32.toNat_lt _)]
  show some ((UInt32.ofNat (htonl (UInt32.ofNat (htonl dw.toNat)).toNat)).toInt32, _) = _
  rw [htonl_htonl]

/-- The text of a string that `WriteString` has stored. -/
theorem extractString_at {str : Str} {rest : List UInt8} (h : Inside s data)
    (hbound : data.length < 2 ^ 31) (hnul : 0 ∉ str)
    (hdata : data.drop s.cursor = stringBytes str ++ rest) :
    s.extractString = some (str, { s with cursor := s.cursor + (str.length + 5) }) := by
  have hlength := congrArg List.length hdata
  rw [List.length_drop, List.length_append, length_stringBytes] at hlength
  have hcount : (UInt32.ofNat (str.length + 1)).toNat = str.length + 1 :=
    UInt32.toNat_ofNat_of_lt' (by show _ < 2 ^ 32; omega)
  have hlen : (UInt32.ofNat (str.length + 1)).toInt32.toInt = ((str.length + 1 : Nat) : Int) := by
    have hsmall : 2 * (UInt32.ofNat (str.length + 1)).toBitVec.toNat < 2 ^ 32 := by
      rw [UInt32.toNat_toBitVec, hcount]
      omega
    show (UInt32.ofNat (str.length + 1)).toBitVec.toInt = _
    rw [BitVec.toInt_eq_toNat_of_lt hsmall, UInt32.toNat_toBitVec, hcount]
  have hfield : data.drop (s.cursor + 4) = str ++ 0 :: rest := by
    rw [← List.drop_drop, hdata, stringBytes, List.append_assoc,
      List.drop_left' (length_wordBytes _ _), List.append_assoc]
    rfl
  rw [stringBytes, List.append_assoc, ← hcount] at hdata
  have hread := extractInt32_at h hbound hdata
  -- The reader looks at the last byte of the field first, and it is the terminator.
  have hlast : data[s.cursor + 4 + (str.length + 1) - 1]? = some 0 := by
    have hat : (data.drop (s.cursor + 4))[str.length]? = some 0 := by
      rw [hfield, List.getElem?_append_right le_rfl, Nat.sub_self]
      rfl
    rw [List.getElem?_drop] at hat
    exact hat
  have htext : cString (data.drop (s.cursor + 4)) = some str := by
    rw [hfield, cString_of_mem (by simp), List.takeWhile_append_of_pos]
    · simp
    · intro b hb
      have hne : b ≠ 0 := fun h0 => hnul (h0 ▸ hb)
      simpa using hne
  have h₁ : Inside { s with cursor := s.cursor + 4 } data :=
    ⟨h.data_eq, h.dataLen_eq, by show s.cursor + 4 ≤ data.length; omega⟩
  have htest : 0 < ((str.length + 1 : Nat) : Int) ∧
      ((str.length + 1 : Nat) : Int) ≤ ((data.length - (s.cursor + 4) : Nat) : Int) := by
    omega
  simp only [extractString, hread, Option.bind_eq_bind, Option.bind_some, h₁.remaining_eq, hlen]
  rw [if_pos htest, Int.toNat_natCast, h.data_eq, hlast, Option.bind_some, if_pos rfl, htext,
    Nat.add_assoc, Nat.add_comm 4]
  rfl

/-- Every value but an `int64` is read back from its bytes. -/
theorem extract_encoded (order : List (Fin 8)) {kind : ReadKind} {value : PacketValue}
    {rest : List UInt8} (h : Inside s data) (hbound : data.length < 2 ^ 31)
    (hnul : NulFree value) (hint64 : ¬IsInt64 value) (hkind : Corresponds kind value)
    (hdata : data.drop s.cursor = encode value ++ rest) :
    s.extract order kind =
      some (value, { s with cursor := s.cursor + (encode value).length }) := by
  cases value with
  | int8 b =>
    cases kind <;> try cases hkind
    have hread := readWord_at h hbound hdata
    rw [encode, bytesWord_of_lt b.toUInt8.toNat_lt] at hread
    rw [encode, extract, read8]
    rw [length_wordBytes] at hread ⊢
    rw [hread]
    show some (PacketValue.int8 (UInt8.ofNat b.toUInt8.toNat).toInt8, _) = _
    rw [UInt8.ofNat_toNat]
    rfl
  | int16 w =>
    cases kind <;> try cases hkind
    have hread := readWord_at h hbound hdata
    rw [encode, bytesWord_of_lt (UInt16.toNat_lt _)] at hread
    rw [encode, extract, read16]
    rw [length_wordBytes] at hread ⊢
    rw [hread]
    show some (PacketValue.int16 (UInt16.ofNat (htons (UInt16.ofNat _).toNat)).toInt16, _) = _
    rw [htons_htons]
    rfl
  | int32 dw =>
    cases kind <;> try cases hkind
    rw [extract, extractInt32_at h hbound hdata, encode, length_wordBytes]
    rfl
  -- The macro `ntohl64` reads the packet once for each use of its argument.
  | int64 lw => exact absurd trivial hint64
  | bool b =>
    cases kind <;> try cases hkind
    have hread := readWord_at h hbound hdata
    rw [encode, bytesWord_of_lt (UInt8.toNat_lt _)] at hread
    rw [encode, extract, read8]
    rw [length_wordBytes] at hread ⊢
    rw [hread]
    cases b <;> rfl
  | string str =>
    have hread := extractString_at h hbound hnul hdata
    rw [encode, length_stringBytes]
    cases kind <;> try cases hkind
    all_goals
      rw [extract, hread]
      rfl

/-- A sequence is read back from its bytes. -/
theorem extractAll_encoded (order : List (Fin 8)) {kinds : List ReadKind}
    {values : List PacketValue} (h : Inside s data) (hbound : data.length < 2 ^ 31)
    (hnul : ∀ value ∈ values, NulFree value) (hint64 : ∀ value ∈ values, ¬IsInt64 value)
    (hkinds : List.Forall₂ Corresponds kinds values)
    (hdata : data.drop s.cursor = values.flatMap encode) :
    ∃ s', extractAll order s kinds = some (values, s') ∧ s'.cursor = data.length := by
  induction hkinds generalizing s with
  | nil =>
    refine ⟨s, rfl, ?_⟩
    -- Nothing is left to read, so the cursor stands at the end.
    have hend : data.length ≤ s.cursor := List.drop_eq_nil_iff.mp hdata
    exact le_antisymm h.cursor_le hend
  | @cons kind value kinds values hkind _ ih =>
    rw [List.flatMap_cons] at hdata
    -- The head is read back, and the cursor moves by the length of its encoding.
    have hread := extract_encoded order h hbound (hnul value List.mem_cons_self)
      (hint64 value List.mem_cons_self) hkind hdata
    have hlength := congrArg List.length hdata
    rw [List.length_drop, List.length_append] at hlength
    have hle := h.cursor_le
    have h₁ : Inside { s with cursor := s.cursor + (encode value).length } data :=
      ⟨h.data_eq, h.dataLen_eq, by show s.cursor + (encode value).length ≤ data.length; omega⟩
    -- The tail is what is left from there on.
    obtain ⟨s', hrest, hend⟩ := ih (s := { s with cursor := s.cursor + (encode value).length }) h₁
      (fun v hv => hnul v (List.mem_cons_of_mem _ hv))
      (fun v hv => hint64 v (List.mem_cons_of_mem _ hv))
      (by rw [← List.drop_drop, hdata, List.drop_left])
    refine ⟨s', ?_, hend⟩
    rw [extractAll, hread]
    show (extractAll order _ kinds).bind _ = _
    rw [hrest]
    rfl

end

/-! ### The round trip -/

/-- The values written into a new packet of length `len` are read back, all of them and
nothing else, by any of the overloads for them. -/
def PacketRoundTrips (order : List (Fin 8)) (len : Int) (values : List PacketValue) : Prop :=
  ∃ new out block bytes, dataOutPacket len = some new ∧ insertAll new values = some out ∧
    out.buffer = some block ∧ block.take out.getLength.toNat = bytes.map some ∧
    ∀ kinds, List.Forall₂ Corresponds kinds values →
      ∃ s, extractAll order (dataInPacket bytes) kinds = some (values, s) ∧
        s.cursor = bytes.length

/-- A sequence without `int64`, no string of which ends where the buffer ends, is read
back. No sequence with such a string is. -/
theorem packetRoundTrips_of_noExactEnd (order : List (Fin 8)) (len : Int32)
    (values : List PacketValue) (h₀ : 0 ≤ len.toInt) (hnul : ∀ value ∈ values, NulFree value)
    (hsize : totalSize values < 2 ^ 30) :
    ((∀ value ∈ values, ¬IsInt64 value) ∧ NoExactEnd len.toInt 0 values →
      PacketRoundTrips order len.toInt values) ∧
    (PacketRoundTrips order len.toInt values → NoExactEnd len.toInt 0 values) := by
  obtain ⟨new, hnew, hholds, hlength⟩ := dataOutPacket_holds h₀ len.toInt_lt
  have hcursor : new.cursor = 0 := hholds.cursor_eq
  obtain ⟨hwrites, hoverruns⟩ := insertAll_iff values hholds hnul (by omega)
  rw [hlength, hcursor] at hwrites hoverruns
  constructor
  · rintro ⟨hint64, hexact⟩
    obtain ⟨out, hout, hout'⟩ := hwrites hexact
    obtain ⟨block, hblock, -, hbytes⟩ := hout'.block
    refine ⟨new, out, block, values.flatMap encode, hnew, hout, hblock, ?_, ?_⟩
    · rw [hout'.getLength_eq, Int.toNat_natCast, ← hout'.cursor_eq, hbytes, List.nil_append]
    · intro kinds hkinds
      have hbound : (values.flatMap encode).length < 2 ^ 31 := by
        show totalSize values < 2 ^ 31
        omega
      exact extractAll_encoded order (dataInPacket_inside _) hbound hnul hint64 hkinds rfl
  · rintro ⟨new', out, block, bytes, hnew', hout, -⟩
    rw [hnew] at hnew'
    cases hnew'
    -- A string that ends exactly would have stopped the writing.
    by_contra hexact
    rw [hoverruns hexact] at hout
    cases hout

/-- A short string and a number, in a packet of the default length. -/
theorem packetRoundTrips_default :
    PacketRoundTrips [0, 1, 2, 3, 4, 5, 6, 7] (1024 : Int32).toInt
      [.string [104, 105], .int32 (-2)] := by
  refine (packetRoundTrips_of_noExactEnd _ 1024 _ (by decide) ?_ (by decide)).1 ⟨?_, ?_⟩
  · intro value hvalue
    fin_cases hvalue
    · show (0 : UInt8) ∉ [104, 105]
      decide
    · trivial
  · intro value hvalue
    fin_cases hvalue
    · exact id
    · exact id
  · refine ⟨?_, id, trivial⟩
    show ¬((0 + (2 + 4) : Nat) : Int) = (1024 : Int32).toInt
    decide

/-- The number 257 as an `int64` comes back as another: the first operand reads it, and
for the others nothing is left. -/
theorem not_packetRoundTrips_int64 :
    ¬PacketRoundTrips [0, 1, 2, 3, 4, 5, 6, 7] 8 [.int64 257] := by
  rintro ⟨new, out, block, bytes, hnew, hout, hblock, hbytes, hread⟩
  cases hnew
  cases hout
  cases hblock
  have hbytes' : bytes = [0, 0, 0, 0, 0, 0, 1, 1] := by
    apply List.map_injective_iff.mpr (Option.some_injective UInt8)
    rw [← hbytes]
    rfl
  subst hbytes'
  obtain ⟨s, hs, -⟩ := hread [.int64] (List.Forall₂.cons trivial List.Forall₂.nil)
  have hvalues : (extractAll [0, 1, 2, 3, 4, 5, 6, 7] (dataInPacket [0, 0, 0, 0, 0, 0, 1, 1])
      [.int64]).map Prod.fst = some [.int64 257] := congrArg (Option.map Prod.fst) hs
  exact absurd hvalues (by decide)

end Mylib.Proofs.Protocol
