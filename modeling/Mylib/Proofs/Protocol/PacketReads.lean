import Mylib.Spec.Protocol.DataPacket

/-!
# `Mylib.Proofs.Protocol.PacketReads`: reading a packet of any bytes

`Inside s data` says that the cursor is in the buffer and that `data_len_` is its
length. Every reader returns and keeps it (`extract_inside`), whatever the bytes are,
and in whatever order the operands of `ntohl64` are evaluated. A string is the text
before the first zero of the field its count announces (`extractString_spec`).
-/

set_option autoImplicit false

namespace Mylib.Proofs.Protocol

open Mylib.Lib.ByteOrder
open Mylib.Spec.Protocol
open DataInPacket

structure Inside (s : DataInPacket) (data : List UInt8) : Prop where
  data_eq : s.data = data
  dataLen_eq : s.dataLen = data.length
  cursor_le : s.cursor ≤ data.length

section

variable {s : DataInPacket} {data : List UInt8}

/-- A new packet is inside of its data. -/
theorem dataInPacket_inside (data : List UInt8) : Inside (dataInPacket data) data :=
  ⟨rfl, rfl, Nat.zero_le _⟩

/-- What remains is what lies behind the cursor. -/
theorem Inside.remaining_eq (h : Inside s data) :
    s.remaining = ((data.length - s.cursor : Nat) : Int) := by
  have hle := h.cursor_le
  rw [remaining, h.dataLen_eq]
  omega

/-- The unsigned test never sees more than what is left. -/
theorem Inside.sizeT_le (h : Inside s data) : sizeT s.remaining ≤ data.length - s.cursor := by
  rw [h.remaining_eq, sizeT]
  omega

/-- A word is read from the buffer, or the cursor stays. -/
theorem readWord_cases (size : Nat) (h : Inside s data) :
    (s.cursor + size ≤ data.length ∧ readWord size s =
      some (bytesWord ((data.drop s.cursor).take size), { s with cursor := s.cursor + size })) ∨
    readWord size s = some (0, s) := by
  have hle := h.cursor_le
  have hsize := h.sizeT_le
  unfold readWord
  by_cases htest : size ≤ sizeT s.remaining
  · have hin : s.cursor + size ≤ data.length := by omega
    rw [if_pos htest, if_pos (h.data_eq ▸ hin), h.data_eq]
    exact Or.inl ⟨hin, rfl⟩
  · rw [if_neg htest]
    exact Or.inr rfl

/-- A word is read from inside of the data, or the read is refused. -/
theorem readWord_inside (size : Nat) (h : Inside s data) :
    ∃ n s', readWord size s = some (n, s') ∧ Inside s' data := by
  rcases readWord_cases size h with ⟨hin, hread⟩ | hread
  · exact ⟨_, _, hread, h.data_eq, h.dataLen_eq, hin⟩
  · exact ⟨_, _, hread, h⟩

/-- The operands of the macro read one after the other. -/
theorem ntohl64Read64_inside (order : List (Fin 8)) (acc : UInt64) (h : Inside s data) :
    ∃ lw s', ntohl64Read64 order acc s = some (lw, s') ∧ Inside s' data := by
  induction order generalizing acc s with
  | nil => exact ⟨acc, s, rfl, h⟩
  | cons i order ih =>
    obtain ⟨n, s₁, hread, h₁⟩ := readWord_inside 8 h
    obtain ⟨lw, s', hrest, h'⟩ := ih (acc ||| htonl64Term (UInt64.ofNat n) i) h₁
    refine ⟨lw, s', ?_, h'⟩
    rw [ntohl64Read64]
    unfold read64
    rw [hread]
    exact hrest

/-! ### Strings -/

/-- A C string ends at the first zero. -/
theorem cString_of_mem {bs : List UInt8} (h : 0 ∈ bs) :
    cString bs = some (bs.takeWhile (· ≠ 0)) := by
  induction bs with
  | nil => cases h
  | cons b bs ih =>
    rw [cString]
    by_cases hb : b = 0
    · subst hb
      rfl
    · have hrest : 0 ∈ bs := (List.mem_cons.mp h).resolve_left fun h0 => hb h0.symm
      rw [if_neg hb, ih hrest, List.takeWhile_cons_of_pos (by simpa using hb)]
      rfl

/-- Bytes behind the first zero do not matter. -/
theorem takeWhile_of_mem_take {bs : List UInt8} {n : Nat} (h : 0 ∈ bs.take n) :
    bs.takeWhile (· ≠ 0) = (bs.take n).takeWhile (· ≠ 0) := by
  conv_lhs => rw [← List.take_append_drop n bs]
  rw [List.takeWhile_append]
  have hshort : ((bs.take n).takeWhile (· ≠ 0)).length ≠ (bs.take n).length := by
    intro hlength
    have hall := (List.takeWhile_prefix _).eq_of_length hlength
    rw [← hall] at h
    simpa using List.mem_takeWhile_imp h
  rw [if_neg hshort]

/-- The count in front of a string: a signed number in network order. -/
def countAt (data : List UInt8) (off : Nat) : Int :=
  (UInt32.ofNat (htonl (bytesWord ((data.drop off).take 4)))).toInt32.toInt

/-- What a read of a string from the cursor `off` to the cursor `off'` yields: the empty
text, or the text before the first zero of the field its count announces. -/
def StringRead (data : List UInt8) (off : Nat) (str : Str) (off' : Nat) : Prop :=
  str = [] ∨ ∃ len : Nat, (len : Int) = countAt data off ∧ off' = off + 4 + len ∧
    off' ≤ data.length ∧ 0 ∈ (data.drop (off + 4)).take len ∧
    str = ((data.drop (off + 4)).take len).takeWhile (· ≠ 0)

/-- A length is read as the four bytes at the cursor, or nothing is. -/
theorem extractInt32_cases (h : Inside s data) :
    (s.cursor + 4 ≤ data.length ∧ ∃ len : Int32, len.toInt = countAt data s.cursor ∧
      s.extractInt32 = some (len, { s with cursor := s.cursor + 4 })) ∨
    s.extractInt32 = some (0, s) := by
  unfold extractInt32 read32
  rcases readWord_cases 4 h with ⟨hin, hread⟩ | hread
  · rw [hread]
    exact Or.inl ⟨hin, _, rfl, rfl⟩
  · rw [hread]
    exact Or.inr rfl

/-- The field of `n` bytes at the cursor ends in a zero: its text is read. -/
theorem cString_field {off n : Nat} (hpos : 0 < n)
    (hzero : data[off + n - 1]? = some 0) :
    0 ∈ (data.drop off).take n ∧
      cString (data.drop off) = some (((data.drop off).take n).takeWhile (· ≠ 0)) := by
  have hmem : 0 ∈ (data.drop off).take n := by
    refine List.mem_iff_getElem?.mpr ⟨n - 1, ?_⟩
    rw [List.getElem?_take_of_lt (by omega), List.getElem?_drop, ← hzero]
    congr 1
    omega
  rw [cString_of_mem (List.mem_of_mem_take hmem), takeWhile_of_mem_take hmem]
  exact ⟨hmem, rfl⟩

/-- A string is read from inside of the data, whatever its length says. -/
theorem extractString_spec (h : Inside s data) :
    ∃ str s', s.extractString = some (str, s') ∧ Inside s' data ∧
      StringRead data s.cursor str s'.cursor := by
  rcases extractInt32_cases h with ⟨hin, len, hlen, hread⟩ | hread
  · have h₁ : Inside { s with cursor := s.cursor + 4 } data := ⟨h.data_eq, h.dataLen_eq, hin⟩
    simp only [extractString, hread, Option.bind_eq_bind, Option.bind_some, h₁.remaining_eq]
    by_cases htest : 0 < len.toInt ∧ len.toInt ≤ ((data.length - (s.cursor + 4) : Nat) : Int)
    · rw [if_pos htest]
      obtain ⟨hpos, hfits⟩ := htest
      -- The count, as a number of bytes that are all in the buffer.
      obtain ⟨n, hn⟩ := Int.eq_ofNat_of_zero_le hpos.le
      rw [hn] at hpos hfits hlen
      rw [hn, Int.toNat_natCast, h.data_eq]
      have hend : s.cursor + 4 + n ≤ data.length := by omega
      have hlast : s.cursor + 4 + n - 1 < data.length := by omega
      rw [List.getElem?_eq_getElem hlast, Option.bind_some]
      by_cases hzero : data[s.cursor + 4 + n - 1] = 0
      · obtain ⟨hmem, hstr⟩ := cString_field (by omega)
          ((List.getElem?_eq_getElem hlast).trans (congrArg some hzero))
        rw [if_pos hzero, hstr]
        exact ⟨_, _, rfl, ⟨rfl, h.dataLen_eq, hend⟩, Or.inr ⟨n, hlen, rfl, hend, hmem, rfl⟩⟩
      · rw [if_neg hzero]
        exact ⟨[], _, rfl, ⟨rfl, h.dataLen_eq, hin⟩, Or.inl rfl⟩
    · rw [if_neg htest]
      exact ⟨[], _, rfl, h₁, Or.inl rfl⟩
  · simp only [extractString, hread, Option.bind_eq_bind, Option.bind_some]
    exact ⟨[], s, rfl, h, Or.inl rfl⟩

/-! ### Runs of reads -/

/-- One read: it returns, the cursor stays in the buffer, and a string is what its field
holds. -/
theorem extract_inside (order : List (Fin 8)) (kind : ReadKind) (h : Inside s data) :
    ∃ value s', s.extract order kind = some (value, s') ∧ Inside s' data ∧
      (kind = .charPtr ∨ kind = .stdString →
        ∃ str, value = .string str ∧ StringRead data s.cursor str s'.cursor) := by
  -- The four widths go through `readWord`, the 64-bit one in its own order, the strings by length.
  cases kind with
  | int8 =>
    obtain ⟨n, s', hread, h'⟩ := readWord_inside 1 h
    exact ⟨_, s', by rw [extract, read8, hread]; rfl, h', by simp⟩
  | int16 =>
    obtain ⟨n, s', hread, h'⟩ := readWord_inside 2 h
    exact ⟨_, s', by rw [extract, read16, hread]; rfl, h', by simp⟩
  | int32 =>
    obtain ⟨n, s', hread, h'⟩ := readWord_inside 4 h
    exact ⟨_, s', by rw [extract, extractInt32, read32, hread]; rfl, h', by simp⟩
  | int64 =>
    obtain ⟨lw, s', hread, h'⟩ := ntohl64Read64_inside order 0 h
    exact ⟨_, s', by rw [extract, hread]; rfl, h', by simp⟩
  | bool =>
    obtain ⟨n, s', hread, h'⟩ := readWord_inside 1 h
    exact ⟨_, s', by rw [extract, read8, hread]; rfl, h', by simp⟩
  | charPtr =>
    obtain ⟨str, s', hread, h', hstr⟩ := extractString_spec h
    exact ⟨_, s', by rw [extract, hread]; rfl, h', fun _ => ⟨str, rfl, hstr⟩⟩
  | stdString =>
    obtain ⟨str, s', hread, h', hstr⟩ := extractString_spec h
    exact ⟨_, s', by rw [extract, hread]; rfl, h', fun _ => ⟨str, rfl, hstr⟩⟩

end

/-- Along the run every read returns, so every byte it looks at is in the buffer; the
cursor is in the buffer between the reads; and every string is what its field holds. -/
def ReadsInside (order : List (Fin 8)) (data : List UInt8) :
    DataInPacket → List ReadKind → Prop
  | s, [] => Inside s data
  | s, kind :: kinds => Inside s data ∧ ∃ value s', s.extract order kind = some (value, s') ∧
      (kind = .charPtr ∨ kind = .stdString →
        ∃ str, value = .string str ∧ StringRead data s.cursor str s'.cursor) ∧
      ReadsInside order data s' kinds

/-- Every row of reads stays inside. By induction on the reads. -/
theorem readsInside_of_inside (order : List (Fin 8)) {s : DataInPacket} {data : List UInt8}
    (kinds : List ReadKind) (h : Inside s data) : ReadsInside order data s kinds := by
  induction kinds generalizing s with
  | nil => exact h
  | cons kind kinds ih =>
    obtain ⟨value, s', hread, h', hstr⟩ := extract_inside order kind h
    exact ⟨h, value, s', hread, hstr, ih h'⟩

/-- Any reads of any bytes are safe. -/
theorem dataInPacket_readsInside (order : List (Fin 8)) (data : List UInt8)
    (kinds : List ReadKind) : ReadsInside order data (dataInPacket data) kinds :=
  readsInside_of_inside order kinds (dataInPacket_inside data)

end Mylib.Proofs.Protocol
