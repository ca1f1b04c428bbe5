import Mylib.Proofs.Algorithm.TeaLoops
import Mylib.Spec.Algorithm.Tea

/-!
# `Mylib.Proofs.Algorithm.Tea`: when `Tea` decrypts what it encrypted

Decryption undoes encryption when it starts with the last sum of encryption, `round` times
`delta` (`Mylib.Proofs.Algorithm.TeaLoops`). The two constants are right for 32 and 16 rounds.
Every other count gets `delta` shifted by the whole part of its binary logarithm, the sum after
as many rounds as that power of two says (`startSum_eq_iff`). The logarithm is a parameter; if it
is right for the powers of two, these are the counts that get the right sum (`exact_iff_pow`).

The key has 16 bytes, and its four words are read as `unsigned long`. Where these have eight
bytes, the third is behind the key (`readKey_lp64`).
-/

set_option autoImplicit false

namespace Mylib.Proofs.Algorithm

open Mylib.Lib.ByteOrder
open Mylib.Spec.Algorithm
open Mylib.Spec.Algorithm.Tea

/-- What is promised of a block: it is encrypted, and decryption gets it back. -/
def Undoes (target : Target) (logbase2 : Int → Int) (self : Tea) (bytes : Str) : Prop :=
  ∃ sealedBytes, encrypt target self bytes = some sealedBytes ∧
    decrypt target logbase2 self sealedBytes = some bytes

/-- The round counts that `decrypt` computes the right sum for. -/
def Exact (logbase2 : Int → Int) (round : Int) : Prop :=
  round = 16 ∨ round = 32 ∨ (0 ≤ logbase2 round ∧ round = 2 ^ (logbase2 round).toNat)

/-- Where the logarithm of a power of two is its exponent, these counts are the powers of two. -/
theorem exact_iff_pow {logbase2 : Int → Int} (hlog : ∀ j : Nat, logbase2 (2 ^ j) = j)
    {round : Int} : Exact logbase2 round ↔ ∃ j : Nat, round = 2 ^ j := by
  constructor
  · rintro (rfl | rfl | ⟨-, hpow⟩)
    · exact ⟨4, by norm_num⟩
    · exact ⟨5, by norm_num⟩
    · exact ⟨_, hpow⟩
  · rintro ⟨j, rfl⟩
    refine .inr (.inr ?_)
    rw [hlog, Int.toNat_natCast]
    exact ⟨Int.natCast_nonneg j, rfl⟩

/-! ### Words in memory -/

section Words

variable (target : Target)

/-- The words of a target are as many as its bytes can tell apart. -/
theorem size_pow : 256 ^ target.size = 2 ^ (8 * target.size) := by
  rw [pow_mul]
  rfl

/-- A word is written to as many bytes as the target's `unsigned long` has. -/
theorem length_wordOut (v : ULong target) : (wordOut target v).length = target.size :=
  length_wordBytes target.size v.toNat

/-- A word is read back where its bytes stand. -/
theorem readWord_wordOut {i : Nat} {memory : Str} {v : ULong target}
    (h : (memory.drop (i * target.size)).take target.size = wordOut target v) :
    readWord target memory i = some v := by
  unfold readWord
  dsimp only
  rw [h, if_pos (length_wordOut target v), wordOut, bytesWord_wordBytes, size_pow,
    Nat.mod_eq_of_lt v.isLt, BitVec.ofNat_toNat, BitVec.setWidth_eq]

/-- The bytes of a word that was read. -/
theorem wordOut_readWord {bytes : Str} (h : bytes.length = target.size) :
    wordOut target (BitVec.ofNat _ (bytesWord bytes)) = bytes := by
  have hlt := bytesWord_lt bytes
  rw [h, size_pow] at hlt
  rw [wordOut, BitVec.toNat_ofNat, Nat.mod_eq_of_lt hlt, ← h, wordBytes_bytesWord]

/-- Reading succeeds inside of the memory. -/
theorem readWord_isSome {memory : Str} {i : Nat}
    (h : (i + 1) * target.size ≤ memory.length) : (readWord target memory i).isSome := by
  have hlen : ((memory.drop (i * target.size)).take target.size).length = target.size := by
    rw [List.length_take, List.length_drop, Nat.min_eq_left]
    rw [Nat.add_mul, Nat.one_mul] at h
    omega
  unfold readWord
  dsimp only
  rw [if_pos hlen]
  rfl

end Words

/-! ### Where a word has eight bytes -/

/-- The third word of the key lies behind it. -/
theorem readKey_lp64 (self : Tea) : readKey .lp64 self = none := by
  have hthird : readWord .lp64 self.key 2 = none := by
    -- It would start at the byte 16.
    have hend : self.key.drop (2 * Target.lp64.size) = [] :=
      List.drop_eq_nil_of_le self.length_key.le
    unfold readWord
    rw [hend]
    rfl
  unfold readKey
  rw [hthird]
  cases readWord .lp64 self.key 0 with
  | none => rfl
  | some a =>
    cases readWord .lp64 self.key 1 with
    | none => rfl
    | some b => rfl

/-- With an `unsigned long` of eight bytes the two-word block does not fit the eight bytes that are
passed in, so the call reads behind them. -/
theorem encrypt_lp64 (self : Tea) (bytes : Str) : encrypt .lp64 self bytes = none := by
  unfold encrypt
  rw [readKey_lp64]
  cases readBlock .lp64 self bytes with
  | none => rfl
  | some v => rfl

/-! ### Where a word has four bytes -/

/-- On a 32-bit target `ntohl` reverses the four bytes of its word. -/
theorem toNat_ntohl (v : ULong .ilp32) : (ntohl .ilp32 v).toNat = swap 4 v.toNat := by
  have hv : v.toNat < 2 ^ 32 := v.isLt
  have hswap := bytesWord_lt (wordBytes 4 v.toNat).reverse
  rw [List.length_reverse, length_wordBytes] at hswap
  unfold ntohl
  rw [Nat.mod_eq_of_lt hv, BitVec.toNat_ofNat]
  exact Nat.mod_eq_of_lt hswap

/-- The conversion to network order is its own inverse, and so is leaving it out. -/
theorem ntoh_ntoh (self : Tea) (v : ULong .ilp32) :
    ntoh .ilp32 self (ntoh .ilp32 self v) = v := by
  unfold ntoh
  split_ifs with hnet
  · apply BitVec.eq_of_toNat_eq
    rw [toNat_ntohl, toNat_ntohl, swap_swap]
    exact Nat.mod_eq_of_lt v.isLt
  · rfl

/-- A block that was written is read back, since reversing the bytes twice does nothing. -/
theorem readBlock_writeBlock (self : Tea) (v : Block (8 * Target.ilp32.size)) :
    readBlock .ilp32 self (writeBlock .ilp32 self v) = some v := by
  have hfirst : readWord .ilp32 (writeBlock .ilp32 self v) 0 = some (ntoh .ilp32 self v.1) :=
    readWord_wordOut .ilp32 (List.take_left' (length_wordOut _ _))
  have hsecond : readWord .ilp32 (writeBlock .ilp32 self v) 1 = some (ntoh .ilp32 self v.2) := by
    -- The second word starts where the first one ends.
    apply readWord_wordOut
    unfold writeBlock
    rw [List.drop_left' ((length_wordOut _ _).trans (Nat.one_mul _).symm)]
    exact List.take_of_length_le (length_wordOut _ _).le
  unfold readBlock
  rw [hfirst, hsecond]
  show some (ntoh .ilp32 self (ntoh .ilp32 self v.1), ntoh .ilp32 self (ntoh .ilp32 self v.2)) = _
  rw [ntoh_ntoh, ntoh_ntoh]

/-- Eight bytes are two words. -/
theorem exists_writeBlock (self : Tea) {bytes : Str} (h : bytes.length = 2 * Target.ilp32.size) :
    ∃ v, bytes = writeBlock .ilp32 self v := by
  have hfirst : (bytes.take Target.ilp32.size).length = Target.ilp32.size := by
    rw [List.length_take]
    omega
  have hsecond : (bytes.drop Target.ilp32.size).length = Target.ilp32.size := by
    rw [List.length_drop]
    omega
  refine ⟨(ntoh .ilp32 self (BitVec.ofNat _ (bytesWord (bytes.take Target.ilp32.size))),
    ntoh .ilp32 self (BitVec.ofNat _ (bytesWord (bytes.drop Target.ilp32.size)))), ?_⟩
  unfold writeBlock
  rw [ntoh_ntoh, ntoh_ntoh, wordOut_readWord .ilp32 hfirst, wordOut_readWord .ilp32 hsecond,
    List.take_append_drop]

/-- The key of a cipher object can always be read as words: it has sixteen bytes. -/
theorem exists_readKey (self : Tea) : ∃ k, readKey .ilp32 self = some k := by
  have hword : ∀ i < 4, ∃ v, readWord .ilp32 self.key i = some v := by
    intro i hi
    refine Option.isSome_iff_exists.mp (readWord_isSome .ilp32 ?_)
    -- The key has room for exactly four words.
    rw [self.length_key]
    show (i + 1) * 4 ≤ 16
    omega
  obtain ⟨a, ha⟩ := hword 0 (by omega)
  obtain ⟨b, hb⟩ := hword 1 (by omega)
  obtain ⟨c, hc⟩ := hword 2 (by omega)
  obtain ⟨d, hd⟩ := hword 3 (by omega)
  unfold readKey
  rw [ha, hb, hc, hd]
  exact ⟨_, rfl⟩

/-- A shift multiplies. -/
theorem shiftLeft_eq_nsmul {w : Nat} (v : BitVec w) (j : Nat) : v <<< j = 2 ^ j • v := by
  apply BitVec.eq_of_toNat_eq
  rw [nsmul_eq_mul, BitVec.toNat_shiftLeft, Nat.shiftLeft_eq, BitVec.toNat_mul,
    BitVec.natCast_eq_ofNat, BitVec.toNat_ofNat, Nat.mod_mul_mod, mul_comm]

/-- The sum that decryption starts with, where the count is right. -/
theorem startSum_exact {logbase2 : Int → Int} {round : Int} (hround : round < 2 ^ 31)
    (h : Exact logbase2 round) :
    startSum .ilp32 logbase2 round = some (round.toNat • delta) := by
  unfold startSum
  split_ifs with h32 h16
  · rw [h32]
    exact congrArg some (show (0xC6EF3720 : BitVec 32) = 32 • delta by decide)
  · rw [h16]
    exact congrArg some (show (0xE3779B90 : BitVec 32) = 16 • delta by decide)
  · obtain ⟨hpos, hpow⟩ := (h.resolve_left h16).resolve_left h32
    -- A larger shift would make the count too large for an `int32`.
    have hshift : logbase2 round < 32 := by
      by_contra hlarge
      have hgrow : (2 : Int) ^ 31 ≤ 2 ^ (logbase2 round).toNat :=
        pow_le_pow_right₀ (by norm_num) (by omega)
      omega
    have hnat : round.toNat = 2 ^ (logbase2 round).toNat := by
      have hcast : ((2 ^ (logbase2 round).toNat : Nat) : Int) = round := by
        rw [Nat.cast_pow]
        exact hpow.symm
      exact (congrArg Int.toNat hcast).symm.trans (Int.toNat_natCast _)
    dsimp only
    rw [if_pos ⟨hpos, hshift⟩, hnat, shiftLeft_eq_nsmul]

/-- `delta` is odd, so its multiples differ. -/
theorem nsmul_delta_inj {m n : Nat} (hm : m < 2 ^ 32) (hn : n < 2 ^ 32)
    (h : m • (delta : BitVec 32) = n • delta) : m = n := by
  -- The factor is the inverse of `delta` modulo `2 ^ 32`.
  have hinverse : ∀ k : Nat, k • (delta : BitVec 32) * 0x144cbc89 = (k : BitVec 32) := by
    intro k
    have hone : (delta : BitVec 32) * 0x144cbc89 = 1 := by decide
    rw [nsmul_eq_mul, mul_assoc, hone, mul_one]
  have hcast : (m : BitVec 32) = n := by rw [← hinverse m, h, hinverse n]
  have hnat := congrArg BitVec.toNat hcast
  rw [BitVec.natCast_eq_ofNat, BitVec.natCast_eq_ofNat, BitVec.toNat_ofNat, BitVec.toNat_ofNat,
    Nat.mod_eq_of_lt hm, Nat.mod_eq_of_lt hn] at hnat
  exact hnat

/-- Every other count gets a sum that encryption did not end with. -/
theorem startSum_eq_iff {logbase2 : Int → Int} {round : Int} (hpos : 1 ≤ round)
    (hround : round < 2 ^ 31) :
    startSum .ilp32 logbase2 round = some (round.toNat • delta) ↔ Exact logbase2 round := by
  refine ⟨fun h => ?_, startSum_exact hround⟩
  unfold startSum at h
  split_ifs at h with h32 h16
  · exact .inr (.inl h32)
  · exact .inl h16
  · dsimp only at h
    split_ifs at h with hshift
    · -- The shift has given a multiple of `delta`, and it has to be the right one.
      have hlt : (logbase2 round).toNat < 32 := (Int.toNat_lt hshift.1).mpr hshift.2
      have hsum := Option.some.inj h
      rw [shiftLeft_eq_nsmul] at hsum
      have hnat := nsmul_delta_inj (Nat.pow_lt_pow_right Nat.one_lt_two hlt) (by omega) hsum
      refine .inr (.inr ⟨hshift.1, ?_⟩)
      have hcast := congrArg (Nat.cast : Nat → Int) hnat
      rw [Nat.cast_pow, Int.toNat_of_nonneg (by omega)] at hcast
      exact hcast.symm

/-- On a 32-bit target the cipher undoes itself once `logbase` is exact on the round count. The
start value of the decryption is then the last sum of the encryption. -/
theorem undoes_ilp32 {logbase2 : Int → Int} {self : Tea} (hpos : 1 ≤ self.round)
    (hround : self.round < 2 ^ 31) (h : Exact logbase2 self.round) {bytes : Str}
    (hbytes : bytes.length = 2 * Target.ilp32.size) : Undoes .ilp32 logbase2 self bytes := by
  obtain ⟨v, rfl⟩ := exists_writeBlock self hbytes
  obtain ⟨k, hkey⟩ := exists_readKey self
  have hsum := (startSum_eq_iff hpos hround).mpr h
  have hcount : ¬ self.round < 0 := by omega
  refine ⟨writeBlock .ilp32 self (encryptLoop k self.round.toNat 0 v), ?_, ?_⟩
  · unfold encrypt
    rw [readBlock_writeBlock, hkey]
    exact if_neg hcount
  · unfold decrypt
    rw [readBlock_writeBlock, hkey, hsum]
    refine (if_neg hcount).trans ?_
    rw [decryptLoop_encryptLoop]
    rfl

/-! ### The result -/

/-- **The cipher undoes itself where `logbase` is exact** on the round count, on a target with a
four-byte `unsigned long`; with eight bytes it never does. -/
theorem undoes_of (target : Target) (logbase2 : Int → Int) {self : Tea} (hpos : 1 ≤ self.round)
    (hround : self.round < 2 ^ 31) {bytes : Str} (hbytes : bytes.length = 2 * target.size) :
    (target = .ilp32 → Exact logbase2 self.round → Undoes target logbase2 self bytes) ∧
      (target = .lp64 → ¬ Undoes target logbase2 self bytes) := by
  constructor
  · rintro rfl h
    exact undoes_ilp32 hpos hround h hbytes
  · rintro rfl ⟨sealedBytes, hencrypt, -⟩
    rw [encrypt_lp64] at hencrypt
    exact absurd hencrypt (by simp)

/-- Eight rounds, whose logarithm is three, on one block. -/
theorem undoes_eight : Undoes .ilp32 (fun _ => 3) (tea none 8 true) [1, 2, 3, 4, 5, 6, 7, 8] :=
  (undoes_of .ilp32 (fun _ => 3) (by decide) (by decide) (by rfl)).1 rfl
    (.inr (.inr ⟨by decide, by decide⟩))

/-- Three rounds with words of four bytes, and the usual count with words of eight. -/
theorem not_undoes_three :
    ¬ Undoes .ilp32 (fun _ => 1) (tea none 3 false) [1, 2, 3, 4, 5, 6, 7, 8] ∧
      ¬ Undoes .lp64 (fun _ => 5) (tea none 32 false) (List.replicate 16 0) := by
  have hthree : (encrypt .ilp32 (tea none 3 false) [1, 2, 3, 4, 5, 6, 7, 8]).bind
      (decrypt .ilp32 (fun _ => 1) (tea none 3 false)) ≠ some [1, 2, 3, 4, 5, 6, 7, 8] := by
    decide +kernel
  constructor
  · rintro ⟨sealedBytes, hencrypt, hdecrypt⟩
    rw [hencrypt] at hthree
    exact hthree hdecrypt
  · rintro ⟨sealedBytes, hencrypt, -⟩
    rw [encrypt_lp64] at hencrypt
    exact absurd hencrypt (by simp)

end Mylib.Proofs.Algorithm
