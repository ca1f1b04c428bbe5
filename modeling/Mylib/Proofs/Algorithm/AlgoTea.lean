import Mylib.Proofs.Algorithm.TeaLoops

/-!
# `Mylib.Proofs.Algorithm.AlgoTea`: buffers survive encryption

The constant that the decryption of a block starts with is the sum after 32 rounds
(`decryptBlock_sum`), so the block routines undo each other. The loop over a buffer inherits
this, as it maps the blocks one by one (`inBlocks_blockBytes`), and a word and its four bytes
determine each other. What is encrypted is the buffer filled up with zeros,
whose length is the least multiple of eight that fits (`isLeast_padded`).
-/

set_option autoImplicit false

namespace Mylib.Proofs.Algorithm

open Mylib.Lib.ByteOrder
open Mylib.Spec.Algorithm
open Mylib.Spec.Algorithm.AlgoTea

/-! ### Blocks -/

/-- The last sum of encryption. -/
theorem decryptBlock_sum : (32 • delta : BitVec 32) = 0xC6EF3720 := by decide

/-- Decrypting undoes encrypting on every block and under every key: the sixteen rounds are run
backwards. -/
theorem decryptBlock_encryptBlock (v : Block 32) (k : Key 32) :
    decryptBlock (encryptBlock v k) k = v := by
  show decryptLoop k 32 0xC6EF3720 (encryptLoop k 32 0 v) = v
  rw [← decryptBlock_sum]
  exact decryptLoop_encryptLoop k 32 v

/-- The other way round: encrypting undoes decrypting. -/
theorem encryptBlock_decryptBlock (v : Block 32) (k : Key 32) :
    encryptBlock (decryptBlock v k) k = v := by
  show encryptLoop k 32 0 (decryptLoop k 32 0xC6EF3720 v) = v
  rw [← decryptBlock_sum]
  exact encryptLoop_decryptLoop k 32 v

/-! ### Words in a buffer -/

/-- The four bytes that are written for a word are read back as that word. -/
theorem word_bytes (v : BitVec 32) : word (bytes v) = v := by
  have hlt : v.toNat < 256 ^ 4 := v.isLt
  rw [word, bytes, bytesWord_wordBytes, Nat.mod_eq_of_lt hlt, BitVec.ofNat_toNat,
    BitVec.setWidth_eq]

/-- Four bytes that are read as a word are written again as the same bytes. -/
theorem bytes_word {bs : Str} (h : bs.length = 4) : bytes (word bs) = bs := by
  have hlt : bytesWord bs < 256 ^ bs.length := bytesWord_lt bs
  rw [h] at hlt
  change bytesWord bs < 2 ^ 32 at hlt
  rw [bytes, word, BitVec.toNat_ofNat, Nat.mod_eq_of_lt hlt, ← h, wordBytes_bytesWord]

/-- A word takes four bytes. -/
theorem length_bytes (v : BitVec 32) : (bytes v).length = 4 := length_wordBytes 4 v.toNat

/-- The loop takes a block from the front. -/
theorem inBlocks_block (f : Block 32 → Block 32) {i : Nat} (hi : i + 2 < 2 ^ 31)
    (v : Block 32) (p : Str) : inBlocks f i (bytes v.1 ++ bytes v.2 ++ p)
      = (inBlocks f (i + 2) p).map (bytes (f v).1 ++ bytes (f v).2 ++ ·) := by
  obtain ⟨v0, v1⟩ := v
  have hwords : f (word (bytes v0), word (bytes v1)) = f (v0, v1) := by
    rw [word_bytes, word_bytes]
  -- The counter is an `int`, which the next block still fits.
  rw [← hwords]
  exact if_pos hi

/-- The bytes of these blocks. -/
def blockBytes (vs : List (Block 32)) : Str := vs.flatMap fun v => bytes v.1 ++ bytes v.2

/-- The bytes of the first block stand in front of those of the others. -/
theorem blockBytes_cons (v : Block 32) (vs : List (Block 32)) :
    blockBytes (v :: vs) = bytes v.1 ++ bytes v.2 ++ blockBytes vs := List.flatMap_cons

/-- A block takes eight bytes. -/
theorem length_blockBytes (vs : List (Block 32)) : (blockBytes vs).length = 8 * vs.length := by
  induction vs with
  | nil => rfl
  | cons v vs ih =>
    rw [blockBytes_cons, List.length_append, List.length_append, length_bytes, length_bytes, ih,
      List.length_cons]
    omega

/-- A buffer whose length is a multiple of eight consists of blocks. -/
theorem exists_blockBytes {n : Nat} {p : Str} (hp : p.length = 8 * n) :
    ∃ vs, p = blockBytes vs := by
  induction n generalizing p with
  | zero => exact ⟨[], List.length_eq_zero_iff.mp hp⟩
  | succ n ih =>
    obtain ⟨vs, hvs⟩ := ih (p := p.drop 8) (by rw [List.length_drop]; omega)
    -- The first block is in the first eight bytes.
    refine ⟨(word (p.take 4), word ((p.drop 4).take 4)) :: vs, ?_⟩
    rw [blockBytes_cons, ← hvs, bytes_word (by rw [List.length_take]; omega),
      bytes_word (by rw [List.length_take, List.length_drop]; omega), List.append_assoc,
      ← List.drop_drop (i := 4) (j := 4), List.take_append_drop, List.take_append_drop]

/-- The loop over a buffer turns every block of it, in order. The bound is the one of its `int`
index, which counts words and has to get past the last one. -/
theorem inBlocks_blockBytes (f : Block 32 → Block 32) {i : Nat} {vs : List (Block 32)}
    (hi : i + 2 * vs.length < 2 ^ 31) :
    inBlocks f i (blockBytes vs) = some (blockBytes (vs.map f)) := by
  induction vs generalizing i with
  | nil => rfl
  | cons v vs ih =>
    rw [List.length_cons] at hi
    rw [blockBytes_cons, inBlocks_block f (by omega), ih (by omega), List.map_cons,
      blockBytes_cons]
    rfl

/-! ### Buffers -/

/-- The padded text fills its last block. This needs one byte at least, for the text of none is not
padded. -/
theorem length_padded {d : Str} (h : 1 ≤ d.length) :
    (padded d).length = (d.length + 7) / 8 * 8 := by
  unfold padded
  dsimp only
  split_ifs with hrest
  · rw [List.length_append, List.length_replicate]
    omega
  · omega

/-- Padding puts zeros behind the text and touches nothing of it. -/
theorem padded_eq {d : Str} (h : 1 ≤ d.length) :
    padded d = d ++ List.replicate ((padded d).length - d.length) 0 := by
  have hlen := length_padded h
  unfold padded at hlen ⊢
  dsimp only at hlen ⊢
  split_ifs with hrest
  · rw [List.length_append, Nat.add_sub_cancel_left, List.length_replicate]
  · rw [Nat.sub_self, List.replicate_zero, List.append_nil]

/-- The length of the new buffer. -/
theorem isLeast_padded {d : Str} (h : 1 ≤ d.length) :
    IsLeast {n | 8 ∣ n ∧ d.length ≤ n} (padded d).length := by
  rw [length_padded h]
  constructor
  · show 8 ∣ (d.length + 7) / 8 * 8 ∧ d.length ≤ (d.length + 7) / 8 * 8
    omega
  · rintro n ⟨hn, hle⟩
    omega

/-- What is promised of a buffer with these bytes: both calls succeed, and the second leaves
the bytes with zeros behind them. -/
def RoundTrips (d : Str) : Prop :=
  ∃ sealedData data, encrypt (some (.ofBytes d)) = some (true, some sealedData) ∧
    decrypt (some sealedData) = some (true, some data) ∧
    data.d = some (d ++ List.replicate (data.l - d.length) 0) ∧
    IsLeast {n | 8 ∣ n ∧ d.length ≤ n} data.l

/-- A buffer that consists of blocks once it is filled up is encrypted block by block. -/
theorem encrypt_ofBytes {d : Str} {vs : List (Block 32)} (hd : padded d = blockBytes vs)
    (hlen : 2 * vs.length < 2 ^ 31) : encrypt (some (.ofBytes d))
      = some (true, some (.ofBytes (blockBytes (vs.map (encryptBlock · key))))) := by
  show (inBlocks (encryptBlock · key) 0 (padded d)).bind _ = _
  rw [hd, inBlocks_blockBytes _ (by omega)]
  rfl

/-- Decrypting a buffer of whole blocks decrypts each of them. -/
theorem decrypt_ofBytes (vs : List (Block 32)) (hlen : 2 * vs.length < 2 ^ 31) :
    decrypt (some (.ofBytes (blockBytes vs)))
      = some (true, some (.ofBytes (blockBytes (vs.map (decryptBlock · key))))) := by
  have hmod : ¬ (blockBytes vs).length % 8 ≠ 0 := by
    rw [length_blockBytes, Nat.mul_mod_right]
    exact not_not.mpr rfl
  show (if (blockBytes vs).length % 8 ≠ 0 then _ else
    (inBlocks (decryptBlock · key) 0 (blockBytes vs)).bind _) = _
  rw [if_neg hmod, inBlocks_blockBytes _ (by omega)]
  rfl

/-- **A block and a buffer come back**: on a block the two directions are inverse to each other, and
a buffer of 1 to 2 ^ 31 - 1 bytes is decrypted to itself and the zeros that fill its last block. -/
theorem roundTrips {d : Str} (hpos : 1 ≤ d.length) (hlen : d.length < 2 ^ 31) :
    (∀ v k, decryptBlock (encryptBlock v k) k = v) ∧
      (∀ v k, encryptBlock (decryptBlock v k) k = v) ∧ RoundTrips d := by
  have hlength : (padded d).length = (d.length + 7) / 8 * 8 := length_padded hpos
  obtain ⟨vs, hvs⟩ := exists_blockBytes (n := (d.length + 7) / 8) (p := padded d) (by omega)
  have hcount : (padded d).length = 8 * vs.length := by rw [hvs, length_blockBytes]
  -- What comes back are the blocks of the buffer that was filled up.
  have hback : (vs.map (encryptBlock · key)).map (decryptBlock · key) = vs := by
    rw [List.map_map]
    exact (List.map_congr_left fun v _ => decryptBlock_encryptBlock v key).trans vs.map_id
  have hdecrypt := decrypt_ofBytes (vs.map (encryptBlock · key))
    (by rw [List.length_map]; omega)
  rw [hback, ← hvs] at hdecrypt
  exact ⟨decryptBlock_encryptBlock, encryptBlock_decryptBlock, _, _,
    encrypt_ofBytes hvs (by omega), hdecrypt, congrArg some (padded_eq hpos), isLeast_padded hpos⟩

/-- The round trip at a buffer of three bytes. -/
theorem roundTrips_three : 1 ≤ ([7, 0, 255] : Str).length ∧ RoundTrips [7, 0, 255] :=
  ⟨by decide, (roundTrips (by decide) (by decide)).2.2⟩

end Mylib.Proofs.Algorithm
