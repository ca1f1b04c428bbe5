import Mylib.Spec.Base.Base64

/-!
# `Mylib.Proofs.Base.Base64`: the encoders agree, the decoder undoes them

Both encoders turn three bytes into the same four numbers below 64 (`charArray4_eq`) and write
their characters; for one or two bytes that are left they write the first two or three of the
numbers of a group filled up with zeros (`modpB64Encode_rest`). So they agree on every string
(`base64_encode_eq`).

`base64_decode` gets the bytes of a group back (`charArray3_of_charArray4`). It keeps the
length of its input in an `int`, so it works as long as the text is shorter than `2 ^ 31`
(`base64_decode_encoded`). A longer one makes the counter negative, and it is decreased below
its smallest value before the end of the text (`base64_decode_long`). `agree_iff` puts this
together.
-/

set_option autoImplicit false

namespace Mylib.Proofs.Base.Base64

open Mylib.Spec.Base
open Mylib.Spec.Base.Base64

/-- What is promised of a byte string. -/
structure Agree (b : Str) : Prop where
  encoders : base64Encode b = some (base64_encode b)
  decodes : base64Decode (base64_encode b) = some b

/-! ### The tables -/

/-- The character of a number below 64. -/
def digit (n : Nat) : UInt8 := entry base64Chars n

/-- A table with every character four times. -/
theorem getD_flatMap_replicate (chars : Str) (n : Nat) :
    (chars.flatMap (List.replicate 4)).getD n 0 = chars.getD (n / 4) 0 := by
  induction chars generalizing n with
  | nil => rfl
  | cons c chars ih =>
    rw [List.flatMap_cons]
    by_cases hfirst : n < 4
    · rw [List.getD_append _ _ _ _ hfirst, Nat.div_eq_of_lt hfirst, List.getD_replicate c hfirst]
      rfl
    · obtain ⟨k, rfl⟩ := Nat.exists_eq_add_of_le (not_lt.mp hfirst)
      rw [List.getD_append_right _ _ _ _ (Nat.le_add_right 4 k), List.length_replicate,
        Nat.add_sub_cancel_left, ih, Nat.add_div_left k (by decide)]
      rfl

/-- A table with all characters several times over. -/
theorem getD_flatten_replicate (chars : Str) {k n : Nat} (h : n < k * chars.length) :
    (List.replicate k chars).flatten.getD n 0 = chars.getD (n % chars.length) 0 := by
  induction k generalizing n with
  | zero => omega
  | succ k ih =>
    rw [List.replicate_succ, List.flatten_cons]
    by_cases hfirst : n < chars.length
    · rw [List.getD_append _ _ _ _ hfirst, Nat.mod_eq_of_lt hfirst]
    · rw [Nat.add_mul, Nat.one_mul] at h
      rw [List.getD_append_right _ _ _ _ (not_lt.mp hfirst), ih (by omega),
        ← Nat.mod_eq_sub_mod (not_lt.mp hfirst)]

/-- The first table holds the digit of a byte's upper six bits. -/
theorem entry_e0 (n : Nat) : entry e0 n = digit (n / 4) := getD_flatMap_replicate base64Chars n

/-- The second table holds the digit of a byte's lower six bits. -/
theorem entry_e1 {n : Nat} (h : n < 256) : entry e1 n = digit (n % 64) := by
  show (List.replicate 4 base64Chars).flatten.getD n 0
    = base64Chars.getD (n % base64Chars.length) 0
  exact getD_flatten_replicate base64Chars h

/-- The third table is the second one again. -/
theorem entry_e2 {n : Nat} (h : n < 256) : entry e2 n = digit (n % 64) := entry_e1 h

/-- A character that the decoder goes on at. -/
def Plain (c : UInt8) : Prop := c ≠ charPad ∧ isBase64 c

/-- Each of the sixty-four digits is told apart from the padding, and the search finds its number.
Checked by evaluation, as the other facts about digits follow from it. -/
theorem digit_table : ∀ n < 64,
    (digit n ≠ charPad ∧ isBase64 (digit n)) ∧ find (digit n) = n := by
  decide +kernel

/-- A digit is in the alphabet and is not the padding. -/
theorem plain_digit {n : Nat} (h : n < 64) : Plain (digit n) := (digit_table n h).1

/-- The search in the alphabet gives a digit's number back. -/
theorem find_digit {n : Nat} (h : n < 64) : find (digit n) = n := (digit_table n h).2

/-! ### The masks -/

/-- The `k` bits from bit `j` on, which are the highest bits of `n`. -/
theorem masked_shiftRight {n : Nat} (mask j k : Nat) (hmask : mask >>> j = 2 ^ k - 1)
    (h : n < 2 ^ (j + k)) : (n &&& mask) >>> j = n / 2 ^ j := by
  have hlt : n / 2 ^ j < 2 ^ k := Nat.div_lt_of_lt_mul (by rwa [← pow_add])
  rw [Nat.shiftRight_and_distrib, hmask, Nat.and_two_pow_sub_one_eq_mod,
    Nat.shiftRight_eq_div_pow, Nat.mod_eq_of_lt hlt]

/-- The lowest `k` bits. -/
theorem masked_shiftLeft (n j k : Nat) : (n &&& 2 ^ k - 1) <<< j = n % 2 ^ k * 2 ^ j := by
  rw [Nat.and_two_pow_sub_one_eq_mod, Nat.shiftLeft_eq]

/-! ### One group -/

/-- The four numbers of three bytes. -/
theorem charArray4_eq (c0 c1 c2 : UInt8) : charArray4 c0 c1 c2
    = [c0.toNat / 4, c0.toNat % 4 * 16 + c1.toNat / 16, c1.toNat % 16 * 4 + c2.toNat / 64,
      c2.toNat % 64] := by
  have h0 : (c0.toNat &&& 0xfc) >>> 2 = c0.toNat / 4 := masked_shiftRight 0xfc 2 6 rfl c0.toNat_lt
  have h1 : (c0.toNat &&& 0x03) <<< 4 = c0.toNat % 4 * 16 := masked_shiftLeft _ 4 2
  have h2 : (c1.toNat &&& 0xf0) >>> 4 = c1.toNat / 16 := masked_shiftRight 0xf0 4 4 rfl c1.toNat_lt
  have h3 : (c1.toNat &&& 0x0f) <<< 2 = c1.toNat % 16 * 4 := masked_shiftLeft _ 2 4
  have h4 : (c2.toNat &&& 0xc0) >>> 6 = c2.toNat / 64 := masked_shiftRight 0xc0 6 2 rfl c2.toNat_lt
  have h5 : c2.toNat &&& 0x3f = c2.toNat % 64 := Nat.and_two_pow_sub_one_eq_mod _ 6
  rw [charArray4, h0, h1, h2, h3, h4, h5]

/-- The four numbers made of three bytes are below sixty-four. -/
theorem charArray4_lt (c0 c1 c2 : UInt8) : ∀ n ∈ charArray4 c0 c1 c2, n < 64 := by
  have hc0 := c0.toNat_lt
  have hc1 := c1.toNat_lt
  have hc2 := c2.toNat_lt
  rw [charArray4_eq]
  simp only [List.forall_mem_cons, List.not_mem_nil, false_implies, implies_true, and_true]
  omega

/-- What is decoded of two characters that stand next to each other. -/
theorem shifted_add {n0 n1 : Nat} (h : n1 < 64) :
    (n0 <<< 2) + ((n1 &&& 0x30) >>> 4) = n0 * 4 + n1 / 16 := by
  have h0 : n0 <<< 2 = n0 * 4 := Nat.shiftLeft_eq n0 2
  have h1 : (n1 &&& 0x30) >>> 4 = n1 / 16 := masked_shiftRight 0x30 4 2 rfl h
  rw [h0, h1]

/-- The masks and shifts between the second and the third number, as arithmetic. -/
theorem masked_add {n1 n2 : Nat} (h : n2 < 64) :
    ((n1 &&& 0xf) <<< 4) + ((n2 &&& 0x3c) >>> 2) = n1 % 16 * 16 + n2 / 4 := by
  have h1 : (n1 &&& 0xf) <<< 4 = n1 % 16 * 16 := masked_shiftLeft n1 4 4
  have h2 : (n2 &&& 0x3c) >>> 2 = n2 / 4 := masked_shiftRight 0x3c 2 4 rfl h
  rw [h1, h2]

/-- The characters of four numbers are decoded to three bytes. -/
theorem charArray3_digit {n0 n1 n2 n3 : Nat} (h0 : n0 < 64) (h1 : n1 < 64) (h2 : n2 < 64)
    (h3 : n3 < 64) : charArray3 (digit n0) (digit n1) (digit n2) (digit n3)
      = [n0 * 4 + n1 / 16, n1 % 16 * 16 + n2 / 4, n2 % 4 * 64 + n3].map UInt8.ofNat := by
  have hlast : (n2 &&& 0x3) <<< 6 = n2 % 4 * 64 := masked_shiftLeft n2 6 2
  rw [charArray3, find_digit h0, find_digit h1, find_digit h2, find_digit h3, shifted_add h1,
    masked_add h2, hlast]

/-- A byte is put together again from its parts. -/
theorem ofNat_eq {c : UInt8} {n : Nat} (h : n = c.toNat) : UInt8.ofNat n = c := by
  rw [h, UInt8.ofNat_toNat]

/-- The three bytes come back from the four digits of their group. -/
theorem charArray3_of_charArray4 (c0 c1 c2 : UInt8) :
    charArray3 (digit (c0.toNat / 4)) (digit (c0.toNat % 4 * 16 + c1.toNat / 16))
      (digit (c1.toNat % 16 * 4 + c2.toNat / 64)) (digit (c2.toNat % 64)) = [c0, c1, c2] := by
  have hc0 := c0.toNat_lt
  have hc1 := c1.toNat_lt
  have hc2 := c2.toNat_lt
  rw [charArray3_digit (by omega) (by omega) (by omega) (by omega), List.map_cons, List.map_cons,
    List.map_cons, List.map_nil, ofNat_eq (c := c0) (by omega), ofNat_eq (c := c1) (by omega),
    ofNat_eq (c := c2) (by omega)]

/-! ### The encoders -/

/-- The characters of a group of three. -/
def group (c0 c1 c2 : UInt8) : Str := (charArray4 c0 c1 c2).map digit

/-- The sums and the alternatives of the two encoders are the same numbers. -/
theorem entry_e1_or {m n : Nat} (hm : m < 4) (hn : n < 16) :
    entry e1 (m <<< 4 ||| n) = digit (m * 16 + n) := by
  rw [← Nat.shiftLeft_add_eq_or_of_lt (by omega), Nat.shiftLeft_eq, entry_e1 (by omega),
    Nat.mod_eq_of_lt (by omega)]

/-- Where the bits of two parts do not overlap, `|||` is their sum. -/
theorem entry_e1_or' {m n : Nat} (hm : m < 16) (hn : n < 4) :
    entry e1 (m <<< 2 ||| n) = digit (m * 4 + n) := by
  rw [← Nat.shiftLeft_add_eq_or_of_lt (by omega), Nat.shiftLeft_eq, entry_e1 (by omega),
    Nat.mod_eq_of_lt (by omega)]

/-- The parts of a byte that the tables are asked for. -/
theorem parts {n : Nat} (h : n < 256) : n &&& 0x03 = n % 4 ∧ n >>> 4 &&& 0x0F = n / 16 ∧
    n &&& 0x0F = n % 16 ∧ n >>> 6 &&& 0x03 = n / 64 := by
  have hlow : ∀ m, m &&& 0x03 = m % 4 := fun m => Nat.and_two_pow_sub_one_eq_mod m 2
  have hhalf : ∀ m, m &&& 0x0F = m % 16 := fun m => Nat.and_two_pow_sub_one_eq_mod m 4
  refine ⟨hlow n, ?_, hhalf n, ?_⟩
  · rw [hhalf, Nat.shiftRight_eq_div_pow]
    omega
  · rw [hlow, Nat.shiftRight_eq_div_pow]
    omega

/-- Three bytes are one group, and the text goes on behind them. -/
theorem modpB64Encode_group (t1 t2 t3 : UInt8) (str : Str) :
    modpB64Encode (t1 :: t2 :: t3 :: str) = group t1 t2 t3 ++ modpB64Encode str := by
  have h1 := t1.toNat_lt
  have h2 := t2.toNat_lt
  have h3 := t3.toNat_lt
  rw [modpB64Encode, (parts h1).1, (parts h2).2.1, (parts h2).2.2.1, (parts h3).2.2.2,
    entry_e0, entry_e1_or (by omega) (by omega), entry_e1_or' (by omega) (by omega),
    entry_e2 h3, group, charArray4_eq]
  rfl

/-- The `switch` does what follows the loop of `base64_encode`. -/
theorem modpB64Encode_rest {str : Str} (h : str.length < 3) :
    modpB64Encode str = encodeRest str := by
  rcases str with _ | ⟨t1, _ | ⟨t2, _ | ⟨t3, str⟩⟩⟩
  · rfl
  · have h1 := t1.toNat_lt
    -- One byte is left: its second digit has four zero bits.
    have hone : entry e1 ((t1.toNat &&& 0x03) <<< 4) = digit (t1.toNat % 4 * 16) := by
      rw [(parts h1).1, Nat.shiftLeft_eq, entry_e1 (by omega), Nat.mod_eq_of_lt (by omega)]
    rw [modpB64Encode, entry_e0, hone]
    simp [encodeRest, charArray4_eq, digit]
  · have h1 := t1.toNat_lt
    have h2 := t2.toNat_lt
    -- Two bytes are left: the third digit has two zero bits.
    have htwo : entry e2 ((t2.toNat &&& 0x0F) <<< 2) = digit (t2.toNat % 16 * 4) := by
      rw [(parts h2).2.2.1, Nat.shiftLeft_eq, entry_e2 (by omega), Nat.mod_eq_of_lt (by omega)]
    rw [modpB64Encode, entry_e0, (parts h1).1, (parts h2).2.1,
      entry_e1_or (by omega) (by omega), htwo]
    simp [encodeRest, charArray4_eq, digit]
  · simp only [List.length_cons] at h
    omega

/-- A string is three bytes and a string, or shorter. -/
theorem group_induction {P : Str → Prop} (rest : ∀ s : Str, s.length < 3 → P s)
    (step : ∀ c0 c1 c2 s, P s → P (c0 :: c1 :: c2 :: s)) (s : Str) : P s := by
  induction s using modpB64Encode.induct with
  | case1 c0 c1 c2 s ih => exact step c0 c1 c2 s ih
  | case2 => exact rest _ (by simp)
  | case3 => exact rest _ (by simp)
  | case4 => exact rest _ (by simp)

/-- The loop of the C function writes what the table encoder writes. -/
theorem base64EncodeLoop_eq (s ret : Str) :
    base64EncodeLoop s [] ret = ret ++ modpB64Encode s := by
  induction s using group_induction generalizing ret with
  | rest s hs =>
    rw [modpB64Encode_rest hs]
    rcases s with _ | ⟨c0, _ | ⟨c1, _ | ⟨c2, s⟩⟩⟩
    · rfl
    · rfl
    · rfl
    · simp only [List.length_cons] at hs
      omega
  | step c0 c1 c2 s ih =>
    rw [modpB64Encode_group, ← List.append_assoc]
    exact ih _

/-- The class's encoder and the table encoder give the same text. -/
theorem base64_encode_eq (s : Str) : base64_encode s = modpB64Encode s :=
  base64EncodeLoop_eq s []

/-- A length that fits an `int` is kept. -/
theorem bmod_length {n : Nat} (h : n < 2 ^ 31) : (n : Int).bmod (2 ^ 32) = n := by
  exact Int.bmod_eq_of_le (by omega) (by omega)

/-- The wrapper around the class's encoder, as long as its `int` length holds the size. -/
theorem base64Encode_eq {s : Str} (h : s.length < 2 ^ 31) :
    base64Encode s = some (base64_encode s) := by
  unfold base64Encode
  rw [bmod_length h, base64_encode_eq]
  simp

/-! ### The encoded text -/

/-- Four digits for three bytes, the last group rounded up. -/
theorem length_modpB64Encode (s : Str) :
    (modpB64Encode s).length = 4 * ((s.length + 2) / 3) := by
  induction s using group_induction with
  | rest s hs =>
    rcases s with _ | ⟨c0, _ | ⟨c1, _ | ⟨c2, s⟩⟩⟩
    · rfl
    · simp [modpB64Encode]
    · simp [modpB64Encode]
    · simp only [List.length_cons] at hs
      omega
  | step c0 c1 c2 s ih =>
    have hgroup : (group c0 c1 c2).length = 4 := rfl
    rw [modpB64Encode_group, List.length_append, ih, hgroup]
    simp only [List.length_cons]
    omega

/-- The text is plain up to at most two characters. -/
theorem exists_plain (s : Str) : ∃ body pad, modpB64Encode s = body ++ pad ∧
    (∀ c ∈ body, Plain c) ∧ pad.length ≤ 2 := by
  have hplain : ∀ {ns : List Nat}, (∀ n ∈ ns, n < 64) → ∀ c ∈ ns.map digit, Plain c := by
    intro ns hns c hc
    obtain ⟨n, hn, rfl⟩ := List.mem_map.mp hc
    exact plain_digit (hns n hn)
  induction s using group_induction with
  -- Fewer than three bytes: digits and at most two paddings.
  | rest s hs =>
    rw [modpB64Encode_rest hs]
    unfold encodeRest
    dsimp only
    split_ifs with hzero
    · exact ⟨[], [], rfl, by simp, by simp⟩
    · refine ⟨_, _, rfl, hplain fun n hn => ?_, by rw [List.length_replicate]; omega⟩
      exact charArray4_lt _ _ _ n (List.mem_of_mem_take hn)
  -- Three bytes: four digits in front of what follows.
  | step c0 c1 c2 s ih =>
    obtain ⟨body, pad, hsplit, hbody, hpad⟩ := ih
    refine ⟨group c0 c1 c2 ++ body, pad, ?_, ?_, hpad⟩
    · rw [modpB64Encode_group, hsplit, List.append_assoc]
    · exact List.forall_mem_append.mpr ⟨hplain (charArray4_lt c0 c1 c2), hbody⟩

/-! ### The decoder -/

/-- A plain character is stored, or completes a group. -/
theorem base64DecodeLoop_cons {c : UInt8} (hc : Plain c) {inLen : Int} (hne : inLen ≠ 0)
    (hlow : -2 ^ 31 < inLen) (s array4 ret : Str) :
    base64DecodeLoop (c :: s) inLen array4 ret
      = match array4 ++ [c] with
        | [c0, c1, c2, c3] => base64DecodeLoop s (inLen - 1) [] (ret ++ charArray3 c0 c1 c2 c3)
        | array4 => base64DecodeLoop s (inLen - 1) array4 ret := by
  rw [base64DecodeLoop, if_neg hne, if_neg (not_le.mpr hlow)]
  exact if_pos hc

/-- A padding character ends the loop. -/
theorem base64DecodeLoop_pad {inLen : Int} (hpos : 0 < inLen) (s array4 ret : Str) :
    base64DecodeLoop (charPad :: s) inLen array4 ret = some (ret ++ decodeRest array4) := by
  rw [base64DecodeLoop, if_neg hpos.ne', if_neg (by omega), if_neg fun h => h.1 rfl]

/-- The first characters of a text, none of which completes a group. -/
theorem base64DecodeLoop_two {c0 c1 : UInt8} (h0 : Plain c0) (h1 : Plain c1) {inLen : Int}
    (hpos : 2 ≤ inLen) (s ret : Str) : base64DecodeLoop (c0 :: c1 :: s) inLen [] ret
      = base64DecodeLoop s (inLen - 2) [c0, c1] ret := by
  rw [base64DecodeLoop_cons h0 (by omega) (by omega)]
  show base64DecodeLoop (c1 :: s) (inLen - 1) [c0] ret = _
  rw [base64DecodeLoop_cons h1 (by omega) (by omega), show inLen - 1 - 1 = inLen - 2 by omega]
  rfl

/-- One round over a group of four digits gives its three bytes. -/
theorem base64DecodeLoop_group (c0 c1 c2 : UInt8) {inLen : Int} (hpos : 4 ≤ inLen) (s ret : Str) :
    base64DecodeLoop (group c0 c1 c2 ++ s) inLen [] ret
      = base64DecodeLoop s (inLen - 4) [] (ret ++ [c0, c1, c2]) := by
  have hlt := charArray4_lt c0 c1 c2
  rw [charArray4_eq] at hlt
  simp only [List.forall_mem_cons] at hlt
  obtain ⟨h0, h1, h2, h3, -⟩ := hlt
  rw [← charArray3_of_charArray4 c0 c1 c2, group, charArray4_eq]
  simp only [List.map_cons, List.map_nil, List.cons_append, List.nil_append]
  rw [base64DecodeLoop_two (plain_digit h0) (plain_digit h1) (by omega),
    base64DecodeLoop_cons (plain_digit h2) (by omega) (by omega)]
  dsimp only [List.cons_append, List.nil_append]
  rw [base64DecodeLoop_cons (plain_digit h3) (by omega) (by omega),
    show inLen - 2 - 1 - 1 = inLen - 4 by omega]
  rfl

/-- Of two or three characters that are left, the fillers only touch the bytes that are cut
off. -/
theorem decodeRest_pair (d0 d1 : UInt8) : decodeRest [d0, d1]
    = [UInt8.ofNat ((find d0 <<< 2) + ((find d1 &&& 0x30) >>> 4))] := rfl

/-- What is left after the last whole group, when three digits are. -/
theorem decodeRest_triple (d0 d1 d2 : UInt8) : decodeRest [d0, d1, d2]
    = [UInt8.ofNat ((find d0 <<< 2) + ((find d1 &&& 0x30) >>> 4)),
      UInt8.ofNat (((find d1 &&& 0xf) <<< 4) + ((find d2 &&& 0x3c) >>> 2))] := rfl

/-- Two characters that are left give a byte. -/
theorem decodeRest_two (c0 : UInt8) :
    decodeRest [digit (c0.toNat / 4), digit (c0.toNat % 4 * 16)] = [c0] := by
  have h0 := c0.toNat_lt
  rw [decodeRest_pair, find_digit (by omega), find_digit (by omega), shifted_add (by omega),
    ofNat_eq (c := c0) (by omega)]

/-- Three characters that are left give two bytes. -/
theorem decodeRest_three (c0 c1 : UInt8) :
    decodeRest [digit (c0.toNat / 4), digit (c0.toNat % 4 * 16 + c1.toNat / 16),
      digit (c1.toNat % 16 * 4)] = [c0, c1] := by
  have h0 := c0.toNat_lt
  have h1 := c1.toNat_lt
  rw [decodeRest_triple, find_digit (by omega), find_digit (by omega), find_digit (by omega),
    shifted_add (by omega), masked_add (by omega), ofNat_eq (c := c0) (by omega),
    ofNat_eq (c := c1) (by omega)]

/-- One byte at the end is two digits and two paddings. -/
theorem modpB64Encode_one (c0 : UInt8) : modpB64Encode [c0]
    = digit (c0.toNat / 4) :: digit (c0.toNat % 4 * 16) :: [charPad, charPad] := by
  have hrest : modpB64Encode [c0] = encodeRest [c0] :=
    modpB64Encode_rest (show 1 < 3 by decide)
  rw [hrest]
  simp [encodeRest, charArray4_eq, digit]

/-- Two bytes at the end are three digits and one padding. -/
theorem modpB64Encode_two (c0 c1 : UInt8) : modpB64Encode [c0, c1]
    = digit (c0.toNat / 4) :: digit (c0.toNat % 4 * 16 + c1.toNat / 16)
      :: digit (c1.toNat % 16 * 4) :: [charPad] := by
  have hrest : modpB64Encode [c0, c1] = encodeRest [c0, c1] :=
    modpB64Encode_rest (show 2 < 3 by decide)
  rw [hrest]
  simp [encodeRest, charArray4_eq, digit]

/-- With the length of the text in `in_len`, the loop gets the bytes back. -/
theorem base64DecodeLoop_encoded (s ret : Str) :
    base64DecodeLoop (modpB64Encode s) (modpB64Encode s).length [] ret = some (ret ++ s) := by
  induction s using group_induction generalizing ret with
  | rest s hs =>
    rcases s with _ | ⟨c0, _ | ⟨c1, _ | ⟨c2, s⟩⟩⟩
    · rfl
    · have h0 := c0.toNat_lt
      rw [modpB64Encode_one, base64DecodeLoop_two (plain_digit (by omega))
        (plain_digit (by omega)) (by simp), base64DecodeLoop_pad (by simp), decodeRest_two]
    · have h0 := c0.toNat_lt
      have h1 := c1.toNat_lt
      rw [modpB64Encode_two, base64DecodeLoop_two (plain_digit (by omega))
        (plain_digit (by omega)) (by simp), base64DecodeLoop_cons (plain_digit (by omega))
        (by simp) (by simp)]
      -- The third character does not complete the group.
      show base64DecodeLoop [charPad] _ _ ret = _
      rw [base64DecodeLoop_pad (by simp)]
      exact congrArg some (congrArg (ret ++ ·) (decodeRest_three c0 c1))
    · simp only [List.length_cons] at hs
      omega
  | step c0 c1 c2 s ih =>
    have hgroup : (group c0 c1 c2).length = 4 := rfl
    have hlen : ((4 + (modpB64Encode s).length : Nat) : Int) - 4 = (modpB64Encode s).length := by
      omega
    rw [modpB64Encode_group, List.length_append, hgroup, base64DecodeLoop_group _ _ _ (by omega),
      hlen, ih, List.append_assoc]
    rfl

/-- Text that was encoded is decoded again, as long as the `int` length holds its size. -/
theorem base64_decode_encoded {s : Str} (h : (base64_encode s).length < 2 ^ 31) :
    base64_decode (base64_encode s) = some s := by
  rw [base64_decode, bmod_length h, base64_encode_eq, base64DecodeLoop_encoded]
  rfl

/-- A counter that starts below zero goes down to its smallest value. -/
theorem base64DecodeLoop_below {k : Nat} (hk : k < 2 ^ 31) {body : Str}
    (hbody : ∀ c ∈ body, Plain c) (hlen : k ≤ body.length) (pad array4 ret : Str) :
    base64DecodeLoop (body ++ pad) (-2 ^ 31 + k) array4 ret = none := by
  induction k generalizing body array4 ret with
  -- At the smallest `int` the next decrement overflows.
  | zero =>
    unfold base64DecodeLoop
    simp
  | succ k ih =>
    cases body with
    | nil => simp at hlen
    | cons c body =>
      -- A character that is a digit costs one more, whatever is stored.
      have hrest : ∀ array4 ret,
          base64DecodeLoop (body ++ pad) (-2 ^ 31 + (k + 1 : Nat) - 1) array4 ret = none := by
        intro array4 ret
        rw [show (-2 ^ 31 + (k + 1 : Nat) - 1 : Int) = -2 ^ 31 + k by omega]
        exact ih (by omega) (fun c hc => hbody c (List.mem_cons_of_mem _ hc))
          (Nat.le_of_succ_le_succ hlen) _ _
      rw [List.cons_append,
        base64DecodeLoop_cons (hbody c (List.mem_cons_self ..)) (by omega) (by omega)]
      split
      · exact hrest _ _
      · exact hrest _ _

/-- From 2 ^ 31 bytes on the length of the text is negative as an `int`, and nothing is decoded. -/
theorem base64_decode_long {s : Str} (h : s.length < 2 ^ 31)
    (hlong : 2 ^ 31 ≤ (base64_encode s).length) : base64_decode (base64_encode s) = none := by
  obtain ⟨body, pad, hsplit, hbody, hpad⟩ := exists_plain s
  have hlen := length_modpB64Encode s
  rw [base64_encode_eq, hsplit, List.length_append] at hlong
  rw [hsplit, List.length_append] at hlen
  -- `k` is how far the counter is above its smallest value.
  obtain ⟨k, hk⟩ := Nat.exists_eq_add_of_le hlong
  have hcount : ((body.length + pad.length : Nat) : Int).bmod (2 ^ 32) = -2 ^ 31 + k := by
    rw [hk, ← Int.sub_bmod_right]
    rw [Int.bmod_eq_of_le (by omega) (by omega)]
    omega
  rw [base64_decode, base64_encode_eq, hsplit, List.length_append, hcount]
  exact base64DecodeLoop_below (by omega) hbody (by omega) pad [] []

/-! ### The result -/

/-- A string that is too long is not decoded. -/
theorem decodes_long {b : Str} (h : b.length < 2 ^ 31) (hlong : 3 * (2 ^ 29 - 1) < b.length) :
    base64Decode (base64_encode b) ≠ some b := by
  have hlen := length_modpB64Encode b
  rw [← base64_encode_eq] at hlen
  have hnone : base64Decode (base64_encode b) = none := base64_decode_long h (by omega)
  rw [hnone]
  exact nofun

/-- **The encoders agree and their text comes back exactly if** it is shorter than 2 ^ 31 bytes,
that is, up to 3 * (2 ^ 29 - 1) bytes are encoded. -/
theorem agree_iff {b : Str} (h : b.length < 2 ^ 31) : Agree b ↔ b.length ≤ 3 * (2 ^ 29 - 1) := by
  have hlen := length_modpB64Encode b
  rw [← base64_encode_eq] at hlen
  constructor
  · intro hagree
    by_contra hlong
    exact decodes_long h (by omega) hagree.decodes
  · intro hshort
    exact ⟨base64Encode_eq h, base64_decode_encoded (by omega)⟩

/-- Four bytes, the last of them in a group of its own. -/
theorem agree_four : ([0, 255, 16, 171] : Str).length < 2 ^ 31 ∧ Agree [0, 255, 16, 171] :=
  have hlen : ([0, 255, 16, 171] : Str).length < 2 ^ 31 := by decide
  ⟨hlen, (agree_iff hlen).mpr (by decide)⟩

/-- `n` zeros. -/
def zeros (n : Nat) : Str := List.replicate n 0

/-- The failing input has the length that it is given. -/
theorem length_zeros (n : Nat) : (zeros n).length = n := List.length_replicate

/-- A text of 2 ^ 31 - 1 bytes is encoded to more than the `int` length of the decoder holds. -/
theorem not_agree_zeros : (zeros (2 ^ 31 - 1)).length < 2 ^ 31 ∧ ¬ Agree (zeros (2 ^ 31 - 1)) := by
  have hshort : (zeros (2 ^ 31 - 1)).length < 2 ^ 31 := by
    rw [length_zeros]
    norm_num
  have hlong : 3 * (2 ^ 29 - 1) < (zeros (2 ^ 31 - 1)).length := by
    rw [length_zeros]
    norm_num
  exact ⟨hshort, fun hagree => decodes_long hshort hlong hagree.decodes⟩

end Mylib.Proofs.Base.Base64
