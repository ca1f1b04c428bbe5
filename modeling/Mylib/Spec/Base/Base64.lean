import Mylib.Spec.Base.StringUtil

/-!
# `Mylib.Spec.Base.Base64`: two base64 encoders and a decoder

`public/basic/base64.cc`: `Base64Encode`, which writes with the three tables of `base64.h`,
`base64_encode` and `base64_decode`, which use shifts and one alphabet, and `Base64Decode`,
which calls `base64_decode`.

Characters and bytes are `unsigned char`, and the expressions over them are `int`, which none
of them leaves. `none` is undefined behaviour: an `int` that is decreased below its smallest
value, or a length that is negative as an `int`.
-/

set_option autoImplicit false

namespace Mylib.Spec.Base.Base64

open StringUtil

/-- `base64_chars`. -/
def base64Chars : Str :=
  text ['A', 'B', 'C', 'D', 'E', 'F', 'G', 'H', 'I', 'J', 'K', 'L', 'M', 'N', 'O', 'P',
    'Q', 'R', 'S', 'T', 'U', 'V', 'W', 'X', 'Y', 'Z', 'a', 'b', 'c', 'd', 'e', 'f',
    'g', 'h', 'i', 'j', 'k', 'l', 'm', 'n', 'o', 'p', 'q', 'r', 's', 't', 'u', 'v',
    'w', 'x', 'y', 'z', '0', '1', '2', '3', '4', '5', '6', '7', '8', '9', '+', '/']

/-! ### The tables -/

/-- `e0`: every character of the alphabet four times. -/
def e0 : Str := base64Chars.flatMap (List.replicate 4)

/-- `e1`: the alphabet four times. -/
def e1 : Str := base64Chars ++ base64Chars ++ base64Chars ++ base64Chars

/-- `e2`, which is `e1` again. -/
def e2 : Str := base64Chars ++ base64Chars ++ base64Chars ++ base64Chars

/-- `CHARPAD`. -/
def charPad : UInt8 := 61

/-- `table[i]`. -/
def entry (table : Str) (i : Nat) : UInt8 := table.getD i 0

/-! ### `Base64Encode` -/

/-- `modp_b64_encode`: the loop while more than two bytes are left, and the `switch`. -/
def modpB64Encode : Str → Str
  | t1 :: t2 :: t3 :: str =>
    entry e0 t1.toNat
      :: entry e1 ((t1.toNat &&& 0x03) <<< 4 ||| (t2.toNat >>> 4 &&& 0x0F))
      :: entry e1 ((t2.toNat &&& 0x0F) <<< 2 ||| (t3.toNat >>> 6 &&& 0x03))
      :: entry e2 t3.toNat :: modpB64Encode str
  | [] => []
  | [t1] => [entry e0 t1.toNat, entry e1 ((t1.toNat &&& 0x03) <<< 4), charPad, charPad]
  | [t1, t2] =>
    [entry e0 t1.toNat,
      entry e1 ((t1.toNat &&& 0x03) <<< 4 ||| (t2.toNat >>> 4 &&& 0x0F)),
      entry e2 ((t2.toNat &&& 0x0F) <<< 2), charPad]

/-- `Base64Encode`: `*output`. The length is cut to an `int`. -/
def base64Encode (input : Str) : Option Str :=
  let inputSize := (input.length : Int).bmod (2 ^ 32)
  if inputSize < 0 then none else some (modpB64Encode (input.take inputSize.toNat))

/-! ### `base64_encode` -/

/-- `char_array_4`. -/
def charArray4 (c0 c1 c2 : UInt8) : List Nat :=
  [(c0.toNat &&& 0xfc) >>> 2,
    ((c0.toNat &&& 0x03) <<< 4) + ((c1.toNat &&& 0xf0) >>> 4),
    ((c1.toNat &&& 0x0f) <<< 2) + ((c2.toNat &&& 0xc0) >>> 6),
    c2.toNat &&& 0x3f]

/-- What follows the loop: `i` bytes are left in `char_array_3`. -/
def encodeRest (charArray3 : Str) : Str :=
  let i := charArray3.length
  if i = 0 then []
  else
    ((charArray4 (charArray3.getD 0 0) (charArray3.getD 1 0) (charArray3.getD 2 0)).take
      (i + 1)).map (entry base64Chars) ++ List.replicate (3 - i) charPad

/-- `base64_encode` behind the bytes in `charArray3`. -/
def base64EncodeLoop : Str → Str → Str → Str
  | [], charArray3, ret => ret ++ encodeRest charArray3
  | b :: bytesToEncode, charArray3, ret =>
    match charArray3 ++ [b] with
    | [c0, c1, c2] =>
      base64EncodeLoop bytesToEncode [] (ret ++ (charArray4 c0 c1 c2).map (entry base64Chars))
    | charArray3 => base64EncodeLoop bytesToEncode charArray3 ret

/-- `base64_encode`, with the `in_len` bytes at `bytes_to_encode`. -/
def base64_encode (bytesToEncode : Str) : Str := base64EncodeLoop bytesToEncode [] []

/-! ### `base64_decode` -/

/-- `is_base64`. -/
def isBase64 (c : UInt8) : Bool :=
  (48 ≤ c.toNat && c.toNat ≤ 57) || (65 ≤ c.toNat && c.toNat ≤ 90) ||
    (97 ≤ c.toNat && c.toNat ≤ 122) || c.toNat == 43 || c.toNat == 47

/-- `base64_chars.find(c)` in an `unsigned char`. -/
def find (c : UInt8) : Nat :=
  match base64Chars.idxOf? c with
  | some i => i % 256
  | none => 255

/-- `char_array_3` of four characters. -/
def charArray3 (c0 c1 c2 c3 : UInt8) : Str :=
  [(find c0 <<< 2) + ((find c1 &&& 0x30) >>> 4),
    ((find c1 &&& 0xf) <<< 4) + ((find c2 &&& 0x3c) >>> 2),
    ((find c2 &&& 0x3) <<< 6) + find c3].map UInt8.ofNat

/-- What follows the loop: `i` characters are left in `char_array_4`. -/
def decodeRest (charArray4 : Str) : Str :=
  let i := charArray4.length
  if i = 0 then []
  else
    (charArray3 (charArray4.getD 0 0) (charArray4.getD 1 0) (charArray4.getD 2 0)
      (charArray4.getD 3 0)).take (i - 1)

/-- The loop of `base64_decode` over the characters from `in_` on, and what follows it. -/
def base64DecodeLoop : Str → Int → Str → Str → Option Str
  | encodedString, inLen, charArray4, ret =>
    if inLen = 0 then some (ret ++ decodeRest charArray4)
    else if inLen ≤ -2 ^ 31 then none
    else
      match encodedString with
      -- The character behind the last one is a zero.
      | [] => some (ret ++ decodeRest charArray4)
      | c :: encodedString =>
        if c ≠ charPad ∧ isBase64 c then
          match charArray4 ++ [c] with
          | [c0, c1, c2, c3] =>
            base64DecodeLoop encodedString (inLen - 1) [] (ret ++ charArray3 c0 c1 c2 c3)
          | charArray4 => base64DecodeLoop encodedString (inLen - 1) charArray4 ret
        else some (ret ++ decodeRest charArray4)

/-- `base64_decode`. -/
def base64_decode (encodedString : Str) : Option Str :=
  base64DecodeLoop encodedString ((encodedString.length : Int).bmod (2 ^ 32)) [] []

/-- `Base64Decode`: `*output`. -/
def base64Decode (input : Str) : Option Str := base64_decode input

end Mylib.Spec.Base.Base64
