import Mylib.Lib.CString
import Mylib.Lib.Memory
import Mylib.Spec.Base.StringUtil

/-!
# `Mylib.Spec.Base.UrlCoding`: URL encoding and decoding

`UrlEncode`, `UrlDecode` and `php_htoi` of `public/basic/basic_util.cc`. Lengths are cut to an
`int`. What `malloc` and `strdup` return is an argument: `false` is a null pointer.

A read or a write outside of a block, or a read of a cell that nothing was stored in, is
`.error .outside`; the use of a null pointer `.error .null`; a sum or a product that does not fit
an `int`, which is undefined behaviour, `.error .overflow`.
-/

set_option autoImplicit false

namespace Mylib.Spec.Base

open Mylib.Lib.Memory

namespace UrlCoding

open StringUtil

inductive Fault where
  | outside
  | null
  | overflow
  deriving DecidableEq, Repr

/-! ### Numbers and cells -/

/-- A length cut to an `int`. -/
def int32 (n : Nat) : Int := (n : Int).bmod (2 ^ 32)

/-- The result of an `int` operation. -/
def checked (x : Int) : Except Fault Int :=
  if -2 ^ 31 ≤ x ∧ x < 2 ^ 31 then .ok x else .error .overflow

/-- Store the bytes from the offset `i` on. -/
def store (m : Block UInt8) (i : Nat) (bytes : Str) : Except Fault (Block UInt8) :=
  match copyIn m i (bytes.map some) with
  | some m => .ok m
  | none => .error .outside

/-- `p[i]`. -/
def load (m : Block UInt8) (i : Nat) : Except Fault UInt8 :=
  match m[i]? with
  | some (some c) => .ok c
  | _ => .error .outside

/-- `str.assign(p, n)`. -/
def assign (m : Block UInt8) (n : Nat) : Except Fault Str :=
  match (copyOut m 0 n).bind fun cells => cells.mapM id with
  | some str => .ok str
  | none => .error .outside

/-- `str = p`: the bytes in front of the first zero. -/
def cString : Block UInt8 → Except Fault Str
  | some c :: m => if c = 0 then .ok [] else (cString m).map (c :: ·)
  | _ => .error .outside

/-! ### `UrlEncode` -/

/-- The three tests for letters and digits. -/
def isAlnum (ch : UInt8) : Bool :=
  (65 ≤ ch.toNat && ch.toNat ≤ 90) || (97 ≤ ch.toNat && ch.toNat ≤ 122) || isDigit ch

/-- `ch == '.' || ch == '-' || ch == '_' || ch == '*'`. -/
def isMark (ch : UInt8) : Bool := ch ∈ text ['.', '-', '_', '*']

/-- A digit of `%02X`. -/
def hexDigit (n : Nat) : UInt8 := UInt8.ofNat (if n < 10 then 48 + n else 55 + n)

/-- `%%%02X` of a character, without the terminator. -/
def escaped (ch : UInt8) : Str :=
  [37, hexDigit (ch.toNat / 16), hexDigit (ch.toNat % 16)]

/-- The loop over the characters that are left. `none` is `return false`. -/
def encodeLoop (resultSize : Nat) :
    Str → Nat → Block UInt8 → Except Fault (Option (Block UInt8 × Nat))
  | [], j, result => return some (result, j)
  | ch :: str, j, result =>
    if j < resultSize then
      if isAlnum ch then do
        encodeLoop resultSize str (j + 1) (← store result j [ch])
      else if ch = 32 then do
        encodeLoop resultSize str (j + 1) (← store result j [43])
      else if isMark ch then do
        encodeLoop resultSize str (j + 1) (← store result j [ch])
      else if j + 3 < resultSize then do
        -- `sprintf` writes the terminator too.
        encodeLoop resultSize str (j + 3) (← store result j (escaped ch ++ [0]))
      else return none
    else return some (result, j)

/-- `UrlEncode`: `out_str`, or `none` for `false`. -/
def urlEncode (malloc : Bool) (content : Str) : Except Fault (Option Str) := do
  let strSize := int32 content.length
  let resultSize ← checked (strSize * 3)
  if !malloc || strSize ≤ 0 || resultSize ≤ 0 then return none
  match ← encodeLoop resultSize.toNat (content.take strSize.toNat) 0 (alloc resultSize.toNat) with
  | none => return none
  | some (result, j) =>
    -- `'/0'` is a number whose last byte is `'0'`.
    let result ← store result j [48]
    return some (← assign result j)

/-! ### `UrlDecode` -/

/-- `isxdigit`. -/
def isXDigit (c : UInt8) : Bool :=
  isDigit c || (65 ≤ c.toNat && c.toNat ≤ 70) || (97 ≤ c.toNat && c.toNat ≤ 102)

/-- One digit of `php_htoi`, after `tolower`. -/
def htoiDigit (c : UInt8) : Int :=
  let c : Int := if 65 ≤ c.toNat ∧ c.toNat ≤ 90 then c.toNat + 32 else c.toNat
  if 48 ≤ c ∧ c ≤ 57 then c - 48 else c - 97 + 10

/-- `php_htoi`. -/
def phpHtoi (c d : UInt8) : Int := htoiDigit c * 16 + htoiDigit d

/-- `(char) value`. -/
def toChar (value : Int) : UInt8 := UInt8.ofNat (value % 256).toNat

/-- The test for `%` and two digits, from left to right, and the character they stand for. -/
def escapeAt (str : Block UInt8) (data : Nat) (c : UInt8) (inStrLen : Int) :
    Except Fault (Option UInt8) :=
  if c = 37 ∧ 2 ≤ inStrLen then do
    let x ← load str (data + 1)
    if isXDigit x then
      let y ← load str (data + 2)
      if isXDigit y then return some (toChar (phpHtoi x y)) else return none
    else return none
  else return none

/-- The loop, with the offsets of `data` and `dest` in `str`. -/
def decodeLoop (inStrLen : Int) (data dest : Nat) (str : Block UInt8) :
    Except Fault (Nat × Block UInt8) :=
  if inStrLen = 0 then .ok (dest, str)
  -- `in_str_len--` at the smallest `int`.
  else if _ : inStrLen ≤ -2 ^ 31 then .error .overflow
  else do
    let inStrLen := inStrLen - 1
    let c ← load str data
    -- A `+` is a blank.
    if c = 43 then
      decodeLoop inStrLen (data + 1) (dest + 1) (← store str dest [32])
    else
      match ← escapeAt str data c inStrLen with
      | some value =>
        -- The two digits of an escape count as well.
        decodeLoop (inStrLen - 2) (data + 3) (dest + 1) (← store str dest [value])
      | none => decodeLoop inStrLen (data + 1) (dest + 1) (← store str dest [c])
termination_by (inStrLen + 2 ^ 31).toNat
decreasing_by all_goals omega

/-- `UrlDecode`: `out_str`. -/
def urlDecode (strdup : Bool) (content : Str) : Except Fault Str := do
  let inStr := content.takeWhile (· ≠ 0)
  if !strdup then throw .null
  let (dest, str) ← decodeLoop (int32 inStr.length) 0 0 ((inStr ++ [0]).map some)
  cString (← store str dest [0])

end UrlCoding

end Mylib.Spec.Base
