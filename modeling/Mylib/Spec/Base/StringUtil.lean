import Mylib.Spec.Base.StringConversions

/-!
# `Mylib.Spec.Base.StringUtil`: numbers and their text

`BasicUtil::StringUtil` of `public/basic/basic_util.cc`: integers and doubles read
from a string, and integers printed by `StringAppendF`. `strtoll` and the `%d`
conversions of `printf` are the C library's. What a `double` is stays open: its
three library functions are the fields of `Doubles`.
-/

set_option autoImplicit false

namespace Mylib.Spec.Base

/-- The library functions on `double`: `atof`, `finite`, and `os << value`. -/
structure Doubles (D : Type) where
  atof : Str → D
  finite : D → Bool
  print : D → Str

namespace StringUtil

/-- A string literal of the source: its characters as bytes. -/
def text (cs : List Char) : Str := cs.map fun c => UInt8.ofNat c.toNat

/-! ### Reading -/

/-- `isspace`. -/
def isSpace (b : UInt8) : Bool := b.toNat == 32 || (9 ≤ b.toNat && b.toNat ≤ 13)

/-- `isdigit`. -/
def isDigit (b : UInt8) : Bool := 48 ≤ b.toNat && b.toNat ≤ 57

/-- What `strtoll` leaves behind: its value, the text from `endptr` on, and
whether `errno` is `ERANGE`. -/
structure Strtoll where
  value : Int64
  endptr : Str
  erange : Bool

/-- The number a run of decimal digits stands for. -/
def digitsValue (ds : Str) : Nat := ds.foldl (fun n d => 10 * n + (d.toNat - 48)) 0

/-- The optional sign `strtoll` accepts. -/
def readSign : Str → Bool × Str
  | [] => (false, [])
  | b :: s =>
    if b.toNat = 45 then (true, s) else if b.toNat = 43 then (false, s) else (false, b :: s)

/-- `strtoll(str, &endptr, 10)`. Without a digit nothing is read; a value out of
range is cut to the nearest one. -/
def strtoll (str : Str) : Strtoll :=
  let signed := readSign (str.dropWhile isSpace)
  let digits := signed.2.takeWhile isDigit
  let rest := signed.2.dropWhile isDigit
  let n : Int := if signed.1 then -(digitsValue digits : Int) else digitsValue digits
  if digits = [] then ⟨0, str, false⟩
  else if n < -2 ^ 63 then ⟨Int64.minValue, rest, true⟩
  else if 2 ^ 63 ≤ n then ⟨Int64.maxValue, rest, true⟩
  else ⟨Int64.ofInt n, rest, false⟩

/-- `StringToInt64Traits::valid_func`. -/
def validFunc (str : Str) : Bool :=
  match str with
  | [] => false
  | b :: _ => !isSpace b

/-- `StringToInt64`: `StringToNumber` with the 64-bit traits. `none` is `false`. -/
def stringToInt64 (input : Str) : Option Int64 :=
  let r := strtoll input
  if !r.erange && !input.isEmpty && r.endptr.isEmpty && validFunc input then some r.value
  else none

/-- `StringToDouble`. -/
def stringToDouble {D : Type} (F : Doubles D) (input : Str) : Option D :=
  if input.isEmpty then none else some (F.atof input)

/-! ### Printing -/

/-- The decimal digits of `n`. -/
def decimal (n : Nat) : Str := text (Nat.toDigits 10 n)

def signedDecimal (n : Int) : Str :=
  if n < 0 then text ['-'] ++ decimal n.natAbs else decimal n.natAbs

/-- What `StringAppendF` appends for the format `%<width>d`: the number, filled up
with blanks from the left to `width` characters. Without a width it is `0`. -/
def formatInt (width : Nat) (n : Int) : Str :=
  let digits := signedDecimal n
  List.replicate (width - digits.length) 32 ++ digits

end StringUtil

end Mylib.Spec.Base
