import Mylib.Spec.Base.StringUtil

/-!
# `Mylib.Spec.Base.NumberStrings`: the narrow parsers, and `IntToString`

`StringToNumber` of `public/basic/basic_util.cc` with the four integer traits of
`basic_util.h`, and `IntToStringT<std::string, int64, uint64, true>::IntToString`. `long` has 64
bits, so `strtol` and `strtoll` are one function. All four `convert_func` call it and cut its
value to the target.
-/

set_option autoImplicit false

namespace Mylib.Spec.Base.StringUtil

/-! ### Reading -/

/-- A value stored in a signed target of so many bits. -/
def narrow (bits : Nat) (value : Int) : Int := value.bmod (2 ^ bits)

/-- `StringToNumber`: what it returns, and `*output`. -/
def stringToNumber (bits : Nat) (input : Str) : Bool × Int :=
  let r := strtoll input
  (!r.erange && !input.isEmpty && r.endptr.isEmpty && validFunc input,
    narrow bits r.value.toInt)

/-- `StringToCharInt`. -/
def stringToCharInt (input : Str) : Bool × Int := stringToNumber 8 input

/-- `StringToShortInt`. -/
def stringToShortInt (input : Str) : Bool × Int := stringToNumber 16 input

/-- `StringToInt`. -/
def stringToInt (input : Str) : Bool × Int := stringToNumber 32 input

/-- `StringToInt64`, with `*output` where it returns `false`, too. -/
def stringToInt64Output (input : Str) : Bool × Int := stringToNumber 64 input

/-! ### Printing -/

/-- `3 * sizeof(INT) + 1`. -/
def kOutputBufSize : Nat := 3 * 8 + 1

/-- `ToUnsigned`: the negation wraps around. -/
def toUnsigned (value : Int64) : UInt64 :=
  (if value < 0 then -value else value).toUInt64

/-- `res % 10 + '0'`. -/
def lowDigit (res : UInt64) : UInt8 := UInt8.ofNat ((res % 10).toNat + 48)

/-- The loop, with the iterator as an offset in `outbuf`. `none` is a write in front of the
buffer. -/
def intToStringLoop (isNeg : Bool) : UInt64 → Str → Nat → Option Str
  | _, _, 0 => none
  | res, outbuf, it + 1 =>
    let outbuf := outbuf.set it (lowDigit res)
    let res := res / 10
    if res = 0 then
      if isNeg then
        match it with
        | 0 => none
        | it + 1 => some ((outbuf.set it 45).drop it)
      else some (outbuf.drop it)
    else intToStringLoop isNeg res outbuf it

/-- `Int64ToString`. -/
def int64ToString (value : Int64) : Option Str :=
  intToStringLoop (value < 0) (toUnsigned value) (List.replicate kOutputBufSize 0) kOutputBufSize

end Mylib.Spec.Base.StringUtil
