import Mathlib

/-!
# `Mylib.Spec.Base.StringConversions`: UTF-8 and wide strings

`BasicUtil::StringConversions` of `public/basic/basic_util.cc`, with the macros of
`public/basic/icu_utf.h` and `utf8_nextCharSafeBody` of `icu_utf.cc`. A
`std::string` is a list of bytes. A `std::wstring` is a list of code units, and a
code point above `0xffff` takes two of them, as in UTF-16.

A reader looks at one unit and at what follows it, and returns the code point, or
`none` for `CBU_SENTINEL` and every other invalid one, and how many of the
following units it has taken. Masks and shifts are written as `%`, `/` and `*`.
-/

set_option autoImplicit false

namespace Mylib.Spec.Base

/-- `std::string`. -/
abbrev Str := List UInt8

/-- `wchar_t`, with `'\0'` for zero. -/
abbrev WChar := Nat

/-- `std::wstring`. -/
abbrev WString := List WChar

namespace StringConversions

/-! ### Reading UTF-8 -/

/-- `IsValidCodepoint`. -/
def isValidCodepoint (c : Nat) : Bool := c < 0xD800 || (0xE000 ≤ c && c ≤ 0x10FFFF)

/-- `CBU_IS_SURROGATE` and `CBU16_IS_SURROGATE`. -/
def isSurrogate (c : Nat) : Bool := c / 0x800 == 0x1B

/-- `CBU8_IS_LEAD`: `(uint8)(c - 0xc0) < 0x3e`. -/
def isLead8 (b : UInt8) : Bool := 0xC0 ≤ b.toNat && b.toNat < 0xFE

/-- `CBU8_IS_TRAIL`: `(c & 0xc0) == 0x80`. -/
def isTrail8 (b : UInt8) : Bool := b.toNat / 64 == 2

/-- `utf8_countTrailBytes`. -/
def countTrailBytes (b : UInt8) : Nat :=
  let v := b.toNat
  if v < 0xC0 then 0
  else if v < 0xE0 then 1
  else if v < 0xF0 then 2
  else if v < 0xF8 then 3
  else if v < 0xFC then 4
  else if v < 0xFE then 5
  else 0

/-- `utf8_minLegal`. -/
def minLegal : Nat → Nat
  | 0 => 0
  | 1 => 0x80
  | 2 => 0x800
  | _ => 0x10000

/-- The `switch` of `utf8_nextCharSafeBody`: the code point put together from the
masked lead byte `c` and the trail bytes, `none` when `illegal` is set. -/
def sequence (c : Nat) : Nat → Str → Option Nat
  | 3, t :: u :: v :: _ =>
    let c := c * 64 + t.toNat % 64
    if c < 0x110 && isTrail8 t && isTrail8 u && isTrail8 v then
      some ((c * 64 + u.toNat % 64) * 64 + v.toNat % 64)
    else none
  | 2, t :: u :: _ =>
    if isTrail8 t && isTrail8 u then some ((c * 64 + t.toNat % 64) * 64 + u.toNat % 64)
    else none
  | 1, t :: _ => if isTrail8 t then some (c * 64 + t.toNat % 64) else none
  | _, _ => none

/-- `utf8_nextCharSafeBody` with `strict == -1`. -/
def nextCharSafeBody (lead : UInt8) (rest : Str) : Option Nat × Nat :=
  let count := countTrailBytes lead
  if count ≤ rest.length then
    match sequence (lead.toNat % 2 ^ (6 - count)) count rest with
    | some c =>
      if c < minLegal count || isSurrogate c then
        (none, ((rest.take count).takeWhile isTrail8).length)
      else (some c, count)
    | none => (none, ((rest.take count).takeWhile isTrail8).length)
  else (none, (rest.takeWhile isTrail8).length)

/-- `CBU8_NEXT`. -/
def next8 (b : UInt8) (rest : Str) : Option Nat × Nat :=
  if 0x80 ≤ b.toNat then if isLead8 b then nextCharSafeBody b rest else (none, 0)
  else (some b.toNat, 0)

/-- `ReadUnicodeCharacter` on bytes. -/
def readUnicodeCharacter8 (b : UInt8) (rest : Str) : Option Nat × Nat :=
  let r := next8 b rest
  (r.1.filter isValidCodepoint, r.2)

/-! ### Reading wide strings -/

/-- `CBU16_IS_SURROGATE_LEAD`: `(c & 0x400) == 0`. -/
def isSurrogateLead (c : WChar) : Bool := c / 0x400 % 2 == 0

/-- `CBU16_IS_TRAIL`: `(c & 0xfffffc00) == 0xdc00`. -/
def isTrail16 (c : WChar) : Bool := c / 0x400 == 0x37

/-- `CBU16_GET_SUPPLEMENTARY`. -/
def getSupplementary (lead trail : WChar) : Nat :=
  lead * 0x400 + trail - (0xD800 * 0x400 + 0xDC00 - 0x10000)

/-- `ReadUnicodeCharacter` on wide characters. -/
def readUnicodeCharacter16 (c : WChar) (rest : WString) : Option Nat × Nat :=
  if isSurrogate c then
    match rest with
    | [] => (none, 0)
    | t :: _ =>
      if !isSurrogateLead c || !isTrail16 t then (none, 0)
      else (some (getSupplementary c t) |>.filter isValidCodepoint, 1)
  else (some c |>.filter isValidCodepoint, 0)

/-! ### Writing -/

/-- `WriteUnicodeCharacter` to a `std::string`, with `CBU8_APPEND_UNSAFE`. -/
def writeUnicodeCharacter8 (c : Nat) : Str :=
  if c ≤ 0x7F then [UInt8.ofNat c]
  else if c ≤ 0x7FF then [UInt8.ofNat (c / 64 + 0xC0), UInt8.ofNat (c % 64 + 0x80)]
  else if c ≤ 0xFFFF then
    [UInt8.ofNat (c / 4096 + 0xE0), UInt8.ofNat (c / 64 % 64 + 0x80), UInt8.ofNat (c % 64 + 0x80)]
  else
    [UInt8.ofNat (c / 262144 + 0xF0), UInt8.ofNat (c / 4096 % 64 + 0x80),
      UInt8.ofNat (c / 64 % 64 + 0x80), UInt8.ofNat (c % 64 + 0x80)]

/-- `WriteUnicodeCharacter` to a `std::wstring`, with `CBU16_APPEND_UNSAFE`. -/
def writeUnicodeCharacter16 (c : Nat) : WString :=
  if c ≤ 0xFFFF then [c] else [c / 0x400 + 0xD7C0, c % 0x400 + 0xDC00]

/-! ### The conversions -/

/-- The loop of `ConverUnicode`. An invalid character is written as `U+FFFD`. -/
def converUnicode {α β : Type} (readUnicodeCharacter : α → List α → Option Nat × Nat)
    (writeUnicodeCharacter : Nat → List β) : List α → List β
  | [] => []
  | c :: rest =>
    let r := readUnicodeCharacter c rest
    writeUnicodeCharacter (r.1.getD 0xFFFD)
      ++ converUnicode readUnicodeCharacter writeUnicodeCharacter (rest.drop r.2)
termination_by src => src.length
decreasing_by simp only [List.length_drop, List.length_cons]; omega

/-- `static_cast<int32>(src_len)` as the bound of the loop: a length whose cast is
negative lets the loop run no time. -/
def srcLen32 (n : Nat) : Nat := if n % 2 ^ 32 < 2 ^ 31 then n % 2 ^ 32 else 0

/-- `UTF8ToWide`. -/
def utf8ToWide (utf8 : Str) : WString :=
  converUnicode readUnicodeCharacter8 writeUnicodeCharacter16
    (utf8.take (srcLen32 utf8.length))

/-- `WideToUTF8`. -/
def wideToUTF8 (wide : WString) : Str :=
  converUnicode readUnicodeCharacter16 writeUnicodeCharacter8
    (wide.take (srcLen32 wide.length))

/-- `WideToASCII`: each character cut to its low byte. -/
def wideToASCII (wide : WString) : Str := wide.map UInt8.ofNat

end StringConversions

end Mylib.Spec.Base
