import Mylib.Lib.CString
import Mylib.Spec.Base.StringConversions

/-!
# `Mylib.Spec.Base.Utf8Reader`: UTF-8 read by index

`CBU8_NEXT` and `utf8_nextCharSafeBody` of `public/basic/icu_utf.h` and `icu_utf.cc`, and the
loops of `ConverUnicode` and `IsStringUTF8` of `public/basic/basic_util.cc`, with the `int32`
index they go by. `StringConversions` has the decoder over the bytes that are left.

A read outside of the string is `.error .outside`. A sum that does not fit an `int32`, which is
undefined behaviour, is `.error .overflow`; the sums not checked here stay below the
length. -/

set_option autoImplicit false

namespace Mylib.Spec.Base

open StringConversions
open Mylib.Lib.CString (bind_eq_ok_iff)

namespace Utf8Reader

inductive Fault where
  | outside
  | overflow
  deriving DecidableEq, Repr

/-- `s[i]`. -/
def byteAt (s : Str) (i : Nat) : Except Fault UInt8 :=
  match s[i]? with
  | some b => .ok b
  | none => .error .outside

/-- `i + n` as an `int32`. -/
def add32 (i n : Nat) : Except Fault Nat :=
  if i + n < 2 ^ 31 then .ok (i + n) else .error .overflow

/-! ### The decoder -/

/-- The `switch` on `count`, each branch going on to the next: the code point, the index and
`illegal`. -/
def trailBytes (s : Str) : Nat → Nat → Nat → Bool → Except Fault (Nat × Nat × Bool)
  | 3, i, c, illegal => do
    let trail ← byteAt s i
    let c := c * 64 + trail.toNat % 64
    if c < 0x110 then trailBytes s 2 (i + 1) c (illegal || !isTrail8 trail)
    else return (c, i + 1, true)
  | 2, i, c, illegal => do
    let trail ← byteAt s i
    trailBytes s 1 (i + 1) (c * 64 + trail.toNat % 64) (illegal || !isTrail8 trail)
  | 1, i, c, illegal => do
    let trail ← byteAt s i
    return (c * 64 + trail.toNat % 64, i + 1, illegal || !isTrail8 trail)
  -- `case 0` returns the error at once, with the index as it is.
  | _, i, c, _ => return (c, i, true)

/-- `while (count > 0 && CBU8_IS_TRAIL(s[i])) { ++i; --count; }`. -/
def skipTrail (s : Str) : Nat → Nat → Except Fault Nat
  | 0, i => return i
  | count + 1, i => do
    let b ← byteAt s i
    if isTrail8 b then skipTrail s count (i + 1) else return i

/-- `utf8_nextCharSafeBody` with `strict == -1`: the code point, `none` for `CBU_SENTINEL`,
and the index left in `*pi`. -/
def utf8NextCharSafeBody (s : Str) (pi length : Nat) (c : UInt8) :
    Except Fault (Option Nat × Nat) := do
  let count := countTrailBytes c
  let stop ← add32 pi count
  if stop ≤ length then
    let (c, i, illegal) ← trailBytes s count pi (c.toNat % 2 ^ (6 - count)) false
    if illegal || c < minLegal count || isSurrogate c then
      return (none, ← skipTrail s count pi)
    else return (some c, i)
  -- Too few bytes left: `while (i < length && CBU8_IS_TRAIL(s[i])) ++i;`.
  else return (none, ← skipTrail s (length - pi) pi)

/-- `CBU8_NEXT`. -/
def cbu8Next (s : Str) (i length : Nat) : Except Fault (Option Nat × Nat) := do
  let c ← byteAt s i
  if 0x80 ≤ c.toNat then
    if isLead8 c then utf8NextCharSafeBody s (i + 1) length c else return (none, i + 1)
  else return (some c.toNat, i + 1)

/-! ### The index only rises -/

/-- Skipping never goes back. -/
theorem le_of_skipTrail {s : Str} {count i j : Nat} (h : skipTrail s count i = .ok j) : i ≤ j := by
  induction count generalizing i with
  | zero =>
    cases h
    exact le_rfl
  | succ count ih =>
    obtain ⟨b, -, h⟩ := bind_eq_ok_iff.mp h
    split_ifs at h
    · exact (Nat.le_succ i).trans (ih h)
    · cases h
      exact le_rfl

/-- Reading continuation bytes never goes back. -/
theorem le_of_trailBytes {s : Str} {count i c : Nat} {illegal : Bool} {r : Nat × Nat × Bool}
    (h : trailBytes s count i c illegal = .ok r) : i ≤ r.2.1 := by
  have hone : ∀ {i c illegal}, trailBytes s 1 i c illegal = .ok r → i ≤ r.2.1 := by
    intro i c illegal h
    rw [trailBytes] at h
    obtain ⟨b, -, h⟩ := bind_eq_ok_iff.mp h
    cases h
    exact Nat.le_succ i
  have htwo : ∀ {i c illegal}, trailBytes s 2 i c illegal = .ok r → i ≤ r.2.1 := by
    intro i c illegal h
    rw [trailBytes] at h
    obtain ⟨b, -, h⟩ := bind_eq_ok_iff.mp h
    exact (Nat.le_succ i).trans (hone h)
  unfold trailBytes at h
  split at h
  · obtain ⟨b, -, h⟩ := bind_eq_ok_iff.mp h
    dsimp only at h
    split_ifs at h
    · exact (Nat.le_succ _).trans (htwo h)
    · cases h
      exact Nat.le_succ _
  · obtain ⟨b, -, h⟩ := bind_eq_ok_iff.mp h
    exact (Nat.le_succ _).trans (hone h)
  · obtain ⟨b, -, h⟩ := bind_eq_ok_iff.mp h
    cases h
    exact Nat.le_succ _
  · cases h
    exact le_rfl

/-- The function never goes back. -/
theorem le_of_body {s : Str} {pi length : Nat} {c : UInt8} {r : Option Nat × Nat}
    (h : utf8NextCharSafeBody s pi length c = .ok r) : pi ≤ r.2 := by
  obtain ⟨stop, -, h⟩ := bind_eq_ok_iff.mp h
  split_ifs at h
  · obtain ⟨⟨c, i, illegal⟩, htrail, h⟩ := bind_eq_ok_iff.mp h
    dsimp only at h
    split_ifs at h
    · obtain ⟨j, hskip, h⟩ := bind_eq_ok_iff.mp h
      cases h
      exact le_of_skipTrail hskip
    · cases h
      exact le_of_trailBytes htrail
  · obtain ⟨j, hskip, h⟩ := bind_eq_ok_iff.mp h
    cases h
    exact le_of_skipTrail hskip

/-- The macro moves on by one byte at least. The loops over it end for this reason. -/
theorem lt_of_cbu8Next {s : Str} {i length : Nat} {r : Option Nat × Nat}
    (h : cbu8Next s i length = .ok r) : i < r.2 := by
  obtain ⟨c, -, h⟩ := bind_eq_ok_iff.mp h
  split_ifs at h
  · exact le_of_body h
  · cases h
    exact Nat.lt_succ_self i
  · cases h
    exact Nat.lt_succ_self i

/-! ### The loops -/

/-- The bytes that one pass of a loop consumes, and the code point that it gets out of them. -/
structure Consumed where
  start : Nat
  stop : Nat
  codePoint : Option Nat
  deriving DecidableEq, Repr

/-- The loop of `ConverUnicode` from the index `i` on: the output, and what is consumed.
`ReadUnicodeCharacter` steps back by one, and the loop forward. -/
def converUnicode (s : Str) (srcLen i : Nat) : Except Fault (WString × List Consumed) :=
  if i < srcLen then
    match _h : cbu8Next s i srcLen with
    | .error e => .error e
    | .ok r =>
      let codePoint := r.1.filter isValidCodepoint
      match converUnicode s srcLen r.2 with
      | .error e => .error e
      | .ok (output, consumed) =>
        .ok (writeUnicodeCharacter16 (codePoint.getD 0xFFFD) ++ output,
          ⟨i, r.2, codePoint⟩ :: consumed)
  else .ok ([], [])
termination_by srcLen - i
decreasing_by
  have hlt := lt_of_cbu8Next _h
  omega

/-- `UTF8ToWide`. -/
def utf8ToWide (utf8 : Str) : Except Fault (WString × List Consumed) :=
  converUnicode utf8 (srcLen32 utf8.length) 0

/-- `IsValidCharacter`. -/
def isValidCharacter (codePoint : Nat) : Bool :=
  codePoint < 0xD800 || (0xE000 ≤ codePoint && codePoint < 0xFDD0) ||
    (0xFDEF < codePoint && codePoint ≤ 0x10FFFF && codePoint &&& 0xFFFE != 0xFFFE)

/-- The loop of `IsStringUTF8` from the index `i` on. `CBU_SENTINEL` becomes `0xFFFFFFFF`. -/
def scanUTF8 (str : Str) (srcLen i : Nat) : Except Fault Bool :=
  if i < srcLen then
    match _h : cbu8Next str i srcLen with
    | .error e => .error e
    | .ok r =>
      if isValidCharacter (r.1.getD 0xFFFFFFFF) then .ok false else scanUTF8 str srcLen r.2
  else .ok true
termination_by srcLen - i
decreasing_by
  have hlt := lt_of_cbu8Next _h
  omega

/-- `StringUtil::IsStringUTF8`. -/
def isStringUTF8 (str : Str) : Except Fault Bool := scanUTF8 str (srcLen32 str.length) 0

end Utf8Reader

end Mylib.Spec.Base
