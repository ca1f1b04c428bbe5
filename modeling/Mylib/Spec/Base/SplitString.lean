import Mylib.Spec.Base.StringUtil

/-!
# `Mylib.Spec.Base.SplitString`: tokens between delimiters

`BasicUtil::SplitStringChr` of `public/basic/basic_util.cc`. A pointer into the string is the
list of the characters from there up to the terminator.
-/

set_option autoImplicit false

namespace Mylib.Spec.Base.SplitString

open Mylib.Spec.Base (Str)

/-- `strspn`. -/
def strspn (str charSet : Str) : ℕ := (str.takeWhile (· ∈ charSet)).length

/-- `strpbrk`, as the distance from `str`. -/
def strpbrk (str charSet : Str) : Option ℕ := str.findIdx? (· ∈ charSet)

/-- The loop of `SplitStringChr`: `str` and `out` behind it. `none` where it is still running
after `fuel` rounds. -/
def splitLoop (charSet : Str) : (fuel : ℕ) → (str : Str) → (out : List Str) →
    Option (Str × List Str)
  | 0, _, _ => none
  | fuel + 1, str, out =>
    match strpbrk str charSet with
    | none => some (str, out)
    | some findPtr =>
      let out := if findPtr ≠ 0 then out ++ [str.take findPtr] else out
      let str := str.drop findPtr
      splitLoop charSet fuel (str.drop (strspn str charSet)) out

/-- `SplitStringChr`: the result, and `out`. The size is cut to an `int`. -/
def splitStringChr (fuel : ℕ) (str charSet : Str) : Option (Int × List Str) :=
  let size (out : List Str) : Int := (out.length : Int).bmod (2 ^ 32)
  if charSet = [] then
    let out := if str ≠ [] then [str] else []
    some (size out, out)
  else
    (splitLoop charSet fuel (str.drop (strspn str charSet)) []).map fun (str, out) =>
      let out := if str ≠ [] then out ++ [str] else out
      (size out, out)

end Mylib.Spec.Base.SplitString
