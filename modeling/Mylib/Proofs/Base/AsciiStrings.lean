import Mylib.Proofs.Base.ValuePaths
import Mylib.Spec.Base.AsciiStrings

/-!
# `Mylib.Proofs.Base.AsciiStrings`: what `IsStringASCII` sees

The loop compares in the type that `ToUnsigned` gives (`doIsStringASCII_iff`). For an unsigned
type that is the test for ASCII (`doIsStringASCII_unsigned_iff`). For `char` the template gives
`char`, no value of which is above `0x7F`, and the answer is always `true`
(`isStringASCII_true`). So `GetStringASCII` hands out every string it finds, and `asciiSound_iff`
says that its promise and that of `IsStringASCII` are kept on ASCII strings only.
-/

set_option autoImplicit false

namespace Mylib.Proofs.Base

open Mylib.Lib Mylib.Spec.Base
open StringConversions StringUtil

variable {D : Type}

/-- Every byte is at most `0x7F`. -/
def IsAscii (str : Str) : Prop := ∀ b ∈ str, b.toNat ≤ 0x7F

/-- `GetStringASCII` succeeds on `stored` only if that is ASCII, and `IsStringASCII` answers
`true` exactly if `str` is. -/
structure AsciiSound (entries : Entries D) (path str : Str) : Prop where
  retrieval : ∀ stored,
    valueAt (components (asciiToWide path)) (.dictionary entries) = some (.string stored) →
      (DictionaryValue.getStringASCII path entries).isSome = true → IsAscii stored
  exact : isStringASCII str = true ↔ IsAscii str

/-- The loop checks the converted value of every character against 0x7F. -/
theorem doIsStringASCII_iff {CHAR : Type} (toUnsigned : CHAR → Int) (str : List CHAR) :
    doIsStringASCII toUnsigned str = true ↔ ∀ c ∈ str, toUnsigned c ≤ 0x7F := by
  induction str with
  | nil => simp [doIsStringASCII]
  | cons c str ih =>
    rw [doIsStringASCII, List.forall_mem_cons, ← ih]
    split_ifs with hc
    · simp [hc]
    · simp [not_lt.mp hc]

/-- With the unsigned counterpart of `char` the loop would decide. -/
theorem doIsStringASCII_unsigned_iff (str : Str) :
    doIsStringASCII (fun c : UInt8 => (c.toNat : Int)) str = true ↔ IsAscii str := by
  rw [doIsStringASCII_iff]
  exact forall₂_congr fun c _ => by omega

/-- The narrow check accepts every string: `ToUnsigned` leaves a `char` signed, and no signed byte
is above 0x7F. -/
theorem isStringASCII_true (str : Str) : isStringASCII str = true := by
  refine (doIsStringASCII_iff _ str).mpr fun c _ => ?_
  exact Int.lt_add_one_iff.mp c.toInt8.toInt_lt

/-- `GetStringASCII` finds what `GetString` finds. -/
theorem getStringASCII_eq (path : Str) (entries : Entries D) :
    DictionaryValue.getStringASCII path entries
      = (valueAt (components (asciiToWide path)) (.dictionary entries)).bind
          Value.getAsString := by
  have hstring : DictionaryValue.getString (asciiToWide path) entries
      = (valueAt (components (asciiToWide path)) (.dictionary entries)).bind
          Value.getAsString := by
    rw [DictionaryValue.getString, get_eq_valueAt]
    cases valueAt (components (asciiToWide path)) (.dictionary entries) <;> rfl
  rw [DictionaryValue.getStringASCII, hstring]
  cases (valueAt (components (asciiToWide path)) (.dictionary entries)).bind
    Value.getAsString with
  | none => rfl
  | some out => simp [isStringASCII_true]

/-- **`GetStringASCII` is sound exactly if** the string that stands under the path has no byte from
0x80 on, whatever the dictionary, the path and the string passed in are. -/
theorem asciiSound_iff (entries : Entries D) (path str : Str) :
    AsciiSound entries path str ↔
      (∀ stored, valueAt (components (asciiToWide path)) (.dictionary entries)
        = some (.string stored) → IsAscii stored) ∧ IsAscii str := by
  constructor
  · intro h
    refine ⟨fun stored hstored => h.retrieval stored hstored ?_,
      h.exact.mp (isStringASCII_true str)⟩
    rw [getStringASCII_eq, hstored]
    rfl
  · rintro ⟨hstored, hstr⟩
    exact ⟨fun stored hvalue _ => hstored stored hvalue,
      iff_of_true (isStringASCII_true str) hstr⟩

/-- `{"a": "\xE9"}` has a string under `a`, handed out as ASCII. -/
theorem not_asciiSound_latin :
    ¬AsciiSound (D := Unit) [([97], .string [0xE9])] [97] [] := by
  intro h
  have hvalue : valueAt (D := Unit) (components (asciiToWide [97]))
      (.dictionary [([97], .string [0xE9])]) = some (.string [0xE9]) := by
    rfl
  have hsome : (DictionaryValue.getStringASCII (D := Unit) [97]
      [([97], .string [0xE9])]).isSome = true := by
    rw [getStringASCII_eq, hvalue]
    rfl
  exact absurd (h.retrieval _ hvalue hsome 0xE9 List.mem_cons_self) (by decide)

end Mylib.Proofs.Base
