import Mylib.Spec.Base.HttpReader
import Mylib.Spec.Base.JsonGrammar

/-!
# `Mylib.Spec.Base.HttpGrammar`: the parameter lists the parser can read

A parameter list is `k=v&k=v…`. A key or a value is a field: any text without the two
separators and without the terminator. Here stands which fields are read whole, and
as what, in terms of the field alone; `Mylib.Proofs.Base.HttpTokens` compares this
with the tokenizer, which looks at the whole rest of the text.
-/

set_option autoImplicit false

namespace Mylib.Spec.Base

namespace HttpGrammar

open JsonValueSerializer (wide isDigit isHexDigit hexToInt)
open JsonGrammar (Number keyOf shortEscapes)

/-! ### Fields and lists of them -/

section

variable {α : Type}

/-- The pairs joined by `amp`, the parts of each by `eq`. -/
def joinPairs (eq amp : α) : List (List α × List α) → List α
  | [] => []
  | [(key, value)] => key ++ eq :: value
  | (key, value) :: pair :: pairs =>
    key ++ eq :: (value ++ amp :: joinPairs eq amp (pair :: pairs))

end

/-- The text of a parameter list. -/
def listText (pairs : List (WString × WString)) : WString :=
  joinPairs '='.toNat '&'.toNat pairs

def IsFieldText (t : WString) : Prop := ∀ c ∈ t, c ≠ '&'.toNat ∧ c ≠ '='.toNat ∧ c ≠ 0

/-- The blanks in front of a token. -/
def IsBlank (c : WChar) : Prop := c ∈ wide [' ', '\r', '\t']

instance (c : WChar) : Decidable (IsBlank c) := inferInstanceAs (Decidable (c ∈ wide _))

/-- The text without the blanks in front. -/
def trim (t : WString) : WString := t.dropWhile fun c => decide (IsBlank c)

/-! ### Strings -/

/-- What stands behind a backslash, and the character it stands for. -/
inductive Escape : WString → WChar → Prop where
  | short {e d : WChar} : (e, d) ∈ shortEscapes → Escape [e] d
  | hex2 {a b : WChar} : isHexDigit a → isHexDigit b →
      Escape ['x'.toNat, a, b] (hexToInt a * 16 + hexToInt b)
  | hex4 {a b c d : WChar} : isHexDigit a → isHexDigit b → isHexDigit c → isHexDigit d →
      Escape ['u'.toNat, a, b, c, d]
        (hexToInt a * 4096 + hexToInt b * 256 + hexToInt c * 16 + hexToInt d)

/-- A field whose escapes are all valid, and the characters it stands for. -/
inductive Unescapes : WString → WString → Prop where
  | nil : Unescapes [] []
  | raw {c : WChar} {t w : WString} : c ≠ '\\'.toNat → Unescapes t w → Unescapes (c :: t) (c :: w)
  | escape {es t w : WString} {d : WChar} :
      Escape es d → Unescapes t w → Unescapes ('\\'.toNat :: (es ++ t)) (d :: w)

/-! ### The choice by the first characters -/

/-- The keywords, with their types. -/
def keywords : List (WString × TokenType) :=
  [(wide ['n', 'u', 'l', 'l'], .nullToken), (wide ['t', 'r', 'u', 'e'], .boolTrue),
    (wide ['f', 'a', 'l', 's', 'e'], .boolFalse)]

def StartsKeyword (t : WString) : Prop := ∃ keyword ∈ keywords, keyword.1 <+: t

/-- Read as a number or not at all: a digit or a minus comes first, there are at most
19 characters, and behind an optional sign all are digits, `e`, `E` or one point. -/
structure NumberShaped (t : WString) : Prop where
  first : ∀ c, t.head? = some c → isDigit c ∨ c = '-'.toNat
  short : t.length ≤ 19
  chars : ∀ c ∈ t.tail, isDigit c ∨ c ∈ wide ['.', 'e', 'E']
  onePoint : t.count '.'.toNat ≤ 1

/-! ### Keys and values -/

/-- A field that is read as the key `key`. -/
structure KeyText (t key : WString) : Prop where
  nonempty : trim t ≠ []
  no_keyword : ¬StartsKeyword (trim t)
  unescapes : ∃ w, Unescapes (trim t) w ∧ key = keyOf w

section

variable {D : Type} (F : Doubles D)

/-- A field that is read whole as a value. Blanks may follow a word. -/
inductive ValueText (t : WString) : Value D → Prop where
  | null {g : WString} : trim t = wide ['n', 'u', 'l', 'l'] ++ g → (∀ c ∈ g, IsBlank c) →
      ValueText t .null
  | boolTrue {g : WString} : trim t = wide ['t', 'r', 'u', 'e'] ++ g → (∀ c ∈ g, IsBlank c) →
      ValueText t (.boolean true)
  | number {n : Number} {v : Value D} : trim t = n.text → NumberShaped n.text →
      n.denote F = some v → ValueText t v
  | string {w : WString} : trim t ≠ [] → ¬StartsKeyword (trim t) → ¬NumberShaped (trim t) →
      Unescapes (trim t) w → ValueText t (.createStringValue w)

end

end HttpGrammar

end Mylib.Spec.Base
