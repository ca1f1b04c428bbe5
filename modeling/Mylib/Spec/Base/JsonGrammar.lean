import Mylib.Spec.Base.JsonReader

/-!
# `Mylib.Spec.Base.JsonGrammar`: the texts the parser is meant to read

The grammar of RFC 4627 with the parser's leniencies, written as relations between
a text and what it denotes: comments between tokens, one trailing comma in a
container, `\x` and `\v` in strings, and any other character raw. Nothing here
follows the parser's control flow; `Mylib.Proofs.Base.JsonAccepts` compares the
two.

`JsonText n` is the grammar of values nested at most `n` levels deep, a scalar
being one level. It is built from `JsonText (n - 1)`, so no relation here refers to
itself through a container.
-/

set_option autoImplicit false

namespace Mylib.Spec.Base

open Mylib.Lib

namespace JsonGrammar

open JsonValueSerializer (wide isDigit isHexDigit hexToInt)

/-! ### Between the tokens -/

/-- RFC 4627 `ws`. -/
def Blank (c : WChar) : Prop := c ∈ wide [' ', '\n', '\r', '\t']

def LineBreak (c : WChar) : Prop := c ∈ wide ['\n', '\r']

instance (c : WChar) : Decidable (Blank c) := inferInstanceAs (Decidable (c ∈ wide _))

instance (c : WChar) : Decidable (LineBreak c) := inferInstanceAs (Decidable (c ∈ wide _))

/-- The body of a `//` comment. -/
def LineBody (body : WString) : Prop := ∀ c ∈ body, ¬LineBreak c

/-- The body of a block comment. -/
def BlockBody (body : WString) : Prop := ¬wide ['*', '/'] <:+: body

/-- Whitespace and comments before a token. -/
inductive Gap : WString → Prop where
  | nil : Gap []
  | blank {c : WChar} {g : WString} : Blank c → Gap g → Gap (c :: g)
  | line {body : WString} {c : WChar} {g : WString} :
      LineBody body → LineBreak c → Gap g → Gap (wide ['/', '/'] ++ body ++ c :: g)
  | block {body g : WString} :
      BlockBody body → Gap g → Gap (wide ['/', '*'] ++ body ++ wide ['*', '/'] ++ g)

/-- Whitespace and comments at the end of the text, where the last comment may be
unterminated. -/
inductive EndGap : WString → Prop where
  | gap {g : WString} : Gap g → EndGap g
  | line {g body : WString} : Gap g → LineBody body → EndGap (g ++ wide ['/', '/'] ++ body)
  | block {g body : WString} : Gap g → BlockBody body → EndGap (g ++ wide ['/', '*'] ++ body)

/-! ### Numbers -/

def Digits (ds : WString) : Prop := ds ≠ [] ∧ ∀ c ∈ ds, isDigit c

/-- RFC 4627 `int`: no zero in front of other digits. -/
def WholeText (t : WString) : Prop := Digits t ∧ (1 < t.length → t.head? ≠ some '0'.toNat)

/-- RFC 4627 `[ frac ]`. -/
def FracText (t : WString) : Prop := t = [] ∨ ∃ ds, Digits ds ∧ t = wide ['.'] ++ ds

/-- RFC 4627 `[ exp ]`. -/
def ExpText (t : WString) : Prop :=
  t = [] ∨ ∃ e sign ds, e ∈ wide ['e', 'E'] ∧ sign ∈ [[], wide ['-'], wide ['+']] ∧ Digits ds ∧
    t = e :: (sign ++ ds)

/-- RFC 4627 `number`. -/
structure Number where
  negative : Bool
  whole : WString
  frac : WString
  exp : WString
  whole_text : WholeText whole
  frac_text : FracText frac
  exp_text : ExpText exp

namespace Number

def sign (n : Number) : WString := if n.negative then wide ['-'] else []

def text (n : Number) : WString := n.sign ++ n.whole ++ n.frac ++ n.exp

/-- The number the digits before the fraction stand for. -/
def wholeValue (n : Number) : Int :=
  let m : Nat := n.whole.foldl (fun m c => 10 * m + (c - '0'.toNat)) 0
  if n.negative then -(m : Int) else m

/-- The 64-bit integer an integer literal stands for. -/
def int64 (n : Number) : Option Int64 :=
  if n.frac = [] ∧ n.exp = [] ∧ -2 ^ 63 ≤ n.wholeValue ∧ n.wholeValue < 2 ^ 63 then
    some (Int64.ofInt n.wholeValue)
  else none

/-- What the literal denotes: a 64-bit integer, otherwise a finite double, otherwise
nothing. -/
def denote {D : Type} (F : Doubles D) (n : Number) : Option (Value D) :=
  match n.int64 with
  | some i => some (.bigInteger i)
  | none =>
    let d := F.atof (StringConversions.wideToASCII n.text)
    if F.finite d then some (.real d) else none

end Number

/-! ### Strings -/

/-- The escapes of one letter, with the character each stands for. -/
def shortEscapes : List (WChar × WChar) :=
  [('"'.toNat, 0x22), ('\\'.toNat, 0x5C), ('/'.toNat, 0x2F), ('b'.toNat, 0x08), ('f'.toNat, 0x0C),
    ('n'.toNat, 0x0A), ('r'.toNat, 0x0D), ('t'.toNat, 0x09), ('v'.toNat, 0x0B)]

/-- The inside of a string literal, and the characters it stands for. -/
inductive Chars : WString → WString → Prop where
  | nil : Chars [] []
  | raw {c : WChar} {t w : WString} :
      c ≠ '"'.toNat → c ≠ '\\'.toNat → Chars t w → Chars (c :: t) (c :: w)
  | short {e d : WChar} {t w : WString} :
      (e, d) ∈ shortEscapes → Chars t w → Chars ('\\'.toNat :: e :: t) (d :: w)
  | hex2 {a b : WChar} {t w : WString} :
      isHexDigit a → isHexDigit b → Chars t w →
      Chars ('\\'.toNat :: 'x'.toNat :: a :: b :: t) ((hexToInt a * 16 + hexToInt b) :: w)
  | hex4 {a b c d : WChar} {t w : WString} :
      isHexDigit a → isHexDigit b → isHexDigit c → isHexDigit d → Chars t w →
      Chars ('\\'.toNat :: 'u'.toNat :: a :: b :: c :: d :: t)
        ((hexToInt a * 4096 + hexToInt b * 256 + hexToInt c * 16 + hexToInt d) :: w)

/-- A string literal. -/
def quoted (t : WString) : WString := '"'.toNat :: (t ++ ['"'.toNat])

/-- A dictionary's key: the characters of a literal as a string value gives them
back. -/
def keyOf (w : WString) : WString :=
  StringConversions.utf8ToWide (StringConversions.wideToUTF8 w)

/-! ### Containers -/

section

variable {α : Type}

/-- What stands behind an item, up to the closing bracket. -/
inductive MoreItems (item : WString → α → Prop) (close : WChar) : WString → List α → Prop where
  | close {g : WString} : Gap g → MoreItems item close (g ++ [close]) []
  | trailing {g g' : WString} :
      Gap g → Gap g' → MoreItems item close (g ++ ','.toNat :: (g' ++ [close])) []
  | next {g g' t u : WString} {a : α} {as : List α} :
      Gap g → Gap g' → item t a → MoreItems item close u as →
      MoreItems item close (g ++ ','.toNat :: (g' ++ t ++ u)) (a :: as)

/-- What stands behind the opening bracket. -/
inductive Items (item : WString → α → Prop) (close : WChar) : WString → List α → Prop where
  | empty {g : WString} : Gap g → Items item close (g ++ [close]) []
  | items {g t u : WString} {a : α} {as : List α} :
      Gap g → item t a → MoreItems item close u as → Items item close (g ++ t ++ u) (a :: as)

end

section

variable {D : Type} (F : Doubles D)

/-- RFC 4627 `member`. -/
inductive Member (value : WString → Value D → Prop) : WString → WString × Value D → Prop where
  | mk {t w g g' u : WString} {v : Value D} :
      Chars t w → Gap g → Gap g' → value u v →
      Member value (quoted t ++ g ++ ':'.toNat :: (g' ++ u)) (keyOf w, v)

/-- RFC 4627 `value`, with `value` for what a container holds. -/
inductive ValueText (value : WString → Value D → Prop) : WString → Value D → Prop where
  | null : ValueText value (wide ['n', 'u', 'l', 'l']) .null
  | boolTrue : ValueText value (wide ['t', 'r', 'u', 'e']) (.boolean true)
  | boolFalse : ValueText value (wide ['f', 'a', 'l', 's', 'e']) (.boolean false)
  | number {n : Number} {v : Value D} : n.denote F = some v → ValueText value n.text v
  | string {t w : WString} : Chars t w → ValueText value (quoted t) (.createStringValue w)
  | array {t : WString} {items : List (Value D)} :
      Items value ']'.toNat t items → ValueText value ('['.toNat :: t) (.list items)
  | object {t : WString} {members entries : List (WString × Value D)} :
      Items (Member value) '}'.toNat t members → OrderedMap.Describes members entries →
      ValueText value ('{'.toNat :: t) (.dictionary entries)

/-- The texts of values nested at most `n` levels deep, with what they denote. -/
def JsonText : Nat → WString → Value D → Prop
  | 0 => fun _ _ => False
  | n + 1 => ValueText F (JsonText n)

/-- The value is an array or an object. -/
def IsContainer : Value D → Prop
  | .list _ => True
  | .dictionary _ => True
  | _ => False

/-- A whole text: an array or an object nested at most `kStackLimit` levels deep,
between whitespace and comments. -/
structure Document (text : WString) (v : Value D) : Prop where
  parts : ∃ g t e, text = g ++ t ++ e ∧ Gap g ∧ EndGap e ∧
    JsonText F JsonValueSerializer.kStackLimit t v
  container : IsContainer v

end

end JsonGrammar

end Mylib.Spec.Base
