import Mylib.Spec.Base.JsonGrammar

/-!
# `Mylib.Spec.Base.JsonReports`: the failures a caller of the JSON parser hears about

What `Deserialize` is meant to leave in `*error_code` (`ReportsExactly`), and the
texts for which `BuildValue` records an error at all (`RootReport`). The parser calls
`SetErrorCode` in three places only: the root is not an array or an object, a
string literal has an escape the grammar does not know, and a key is missing. Every
other failure goes without a code.

The relations follow a text from the left: behind a part that is in the grammar
comes the first token that is reported. As in `JsonText`, the number is how many
levels are left.
-/

set_option autoImplicit false

namespace Mylib.Spec.Base

namespace JsonGrammar

open JsonValueSerializer (kStackLimit)

/-! ### Single tokens -/

/-- A backslash in front of `e` begins no escape of the grammar. -/
def NoEscape (e : WString) : Prop :=
  ∀ t w r, Chars ('\\'.toNat :: t) w → e ≠ t ++ r

/-- The next token is a string literal that breaks off at an invalid escape. -/
def BadToken (u : WString) : Prop :=
  ∃ g t w e, Gap g ∧ Chars t w ∧ NoEscape e ∧ u = g ++ '"'.toNat :: (t ++ '\\'.toNat :: e)

/-- The next token is neither a string literal nor the end of an object. -/
def KeyMissing (u : WString) : Prop :=
  (∀ g t w r, Gap g → Chars t w → u ≠ g ++ (quoted t ++ r)) ∧
    ∀ g r, Gap g → u ≠ g ++ '}'.toNat :: r

/-- The next token opens neither an array nor an object. -/
def ContainerMissing (u : WString) : Prop :=
  ∀ g r, Gap g → u ≠ g ++ '['.toNat :: r ∧ u ≠ g ++ '{'.toNat :: r

/-! ### Containers -/

section

variable {α : Type}

/-- Behind an opening bracket or a comma: the item that comes first is reported, or
the token behind an item, or something behind the comma that follows it. -/
inductive ItemsReport (item : WString → α → Prop) (report : WString → Prop) : WString → Prop where
  | first {u : WString} : report u → ItemsReport item report u
  | behind {g t u : WString} {a : α} :
      Gap g → item t a → BadToken u → ItemsReport item report (g ++ (t ++ u))
  | later {g t g' u : WString} {a : α} :
      Gap g → item t a → Gap g' → ItemsReport item report u →
      ItemsReport item report (g ++ (t ++ (g' ++ ','.toNat :: u)))

end

/-- A member of an object, reported at its key, at its colon or at its value. -/
inductive MemberReport (report : WString → Prop) : WString → Prop where
  | key {u : WString} : KeyMissing u → MemberReport report u
  | colon {g t w u : WString} :
      Gap g → Chars t w → BadToken u → MemberReport report (g ++ (quoted t ++ u))
  | value {g t w g' u : WString} :
      Gap g → Chars t w → Gap g' → report u →
      MemberReport report (g ++ (quoted t ++ (g' ++ ':'.toNat :: u)))

section

variable {D : Type} (F : Doubles D)

/-- An array or an object that is reported inside. -/
inductive ContainerReport (value : WString → Value D → Prop) (report : WString → Prop) :
    WString → Prop where
  | array {g u : WString} :
      Gap g → ItemsReport value report u → ContainerReport value report (g ++ '['.toNat :: u)
  | object {g u : WString} :
      Gap g → ItemsReport (Member value) (MemberReport report) u →
      ContainerReport value report (g ++ '{'.toNat :: u)

/-- A value inside a container, with `n` levels left for it. The token it begins
with is read before the level is entered, so its escapes are checked even where
none is left. -/
def ValueReport : Nat → WString → Prop
  | 0 => BadToken
  | n + 1 => fun u => BadToken u ∨ ContainerReport (JsonText F n) (ValueReport n) u

/-- A whole text `BuildValue` fails on and records an error for. -/
def RootReport (text : WString) : Prop :=
  ContainerMissing text ∨
    ContainerReport (JsonText F (kStackLimit - 1)) (ValueReport F (kStackLimit - 1)) text

/-! ### `Deserialize` -/

/-- The text behind a byte order mark. -/
def behindMark (w : WString) : WString := if w.head? = some 0xFEFF then w.tail else w

/-- The text `Deserialize` parses: `c_str()` ends at the first zero. -/
def parsedText (w : WString) : WString := behindMark (w.takeWhile (· ≠ 0))

/-- The whole of `w` is one document. A zero is no character of a document. -/
def WellFormed (w : WString) : Prop := 0 ∉ w ∧ ∃ v, Document F (behindMark w) v

/-- The call on `str` has written `*error_code`, it is `NO_ERROR` exactly for a
document, and for anything else the result is `NULL` and the code an error. -/
def ReportsExactly (self : JsonValueSerializer) (str : Str) : Prop :=
  ∃ root code s', self.deserialize F str = .ok ((root, some code), s') ∧
    (code = .noError ↔ WellFormed F (StringConversions.utf8ToWide str)) ∧
    (¬WellFormed F (StringConversions.utf8ToWide str) → root = none ∧ code ≠ .noError)

end

end JsonGrammar

end Mylib.Spec.Base
