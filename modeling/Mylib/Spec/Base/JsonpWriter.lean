import Mylib.Spec.Base.JsonWriter

/-!
# `Mylib.Spec.Base.JsonpWriter`: the JSONP emitter

The writing half of `JsonpValueSerializer`, `base/logic/jsonp_serializer.cc`. The
recursion looks for the first dictionary entry with the key `jsonpcallback` and keeps
what it finds in two members of the class, so every function takes these members and
returns them after the text it appends. `Serialize` puts the text into a call of the
callback that was found.
-/

set_option autoImplicit false

namespace Mylib.Spec.Base

open StringUtil

/-- `GetAsString(std::string*)`. `none` is `false`, with the output as it was. -/
def Value.getAsString {D : Type} : Value D → Option Str
  | .string value => some value
  | _ => none

/-- The members of `JsonpValueSerializer` the emitter writes: `jsonp_call_` and
`is_init_jsonp_`. -/
structure JsonpCall where
  jsonpCall : Str
  isInitJsonp : Bool
  deriving DecidableEq, Repr

namespace JsonpWriter

open StringEscape

/-- The members after a constructor. -/
def init : JsonpCall := ⟨[], false⟩

def kCallbackKey : Str :=
  text ['j', 's', 'o', 'n', 'p', 'c', 'a', 'l', 'l', 'b', 'a', 'c', 'k']

section

variable {D : Type} (F : Doubles D) (prettyPrint escape : Bool)

/-- The text of a real: `.0` is appended to what reads like an integer, and a zero
put before a leading point. -/
def realText (value : D) : Str :=
  let real := F.print value
  let real :=
    if real.any fun c => c ∈ text ['.', 'e', 'E'] then real else real ++ text ['.', '0']
  match real with
  | b :: rest =>
    if b ∈ text ['.'] then text ['0'] ++ real
    else if b ∈ text ['-'] ∧ text ['.'] <+: rest then b :: (text ['0'] ++ rest)
    else real
  | [] => real

/-- `IndentLine`. -/
def indentLine (depth : Nat) : Str := List.replicate (depth * 3) 32

/-- The text a pretty printer adds. -/
def pretty (cs : List Char) : Str := if prettyPrint then text cs else []

/-- The check of a key in the loop over a dictionary. A callback that is no string
leaves `jsonp_call_` as it was, and counts as found. -/
def checkKey (key : WString) (value : Value D) (self : JsonpCall) : JsonpCall :=
  if !self.isInitJsonp then
    if StringConversions.wideToASCII key = kCallbackKey then
      { jsonpCall := value.getAsString.getD self.jsonpCall, isInitJsonp := true }
    else self
  else self

mutual

/-- `BuildJsonpString`. -/
def buildJsonpString (depth : Nat) (self : JsonpCall) : Value D → Str × JsonpCall
  | .null => (text ['n', 'u', 'l', 'l'], self)
  | .boolean value =>
    (if value then text ['t', 'r', 'u', 'e'] else text ['f', 'a', 'l', 's', 'e'], self)
  | .charInteger value => (formatInt 1 value.toInt, self)
  | .shortInteger value => (formatInt 2 value.toInt, self)
  | .integer value => (formatInt 0 value.toInt, self)
  | .bigInteger value => (formatInt 0 value.toInt, self)
  | .real value => (realText F value, self)
  -- With `escape` a string is left out: that branch of the source is empty.
  | .string value => (if escape then [] else jsonDoubleQuote value true, self)
  | .binary _ => ([], self)
  -- The call is looked for in the items and entries, from left to right.
  | .list items =>
    let (body, self) := buildItems depth true self items
    (text ['['] ++ pretty prettyPrint [' '] ++ body ++ pretty prettyPrint [' '] ++ text [']'],
      self)
  | .dictionary entries =>
    let (body, self) := buildEntries depth true self entries
    (text ['{'] ++ pretty prettyPrint ['\n'] ++ body
      ++ (if prettyPrint then text ['\n'] ++ indentLine depth else []) ++ text ['}'], self)

/-- The loop over a list. `first` says that `i` is `0`. -/
def buildItems (depth : Nat) (first : Bool) (self : JsonpCall) :
    List (Value D) → Str × JsonpCall
  | [] => ([], self)
  | value :: items =>
    let (item, self) := buildJsonpString depth self value
    let (rest, self) := buildItems depth false self items
    ((if first then [] else text [','] ++ pretty prettyPrint [' ']) ++ item ++ rest, self)

/-- The loop over a dictionary. The key is checked before its value is written. -/
def buildEntries (depth : Nat) (first : Bool) (self : JsonpCall) :
    List (WString × Value D) → Str × JsonpCall
  | [] => ([], self)
  | (key, value) :: entries =>
    let (entry, self) := buildJsonpString (depth + 1) (checkKey key value self) value
    let (rest, self) := buildEntries depth false self entries
    ((if first then [] else text [','] ++ pretty prettyPrint ['\n'])
      ++ (if prettyPrint then indentLine (depth + 1) else [])
      ++ jsonDoubleQuote (StringConversions.wideToASCII key) true
      ++ (if prettyPrint then text [':', ' '] else text [':'])
      ++ entry ++ rest, self)

end

/-- `Serialize(root, str)`: `*str` and the members after the call. The members are
reset where a callback is put around the text, and only there. -/
def serialize (self : JsonpCall) (root : Value D) (str : Str) : Str × JsonpCall :=
  let (body, self) := buildJsonpString F prettyPrint false 0 self root
  let str := str ++ body
  if self.jsonpCall ≠ [] then
    (self.jsonpCall ++ text ['('] ++ str ++ text [')'], { jsonpCall := [], isInitJsonp := false })
  else (str, self)

end

end JsonpWriter

end Mylib.Spec.Base
