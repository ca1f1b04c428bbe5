import Mylib.Spec.Base.Values

/-!
# `Mylib.Spec.Base.JsonWriter`: the JSON emitter

The writing half of `JsonValueSerializer`, `base/logic/json_serializer.cc`, with
the escapes of `base/logic/string_escape.cc`. Every function returns the text it
appends to `*json_string_`.
-/

set_option autoImplicit false

namespace Mylib.Spec.Base

open StringUtil

namespace StringEscape

/-- `SingleEscapeChar`: the escape sequence of `c`, `none` for `false`. -/
def singleEscapeChar (c : UInt8) : Option Str :=
  if c.toNat = 0x08 then some (text ['\\', 'b'])
  else if c.toNat = 0x0C then some (text ['\\', 'f'])
  else if c.toNat = 0x0A then some (text ['\\', 'n'])
  else if c.toNat = 0x0D then some (text ['\\', 'r'])
  else if c.toNat = 0x09 then some (text ['\\', 't'])
  else if c.toNat = '\\'.toNat then some (text ['\\', '\\'])
  else if c.toNat = '"'.toNat then some (text ['"'])
  else none

/-- The body of the loop of `JsonDoubleQuoteT`. Its last two branches both append
the byte itself. -/
def quoteChar (c : UInt8) : Str := (singleEscapeChar c).getD [c]

/-- `JsonDoubleQuote`. -/
def jsonDoubleQuote (str : Str) (putInQuotes : Bool) : Str :=
  let quote := if putInQuotes then text ['"'] else []
  quote ++ str.flatMap quoteChar ++ quote

end StringEscape

namespace JsonWriter

open StringEscape

section

variable {D : Type} (F : Doubles D) (prettyPrint escape : Bool)

/-- The text of a real: `.0` is appended to what reads like an integer, and a zero
put before a leading point. -/
def realText (value : D) : Str :=
  let real := F.print value
  let real :=
    if real.any fun c => c ∈ text ['.', 'e', 'E'] then real else real ++ text ['.', '0']
  match real with
  | b :: rest =>
    if b ∈ text ['.'] then text ['0'] ++ real
    else if b ∈ text ['-'] ∧ text ['.'] <+: rest then b :: (text ['0'] ++ rest)
    else real
  | [] => real

/-- `IndentLine`. -/
def indentLine (depth : Nat) : Str := List.replicate (depth * 3) 32

/-- The text a pretty printer adds. -/
def pretty (cs : List Char) : Str := if prettyPrint then text cs else []

mutual

/-- `BuildJSONString`. -/
def buildJSONString (depth : Nat) : Value D → Str
  | .null => text ['n', 'u', 'l', 'l']
  | .boolean value =>
    if value then text ['t', 'r', 'u', 'e'] else text ['f', 'a', 'l', 's', 'e']
  -- The formats are `%1d`, `%2d`, `%d` and `%ld`.
  | .charInteger value => formatInt 1 value.toInt
  | .shortInteger value => formatInt 2 value.toInt
  | .integer value => formatInt 0 value.toInt
  | .bigInteger value => formatInt 0 value.toInt
  | .real value => realText F value
  -- With `escape` a string is left out: that branch of the source is empty.
  | .string value => if escape then [] else jsonDoubleQuote value true
  | .binary _ => []
  | .list items =>
    text ['['] ++ pretty prettyPrint [' '] ++ buildItems depth true items
      ++ pretty prettyPrint [' '] ++ text [']']
  | .dictionary entries =>
    text ['{'] ++ pretty prettyPrint ['\n'] ++ buildEntries depth true entries
      -- The last line break and the closing brace stand at the depth of the dictionary itself.
      ++ (if prettyPrint then text ['\n'] ++ indentLine depth else []) ++ text ['}']

/-- The loop over a list. `first` says that `i` is `0`. -/
def buildItems (depth : Nat) (first : Bool) : List (Value D) → Str
  | [] => []
  | value :: items =>
    (if first then [] else text [','] ++ pretty prettyPrint [' '])
      ++ buildJSONString depth value ++ buildItems depth false items

/-- The loop over a dictionary. `GetWithoutPathExpansion` finds the value the key
iterator stands at. -/
def buildEntries (depth : Nat) (first : Bool) : List (WString × Value D) → Str
  | [] => []
  | (key, value) :: entries =>
    (if first then [] else text [','] ++ pretty prettyPrint ['\n'])
      ++ (if prettyPrint then indentLine (depth + 1) else [])
      ++ jsonDoubleQuote (StringConversions.wideToASCII key) true
      ++ (if prettyPrint then text [':', ' '] else text [':'])
      ++ buildJSONString (depth + 1) value ++ buildEntries depth false entries

end

/-- `Serialize`: the text of `*json_string_` after the call. -/
def serialize (root : Value D) (jsonString : Str) : Str :=
  jsonString ++ buildJSONString F prettyPrint false 0 root

end

end JsonWriter

end Mylib.Spec.Base
