import Mylib.Spec.Base.JsonWriter

/-!
# `Mylib.Spec.Base.XmlWriter`: the XML emitter

The writing half of `XMLValueSerializer`, `base/logic/xml_serializer.cc`. An element is
opened by the call that writes its parent and closed by the call that writes its
value; the name to close goes through `key_map_`, under the depth of the parent. Every
function returns the text it appends to `*xml_string_` and the map after it.
-/

set_option autoImplicit false

namespace Mylib.Spec.Base

open StringUtil

/-- `XMLDoubleQuote`. The quotes are commented out in the source. -/
def StringEscape.xmlDoubleQuote (str : Str) : Str := str.flatMap quoteChar

namespace XmlWriter

open StringEscape

/-- `key_map_`, a `std::map<int, std::wstring>`. -/
abbrev KeyMap := Nat → Option WString

namespace KeyMap

def clear : KeyMap := fun _ => none

def set (keyMap : KeyMap) (depth : Nat) (key : WString) : KeyMap :=
  Function.update keyMap depth (some key)

def erase (keyMap : KeyMap) (depth : Nat) : KeyMap := Function.update keyMap depth none

end KeyMap

/-- What `AppendQuoteString` writes for a key. -/
def tagName (key : WString) : Str := xmlDoubleQuote (StringConversions.wideToASCII key)

def openTag (name : Str) : Str := text ['<'] ++ name ++ text ['>']

def closeTag (name : Str) : Str := text ['<', '/'] ++ name ++ text ['>']

/-- `"xml"`, the key of the outermost element. -/
def kXml : WString := ['x', 'm', 'l'].map Char.toNat

/-- The end of `BuildXMLString`, behind the text of its node: the element of the parent
is closed if there is one. -/
def close (depth : Nat) (body : Str) (keyMap : KeyMap) : Str × KeyMap :=
  match keyMap (depth - 1) with
  | some pairKey => (body ++ closeTag (tagName pairKey), keyMap.erase (depth - 1))
  | none => (body, keyMap)

section

variable {D : Type} (F : Doubles D) (prettyPrint escape : Bool)

mutual

/-- `BuildXMLString`. The `switch` has no case for blobs and the two small integer kinds.
A 64-bit integer is printed with `%d`, which takes the low half of it from the argument
list. -/
def buildXMLString (depth : Nat) (keyMap : KeyMap) : Value D → Str × KeyMap
  | .null => close depth (text ['n', 'u', 'l', 'l']) keyMap
  | .boolean value =>
    close depth (if value then text ['t', 'r', 'u', 'e'] else text ['f', 'a', 'l', 's', 'e'])
      keyMap
  -- The two short kinds are missing in the `switch`.
  | .charInteger _ => close depth [] keyMap
  | .shortInteger _ => close depth [] keyMap
  | .integer value => close depth (formatInt 0 value.toInt) keyMap
  -- `%d` prints the low half of the number.
  | .bigInteger value => close depth (formatInt 0 value.toInt32.toInt) keyMap
  | .real value => close depth (JsonWriter.realText F value) keyMap
  | .string value => close depth (if escape then [] else xmlDoubleQuote value) keyMap
  | .binary _ => close depth [] keyMap
  | .list items =>
    let (body, keyMap) := buildItems depth (keyMap (depth - 1)) true keyMap items
    close depth body keyMap
  | .dictionary entries =>
    let (body, keyMap) := buildEntries depth keyMap entries
    close depth body keyMap

/-- The loop over a list. Each item closes the element of the parent, which is opened
again for the next one. `first` says that `i` is `0`. -/
def buildItems (depth : Nat) (pairKey : Option WString) (first : Bool) (keyMap : KeyMap) :
    List (Value D) → Str × KeyMap
  | [] => ([], keyMap)
  | value :: items =>
    let (item, keyMap) := buildXMLString depth keyMap value
    let (again, keyMap) :=
      match pairKey with
      | some key =>
        if items.isEmpty then ([], keyMap)
        else (openTag (tagName key), keyMap.set (depth - 1) key)
      | none => ([], keyMap)
    let (rest, keyMap) := buildItems depth pairKey false keyMap items
    ((if !first && prettyPrint then text ['\n'] else []) ++ item ++ again ++ rest, keyMap)

/-- The loop over a dictionary. -/
def buildEntries (depth : Nat) (keyMap : KeyMap) : List (WString × Value D) → Str × KeyMap
  | [] => ([], keyMap)
  | (key, value) :: entries =>
    let (entry, keyMap) := buildXMLString (depth + 1) (keyMap.set depth key) value
    let (rest, keyMap) := buildEntries depth keyMap entries
    (openTag (tagName key) ++ entry ++ rest, keyMap)

end

/-- `Serialize`: the text appended to `*xml_string_`, and `key_map_` after the call. -/
def serialize (root : Value D) : Str × KeyMap :=
  let (body, keyMap) := buildXMLString F prettyPrint false 1 (KeyMap.clear.set 0 kXml) root
  (openTag (text ['x', 'm', 'l']) ++ body, keyMap)

end

end XmlWriter

end Mylib.Spec.Base
