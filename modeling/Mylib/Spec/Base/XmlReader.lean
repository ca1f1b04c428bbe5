import Mylib.Lib.CString
import Mylib.Spec.Base.Values

/-!
# `Mylib.Spec.Base.XmlReader`: the XML parser

The reading half of `XMLValueSerializer`, `base/logic/xml_serializer.cc`, with
`DictionaryValue::Set` of `base/logic/base_values.cc`. The parser finds its way by
positions in the whole text. A position is an `int`: what `find` returns is cut to 32 bits,
and so are sums, and "not found" is `-1`. Where `find`, `substr` and `[]` take one as a
`size_t`, a negative one is a very large number.

Keys and values become wide by `StringConversions.utf8ToWide`, without the 32-bit sums of
`Mylib.Spec.Base.Utf8Reader`; up to `2 ^ 31 - 6` bytes the two agree
(`Utf8.utf8ToWide_of_short`, `Utf8.utf8ToWide_refines`).

A call returns `.error .overrun` for an index behind the terminator of the text and for the
exception of `substr`. `XmlToXmlTree` and its loop take a number of steps as fuel and return
`.error .stall` when it is used up; a call of the source that returns needs some number of
them. -/

set_option autoImplicit false

namespace Mylib.Spec.Base

open Mylib.Lib
open Mylib.Lib.CString (Fault)
open StringUtil

namespace Value

variable {D : Type}

/-- `DictionaryValue::Set` on the entries, for a path cut at its dots. What stands under a
key of the path and is no dictionary is replaced by one. -/
def setSegments (value : Value D) : WString → List WString → List (WString × Value D) →
    List (WString × Value D)
  | key, [], entries => setWithoutPathExpansion key value entries
  | key, segment :: path, entries =>
    let child := match OrderedMap.find key entries with
      | some (.dictionary entries) => entries
      | _ => []
    setWithoutPathExpansion key (.dictionary (setSegments value segment path child)) entries

/-- `DictionaryValue::Set(const std::string&, Value*)`. A null pointer sets nothing. -/
def set (path : Str) (value : Option (Value D)) (entries : List (WString × Value D)) :
    List (WString × Value D) :=
  match value, (StringConversions.utf8ToWide path).splitOn '.'.toNat with
  | some value, key :: path => setSegments value key path entries
  | _, _ => entries

end Value

namespace XmlReader

/-! ### Positions -/

/-- An `int` taken as a `size_t`. -/
def sizeT (i : Int) : Nat := (i % 2 ^ 64).toNat

/-- A number cut to an `int`. -/
def int32 (n : Int) : Int := n.bmod (2 ^ 32)

/-- The number of characters before the first suffix with `p`. -/
def firstWhere (p : Str → Bool) : Str → Option Nat
  | [] => none
  | c :: str => if p (c :: str) then some 0 else (firstWhere p str).map (· + 1)

/-- `find` from `start` on, as an `int`. -/
def findWhere (p : Str → Bool) (xmlStr : Str) (start : Int) : Int :=
  match firstWhere p (xmlStr.drop (sizeT start)) with
  | some i => int32 (sizeT start + i : Nat)
  | none => -1

/-- `XmlStr.find(c, start)`. -/
def find (c : Char) : Str → Int → Int := findWhere (text [c]).isPrefixOf

def cdata : Str := text ['<', '!', '[', 'C', 'D', 'A', 'T', 'A', '[']

/-- `XmlStr.find("<![CDATA[", start)`. -/
def findCdata : Str → Int → Int := findWhere cdata.isPrefixOf

/-- `XmlStr.substr(start, count)`, which throws when `start` lies behind the text. -/
def substr (xmlStr : Str) (start count : Int) : Except Fault Str :=
  if sizeT start ≤ xmlStr.length then .ok ((xmlStr.drop (sizeT start)).take (sizeT count))
  else .error .overrun

/-- `XmlStr[i]`, with the terminator at the end of the text. -/
def charAt (xmlStr : Str) (i : Int) : Except Fault UInt8 := CString.deref xmlStr (sizeT i)

/-! ### The tree of elements -/

/-- `XmlNode`. The value is null in an element with children, until they are merged. -/
inductive XmlNode where
  | mk (key : Str) (value : Option Str) (child : List XmlNode)

/-- The key at the beginning of `XmlToXmlTree`, and where the search goes on behind it. -/
def readKey (xmlStr : Str) (originPos : Int) : Except Fault (Str × Int) := do
  let start := int32 (originPos + 1)
  let stop := find '>' xmlStr start
  let key ← substr xmlStr start (int32 (stop - start))
  return (key, int32 (stop + 1))

/-- The next tag from `start` on, and whether it is an end tag. A `<![CDATA[` is passed over
by a second search, eight characters behind `start`. -/
def nextTag (xmlStr : Str) (start : Int) : Except Fault (Int × Bool) := do
  let stop := find '<' xmlStr start
  let c ← charAt xmlStr (int32 (stop + 1))
  if [c] = text ['/'] then return (stop, true)
  else if findCdata xmlStr start = stop then
    let stop := find '<' xmlStr (int32 (start + 8))
    let c ← charAt xmlStr (int32 (stop + 1))
    return (stop, [c] = text ['/'])
  else return (stop, false)

/-- `*origin_pos` behind the end tag at `stop`. -/
def afterClose (xmlStr : Str) (stop : Int) : Int :=
  int32 (find '>' xmlStr (int32 (stop + 1)) + 1)

mutual

/-- `XmlToXmlTree` at `*origin_pos`: the element, and `*origin_pos` afterwards. -/
def xmlToXmlTree (xmlStr : Str) : Nat → Int → Except Fault (XmlNode × Int)
  | 0, _ => .error .stall
  | fuel + 1, originPos => do
    let (key, start) ← readKey xmlStr originPos
    let (stop, closing) ← nextTag xmlStr start
    if closing then
      let inValue ← substr xmlStr start (int32 (stop - start))
      return (.mk key (some inValue) [], afterClose xmlStr stop)
    else
      let (child, pos) ← childLoop xmlStr fuel start
      return (.mk key none child, pos)

/-- The loop over the children. -/
def childLoop (xmlStr : Str) : Nat → Int → Except Fault (List XmlNode × Int)
  | 0, _ => .error .stall
  | fuel + 1, start => do
    let (stop, closing) ← nextTag xmlStr start
    if closing then return ([], afterClose xmlStr stop)
    else
      let (child, start) ← xmlToXmlTree xmlStr fuel stop
      let (rest, pos) ← childLoop xmlStr fuel start
      return (child :: rest, pos)

end

/-! ### The value of a tree -/

section

variable {D : Type}

/-- A child of an element: its key, and its value after `MergeTree`. -/
abbrev Child (D : Type) := Str × Option (Value D)

/-- `key_map`: the children with one key, in their order. Keys are compared byte by byte. -/
abbrev KeyMap (D : Type) := List (List Nat × List (Child D))

/-- `key_map[key].push_back(i)`. -/
def pushBack (keyMap : KeyMap D) (child : Child D) : KeyMap D :=
  OrderedMap.push (child.1.map UInt8.toNat) child keyMap

/-- One round of the loop over `key_map`: several children with one key make a list. -/
def setGroup (entries : List (WString × Value D)) (group : List Nat × List (Child D)) :
    List (WString × Value D) :=
  match group.2 with
  | [] => entries
  | [child] => Value.set child.1 child.2 entries
  | child :: rest =>
    Value.set child.1 (some (.list ((child :: rest).filterMap Prod.snd))) entries

/-- The dictionary of the children of an element. -/
def mergeChildren (children : List (Child D)) : Value D :=
  .dictionary ((children.foldl pushBack []).foldl setGroup [])

mutual

/-- `XmlRoot->value` after `MergeTree`. -/
def mergeTree : XmlNode → Option (Value D)
  | .mk _ value [] => value.map .string
  | .mk _ _ (child :: rest) => some (mergeChildren (mergeAll (child :: rest)))

/-- The keys and values of the children after `MergeTree`. -/
def mergeAll : List XmlNode → List (Child D)
  | [] => []
  | .mk key value child :: rest => (key, mergeTree (.mk key value child)) :: mergeAll rest

end

/-- `Deserialize`. `none` is `NULL`. -/
def deserialize (fuel : Nat) (xmlStr : Str) : Except Fault (Option (Value D)) := do
  let (root, _) ← xmlToXmlTree xmlStr fuel 0
  return mergeTree root

end

end XmlReader

end Mylib.Spec.Base
