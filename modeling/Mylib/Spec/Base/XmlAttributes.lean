import Mylib.Lib.OrderedMap
import Mylib.Spec.Base.StringUtil

/-!
# `Mylib.Spec.Base.XmlAttributes`: the attributes of a tag

`XMLValueSerializer::GetXmlAttribute` of `base/logic/xml_serializer.cc`, a finite automaton
over the text of a tag. Some of its transitions decrease the index of the loop, so that the
same character is looked at again in the new state.

The length of the text is stored in an `int`. The caller's map is given (a null pointer is
refused at once) and is cleared first. `start` and `map_key` are read only after they are
set. -/

set_option autoImplicit false

namespace Mylib.Spec.Base

open Mylib.Lib
open StringConversions StringUtil

/-- `std::map<std::string, std::string>`. Keys are compared byte by byte. -/
abbrev AttrMap := List (List Nat × Str)

namespace XmlAttributes

/-- `' '`. -/
def blank : UInt8 := 32

/-- `'\"'`. -/
def quote : UInt8 := 34

/-- `'='`. -/
def equals : UInt8 := 61

/-- The values 1 to 9 of `status`. -/
inductive Status where
  | tagName
  | blanks
  | name
  | afterName
  | afterEquals
  | beforeValue
  | value
  | afterValue
  | failed
  deriving DecidableEq, Repr

/-- The locals of the loop. -/
structure Scan where
  status : Status
  start : Nat
  mapKey : Str
  attr : AttrMap

/-- `key.substr(start, end - start)`. -/
def substr (key : Str) (start stop : Nat) : Str := (key.drop start).take (stop - start)

/-- `(*attr)[map_key] = map_value`. -/
def store (attr : AttrMap) (mapKey mapValue : Str) : AttrMap :=
  OrderedMap.set (mapKey.map UInt8.toNat) mapValue attr

/-- The `switch` for the character `c = key[i]`: the state afterwards, and whether `i` is
decreased. `none` is `return false`. -/
def scanChar (key : Str) (i : Nat) (c : UInt8) (s : Scan) : Option (Scan × Bool) :=
  match s.status with
  -- The cases of the `switch`, 1 to 9 in the source.
  | .tagName =>
    if c = blank then some ({ s with status := .blanks }, true)
    else if c = quote ∨ c = equals then some ({ s with status := .failed }, false)
    else some ({ s with status := .tagName }, false)
  | .blanks =>
    if c = blank then some ({ s with status := .blanks }, false)
    else if c = quote ∨ c = equals then some ({ s with status := .failed }, false)
    else some ({ s with status := .name, start := i }, true)
  | .name =>
    if c = blank then
      some ({ s with status := .afterName, mapKey := substr key s.start i }, true)
    else if c = quote then some ({ s with status := .failed }, false)
    else if c = equals then
      some ({ s with status := .afterEquals, mapKey := substr key s.start i }, false)
    else some ({ s with status := .name }, false)
  | .afterName =>
    if c = blank then some ({ s with status := .afterName }, false)
    else if c = equals then some ({ s with status := .afterEquals }, false)
    else some ({ s with status := .failed }, false)
  | .afterEquals =>
    if c = blank then some ({ s with status := .beforeValue }, true)
    else if c = quote then some ({ s with status := .value, start := i + 1 }, false)
    else some ({ s with status := .failed }, false)
  | .beforeValue =>
    if c = blank then some ({ s with status := .beforeValue }, false)
    else if c = quote then some ({ s with status := .value, start := i + 1 }, false)
    else some ({ s with status := .failed }, false)
  | .value =>
    if c = quote then
      some ({ s with status := .afterValue,
                     attr := store s.attr s.mapKey (substr key s.start i) }, false)
    else some ({ s with status := .value }, false)
  | .afterValue =>
    if c = blank then some ({ s with status := .blanks }, true)
    else some ({ s with status := .failed }, false)
  | .failed => none

/-- How often a character may be looked at again. -/
def Status.rank : Status → Nat
  | .tagName => 3
  | .afterValue => 3
  | .blanks => 2
  | .name => 1
  | .afterEquals => 1
  | _ => 0

/-- The index is decreased only on the way to a state with fewer such steps ahead. -/
theorem rank_lt_of_again {key : Str} {i : Nat} {c : UInt8} {s s' : Scan}
    (h : scanChar key i c s = some (s', true)) : s'.status.rank < s.status.rank := by
  obtain ⟨status, start, mapKey, attr⟩ := s
  cases status with
  | failed => cases h
  | _ =>
    simp only [scanChar] at h
    split_ifs at h <;> cases h <;> simp [Status.rank]

/-- The loop from the index `i` on: the returned value and the map. -/
def scanFrom (key : Str) (len i : Nat) (s : Scan) : Bool × AttrMap :=
  if i < len then
    let c := key.getD i 0
    if [c] = text ['<'] ∨ [c] = text ['>'] then (false, s.attr)
    else
      match _h : scanChar key i c s with
      | none => (false, s.attr)
      | some (s, true) => scanFrom key len i s
      | some (s, false) => scanFrom key len (i + 1) s
  else (true, s.attr)
termination_by (len - i, s.status.rank)
decreasing_by
  · exact Prod.Lex.right _ (rank_lt_of_again _h)
  · exact Prod.Lex.left _ _ (by omega)

/-- `GetXmlAttribute(key, attr)`. -/
def getXmlAttribute (key : Str) : Bool × AttrMap :=
  scanFrom key (srcLen32 key.length) 0 ⟨.tagName, 0, [], []⟩

end XmlAttributes

end Mylib.Spec.Base
