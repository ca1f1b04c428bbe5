import Mylib.Spec.Base.Values

/-!
# `Mylib.Spec.Base.ValueTree`: copying, comparing and changing trees

The methods of `base/logic/base_values.cc` that work on whole trees: `DeepCopy` and
`Equals` of each class, `CopyWithoutEmptyChildren`, `Remove` and `AppendIfNotPresent` of
`ListValue`, and of `DictionaryValue` the access by dotted paths and `MergeDictionary`.

A dictionary is its entries, and a change of a nested dictionary through a pointer
is the change of the entry that holds it. `Equals` of reals is the `==` of `double`,
which stays open as `realEq`.
-/

set_option autoImplicit false

namespace Mylib.Spec.Base

open Mylib.Lib

/-- `ValueMap`, the entries of a `DictionaryValue`. -/
abbrev Entries (D : Type) := List (WString × Value D)

/-! ### `DeepCopy` and `Equals`, one branch for each class -/

namespace Value

variable {D : Type}

mutual

/-- `DeepCopy`. -/
def deepCopy : Value D → Value D
  | .null => .null
  | .boolean value => .boolean value
  | .charInteger value => .charInteger value
  | .shortInteger value => .shortInteger value
  | .integer value => .integer value
  | .bigInteger value => .bigInteger value
  | .real value => .real value
  | .string value => .string value
  | .binary buffer => .binary buffer
  -- `DictionaryValue* result = new DictionaryValue; return result;`
  | .dictionary _ => .dictionary []
  | .list items => .list (deepCopyItems items)

/-- The loop of `ListValue::DeepCopy`. -/
def deepCopyItems : List (Value D) → List (Value D)
  | [] => []
  | value :: items => deepCopy value :: deepCopyItems items

end

mutual

/-- `this->Equals(other)`. Every override but that of `Value` first compares the
types; `memcmp` on buffers of one size compares the bytes. -/
def equals (realEq : D → D → Bool) : Value D → Value D → Bool
  | .null, .null => true
  | .boolean lhs, .boolean rhs => lhs == rhs
  | .charInteger lhs, .charInteger rhs => lhs == rhs
  | .shortInteger lhs, .shortInteger rhs => lhs == rhs
  | .integer lhs, .integer rhs => lhs == rhs
  | .bigInteger lhs, .bigInteger rhs => lhs == rhs
  | .real lhs, .real rhs => realEq lhs rhs
  | .string lhs, .string rhs => lhs == rhs
  | .binary lhs, .binary rhs => lhs == rhs
  -- `DictionaryValue::Equals` looks no further than the type.
  | .dictionary _, .dictionary _ => true
  | .list lhs, .list rhs => equalsItems realEq lhs rhs
  | _, _ => false

/-- The loop of `ListValue::Equals`, with the test of the two ends behind it. -/
def equalsItems (realEq : D → D → Bool) : List (Value D) → List (Value D) → Bool
  | [], [] => true
  | lhs :: lhsItems, rhs :: rhsItems =>
    if !equals realEq lhs rhs then false else equalsItems realEq lhsItems rhsItems
  | _, _ => false

end

mutual

/-- `CopyWithoutEmptyChildren(node)`. `none` is `NULL`. -/
def copyWithoutEmptyChildren : Value D → Option (Value D)
  | .list items =>
    let copy := appendCopies [] items
    if !copy.isEmpty then some (.list copy) else none
  | .dictionary entries =>
    let copy := setCopies [] entries
    if !copy.isEmpty then some (.dictionary copy) else none
  | node => some node.deepCopy

/-- The loop over a list, with the `copy` so far. -/
def appendCopies (copy : List (Value D)) : List (Value D) → List (Value D)
  | [] => copy
  | it :: items =>
    match copyWithoutEmptyChildren it with
    | some childCopy => appendCopies (copy ++ [childCopy]) items
    | none => appendCopies copy items

/-- The loop over the keys of a dictionary. The value that is looked up under a key is the
one of the entry that the iterator stands on. -/
def setCopies (copy : List (WString × Value D)) :
    List (WString × Value D) → List (WString × Value D)
  | [] => copy
  | (it, child) :: entries =>
    match copyWithoutEmptyChildren child with
    | some childCopy => setCopies (setWithoutPathExpansion it childCopy copy) entries
    | none => setCopies copy entries

end

end Value

/-! ### `ListValue` -/

namespace ListValue

variable {D : Type}

/-- The index of the first item that `Equals` the value. -/
def firstEqual (realEq : D → D → Bool) (value : Value D) : List (Value D) → Option Nat
  | [] => none
  | item :: items =>
    if item.equals realEq value then some 0 else (firstEqual realEq value items).map (· + 1)

/-- `AppendIfNotPresent` of a value that is not `NULL`. -/
def appendIfNotPresent (realEq : D → D → Bool) (value : Value D) (items : List (Value D)) :
    Bool × List (Value D) :=
  match firstEqual realEq value items with
  | some _ => (false, items)
  | none => (true, items ++ [value])

end ListValue

/-! ### `DictionaryValue` -/

namespace DictionaryValue

variable {D : Type}

/-- The character between the components of a path. -/
def dot : WChar := 46

/-- `path.find('.')`. `none` is `npos`. -/
def find (path : WString) : Option Nat := path.idxOf? dot

/-- `path.rfind('.')`. -/
def rfind (path : WString) : Option Nat :=
  (path.reverse.idxOf? dot).map fun pos => path.length - 1 - pos

/-- `GetWithoutPathExpansion`. -/
def getWithoutPathExpansion (key : WString) (entries : Entries D) : Option (Value D) :=
  OrderedMap.find key entries

/-- `GetDictionaryWithoutPathExpansion`. -/
def getDictionaryWithoutPathExpansion (key : WString) (entries : Entries D) :
    Option (Entries D) :=
  match getWithoutPathExpansion key entries with
  | some (.dictionary sub) => some sub
  | _ => none

/-- `RemoveWithoutPathExpansion`: the value taken out, if any, and the entries left. -/
def removeWithoutPathExpansion (key : WString) (entries : Entries D) :
    Option (Value D) × Entries D :=
  match OrderedMap.find key entries with
  | none => (none, entries)
  | some entry => (some entry, OrderedMap.erase key entries)

/-- A dot that is found is inside of the path. -/
theorem length_of_find {path : WString} {pos : Nat} (h : find path = some pos) :
    pos < path.length :=
  (List.idxOf?_eq_some_iff.mp h).1

mutual

/-- `Get(path, &value)`. -/
def get (path : WString) (entries : Entries D) : Option (Value D) :=
  match _h : find path with
  | none => getWithoutPathExpansion path entries
  | some pos =>
    match getDictionary (path.take pos) entries with
    | none => none
    | some child => get (path.drop (pos + 1)) child
termination_by (path.length, 0)
decreasing_by
  all_goals
    have hlt := length_of_find ‹_›
    simp [Prod.lex_def]
    omega

/-- `GetDictionary(path, &dictionary)`. -/
def getDictionary (path : WString) (entries : Entries D) : Option (Entries D) :=
  match get path entries with
  | some (.dictionary sub) => some sub
  | _ => none
termination_by (path.length, 1)

end

/-- `Set(path, value)` of a value that is not `NULL`. -/
def set (path : WString) (value : Value D) (entries : Entries D) : Entries D :=
  match h : find path with
  | none => Value.setWithoutPathExpansion path value entries
  | some pos =>
    let key := path.take pos
    -- Where no dictionary is found a new, empty one takes the place.
    let child := (getDictionary key entries).getD []
    Value.setWithoutPathExpansion key (.dictionary (set (path.drop (pos + 1)) value child)) entries
termination_by path.length
decreasing_by
  have hlt := length_of_find h
  simp
  omega

/-- `Remove(path, &value)`: what it returns, if it succeeds, and the entries left. The
dictionary in front of the last component is changed in place, which is to say that
the changed one stands under the same path. -/
def remove (path : WString) (entries : Entries D) : Option (Value D) × Entries D :=
  match rfind path with
  | none => removeWithoutPathExpansion path entries
  | some pos =>
    match getDictionary (path.take pos) entries with
    | none => (none, entries)
    | some sub =>
      match removeWithoutPathExpansion (path.drop (pos + 1)) sub with
      | (none, _) => (none, entries)
      | (some value, rest) => (some value, set (path.take pos) (.dictionary rest) entries)

mutual

/-- `MergeDictionary(dictionary)`: the loop over the keys of `dictionary`, which is
`const` and only read. -/
def mergeDictionary (entries : Entries D) : Entries D → Entries D
  | [] => entries
  | (key, mergeValue) :: dictionary =>
    mergeDictionary (mergeEntry entries key mergeValue) dictionary

/-- One pass through the loop. -/
def mergeEntry (entries : Entries D) (key : WString) : Value D → Entries D
  | .dictionary sub =>
    match getDictionaryWithoutPathExpansion key entries with
    | some subDict =>
      Value.setWithoutPathExpansion key (.dictionary (mergeDictionary subDict sub)) entries
    | none =>
      Value.setWithoutPathExpansion key (Value.deepCopy (.dictionary sub)) entries
  | mergeValue => Value.setWithoutPathExpansion key mergeValue.deepCopy entries

end

/-- `DeepCopyWithoutEmptyChildren`. A copy that is not `NULL` is a dictionary. -/
def deepCopyWithoutEmptyChildren (entries : Entries D) : Entries D :=
  match Value.copyWithoutEmptyChildren (.dictionary entries) with
  | some (.dictionary copy) => copy
  | _ => []

end DictionaryValue

end Mylib.Spec.Base
