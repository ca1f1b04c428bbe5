import Mylib.Lib.OrderedMap
import Mylib.Spec.Base.StringUtil

/-!
# `Mylib.Spec.Base.Values`: the tree of values

`Value` and its subclasses of `base/logic/base_values.h`, one constructor for each
`ValueType`. A `DictionaryValue` is a `std::map`, so its entries are listed in the
order of the keys; `Value.WellFormed` says so for a whole tree.
-/

set_option autoImplicit false

namespace Mylib.Spec.Base

open Mylib.Lib

/-- `Value`, over the type `D` of doubles. -/
inductive Value (D : Type) where
  | null
  | boolean (value : Bool)
  | charInteger (value : Int8)
  | shortInteger (value : Int16)
  | integer (value : Int32)
  | bigInteger (value : Int64)
  | real (value : D)
  | string (value : Str)
  | binary (buffer : Str)
  | dictionary (entries : List (WString × Value D))
  | list (items : List (Value D))

namespace Value

variable {D : Type}

open StringConversions

/-- `CreateStringValue(const std::wstring&)`: the text is kept in UTF-8. -/
def createStringValue (wide : WString) : Value D := .string (wideToUTF8 wide)

/-- `GetAsString(std::wstring*)`. `none` is `false`, with the output as it was. -/
def getAsWString : Value D → Option WString
  | .string value => some (utf8ToWide value)
  | _ => none

/-- `DictionaryValue::SetWithoutPathExpansion` on the entries. -/
def setWithoutPathExpansion (key : WString) (value : Value D)
    (entries : List (WString × Value D)) : List (WString × Value D) :=
  OrderedMap.set key value entries

mutual

/-- Every dictionary in the tree lists its keys in order. -/
def WellFormed : Value D → Prop
  | .dictionary entries => OrderedMap.Sorted entries ∧ WellFormedEntries entries
  | .list items => WellFormedItems items
  | _ => True

def WellFormedEntries : List (WString × Value D) → Prop
  | [] => True
  | (_, value) :: entries => WellFormed value ∧ WellFormedEntries entries

def WellFormedItems : List (Value D) → Prop
  | [] => True
  | value :: items => WellFormed value ∧ WellFormedItems items

end

end Value

end Mylib.Spec.Base
