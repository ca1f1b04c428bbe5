import Mylib.Spec.Base.JsonWriter

/-!
# `Mylib.Spec.Base.HttpWriter`: the HTTP emitter

The writing half of `HttpValueSerializer`, `base/logic/http_serializer.cc`. Every
function returns the text it appends to `*http_string_`. The `switch` has no case for
lists, blobs and the two small integer kinds, and appends nothing for them.
-/

set_option autoImplicit false

namespace Mylib.Spec.Base

open StringUtil

/-- `HttpDoubleQuote`. The quotes are commented out in the source. -/
def StringEscape.httpDoubleQuote (str : Str) : Str := str.flatMap quoteChar

namespace HttpWriter

open StringEscape

section

variable {D : Type} (F : Doubles D) (escape : Bool)

/-- The text of a real, with a zero put before a leading point. -/
def realText (value : D) : Str :=
  let real := F.print value
  match real with
  | b :: rest =>
    if b ∈ text ['.'] then text ['0'] ++ real
    else if b ∈ text ['-'] ∧ text ['.'] <+: rest then b :: (text ['0'] ++ rest)
    else real
  | [] => real

mutual

/-- `BuildHTTPString`. -/
def buildHTTPString : Value D → Str
  | .null => text ['n', 'u', 'l', 'l']
  | .boolean value =>
    if value then text ['t', 'r', 'u', 'e'] else text ['f', 'a', 'l', 's', 'e']
  | .charInteger _ => []
  | .shortInteger _ => []
  | .integer value => formatInt 0 value.toInt
  | .bigInteger value => formatInt 0 value.toInt
  | .real value => realText F value
  | .string value => if escape then [] else httpDoubleQuote value
  | .binary _ => []
  | .list _ => []
  | .dictionary entries => buildEntries true entries

/-- The loop over a dictionary. `first` says that the iterator is at the first key. -/
def buildEntries (first : Bool) : List (WString × Value D) → Str
  | [] => []
  | (key, value) :: entries =>
    (if first then [] else text ['&']) ++ httpDoubleQuote (StringConversions.wideToASCII key)
      ++ text ['='] ++ buildHTTPString value ++ buildEntries false entries

end

/-- `Serialize`: the text of `*http_string_` after the call. -/
def serialize (root : Value D) (httpString : Str) : Str :=
  httpString ++ buildHTTPString F false root

end

end HttpWriter

end Mylib.Spec.Base
