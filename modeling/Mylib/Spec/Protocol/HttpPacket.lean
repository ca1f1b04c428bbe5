import Mylib.Lib.OrderedMap
import Mylib.Spec.Protocol.DataPacket

/-!
# `Mylib.Spec.Protocol.HttpPacket`: the parameters of a request

`HttpPacket::SetData`, `PutAttrib` and `GetAttrib` of `public/protocol/http_packet.cc`. A
`std::map` with string keys is sorted by the numbers of their characters.
-/

set_option autoImplicit false

namespace Mylib.Spec.Protocol.HttpPacket

open Mylib.Lib

/-- How a call ends without a result: `std::out_of_range` is thrown, or the loop is still
running. -/
inductive Fault where
  | outOfRange
  | running
  deriving DecidableEq, Repr

/-- `std::map<std::string, std::string>`. -/
abbrev MapValue := List (List Nat × Str)

/-- A string as a key of the map. -/
def mapKey (strName : Str) : List Nat := strName.map UInt8.toNat

/-- `PutAttrib`. -/
def putAttrib (strName strValue : Str) (mapValue : MapValue) : MapValue :=
  OrderedMap.set (mapKey strName) strValue mapValue

/-- `GetAttrib`: `strValue`, where the result is `true`. -/
def getAttrib (strName : Str) (mapValue : MapValue) : Option Str :=
  OrderedMap.find (mapKey strName) mapValue

/-- `std::string::npos`. -/
def npos : Nat := 2 ^ 64 - 1

/-- `request_str.find`. -/
def find (c : UInt8) (requestStr : Str) : Nat := (requestStr.idxOf? c).getD npos

/-- `request_str.substr(pos, n)`. -/
def substr (requestStr : Str) (pos n : Nat) : Except Fault Str :=
  if requestStr.length < pos then .error .outOfRange else .ok ((requestStr.drop pos).take n)

/-- `=`. -/
def equals : UInt8 := 61

/-- `&`. -/
def ampersand : UInt8 := 38

/-- The loop of `SetData`, for at most `fuel` rounds. -/
def setDataLoop (len : Int) : (fuel : Nat) → Str → MapValue → Except Fault MapValue
  | 0, _, _ => .error .running
  | fuel + 1, requestStr, mapValue =>
    if requestStr.length = 0 then .ok mapValue
    else do
      -- `find` gives a `size_t`, which is cut to an `int`: `npos` becomes -1.
      let startPos := int32 (find equals requestStr)
      let endPos :=
        if find ampersand requestStr = npos then len else int32 (find ampersand requestStr)
      -- The key goes up to the first `=`, even over an `&` in front of it.
      let key ← substr requestStr 0 (sizeT startPos)
      let value ← substr requestStr (key.length + 1) (sizeT (endPos - key.length - 1))
      let mapValue := putAttrib key value mapValue
      if find ampersand requestStr ≠ npos then
        let requestStr ← substr requestStr (sizeT (endPos + 1)) requestStr.length
        setDataLoop len fuel requestStr mapValue
      else setDataLoop len fuel [] mapValue

/-- `SetData`, called by the constructor on an empty map, with the `len` bytes at `data`. -/
def setData (fuel : Nat) (data : Str) : Except Fault MapValue :=
  setDataLoop data.length fuel data []

end Mylib.Spec.Protocol.HttpPacket
