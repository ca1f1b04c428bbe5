import Mylib.Spec.Base.JsonpWriter
import Mylib.Spec.Base.ValueTree

/-!
# `Mylib.Spec.Base.AsciiStrings`: strings that should be ASCII

`DoIsStringASCII` of `public/basic/basic_util.cc` with the template `ToUnsigned` of
`public/basic/basic_util.h`, and `DictionaryValue::GetStringASCII` of
`base/logic/base_values.cc`. Plain `char` is signed.
-/

set_option autoImplicit false

namespace Mylib.Spec.Base

open StringConversions

namespace StringUtil

/-- `ToUnsigned<char>::Unsigned c`. The template has no specializations, so the type is `char`
itself. -/
def toUnsignedChar (c : UInt8) : Int := c.toInt8.toInt

/-- `DoIsStringASCII`. `toUnsigned` is the value of a character in the type `Unsigned`. -/
def doIsStringASCII {CHAR : Type} (toUnsigned : CHAR → Int) : List CHAR → Bool
  | [] => true
  | c :: str => if toUnsigned c > 0x7F then false else doIsStringASCII toUnsigned str

/-- `IsStringASCII(const std::string&)`. -/
def isStringASCII (str : Str) : Bool := doIsStringASCII toUnsignedChar str

end StringUtil

namespace StringConversions

/-- `ASCIIToWide`. A negative `char` becomes a negative `wchar_t`, here in 32 bits. -/
def asciiToWide (ascii : Str) : WString :=
  ascii.map fun c => if c.toNat < 0x80 then c.toNat else 0xFFFFFF00 + c.toNat

end StringConversions

namespace DictionaryValue

variable {D : Type}

/-- `GetString(path, std::string*)`. `none` is `false`. -/
def getString (path : WString) (entries : Entries D) : Option Str :=
  match get path entries with
  | none => none
  | some value => value.getAsString

/-- `GetStringASCII`. -/
def getStringASCII (path : Str) (entries : Entries D) : Option Str :=
  match getString (asciiToWide path) entries with
  | none => none
  | some out => if !StringUtil.isStringASCII out then none else some out

end DictionaryValue

end Mylib.Spec.Base
