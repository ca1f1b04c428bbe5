import Mylib.Spec.Algorithm.AlgoTea

/-!
# `Mylib.Spec.Algorithm.Tea`: the cipher and the hex codec of `public/algorithm`

`ByteToHexString`, `HexStringToByte` and the class `Tea` of `public/algorithm/tea.cc`.

The words of `Tea` are `unsigned long`, whose width depends on the target. The host is
little-endian. A read outside the key or the block, a round count below zero and a shift by a
negative amount or by the width or more are undefined, and the result is `none`; so is the
second character of an empty group of hex digits.
-/

set_option autoImplicit false

namespace Mylib.Spec.Algorithm

open Mylib.Lib.ByteOrder

/-! ### The hex codec -/

namespace Hex

/-- `HEX`. -/
def hexTable : Str := [48, 49, 50, 51, 52, 53, 54, 55, 56, 57, 65, 66, 67, 68, 69, 70]

/-- `IntToHexChar`, for a number below 16. -/
def intToHexChar (x : Nat) : UInt8 := hexTable.getD x 0

/-- `toupper`. -/
def toUpper (c : UInt8) : UInt8 := if 97 ≤ c.toNat ∧ c.toNat ≤ 122 then c - 32 else c

/-- `HexCharToInt`. -/
def hexCharToInt (hex : UInt8) : Nat :=
  let hex := toUpper hex
  if 48 ≤ hex.toNat ∧ hex.toNat ≤ 57 then hex.toNat - 48
  else if 65 ≤ hex.toNat ∧ hex.toNat ≤ 90 then hex.toNat - 65 + 10
  else 0

/-- The loop of `ByteToHexString` over the bytes from `i` on. -/
def byteToHexLoop (size : Nat) : (i : Nat) → Str → Str
  | _, [] => []
  | i, t :: bytes =>
    intToHexChar (t.toNat / 16) :: intToHexChar (t.toNat % 16)
      :: (if i ≠ size - 1 then [32] else []) ++ byteToHexLoop size (i + 1) bytes

/-- `ByteToHexString` of the `size` bytes at `in`. -/
def byteToHexString (bytes : Str) : Str := byteToHexLoop bytes.length 0 bytes

/-- `vec`, with the characters of `str` since `prevPos` in `b`. -/
def split (b : Str) : Str → List Str
  | [] => if b = [] then [] else [b]
  | c :: str => if c = 32 then b :: split [] str else split (b ++ [c]) str

/-- `s[i]` of a `std::string`: a zero stands behind the last character. -/
def charAt (s : Str) (i : Nat) : Option UInt8 := (s ++ [0])[i]?

/-- The byte of a group. -/
def groupByte (group : Str) : Option UInt8 := do
  let a := hexCharToInt (← charAt group 0)
  let b := hexCharToInt (← charAt group 1)
  return UInt8.ofNat (a * 16 + b)

/-- `HexStringToByte`: the result and what is written to `out`. -/
def hexStringToByte (str : Str) : Option (Nat × Str) := do
  let vec := split [] str
  let out ← vec.mapM groupByte
  return (vec.length, out)

end Hex

/-! ### The cipher -/

/-- The data models of C, as far as `unsigned long` goes. -/
inductive Target
  | ilp32
  | lp64
  deriving DecidableEq, Repr

/-- `sizeof(ulong)`. -/
def Target.size : Target → Nat
  | .ilp32 => 4
  | .lp64 => 8

/-- `ulong`. -/
abbrev ULong (target : Target) := BitVec (8 * target.size)

/-- The members of `Tea`. -/
structure Tea where
  round : Int
  isNetChar : Bool
  key : Str
  length_key : key.length = 16

namespace Tea

/-- The constructor, with the bytes at `key`. -/
def tea (key : Option (Vector UInt8 16)) (round : Int) (isNetChar : Bool) : Tea where
  round := round
  isNetChar := isNetChar
  key := (key.getD (Vector.replicate 16 0)).toList
  length_key := Vector.length_toList

variable (target : Target)

/-- The word at `i` of a block of memory. -/
def readWord (memory : Str) (i : Nat) : Option (ULong target) :=
  let bytes := (memory.drop (i * target.size)).take target.size
  if bytes.length = target.size then some (BitVec.ofNat _ (bytesWord bytes)) else none

/-- The bytes of a word. -/
def wordOut (v : ULong target) : Str := wordBytes target.size v.toNat

/-- `ntohl`, which takes and returns a `uint32_t`. -/
def ntohl (netlong : ULong target) : ULong target :=
  BitVec.ofNat _ (swap 4 (netlong.toNat % 2 ^ 32))

/-- `ntoh`. -/
def ntoh (self : Tea) (netlong : ULong target) : ULong target :=
  if self.isNetChar then ntohl target netlong else netlong

/-- The first two words of `in`, in the order of the host. -/
def readBlock (self : Tea) (bytes : Str) : Option (Block (8 * target.size)) := do
  let y ← readWord target bytes 0
  let z ← readWord target bytes 1
  return (ntoh target self y, ntoh target self z)

/-- The four words of the key. -/
def readKey (self : Tea) : Option (Key (8 * target.size)) := do
  let a ← readWord target self.key 0
  let b ← readWord target self.key 1
  let c ← readWord target self.key 2
  let d ← readWord target self.key 3
  return ⟨ntoh target self a, ntoh target self b, ntoh target self c, ntoh target self d⟩

/-- What is stored at `out`. -/
def writeBlock (self : Tea) (v : Block (8 * target.size)) : Str :=
  wordOut target (ntoh target self v.1) ++ wordOut target (ntoh target self v.2)

/-- `encrypt`: the bytes of `out` for these bytes of `in`. -/
def encrypt (self : Tea) (bytes : Str) : Option Str := do
  let v ← readBlock target self bytes
  let k ← readKey target self
  if self.round < 0 then none
  else return writeBlock target self (encryptLoop k self.round.toNat 0 v)

/-- The sum that `decrypt` starts with. `logbase2` is `static_cast<int>(logbase(2, round))`. -/
def startSum (logbase2 : Int → Int) (round : Int) : Option (ULong target) :=
  if round = 32 then some (BitVec.ofNat _ 0xC6EF3720)
  else if round = 16 then some (BitVec.ofNat _ 0xE3779B90)
  else
    let shift := logbase2 round
    if 0 ≤ shift ∧ shift < 8 * target.size then some (delta <<< shift.toNat) else none

/-- `decrypt`. -/
def decrypt (logbase2 : Int → Int) (self : Tea) (bytes : Str) : Option Str := do
  let v ← readBlock target self bytes
  let k ← readKey target self
  let sum ← startSum target logbase2 self.round
  if self.round < 0 then none
  else return writeBlock target self (decryptLoop k self.round.toNat sum v)

end Tea

end Mylib.Spec.Algorithm
