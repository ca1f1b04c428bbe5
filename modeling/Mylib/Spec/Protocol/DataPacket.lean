import Mylib.Lib.ByteOrder
import Mylib.Lib.Memory

/-!
# `Mylib.Spec.Protocol.DataPacket`: packets of typed values

`DataOutPacket` and `DataInPacket` of `public/protocol/data_packet.h`. A pointer into
the buffer of a packet is its offset. A store or a load that leaves the buffer is
undefined, and the function that makes it returns `none`.

The host is little-endian. The capacity tests compare in `size_t` or in a signed
type, each as its operands promote. `realloc` and `malloc` fail for a negative size
(as a `size_t` it is larger than any block) and for no other.
-/

set_option autoImplicit false

namespace Mylib.Spec.Protocol

open Mylib.Lib.ByteOrder
open Mylib.Lib.Memory

/-- The bytes of a `std::string`. -/
abbrev Str := List UInt8

/-- The value of an expression stored in an `int32`. -/
def int32 (x : Int) : Int := x.bmod (2 ^ 32)

/-- A signed value where the other operand is a `size_t`. -/
def sizeT (x : Int) : Nat := (x % 2 ^ 64).toNat

/-! ### Byte order -/

def htons (w : Nat) : Nat := swap 2 w

def htonl (dw : Nat) : Nat := swap 4 dw

/-- The eight operands of the macro `htonl64`. -/
def htonl64Term (x : UInt64) : Fin 8 → UInt64
  | 0 => (x &&& 0xff00000000000000) >>> 56
  | 1 => (x &&& 0x00ff000000000000) >>> 40
  | 2 => (x &&& 0x0000ff0000000000) >>> 24
  | 3 => (x &&& 0x000000ff00000000) >>> 8
  | 4 => (x &&& 0x00000000ff000000) <<< 8
  | 5 => (x &&& 0x0000000000ff0000) <<< 24
  | 6 => (x &&& 0x000000000000ff00) <<< 40
  | 7 => (x &&& 0x00000000000000ff) <<< 56

/-- `htonl64` of a variable. -/
def htonl64 (x : UInt64) : UInt64 :=
  (List.finRange 8).foldl (fun acc i => acc ||| htonl64Term x i) 0

/-! ### Writing -/

/-- The members of `DataOutPacket`. `buffer` is the block `buffer_` points to, `none`
for a null pointer, and `cursor` is `cursor_ - buffer_`. -/
structure DataOutPacket where
  buffer : Option (Block UInt8)
  bufferLength : Int
  cursor : Nat
  deriving DecidableEq, Repr

namespace DataOutPacket

/-- The constructor. The `memset` comes before the test for a null pointer. -/
def dataOutPacket (len : Int) : Option DataOutPacket :=
  if 0 ≤ len then
    some { buffer := some (List.replicate len.toNat (some 0x30)), bufferLength := len, cursor := 0 }
  else none

/-- `GetLength`. -/
def getLength (self : DataOutPacket) : Int := int32 self.cursor

/-- `realloc`. The bytes behind the old block are undefined. -/
def realloc (buffer : Option (Block UInt8)) (size : Int) : Option (Block UInt8) :=
  if 0 < size then
    let block := buffer.getD []
    some (block.take size.toNat ++ alloc (size.toNat - block.length))
  else none

/-- The stores at `cursor_`, with the cursor moved behind them. -/
def put (self : DataOutPacket) (bytes : List UInt8) : Option DataOutPacket := do
  let block ← copyIn (← self.buffer) self.cursor (bytes.map some)
  return { self with buffer := some block, cursor := self.cursor + bytes.length }

/-- The growth to `newLength` that every writer makes when its bytes do not fit, and
then the rest of the writer. Where the `realloc` fails the packet is left empty. -/
def growThen (self : DataOutPacket) (newLength : Int)
    (rest : DataOutPacket → Option DataOutPacket) : Option DataOutPacket :=
  match realloc self.buffer newLength with
  | none => some { buffer := none, bufferLength := 0, cursor := 0 }
  | some block => rest { self with buffer := some block, bufferLength := newLength }

/-- The writers of one machine word of `size` bytes. -/
def writeWord (size n : Nat) (self : DataOutPacket) : Option DataOutPacket :=
  let store := fun self : DataOutPacket => self.put (wordBytes size n)
  if sizeT self.bufferLength < self.cursor + size then
    self.growThen (int32 (int32 (self.cursor + size : Nat) * 2)) store
  else store self

/-- `Write8`. -/
def write8 (b : UInt8) (self : DataOutPacket) : Option DataOutPacket := writeWord 1 b.toNat self

/-- `Write16`. -/
def write16 (w : UInt16) (self : DataOutPacket) : Option DataOutPacket := writeWord 2 w.toNat self

/-- `Write32`. -/
def write32 (dw : UInt32) (self : DataOutPacket) : Option DataOutPacket := writeWord 4 dw.toNat self

/-- `Write64`. -/
def write64 (lw : UInt64) (self : DataOutPacket) : Option DataOutPacket := writeWord 8 lw.toNat self

/-- `WriteData`, with the `len` bytes at `buf`. Its test compares signed values. -/
def writeData (buf : List UInt8) (self : DataOutPacket) : Option DataOutPacket :=
  let store := fun self : DataOutPacket => self.put buf
  if self.bufferLength < (self.cursor + buf.length : Nat) then
    self.growThen (int32 (int32 (self.cursor + buf.length : Nat) * 2)) store
  else store self

/-- `WriteString`, with the `n` bytes at `str`. The test counts the length field and
the `n` bytes; what is stored has a terminator as well. -/
def writeString (str : List UInt8) (self : DataOutPacket) : Option DataOutPacket :=
  let n := str.length
  let store := fun self : DataOutPacket => do
    let self ← self.write32 (UInt32.ofNat (htonl (n + 1)))
    self.put (str ++ [0])
  if sizeT self.bufferLength < self.cursor + n + 4 then
    self.growThen (int32 ((self.cursor + n + 4) % 2 ^ 32 * 2 % 2 ^ 32 : Nat)) store
  else store self

end DataOutPacket

/-! ### Values -/

/-- The kinds of values, as the overloads of `operator<<` take them. -/
inductive PacketValue where
  | int8 (b : Int8)
  | int16 (w : Int16)
  | int32 (dw : Int32)
  | int64 (lw : Int64)
  | bool (b : Bool)
  | string (str : Str)
  deriving DecidableEq, Repr

/-- `operator<<`. A string is written up to its first zero. -/
def DataOutPacket.insert (self : DataOutPacket) : PacketValue → Option DataOutPacket
  | .int8 b => self.write8 b.toUInt8
  | .int16 w => self.write16 (UInt16.ofNat (htons w.toUInt16.toNat))
  | .int32 dw => self.write32 (UInt32.ofNat (htonl dw.toUInt32.toNat))
  | .int64 lw => self.write64 (htonl64 lw.toUInt64)
  | .bool b => self.write8 (if b then 1 else 0)
  | .string str => self.writeString (str.takeWhile (· ≠ 0))

/-- The overloads of `operator>>`. -/
inductive ReadKind where
  | int8
  | int16
  | int32
  | int64
  | bool
  | charPtr
  | stdString
  deriving DecidableEq, Repr

/-! ### Reading -/

/-- The members of `DataInPacket`, with the bytes at `data_`. -/
structure DataInPacket where
  data : List UInt8
  cursor : Nat
  dataLen : Int
  deriving DecidableEq, Repr

namespace DataInPacket

/-- The constructor, on the `n` bytes at `d`. -/
def dataInPacket (d : List UInt8) : DataInPacket := { data := d, cursor := 0, dataLen := d.length }

/-- `data_len_ - (cursor_ - data_)`. -/
def remaining (self : DataInPacket) : Int := self.dataLen - self.cursor

/-- The readers of one machine word of `size` bytes: the word, or zero and the cursor as
it was. -/
def readWord (size : Nat) (self : DataInPacket) : Option (Nat × DataInPacket) :=
  if size ≤ sizeT self.remaining then
    if self.cursor + size ≤ self.data.length then
      some (bytesWord ((self.data.drop self.cursor).take size),
        { self with cursor := self.cursor + size })
    else none
  else some (0, self)

/-- `Read8`. -/
def read8 (self : DataInPacket) : Option (Nat × DataInPacket) := readWord 1 self

/-- `Read16`. -/
def read16 (self : DataInPacket) : Option (Nat × DataInPacket) := readWord 2 self

/-- `Read32`. -/
def read32 (self : DataInPacket) : Option (Nat × DataInPacket) := readWord 4 self

/-- `Read64`. -/
def read64 (self : DataInPacket) : Option (Nat × DataInPacket) := readWord 8 self

/-- `ntohl64(Read64())`. The macro evaluates its argument once in each operand, so the
packet is read for every operand in turn. `order` is the order in which the operands
are evaluated, which the language leaves open. -/
def ntohl64Read64 : (order : List (Fin 8)) → UInt64 → DataInPacket →
    Option (UInt64 × DataInPacket)
  | [], acc, self => some (acc, self)
  | i :: order, acc, self => do
    let (lw, self) ← self.read64
    ntohl64Read64 order (acc ||| htonl64Term (UInt64.ofNat lw) i) self

/-- `operator>>(int32&)`. -/
def extractInt32 (self : DataInPacket) : Option (Int32 × DataInPacket) := do
  let (dw, self) ← self.read32
  return ((UInt32.ofNat (htonl dw)).toInt32, self)

/-- The C string at the start of these bytes. -/
def cString : List UInt8 → Option Str
  | [] => none
  | b :: bs => if b = 0 then some [] else (cString bs).map (b :: ·)

/-- `operator>>(const char*&)` and `operator>>(std::string&)`: the text behind the
pointer, or the empty one. -/
def extractString (self : DataInPacket) : Option (Str × DataInPacket) := do
  let (len, self) ← self.extractInt32
  if 0 < len.toInt ∧ len.toInt ≤ self.remaining then
    let last ← self.data[self.cursor + len.toInt.toNat - 1]?
    if last = 0 then
      let str ← cString (self.data.drop self.cursor)
      return (str, { self with cursor := self.cursor + len.toInt.toNat })
    else return ([], self)
  else return ([], self)

/-- `operator>>`. -/
def extract (order : List (Fin 8)) (self : DataInPacket) :
    ReadKind → Option (PacketValue × DataInPacket)
  | .int8 => do
    let (b, self) ← self.read8
    return (.int8 (UInt8.ofNat b).toInt8, self)
  -- The integers come in network order.
  | .int16 => do
    let (w, self) ← self.read16
    return (.int16 (UInt16.ofNat (htons w)).toInt16, self)
  | .int32 => do
    let (dw, self) ← self.extractInt32
    return (.int32 dw, self)
  | .int64 => do
    let (lw, self) ← ntohl64Read64 order 0 self
    return (.int64 lw.toInt64, self)
  | .bool => do
    let (b, self) ← self.read8
    return (.bool (b ≠ 0), self)
  | .charPtr => do
    let (str, self) ← self.extractString
    return (.string str, self)
  | .stdString => do
    let (str, self) ← self.extractString
    return (.string str, self)

end DataInPacket

end Mylib.Spec.Protocol
