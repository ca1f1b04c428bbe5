import Mylib.Spec.Protocol.DataPacket

/-!
# `Mylib.Spec.Protocol.RawCursor`: the moves of a packet's cursor that read no value

`ReadData(int32 size, int32& n)`, `ReadData(int& n)` and `Forward` of `DataInPacket`, in
`public/protocol/data_packet.cc`. They move the cursor without a test against both ends of the
packet, so here it is an integer that may lie outside.
-/

set_option autoImplicit false

namespace Mylib.Spec.Protocol

/-- The members of `DataInPacket`, with the bytes at `data_`. `cursor` is `cursor_ - data_`. -/
structure RawInPacket where
  data : List UInt8
  cursor : Int
  /-- `data_len_` is an `int32`. -/
  length_lt : data.length < 2 ^ 31

namespace RawInPacket

/-- `data_len_`. -/
def dataLen (self : RawInPacket) : Int := self.data.length

/-- `(int)(data_len_ - (cursor_ - data_))`. -/
def remaining (self : RawInPacket) : Int := int32 (self.dataLen - self.cursor)

/-- The packet as the typed readers see it, for a cursor that is not in front of it. -/
def toPacket (self : RawInPacket) : DataInPacket where
  data := self.data
  cursor := self.cursor.toNat
  dataLen := self.dataLen

/-- What a call returns: a pointer into the packet, as its offset, and `n`; or the distance. -/
inductive Result where
  | read (pointer : Option Int) (n : Int)
  | moved (delta : Int)
  deriving DecidableEq, Repr

/-- `ReadData(size, n)`. -/
def readData (size : Int) (self : RawInPacket) : Result × RawInPacket :=
  let n := self.remaining
  if n = 0 then (.read none n, self)
  else (.read (some self.cursor) n, { self with cursor := self.cursor + size })

/-- `ReadData(n)`. -/
def readRest (self : RawInPacket) : Result × RawInPacket :=
  let n := self.remaining
  if n = 0 then (.read none n, self) else (.read (some self.cursor) n, self)

/-- `Forward`. -/
def forward (delta : Int) (self : RawInPacket) : Result × RawInPacket :=
  let forwardLen := int32 self.cursor
  let delta := if forwardLen < delta then forwardLen else delta
  (.moved delta, { self with cursor := self.cursor - delta })

/-- A call of one of the three. -/
inductive Call where
  | readData (size : Int)
  | readRest
  | forward (delta : Int)
  deriving DecidableEq, Repr

/-- What it does. -/
def Call.run : Call → RawInPacket → Result × RawInPacket
  | .readData size => RawInPacket.readData size
  | .readRest => RawInPacket.readRest
  | .forward delta => RawInPacket.forward delta

end RawInPacket

end Mylib.Spec.Protocol
