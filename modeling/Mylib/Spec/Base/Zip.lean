import Mylib.Spec.Base.StringUtil

/-!
# `Mylib.Spec.Base.Zip`: compressed messages

`MZip` of `public/basic/zip.cc` and `MUnZip` of `public/basic/unzip.cc`. zlib is a parameter.

A message is its bytes, and its length is their number. A buffer is the bytes that were written
to it from its start on, and `next_out` is a distance from there. What is stored in a `uInt` of
the stream is cut to 32 bits, an `unsigned long` has 64.
-/

set_option autoImplicit false

namespace Mylib.Spec.Base.Zip

open Mylib.Spec.Base (Str)

/-- `Z_OK`. -/
def zOk : Int := 0

/-- What a call of `deflate` or `inflate` does: its result, how much of the input is left, what
it writes, and the state behind it. -/
structure Call (σ : Type) where
  err : Int
  availIn : ℕ
  out : Str
  next : σ

/-- zlib, with level 9 and `Z_SYNC_FLUSH`: from a state, the input and the room for output. -/
structure Zlib where
  Deflater : Type
  Inflater : Type
  deflateInit : Int × Deflater
  deflate : Deflater → Str → ℕ → Call Deflater
  inflateInit : Int × Inflater
  inflate : Inflater → Str → ℕ → Call Inflater

/-- A length in a `uInt`. -/
def uInt (n : ℕ) : ℕ := n % 2 ^ 32

variable (z : Zlib)

/-! ### `MZip` -/

/-- `ENCODE_ZLIB_MIN_COMP_SIZE`. -/
def encodeZlibMinCompSize : ℕ := 17

/-- `ZIP_TYPE_NONE`. -/
def zipTypeNone : UInt8 := 0

/-- The stream of `MZip`. -/
structure DeflateStream where
  state : z.Deflater
  totalOut : UInt64

structure MZip where
  zlibStream : Option (DeflateStream z)
  ulTotalZipLen : UInt64
  bCompress : Bool

/-- The constructor. -/
def MZip.new : MZip z := { zlibStream := none, ulTotalZipLen := 0, bCompress := true }

variable {z}

/-- `EnableCompress`. -/
def MZip.enableCompress (m : MZip z) (bEnable : Bool) : MZip z := { m with bCompress := bEnable }

/-- The first part of `Zip`: the stream, made where there is none. -/
def MZip.openStream (m : MZip z) : Int × DeflateStream z × UInt64 :=
  match m.zlibStream with
  | some stream => (zOk, stream, m.ulTotalZipLen)
  | none =>
    let (err, state) := z.deflateInit
    (err, { state, totalOut := 0 }, if err = zOk then 0 else m.ulTotalZipLen)

/-- `Zip`: the result, `pZipData` and `ulZipLen`. -/
def MZip.zip (m : MZip z) (pUnZipData : Str) (ulZipLen : ℕ) : Int × Str × ℕ × MZip z :=
  let (err, stream, ulTotalZipLen) := m.openStream
  let m := { m with zlibStream := some stream, ulTotalZipLen }
  if err ≠ zOk then (err, [], ulZipLen, m)
  else
    -- Input that is left does not count as a failure.
    let call := z.deflate stream.state (pUnZipData.take (uInt pUnZipData.length)) (uInt ulZipLen)
    let totalOut := stream.totalOut + UInt64.ofNat call.out.length
    let m := { m with zlibStream := some { state := call.next, totalOut } }
    if call.err ≠ zOk then (call.err, call.out, 0, m)
    else if call.availIn = 0 then
      (call.err, call.out, (totalOut - m.ulTotalZipLen).toNat, { m with ulTotalZipLen := totalOut })
    else (call.err, call.out, ulZipLen, m)

/-- `memcpy` to the start of a buffer. -/
def memcpy (buffer bytes : Str) : Str := bytes ++ buffer.drop bytes.length

/-- `ZipData`: the bytes that the result counts. -/
def MZip.zipData (m : MZip z) (pUnZipData : Str) : Str × MZip z :=
  -- The type byte is written, and the message is copied over it.
  let store : Str := memcpy [zipTypeNone] pUnZipData
  if pUnZipData.length = 0 then ([], m)
  else if m.bCompress = false then (store, m)
  else if pUnZipData.length < encodeZlibMinCompSize then (store, m)
  else
    let (ret, pZipData, ulZipLen, m) := m.zip pUnZipData (pUnZipData.length + 300)
    if ret ≠ zOk then (store, m) else (pZipData.take ulZipLen, m)

/-! ### `MUnZip` -/

/-- `MAX_BLOCKSIZE`. -/
def maxBlocksize : ℕ := 184320

variable (z)

/-- The stream of `MUnZip`. -/
structure InflateStream where
  state : z.Inflater
  nextOut : ℕ
  availOut : ℕ
  totalOut : UInt64

structure MUnZip where
  zlibStream : Option (InflateStream z)
  unZipLen : UInt64

/-- The constructor. -/
def MUnZip.new : MUnZip z := { zlibStream := none, unZipLen := 0 }

variable {z}

/-- The first part of `UnZip`: the stream, made where there is none. -/
def MUnZip.openStream (m : MUnZip z) (ulUnZipLen : ℕ) : Int × InflateStream z × UInt64 :=
  match m.zlibStream with
  | some stream => (zOk, stream, m.unZipLen)
  | none =>
    let (err, state) := z.inflateInit
    (err, { state, nextOut := 0, availOut := uInt ulUnZipLen, totalOut := 0 },
      if err = zOk then 0 else m.unZipLen)

/-- `next_out` and `avail_out`, which a recursive call leaves as they are. -/
def InflateStream.setOutput (stream : InflateStream z) (ulUnZipLen iRecursion : ℕ) :
    InflateStream z :=
  if iRecursion = 0 then { stream with nextOut := 0, availOut := uInt ulUnZipLen } else stream

/-- `UnZip`: the result, `*ppUnZipData` and `*ulUnZipLen`. `none` where more than `fuel` calls
are open. -/
def MUnZip.unZip : (fuel : ℕ) → MUnZip z → (pZipData data : Str) → (ulUnZipLen iRecursion : ℕ) →
    Option (Int × Str × ℕ × MUnZip z)
  | 0, _, _, _, _, _ => none
  | fuel + 1, m, pZipData, data, ulUnZipLen, iRecursion =>
    let (err, stream, unZipLen) := m.openStream ulUnZipLen
    if err ≠ zOk then some (err, data, ulUnZipLen, { zlibStream := some stream, unZipLen })
    else
      let stream := stream.setOutput ulUnZipLen iRecursion
      let input := pZipData.take (uInt pZipData.length)
      let call := z.inflate stream.state input stream.availOut
      let data := data.take stream.nextOut ++ call.out
      let stream : InflateStream z :=
        { state := call.next
          nextOut := stream.nextOut + call.out.length
          availOut := stream.availOut - call.out.length
          totalOut := stream.totalOut + UInt64.ofNat call.out.length }
      if call.err = zOk ∧ stream.availOut = 0 ∧ call.availIn ≠ 0 then
        -- the buffer is full: a larger one, with what there is
        let newLength := ulUnZipLen * 2 % 2 ^ 64
        let newLength := if newLength = 0 then pZipData.length * 2 else newLength
        let done := (stream.totalOut - unZipLen).toNat
        let stream := { stream with nextOut := done, availOut := uInt (newLength - done) }
        unZip fuel { zlibStream := some stream, unZipLen }
          (input.drop (input.length - call.availIn)) (data.take done) newLength (iRecursion + 1)
      else if call.err ≠ zOk then some (call.err, data, 0, { zlibStream := some stream, unZipLen })
      else if call.availIn = 0 then
        some (call.err, data, (stream.totalOut - unZipLen).toNat,
          { zlibStream := some stream, unZipLen := stream.totalOut })
      else some (call.err, data, ulUnZipLen, { zlibStream := some stream, unZipLen })

/-- `UnZipData`: the result, and the bytes that it counts. -/
def MUnZip.unZipData (fuel : ℕ) (m : MUnZip z) (pZipData : Str) :
    Option ((ℕ × Str) × MUnZip z) :=
  if pZipData.length = 0 then some ((0, []), m)
  else
    -- `ucType` is read here, and not looked at.
    let ulUnZipLen := pZipData.length * 2
    let ulUnZipLen := if ulUnZipLen > maxBlocksize + 300 then maxBlocksize + 300 else ulUnZipLen
    (m.unZip fuel pZipData [] ulUnZipLen 0).map fun (ret, data, ulUnZipLen, m) =>
      if ret ≠ zOk ∨ ulUnZipLen = 0 then ((0, []), m)
      else ((ulUnZipLen, data.take ulUnZipLen), m)

/-! ### Sequences of messages -/

/-- The outputs of one `MZip`, for messages with what compression is set to before each. -/
def zipAll : MZip z → List (Bool × Str) → List Str
  | _, [] => []
  | m, (bEnable, message) :: messages =>
    let (output, m) := (m.enableCompress bEnable).zipData message
    output :: zipAll m messages

/-- What one `MUnZip` makes of them. -/
def unZipAll (fuel : ℕ) : MUnZip z → List Str → Option (List (ℕ × Str))
  | _, [] => some []
  | m, output :: outputs => do
    let (result, m) ← m.unZipData fuel output
    let results ← unZipAll fuel m outputs
    some (result :: results)

/-! ### zlib -/

/-- What the manual of zlib says of a stream that is flushed after each message. `sync` is all
that `deflate` has to write for a message; a decoder is `InStep` with the encoder, or it `Owes`
what is left of a message, for what is left of the input. -/
structure Zlib.Manual (z : Zlib) where
  sync : z.Deflater → Str → Str
  after : z.Deflater → Str → z.Deflater
  InStep : z.Deflater → z.Inflater → Prop
  Owes : z.Inflater → (input rest : Str) → z.Deflater → Prop
  deflateInit_ok : z.deflateInit.1 = zOk
  inflateInit_ok : z.inflateInit.1 = zOk
  inStep_init : InStep z.deflateInit.2 z.inflateInit.2
  /-- With enough room, all of the input is compressed and flushed. -/
  deflate_sync : ∀ d message room, message ≠ [] → (sync d message).length < room →
    z.deflate d message room = ⟨zOk, 0, sync d message, after d message⟩
  /-- There is the marker at least. -/
  sync_ne_nil : ∀ d message, sync d message ≠ []
  owes_sync : ∀ d i message, InStep d i → message ≠ [] →
    Owes i (sync d message) message (after d message)
  /-- `inflate` writes as much as there is room for, and reads all of the input, if all that was
  owed is written. -/
  inflate_owes : ∀ i input rest d room, Owes i input rest d → 0 < room →
    (z.inflate i input room).err = zOk ∧
    (z.inflate i input room).out = rest.take room ∧
    ((z.inflate i input room).availIn = 0 ∧ rest.length ≤ room ∧
        InStep d (z.inflate i input room).next ∨
      (z.inflate i input room).availIn ≠ 0 ∧ room ≤ rest.length ∧
        Owes (z.inflate i input room).next
          (input.drop (input.length - (z.inflate i input room).availIn)) (rest.drop room) d)

end Mylib.Spec.Base.Zip
