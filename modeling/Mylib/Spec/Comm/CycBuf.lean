import Mylib.Lib.Memory

/-!
# `Mylib.Spec.Comm.CycBuf`: the cyclic byte buffer

`cyc_buf` of `public/comm/buffer.h`. The buffer is one array of `_total` bytes and
two pointers into it: unread bytes run from `_pbeg` to `_pend`, wrapping at the
end of the array. One byte of the array stays free, so `capacity()` is
`_total - 1` and `_pbeg == _pend` means empty.

A pointer is its offset from `_data`, and `_last()` is the offset `total`.
`size_t` is 64 bits wide and its additions and subtractions wrap. A `memcpy` that
leaves the array is undefined in the source; here the call returns `none`.
`new` does not fail.
-/

set_option autoImplicit false

namespace Mylib.Spec.Comm

open Mylib.Lib.Memory

/-- `a + b` on `size_t`. -/
def szAdd (a b : Nat) : Nat := (a + b) % 2 ^ 64

/-- `a - b` on `size_t`. -/
def szSub (a b : Nat) : Nat := (a + 2 ^ 64 - b) % 2 ^ 64

/-- `DWORDAlign`: the sum `p + 3` with its two low bits cleared. -/
def dwordAlign (p : Nat) : Nat := szAdd p 3 / 4 * 4

/-- `HalfGrowPolicy::grow_size`. -/
def growSize (cur inc : Nat) : Nat := szAdd cur (max inc (cur / 2))

/-- The fields of `cyc_buf`. `data` is the array `_data` points to, and the two
bits of `_state` are the flags `rlocked` and `wlocked`. -/
structure CycBuf where
  data : Block UInt8
  total : Nat
  pbeg : Nat
  pend : Nat
  rlocked : Bool
  wlocked : Bool
  deriving DecidableEq, Repr

namespace CycBuf

/-- The constructor. -/
def cycBuf (size : Nat) : CycBuf :=
  let total := dwordAlign (szAdd size 1)
  { data := alloc total, total := total, pbeg := 0, pend := 0, rlocked := false,
    wlocked := false }

/-- `size()`: the distance from `_pbeg` to `_pend`, once around the array when
`_pend` comes first. -/
def size (b : CycBuf) : Nat :=
  if b.pbeg ≤ b.pend then b.pend - b.pbeg else szSub (szAdd b.pend b.total) b.pbeg

def capacity (b : CycBuf) : Nat := szSub b.total 1

def avail (b : CycBuf) : Nat := szSub b.capacity b.size

def anyLocked (b : CycBuf) : Bool := b.wlocked || b.rlocked

/-- The copy in `reserve`: the unread bytes stored at the start of `pnew`. -/
def copyUnread (b : CycBuf) (pnew : Block UInt8) : Option (Block UInt8) :=
  let sz := b.size
  if b.pbeg ≤ b.pend then do
    copyIn pnew 0 (← copyOut b.data b.pbeg sz)
  else do
    let nTail := b.total - b.pbeg
    let pnew ← copyIn pnew 0 (← copyOut b.data b.pbeg nTail)
    copyIn pnew nTail (← copyOut b.data 0 (szSub sz nTail))

/-- `reserve(n)`: a larger array when `n` bytes and the free byte do not fit, with
the unread bytes moved to its start. -/
def reserve (b : CycBuf) (n : Nat) : Option (Bool × CycBuf) :=
  let n := dwordAlign (szAdd n 1)
  if b.anyLocked then some (false, b)
  else if n ≤ b.total then some (true, b)
  else do
    let pnew ← b.copyUnread (alloc n)
    return (true, { b with data := pnew, total := n, pbeg := 0, pend := b.size })

/-- `peek(buf, len)`: the bytes stored to `buf`. Their number is the result of the
call. -/
def peek (b : CycBuf) (len : Nat) : Option (Block UInt8) :=
  if b.rlocked then some []
  else
    let len := min b.size len
    let nTail := b.total - b.pbeg
    if b.pbeg ≤ b.pend ∨ len ≤ nTail then copyOut b.data b.pbeg len
    else do
      let head ← copyOut b.data b.pbeg nTail
      return head ++ (← copyOut b.data 0 (len - nTail))

/-- `read(buf, len)`: the bytes of `peek`, with `_pbeg` moved past them. -/
def read (b : CycBuf) (len : Nat) : Option (Block UInt8 × CycBuf) :=
  if b.rlocked then some ([], b)
  else do
    let out ← b.peek len
    let pbeg := b.pbeg + out.length
    return (out, { b with pbeg := if b.total ≤ pbeg then pbeg - b.total else pbeg })

/-- `_grow(inc)`. -/
def grow (b : CycBuf) (inc : Nat) : Option CycBuf := do
  let (_, b) ← b.reserve (growSize b.capacity inc)
  return b

/-- The copy in `write`: `bs` stored from `_pend` on, wrapping at the end of the
array, with `_pend` moved past it. -/
def append (b : CycBuf) (bs : List UInt8) : Option CycBuf :=
  let len := bs.length
  let nTail := b.total - b.pend
  if len ≤ nTail then do
    let data ← copyIn b.data b.pend (bs.map some)
    return { b with data := data, pend := b.pend + len }
  else do
    let data ← copyIn b.data b.pend ((bs.take nTail).map some)
    let data ← copyIn data 0 ((bs.drop nTail).map some)
    return { b with data := data, pend := len - nTail }

/-- `write(buf, len)` with the `len` bytes of `bs` at `buf`: the number of bytes
appended and the buffer after the call. -/
def write (b : CycBuf) (bs : List UInt8) : Option (Nat × CycBuf) :=
  let len := bs.length
  if b.wlocked then some (0, b)
  else do
    let grown ← if b.avail < len then b.grow (szSub len b.avail) else some b
    let after ← grown.append bs
    return (len, after)

/-- `clear()`. -/
def clear (b : CycBuf) : Bool × CycBuf :=
  if b.anyLocked then (false, b) else (true, { b with pbeg := 0, pend := 0 })

end CycBuf

/-- The calls on an unlocked buffer. -/
inductive CycBufOp where
  | write (bs : List UInt8)
  | read (len : Nat)
  | peek (len : Nat)
  | reserve (n : Nat)
  | clear
  deriving DecidableEq, Repr

/-- What a call hands back: a count, the bytes stored at `buf`, or a flag. -/
inductive CycBufResult where
  | count (n : Nat)
  | bytes (bs : Block UInt8)
  | flag (ok : Bool)
  deriving DecidableEq, Repr

/-- One call. -/
def CycBuf.step (b : CycBuf) : CycBufOp → Option (CycBufResult × CycBuf)
  | .write bs => do
      let (n, b) ← b.write bs
      return (.count n, b)
  | .read len => do
      let (bs, b) ← b.read len
      return (.bytes bs, b)
  | .peek len => do
      return (.bytes (← b.peek len), b)
  | .reserve n => do
      let (ok, b) ← b.reserve n
      return (.flag ok, b)
  | .clear =>
      let (ok, b) := b.clear
      some (.flag ok, b)

/-- A sequence of calls: their results in order and the buffer afterwards. -/
def CycBuf.run (b : CycBuf) : List CycBufOp → Option (List CycBufResult × CycBuf)
  | [] => some ([], b)
  | op :: ops => do
      let (r, b) ← b.step op
      let (rs, b) ← b.run ops
      return (r :: rs, b)

end Mylib.Spec.Comm
