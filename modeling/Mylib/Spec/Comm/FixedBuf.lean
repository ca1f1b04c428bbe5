import Mylib.Spec.Comm.CycBuf

/-!
# `Mylib.Spec.Comm.FixedBuf`: the linear byte buffer

`fixed_buf` of `public/comm/buffer.h`. The buffer is one array of `_total` bytes and
a position `_ppos` in it: the contents are the bytes before the position. A read
moves the rest to the front.

`wlock` and `rlock` hand out pointers into the array. A pointer is the array it
points into and an offset; the arrays of one buffer are numbered in the order of
their `new`, so a pointer into an array that has been deleted differs from every
pointer into the present one. `size_t` wraps, a `memcpy` that leaves its array
returns `none`, and `new` does not fail, as in `Mylib.Spec.Comm.CycBuf`.
-/

set_option autoImplicit false

namespace Mylib.Spec.Comm

open Mylib.Lib.Memory

/-- `void *` into one of a buffer's arrays. -/
structure BufPtr where
  array : Nat
  off : Nat
  deriving DecidableEq, Repr

/-- The fields of `fixed_buf`. `array` is the number of the array `_data` points to,
`data` its bytes, and the two bits of `_state` are the flags `rlocked` and
`wlocked`. -/
structure FixedBuf where
  array : Nat
  data : Block UInt8
  total : Nat
  ppos : Nat
  rlocked : Bool
  wlocked : Bool
  deriving DecidableEq, Repr

namespace FixedBuf

/-- The constructor. -/
def fixedBuf (size : Nat) : FixedBuf :=
  let total := dwordAlign size
  { array := 0, data := alloc total, total := total, ppos := 0, rlocked := false,
    wlocked := false }

def size (b : FixedBuf) : Nat := b.ppos

def capacity (b : FixedBuf) : Nat := b.total

def avail (b : FixedBuf) : Nat := szSub b.capacity b.size

def anyLocked (b : FixedBuf) : Bool := b.wlocked || b.rlocked

/-- `reserve(n)`: a larger array when `n` bytes do not fit, with the contents moved
to it. -/
def reserve (b : FixedBuf) (n : Nat) : Option (Bool × FixedBuf) :=
  let n := dwordAlign n
  if b.anyLocked then some (false, b)
  else if n ≤ b.total then some (true, b)
  else do
    let pnew ← copyIn (alloc n) 0 (← copyOut b.data 0 b.size)
    return (true, { b with array := b.array + 1, data := pnew, total := n, ppos := b.size })

/-- `peek(buf, len)`: the bytes stored to `buf`. Their number is the result of the
call. -/
def peek (b : FixedBuf) (len : Nat) : Option (Block UInt8) :=
  if b.rlocked then some [] else copyOut b.data 0 (min len b.size)

/-- The `memmove` of `read` and `runlock`: the contents without their first `len`
bytes. -/
def dropFront (b : FixedBuf) (len : Nat) : Option FixedBuf := do
  let data ← copyIn b.data 0 (← copyOut b.data len (b.size - len))
  return { b with data := data, ppos := b.ppos - len }

/-- `read(buf, len)`: the bytes of `peek`, taken from the front. -/
def read (b : FixedBuf) (len : Nat) : Option (Block UInt8 × FixedBuf) :=
  if b.rlocked then some ([], b)
  else do
    let out ← b.peek len
    return (out, ← b.dropFront out.length)

/-- `_grow(inc)`. -/
def grow (b : FixedBuf) (inc : Nat) : Option FixedBuf := do
  let (_, b) ← b.reserve (growSize b.capacity inc)
  return b

/-- The growth before `write` and `wlock`, when fewer than `len` bytes are free. -/
def makeRoom (b : FixedBuf) (len : Nat) : Option FixedBuf :=
  if b.avail < len then b.grow (szSub len b.avail) else some b

/-- `write(buf, len)` with the `len` bytes of `bs` at `buf`: the number of bytes
appended and the buffer after the call. What does not fit is left out. -/
def write (b : FixedBuf) (bs : List UInt8) : Option (Nat × FixedBuf) :=
  if b.wlocked then some (0, b)
  else do
    let b ← b.makeRoom bs.length
    let len := min bs.length (szSub b.capacity b.size)
    let data ← copyIn b.data b.ppos ((bs.take len).map some)
    return (len, { b with data := data, ppos := b.ppos + len })

/-- `wlock(len)`: the pointer, `none` for `NULL`. The call does not change `len`. -/
def wlock (b : FixedBuf) (len : Nat) : Option (Option BufPtr × FixedBuf) :=
  if b.wlocked then some (none, b)
  else do
    let b ← b.makeRoom len
    return (some ⟨b.array, b.ppos⟩, { b with wlocked := true })

/-- `wunlock(p, len)`. -/
def wunlock (b : FixedBuf) (p : BufPtr) (len : Nat) : Bool × FixedBuf :=
  if !b.wlocked then (false, b)
  else if p ≠ ⟨b.array, b.ppos⟩ then (false, b)
  else if b.avail < len then (false, b)
  else (true, { b with ppos := b.ppos + len, wlocked := false })

/-- `rlock(len)`: the pointer with the `len` the call leaves, `none` for `NULL`. -/
def rlock (b : FixedBuf) (len : Nat) : Option (BufPtr × Nat) × FixedBuf :=
  if b.rlocked then (none, b)
  else (some (⟨b.array, 0⟩, min b.size len), { b with rlocked := true })

/-- `runlock(p, len)`. -/
def runlock (b : FixedBuf) (p : BufPtr) (len : Nat) : Option (Bool × FixedBuf) :=
  if !b.rlocked then some (false, b)
  else if b.wlocked then some (false, b)
  else if p ≠ ⟨b.array, 0⟩ then some (false, b)
  else if b.size < len then some (false, b)
  else do
    let b ← b.dropFront len
    return (true, { b with rlocked := false })

/-- `clear()`. -/
def clear (b : FixedBuf) : Bool × FixedBuf :=
  if b.anyLocked then (false, b) else (true, { b with ppos := 0 })

/-- What a caller does with a write lock: it stores bytes in the array, behind the
contents. A store that is not of this kind is not the lock holder's, and does
nothing here. -/
def store (b : FixedBuf) (off : Nat) (bs : List UInt8) : FixedBuf :=
  if b.wlocked ∧ b.ppos ≤ off ∧ off + bs.length ≤ b.total then
    { b with data := splice b.data off (bs.map some) }
  else b

end FixedBuf

/-- The calls on a buffer, and the stores of the holder of the write lock. -/
inductive FixedBufOp where
  | write (bs : List UInt8)
  | read (len : Nat)
  | peek (len : Nat)
  | reserve (n : Nat)
  | clear
  | wlock (len : Nat)
  | wunlock (p : BufPtr) (len : Nat)
  | rlock (len : Nat)
  | runlock (p : BufPtr) (len : Nat)
  | store (off : Nat) (bs : List UInt8)
  deriving DecidableEq, Repr

/-- What a call hands back: a count, the bytes stored at `buf`, a flag, or a pointer
with the length of its region. -/
inductive FixedBufResult where
  | count (n : Nat)
  | bytes (bs : Block UInt8)
  | flag (ok : Bool)
  | region (p : Option (BufPtr × Nat))
  | stored
  deriving DecidableEq, Repr

/-- One call. -/
def FixedBuf.step (b : FixedBuf) : FixedBufOp → Option (FixedBufResult × FixedBuf)
  | .write bs => do
      let (n, b) ← b.write bs
      return (.count n, b)
  | .read len => do
      let (bs, b) ← b.read len
      return (.bytes bs, b)
  | .peek len => do
      return (.bytes (← b.peek len), b)
  | .reserve n => do
      let (ok, b) ← b.reserve n
      return (.flag ok, b)
  | .clear =>
      let (ok, b) := b.clear
      some (.flag ok, b)
  | .wlock len => do
      let (p, b) ← b.wlock len
      return (.region (p.map fun p => (p, len)), b)
  | .wunlock p len =>
      let (ok, b) := b.wunlock p len
      some (.flag ok, b)
  | .rlock len =>
      let (p, b) := b.rlock len
      some (.region p, b)
  | .runlock p len => do
      let (ok, b) ← b.runlock p len
      return (.flag ok, b)
  | .store off bs => some (.stored, b.store off bs)

/-- A sequence of calls: the buffer afterwards. -/
def FixedBuf.run (b : FixedBuf) : List FixedBufOp → Option FixedBuf
  | [] => some b
  | op :: ops => do
      let (_, b) ← b.step op
      b.run ops

end Mylib.Spec.Comm
