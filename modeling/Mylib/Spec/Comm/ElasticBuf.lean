import Mylib.Spec.Comm.FixedBuf

/-!
# `Mylib.Spec.Comm.ElasticBuf`: the regions of the cyclic buffer

The calls of `cyc_buf<true>` of `public/comm/buffer.h` that hand out pointers.
`wlock` and `rlock` return a place inside the array, `wunlock` and `runlock` move
`_pend` and `_pbeg` past what was used of it. When the bytes asked for do not lie
in one piece, `_repos` moves the contents inside the array, or to a new one.

The calls that hand out no pointer are those of `Mylib.Spec.Comm.CycBuf`. What is
added to the buffer here is the number of the array `_data` points to: the arrays of
one buffer are numbered in the order of their `new`, as in `Mylib.Spec.Comm.FixedBuf`.
-/

set_option autoImplicit false

namespace Mylib.Spec.Comm

open Mylib.Lib.Memory

/-- `cyc_buf<true>` with the number of its array. -/
structure ElasticBuf where
  array : Nat
  buf : CycBuf
  deriving DecidableEq, Repr

/-- `a * b` on `size_t`. -/
def szMul (a b : Nat) : Nat := a * b % 2 ^ 64

/-- `memmove` inside one array. -/
def memmove (m : Block UInt8) (dst src n : Nat) : Option (Block UInt8) := do
  copyIn m dst (← copyOut m src n)

namespace ElasticBuf

/-- The constructor. -/
def elasticBuf (size : Nat) : ElasticBuf := ⟨0, CycBuf.cycBuf size⟩

/-- The buffer after a call that may have gone through `reserve`. The array is new
exactly when `_total` is. -/
def after (b : ElasticBuf) (buf : CycBuf) : ElasticBuf :=
  ⟨if buf.total = b.buf.total then b.array else b.array + 1, buf⟩

/-- `_repos()`. The fuel bounds the calls of itself in its third and fourth case, and
an assertion that fails returns `none`. -/
def reposFuel : Nat → ElasticBuf → Option ElasticBuf
  | 0, _ => none
  | fuel + 1, ⟨array, b⟩ =>
      let siz := b.size
      -- One piece: move it to the front.
      if b.pbeg ≤ b.pend then do
        let data ← memmove b.data 0 b.pbeg siz
        return ⟨array, { b with data := data, pbeg := 0, pend := siz }⟩
      else
        let unuse := b.pbeg - b.pend
        let part1 := b.total - b.pbeg
        let part2 := b.pend
        -- Case 1: the first part fits the gap, so make room at the front and put it there.
        if part1 ≤ unuse then do
          let data ← memmove b.data part1 0 part2
          let data ← memmove data 0 b.pbeg part1
          return ⟨array, { b with data := data, pbeg := 0, pend := siz }⟩
        -- Case 2: the second part fits the gap.
        else if part2 ≤ unuse then do
          let data ← memmove b.data part2 b.pbeg part1
          let data ← memmove data (part2 + part1) 0 part2
          return ⟨array, { b with data := data, pbeg := part2, pend := part2 + siz }⟩
        -- Case 3: one step by `unuse` makes it case 1.
        else if part1 ≤ szMul unuse 2 ∧ part2 ≤ part1 then do
          let data ← memmove b.data unuse 0 part2
          let data ← memmove data 0 (b.total - unuse) unuse
          let data ← memmove data (b.pbeg + unuse) b.pbeg (part1 - unuse)
          let pbeg := b.pbeg + unuse
          if szSub b.total pbeg ≤ unuse then
            reposFuel fuel ⟨array, { b with data := data, pbeg := pbeg, pend := b.pbeg }⟩
          else none
        -- Case 4: the same for case 2.
        else if part2 ≤ szMul unuse 2 ∧ part1 ≤ part2 then do
          let data ← memmove b.data part2 b.pbeg part1
          let data ← memmove data (part1 + part2) 0 unuse
          let data ← memmove data 0 unuse (part2 - unuse)
          let pend := b.pend - unuse
          if pend ≤ unuse then
            reposFuel fuel ⟨array, { b with data := data, pbeg := b.pend, pend := pend }⟩
          else none
        -- Case 5: both parts are copied to a new array of the same size.
        else do
          let pnew ← copyIn (alloc b.total) 0 (← copyOut b.data b.pbeg part1)
          let pnew ← copyIn pnew part1 (← copyOut b.data 0 part2)
          return ⟨array + 1, { b with data := pnew, pbeg := 0, pend := siz }⟩

/-- `_repos()` in the two passes it takes at most. -/
def repos (b : ElasticBuf) : Option ElasticBuf := reposFuel 2 b

/-- The growth before `wlock`, when fewer than `len` bytes are free. -/
def makeRoom (b : ElasticBuf) (len : Nat) : Option ElasticBuf :=
  if b.buf.avail < len then do
    return b.after (← b.buf.grow (szSub len b.buf.avail))
  else some b

/-- The repositioning before a lock, when the `room` bytes up to the end of the array are
fewer than `len`. -/
def onePiece (b : ElasticBuf) (room len : Nat) : Option ElasticBuf :=
  if room < len then b.repos else some b

/-- `wlock(len)`: the pointer with the `len` the call leaves, `none` for `NULL`. -/
def wlock (b : ElasticBuf) (len : Nat) : Option (Option (BufPtr × Nat) × ElasticBuf) :=
  if b.buf.wlocked then some (none, b)
  else do
    let b ← b.makeRoom len
    let b ← b.onePiece (b.buf.total - b.buf.pend) len
    return (some (⟨b.array, b.buf.pend⟩, len), { b with buf := { b.buf with wlocked := true } })

/-- `wunlock(p, len)`. -/
def wunlock (b : ElasticBuf) (p : BufPtr) (len : Nat) : Bool × ElasticBuf :=
  if !b.buf.wlocked then (false, b)
  else if p ≠ ⟨b.array, b.buf.pend⟩ then (false, b)
  else if b.buf.avail < len then (false, b)
  else if b.buf.total - b.buf.pend < len then (false, b)
  else (true, { b with buf := { b.buf with pend := b.buf.pend + len, wlocked := false } })

/-- `rlock(len)`: the pointer with the `len` the call leaves, `none` for `NULL`. -/
def rlock (b : ElasticBuf) (len : Nat) : Option (Option (BufPtr × Nat) × ElasticBuf) :=
  if b.buf.rlocked then some (none, b)
  else do
    let len := min len b.buf.size
    let b ← b.onePiece (b.buf.total - b.buf.pbeg) len
    return (some (⟨b.array, b.buf.pbeg⟩, len), { b with buf := { b.buf with rlocked := true } })

/-- `runlock(p, len)`. -/
def runlock (b : ElasticBuf) (p : BufPtr) (len : Nat) : Bool × ElasticBuf :=
  if !b.buf.rlocked then (false, b)
  else if p ≠ ⟨b.array, b.buf.pbeg⟩ then (false, b)
  else if b.buf.size < len then (false, b)
  else if b.buf.total - b.buf.pbeg < len then (false, b)
  else (true, { b with buf := { b.buf with pbeg := b.buf.pbeg + len, rlocked := false } })

/-- What a caller does with a write lock: it stores bytes in the free cells behind
`_pend`. A store that is not of this kind is not the lock holder's, and does nothing
here. -/
def store (b : ElasticBuf) (off : Nat) (bs : List UInt8) : ElasticBuf :=
  if b.buf.wlocked ∧ b.buf.pend ≤ off ∧ off + bs.length ≤ b.buf.total ∧
      off + bs.length - b.buf.pend ≤ b.buf.avail then
    { b with buf := { b.buf with data := splice b.buf.data off (bs.map some) } }
  else b

end ElasticBuf

/-- The calls on a buffer, and the stores of the holder of the write lock. -/
inductive ElasticBufOp where
  | call (op : CycBufOp)
  | wlock (len : Nat)
  | wunlock (p : BufPtr) (len : Nat)
  | rlock (len : Nat)
  | runlock (p : BufPtr) (len : Nat)
  | store (off : Nat) (bs : List UInt8)
  deriving DecidableEq, Repr

/-- What a call hands back: the result of a call without a pointer, a flag, or a
pointer with the length of its region. -/
inductive ElasticBufResult where
  | plain (r : CycBufResult)
  | flag (ok : Bool)
  | region (p : Option (BufPtr × Nat))
  | stored
  deriving DecidableEq, Repr

/-- One call. `clear` and `read` keep the array, `write` and `reserve` may replace it. -/
def ElasticBuf.step (b : ElasticBuf) : ElasticBufOp → Option (ElasticBufResult × ElasticBuf)
  | .call op => do
      let (r, buf) ← b.buf.step op
      return (.plain r, b.after buf)
  | .wlock len => do
      let (p, b) ← b.wlock len
      return (.region p, b)
  | .wunlock p len =>
      let (ok, b) := b.wunlock p len
      some (.flag ok, b)
  | .rlock len => do
      let (p, b) ← b.rlock len
      return (.region p, b)
  | .runlock p len =>
      let (ok, b) := b.runlock p len
      some (.flag ok, b)
  | .store off bs => some (.stored, b.store off bs)

/-- A sequence of calls: the buffer afterwards. -/
def ElasticBuf.run (b : ElasticBuf) : List ElasticBufOp → Option ElasticBuf
  | [] => some b
  | op :: ops => do
      let (_, b) ← b.step op
      b.run ops

end Mylib.Spec.Comm
