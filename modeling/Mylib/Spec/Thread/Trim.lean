import Mylib.Spec.Thread.Workers

/-!
# `Mylib.Spec.Thread.Trim`: stopping workers of the thread pool

`trim_threads`, `trim_idle_threads`, `trim_busy_threads` and
`base_threadpool_set_thread_max` of `public/thread/base_threadpool.c`, and `base_join_thread` of
`public/thread/base_thread.c`.

A call is one function on the pool. The only other steps that it waits for are the last
sections of the workers it joins: a stopped worker that waits on the condition leaves its
loop and takes itself off `thd_cnt`. The broadcast that wakes it does not appear.

`cnt` is the number of workers that `trim_threads` keeps, and on return the number it has
stopped. A call returns `none` when an assertion fails, when a pointer that is not a worker
element, or not the thread of one, is dereferenced, or when a walk does not end.
-/

set_option autoImplicit false

namespace Mylib.Spec.Thread

open Mylib.Lib.Ring

namespace Pool

/-- `head = BASE_RING_NEXT(head, link)`, `k` times. A sentinel has links like an element. -/
def advance (p : Pool) : Nat → EltPtr → Option EltPtr
  | 0, e => some e
  | _ + 1, .null => none
  | k + 1, e => p.advance k (p.thdLinks.next e)

/-- The loop of `trim_threads` that stops the workers from `elt` to `tail`: how many there
are, and the pool afterwards. -/
def stopFrom (tail : EltPtr) : Nat → EltPtr → Pool → Option (Nat × Pool)
  | fuel + 1, .elem e, p =>
      let p := { p with elt := Function.update p.elt e { p.elt e with state := .stop } }
      if .elem e = tail then some (1, p)
      else do
        let (n, p) ← stopFrom tail fuel (p.thdLinks.next (.elem e)) p
        return (n + 1, p)
  | _, _, _ => none

/-- `trim_threads`: the number of stopped workers, the first of them, and the pool. The
links of the run are cut at both ends, but only idle workers are taken out of their ring. -/
def trimThreads (p : Pool) (cnt : Nat) (idle : Bool) : Option (Nat × EltPtr × Pool) :=
  let ring := if idle then ThdRing.idle else ThdRing.busy
  let n := if idle then p.idleCnt else p.thdCnt - p.idleCnt
  if n ≤ cnt then some (0, .null, p)
  else do
    -- The number to stop is what is above the number to keep.
    let n := n - cnt
    let head ← p.advance cnt (p.thdLinks.next (.head ring))
    let tail := p.thdLinks.prev (.head ring)
    -- Only from the idle ring the workers are taken out.
    let p := if idle then { p with thdLinks := p.thdLinks.unsplice head tail, idleCnt := cnt }
      else p
    let (nDbg, p) ← stopFrom tail (p.eltBrk + 1) head p
    if n = nDbg then
      -- The two ends of the cut part get null pointers, in the busy ring too.
      return (n, head, { p with thdLinks := (p.thdLinks.setPrev head .null).setNext tail .null })
    else none

/-- What `base_join_thread` can be handed: the thread of a worker element, or the address of the
`int` on the stack of `trim_idle_threads`. -/
inductive JoinArg where
  | thd (elt : Nat)
  | rv
  deriving DecidableEq, Repr

/-- `base_join_thread(thrd, retval)`. It reads `*thrd->td`, so `thrd` must be a thread, and stores
an `int` in `*retval`. The worker that is waited for takes itself off `thd_cnt`. -/
def baseJoinThread (thrd retval : JoinArg) (p : Pool) : Option Pool :=
  match thrd, retval with
  | .thd _, .rv => some { p with thdCnt := p.thdCnt - 1 }
  | _, _ => none

/-- The loop of `trim_idle_threads` that joins the workers from `e` on: how many there are,
the last of them, and the pool after their exit. -/
def joinFrom : Nat → Nat → Pool → Option (Nat × Nat × Pool)
  | fuel + 1, e, p => do
      -- `base_join_thread(&rv, elt->thd)`: the two arguments are in each other's place.
      let p ← baseJoinThread .rv (.thd e) p
      match p.thdLinks.next (.elem e) with
      | .null => some (1, e, p)
      | .elem e' => do
          let (n, tail, p) ← joinFrom fuel e' p
          return (n + 1, tail, p)
      | .head _ => none
  | 0, _, _ => none

/-- `trim_idle_threads`: stop all but `cnt` of the idle workers, and recycle their
elements. -/
def trimIdleThreads (p : Pool) (cnt : Nat) : Option (Nat × Pool) := do
  let (cnt, elt, p) ← p.trimThreads cnt true
  match elt with
  | .elem e =>
      let (nDbg, tail, p) ← joinFrom (p.eltBrk + 1) e p
      let p := { p with
        thdLinks := p.thdLinks.spliceBefore (.head .recycled) (.elem e) (.elem tail) }
      if cnt = nDbg then return (cnt, p) else none
  | .null => if cnt = 0 then return (cnt, p) else none
  | .head _ => none

/-- `trim_busy_threads`. -/
def trimBusyThreads (p : Pool) (cnt : Nat) : Option (Nat × Pool) := do
  let (cnt, _, p) ← p.trimThreads cnt false
  return (cnt, p)

/-- `base_threadpool_set_thread_max`. The difference is stored in an `unsigned int`. -/
def setThreadMax (p : Pool) (cnt : Nat) : Option (Nat × Pool) :=
  let p := { p with thdMax := cnt }
  if cnt = 0 ∨ p.thdCnt ≤ cnt then some (0, p)
  else
    let n := (p.thdCnt - cnt) % 2 ^ 32
    if p.idleCnt ≤ n then do
      let (_, p) ← p.trimBusyThreads (n - p.idleCnt)
      let (_, p) ← p.trimIdleThreads 0
      return (n, p)
    else do
      let (_, p) ← p.trimIdleThreads (p.idleCnt - n)
      return (n, p)

end Pool

end Mylib.Spec.Thread
