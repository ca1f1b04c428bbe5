import Mylib.Spec.Thread.TaskQueue

/-!
# `Mylib.Spec.Thread.Workers`: the workers and the callers of the thread pool

`thread_pool_func` and `wait_on_busy_threads` of `public/thread/base_threadpool.c`, as a
system of workers and callers that take turns.

All of a worker's accesses to the pool are in sections that the pool's lock protects. The
lock is released in three places: while a task runs, while the worker waits on the
condition, and when it exits. So a worker is in one of the states of `WorkerState` between
two sections, and a section is one function on the pool. A waiting worker may wake at any
time, which covers signals, time-outs and spurious wake-ups. For this reason the length of
the wait does not appear.

`base_threadpool_cancel_tasks` has one section that removes queued tasks, and then one for
each time that `wait_on_busy_threads` holds the lock.

`base_init_threadpool` counts each worker after it is created and outside the lock. While it
runs no other caller has the pool, and the workers neither read the count nor exit. So the
system starts with all workers created and counted, and none of them in its loop yet.
-/

set_option autoImplicit false

namespace Mylib.Spec.Thread

open Mylib.Lib.Ring

/-- Where a worker thread is while it does not hold the lock. -/
inductive WorkerState where
  /-- It has not taken the lock yet. -/
  | created
  /-- It runs the task of the object `n`. -/
  | running (e n : Nat)
  /-- It waits on the condition. -/
  | waiting (e : Nat)
  | exited
  /-- It has exited because `elt_new` failed. -/
  | failed
  deriving DecidableEq, Repr

namespace Pool

/-- The worker elements of a ring, in order. -/
def thds (p : Pool) (r : ThdRing) : List Nat := p.thdLinks.toList p.eltBrk r

/-- Set up the worker element `e`, which is in no ring, for the thread `t`. -/
def initElt (p : Pool) (e t : Nat) : Pool :=
  { p with thdLinks := p.thdLinks.elemInit (.elem e),
           elt := Function.update p.elt e ⟨t, 0, .run⟩ }

/-- `elt_new`: a recycled element, or a fresh one. -/
def eltNew (p : Pool) (t : Nat) (alloc : Bool) : Option (Option Nat × Pool) :=
  match p.thdLinks.next (.head .recycled) with
  | .head .recycled =>
      if alloc then
        some (some p.eltBrk, { p with eltBrk := p.eltBrk + 1 }.initElt p.eltBrk t)
      else some (none, p)
  | .elem e => some (some e, { p with thdLinks := p.thdLinks.remove (.elem e) }.initElt e t)
  | _ => none

/-! ### The worker loop -/

/-- The condition under which a worker without a task exits. -/
def retires (p : Pool) (e : Nat) : Bool :=
  (p.idleMax ≤ p.idleCnt ∧ ¬(p.scheduledTaskCnt ≠ 0 ∧ p.idleMax = 0) ∧ p.idleWait = 0) ∨
    p.terminated ∨ (p.elt e).state ≠ .run

/-- A worker without a task exits. -/
def retire (p : Pool) (e : Nat) : Pool :=
  let timedOut := (p.elt e).state = .probation ∧ p.idleWait ≠ 0
  { p with thdCnt := p.thdCnt - 1,
           thdTimedOut := if timedOut then p.thdTimedOut + 1 else p.thdTimedOut,
           thdLinks := p.thdLinks.insertTail .recycled (.elem e) }

/-- A worker without a task becomes idle. It is on probation if it does not wait for a
scheduled task and there are too many idle workers. The wait itself is left out, and with it that
its length in microseconds is passed to `base_timedwait_threadcond` where that takes a
`struct timespec *`. -/
def goIdle (p : Pool) (e : Nat) : Option Pool :=
  let p := { p with idleCnt := p.idleCnt + 1,
                    thdLinks := p.thdLinks.insertTail .idle (.elem e) }
  if p.scheduledTaskCnt ≠ 0 then
    match p.taskLinks.next (.head .scheduled) with
    | .elem _ => some p
    | _ => none
  else if p.idleMax < p.idleCnt then
    some { p with elt := Function.update p.elt e { p.elt e with state := .probation } }
  else some p

/-- `thread_pool_func` behind the inner loop, until the worker waits or exits. -/
def afterTasks (p : Pool) (e : Nat) : Option (WorkerState × Pool) :=
  if (p.elt e).currentOwner ≠ 0 then none
  else
    let p := if (p.elt e).state ≠ .stop then
        { p with thdLinks := p.thdLinks.remove (.elem e) }
      else p
    if p.retires e then some (.exited, p.retire e)
    else do
      let p ← p.goIdle e
      return (.waiting e, p)

/-- `thread_pool_func` behind `pop_task`: the worker starts the task, or leaves the inner
loop. -/
def afterPop (p : Pool) (e : Nat) : Option Nat → Option (WorkerState × Pool)
  | some n =>
      if p.terminated then p.afterTasks e
      else
        some (.running e n,
          { p with tasksRun := p.tasksRun + 1,
                   elt := Function.update p.elt e
                     { p.elt e with currentOwner := (p.task n).owner } })
  | none => p.afterTasks e

/-- `pop_task`, and what follows. -/
def nextTask (p : Pool) (e : Nat) (now : Int) : Option (WorkerState × Pool) := do
  let (t, p) ← p.popTask now
  p.afterPop e t

/-- A worker joins the busy ones. A worker that is linked is idle. -/
def goBusy (p : Pool) (e : Nat) : Pool :=
  let p := if p.thdLinks.next (.elem e) ≠ .elem e then
      { p with idleCnt := p.idleCnt - 1, thdLinks := p.thdLinks.remove (.elem e) }
    else p
  { p with thdLinks := p.thdLinks.insertTail .busy (.elem e) }

/-- The outer loop from its head on. -/
def workerLoop (p : Pool) (e : Nat) (now : Int) : Option (WorkerState × Pool) :=
  if p.terminated ∨ (p.elt e).state = .stop then
    some (.exited, { p with thdCnt := p.thdCnt - 1 })
  else (p.goBusy e).nextTask e now

/-- `thread_pool_func` from its start on, for the thread `t`. -/
def workerStart (p : Pool) (t : Nat) (alloc : Bool) (now : Int) : Option (WorkerState × Pool) := do
  let (e, p) ← p.eltNew t alloc
  match e with
  | none => return (.failed, p)
  | some e => p.workerLoop e now

/-- `thread_pool_func` from the end of a task on. -/
def taskEnd (p : Pool) (e n : Nat) (now : Int) : Option (WorkerState × Pool) :=
  let p := p.recycleTask n
  let p := { p with elt := Function.update p.elt e { p.elt e with currentOwner := 0 } }
  if (p.elt e).state = .stop then p.afterTasks e else p.nextTask e now

/-! ### Waiting for busy workers -/

/-- The walk of `wait_on_busy_threads`: the first worker that runs a task of the owner. -/
def scanFrom (p : Pool) (owner : Nat) : Nat → EltPtr → Option (Option Nat)
  | fuel + 1, .elem e =>
      if (p.elt e).currentOwner ≠ owner then
        p.scanFrom owner fuel (p.thdLinks.next (.elem e))
      else some (some e)
  | _ + 1, .head .busy => some none
  | _, _ => none

/-- The walk from the first busy worker on. -/
def scan (p : Pool) (owner : Nat) : Option (Option Nat) :=
  p.scanFrom owner (p.eltBrk + 1) (p.thdLinks.next (.head .busy))

end Pool

/-! ### The system -/

/-- Where a caller of `base_threadpool_cancel_tasks` is while it does not hold the lock. -/
inductive CancelPhase where
  /-- It has removed the queued tasks. -/
  | removed
  /-- It sleeps because the worker `e` runs a task of the owner. -/
  | sleeping (e : Nat)
  | returned
  deriving DecidableEq, Repr

/-- A call of `base_threadpool_cancel_tasks`. `since` is the number of submissions before
it removed the queued tasks. -/
structure Cancel where
  owner : Nat
  since : Nat
  phase : CancelPhase
  deriving DecidableEq, Repr

/-- The pool, its workers in the order of their creation, and the calls of
`base_threadpool_cancel_tasks`. -/
structure Sys where
  pool : Pool
  workers : List WorkerState
  cancels : List Cancel

/-- A section of a worker or a caller, or one of the two setters that only assign. -/
inductive Action where
  | addTask (a : Submission) (priority : Int) (push alloc : Bool) (spawn now : Int)
  | scheduleTask (a : Submission) (time : Int) (alloc : Bool) (spawn now junk : Int)
  | workerStart (w : Nat) (alloc : Bool) (now : Int)
  | taskEnd (w : Nat) (now : Int)
  | workerWake (w : Nat) (now : Int)
  | cancelTasks (owner : Nat)
  | cancelScan (c : Nat)
  | cancelRelock (c : Nat)
  | setIdleWait (idleWait : Int)
  | setThreshold (threshold : Nat)
  deriving Repr

namespace Sys

/-- `base_init_threadpool`, when it succeeds. -/
def baseInitThreadpool (initThreads maxThreads maxTasks : Nat) : Sys where
  pool := { threadPoolConstruct initThreads maxThreads maxTasks with
    thdCnt := initThreads, thdHigh := initThreads }
  workers := List.replicate initThreads .created
  cancels := []

/-- A submission, and the worker it may have created. -/
def submitted (s : Sys) (r : Submitted) (p : Pool) : Sys :=
  { s with pool := p, workers := if r.spawned then s.workers ++ [.created] else s.workers }

/-- The worker `w` is in the state `x` afterwards. -/
def setWorker (s : Sys) (w : Nat) (x : WorkerState) (p : Pool) : Sys :=
  { s with pool := p, workers := s.workers.set w x }

/-- A caller walks over the busy workers. -/
def scan (s : Sys) (i : Nat) (c : Cancel) : Option Sys := do
  let e ← s.pool.scan c.owner
  let phase := match e with
    | some e => CancelPhase.sleeping e
    | none => CancelPhase.returned
  return { s with cancels := s.cancels.set i { c with phase := phase } }

/-- One section. A worker or caller that is not where the section begins does nothing. -/
def step (s : Sys) : Action → Option Sys
  | .addTask a priority push alloc spawn now => do
      let (r, p) ← s.pool.addTask a priority push alloc spawn now
      return s.submitted r p
  | .scheduleTask a time alloc spawn now junk => do
      let (r, p) ← s.pool.scheduleTask a time alloc spawn now junk
      return s.submitted r p
  | .workerStart w alloc now =>
      match s.workers[w]? with
      | some .created => do
          let (x, p) ← s.pool.workerStart w alloc now
          return s.setWorker w x p
      | _ => some s
  | .taskEnd w now =>
      match s.workers[w]? with
      | some (.running e n) => do
          let (x, p) ← s.pool.taskEnd e n now
          return s.setWorker w x p
      | _ => some s
  | .workerWake w now =>
      match s.workers[w]? with
      | some (.waiting e) => do
          let (x, p) ← s.pool.workerLoop e now
          return s.setWorker w x p
      | _ => some s
  | .cancelTasks owner => do
      let p ← s.pool.cancelTasks owner
      return { s with pool := p, cancels := s.cancels ++ [⟨owner, s.pool.submissions, .removed⟩] }
  -- `wait_on_busy_threads`: the first look at the busy workers, and the look behind each sleep.
  | .cancelScan i =>
      match s.cancels[i]? with
      | some c => if c.phase = .removed then s.scan i c else some s
      | none => some s
  | .cancelRelock i =>
      match s.cancels[i]? with
      | some c =>
          match c.phase with
          | .sleeping e => if (s.pool.elt e).currentOwner = c.owner then some s else s.scan i c
          | _ => some s
      | none => some s
  | .setIdleWait idleWait => some { s with pool := { s.pool with idleWait := idleWait } }
  | .setThreshold threshold => some { s with pool := { s.pool with threshold := threshold } }

/-- An interleaving of sections. -/
def run (s : Sys) : List Action → Option Sys
  | [] => some s
  | a :: as => do
      let s ← s.step a
      s.run as

end Sys

end Mylib.Spec.Thread
