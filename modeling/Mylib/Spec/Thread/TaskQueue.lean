import Mylib.Lib.Ring

/-!
# `Mylib.Spec.Thread.TaskQueue`: the task queues of the thread pool

The queue functions of `public/thread/base_threadpool.c`: `pop_task`, `task_new`,
`add_if_empty`, `schedule_task`, `add_task`, `remove_scheduled_tasks` and
`remove_tasks`, with the rings of `base_ring.h` underneath.

Task objects are numbered by the order of their `calloc`, and `taskBrk` is the
number of objects so far. The rings of immediate, scheduled and recycled tasks
share the objects. An object that `cancel` takes out of a ring is in no ring
afterwards; the source never frees it.

Every call runs inside the pool's lock, so it is one function on the pool. What the
pool does not decide is an argument: whether `calloc` succeeds (`alloc`), what
`base_init_thread` returns (`spawn`), the clock (`now`), and the bytes behind a
ring's sentinel where `schedule_task` reads a time on the empty ring (`junk`).
Signals wake waiting workers, which may wake at any time anyway, so they do not
appear. A call returns `none` when an assertion fails, when a pointer that is not a
task is dereferenced, or when a walk does not end.

`ticket` and `submissions` are not in the source. They number the submissions in
the order in which they take a task object, so that results can name a task while
its object is reused. Nothing in the model reads them.
-/

set_option autoImplicit false

namespace Mylib.Spec.Thread

open Mylib.Lib.Ring

/-- The rings of task objects. -/
inductive TaskRing where
  | tasks
  | scheduled
  | recycled
  deriving DecidableEq, Repr

/-- The rings of worker elements. -/
inductive ThdRing where
  | busy
  | idle
  | recycled
  deriving DecidableEq, Repr

/-- `base_thread_pool_task_t *`. -/
abbrev TaskPtr := Node TaskRing

/-- `struct base_thread_list_elt *`. -/
abbrev EltPtr := Node ThdRing

/-- `base_thread_pool_task_t` without its link. Pointers are addresses with 0 for
`NULL`. `dispatch` is the union of the priority, in its low half, and the time. -/
structure PoolTask where
  func : Nat
  flag : Int
  param : Nat
  owner : Nat
  dispatch : BitVec 64
  ticket : Nat
  deriving DecidableEq, Repr

/-- The segment of a priority: `(priority & 0xFF) / 64`. -/
def prioritySeg (priority : Int) : Fin 4 := ⟨(priority % 256).toNat / 64, by omega⟩

namespace PoolTask

/-- `dispatch.priority`. -/
def priority (t : PoolTask) : Int := (t.dispatch.setWidth 32).toInt

/-- `dispatch.time`. -/
def time (t : PoolTask) : Int := t.dispatch.toInt

/-- `TASK_PRIORITY_SEG`. -/
def seg (t : PoolTask) : Fin 4 := prioritySeg t.priority

/-- Memory from `calloc`. -/
def zeroed : PoolTask := ⟨0, 0, 0, 0, 0, 0⟩

end PoolTask

/-- The states of a worker. -/
inductive ThdState where
  | run
  | stop
  | probation
  deriving DecidableEq, Repr

/-- `struct base_thread_list_elt` without its link. -/
structure Elt where
  thd : Nat
  currentOwner : Nat
  state : ThdState
  deriving DecidableEq, Repr

/-- `struct base_threadpool_t`, with the task objects and worker elements its
pointers reach. -/
structure Pool where
  thdMax : Nat
  idleMax : Nat
  idleWait : Int
  thdCnt : Nat
  idleCnt : Nat
  taskCnt : Nat
  scheduledTaskCnt : Nat
  threshold : Nat
  tasksRun : Nat
  tasksHigh : Nat
  thdHigh : Nat
  thdTimedOut : Nat
  taskLinks : Links TaskRing
  task : Nat → PoolTask
  taskBrk : Nat
  thdLinks : Links ThdRing
  elt : Nat → Elt
  eltBrk : Nat
  terminated : Bool
  taskIdx : Fin 4 → TaskPtr
  taskMax : Nat
  submissions : Nat

/-- Rings that are all empty: `BASE_RING_INIT` links every sentinel to itself. -/
def emptyLinks (ι : Type) : Links ι := ⟨id, id⟩

/-- `thread_pool_construct` with every allocation succeeding. -/
def threadPoolConstruct (initThreads maxThreads maxTasks : Nat) : Pool where
  thdMax := maxThreads
  idleMax := initThreads
  idleWait := 0
  thdCnt := 0
  idleCnt := 0
  taskCnt := 0
  scheduledTaskCnt := 0
  threshold := initThreads / 2
  tasksRun := 0
  tasksHigh := 0
  thdHigh := 0
  thdTimedOut := 0
  taskLinks := emptyLinks TaskRing
  task := fun _ => PoolTask.zeroed
  taskBrk := 0
  thdLinks := emptyLinks ThdRing
  elt := fun _ => ⟨0, 0, .run⟩
  eltBrk := 0
  terminated := false
  taskIdx := fun _ => .null
  taskMax := maxTasks
  submissions := 0

/-- `ENOMEM`. -/
def enomem : Int := 12

/-- `ERANGE`. -/
def erange : Int := 34

/-- What a caller submits besides the priority or the delay. -/
structure Submission where
  func : Nat
  flag : Int
  param : Nat
  owner : Nat
  deriving DecidableEq, Repr

namespace PoolTask

/-- The fields `task_new` sets. A positive delay sets the due time; otherwise only
the low half of the union is written. -/
def init (t : PoolTask) (a : Submission) (priority time now : Int) (ticket : Nat) : PoolTask where
  func := a.func
  flag := a.flag
  param := a.param
  owner := a.owner
  dispatch :=
    if 0 < time then BitVec.ofInt 64 (now + time)
    else t.dispatch.extractLsb' 32 32 ++ BitVec.ofInt 32 priority
  ticket := ticket

end PoolTask

/-- The result of a submission: the returned code, and whether a worker thread was
created. -/
structure Submitted where
  rv : Int
  spawned : Bool
  deriving DecidableEq, Repr

namespace Pool

/-- The number of steps a walk over a ring of tasks may take. -/
def walkFuel (p : Pool) : Nat := p.taskBrk + 1

/-- The tasks of a ring, in order. -/
def queue (p : Pool) (r : TaskRing) : List Nat := p.taskLinks.toList p.taskBrk r

/-! ### Taking a task -/

/-- The index after `pop_task` or `remove_tasks` takes the task `n`: when `n` is indexed
for its segment, the index moves to the next task if that has the same segment. -/
def advanceIdx (p : Pool) (n : Nat) : Fin 4 → TaskPtr :=
  let seg := (p.task n).seg
  if p.taskIdx seg = .elem n then
    Function.update p.taskIdx seg
      (match p.taskLinks.next (.elem n) with
      | .elem m => if (p.task m).seg = seg then .elem m else .null
      | _ => .null)
  else p.taskIdx

/-- Take the task `n` out of the ring of immediate tasks. -/
def dropTask (p : Pool) (n : Nat) : Pool :=
  { p with taskCnt := p.taskCnt - 1,
           taskIdx := p.advanceIdx n,
           taskLinks := p.taskLinks.remove (.elem n) }

/-- Take the task `n` out of the ring of scheduled tasks. -/
def dropScheduled (p : Pool) (n : Nat) : Pool :=
  { p with scheduledTaskCnt := p.scheduledTaskCnt - 1,
           taskLinks := p.taskLinks.remove (.elem n) }

/-- The second half of `pop_task`: the first immediate task. -/
def popReady (p : Pool) : Option (Option Nat × Pool) :=
  if p.taskCnt = 0 then some (none, p)
  else
    match p.taskLinks.next (.head .tasks) with
    | .elem n => some (some n, p.dropTask n)
    | _ => none

/-- `pop_task`: the first scheduled task when it is due, else the first immediate
task. -/
def popTask (p : Pool) (now : Int) : Option (Option Nat × Pool) :=
  if 0 < p.scheduledTaskCnt then
    match p.taskLinks.next (.head .scheduled) with
    | .elem n => if (p.task n).time ≤ now then some (some n, p.dropScheduled n) else p.popReady
    | _ => none
  else p.popReady

/-! ### Adding a task -/

/-- Set up the task object `n`, which is in no ring. -/
def initTask (p : Pool) (n : Nat) (t : PoolTask) (a : Submission) (priority time now : Int) :
    Pool :=
  { p with
    taskLinks := p.taskLinks.elemInit (.elem n)
    task := Function.update p.task n (PoolTask.init t a priority time now p.submissions)
    submissions := p.submissions + 1 }

/-- `task_new`: a recycled object, or a fresh one. -/
def taskNew (p : Pool) (a : Submission) (priority time : Int) (alloc : Bool) (now : Int) :
    Option (Option Nat × Pool) :=
  match p.taskLinks.next (.head .recycled) with
  | .head .recycled =>
      -- A new object, if there is memory for it.
      if alloc then
        let n := p.taskBrk
        some (some n,
          { p with taskBrk := p.taskBrk + 1 }.initTask n PoolTask.zeroed a priority time now)
      else some (none, p)
  | .elem n =>
      -- A recycled object keeps what is not set here.
      some (some n,
        { p with taskLinks := p.taskLinks.remove (.elem n) }.initTask n (p.task n) a priority
          time now)
  | _ => none

/-- The walk of `add_if_empty`: from a segment's first task over the tasks of higher
priority. -/
def skipHigher (p : Pool) (priority : Int) : Nat → TaskPtr → Option TaskPtr
  | fuel + 1, .elem n =>
      if priority < (p.task n).priority then
        let tNext := p.taskLinks.next (.elem n)
        if tNext = .head .tasks then some tNext else p.skipHigher priority fuel tNext
      else some (.elem n)
  | _, _ => none

/-- The loop of `add_if_empty` over the segments below `next`: the nearest one with an
indexed task. -/
def lowerSeg (p : Pool) : Nat → Option (Fin 4)
  | 0 => none
  | next + 1 =>
      if p.taskIdx (Fin.ofNat 4 next) ≠ .null then some (Fin.ofNat 4 next) else p.lowerSeg next

/-- `add_if_empty`: link the task `n` when its segment has no task, and return
`null`; otherwise the place in front of which the caller is to link it. -/
def addIfEmpty (p : Pool) (n : Nat) : Option (TaskPtr × Pool) :=
  let seg := (p.task n).seg
  if p.taskIdx seg ≠ .null then do
    let tNext ← p.skipHigher (p.task n).priority p.walkFuel (p.taskIdx seg)
    return (tNext, p)
  else
    let links :=
      match p.lowerSeg seg.val with
      | some next => p.taskLinks.insertBefore (p.taskIdx next) (.elem n)
      | none => p.taskLinks.insertTail .tasks (.elem n)
    some (.null,
      { p with taskLinks := links, taskIdx := Function.update p.taskIdx seg (.elem n) })

/-- The walk of `add_task` for a pushed task: over the tasks of at least the same
priority. -/
def skipNotLower (p : Pool) (priority : Int) : Nat → TaskPtr → Option TaskPtr
  | fuel + 1, .elem n =>
      if priority ≤ (p.task n).priority then
        p.skipNotLower priority fuel (p.taskLinks.next (.elem n))
      else some (.elem n)
  | _ + 1, .head .tasks => some (.head .tasks)
  | _, _ => none

/-- The part of `add_task` that links the new task `n` into the ring. -/
def linkTask (p : Pool) (n : Nat) (push : Bool) : Option Pool := do
  let (tLoc, p) ← p.addIfEmpty n
  if tLoc = .null then return p
  let tLoc ← if push then p.skipNotLower (p.task n).priority p.walkFuel tLoc else some tLoc
  let linked := { p with taskLinks := p.taskLinks.insertBefore tLoc (.elem n) }
  let seg := (p.task n).seg
  if !push ∧ tLoc = p.taskIdx seg then
    return { linked with taskIdx := Function.update p.taskIdx seg (.elem n) }
  return linked

/-- `base_init_thread` with the result `spawn`, and the counting behind it. -/
def startWorker (p : Pool) (spawn : Int) : Submitted × Pool :=
  if spawn = 0 then
    (⟨0, true⟩, { p with thdCnt := p.thdCnt + 1, thdHigh := max p.thdHigh (p.thdCnt + 1) })
  else (⟨spawn, false⟩, p)

/-- The part of `add_task` behind `FINAL_EXIT`: count the task, and create a worker
when there is none, or when all are busy and more may be created. -/
def countTask (p : Pool) (spawn : Int) : Submitted × Pool :=
  let p := { p with taskCnt := p.taskCnt + 1, tasksHigh := max p.tasksHigh (p.taskCnt + 1) }
  if p.thdCnt = 0 ∨ (p.idleCnt = 0 ∧ p.thdCnt < p.thdMax ∧ p.threshold < p.taskCnt) then
    p.startWorker spawn
  else (⟨0, false⟩, p)

/-- `add_task`. -/
def addTask (p : Pool) (a : Submission) (priority : Int) (push alloc : Bool) (spawn now : Int) :
    Option (Submitted × Pool) :=
  if p.taskMax ≠ 0 ∧ p.taskMax ≤ p.taskCnt then some (⟨erange, false⟩, p)
  else do
    let (t, p) ← p.taskNew a priority 0 alloc now
    match t with
    | none => return (⟨enomem, false⟩, p)
    | some n =>
        let p ← p.linkTask n push
        return p.countTask spawn

/-- The walk of `schedule_task`: link the task `n` in front of the first task with a
later time, or at the tail. -/
def linkScheduled (p : Pool) (n : Nat) (junk : Int) : Nat → TaskPtr → Option Pool
  | 0, _ => none
  | _ + 1, .null => some p
  | fuel + 1, tLoc =>
      -- The sentinel is no task: its memory is read as a time.
      let time :=
        match tLoc with
        | .elem m => (p.task m).time
        | _ => junk
      if (p.task n).time < time then
        some { p with scheduledTaskCnt := p.scheduledTaskCnt + 1,
                      taskLinks := p.taskLinks.insertBefore tLoc (.elem n) }
      else
        -- The next one is looked at, and the end of the ring is found here.
        let tLoc := p.taskLinks.next tLoc
        if tLoc = .head .scheduled then
          some { p with scheduledTaskCnt := p.scheduledTaskCnt + 1,
                        taskLinks := p.taskLinks.insertTail .scheduled (.elem n) }
        else p.linkScheduled n junk fuel tLoc

/-- `schedule_task`. -/
def scheduleTask (p : Pool) (a : Submission) (time : Int) (alloc : Bool) (spawn now junk : Int) :
    Option (Submitted × Pool) := do
  let (t, p) ← p.taskNew a 0 time alloc now
  match t with
  | none => return (⟨enomem, false⟩, p)
  | some n =>
      let p ← p.linkScheduled n junk p.walkFuel (p.taskLinks.next (.head .scheduled))
      return if p.thdCnt = 0 then p.startWorker spawn else (⟨0, false⟩, p)

/-! ### Cancelling -/

/-- The walk of `remove_tasks`. -/
def removeTasksFrom (owner : Nat) : Nat → TaskPtr → Pool → Option Pool
  | fuel + 1, .elem n, p =>
      let next := p.taskLinks.next (.elem n)
      let p := if (p.task n).owner = owner then p.dropTask n else p
      removeTasksFrom owner fuel next p
  | _ + 1, .head .tasks, p => some p
  | _, _, _ => none

/-- `remove_tasks`. -/
def removeTasks (p : Pool) (owner : Nat) : Option Pool :=
  removeTasksFrom owner p.walkFuel (p.taskLinks.next (.head .tasks)) p

/-- The walk of `remove_scheduled_tasks`. -/
def removeScheduledFrom (owner : Nat) : Nat → TaskPtr → Pool → Option Pool
  | fuel + 1, .elem n, p =>
      let next := p.taskLinks.next (.elem n)
      let p := if (p.task n).owner = owner then p.dropScheduled n else p
      removeScheduledFrom owner fuel next p
  | _ + 1, .head .scheduled, p => some p
  | _, _, _ => none

/-- `remove_scheduled_tasks`. -/
def removeScheduledTasks (p : Pool) (owner : Nat) : Option Pool :=
  removeScheduledFrom owner p.walkFuel (p.taskLinks.next (.head .scheduled)) p

/-- The first lock-protected section of `base_threadpool_cancel_tasks`. -/
def cancelTasks (p : Pool) (owner : Nat) : Option Pool :=
  (if 0 < p.taskCnt then p.removeTasks owner else some p).bind fun p =>
    if 0 < p.scheduledTaskCnt then p.removeScheduledTasks owner else some p

/-- The end of a task in `thread_pool_func`: its object goes to the recycled ring. -/
def recycleTask (p : Pool) (n : Nat) : Pool :=
  { p with taskLinks := p.taskLinks.insertTail .recycled (.elem n) }

/-! ### What a submission meets -/

/-- A positive `task_max` is reached. -/
def full (p : Pool) : Bool := p.taskMax ≠ 0 ∧ p.taskMax ≤ p.taskCnt

/-- `task_new` gets an object. -/
def hasObject (p : Pool) (alloc : Bool) : Bool := alloc ∨ p.queue .recycled ≠ []

/-- `add_task` creates a worker for the task it has added. -/
def needsWorker (p : Pool) : Bool :=
  p.thdCnt = 0 ∨ (p.idleCnt = 0 ∧ p.thdCnt < p.thdMax ∧ p.threshold < p.taskCnt + 1)

/-- The tickets of the tasks in a ring. -/
def tickets (p : Pool) (r : TaskRing) : List Nat := (p.queue r).map fun n => (p.task n).ticket

/-- The tickets of the tasks of an owner in a ring. -/
def ticketsOf (p : Pool) (r : TaskRing) (owner : Nat) : List Nat :=
  ((p.queue r).filter fun n => (p.task n).owner = owner).map fun n => (p.task n).ticket

end Pool

/-! ### Runs -/

/-- A call of a queue function. The worker loop contributes `recycleTask`, which
gives back the `i`-th of the objects that were popped and not given back, and
`workers`, any change of the counters that the queue functions read. -/
inductive QueueOp where
  | addTask (a : Submission) (priority : Int) (push alloc : Bool) (spawn now : Int)
  | scheduleTask (a : Submission) (time : Int) (alloc : Bool) (spawn now junk : Int)
  | popTask (now : Int)
  | cancelTasks (owner : Nat)
  | recycleTask (i : Nat)
  | workers (thdCnt idleCnt : Nat)
  deriving Repr

/-- The pool with the objects that workers hold, and with the tickets of the tasks
that were added, added with `top`, popped and cancelled so far. -/
structure QueueRun where
  pool : Pool
  held : List Nat
  added : List Nat
  topped : List Nat
  popped : List Nat
  cancelled : List Nat

namespace QueueRun

/-- A pool before its first task. -/
def initial (initThreads maxThreads maxTasks : Nat) : QueueRun :=
  ⟨threadPoolConstruct initThreads maxThreads maxTasks, [], [], [], [], []⟩

/-- One call. A submission adds a task unless the limit is reached or no object can
be had, whatever code it returns. A cancellation cancels what is queued for its
owner. -/
def step (s : QueueRun) : QueueOp → Option QueueRun
  | .addTask a priority push alloc spawn now => do
      let (_, p) ← s.pool.addTask a priority push alloc spawn now
      -- Not the code: a worker that cannot be created fails the call, and the task stays.
      if s.pool.full ∨ !s.pool.hasObject alloc then return { s with pool := p }
      let k := s.pool.submissions
      return { s with pool := p, added := k :: s.added,
                      topped := if push then s.topped else k :: s.topped }
  | .scheduleTask a time alloc spawn now junk => do
      let (_, p) ← s.pool.scheduleTask a time alloc spawn now junk
      if !s.pool.hasObject alloc then return { s with pool := p }
      return { s with pool := p, added := s.pool.submissions :: s.added }
  | .popTask now => do
      let (t, p) ← s.pool.popTask now
      match t with
      | none => return { s with pool := p }
      | some n =>
          return { s with pool := p, held := n :: s.held,
                          popped := (p.task n).ticket :: s.popped }
  | .cancelTasks owner => do
      let p ← s.pool.cancelTasks owner
      let gone := s.pool.ticketsOf .tasks owner ++ s.pool.ticketsOf .scheduled owner
      return { s with pool := p, cancelled := gone ++ s.cancelled }
  | .recycleTask i =>
      match s.held[i]? with
      | none => some s
      | some n => some { s with pool := s.pool.recycleTask n, held := s.held.eraseIdx i }
  | .workers thdCnt idleCnt =>
      some { s with pool := { s.pool with thdCnt := thdCnt, idleCnt := idleCnt } }

/-- A sequence of calls. -/
def run (s : QueueRun) : List QueueOp → Option QueueRun
  | [] => some s
  | op :: ops => do
      let s ← s.step op
      s.run ops

end QueueRun

end Mylib.Spec.Thread
