import Mathlib

/-!
# `Mylib.Spec.Storage.ConnectionPools`: the connection pools and what uses them

* `MysqlDBPool` and `AutoMysqlCommEngine` of `base/db/base_db_mysql_auto.cc`,
* `RedisPool` and `AutoDicCommEngine` of `base/dic/base_dic_redis_auto.cc`,
* `MYSQL_Pool` of `base/storage/mysql_pool.cc` and the `WriteData` and `ReadData` of
  `base/storage/data_mysql_engine.cc`.

A pool is a `std::list` of pointers; `none` is `NULL`. What is done under the lock is one step.
`MYSQL_Pool::DBConnectionPop` looks at the size before it takes the lock, so there the look
and the pop are two. Data races on `size()` are left out, and so is what the connections
themselves do: whether a statement succeeds is given with the call. In particular `WriteData`
and `ReadData` get their engine from `GetDBEngine`, which calls `Release` on it. Its comment
says that this frees surplus result sets, but the function closes the connection and sets its
handle to `NULL`, before `SQLExec` uses it. No pool is touched by that.
-/

set_option autoImplicit false

namespace Mylib.Spec.Storage

section

variable {Conn : Type}

/-! ### The lists -/

/-- `push_back` under the lock. -/
def lockedPush (engine : Option Conn) (pool : List (Option Conn)) : List (Option Conn) :=
  pool ++ [engine]

/-- The size, `front` and `pop_front`, all under the lock. -/
def lockedPop : List (Option Conn) → Option Conn × List (Option Conn)
  | [] => (none, [])
  | engine :: pool => (engine, pool)

/-- `MysqlDBPool::DBConnectionPush`. -/
def MysqlDBPool.dbConnectionPush : Option Conn → List (Option Conn) → List (Option Conn) :=
  lockedPush

/-- `MysqlDBPool::DBConnectionPop`. -/
def MysqlDBPool.dbConnectionPop : List (Option Conn) → Option Conn × List (Option Conn) :=
  lockedPop

/-- `RedisPool::RedisConnectionPush`. -/
def RedisPool.redisConnectionPush : Option Conn → List (Option Conn) → List (Option Conn) :=
  lockedPush

/-- `RedisPool::RedisConnectionPop`. -/
def RedisPool.redisConnectionPop : List (Option Conn) → Option Conn × List (Option Conn) :=
  lockedPop

/-- `MYSQL_Pool::DBConnectionPush`. -/
def MysqlPool.dbConnectionPush : Option Conn → List (Option Conn) → List (Option Conn) :=
  lockedPush

/-- What `MYSQL_Pool::DBConnectionPop` does before it has the lock: `true` is `NULL`. -/
def MysqlPool.sizeIsZero (pool : List (Option Conn)) : Bool := pool.length ≤ 0

/-- What it does under the lock. `front` of an empty list is undefined: `none`. -/
def MysqlPool.frontPop : List (Option Conn) → Option (Option Conn × List (Option Conn))
  | [] => none
  | engine :: pool => some (engine, pool)

/-! ### Objects that hold a connection -/

/-- An `AutoMysqlCommEngine` or `AutoDicCommEngine` with its `engine_`. -/
inductive AutoEngine (Conn : Type) where
  | live (engine : Option Conn)
  | destroyed

/-- A pool and the objects made so far. -/
structure AutoPool (Conn : Type) where
  pool : List (Option Conn)
  objects : List (AutoEngine Conn)

inductive AutoAction where
  | construct
  | destruct (k : Nat)

/-- The constructor pops, and the destructor of the object number `k` pushes. -/
def AutoPool.step (pop : List (Option Conn) → Option Conn × List (Option Conn))
    (push : Option Conn → List (Option Conn) → List (Option Conn)) (s : AutoPool Conn) :
    AutoAction → AutoPool Conn
  | .construct =>
    let (engine, pool) := pop s.pool
    ⟨pool, s.objects ++ [.live engine]⟩
  | .destruct k =>
    match s.objects[k]? with
    | some (.live engine) => ⟨push engine s.pool, s.objects.set k .destroyed⟩
    | _ => s

/-- `AutoMysqlCommEngine`. -/
def autoMysqlCommEngine : AutoPool Conn → AutoAction → AutoPool Conn :=
  AutoPool.step MysqlDBPool.dbConnectionPop MysqlDBPool.dbConnectionPush

/-- `AutoDicCommEngine`. -/
def autoDicCommEngine : AutoPool Conn → AutoAction → AutoPool Conn :=
  AutoPool.step RedisPool.redisConnectionPop RedisPool.redisConnectionPush

/-! ### `DataMYSQLEngine` -/

/-- What a call is given: whether `value` has an `sql`, what `SQLExec` returns for it, and
whether `storage_get` is set. -/
structure DataArgs where
  sql : Bool
  exec : Bool
  storageGet : Bool

/-- Where a call stands, with its `engine`. -/
inductive DataCall (Conn : Type) where
  | write (args : DataArgs)
  | writePop (args : DataArgs)
  | writeExec (args : DataArgs) (engine : Conn)
  | writePush (engine : Conn)
  | read (args : DataArgs)
  | readPop (args : DataArgs)
  | readBody (args : DataArgs) (engine : Option Conn)
  | readPush (engine : Option Conn) (r : Bool)
  | returned (r : Bool)

/-- The `do` block of `ReadData`: what it leaves in `r`. -/
def readDataBody (args : DataArgs) (engine : Option Conn) : Bool :=
  if !args.sql then false
  else if engine.isNone then false
  else if !args.exec then false
  else if !args.storageGet then false
  else true

/-- A pool, the calls made so far, and whether `front` was called on an empty list. -/
structure DataPool (Conn : Type) where
  pool : List (Option Conn)
  calls : List (DataCall Conn)
  poppedEmpty : Bool

/-- The next step of a call: where it stands then, the pool, and whether the step was to pop
the empty list. -/
def DataCall.step (pool : List (Option Conn)) :
    DataCall Conn → DataCall Conn × List (Option Conn) × Bool
  | .write args =>
    if !args.sql then (.returned false, pool, false)
    else if MysqlPool.sizeIsZero pool then (.returned false, pool, false)
    else (.writePop args, pool, false)
  -- Another call may have taken the last one since the look at the size.
  | .writePop args =>
    match MysqlPool.frontPop pool with
    | none => (.writePop args, pool, true)
    | some (none, pool) => (.returned false, pool, false)
    | some (some engine, pool) => (.writeExec args engine, pool, false)
  | .writeExec args engine =>
    -- The early return behind `exec sql error`: no push.
    if !args.exec then (.returned false, pool, false) else (.writePush engine, pool, false)
  | .writePush engine => (.returned true, MysqlPool.dbConnectionPush (some engine) pool, false)
  | .read args =>
    if MysqlPool.sizeIsZero pool then (.readBody args none, pool, false)
    else (.readPop args, pool, false)
  | .readPop args =>
    match MysqlPool.frontPop pool with
    | none => (.readPop args, pool, true)
    | some (engine, pool) => (.readBody args engine, pool, false)
  | .readBody args engine => (.readPush engine (readDataBody args engine), pool, false)
  | .readPush engine r => (.returned r, MysqlPool.dbConnectionPush engine pool, false)
  | .returned r => (.returned r, pool, false)

inductive DataAction where
  | writeData (args : DataArgs)
  | readData (args : DataArgs)
  | step (k : Nat)

/-- A thread makes a call, or the call number `k` takes its next step. -/
def DataPool.step (s : DataPool Conn) : DataAction → DataPool Conn
  | .writeData args => { s with calls := s.calls ++ [.write args] }
  | .readData args => { s with calls := s.calls ++ [.read args] }
  | .step k =>
    match s.calls[k]? with
    | none => s
    | some call =>
      let (call, pool, popped) := call.step s.pool
      ⟨pool, s.calls.set k call, s.poppedEmpty || popped⟩

end

/-! ### The three pools -/

section

variable {DB Dic : Type}

structure PoolWorld (DB Dic : Type) where
  mysql : AutoPool DB
  redis : AutoPool Dic
  data : DataPool DB

inductive PoolAction where
  | mysql (action : AutoAction)
  | redis (action : AutoAction)
  | data (action : DataAction)

def PoolWorld.step (w : PoolWorld DB Dic) : PoolAction → PoolWorld DB Dic
  | .mysql action => { w with mysql := autoMysqlCommEngine w.mysql action }
  | .redis action => { w with redis := autoDicCommEngine w.redis action }
  | .data action => { w with data := w.data.step action }

/-- The steps in the order in which they happen. -/
def PoolWorld.run (w : PoolWorld DB Dic) (actions : List PoolAction) : PoolWorld DB Dic :=
  actions.foldl PoolWorld.step w

/-- The pools behind their `Init`, with nothing taken from them. -/
def PoolWorld.init (mysql : List DB) (redis : List Dic) (data : List DB) : PoolWorld DB Dic :=
  ⟨⟨mysql.map some, []⟩, ⟨redis.map some, []⟩, ⟨data.map some, [], false⟩⟩

end

end Mylib.Spec.Storage
