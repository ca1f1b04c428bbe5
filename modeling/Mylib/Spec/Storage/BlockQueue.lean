import Mylib.Spec.Base.StringUtil
import Mylib.Spec.Storage.ConnectionPools

/-!
# `Mylib.Spec.Storage.BlockQueue`: a queue of messages in a Redis list

`QueueDicComm` of `base/queue/queue_dic_comm.cc`, with all that a call goes through:

* `RedisPool` and `AutoDicCommEngine` of `base/dic/base_dic_redis_auto.h` and its `.cc`,
* `RedisStorageEngineImpl` of `public/storage/redis_storage_impl.cc`,
* the functions under it of `public/storage/redis_warrper.c`,
* `redisFree` and `redisCommand` of `third_party/hiredis/hiredis.c`, as far as they use the
  context.

Engines and contexts are numbered, and `none` is a null pointer. An engine has one `c_`, whose
`context` is the only pointer to a `redisContext`, so the functions of the wrapper take the
engine. A use of a null pointer is `.error .null`, one of a context that has been freed
`.error .freed`, and a failed assertion `.error .assertion`.

All calls are on one key. Its list is given from left to right, and an absent key is the empty
list. What comes from outside is given with the call: which `PING`s are answered, and how a new
connection comes out. The replies to the other commands are not lost. The commands are definitions,
as in `Mylib.Spec.Storage.RedisCounter`, since the list is part of the state of a run.
-/

set_option autoImplicit false

namespace Mylib.Spec.Storage

open Mylib.Spec.Base (Str)

/-- What a call can do that has no meaning. -/
inductive DicFault where
  | null
  | freed
  | assertion
  deriving DecidableEq, Repr

/-- What the calls work on: the pool, the context of each engine, which contexts are allocated,
and the list at the key. -/
structure Dic where
  dicConnPool : List (Option Nat)
  context : Nat → Option Nat
  allocated : Nat → Bool
  list : List Str

/-! ### `hiredis.c` -/

namespace Dic

/-- The context of an engine, where its fields are used. -/
def redisContext (engine : Nat) (dic : Dic) : Except DicFault Nat :=
  match dic.context engine with
  | none => .error .null
  | some c => if dic.allocated c then .ok c else .error .freed

/-- `redisFree`. The pointer in the engine stays as it is. -/
def redisFree (engine : Nat) (dic : Dic) : Except DicFault Dic := do
  let c ← dic.redisContext engine
  return { dic with allocated := Function.update dic.allocated c false }

/-- What `redisCommand` does with the context: the command goes to its output buffer. -/
def redisCommand (engine : Nat) (dic : Dic) : Except DicFault Unit := do
  let _ ← dic.redisContext engine

end Dic

/-! ### The commands -/

/-- What `%s` sends of the text at a pointer. -/
def cString (s : Str) : Str := s.takeWhile (· ≠ 0)

/-- `RPUSH`. -/
def redisRpush (list : List Str) (val : Str) : List Str := list ++ [val]

/-- `LPUSH`. -/
def redisLpush (list : List Str) (val : Str) : List Str := val :: list

/-- `RPOP`: the last element, if there is one, and the list without it. -/
def redisRpop (list : List Str) : Option Str × List Str := (list.getLast?, list.dropLast)

/-- `LPOP`. -/
def redisLpop (list : List Str) : Option Str × List Str := (list.head?, list.tail)

/-! ### `redis_warrper.c` -/

/-- How a connection to one address comes out: the context, whether it has an error, and whether
`SELECT` gets a reply. -/
structure Connect where
  context : Option Nat
  err : Bool
  select : Bool

/-- `RedisConnections`. `true` is an error text. The `auth` that a password adds uses the context
as the test of `err` behind it does. -/
def redisConnections (conn : Connect) (engine : Nat) (dic : Dic) :
    Except DicFault (Bool × Dic) := do
  let allocated := match conn.context with
    | none => dic.allocated
    | some c => Function.update dic.allocated c true
  let dic := { dic with
    context := Function.update dic.context engine conn.context
    allocated := allocated }
  dic.redisCommand engine
  return (conn.err, dic)

/-- `RedisSelectDB`. -/
def redisSelectDB (conn : Connect) (engine : Nat) (dic : Dic) : Except DicFault Unit := do
  dic.redisCommand engine
  if !conn.select then throw .assertion

/-- `RedisPingRedis`. -/
def redisPingRedis (pong : Bool) (engine : Nat) (dic : Dic) : Except DicFault Bool := do
  dic.redisCommand engine
  return pong

/-- `RedisClose`. -/
def redisClose (engine : Nat) (dic : Dic) : Except DicFault Dic := dic.redisFree engine

/-- `RedisAddListElement`: `RPUSH` for the flag `0`, otherwise `LPUSH`. -/
def redisAddListElement (flag : Int32) (val : Str) (engine : Nat) (dic : Dic) :
    Except DicFault Dic := do
  dic.redisCommand engine
  if flag = 0 then return { dic with list := redisRpush dic.list (cString val) }
  else return { dic with list := redisLpush dic.list (cString val) }

/-- `RedisPopListElement`: the `val_len` bytes at `val`, or `none` where it returns `0`. The
copy takes the terminator along, and `val_len` counts it. -/
def redisPopListElement (flag : Int32) (engine : Nat) (dic : Dic) :
    Except DicFault (Option Str × Dic) := do
  dic.redisCommand engine
  let (reply, rest) := if flag = 0 then redisRpop dic.list else redisLpop dic.list
  let dic := { dic with list := rest }
  match reply with
  | none => return (none, dic)
  | some str =>
    if str.length ≠ 0 then
      if (cString str).length ≤ 0 then return (none, dic) else return (some (str ++ [0]), dic)
    else return (none, dic)

/-! ### `RedisStorageEngineImpl` -/

/-- `CheckConnect`, which is `PingRedis`. -/
def checkConnect (pong : Bool) (engine : Nat) (dic : Dic) : Except DicFault Bool :=
  redisPingRedis pong engine dic

/-- `Connections`, with an outcome for each address of the list. -/
def connections : List Connect → Nat → Dic → Except DicFault (Bool × Dic)
  | [], _, dic => .ok (true, dic)
  | conn :: conns, engine, dic => do
    let (err, dic) ← redisConnections conn engine dic
    redisSelectDB conn engine dic
    if err then return (false, dic)
    else connections conns engine dic

/-- `Release`. -/
def release (engine : Nat) (dic : Dic) : Except DicFault Dic := redisClose engine dic

/-- `AddListElement`. -/
def addListElement (pong : Bool) (val : Str) (flag : Int32) (engine : Nat) (dic : Dic) :
    Except DicFault (Bool × Dic) := do
  if !(← redisPingRedis pong engine dic) then return (false, dic)
  return (true, ← redisAddListElement flag val engine dic)

/-- `PopListElement`. -/
def popListElement (pong : Bool) (flag : Int32) (engine : Nat) (dic : Dic) :
    Except DicFault (Option Str × Dic) := do
  if !(← redisPingRedis pong engine dic) then return (none, dic)
  redisPopListElement flag engine dic

/-! ### `AutoDicCommEngine` -/

/-- What comes from outside in one call: the answers to the `PING`s, that of `CheckConnect`
first, and the outcomes of new connections. -/
structure DicNet where
  pong : Nat → Bool
  connects : List Connect

/-- `RedisConnectionPop` in the constructor. -/
def Dic.pop (dic : Dic) : Option Nat × Dic :=
  let (engine, pool) := RedisPool.redisConnectionPop dic.dicConnPool
  (engine, { dic with dicConnPool := pool })

/-- `RedisConnectionPush` in the destructor. -/
def Dic.push (engine : Option Nat) (dic : Dic) : Dic :=
  { dic with dicConnPool := RedisPool.redisConnectionPush engine dic.dicConnPool }

/-- `GetDicEngine`. -/
def getDicEngine (net : DicNet) (engine : Option Nat) (dic : Dic) :
    Except DicFault (Option Nat × Dic) :=
  match engine with
  | none => .ok (none, dic)
  | some e => do
    let dic ← release e dic
    if !(← checkConnect (net.pong 0) e dic) then
      let (r, dic) ← connections net.connects e dic
      if !r then return (none, dic) else return (some e, dic)
    else return (some e, dic)

/-- `redis_engine_->`. -/
def engineAt : Option Nat → Except DicFault Nat
  | none => .error .null
  | some engine => .ok engine

/-! ### `QueueDicComm` -/

/-- `AddBlockQueueMessage(key, str)`. -/
def addBlockQueueMessage (net : DicNet) (str : Str) (dic : Dic) :
    Except DicFault (Bool × Dic) := do
  let (autoEngine, dic) := dic.pop
  let (redisEngine, dic) ← getDicEngine net autoEngine dic
  let (r, dic) ← addListElement (net.pong 1) str 1 (← engineAt redisEngine) dic
  return (r, dic.push autoEngine)

/-- `GetBlockQueueMessage(key, str)`. `none` is `false`. -/
def getBlockQueueMessage (net : DicNet) (dic : Dic) : Except DicFault (Option Str × Dic) := do
  let (autoEngine, dic) := dic.pop
  let (redisEngine, dic) ← getDicEngine net autoEngine dic
  let (str, dic) ← popListElement (net.pong 1) 1 (← engineAt redisEngine) dic
  return (str, dic.push autoEngine)

/-- The loop of `GetBlockQueueMessage(key, list, count)`, with `temp_count` passes left. It
ends at the first message it does not get. `pong n` is the answer to its `PING` number `n`. -/
def getBlockQueueLoop (pong : Nat → Bool) (redisEngine : Option Nat) :
    Nat → Dic → Except DicFault (List Str × Dic)
  | 0, dic => .ok ([], dic)
  | tempCount + 1, dic => do
    let (str, dic) ← popListElement (pong 0) 1 (← engineAt redisEngine) dic
    match str with
    | none => return ([], dic)
    | some str =>
      let (strs, dic) ← getBlockQueueLoop (fun n => pong (n + 1)) redisEngine tempCount dic
      return (str :: strs, dic)

/-- `GetBlockQueueMessage(key, list, count)`: the messages put to the list. A `count` below
zero is none at all. The call always returns `true`. -/
def getBlockQueueMessages (net : DicNet) (count : Int32) (dic : Dic) :
    Except DicFault (List Str × Dic) := do
  let (autoEngine, dic) := dic.pop
  let (redisEngine, dic) ← getDicEngine net autoEngine dic
  let (strs, dic) ←
    getBlockQueueLoop (fun n => net.pong (n + 1)) redisEngine count.toInt.toNat dic
  return (strs, dic.push autoEngine)

/-! ### Sequences of calls -/

/-- A call on the key. -/
inductive QueueOp where
  | add (str : Str) (net : DicNet)
  | get (net : DicNet)
  | getMany (count : Int32) (net : DicNet)

/-- What the calls work on, the messages whose `Add` returned `true`, and the messages that the
`Get` calls returned, both in order. -/
structure BlockQueue where
  dic : Dic
  added : List Str
  returned : List Str

namespace BlockQueue

/-- One call. -/
def step (q : BlockQueue) : QueueOp → Except DicFault BlockQueue
  | .add str net => do
    let (r, dic) ← addBlockQueueMessage net str q.dic
    return { q with dic := dic, added := if r then q.added ++ [str] else q.added }
  | .get net => do
    let (str, dic) ← getBlockQueueMessage net q.dic
    return { q with dic := dic, returned := q.returned ++ str.toList }
  | .getMany count net => do
    let (strs, dic) ← getBlockQueueMessages net count q.dic
    return { q with dic := dic, returned := q.returned ++ strs }

/-- The calls one after the other. -/
def run (q : BlockQueue) : List QueueOp → Except DicFault BlockQueue
  | [] => .ok q
  | op :: ops => do (← q.step op).run ops

/-- No call has been made. -/
def start (dic : Dic) : BlockQueue := ⟨dic, [], []⟩

end BlockQueue

end Mylib.Spec.Storage
