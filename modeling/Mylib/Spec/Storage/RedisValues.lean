import Mylib.Spec.Base.StringUtil

/-!
# `Mylib.Spec.Storage.RedisValues`: string values and counters in Redis

`RedisAddValue`, `RedisGetValue`, `RedisIncDecValue` and `RedisPingRedis` of
`public/storage/redis_warrper.c`, and the functions of `RedisStorageEngineImpl` over them in
`public/storage/redis_storage_impl.cc`.

A command is formatted by `redisvFormatCommand` of `third_party/hiredis/hiredis.c` and answered
by a server, which is a parameter: what the code relies on is the structure `Redis`. The
connection holds, so every command gets its reply.

A C string is the list of the bytes in front of its last terminator; it may hold zeros, and
the functions for C strings stop at the first one. `none` is undefined behaviour.
-/

set_option autoImplicit false

namespace Mylib.Spec.Storage.RedisValues

open Mylib.Spec.Base (Str)
open Mylib.Spec.Base.StringUtil

/-- What `strlen` and its kind see of the bytes at a pointer. -/
def cString (bytes : Str) : Str := bytes.takeWhile (· ≠ 0)

/-! ### Commands -/

/-- An argument of a format: a C string, bytes with their number, or a `long long`. -/
inductive FormatArg where
  | str (arg : Str)
  | bytes (arg : Str) (size : Nat)
  | longLong (arg : Int64)

/-- The loop of `redisvFormatCommand`, for the conversions `%s`, `%b` and `%lld`. A blank of the
format ends an argument, a blank of an argument does not. -/
def formatLoop : (format : Str) → List FormatArg → (curargv : List Str) → (curarg : Str) →
    (touched : Bool) → Option (List Str)
  -- An argument that was begun is the last one.
  | [], _, curargv, curarg, touched => some (if touched then curargv ++ [curarg] else curargv)
  | 37 :: 115 :: format, .str arg :: args, curargv, curarg, _ =>
    formatLoop format args curargv (curarg ++ cString arg) true
  -- `%b` takes the number of bytes from the next argument; more than there are is an overrun.
  | 37 :: 98 :: format, .bytes arg size :: args, curargv, curarg, _ =>
    if size ≤ arg.length then formatLoop format args curargv (curarg ++ arg.take size) true
    else none
  | 37 :: 108 :: 108 :: 100 :: format, .longLong arg :: args, curargv, curarg, _ =>
    formatLoop format args curargv (curarg ++ signedDecimal arg.toInt) true
  | c :: format, args, curargv, curarg, touched =>
    -- The other conversions are not used.
    if c = 37 then none
    else if c = 32 then
      if touched then formatLoop format args (curargv ++ [curarg]) [] false
      else formatLoop format args curargv curarg false
    else formatLoop format args curargv (curarg ++ [c]) true

/-- `redisvFormatCommand`: the arguments of the command. -/
def redisvFormatCommand (format : Str) (args : List FormatArg) : Option (List Str) :=
  formatLoop format args [] [] false

/-- The members of a `redisReply` that are read. What a reply does not have is zero. -/
structure Reply where
  integer : Int64
  str : Option Str

/-- `reply->len`, an `int`. -/
def Reply.len (reply : Reply) : Int :=
  match reply.str with
  | none => 0
  | some str => (str.length : Int).bmod (2 ^ 32)

/-- A server: what it answers to the arguments of a command. -/
abbrev Server (σ : Type) := List Str → σ → Reply × σ

variable {σ : Type} (server : Server σ)

/-- `redisCommand`. -/
def redisCommand (s : σ) (format : Str) (args : List FormatArg) : Option (Reply × σ) :=
  (redisvFormatCommand format args).map fun argv => server argv s

/-! ### The wrapper -/

/-- `RedisPingRedis`. -/
def redisPingRedis (s : σ) : Option (Int × σ) := do
  let (reply, s) ← redisCommand server s (text ['P', 'I', 'N', 'G']) []
  let str ← reply.str
  return (if cString str = text ['P', 'O', 'N', 'G'] then 1 else 0, s)

/-- `RedisAddValue`. -/
def redisAddValue (s : σ) (key : Str) (keyLen : Nat) (val : Str) (valLen : Nat) :
    Option (Int × σ) := do
  let (_, s) ← redisCommand server s (text ['S', 'E', 'T', ' ', '%', 'b', ' ', '%', 'b'])
    [.bytes key keyLen, .bytes val valLen]
  return (1, s)

/-- What `RedisGetValue` returns, and what it writes to `*val` (the block) and `*val_len`. -/
structure Got where
  ret : Int
  val : Option Str
  valLen : Option Nat
  deriving DecidableEq

/-- `RedisGetValue` on its reply. The length of the block is an `int`, and no block has a
negative one. -/
def gotOf (reply : Reply) : Option Got :=
  if reply.len ≠ 0 then do
    let str ← reply.str
    if (cString str).length = 0 then some ⟨0, none, none⟩
    else if reply.len < 0 ∨ 2 ^ 31 - 1 ≤ reply.len then none
    else some ⟨1, some (str.take reply.len.toNat ++ [0]), some (reply.len.toNat + 1)⟩
  else some ⟨0, none, some 0⟩

/-- `RedisGetValue`. -/
def redisGetValue (s : σ) (key : Str) : Option (Got × σ) := do
  let (reply, s) ← redisCommand server s (text ['G', 'E', 'T', ' ', '%', 's']) [.str key]
  let got ← gotOf reply
  return (got, s)

/-- `RedisIncDecValue`, with what `result` points to, unless it is a null pointer. -/
def redisIncDecValue (s : σ) (key : Str) (incby : Int64) (result : Option Int64) :
    Option (Int × Option Int64 × σ) :=
  if incby = 0 then do
    let (got, s) ← redisGetValue server s key
    -- A `val` that was not written has no value that could be tested.
    let val ← got.val
    return (got.ret, result.map fun _ => (strtoll (cString val)).value, s)
  else do
    let (reply, s) ←
      if incby = 1 then
        redisCommand server s (text ['I', 'N', 'C', 'R', ' ', '%', 's']) [.str key]
      else if incby = -1 then
        redisCommand server s (text ['D', 'E', 'C', 'R', ' ', '%', 's']) [.str key]
      else if 0 < incby then
        redisCommand server s
          (text ['I', 'N', 'C', 'R', 'B', 'Y', ' ', '%', 's', ' ', '%', 'l', 'l', 'd'])
          [.str key, .longLong incby]
      else
        redisCommand server s
          (text ['D', 'E', 'C', 'R', 'B', 'Y', ' ', '%', 's', ' ', '%', 'l', 'l', 'd'])
          [.str key, .longLong incby]
    return (1, result.map fun _ => reply.integer, s)

/-! ### The engine -/

/-- `RedisStorageEngineImpl::SetValue`. -/
def setValue (s : σ) (key : Str) (keyLen : Nat) (val : Str) (valLen : Nat) :
    Option (Bool × σ) := do
  let (ping, s) ← redisPingRedis server s
  if ping ≠ 1 then
    return (false, s)
  let (ret, s) ← redisAddValue server s key keyLen val valLen
  return (ret == 1, s)

/-- `RedisStorageEngineImpl::GetValue`: the result, and `*val` and `*val_len`. -/
def getValue (s : σ) (key : Str) : Option (Bool × Option Str × Option Nat × σ) := do
  let (ping, s) ← redisPingRedis server s
  if ping ≠ 1 then
    return (false, none, none, s)
  let (got, s) ← redisGetValue server s key
  return (got.ret == 1, got.val, got.valLen, s)

/-! ### What Redis does -/

/-- The string values of a server by their keys. -/
abbrev Values := Str → Option Str

/-- The integer that a value is for a counter: it has to be written as Redis prints it. An
absent value is zero. -/
def counterOf : Option Str → Option Int64
  | none => some 0
  | some t => if t = signedDecimal (strtoll t).value.toInt then some (strtoll t).value else none

/-- The values where a counter is changed by `step`. Another value than an integer, or an
integer that would leave the 64 bits, is an error. -/
def stepped (values : Values) (name : Str) (step : Int) : Option (Int64 × Values) :=
  match counterOf (values name) with
  | none => none
  | some c =>
    if -2 ^ 63 ≤ c.toInt + step ∧ c.toInt + step < 2 ^ 63 then
      some (Int64.ofInt (c.toInt + step),
        Function.update values name (some (signedDecimal (c.toInt + step))))
    else none

/-- `r` answers a command that changes a counter by `step`. An error has no integer and changes
nothing. -/
def Counts (value : σ → Values) (s : σ) (name : Str) (step : Int) (r : Reply × σ) : Prop :=
  match stepped (value s) name step with
  | some (c, values) => r.1.integer = c ∧ value r.2 = values
  | none => r.1.integer = 0 ∧ value r.2 = value s

/-- The commands mean what they mean in Redis, with `value` for the strings of a state. -/
structure Redis (value : σ → Values) : Prop where
  ping : ∀ s, (server [text ['P', 'I', 'N', 'G']] s).1.str = some (text ['P', 'O', 'N', 'G']) ∧
    value (server [text ['P', 'I', 'N', 'G']] s).2 = value s
  set : ∀ s name v, value (server [text ['S', 'E', 'T'], name, v] s).2
    = Function.update (value s) name (some v)
  get : ∀ s name, (server [text ['G', 'E', 'T'], name] s).1.str = value s name ∧
    value (server [text ['G', 'E', 'T'], name] s).2 = value s
  incr : ∀ s name, Counts value s name 1 (server [text ['I', 'N', 'C', 'R'], name] s)
  decr : ∀ s name, Counts value s name (-1) (server [text ['D', 'E', 'C', 'R'], name] s)
  incrby : ∀ s name (n : Int64), Counts value s name n.toInt
    (server [text ['I', 'N', 'C', 'R', 'B', 'Y'], name, signedDecimal n.toInt] s)
  decrby : ∀ s name (n : Int64), n ≠ Int64.minValue → Counts value s name (-n.toInt)
    (server [text ['D', 'E', 'C', 'R', 'B', 'Y'], name, signedDecimal n.toInt] s)
  /-- The smallest integer has no negation. -/
  decrby_min : ∀ s name,
    let r := server [text ['D', 'E', 'C', 'R', 'B', 'Y'], name,
      signedDecimal Int64.minValue.toInt] s
    r.1.integer = 0 ∧ value r.2 = value s

end Mylib.Spec.Storage.RedisValues
