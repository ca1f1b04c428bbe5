import Mylib.Spec.Base.StringUtil

/-!
# `Mylib.Spec.Storage.RedisHash`: clients that append to one hash

`RedisStorageEngineImpl::AddHashRadomElement` of `public/storage/redis_storage_impl.cc` over
`RedishHashSize` and `RedisAddHashElement` of `public/storage/redis_warrper.c`.

A call sends three commands: `PING`, `HLEN`, and then `HSETNX` with the size as the field.
Each command is one step of the server, and the commands of different clients come in any
order. A call whose `PING` is not answered returns `false` and sends nothing more; the
replies to the other two commands are not lost. All clients name the same hash, with `%s`.

A hash is the list of its fields with their values, in the order in which they were stored.
Redis allows fewer than `2 ^ 32` fields, so the size fits `int64`. As in
`Mylib.Spec.Storage.RedisCounter` the commands are definitions, since the states of the server
between the commands of different clients are what the runs are about.
-/

set_option autoImplicit false

namespace Mylib.Spec.Storage

open Mylib.Spec.Base (Str)
open Mylib.Spec.Base.StringUtil

/-! ### The server -/

/-- A hash: its fields and their values. -/
abbrev Hash := List (Str × Str)

/-- The reply to `HLEN`. -/
def redisHlen (hash : Hash) : Nat := hash.length

/-- `HSETNX`: a field that is there keeps its value. -/
def redisHsetnx (hash : Hash) (field value : Str) : Hash :=
  if field ∈ hash.map Prod.fst then hash else hash ++ [(field, value)]

/-! ### The calls of a client -/

/-- The value argument of a call: the bytes at `val`, before the last terminator, and
`val_len`. -/
structure ValArg where
  val : Str
  valLen : Nat
  deriving DecidableEq, Repr

namespace ValArg

/-- The value the caller passes. -/
def value (v : ValArg) : Str := v.val.take v.valLen

/-- The value that `%s` sends; `val_len` is not looked at. -/
def sent (v : ValArg) : Str := v.val.takeWhile (· ≠ 0)

end ValArg

/-- Where a client is in `AddHashRadomElement`: outside, after the `PING`, or with the size in
`current_pos`. -/
inductive AddPc where
  | idle
  | pinged (v : ValArg)
  | sized (v : ValArg) (currentPos : Nat)
  deriving DecidableEq, Repr

/-- The hash and the clients `ι`. `todo` lists the calls that a client has not begun, and
`added` the calls of all clients that have returned `true`, in that order. -/
structure HashWorld (ι : Type) where
  hash : Hash
  pc : ι → AddPc
  todo : ι → List ValArg
  added : List ValArg

namespace HashWorld

variable {ι : Type} [DecidableEq ι]

/-- The next command of client `i`. `pong` says whether a `PING` is answered. A client without
a call left does nothing. -/
def step (w : HashWorld ι) (i : ι) (pong : Bool) : HashWorld ι :=
  match w.pc i with
  | .idle =>
      match w.todo i with
      | [] => w
      | v :: calls =>
        let w := { w with todo := Function.update w.todo i calls }
        -- A `PING` without an answer ends the call.
        if pong then { w with pc := Function.update w.pc i (.pinged v) } else w
  | .pinged v => { w with pc := Function.update w.pc i (.sized v (redisHlen w.hash)) }
  -- The size that was read is the field, whatever has been added since.
  | .sized v currentPos =>
      { w with
          hash := redisHsetnx w.hash (decimal currentPos) v.sent
          pc := Function.update w.pc i .idle
          added := w.added ++ [v] }

/-- The commands of the clients in the order of `schedule`. -/
def run (w : HashWorld ι) (schedule : List (ι × Bool)) : HashWorld ι :=
  schedule.foldl (fun w s => w.step s.1 s.2) w

/-- Nothing sent yet: every client `i` has the calls `calls i` to make. -/
def start (hash : Hash) (calls : ι → List ValArg) : HashWorld ι :=
  { hash := hash, pc := fun _ => .idle, todo := calls, added := [] }

end HashWorld

end Mylib.Spec.Storage
