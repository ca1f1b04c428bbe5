import Mylib.Spec.Base.StringUtil

/-!
# `Mylib.Spec.Storage.RedisCounter`: clients that increment one key

`RedisStorageEngineImpl::IncrValue` of `public/storage/redis_storage_impl.cc` over
`RedisAddValue`, `RedisIncr` and `ReidsIsExist` of `public/storage/redis_warrper.c`.

A call sends up to three commands: `PING`, a `GET` that tests for the key, and then either
`INCR` or a `SET` of the text `1`. Each command is one step of the server, and the commands of
different clients come in any order. A client has a number of calls to make and makes them
one after the other. No reply is lost.

The server keeps an integer for a key, and its texts are the decimal texts: this is all that
`INCR` works on, and `SET` writes nothing else here. `GET` names the key with `%s`, up to its
first zero byte; `SET` and `INCR` name it with `%b`, as the first `key_len` bytes.

The commands are definitions here, where `Mylib.Spec.Storage.RedisValues` has the server as a
parameter: the runs of several clients are about the states of the server in between, and these
have to be given. The definitions follow the documented behaviour of the commands.
-/

set_option autoImplicit false

namespace Mylib.Spec.Storage

open Mylib.Spec.Base (Str)
open Mylib.Spec.Base.StringUtil

/-! ### The server -/

/-- The keys of the server with their integers. -/
abbrev Store := Str → Option Int

/-- The largest integer of a Redis counter. -/
def counterMax : Int := 2 ^ 63 - 1

/-- The reply to `GET`: the text of the value, or nil. -/
def redisGet (store : Store) (name : Str) : Option Str := (store name).map signedDecimal

/-- `SET`. -/
def redisSet (store : Store) (name : Str) (v : Int) : Store := Function.update store name (some v)

/-- `INCR`: an absent key counts as zero, and the largest integer is an error that changes
nothing. -/
def redisIncr (store : Store) (name : Str) : Store :=
  let v := (store name).getD 0
  if v < counterMax then redisSet store name (v + 1) else store

/-! ### The calls of a client -/

/-- The key argument of a call: the bytes at `key`, before the terminator, and `key_len`. -/
structure KeyArg where
  key : Str
  keyLen : Nat
  deriving DecidableEq, Repr

namespace KeyArg

/-- The name that `%s` sends. -/
def cName (k : KeyArg) : Str := k.key.takeWhile (· ≠ 0)

/-- The name that `%b` sends. -/
def bName (k : KeyArg) : Str := k.key.take k.keyLen

end KeyArg

/-- `ReidsIsExist` on its reply: `reply->len != 0` and `strlen(reply->str) > 0`. A nil reply
has the length zero. -/
def reidsIsExist (reply : Option Str) : Bool :=
  match reply with
  | none => false
  | some str => str.length != 0 && (str.takeWhile (· ≠ 0)).length != 0

/-- Where a client is in `IncrValue`: outside, after the `PING`, or after the test with its
result. -/
inductive Pc where
  | idle
  | pinged
  | tested (isExist : Bool)
  deriving DecidableEq, Repr

/-- The server and its clients `ι`. `todo` counts the calls that a client has not begun, and
`returned` the calls of all clients that are over. -/
structure World (ι : Type) where
  store : Store
  pc : ι → Pc
  todo : ι → Nat
  returned : Nat

namespace World

variable {ι : Type} [DecidableEq ι]

/-- The next command of client `i`. A client without a call left does nothing. -/
def step (k : KeyArg) (w : World ι) (i : ι) : World ι :=
  match w.pc i with
  | .idle =>
      -- A call begins with its `PING`.
      if w.todo i = 0 then w
      else
        { w with
            pc := Function.update w.pc i .pinged
            todo := Function.update w.todo i (w.todo i - 1) }
  | .pinged =>
      let isExist := reidsIsExist (redisGet w.store k.cName)
      { w with pc := Function.update w.pc i (.tested isExist) }
  -- The key was there when it was tested.
  | .tested true =>
      { w with
          store := redisIncr w.store k.bName
          pc := Function.update w.pc i .idle
          returned := w.returned + 1 }
  -- It was not, so the value 1 is set, whatever has come since.
  | .tested false =>
      { w with
          store := redisSet w.store k.bName 1
          pc := Function.update w.pc i .idle
          returned := w.returned + 1 }

/-- The commands of the clients in the order of `schedule`. -/
def run (k : KeyArg) (w : World ι) (schedule : List ι) : World ι :=
  schedule.foldl (step k) w

/-- Nothing sent yet: every client `i` has `calls i` calls to make. -/
def start (store : Store) (calls : ι → Nat) : World ι :=
  { store := store, pc := fun _ => .idle, todo := calls, returned := 0 }

/-- All calls have returned. -/
def Settled (w : World ι) : Prop := ∀ i, w.pc i = .idle ∧ w.todo i = 0

end World

end Mylib.Spec.Storage
