import Mylib.Lib.Custody
import Mylib.Spec.Storage.ConnectionPools

/-!
# `Mylib.Proofs.Storage.PoolConserve`: when the pools keep their connections

Four kinds of steps lose or spoil a connection pool, each at once and for good:

* an `Auto…` object is destroyed that got `NULL` from an empty pool: it pushes the `NULL`;
* `ReadData` pushes the `NULL` it got from an empty pool;
* `WriteData` returns without a push because its statement failed;
* `WriteData` or `ReadData` pops behind a look at the size that is out of date, when the last
  connection is gone.

`autoStep_iff` and `dataStep_iff` say that no other step does; `conserved_iff` lifts that to
the runs of all three pools.
-/

set_option autoImplicit false

namespace Mylib.Proofs.Storage

open Mylib.Lib.Custody
open Mylib.Spec.Storage

section

variable {Conn : Type}

/-! ### The connections of a pool -/

/-- The connections in a list of pointers. -/
def conns (pool : List (Option Conn)) : Multiset Conn := held id pool

/-- The connection an object holds. `NULL` is none. -/
def AutoEngine.engine : AutoEngine Conn → Option Conn
  | .live engine => engine
  | .destroyed => none

/-- The connection a call holds. -/
def DataCall.engine : DataCall Conn → Option Conn
  | .writeExec _ engine => some engine
  | .writePush engine => some engine
  | .readBody _ engine => engine
  | .readPush engine _ => engine
  | _ => none

/-- The connections in the pool and those held are the initial ones, each once, and there is
no `NULL` in the pool. -/
structure Conserved (initial : Multiset Conn) (pool : List (Option Conn))
    (holders : Multiset Conn) : Prop where
  exact : conns pool + holders = initial
  nonNull : none ∉ pool

variable {initial others : Multiset Conn} {pool : List (Option Conn)}

/-- An engine that is handed back is in the pool. -/
theorem conns_push (engine : Conn) : conns (lockedPush (some engine) pool) =
    conns pool + {engine} := held_append pool [some engine]

/-- An engine that is taken was in the pool. -/
theorem conns_cons (engine : Conn) : conns (some engine :: pool) = {engine} + conns pool :=
  held_cons (some engine) pool

/-- A connection moves from the front of the pool to a holder that has none. -/
theorem Conserved.take {engine : Conn}
    (h : Conserved initial (some engine :: pool) (others + 0)) :
    Conserved initial pool (others + {engine}) where
  exact := by
    rw [← h.exact, conns_cons]
    abel
  nonNull := fun hnull => h.nonNull (List.mem_cons_of_mem _ hnull)

/-- A holder's connection moves to the back of the pool. -/
theorem Conserved.give {engine : Conn} (h : Conserved initial pool (others + {engine})) :
    Conserved initial (lockedPush (some engine) pool) (others + 0) where
  exact := by
    rw [← h.exact, conns_push]
    abel
  nonNull := by
    intro hnull
    rcases List.mem_append.mp hnull with hnull | hnull
    · exact h.nonNull hnull
    · simp at hnull

/-- A pool that is given a `NULL` has one. -/
theorem not_conserved_null : ¬Conserved initial (lockedPush none pool) others := fun h =>
  h.nonNull (List.mem_append_right _ (List.mem_singleton_self _))

/-- A holder that drops its connection breaks the count. -/
theorem Conserved.not_drop {engine : Conn} (h : Conserved initial pool (others + {engine})) :
    ¬Conserved initial pool (others + 0) := by
  intro hdropped
  have hcard := congrArg Multiset.card (h.exact.trans hdropped.exact.symm)
  simp at hcard

/-! ### The `Auto…` objects -/

/-- An object is not destroyed while it has no connection. -/
def AutoAction.Good (s : AutoPool Conn) : AutoAction → Prop
  | .construct => True
  | .destruct k => s.objects[k]? ≠ some (.live none)

def AutoPool.Conserved (initial : Multiset Conn) (s : AutoPool Conn) : Prop :=
  Storage.Conserved initial s.pool (held AutoEngine.engine s.objects)

/-- A destructor gives back what its object has, and there is none but for a live object. -/
theorem autoDestruct_cases (s : AutoPool Conn) (k : Nat) :
    (∃ engine, s.objects[k]? = some (.live engine) ∧ s.step lockedPop lockedPush (.destruct k) =
        ⟨lockedPush engine s.pool, s.objects.set k .destroyed⟩) ∨
      ((∀ engine, s.objects[k]? ≠ some (.live engine)) ∧
        s.step lockedPop lockedPush (.destruct k) = s) := by
  simp only [AutoPool.step]
  cases s.objects[k]? with
  | none => exact .inr ⟨by simp, rfl⟩
  | some object =>
    cases object with
    | live engine => exact .inl ⟨engine, rfl, rfl⟩
    | destroyed => exact .inr ⟨by simp, rfl⟩

/-- A step of a scoped engine keeps the connections exactly if it is good. -/
theorem autoStep_iff (s : AutoPool Conn) (action : AutoAction)
    (h : AutoPool.Conserved initial s) :
    AutoPool.Conserved initial (s.step lockedPop lockedPush action) ↔
      AutoAction.Good s action := by
  cases action with
  | construct =>
    obtain ⟨pool, objects⟩ := s
    refine iff_of_true ?_ trivial
    have hnew : Storage.Conserved initial pool (held AutoEngine.engine objects + 0) := by
      rw [add_zero]
      exact h
    show Storage.Conserved initial (lockedPop pool).2
      (held AutoEngine.engine (objects ++ [.live (lockedPop pool).1]))
    rw [held_append]
    -- An empty pool gives `NULL`: the object is live and holds nothing.
    cases pool with
    | nil => exact hnew
    | cons engine pool =>
      cases engine with
      | none => exact absurd List.mem_cons_self hnew.nonNull
      | some engine => exact hnew.take
  | destruct k =>
    rcases autoDestruct_cases s k with ⟨engine, hk, hstep⟩ | ⟨hdead, hstep⟩
    · obtain ⟨others, hbefore, hafter⟩ := exists_held_set AutoEngine.engine hk
      rw [hstep]
      cases engine with
      | none => exact iff_of_false not_conserved_null fun hgood => hgood hk
      | some engine =>
        refine iff_of_true ?_ (by simp [AutoAction.Good, hk])
        have hholds : Storage.Conserved initial s.pool (others + {engine}) := by
          have hheld : held AutoEngine.engine s.objects = others + {engine} := hbefore
          rw [← hheld]
          exact h
        show Storage.Conserved initial _ (held AutoEngine.engine _)
        rw [hafter]
        exact hholds.give
    · rw [hstep]
      exact iff_of_true h (hdead none)

/-! ### The calls of `DataMYSQLEngine` -/

/-- The pool is not empty when it is popped, the statement of a `WriteData` does not fail, and
a `ReadData` gives back a connection. -/
def DataCall.Good (pool : List (Option Conn)) : DataCall Conn → Prop
  | .writePop _ => pool ≠ []
  | .writeExec args _ => args.exec = true
  | .readPop _ => pool ≠ []
  | .readPush engine _ => engine ≠ none
  | _ => True

/-- One step of a call, whatever the others hold. -/
theorem callStep_iff (call : DataCall Conn)
    (h : Conserved initial pool (others + held DataCall.engine [call])) :
    (Conserved initial (call.step pool).2.1
        (others + held DataCall.engine [(call.step pool).1]) ∧ (call.step pool).2.2 = false) ↔
      DataCall.Good pool call := by
  cases call with
  | write args =>
    refine iff_of_true ?_ trivial
    simp only [DataCall.step]
    split
    · exact ⟨h, rfl⟩
    split <;> exact ⟨h, rfl⟩
  | writePop args =>
    cases pool with
    | nil => exact iff_of_false (fun hpopped => Bool.noConfusion hpopped.2) fun hgood => hgood rfl
    | cons engine pool =>
      refine iff_of_true ?_ (List.cons_ne_nil _ _)
      -- The pool has no `NULL` so far, so the check behind the pop does not fire.
      cases engine with
      | none => exact absurd List.mem_cons_self h.nonNull
      | some engine => exact ⟨Conserved.take h, rfl⟩
  | writeExec args engine =>
    -- The one exit of the two functions that leaves with a connection in hand.
    obtain ⟨sql, exec, storageGet⟩ := args
    cases exec with
    | false => exact iff_of_false (fun hleft => Conserved.not_drop h hleft.1) Bool.false_ne_true
    | true => exact iff_of_true ⟨h, rfl⟩ rfl
  | writePush engine => exact iff_of_true ⟨Conserved.give h, rfl⟩ trivial
  | read args =>
    refine iff_of_true ?_ trivial
    simp only [DataCall.step]
    split <;> exact ⟨h, rfl⟩
  | readPop args =>
    cases pool with
    | nil => exact iff_of_false (fun hpopped => Bool.noConfusion hpopped.2) fun hgood => hgood rfl
    | cons engine pool =>
      refine iff_of_true ?_ (List.cons_ne_nil _ _)
      cases engine with
      | none => exact absurd List.mem_cons_self h.nonNull
      | some engine => exact ⟨Conserved.take h, rfl⟩
  | readBody args engine => exact iff_of_true ⟨h, rfl⟩ trivial
  | readPush engine r =>
    -- `ReadData` pushes at its end whatever it popped at its start.
    cases engine with
    | none => exact iff_of_false (fun hnull => not_conserved_null hnull.1) fun hgood => hgood rfl
    | some engine => exact iff_of_true ⟨Conserved.give h, rfl⟩ (Option.some_ne_none _)
  | returned r => exact iff_of_true ⟨h, rfl⟩ trivial

/-- The step of a call is a good one. -/
def DataAction.Good (s : DataPool Conn) : DataAction → Prop
  | .step k => ∀ call, s.calls[k]? = some call → DataCall.Good s.pool call
  | _ => True

/-- The connections are conserved, and the empty list was never popped. -/
def DataPool.Conserved (initial : Multiset Conn) (s : DataPool Conn) : Prop :=
  Storage.Conserved initial s.pool (held DataCall.engine s.calls) ∧ s.poppedEmpty = false

/-- A call that has just been made holds nothing. -/
theorem held_made {calls : List (DataCall Conn)} {call : DataCall Conn}
    (h : DataCall.engine call = none) :
    held DataCall.engine (calls ++ [call]) = held DataCall.engine calls := by
  have hnone : held DataCall.engine [call] = 0 := by simp [held, h]
  rw [held_append, hnone, add_zero]

/-- A step of the data pool, which takes and returns in one call, keeps the connections exactly if
it is good. -/
theorem dataStep_iff (s : DataPool Conn) (action : DataAction)
    (h : DataPool.Conserved initial s) :
    DataPool.Conserved initial (s.step action) ↔ DataAction.Good s action := by
  obtain ⟨pool, calls, popped⟩ := s
  obtain ⟨hconserved, hpopped⟩ := h
  obtain rfl : popped = false := hpopped
  cases action with
  | writeData args =>
    -- A new call holds no engine yet, so neither the pool nor what is held changes.
    refine iff_of_true ⟨?_, rfl⟩ trivial
    show Storage.Conserved initial pool (held DataCall.engine (calls ++ [.write args]))
    rw [held_made rfl]
    exact hconserved
  | readData args =>
    refine iff_of_true ⟨?_, rfl⟩ trivial
    show Storage.Conserved initial pool (held DataCall.engine (calls ++ [.read args]))
    rw [held_made rfl]
    exact hconserved
  | step k =>
    cases hk : calls[k]? with
    | none =>
      -- No such call: nothing moves.
      have hstep : DataPool.step ⟨pool, calls, false⟩ (.step k) = ⟨pool, calls, false⟩ := by
        simp [DataPool.step, hk]
      rw [hstep]
      exact iff_of_true ⟨hconserved, rfl⟩ (by simp [DataAction.Good, hk])
    | some call =>
      -- Only call `k` moves, and the engines of the others stay held.
      obtain ⟨others, hbefore, hafter⟩ := exists_held_set DataCall.engine hk
      have hstep : DataPool.step ⟨pool, calls, false⟩ (.step k) =
          ⟨(call.step pool).2.1, calls.set k (call.step pool).1, (call.step pool).2.2⟩ := by
        simp [DataPool.step, hk]
      have hgood : DataAction.Good ⟨pool, calls, false⟩ (.step k) ↔ DataCall.Good pool call := by
        simp [DataAction.Good, hk]
      have hholds : Storage.Conserved initial pool (others + held DataCall.engine [call]) := by
        rw [← hbefore]
        exact hconserved
      rw [hstep, hgood, ← callStep_iff call hholds]
      show Storage.Conserved initial _ (held DataCall.engine _) ∧ _ ↔ _
      rw [hafter]

end

/-! ### The three pools -/

section

variable {DB Dic : Type}

/-- The step loses no connection and spoils no pool. -/
def PoolAction.Good (w : PoolWorld DB Dic) : PoolAction → Prop
  | .mysql action => AutoAction.Good w.mysql action
  | .redis action => AutoAction.Good w.redis action
  | .data action => DataAction.Good w.data action

/-- Each pool has its connections: in it or held, each once, no `NULL` in it, and none popped
while it was empty. -/
structure PoolWorld.Conserved (mysql : List DB) (redis : List Dic) (data : List DB)
    (w : PoolWorld DB Dic) : Prop where
  mysql : AutoPool.Conserved mysql w.mysql
  redis : AutoPool.Conserved redis w.redis
  data : DataPool.Conserved data w.data

/-- A step of the three pools together keeps their connections exactly if it is good. -/
theorem poolStep_iff {mysql : List DB} {redis : List Dic} {data : List DB}
    (w : PoolWorld DB Dic) (action : PoolAction) (h : PoolWorld.Conserved mysql redis data w) :
    PoolWorld.Conserved mysql redis data (w.step action) ↔ PoolAction.Good w action := by
  cases action with
  | mysql action =>
    rw [PoolAction.Good, ← autoStep_iff w.mysql action h.mysql]
    exact ⟨fun hnext => hnext.mysql, fun hnext => ⟨hnext, h.redis, h.data⟩⟩
  | redis action =>
    rw [PoolAction.Good, ← autoStep_iff w.redis action h.redis]
    exact ⟨fun hnext => hnext.redis, fun hnext => ⟨h.mysql, hnext, h.data⟩⟩
  | data action =>
    rw [PoolAction.Good, ← dataStep_iff w.data action h.data]
    exact ⟨fun hnext => hnext.data, fun hnext => ⟨h.mysql, h.redis, hnext⟩⟩

/-- At the start all connections are in the pool. -/
theorem Conserved.init {Conn : Type} (initial : List Conn) :
    Conserved (initial : Multiset Conn) (initial.map some) 0 where
  exact := by simp [conns, held]
  nonNull := by simp

/-- The connections are conserved in every state of a run exactly when every step of it is a
good one. -/
theorem conserved_iff (mysql : List DB) (redis : List Dic) (data : List DB)
    (actions : List PoolAction) :
    (∀ before, before <+: actions →
        PoolWorld.Conserved mysql redis data ((PoolWorld.init mysql redis data).run before)) ↔
      EachStep PoolWorld.step PoolAction.Good (PoolWorld.init mysql redis data) actions := by
  have hinit : PoolWorld.Conserved mysql redis data (PoolWorld.init mysql redis data) :=
    ⟨Conserved.init mysql, Conserved.init redis, Conserved.init data, rfl⟩
  exact forall_prefix_iff poolStep_iff hinit actions

/-- The only connection is taken, the second object gets `NULL` and pushes it. -/
theorem not_conserved_second :
    ¬PoolWorld.Conserved [()] ([] : List Unit) ([] : List Unit)
      ((PoolWorld.init [()] [] []).run
        [.mysql .construct, .mysql .construct, .mysql (.destruct 1)]) := by
  intro h
  exact h.mysql.nonNull (by decide)

end

end Mylib.Proofs.Storage
