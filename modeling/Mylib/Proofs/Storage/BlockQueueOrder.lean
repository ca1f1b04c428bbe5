import Mylib.Lib.CString
import Mylib.Spec.Storage.BlockQueue

/-!
# `Mylib.Proofs.Storage.BlockQueueOrder`: what the block queue delivers

Every call of `QueueDicComm` takes an engine out of the pool and asks `GetDicEngine` for it. That
function means to release surplus replies, but `Release` frees the whole `redisContext` and
leaves the pointer in the engine, and the `PING` of `CheckConnect` goes through that pointer
(`getDicEngine_freed`). Where the pool has no engine to give, the calls use the null pointer they
get (`queueStep_null`). The only calls that come to an end ask a pool without an engine for no
message.

* `inOrder_iff`: on which sequences of calls the promise is kept.
* `popListElement_addListElement`: what `AddListElement` and `PopListElement` do where the context
  is allocated. Both are called with the flag `1`, which stands for `LPUSH` in the one and for
  `LPOP` in the other, so the message added last comes first; and `RedisPopListElement` counts
  the terminator into `val_len`, so it comes with a zero byte at its end.
-/

set_option autoImplicit false

namespace Mylib.Proofs.Storage

open Mylib.Spec.Base (Str)
open Mylib.Spec.Base.StringUtil (text)
open Mylib.Spec.Storage
open Mylib.Lib.CString (bind_eq_ok_iff)

section

variable {dic : Dic} {engine c : Nat} {str : Str} {list : List Str}

/-! ### The list at the key -/

/-- A message with characters in it and no zero byte. -/
def Plain (str : Str) : Prop := str ≠ [] ∧ 0 ∉ str

/-- A plain text is passed as a whole. -/
theorem cString_of_plain (h : Plain str) : cString str = str := by
  unfold cString
  rw [List.takeWhile_eq_self_iff]
  intro b hb
  have hne : b ≠ 0 := fun hzero => h.2 (hzero ▸ hb)
  simpa using hne

/-- A command goes through a context that is allocated. -/
theorem redisCommand_allocated (h : dic.redisContext engine = .ok c) :
    dic.redisCommand engine = .ok () := by
  rw [Dic.redisCommand, h]
  rfl

/-- `AddListElement` with the flag `1` puts the message in front of the list. -/
theorem addListElement_allocated (h : dic.redisContext engine = .ok c) (hplain : Plain str) :
    addListElement true str 1 engine dic = .ok (true, { dic with list := str :: dic.list }) := by
  have hcommand := redisCommand_allocated h
  rw [addListElement, redisPingRedis, redisAddListElement, hcommand, cString_of_plain hplain,
    if_neg (by decide : ¬(1 : Int32) = 0)]
  rfl

/-- `PopListElement` with the flag `1` takes the leftmost message and adds a zero byte to it. -/
theorem popListElement_allocated (h : dic.redisContext engine = .ok c) (hplain : Plain str)
    (hlist : dic.list = str :: list) : popListElement true 1 engine dic
      = .ok (some (str ++ [0]), { dic with list := list }) := by
  have hcommand := redisCommand_allocated h
  have hlength : str.length ≠ 0 := fun hzero => hplain.1 (List.length_eq_zero_iff.mp hzero)
  have hsome : ¬(cString str).length ≤ 0 := by
    rw [cString_of_plain hplain]
    omega
  rw [popListElement, redisPingRedis, redisPopListElement, hcommand, hlist,
    if_neg (by decide : ¬(1 : Int32) = 0)]
  show (if str.length ≠ 0 then _ else _) = _
  rw [if_pos hlength, if_neg hsome]
  rfl

/-- Over an allocated context the list is a stack, and a message does not come back unchanged. -/
theorem popListElement_addListElement (h : dic.redisContext engine = .ok c) (hplain : Plain str) :
    (addListElement true str 1 engine dic >>= fun r => popListElement true 1 engine r.2)
      = .ok (some (str ++ [0]), dic) := by
  rw [addListElement_allocated h hplain]
  have hcontext : Dic.redisContext engine { dic with list := str :: dic.list } = .ok c := h
  exact popListElement_allocated hcontext hplain rfl

/-! ### `GetDicEngine` -/

/-- The handle of an engine that has one: its context is there or was freed. -/
theorem redisContext_some (h : dic.context engine = some c) :
    dic.redisContext engine = if dic.allocated c then .ok c else .error .freed := by
  rw [Dic.redisContext, h]

/-- An engine without a context: `redisFree` reads the fields of a null pointer. -/
theorem getDicEngine_null (h : dic.context engine = none) (net : DicNet) :
    getDicEngine net (some engine) dic = .error .null := by
  have hcontext : dic.redisContext engine = .error .null := by
    rw [Dic.redisContext, h]
  simp only [getDicEngine, release, redisClose, Dic.redisFree, hcontext]
  rfl

/-- An engine with a context: `Release` frees it, unless an earlier call has, and the `PING`
behind it uses the freed context. -/
theorem getDicEngine_freed (h : dic.context engine = some c) (net : DicNet) :
    getDicEngine net (some engine) dic = .error .freed := by
  cases halloc : dic.allocated c with
  | false =>
    have hcontext : dic.redisContext engine = .error .freed := by
      rw [redisContext_some h, halloc]
      rfl
    simp only [getDicEngine, release, redisClose, Dic.redisFree, hcontext]
    rfl
  | true =>
    have hcontext : dic.redisContext engine = .ok c := by
      rw [redisContext_some h, halloc]
      rfl
    -- The pointer in the engine is the same as before, and what it points to is gone.
    have hkept : Dic.context { dic with allocated := Function.update dic.allocated c false } engine
        = some c := h
    have hdangling : Dic.redisContext engine
        { dic with allocated := Function.update dic.allocated c false } = .error .freed := by
      rw [redisContext_some hkept]
      simp
    have hrelease : release engine dic
        = .ok { dic with allocated := Function.update dic.allocated c false } := by
      rw [release, redisClose, Dic.redisFree, hcontext]
      rfl
    have hping : checkConnect (net.pong 0) engine
        { dic with allocated := Function.update dic.allocated c false } = .error .freed := by
      rw [checkConnect, redisPingRedis, Dic.redisCommand, hdangling]
      rfl
    rw [getDicEngine, hrelease]
    show (checkConnect (net.pong 0) engine _ >>= _) = _
    rw [hping]
    rfl

/-- `GetDicEngine` has no defined result for an engine. -/
theorem getDicEngine_undefined (net : DicNet) (engine : Nat) (dic : Dic) :
    ∃ fault, getDicEngine net (some engine) dic = .error fault := by
  cases h : dic.context engine with
  | none => exact ⟨_, getDicEngine_null h net⟩
  | some c => exact ⟨_, getDicEngine_freed h net⟩

end

/-! ### One call -/

/-- A batch call for no message. -/
def AsksNothing : QueueOp → Prop
  | .getMany count _ => count.toInt ≤ 0
  | _ => False

section

variable {q : BlockQueue} {op : QueueOp}

/-- A call that gets an engine out of the pool is undefined. -/
theorem queueStep_undefined {engine : Nat} (h : q.dic.pop.1 = some engine) (op : QueueOp) :
    ∃ fault, q.step op = .error fault := by
  obtain ⟨dic, hdic⟩ : ∃ dic, q.dic.pop = (some engine, dic) := ⟨q.dic.pop.2, by rw [← h]⟩
  -- Each operation first asks for an engine, and `getDicEngine` already fails on the freed one.
  cases op with
  | add str net =>
    obtain ⟨fault, hfault⟩ := getDicEngine_undefined net engine dic
    refine ⟨fault, ?_⟩
    rw [BlockQueue.step, addBlockQueueMessage, hdic]
    dsimp only
    rw [hfault]
    rfl
  | get net =>
    obtain ⟨fault, hfault⟩ := getDicEngine_undefined net engine dic
    refine ⟨fault, ?_⟩
    rw [BlockQueue.step, getBlockQueueMessage, hdic]
    dsimp only
    rw [hfault]
    rfl
  | getMany count net =>
    obtain ⟨fault, hfault⟩ := getDicEngine_undefined net engine dic
    refine ⟨fault, ?_⟩
    rw [BlockQueue.step, getBlockQueueMessages, hdic]
    dsimp only
    rw [hfault]
    rfl

/-- Without an engine, a call that adds or asks for a message uses the null pointer. -/
theorem queueStep_null (h : q.dic.pop.1 = none) (hop : ¬AsksNothing op) :
    q.step op = .error .null := by
  obtain ⟨dic, hdic⟩ : ∃ dic, q.dic.pop = (none, dic) := ⟨q.dic.pop.2, by rw [← h]⟩
  cases op with
  | add str net =>
    rw [BlockQueue.step, addBlockQueueMessage, hdic]
    rfl
  | get net =>
    rw [BlockQueue.step, getBlockQueueMessage, hdic]
    rfl
  | getMany count net =>
    obtain ⟨n, hn⟩ : ∃ n, count.toInt.toNat = n + 1 := by
      refine Nat.exists_eq_succ_of_ne_zero ?_
      have hpos : ¬count.toInt ≤ 0 := hop
      omega
    rw [BlockQueue.step, getBlockQueueMessages, hdic, hn]
    rfl

/-- The only calls with a defined end: the null pointer goes back to the end of the pool. -/
theorem queueStep_nothing (h : q.dic.pop.1 = none) (hop : AsksNothing op) :
    q.step op = .ok { q with dic := q.dic.pop.2.push none } := by
  obtain ⟨dic, hdic⟩ : ∃ dic, q.dic.pop = (none, dic) := ⟨q.dic.pop.2, by rw [← h]⟩
  cases op with
  | add str net => exact absurd hop id
  | get net => exact absurd hop id
  | getMany count net =>
    have hzero : count.toInt.toNat = 0 := by
      have hle : count.toInt ≤ 0 := hop
      omega
    rw [BlockQueue.step, getBlockQueueMessages, hdic, hzero]
    show Except.ok { q with dic := dic.push none, returned := q.returned ++ [] } = _
    rw [List.append_nil]

/-- What a call with a defined end says. -/
theorem queueStep_cases {q' : BlockQueue} (h : q.step op = .ok q') :
    AsksNothing op ∧ q.dic.pop.1 = none ∧ q' = { q with dic := q.dic.pop.2.push none } := by
  cases hpop : q.dic.pop.1 with
  | some engine =>
    obtain ⟨fault, hfault⟩ := queueStep_undefined hpop op
    rw [hfault] at h
    cases h
  | none =>
    by_cases hop : AsksNothing op
    · rw [queueStep_nothing hpop hop] at h
      cases h
      exact ⟨hop, rfl, rfl⟩
    · rw [queueStep_null hpop hop] at h
      cases h

/-! ### A sequence of calls -/

/-- The first engines of the pool, before and after a call that puts a null pointer back. -/
theorem noEngine_succ_iff (dic : Dic) (n : Nat) :
    (∀ e ∈ dic.dicConnPool.take (n + 1), e = none) ↔
      dic.pop.1 = none ∧ ∀ e ∈ (dic.pop.2.push none).dicConnPool.take n, e = none := by
  obtain ⟨pool, context, allocated, list⟩ := dic
  show (∀ e ∈ pool.take (n + 1), e = none) ↔ (lockedPop pool).1 = none ∧
    ∀ e ∈ ((lockedPop pool).2 ++ [none]).take n, e = none
  cases pool with
  | nil =>
    refine iff_of_true (by simp) ⟨rfl, ?_⟩
    intro e he
    exact List.mem_singleton.mp (List.mem_of_mem_take he)
  | cons engine pool =>
    rw [List.take_succ_cons, List.forall_mem_cons, lockedPop, List.take_append,
      List.forall_mem_append]
    refine and_congr_right fun _ => (and_iff_left ?_).symm
    intro e he
    exact List.mem_singleton.mp (List.mem_of_mem_take he)

/-- The calls that ask a pool without an engine for nothing come to an end, and return nothing. -/
theorem queueRun_nothing {ops : List QueueOp} (hops : ∀ op ∈ ops, AsksNothing op)
    (hpool : ∀ e ∈ q.dic.dicConnPool.take ops.length, e = none) :
    ∃ dic, q.run ops = .ok { q with dic := dic } := by
  induction ops generalizing q with
  | nil => exact ⟨q.dic, rfl⟩
  | cons op ops ih =>
    obtain ⟨hfirst, hrest⟩ := (noEngine_succ_iff q.dic ops.length).mp hpool
    obtain ⟨dic, hrun⟩ := ih (q := { q with dic := q.dic.pop.2.push none })
      (fun o ho => hops o (List.mem_cons_of_mem _ ho)) hrest
    refine ⟨dic, ?_⟩
    rw [BlockQueue.run, queueStep_nothing hfirst (hops op List.mem_cons_self)]
    exact hrun

/-- No others come to an end. -/
theorem nothing_of_queueRun {q' : BlockQueue} {ops : List QueueOp} (h : q.run ops = .ok q') :
    (∀ op ∈ ops, AsksNothing op) ∧ ∀ e ∈ q.dic.dicConnPool.take ops.length, e = none := by
  induction ops generalizing q with
  | nil => exact ⟨by simp, by simp⟩
  | cons op ops ih =>
    obtain ⟨q₁, hstep, hrun⟩ := bind_eq_ok_iff.mp h
    obtain ⟨hop, hfirst, rfl⟩ := queueStep_cases hstep
    obtain ⟨hops, hrest⟩ := ih hrun
    exact ⟨List.forall_mem_cons.mpr ⟨hop, hops⟩,
      (noEngine_succ_iff q.dic ops.length).mpr ⟨hfirst, hrest⟩⟩

end

/-- The calls come to an end, and the messages returned are, in order and byte for byte, the first
of the messages added. -/
def InOrder (dic : Dic) (ops : List QueueOp) : Prop :=
  ∃ q, (BlockQueue.start dic).run ops = .ok q ∧ q.returned <+: q.added

/-- The promise is kept exactly by the batch calls for no message that get a null pointer out of
the pool. Any other call uses a freed context or a null pointer. -/
theorem inOrder_iff (dic : Dic) (ops : List QueueOp) : InOrder dic ops ↔
    (∀ op ∈ ops, AsksNothing op) ∧ ∀ e ∈ dic.dicConnPool.take ops.length, e = none := by
  constructor
  · rintro ⟨q, hrun, -⟩
    exact nothing_of_queueRun hrun
  · rintro ⟨hops, hpool⟩
    obtain ⟨dic', hrun⟩ := queueRun_nothing (q := BlockQueue.start dic) hops hpool
    exact ⟨_, hrun, List.nil_prefix⟩

/-- A pool of one engine with a connection, on an absent key. -/
def onePool : Dic where
  dicConnPool := [some 0]
  context := fun _ => some 0
  allocated := fun c => c = 0
  list := []

/-- `a` is added, with every `PING` answered. -/
theorem not_inOrder_add : ¬InOrder onePool [.add (text ['a']) ⟨fun _ => true, []⟩] := by
  rintro ⟨q, hrun, -⟩
  have hpop : (BlockQueue.start onePool).dic.pop.1 = some 0 := rfl
  obtain ⟨fault, hfault⟩ := queueStep_undefined hpop (.add (text ['a']) ⟨fun _ => true, []⟩)
  rw [BlockQueue.run, hfault] at hrun
  cases hrun

end Mylib.Proofs.Storage
