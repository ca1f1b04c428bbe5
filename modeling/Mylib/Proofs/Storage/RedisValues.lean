import Mylib.Proofs.Base.IntegerPrint
import Mylib.Proofs.Storage.CounterRaces
import Mylib.Spec.Storage.RedisValues

/-!
# `Mylib.Proofs.Storage.RedisValues`: counters that move the wrong way, and values that grow

`RedisIncDecValue` hands a step below `-1` to `DECRBY` with its sign, so the counter moves up.
Every other step is the one that was asked for (`changesBy_iff`); a step of zero on an absent
key tests a pointer that was never written.

`GetValue` counts the terminator that it has put behind the value, and takes a value that
starts with a zero byte for an absent one. So no value comes back with its length
(`not_comesBack`).
-/

set_option autoImplicit false

namespace Mylib.Proofs.Storage.RedisValues

open Mylib.Proofs.Base
open Mylib.Proofs.Storage (signedDecimal_ne_nil signedDecimal_no_zero)
open Mylib.Spec.Base (Str)
open Mylib.Spec.Base.StringUtil
open Mylib.Spec.Storage.RedisValues

variable {σ : Type} {server : Server σ} {value : σ → Values}

/-! ### The text of a counter -/

/-- A printed counter is parsed back. -/
theorem strtoll_signedDecimal (c : Int64) : (strtoll (signedDecimal c.toInt)).value = c := by
  have hfits : Fits 64 c.toInt := ⟨c.le_toInt, c.toInt_lt⟩
  exact Int64.toInt_inj.mp ((strtoll_numeral (numeral_signedDecimal c.toInt)).2.2 hfits)

/-- A C string ends at its zero. -/
theorem cString_append_zero {t : Str} (h : ∀ b ∈ t, b ≠ 0) : cString (t ++ [0]) = t := by
  unfold cString
  rw [List.takeWhile_append_of_pos (by simpa using h)]
  exact List.append_nil t

/-- A text without a zero is passed as a whole. -/
theorem cString_of_no_zero {t : Str} (h : ∀ b ∈ t, b ≠ 0) : cString t = t :=
  List.takeWhile_eq_self_iff.mpr (by simpa using h)

/-- A printed counter fits the buffer. -/
theorem length_signedDecimal_le (c : Int64) : (signedDecimal c.toInt).length ≤ 21 := by
  have hlt : c.toInt.natAbs < 10 ^ 20 := by
    have hlo := c.le_toInt
    have hhi := c.toInt_lt
    omega
  have hdigits := (length_decimal_le_iff (by decide)).mpr hlt
  unfold signedDecimal
  split_ifs
  · rw [List.length_append]
    exact Nat.add_le_add (show 1 ≤ 1 from le_rfl) hdigits
  · omega

/-- The key has the integer `c`; an absent key has zero. -/
def Holds (v : Option Str) (c : Int64) : Prop :=
  v = some (signedDecimal c.toInt) ∨ (v = none ∧ c = 0)

/-- A key that holds a counter is read as it. -/
theorem Holds.counterOf {v : Option Str} {c : Int64} (h : Holds v c) : counterOf v = some c := by
  rcases h with rfl | ⟨rfl, rfl⟩
  · show (if signedDecimal c.toInt = signedDecimal (strtoll (signedDecimal c.toInt)).value.toInt
      then some (strtoll (signedDecimal c.toInt)).value else none) = some c
    rw [strtoll_signedDecimal, if_pos rfl]
  · rfl

/-- A counter has one integer. -/
theorem Holds.ne_of_ne {v : Option Str} {c : Int64} (h : Holds v c) {n : Int}
    (hne : n ≠ c.toInt) : v ≠ some (signedDecimal n) := by
  rcases h with rfl | ⟨rfl, rfl⟩
  · exact fun htext => hne (signedDecimal_injective (Option.some.inj htext)).symm
  · exact (Option.some_ne_none _).symm

/-! ### Reading a value -/

/-- A reply with a value that fits an `int`. -/
theorem reply_len_eq {reply : Reply} {v : Str} (hstr : reply.str = some v)
    (hlen : v.length < 2 ^ 31) : reply.len = v.length := by
  unfold Reply.len
  rw [hstr]
  exact Int.bmod_eq_of_le (by omega) (by omega)

/-- Reading a value sends one command. -/
theorem redisGetValue_eq (s : σ) (key : Str) : redisGetValue server s key
    = (gotOf (server [text ['G', 'E', 'T'], cString key] s).1).map
      fun got => (got, (server [text ['G', 'E', 'T'], cString key] s).2) := by
  show (gotOf (server [text ['G', 'E', 'T'], cString key] s).1).bind _ = _
  rw [Option.map_eq_bind]
  rfl

/-- Without a string there is no value and a length of zero. -/
theorem gotOf_none {reply : Reply} (hstr : reply.str = none) :
    gotOf reply = some ⟨0, none, some 0⟩ := by
  have hlen : reply.len = 0 := by
    unfold Reply.len
    rw [hstr]
  unfold gotOf
  rw [if_neg (not_not.mpr hlen)]

/-- A value that starts with a zero byte is taken for an absent one. -/
theorem gotOf_zero {reply : Reply} {v : Str} (hstr : reply.str = some (0 :: v))
    (hlen : reply.len ≠ 0) : gotOf reply = some ⟨0, none, none⟩ := by
  unfold gotOf
  rw [if_pos hlen, hstr]
  rfl

/-- Another value is copied, with a terminator behind it, which counts. -/
theorem gotOf_some {reply : Reply} {b : UInt8} {v : Str} (hstr : reply.str = some (b :: v))
    (hb : b ≠ 0) (hlt : (b :: v).length < 2 ^ 31 - 1) :
    gotOf reply = some ⟨1, some (b :: v ++ [0]), some ((b :: v).length + 1)⟩ := by
  have hlen := reply_len_eq hstr (by omega)
  have hpos : 0 < (b :: v).length := Nat.succ_pos _
  have hstart : (cString (b :: v)).length ≠ 0 := by
    unfold cString
    rw [List.takeWhile_cons_of_pos (by simpa using hb)]
    exact Nat.succ_ne_zero _
  unfold gotOf
  rw [if_pos (by omega), hstr]
  show (if (cString (b :: v)).length = 0 then _ else _) = _
  rw [if_neg hstart, if_neg (by omega), hlen, Int.toNat_natCast, List.take_length]

/-! ### A changed counter -/

/-- What is promised of a call of `RedisIncDecValue`, with the integer `c` at the key. -/
def ChangesBy (server : Server σ) (value : σ → Values) (s : σ) (key : Str) (c incby : Int64) :
    Prop :=
  ∀ old ret result s', redisIncDecValue server s key incby old = some (ret, result, s') →
    ret = 1 →
      value s' (cString key) = some (signedDecimal (c.toInt + incby.toInt)) ∧
        result = old.map fun _ => Int64.ofInt (c.toInt + incby.toInt)

/-- The command that is sent for a step. -/
def stepCommand (name : Str) (incby : Int64) : List Str :=
  if incby = 1 then [text ['I', 'N', 'C', 'R'], name]
  else if incby = -1 then [text ['D', 'E', 'C', 'R'], name]
  else if 0 < incby then [text ['I', 'N', 'C', 'R', 'B', 'Y'], name, signedDecimal incby.toInt]
  else [text ['D', 'E', 'C', 'R', 'B', 'Y'], name, signedDecimal incby.toInt]

/-- Changing a counter sends one command for its direction. -/
theorem redisIncDecValue_step {incby : Int64} (hne : incby ≠ 0) (s : σ) (key : Str)
    (old : Option Int64) : redisIncDecValue server s key incby old
      = some (1, old.map fun _ => (server (stepCommand (cString key) incby) s).1.integer,
        (server (stepCommand (cString key) incby) s).2) := by
  unfold redisIncDecValue stepCommand
  rw [if_neg hne]
  split_ifs <;> rfl

/-- From `-1` on, the command changes the counter by the step. -/
theorem counts_of_le (h : Redis server value) {incby : Int64} (hle : -1 ≤ incby.toInt)
    (hne : incby ≠ 0) (s : σ) (name : Str) :
    Counts value s name incby.toInt (server (stepCommand name incby) s) := by
  unfold stepCommand
  split_ifs with hone hminus hpos
  · rw [hone]
    exact h.incr s name
  · rw [hminus]
    exact h.decr s name
  · exact h.incrby s name incby
  · -- Nothing is left between `-1` and zero.
    have hle0 : ¬0 < incby.toInt := fun hlt => hpos (Int64.lt_iff_toInt_lt.mpr hlt)
    have hne0 : incby.toInt ≠ 0 := fun hzero => hne (Int64.toInt_inj.mp hzero)
    have hne1 : incby.toInt ≠ -1 := fun hone => hminus (Int64.toInt_inj.mp hone)
    omega

/-- The counter and the reply, where the sum stays in range. -/
theorem counts_eq {s : σ} {name : Str} {step : Int} {r : Reply × σ} {c : Int64}
    (h : Counts value s name step r) (hc : Holds (value s name) c)
    (hsum : -2 ^ 63 ≤ c.toInt + step ∧ c.toInt + step < 2 ^ 63) :
    r.1.integer = Int64.ofInt (c.toInt + step) ∧
      value r.2 name = some (signedDecimal (c.toInt + step)) := by
  unfold Counts stepped at h
  rw [hc.counterOf] at h
  dsimp only at h
  rw [if_pos hsum] at h
  refine ⟨h.1, ?_⟩
  rw [h.2, Function.update_self]

/-- `DECRBY` with a negative number moves the counter up, or leaves it. -/
theorem decrby_negative (h : Redis server value) {s : σ} {name : Str} {c : Int64}
    (hc : Holds (value s name) c) (incby : Int64) :
    let r := server [text ['D', 'E', 'C', 'R', 'B', 'Y'], name, signedDecimal incby.toInt] s
    value r.2 name = some (signedDecimal (c.toInt - incby.toInt)) ∨ value r.2 = value s := by
  by_cases hmin : incby = Int64.minValue
  · rw [hmin]
    exact .inr (h.decrby_min s name).2
  have hcounts := h.decrby s name incby hmin
  unfold Counts stepped at hcounts
  rw [hc.counterOf] at hcounts
  dsimp only at hcounts ⊢
  split_ifs at hcounts with hsum
  · refine .inl ?_
    rw [hcounts.2, Function.update_self, Int.sub_eq_add_neg]
  · exact .inr hcounts.2

/-- A step below `-1` never arrives. -/
theorem not_changesBy (h : Redis server value) {s : σ} {key : Str} {c incby : Int64}
    (hc : Holds (value s (cString key)) c) (hlt : incby.toInt < -1) :
    ¬ ChangesBy server value s key c incby := by
  intro hchanges
  have hne : incby ≠ 0 := by rintro rfl; exact absurd hlt (by decide)
  obtain ⟨hvalue, -⟩ := hchanges none _ _ _ (redisIncDecValue_step hne s key none) rfl
  -- A step below -1 is none of the three special cases, so the command sent is `DECRBY`.
  have hcommand : stepCommand (cString key) incby
      = [text ['D', 'E', 'C', 'R', 'B', 'Y'], cString key, signedDecimal incby.toInt] := by
    have hone : incby ≠ 1 := by rintro rfl; exact absurd hlt (by decide)
    have hminus : incby ≠ -1 := by rintro rfl; exact absurd hlt (by decide)
    have hpos : ¬0 < incby := fun hpos => by
      have hpos := Int64.lt_iff_toInt_lt.mp hpos
      rw [Int64.toInt_zero] at hpos
      omega
    unfold stepCommand
    rw [if_neg hone, if_neg hminus, if_neg hpos]
  rw [hcommand] at hvalue
  -- The server subtracts a negative step, which raises the counter, or refuses it.
  rcases decrby_negative h hc incby with hup | hstays
  · rw [hup] at hvalue
    have hsum := signedDecimal_injective (Option.some.inj hvalue)
    omega
  · rw [hstays] at hvalue
    exact hc.ne_of_ne (by omega) hvalue

/-- A step of zero reads the counter. -/
theorem redisIncDecValue_zero (h : Redis server value) {s : σ} {key : Str} {c : Int64}
    (hv : value s (cString key) = some (signedDecimal c.toInt)) (old : Option Int64) :
    ∃ s', redisIncDecValue server s key 0 old = some (1, old.map fun _ => c, s') ∧
      value s' = value s := by
  obtain ⟨hstr, hvalue⟩ := h.get s (cString key)
  obtain ⟨b, t, htext⟩ := List.exists_cons_of_ne_nil (signedDecimal_ne_nil c.toInt)
  have hzero := signedDecimal_no_zero c.toInt
  have hlen := length_signedDecimal_le c
  refine ⟨_, ?_, hvalue⟩
  have hback : (strtoll (cString (signedDecimal c.toInt ++ [0]))).value = c := by
    rw [cString_append_zero hzero, strtoll_signedDecimal]
  rw [htext] at hzero hlen hback
  have hgot := gotOf_some (hstr.trans (hv.trans (congrArg some htext)))
    (hzero b (List.mem_cons_self ..)) (by omega)
  show (redisGetValue server s key).bind _ = _
  rw [redisGetValue_eq, hgot]
  show some (1, old.map fun _ => (strtoll (cString (b :: t ++ [0]))).value, _) = _
  rw [hback]

/-- A step of zero on an absent key tests a pointer that was not written. -/
theorem redisIncDecValue_absent (h : Redis server value) {s : σ} {key : Str}
    (hv : value s (cString key) = none) (old : Option Int64) :
    redisIncDecValue server s key 0 old = none := by
  show (redisGetValue server s key).bind _ = _
  rw [redisGetValue_eq, gotOf_none ((h.get s (cString key)).1.trans hv)]
  rfl

/-- The step arrives exactly from `-1` on. Only a step of zero on an absent key is undefined. -/
theorem changesBy_iff (h : Redis server value) {s : σ} {key : Str} {c incby : Int64}
    (hc : Holds (value s (cString key)) c)
    (hsum : -2 ^ 63 ≤ c.toInt + incby.toInt ∧ c.toInt + incby.toInt < 2 ^ 63) :
    (ChangesBy server value s key c incby ↔ -1 ≤ incby.toInt) ∧
      ∀ old, redisIncDecValue server s key incby old = none ↔
        incby = 0 ∧ value s (cString key) = none := by
  -- A zero step sends `GET`, every other one a counting command.
  by_cases hzero : incby = 0
  · subst hzero
    -- The key holds a number, or is absent and counts as zero.
    rcases hc with hv | ⟨hv, rfl⟩
    · refine ⟨iff_of_true ?_ (by decide), fun old => ?_⟩
      · intro old ret result s' hrun _
        obtain ⟨s₀, hread, hvalue⟩ := redisIncDecValue_zero h hv old
        cases hread.symm.trans hrun
        rw [hvalue, Int64.toInt_zero, Int.add_zero, Int64.ofInt_toInt]
        exact ⟨hv, rfl⟩
      · obtain ⟨s₀, hread, -⟩ := redisIncDecValue_zero h hv old
        rw [hread, hv]
        simp
    -- An absent key: `GET` replies nil, and a pointer that was never written is tested.
    · refine ⟨iff_of_true ?_ (by decide), fun old => ?_⟩
      · intro old ret result s' hrun _
        rw [redisIncDecValue_absent h hv] at hrun
        cases hrun
      · rw [redisIncDecValue_absent h hv, hv]
        simp
  · refine ⟨⟨fun hchanges => ?_, fun hle => ?_⟩, fun old => ?_⟩
    · by_contra hlt
      exact not_changesBy h hc (not_le.mp hlt) hchanges
    · intro old ret result s' hrun _
      obtain ⟨hreply, hvalue⟩ := counts_eq (counts_of_le h hle hzero s (cString key)) hc hsum
      rw [redisIncDecValue_step hzero, hreply] at hrun
      cases hrun
      exact ⟨hvalue, rfl⟩
    · rw [redisIncDecValue_step hzero]
      simp [hzero]

/-! ### A server -/

/-- The reply to a change of a counter. -/
def answer (values : Values) : Option (Int64 × Values) → Reply × Values
  | some (c, values) => (⟨c, none⟩, values)
  | none => (⟨0, some (text ['E', 'R', 'R'])⟩, values)

/-- A server that is nothing but its string values. -/
def memory : Server Values := fun argv values =>
  match argv with
  | [_] => (⟨0, some (text ['P', 'O', 'N', 'G'])⟩, values)
  | [command, name] =>
    if command = text ['G', 'E', 'T'] then (⟨0, values name⟩, values)
    else answer values
      (stepped values name (if command = text ['I', 'N', 'C', 'R'] then 1 else -1))
  | [command, name, arg] =>
    let n := (strtoll arg).value
    if command = text ['S', 'E', 'T'] then
      (⟨0, some (text ['O', 'K'])⟩, Function.update values name (some arg))
    else if command = text ['I', 'N', 'C', 'R', 'B', 'Y'] then
      answer values (stepped values name n.toInt)
    else if n = Int64.minValue then answer values none
    else answer values (stepped values name (-n.toInt))
  | _ => answer values none

/-- The answer to a change is what the Redis meaning says. -/
theorem counts_answer (values : Values) (name : Str) (step : Int) :
    Counts id values name step (answer values (stepped values name step)) := by
  unfold Counts
  cases hstep : stepped (id values) name step with
  | none =>
    rw [show stepped values name step = none from hstep]
    exact ⟨rfl, rfl⟩
  | some counted =>
    rw [show stepped values name step = some counted from hstep]
    exact ⟨rfl, rfl⟩

/-- The server in memory adds. -/
theorem memory_incrby (values : Values) (name : Str) (n : Int64) :
    memory [text ['I', 'N', 'C', 'R', 'B', 'Y'], name, signedDecimal n.toInt] values
      = answer values (stepped values name n.toInt) := by
  show answer values (stepped values name (strtoll (signedDecimal n.toInt)).value.toInt) = _
  rw [strtoll_signedDecimal]

/-- The server in memory subtracts, except the number that has no negative. -/
theorem memory_decrby (values : Values) (name : Str) (n : Int64) :
    memory [text ['D', 'E', 'C', 'R', 'B', 'Y'], name, signedDecimal n.toInt] values
      = if n = Int64.minValue then answer values none
        else answer values (stepped values name (-n.toInt)) := by
  show (if (strtoll (signedDecimal n.toInt)).value = Int64.minValue then answer values none
    else answer values (stepped values name (-(strtoll (signedDecimal n.toInt)).value.toInt))) = _
  rw [strtoll_signedDecimal]

/-- The server in memory has the Redis meaning. -/
theorem redis_memory : Redis memory id where
  ping _ := ⟨rfl, rfl⟩
  set _ _ _ := rfl
  get _ _ := ⟨rfl, rfl⟩
  incr values name := counts_answer values name 1
  decr values name := counts_answer values name (-1)
  incrby values name n := by
    rw [memory_incrby]
    exact counts_answer values name n.toInt
  decrby values name n hmin := by
    rw [memory_decrby, if_neg hmin]
    exact counts_answer values name (-n.toInt)
  decrby_min values name := by
    dsimp only
    rw [memory_decrby, if_pos rfl]
    exact ⟨rfl, rfl⟩

/-! ### Values that are read back -/

/-- What is promised of `SetValue` and `GetValue`: both return `true`, with the bytes and the
length that were stored. -/
def ComesBack (server : Server σ) (s : σ) (key val : Str) : Prop :=
  ∃ s₁ s₂ block n, setValue server s key key.length val val.length = some (true, s₁) ∧
    getValue server s₁ key = some (true, some block, some n, s₂) ∧
      n = val.length ∧ block.take n = val

/-- The length that is reported is the length of the reply and one more. -/
theorem gotOf_ret {reply : Reply} {v : Str} {block : Option Str} {n : Nat}
    (hstr : reply.str = some v) (hgot : gotOf reply = some ⟨1, block, some n⟩) :
    (n : Int) = (v.length : Int).bmod (2 ^ 32) + 1 := by
  have hlen : reply.len = (v.length : Int).bmod (2 ^ 32) := by
    unfold Reply.len
    rw [hstr]
  unfold gotOf at hgot
  rw [hstr] at hgot
  dsimp only [Option.bind_some, bind] at hgot
  split_ifs at hgot with hsome hzero hrange
  · cases hgot
  · cases hgot
    omega
  · cases hgot

/-- A PING goes through and changes nothing. -/
theorem ping_run (h : Redis server value) (s : σ) :
    redisPingRedis server s = some (1, (server [text ['P', 'I', 'N', 'G']] s).2) := by
  show (server [text ['P', 'I', 'N', 'G']] s).1.str.bind _ = _
  rw [(h.ping s).1]
  rfl

/-- The value is stored under the key without its terminator. -/
theorem setValue_eq (h : Redis server value) (s : σ) (key val : Str) :
    ∃ s₁, setValue server s key key.length val val.length = some (true, s₁) ∧
      value s₁ = Function.update (value s) key (some val) := by
  have hformat : redisvFormatCommand (text ['S', 'E', 'T', ' ', '%', 'b', ' ', '%', 'b'])
      [.bytes key key.length, .bytes val val.length] = some [text ['S', 'E', 'T'], key, val] := by
    simp [redisvFormatCommand, text, formatLoop]
  refine ⟨_, ?_, (h.set _ key val).trans (congrArg (Function.update · key (some val))
    (h.ping s).2)⟩
  unfold setValue redisAddValue redisCommand
  rw [ping_run h, hformat]
  rfl

/-- What reading a key answers. -/
theorem getValue_eq (h : Redis server value) (s : σ) (key : Str) :
    ∃ s₂ reply, reply.str = value s (cString key) ∧ value s₂ = value s ∧
      getValue server s key
        = (gotOf reply).map fun got => (got.ret == 1, got.val, got.valLen, s₂) := by
  obtain ⟨hstr, hvalue⟩ := h.get (server [text ['P', 'I', 'N', 'G']] s).2 (cString key)
  rw [(h.ping s).2] at hstr hvalue
  refine ⟨_, _, hstr, hvalue, ?_⟩
  unfold getValue
  rw [ping_run h]
  show (redisGetValue server _ key).bind _ = _
  rw [redisGetValue_eq, Option.bind_map, Option.map_eq_bind]
  rfl

/-- What `GetValue` works on after `SetValue`. -/
theorem getValue_stored (h : Redis server value) (s : σ) {key : Str} (hkey : 0 ∉ key)
    (val : Str) : ∃ s₁ s₂ reply,
      setValue server s key key.length val val.length = some (true, s₁) ∧ reply.str = some val ∧
        getValue server s₁ key
          = (gotOf reply).map fun got => (got.ret == 1, got.val, got.valLen, s₂) := by
  obtain ⟨s₁, hset, hstored⟩ := setValue_eq h s key val
  obtain ⟨s₂, reply, hstr, -, hget⟩ := getValue_eq h s₁ key
  have hname : cString key = key :=
    cString_of_no_zero fun b hb hzero => hkey (hzero ▸ hb)
  rw [hname, hstored, Function.update_self] at hstr
  exact ⟨s₁, s₂, reply, hset, hstr, hget⟩

/-- No value comes back, for the stored bytes have one more. -/
theorem not_comesBack_of (h : Redis server value) (s : σ) {key : Str} (hkey : 0 ∉ key)
    (val : Str) : ¬ ComesBack server s key val := by
  obtain ⟨s₁, s₂, reply, hset, hstr, hget⟩ := getValue_stored h s hkey val
  rintro ⟨s₁', s₂', block, n, hset', hget', hn, -⟩
  cases hset.symm.trans hset'
  rw [hget] at hget'
  obtain ⟨⟨ret, gotVal, gotLen⟩, hgot, hparts⟩ := Option.map_eq_some_iff.mp hget'
  simp only [Prod.mk.injEq, beq_iff_eq] at hparts
  obtain ⟨rfl, rfl, rfl, -⟩ := hparts
  -- Modulo `2 ^ 32` the length is one too large, too.
  have hlen := gotOf_ret hstr hgot
  rw [Int.bmod_def] at hlen
  split_ifs at hlen <;> omega

/-- No value comes back with its length. What comes back is the value with a terminator, unless
it starts with a zero byte: then nothing does. -/
theorem not_comesBack (h : Redis server value) (s : σ) {key val : Str} (hkey : 0 ∉ key)
    (hval : val ≠ []) :
    ¬ ComesBack server s key val ∧
      (val.length < 2 ^ 31 - 1 → ∃ s₁ s₂,
        setValue server s key key.length val val.length = some (true, s₁) ∧
          getValue server s₁ key = some (if val.head? = some 0 then (false, none, none, s₂)
            else (true, some (val ++ [0]), some (val.length + 1), s₂))) := by
  refine ⟨not_comesBack_of h s hkey val, fun hlt => ?_⟩
  obtain ⟨s₁, s₂, reply, hset, hstr, hget⟩ := getValue_stored h s hkey val
  refine ⟨s₁, s₂, hset, ?_⟩
  obtain ⟨b, v, rfl⟩ := List.exists_cons_of_ne_nil hval
  rw [hget]
  by_cases hb : b = 0
  · subst hb
    have hlen := reply_len_eq hstr (by omega)
    rw [gotOf_zero hstr (by rw [hlen]; simp; omega)]
    rfl
  · have hhead : (b :: v).head? ≠ some 0 := fun hhead => hb (Option.some.inj hhead)
    rw [gotOf_some hstr hb hlt, if_neg hhead]
    rfl

/-- The key `k` has the integer 5. -/
def five : Values := fun name => if name = [107] then some [53] else none

/-- The example's key holds five. -/
theorem holds_five : Holds (five (cString [107])) 5 := .inl (by decide)

/-- Adding three to it. -/
theorem changesBy_three : Redis memory id ∧ Holds (five (cString [107])) 5 ∧
    (-2 ^ 63 ≤ (5 : Int64).toInt + (3 : Int64).toInt ∧
      (5 : Int64).toInt + (3 : Int64).toInt < 2 ^ 63) ∧ ChangesBy memory id five [107] 5 3 :=
  ⟨redis_memory, holds_five, by decide,
    (changesBy_iff redis_memory (s := five) holds_five (by decide)).1.mpr (by decide)⟩

/-- Two less than 5 is 7. -/
theorem not_changesBy_minus_two : Redis memory id ∧ Holds (five (cString [107])) 5 ∧
    ¬ ChangesBy memory id five [107] 5 (-2) :=
  ⟨redis_memory, holds_five, not_changesBy redis_memory (s := five) holds_five (by decide)⟩

/-- The value `A` comes back as two bytes. -/
theorem not_comesBack_letter : Redis memory id ∧ (0 : UInt8) ∉ ([107] : Str) ∧
    ([65] : Str) ≠ [] ∧ ¬ ComesBack memory five [107] [65] :=
  ⟨redis_memory, by decide, by decide,
    (not_comesBack redis_memory five (by decide) (by decide)).1⟩

/-- A zero byte and `A` do not come back at all. -/
theorem not_comesBack_zero : Redis memory id ∧ ¬ ComesBack memory five [107] [0, 65] ∧
    ¬ ComesBack memory five [107] [65] := by
  have hkey : (0 : UInt8) ∉ ([107] : Str) := by decide
  exact ⟨redis_memory, not_comesBack_of redis_memory five hkey _,
    not_comesBack_of redis_memory five hkey _⟩

end Mylib.Proofs.Storage.RedisValues
