import Mylib.Proofs.Base.IntegerTexts
import Mylib.Spec.Storage.RedisHash

/-!
# `Mylib.Proofs.Storage.HashAppends`: when an append to a hash is lost

`AddHashRadomElement` asks for the size of the hash and stores under that number with
`HSETNX`, whose reply it throws away. When another client has stored in between, the field
is taken, nothing is stored, and the call returns `true` all the same. And the value is sent
with `%s`, so what lies behind a zero byte is not stored.

`Lossy` is the step that goes wrong in one of these ways.

1. `Indexed` holds in every state: the fields are `0`, `1`, and so on, and no client has a
   size above the true one.
2. `Appended` holds as long as no `HSETNX` comes late: the values sent stand behind the
   initial ones, in the order of the calls.
3. From a late `HSETNX` on the hash is shorter than the calls make it (`length_lt_of_late`).

`allStored_iff_lossless` joins them for all runs.
-/

set_option autoImplicit false

namespace Mylib.Proofs.Storage

open Mylib.Spec.Base (Str)
open Mylib.Spec.Base.StringUtil
open Mylib.Spec.Storage

/-- Different indices are different fields. -/
theorem decimal_injective : Function.Injective decimal :=
  Function.LeftInverse.injective Base.digitsValue_decimal

/-! ### What a command can do -/

section

variable {ι : Type} [DecidableEq ι]

/-- The steps of a client: nothing, a `PING` without an answer, a `PING`, an `HLEN` and an
`HSETNX`. -/
theorem hashStep_cases (w : HashWorld ι) (i : ι) (pong : Bool) :
    w.step i pong = w ∨
    (∃ calls, w.step i pong = { w with todo := Function.update w.todo i calls }) ∨
    (∃ v calls, w.step i pong =
      { w with
          todo := Function.update w.todo i calls
          pc := Function.update w.pc i (.pinged v) }) ∨
    (∃ v, w.step i pong = { w with pc := Function.update w.pc i (.sized v w.hash.length) }) ∨
    (∃ v currentPos, w.pc i = .sized v currentPos ∧ w.step i pong =
      { w with
          hash := redisHsetnx w.hash (decimal currentPos) v.sent
          pc := Function.update w.pc i .idle
          added := w.added ++ [v] }) := by
  unfold HashWorld.step
  -- A call pings, takes the length, and then writes at the length it took.
  cases hpc : w.pc i with
  | idle =>
    cases htodo : w.todo i with
    | nil => exact .inl rfl
    | cons v calls =>
      cases pong with
      | false => exact .inr (.inl ⟨calls, rfl⟩)
      | true => exact .inr (.inr (.inl ⟨v, calls, rfl⟩))
  | pinged v => exact .inr (.inr (.inr (.inl ⟨v, rfl⟩)))
  | sized v currentPos => exact .inr (.inr (.inr (.inr ⟨v, currentPos, rfl, rfl⟩)))

/-! ### What holds in every state -/

/-- The fields are the numbers below the size, in order. -/
def Numbered (hash : Hash) : Prop := hash.map Prod.fst = (List.range hash.length).map decimal

/-- The invariant of all runs. A client's size is at most the true one, as fields are never
taken away. -/
structure Indexed (w : HashWorld ι) : Prop where
  fields : Numbered w.hash
  sizes : ∀ i v currentPos, w.pc i = .sized v currentPos → currentPos ≤ w.hash.length

/-- The fields of a numbered hash are the numbers below its size. -/
theorem Numbered.mem_iff {hash : Hash} (h : Numbered hash) (field : Str) :
    field ∈ hash.map Prod.fst ↔ ∃ j < hash.length, field = decimal j := by
  rw [h, List.mem_map]
  simp only [List.mem_range, eq_comm]

/-- `HSETNX` under a number: it stores exactly when the number is the size. -/
theorem Numbered.hsetnx {hash : Hash} (h : Numbered hash) {currentPos : Nat}
    (hle : currentPos ≤ hash.length) (value : Str) :
    (currentPos < hash.length ∧ redisHsetnx hash (decimal currentPos) value = hash) ∨
      (currentPos = hash.length ∧ redisHsetnx hash (decimal currentPos) value
        = hash ++ [(decimal hash.length, value)]) := by
  have hmem := h.mem_iff (decimal currentPos)
  rcases Nat.lt_or_eq_of_le hle with hlt | rfl
  · exact .inl ⟨hlt, if_pos (hmem.mpr ⟨currentPos, hlt, rfl⟩)⟩
  · refine .inr ⟨rfl, if_neg fun hin => ?_⟩
    obtain ⟨j, hj, hsame⟩ := hmem.mp hin
    exact absurd (decimal_injective hsame) (Nat.ne_of_gt hj)

/-- The next number may be added as a field. -/
theorem Numbered.append {hash : Hash} (h : Numbered hash) (value : Str) :
    Numbered (hash ++ [(decimal hash.length, value)]) := by
  unfold Numbered at h ⊢
  rw [List.map_append, h, List.length_append, List.length_singleton, List.range_succ,
    List.map_append]
  rfl

omit [DecidableEq ι] in
/-- At the start the hash is numbered. -/
theorem Indexed.start {hash : Hash} (h : Numbered hash) (calls : ι → List ValArg) :
    Indexed (HashWorld.start hash calls) where
  fields := h
  sizes := by simp [HashWorld.start]

/-- A step keeps the world indexed. -/
theorem Indexed.step {w : HashWorld ι} (h : Indexed w) (i : ι) (pong : Bool) :
    Indexed (w.step i pong) := by
  -- The sizes of the other clients stay, and the hash does not get smaller.
  have hsizes : ∀ (hash : Hash) (p : AddPc), w.hash.length ≤ hash.length →
      (∀ v currentPos, p = .sized v currentPos → currentPos ≤ hash.length) →
      ∀ j v currentPos, Function.update w.pc i p j = .sized v currentPos →
        currentPos ≤ hash.length := by
    intro hash p hle hp j v currentPos hj
    by_cases hji : j = i
    · subst hji
      exact hp v currentPos (by simpa using hj)
    · exact (h.sizes j v currentPos (by simpa [hji] using hj)).trans hle
  rcases hashStep_cases w i pong with hs | ⟨calls, hs⟩ | ⟨v, calls, hs⟩ | ⟨v, hs⟩ |
    ⟨v, currentPos, hpc, hs⟩
  · rwa [hs]
  · rw [hs]
    exact ⟨h.fields, h.sizes⟩
  · rw [hs]
    exact ⟨h.fields, hsizes _ _ (Nat.le_refl _) (by simp)⟩
  · rw [hs]
    refine ⟨h.fields, hsizes _ _ (Nat.le_refl _) fun u pos hu => ?_⟩
    cases hu
    exact Nat.le_refl _
  · rw [hs]
    rcases h.fields.hsetnx (h.sizes i v currentPos hpc) v.sent with ⟨-, hset⟩ | ⟨-, hset⟩
    · rw [hset]
      exact ⟨h.fields, hsizes _ _ (Nat.le_refl _) (by simp)⟩
    · rw [hset]
      exact ⟨h.fields.append _, hsizes _ _ (by simp) (by simp)⟩

/-! ### Steps that lose a value -/

/-- The step of client `i` is an `HSETNX` after another client has stored. -/
def Late (w : HashWorld ι) (i : ι) : Prop :=
  ∃ v currentPos, w.pc i = .sized v currentPos ∧ currentPos ≠ w.hash.length

/-- The step of client `i` is an `HSETNX` whose value is not the C string that is sent. -/
def Cut (w : HashWorld ι) (i : ι) : Prop :=
  ∃ v currentPos, w.pc i = .sized v currentPos ∧ v.sent ≠ v.value

/-- No step of the run is `Bad`. -/
def Never (Bad : HashWorld ι → ι → Prop) : HashWorld ι → List (ι × Bool) → Prop
  | _, [] => True
  | w, s :: schedule => ¬Bad w s.1 ∧ Never Bad (w.step s.1 s.2) schedule

/-- No step of the run loses a value. -/
def Lossless (w : HashWorld ι) (schedule : List (ι × Bool)) : Prop :=
  Never (fun w i => Late w i ∨ Cut w i) w schedule

/-- A step adds to the returned calls at the end, if at all. -/
theorem added_step (w : HashWorld ι) (i : ι) (pong : Bool) :
    ((w.step i pong).added = w.added ∧ (w.step i pong).hash = w.hash) ∨
      ∃ v currentPos, w.pc i = .sized v currentPos ∧ (w.step i pong).added = w.added ++ [v] ∧
        (w.step i pong).hash = redisHsetnx w.hash (decimal currentPos) v.sent := by
  rcases hashStep_cases w i pong with hs | ⟨calls, hs⟩ | ⟨v, calls, hs⟩ | ⟨v, hs⟩ |
    ⟨v, currentPos, hpc, hs⟩
  · exact .inl (by rw [hs]; exact ⟨rfl, rfl⟩)
  · exact .inl (by rw [hs]; exact ⟨rfl, rfl⟩)
  · exact .inl (by rw [hs]; exact ⟨rfl, rfl⟩)
  · exact .inl (by rw [hs]; exact ⟨rfl, rfl⟩)
  · exact .inr ⟨v, currentPos, hpc, by rw [hs]; exact ⟨rfl, rfl⟩⟩

/-- What a call has added stays on record. -/
theorem mem_added_run {w : HashWorld ι} {v : ValArg} (h : v ∈ w.added)
    (schedule : List (ι × Bool)) : v ∈ (w.run schedule).added := by
  induction schedule generalizing w with
  | nil => exact h
  | cons s schedule ih =>
    refine ih ?_
    rcases added_step w s.1 s.2 with ⟨hadded, -⟩ | ⟨u, -, -, hadded, -⟩
    · rwa [hadded]
    · rw [hadded]
      exact List.mem_append_left _ h

/-- A run is lossless when none of its `HSETNX` comes late and all values are what is sent. -/
theorem lossless_iff_never {w : HashWorld ι} (h : ∀ v ∈ w.added, v.sent = v.value)
    (schedule : List (ι × Bool)) :
    Lossless w schedule ↔
      Never Late w schedule ∧ ∀ v ∈ (w.run schedule).added, v.sent = v.value := by
  induction schedule generalizing w with
  | nil => exact ⟨fun _ => ⟨trivial, h⟩, fun _ => trivial⟩
  | cons s schedule ih =>
    have hnext : ¬Cut w s.1 → ∀ v ∈ (w.step s.1 s.2).added, v.sent = v.value := by
      intro hcut v hv
      rcases added_step w s.1 s.2 with ⟨hadded, -⟩ | ⟨u, pos, hpc, hadded, -⟩
      · exact h v (hadded ▸ hv)
      · rw [hadded] at hv
        rcases List.mem_append.mp hv with hv | hv
        · exact h v hv
        · obtain rfl := List.mem_singleton.mp hv
          by_contra hne
          exact hcut ⟨_, pos, hpc, hne⟩
    constructor
    · rintro ⟨hgood, hrest⟩
      have hboth := (ih (hnext fun hcut => hgood (.inr hcut))).mp hrest
      exact ⟨⟨fun hlate => hgood (.inl hlate), hboth.1⟩, hboth.2⟩
    · rintro ⟨⟨hlate, hrest⟩, hall⟩
      -- A cut value would be among the returned calls at the end.
      have hcut : ¬Cut w s.1 := by
        rintro ⟨v, pos, hpc, hne⟩
        have hmem : v ∈ (w.step s.1 s.2).added := by
          simp [HashWorld.step, hpc]
        exact hne (hall v (mem_added_run hmem schedule))
      exact ⟨not_or.mpr ⟨hlate, hcut⟩, (ih (hnext hcut)).mpr ⟨hrest, hall⟩⟩

/-! ### Runs in which no `HSETNX` comes late -/

/-- The values sent stand behind the initial ones, in the order of the calls. -/
def Appended (hash : Hash) (w : HashWorld ι) : Prop :=
  w.hash.map Prod.snd = hash.map Prod.snd ++ w.added.map ValArg.sent

/-- A step that is not late appends or changes nothing. -/
theorem Appended.step {hash : Hash} {w : HashWorld ι} (h : Appended hash w) (hw : Indexed w)
    {i : ι} (hlate : ¬Late w i) (pong : Bool) : Appended hash (w.step i pong) := by
  unfold Appended
  rcases added_step w i pong with ⟨hadded, hhash⟩ | ⟨v, currentPos, hpc, hadded, hhash⟩
  · rw [hadded, hhash]
    exact h
  · rcases hw.fields.hsetnx (hw.sizes i v currentPos hpc) v.sent with ⟨hlt, -⟩ | ⟨-, hset⟩
    · exact absurd ⟨v, currentPos, hpc, Nat.ne_of_lt hlt⟩ hlate
    · rw [hadded, hhash, hset, List.map_append, h, List.map_append, List.append_assoc]
      rfl

/-- A schedule without a late step only appends. -/
theorem Appended.run {hash : Hash} {w : HashWorld ι} (h : Appended hash w) (hw : Indexed w)
    {schedule : List (ι × Bool)} (hnever : Never Late w schedule) :
    Appended hash (w.run schedule) := by
  induction schedule generalizing w with
  | nil => exact h
  | cons s schedule ih =>
    exact ih (h.step hw hnever.1 s.2) (hw.step s.1 s.2) hnever.2

/-- A run keeps the world indexed. -/
theorem Indexed.run {w : HashWorld ι} (h : Indexed w) (schedule : List (ι × Bool)) :
    Indexed (w.run schedule) := by
  induction schedule generalizing w with
  | nil => exact h
  | cons s schedule ih => exact ih (h.step s.1 s.2)

/-! ### Runs with a late `HSETNX` -/

/-- A step adds at most as many fields as calls. -/
theorem Indexed.length_step {w : HashWorld ι} (h : Indexed w) (i : ι) (pong : Bool) :
    (w.step i pong).hash.length + w.added.length
      ≤ w.hash.length + (w.step i pong).added.length := by
  rcases added_step w i pong with ⟨hadded, hhash⟩ | ⟨v, currentPos, hpc, hadded, hhash⟩
  · rw [hadded, hhash]
  · rcases h.fields.hsetnx (h.sizes i v currentPos hpc) v.sent with ⟨-, hset⟩ | ⟨-, hset⟩
    · rw [hadded, hhash, hset, List.length_append]
      omega
    · rw [hadded, hhash, hset, List.length_append, List.length_append]
      simp only [List.length_singleton]
      omega

/-- The hash grows by at most one for each call that has added. -/
theorem Indexed.length_run {w : HashWorld ι} (h : Indexed w) (schedule : List (ι × Bool)) :
    (w.run schedule).hash.length + w.added.length
      ≤ w.hash.length + (w.run schedule).added.length := by
  induction schedule generalizing w with
  | nil => exact Nat.le_refl _
  | cons s schedule ih =>
    have hfirst := h.length_step s.1 s.2
    have hrest : ((w.step s.1 s.2).run schedule).hash.length + (w.step s.1 s.2).added.length
        ≤ (w.step s.1 s.2).hash.length + ((w.step s.1 s.2).run schedule).added.length :=
      ih (h.step s.1 s.2)
    show ((w.step s.1 s.2).run schedule).hash.length + w.added.length
      ≤ w.hash.length + ((w.step s.1 s.2).run schedule).added.length
    omega

/-- A late `HSETNX` adds a call and no field, and no later step makes up for that. -/
theorem Indexed.length_lt_of_late {w : HashWorld ι} (h : Indexed w)
    {schedule : List (ι × Bool)} (hlate : ¬Never Late w schedule) :
    (w.run schedule).hash.length + w.added.length
      < w.hash.length + (w.run schedule).added.length := by
  induction schedule generalizing w with
  | nil => exact absurd trivial hlate
  | cons s schedule ih =>
    have hfirst := h.length_step s.1 s.2
    have hrest : ((w.step s.1 s.2).run schedule).hash.length + (w.step s.1 s.2).added.length
        ≤ (w.step s.1 s.2).hash.length + ((w.step s.1 s.2).run schedule).added.length :=
      (h.step s.1 s.2).length_run schedule
    show ((w.step s.1 s.2).run schedule).hash.length + w.added.length
      < w.hash.length + ((w.step s.1 s.2).run schedule).added.length
    by_cases hnow : Late w s.1
    · obtain ⟨v, currentPos, hpc, hne⟩ := hnow
      have hstep : (w.step s.1 s.2).added = w.added ++ [v] ∧
          (w.step s.1 s.2).hash = redisHsetnx w.hash (decimal currentPos) v.sent := by
        simp [HashWorld.step, hpc]
      -- The field exists already, so `HSETNX` stores nothing and the call still returns `true`.
      rcases h.fields.hsetnx (h.sizes s.1 v currentPos hpc) v.sent with ⟨-, hset⟩ | ⟨heq, -⟩
      · rw [hstep.1, hstep.2, hset, List.length_append, List.length_singleton] at hrest
        rw [hstep.2, hset] at hfirst
        omega
      · exact absurd heq hne
    · have hlater := ih (h.step s.1 s.2) fun hnever => hlate ⟨hnow, hnever⟩
      omega

/-! ### What is promised -/

/-- Every call that has returned `true` has a field of its own, which holds its value, and the
fields are the numbers below the initial size plus the number of these calls. -/
structure AllStored (hash : Hash) (w : HashWorld ι) : Prop where
  own : ∃ place : Fin w.added.length → Str, Function.Injective place ∧
    ∀ c, place c ∉ hash.map Prod.fst ∧ (place c, (w.added.get c).value) ∈ w.hash
  fields : ∀ field, field ∈ w.hash.map Prod.fst ↔
    ∃ j < hash.length + w.added.length, field = decimal j

/-- The pairs of a hash with numbered fields. -/
theorem Numbered.mem_pair_iff {hash : Hash} (h : Numbered hash) (field value : Str) :
    (field, value) ∈ hash ↔ ∃ j, field = decimal j ∧ (hash.map Prod.snd)[j]? = some value := by
  have hfield : ∀ j p, hash[j]? = some p → p.1 = decimal j := by
    intro j p hp
    have hlt : j < hash.length := (List.getElem?_eq_some_iff.mp hp).1
    have hname : (hash.map Prod.fst)[j]? = some p.1 := by
      rw [List.getElem?_map, hp]
      rfl
    rw [h, List.getElem?_map, List.getElem?_range hlt] at hname
    exact (Option.some.inj hname).symm
  rw [List.mem_iff_getElem?]
  constructor
  · rintro ⟨j, hj⟩
    refine ⟨j, hfield j _ hj, ?_⟩
    rw [List.getElem?_map, hj]
    rfl
  · rintro ⟨j, rfl, hj⟩
    rw [List.getElem?_map, Option.map_eq_some_iff] at hj
    obtain ⟨p, hp, rfl⟩ := hj
    exact ⟨j, by rw [hp, ← hfield j p hp]⟩

/-- The fields tell the size. -/
theorem Numbered.length_eq {hash : Hash} (h : Numbered hash) {n : Nat}
    (hfields : ∀ field, field ∈ hash.map Prod.fst ↔ ∃ j < n, field = decimal j) :
    hash.length = n := by
  have hiff : ∀ k, k < hash.length ↔ k < n := by
    intro k
    have hk := hfields (decimal k)
    rw [h.mem_iff] at hk
    have hbelow : ∀ m, (∃ j < m, decimal k = decimal j) ↔ k < m := fun m =>
      ⟨fun ⟨j, hj, hsame⟩ => decimal_injective hsame ▸ hj, fun hk => ⟨k, hk, rfl⟩⟩
    rwa [hbelow, hbelow] at hk
  have hself := hiff hash.length
  have hn := hiff n
  omega

/-- Without a zero byte the value is a part of what is sent. -/
theorem value_prefix_sent {v : ValArg} (h : ∀ b ∈ v.value, b ≠ 0) : v.value <+: v.sent := by
  have hsplit : v.sent = v.value ++ (v.val.drop v.valLen).takeWhile (· ≠ 0) := by
    unfold ValArg.sent
    conv_lhs => rw [← List.take_append_drop v.valLen v.val]
    exact List.takeWhile_append_of_pos fun b hb => by simpa using h b hb
  rw [hsplit]
  exact List.prefix_append _ _

/-- No zero is sent. -/
theorem sent_ne_zero (v : ValArg) : ∀ b ∈ v.sent, b ≠ 0 := by
  intro b hb
  simpa using List.mem_takeWhile_imp hb

/-- Values that are matched one to one with what was sent are what was sent. None of them has
a zero byte, so none is longer than what its own call has sent, and all together they are as
long. -/
theorem sent_eq_value_of_matched {m : Nat} {calls : Fin m → ValArg} {σ : Fin m → Fin m}
    (hσ : Function.Injective σ) (h : ∀ c, (calls c).value = (calls (σ c)).sent) (c : Fin m) :
    (calls c).sent = (calls c).value := by
  have hpart : ∀ c, (calls c).value <+: (calls c).sent := fun c =>
    value_prefix_sent fun b hb => sent_ne_zero (calls (σ c)) b (h c ▸ hb)
  have hle : ∀ c ∈ Finset.univ, (calls c).value.length ≤ (calls c).sent.length := fun c _ =>
    (hpart c).length_le
  have hsum : ∑ c, (calls c).value.length = ∑ c, (calls c).sent.length := by
    have hbij : Function.Bijective σ := Finite.injective_iff_bijective.mp hσ
    rw [← hbij.sum_comp fun c => (calls c).sent.length]
    exact Finset.sum_congr rfl fun c _ => by rw [h c]
  have hlength := (Finset.sum_eq_sum_iff_of_le hle).mp hsum c (Finset.mem_univ c)
  exact ((hpart c).eq_of_length hlength).symm

omit [DecidableEq ι] in
/-- In a state where nothing came late, every value can be found only under the field of a
call that has sent it. -/
theorem AllStored.sent_eq_value {hash : Hash} {w : HashWorld ι} (h : AllStored hash w)
    (hhash : Numbered hash) (hw : Numbered w.hash) (happended : Appended hash w) :
    ∀ v ∈ w.added, v.sent = v.value := by
  obtain ⟨place, hplace, hown⟩ := h.own
  -- The call whose `HSETNX` has made the field of `c`.
  have hmatch : ∀ c, ∃ k : Fin w.added.length, place c = decimal (hash.length + k) ∧
      (w.added.get c).value = (w.added.get k).sent := by
    intro c
    obtain ⟨hnew, hpair⟩ := hown c
    obtain ⟨j, hj, hvalue⟩ := (hw.mem_pair_iff _ _).mp hpair
    have hbeyond : hash.length ≤ j := by
      by_contra hlt
      exact hnew ((hhash.mem_iff _).mpr ⟨j, Nat.not_le.mp hlt, hj⟩)
    rw [happended, List.getElem?_append_right (by rwa [List.length_map]), List.length_map,
      List.getElem?_map, Option.map_eq_some_iff] at hvalue
    obtain ⟨u, hu, hsent⟩ := hvalue
    obtain ⟨hlt, hget⟩ := List.getElem?_eq_some_iff.mp hu
    refine ⟨⟨j - hash.length, hlt⟩, ?_, ?_⟩
    · rw [hj]
      congr 1
      show j = hash.length + (j - hash.length)
      omega
    · rw [← hsent, ← hget]
      rfl
  choose σ hfield hvalue using hmatch
  have hσ : Function.Injective σ := by
    intro c d hcd
    refine hplace ?_
    rw [hfield c, hfield d, hcd]
  intro v hv
  obtain ⟨c, rfl⟩ := List.mem_iff_get.mp hv
  exact @sent_eq_value_of_matched _ (fun c => w.added.get c) σ hσ hvalue c

omit [DecidableEq ι] in
/-- If every value was sent whole, all are stored, at fields of their own. -/
theorem Appended.allStored {hash : Hash} {w : HashWorld ι} (happended : Appended hash w)
    (hw : Numbered w.hash) (hhash : Numbered hash) (hexact : ∀ v ∈ w.added, v.sent = v.value) :
    AllStored hash w := by
  have hlength : w.hash.length = hash.length + w.added.length := by
    have hcount := congrArg List.length happended
    simpa using hcount
  refine ⟨⟨fun c => decimal (hash.length + c), ?_, fun c => ⟨fun hold => ?_, ?_⟩⟩, ?_⟩
  · intro c d hcd
    have hsame := decimal_injective hcd
    exact Fin.ext (by omega)
  · obtain ⟨j, hj, hsame⟩ := (hhash.mem_iff _).mp hold
    have := decimal_injective hsame
    omega
  · refine (hw.mem_pair_iff _ _).mpr ⟨_, rfl, ?_⟩
    rw [happended, List.getElem?_append_right (by rw [List.length_map]; omega), List.length_map,
      Nat.add_sub_cancel_left, List.getElem?_map, List.getElem?_eq_getElem c.isLt]
    exact congrArg some (hexact _ (List.get_mem _ _))
  · rw [← hlength]
    exact hw.mem_iff

/-- In any run from a hash with the fields `0` to `n - 1`, the appends of all calls that have
returned `true` are there if and only if no `HSETNX` was sent after another client had stored,
and none had a value other than the C string at `val`. -/
theorem allStored_iff_lossless {hash : Hash} (hhash : Numbered hash) (calls : ι → List ValArg)
    (schedule : List (ι × Bool)) :
    AllStored hash ((HashWorld.start hash calls).run schedule) ↔
      Lossless (HashWorld.start hash calls) schedule := by
  have hstart := Indexed.start hhash calls
  have hend := hstart.run schedule
  have happended : Never Late (HashWorld.start hash calls) schedule →
      Appended hash ((HashWorld.start hash calls).run schedule) := fun hnever =>
    Appended.run (by simp [Appended, HashWorld.start]) hstart hnever
  have hnone : ∀ v ∈ (HashWorld.start hash calls).added, v.sent = v.value := by
    simp [HashWorld.start]
  rw [lossless_iff_never hnone]
  constructor
  · intro h
    -- As many fields as calls leave no room for a late one.
    have hlength := hend.fields.length_eq h.fields
    have hnever : Never Late (HashWorld.start hash calls) schedule := by
      by_contra hlate
      have hlt := hstart.length_lt_of_late hlate
      rw [hlength] at hlt
      simp [HashWorld.start] at hlt
    exact ⟨hnever, h.sent_eq_value hhash hend.fields (happended hnever)⟩
  · rintro ⟨hnever, hexact⟩
    exact (happended hnever).allStored hend.fields hhash hexact

end

/-! ### Two clients with one call each -/

/-- The text `a` as an argument. -/
def letterVal : ValArg := ⟨text ['a'], 1⟩

/-- The second client begins when the first is through. -/
theorem allStored_in_turn :
    AllStored [] ((HashWorld.start [] fun _ : Bool => [letterVal]).run
      [(false, true), (false, true), (false, true), (true, true), (true, true), (true, true)]) := by
  refine (allStored_iff_lossless (show Numbered [] from rfl) _ _).mpr ?_
  simp [Lossless, Never, Late, Cut, HashWorld.step, HashWorld.start, redisHlen, redisHsetnx,
    letterVal, ValArg.sent, ValArg.value, text]

/-- Both clients ask for the size before either stores: both calls return `true`, and there is
one field. -/
theorem not_allStored_interleaved :
    ¬AllStored [] ((HashWorld.start [] fun _ : Bool => [letterVal]).run
      [(false, true), (true, true), (false, true), (true, true), (false, true), (true, true)]) := by
  intro h
  have hone := (h.fields (decimal 1)).mpr ⟨1, by decide, rfl⟩
  exact absurd hone (by decide)

end Mylib.Proofs.Storage
