import Mylib.Proofs.Base.IntegerTexts
import Mylib.Spec.Storage.RedisCounter

/-!
# `Mylib.Proofs.Storage.CounterRaces`: when increments of a key are lost

`IncrValue` tests for the key and then sends `INCR` or `SET 1`. A client that found the key
absent sets it to `1` whatever the other clients have made of it meanwhile. So two clients
that both find it absent lose an increment, and that is the only way to lose one.

`Racing` is the step that goes wrong: a test of the absent key while another client is
between its own test of the absent key and its `SET`. `Calm` runs make no such step.

1. `Sane` holds in every state: every call is waiting, under way or returned, and the value
   is at most what it should be.
2. `Exact` holds as long as no step is racing: the value is what it should be, and no client
   that found the key absent is left behind once the key is there.
3. `Doomed` holds from a racing step on: an increment is lost, or is bound to be lost.

`counted_iff_calm` joins them for the runs in which all calls have returned.
-/

set_option autoImplicit false

namespace Mylib.Proofs.Storage

open Mylib.Spec.Base (Str)
open Mylib.Spec.Base.StringUtil
open Mylib.Spec.Storage

/-! ### The test -/

/-- A counter's text is not empty. -/
theorem signedDecimal_ne_nil (n : Int) : signedDecimal n ≠ [] := by
  have hdigits : Nat.toDigits 10 n.natAbs ≠ [] := by
    intro h
    have hlen := @Nat.length_toDigits_pos 10 n.natAbs
    rw [h] at hlen
    simp at hlen
  unfold signedDecimal decimal text
  split <;> simp [hdigits]

/-- No zero stands in it, so it is passed as a whole. -/
theorem signedDecimal_no_zero (n : Int) : ∀ b ∈ signedDecimal n, b ≠ 0 := by
  rintro b hb rfl
  have hdigits : ∀ m : Nat, (0 : UInt8) ∉ decimal m := fun m h =>
    absurd (Base.decimal_digit h).1 (by decide)
  unfold signedDecimal at hb
  split at hb
  · rcases List.mem_append.mp hb with hsign | hb
    · exact absurd hsign (by decide)
    · exact hdigits _ hb
  · exact hdigits _ hb

/-- The test finds every integer: its text is not empty and holds no zero byte. -/
theorem reidsIsExist_redisGet (store : Store) (name : Str) :
    reidsIsExist (redisGet store name) = (store name).isSome := by
  cases h : store name with
  | none => simp [redisGet, h, reidsIsExist]
  | some v =>
    have hall : (signedDecimal v).takeWhile (· ≠ 0) = signedDecimal v := by
      rw [List.takeWhile_eq_self_iff]
      intro b hb
      simpa using signedDecimal_no_zero v b hb
    have hne := signedDecimal_ne_nil v
    simp only [redisGet, h, Option.map_some, reidsIsExist, hall, Option.isSome_some]
    simp [hne]

/-! ### What a command can do -/

section

variable {ι : Type} [DecidableEq ι] {k : KeyArg}

/-- The steps of a client: nothing, a `PING`, a test of the absent key, a test of the present
key, an `INCR` and a `SET`. -/
theorem step_cases (w : World ι) (i : ι) :
    (w.pc i = .idle ∧ w.todo i = 0 ∧ w.step k i = w) ∨
    (w.pc i = .idle ∧ 0 < w.todo i ∧ w.step k i =
      { w with
          pc := Function.update w.pc i .pinged
          todo := Function.update w.todo i (w.todo i - 1) }) ∨
    (w.pc i = .pinged ∧ w.store k.cName = none ∧ w.step k i =
      { w with pc := Function.update w.pc i (.tested false) }) ∨
    (w.pc i = .pinged ∧ w.store k.cName ≠ none ∧ w.step k i =
      { w with pc := Function.update w.pc i (.tested true) }) ∨
    (w.pc i = .tested true ∧ w.step k i =
      { w with
          store := redisIncr w.store k.bName
          pc := Function.update w.pc i .idle
          returned := w.returned + 1 }) ∨
    (w.pc i = .tested false ∧ w.step k i =
      { w with
          store := redisSet w.store k.bName 1
          pc := Function.update w.pc i .idle
          returned := w.returned + 1 }) := by
  unfold World.step
  -- One alternative for each place the call can stand at, in the order of the statement.
  cases hpc : w.pc i with
  | idle =>
    by_cases htodo : w.todo i = 0
    · exact .inl ⟨rfl, htodo, by simp [htodo]⟩
    · exact .inr (.inl ⟨rfl, Nat.pos_of_ne_zero htodo, by simp [htodo]⟩)
  | pinged =>
    cases hget : w.store k.cName with
    | none => exact .inr (.inr (.inl ⟨rfl, rfl, by simp [reidsIsExist_redisGet, hget]⟩))
    | some v =>
      exact .inr (.inr (.inr (.inl ⟨rfl, by simp, by simp [reidsIsExist_redisGet, hget]⟩)))
  | tested b =>
    cases b with
    | true => exact .inr (.inr (.inr (.inr (.inl ⟨rfl, rfl⟩))))
    | false => exact .inr (.inr (.inr (.inr (.inr ⟨rfl, rfl⟩))))

/-! ### Every call is waiting, under way or returned -/

/-- The calls of client `i` that have not returned. -/
def pending (w : World ι) (i : ι) : Nat := w.todo i + if w.pc i = .idle then 0 else 1

/-- A step changes what is pending for its own client only. There is one call less exactly
when a call returns. -/
theorem pending_step (w : World ι) (i : ι) :
    (∀ j ≠ i, pending (w.step k i) j = pending w j) ∧
      pending (w.step k i) i + (w.step k i).returned = pending w i + w.returned := by
  rcases step_cases (k := k) w i with ⟨-, -, h⟩ | ⟨hpc, htodo, h⟩ | ⟨hpc, -, h⟩ | ⟨hpc, -, h⟩ |
    ⟨hpc, h⟩ | ⟨hpc, h⟩
  · rw [h]
    exact ⟨fun _ _ => rfl, rfl⟩
  all_goals
    refine ⟨fun j hj => ?_, ?_⟩
    · simp [h, pending, hj]
    · simp [h, pending, hpc]
      try omega

/-- A step of one client moves a call from those that are pending to those that have returned, or
neither. -/
theorem sum_step [Fintype ι] (w : World ι) (i : ι) :
    ∑ j, pending (w.step k i) j + (w.step k i).returned = ∑ j, pending w j + w.returned := by
  obtain ⟨hframe, hown⟩ := pending_step (k := k) w i
  have hrest : ∑ j ∈ Finset.univ.erase i, pending (w.step k i) j =
      ∑ j ∈ Finset.univ.erase i, pending w j :=
    Finset.sum_congr rfl fun j hj => hframe j (Finset.ne_of_mem_erase hj)
  rw [← Finset.add_sum_erase _ _ (Finset.mem_univ i), hrest,
    ← Finset.add_sum_erase _ (pending w) (Finset.mem_univ i)]
  omega

omit [DecidableEq ι] in
/-- A client that is in a call has one that has not returned. -/
theorem returned_lt_of_busy [Fintype ι] {w : World ι} {i : ι} (h : w.pc i ≠ .idle) :
    w.returned < ∑ j, pending w j + w.returned := by
  have hone : 1 ≤ pending w i := by simp [pending, h]
  have hle := Finset.single_le_sum (fun j _ => Nat.zero_le (pending w j)) (Finset.mem_univ i)
  omega

/-! ### What holds in every state -/

variable [Fintype ι]

/-- The invariant of all runs from `store` in which client `i` makes `calls i` calls. Whoever
found the key present found it after the first `SET`, or it was there from the beginning. -/
structure Sane (k : KeyArg) (store : Store) (calls : ι → Nat) (w : World ι) : Prop where
  sum : ∑ j, pending w j + w.returned = ∑ j, calls j
  absent : w.store k.bName = none →
    store k.bName = none ∧ w.returned = 0 ∧ ∀ j, w.pc j ≠ .tested true
  atMost : ∀ v, w.store k.bName = some v → v ≤ (store k.bName).getD 0 + w.returned
  positive : ∀ v, w.store k.bName = some v → store k.bName = none → 1 ≤ v
  foundAbsent : ∀ j, w.pc j = .tested false → store k.bName = none

variable {store : Store} {calls : ι → Nat}

omit [DecidableEq ι] in
/-- The world at the start is sane. -/
theorem Sane.start : Sane k store calls (World.start store calls) where
  sum := by simp [World.start, pending]
  absent := fun h => ⟨h, rfl, by simp [World.start]⟩
  atMost := by
    intro v h
    have hstart : store k.bName = some v := h
    simp [hstart, World.start]
  positive := by
    intro v h hnone
    have hstart : store k.bName = some v := h
    rw [hnone] at hstart
    cases hstart
  foundAbsent := by simp [World.start]

/-- The calls can all succeed: `%s` and `%b` send one name for the key, and no `INCR` comes to
the largest integer. -/
structure Unfailing (k : KeyArg) (store : Store) (calls : ι → Nat) : Prop where
  name : k.cName = k.bName
  room : (store k.bName).getD 0 + ∑ j, (calls j : Int) ≤ counterMax

omit [DecidableEq ι] in
/-- `INCR` succeeds for a client that found the key: there is a value, and with the call
under way it is below the largest integer. -/
theorem Sane.incr {w : World ι} (hs : Sane k store calls w) (hu : Unfailing k store calls)
    {i : ι} (hpc : w.pc i = .tested true) :
    ∃ v, w.store k.bName = some v ∧
      redisIncr w.store k.bName = redisSet w.store k.bName (v + 1) := by
  cases hv : w.store k.bName with
  | none => exact absurd hpc ((hs.absent hv).2.2 i)
  | some v =>
    have hle := hs.atMost v hv
    have hbusy := returned_lt_of_busy (w := w) (i := i) (by simp [hpc])
    rw [hs.sum] at hbusy
    have hroom := hu.room
    have hcast : ((∑ j, calls j : Nat) : Int) = ∑ j, (calls j : Int) := by push_cast; rfl
    have hlt : v < counterMax := by omega
    exact ⟨v, rfl, by simp [redisIncr, hv, hlt]⟩

/-- A step keeps the world sane. -/
theorem Sane.step {w : World ι} (hs : Sane k store calls w) (hu : Unfailing k store calls)
    (i : ι) : Sane k store calls (w.step k i) := by
  have hsum := (sum_step (k := k) w i).trans hs.sum
  rcases step_cases (k := k) w i with ⟨-, -, h⟩ | ⟨hpc, htodo, h⟩ | ⟨hpc, hget, h⟩ |
    ⟨hpc, hget, h⟩ | ⟨hpc, h⟩ | ⟨hpc, h⟩
  · rwa [h]
  · rw [h] at hsum ⊢
    refine ⟨hsum, fun hv => ?_, hs.atMost, hs.positive, fun j hj => ?_⟩
    · obtain ⟨h0, hret, htrue⟩ := hs.absent hv
      refine ⟨h0, hret, fun j => ?_⟩
      by_cases hji : j = i <;> simp [hji, htrue j]
    · by_cases hji : j = i
      · simp [hji] at hj
      · exact hs.foundAbsent j (by simpa [hji] using hj)
  · rw [h] at hsum ⊢
    rw [hu.name] at hget
    obtain ⟨h0, hret, htrue⟩ := hs.absent hget
    refine ⟨hsum, fun hv => ⟨h0, hret, fun j => ?_⟩, hs.atMost, hs.positive, fun _ _ => h0⟩
    by_cases hji : j = i <;> simp [hji, htrue j]
  · rw [h] at hsum ⊢
    rw [hu.name] at hget
    refine ⟨hsum, fun hv => absurd hv hget, hs.atMost, hs.positive, fun j hj => ?_⟩
    by_cases hji : j = i
    · simp [hji] at hj
    · exact hs.foundAbsent j (by simpa [hji] using hj)
  · obtain ⟨v, hv, hincr⟩ := hs.incr hu hpc
    rw [h, hincr] at hsum ⊢
    refine ⟨hsum, by simp [redisSet], ?_, ?_, fun j hj => ?_⟩
    · have hle := hs.atMost v hv
      simp only [redisSet, Function.update_self, Option.some.injEq, forall_eq']
      push_cast
      omega
    · intro u hu hnone
      have hpos := hs.positive v hv hnone
      simp only [redisSet, Function.update_self, Option.some.injEq] at hu
      omega
    · by_cases hji : j = i
      · simp [hji] at hj
      · exact hs.foundAbsent j (by simpa [hji] using hj)
  -- A client that has found the key absent writes a `1` over whatever is there by now.
  · have h0 := hs.foundAbsent i hpc
    rw [h] at hsum ⊢
    refine ⟨hsum, by simp [redisSet], ?_, ?_, fun _ _ => h0⟩
    · simp [redisSet, h0]
    · simp [redisSet]

/-- A run keeps the world sane. By induction on the schedule. -/
theorem Sane.run {w : World ι} (hs : Sane k store calls w) (hu : Unfailing k store calls)
    (schedule : List ι) : Sane k store calls (w.run k schedule) := by
  induction schedule generalizing w with
  | nil => exact hs
  | cons i schedule ih => exact ih (hs.step hu i)

/-! ### Runs without a race -/

/-- The step of client `i` is a test of the absent key, and another client is between such a
test and its `SET`. -/
def Racing (k : KeyArg) (w : World ι) (i : ι) : Prop :=
  w.pc i = .pinged ∧ w.store k.cName = none ∧ ∃ j, w.pc j = .tested false

/-- No step of the run is racing. -/
def Calm (k : KeyArg) : World ι → List ι → Prop
  | _, [] => True
  | w, i :: schedule => ¬Racing k w i ∧ Calm k (w.step k i) schedule

/-- The value is what it should be. Only one client at a time has found the key absent, and
none that has found it absent is left once it is there. -/
structure Exact (k : KeyArg) (store : Store) (w : World ι) : Prop where
  alone : ∀ i j, w.pc i = .tested false → w.pc j = .tested false → i = j
  value : ∀ v, w.store k.bName = some v →
    v = (store k.bName).getD 0 + w.returned ∧ ∀ j, w.pc j ≠ .tested false

omit [DecidableEq ι] [Fintype ι] in
/-- At the start the counter is exact. -/
theorem Exact.start : Exact k store (World.start store calls) where
  alone := by simp [World.start]
  value := by
    intro v h
    have hstart : store k.bName = some v := h
    simp [hstart, World.start]

/-- A step that does not race keeps the counter exact. -/
theorem Exact.step {w : World ι} (he : Exact k store w) (hs : Sane k store calls w)
    (hu : Unfailing k store calls) {i : ι} (hcalm : ¬Racing k w i) :
    Exact k store (w.step k i) := by
  -- A client that leaves `tested false`, or enters another point, adds no such client.
  have hother : ∀ {p : Pc}, p ≠ .tested false → ∀ j,
      Function.update w.pc i p j = .tested false → w.pc j = .tested false ∧ j ≠ i := by
    intro p hp j hj
    by_cases hji : j = i
    · simp [hji] at hj
      exact absurd hj hp
    · exact ⟨by simpa [hji] using hj, hji⟩
  have halone : ∀ {p : Pc}, p ≠ .tested false → ∀ j j',
      Function.update w.pc i p j = .tested false → Function.update w.pc i p j' = .tested false →
      j = j' := fun hp j j' hj hj' => he.alone j j' (hother hp j hj).1 (hother hp j' hj').1
  rcases step_cases (k := k) w i with ⟨-, -, h⟩ | ⟨hpc, htodo, h⟩ | ⟨hpc, hget, h⟩ |
    ⟨hpc, hget, h⟩ | ⟨hpc, h⟩ | ⟨hpc, h⟩
  · rwa [h]
  · rw [h]
    refine ⟨halone (by simp), fun v hv => ⟨(he.value v hv).1, fun j hj => ?_⟩⟩
    exact (he.value v hv).2 j (hother (by simp) j hj).1
  · -- The step is not racing, so this client is the only one that finds the key absent.
    have hnone : ∀ j, w.pc j ≠ .tested false := fun j hj => hcalm ⟨hpc, hget, j, hj⟩
    rw [h]
    refine ⟨fun j j' hj hj' => ?_, fun v hv => ?_⟩
    · have honly : ∀ j, Function.update w.pc i (.tested false) j = .tested false → j = i := by
        intro j hj
        by_contra hji
        exact hnone j (by simpa [hji] using hj)
      rw [honly j hj, honly j' hj']
    · rw [hu.name] at hget
      exact absurd (hget.symm.trans hv) (by simp)
  · rw [h]
    refine ⟨halone (by simp), fun v hv => ⟨(he.value v hv).1, fun j hj => ?_⟩⟩
    exact (he.value v hv).2 j (hother (by simp) j hj).1
  · obtain ⟨v, hv, hincr⟩ := hs.incr hu hpc
    obtain ⟨hexact, hnone⟩ := he.value v hv
    rw [h, hincr]
    refine ⟨halone (by simp), fun u hu => ⟨?_, fun j hj => ?_⟩⟩
    · simp only [redisSet, Function.update_self, Option.some.injEq] at hu
      push_cast
      omega
    · exact hnone j (hother (by simp) j hj).1
  · -- The key is still absent: nobody who found it absent is left once it is there.
    have hv : w.store k.bName = none := by
      cases hv : w.store k.bName with
      | none => rfl
      | some v => exact absurd hpc ((he.value v hv).2 i)
    obtain ⟨h0, hret, -⟩ := hs.absent hv
    rw [h]
    refine ⟨halone (by simp), fun u hu => ⟨?_, fun j hj => ?_⟩⟩
    · simp only [redisSet, Function.update_self, Option.some.injEq] at hu
      simp [h0, hret, ← hu]
    · obtain ⟨hj, hji⟩ := hother (by simp) j hj
      exact hji (he.alone j i hj hpc)

/-- A schedule without a race keeps the counter exact. -/
theorem Exact.run {w : World ι} (he : Exact k store w) (hs : Sane k store calls w)
    (hu : Unfailing k store calls) {schedule : List ι} (hcalm : Calm k w schedule) :
    Exact k store (w.run k schedule) := by
  induction schedule generalizing w with
  | nil => exact he
  | cons i schedule ih => exact ih (he.step hs hu hcalm.1) (hs.step hu i) hcalm.2

/-! ### Runs with a race -/

/-- An increment is lost, or will be: with the key there, by a client that found it absent;
with the key absent, by the second of two such clients. -/
def Doomed (k : KeyArg) (store : Store) (w : World ι) : Prop :=
  (w.store k.bName = none ∧ ∃ i j, i ≠ j ∧ w.pc i = .tested false ∧ w.pc j = .tested false) ∨
  ∃ v, w.store k.bName = some v ∧
    ((∃ i, w.pc i = .tested false) ∨ v < (store k.bName).getD 0 + w.returned)

/-- A race leaves the counter short by one. -/
theorem Doomed.of_racing {w : World ι} (hu : Unfailing k store calls) {i : ι}
    (h : Racing k w i) : Doomed k store (w.step k i) := by
  obtain ⟨hpc, hget, j, hj⟩ := h
  have hji : j ≠ i := by
    rintro rfl
    rw [hpc] at hj
    cases hj
  have hstep : w.step k i = { w with pc := Function.update w.pc i (.tested false) } := by
    simp [World.step, reidsIsExist_redisGet, hpc, hget]
  rw [hstep]
  rw [hu.name] at hget
  exact .inl ⟨hget, i, j, hji.symm, by simp, by simp [hji, hj]⟩

/-- No step makes up for what was lost. -/
theorem Doomed.step {w : World ι} (hd : Doomed k store w) (hs : Sane k store calls w)
    (hu : Unfailing k store calls) (i : ι) : Doomed k store (w.step k i) := by
  -- A client at `tested false` stays there while the others move.
  have hstay : ∀ {p q : Pc} {j}, w.pc i = q → q ≠ .tested false → w.pc j = .tested false →
      Function.update w.pc i p j = .tested false := by
    intro p q j hq hne hj
    have hji : j ≠ i := by
      rintro rfl
      exact hne (hq.symm.trans hj)
    simpa [hji] using hj
  have hmoved : ∀ {p q : Pc}, w.pc i = q → q ≠ .tested false →
      Doomed k store { w with pc := Function.update w.pc i p } := by
    intro p q hq hne
    rcases hd with ⟨hv, a, b, hab, ha, hb⟩ | ⟨v, hv, ⟨a, ha⟩ | hlost⟩
    · exact .inl ⟨hv, a, b, hab, hstay hq hne ha, hstay hq hne hb⟩
    · exact .inr ⟨v, hv, .inl ⟨a, hstay hq hne ha⟩⟩
    · exact .inr ⟨v, hv, .inr hlost⟩
  rcases step_cases (k := k) w i with ⟨-, -, h⟩ | ⟨hpc, htodo, h⟩ | ⟨hpc, hget, h⟩ |
    ⟨hpc, hget, h⟩ | ⟨hpc, h⟩ | ⟨hpc, h⟩
  · rwa [h]
  · rw [h]
    exact hmoved hpc (by simp)
  · rw [h]
    exact hmoved hpc (by simp)
  · rw [h]
    exact hmoved hpc (by simp)
  · obtain ⟨v, hv, hincr⟩ := hs.incr hu hpc
    rw [h, hincr]
    refine .inr ⟨v + 1, by simp [redisSet], ?_⟩
    rcases hd with ⟨hnone, -⟩ | ⟨u, hu, ⟨a, ha⟩ | hlost⟩
    · exact absurd (hnone.symm.trans hv) (by simp)
    · exact .inl ⟨a, hstay hpc (by simp) ha⟩
    · obtain rfl : u = v := by simpa [hv] using hu.symm
      refine .inr ?_
      push_cast
      omega
  · have h0 := hs.foundAbsent i hpc
    rw [h]
    refine .inr ⟨1, by simp [redisSet], ?_⟩
    rcases hd with ⟨-, a, b, hab, ha, hb⟩ | ⟨v, hv, -⟩
    · -- One of the two sets the key, and the other is left.
      by_cases hai : a = i
      · refine .inl ⟨b, ?_⟩
        have hbi : b ≠ i := fun hbi => hab (hai.trans hbi.symm)
        simpa [hbi] using hb
      · exact .inl ⟨a, by simpa [hai] using ha⟩
    · -- The value was at least `1` and is `1` again, with one more call over.
      have hpos := hs.positive v hv h0
      have hle := hs.atMost v hv
      refine .inr ?_
      simp only [h0, Option.getD_none] at hle ⊢
      push_cast
      omega

/-- No run makes up for what was lost. -/
theorem Doomed.run {w : World ι} (hd : Doomed k store w) (hs : Sane k store calls w)
    (hu : Unfailing k store calls) (schedule : List ι) : Doomed k store (w.run k schedule) := by
  induction schedule generalizing w with
  | nil => exact hd
  | cons i schedule ih => exact ih (hd.step hs hu i) (hs.step hu i)

/-- So a schedule with a race ends with too low a counter. -/
theorem Doomed.of_not_calm {w : World ι} (hs : Sane k store calls w)
    (hu : Unfailing k store calls) {schedule : List ι} (h : ¬Calm k w schedule) :
    Doomed k store (w.run k schedule) := by
  induction schedule generalizing w with
  | nil => exact absurd trivial h
  | cons i schedule ih =>
    by_cases hrace : Racing k w i
    · exact (Doomed.of_racing hu hrace).run (hs.step hu i) hu schedule
    · exact ih (hs.step hu i) fun hcalm => h ⟨hrace, hcalm⟩

/-! ### The counter -/

omit [DecidableEq ι] in
/-- When all clients are done, all calls have returned. -/
theorem Sane.returned_of_settled {w : World ι} (hs : Sane k store calls w) (h : w.Settled) :
    (w.returned : Int) = ∑ j, (calls j : Int) := by
  have hnone : ∑ j, pending w j = 0 :=
    Finset.sum_eq_zero fun j _ => by simp [pending, (h j).1, (h j).2]
  have hsum := hs.sum
  rw [hnone, Nat.zero_add] at hsum
  rw [hsum]
  push_cast
  rfl

/-- The increments of all calls are in the value of the key. -/
def Counted (k : KeyArg) (store : Store) (calls : ι → Nat) (w : World ι) : Prop :=
  (w.store k.bName).getD 0 = (store k.bName).getD 0 + ∑ j, (calls j : Int)

/-- When all calls have returned, no increment is lost if and only if no client has tested the
absent key while another one was about to set it. -/
theorem counted_iff_calm (hu : Unfailing k store calls) (schedule : List ι)
    (hset : ((World.start store calls).run k schedule).Settled) :
    Counted k store calls ((World.start store calls).run k schedule) ↔
      Calm k (World.start store calls) schedule := by
  have hstart : Sane k store calls (World.start store calls) := Sane.start
  have hs := hstart.run hu schedule
  have hret := hs.returned_of_settled hset
  constructor
  · intro hcount
    by_contra hrace
    -- A race ends in a lost count, or in a client that is still between its commands.
    rcases Doomed.of_not_calm hstart hu hrace with ⟨-, i, -, -, hi, -⟩ | ⟨v, hv, ⟨i, hi⟩ | hlost⟩
    · rw [(hset i).1] at hi
      cases hi
    · rw [(hset i).1] at hi
      cases hi
    · rw [Counted, hv, Option.getD_some] at hcount
      omega
  · intro hcalm
    have he := Exact.start.run hstart hu hcalm
    unfold Counted
    cases hv : ((World.start store calls).run k schedule).store k.bName with
    | none =>
      obtain ⟨h0, hzero, -⟩ := hs.absent hv
      rw [h0, ← hret, hzero]
      rfl
    | some v => rw [Option.getD_some, (he.value v hv).1, hret]

end

/-! ### Two clients with one call each -/

/-- A key of one letter. -/
def letterKey : KeyArg := ⟨text ['k'], 1⟩

/-- Two clients with one call each. -/
theorem unfailing_two : Unfailing letterKey (fun _ => none) (fun _ : Bool => 1) :=
  ⟨by decide, by decide⟩

/-- The second client begins when the first is through, and the key is `2` afterwards. -/
theorem counted_in_turn :
    Counted letterKey (fun _ => none) (fun _ : Bool => 1)
      ((World.start (fun _ => none) fun _ => 1).run letterKey
        [false, false, false, true, true, true]) :=
  (counted_iff_calm unfailing_two _ (by unfold World.Settled; decide)).mpr (by
    simp [Calm, Racing, World.step, World.start, letterKey, KeyArg.cName, KeyArg.bName, redisGet,
      redisSet, reidsIsExist, text])

/-- Both clients test the absent key before either sets it: both calls return, and the key is
`1`. -/
theorem not_counted_interleaved :
    Unfailing letterKey (fun _ => none) (fun _ : Bool => 1) ∧
    ((World.start (fun _ => none) fun _ => 1).run letterKey
      [false, true, false, true, false, true]).Settled ∧
    ¬Counted letterKey (fun _ => none) (fun _ : Bool => 1)
      ((World.start (fun _ => none) fun _ => 1).run letterKey
        [false, true, false, true, false, true]) :=
  ⟨unfailing_two, by unfold World.Settled; decide, by unfold Counted; decide⟩

end Mylib.Proofs.Storage
