import Mylib.Lib.Blocks
import Mylib.Spec.Base.RadomIn

/-!
# `Mylib.Proofs.Base.RadomIn`: each value once in every block

`Reset` places the values in places that hold a zero. The value zero leaves its place free, so
after `k` values the table holds `1`, …, `k - 1` and zeros (`Placed`): one place is free up to
the end, the search for it ends (`probe_free`), and the last free place is that of the value
zero (`Placed.perm`).

`GetPrize` goes through one table after the other. So what a run draws is full tables, and the
beginning of the current one (`Drawn`).
-/

set_option autoImplicit false

namespace Mylib.Proofs.Base.RadomIn

open Mylib.Lib.Blocks
open Mylib.Spec.Base.RadomIn

/-! ### `Reset` -/

/-- The search ends at a free place, when there is one within the next `fuel` places. -/
theorem probe_free {rateTable : List ℕ} {d fuel liIndex : ℕ}
    (hindex : liIndex < rateTable.length)
    (hfree : rateTable[(liIndex + d) % rateTable.length]? = some 0) (hfuel : d < fuel) :
    ∃ place, probe rateTable.length rateTable fuel liIndex = some place ∧
      rateTable[place]? = some 0 := by
  induction fuel generalizing d liIndex with
  | zero => exact absurd hfuel (Nat.not_lt_zero d)
  | succ fuel ih =>
    have hget : rateTable[liIndex]? = some rateTable[liIndex] := List.getElem?_eq_getElem hindex
    by_cases hzero : rateTable[liIndex] = 0
    · refine ⟨liIndex, ?_, hget.trans (congrArg some hzero)⟩
      rw [probe, hget, hzero]
      rfl
    · -- the place is taken, so the free one is further on
      have hd : d ≠ 0 := by
        rintro rfl
        rw [Nat.add_zero, Nat.mod_eq_of_lt hindex, hget] at hfree
        exact hzero (Option.some.inj hfree)
      obtain ⟨d, rfl⟩ := Nat.exists_eq_succ_of_ne_zero hd
      have hfree' : rateTable[((liIndex + 1) % rateTable.length + d) % rateTable.length]?
          = some 0 := by
        rwa [Nat.mod_add_mod, Nat.add_assoc, Nat.add_comm 1]
      have hnext := ih (Nat.mod_lt _ (Nat.zero_lt_of_lt hindex)) hfree' (by omega)
      have hstep : probe rateTable.length rateTable (fuel + 1) liIndex
          = probe rateTable.length rateTable fuel ((liIndex + 1) % rateTable.length) := by
        rw [probe, hget]
        exact if_pos hzero
      rwa [hstep]

/-- The first `k` values are placed. -/
def Placed (num k : ℕ) (rateTable : List ℕ) : Prop :=
  rateTable.Perm (List.replicate (num - (k - 1)) 0 ++ List.range' 1 (k - 1))

/-- The table is never made longer or shorter. -/
theorem Placed.length {num k : ℕ} {rateTable : List ℕ} (h : Placed num k rateTable)
    (hk : k ≤ num) : rateTable.length = num := by
  rw [h.length_eq, List.length_append, List.length_replicate, List.length_range']
  omega

/-- All values are placed. -/
theorem Placed.perm {num : ℕ} (hnum : 1 ≤ num) {rateTable : List ℕ}
    (h : Placed num num rateTable) : rateTable.Perm (List.range num) := by
  have hrange : List.range num = List.replicate (num - (num - 1)) 0 ++ List.range' 1 (num - 1) := by
    obtain ⟨n, rfl⟩ := Nat.exists_eq_add_of_le' hnum
    rw [List.range_eq_range', Nat.add_sub_cancel, Nat.add_sub_cancel_left]
    rfl
  rw [hrange]
  exact h

/-- One more value. The first one changes nothing. -/
theorem Placed.set {num k place : ℕ} {rateTable : List ℕ} (h : Placed num k rateTable)
    (hk : k < num) (hplace : rateTable[place]? = some 0) :
    Placed num (k + 1) (rateTable.set place k) := by
  obtain ⟨hlt, hzero⟩ := List.getElem?_eq_some_iff.mp hplace
  cases k with
  | zero =>
    -- The value zero looks like a free place.
    have hsame : rateTable.set place 0 = rateTable := by
      rw [← hzero, List.set_getElem_self]
    rw [hsame]
    exact h
  | succ k =>
    -- One zero less, and one value more.
    have hrest : (rateTable.eraseIdx place).Perm
        (List.replicate (num - (k + 1)) 0 ++ List.range' 1 k) := by
      have hcons := (List.getElem_cons_eraseIdx_perm hlt).trans h
      rw [hzero, Nat.add_sub_cancel, show num - k = num - (k + 1) + 1 by omega,
        List.replicate_succ] at hcons
      exact hcons.cons_inv
    have hset : (rateTable.set place (k + 1)).Perm
        ((k + 1) :: (List.replicate (num - (k + 1)) 0 ++ List.range' 1 k)) :=
      (List.set_perm_cons_eraseIdx hlt _).trans (hrest.cons _)
    show (rateTable.set place (k + 1)).Perm
      (List.replicate (num - (k + 1)) 0 ++ List.range' 1 (k + 1))
    rw [List.range'_concat, ← List.append_assoc, Nat.one_mul, Nat.add_comm 1]
    exact hset.trans (List.perm_append_singleton _ _).symm

variable {randomIndex : ℕ → ℕ} {num fuel : ℕ}

/-- There is a free place for the next value, and the search finds it. -/
theorem Placed.probe {k liIndex : ℕ} {rateTable : List ℕ} (h : Placed num k rateTable)
    (hk : k < num) (hindex : liIndex < num) (hfuel : num ≤ fuel) :
    ∃ place, probe num rateTable fuel liIndex = some place ∧ rateTable[place]? = some 0 := by
  have hlength := h.length hk.le
  have hmem : 0 ∈ rateTable := h.mem_iff.mpr
    (List.mem_append_left _ (List.mem_replicate.mpr ⟨by omega, rfl⟩))
  -- The free place `j`, as a distance from `liIndex` around the table.
  obtain ⟨j, hj, hzero⟩ := List.getElem_of_mem hmem
  rw [hlength] at hj
  have hdistance : (liIndex + (j + num - liIndex) % num) % num = j := by
    rw [Nat.add_mod_mod, show liIndex + (j + num - liIndex) = j + num by omega,
      Nat.add_mod_right, Nat.mod_eq_of_lt hj]
  subst hlength
  refine probe_free hindex (d := (j + rateTable.length - liIndex) % rateTable.length) ?_ ?_
  · rw [hdistance, List.getElem?_eq_getElem hj, hzero]
  · exact (Nat.mod_lt _ (Nat.zero_lt_of_lt hj)).trans_le hfuel

/-- The `for` loop of `Reset`. -/
theorem place_run (hrandom : ∀ k, randomIndex k < num) (hfuel : num ≤ fuel) {rounds k : ℕ}
    (hrounds : k + rounds = num) {rateTable : List ℕ} (h : Placed num k rateTable) (calls : ℕ) :
    ∃ rateTable', place randomIndex fuel num rounds k calls rateTable = some rateTable' ∧
      Placed num num rateTable' := by
  induction rounds generalizing k calls rateTable with
  | zero =>
    obtain rfl : k = num := hrounds
    exact ⟨rateTable, rfl, h⟩
  | succ rounds ih =>
    obtain ⟨liIndex, hprobe, hzero⟩ := h.probe (by omega) (hrandom calls) hfuel
    obtain ⟨rateTable', hrun, hplaced⟩ := ih (k := k + 1) (by omega)
      (h.set (by omega) hzero) (calls + 1)
    refine ⟨rateTable', ?_, hplaced⟩
    rw [place, hprobe]
    exact hrun

/-- `Reset` shuffles. -/
theorem reset_run (hnum : 1 ≤ num) (hrandom : ∀ k, randomIndex k < num) (hfuel : num ≤ fuel)
    {r : MigRadomInV2} (hr : r.num = num) :
    ∃ r', reset randomIndex fuel r = some r' ∧ r'.num = num ∧ r'.index = r.index ∧
      r'.rateTable.Perm (List.range num) := by
  have hstart : Placed num 0 (List.replicate num 0) := by
    show (List.replicate num 0).Perm (List.replicate num 0 ++ [])
    rw [List.append_nil]
  obtain ⟨rateTable, hrun, hplaced⟩ :=
    place_run hrandom hfuel (Nat.zero_add num) hstart r.calls
  refine ⟨{ r with rateTable, calls := r.calls + num }, ?_, hr, rfl, hplaced.perm hnum⟩
  rw [reset, hr, Int.toNat_natCast, hrun]
  rfl

/-- `SetRateTable` shuffles, and the drawing starts at the first place. -/
theorem setRateTable_run (hnum : 1 ≤ num) (hrandom : ∀ k, randomIndex k < num)
    (hfuel : num ≤ fuel) {m : Int} {r : MigRadomInV2} (hr : (if 0 < m then m else r.num) = num) :
    ∃ r', setRateTable randomIndex fuel m r = some r' ∧ r'.num = num ∧ r'.index = 0 ∧
      r'.rateTable.Perm (List.range num) :=
  reset_run hnum hrandom hfuel (r := { r with num := if 0 < m then m else r.num, index := 0 }) hr

/-! ### `GetPrize` -/

/-- What was drawn so far: full tables, and the places of the current one in front of the
index. -/
def Drawn (num : ℕ) (draws : List ℕ) (r : MigRadomInV2) : Prop :=
  ∃ tables : List (List ℕ), (∀ t ∈ tables, t.Perm (List.range num)) ∧ r.num = num ∧
    r.rateTable.Perm (List.range num) ∧ r.index ≤ num ∧
    draws = tables.flatten ++ r.rateTable.take r.index

/-- One value, from a table that has one left. -/
theorem Drawn.next {draws : List ℕ} {r : MigRadomInV2} (h : Drawn num draws r)
    (hleft : r.index < num) : ∃ value, r.rateTable[r.index]? = some value ∧
      Drawn num (draws ++ [value]) { r with index := r.index + 1 } := by
  obtain ⟨tables, htables, hr, hperm, -, rfl⟩ := h
  have hlt : r.index < r.rateTable.length := by
    rwa [hperm.length_eq, List.length_range]
  refine ⟨r.rateTable[r.index], List.getElem?_eq_getElem hlt, tables, htables, hr, hperm,
    hleft, ?_⟩
  rw [List.append_assoc, List.take_concat_get' _ _ hlt]

/-- A table that is used up is one of the full ones. -/
theorem Drawn.full {draws : List ℕ} {r : MigRadomInV2} (h : Drawn num draws r)
    (hleft : ¬ r.index < num) : ∃ tables : List (List ℕ),
      (∀ t ∈ tables, t.Perm (List.range num)) ∧ draws = tables.flatten := by
  obtain ⟨tables, htables, -, hperm, -, rfl⟩ := h
  have hlength : r.rateTable.length = num := by rw [hperm.length_eq, List.length_range]
  refine ⟨tables ++ [r.rateTable], fun t ht => ?_, ?_⟩
  · rcases List.mem_append.mp ht with ht | ht
    · exact htables t ht
    · rwa [List.mem_singleton.mp ht]
  · rw [List.take_of_length_le (by omega), List.flatten_append, List.flatten_singleton]

/-- There is a table to draw from: the current one, or a new one. -/
theorem Drawn.refill (hnum : 1 ≤ num) (hrandom : ∀ k, randomIndex k < num) (hfuel : num ≤ fuel)
    {draws : List ℕ} {r : MigRadomInV2} (h : Drawn num draws r) :
    ∃ r', refill randomIndex fuel r = some r' ∧ Drawn num draws r' ∧ r'.index < num := by
  have hr : r.num = num := by
    obtain ⟨-, -, hr, -⟩ := h
    exact hr
  unfold Spec.Base.RadomIn.refill
  simp only [hr, Nat.cast_lt]
  by_cases hleft : r.index < num
  · exact ⟨r, if_neg (not_not_intro hleft), h, hleft⟩
  · -- The old table is one of the full ones now, and nothing is drawn from the new one.
    obtain ⟨tables, htables, hdraws⟩ := h.full hleft
    obtain ⟨r', hset, hr', hindex, hperm⟩ :=
      setRateTable_run hnum hrandom hfuel (m := 0) (r := r) hr
    refine ⟨r', (if_pos hleft).trans hset, ⟨tables, htables, hr', hperm, by omega, ?_⟩, by omega⟩
    rw [hindex, List.take_zero, List.append_nil, hdraws]

/-- The loop of `GetPrize`. -/
theorem getPrizeLoop_run (hnum : 1 ≤ num) (hrandom : ∀ k, randomIndex k < num)
    (hfuel : num ≤ fuel) (rounds : ℕ) {draws : List ℕ} {r : MigRadomInV2} (h : Drawn num draws r) :
    ∃ rands r', getPrizeLoop randomIndex fuel rounds r = some (rands, r') ∧
      rands.length = rounds ∧ Drawn num (draws ++ rands) r' := by
  induction rounds generalizing draws r with
  | zero => exact ⟨[], r, rfl, rfl, by rwa [List.append_nil]⟩
  | succ rounds ih =>
    obtain ⟨r₁, hrefill, hdrawn, hleft⟩ := h.refill hnum hrandom hfuel
    obtain ⟨value, hvalue, hnext⟩ := hdrawn.next hleft
    obtain ⟨rands, r', hrun, hlength, hrest⟩ := ih hnext
    refine ⟨value :: rands, r', ?_, congrArg (· + 1) hlength, ?_⟩
    · simp only [getPrizeLoop, hrefill, hvalue, hrun, Option.bind_eq_bind, Option.bind_some]
    · rwa [List.append_assoc] at hrest

/-- A sequence of calls, of any sizes. -/
theorem getPrizes_run (hnum : 1 ≤ num) (hrandom : ∀ k, randomIndex k < num)
    (hfuel : num ≤ fuel) (nums : List Int) {draws : List ℕ} {r : MigRadomInV2}
    (h : Drawn num draws r) :
    ∃ more r', getPrizes randomIndex fuel nums r = some (more, r') ∧
      (0 ∉ nums → more.length = (nums.map Int.toNat).sum) ∧ Drawn num (draws ++ more) r' := by
  induction nums generalizing draws r with
  | nil => exact ⟨[], r, rfl, fun _ => rfl, by rwa [List.append_nil]⟩
  | cons size nums ih =>
    by_cases hzero : size = 0
    · -- the assertion fails
      subst hzero
      exact ⟨[], r, rfl, fun hnot => absurd List.mem_cons_self hnot, by rwa [List.append_nil]⟩
    · obtain ⟨rands, r₁, hloop, hlength, hdrawn⟩ :=
        getPrizeLoop_run hnum hrandom hfuel size.toNat h
      obtain ⟨more, r', hrun, hmore, hrest⟩ := ih hdrawn
      have hcall : getPrize randomIndex fuel size r = some (some (rands, r₁)) := by
        rw [getPrize, if_pos hzero, hloop]
        rfl
      refine ⟨rands ++ more, r', ?_, fun hnot => ?_, ?_⟩
      · simp only [getPrizes, hcall, hrun, Option.bind_eq_bind, Option.bind_some]
      · rw [List.length_append, hlength, hmore fun hmem => hnot (List.mem_cons_of_mem _ hmem),
          List.map_cons, List.sum_cons]
      · rwa [List.append_assoc] at hrest

/-- The blocks of what was drawn. -/
theorem Drawn.block {draws : List ℕ} {r : MigRadomInV2} (h : Drawn num draws r) (k : ℕ) :
    (block num draws k).Subperm (List.range num) ∧
      ((k + 1) * num ≤ draws.length → (block num draws k).Perm (List.range num)) := by
  obtain ⟨tables, htables, -, hperm, hindex, rfl⟩ := h
  have hlength (t : List ℕ) (ht : t ∈ tables) : t.length = num := by
    rw [(htables t ht).length_eq, List.length_range]
  have htake : (r.rateTable.take r.index).length ≤ num := by
    rw [List.length_take, hperm.length_eq, List.length_range]
    omega
  have hsub : (Lib.Blocks.block num (tables.flatten ++ r.rateTable.take r.index) k).Subperm
      (List.range num) := by
    rw [block_flatten_append hlength htake]
    -- A full table, the current one, or nothing.
    rcases Nat.lt_trichotomy k tables.length with hlt | rfl | hlt
    · rw [List.getD_append _ _ _ _ hlt, List.getD_eq_getElem _ _ hlt]
      exact (htables _ (List.getElem_mem hlt)).subperm
    · rw [List.getD_append_right _ _ _ _ le_rfl, Nat.sub_self]
      exact (List.take_sublist _ _).subperm.trans hperm.subperm
    · rw [List.getD_eq_default _ _ (by simpa using hlt)]
      exact List.nil_subperm
  refine ⟨hsub, fun hfull => hsub.perm_of_length_le ?_⟩
  rw [Lib.Blocks.block, List.length_take, List.length_drop, List.length_range]
  rw [Nat.succ_mul] at hfull
  omega

/-- Whatever the calls of `GetPrize`, they return, and what they draw has each value once in
every full block, and no value twice in the last one. -/
def DrawsInBlocks (randomIndex : ℕ → ℕ) (fuel num : ℕ) (r : MigRadomInV2) : Prop :=
  ∀ nums, ∃ draws r', getPrizes randomIndex fuel nums r = some (draws, r') ∧
    (0 ∉ nums → draws.length = (nums.map Int.toNat).sum) ∧
    ∀ k, (block num draws k).Subperm (List.range num) ∧
      ((k + 1) * num ≤ draws.length → (block num draws k).Perm (List.range num))

/-- From a table that is a permutation and an index of 0, every block of `num` draws is a
permutation again. By induction on the number of draws. -/
theorem drawsInBlocks_of_fresh (hnum : 1 ≤ num) (hrandom : ∀ k, randomIndex k < num)
    (hfuel : num ≤ fuel) {r : MigRadomInV2} (hr : r.num = num) (hindex : r.index = 0)
    (hperm : r.rateTable.Perm (List.range num)) : DrawsInBlocks randomIndex fuel num r := by
  intro nums
  have hstart : Drawn num [] r :=
    ⟨[], fun t ht => absurd ht List.not_mem_nil, hr, hperm, by omega, by rw [hindex]; rfl⟩
  obtain ⟨draws, r', hrun, hlength, hdrawn⟩ := getPrizes_run hnum hrandom hfuel nums hstart
  exact ⟨draws, r', hrun, hlength, hdrawn.block⟩

/-- `Reset` ends with a permutation, and the draws of a new object, or of one after
`SetRateTable`, have each value once in every block. -/
theorem draws_without_repetition (hnum : 1 ≤ num) (hrandom : ∀ k, randomIndex k < num)
    (hfuel : num ≤ fuel) :
    (∀ r : MigRadomInV2, r.num = num → ∃ r', reset randomIndex fuel r = some r' ∧
      r'.rateTable.Perm (List.range num)) ∧
    (∃ r, construct randomIndex fuel num = some r ∧ DrawsInBlocks randomIndex fuel num r) ∧
    ∀ (m : Int) (r : MigRadomInV2), (if 0 < m then m else r.num) = num →
      ∃ r', setRateTable randomIndex fuel m r = some r' ∧
        DrawsInBlocks randomIndex fuel num r' := by
  have hset (m : Int) (r : MigRadomInV2) (hr : (if 0 < m then m else r.num) = num) :
      ∃ r', setRateTable randomIndex fuel m r = some r' ∧
        DrawsInBlocks randomIndex fuel num r' := by
    obtain ⟨r', hrun, hr', hindex, hperm⟩ := setRateTable_run hnum hrandom hfuel hr
    exact ⟨r', hrun, drawsInBlocks_of_fresh hnum hrandom hfuel hr' hindex hperm⟩
  refine ⟨fun r hr => ?_, hset 0 _ rfl, hset⟩
  obtain ⟨r', hrun, -, -, hperm⟩ := reset_run hnum hrandom hfuel hr
  exact ⟨r', hrun, hperm⟩

/-- Two indices and a source that always gives 1. -/
theorem draws_without_repetition_two :
    ∃ r, construct (fun _ => 1) 2 2 = some r ∧ DrawsInBlocks (fun _ => 1) 2 2 r :=
  (draws_without_repetition one_le_two (fun _ => one_lt_two) le_rfl).2.1

end Mylib.Proofs.Base.RadomIn
