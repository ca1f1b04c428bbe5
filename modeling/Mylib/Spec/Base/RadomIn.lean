import Mathlib

/-!
# `Mylib.Spec.Base.RadomIn`: drawing from a shuffled table

`MigRadomInV2` of `public/basic/radom_in.cc`. What `rand` gives is a parameter: the `k`-th
call makes the index `randomIndex k`.
-/

set_option autoImplicit false

namespace Mylib.Spec.Base.RadomIn

/-- `MigRadomInV2`, with the number of the calls of `rand` so far. -/
structure MigRadomInV2 where
  rateTable : List ℕ
  num : Int
  index : ℕ
  calls : ℕ
  deriving DecidableEq, Repr

/-- The `while` loop of `Reset`: the place it ends at. `none` where it is still running after
`fuel` rounds, or outside the table. -/
def probe (num : ℕ) (rateTable : List ℕ) : (fuel : ℕ) → (liIndex : ℕ) → Option ℕ
  | 0, _ => none
  | fuel + 1, liIndex => do
    let taken ← rateTable[liIndex]?
    if taken ≠ 0 then probe num rateTable fuel ((liIndex + 1) % num) else some liIndex

variable (randomIndex : ℕ → ℕ) (fuel : ℕ)

/-- The `for` loop of `Reset` that places the values, from `refcount` on. -/
def place (num : ℕ) : (rounds : ℕ) → (refcount calls : ℕ) → List ℕ → Option (List ℕ)
  | 0, _, _, rateTable => some rateTable
  | rounds + 1, refcount, calls, rateTable => do
    let liIndex ← probe num rateTable fuel (randomIndex calls)
    place num rounds (refcount + 1) (calls + 1) (rateTable.set liIndex refcount)

/-- `Reset`. -/
def reset (r : MigRadomInV2) : Option MigRadomInV2 := do
  let num := r.num.toNat
  let rateTable ← place randomIndex fuel num num 0 r.calls (List.replicate num 0)
  some { r with rateTable, calls := r.calls + num }

/-- `SetRateTable`. -/
def setRateTable (num : Int) (r : MigRadomInV2) : Option MigRadomInV2 :=
  reset randomIndex fuel { r with num := if 0 < num then num else r.num, index := 0 }

/-- The constructor. -/
def construct (num : Int) : Option MigRadomInV2 :=
  setRateTable randomIndex fuel 0 { rateTable := [], num, index := 0, calls := 0 }

/-- The test in the loop of `GetPrize`: a table that is used up is shuffled anew. -/
def refill (r : MigRadomInV2) : Option MigRadomInV2 :=
  if ¬(r.index : Int) < r.num then setRateTable randomIndex fuel 0 r else some r

/-- The loop of `GetPrize`: `rands`. -/
def getPrizeLoop : (rounds : ℕ) → MigRadomInV2 → Option (List ℕ × MigRadomInV2)
  | 0, r => some ([], r)
  | rounds + 1, r => do
    let r ← refill randomIndex fuel r
    let value ← r.rateTable[r.index]?
    let (rands, r) ← getPrizeLoop rounds { r with index := r.index + 1 }
    some (value :: rands, r)

/-- `GetPrize`: `some none` where its assertion fails. -/
def getPrize (num : Int) (r : MigRadomInV2) : Option (Option (List ℕ × MigRadomInV2)) :=
  if num ≠ 0 then (getPrizeLoop randomIndex fuel num.toNat r).map some else some none

/-- All that a sequence of calls of `GetPrize` draws. A failed assertion ends the program. -/
def getPrizes : (nums : List Int) → MigRadomInV2 → Option (List ℕ × MigRadomInV2)
  | [], r => some ([], r)
  | num :: nums, r => do
    match ← getPrize randomIndex fuel num r with
    | none => some ([], r)
    | some (rands, r) =>
      let (more, r) ← getPrizes nums r
      some (rands ++ more, r)

end Mylib.Spec.Base.RadomIn
