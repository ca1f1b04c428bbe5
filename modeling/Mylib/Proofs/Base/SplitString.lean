import Mylib.Lib.Runs
import Mylib.Spec.Base.SplitString

/-!
# `Mylib.Proofs.Base.SplitString`: the tokens are the maximal runs

One round of the loop takes a piece off, if there is one, and the delimiters behind it
(`runsOf_some`). So the pieces of the loop with the last one behind it are all runs
(`splitLoop_run`), and each round leaves less of the string. The result is their number as an
`int`: it is right up to `2 ^ 31 - 1` pieces (`splitStringChr_runs`), not for `2 ^ 31` of
them. -/

set_option autoImplicit false

namespace Mylib.Proofs.Base.SplitString

open Mylib.Lib.Runs
open Mylib.Spec.Base (Str)
open Mylib.Spec.Base.SplitString

variable {charSet str : Str}

/-- What `strspn` counts goes. -/
theorem drop_strspn (str charSet : Str) :
    str.drop (strspn str charSet) = str.dropWhile (· ∈ charSet) := by
  conv_lhs => arg 2; rw [← List.takeWhile_append_dropWhile (p := (· ∈ charSet)) (l := str)]
  exact List.drop_left

/-- Delimiters in front do not matter. -/
theorem runsOf_drop_strspn {pieces : List Str}
    (h : RunsOf (· ∈ charSet) (str.drop (strspn str charSet)) pieces) :
    RunsOf (· ∈ charSet) str pieces := by
  rw [drop_strspn] at h
  have hfront (c : UInt8) (hc : c ∈ str.takeWhile (· ∈ charSet)) : c ∈ charSet := by
    simpa using List.mem_takeWhile_imp hc
  have hall := h.skip_append hfront
  rwa [List.takeWhile_append_dropWhile] at hall

/-- Without a delimiter, the string is its only run. -/
theorem runsOf_none (h : strpbrk str charSet = none) :
    RunsOf (· ∈ charSet) str (if str ≠ [] then [str] else []) := by
  by_cases hstr : str = []
  · rw [if_neg (not_not_intro hstr), hstr]
    exact RunsOf.nil
  · have hcons := RunsOf.cons (p := (· ∈ charSet)) hstr
      (fun c hc => by simpa using List.findIdx?_eq_none_iff.mp h c hc)
      (fun c hc => absurd hc (by simp)) RunsOf.nil
    rwa [List.append_nil, ← if_pos (c := str ≠ []) (t := [str]) (e := []) hstr] at hcons

/-- A delimiter is found: in front of it there is a piece, or nothing. -/
theorem runsOf_some {findPtr : ℕ} (h : strpbrk str charSet = some findPtr) {pieces : List Str}
    (hrest : RunsOf (· ∈ charSet) (str.drop findPtr) pieces) :
    RunsOf (· ∈ charSet) str
      ((if findPtr ≠ 0 then [str.take findPtr] else []) ++ pieces) := by
  obtain ⟨hlt, hfound, hbefore⟩ := List.findIdx?_eq_some_iff_getElem.mp h
  by_cases hzero : findPtr = 0
  · -- The string begins with a delimiter: no piece.
    subst hzero
    exact hrest
  · rw [if_pos hzero]
    -- Before the delimiter there is none.
    have hpiece (c : UInt8) (hc : c ∈ str.take findPtr) : c ∉ charSet := by
      obtain ⟨k, hk, rfl⟩ := List.getElem_of_mem hc
      rw [List.length_take] at hk
      rw [List.getElem_take]
      simpa using hbefore k (by omega)
    -- Behind the piece comes the delimiter that was found.
    have hhead (c : UInt8) (hc : c ∈ (str.drop findPtr).head?) : c ∈ charSet := by
      rw [List.head?_drop, List.getElem?_eq_getElem hlt] at hc
      rw [← Option.some.inj hc]
      simpa using hfound
    have hne : str.take findPtr ≠ [] :=
      List.length_pos_iff.mp (by rw [List.length_take]; omega)
    have hcons := RunsOf.cons hne hpiece hhead hrest
    rwa [List.take_append_drop] at hcons

/-- One round of the loop leaves less of the string. -/
theorem length_round_lt {findPtr : ℕ} (h : strpbrk str charSet = some findPtr) :
    ((str.drop findPtr).drop (strspn (str.drop findPtr) charSet)).length < str.length := by
  obtain ⟨hlt, hfound, -⟩ := List.findIdx?_eq_some_iff_getElem.mp h
  have hspan : strspn (str.drop findPtr) charSet ≠ 0 := by
    unfold strspn
    rw [List.drop_eq_getElem_cons hlt, List.takeWhile_cons, if_pos hfound]
    exact Nat.succ_ne_zero _
  rw [List.length_drop, List.length_drop]
  omega

/-- The loop, and the piece behind it. -/
theorem splitLoop_run {fuel : ℕ} (hfuel : str.length < fuel) (out : List Str) :
    ∃ rest mid pieces, splitLoop charSet fuel str out = some (rest, mid) ∧
      (if rest ≠ [] then mid ++ [rest] else mid) = out ++ pieces ∧
      RunsOf (· ∈ charSet) str pieces := by
  induction fuel generalizing str out with
  | zero => exact absurd hfuel (Nat.not_lt_zero _)
  | succ fuel ih =>
    cases hfind : strpbrk str charSet with
    | none =>
      refine ⟨str, out, _, ?_, ?_, runsOf_none hfind⟩
      · rw [splitLoop, hfind]
      · split
        · rfl
        · exact (List.append_nil out).symm
    | some findPtr =>
      have hshorter := length_round_lt hfind
      -- The delimiters behind the piece are skipped, so less of the string is left.
      obtain ⟨rest, mid, pieces, hrun, hout, hruns⟩ :=
        ih (hshorter.trans_le (Nat.le_of_lt_succ hfuel))
          (if findPtr ≠ 0 then out ++ [str.take findPtr] else out)
      refine ⟨rest, mid, _, ?_, ?_, runsOf_some hfind (runsOf_drop_strspn hruns)⟩
      · rw [splitLoop, hfind]
        exact hrun
      · rw [hout]
        split
        · exact List.append_assoc ..
        · rfl

/-- `out` are the maximal runs without delimiters, in order, and the result is their number as
an `int`. -/
theorem splitStringChr_runs (str charSet : Str) {fuel : ℕ} (hfuel : str.length < fuel) :
    ∃ out, splitStringChr fuel str charSet = some ((out.length : Int).bmod (2 ^ 32), out) ∧
      RunsOf (· ∈ charSet) str out ∧
      (out.length < 2 ^ 31 → (out.length : Int).bmod (2 ^ 32) = out.length) := by
  have hint (out : List Str) (h : out.length < 2 ^ 31) :
      (out.length : Int).bmod (2 ^ 32) = out.length :=
    Int.bmod_eq_of_le (by omega) (by omega)
  by_cases hset : charSet = []
  · -- Without delimiters the string is one piece.
    have hnone : strpbrk str charSet = none := by
      rw [hset]
      exact List.findIdx?_eq_none_iff.mpr fun c _ => by simp
    exact ⟨_, if_pos hset, runsOf_none hnone, hint _⟩
  · have hshorter : (str.drop (strspn str charSet)).length < fuel := by
      rw [List.length_drop]
      omega
    obtain ⟨rest, mid, pieces, hrun, hout, hruns⟩ := splitLoop_run hshorter []
    refine ⟨pieces, ?_, runsOf_drop_strspn hruns, hint pieces⟩
    rw [splitStringChr, if_neg hset, hrun]
    simp only [Option.map_some, hout, List.nil_append]

/-- `,a,b` at commas. -/
theorem splitStringChr_runs_comma : ∃ out,
    splitStringChr 5 [44, 97, 44, 98] [44] = some ((out.length : Int).bmod (2 ^ 32), out) ∧
      RunsOf (· ∈ [(44 : UInt8)]) [44, 97, 44, 98] out ∧
      (out.length < 2 ^ 31 → (out.length : Int).bmod (2 ^ 32) = out.length) :=
  splitStringChr_runs [44, 97, 44, 98] [44] (by decide)

/-- So many single letters, with a comma behind each. -/
def letters (n : ℕ) : Str := (List.replicate n [97, 44]).flatten

/-- The runs of the failing input are single letters. -/
theorem runsOf_letters (n : ℕ) :
    RunsOf (· ∈ [(44 : UInt8)]) (letters n) (List.replicate n [97]) := by
  induction n with
  | zero => exact RunsOf.nil
  | succ n ih =>
    have hpiece (c : UInt8) (hc : c ∈ [(97 : UInt8)]) : c ∉ [(44 : UInt8)] := by
      rw [List.mem_singleton.mp hc]
      decide
    have hhead (c : UInt8) (hc : c ∈ (44 :: letters n).head?) : c ∈ [(44 : UInt8)] :=
      Option.some.inj hc ▸ List.mem_cons_self
    exact RunsOf.cons (List.cons_ne_nil _ _) hpiece hhead (ih.skip List.mem_cons_self)

/-- Their number comes back as an `int`. -/
theorem splitStringChr_letters (n : ℕ) : splitStringChr (2 * n + 1) (letters n) [44]
    = some ((n : Int).bmod (2 ^ 32), List.replicate n [97]) := by
  have hlength : (letters n).length = 2 * n := by
    unfold letters
    rw [List.length_flatten, List.map_replicate, List.sum_replicate, smul_eq_mul, Nat.mul_comm]
    rfl
  obtain ⟨out, hrun, hruns, -⟩ :=
    splitStringChr_runs (letters n) [44] (show (letters n).length < 2 * n + 1 by omega)
  rw [hrun, hruns.unique (runsOf_letters n), List.length_replicate]

/-- With `2 ^ 31` pieces, the result is negative. -/
theorem splitStringChr_wraps :
    splitStringChr (2 * 2 ^ 31 + 1) (letters (2 ^ 31)) [44]
      = some (-2 ^ 31, List.replicate (2 ^ 31) [97]) ∧
    RunsOf (· ∈ [(44 : UInt8)]) (letters (2 ^ 31)) (List.replicate (2 ^ 31) [97]) ∧
    ((List.replicate (2 ^ 31) [(97 : UInt8)]).length : Int) ≠ -2 ^ 31 := by
  refine ⟨?_, runsOf_letters _, ?_⟩
  · rw [splitStringChr_letters (2 ^ 31)]
    exact congrArg (fun count => some (count, _)) (by decide)
  · rw [List.length_replicate]
    decide

end Mylib.Proofs.Base.SplitString
