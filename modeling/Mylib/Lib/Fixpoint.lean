import Mathlib

/-!
# `Mylib.Lib.Fixpoint`: a function applied until nothing changes

A function that makes some measure smaller wherever it changes anything has a fixpoint on
every orbit. `ascent f x n` lists the first `n + 1` elements of the orbit of `x`; once the last
of them is fixed, it lists the whole orbit.
-/

set_option autoImplicit false

namespace Mylib.Lib.Fixpoint

variable {α : Type} {f : α → α}

/-- Every orbit has a first element that is fixed. -/
theorem exists_first_fixed [DecidableEq α] {m : α → ℕ} (h : ∀ x, f x ≠ x → m (f x) < m x)
    (x : α) : ∃ n, f (f^[n] x) = f^[n] x ∧ ∀ k < n, f (f^[k] x) ≠ f^[k] x := by
  have hfixed : ∃ n, f (f^[n] x) = f^[n] x := by
    induction hm : m x using Nat.strong_induction_on generalizing x with
    | _ k ih =>
      by_cases hx : f x = x
      · exact ⟨0, hx⟩
      · obtain ⟨n, hn⟩ := ih (m (f x)) (hm ▸ h x hx) (f x) rfl
        exact ⟨n + 1, hn⟩
  exact ⟨Nat.find hfixed, Nat.find_spec hfixed, fun k hk => Nat.find_min hfixed hk⟩

/-- From a fixed element on, the orbit stays. -/
theorem iterate_of_fixed {x : α} {n : ℕ} (hn : f (f^[n] x) = f^[n] x) {k : ℕ} (hk : n ≤ k) :
    f^[k] x = f^[n] x := by
  obtain ⟨j, rfl⟩ := Nat.exists_eq_add_of_le' hk
  rw [Function.iterate_add_apply]
  exact Function.iterate_fixed hn j

/-- The measure falls up to the first fixed element. -/
theorem measure_lt {m : α → ℕ} (h : ∀ x, f x ≠ x → m (f x) < m x) {x : α} {n : ℕ}
    (hn : ∀ k < n, f (f^[k] x) ≠ f^[k] x) {i j : ℕ} (hij : i < j) (hj : j ≤ n) :
    m (f^[j] x) < m (f^[i] x) := by
  induction j, hij using Nat.le_induction with
  | base =>
    rw [Function.iterate_succ_apply']
    exact h _ (hn i hj)
  | succ j hij ih =>
    have hlast : m (f^[j + 1] x) < m (f^[j] x) := by
      rw [Function.iterate_succ_apply']
      exact h _ (hn j hj)
    exact hlast.trans (ih (Nat.le_of_succ_le hj))

/-- The orbit of `x` up to the `n`-th element. -/
def ascent (f : α → α) (x : α) (n : ℕ) : List α := (List.range (n + 1)).map fun k => f^[k] x

/-- One step more adds the next iterate at the end. -/
theorem ascent_succ (f : α → α) (x : α) (n : ℕ) :
    ascent f x (n + 1) = ascent f x n ++ [f^[n + 1] x] := by
  unfold ascent
  rw [List.range_succ, List.map_append]
  rfl

/-- The orbit is listed completely. -/
theorem mem_ascent_iff {x : α} {n : ℕ} (hn : f (f^[n] x) = f^[n] x) (y : α) :
    y ∈ ascent f x n ↔ ∃ k, f^[k] x = y := by
  unfold ascent
  rw [List.mem_map]
  constructor
  · rintro ⟨k, -, hk⟩
    exact ⟨k, hk⟩
  · rintro ⟨k, rfl⟩
    rcases Nat.le_total k n with hle | hle
    · exact ⟨k, List.mem_range.mpr (Nat.lt_succ_of_le hle), rfl⟩
    · exact ⟨n, List.mem_range.mpr n.lt_succ_self, (iterate_of_fixed hn hle).symm⟩

/-- Up to the first fixed element, nothing is listed twice. -/
theorem ascent_nodup {m : α → ℕ} (h : ∀ x, f x ≠ x → m (f x) < m x) {x : α} {n : ℕ}
    (hn : ∀ k < n, f (f^[k] x) ≠ f^[k] x) : (ascent f x n).Nodup := by
  refine List.Nodup.map_on (fun i hi j hj heq => ?_) List.nodup_range
  rw [List.mem_range] at hi hj
  rcases Nat.lt_trichotomy i j with hlt | rfl | hlt
  · exact absurd (congrArg m heq) (measure_lt h hn hlt (Nat.le_of_lt_succ hj)).ne'
  · rfl
  · exact absurd (congrArg m heq) (measure_lt h hn hlt (Nat.le_of_lt_succ hi)).ne

/-- Later elements come out of earlier ones. -/
theorem ascent_pairwise (f : α → α) (x : α) (n : ℕ) :
    (ascent f x n).Pairwise fun y z => ∃ k, f^[k + 1] y = z := by
  unfold ascent
  rw [List.pairwise_map]
  refine List.pairwise_lt_range.imp fun {i j} hlt => ⟨j - i - 1, ?_⟩
  rw [← Function.iterate_add_apply]
  exact congrArg (fun k => f^[k] x) (by omega)

end Mylib.Lib.Fixpoint
