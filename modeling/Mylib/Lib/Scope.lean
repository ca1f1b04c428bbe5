import Mathlib

/-!
# `Mylib.Lib.Scope`: bindings of which the latest counts

A scope is a list of bindings that grows at the end. `lookup` gives the value of the latest
binding of a key. A key that has no binding can be bound without changing any other key
(`lookup_concat`), and among more keys than there are bindings one is free
(`exists_free`). -/

set_option autoImplicit false

namespace Mylib.Lib.Scope

variable {κ ν : Type} [DecidableEq κ]

/-- The value of the latest binding of `k`. -/
def lookup (env : List (κ × ν)) (k : κ) : Option ν :=
  (env.reverse.find? fun b => b.1 = k).map Prod.snd

/-- The last binding of a key counts. -/
theorem lookup_concat (env : List (κ × ν)) (k : κ) (v : ν) (k' : κ) :
    lookup (env ++ [(k, v)]) k' = if k = k' then some v else lookup env k' := by
  rw [lookup, List.reverse_append]
  show Option.map Prod.snd (List.find? (fun b => b.1 = k') ((k, v) :: env.reverse)) = _
  rw [List.find?_cons]
  by_cases hk : k = k'
  · simp [hk]
  · simp [hk, lookup]

/-- A key is bound exactly if some entry has it. -/
theorem lookup_ne_none {env : List (κ × ν)} {k : κ} :
    lookup env k ≠ none ↔ k ∈ env.map Prod.fst := by
  simp [lookup]

/-- More keys than bindings: one of them is free. -/
theorem exists_free (env : List (κ × ν)) {f : ℕ → κ} (hf : Function.Injective f) :
    ∃ i ≤ env.length, lookup env (f i) = none := by
  by_contra hbound
  have hsub : (List.range (env.length + 1)).map f ⊆ env.map Prod.fst := by
    intro k hk
    obtain ⟨i, hi, rfl⟩ := List.mem_map.mp hk
    rw [← lookup_ne_none]
    intro hnone
    exact hbound ⟨i, Nat.lt_succ_iff.mp (List.mem_range.mp hi), hnone⟩
  have hle := (List.subperm_of_subset (List.nodup_range.map hf) hsub).length_le
  simp at hle

end Mylib.Lib.Scope
