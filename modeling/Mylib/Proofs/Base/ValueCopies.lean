import Mylib.Spec.Base.ValueTree

/-!
# `Mylib.Proofs.Base.ValueCopies`: what `DeepCopy` keeps and what `Equals` sees

`DictionaryValue` overrides both methods with a body that looks at no entry, so each
sees of a tree only its outline: the tree with every dictionary emptied.

* `deepCopy_eq_outline`: `DeepCopy` returns the outline.
* `deepCopy_eq_self_iff`: a tree is its own copy when all its dictionaries are empty.
* `equals_iff_outline`: two trees without reals are `Equals` when their outlines are
  the same.
* `equalsExact_iff`: when that decides equality, and when `AppendIfNotPresent`
  rejects only what is present.
-/

set_option autoImplicit false

namespace Mylib.Proofs.Base

open Mylib.Lib Mylib.Spec.Base

variable {D : Type}

/-! ### The outline of a tree -/

mutual

/-- The tree with every dictionary emptied. -/
def outline : Value D → Value D
  | .dictionary _ => .dictionary []
  | .list items => .list (outlineItems items)
  | value => value

def outlineItems : List (Value D) → List (Value D)
  | [] => []
  | value :: items => outline value :: outlineItems items

end

mutual

/-- Every dictionary in the tree is empty. -/
def Hollow : Value D → Prop
  | .dictionary entries => entries = []
  | .list items => HollowItems items
  | _ => True

def HollowItems : List (Value D) → Prop
  | [] => True
  | value :: items => Hollow value ∧ HollowItems items

end

mutual

/-- No real occurs in the tree. -/
def NoReals : Value D → Prop
  | .real _ => False
  | .dictionary entries => NoRealsEntries entries
  | .list items => NoRealsItems items
  | _ => True

def NoRealsEntries : List (WString × Value D) → Prop
  | [] => True
  | (_, value) :: entries => NoReals value ∧ NoRealsEntries entries

def NoRealsItems : List (Value D) → Prop
  | [] => True
  | value :: items => NoReals value ∧ NoRealsItems items

end

mutual

/-- A tree is its outline when there is nothing to empty. -/
theorem outline_eq_self_iff : (value : Value D) → (outline value = value ↔ Hollow value)
  | .dictionary entries => by
    show Value.dictionary [] = .dictionary entries ↔ entries = []
    rw [Value.dictionary.injEq]
    exact eq_comm
  | .list items => by
    show Value.list (outlineItems items) = .list items ↔ HollowItems items
    rw [Value.list.injEq]
    exact outlineItems_eq_self_iff items
  | .null | .boolean _ | .charInteger _ | .shortInteger _ | .integer _ | .bigInteger _
  | .real _ | .string _ | .binary _ => iff_of_true rfl trivial

/-- A list is its own outline if the dictionaries in it are empty. -/
theorem outlineItems_eq_self_iff :
    (items : List (Value D)) → (outlineItems items = items ↔ HollowItems items)
  | [] => iff_of_true rfl trivial
  | value :: items => by
    show outline value :: outlineItems items = value :: items ↔ Hollow value ∧ HollowItems items
    rw [List.cons.injEq]
    exact and_congr (outline_eq_self_iff value) (outlineItems_eq_self_iff items)

end

/-! ### `DeepCopy` -/

mutual

/-- A deep copy is the outline of the value: its dictionaries are empty. -/
theorem deepCopy_eq_outline : (value : Value D) → value.deepCopy = outline value
  | .list items => by
    show Value.list (Value.deepCopyItems items) = .list (outlineItems items)
    rw [deepCopyItems_eq_outline items]
  | .null | .boolean _ | .charInteger _ | .shortInteger _ | .integer _ | .bigInteger _
  | .real _ | .string _ | .binary _ | .dictionary _ => rfl

/-- The same for the items of a list. -/
theorem deepCopyItems_eq_outline :
    (items : List (Value D)) → Value.deepCopyItems items = outlineItems items
  | [] => rfl
  | value :: items => by
    show value.deepCopy :: Value.deepCopyItems items = outline value :: outlineItems items
    rw [deepCopy_eq_outline value, deepCopyItems_eq_outline items]

end

/-- `DeepCopy` returns the tree it is called on exactly when every dictionary in that
tree is empty. -/
theorem deepCopy_eq_self_iff (value : Value D) : value.deepCopy = value ↔ Hollow value := by
  rw [deepCopy_eq_outline]
  exact outline_eq_self_iff value

/-- The dictionary `{"a": null}` is copied to `{}`. -/
theorem not_deepCopy_eq_self_entry :
    ¬(Value.dictionary [([97], Value.null)] : Value Unit).deepCopy
      = .dictionary [([97], .null)] := by
  show ¬(Value.dictionary [] : Value Unit) = .dictionary [([97], .null)]
  simp

/-! ### `Equals` -/

section

variable (realEq : D → D → Bool)

mutual

/-- Outside of reals, `Equals` compares the outlines. -/
theorem equals_iff_outline : (a b : Value D) → NoReals a →
    (a.equals realEq b = true ↔ outline a = outline b)
  | .list lhs, b, ha => by
    cases b with
    | list rhs =>
      show Value.equalsItems realEq lhs rhs = true
        ↔ Value.list (outlineItems lhs) = .list (outlineItems rhs)
      rw [Value.list.injEq]
      exact equalsItems_iff_outline lhs rhs ha
    | _ => simp [Value.equals, outline]
  | .null, b, _ | .boolean _, b, _ | .charInteger _, b, _ | .shortInteger _, b, _
  | .integer _, b, _ | .bigInteger _, b, _ | .string _, b, _ | .binary _, b, _
  | .dictionary _, b, _ => by
    cases b <;> simp [Value.equals, outline]
  | .real _, _, ha => ha.elim

/-- Two lists are equal to `Equals` exactly if their outlines are. -/
theorem equalsItems_iff_outline : (lhs rhs : List (Value D)) → NoRealsItems lhs →
    (Value.equalsItems realEq lhs rhs = true ↔ outlineItems lhs = outlineItems rhs)
  | [], [], _ => iff_of_true rfl rfl
  | [], _ :: _, _ => by simp [Value.equalsItems, outlineItems]
  | _ :: _, [], _ => by simp [Value.equalsItems, outlineItems]
  | a :: lhs, b :: rhs, ha => by
    have hhead := equals_iff_outline a b ha.1
    have htail := equalsItems_iff_outline lhs rhs ha.2
    show (if !a.equals realEq b then false else Value.equalsItems realEq lhs rhs) = true
      ↔ outline a :: outlineItems lhs = outline b :: outlineItems rhs
    rw [List.cons.injEq, ← hhead, ← htail]
    cases a.equals realEq b <;> simp

end

/-! ### `AppendIfNotPresent` and `Remove` -/

/-- The loop finds nothing when no item has the outline of the value. -/
theorem firstEqual_eq_none_iff {value : Value D} {items : List (Value D)}
    (h : NoRealsItems items) :
    ListValue.firstEqual realEq value items = none
      ↔ ∀ x ∈ items, outline x ≠ outline value := by
  induction items with
  | nil => simp [ListValue.firstEqual]
  | cons x items ih =>
    have hx := equals_iff_outline realEq x value h.1
    rw [List.forall_mem_cons, ← ih h.2, ne_eq, ← hx]
    show (if x.equals realEq value then some 0
      else (ListValue.firstEqual realEq value items).map (· + 1)) = none ↔ _
    cases x.equals realEq value <;> simp

/-! ### When `Equals` is equality -/

/-- What is promised of `Equals` on `a`, `b` and `c`, and of `AppendIfNotPresent` of
`value` to `items`. -/
structure EqualsExact (a b c value : Value D) (items : List (Value D)) : Prop where
  decides : a.equals realEq b = true ↔ a = b
  refl : a.equals realEq a = true
  symm : a.equals realEq b = true → b.equals realEq a = true
  trans : a.equals realEq b = true → b.equals realEq c = true → a.equals realEq c = true
  keepsDistinct : items.Nodup → (ListValue.appendIfNotPresent realEq value items).2.Nodup
  accepts : value ∉ items →
    ListValue.appendIfNotPresent realEq value items = (true, items ++ [value])

/-- `Equals` decides equality of two values unless they differ inside of dictionaries only. -/
theorem equals_decides_iff {a b : Value D} (ha : NoReals a) :
    (a.equals realEq b = true ↔ a = b) ↔ a = b ∨ outline a ≠ outline b := by
  rw [equals_iff_outline realEq a b ha]
  constructor
  · intro h
    by_cases hab : a = b
    · exact Or.inl hab
    · exact Or.inr fun hout => hab (h.mp hout)
  · rintro (rfl | hne)
    · exact iff_of_true rfl rfl
    · exact iff_of_false hne fun hab => hne (hab ▸ rfl)

/-- If no item equals the value, it is appended. -/
theorem appendIfNotPresent_of_none {value : Value D} {items : List (Value D)}
    (h : ListValue.firstEqual realEq value items = none) :
    ListValue.appendIfNotPresent realEq value items = (true, items ++ [value]) := by
  unfold ListValue.appendIfNotPresent
  rw [h]

/-- If an item equals the value, it is dropped. -/
theorem appendIfNotPresent_of_some {value : Value D} {items : List (Value D)} {index : Nat}
    (h : ListValue.firstEqual realEq value items = some index) :
    ListValue.appendIfNotPresent realEq value items = (false, items) := by
  unfold ListValue.appendIfNotPresent
  rw [h]

/-- What is present is found, so a list of distinct items stays one. -/
theorem nodup_appendIfNotPresent {value : Value D} {items : List (Value D)}
    (h : NoRealsItems items) (hdistinct : items.Nodup) :
    (ListValue.appendIfNotPresent realEq value items).2.Nodup := by
  cases hfirst : ListValue.firstEqual realEq value items with
  | some index =>
    rw [appendIfNotPresent_of_some realEq hfirst]
    exact hdistinct
  | none =>
    have hnew := (firstEqual_eq_none_iff realEq h).mp hfirst
    rw [appendIfNotPresent_of_none realEq hfirst]
    refine List.nodup_append.mpr ⟨hdistinct, List.nodup_singleton _, ?_⟩
    rintro x hx y hy rfl
    exact hnew x hx (by rw [List.mem_singleton.mp hy])

/-- The list accepts a new value exactly if no item has its outline. -/
theorem accepts_iff {value : Value D} {items : List (Value D)} (h : NoRealsItems items) :
    (value ∉ items →
        ListValue.appendIfNotPresent realEq value items = (true, items ++ [value]))
      ↔ value ∈ items ∨ ∀ x ∈ items, outline x ≠ outline value := by
  constructor
  · intro haccepts
    by_cases hmem : value ∈ items
    · exact Or.inl hmem
    · refine Or.inr ((firstEqual_eq_none_iff realEq h).mp ?_)
      cases hfirst : ListValue.firstEqual realEq value items with
      | none => rfl
      | some index =>
        have happend := haccepts hmem
        rw [appendIfNotPresent_of_some realEq hfirst] at happend
        cases happend
  · rintro (hmem | hnew) habsent
    · exact absurd hmem habsent
    · exact appendIfNotPresent_of_none realEq ((firstEqual_eq_none_iff realEq h).mpr hnew)

/-- On trees without reals, `Equals` keeps its promise for two trees exactly when they
are equal or differ outside of their dictionaries, and `AppendIfNotPresent` exactly
when the value is present or no item is like it outside of dictionaries. -/
theorem equalsExact_iff {a b c value : Value D} {items : List (Value D)} (ha : NoReals a)
    (hb : NoReals b) (hitems : NoRealsItems items) :
    EqualsExact realEq a b c value items
      ↔ (a = b ∨ outline a ≠ outline b)
        ∧ (value ∈ items ∨ ∀ x ∈ items, outline x ≠ outline value) := by
  constructor
  · intro h
    exact ⟨(equals_decides_iff realEq ha).mp h.decides, (accepts_iff realEq hitems).mp h.accepts⟩
  · rintro ⟨hdecides, haccepts⟩
    exact {
      decides := (equals_decides_iff realEq ha).mpr hdecides
      refl := (equals_iff_outline realEq a a ha).mpr rfl
      symm := fun h => (equals_iff_outline realEq b a hb).mpr
        ((equals_iff_outline realEq a b ha).mp h).symm
      trans := fun hab hbc => (equals_iff_outline realEq a c ha).mpr
        (((equals_iff_outline realEq a b ha).mp hab).trans
          ((equals_iff_outline realEq b c hb).mp hbc))
      keepsDistinct := nodup_appendIfNotPresent realEq hitems
      accepts := (accepts_iff realEq hitems).mpr haccepts }

/-- The lists `[1]` and `[2]`, and `3` appended to `[1, {}]`. -/
theorem equalsExact_integers :
    EqualsExact (fun _ _ : Unit => true) (.list [.integer 1]) (.list [.integer 2]) .null
      (.integer 3) [.integer 1, .dictionary []] := by
  refine (equalsExact_iff _ ?_ ?_ ?_).mpr ⟨Or.inr ?_, Or.inr ?_⟩
  · simp [NoReals, NoRealsItems]
  · simp [NoReals, NoRealsItems]
  · simp [NoReals, NoRealsItems, NoRealsEntries]
  · simp [outline, outlineItems]
  · simp [outline]

/-- The dictionaries `{"a": null}` and `{}` are `Equals`, and `{}` is not appended to
a list that holds only the first. -/
theorem not_equalsExact_dictionaries :
    ¬EqualsExact (fun _ _ : Unit => true) (.dictionary [([97], .null)]) (.dictionary []) .null
      (.dictionary []) [.dictionary [([97], .null)]] := by
  intro h
  have hequal : (Value.dictionary [([97], Value.null)] : Value Unit) = .dictionary [] :=
    h.decides.mp rfl
  simp at hequal

end

end Mylib.Proofs.Base
