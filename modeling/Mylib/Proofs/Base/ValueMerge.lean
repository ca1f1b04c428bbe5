import Mylib.Proofs.Base.ValueCopies
import Mylib.Proofs.Base.ValuePaths

/-!
# `Mylib.Proofs.Base.ValueMerge`: when `MergeDictionary` is a union

`MergeDictionary` goes down where both sides hold a dictionary, and stores a `DeepCopy`
everywhere else. As a copy keeps only the outline of a value, the result is the union
of the two trees exactly when the copied values have no dictionary with entries.

* `mergeDictionary_eq_mergeWith`: the loop is a merge of two maps under `mergedValue`.
* `mergedValue_eq_iff`: under one key, over all depths.
* `mergesAsUnion_iff`: the union law and that a second merge changes nothing.
-/

set_option autoImplicit false

namespace Mylib.Proofs.Base

open Mylib.Lib Mylib.Spec.Base

variable {D : Type}

/-! ### The union -/

mutual

/-- The union of two trees of dictionaries, where the second wins. -/
def union (entries : Entries D) : Entries D → Entries D
  | [] => entries
  | (key, value) :: dictionary =>
    union (OrderedMap.set key (unionValue (OrderedMap.find key entries) value) entries) dictionary

/-- The union under one key: `old` is what the first tree holds there, if anything. -/
def unionValue (old : Option (Value D)) : Value D → Value D
  | .dictionary sub =>
    match old with
    | some (.dictionary subDict) => .dictionary (union subDict sub)
    | _ => .dictionary sub
  | value => value

end

mutual

/-- No value of `dictionary` that has to be copied holds a dictionary with entries. A
dictionary is not copied where `entries` holds a dictionary too. -/
def CopiesHollow (entries : Entries D) : Entries D → Prop
  | [] => True
  | (key, value) :: dictionary =>
    CopiesHollowAt (OrderedMap.find key entries) value ∧ CopiesHollow entries dictionary

def CopiesHollowAt (old : Option (Value D)) : Value D → Prop
  | .dictionary sub =>
    match old with
    | some (.dictionary subDict) => CopiesHollow subDict sub
    | _ => sub = []
  | value => Hollow value

end

/-- The literal union, as a merge of maps. -/
theorem union_eq_mergeWith (entries dictionary : Entries D) :
    union entries dictionary = OrderedMap.mergeWith unionValue entries dictionary := by
  induction dictionary generalizing entries with
  | nil => rfl
  | cons p dictionary ih => exact ih _

/-! ### What the loop stores under one key -/

/-- The value that one pass through the loop stores. -/
def mergedValue (old : Option (Value D)) : Value D → Value D
  | .dictionary sub =>
    match old with
    | some (.dictionary subDict) => .dictionary (DictionaryValue.mergeDictionary subDict sub)
    | _ => .dictionary []
  | value => value.deepCopy

/-- One entry is merged by setting its key. -/
theorem mergeEntry_eq_set (entries : Entries D) (key : WString) (value : Value D) :
    DictionaryValue.mergeEntry entries key value
      = OrderedMap.set key (mergedValue (OrderedMap.find key entries) value) entries := by
  cases value with
  | dictionary sub =>
    unfold DictionaryValue.mergeEntry DictionaryValue.getDictionaryWithoutPathExpansion
      DictionaryValue.getWithoutPathExpansion mergedValue
    cases OrderedMap.find key entries with
    | none => rfl
    | some old => cases old <;> rfl
  | _ => rfl

/-- All entries are merged by merging the maps, and keys stay in order. -/
theorem mergeDictionary_eq_mergeWith (entries dictionary : Entries D) :
    DictionaryValue.mergeDictionary entries dictionary
      = OrderedMap.mergeWith mergedValue entries dictionary := by
  induction dictionary generalizing entries with
  | nil => rfl
  | cons p dictionary ih =>
    show DictionaryValue.mergeDictionary (DictionaryValue.mergeEntry entries p.1 p.2) dictionary
      = OrderedMap.mergeWith mergedValue
          (OrderedMap.set p.1 (mergedValue (OrderedMap.find p.1 entries) p.2) entries) dictionary
    rw [mergeEntry_eq_set]
    exact ih _

/-- Two merges of one dictionary agree when they agree under each of its keys. -/
theorem mergeWith_eq_iff {f g : Option (Value D) → Value D → Value D}
    {entries dictionary : Entries D} (hentries : OrderedMap.Sorted entries)
    (hdictionary : OrderedMap.Sorted dictionary) :
    OrderedMap.mergeWith f entries dictionary = OrderedMap.mergeWith g entries dictionary
      ↔ ∀ p ∈ dictionary,
        f (OrderedMap.find p.1 entries) p.2 = g (OrderedMap.find p.1 entries) p.2 := by
  constructor
  · intro h p hp
    have hfind := hdictionary.find_of_mem hp
    have hsame := congrArg (OrderedMap.find p.1) h
    rw [OrderedMap.find_mergeWith_of_some hdictionary hfind,
      OrderedMap.find_mergeWith_of_some hdictionary hfind] at hsame
    exact Option.some.inj hsame
  · intro h
    -- Sorted lists of entries are told apart by their lookups alone.
    refine (hentries.mergeWith dictionary).ext (hentries.mergeWith dictionary) fun key => ?_
    cases hfind : OrderedMap.find key dictionary with
    | none =>
      rw [OrderedMap.find_mergeWith_of_none hfind, OrderedMap.find_mergeWith_of_none hfind]
    | some value =>
      rw [OrderedMap.find_mergeWith_of_some hdictionary hfind,
        OrderedMap.find_mergeWith_of_some hdictionary hfind]
      exact congrArg some (h _ (OrderedMap.mem_of_find hfind))

/-! ### The induction over the two trees -/

/-- A dictionary that is copied comes out right only if it is empty. -/
theorem dictionary_nil_eq_iff (sub : Entries D) :
    Value.dictionary [] = Value.dictionary sub ↔ sub = [] := by
  rw [Value.dictionary.injEq]
  exact eq_comm

mutual

/-- Under one key the loop stores the union exactly when it loses nothing there. -/
theorem mergedValue_eq_iff : (value : Value D) → value.WellFormed → (old : Option (Value D)) →
    (∀ v ∈ old, v.WellFormed) →
      (mergedValue old value = unionValue old value ↔ CopiesHollowAt old value)
  | .dictionary sub, hvalue, old, hold => by
    cases old with
    | none => exact dictionary_nil_eq_iff sub
    | some v =>
      cases v with
      | dictionary subDict =>
        -- Both are dictionaries: the loop runs on the two of them, one level down.
        have hsubDict : (Value.dictionary subDict).WellFormed := hold _ rfl
        show Value.dictionary (DictionaryValue.mergeDictionary subDict sub)
          = .dictionary (union subDict sub) ↔ CopiesHollow subDict sub
        rw [Value.dictionary.injEq, mergeDictionary_eq_mergeWith, union_eq_mergeWith,
          mergeWith_eq_iff hsubDict.1 hvalue.1]
        exact mergedValues_eq_iff sub hvalue.2 subDict hsubDict.2
      | _ => exact dictionary_nil_eq_iff sub
  | .null, _, _, _ | .boolean _, _, _, _ | .charInteger _, _, _, _ | .shortInteger _, _, _, _
  | .integer _, _, _, _ | .bigInteger _, _, _, _ | .real _, _, _, _ | .string _, _, _, _
  | .binary _, _, _, _ | .list _, _, _, _ => deepCopy_eq_self_iff _

/-- Where the merge of values is the literal one. By induction on the second dictionary. -/
theorem mergedValues_eq_iff : (dictionary : Entries D) → Value.WellFormedEntries dictionary →
    (entries : Entries D) → Value.WellFormedEntries entries →
      ((∀ p ∈ dictionary, mergedValue (OrderedMap.find p.1 entries) p.2
          = unionValue (OrderedMap.find p.1 entries) p.2) ↔ CopiesHollow entries dictionary)
  | [], _, _, _ => iff_of_true (fun _ hp => by cases hp) trivial
  | (key, value) :: dictionary, h, entries, hentries => by
    rw [List.forall_mem_cons]
    exact and_congr
      (mergedValue_eq_iff value h.1 (OrderedMap.find key entries)
        (wellFormed_of_find hentries key))
      (mergedValues_eq_iff dictionary h.2 entries hentries)

end

/-! ### Merging twice -/

/-- A second merge is settled under each key: what is not in the dictionary is not
touched. -/
theorem mergeDictionary_again {entries dictionary : Entries D}
    (hentries : OrderedMap.Sorted entries) (hdictionary : OrderedMap.Sorted dictionary)
    (h : ∀ p ∈ dictionary,
      mergedValue (some (mergedValue (OrderedMap.find p.1 entries) p.2)) p.2
        = mergedValue (OrderedMap.find p.1 entries) p.2) :
    DictionaryValue.mergeDictionary (DictionaryValue.mergeDictionary entries dictionary) dictionary
      = DictionaryValue.mergeDictionary entries dictionary := by
  rw [mergeDictionary_eq_mergeWith, mergeDictionary_eq_mergeWith]
  have honce := hentries.mergeWith (f := mergedValue) dictionary
  refine (honce.mergeWith dictionary).ext honce fun key => ?_
  cases hfind : OrderedMap.find key dictionary with
  | none => exact OrderedMap.find_mergeWith_of_none hfind _
  | some value =>
    rw [OrderedMap.find_mergeWith_of_some hdictionary hfind,
      OrderedMap.find_mergeWith_of_some hdictionary hfind]
    exact congrArg some (h _ (OrderedMap.mem_of_find hfind))

mutual

/-- Where nothing was lost, the same value merged again changes nothing. -/
theorem mergedValue_again : (value : Value D) → value.WellFormed → (old : Option (Value D)) →
    (∀ v ∈ old, v.WellFormed) → CopiesHollowAt old value →
      mergedValue (some (mergedValue old value)) value = mergedValue old value
  | .dictionary sub, hvalue, old, hold, h => by
    cases old with
    | none =>
      -- The empty dictionary that was copied is merged into itself.
      have hsub : sub = [] := h
      subst hsub
      rfl
    | some v =>
      cases v with
      | dictionary subDict =>
        have hsubDict : (Value.dictionary subDict).WellFormed := hold _ rfl
        have hagain := mergeDictionary_again hsubDict.1 hvalue.1
          (mergedValues_again sub hvalue.2 subDict hsubDict.2 h)
        exact congrArg Value.dictionary hagain
      | _ =>
        have hsub : sub = [] := h
        subst hsub
        rfl
  | .null, _, _, _, _ | .boolean _, _, _, _, _ | .charInteger _, _, _, _, _
  | .shortInteger _, _, _, _, _ | .integer _, _, _, _, _ | .bigInteger _, _, _, _, _
  | .real _, _, _, _, _ | .string _, _, _, _, _ | .binary _, _, _, _, _
  | .list _, _, _, _, _ => rfl

/-- Where a second merge changes nothing more. -/
theorem mergedValues_again : (dictionary : Entries D) → Value.WellFormedEntries dictionary →
    (entries : Entries D) → Value.WellFormedEntries entries → CopiesHollow entries dictionary →
      ∀ p ∈ dictionary, mergedValue (some (mergedValue (OrderedMap.find p.1 entries) p.2)) p.2
        = mergedValue (OrderedMap.find p.1 entries) p.2
  | [], _, _, _, _ => fun _ hp => by cases hp
  | (key, value) :: dictionary, h, entries, hentries, hcopies => by
    rw [List.forall_mem_cons]
    exact ⟨mergedValue_again value h.1 (OrderedMap.find key entries)
        (wellFormed_of_find hentries key) hcopies.1,
      mergedValues_again dictionary h.2 entries hentries hcopies.2⟩

end

/-! ### The union law -/

/-- What is promised of `entries.MergeDictionary(dictionary)`: a key of `dictionary` holds
the union of what the two sides hold, every other key holds what it held, and a second
merge changes nothing. The argument is `const` and is only read, so it is the same
`dictionary` throughout. -/
structure MergesAsUnion (entries dictionary : Entries D) : Prop where
  lookup : ∀ key,
    OrderedMap.find key (DictionaryValue.mergeDictionary entries dictionary)
      = match OrderedMap.find key dictionary with
        | none => OrderedMap.find key entries
        | some value => some (unionValue (OrderedMap.find key entries) value)
  again :
    DictionaryValue.mergeDictionary (DictionaryValue.mergeDictionary entries dictionary) dictionary
      = DictionaryValue.mergeDictionary entries dictionary

/-- `MergeDictionary` is the recursive union exactly when every value it has to copy, at
any depth, is free of dictionaries with entries. -/
theorem mergesAsUnion_iff {entries dictionary : Entries D}
    (hentries : (Value.dictionary entries).WellFormed)
    (hdictionary : (Value.dictionary dictionary).WellFormed) :
    MergesAsUnion entries dictionary ↔ CopiesHollow entries dictionary := by
  constructor
  · intro h
    refine (mergedValues_eq_iff dictionary hdictionary.2 entries hentries.2).mp fun p hp => ?_
    have hfind := hdictionary.1.find_of_mem hp
    have hlookup := h.lookup p.1
    rw [mergeDictionary_eq_mergeWith, OrderedMap.find_mergeWith_of_some hdictionary.1 hfind,
      hfind] at hlookup
    exact Option.some.inj hlookup
  · intro h
    have hvalues := (mergedValues_eq_iff dictionary hdictionary.2 entries hentries.2).mpr h
    refine ⟨fun key => ?_, mergeDictionary_again hentries.1 hdictionary.1
      (mergedValues_again dictionary hdictionary.2 entries hentries.2 h)⟩
    rw [mergeDictionary_eq_mergeWith]
    cases hfind : OrderedMap.find key dictionary with
    | none => exact OrderedMap.find_mergeWith_of_none hfind _
    | some value =>
      rw [OrderedMap.find_mergeWith_of_some hdictionary.1 hfind]
      exact congrArg some (hvalues _ (OrderedMap.mem_of_find hfind))

/-- `{"a": {"b": null}}` merged with `{"a": {"c": {}}, "d": [1]}`. -/
theorem mergesAsUnion_nested :
    MergesAsUnion (D := Unit) [([97], .dictionary [([98], .null)])]
      [([97], .dictionary [([99], .dictionary [])]), ([100], .list [.integer 1])] := by
  refine (mergesAsUnion_iff ?_ ?_).mpr ?_
  · simp [Value.WellFormed, Value.WellFormedEntries, OrderedMap.Sorted]
  · simp [Value.WellFormed, Value.WellFormedEntries, Value.WellFormedItems, OrderedMap.Sorted]
    decide
  · simp [CopiesHollow, CopiesHollowAt, OrderedMap.find, Hollow, HollowItems]

/-- Into the empty dictionary, `{"a": {"b": null}}` is merged as `{"a": {}}`. -/
theorem not_mergesAsUnion_copied :
    ¬MergesAsUnion (D := Unit) [] [([97], .dictionary [([98], .null)])] := by
  intro h
  have hlookup : some (Value.dictionary ([] : Entries Unit))
      = some (.dictionary [([98], .null)]) := h.lookup [97]
  simp at hlookup

end Mylib.Proofs.Base
