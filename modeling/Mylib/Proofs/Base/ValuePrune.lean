import Mylib.Proofs.Base.ValuePaths

/-!
# `Mylib.Proofs.Base.ValuePrune`: copies without empty children

`Pruned` says what `DeepCopyWithoutEmptyChildren` promises. The leaves of a tree are listed
with their paths, in order (`leaves`). The copy has the same leaves in the same order. The
keys on a path stay, and an index in a list becomes the number of the items before it that
hold a leaf (`renumber`).

* `copyWithoutEmptyChildren_eq_none_iff`: a subtree goes exactly when it holds no leaf.
* `leaves_copy`: the leaves that stay, and where.
* `copy_of_full`: a tree without empty containers is its own copy.
* `deepCopyWithoutEmptyChildren_pruned`: the four parts of the promise.
-/

set_option autoImplicit false

namespace Mylib.Proofs.Base

open Mylib.Lib Mylib.Spec.Base
open Value (copyWithoutEmptyChildren)

variable {D : Type}

/-! ### Leaves -/

/-- From a container to one of its children. -/
inductive Step where
  | key (k : WString)
  | index (i : Nat)
  deriving DecidableEq

/-- A value that is no container, with its path. -/
abbrev Leaf (D : Type) := List Step × Value D

/-- A leaf of a child, seen from the container. -/
def below (step : Step) (leaf : Leaf D) : Leaf D := (step :: leaf.1, leaf.2)

mutual

/-- The leaves of a tree, in order. -/
def leaves : Value D → List (Leaf D)
  | .dictionary entries => leavesEntries entries
  | .list items => leavesItems 0 items
  | value => [([], value)]

def leavesEntries : Entries D → List (Leaf D)
  | [] => []
  | (key, value) :: entries => (leaves value).map (below (.key key)) ++ leavesEntries entries

/-- The leaves of the items from the index `i` on. -/
def leavesItems (i : Nat) : List (Value D) → List (Leaf D)
  | [] => []
  | value :: items => (leaves value).map (below (.index i)) ++ leavesItems (i + 1) items

end

/-- The value holds a leaf. -/
def holdsLeaf (value : Value D) : Bool := !(leaves value).isEmpty

mutual

/-- The path of a leaf after the subtrees without leaves are gone. -/
def renumber : Value D → List Step → List Step
  | .dictionary entries, .key k :: path => .key k :: renumberEntry k entries path
  | .list items, .index i :: path =>
    .index ((items.take i).countP holdsLeaf) :: renumberItem i items path
  | _, path => path

def renumberEntry (k : WString) : Entries D → List Step → List Step
  | [], path => path
  | (key, value) :: entries, path =>
    if k = key then renumber value path else renumberEntry k entries path

def renumberItem : Nat → List (Value D) → List Step → List Step
  | _, [], path => path
  | 0, value :: _, path => renumber value path
  | i + 1, _ :: items, path => renumberItem i items path

end

/-! ### The promise -/

mutual

/-- No container in the tree is empty, the tree itself included. -/
def Full : Value D → Prop
  | .dictionary entries => entries ≠ [] ∧ FullEntries entries
  | .list items => items ≠ [] ∧ FullItems items
  | _ => True

def FullEntries : Entries D → Prop
  | [] => True
  | (_, value) :: entries => Full value ∧ FullEntries entries

def FullItems : List (Value D) → Prop
  | [] => True
  | value :: items => Full value ∧ FullItems items

end

/-- The dictionary `copy` is the dictionary `entries` without its empty containers. -/
structure Pruned (entries copy : Entries D) : Prop where
  full : FullEntries copy
  leaves : leavesEntries copy
    = (leavesEntries entries).map fun leaf => (renumber (.dictionary entries) leaf.1, leaf.2)
  empty : leavesEntries entries = [] → copy = []
  again : DictionaryValue.deepCopyWithoutEmptyChildren copy = copy

/-! ### Induction over trees -/

/-- A value that is neither a list nor a dictionary. -/
def Scalar : Value D → Prop
  | .dictionary _ => False
  | .list _ => False
  | _ => True

section

variable {P : Value D → Prop} (scalar : ∀ value, Scalar value → P value)
  (list : ∀ items : List (Value D), (∀ value ∈ items, P value) → P (.list items))
  (dictionary : ∀ entries : Entries D, (∀ entry ∈ entries, P entry.2) → P (.dictionary entries))

include scalar list dictionary

/-- A property of scalars that passes from the children to their container. -/
theorem value_induction (value : Value D) : P value := by
  induction hsize : sizeOf value using Nat.strong_induction_on generalizing value with
  | _ size ih =>
    subst hsize
    cases value with
    | list items =>
      refine list items fun item hitem => ih _ ?_ item rfl
      have hlt := List.sizeOf_lt_of_mem hitem
      simp only [Value.list.sizeOf_spec]
      omega
    | dictionary entries =>
      refine dictionary entries fun entry hentry => ih _ ?_ entry.2 rfl
      have hlt := List.sizeOf_lt_of_mem hentry
      simp only [Value.dictionary.sizeOf_spec]
      rw [show sizeOf entry = 1 + sizeOf entry.1 + sizeOf entry.2 from rfl] at hlt
      omega
    | _ => exact scalar _ trivial

end

/-! ### The parts of a container -/

/-- A dictionary is full if its values are. -/
theorem fullEntries_iff {entries : Entries D} :
    FullEntries entries ↔ ∀ entry ∈ entries, Full entry.2 := by
  induction entries with
  | nil => simp [FullEntries]
  | cons entry entries ih =>
    rw [List.forall_mem_cons, ← ih]
    rfl

/-- A list is full if its items are. -/
theorem fullItems_iff {items : List (Value D)} : FullItems items ↔ ∀ item ∈ items, Full item := by
  induction items with
  | nil => simp [FullItems]
  | cons item items ih =>
    rw [List.forall_mem_cons, ← ih]
    rfl

/-- A list is well-formed if its items are. -/
theorem wellFormedItems_iff {items : List (Value D)} :
    Value.WellFormedItems items ↔ ∀ item ∈ items, item.WellFormed := by
  induction items with
  | nil => simp [Value.WellFormedItems]
  | cons item items ih =>
    rw [List.forall_mem_cons, ← ih]
    rfl

/-- A dictionary without leaves has values without leaves. -/
theorem leavesEntries_eq_nil {entries : Entries D} :
    leavesEntries entries = [] ↔ ∀ entry ∈ entries, leaves entry.2 = [] := by
  induction entries with
  | nil => simp [leavesEntries]
  | cons entry entries ih =>
    rw [List.forall_mem_cons, ← ih, leavesEntries, List.append_eq_nil_iff, List.map_eq_nil_iff]

/-- A list without leaves has items without leaves. -/
theorem leavesItems_eq_nil {items : List (Value D)} (i : Nat) :
    leavesItems i items = [] ↔ ∀ item ∈ items, leaves item = [] := by
  induction items generalizing i with
  | nil => simp [leavesItems]
  | cons item items ih =>
    rw [List.forall_mem_cons, ← ih (i + 1), leavesItems, List.append_eq_nil_iff,
      List.map_eq_nil_iff]

/-- A scalar is its own copy and its only leaf. -/
theorem copy_of_scalar {value : Value D} (h : Scalar value) :
    copyWithoutEmptyChildren value = some value := by
  cases value with
  | list items => exact h.elim
  | dictionary entries => exact h.elim
  | _ => rfl

/-- A value that is no container is its own leaf. -/
theorem leaves_of_scalar {value : Value D} (h : Scalar value) : leaves value = [([], value)] := by
  cases value with
  | list items => exact h.elim
  | dictionary entries => exact h.elim
  | _ => rfl

/-! ### The loops -/

/-- The entries whose values have a copy, with the copies. -/
def copiedEntries (entries : Entries D) : Entries D :=
  entries.filterMap fun entry => (copyWithoutEmptyChildren entry.2).map (entry.1, ·)

/-- The items of a copied list are those copies that there are. -/
theorem appendCopies_eq (copy items : List (Value D)) :
    Value.appendCopies copy items = copy ++ items.filterMap copyWithoutEmptyChildren := by
  induction items generalizing copy with
  | nil => exact (List.append_nil _).symm
  | cons item items ih =>
    rw [Value.appendCopies, List.filterMap_cons]
    cases copyWithoutEmptyChildren item with
    | none => exact ih copy
    | some childCopy =>
      dsimp only
      rw [ih, List.append_assoc]
      rfl

/-- The entries of a copied dictionary, set one after the other. -/
theorem setCopies_eq (copy entries : Entries D) :
    Value.setCopies copy entries = OrderedMap.setAll copy (copiedEntries entries) := by
  induction entries generalizing copy with
  | nil => rfl
  | cons entry entries ih =>
    rw [Value.setCopies, copiedEntries, List.filterMap_cons]
    cases copyWithoutEmptyChildren entry.2 with
    | none => exact ih copy
    | some childCopy => exact ih _

/-- The keys of the copies rise as those of the entries do. -/
theorem sorted_copiedEntries {entries : Entries D} (h : OrderedMap.Sorted entries) :
    OrderedMap.Sorted (copiedEntries entries) := by
  refine List.Pairwise.filterMap _ (fun p q hlt p' hp q' hq => ?_) h
  obtain ⟨value, -, rfl⟩ := Option.map_eq_some_iff.mp hp
  obtain ⟨value', -, rfl⟩ := Option.map_eq_some_iff.mp hq
  exact hlt

/-- A list is copied unless nothing of it is. -/
theorem copy_list (items : List (Value D)) : copyWithoutEmptyChildren (.list items)
    = if items.filterMap copyWithoutEmptyChildren = [] then none
      else some (.list (items.filterMap copyWithoutEmptyChildren)) := by
  rw [copyWithoutEmptyChildren, appendCopies_eq, List.nil_append]
  cases items.filterMap copyWithoutEmptyChildren <;> rfl

/-- A dictionary is copied unless nothing of it is. -/
theorem copy_dictionary {entries : Entries D} (h : OrderedMap.Sorted entries) :
    copyWithoutEmptyChildren (.dictionary entries)
      = if copiedEntries entries = [] then none
        else some (.dictionary (copiedEntries entries)) := by
  rw [copyWithoutEmptyChildren, setCopies_eq,
    -- The keys rise, so every `Set` appends.
    OrderedMap.setAll_eq_append (by simpa using sorted_copiedEntries h), List.nil_append]
  cases copiedEntries entries <;> rfl

/-- What is known of a list that was copied. -/
theorem of_copy_list {items : List (Value D)} {copy : Value D}
    (h : copyWithoutEmptyChildren (.list items) = some copy) :
    items.filterMap copyWithoutEmptyChildren ≠ [] ∧
      .list (items.filterMap copyWithoutEmptyChildren) = copy := by
  rw [copy_list] at h
  split_ifs at h with hempty
  exact ⟨hempty, Option.some.inj h⟩

/-- What is known of a dictionary that was copied. -/
theorem of_copy_dictionary {entries : Entries D} {copy : Value D}
    (hsorted : OrderedMap.Sorted entries)
    (h : copyWithoutEmptyChildren (.dictionary entries) = some copy) :
    copiedEntries entries ≠ [] ∧ .dictionary (copiedEntries entries) = copy := by
  rw [copy_dictionary hsorted] at h
  split_ifs at h with hempty
  exact ⟨hempty, Option.some.inj h⟩

/-- An entry of the copy comes from one whose value was copied. -/
theorem mem_copiedEntries {entries : Entries D} {entry : WString × Value D} :
    entry ∈ copiedEntries entries ↔
      ∃ value, (entry.1, value) ∈ entries ∧ copyWithoutEmptyChildren value = some entry.2 := by
  simp only [copiedEntries, List.mem_filterMap, Option.map_eq_some_iff]
  constructor
  · rintro ⟨old, hmem, copy, hcopy, rfl⟩
    exact ⟨old.2, hmem, hcopy⟩
  · rintro ⟨value, hmem, hcopy⟩
    exact ⟨_, hmem, _, hcopy, rfl⟩

/-- No entry is copied exactly if no value is. -/
theorem copiedEntries_eq_nil {entries : Entries D} :
    copiedEntries entries = [] ↔ ∀ entry ∈ entries, copyWithoutEmptyChildren entry.2 = none := by
  simp [copiedEntries, List.filterMap_eq_nil_iff]

/-! ### What goes -/

/-- Exactly the values without leaves are not copied. -/
theorem copyWithoutEmptyChildren_eq_none_iff (value : Value D) (h : value.WellFormed) :
    copyWithoutEmptyChildren value = none ↔ leaves value = [] := by
  induction value using value_induction with
  | scalar value hscalar => simp [copy_of_scalar hscalar, leaves_of_scalar hscalar]
  | list items ih =>
    have hitems := wellFormedItems_iff.mp h
    rw [copy_list, leaves, leavesItems_eq_nil]
    simp only [ite_eq_left_iff, reduceCtorEq, imp_false, not_not, List.filterMap_eq_nil_iff]
    exact forall₂_congr fun item hitem => ih item hitem (hitems item hitem)
  | dictionary entries ih =>
    have hentries := wellFormedEntries_iff.mp h.2
    rw [copy_dictionary h.1, leaves, leavesEntries_eq_nil]
    simp only [ite_eq_left_iff, reduceCtorEq, imp_false, not_not, copiedEntries_eq_nil]
    exact forall₂_congr fun entry hentry => ih entry hentry (hentries entry hentry)

/-- What is copied has no empty container left. -/
theorem full_copy (value : Value D) (h : value.WellFormed) {copy : Value D}
    (hcopy : copyWithoutEmptyChildren value = some copy) : Full copy ∧ copy.WellFormed := by
  induction value using value_induction generalizing copy with
  | scalar value hscalar =>
    rw [copy_of_scalar hscalar, Option.some.injEq] at hcopy
    subst hcopy
    cases value with
    | list items => exact hscalar.elim
    | dictionary entries => exact hscalar.elim
    | _ => exact ⟨trivial, trivial⟩
  | list items ih =>
    have hitems := wellFormedItems_iff.mp h
    obtain ⟨hempty, rfl⟩ := of_copy_list hcopy
    -- A child of the copy is the copy of a child.
    have hchild : ∀ child ∈ items.filterMap copyWithoutEmptyChildren,
        Full child ∧ child.WellFormed := by
      intro child hchild
      obtain ⟨item, hitem, hcopy⟩ := List.mem_filterMap.mp hchild
      exact ih item hitem (hitems item hitem) hcopy
    exact ⟨⟨hempty, fullItems_iff.mpr fun child hmem => (hchild child hmem).1⟩,
      wellFormedItems_iff.mpr fun child hmem => (hchild child hmem).2⟩
  | dictionary entries ih =>
    have hentries := wellFormedEntries_iff.mp h.2
    obtain ⟨hempty, rfl⟩ := of_copy_dictionary h.1 hcopy
    -- An entry of the copy has the copy of an entry's value.
    have hchild : ∀ entry ∈ copiedEntries entries, Full entry.2 ∧ entry.2.WellFormed := by
      intro entry hentry
      obtain ⟨value, hvalue, hcopy⟩ := mem_copiedEntries.mp hentry
      exact ih _ hvalue (hentries _ hvalue) hcopy
    exact ⟨⟨hempty, fullEntries_iff.mpr fun entry hmem => (hchild entry hmem).1⟩,
      sorted_copiedEntries h.1, wellFormedEntries_iff.mpr fun entry hmem => (hchild entry hmem).2⟩

/-! ### What stays, and where -/

/-- A leaf with the path it has in the copy. -/
def moved (value : Value D) (leaf : Leaf D) : Leaf D := (renumber value leaf.1, leaf.2)

/-- An item's leaves keep their paths below its new index. -/
theorem renumberItem_append (pre items : List (Value D)) (item : Value D) (path : List Step) :
    renumberItem pre.length (pre ++ item :: items) path = renumber item path := by
  induction pre with
  | nil => rfl
  | cons value pre ih => exact ih

/-- An entry's leaves keep their key. -/
theorem renumberEntry_of_mem {entries : Entries D} (h : OrderedMap.Sorted entries)
    {entry : WString × Value D} (hentry : entry ∈ entries) (path : List Step) :
    renumberEntry entry.1 entries path = renumber entry.2 path := by
  -- In a sorted map the entry is the first one with its key, and that is what is looked up.
  have hfind := h.find_of_mem hentry
  clear h hentry
  induction entries with
  | nil => cases hfind
  | cons first entries ih =>
    rw [OrderedMap.find] at hfind
    rw [renumberEntry]
    split_ifs at hfind ⊢ with hkey
    · rw [Option.some.inj hfind]
    · exact ih hfind

/-- A leaf of an item: its index becomes the number of the items before it that stay. -/
theorem moved_item (pre items : List (Value D)) (item : Value D) (leaf : Leaf D) :
    moved (.list (pre ++ item :: items)) (below (.index pre.length) leaf)
      = below (.index (pre.countP holdsLeaf)) (moved item leaf) := by
  simp only [moved, below, renumber, List.take_left', renumberItem_append]

/-- The leaves of an entry, moved to the copy. -/
theorem moved_entry {entries : Entries D} (h : OrderedMap.Sorted entries)
    {entry : WString × Value D} (hentry : entry ∈ entries) (leaf : Leaf D) :
    moved (.dictionary entries) (below (.key entry.1) leaf)
      = below (.key entry.1) (moved entry.2 leaf) := by
  simp only [moved, below, renumber, renumberEntry_of_mem h hentry]

/-- Whether a value has leaves decides whether it is copied. -/
theorem holdsLeaf_eq {value : Value D} (h : value.WellFormed) :
    holdsLeaf value = (copyWithoutEmptyChildren value).isSome := by
  rw [Bool.eq_iff_iff, Option.isSome_iff_ne_none, ne_eq,
    copyWithoutEmptyChildren_eq_none_iff value h]
  simp [holdsLeaf]

/-- The items from behind `pre` on, all of whose copies have their leaves where they belong. -/
theorem leavesItems_copies (pre : List (Value D)) {items : List (Value D)}
    (hwell : ∀ item ∈ items, item.WellFormed)
    (h : ∀ item ∈ items, ∀ copy, copyWithoutEmptyChildren item = some copy →
      leaves copy = (leaves item).map (moved item)) :
    leavesItems (pre.countP holdsLeaf) (items.filterMap copyWithoutEmptyChildren)
      = (leavesItems pre.length items).map (moved (.list (pre ++ items))) := by
  induction items generalizing pre with
  | nil => rfl
  | cons item items ih =>
    obtain ⟨hwellItem, hwellItems⟩ := List.forall_mem_cons.mp hwell
    obtain ⟨hitem, hitems⟩ := List.forall_mem_cons.mp h
    -- The item moves over to the front, and counts there if it has a copy.
    have hrest := ih (pre ++ [item]) hwellItems hitems
    rw [List.append_assoc, List.singleton_append, List.length_append, List.length_singleton,
      List.countP_append, List.countP_singleton, holdsLeaf_eq hwellItem] at hrest
    have hmoved : moved (.list (pre ++ item :: items)) ∘ below (.index pre.length)
        = below (.index (pre.countP holdsLeaf)) ∘ moved item :=
      funext fun leaf => moved_item pre items item leaf
    rw [leavesItems, List.map_append, List.map_map, ← hrest, List.filterMap_cons, hmoved]
    cases hcopy : copyWithoutEmptyChildren item with
    | none =>
      -- The item goes, and it had no leaves.
      rw [(copyWithoutEmptyChildren_eq_none_iff item hwellItem).mp hcopy]
      rfl
    | some copy =>
      dsimp only
      rw [leavesItems, hitem copy hcopy, List.map_map]
      rfl

/-- The leaves of the copied entries are those of the entries, in the same order. -/
theorem leavesEntries_copies {all entries : Entries D} (hsorted : OrderedMap.Sorted all)
    (hmem : ∀ entry ∈ entries, entry ∈ all) (hwell : ∀ entry ∈ entries, entry.2.WellFormed)
    (h : ∀ entry ∈ entries, ∀ copy, copyWithoutEmptyChildren entry.2 = some copy →
      leaves copy = (leaves entry.2).map (moved entry.2)) :
    leavesEntries (copiedEntries entries)
      = (leavesEntries entries).map (moved (.dictionary all)) := by
  induction entries with
  | nil => rfl
  | cons entry entries ih =>
    obtain ⟨hmemEntry, hmemEntries⟩ := List.forall_mem_cons.mp hmem
    obtain ⟨hwellEntry, hwellEntries⟩ := List.forall_mem_cons.mp hwell
    obtain ⟨hentry, hentries⟩ := List.forall_mem_cons.mp h
    -- Moving a leaf to the copy keeps the key that it is below.
    have hmoved : moved (.dictionary all) ∘ below (.key entry.1)
        = below (.key entry.1) ∘ moved entry.2 :=
      funext fun leaf => moved_entry hsorted hmemEntry leaf
    rw [leavesEntries, List.map_append, List.map_map, ← ih hmemEntries hwellEntries hentries,
      copiedEntries, List.filterMap_cons, hmoved]
    -- An entry without leaves is dropped and has none to lose.
    cases hcopy : copyWithoutEmptyChildren entry.2 with
    | none =>
      rw [(copyWithoutEmptyChildren_eq_none_iff entry.2 hwellEntry).mp hcopy]
      rfl
    | some copy =>
      dsimp only [Option.map_some]
      rw [leavesEntries, hentry copy hcopy, List.map_map]
      rfl

/-- The copy has the leaves of the tree, in order, each where it belongs. -/
theorem leaves_copy (value : Value D) (h : value.WellFormed) {copy : Value D}
    (hcopy : copyWithoutEmptyChildren value = some copy) :
    leaves copy = (leaves value).map (moved value) := by
  induction value using value_induction generalizing copy with
  | scalar value hscalar =>
    rw [copy_of_scalar hscalar, Option.some.injEq] at hcopy
    subst hcopy
    rw [leaves_of_scalar hscalar]
    cases value with
    | list items => exact hscalar.elim
    | dictionary entries => exact hscalar.elim
    | _ => rfl
  | list items ih =>
    have hitems := wellFormedItems_iff.mp h
    obtain ⟨-, rfl⟩ := of_copy_list hcopy
    exact leavesItems_copies [] hitems fun item hitem copy => ih item hitem (hitems item hitem)
  | dictionary entries ih =>
    have hentries := wellFormedEntries_iff.mp h.2
    obtain ⟨-, rfl⟩ := of_copy_dictionary h.1 hcopy
    exact leavesEntries_copies h.1 (fun entry hentry => hentry) hentries
      fun entry hentry copy => ih entry hentry (hentries entry hentry)

/-! ### A second copy -/

/-- A tree without empty containers is its own copy. -/
theorem copy_of_full (value : Value D) (h : value.WellFormed) (hfull : Full value) :
    copyWithoutEmptyChildren value = some value := by
  induction value using value_induction with
  | scalar value hscalar => exact copy_of_scalar hscalar
  | list items ih =>
    have hitems := wellFormedItems_iff.mp h
    have hfulls := fullItems_iff.mp hfull.2
    -- Every item is its own copy, so none is dropped.
    have hcopies : items.filterMap copyWithoutEmptyChildren = items := by
      rw [List.filterMap_congr (g := some)]
      · exact List.filterMap_some
      · exact fun item hitem => ih item hitem (hitems item hitem) (hfulls item hitem)
    rw [copy_list, hcopies, if_neg hfull.1]
  | dictionary entries ih =>
    have hentries := wellFormedEntries_iff.mp h.2
    have hfulls := fullEntries_iff.mp hfull.2
    -- Every value is its own copy, so no entry is dropped.
    have hcopies : copiedEntries entries = entries := by
      rw [copiedEntries, List.filterMap_congr (g := some)]
      · exact List.filterMap_some
      · intro entry hentry
        rw [ih entry hentry (hentries entry hentry) (hfulls entry hentry)]
        rfl
    rw [copy_dictionary h.1, hcopies, if_neg hfull.1]

/-! ### `DeepCopyWithoutEmptyChildren` -/

/-- The copy of the whole dictionary is the list of its copied entries. -/
theorem deepCopyWithoutEmptyChildren_eq {entries : Entries D} (h : OrderedMap.Sorted entries) :
    DictionaryValue.deepCopyWithoutEmptyChildren entries = copiedEntries entries := by
  rw [DictionaryValue.deepCopyWithoutEmptyChildren, copy_dictionary h]
  split_ifs with hempty
  · exact hempty.symm
  · rfl

/-- Without leaves nothing is copied. -/
theorem copiedEntries_nil_of_leaves {entries : Entries D}
    (h : (Value.dictionary entries).WellFormed) (hleaves : leavesEntries entries = []) :
    copiedEntries entries = [] := by
  have hnone := (copyWithoutEmptyChildren_eq_none_iff _ h).mpr hleaves
  rw [copy_dictionary h.1] at hnone
  split_ifs at hnone with hempty
  exact hempty

/-- **The copy is the pruned tree**: it has no empty container, it has the leaves of the original in
their order, it is empty exactly if there are none, and copying it again changes nothing. -/
theorem deepCopyWithoutEmptyChildren_pruned {entries : Entries D}
    (h : (Value.dictionary entries).WellFormed) :
    Pruned entries (DictionaryValue.deepCopyWithoutEmptyChildren entries) := by
  have hentries := wellFormedEntries_iff.mp h.2
  have hsorted := sorted_copiedEntries h.1
  -- What was copied is full and well-formed.
  have hcopies : ∀ entry ∈ copiedEntries entries, Full entry.2 ∧ entry.2.WellFormed := by
    intro entry hentry
    obtain ⟨value, hvalue, hcopy⟩ := mem_copiedEntries.mp hentry
    exact full_copy value (hentries _ hvalue) hcopy
  have hfull := fullEntries_iff.mpr fun entry hentry => (hcopies entry hentry).1
  rw [deepCopyWithoutEmptyChildren_eq h.1]
  refine ⟨hfull, ?_, copiedEntries_nil_of_leaves h, ?_⟩
  · exact leavesEntries_copies h.1 (fun entry hentry => hentry) hentries
      fun entry hentry copy => leaves_copy entry.2 (hentries entry hentry)
  · -- The copy is full unless it is the empty dictionary, which is its own copy, too.
    rw [deepCopyWithoutEmptyChildren_eq hsorted]
    by_cases hempty : copiedEntries entries = []
    · rw [hempty]
      rfl
    · have hwell : (Value.dictionary (copiedEntries entries)).WellFormed :=
        ⟨hsorted, wellFormedEntries_iff.mpr fun entry hentry => (hcopies entry hentry).2⟩
      have hcopy := copy_of_full _ hwell ⟨hempty, hfull⟩
      rw [copy_dictionary hsorted] at hcopy
      split_ifs at hcopy with hagain
      simpa using hcopy

/-- `{"a": [[], [null]], "b": {}}` is copied to `{"a": [[null]]}`. -/
theorem pruned_nested : Pruned (D := Unit)
    [([97], .list [.list [], .list [.null]]), ([98], .dictionary [])]
    [([97], .list [.list [.null]])] := by
  have hsorted : OrderedMap.Sorted
      ([([97], .list [.list [], .list [.null]]), ([98], .dictionary [])] : Entries Unit) :=
    List.pairwise_pair.mpr (by decide)
  exact deepCopyWithoutEmptyChildren_pruned
    ⟨hsorted, by simp [Value.WellFormedEntries, Value.WellFormed, Value.WellFormedItems,
      OrderedMap.Sorted]⟩

end Mylib.Proofs.Base
