import Mylib.Spec.Base.ValueTree

/-!
# `Mylib.Proofs.Base.ValuePaths`: dictionaries as stores indexed by paths

`Get` and `Set` cut a path at its first dot, again and again, and `Remove` cuts it at
the last one. All three mean the list of its components: `valueAt` and `storeAt`
follow such a list through a tree, and the methods are these two.

* `get_eq_valueAt`, `set_eq_storeAt`: `Get` and `Set` over the components.
* `valueAt_storeAt`, `valueAt_storeAt_of_apart`: what is stored is found, and nothing
  changes at places that are apart.
* `dictionary_pathIndexed`: the laws of `Set`, `Get` and `Remove` for every tree and
  every path.
* `wellFormed_set`, `wellFormed_remove`: the keys of all dictionaries stay in order.
-/

set_option autoImplicit false

namespace Mylib.Proofs.Base

open Mylib.Lib Mylib.Spec.Base

variable {D : Type}

/-! ### Places in a tree -/

/-- The entries of a dictionary; any other value has none. -/
def entriesOf : Value D → Entries D
  | .dictionary entries => entries
  | _ => []

/-- The value at the end of a way down the dictionaries of a tree. -/
def valueAt : List WString → Value D → Option (Value D)
  | [], root => some root
  | key :: keys, root => (OrderedMap.find key (entriesOf root)).bind (valueAt keys)

/-- The tree with `value` at the end of the way. What is missing on the way, or is no
dictionary, becomes one. -/
def storeAt : List WString → Value D → Value D → Value D
  | [], value, _ => value
  | key :: keys, value, root =>
    .dictionary (OrderedMap.set key
      (storeAt keys value ((OrderedMap.find key (entriesOf root)).getD .null)) (entriesOf root))

/-- Neither list is the beginning of the other. -/
def Apart (p q : List WString) : Prop := ¬p <+: q ∧ ¬q <+: p

/-- Two paths with the same first component are apart if the rest is. -/
theorem apart_cons {key : WString} {p q : List WString} :
    Apart (key :: p) (key :: q) ↔ Apart p q := by
  simp [Apart, List.cons_prefix_cons]

/-- Following a path in two steps. -/
theorem valueAt_append (p q : List WString) (root : Value D) :
    valueAt (p ++ q) root = (valueAt p root).bind (valueAt q) := by
  induction p generalizing root with
  | nil => rfl
  | cons key p ih =>
    show (OrderedMap.find key (entriesOf root)).bind (valueAt (p ++ q)) = _
    rw [funext ih, ← Option.bind_assoc]
    rfl

/-- What was stored is found. -/
theorem valueAt_storeAt (p : List WString) (value root : Value D) :
    valueAt p (storeAt p value root) = some value := by
  induction p generalizing root with
  | nil => rfl
  | cons key p ih =>
    show (OrderedMap.find key (OrderedMap.set key _ (entriesOf root))).bind (valueAt p) = _
    rw [OrderedMap.find_set, if_pos rfl]
    exact ih _

/-- A place that is apart from the one stored at keeps what it has, if anything. -/
theorem valueAt_storeAt_of_apart {p q : List WString} (h : Apart p q) (value root : Value D) :
    valueAt q (storeAt p value root) = valueAt q root := by
  induction p generalizing q root with
  | nil => exact absurd List.nil_prefix h.1
  | cons key p ih =>
    cases q with
    | nil => exact absurd List.nil_prefix h.2
    | cons key' q =>
      show (OrderedMap.find key' (OrderedMap.set key _ (entriesOf root))).bind (valueAt q)
        = (OrderedMap.find key' (entriesOf root)).bind (valueAt q)
      rw [OrderedMap.find_set]
      split_ifs with hkey
      · subst hkey
        show valueAt q (storeAt p value _) = _
        rw [ih (apart_cons.mp h)]
        -- Below a missing value there is nothing, as there is below `null`.
        cases hfind : OrderedMap.find key' (entriesOf root) with
        | some child => rfl
        | none =>
          cases q with
          | nil => exact absurd List.nil_prefix (apart_cons.mp h).2
          | cons key'' q => rfl
      · rfl

/-- Only the entries of the root matter to what is stored below it. -/
theorem storeAt_congr {p : List WString} (hp : p ≠ []) (value : Value D) {root root' : Value D}
    (h : entriesOf root = entriesOf root') : storeAt p value root = storeAt p value root' := by
  cases p with
  | nil => exact absurd rfl hp
  | cons key p =>
    unfold storeAt
    rw [h]

/-! ### The components of a path -/

/-- The texts between the dots of a path, the empty ones included. -/
def components (path : WString) : List WString := path.splitOn DictionaryValue.dot

/-- A path has a component, maybe an empty one. -/
theorem components_ne_nil (path : WString) : components path ≠ [] :=
  List.splitOn_ne_nil _ _

/-- If no dot is found, there is none. -/
theorem dot_notMem_of_find {path : WString} (h : DictionaryValue.find path = none) :
    DictionaryValue.dot ∉ path :=
  List.idxOf?_eq_none_iff.mp h

/-- A path without a dot is its own component. -/
theorem components_of_find_none {path : WString} (h : DictionaryValue.find path = none) :
    components path = [path] :=
  List.splitOn_eq_singleton (dot_notMem_of_find h)

/-- What `find` cuts a path into. -/
theorem eq_append_of_find {path : WString} {pos : Nat}
    (h : DictionaryValue.find path = some pos) :
    path = path.take pos ++ DictionaryValue.dot :: path.drop (pos + 1)
      ∧ DictionaryValue.dot ∉ path.take pos := by
  obtain ⟨hlt, hget, hbefore⟩ := List.idxOf?_eq_some_iff.mp h
  have hdot : path[pos] = DictionaryValue.dot := by simpa using hget
  constructor
  · rw [← hdot, ← List.drop_eq_getElem_cons hlt, List.take_append_drop]
  · intro hmem
    obtain ⟨i, hi, hdoti⟩ := List.mem_take_iff_getElem.mp hmem
    have hi' : i < pos := lt_of_lt_of_le hi (min_le_left _ _)
    simpa [hdoti] using hbefore i hi'

/-- The first dot separates the first component. -/
theorem components_of_find {path : WString} {pos : Nat}
    (h : DictionaryValue.find path = some pos) :
    components path = path.take pos :: components (path.drop (pos + 1)) := by
  obtain ⟨hpath, hdot⟩ := eq_append_of_find h
  conv_lhs => rw [hpath]
  exact List.splitOn_append_cons_self_of_not_mem hdot _

/-- No last dot, no first dot. -/
theorem find_of_rfind_none {path : WString} (h : DictionaryValue.rfind path = none) :
    DictionaryValue.find path = none := by
  unfold DictionaryValue.rfind at h
  rw [Option.map_eq_none_iff, List.idxOf?_eq_none_iff, List.mem_reverse] at h
  exact List.idxOf?_eq_none_iff.mpr h

/-- What `rfind` cuts a path into: the same as `find` on the reversed path. -/
theorem eq_append_of_rfind {path : WString} {pos : Nat}
    (h : DictionaryValue.rfind path = some pos) :
    path = path.take pos ++ DictionaryValue.dot :: path.drop (pos + 1)
      ∧ DictionaryValue.dot ∉ path.drop (pos + 1) := by
  unfold DictionaryValue.rfind at h
  obtain ⟨i, hi, rfl⟩ := Option.map_eq_some_iff.mp h
  have hlt : i < path.reverse.length := DictionaryValue.length_of_find hi
  -- The last dot is the first one of the reversed path.
  obtain ⟨hrev, hdot⟩ := eq_append_of_find hi
  obtain ⟨front, hfront⟩ : ∃ front, front = (path.reverse.drop (i + 1)).reverse := ⟨_, rfl⟩
  obtain ⟨last, hlast⟩ : ∃ last, last = (path.reverse.take i).reverse := ⟨_, rfl⟩
  have hpath : path = front ++ DictionaryValue.dot :: last := by
    rw [hfront, hlast]
    simpa only [List.reverse_reverse, List.reverse_append, List.reverse_cons, List.append_assoc,
      List.singleton_append] using congrArg List.reverse hrev
  have hpos : path.length - 1 - i = front.length := by
    rw [hfront, List.length_reverse, List.length_drop, List.length_reverse]
    omega
  have htake : path.take front.length = front := by rw [hpath, List.take_left]
  have hdrop : path.drop (front.length + 1) = last := by simp [hpath]
  rw [hpos, htake, hdrop]
  refine ⟨hpath, ?_⟩
  rw [hlast, List.mem_reverse]
  exact hdot

/-- The last dot separates the last component. -/
theorem components_of_rfind {path : WString} {pos : Nat}
    (h : DictionaryValue.rfind path = some pos) :
    components path = components (path.take pos) ++ [path.drop (pos + 1)] := by
  obtain ⟨hpath, hdot⟩ := eq_append_of_rfind h
  conv_lhs => rw [hpath]
  show List.splitOn _ (_ ++ _ :: _) = _
  rw [List.splitOn_append_cons_self, List.splitOn_eq_singleton hdot]
  rfl

/-! ### The three methods over the components -/

/-- `GetDictionary` is `Get` of a dictionary. -/
theorem getDictionary_eq_get (path : WString) (entries : Entries D) :
    DictionaryValue.getDictionary path entries
      = match DictionaryValue.get path entries with
        | some (.dictionary sub) => some sub
        | _ => none := by
  unfold DictionaryValue.getDictionary
  rfl

/-- Looking up a path without a dot is looking up a key. -/
theorem get_of_find_none {path : WString} (h : DictionaryValue.find path = none)
    (entries : Entries D) :
    DictionaryValue.get path entries = OrderedMap.find path entries := by
  rw [DictionaryValue.get]
  split
  · rfl
  · simp_all

/-- Looking up a path follows its first component to a dictionary. -/
theorem get_of_find {path : WString} {pos : Nat} (h : DictionaryValue.find path = some pos)
    (entries : Entries D) :
    DictionaryValue.get path entries
      = (DictionaryValue.getDictionary (path.take pos) entries).bind
          (DictionaryValue.get (path.drop (pos + 1))) := by
  rw [DictionaryValue.get]
  split
  · simp_all
  · rename_i pos' h'
    obtain rfl : pos' = pos := Option.some.inj (h'.symm.trans h)
    cases DictionaryValue.getDictionary (path.take pos') entries <;> rfl

/-- `Get` follows the components of the path. -/
theorem get_eq_valueAt (path : WString) (entries : Entries D) :
    DictionaryValue.get path entries = valueAt (components path) (.dictionary entries) := by
  -- Each pass cuts off one component, so the induction is on the length of the path.
  induction hn : path.length using Nat.strong_induction_on generalizing path entries with
  | _ n ih =>
    cases hfind : DictionaryValue.find path with
    | none =>
      rw [get_of_find_none hfind, components_of_find_none hfind]
      show _ = (OrderedMap.find path entries).bind some
      cases OrderedMap.find path entries <;> rfl
    | some pos =>
      have hlt := DictionaryValue.length_of_find hfind
      have hkey : DictionaryValue.find (path.take pos) = none :=
        List.idxOf?_eq_none_iff.mpr (eq_append_of_find hfind).2
      have hrest : ∀ child : Entries D, DictionaryValue.get (path.drop (pos + 1)) child
          = valueAt (components (path.drop (pos + 1))) (.dictionary child) := fun child =>
        ih _ (by rw [List.length_drop]; omega) _ child rfl
      rw [get_of_find hfind, components_of_find hfind, getDictionary_eq_get,
        get_of_find_none hkey]
      show _ = (OrderedMap.find (path.take pos) entries).bind _
      cases hvalue : OrderedMap.find (path.take pos) entries with
      | none => rfl
      | some value =>
        -- A value that is no dictionary has no entries to go on in.
        obtain ⟨key, keys, hkeys⟩ :=
          List.exists_cons_of_ne_nil (components_ne_nil (path.drop (pos + 1)))
        cases value with
        | dictionary child => exact hrest child
        | _ => rw [hkeys]; rfl

/-- A path leads to a dictionary exactly if one stands there. -/
theorem getDictionary_eq_some_iff {path : WString} {entries sub : Entries D} :
    DictionaryValue.getDictionary path entries = some sub
      ↔ valueAt (components path) (.dictionary entries) = some (.dictionary sub) := by
  rw [getDictionary_eq_get, get_eq_valueAt]
  cases valueAt (components path) (.dictionary entries) with
  | none => simp
  | some value => cases value <;> simp

/-- Setting a path without a dot is setting a key. -/
theorem set_of_find_none {path : WString} (h : DictionaryValue.find path = none)
    (value : Value D) (entries : Entries D) :
    DictionaryValue.set path value entries = OrderedMap.set path value entries := by
  rw [DictionaryValue.set]
  split
  · rfl
  · simp_all

/-- Setting a path goes into the dictionary of its first component, which is made if there is
none. -/
theorem set_of_find {path : WString} {pos : Nat} (h : DictionaryValue.find path = some pos)
    (value : Value D) (entries : Entries D) :
    DictionaryValue.set path value entries
      = OrderedMap.set (path.take pos) (.dictionary (DictionaryValue.set (path.drop (pos + 1))
          value ((DictionaryValue.getDictionary (path.take pos) entries).getD []))) entries := by
  rw [DictionaryValue.set]
  split
  · simp_all
  · rename_i pos' h'
    obtain rfl : pos' = pos := Option.some.inj (h'.symm.trans h)
    rfl

/-- `Set` stores at the components of the path. -/
theorem set_eq_storeAt (path : WString) (value : Value D) (entries : Entries D) :
    Value.dictionary (DictionaryValue.set path value entries)
      = storeAt (components path) value (.dictionary entries) := by
  induction hn : path.length using Nat.strong_induction_on generalizing path entries with
  | _ n ih =>
    cases hfind : DictionaryValue.find path with
    | none =>
      rw [set_of_find_none hfind, components_of_find_none hfind]
      rfl
    | some pos =>
      have hlt := DictionaryValue.length_of_find hfind
      have hkey : DictionaryValue.find (path.take pos) = none :=
        List.idxOf?_eq_none_iff.mpr (eq_append_of_find hfind).2
      rw [set_of_find hfind, components_of_find hfind,
        ih _ (by rw [List.length_drop]; omega) _ _ rfl]
      show _ = Value.dictionary (OrderedMap.set (path.take pos)
        (storeAt (components (path.drop (pos + 1))) value
          ((OrderedMap.find (path.take pos) entries).getD .null)) entries)
      -- The child found, or the new one, has the entries that `storeAt` goes on with.
      rw [storeAt_congr (components_ne_nil _) value]
      rw [getDictionary_eq_get, get_of_find_none hkey]
      cases OrderedMap.find (path.take pos) entries with
      | none => rfl
      | some child => cases child <;> rfl

/-! ### `Remove` -/

/-- Removing a key hands back what stood there. -/
theorem removeWithoutPathExpansion_fst (key : WString) (entries : Entries D) :
    (DictionaryValue.removeWithoutPathExpansion key entries).1 = OrderedMap.find key entries := by
  unfold DictionaryValue.removeWithoutPathExpansion
  cases OrderedMap.find key entries <;> rfl

/-- A key that was removed is not found. -/
theorem find_removeWithoutPathExpansion_self (key : WString) (entries : Entries D) :
    OrderedMap.find key (DictionaryValue.removeWithoutPathExpansion key entries).2 = none := by
  unfold DictionaryValue.removeWithoutPathExpansion
  cases hfind : OrderedMap.find key entries with
  | none => exact hfind
  | some value =>
    show OrderedMap.find key (OrderedMap.erase key entries) = none
    rw [OrderedMap.find_erase, if_pos rfl]

/-- Removing a key leaves every other key as before. -/
theorem find_removeWithoutPathExpansion_of_ne {key other : WString} (h : other ≠ key)
    (entries : Entries D) :
    OrderedMap.find other (DictionaryValue.removeWithoutPathExpansion key entries).2
      = OrderedMap.find other entries := by
  unfold DictionaryValue.removeWithoutPathExpansion
  cases OrderedMap.find key entries with
  | none => rfl
  | some value =>
    show OrderedMap.find other (OrderedMap.erase key entries) = _
    rw [OrderedMap.find_erase, if_neg h]

/-- What `Remove` does, over the components: it fails and changes nothing, or it takes the
value under the last component out of the dictionary before it. -/
theorem remove_cases (path : WString) (entries : Entries D) :
    (DictionaryValue.remove path entries = (none, entries)
        ∧ valueAt (components path) (.dictionary entries) = none)
      ∨ ∃ front last sub value rest, components path = front ++ [last]
        ∧ valueAt front (.dictionary entries) = some (.dictionary sub)
        ∧ DictionaryValue.removeWithoutPathExpansion last sub = (some value, rest)
        ∧ (DictionaryValue.remove path entries).1 = some value
        ∧ Value.dictionary (DictionaryValue.remove path entries).2
          = storeAt front (.dictionary rest) (.dictionary entries) := by
  cases hpos : DictionaryValue.rfind path with
  | none =>
    have hrun : DictionaryValue.remove path entries
        = DictionaryValue.removeWithoutPathExpansion path entries := by
      simp only [DictionaryValue.remove, hpos]
    rw [hrun]
    -- Without a dot the dictionary before the last component is the whole one.
    have hcomponents := components_of_find_none (find_of_rfind_none hpos)
    have hfirst := removeWithoutPathExpansion_fst path entries
    cases hfind : OrderedMap.find path entries with
    | none =>
      refine Or.inl ⟨?_, ?_⟩
      · rw [DictionaryValue.removeWithoutPathExpansion, hfind]
      · rw [hcomponents]
        show (OrderedMap.find path entries).bind some = none
        rw [hfind]
        rfl
    | some value =>
      rw [hfind] at hfirst
      exact Or.inr ⟨[], path, entries, value, _, hcomponents, rfl, Prod.ext hfirst rfl, hfirst,
        rfl⟩
  | some pos =>
    have hcomponents := components_of_rfind hpos
    have hvalueAt : ∀ value, valueAt (components (path.take pos)) (.dictionary entries) = value →
        valueAt (components path) (.dictionary entries)
          = value.bind (valueAt [path.drop (pos + 1)]) := by
      intro value hvalue
      rw [hcomponents, valueAt_append, hvalue]
    cases hsub : DictionaryValue.getDictionary (path.take pos) entries with
    | none =>
      refine Or.inl ⟨by simp only [DictionaryValue.remove, hpos, hsub], ?_⟩
      rw [hvalueAt _ rfl]
      rw [getDictionary_eq_get, get_eq_valueAt] at hsub
      cases hroot : valueAt (components (path.take pos)) (.dictionary entries) with
      | none => rfl
      | some value =>
        rw [hroot] at hsub
        cases value with
        | dictionary sub => cases hsub
        | _ => rfl
    | some sub =>
      have hroot := getDictionary_eq_some_iff.mp hsub
      have hfirst := removeWithoutPathExpansion_fst (path.drop (pos + 1)) sub
      cases hremove : DictionaryValue.removeWithoutPathExpansion (path.drop (pos + 1)) sub with
      | mk taken rest =>
        rw [hremove] at hfirst
        cases taken with
        | none =>
          refine Or.inl ⟨by simp only [DictionaryValue.remove, hpos, hsub, hremove], ?_⟩
          rw [hvalueAt _ hroot]
          show (OrderedMap.find (path.drop (pos + 1)) sub).bind some = none
          rw [← hfirst]
          rfl
        | some value =>
          have hrun : DictionaryValue.remove path entries = (some value,
              DictionaryValue.set (path.take pos) (.dictionary rest) entries) := by
            simp only [DictionaryValue.remove, hpos, hsub, hremove]
          rw [hrun]
          exact Or.inr ⟨_, _, sub, value, rest, hcomponents, hroot, hremove, rfl,
            set_eq_storeAt _ _ _⟩

/-- A change of one entry of the dictionary at `front` is not seen from a place apart from
that entry. -/
theorem valueAt_storeAt_entry {front q : List WString} {last : WString}
    (h : Apart (front ++ [last]) q) {root : Value D} {sub rest : Entries D}
    (hroot : valueAt front root = some (.dictionary sub))
    (hrest : ∀ key, key ≠ last → OrderedMap.find key rest = OrderedMap.find key sub) :
    valueAt q (storeAt front (.dictionary rest) root) = valueAt q root := by
  by_cases hfront : front <+: q
  · obtain ⟨below, rfl⟩ := hfront
    rw [valueAt_append, valueAt_append, valueAt_storeAt, hroot]
    show valueAt below (.dictionary rest) = valueAt below (.dictionary sub)
    cases below with
    | nil => exact absurd (by simp) h.2
    | cons key below =>
      have hkey : key ≠ last := by
        rintro rfl
        exact h.1 (by simp)
      show (OrderedMap.find key rest).bind _ = (OrderedMap.find key sub).bind _
      rw [hrest key hkey]
  · refine valueAt_storeAt_of_apart ⟨hfront, fun hq => h.2 ?_⟩ _ _
    exact hq.trans (List.prefix_append _ _)

/-! ### The laws of the store -/

/-- What is promised of `Set`, `Get` and `Remove` on the dictionary with these `entries`,
for one path and one value. A failing `Get` has no tree to leave changed: the method is
`const`. -/
structure PathIndexed (entries : Entries D) (path : WString) (value : Value D) : Prop where
  get_set : DictionaryValue.get path (DictionaryValue.set path value entries) = some value
  get_set_apart : ∀ other, Apart (components path) (components other) →
    DictionaryValue.get other (DictionaryValue.set path value entries)
      = DictionaryValue.get other entries
  remove_value : (DictionaryValue.remove path entries).1 = DictionaryValue.get path entries
  get_remove : DictionaryValue.get path (DictionaryValue.remove path entries).2 = none
  get_remove_apart : ∀ other, Apart (components path) (components other) →
    DictionaryValue.get other (DictionaryValue.remove path entries).2
      = DictionaryValue.get other entries
  remove_failed : (DictionaryValue.remove path entries).1 = none →
    (DictionaryValue.remove path entries).2 = entries

/-- A dictionary is a store indexed by paths: for every tree, path and value. -/
theorem dictionary_pathIndexed (entries : Entries D) (path : WString) (value : Value D) :
    PathIndexed entries path value := by
  -- `Set` stores under the components, and `Get` follows them.
  have hset : ∀ other, DictionaryValue.get other (DictionaryValue.set path value entries)
      = valueAt (components other) (storeAt (components path) value (.dictionary entries)) := by
    intro other
    rw [get_eq_valueAt, set_eq_storeAt]
  have hself := (hset path).trans (valueAt_storeAt _ _ _)
  have hapart : ∀ other, Apart (components path) (components other) →
      DictionaryValue.get other (DictionaryValue.set path value entries)
        = DictionaryValue.get other entries := by
    intro other hother
    rw [hset, valueAt_storeAt_of_apart hother, get_eq_valueAt]
  rcases remove_cases path entries with ⟨hremove, hnone⟩ | ⟨front, last, sub, taken, rest,
    hcomponents, hroot, hlast, htaken, hleft⟩
  · -- `Remove` fails: nothing is under the path, and nothing changes.
    have hget : DictionaryValue.get path entries = none := (get_eq_valueAt _ _).trans hnone
    refine ⟨hself, hapart, ?_, ?_, ?_, ?_⟩
    · rw [hremove, hget]
    · rw [hremove]
      exact hget
    · intro other _
      rw [hremove]
    · intro _
      rw [hremove]
  · -- `Remove` takes out the entry `last` of the dictionary at `front`.
    have hfound : OrderedMap.find last sub = some taken := by
      rw [← removeWithoutPathExpansion_fst, hlast]
    have hgone : OrderedMap.find last rest = none := by
      have := find_removeWithoutPathExpansion_self last sub
      rwa [hlast] at this
    have hothers : ∀ key, key ≠ last → OrderedMap.find key rest = OrderedMap.find key sub := by
      intro key hkey
      have := find_removeWithoutPathExpansion_of_ne hkey sub
      rwa [hlast] at this
    refine ⟨hself, hapart, ?_, ?_, ?_, ?_⟩
    · rw [htaken, get_eq_valueAt, hcomponents, valueAt_append, hroot]
      show some taken = (OrderedMap.find last sub).bind some
      rw [hfound]
      rfl
    · rw [get_eq_valueAt, hleft, hcomponents, valueAt_append, valueAt_storeAt]
      show (OrderedMap.find last rest).bind some = none
      rw [hgone]
      rfl
    · intro other hother
      rw [get_eq_valueAt, get_eq_valueAt, hleft]
      rw [hcomponents] at hother
      exact valueAt_storeAt_entry hother hroot hothers
    · intro hfail
      rw [htaken] at hfail
      cases hfail

/-! ### The order of the keys is kept -/

/-- A dictionary's values are well-formed one by one. -/
theorem wellFormedEntries_iff {entries : Entries D} :
    Value.WellFormedEntries entries ↔ ∀ p ∈ entries, p.2.WellFormed := by
  induction entries with
  | nil => simp [Value.WellFormedEntries]
  | cons p entries ih =>
    rw [List.forall_mem_cons, ← ih]
    rfl

/-- What is found in a well-formed dictionary is well-formed. -/
theorem wellFormed_of_find {entries : Entries D} (h : Value.WellFormedEntries entries)
    (key : WString) : ∀ value ∈ OrderedMap.find key entries, value.WellFormed := by
  intro value hvalue
  exact wellFormedEntries_iff.mp h _ (OrderedMap.mem_of_find hvalue)

/-- The entries of a well-formed value are in order. -/
theorem wellFormed_entriesOf {root : Value D} (h : root.WellFormed) :
    (Value.dictionary (entriesOf root)).WellFormed := by
  cases root with
  | dictionary entries => exact h
  | _ => exact ⟨List.Pairwise.nil, trivial⟩

/-- What stands under a path of a well-formed value is well-formed. -/
theorem wellFormed_valueAt {p : List WString} {root value : Value D} (hroot : root.WellFormed)
    (h : valueAt p root = some value) : value.WellFormed := by
  induction p generalizing root with
  | nil => exact Option.some.inj h ▸ hroot
  | cons key p ih =>
    obtain ⟨child, hchild, hvalue⟩ := Option.bind_eq_some_iff.mp h
    exact ih (wellFormed_of_find (wellFormed_entriesOf hroot).2 key child hchild) hvalue

/-- Storing a well-formed value keeps the whole one so. -/
theorem wellFormed_storeAt (p : List WString) {value root : Value D} (hvalue : value.WellFormed)
    (hroot : root.WellFormed) : (storeAt p value root).WellFormed := by
  induction p generalizing root with
  | nil => exact hvalue
  | cons key p ih =>
    have hentries := wellFormed_entriesOf hroot
    have hchild : ((OrderedMap.find key (entriesOf root)).getD .null).WellFormed := by
      cases hfind : OrderedMap.find key (entriesOf root) with
      | none => exact trivial
      | some child => exact wellFormed_of_find hentries.2 key child hfind
    refine ⟨hentries.1.set, wellFormedEntries_iff.mpr fun q hq => ?_⟩
    rcases OrderedMap.mem_set hq with rfl | hq
    · exact ih hchild
    · exact wellFormedEntries_iff.mp hentries.2 q hq

/-- `Set` keeps a dictionary well-formed. -/
theorem wellFormed_set (path : WString) {value : Value D} {entries : Entries D}
    (hvalue : value.WellFormed) (hentries : (Value.dictionary entries).WellFormed) :
    (Value.dictionary (DictionaryValue.set path value entries)).WellFormed := by
  rw [set_eq_storeAt]
  exact wellFormed_storeAt _ hvalue hentries

/-- Removing a key keeps a dictionary well-formed. -/
theorem wellFormed_removeWithoutPathExpansion (key : WString) {entries : Entries D}
    (h : (Value.dictionary entries).WellFormed) :
    (Value.dictionary (DictionaryValue.removeWithoutPathExpansion key entries).2).WellFormed := by
  unfold DictionaryValue.removeWithoutPathExpansion
  cases OrderedMap.find key entries with
  | none => exact h
  | some value =>
    refine ⟨h.1.erase, wellFormedEntries_iff.mpr fun p hp => ?_⟩
    exact wellFormedEntries_iff.mp h.2 p (List.mem_of_mem_filter hp)

/-- Removing a path keeps a dictionary well-formed. -/
theorem wellFormed_remove (path : WString) {entries : Entries D}
    (h : (Value.dictionary entries).WellFormed) :
    (Value.dictionary (DictionaryValue.remove path entries).2).WellFormed := by
  rcases remove_cases path entries with ⟨hremove, -⟩ | ⟨front, last, sub, taken, rest, -, hroot,
    hlast, -, hleft⟩
  · rw [hremove]
    exact h
  · have hrest := wellFormed_removeWithoutPathExpansion last (wellFormed_valueAt h hroot)
    rw [hlast] at hrest
    rw [hleft]
    exact wellFormed_storeAt front hrest h

end Mylib.Proofs.Base
