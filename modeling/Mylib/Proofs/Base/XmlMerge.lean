import Mylib.Proofs.Base.Unicode
import Mylib.Spec.Base.XmlReader

/-!
# `Mylib.Proofs.Base.XmlMerge`: what `MergeTree` makes of the children

`Literal` says what is promised of an element with children: its dictionary has one entry for
each distinct key of a child, under the key itself, with the value of the only child or the
list of the values in document order.

`MergeTree` groups the children by their keys, which loses nothing (`mem_groups_iff`), and
stores each group with `DictionaryValue::Set`. `Set` takes the key for a path, and converts it
to wide characters first. So the promise is kept exactly when no key has a dot and no two
keys have the same wide characters (`LiteralKeys`); bytes that are no UTF-8 all become
`U+FFFD`. For one element this is `literal_iff`, for a whole tree `mergesLiterally_iff`.

`Set` puts a path into the dictionary it finds on the way, and that may be the value of a
child. Where it is, the element with the dotted key has already failed the promise.
-/

set_option autoImplicit false

namespace Mylib.Proofs.Base.Xml

open Mylib.Lib Mylib.Spec.Base
open StringConversions XmlReader

variable {D : Type}

/-! ### The promise -/

/-- The values of the children with a key, in document order. -/
def valuesOf (key : Str) (children : List (Child D)) : List (Value D) :=
  (children.filter fun child => child.1 = key).filterMap Prod.snd

/-- The value for the children with one key. -/
def groupValue : List (Value D) → Value D
  | [value] => value
  | values => .list values

/-- One entry for each distinct key, with the value of its group. -/
structure Literal (children : List (Child D)) (entries : List (WString × Value D)) : Prop where
  keys : (entries.map Prod.fst).Perm ((children.map Prod.fst).dedup.map utf8ToWide)
  values : ∀ key ∈ children.map Prod.fst,
    OrderedMap.find (utf8ToWide key) entries = some (groupValue (valuesOf key children))

/-- No key is a path of several components, and different keys stay different. -/
structure LiteralKeys (keys : List Str) : Prop where
  noDot : ∀ key ∈ keys, '.'.toNat ∉ utf8ToWide key
  apart : ∀ key ∈ keys, ∀ key' ∈ keys, utf8ToWide key = utf8ToWide key' → key = key'

/-! ### `Set` with one component and with more -/

/-- A key without a dot is set literally. -/
theorem set_of_no_dot {key : Str} (h : '.'.toNat ∉ utf8ToWide key) (value : Value D)
    (entries : List (WString × Value D)) :
    Value.set key (some value) entries = OrderedMap.set (utf8ToWide key) value entries := by
  unfold Value.set
  rw [List.splitOn_eq_singleton h]
  rfl

/-- The first component of a path has no dot. -/
theorem dot_notMem_first {path first : WString} {rest : List WString}
    (h : path.splitOn '.'.toNat = first :: rest) : '.'.toNat ∉ first := by
  by_cases hdot : '.'.toNat ∈ path
  · obtain ⟨as, bs, rfl, has⟩ := List.eq_append_cons_of_mem hdot
    rw [List.splitOn_append_cons_self_of_not_mem has] at h
    rw [← (List.cons.inj h).1]
    exact has
  · rw [List.splitOn_eq_singleton hdot] at h
    rw [← (List.cons.inj h).1]
    exact hdot

/-- `Set` changes one entry, that of the first component. -/
theorem set_cases (key : Str) (value : Option (Value D)) (entries : List (WString × Value D)) :
    Value.set key value entries = entries ∨
      ∃ first v, '.'.toNat ∉ first ∧
        Value.set key value entries = OrderedMap.set first v entries := by
  unfold Value.set
  cases value with
  | none => exact .inl rfl
  | some value =>
    cases hpath : (utf8ToWide key).splitOn '.'.toNat with
    | nil => exact .inl rfl
    | cons first rest =>
      cases rest with
      | nil => exact .inr ⟨first, value, dot_notMem_first hpath, rfl⟩
      | cons segment rest => exact .inr ⟨first, _, dot_notMem_first hpath, rfl⟩

/-- A group changes nothing, or sets one entry under a component that has no dot. -/
theorem setGroup_cases (entries : List (WString × Value D)) (group : List Nat × List (Child D)) :
    setGroup entries group = entries ∨
      ∃ first v, '.'.toNat ∉ first ∧ setGroup entries group = OrderedMap.set first v entries := by
  obtain ⟨key, children⟩ := group
  cases children with
  | nil => exact .inl rfl
  | cons child rest =>
    cases rest with
    | nil => exact set_cases child.1 child.2 entries
    | cons next rest => exact set_cases child.1 _ entries

/-- The dictionary is sorted, and no key in it has a dot. -/
theorem foldl_setGroup_keys (groups : KeyMap D) {entries : List (WString × Value D)}
    (hsorted : OrderedMap.Sorted entries) (hdot : ∀ p ∈ entries, '.'.toNat ∉ p.1) :
    OrderedMap.Sorted (groups.foldl setGroup entries) ∧
      ∀ p ∈ groups.foldl setGroup entries, '.'.toNat ∉ p.1 := by
  induction groups generalizing entries with
  | nil => exact ⟨hsorted, hdot⟩
  | cons group groups ih =>
    rw [List.foldl_cons]
    rcases setGroup_cases entries group with hsame | ⟨first, v, hfirst, hset⟩
    · rw [hsame]
      exact ih hsorted hdot
    · rw [hset]
      refine ih hsorted.set ?_
      intro p hp
      rcases OrderedMap.mem_set hp with rfl | hp
      · exact hfirst
      · exact hdot p hp

/-! ### The groups -/

/-- The bytes of a key, by which `key_map` is sorted. -/
def keyBytes (key : Str) : List Nat := key.map UInt8.toNat

/-- Keys are told apart by their bytes. -/
theorem keyBytes_injective {key key' : Str} (h : keyBytes key = keyBytes key') : key = key' :=
  List.map_injective_iff.mpr (fun _ _ => UInt8.toNat_inj.mp) h

/-- The groups are what is pushed under the bytes of the keys. -/
theorem foldl_pushBack_eq (children : List (Child D)) : children.foldl pushBack []
    = (children.map fun child => (keyBytes child.1, child)).foldl
        (fun m p => OrderedMap.push p.1 p.2 m) [] := by
  rw [List.foldl_map]
  rfl

/-- The children under one key, in their order. -/
theorem valuesAt_keyBytes (children : List (Child D)) (key : Str) :
    OrderedMap.valuesAt (keyBytes key) (children.map fun child => (keyBytes child.1, child))
      = children.filter fun child => child.1 = key := by
  rw [OrderedMap.valuesAt, List.filter_map, List.map_map]
  refine (List.map_id _).trans (List.filter_congr fun child _ => ?_)
  exact decide_eq_decide.mpr ⟨keyBytes_injective, congrArg keyBytes⟩

/-- The map of groups has the children of each key. -/
theorem find_groups (children : List (Child D)) (k : List Nat) :
    OrderedMap.find k (children.foldl pushBack [])
      = if OrderedMap.valuesAt k (children.map fun child => (keyBytes child.1, child)) = [] then
          none
        else some (OrderedMap.valuesAt k
          (children.map fun child => (keyBytes child.1, child))) := by
  rw [foldl_pushBack_eq, OrderedMap.find_foldl_push]
  rfl

/-- The groups: the children with one key, for each key there is. -/
theorem mem_groups_iff (children : List (Child D)) (group : List Nat × List (Child D)) :
    group ∈ children.foldl pushBack [] ↔ ∃ key ∈ children.map Prod.fst,
      group = (keyBytes key, children.filter fun child => child.1 = key) := by
  constructor
  · intro hmem
    have hsorted : OrderedMap.Sorted (children.foldl pushBack []) := by
      rw [foldl_pushBack_eq]
      exact OrderedMap.sorted_foldl_push _ List.Pairwise.nil
    have hgroup := hsorted.find_of_mem hmem
    rw [find_groups] at hgroup
    split_ifs at hgroup with hnil
    -- Some child was pushed under these bytes, so they are the bytes of its key.
    obtain ⟨p, hp⟩ := List.exists_mem_of_ne_nil _ (List.map_eq_nil_iff.not.mp hnil)
    obtain ⟨hp, hbytes⟩ := List.mem_filter.mp hp
    obtain ⟨child, hchild, rfl⟩ := List.mem_map.mp hp
    have hbytes : keyBytes child.1 = group.1 := by simpa using hbytes
    refine ⟨child.1, List.mem_map_of_mem hchild, Prod.ext hbytes.symm ?_⟩
    rw [← valuesAt_keyBytes, hbytes]
    exact (Option.some.inj hgroup).symm
  · rintro ⟨key, hkey, rfl⟩
    obtain ⟨child, hchild, rfl⟩ := List.mem_map.mp hkey
    have hne : (children.filter fun c => c.1 = child.1) ≠ [] :=
      List.ne_nil_of_mem (List.mem_filter.mpr ⟨hchild, decide_eq_true rfl⟩)
    refine OrderedMap.mem_of_find ?_
    rw [find_groups, valuesAt_keyBytes, if_neg hne]

/-! ### One element -/

/-- The entry that a group of children with one key makes. -/
def groupEntry (group : List Nat × List (Child D)) : WString × Value D :=
  (utf8ToWide ((group.2.head?.map Prod.fst).getD []), groupValue (group.2.filterMap Prod.snd))

/-- The entry of a group has the group's key. -/
theorem groupEntry_filter {children : List (Child D)} {key : Str}
    (hkey : key ∈ children.map Prod.fst) (bytes : List Nat) :
    groupEntry (bytes, children.filter fun child => child.1 = key)
      = (utf8ToWide key, groupValue (valuesOf key children)) := by
  obtain ⟨child, hchild, rfl⟩ := List.mem_map.mp hkey
  have hmem : child ∈ children.filter fun c => c.1 = child.1 :=
    List.mem_filter.mpr ⟨hchild, decide_eq_true rfl⟩
  obtain ⟨first, hfirst⟩ : ∃ c, (children.filter fun c => c.1 = child.1).head? = some c :=
    Option.isSome_iff_exists.mp (List.isSome_head?.mpr (List.ne_nil_of_mem hmem))
  have hname : first.1 = child.1 :=
    of_decide_eq_true (List.mem_filter.mp (List.mem_of_head? hfirst)).2
  rw [groupEntry, hfirst, valuesOf]
  simp [hname]

/-- With a key that is one component, the group is stored as it stands. -/
theorem setGroup_of_no_dot {bytes : List Nat} {group : List (Child D)} (hne : group ≠ [])
    (hsome : ∀ child ∈ group, child.2.isSome)
    (hdot : '.'.toNat ∉ (groupEntry (bytes, group)).1) (entries : List (WString × Value D)) :
    setGroup entries (bytes, group)
      = OrderedMap.set (groupEntry (bytes, group)).1 (groupEntry (bytes, group)).2 entries := by
  cases group with
  | nil => exact absurd rfl hne
  | cons child rest =>
    obtain ⟨key, value⟩ := child
    obtain ⟨value, rfl⟩ := Option.isSome_iff_exists.mp (hsome _ List.mem_cons_self)
    cases rest with
    | nil => exact set_of_no_dot hdot value entries
    | cons next rest =>
      obtain ⟨key', value'⟩ := next
      obtain ⟨value', rfl⟩ := Option.isSome_iff_exists.mp
        (hsome _ (List.mem_cons_of_mem _ List.mem_cons_self))
      exact set_of_no_dot hdot _ entries

/-- If no key has a dot, the groups are set as the entries of a dictionary. -/
theorem foldl_setGroup_eq {groups : KeyMap D}
    (h : ∀ group ∈ groups, group.2 ≠ [] ∧ (∀ child ∈ group.2, child.2.isSome) ∧
      '.'.toNat ∉ (groupEntry group).1) (entries : List (WString × Value D)) :
    groups.foldl setGroup entries = OrderedMap.setAll entries (groups.map groupEntry) := by
  induction groups generalizing entries with
  | nil => rfl
  | cons group groups ih =>
    obtain ⟨hne, hsome, hdot⟩ := h group List.mem_cons_self
    rw [List.foldl_cons, setGroup_of_no_dot hne hsome hdot,
      ih fun g hg => h g (List.mem_cons_of_mem _ hg)]
    rfl

/-- Every pair to store is the entry of one key. -/
theorem mem_groupEntries_iff (children : List (Child D)) (p : WString × Value D) :
    p ∈ (children.foldl pushBack []).map groupEntry ↔
      ∃ key ∈ children.map Prod.fst,
        p = (utf8ToWide key, groupValue (valuesOf key children)) := by
  rw [List.mem_map]
  constructor
  · rintro ⟨group, hgroup, rfl⟩
    obtain ⟨key, hkey, rfl⟩ := (mem_groups_iff children group).mp hgroup
    exact ⟨key, hkey, groupEntry_filter hkey _⟩
  · rintro ⟨key, hkey, rfl⟩
    exact ⟨_, (mem_groups_iff children _).mpr ⟨key, hkey, rfl⟩, groupEntry_filter hkey _⟩

/-- If the keys are one component each, every pair is stored as it stands. -/
theorem stored_eq_setAll {children : List (Child D)} (hsome : ∀ child ∈ children, child.2.isSome)
    (hdot : ∀ key ∈ children.map Prod.fst, '.'.toNat ∉ utf8ToWide key) :
    (children.foldl pushBack []).foldl setGroup []
      = OrderedMap.setAll [] ((children.foldl pushBack []).map groupEntry) := by
  refine foldl_setGroup_eq ?_ []
  intro group hgroup
  obtain ⟨key, hkey, rfl⟩ := (mem_groups_iff children group).mp hgroup
  refine ⟨?_, fun child hchild => hsome child (List.mem_of_mem_filter hchild), ?_⟩
  · obtain ⟨child, hchild, rfl⟩ := List.mem_map.mp hkey
    exact List.ne_nil_of_mem (List.mem_filter.mpr ⟨hchild, decide_eq_true rfl⟩)
  · rw [groupEntry_filter hkey]
    exact hdot key hkey

/-- The dictionary is what is promised exactly when the keys are one component each and stay
different as wide characters. -/
theorem literal_iff {children : List (Child D)} (hsome : ∀ child ∈ children, child.2.isSome) :
    (∃ entries, mergeChildren children = .dictionary entries ∧ Literal children entries) ↔
      LiteralKeys (children.map Prod.fst) := by
  obtain ⟨hsorted, hnoDot⟩ : OrderedMap.Sorted ((children.foldl pushBack []).foldl setGroup []) ∧
      ∀ p ∈ (children.foldl pushBack []).foldl setGroup [], '.'.toNat ∉ p.1 :=
    foldl_setGroup_keys (children.foldl pushBack []) List.Pairwise.nil (by simp)
  have hpairs := mem_groupEntries_iff children
  constructor
  · rintro ⟨entries, hmerge, hliteral⟩
    obtain rfl : (children.foldl pushBack []).foldl setGroup [] = entries :=
      Value.dictionary.inj hmerge
    constructor
    · intro key hkey hdot
      have hmem := OrderedMap.mem_of_find (hliteral.values key hkey)
      exact hnoDot _ hmem hdot
    · intro key hkey key' hkey' hwide
      have hnodup := hliteral.keys.nodup_iff.mp hsorted.nodup_keys
      exact List.inj_on_of_nodup_map hnodup (List.mem_dedup.mpr hkey) (List.mem_dedup.mpr hkey')
        hwide
  · intro hkeys
    have hstored := stored_eq_setAll hsome hkeys.noDot
    refine ⟨_, rfl, ?_, ?_⟩
    · refine (List.perm_ext_iff_of_nodup hsorted.nodup_keys ?_).mpr fun w => ?_
      · refine (List.nodup_map_iff_inj_on (List.nodup_dedup _)).mpr ?_
        intro key hkey key' hkey' hwide
        exact hkeys.apart key (List.mem_dedup.mp hkey) key' (List.mem_dedup.mp hkey') hwide
      · rw [hstored, OrderedMap.mem_keys_setAll, List.mem_map, List.mem_map]
        constructor
        · rintro ⟨p, hp, rfl⟩
          obtain ⟨key, hkey, rfl⟩ := (hpairs p).mp hp
          exact ⟨key, List.mem_dedup.mpr hkey, rfl⟩
        · rintro ⟨key, hkey, rfl⟩
          exact ⟨_, (hpairs _).mpr ⟨key, List.mem_dedup.mp hkey, rfl⟩, rfl⟩
    · intro key hkey
      -- No other key is stored under this name, so its value is not overwritten.
      rw [hstored, OrderedMap.find_setAll,
        OrderedMap.lastValue_of_unique ((hpairs _).mpr ⟨key, hkey, rfl⟩)]
      · rfl
      · intro p hp hwide
        obtain ⟨key', hkey', rfl⟩ := (hpairs p).mp hp
        rw [hkeys.apart key' hkey' key hkey hwide]

/-! ### A whole tree -/

def nodeKey : XmlNode → Str
  | .mk key _ _ => key

def nodeChild : XmlNode → List XmlNode
  | .mk _ _ child => child

mutual

/-- The elements of a tree that have children. -/
def innerNodes : XmlNode → List XmlNode
  | .mk _ _ [] => []
  | .mk key value (child :: rest) => .mk key value (child :: rest) :: innerNodesAll (child :: rest)

def innerNodesAll : List XmlNode → List XmlNode
  | [] => []
  | .mk key value child :: rest => innerNodes (.mk key value child) ++ innerNodesAll rest

end

mutual

/-- Every leaf of the tree has a value. -/
def LeavesCarry : XmlNode → Prop
  | .mk _ value [] => value.isSome
  | .mk _ _ (child :: rest) => LeavesCarryAll (child :: rest)

def LeavesCarryAll : List XmlNode → Prop
  | [] => True
  | .mk key value child :: rest => LeavesCarry (.mk key value child) ∧ LeavesCarryAll rest

end

/-- After `MergeTree`, the value of every element with children is what is promised. -/
def MergesLiterally (D : Type) (root : XmlNode) : Prop :=
  ∀ node ∈ innerNodes root, ∃ entries : List (WString × Value D),
    mergeTree node = some (.dictionary entries) ∧ Literal (mergeAll (nodeChild node)) entries

/-- The children have the keys of their elements, in order. -/
theorem keys_mergeAll (nodes : List XmlNode) :
    ((mergeAll nodes : List (Child D)).map Prod.fst) = nodes.map nodeKey := by
  induction nodes with
  | nil => rfl
  | cons node nodes ih =>
    obtain ⟨key, value, child⟩ := node
    rw [mergeAll, List.map_cons, ih, List.map_cons, nodeKey]

/-- A tree whose leaves carry values has a value. -/
theorem isSome_mergeTree {node : XmlNode} (h : LeavesCarry node) :
    (mergeTree node : Option (Value D)).isSome := by
  obtain ⟨key, value, child⟩ := node
  cases child with
  | nil =>
    rw [LeavesCarry] at h
    rw [mergeTree, Option.isSome_map]
    exact h
  | cons child rest => rfl

/-- If the leaves carry values, every child has one. -/
theorem isSome_mergeAll {nodes : List XmlNode} (h : LeavesCarryAll nodes) :
    ∀ child ∈ (mergeAll nodes : List (Child D)), child.2.isSome := by
  induction nodes with
  | nil => simp [mergeAll]
  | cons node nodes ih =>
    obtain ⟨key, value, child⟩ := node
    rw [LeavesCarryAll] at h
    rw [mergeAll, List.forall_mem_cons]
    exact ⟨isSome_mergeTree h.1, ih h.2⟩

mutual

/-- An element with children in a tree whose leaves carry values. -/
theorem innerNodes_spec :
    ∀ root node : XmlNode, node ∈ innerNodes root →
      nodeChild node ≠ [] ∧ (LeavesCarry root → LeavesCarryAll (nodeChild node))
  | .mk _ _ [], _, hnode => by
    rw [innerNodes] at hnode
    cases hnode
  | .mk key value (child :: rest), node, hnode => by
    rw [innerNodes] at hnode
    rcases List.mem_cons.mp hnode with rfl | hnode
    · refine ⟨List.cons_ne_nil _ _, fun h => ?_⟩
      rw [LeavesCarry] at h
      exact h
    · refine (innerNodesAll_spec (child :: rest) node hnode).imp_right fun himp h => himp ?_
      rw [LeavesCarry] at h
      exact h

/-- The inner nodes of a list of elements have children, and their leaves are leaves of the list. -/
theorem innerNodesAll_spec :
    ∀ (nodes : List XmlNode) (node : XmlNode), node ∈ innerNodesAll nodes →
      nodeChild node ≠ [] ∧ (LeavesCarryAll nodes → LeavesCarryAll (nodeChild node))
  | [], _, hnode => by
    rw [innerNodesAll] at hnode
    cases hnode
  | .mk key value child :: rest, node, hnode => by
    rw [innerNodesAll] at hnode
    rw [LeavesCarryAll]
    rcases List.mem_append.mp hnode with hnode | hnode
    · exact (innerNodes_spec (.mk key value child) node hnode).imp_right fun himp h => himp h.1
    · exact (innerNodesAll_spec rest node hnode).imp_right fun himp h => himp h.2

end

/-- `MergeTree` keeps every child under its key exactly when, at every element, the keys of the
children have no dot and stay different as wide characters. -/
theorem mergesLiterally_iff (D : Type) (root : XmlNode) (hleaves : LeavesCarry root) :
    MergesLiterally D root ↔
      ∀ node ∈ innerNodes root, LiteralKeys ((nodeChild node).map nodeKey) := by
  refine forall₂_congr fun node hnode => ?_
  obtain ⟨hne, hcarry⟩ := innerNodes_spec root node hnode
  have hliteral := literal_iff (isSome_mergeAll (D := D) (hcarry hleaves))
  rw [keys_mergeAll] at hliteral
  rw [← hliteral]
  obtain ⟨key, value, child⟩ := node
  cases child with
  | nil => exact absurd rfl hne
  | cons child rest =>
    refine exists_congr fun entries => and_congr_left fun _ => ?_
    rw [mergeTree, Option.some.injEq, nodeChild]

/-- The keys `a` and `b`. -/
theorem literalKeys_letters {keys : List Str} (h : ∀ key ∈ keys, key = [97] ∨ key = [98]) :
    LiteralKeys keys := by
  have hwide : ∀ key ∈ keys, utf8ToWide key = key.map UInt8.toNat := by
    intro key hkey
    rcases h key hkey with rfl | rfl
    · exact utf8ToWide_of_ascii (by simp) (by simp)
    · exact utf8ToWide_of_ascii (by simp) (by simp)
  constructor
  · intro key hkey
    rw [hwide key hkey]
    rcases h key hkey with rfl | rfl
    · decide
    · decide
  · intro key hkey key' hkey' heq
    rw [hwide key hkey, hwide key' hkey'] at heq
    exact keyBytes_injective heq

/-- An element with the children `a`, `b`, `a`, where `b` has a child of its own. -/
theorem mergesLiterally_repeated :
    MergesLiterally Unit (.mk [114] none [.mk [97] (some [49]) [],
      .mk [98] none [.mk [97] (some [50]) []], .mk [97] (some [51]) []]) := by
  refine (mergesLiterally_iff Unit _ (by simp [LeavesCarry, LeavesCarryAll])).mpr ?_
  intro node hnode
  simp only [innerNodes, innerNodesAll, List.nil_append, List.append_nil, List.mem_cons,
    List.not_mem_nil, or_false] at hnode
  refine literalKeys_letters ?_
  rcases hnode with rfl | rfl
  · simp [nodeChild, nodeKey]
  · simp [nodeChild, nodeKey]

/-- The only child has the key `a.b`, and is stored under `b` in a dictionary under `a`. -/
theorem not_mergesLiterally_dotted :
    LeavesCarry (.mk [114] none [.mk [97, 46, 98] (some [49]) []]) ∧
      ¬ MergesLiterally Unit (.mk [114] none [.mk [97, 46, 98] (some [49]) []]) := by
  have hleaves : LeavesCarry (.mk [114] none [.mk [97, 46, 98] (some [49]) []]) := by
    simp [LeavesCarry, LeavesCarryAll]
  have hwide : utf8ToWide [97, 46, 98] = [97, 46, 98] :=
    utf8ToWide_of_ascii (by simp) (by simp)
  refine ⟨hleaves, fun h => ?_⟩
  have hnode : XmlNode.mk [114] none [.mk [97, 46, 98] (some [49]) []]
      ∈ innerNodes (.mk [114] none [.mk [97, 46, 98] (some [49]) []]) := by
    rw [innerNodes]
    exact List.mem_cons_self
  obtain ⟨entries, hmerge, hliteral⟩ := h _ hnode
  rw [mergeTree, Option.some.injEq] at hmerge
  have hsome : ∀ child ∈ (mergeAll [.mk [97, 46, 98] (some [49]) []] : List (Child Unit)),
      child.2.isSome := by simp [mergeAll, mergeTree]
  have hkeys := (literal_iff hsome).mp ⟨entries, hmerge, hliteral⟩
  have hdot := hkeys.noDot [97, 46, 98] (by simp [mergeAll])
  rw [hwide] at hdot
  exact hdot (by decide)

end Mylib.Proofs.Base.Xml
