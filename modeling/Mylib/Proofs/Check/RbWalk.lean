import Mylib.Proofs.Check.RbErase
import Mylib.Proofs.Check.RbInsert

/-!
# `Mylib.Proofs.Check.RbWalk`: walks over the linked tree

`rb_first` and `rb_last` are the ends of the in-order sequence, `rb_next` and
`rb_prev` the neighbours in it. `rb_erase` takes one node out of the sequence,
`rb_insert_color` after `rb_link_node` puts one in, and `rb_replace_node` exchanges
one for another. All of them are stated for a tree given by its root.
-/

set_option autoImplicit false

namespace Mylib.Proofs.Check.RbWalk

open Mylib.Lib.RedBlack
open Mylib.Spec.Check.RbTree
open Mylib.Proofs.Check.RbShape
open Mylib.Proofs.Check.RbErase
open Mylib.Proofs.Check.RbInsert

section

variable {ν : Type} [DecidableEq ν]

/-! ### The ends -/

omit [DecidableEq ν] in
/-- Only the empty tree has no nodes. -/
theorem toList_eq_nil {t : RBTree ν} : t.toList = [] ↔ t = .nil := by
  cases t <;> simp [RBTree.toList]

omit [DecidableEq ν] in
/-- Both ends at once, by the side. -/
theorem end_eq {h : Heap ν} {t : RBTree ν} (hs : Shape h [] t) (s : Side) {fuel : Nat}
    (hfuel : t.height ≤ fuel) :
    (if h.rbNode = none then some none else extreme s fuel h.rbNode h) =
      some (s.pick t.toList.head? t.toList.getLast?) := by
  rw [show h.rbNode = top t from hs.above]
  by_cases ht : t = .nil
  · subst ht
    cases s <;> rfl
  · rw [if_neg fun h => ht (top_eq_none.mp h)]
    exact extreme_eq hs.focus ht hfuel

omit [DecidableEq ν] in
/-- `rb_first` gives the first node in order. -/
theorem rbFirst_eq {h : Heap ν} {t : RBTree ν} (hs : Shape h [] t) {fuel : Nat}
    (hfuel : t.height ≤ fuel) : rbFirst fuel h = some t.toList.head? :=
  end_eq hs .left hfuel

omit [DecidableEq ν] in
/-- `rb_last` gives the last node in order. -/
theorem rbLast_eq {h : Heap ν} {t : RBTree ν} (hs : Shape h [] t) {fuel : Nat}
    (hfuel : t.height ≤ fuel) : rbLast fuel h = some t.toList.getLast? :=
  end_eq hs .right hfuel

/-! ### The neighbours -/

/-- One step up: the climb stops when it comes from the side that it is told. -/
theorem climb_cons {h : Heap ν} {k : List (Frame ν)} {s s' : Side} {c d : Color} {p a : ν}
    {l r u : RBTree ν} (hs : Shape h (⟨s', c, p, u⟩ :: k) (.node d l a r)) (fuel : Nat) :
    climb s (fuel + 1) (some a) h =
      if s' = s then climb s fuel (some p) h else some (some p) := by
  have htest : some a = (cell s' (parentOf k) c (some a) (top u)).child s ↔ s' = s := by
    by_cases hside : s' = s
    · simp [hside]
    · obtain rfl : s = s'.other := by cases s <;> cases s' <;> trivial
      have hu : top u ≠ some a := by
        intro hu
        have hmem := mem_toList_top hu
        grind [hs.nodup, labels, RBTree.toList]
      simp [hside, Ne.symm hu]
  rw [climb]
  simp only [read_some, hs.focus.1, Option.bind_eq_bind, Option.bind_some, parentOf_cons,
    reduceCtorEq, if_false, hs.above.1, top_node, htest]

/-- The way up ends at the first node that has the way on its other side. -/
theorem climb_eq {h : Heap ν} {k : List (Frame ν)} {c : Color} {l r : RBTree ν} {a : ν}
    (hs : Shape h k (.node c l a r)) (s : Side) {fuel : Nat} (hfuel : k.length < fuel) :
    climb s fuel (some a) h = some (s.pick (before k).getLast? (after k).head?) := by
  obtain ⟨fuel, rfl⟩ : ∃ f, fuel = f + 1 := ⟨fuel - 1, by omega⟩
  induction k generalizing c l a r fuel with
  | nil =>
    rw [climb]
    simp only [read_some, hs.focus.1, Option.bind_eq_bind, Option.bind_some, parentOf, if_true]
    cases s <;> rfl
  | cons f k ih =>
    obtain ⟨s', d, p, u⟩ := f
    simp only [List.length_cons] at hfuel
    obtain ⟨fuel, rfl⟩ : ∃ f, fuel = f + 1 := ⟨fuel - 1, by omega⟩
    rw [climb_cons hs]
    split
    · next hside =>
      subst hside
      rw [ih (shape_cons.mp hs) fuel (by omega)]
      cases s' <;> simp [before, after, Side.pick]
    · next hside =>
      cases s' <;> cases s <;> simp [before, after, Side.pick] at hside ⊢

/-- The neighbour on the side `s`, for a node with the frames `k` above it. -/
theorem neighbour_eq {h : Heap ν} {k : List (Frame ν)} {c : Color} {l r : RBTree ν} {a : ν}
    (hs : Shape h k (.node c l a r)) (s : Side) {fuel : Nat}
    (hfuel : (plug k (.node c l a r)).height ≤ fuel) :
    neighbour s fuel (some a) h =
      some (s.pick (before k ++ l.toList).getLast? (r.toList ++ after k).head?) := by
  have hdepth := length_add_height_le k (.node c l a r)
  simp only [RBTree.height] at hdepth
  obtain ⟨ha, hl, hr⟩ := hs.focus
  unfold neighbour
  simp only [read_some, ha, Option.bind_eq_bind, Option.bind_some]
  cases s with
  -- With a left child the neighbour is below it, and otherwise above.
  | left =>
    show (if top l = none then _ else extreme .right fuel (top l) h) = _
    by_cases hne : l = .nil
    · subst hne
      rw [if_pos (show top .nil = none from rfl), climb_eq hs .left (by omega)]
      simp [Side.pick, RBTree.toList]
    · rw [if_neg fun h => hne (top_eq_none.mp h), extreme_eq hl hne (by omega)]
      exact congrArg some (List.getLast?_append_of_ne_nil _ (mt toList_eq_nil.mp hne)).symm
  | right =>
    show (if top r = none then _ else extreme .left fuel (top r) h) = _
    by_cases hne : r = .nil
    · subst hne
      rw [if_pos (show top .nil = none from rfl), climb_eq hs .right (by omega)]
      simp [Side.pick, RBTree.toList]
    · rw [if_neg fun h => hne (top_eq_none.mp h), extreme_eq hr hne (by omega)]
      exact congrArg some (List.head?_append_of_ne_nil _ (mt toList_eq_nil.mp hne)).symm

omit [DecidableEq ν] in
/-- Every cut of the sequence at a node is the view from that node. -/
theorem exists_view {t : RBTree ν} {pre post : List ν} {a : ν} (hnodup : t.toList.Nodup)
    (ht : t.toList = pre ++ a :: post) :
    ∃ k c l r, plug k (.node c l a r) = t ∧ before k ++ l.toList = pre ∧
      r.toList ++ after k = post := by
  -- The path to a node, by induction on the tree.
  have hfind : ∀ (k : List (Frame ν)) (u : RBTree ν), a ∈ u.toList →
      ∃ k' c l r, plug k' (.node c l a r) = plug k u := by
    intro k u
    induction u generalizing k with
    | nil => simp [RBTree.toList]
    | node c l b r ihl ihr =>
      intro hmem
      simp only [RBTree.toList, List.mem_append, List.mem_cons] at hmem
      obtain hmem | rfl | hmem := hmem
      · exact ihl (⟨.left, c, b, r⟩ :: k) hmem
      · exact ⟨k, c, l, r, rfl⟩
      · exact ihr (⟨.right, c, b, l⟩ :: k) hmem
  obtain ⟨k, c, l, r, hk⟩ := hfind [] t (by simp [ht])
  refine ⟨k, c, l, r, hk, ?_⟩
  have hlist : (before k ++ l.toList) ++ a :: (r.toList ++ after k) = pre ++ a :: post := by
    rw [← ht, ← show plug k (.node c l a r) = t from hk, toList_plug]
    simp [RBTree.toList]
  -- The node is in the list once, so the cuts are the same.
  have hcut := List.nodup_middle.mp (ht ▸ hnodup)
  rw [List.nodup_cons, List.mem_append, not_or] at hcut
  obtain ⟨hpre, -, hpost⟩ :=
    (List.append_cons_inj_of_notMem hcut.1.1 hcut.1.2).mp hlist.symm
  exact ⟨hpre.symm, hpost.symm⟩

/-- `rb_next` is the next node in the sequence. -/
theorem rbNext_eq {h : Heap ν} {t : RBTree ν} (pre : List ν) {post : List ν} {a : ν}
    (hs : Shape h [] t) (ht : t.toList = pre ++ a :: post) {fuel : Nat} (hfuel : t.height ≤ fuel) :
    rbNext fuel (some a) h = some post.head? := by
  obtain ⟨k, c, l, r, rfl, -, rfl⟩ := exists_view (by simpa [labels] using hs.nodup) ht
  exact neighbour_eq (shape_root.mpr hs) .right hfuel

/-- `rb_prev` gives the node before. -/
theorem rbPrev_eq {h : Heap ν} {t : RBTree ν} {pre : List ν} (post : List ν) {a : ν}
    (hs : Shape h [] t) (ht : t.toList = pre ++ a :: post) {fuel : Nat} (hfuel : t.height ≤ fuel) :
    rbPrev fuel (some a) h = some pre.getLast? := by
  obtain ⟨k, c, l, r, rfl, rfl, -⟩ := exists_view (by simpa [labels] using hs.nodup) ht
  exact neighbour_eq (shape_root.mpr hs) .left hfuel

/-- The loop of a caller that goes from node to node, with the nodes it comes to. -/
def visit (next : Option ν → Option (Option ν)) : Nat → Option ν → Option (List ν)
  | 0, _ => none
  | _ + 1, none => some []
  | rounds + 1, some a => do
    let others ← visit next rounds (← next (some a))
    some (a :: others)

/-- From a place on, the walk visits what follows. By induction on what follows. -/
theorem visit_next {h : Heap ν} {t : RBTree ν} (hs : Shape h [] t) {fuel : Nat}
    (hfuel : t.height ≤ fuel) (pre post : List ν) (ht : t.toList = pre ++ post) {rounds : Nat}
    (hrounds : post.length < rounds) :
    visit (fun n => rbNext fuel n h) rounds post.head? = some post := by
  obtain ⟨rounds, rfl⟩ : ∃ r, rounds = r + 1 := ⟨rounds - 1, by omega⟩
  induction post generalizing pre rounds with
  | nil => rfl
  | cons a post ih =>
    rw [List.length_cons] at hrounds
    obtain ⟨rounds, rfl⟩ : ∃ r, rounds = r + 1 := ⟨rounds - 1, by omega⟩
    have hrest := ih (pre ++ [a]) (by simpa using ht) rounds (by omega)
    simp only [List.head?_cons, visit, rbNext_eq pre hs ht hfuel, Option.bind_eq_bind,
      Option.bind_some, hrest]

/-- The walk back visits what is before. -/
theorem visit_prev {h : Heap ν} {t : RBTree ν} (hs : Shape h [] t) {fuel : Nat}
    (hfuel : t.height ≤ fuel) (pre post : List ν) (ht : t.toList = pre ++ post) {rounds : Nat}
    (hrounds : pre.length < rounds) :
    visit (fun n => rbPrev fuel n h) rounds pre.getLast? = some pre.reverse := by
  obtain ⟨rounds, rfl⟩ : ∃ r, rounds = r + 1 := ⟨rounds - 1, by omega⟩
  induction pre using List.reverseRecOn generalizing post rounds with
  | nil => rfl
  | append_singleton pre a ih =>
    rw [List.length_append, List.length_singleton] at hrounds
    obtain ⟨rounds, rfl⟩ : ∃ r, rounds = r + 1 := ⟨rounds - 1, by omega⟩
    rw [List.append_assoc, List.singleton_append] at ht
    have hrest := ih (a :: post) ht rounds (by omega)
    simp only [List.getLast?_append, List.getLast?_singleton, Option.some_or, visit,
      rbPrev_eq post hs ht hfuel, Option.bind_eq_bind, Option.bind_some, hrest,
      List.reverse_append, List.reverse_singleton, List.singleton_append]

/-! ### Changes -/

/-- The nodes of `h` form a red-black tree with the sequence `xs`. -/
structure Holding (h : Heap ν) (xs : List ν) (t : RBTree ν) : Prop where
  shape : Shape h [] t
  redBlack : IsRedBlack t
  toList : t.toList = xs

omit [DecidableEq ν] in
/-- No node is twice in the list. -/
theorem Holding.nodup {h : Heap ν} {xs : List ν} {t : RBTree ν} (ht : Holding h xs t) :
    xs.Nodup := by
  rw [← ht.toList]
  simpa [labels] using ht.shape.nodup

omit [DecidableEq ν] in
/-- A tree of `n` nodes is at most twice the logarithm of `n + 1` high. -/
theorem Holding.height_le {h : Heap ν} {xs : List ν} {t : RBTree ν} (ht : Holding h xs t) :
    t.height ≤ 2 * Nat.log2 (xs.length + 1) := by
  rw [← ht.toList]
  exact ht.redBlack.height_le

/-- A walk from `rb_first` with `rb_next` comes to every node once, in order, and one from
`rb_last` with `rb_prev` in the opposite order. No loop takes more rounds than twice the logarithm
of the number of nodes. -/
theorem visit_all {h : Heap ν} {xs : List ν} {t : RBTree ν} (ht : Holding h xs t)
    {fuel rounds : Nat} (hfuel : 2 * Nat.log2 (xs.length + 1) ≤ fuel)
    (hrounds : xs.length < rounds) :
    (rbFirst fuel h).bind (visit (fun n => rbNext fuel n h) rounds) = some xs ∧
      (rbLast fuel h).bind (visit (fun n => rbPrev fuel n h) rounds) = some xs.reverse := by
  have hheight := ht.height_le.trans hfuel
  rw [rbFirst_eq ht.shape hheight, rbLast_eq ht.shape hheight, ht.toList]
  exact ⟨visit_next ht.shape hheight [] xs ht.toList hrounds,
    visit_prev ht.shape hheight xs [] (by simpa using ht.toList) hrounds⟩

/-- Erasing takes the node out of the sequence, and writes to nodes of the tree only. -/
theorem exists_erased {h : Heap ν} {pre post : List ν} {a : ν} {t : RBTree ν}
    (ht : Holding h (pre ++ a :: post) t) {fuel : Nat} (hfuel : t.height ≤ fuel) :
    ∃ h' t', rbErase fuel (some a) h = some h' ∧ Holding h' (pre ++ post) t' ∧
      (∀ q ∉ pre ++ a :: post, h'.node q = h.node q) ∧ (h'.node a).isSome := by
  have hnodup : t.toList.Nodup := ht.toList ▸ ht.nodup
  obtain ⟨k, c, l, r, hk, hpre, hpost⟩ := exists_view hnodup ht.toList
  have hlist := ht.toList
  subst hk
  obtain ⟨h', hh', hl, ha⟩ := exists_rbErase (shape_root.mpr ht.shape) ht.redBlack hfuel
  refine ⟨h', _, hh', ⟨hl.shape, isRedBlack_erase ht.redBlack, ?_⟩, ?_, ha⟩
  · rw [toList_erase, ← hpre, ← hpost]
    simp
  · rw [← hlist]
    exact hl.agree

/-- The link a view with an empty focus stands for. -/
def linkOf : List (Frame ν) → Link ν
  | [] => .root
  | f :: _ => .child f.side f.label

omit [DecidableEq ν] in
/-- The link that leads to a place points to the tree there. -/
theorem follow_linkOf {h : Heap ν} {k : List (Frame ν)} {t : RBTree ν} (hs : Shape h k t) :
    h.follow (linkOf k) = some (top t) := by
  cases k with
  | nil => exact congrArg some hs.above
  | cons f k => simp [linkOf, Heap.follow, hs.above.1]

/-- A new node is stored under an empty link. -/
theorem exists_linked {h : Heap ν} {k : List (Frame ν)} {b : ν} {n : RbNode ν}
    (hs : Shape h k .nil) (hb : h.node b = some n) (hfresh : b ∉ labels k) :
    ∃ h', rbLinkNode (some b) (parentOf k) (linkOf k) h = some h' ∧
      Shape h' k (.node .red .nil b .nil) ∧ ∀ q ∉ b :: labels k, h'.node q = h.node q := by
  have hnodup : (labels k).Nodup := by simpa [RBTree.toList] using hs.nodup
  have hnodup' : ((RBTree.node .red .nil b .nil).toList ++ labels k).Nodup :=
    nodup_node.mpr (List.nodup_cons.mpr ⟨by simpa [RBTree.toList] using hfresh, hnodup⟩)
  have hagree : ∀ q ≠ b, ∀ m : RbNode ν, (h.set b m).node q = h.node q := by
    intro q hq m
    simp [hq]
  cases k with
  -- The new node is the root.
  | nil =>
    refine ⟨⟨(h.set b ⟨none, .red, none, none⟩).node, some b⟩, ?_, ⟨⟨?_, ?_⟩, ?_, hnodup'⟩, ?_⟩
    · simp only [rbLinkNode, modify_eq, hb]
      rfl
    · simp [parentOf, top]
    · exact ⟨trivial, trivial⟩
    · rfl
    · exact fun q hq => hagree q (by simpa [labels] using hq) _
  -- The new node is a child of the innermost frame.
  | cons f k =>
    obtain ⟨s, c, p, u⟩ := f
    obtain ⟨hp, hu, hk⟩ := hs.above
    simp only [labels, List.mem_cons, List.mem_append, not_or] at hfresh
    simp only [labels, List.nodup_cons, List.mem_append, not_or] at hnodup
    have hpb : p ≠ b := fun h => hfresh.1 h.symm
    refine ⟨(h.set b ⟨some p, .red, none, none⟩).set p
      (cell s (parentOf k) c (some b) (top u)), ?_, ⟨⟨?_, ?_⟩, ⟨?_, ?_, ?_⟩, hnodup'⟩, ?_⟩
    · simp only [rbLinkNode, linkOf, Heap.store, parentOf_cons, modify_eq, hb, Option.map_some,
        Option.bind_eq_bind, Option.bind_some, node_set, hpb, if_false, hp, Cell.setChild]
    · simp [Ne.symm hpb, top]
    · exact ⟨trivial, trivial⟩
    · simp
    · exact hu.congr (by grind [node_set])
    · exact hk.congr (by grind [node_set]) rfl
    · grind [node_set, labels]

/-- Inserting puts the node into the sequence at the place of the link. -/
theorem exists_inserted {h : Heap ν} {k : List (Frame ν)} {b : ν} {n : RbNode ν}
    (hs : Shape h k .nil) (hrb : IsRedBlack (plug k .nil)) (hb : h.node b = some n)
    (hfresh : b ∉ labels k) {fuel : Nat} (hfuel : k.length < 2 * fuel) :
    ∃ h₁ h' t', rbLinkNode (some b) (parentOf k) (linkOf k) h = some h₁ ∧
      rbInsertColor fuel (some b) h₁ = some h' ∧ Holding h' (before k ++ b :: after k) t' ∧
      ∀ q ∉ b :: labels k, h'.node q = h.node q := by
  obtain ⟨m, habove, hm, -⟩ := hrb.split
  obtain ⟨h₁, hh₁, hs₁, hagree₁⟩ := exists_linked hs hb hfresh
  obtain ⟨h', hh', hl⟩ := exists_rbInsertColor hs₁ habove hfuel
  refine ⟨h₁, h', _, hh₁, hh', ⟨hl.shape, ?_, ?_⟩, fun q hq => ?_⟩
  · exact isRedBlack_insertFix habove (balanced_red.mpr ⟨rfl, rfl, hm, hm⟩) rfl
  · rw [toList_insertFix, toList_plug]
    simp [RBTree.toList]
  · rw [hl.agree q (by rw [mem_plug_node]; simpa [RBTree.toList] using hq), hagree₁ q hq]

/-- Another node takes the place and the links of `a`. -/
theorem exists_replaced {h : Heap ν} {pre post : List ν} {a b : ν} {n : RbNode ν} {t : RBTree ν}
    (ht : Holding h (pre ++ a :: post) t) (hb : h.node b = some n)
    (hfresh : b ∉ pre ++ a :: post) :
    ∃ h' t', rbReplaceNode (some a) (some b) h = some h' ∧ Holding h' (pre ++ b :: post) t' ∧
      ∀ q ∉ b :: (pre ++ a :: post), h'.node q = h.node q := by
  have hnodup : t.toList.Nodup := ht.toList ▸ ht.nodup
  obtain ⟨k, c, l, r, hk, hpre, hpost⟩ := exists_view hnodup ht.toList
  have hlist := ht.toList
  subst hk
  have hs := shape_root.mpr ht.shape
  have ha := hs.focus.1
  rw [← hlist, mem_plug_node] at hfresh
  have hdist := nodup_node.mp hs.nodup
  have hal : a ∉ l.toList ++ r.toList ++ labels k := by
    simpa using (List.nodup_cons.mp hdist).1
  have hbl : b ∉ l.toList ++ r.toList ++ labels k := by
    simp only [List.mem_append]
    tauto
  obtain ⟨h₁, h₂, h₃, hh₁, hh₂, hh₃, ⟨hk₃, hl₃, hr₃⟩, hagree⟩ := exists_relink hs b
  have hagree_a := hagree a hal
  rw [ha] at hagree_a
  -- the links of the neighbours are set, the fields of the node itself come last
  have hs₄ : Shape (h₃.set b ⟨parentOf k, c, top r, top l⟩) k (.node c l b r) := by
    refine ⟨⟨by simp, ?_, ?_⟩, ?_, ?_⟩
    · exact hl₃.congr (by grind [node_set])
    · exact hr₃.congr (by grind [node_set])
    · exact hk₃.congr (by grind [node_set]) rfl
    · rw [nodup_node, List.nodup_cons]
      exact ⟨by simpa using hbl, (List.nodup_cons.mp hdist).2⟩
  refine ⟨_, _, ?_, ⟨shape_root.mp hs₄, ?_, ?_⟩, ?_⟩
  · simp only [rbReplaceNode, read_some, ha, Option.bind_eq_bind, Option.bind_some, hh₁,
      hagree_a.1, hh₂, hagree_a.2.1, hh₃, hagree_a.2.2, modify_eq, (hagree b hbl).2.2, hb,
      Option.map_some]
  · exact IsRedBlack.relabel (s := .left) ht.redBlack b
  · rw [toList_plug, ← hpre, ← hpost]
    simp [RBTree.toList]
  · intro q hq
    rw [List.mem_cons, not_or, ← hlist, mem_plug_node] at hq
    rw [node_set, if_neg hq.1]
    exact (hagree q (by simp only [List.mem_append]; tauto)).2.2

/-! ### Calls on a tree given by its sequence -/

omit [DecidableEq ν] in
/-- Every cut of the sequence is an empty place of the tree. -/
theorem exists_place (k : List (Frame ν)) (t : RBTree ν) {pre post : List ν}
    (ht : t.toList = pre ++ post) :
    ∃ k', plug k' .nil = plug k t ∧ before k' = before k ++ pre ∧ after k' = post ++ after k := by
  induction t generalizing k pre post with
  | nil =>
    obtain ⟨rfl, rfl⟩ := List.append_eq_nil_iff.mp ht.symm
    exact ⟨k, rfl, by simp, by simp⟩
  | node c l a r ihl ihr =>
    obtain ⟨mid, rfl, hmid⟩ | ⟨mid, hl, hpost⟩ :=
      List.append_eq_append_iff.mp (show l.toList ++ a :: r.toList = pre ++ post from ht)
    -- The place is behind the left part or further to the right.
    · cases mid with
      | nil =>
        rw [List.nil_append] at hmid
        obtain ⟨k', hk', hbefore, hafter⟩ :=
          ihl (⟨.left, c, a, r⟩ :: k) (List.append_nil l.toList).symm
        refine ⟨k', hk', by simpa [before, Side.pick] using hbefore, ?_⟩
        rw [hafter, ← hmid]
        simp [after, Side.pick]
      | cons b mid =>
        obtain ⟨rfl, hr⟩ := List.cons.inj hmid
        obtain ⟨k', hk', hbefore, hafter⟩ := ihr (⟨.right, c, a, l⟩ :: k) hr
        refine ⟨k', hk', ?_, by simpa [after, Side.pick] using hafter⟩
        rw [hbefore]
        simp [before, Side.pick]
    · obtain ⟨k', hk', hbefore, hafter⟩ := ihl (⟨.left, c, a, r⟩ :: k) hl
      refine ⟨k', hk', by simpa [before, Side.pick] using hbefore, ?_⟩
      rw [hafter, hpost]
      simp [after, Side.pick]

/-- Every cut of the sequence has an empty link, and `rb_link_node` and `rb_insert_color` with it
put the new node there. The tree stays red-black, no `NULL` is followed, and no other memory is
written. -/
theorem insert_keeps {h : Heap ν} {pre post : List ν} {t : RBTree ν} {b : ν} {n : RbNode ν}
    (ht : Holding h (pre ++ post) t) (hb : h.node b = some n) (hfresh : b ∉ pre ++ post)
    {fuel : Nat} (hfuel : Nat.log2 ((pre ++ post).length + 1) < fuel) :
    ∃ link parent h₁ h' t', h.follow link = some none ∧
      rbLinkNode (some b) parent link h = some h₁ ∧ rbInsertColor fuel (some b) h₁ = some h' ∧
      Holding h' (pre ++ b :: post) t' ∧ ∀ q ∉ pre ++ b :: post, h'.node q = h.node q := by
  obtain ⟨k, hk, hbefore, hafter⟩ := exists_place [] t ht.toList
  rw [show plug [] t = t from rfl] at hk
  have hs : Shape h k .nil := shape_root.mpr (hk ▸ ht.shape)
  -- The labels of the frames around the place are the nodes of the tree.
  have hmem : ∀ q, q ∈ labels k ↔ q ∈ pre ++ post := by
    intro q
    rw [← ht.toList, ← hk, mem_plug]
    simp [RBTree.toList]
  have hlength := length_add_height_le k .nil
  rw [hk] at hlength
  have hheight := ht.height_le
  simp only [RBTree.height] at hlength
  obtain ⟨h₁, h', t', hh₁, hh', ht', hagree⟩ := exists_inserted hs (hk ▸ ht.redBlack) hb
    (fun h => hfresh ((hmem b).mp h)) (show k.length < 2 * fuel by omega)
  refine ⟨linkOf k, parentOf k, h₁, h', t', follow_linkOf hs, hh₁, hh', ?_, fun q hq => ?_⟩
  · simpa [hbefore, hafter, before, after] using ht'
  · refine hagree q ?_
    rw [List.mem_cons, hmem, List.mem_append]
    simp only [List.mem_append, List.mem_cons] at hq
    tauto

/-- `rb_erase` takes any node out of any red-black tree. The tree stays red-black, no `NULL` is
followed, the node stays allocated, and no other memory is written. -/
theorem erase_keeps {h : Heap ν} {pre post : List ν} {t : RBTree ν} {a : ν}
    (ht : Holding h (pre ++ a :: post) t) {fuel : Nat}
    (hfuel : 2 * Nat.log2 ((pre ++ a :: post).length + 1) ≤ fuel) :
    ∃ h' t', rbErase fuel (some a) h = some h' ∧ Holding h' (pre ++ post) t' ∧
      (∀ q ∉ pre ++ a :: post, h'.node q = h.node q) ∧ (h'.node a).isSome :=
  exists_erased ht (ht.height_le.trans hfuel)

end

/-! ### A tree of two nodes -/

/-- The nodes `1` and `2` in a tree, and `3` outside. -/
def pairHeap : Heap Nat where
  node
    | 1 => some ⟨none, .black, some 2, none⟩
    | 2 => some ⟨some 1, .red, none, none⟩
    | 3 => some ⟨none, .red, none, none⟩
    | _ => none
  rbNode := some 1

/-- The heap of the examples holds two nodes. -/
theorem holding_pair : Holding pairHeap [1, 2] (.node .black .nil 1 (.node .red .nil 2 .nil)) where
  shape := ⟨⟨rfl, trivial, rfl, trivial, trivial⟩, rfl, by decide⟩
  redBlack := ⟨rfl, 1, by simp [Mylib.Lib.RedBlack.Balanced, RBTree.color]⟩
  toList := rfl

/-- Both walks over two nodes. -/
theorem visit_all_pair :
    (rbFirst 2 pairHeap).bind (visit (fun n => rbNext 2 n pairHeap) 3) = some [1, 2] ∧
      (rbLast 2 pairHeap).bind (visit (fun n => rbPrev 2 n pairHeap) 3) = some [2, 1] :=
  visit_all holding_pair (by decide) (by decide)

/-- A third node behind them. -/
theorem insert_keeps_pair :
    ∃ link parent h₁ h' t', pairHeap.follow link = some none ∧
      rbLinkNode (some 3) parent link pairHeap = some h₁ ∧ rbInsertColor 2 (some 3) h₁ = some h' ∧
      Holding h' [1, 3, 2] t' ∧ ∀ q ∉ [1, 3, 2], h'.node q = pairHeap.node q :=
  insert_keeps (show Holding pairHeap ([1] ++ [2]) _ from holding_pair)
    (show pairHeap.node 3 = some ⟨none, .red, none, none⟩ from rfl) (by decide) (by decide)

/-- The first of them is erased. -/
theorem erase_keeps_pair :
    ∃ h' t', rbErase 2 (some 1) pairHeap = some h' ∧ Holding h' [2] t' ∧
      (∀ q ∉ [1, 2], h'.node q = pairHeap.node q) ∧ (h'.node 1).isSome :=
  erase_keeps (show Holding pairHeap ([] ++ 1 :: [2]) _ from holding_pair) (by decide)

/-- The second of them is replaced. -/
theorem exists_replaced_pair :
    ∃ h' t', rbReplaceNode (some 2) (some 3) pairHeap = some h' ∧ Holding h' [1, 3] t' ∧
      ∀ q ∉ [3, 1, 2], h'.node q = pairHeap.node q :=
  exists_replaced (show Holding pairHeap ([1] ++ 2 :: []) _ from holding_pair)
    (show pairHeap.node 3 = some ⟨none, .red, none, none⟩ from rfl) (by decide)

end Mylib.Proofs.Check.RbWalk
