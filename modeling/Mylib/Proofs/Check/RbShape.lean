import Mylib.Spec.Check.RbTree

/-!
# `Mylib.Proofs.Check.RbShape`: linked nodes that form a tree

`Shape h k t` says that the nodes of `h` form the tree `plug k t`: the focus `t` is
linked below the innermost frame of `k`, every frame is linked to the next, the
outermost one is the root, and no address occurs twice.
-/

set_option autoImplicit false

namespace Mylib.Proofs.Check.RbShape

open Mylib.Lib.RedBlack
open Mylib.Spec.Check.RbTree

section

variable {ν : Type}

/-- The pointer to a subtree. -/
def top : RBTree ν → Option ν
  | .nil => none
  | .node _ _ a _ => some a

def parentOf : List (Frame ν) → Option ν
  | [] => none
  | f :: _ => some f.label

/-- A node with `near` on the side `s`. -/
def cell (s : Side) (par : Option ν) (c : Color) (near far : Option ν) : RbNode ν :=
  ⟨par, c, s.pick far near, s.pick near far⟩

/-- The subtree is linked below `par`. -/
def Holds (h : Heap ν) : (par : Option ν) → RBTree ν → Prop
  | _, .nil => True
  | par, .node c l a r =>
    h.node a = some ⟨par, c, top r, top l⟩ ∧ Holds h (some a) l ∧ Holds h (some a) r

/-- The frames are linked above the pointer `p`. -/
def HoldsAbove (h : Heap ν) : (p : Option ν) → List (Frame ν) → Prop
  | p, [] => h.rbNode = p
  | p, ⟨s, c, a, u⟩ :: k =>
    h.node a = some (cell s (parentOf k) c p (top u)) ∧ Holds h (some a) u ∧
      HoldsAbove h (some a) k

/-- The addresses in the frames. -/
def labels : List (Frame ν) → List ν
  | [] => []
  | f :: k => f.label :: (f.sibling.toList ++ labels k)

structure Shape (h : Heap ν) (k : List (Frame ν)) (t : RBTree ν) : Prop where
  focus : Holds h (parentOf k) t
  above : HoldsAbove h (top t) k
  nodup : (t.toList ++ labels k).Nodup

/-! ### Cells -/

/-- Reading through a pointer that is not null. -/
@[simp] theorem read_some (h : Heap ν) (a : ν) : h.read (some a) = h.node a := rfl

/-- The pointer to a node. -/
@[simp] theorem top_node (c : Color) (l : RBTree ν) (a : ν) (r : RBTree ν) :
    top (.node c l a r) = some a := rfl

/-- The pointer to a node whose sides are named. -/
@[simp] theorem top_branch (s : Side) (c : Color) (t : RBTree ν) (a : ν) (u : RBTree ν) :
    top (.branch s c t a u) = some a := rfl

/-- The parent of what hangs in a frame. -/
@[simp] theorem parentOf_cons (f : Frame ν) (k : List (Frame ν)) :
    parentOf (f :: k) = some f.label := rfl

/-- Only the empty tree has the null pointer. -/
theorem top_eq_none {t : RBTree ν} : top t = none ↔ t = .nil := by
  cases t <;> simp [top]

/-- The top is a node of the tree. -/
theorem mem_toList_top {t : RBTree ν} {a : ν} (h : top t = some a) : a ∈ t.toList := by
  cases t with
  | nil => cases h
  | node c l b r =>
    obtain rfl : b = a := by simpa [top] using h
    simp [RBTree.toList]

namespace Cell

variable {s : Side} {par p near far : Option ν} {c d : Color}

/-- The parent of a cell. -/
@[simp] theorem parent : (cell s par c near far).rbParent = par := rfl

/-- The colour of a cell. -/
@[simp] theorem color : (cell s par c near far).rbColor = c := rfl

/-- The child on a cell's own side. -/
@[simp] theorem child : (cell s par c near far).child s = near := by cases s <;> rfl

/-- The child on a cell's other side. -/
@[simp] theorem child_other : (cell s par c near far).child s.other = far := by
  cases s <;> rfl

/-- Writing the parent. -/
@[simp] theorem setParent : (cell s par c near far).setParent p = cell s p c near far := rfl

/-- Writing the colour. -/
@[simp] theorem setColor : (cell s par c near far).setColor d = cell s par d near far := rfl

/-- Writing the child on the cell's own side. -/
@[simp] theorem setChild : (cell s par c near far).setChild s p = cell s par c p far := by
  cases s <;> rfl

/-- Writing the child on the cell's other side. -/
@[simp] theorem setChild_other :
    (cell s par c near far).setChild s.other p = cell s par c near p := by
  cases s <;> rfl

end Cell

/-- What the heap holds for a branch: its cell and its two sides. -/
theorem holds_branch {h : Heap ν} {s : Side} {par : Option ν} {c : Color} {t u : RBTree ν}
    {a : ν} :
    Holds h par (.branch s c t a u) ↔
      h.node a = some (cell s par c (top t) (top u)) ∧ Holds h (some a) t ∧
        Holds h (some a) u := by
  cases s with
  | left => rfl
  | right =>
    show _ ∧ Holds h (some a) u ∧ Holds h (some a) t ↔ _
    rw [and_comm (a := Holds h (some a) u)]
    rfl

/-- The nodes of a branch, up to their order. -/
theorem toList_branch_perm (s : Side) (c : Color) (t : RBTree ν) (a : ν) (u : RBTree ν) :
    (RBTree.branch s c t a u).toList.Perm (a :: (t.toList ++ u.toList)) := by
  cases s with
  | left => exact List.perm_middle
  | right => exact List.perm_middle.trans (List.Perm.cons a List.perm_append_comm)

/-- A node of a branch is its own or one of a side. -/
theorem mem_branch {s : Side} {c : Color} {t u : RBTree ν} {a q : ν} :
    q ∈ (RBTree.branch s c t a u).toList ↔ q = a ∨ q ∈ t.toList ∨ q ∈ u.toList := by
  rw [(toList_branch_perm s c t a u).mem_iff, List.mem_cons, List.mem_append]

/-- The nodes of a tree in its surroundings, up to their order. -/
theorem toList_plug_perm (k : List (Frame ν)) (t : RBTree ν) :
    (plug k t).toList.Perm (t.toList ++ labels k) := by
  induction k generalizing t with
  | nil => simp [plug, labels]
  | cons f k ih =>
    refine (ih (f.fill t)).trans ?_
    refine ((toList_branch_perm f.side f.color t f.label f.sibling).append_right _).trans ?_
    simpa [labels] using List.perm_middle.symm

/-- A node of the whole is one of the tree or a label of a frame. -/
theorem mem_plug {k : List (Frame ν)} {t : RBTree ν} {q : ν} :
    q ∈ (plug k t).toList ↔ q ∈ t.toList ∨ q ∈ labels k := by
  rw [(toList_plug_perm k t).mem_iff, List.mem_append]

/-- The same with the top node apart. -/
theorem mem_plug_node {k : List (Frame ν)} {c : Color} {l r : RBTree ν} {a q : ν} :
    q ∈ (plug k (.node c l a r)).toList ↔
      q = a ∨ q ∈ l.toList ∨ q ∈ r.toList ∨ q ∈ labels k := by
  rw [mem_plug]
  simp only [RBTree.toList, List.mem_append, List.mem_cons]
  tauto

/-- That no node is twice, with the top node apart. -/
theorem nodup_node {k : List (Frame ν)} {c : Color} {l r : RBTree ν} {a : ν} :
    ((RBTree.node c l a r).toList ++ labels k).Nodup ↔
      (a :: (l.toList ++ (r.toList ++ labels k))).Nodup := by
  refine List.Perm.nodup_iff ?_
  simp [RBTree.toList, List.perm_middle]

/-- The same nodes, seen from the parent. -/
theorem shape_cons {h : Heap ν} {s : Side} {c : Color} {a : ν} {u t : RBTree ν}
    {k : List (Frame ν)} :
    Shape h (⟨s, c, a, u⟩ :: k) t ↔ Shape h k (.branch s c t a u) := by
  have hperm : (t.toList ++ labels (⟨s, c, a, u⟩ :: k)).Perm
      ((RBTree.branch s c t a u).toList ++ labels k) :=
    (toList_plug_perm (⟨s, c, a, u⟩ :: k) t).symm.trans
      (toList_plug_perm k (.branch s c t a u))
  constructor
  · rintro ⟨hfocus, ⟨ha, hu, hk⟩, hnodup⟩
    exact ⟨holds_branch.mpr ⟨ha, hfocus, hu⟩, hk, hperm.nodup_iff.mp hnodup⟩
  · rintro ⟨hfocus, hk, hnodup⟩
    obtain ⟨ha, ht, hu⟩ := holds_branch.mp hfocus
    exact ⟨ht, ⟨ha, hu, hk⟩, hperm.nodup_iff.mpr hnodup⟩

/-- The same nodes, seen from the sibling. -/
theorem shape_cons_other {h : Heap ν} {s : Side} {c : Color} {a : ν} {u t : RBTree ν}
    {k : List (Frame ν)} :
    Shape h (⟨s.other, c, a, t⟩ :: k) u ↔ Shape h k (.branch s c t a u) := by
  rw [shape_cons, RBTree.branch_other]

/-- Some frames may be seen as part of the tree. -/
theorem shape_plug {h : Heap ν} {j k : List (Frame ν)} {t : RBTree ν} :
    Shape h (j ++ k) t ↔ Shape h k (plug j t) := by
  induction j generalizing t with
  | nil => rfl
  | cons f j ih => exact shape_cons.trans (ih (t := f.fill t))

/-- All frames may. -/
theorem shape_root {h : Heap ν} {k : List (Frame ν)} {t : RBTree ν} :
    Shape h k t ↔ Shape h [] (plug k t) := by
  conv_lhs => rw [← List.append_nil k]
  exact shape_plug

/-- A tree with a node in it has a top. -/
theorem top_ne_none {t : RBTree ν} {a : ν} (h : a ∈ t.toList) : top t ≠ none := by
  cases t with
  | nil => cases h
  | node c l b r => simp [top]

/-- The test for red reads the colour of the tree. -/
theorem isRed_top {h : Heap ν} {par : Option ν} {t : RBTree ν} (ht : Holds h par t) :
    h.isRed (top t) = some (decide (t.color = .red)) := by
  cases t with
  | nil => rfl
  | node c l a r =>
    show (h.node a).map _ = _
    rw [ht.1]
    rfl

/-- The test for black reads the colour of the tree; the null pointer counts as black. -/
theorem isBlack_top {h : Heap ν} {par : Option ν} {t : RBTree ν} (ht : Holds h par t) :
    h.isBlack (top t) = some (decide (t.color = .black)) := by
  cases t with
  | nil => rfl
  | node c l a r =>
    show (h.node a).map _ = _
    rw [ht.1]
    rfl

/-- Below a frame the top of the whole is the label of a frame. -/
theorem exists_top_plug (f : Frame ν) (k : List (Frame ν)) (t : RBTree ν) :
    ∃ q ∈ labels (f :: k), top (plug (f :: k) t) = some q := by
  induction k generalizing f t with
  | nil => exact ⟨f.label, by simp [labels], rfl⟩
  | cons g k ih =>
    obtain ⟨q, hq, htop⟩ := ih g (f.fill t)
    exact ⟨q, List.mem_cons_of_mem _ (List.mem_append_right _ hq), htop⟩

/-- Below a frame the focus is not the root. -/
theorem top_ne_root {h : Heap ν} {f : Frame ν} {k : List (Frame ν)} {t : RBTree ν}
    (hs : Shape h (f :: k) t) : top t ≠ h.rbNode := by
  intro heq
  obtain ⟨q, hq, htop⟩ := exists_top_plug f k t
  rw [show h.rbNode = top (plug (f :: k) t) from (shape_root.mp hs).above, htop] at heq
  have hmem := mem_toList_top heq
  exact (List.nodup_append.mp hs.nodup).2.2 q hmem q hq rfl

/-- The two children of a node are different pointers unless both are `NULL`. -/
theorem top_ne_sibling {h : Heap ν} {s : Side} {c : Color} {p : ν} {t w : RBTree ν}
    {k : List (Frame ν)} (hs : Shape h (⟨s, c, p, w⟩ :: k) t) (hw : w ≠ .nil) :
    top t ≠ top w := by
  intro heq
  obtain _ | ⟨d, l, b, r⟩ := w
  · exact hw rfl
  have hmem := mem_toList_top heq
  refine (List.nodup_append.mp hs.nodup).2.2 b hmem b ?_ rfl
  simp [labels, RBTree.toList]

/-- `h'` is `h` with its tree `t₀` remade: nothing else is written, and no address is new. -/
structure Leads (h : Heap ν) (t₀ : RBTree ν) (h' : Heap ν) (k : List (Frame ν)) (t : RBTree ν) :
    Prop where
  shape : Shape h' k t
  agree : ∀ q ∉ t₀.toList, h'.node q = h.node q
  subset : (plug k t).toList ⊆ t₀.toList

/-- Nothing has happened yet. -/
theorem Shape.leads {h : Heap ν} {k : List (Frame ν)} {t : RBTree ν} (hs : Shape h k t) :
    Leads h (plug k t) h k t :=
  ⟨hs, fun _ _ => rfl, List.Subset.refl _⟩

/-- Two steps one after the other. -/
theorem Leads.trans {h h₁ h₂ : Heap ν} {t₀ t₁ t₂ : RBTree ν} {k₁ k₂ : List (Frame ν)}
    (h₁₂ : Leads h t₀ h₁ k₁ t₁) (h₂₃ : Leads h₁ (plug k₁ t₁) h₂ k₂ t₂) : Leads h t₀ h₂ k₂ t₂ where
  shape := h₂₃.shape
  agree q hq := (h₂₃.agree q fun h => hq (h₁₂.subset h)).trans (h₁₂.agree q hq)
  subset := List.Subset.trans h₂₃.subset h₁₂.subset

/-- Another view of the tree that was reached. -/
theorem Leads.refocus {h h' : Heap ν} {t₀ t u : RBTree ν} {k j : List (Frame ν)}
    (hl : Leads h t₀ h' k t) (hshape : Shape h' k t → Shape h' j u)
    (hplug : plug k t = plug j u) : Leads h t₀ h' j u :=
  ⟨hshape hl.shape, hl.agree, hplug ▸ hl.subset⟩

/-- The same nodes, seen from the child on the other side. -/
theorem Leads.of_far {h h' : Heap ν} {k : List (Frame ν)} {s : Side} {c : Color} {a : ν}
    {t u v : RBTree ν}
    (hl : Leads h (plug (⟨s.other, c, a, t⟩ :: k) u) h' (⟨s.other, c, a, t⟩ :: k) v) :
    Leads h (plug k (.branch s c t a u)) h' k (.branch s c t a v) := by
  have hplug : ∀ w : RBTree ν,
      plug (⟨s.other, c, a, t⟩ :: k) w = plug k (.branch s c t a w) :=
    fun w => congrArg (plug k) (RBTree.branch_other s c w a t)
  rw [← hplug]
  exact hl.refocus shape_cons_other.mp (hplug v)

/-! ### Other nodes do not matter -/

/-- A part of the heap that did not change holds the same tree. -/
theorem Holds.congr {h h' : Heap ν} {par : Option ν} {t : RBTree ν} (ht : Holds h par t)
    (hagree : ∀ q ∈ t.toList, h'.node q = h.node q) : Holds h' par t := by
  induction t generalizing par with
  | nil => trivial
  | node c l a r ihl ihr =>
    obtain ⟨ha, hl, hr⟩ := ht
    refine ⟨(hagree a (by simp [RBTree.toList])).trans ha, ihl hl ?_, ihr hr ?_⟩
    · exact fun q hq => hagree q (by simp [RBTree.toList, hq])
    · exact fun q hq => hagree q (by simp [RBTree.toList, hq])

/-- A part of the heap that did not change holds the same surroundings. -/
theorem HoldsAbove.congr {h h' : Heap ν} {p : Option ν} {k : List (Frame ν)}
    (hk : HoldsAbove h p k) (hagree : ∀ q ∈ labels k, h'.node q = h.node q)
    (hroot : h'.rbNode = h.rbNode) : HoldsAbove h' p k := by
  induction k generalizing p with
  | nil => exact hroot.trans hk
  | cons f k ih =>
    obtain ⟨ha, hu, hk⟩ := hk
    refine ⟨(hagree _ (by simp [labels])).trans ha, hu.congr ?_, ih hk ?_⟩
    · exact fun q hq => hagree q (by simp [labels, hq])
    · exact fun q hq => hagree q (by simp [labels, hq])

/-- A heap that did not change at the nodes has the same shape. -/
theorem Shape.congr {h h' : Heap ν} {k : List (Frame ν)} {t : RBTree ν} (hs : Shape h k t)
    (hagree : ∀ q ∈ (plug k t).toList, h'.node q = h.node q) (hroot : h'.rbNode = h.rbNode) :
    Shape h' k t where
  focus := hs.focus.congr fun q hq => hagree q (mem_plug.mpr (.inl hq))
  above := hs.above.congr (fun q hq => hagree q (mem_plug.mpr (.inr hq))) hroot
  nodup := hs.nodup

end

section

variable {ν : Type} [DecidableEq ν]

/-! ### The assignments -/

/-- A write changes its own node only. -/
@[simp] theorem node_set (h : Heap ν) (a q : ν) (n : RbNode ν) :
    (h.set a n).node q = if q = a then some n else h.node q := by
  simp [Heap.set, Function.update_apply]

/-- A write to a node does not change the root pointer. -/
@[simp] theorem rbNode_set (h : Heap ν) (a : ν) (n : RbNode ν) :
    (h.set a n).rbNode = h.rbNode := rfl

/-- The second of two writes counts. -/
@[simp] theorem set_set (h : Heap ν) (a : ν) (m n : RbNode ν) :
    (h.set a m).set a n = h.set a n := by
  simp [Heap.set]

/-- Where there is a node the null test does nothing. -/
theorem modifyIf_top {t : RBTree ν} (ht : t ≠ .nil) (h : Heap ν) (f : RbNode ν → RbNode ν) :
    h.modifyIf (top t) f = h.modify (top t) f :=
  if_neg fun h => ht (top_eq_none.mp h)

/-- A write through a pointer that is not null. -/
theorem modify_eq (h : Heap ν) (a : ν) (f : RbNode ν → RbNode ν) :
    h.modify (some a) f = (h.node a).map fun n => h.set a (f n) := by
  cases ha : h.node a <;> simp [Heap.modify, ha]

/-- The null test on such a pointer. -/
@[simp] theorem modifyIf_some (h : Heap ν) (a : ν) (f : RbNode ν → RbNode ν) :
    h.modifyIf (some a) f = h.modify (some a) f := rfl

/-- A write to a node that is there succeeds. -/
theorem modify_some {h : Heap ν} {a : ν} {n : RbNode ν} (ha : h.node a = some n)
    (f : RbNode ν → RbNode ν) : h.modify (some a) f = some (h.set a (f n)) := by
  simp [Heap.modify, ha]

/-- A subtree is linked to another parent. -/
theorem exists_setParent {h : Heap ν} {par : Option ν} {t : RBTree ν} (ht : Holds h par t)
    (hnodup : t.toList.Nodup) (q : Option ν) :
    ∃ h', h.modifyIf (top t) (.setParent q) = some h' ∧ Holds h' q t ∧
      (∀ z ∉ t.toList, h'.node z = h.node z) ∧ h'.rbNode = h.rbNode := by
  cases t with
  | nil => exact ⟨h, rfl, trivial, fun _ _ => rfl, rfl⟩
  | node c l a r =>
    obtain ⟨ha, hl, hr⟩ := ht
    refine ⟨h.set a ⟨q, c, top r, top l⟩, ?_, ?_, ?_, rfl⟩
    · simp [Heap.modifyIf, top, modify_some ha, RbNode.setParent]
    -- No other node of the tree is the top one.
    · have hne : ∀ z ∈ l.toList ++ r.toList, z ≠ a := by
        rintro z hz rfl
        simp only [RBTree.toList, List.nodup_append, List.nodup_cons, List.mem_cons] at hnodup
        obtain hz | hz := List.mem_append.mp hz
        · exact hnodup.2.2 z hz z (.inl rfl) rfl
        · exact hnodup.2.1.1 hz
      refine ⟨by simp, hl.congr fun z hz => ?_, hr.congr fun z hz => ?_⟩
      · simp [hne z (List.mem_append_left _ hz)]
      · simp [hne z (List.mem_append_right _ hz)]
    · intro z hz
      have : z ≠ a := by
        rintro rfl
        exact hz (mem_toList_top rfl)
      simp [this]

/-- The frames are linked to another pointer, in the place of `a`. -/
theorem exists_changeChild {h : Heap ν} {a : ν} {k : List (Frame ν)}
    (hk : HoldsAbove h (some a) k) (ha : a ∉ labels k) (hnodup : (labels k).Nodup) (s : Side)
    (new : Option ν) :
    ∃ h', h.changeChild s (parentOf k) (some a) new = some h' ∧ HoldsAbove h' new k ∧
      ∀ z ∉ labels k, h'.node z = h.node z := by
  cases k with
  | nil => exact ⟨_, rfl, rfl, fun _ _ => rfl⟩
  | cons f k =>
    obtain ⟨s', c, b, u⟩ := f
    obtain ⟨hb, hu, hk⟩ := hk
    simp only [labels, List.nodup_cons, List.mem_append, not_or] at hnodup
    -- the sibling is another node, so the test finds the right side whichever is tried first
    have hside : (if (cell s' (parentOf k) c (some a) (top u)).child s = some a then s
        else s.other) = s' := by
      by_cases hs : s = s'
      · simp [hs]
      · obtain rfl : s = s'.other := by cases s <;> cases s' <;> trivial
        rw [Cell.child_other, if_neg, Side.other_other]
        intro hu
        exact ha (by simp [labels, mem_toList_top hu])
    refine ⟨h.set b (cell s' (parentOf k) c new (top u)), ?_, ⟨by simp, ?_, ?_⟩, ?_⟩
    · rw [Heap.changeChild, if_neg (by simp), parentOf_cons, read_some, hb]
      simp only [Option.bind_eq_bind, Option.bind_some]
      rw [modify_some hb, hside, Cell.setChild]
    · refine hu.congr fun z hz => ?_
      have : z ≠ b := by
        rintro rfl
        exact hnodup.1.1 hz
      simp [this]
    · refine hk.congr (fun z hz => ?_) rfl
      have : z ≠ b := by
        rintro rfl
        exact hnodup.1.2 hz
      simp [this]
    · intro z hz
      have : z ≠ b := by
        rintro rfl
        exact hz (by simp [labels])
      simp [this]

/-- The side of a child, told from the left pointer alone. -/
theorem side_of_rbLeft {s : Side} {par p q : Option ν} {c : Color} (hne : p ≠ q) :
    (if (cell s par c p q).rbLeft = p then Side.left else .right) = s := by
  cases s with
  | left => simp [cell, Side.pick]
  | right => simp [cell, Side.pick, Ne.symm hne]

/-! ### Colors -/

/-- Painting the node at the place. -/
theorem exists_paint {h : Heap ν} {k : List (Frame ν)} {c : Color} {l r : RBTree ν} {a : ν}
    (hs : Shape h k (.node c l a r)) (d : Color) :
    ∃ h', h.modify (some a) (.setColor d) = some h' ∧
      Leads h (plug k (.node c l a r)) h' k (.node d l a r) := by
  obtain ⟨⟨ha, hl, hr⟩, habove, hnodup⟩ := hs
  refine ⟨h.set a ⟨parentOf k, d, top r, top l⟩, modify_some ha _, ⟨⟨by simp, ?_, ?_⟩, ?_, hnodup⟩,
    ?_, ?_⟩
  · exact hl.congr (by grind [node_set, RBTree.toList])
  · exact hr.congr (by grind [node_set, RBTree.toList])
  · exact habove.congr (by grind [node_set, RBTree.toList]) rfl
  · grind [node_set, mem_plug, RBTree.toList]
  · intro q hq
    rw [mem_plug] at hq ⊢
    exact hq

/-- An absent node needs no color. -/
theorem exists_paintIf {h : Heap ν} {k : List (Frame ν)} {t : RBTree ν} (hs : Shape h k t)
    (d : Color) :
    ∃ h', h.modifyIf (top t) (.setColor d) = some h' ∧ Leads h (plug k t) h' k (t.paint d) := by
  cases t with
  | nil => exact ⟨h, rfl, hs.leads⟩
  | node c l a r => exact exists_paint hs d

/-- Painting the child on the one side, if there is one. -/
theorem exists_paint_near {h : Heap ν} {k : List (Frame ν)} {s : Side} {c : Color} {a : ν}
    {t u : RBTree ν} (hs : Shape h k (.branch s c t a u)) (d : Color) :
    ∃ h', h.modifyIf (top t) (.setColor d) = some h' ∧
      Leads h (plug k (.branch s c t a u)) h' k (.branch s c (t.paint d) a u) := by
  obtain ⟨h', hh', hl⟩ := exists_paintIf (shape_cons.mpr hs) d
  exact ⟨h', hh', hl.refocus shape_cons.mp rfl⟩

/-- Painting the child on the other side, if there is one. -/
theorem exists_paint_far {h : Heap ν} {k : List (Frame ν)} {s : Side} {c : Color} {a : ν}
    {t u : RBTree ν} (hs : Shape h k (.branch s c t a u)) (d : Color) :
    ∃ h', h.modifyIf (top u) (.setColor d) = some h' ∧
      Leads h (plug k (.branch s c t a u)) h' k (.branch s c t a (u.paint d)) := by
  obtain ⟨h', hh', hl⟩ := exists_paintIf (shape_cons_other.mpr hs) d
  exact ⟨h', hh', hl.of_far⟩

/-! ### Rotations -/

/-- A rotation lifts the far child over the node. -/
theorem exists_rotate {h : Heap ν} {k : List (Frame ν)} {s : Side} {c d : Color} {a b : ν}
    {x y z : RBTree ν} (hs : Shape h k (.branch s c x a (.branch s d y b z))) :
    ∃ h', rotate s (some a) h = some h' ∧
      Leads h (plug k (.branch s c x a (.branch s d y b z))) h' k
        (.branch s d (.branch s c x a y) b z) := by
  obtain ⟨hfocus, habove, hnodup⟩ := hs
  obtain ⟨ha, hx, hfar⟩ := holds_branch.mp hfocus
  obtain ⟨hb, hy, hz⟩ := holds_branch.mp hfar
  have hnodup' : ((RBTree.branch s d (.branch s c x a y) b z).toList ++ labels k).Nodup := by
    cases s <;> simpa [RBTree.branch, Side.pick, RBTree.toList] using hnodup
  have hdist : (a :: b :: (x.toList ++ (y.toList ++ (z.toList ++ labels k)))).Nodup := by
    refine List.Perm.nodup ?_ hnodup
    grind [toList_branch_perm]
  simp only [List.nodup_cons, List.nodup_append, List.mem_cons, List.mem_append, not_or] at hdist
  obtain ⟨⟨hab, hax, hay, haz, hak⟩, ⟨hbx, hby, hbz, hbk⟩, -, ⟨hdy, ⟨-, hdk, hzk⟩, hyz⟩, hxy⟩ :=
    hdist
  -- the subtree between the two nodes changes its parent, the frames their pointer
  obtain ⟨h₂, hh₂, hy₂, hagree₂, hroot₂⟩ :=
    exists_setParent (h := h.set a (cell s (parentOf k) c (top x) (top y))) (t := y)
      (hy.congr (by grind [node_set])) hdy (some a)
  have hba : b ≠ a := Ne.symm hab
  have hb₂ : h₂.node b = some (cell s (some a) d (top y) (top z)) := by
    rw [hagree₂ b hby, node_set, if_neg hba]
    exact hb
  have ha₂ : h₂.node a = some (cell s (parentOf k) c (top x) (top y)) := by
    rw [hagree₂ a hay, node_set, if_pos rfl]
  obtain ⟨h₅, hh₅, hk₅, hagree₅⟩ :=
    exists_changeChild (h := h₂.set b (cell s (parentOf k) d (some a) (top z)))
      (habove.congr (by grind [node_set]) hroot₂) hak hdk s (some b)
  have ha₅ : h₅.node a = some (cell s (parentOf k) c (top x) (top y)) := by
    rw [hagree₅ a hak, node_set, if_neg hab]
    exact ha₂
  refine ⟨h₅.set a (cell s (some b) c (top x) (top y)), ?_, ⟨?_, ?_, hnodup'⟩, ?_, ?_⟩
  · simp only [rotate, top_branch, read_some, ha, hb, modify_eq, Option.map_some,
      Option.bind_eq_bind, Option.bind_some, Cell.child, Cell.child_other, Cell.setChild,
      Cell.setChild_other, Cell.setParent, Cell.parent, node_set, set_set, hh₂, ha₂, hb₂, hba,
      hab, if_true, if_false, hh₅, ha₅]
  · simp only [holds_branch]
    refine ⟨?_, ⟨?_, ?_, ?_⟩, ?_⟩
    · grind [node_set, top_branch]
    · simp
    · exact hx.congr (by grind [node_set])
    · exact hy₂.congr (by grind [node_set])
    · exact hz.congr (by grind [node_set])
  · exact hk₅.congr (by grind [node_set]) rfl
  · grind [node_set, mem_plug, mem_branch]
  · grind [mem_plug, mem_branch]

/-- The rotation to the other side takes the node down again. -/
theorem exists_rotate_other {h : Heap ν} {k : List (Frame ν)} {s : Side} {c d : Color} {a b : ν}
    {x y z : RBTree ν} (hs : Shape h k (.branch s d (.branch s c x a y) b z)) :
    ∃ h', rotate s.other (some b) h = some h' ∧
      Leads h (plug k (.branch s d (.branch s c x a y) b z)) h' k
        (.branch s c x a (.branch s d y b z)) := by
  have hs' : Shape h k (.branch s.other d z b (.branch s.other c y a x)) := by
    simpa only [RBTree.branch_other] using hs
  simpa only [RBTree.branch_other] using exists_rotate hs'

end

end Mylib.Proofs.Check.RbShape
