import Mylib.Proofs.Check.RbShape

/-!
# `Mylib.Proofs.Check.RbErase`: erasure from the linked tree

`__rb_erase_color` on linked nodes is `eraseFix` on the tree they form
(`exists_rbEraseColor`), and `rb_erase` is `erase` (`exists_rbErase`). No `NULL` is
followed: a subtree that lacks a black node has a sibling.
-/

set_option autoImplicit false

namespace Mylib.Proofs.Check.RbErase

open Mylib.Lib.RedBlack
open Mylib.Spec.Check.RbTree
open Mylib.Proofs.Check.RbShape

section

variable {ν : Type} [DecidableEq ν]

/-! ### The ends of the loop -/

/-- The loop ends at a red node and at the root. -/
theorem exists_eraseColor_done {h : Heap ν} {k : List (Frame ν)} {t : RBTree ν}
    (hs : Shape h k t) (hend : t.color = .red ∨ k = []) (fuel : Nat) :
    ∃ h', rbEraseColor (fuel + 1) (top t) (parentOf k) h = some h' ∧
      Leads h (plug k t) h' k (t.paint .black) := by
  obtain ⟨h', hh', hl⟩ := exists_paintIf hs .black
  refine ⟨h', ?_, hl⟩
  have htest : ¬ (decide (t.color = .black) = true ∧ top t ≠ h.rbNode) := by
    rintro ⟨hblack, hne⟩
    obtain hred | rfl := hend
    · simp [hred] at hblack
    · exact hne hs.above.symm
  rw [rbEraseColor]
  simp only [isBlack_top hs.focus, Option.bind_eq_bind, Option.bind_some, if_neg htest]
  exact hh'

/-! ### One round -/

/-- The round after a red sibling was rotated away. -/
def eraseBody (fuel : Nat) (s : Side) (parent other : Option ν) (h : Heap ν) :
    Option (Heap ν) := do
  if ← bothBlack (← h.read other) h then
    let h ← h.modify other (.setColor .red)
    rbEraseColor fuel parent (← h.read parent).rbParent h
  else
    let (other, h) ← eraseInner s parent other h
    let h ← eraseOuter s parent other h
    blacken h.rbNode h

/-- One round of the loop, by the colours of the sibling and of its children. -/
theorem rbEraseColor_round {h : Heap ν} {k : List (Frame ν)} {s : Side} {c : Color} {p : ν}
    {t w : RBTree ν} (hs : Shape h (⟨s, c, p, w⟩ :: k) t) (ht : t.color = .black)
    (hw : w ≠ .nil) (fuel : Nat) :
    rbEraseColor (fuel + 1) (top t) (some p) h =
      ((eraseRotate s (some p) (top w) h).bind fun r => eraseBody fuel s (some p) r.1 r.2) := by
  have hp := hs.above.1
  have htest : decide (t.color = .black) = true ∧ top t ≠ h.rbNode :=
    ⟨by simp [ht], top_ne_root hs⟩
  rw [rbEraseColor]
  simp only [isBlack_top hs.focus, Option.bind_eq_bind, Option.bind_some, if_pos htest,
    read_some, hp, side_of_rbLeft (top_ne_sibling hs hw), Cell.child_other]
  rfl

omit [DecidableEq ν] in
/-- The test for two black children, on the tree. -/
theorem bothBlack_eq {h : Heap ν} {par : Option ν} {d : Color} {l r : RBTree ν} {b : ν}
    (hw : Holds h par (.node d l b r)) :
    bothBlack ⟨par, d, top r, top l⟩ h =
      some (decide (l.color = .black) && decide (r.color = .black)) := by
  unfold bothBlack
  rw [isBlack_top hw.2.1, isBlack_top hw.2.2]
  cases decide (l.color = .black) <;> rfl

/-- Two black children: the sibling is painted red, and the loop goes on at the parent. -/
theorem exists_eraseBody_up {h : Heap ν} {k : List (Frame ν)} {s : Side} {c : Color} {p : ν}
    {t t' w : RBTree ν} (hs : Shape h (⟨s, c, p, w⟩ :: k) t) (hw : w ≠ .nil)
    (hround : eraseRound s c t p w = .up t') (fuel : Nat) :
    ∃ h', eraseBody fuel s (some p) (top w) h = rbEraseColor fuel (top t') (parentOf k) h' ∧
      Leads h (plug (⟨s, c, p, w⟩ :: k) t) h' k t' := by
  obtain ⟨h', hh', hl⟩ := exists_paint_far (shape_cons.mp hs) .red
  cases roundCase s hw with
  -- Two black children: the sibling gets red, and the loop goes on at the parent.
  | black d near b far hn hf =>
    rw [eraseRound_black hn hf] at hround
    cases hround
    refine ⟨h', ?_, hl⟩
    have hb := hs.above.2.1
    have hp := (holds_branch.mp hl.shape.focus).1
    have hcond : (decide ((s.pick near far).color = .black) &&
        decide ((s.pick far near).color = .black)) = true := by
      cases s <;> simp [Side.pick, hn, hf]
    rw [top_branch, modifyIf_some] at hh'
    simp only [eraseBody, top_branch, read_some, hb.1, Option.bind_eq_bind, Option.bind_some,
      bothBlack_eq hb, hcond, if_true, hh', hp, Cell.parent]
  -- With a red child the round settles the loop, so it does not go up.
  | far d near b far hf =>
    rw [eraseRound_far hf] at hround
    cases hround
  | near d x a y b far hf =>
    rw [eraseRound_near hf] at hround
    cases hround

/-- The last rotation, when the outer child is red. -/
theorem exists_eraseOuter {h : Heap ν} {k : List (Frame ν)} {s : Side} {c d : Color} {p b : ν}
    {t near far : RBTree ν} (hs : Shape h k (.branch s c t p (.branch s d near b far))) :
    ∃ h', eraseOuter s (some p) (some b) h = some h' ∧
      Leads h (plug k (.branch s c t p (.branch s d near b far))) h' k
        (.branch s c (.branch s .black t p near) b (far.paint .black)) := by
  have hp := (holds_branch.mp hs.focus).1
  obtain ⟨h₁, hh₁, hl₁⟩ := exists_paint_far hs c
  obtain ⟨h₂, hh₂, hl₂⟩ := exists_paint hl₁.shape .black
  have hb := (holds_branch.mp (holds_branch.mp hl₂.shape.focus).2.2).1
  obtain ⟨h₃, hh₃, hl₃⟩ := exists_paint_far (shape_cons_other.mpr hl₂.shape) .black
  obtain ⟨h₄, hh₄, hl₄⟩ := exists_rotate hl₃.of_far.shape
  refine ⟨h₄, ?_, ((hl₁.trans hl₂).trans hl₃.of_far).trans hl₄⟩
  rw [top_branch, modifyIf_some] at hh₁
  simp only [eraseOuter, read_some, hp, Cell.color, Option.bind_eq_bind, Option.bind_some, hh₁,
    hh₂, hb, Cell.child_other, hh₃, hh₄]

/-- The rotation before it, when only the inner one is. -/
theorem exists_eraseInner {h : Heap ν} {k : List (Frame ν)} {s : Side} {c d : Color} {p b a : ν}
    {t x y far : RBTree ν}
    (hs : Shape h k (.branch s c t p (.branch s d (.branch s .red x a y) b far)))
    (hf : far.color = .black) :
    ∃ h', eraseInner s (some p) (some b) h = some (some a, h') ∧
      Leads h (plug k (.branch s c t p (.branch s d (.branch s .red x a y) b far))) h' k
        (.branch s c t p (.branch s .black x a (.branch s .red y b far))) := by
  have hb := (holds_branch.mp (holds_branch.mp hs.focus).2.2)
  obtain ⟨h₁, hh₁, hl₁⟩ := exists_paint_near (shape_cons_other.mpr hs) .black
  obtain ⟨h₂, hh₂, hl₂⟩ := exists_paint hl₁.shape .red
  obtain ⟨h₃, hh₃, hl₃⟩ := exists_rotate_other hl₂.shape
  have hl := ((hl₁.trans hl₂).trans hl₃).of_far
  have hp := (holds_branch.mp hl.shape.focus).1
  have hblack : h.isBlack (top far) = some true := by
    simpa [hf] using isBlack_top hb.2.2
  refine ⟨h₃, ?_, hl⟩
  rw [top_branch] at hh₁
  simp only [eraseInner, read_some, hb.1, Cell.child, Cell.child_other, hblack,
    Option.bind_eq_bind, Option.bind_some, if_true, hh₁, hh₂, hh₃, hp, top_branch]

/-- The sibling has a red child: the round is the last one. -/
theorem exists_eraseBody_settled {h : Heap ν} {k : List (Frame ν)} {s : Side} {c : Color} {p : ν}
    {t t' w : RBTree ν} (hs : Shape h (⟨s, c, p, w⟩ :: k) t) (hw : w ≠ .nil)
    (hround : eraseRound s c t p w = .settled t') (fuel : Nat) :
    ∃ h', eraseBody fuel s (some p) (top w) h = some h' ∧
      Leads h (plug (⟨s, c, p, w⟩ :: k) t) h' [] ((plug k t').paint .black) := by
  -- What comes behind the rotations: the root is painted black.
  have hfinish : ∀ h₁, Leads h (plug (⟨s, c, p, w⟩ :: k) t) h₁ k t' →
      ∃ h', blacken h₁.rbNode h₁ = some h' ∧
        Leads h (plug (⟨s, c, p, w⟩ :: k) t) h' [] ((plug k t').paint .black) := by
    intro h₁ hl₁
    have hroot := shape_root.mp hl₁.shape
    obtain ⟨h', hh', hl'⟩ := exists_paintIf hroot .black
    rw [blacken, show h₁.rbNode = top (plug k t') from hroot.above]
    exact ⟨h', hh', hl₁.trans hl'⟩
  have hp := shape_cons.mp hs
  -- A red child: at most two rotations.
  have hbody : ∀ {d : Color} {l r : RBTree ν} {b : ν}, w = .node d l b r →
      ¬ (l.color = .black ∧ r.color = .black) →
      eraseBody fuel s (some p) (some b) h = (eraseInner s (some p) (some b) h).bind fun r =>
        (eraseOuter s (some p) r.1 r.2).bind fun h => blacken h.rbNode h := by
    rintro d l r b rfl hred
    have hb := hs.above.2.1
    have hcond : (decide (l.color = .black) && decide (r.color = .black)) = false := by
      simpa using hred
    simp only [eraseBody, read_some, hb.1, Option.bind_eq_bind, Option.bind_some,
      bothBlack_eq hb, hcond, Bool.false_eq_true, if_false]
  cases roundCase s hw with
  | black d near b far hn hf =>
    rw [eraseRound_black hn hf] at hround
    cases hround
  -- The far child is red, so one rotation is enough.
  | far d near b far hf =>
    rw [eraseRound_far hf] at hround
    cases hround
    obtain ⟨h₁, hh₁, hl₁⟩ := exists_eraseOuter hp
    obtain ⟨h₂, hh₂, hl₂⟩ := hfinish h₁ hl₁
    have hb := (holds_branch.mp hs.above.2.1)
    have hinner : eraseInner s (some p) (some b) h = some (some b, h) := by
      simp only [eraseInner, read_some, hb.1, Cell.child_other, isBlack_top hb.2.2,
        Option.bind_eq_bind, Option.bind_some, hf]
      rfl
    refine ⟨h₂, ?_, hl₂⟩
    rw [top_branch, hbody rfl (by cases s <;> simp [Side.pick, hf]), hinner, Option.bind_some, hh₁,
      Option.bind_some, hh₂]
  -- Only the near child is red: it is turned to the far side first.
  | near d x a y b far hf =>
    rw [eraseRound_near hf] at hround
    cases hround
    obtain ⟨h₁, hh₁, hl₁⟩ := exists_eraseInner hp hf
    obtain ⟨h₂, hh₂, hl₂⟩ := exists_eraseOuter hl₁.shape
    obtain ⟨h₃, hh₃, hl₃⟩ := hfinish h₂ (hl₁.trans hl₂)
    refine ⟨h₃, ?_, hl₃⟩
    rw [top_branch, hbody rfl (by cases s <;> simp [Side.pick]), hh₁, Option.bind_some, hh₂,
      Option.bind_some, hh₃]

/-! ### The sibling before a round -/

/-- A black sibling needs no rotation first. -/
theorem eraseRotate_black {h : Heap ν} {k : List (Frame ν)} {s : Side} {c : Color} {p : ν}
    {t w : RBTree ν} (hs : Shape h (⟨s, c, p, w⟩ :: k) t) (hw : w ≠ .nil)
    (hblack : w.color = .black) : eraseRotate s (some p) (top w) h = some (top w, h) := by
  obtain _ | ⟨d, l, b, r⟩ := w
  · exact absurd rfl hw
  obtain rfl : d = .black := hblack
  simp [eraseRotate, hs.above.2.1.1]

/-- A red sibling comes up over the parent, and the focus gets one of its children as sibling. -/
theorem exists_eraseRotate {h : Heap ν} {k : List (Frame ν)} {s : Side} {c : Color} {p b : ν}
    {t l r : RBTree ν} (hs : Shape h (⟨s, c, p, .node .red l b r⟩ :: k) t) :
    ∃ h', eraseRotate s (some p) (some b) h = some (top (s.pick l r), h') ∧
      Leads h (plug (⟨s, c, p, .node .red l b r⟩ :: k) t) h'
        (⟨s, .red, p, s.pick l r⟩ :: ⟨s, .black, b, s.pick r l⟩ :: k) t := by
  have hb := hs.above.2.1.1
  have hs₀ : Shape h k (.branch s c t p (.branch s .red (s.pick l r) b (s.pick r l))) := by
    rw [RBTree.branch_pick]
    exact shape_cons.mp hs
  obtain ⟨h₁, hh₁, hl₁⟩ := exists_paint_far hs₀ .black
  obtain ⟨h₂, hh₂, hl₂⟩ := exists_paint hl₁.shape .red
  obtain ⟨h₃, hh₃, hl₃⟩ := exists_rotate hl₂.shape
  have hl := (hl₁.trans hl₂).trans hl₃
  have hp := (holds_branch.mp (holds_branch.mp hl.shape.focus).2.1).1
  rw [RBTree.branch_pick] at hl
  rw [top_branch, modifyIf_some] at hh₁
  refine ⟨h₃, ?_, hl.refocus (fun h => shape_cons.mpr (shape_cons.mpr h)) rfl⟩
  simp only [eraseRotate, read_some, hb, Option.bind_eq_bind, Option.bind_some, if_true, hh₁, hh₂,
    hh₃, hp, Cell.child_other]

/-! ### The loop -/

omit [DecidableEq ν] in
/-- A tree with black nodes to it is not empty, so the sibling is there. -/
theorem ne_nil_of_balanced {w : RBTree ν} {n : Nat} (h : Balanced w (n + 1)) : w ≠ .nil := by
  rintro rfl
  cases h

/-- The loop repairs the tree as `eraseFix` does, in a round for every frame. -/
theorem exists_rbEraseColor {h : Heap ν} {k : List (Frame ν)} {t : RBTree ν} {n : Nat}
    (hs : Shape h k t) (habove : Above k (n + 1)) (ht : Lacks t n) {fuel : Nat}
    (hfuel : k.length < fuel) :
    ∃ h', rbEraseColor fuel (top t) (parentOf k) h = some h' ∧
      Leads h (plug k t) h' [] (eraseFix k t) := by
  obtain ⟨fuel, rfl⟩ : ∃ f, fuel = f + 1 := ⟨fuel - 1, by omega⟩
  fun_induction eraseFix k t generalizing h n fuel with
  | case1 t => exact exists_eraseColor_done hs (.inr rfl) fuel
  | case2 s c p w k t hred =>
    obtain ⟨h', hh', hl⟩ := exists_eraseColor_done hs (.inl hred) fuel
    exact ⟨h', hh', hl.refocus shape_root.mp rfl⟩
  | case3 s c p k t hred l b r t' hround =>
    -- after the rotation the parent is red, and the loop ends there
    obtain ⟨htc, htb⟩ := ht.of_black hred
    obtain ⟨-, hnear, -⟩ := above_siblingUp habove
    obtain ⟨hc, -⟩ := balanced_eraseRound (s := s) (p := p) (c := .red) htb hnear.2 hnear.1
    rw [hround] at hc
    obtain ⟨fuel, rfl⟩ : ∃ f, fuel = f + 1 :=
      ⟨fuel - 1, by simp only [List.length_cons] at hfuel; omega⟩
    obtain ⟨h₁, hh₁, hl₁⟩ := exists_eraseRotate hs
    obtain ⟨h₂, hh₂, hl₂⟩ :=
      exists_eraseBody_up hl₁.shape (ne_nil_of_balanced hnear.2) hround (fuel + 1)
    obtain ⟨h₃, hh₃, hl₃⟩ := exists_eraseColor_done hl₂.shape (.inl hc) fuel
    refine ⟨h₃, ?_, ((hl₁.trans hl₂).trans hl₃).refocus shape_root.mp rfl⟩
    rw [parentOf_cons, rbEraseColor_round hs htc (by simp), top_node, hh₁, Option.bind_some, hh₂,
      hh₃]
  | case4 s c p k t hred l b r t' hround =>
    obtain ⟨htc, htb⟩ := ht.of_black hred
    obtain ⟨-, hnear, -⟩ := above_siblingUp habove
    obtain ⟨h₁, hh₁, hl₁⟩ := exists_eraseRotate hs
    obtain ⟨h₂, hh₂, hl₂⟩ :=
      exists_eraseBody_settled hl₁.shape (ne_nil_of_balanced hnear.2) hround fuel
    refine ⟨h₂, ?_, hl₁.trans hl₂⟩
    rw [parentOf_cons, rbEraseColor_round hs htc (by simp), top_node, hh₁, Option.bind_some, hh₂]
  | case5 s c p k t hred w hw t' hround ih =>
    obtain ⟨htc, htb⟩ := ht.of_black hred
    obtain ⟨hbw, hk⟩ := habove.cons
    have hwc := color_black_of_ne hw
    have hne := ne_nil_of_balanced hbw
    obtain ⟨-, hlacks⟩ := balanced_eraseRound (s := s) (p := p) (c := c) htb hbw hwc
    rw [hround] at hlacks
    obtain ⟨fuel, rfl⟩ : ∃ f, fuel = f + 1 :=
      ⟨fuel - 1, by simp only [List.length_cons] at hfuel; omega⟩
    obtain ⟨h₁, hh₁, hl₁⟩ := exists_eraseBody_up hs hne hround (fuel + 1)
    obtain ⟨h₂, hh₂, hl₂⟩ := ih hl₁.shape (by rwa [Nat.add_right_comm]) hlacks fuel
      (by simp only [List.length_cons] at hfuel; omega)
    refine ⟨h₂, ?_, hl₁.trans hl₂⟩
    rw [parentOf_cons, rbEraseColor_round hs htc hne, eraseRotate_black hs hne hwc,
      Option.bind_some, hh₁, hh₂]
  | case6 s c p k t hred w hw t' hround =>
    obtain ⟨htc, -⟩ := ht.of_black hred
    have hwc := color_black_of_ne hw
    have hne := ne_nil_of_balanced habove.cons.1
    obtain ⟨h₁, hh₁, hl₁⟩ := exists_eraseBody_settled hs hne hround fuel
    refine ⟨h₁, ?_, hl₁⟩
    rw [parentOf_cons, rbEraseColor_round hs htc hne, eraseRotate_black hs hne hwc,
      Option.bind_some, hh₁]

/-! ### Cutting a node out -/

/-- A node with at most one child makes way for it. Its own fields stay as they are. -/
theorem exists_unlink {h : Heap ν} {k : List (Frame ν)} {c : Color} {l r t : RBTree ν} {a : ν}
    (hs : Shape h k (.node c l a r)) (ht : l = .nil ∧ t = r ∨ r = .nil ∧ t = l) :
    ∃ h', unlink (some a) (top t) (parentOf k) h = some h' ∧
      Leads h (plug k (.node c l a r)) h' k t ∧ h'.node a = h.node a := by
  obtain ⟨⟨ha, hl, hr⟩, habove, hnodup⟩ := hs
  have hholds : Holds h (some a) t := by
    obtain ⟨-, rfl⟩ | ⟨-, rfl⟩ := ht
    · exact hr
    · exact hl
  -- The node is in no part of what is left.
  have hdist : (a :: (t.toList ++ labels k)).Nodup := by
    obtain ⟨rfl, rfl⟩ | ⟨rfl, rfl⟩ := ht
    · exact hnodup
    · refine List.Perm.nodup ?_ hnodup
      simp [RBTree.toList]
  have hmem : ∀ q, q ∈ (RBTree.node c l a r).toList ↔ q = a ∨ q ∈ t.toList := by
    intro q
    obtain ⟨rfl, rfl⟩ | ⟨rfl, rfl⟩ := ht
    · simp [RBTree.toList]
    · simp [RBTree.toList, or_comm]
  simp only [List.nodup_cons, List.nodup_append, List.mem_append, not_or] at hdist
  obtain ⟨⟨hat, hak⟩, hdt, hdk, hdisj⟩ := hdist
  -- The child gets the parent of the node, and the parent the child.
  obtain ⟨h₁, hh₁, ht₁, hagree₁, hroot₁⟩ := exists_setParent hholds hdt (parentOf k)
  obtain ⟨h₂, hh₂, hk₂, hagree₂⟩ :=
    exists_changeChild (habove.congr (by grind) hroot₁) hak hdk .left (top t)
  refine ⟨h₂, ?_, ⟨⟨?_, hk₂, ?_⟩, ?_, ?_⟩, ?_⟩
  · rw [unlink, hh₁]
    exact hh₂
  · exact ht₁.congr (by grind)
  · exact List.nodup_append.mpr ⟨hdt, hdk, hdisj⟩
  · grind [mem_plug]
  · intro q hq
    rw [mem_plug, hmem]
    rw [mem_plug] at hq
    tauto
  · rw [hagree₂ a hak, hagree₁ a hat]

/-- The neighbours of the node `a` are linked to `b` instead. -/
theorem exists_relink {h : Heap ν} {k : List (Frame ν)} {c : Color} {l r : RBTree ν} {a : ν}
    (hs : Shape h k (.node c l a r)) (b : ν) :
    ∃ h₁ h₂ h₃, h.changeChild .left (parentOf k) (some a) (some b) = some h₁ ∧
      h₁.modifyIf (top l) (.setParent (some b)) = some h₂ ∧
      h₂.modifyIf (top r) (.setParent (some b)) = some h₃ ∧
      (HoldsAbove h₃ (some b) k ∧ Holds h₃ (some b) l ∧ Holds h₃ (some b) r) ∧
      ∀ q ∉ l.toList ++ r.toList ++ labels k,
        h₁.node q = h.node q ∧ h₂.node q = h.node q ∧ h₃.node q = h.node q := by
  obtain ⟨⟨ha, hl, hr⟩, habove, hnodup⟩ := hs
  have hdist := nodup_node.mp hnodup
  simp only [List.nodup_cons, List.nodup_append, List.mem_append, not_or] at hdist
  obtain ⟨⟨hal, har, hak⟩, hdl, ⟨hdr, hdk, hrk⟩, hlr⟩ := hdist
  obtain ⟨h₁, hh₁, hk₁, hagree₁⟩ := exists_changeChild habove hak hdk .left (some b)
  have hl₁ : Holds h₁ (some a) l := hl.congr (by grind)
  obtain ⟨h₂, hh₂, hl₂, hagree₂, hroot₂⟩ := exists_setParent hl₁ hdl (some b)
  have hr₂ : Holds h₂ (some a) r := hr.congr (by grind)
  obtain ⟨h₃, hh₃, hr₃, hagree₃, hroot₃⟩ := exists_setParent hr₂ hdr (some b)
  refine ⟨h₁, h₂, h₃, hh₁, hh₂, hh₃, ⟨?_, ?_, hr₃⟩, ?_⟩
  · exact hk₁.congr (by grind) (hroot₃.trans hroot₂)
  · exact hl₂.congr (by grind)
  · grind

/-! ### The node that takes over -/

omit [DecidableEq ν] in
/-- The way down along one side ends at the first or the last node. -/
theorem extreme_eq {h : Heap ν} {s : Side} {par : Option ν} {t : RBTree ν} (ht : Holds h par t)
    (hne : t ≠ .nil) {fuel : Nat} (hfuel : t.height ≤ fuel) :
    extreme s fuel (top t) h = some (s.pick t.toList.head? t.toList.getLast?) := by
  induction fuel generalizing par t with
  | zero =>
    cases t with
    | nil => exact absurd rfl hne
    | node c l a r => simp [RBTree.height] at hfuel
  | succ fuel ih =>
    obtain _ | ⟨c, l, a, r⟩ := t
    · exact absurd rfl hne
    obtain ⟨near, far, hb⟩ := RBTree.exists_branch s c l a r
    rw [hb] at ht hfuel ⊢
    -- The node has a child to that side or is the last one.
    obtain ⟨ha, hnear, -⟩ := holds_branch.mp ht
    have hheight : near.height ≤ fuel := by
      cases s <;> simp [RBTree.branch, Side.pick, RBTree.height] at hfuel <;> omega
    rw [extreme]
    simp only [top_branch, read_some, ha, Option.bind_eq_bind, Option.bind_some, Cell.child]
    cases near with
    | nil => cases s <;> simp [top, RBTree.branch, Side.pick, RBTree.toList]
    | node d x b y =>
      rw [if_neg (by simp), ih hnear (by simp) hheight]
      cases s with
      | left => simp [RBTree.branch, Side.pick, RBTree.toList]
      | right =>
        have hlist : (RBTree.branch .right c (.node d x b y) a far).toList =
            far.toList ++ [a] ++ (RBTree.node d x b y).toList := by
          simp [RBTree.branch, Side.pick, RBTree.toList]
        have hne : (RBTree.node d x b y).toList ≠ [] := by simp [RBTree.toList]
        rw [hlist]
        exact congrArg some (List.getLast?_append_of_ne_nil _ hne).symm

omit [DecidableEq ν] in
/-- The leftmost node is the first in order. -/
theorem head_leftmost {c d : Color} {l r y : RBTree ν} {a b : ν} {j : List (Frame ν)}
    (hj : leftmost [] c l a r = (j, d, b, y)) :
    (RBTree.node c l a r).toList.head? = some b := by
  have hplug := plug_leftmost [] c l a r
  have hbefore := before_leftmost [] c l a r
  rw [hj] at hplug hbefore
  rw [show RBTree.node c l a r = plug j (.node d .nil b y) from hplug.symm, toList_plug,
    show before j = [] from hbefore]
  rfl

/-! ### Erasing a node -/

/-- The child of a node that was cut out, and the repair if the node was black. -/
theorem exists_splice {h : Heap ν} {k : List (Frame ν)} {c : Color} {l r t : RBTree ν} {a : ν}
    (hs : Shape h k t) (hrb : IsRedBlack (plug k (.node c l a r)))
    (ht : l = .nil ∧ t = r ∨ r = .nil ∧ t = l) {fuel : Nat} (hfuel : k.length < fuel) :
    ∃ h', (if c = .black then rbEraseColor fuel (top t) (parentOf k) h else some h) = some h' ∧
      Leads h (plug k t) h' [] (splice k c t) := by
  cases c with
  | red => exact ⟨h, rfl, hs.leads.refocus shape_root.mp rfl⟩
  | black =>
    obtain ⟨n, habove, hlacks⟩ := hrb.lacks ht
    exact exists_rbEraseColor hs habove hlacks hfuel

/-- A node with at most one child. -/
theorem exists_rbErase_cut {h : Heap ν} {k : List (Frame ν)} {c : Color} {l r t : RBTree ν}
    {a : ν} (hs : Shape h k (.node c l a r)) (hrb : IsRedBlack (plug k (.node c l a r)))
    (ht : l = .nil ∧ t = r ∨ l ≠ .nil ∧ r = .nil ∧ t = l) {fuel : Nat}
    (hfuel : k.length < fuel) :
    ∃ h', rbErase fuel (some a) h = some h' ∧
      Leads h (plug k (.node c l a r)) h' [] (splice k c t) ∧ (h'.node a).isSome := by
  have ha := hs.focus.1
  have ht' : l = .nil ∧ t = r ∨ r = .nil ∧ t = l := by tauto
  obtain ⟨h₁, hh₁, hl₁, ha₁⟩ := exists_unlink hs ht'
  obtain ⟨h₂, hh₂, hl₂⟩ := exists_splice hl₁.shape hrb ht' hfuel
  -- The node that was erased is not in the tree any more.
  have hat : a ∉ (plug k t).toList := by
    have hnodup := hs.nodup
    rw [mem_plug]
    obtain ⟨rfl, rfl⟩ | ⟨rfl, rfl⟩ := ht' <;> grind [RBTree.toList]
  refine ⟨h₂, ?_, hl₁.trans hl₂, ?_⟩
  -- The node has one child at most, which takes its place.
  · have hcond : top l = none ∨ top r = none := by
      obtain ⟨rfl, -⟩ | ⟨rfl, -⟩ := ht'
      · exact .inl rfl
      · exact .inr rfl
    have hchild : (if top l = none then top r else top l) = top t := by
      obtain ⟨rfl, rfl⟩ | ⟨hl, rfl, rfl⟩ := ht
      · rfl
      · exact if_neg fun h => hl (top_eq_none.mp h)
    simp only [rbErase, read_some, ha, Option.bind_eq_bind, Option.bind_some, if_pos hcond,
      hchild, hh₁, hh₂]
  · rw [hl₂.agree a hat, ha₁, ha]
    rfl

/-- A node with two children: the first node on its right is cut out and takes its place. -/
theorem exists_rbErase_swap {h : Heap ν} {j k : List (Frame ν)} {c d : Color} {l r y : RBTree ν}
    {a b : ν} (hs : Shape h k (.node c l a r)) (hrb : IsRedBlack (plug k (.node c l a r)))
    (hl : l ≠ .nil) (hr : plug j (.node d .nil b y) = r) (hb : r.toList.head? = some b)
    {fuel : Nat} (hfuel : (plug k (.node c l a r)).height ≤ fuel) :
    ∃ h', rbErase fuel (some a) h = some h' ∧
      Leads h (plug k (.node c l a r)) h' [] (splice (j ++ ⟨.right, c, b, l⟩ :: k) d y) ∧
        (h'.node a).isSome := by
  have ha := hs.focus.1
  have hrne : r ≠ .nil := by
    rintro rfl
    cases hb
  have hdepth := length_add_height_le k (.node c l a r)
  simp only [RBTree.height] at hdepth
  have hmin : extreme .left fuel (top r) h = some (some b) := by
    rw [extreme_eq hs.focus.2.2 hrne (by omega)]
    exact congrArg some hb
  -- the node that takes over, seen from below
  have hs₀ : Shape h (j ++ ⟨.right, c, a, l⟩ :: k) (.node d .nil b y) := by
    rw [shape_plug, hr]
    exact shape_cons.mpr hs
  obtain ⟨h₁, hh₁, hl₁, hb₁⟩ := exists_unlink hs₀ (.inl ⟨rfl, rfl⟩)
  have hs₁ : Shape h₁ k (.node c l a (plug j y)) := shape_cons.mp (shape_plug.mp hl₁.shape)
  have ha₁ := hs₁.focus.1
  have hmemr : ∀ q, q ∈ r.toList ↔ q = b ∨ q ∈ (plug j y).toList := by
    intro q
    rw [← hr, mem_plug, mem_plug]
    simp [RBTree.toList, or_assoc]
  have hdist := nodup_node.mp hs₁.nodup
  have hab : a ≠ b ∧ b ∉ l.toList ∧ b ∉ (plug j y).toList ∧ b ∉ labels k := by
    have hb' : b ∉ (plug (j ++ ⟨.right, c, a, l⟩ :: k) y).toList := by
      rw [mem_plug, ← List.mem_append]
      exact (List.nodup_cons.mp (show (b :: (y.toList ++ _)).Nodup from hs₀.nodup)).1
    rw [plug_append, show plug (⟨.right, c, a, l⟩ :: k) (plug j y) =
      plug k (.node c l a (plug j y)) from rfl, mem_plug_node] at hb'
    tauto
  obtain ⟨hab, hbl, hby, hbk⟩ := hab
  -- the node takes over the fields, and the neighbours are linked to it
  have hs₂ : Shape (h₁.set b ⟨parentOf k, c, top (plug j y), top l⟩) k
      (.node c l a (plug j y)) := by
    refine hs₁.congr (fun q hq => ?_) rfl
    rw [mem_plug_node] at hq
    have : q ≠ b := by
      rintro rfl
      tauto
    simp [this]
  obtain ⟨h₃, h₄, h₅, hh₃, hh₄, hh₅, ⟨hk₅, hl₅, hr₅⟩, hagree⟩ := exists_relink hs₂ b
  have hal : a ∉ l.toList ++ (plug j y).toList ++ labels k := by
    simpa using (List.nodup_cons.mp hdist).1
  have hbl' : b ∉ l.toList ++ (plug j y).toList ++ labels k := by
    simp [hbl, hby, hbk]
  have hs₅ : Shape h₅ k (.node c l b (plug j y)) := by
    refine ⟨⟨?_, hl₅, hr₅⟩, hk₅, ?_⟩
    · rw [(hagree b hbl').2.2, node_set, if_pos rfl]
    · rw [nodup_node, List.nodup_cons]
      exact ⟨by simpa using hbl', (List.nodup_cons.mp hdist).2⟩
  have hfocus : Shape h₅ (j ++ ⟨.right, c, b, l⟩ :: k) y :=
    shape_plug.mpr (shape_cons.mpr hs₅)
  have hplug : plug (j ++ ⟨.right, c, b, l⟩ :: k) y = plug k (.node c l b (plug j y)) :=
    plug_append _ _ _
  have hleads : Leads h (plug k (.node c l a r)) h₅ (j ++ ⟨.right, c, b, l⟩ :: k) y := by
    refine ⟨hfocus, fun q hq => ?_, fun q hq => ?_⟩
    · have hq₁ := hl₁.agree q
      rw [plug_append, hr] at hq₁
      rw [mem_plug_node, hmemr] at hq
      rw [(hagree q (by simp only [List.mem_append]; tauto)).2.2, node_set,
        if_neg (by tauto), hq₁]
      rw [show plug (⟨.right, c, a, l⟩ :: k) r = plug k (.node c l a r) from rfl, mem_plug_node,
        hmemr]
      tauto
    · rw [hplug, mem_plug_node] at hq
      rw [mem_plug_node, hmemr]
      tauto
  have hrb' : IsRedBlack (plug (j ++ ⟨.right, c, b, l⟩ :: k) (.node d .nil b y)) := by
    rw [plug_append, hr]
    exact IsRedBlack.relabel (s := .right) hrb b
  have hlength : (j ++ ⟨.right, c, b, l⟩ :: k).length < fuel := by
    have hlt := length_add_height_le (j ++ ⟨.right, c, a, l⟩ :: k) (.node d .nil b y)
    rw [plug_append, hr, show plug (⟨.right, c, a, l⟩ :: k) r = plug k (.node c l a r) from rfl]
      at hlt
    simp only [RBTree.height, List.length_append, List.length_cons] at hlt ⊢
    omega
  obtain ⟨h₆, hh₆, hl₆⟩ := exists_splice hfocus hrb' (.inl ⟨rfl, rfl⟩) hlength
  have ha₂ : (h₁.set b ⟨parentOf k, c, top (plug j y), top l⟩).node a =
      some ⟨parentOf k, c, top (plug j y), top l⟩ := by
    rw [node_set, if_neg hab]
    exact ha₁
  have hagree_a := hagree a hal
  rw [ha₂] at hagree_a
  refine ⟨h₆, ?_, hleads.trans hl₆, ?_⟩
  · have hcond : ¬ (top l = none ∨ top r = none) := by
      simp [top_eq_none, hl, hrne]
    have hparent : (if parentOf (j ++ ⟨.right, c, a, l⟩ :: k) = some a then some b
        else parentOf (j ++ ⟨.right, c, a, l⟩ :: k)) =
          parentOf (j ++ ⟨.right, c, b, l⟩ :: k) := by
      cases j with
      | nil => exact if_pos rfl
      | cons f j =>
        refine if_neg fun hf => ?_
        have hf : f.label = a := Option.some.inj hf
        have hmem : f.label ∈ (plug (f :: j) y).toList := by
          rw [mem_plug]
          simp [labels]
        rw [hf] at hmem
        exact hal (by simp [hmem])
    rw [modifyIf_top hl] at hh₄
    simp only [rbErase, read_some, ha, Option.bind_eq_bind, Option.bind_some, if_neg hcond, hmin,
      hs₀.focus.1, hh₁, hb₁, hparent, ha₁, modify_eq, Option.map_some, ha₂, hh₃, hagree_a.1,
      hh₄, hagree_a.2.1, hh₅, hh₆]
  · rw [hl₆.agree a (by rw [hplug, mem_plug_node]; simpa [hab] using hal), hagree_a.2.2]
    rfl

/-- The whole function: the node is unlinked, or its successor takes its place, and the colours are
repaired. What it leads to is red-black and has all other nodes. -/
theorem exists_rbErase {h : Heap ν} {k : List (Frame ν)} {c : Color} {l r : RBTree ν} {a : ν}
    (hs : Shape h k (.node c l a r)) (hrb : IsRedBlack (plug k (.node c l a r))) {fuel : Nat}
    (hfuel : (plug k (.node c l a r)).height ≤ fuel) :
    ∃ h', rbErase fuel (some a) h = some h' ∧
      Leads h (plug k (.node c l a r)) h' [] (erase k c l r) ∧ (h'.node a).isSome := by
  have hdepth := length_add_height_le k (.node c l a r)
  simp only [RBTree.height] at hdepth
  fun_cases erase k c l r with
  | case1 r => exact exists_rbErase_cut hs hrb (.inl ⟨rfl, rfl⟩) (by omega)
  | case2 l hl => exact exists_rbErase_cut hs hrb (.inr ⟨hl, rfl, rfl⟩) (by omega)
  | case3 l d x b y hl j d' b' y' hj =>
    have hplug := plug_leftmost [] d x b y
    rw [hj] at hplug
    exact exists_rbErase_swap hs hrb hl hplug (head_leftmost hj) hfuel

end

end Mylib.Proofs.Check.RbErase
