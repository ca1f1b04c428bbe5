import Mylib.Proofs.Check.RbShape

/-!
# `Mylib.Proofs.Check.RbInsert`: insertion into the linked tree

`rb_insert_color` on linked nodes is `insertFix` on the tree they form
(`exists_rbInsertColor`). The loop ends after a round for every two frames above the
new node, and no `NULL` is followed: a red parent is never the root.
-/

set_option autoImplicit false

namespace Mylib.Proofs.Check.RbInsert

open Mylib.Lib.RedBlack
open Mylib.Spec.Check.RbTree
open Mylib.Proofs.Check.RbShape

section

variable {ν : Type} [DecidableEq ν]

/-- The loop ends below a black node. -/
theorem exists_insertColor_done {h : Heap ν} {k : List (Frame ν)} {c : Color} {l r : RBTree ν}
    {a : ν} (hs : Shape h k (.node c l a r)) (hparent : parentColor k = .black) (fuel : Nat) :
    ∃ h', rbInsertColor (fuel + 1) (some a) h = some h' ∧
      Leads h (plug k (.node c l a r)) h' [] ((plug k (.node c l a r)).paint .black) := by
  have hred : h.isRed (parentOf k) = some false := by
    cases k with
    | nil => rfl
    | cons f k =>
      have hcolor : f.color = .black := hparent
      simp [Heap.isRed, hs.above.1, hcolor]
  have hroot := shape_root.mp hs
  obtain ⟨h', hh', hleads⟩ := exists_paintIf hroot .black
  refine ⟨h', ?_, hleads⟩
  have hne : top (plug k (.node c l a r)) ≠ none :=
    top_ne_none (mem_plug.mpr (.inl (mem_toList_top rfl)))
  simp only [rbInsertColor, read_some, hs.focus.1, Option.bind_eq_bind, Option.bind_some, hred,
    Bool.false_eq_true, if_false]
  rw [show h.rbNode = top (plug k (.node c l a r)) from hroot.above, ← hh', Heap.modifyIf,
    if_neg hne]

/-- The turn at a black uncle. The loop goes on with a red node below the black node that came
up. -/
theorem exists_insertRotate {h : Heap ν} {k : List (Frame ν)} {s' s : Side} {c : Color}
    {l r u v : RBTree ν} {a p g : ν}
    (hs : Shape h (⟨s', .red, p, u⟩ :: ⟨s, c, g, v⟩ :: k) (.node .red l a r)) :
    ∃ h' b f x y, insertRotate s (some a) (some p) (some g) h = some (some b, h') ∧
      Leads h (plug (⟨s', .red, p, u⟩ :: ⟨s, c, g, v⟩ :: k) (.node .red l a r)) h' (f :: k)
        (.node .red x b y) ∧
      f.color = .black ∧
      f.fill (.node .red x b y) = insertTurn s' s (.node .red l a r) p u g v := by
  have hp := hs.above.1
  by_cases hside : s' = s
  · subst hside
    -- the focus is on the outside
    have htest : top u ≠ some a := by
      intro hu
      have ha := mem_toList_top hu
      grind [hs.nodup, labels, RBTree.toList]
    obtain ⟨h₁, hh₁, hl₁⟩ := exists_paint (shape_cons.mp hs) .black
    obtain ⟨h₂, hh₂, hl₂⟩ := exists_paint (shape_cons.mp hl₁.shape) .red
    obtain ⟨h₃, hh₃, hl₃⟩ := exists_rotate_other (x := .node .red l a r) (y := u) hl₂.shape
    have hl := (hl₁.trans hl₂).trans hl₃
    refine ⟨h₃, a, ⟨s', .black, p, .branch s' .red u g v⟩, l, r, ?_,
      hl.refocus shape_cons.mpr rfl, rfl, (insertTurn_outer s' _ p u g v).symm⟩
    simp only [insertRotate, read_some, hp, Option.bind_eq_bind, Option.bind_some,
      Cell.child_other, if_neg htest, hh₁, hh₂, hh₃]
  · obtain rfl : s' = s.other := by cases s' <;> cases s <;> trivial
    obtain ⟨x, y, hxy⟩ := RBTree.exists_branch s .red l a r
    rw [hxy] at hs ⊢
    -- the focus is on the inside, and its parent becomes the node the loop goes on with
    have hs₀ : Shape h (⟨s, c, g, v⟩ :: k) (.branch s .red u p (.branch s .red x a y)) := by
      simpa only [RBTree.branch_other] using shape_cons.mp hs
    obtain ⟨h₁, hh₁, hl₁⟩ := exists_rotate hs₀
    obtain ⟨h₂, hh₂, hl₂⟩ := exists_paint hl₁.shape .black
    obtain ⟨h₃, hh₃, hl₃⟩ := exists_paint (shape_cons.mp hl₂.shape) .red
    obtain ⟨h₄, hh₄, hl₄⟩ := exists_rotate_other (x := .branch s .red u p x) (y := y) hl₃.shape
    have hl := ((hl₁.trans hl₂).trans hl₃).trans hl₄
    have hplug : plug (⟨s.other, .red, p, u⟩ :: ⟨s, c, g, v⟩ :: k) (.branch s .red x a y) =
        plug (⟨s, c, g, v⟩ :: k) (.branch s .red u p (.branch s .red x a y)) :=
      congrArg (plug (⟨s, c, g, v⟩ :: k)) (RBTree.branch_other s .red _ p u)
    rw [hplug]
    refine ⟨h₄, p, ⟨s, .black, a, .branch s .red y g v⟩, s.pick u x, s.pick x u, ?_,
      hl.refocus shape_cons.mpr rfl, rfl, (insertTurn_inner s .red x a y p u g v).symm⟩
    simp only [insertRotate, read_some, hp, Option.bind_eq_bind, Option.bind_some, Cell.child,
      top_node, if_true, hh₁, hh₂, hh₃, hh₄]

/-- The test of `rb_insert_color` for the side of the parent. -/
theorem side_of_parent {h : Heap ν} {k : List (Frame ν)} {s : Side} {c d : Color} {p g : ν}
    {t u v : RBTree ν} {s' : Side} (hs : Shape h (⟨s', d, p, u⟩ :: ⟨s, c, g, v⟩ :: k) t) :
    (if some p = (cell s (parentOf k) c (some p) (top v)).rbLeft then Side.left else .right) =
      s := by
  have hne : some p ≠ top v := by
    intro h
    have hmem := mem_toList_top h.symm
    grind [hs.nodup, labels]
  simpa only [eq_comm] using side_of_rbLeft hne

/-- A round below a red parent. -/
theorem rbInsertColor_red {h : Heap ν} {k : List (Frame ν)} {s s' : Side} {c d : Color}
    {l r u v : RBTree ν} {a p g : ν}
    (hs : Shape h (⟨s', .red, p, u⟩ :: ⟨s, c, g, v⟩ :: k) (.node d l a r)) (fuel : Nat) :
    rbInsertColor (fuel + 1) (some a) h =
      (if v.color = .red then do
        let h ← h.modify (top v) (.setColor .black)
        let h ← h.modify (some p) (.setColor .black)
        let h ← h.modify (some g) (.setColor .red)
        rbInsertColor fuel (some g) h
      else do
        let (node, h) ← insertRotate s (some a) (some p) (some g) h
        rbInsertColor fuel node h) := by
  have hp := hs.above.1
  have hg := hs.above.2.2.1
  have hparent : h.isRed (some p) = some true := by
    simp [Heap.isRed, hp]
  have huncle := isRed_top hs.above.2.2.2.1
  rw [rbInsertColor]
  simp only [read_some, hs.focus.1, hp, hg, side_of_parent hs, hparent, huncle,
    Option.bind_eq_bind, Option.bind_some, Cell.child_other, Cell.parent, parentOf_cons, if_true,
    decide_eq_true_eq]

/-- The loop repairs the tree as `insertFix` does, in a round for every two frames. -/
theorem exists_rbInsertColor {h : Heap ν} {k : List (Frame ν)} {l r : RBTree ν} {a : ν} {n : Nat}
    (hs : Shape h k (.node .red l a r)) (habove : Above k n) {fuel : Nat}
    (hfuel : k.length < 2 * fuel) :
    ∃ h', rbInsertColor fuel (some a) h = some h' ∧
      Leads h (plug k (.node .red l a r)) h' [] (insertFix k (.node .red l a r)) := by
  generalize ht : RBTree.node .red l a r = t at hs ⊢
  obtain ⟨fuel, rfl⟩ : ∃ f, fuel = f + 1 := ⟨fuel - 1, by omega⟩
  fun_induction insertFix k t generalizing h l a r n fuel with
  | case1 s' p u s c g v k t hv ih =>
    subst ht
    simp only [List.length_cons] at hfuel
    obtain ⟨fuel, rfl⟩ : ∃ f, fuel = f + 1 := ⟨fuel - 1, by omega⟩
    obtain ⟨-, hk⟩ := habove.cons.2.cons
    -- the uncle, the parent and the grandparent are painted
    obtain ⟨h₁, hh₁, hl₁⟩ := exists_paint_far (shape_cons.mp (shape_cons.mp hs)) .black
    obtain ⟨h₂, hh₂, hl₂⟩ := exists_paint_near hl₁.shape .black
    obtain ⟨h₃, hh₃, hl₃⟩ := exists_paint hl₂.shape .red
    obtain ⟨h₄, hh₄, hl₄⟩ := ih hk rfl hl₃.shape fuel (by omega)
    refine ⟨h₄, ?_, ((hl₁.trans hl₂).trans hl₃).trans hl₄⟩
    obtain _ | ⟨d, x, b, y⟩ := v
    · cases hv
    rw [top_node, modifyIf_some] at hh₁
    rw [top_branch, modifyIf_some] at hh₂
    simp only [rbInsertColor_red hs, if_pos hv, top_node, Option.bind_eq_bind, hh₁, hh₂, hh₃,
      Option.bind_some, hh₄]
  | case2 s' p u s c g v k t hv =>
    subst ht
    simp only [List.length_cons] at hfuel
    obtain ⟨fuel, rfl⟩ : ∃ f, fuel = f + 1 := ⟨fuel - 1, by omega⟩
    -- the node the loop goes on with has a black parent
    obtain ⟨h₁, b, f, x, y, hh₁, hl₁, hcolor, hturn⟩ := exists_insertRotate hs
    obtain ⟨h₂, hh₂, hl₂⟩ := exists_insertColor_done hl₁.shape hcolor fuel
    rw [← hturn]
    refine ⟨h₂, ?_, hl₁.trans hl₂⟩
    simp only [rbInsertColor_red hs, if_neg hv, Option.bind_eq_bind, hh₁, Option.bind_some, hh₂]
  | case3 k t hshape =>
    subst ht
    refine exists_insertColor_done hs ?_ fuel
    cases k with
    | nil => rfl
    | cons f k =>
      obtain ⟨s, c, p, u⟩ := f
      cases c with
      | black => rfl
      | red =>
        cases k with
        | nil => exact absurd rfl habove.1
        | cons f k =>
          exact (hshape s p u f.side f.color f.label f.sibling k rfl).elim

end

end Mylib.Proofs.Check.RbInsert
