import Mathlib

/-!
# `Mylib.Lib.RedBlack`: red-black trees, repaired from the inside

A red-black tree seen from one of its nodes: the subtree there (the focus) and the
list of frames between it and the root, the innermost first. `plug` closes the
frames over the focus again.

`insertFix` repairs a tree whose focus is red under a possibly red parent, and
`eraseFix` one whose focus lacks a black node on every path. Both walk outwards,
one frame or two at a time, and both keep the in-order sequence: `toList_insertFix`,
`toList_eraseFix`. They restore the balance (`isRedBlack_insertFix`,
`isRedBlack_eraseFix`), stated with `Above`: what a list of frames needs below it.

The two sides of a node are told apart by a `Side`, so a case and its mirror image
are one case.
-/

set_option autoImplicit false

namespace Mylib.Lib.RedBlack

inductive Color where
  | red
  | black
  deriving DecidableEq, Repr

inductive Side where
  | left
  | right
  deriving DecidableEq, Repr

namespace Side

def other : Side → Side
  | .left => .right
  | .right => .left

/-- Of two values, the first one on the side `s`. -/
def pick {β : Type} (s : Side) (l r : β) : β :=
  match s with
  | .left => l
  | .right => r

/-- The other side of the other side is the side itself. -/
@[simp] theorem other_other (s : Side) : s.other.other = s := by cases s <;> rfl

/-- The two sides differ. -/
@[simp] theorem other_ne (s : Side) : s.other ≠ s := by cases s <;> simp [other]

end Side

inductive RBTree (α : Type) where
  | nil
  | node (color : Color) (l : RBTree α) (label : α) (r : RBTree α)
  deriving DecidableEq, Repr

/-- A node with one child left out, the one on the side `side`. -/
structure Frame (α : Type) where
  side : Side
  color : Color
  label : α
  sibling : RBTree α
  deriving DecidableEq, Repr

section

variable {α : Type}

namespace RBTree

/-- The labels from left to right. -/
def toList : RBTree α → List α
  | nil => []
  | node _ l a r => l.toList ++ a :: r.toList

/-- An absent node counts as black. -/
def color : RBTree α → Color
  | nil => .black
  | node c _ _ _ => c

def paint (c : Color) : RBTree α → RBTree α
  | nil => nil
  | node _ l a r => node c l a r

def child (s : Side) : RBTree α → RBTree α
  | nil => nil
  | node _ l _ r => s.pick l r

def paintChild (s : Side) (c : Color) : RBTree α → RBTree α
  | nil => nil
  | node d l a r => node d (s.pick (l.paint c) l) a (s.pick r (r.paint c))

/-- The node with `near` on the side `s` and `far` on the other one. -/
def branch (s : Side) (c : Color) (near : RBTree α) (a : α) (far : RBTree α) : RBTree α :=
  node c (s.pick near far) a (s.pick far near)

/-- The child on the side away from `s` comes up, its parent goes down on the side `s`. -/
def rotate : Side → RBTree α → RBTree α
  | .left, node c x a (node d y b z) => node d (node c x a y) b z
  | .right, node c (node d x a y) b z => node d x a (node c y b z)
  | _, t => t

def height : RBTree α → Nat
  | nil => 0
  | node _ l _ r => max l.height r.height + 1

end RBTree

def Frame.fill (f : Frame α) (t : RBTree α) : RBTree α :=
  .branch f.side f.color t f.label f.sibling

def plug : List (Frame α) → RBTree α → RBTree α
  | [], t => t
  | f :: k, t => plug k (f.fill t)

/-- The color of the node above the focus. Above the root it counts as black. -/
def parentColor : List (Frame α) → Color
  | [] => .black
  | f :: _ => f.color

/-! ### The repairs -/

/-- The turn at a black uncle `v`: a focus on the inside is first rotated to the outside, then
its parent comes up over the grandparent `g`. -/
def insertTurn (s s' : Side) (t : RBTree α) (p : α) (u : RBTree α) (g : α) (v : RBTree α) :
    RBTree α :=
  let q := RBTree.branch s .red t p u
  .rotate s'.other (.branch s' .red ((if s = s' then q else q.rotate s').paint .black) g v)

/-- The focus is red. While its parent is red too, a red uncle passes the conflict up by two
frames, and a black one ends it with one or two rotations. -/
def insertFix : List (Frame α) → RBTree α → RBTree α
  | ⟨s, .red, p, u⟩ :: ⟨s', _, g, v⟩ :: k, t =>
    if v.color = .red then
      insertFix k (.branch s' .red (.branch s .black t p u) g (v.paint .black))
    else (plug k (insertTurn s s' t p u g v)).paint .black
  | k, t => (plug k t).paint .black

/-- What a round with a black sibling leads to: the subtree with its parent now lacks the black
node as a whole, or nothing is lacking any more. -/
inductive Round (α : Type) where
  | up (t : RBTree α)
  | settled (t : RBTree α)

/-- The parent with both its children after the round. -/
def Round.tree : Round α → RBTree α
  | up t => t
  | settled t => t

/-- The round at the node `p` of color `c` with the focus `t` on the side `s` and the black
sibling `w`. -/
def eraseRound (s : Side) (c : Color) (t : RBTree α) (p : α) (w : RBTree α) : Round α :=
  if (w.child .left).color = .black ∧ (w.child .right).color = .black then
    .up (.branch s c t p (w.paint .red))
  else
    let w := if (w.child s.other).color = .black then
      ((w.paintChild s .black).paint .red).rotate s.other else w
    .settled ((RBTree.branch s .black t p ((w.paint c).paintChild s.other .black)).rotate s)

/-- The focus lacks a black node on every path. A red focus is painted black, and so is the root.
A red sibling is rotated up first, and the round under it ends the walk. -/
def eraseFix : List (Frame α) → RBTree α → RBTree α
  | [], t => t.paint .black
  | ⟨s, c, p, w⟩ :: k, t =>
    if t.color = .red then plug (⟨s, c, p, w⟩ :: k) (t.paint .black)
    else match w with
      | .node .red l b r =>
        match eraseRound s .red t p (s.pick l r) with
        | .up t => plug k (.branch s .black (t.paint .black) b (s.pick r l))
        | .settled t => (plug k (.branch s .black t b (s.pick r l))).paint .black
      | w =>
        match eraseRound s c t p w with
        | .up t => eraseFix k t
        | .settled t => (plug k t).paint .black

/-- The frames down to the leftmost node, and what is right of it below. -/
def leftmost (k : List (Frame α)) : (c : Color) → RBTree α → α → RBTree α →
    List (Frame α) × Color × α × RBTree α
  | c, .nil, a, r => (k, c, a, r)
  | c, .node d x b y, a, r => leftmost (⟨.left, c, a, r⟩ :: k) d x b y

/-- A node of color `c` made way for its only child `t`. -/
def splice (k : List (Frame α)) (c : Color) (t : RBTree α) : RBTree α :=
  if c = .black then eraseFix k t else plug k t

/-- The tree without the node at the focus. A node with two children is replaced by the
leftmost one on its right, which takes over its color. -/
def erase (k : List (Frame α)) (c : Color) : RBTree α → RBTree α → RBTree α
  | .nil, r => splice k c r
  | l, .nil => splice k c l
  | l, .node d x b y =>
    let (j, d, b, y) := leftmost [] d x b y
    splice (j ++ ⟨.right, c, b, l⟩ :: k) d y

/-! ### One side at a time -/

namespace RBTree

/-- The colour of a node is the one it was made with. -/
@[simp] theorem color_node (c : Color) (l : RBTree α) (a : α) (r : RBTree α) :
    (node c l a r).color = c := rfl

/-- Painting a node replaces its colour. -/
@[simp] theorem paint_node (c d : Color) (l : RBTree α) (a : α) (r : RBTree α) :
    (node c l a r).paint d = node d l a r := rfl

/-- A branch has the colour of its node, whichever side it is seen from. -/
@[simp] theorem color_branch (s : Side) (c : Color) (t : RBTree α) (a : α) (u : RBTree α) :
    (branch s c t a u).color = c := rfl

/-- Painting a branch replaces the colour of its node. -/
@[simp] theorem paint_branch (s : Side) (c d : Color) (t : RBTree α) (a : α) (u : RBTree α) :
    (branch s c t a u).paint d = branch s d t a u := rfl

/-- What is painted black is black, the empty tree too. -/
@[simp] theorem color_paint_black (t : RBTree α) : (t.paint .black).color = .black := by
  cases t <;> rfl

/-- A node is a branch on either side. -/
theorem exists_branch (s : Side) (c : Color) (l : RBTree α) (a : α) (r : RBTree α) :
    ∃ near far, node c l a r = branch s c near a far := by
  cases s with
  | left => exact ⟨l, r, rfl⟩
  | right => exact ⟨r, l, rfl⟩

/-- A node seen from a side is the node. -/
@[simp] theorem branch_pick (s : Side) (c : Color) (l : RBTree α) (a : α) (r : RBTree α) :
    branch s c (s.pick l r) a (s.pick r l) = node c l a r := by
  cases s <;> rfl

/-- Seen from the other side, the children change places. -/
@[simp] theorem branch_other (s : Side) (c : Color) (t : RBTree α) (a : α) (u : RBTree α) :
    branch s.other c t a u = branch s c u a t := by
  cases s <;> rfl

/-- The far child of a branch is on the other side. -/
@[simp] theorem child_other_branch (s : Side) (c : Color) (near : RBTree α) (a : α)
    (far : RBTree α) : (branch s c near a far).child s.other = far := by
  cases s <;> rfl

/-- Painting the child on the side of a branch paints the near one. -/
@[simp] theorem paintChild_branch (s : Side) (c d : Color) (near : RBTree α) (a : α)
    (far : RBTree α) :
    (branch s c near a far).paintChild s d = branch s c (near.paint d) a far := by
  cases s <;> rfl

/-- Painting the child on the other side of a branch paints the far one. -/
@[simp] theorem paintChild_other_branch (s : Side) (c d : Color) (near : RBTree α) (a : α)
    (far : RBTree α) :
    (branch s c near a far).paintChild s.other d = branch s c near a (far.paint d) := by
  cases s <;> rfl

/-- A rotation towards a side takes the far child up. -/
@[simp] theorem rotate_branch (s : Side) (c d : Color) (x : RBTree α) (a : α) (y : RBTree α)
    (b : α) (z : RBTree α) :
    (branch s c x a (branch s d y b z)).rotate s = branch s d (branch s c x a y) b z := by
  cases s <;> rfl

/-- The rotation towards the other side undoes it. -/
@[simp] theorem rotate_other_branch (s : Side) (c d : Color) (x : RBTree α) (a : α)
    (y : RBTree α) (b : α) (z : RBTree α) :
    (branch s d (branch s c x a y) b z).rotate s.other = branch s c x a (branch s d y b z) := by
  cases s <;> rfl

end RBTree

/-- A focus on the outside: one rotation. -/
theorem insertTurn_outer (s : Side) (t : RBTree α) (p : α) (u : RBTree α) (g : α)
    (v : RBTree α) :
    insertTurn s s t p u g v = .branch s .black t p (.branch s .red u g v) := by
  simp [insertTurn]

/-- A focus on the inside: it comes up over both. -/
theorem insertTurn_inner (s : Side) (c : Color) (x : RBTree α) (a : α) (y : RBTree α) (p : α)
    (u : RBTree α) (g : α) (v : RBTree α) :
    insertTurn s.other s (.branch s c x a y) p u g v =
      .branch s .black (.branch s .red u p x) a (.branch s .red y g v) := by
  simp [insertTurn]

/-- A sibling with two black children is painted red, and the loop goes up. -/
theorem eraseRound_black {s : Side} {c d : Color} {t near far : RBTree α} {p b : α}
    (hn : near.color = .black) (hf : far.color = .black) :
    eraseRound s c t p (.branch s d near b far) =
      .up (.branch s c t p (.branch s .red near b far)) := by
  cases s <;> simp [eraseRound, RBTree.branch, RBTree.child, Side.pick, hn, hf]

/-- A sibling with a red far child takes one rotation, and the loop ends. -/
theorem eraseRound_far {s : Side} {c d : Color} {t near far : RBTree α} {p b : α}
    (hf : far.color = .red) :
    eraseRound s c t p (.branch s d near b far) =
      .settled (.branch s c (.branch s .black t p near) b (far.paint .black)) := by
  have hcond : ¬ (((RBTree.branch s d near b far).child .left).color = .black ∧
      ((RBTree.branch s d near b far).child .right).color = .black) := by
    cases s <;> simp [RBTree.branch, RBTree.child, Side.pick, hf]
  unfold eraseRound
  rw [if_neg hcond]
  simp [hf]

/-- A sibling with a red near child alone takes two rotations, and the loop ends. -/
theorem eraseRound_near {s : Side} {c d : Color} {t x y far : RBTree α} {p a b : α}
    (hf : far.color = .black) :
    eraseRound s c t p (.branch s d (.branch s .red x a y) b far) =
      .settled (.branch s c (.branch s .black t p x) a (.branch s .black y b far)) := by
  have hcond : ¬ (((RBTree.branch s d (.branch s .red x a y) b far).child .left).color = .black ∧
      ((RBTree.branch s d (.branch s .red x a y) b far).child .right).color = .black) := by
    cases s <;> simp [RBTree.branch, RBTree.child, Side.pick]
  unfold eraseRound
  rw [if_neg hcond]
  simp [hf]

/-- The three rounds at a black sibling. -/
inductive RoundCase (s : Side) : RBTree α → Prop where
  | black (d : Color) (near : RBTree α) (b : α) (far : RBTree α) (hn : near.color = .black)
      (hf : far.color = .black) : RoundCase s (.branch s d near b far)
  | far (d : Color) (near : RBTree α) (b : α) (far : RBTree α) (hf : far.color = .red) :
      RoundCase s (.branch s d near b far)
  | near (d : Color) (x : RBTree α) (a : α) (y : RBTree α) (b : α) (far : RBTree α)
      (hf : far.color = .black) : RoundCase s (.branch s d (.branch s .red x a y) b far)

/-- Every sibling that is not empty is one of the cases of a round. -/
theorem roundCase (s : Side) {w : RBTree α} (hw : w ≠ .nil) : RoundCase s w := by
  obtain _ | ⟨d, l, b, r⟩ := w
  · exact absurd rfl hw
  obtain ⟨near, far, h⟩ := RBTree.exists_branch s d l b r
  rw [h]
  cases hf : far.color with
  | red => exact .far d near b far hf
  | black =>
    match near with
    | .nil => exact .black d .nil b far rfl hf
    | .node .black x a y => exact .black d _ b far rfl hf
    | .node .red x a y =>
      obtain ⟨x, y, h⟩ := RBTree.exists_branch s .red x a y
      rw [h]
      exact .near d x a y b far hf

/-! ### The in-order sequence -/

/-- The labels left of the focus. -/
def before : List (Frame α) → List α
  | [] => []
  | f :: k => before k ++ f.side.pick [] (f.sibling.toList ++ [f.label])

/-- The labels right of the focus. -/
def after : List (Frame α) → List α
  | [] => []
  | f :: k => f.side.pick (f.label :: f.sibling.toList) [] ++ after k

namespace RBTree

/-- Painting does not change the sequence. -/
@[simp] theorem toList_paint (c : Color) (t : RBTree α) : (t.paint c).toList = t.toList := by
  cases t <;> rfl

/-- Painting a child does not change the sequence. -/
@[simp] theorem toList_paintChild (s : Side) (c : Color) (t : RBTree α) :
    (t.paintChild s c).toList = t.toList := by
  cases t <;> cases s <;> simp [paintChild, toList, Side.pick]

/-- A rotation does not change the sequence. -/
@[simp] theorem toList_rotate (s : Side) (t : RBTree α) : (t.rotate s).toList = t.toList := by
  -- a rotation only moves a bracket
  fun_cases rotate s t <;> simp [toList]

/-- The sequence of a branch, in the order of its side. -/
theorem toList_branch (s : Side) (c : Color) (near : RBTree α) (a : α) (far : RBTree α) :
    (branch s c near a far).toList =
      s.pick [] (far.toList ++ [a]) ++ near.toList ++ s.pick (a :: far.toList) [] := by
  cases s <;> simp [branch, toList, Side.pick]

end RBTree

/-- The sequence of the whole tree is that of the subtree between those of the frames. -/
theorem toList_plug (k : List (Frame α)) (t : RBTree α) :
    (plug k t).toList = before k ++ t.toList ++ after k := by
  induction k generalizing t with
  | nil => simp [plug, before, after]
  | cons f k ih => simp [plug, before, after, ih, Frame.fill, RBTree.toList_branch]

/-- Replacing a subtree by one of the same sequence keeps the sequence of the tree. -/
theorem toList_plug_congr (k : List (Frame α)) {t u : RBTree α} (h : t.toList = u.toList) :
    (plug k t).toList = (plug k u).toList := by
  rw [toList_plug, toList_plug, h]

/-- What stands before the subtree comes from the outer frames first. -/
theorem before_append (j k : List (Frame α)) : before (j ++ k) = before k ++ before j := by
  induction j with
  | nil => simp [before]
  | cons f j ih => simp [before, ih]

/-- What stands behind the subtree comes from the inner frames first. -/
theorem after_append (j k : List (Frame α)) : after (j ++ k) = after j ++ after k := by
  induction j with
  | nil => simp [after]
  | cons f j ih => simp [after, ih]

/-- The last turn of an insertion keeps the sequence. -/
theorem toList_insertTurn (s s' : Side) (t : RBTree α) (p : α) (u : RBTree α) (g : α)
    (v : RBTree α) :
    (insertTurn s s' t p u g v).toList =
      (RBTree.branch s' .red (.branch s .red t p u) g v).toList := by
  unfold insertTurn
  rw [RBTree.toList_rotate, RBTree.toList_branch, RBTree.toList_branch, RBTree.toList_paint]
  split
  · rfl
  · rw [RBTree.toList_rotate]

/-- The loop of an insertion keeps the sequence. -/
theorem toList_insertFix (k : List (Frame α)) (t : RBTree α) :
    (insertFix k t).toList = (plug k t).toList := by
  fun_induction insertFix k t with
  | case1 s p u s' c g v k t hv ih =>
    rw [ih]
    show _ = (plug k (.branch s' c (.branch s .red t p u) g v)).toList
    exact toList_plug_congr k (by simp [RBTree.toList_branch])
  | case2 s p u s' c g v k t hv =>
    rw [RBTree.toList_paint, toList_plug_congr k (toList_insertTurn s s' t p u g v)]
    exact toList_plug_congr k (by simp [Frame.fill, RBTree.toList_branch])
  | case3 k t h => rw [RBTree.toList_paint]

/-- A round keeps the labels it works on. -/
theorem toList_eraseRound (s : Side) (c : Color) (t : RBTree α) (p : α) (w : RBTree α) :
    (eraseRound s c t p w).tree.toList = (RBTree.branch s c t p w).toList := by
  fun_cases eraseRound s c t p w with
  | case1 hblack => simp [Round.tree, RBTree.toList_branch]
  | case2 hred w' =>
    have hw : w'.toList = w.toList := by
      unfold w'
      split <;> simp
    simp [Round.tree, RBTree.toList_branch, hw]

/-- The red sibling and the parent change places. -/
theorem toList_siblingUp (s : Side) (c c' d : Color) {t t' : RBTree α} (p b : α) (l r : RBTree α)
    (h : t'.toList = (RBTree.branch s c t p (s.pick l r)).toList) :
    (RBTree.branch s d t' b (s.pick r l)).toList =
      (RBTree.branch s c' t p (.node .red l b r)).toList := by
  rw [RBTree.toList_branch, h, RBTree.toList_branch, RBTree.toList_branch]
  cases s <;> simp [Side.pick, RBTree.toList]

/-- The loop of an erasure keeps the sequence. -/
theorem toList_eraseFix (k : List (Frame α)) (t : RBTree α) :
    (eraseFix k t).toList = (plug k t).toList := by
  fun_induction eraseFix k t with
  | case1 t => rw [RBTree.toList_paint]; rfl
  | case2 s c p w k t ht => exact toList_plug_congr _ (RBTree.toList_paint _ _)
  -- The rotation about the red sibling keeps the order, and so does the round behind it.
  | case3 s c p k t ht l b r t' hround =>
    have h := toList_eraseRound s .red t p (s.pick l r)
    rw [hround] at h
    exact toList_plug_congr k (toList_siblingUp s .red c .black p b l r
      ((RBTree.toList_paint _ _).trans h))
  | case4 s c p k t ht l b r t' hround =>
    have h := toList_eraseRound s .red t p (s.pick l r)
    rw [hround] at h
    rw [RBTree.toList_paint]
    exact toList_plug_congr k (toList_siblingUp s .red c .black p b l r h)
  -- The same round without a rotation.
  | case5 s c p k t ht w hw t' hround ih =>
    have h := toList_eraseRound s c t p w
    rw [hround] at h
    rw [ih]
    exact toList_plug_congr k h
  | case6 s c p k t ht w hw t' hround =>
    have h := toList_eraseRound s c t p w
    rw [hround] at h
    rw [RBTree.toList_paint]
    exact toList_plug_congr k h

/-- A path may be walked up in two parts. -/
theorem plug_append (j k : List (Frame α)) (t : RBTree α) :
    plug (j ++ k) t = plug k (plug j t) := by
  induction j generalizing t with
  | nil => rfl
  | cons f j ih => exact ih (f.fill t)

/-- Going down to the leftmost node changes the view, not the tree. -/
theorem plug_leftmost (k : List (Frame α)) (c : Color) (l : RBTree α) (a : α) (r : RBTree α) :
    (let (j, d, b, y) := leftmost k c l a r
     plug j (.node d .nil b y)) = plug k (.node c l a r) := by
  induction l generalizing k c a r with
  | nil => rfl
  | node d x b y ihx _ => exact ihx (⟨.left, c, a, r⟩ :: k) d b y

/-- Going down to the leftmost node passes nothing that comes before the subtree. -/
theorem before_leftmost (k : List (Frame α)) (c : Color) (l : RBTree α) (a : α) (r : RBTree α) :
    before (leftmost k c l a r).1 = before k := by
  induction l generalizing k c a r with
  | nil => rfl
  | node d x b y ihx _ =>
    rw [leftmost, ihx]
    simp [before, Side.pick]

/-- The tree without the node has the sequence without its element. -/
theorem toList_splice (k : List (Frame α)) (c : Color) (t : RBTree α) :
    (splice k c t).toList = before k ++ t.toList ++ after k := by
  unfold splice
  split
  · rw [toList_eraseFix, toList_plug]
  · rw [toList_plug]

/-- Erasing takes the label at the focus out of the sequence and no other. -/
theorem toList_erase (k : List (Frame α)) (c : Color) (l r : RBTree α) :
    (erase k c l r).toList = before k ++ l.toList ++ r.toList ++ after k := by
  fun_cases erase k c l r with
  | case1 r => simp [toList_splice, RBTree.toList]
  | case2 l hl => simp [toList_splice, RBTree.toList]
  | case3 l d x b y hl j d' b' y' hj =>
    have hplug := plug_leftmost [] d x b y
    have hbefore := before_leftmost [] d x b y
    rw [hj] at hplug hbefore
    have hlist : b' :: y'.toList ++ after j = (RBTree.node d x b y).toList := by
      rw [← show plug [] (.node d x b y) = RBTree.node d x b y from rfl, ← hplug, toList_plug,
        hbefore]
      rfl
    rw [toList_splice, before_append, after_append, hbefore, ← hlist]
    simp [before, after, Side.pick]

/-! ### Balance -/

/-- No red node has a red child, and every path down has `n` black nodes. -/
def Balanced : RBTree α → Nat → Prop
  | .nil, n => n = 0
  | .node .red l _ r, n =>
    l.color = .black ∧ r.color = .black ∧ Balanced l n ∧ Balanced r n
  | .node .black _ _ _, 0 => False
  | .node .black l _ r, n + 1 => Balanced l n ∧ Balanced r n

/-- What the frames need at the focus: a tree with `n` black nodes on every path. No red frame is
the outermost one. -/
def Above : List (Frame α) → Nat → Prop
  | [], _ => True
  | ⟨_, .red, _, u⟩ :: k, n =>
    k ≠ [] ∧ parentColor k = .black ∧ u.color = .black ∧ Balanced u n ∧ Above k n
  | ⟨_, .black, _, u⟩ :: k, n => Balanced u n ∧ Above k (n + 1)

/-- A tree as it stands between two calls: balanced, with a black root. -/
def IsRedBlack (t : RBTree α) : Prop := t.color = .black ∧ ∃ n, Balanced t n

/-- The empty tree has the black height zero. -/
@[simp] theorem balanced_nil {n : Nat} : Balanced (.nil : RBTree α) n ↔ n = 0 := Iff.rfl

/-- A red node is balanced with black children of its own height. -/
@[simp] theorem balanced_red {l r : RBTree α} {a : α} {n : Nat} :
    Balanced (.node .red l a r) n ↔
      l.color = .black ∧ r.color = .black ∧ Balanced l n ∧ Balanced r n := by
  cases n <;> rfl

/-- A black node is balanced with children of one less. -/
theorem balanced_black {l r : RBTree α} {a : α} {n : Nat} :
    Balanced (.node .black l a r) n ↔ ∃ m, n = m + 1 ∧ Balanced l m ∧ Balanced r m := by
  cases n with
  | zero => simp [Balanced]
  | succ n => simp [Balanced]

/-- The same with the height of the children named. -/
@[simp] theorem balanced_black_succ {l r : RBTree α} {a : α} {n : Nat} :
    Balanced (.node .black l a r) (n + 1) ↔ Balanced l n ∧ Balanced r n := Iff.rfl

/-- `balanced_red` seen from a side. -/
@[simp] theorem balanced_branch_red {s : Side} {t u : RBTree α} {a : α} {n : Nat} :
    Balanced (.branch s .red t a u) n ↔
      t.color = .black ∧ u.color = .black ∧ Balanced t n ∧ Balanced u n := by
  cases s
  · simp [RBTree.branch, Side.pick]
  · simp only [RBTree.branch, Side.pick, balanced_red]
    tauto

/-- `balanced_black` seen from a side. -/
@[simp] theorem balanced_branch_black {s : Side} {t u : RBTree α} {a : α} {n : Nat} :
    Balanced (.branch s .black t a u) (n + 1) ↔ Balanced t n ∧ Balanced u n := by
  cases s <;> simp [RBTree.branch, Side.pick, and_comm]

/-- A balanced tree with a black root is a red-black tree. -/
theorem Balanced.paint_black {t : RBTree α} {n : Nat} (h : Balanced t n) :
    IsRedBlack (t.paint .black) := by
  refine ⟨t.color_paint_black, ?_⟩
  match t, h with
  | .nil, h => exact ⟨n, h⟩
  | .node .red l a r, h => exact ⟨n + 1, (balanced_red.mp h).2.2⟩
  | .node .black l a r, h => exact ⟨n, h⟩

/-- The frames closed over a tree that fits. -/
theorem Balanced.plug {k : List (Frame α)} {t : RBTree α} {n : Nat} (hk : Above k n)
    (ht : Balanced t n) (hcolor : parentColor k = .red → t.color = .black) :
    ∃ m, Balanced (plug k t) m := by
  induction k generalizing t n with
  | nil => exact ⟨n, ht⟩
  | cons f k ih =>
    match f, hk with
    | ⟨s, .red, a, u⟩, ⟨_, hparent, hblack, hu, hk⟩ =>
      refine ih hk (balanced_branch_red.mpr ⟨hcolor rfl, hblack, ht, hu⟩) fun h => ?_
      rw [hparent] at h
      cases h
    | ⟨s, .black, a, u⟩, ⟨hu, hk⟩ =>
      exact ih hk (balanced_branch_black.mpr ⟨ht, hu⟩) fun _ => rfl

/-- The outermost frame is black. -/
theorem Above.color_plug {k : List (Frame α)} {n : Nat} (hk : Above k n) (t : RBTree α)
    (h : k = [] → t.color = .black) : (RedBlack.plug k t).color = .black := by
  induction k generalizing t n with
  | nil => exact h rfl
  | cons f k ih =>
    match f, hk with
    | ⟨s, .red, a, u⟩, ⟨hne, _, _, _, hk⟩ => exact ih hk _ fun h => absurd h hne
    | ⟨s, .black, a, u⟩, ⟨_, hk⟩ => exact ih hk _ fun _ => rfl

/-- A balanced tree under frames that expect its height completes them to a red-black tree. -/
theorem Above.isRedBlack {k : List (Frame α)} {t : RBTree α} {n : Nat} (hk : Above k n)
    (ht : Balanced t n) (hcolor : parentColor k = .red → t.color = .black)
    (hroot : k = [] → t.color = .black) : IsRedBlack (RedBlack.plug k t) :=
  ⟨hk.color_plug t hroot, ht.plug hk hcolor⟩

/-- A focus anywhere in a red-black tree: the frames need what the focus has. -/
theorem IsRedBlack.split {k : List (Frame α)} {t : RBTree α} (h : IsRedBlack (plug k t)) :
    ∃ n, Above k n ∧ Balanced t n ∧ (parentColor k = .red → t.color = .black) := by
  induction k generalizing t with
  | nil =>
    obtain ⟨_, n, hn⟩ := h
    exact ⟨n, trivial, hn, fun h => by cases h⟩
  | cons f k ih =>
    obtain ⟨n, hk, hf, hcolor⟩ := ih h
    obtain ⟨s, c, a, u⟩ := f
    cases c with
    -- A red frame counts no black node, so both sides have the height of the whole.
    | red =>
      obtain ⟨ht, hu, hbt, hbu⟩ := balanced_branch_red.mp hf
      have hparent : parentColor k = .black := by
        cases hp : parentColor k with
        | red => cases hcolor hp
        | black => rfl
      -- The root is black, so a red frame is not the outermost.
      have hne : k ≠ [] := by
        rintro rfl
        cases h.1
      exact ⟨n, ⟨hne, hparent, hu, hbu, hk⟩, hbt, fun _ => ht⟩
    -- A black frame counts one.
    | black =>
      cases n with
      | zero => cases s <;> exact hf.elim
      | succ n =>
        obtain ⟨hbt, hbu⟩ := balanced_branch_black.mp hf
        exact ⟨n, ⟨hbu, hk⟩, hbt, fun h => by cases h⟩

/-! ### Insertion restores the balance -/

/-- The last turn of an insertion makes a black tree of the height that the frames expect. -/
theorem balanced_insertTurn (s s' : Side) {t u v : RBTree α} (p g : α) {n : Nat}
    (ht : Balanced t n) (hred : t.color = .red) (hu : Balanced u n) (hblack : u.color = .black)
    (hv : Balanced v n) (hv' : v.color = .black) :
    Balanced (insertTurn s s' t p u g v) (n + 1) ∧
      (insertTurn s s' t p u g v).color = .black := by
  obtain _ | ⟨c, x, a, y⟩ := t
  · cases hred
  obtain rfl : c = .red := hred
  by_cases hs : s = s'
  · subst hs
    rw [insertTurn_outer]
    simp_all
  · obtain rfl : s = s'.other := by cases s <;> cases s' <;> trivial
    obtain ⟨near, far, h⟩ := RBTree.exists_branch s' .red x a y
    rw [h, insertTurn_inner]
    rw [h] at ht
    simp_all

/-- From a red node that may stand under a red one, the loop of an insertion makes a red-black
tree. -/
theorem isRedBlack_insertFix {k : List (Frame α)} {t : RBTree α} {n : Nat} (hk : Above k n)
    (ht : Balanced t n) (hred : t.color = .red) : IsRedBlack (insertFix k t) := by
  fun_induction insertFix k t generalizing n with
  -- A red uncle: recolour and go on from the grandparent, which is red now.
  | case1 s p u s' c g v k t hv ih =>
    obtain ⟨_, hc, hu, hbu, habove⟩ := hk
    obtain rfl : c = .black := hc
    obtain ⟨hbv, hk⟩ := habove
    refine ih hk (balanced_branch_red.mpr ⟨rfl, v.color_paint_black, ?_, ?_⟩) rfl
    · exact balanced_branch_black.mpr ⟨ht, hbu⟩
    · obtain _ | ⟨d, x, b, y⟩ := v
      · cases hv
      · obtain rfl : d = .red := hv
        exact (balanced_red.mp hbv).2.2
  -- A black uncle: one or two rotations end the loop.
  | case2 s p u s' c g v k t hv =>
    obtain ⟨_, hc, hu, hbu, habove⟩ := hk
    obtain rfl : c = .black := hc
    obtain ⟨hbv, hk⟩ := habove
    have hv' : v.color = .black := by
      cases h : v.color with
      | red => exact absurd h hv
      | black => rfl
    obtain ⟨hb, hcolor⟩ := balanced_insertTurn s s' p g ht hred hbu hu hbv hv'
    obtain ⟨m, hm⟩ := hb.plug hk fun _ => hcolor
    exact hm.paint_black
  -- The parent is black or there is none, so nothing is wrong above.
  | case3 k t hshape =>
    have hcolor : parentColor k = .red → t.color = .black := by
      intro hp
      -- A red parent with a grandparent is one of the two cases before.
      match k, hk with
      | ⟨s, .red, p, u⟩ :: f :: k, hk =>
        exact (hshape s p u f.side f.color f.label f.sibling k rfl).elim
      | [⟨s, .red, p, u⟩], hk => exact absurd rfl hk.1
      | ⟨s, .black, p, u⟩ :: k, hk => cases hp
    obtain ⟨m, hm⟩ := ht.plug hk hcolor
    exact hm.paint_black

/-! ### Erasure restores the balance -/

/-- The black nodes a node of this color puts on a path. -/
def Color.blacks : Color → Nat
  | .red => 0
  | .black => 1

/-- A focus that would need one more black node: `n` of `n + 1`. A red one gets it by paint. -/
def Lacks (t : RBTree α) (n : Nat) : Prop :=
  match t.color with
  | .black => Balanced t n
  | .red => Balanced (t.paint .black) (n + 1)

/-- A round keeps the colour at the top, and the lack of one black node is gone or one level
higher. -/
theorem balanced_eraseRound {s : Side} {c : Color} {t w : RBTree α} {p : α} {n : Nat}
    (ht : Balanced t n) (hw : Balanced w (n + 1))
    (hwc : w.color = .black) :
    (eraseRound s c t p w).tree.color = c ∧
      match eraseRound s c t p w with
      | .up t' => Lacks t' (n + c.blacks)
      | .settled t' => Balanced t' (n + 1 + c.blacks) := by
  have hne : w ≠ .nil := by
    rintro rfl
    cases hw
  -- By the colours of the sibling's children, as the code tests them.
  cases roundCase s hne with
  | black d near b far hn hf =>
    obtain rfl : d = .black := hwc
    rw [eraseRound_black hn hf]
    refine ⟨rfl, ?_⟩
    cases c <;> simp [Lacks, Color.blacks] <;> simp_all
  | far d near b far hf =>
    obtain rfl : d = .black := hwc
    rw [eraseRound_far hf]
    -- The far child is red and gets black, so it counts one node more.
    have hpaint : Balanced (far.paint .black) (n + 1) := by
      obtain _ | ⟨e, x, a, y⟩ := far
      · cases hf
      · obtain rfl : e = .red := hf
        exact (balanced_red.mp (balanced_branch_black.mp hw).2).2.2
    refine ⟨rfl, ?_⟩
    cases c <;> simp_all [Color.blacks]
  | near d x a y b far hf =>
    obtain rfl : d = .black := hwc
    rw [eraseRound_near hf]
    refine ⟨rfl, ?_⟩
    cases c <;> simp_all [Color.blacks]

/-- What the frames above the parent need. -/
theorem Above.cons {s : Side} {c : Color} {p : α} {w : RBTree α} {k : List (Frame α)} {n : Nat}
    (h : Above (⟨s, c, p, w⟩ :: k) n) : Balanced w n ∧ Above k (n + c.blacks) := by
  cases c with
  | red => exact ⟨h.2.2.2.1, h.2.2.2.2⟩
  | black => exact h

/-- A red sibling has black children, and so its place is below a black node. -/
theorem above_siblingUp {s : Side} {c : Color} {p b : α} {l r : RBTree α} {k : List (Frame α)}
    {n : Nat} (h : Above (⟨s, c, p, .node .red l b r⟩ :: k) (n + 1)) :
    Above k (n + 2) ∧ ((s.pick l r).color = .black ∧ Balanced (s.pick l r) (n + 1)) ∧
      Balanced (s.pick r l) (n + 1) := by
  cases c with
  | red => cases h.2.2.1
  | black =>
    obtain ⟨hw, hk⟩ := h
    obtain ⟨hlc, hrc, hlb, hrb⟩ := balanced_red.mp hw
    cases s with
    | left => exact ⟨hk, ⟨hlc, hlb⟩, hrb⟩
    | right => exact ⟨hk, ⟨hrc, hrb⟩, hlb⟩

/-- Under a red parent the frame is black. -/
theorem Above.color_of_parent {f : Frame α} {k : List (Frame α)} {n : Nat}
    (h : Above (f :: k) n) (hp : parentColor k = .red) : f.color = .black := by
  obtain ⟨s, c, a, u⟩ := f
  cases c with
  | red => rw [h.2.1] at hp; cases hp
  | black => rfl

/-- A tree that is no red node is black. -/
theorem color_black_of_ne {w : RBTree α} (h : ∀ l b r, w = .node .red l b r → False) :
    w.color = .black := by
  match w with
  | .nil => rfl
  | .node .black _ _ _ => rfl
  | .node .red l b r => exact (h l b r rfl).elim

/-- A balanced tree is one that may lack a black node. -/
theorem Balanced.lacks {t : RBTree α} {n : Nat} (h : Balanced t n) : Lacks t n := by
  match t, h with
  | .nil, h => exact h
  | .node .black _ _ _, h => exact h
  | .node .red _ _ _, h => exact (balanced_red.mp h).2.2

/-- A tree that lacks one black node and is not red at the top is balanced one lower. -/
theorem Lacks.of_black {t : RBTree α} {n : Nat} (h : Lacks t n) (ht : t.color ≠ .red) :
    t.color = .black ∧ Balanced t n := by
  unfold Lacks at h
  cases hc : t.color with
  | red => exact absurd hc ht
  | black => exact ⟨rfl, by simpa only [hc] using h⟩

/-- From a tree that lacks one black node, the loop of an erasure makes a red-black tree. -/
theorem isRedBlack_eraseFix {k : List (Frame α)} {t : RBTree α} {n : Nat} (hk : Above k (n + 1))
    (ht : Lacks t n) : IsRedBlack (eraseFix k t) := by
  fun_induction eraseFix k t generalizing n with
  -- At the root one black node may be missing on all paths.
  | case1 t =>
    unfold Lacks at ht
    split at ht
    · exact ht.paint_black
    · exact ⟨t.color_paint_black, n + 1, ht⟩
  -- A red node is painted black and makes up for what is missing.
  | case2 s c p w k t hred =>
    have hb : Balanced (t.paint .black) (n + 1) := by
      simpa only [Lacks, hred] using ht
    exact hk.isRedBlack hb (fun _ => t.color_paint_black) fun h => by cases h
  -- After the rotation about a red sibling the parent is red, so the round settles the loop.
  | case3 s c p k t hred l b r t' hround =>
    obtain ⟨-, htb⟩ := ht.of_black hred
    obtain ⟨hk, hnear, hfar⟩ := above_siblingUp hk
    obtain ⟨hc, hlacks⟩ := balanced_eraseRound (p := p) (c := .red) htb hnear.2 hnear.1
    rw [hround] at hc hlacks
    have hb : Balanced (t'.paint .black) (n + 1) := by
      simpa only [Lacks, show t'.color = .red from hc, Color.blacks, Nat.add_zero] using hlacks
    exact hk.isRedBlack (balanced_branch_black.mpr ⟨hb, hfar⟩) (fun _ => rfl) fun _ => rfl
  | case4 s c p k t hred l b r t' hround =>
    obtain ⟨-, htb⟩ := ht.of_black hred
    obtain ⟨hk, hnear, hfar⟩ := above_siblingUp hk
    obtain ⟨-, hb⟩ := balanced_eraseRound (p := p) (c := .red) htb hnear.2 hnear.1
    rw [hround] at hb
    have hbranch : Balanced (.branch s .black t' b (s.pick r l)) (n + 2) :=
      balanced_branch_black.mpr ⟨hb, hfar⟩
    obtain ⟨m, hm⟩ := hbranch.plug hk fun _ => rfl
    exact hm.paint_black
  -- The round moves the missing node up by one frame.
  | case5 s c p k t hred w hw t' hround ih =>
    obtain ⟨-, htb⟩ := ht.of_black hred
    obtain ⟨hbw, hk⟩ := hk.cons
    obtain ⟨-, hlacks⟩ := balanced_eraseRound (s := s) (p := p) (c := c) htb hbw
      (color_black_of_ne hw)
    rw [hround] at hlacks
    refine ih ?_ hlacks
    rwa [Nat.add_right_comm]
  -- The round settles it.
  | case6 s c p k t hred w hw t' hround =>
    obtain ⟨-, htb⟩ := ht.of_black hred
    obtain ⟨hbw, habove⟩ := hk.cons
    obtain ⟨hc, hb⟩ := balanced_eraseRound (s := s) (p := p) (c := c) htb hbw
      (color_black_of_ne hw)
    rw [hround] at hc hb
    obtain ⟨m, hm⟩ := hb.plug habove fun h => by
      rw [show t'.color = c from hc]
      exact hk.color_of_parent h
    exact hm.paint_black

/-- What is left of a black node with at most one child lacks a black node. -/
theorem IsRedBlack.lacks {k : List (Frame α)} {l r t : RBTree α} {a : α}
    (h : IsRedBlack (plug k (.node .black l a r)))
    (ht : l = .nil ∧ t = r ∨ r = .nil ∧ t = l) : ∃ n, Above k (n + 1) ∧ Lacks t n := by
  obtain ⟨n, hk, hb, -⟩ := h.split
  obtain ⟨m, rfl, hlb, hrb⟩ := balanced_black.mp hb
  have hbt : Balanced t m := by
    obtain ⟨-, rfl⟩ | ⟨-, rfl⟩ := ht
    · exact hrb
    · exact hlb
  exact ⟨m, hk, hbt.lacks⟩

/-- A node with at most one child makes way for it. -/
theorem isRedBlack_splice {k : List (Frame α)} {c : Color} {l r t : RBTree α} {a : α}
    (h : IsRedBlack (plug k (.node c l a r))) (ht : l = .nil ∧ t = r ∨ r = .nil ∧ t = l) :
    IsRedBlack (splice k c t) := by
  -- A red node that is cut out counts nothing.
  cases c with
  | red =>
    obtain ⟨n, hk, hb, -⟩ := h.split
    obtain ⟨hlc, hrc, hlb, hrb⟩ := balanced_red.mp hb
    have hne : k ≠ [] := by
      rintro rfl
      cases h.1
    -- What is put in its place has the node's own height.
    have : t.color = .black ∧ Balanced t n := by
      obtain ⟨-, rfl⟩ | ⟨-, rfl⟩ := ht
      · exact ⟨hrc, hrb⟩
      · exact ⟨hlc, hlb⟩
    exact hk.isRedBlack this.2 (fun _ => this.1) fun h => absurd h hne
  | black =>
    obtain ⟨n, hk, hlacks⟩ := h.lacks ht
    exact isRedBlack_eraseFix hk hlacks

/-- The balance sees the color of a node, not its label. -/
theorem IsRedBlack.relabel {k : List (Frame α)} {s : Side} {c : Color} {t u : RBTree α} {a : α}
    (h : IsRedBlack (plug k (.branch s c t a u))) (b : α) :
    IsRedBlack (plug k (.branch s c t b u)) := by
  obtain ⟨n, hk, hb, hcolor⟩ := h.split
  refine hk.isRedBlack (n := n) ?_ hcolor fun hnil => ?_
  · cases c with
    | red => exact balanced_branch_red.mpr (balanced_branch_red.mp hb)
    | black => cases s <;> cases n <;> exact hb
  · subst hnil
    exact h.1

/-- Erasing any node leaves a red-black tree. -/
theorem isRedBlack_erase {k : List (Frame α)} {c : Color} {l r : RBTree α} {a : α}
    (h : IsRedBlack (plug k (.node c l a r))) : IsRedBlack (erase k c l r) := by
  fun_cases erase k c l r with
  | case1 r => exact isRedBlack_splice h (.inl ⟨rfl, rfl⟩)
  | case2 l hl => exact isRedBlack_splice h (.inr ⟨rfl, rfl⟩)
  | case3 l d x b y hl j d' b' y' hj =>
    have hplug := plug_leftmost [] d x b y
    rw [hj] at hplug
    refine isRedBlack_splice (a := b') (l := .nil) (r := y') ?_ (.inl ⟨rfl, rfl⟩)
    rw [plug_append]
    refine IsRedBlack.relabel (a := a) (s := .right) ?_ b'
    show IsRedBlack (plug k (.branch .right c (plug j (.node d' .nil b' y')) a l))
    rw [show plug j (.node d' .nil b' y') = .node d x b y from hplug]
    exact h

/-! ### Search -/

/-- The way down that `side` points out, to an empty place or to a node where it points
nowhere. -/
def seek (side : α → Option Side) : List (Frame α) → RBTree α → List (Frame α) × RBTree α
  | k, .nil => (k, .nil)
  | k, .node c l a r =>
    match side a with
    | none => (k, .node c l a r)
    | some .left => seek side (⟨.left, c, a, r⟩ :: k) l
    | some .right => seek side (⟨.right, c, a, l⟩ :: k) r

/-- Only one place in the sequence is pointed out: what comes after a label that does not point
right points left. -/
def Guides (side : α → Option Side) (xs : List α) : Prop :=
  xs.Pairwise fun a b => side a ≠ some .right → side b = some .left

/-- The frames point to their focus. -/
def Aims (side : α → Option Side) (k : List (Frame α)) : Prop :=
  (∀ a ∈ before k, side a = some .right) ∧ ∀ a ∈ after k, side a = some .left

/-- The search splits the tree and loses nothing. -/
theorem plug_seek (side : α → Option Side) (k : List (Frame α)) (t : RBTree α) :
    plug (seek side k t).1 (seek side k t).2 = plug k t := by
  fun_induction seek side k t with
  | case1 k => rfl
  | case2 k c l a r h => rfl
  | case3 k c l a r h ih => exact ih
  | case4 k c l a r h ih => exact ih

/-- The search leaves behind it only what the guide sends to the other side. -/
theorem aims_seek {side : α → Option Side} {k : List (Frame α)} {t : RBTree α}
    (hg : Guides side t.toList) (hk : Aims side k) : Aims side (seek side k t).1 := by
  fun_induction seek side k t with
  | case1 k => exact hk
  | case2 k c l a r h => exact hk
  | case3 k c l a r h ih =>
    -- To the left, the node and everything right of it are behind the place.
    have hsorted := List.pairwise_append.mp hg
    refine ih hsorted.1 ⟨by simpa [before, Side.pick] using hk.1, ?_⟩
    simp only [after, Side.pick, List.mem_append, List.mem_cons]
    rintro b ((rfl | hb) | hb)
    · exact h
    · exact (List.pairwise_cons.mp hsorted.2.1).1 b hb (by simp [h])
    · exact hk.2 b hb
  | case4 k c l a r h ih =>
    -- To the right, the node and everything left of it are before the place.
    have hsorted := List.pairwise_append.mp hg
    refine ih (List.pairwise_cons.mp hsorted.2.1).2 ⟨?_, by simpa [after, Side.pick] using hk.2⟩
    simp only [before, Side.pick, List.mem_append, List.mem_singleton]
    rintro b (hb | hb | rfl)
    · exact hk.1 b hb
    · by_contra hne
      have := hsorted.2.2 b hb a (by simp) hne
      simp [h] at this
    · exact h

/-- The search ends at the node that the guide is looking for. -/
theorem side_seek {side : α → Option Side} {k : List (Frame α)} {t : RBTree α} {c : Color}
    {l r : RBTree α} {a : α} (h : (seek side k t).2 = .node c l a r) : side a = none := by
  fun_induction seek side k t with
  | case1 k => cases h
  | case2 k c l a r hside => cases h; exact hside
  | case3 k c l a r hside ih => exact ih h
  | case4 k c l a r hside ih => exact ih h

/-! ### Height -/

/-- A balanced tree is at most twice as high as it is black. -/
theorem Balanced.height_le {t : RBTree α} {n : Nat} (h : Balanced t n) :
    t.height ≤ 2 * n + 1 ∧ (t.color = .black → t.height ≤ 2 * n) := by
  induction t generalizing n with
  | nil => simp [RBTree.height]
  | node c l a r ihl ihr =>
    -- A red node has black children, a black one may have red ones.
    cases c with
    | red =>
      obtain ⟨hlc, hrc, hl, hr⟩ := balanced_red.mp h
      have hl := (ihl hl).2 hlc
      have hr := (ihr hr).2 hrc
      exact ⟨by simp only [RBTree.height]; omega, fun h => by cases h⟩
    | black =>
      obtain ⟨m, rfl, hl, hr⟩ := balanced_black.mp h
      have hl := (ihl hl).1
      have hr := (ihr hr).1
      have : max l.height r.height + 1 ≤ 2 * (m + 1) := by omega
      exact ⟨by simp only [RBTree.height]; omega, fun _ => this⟩

/-- A path and the subtree at its end fit into the height of the tree. -/
theorem length_add_height_le (k : List (Frame α)) (t : RBTree α) :
    k.length + t.height ≤ (plug k t).height := by
  induction k generalizing t with
  | nil => simp [plug]
  | cons f k ih =>
    have hfill : t.height + 1 ≤ (f.fill t).height := by
      obtain ⟨s, c, a, u⟩ := f
      cases s <;> simp [Frame.fill, RBTree.branch, Side.pick, RBTree.height]
    have := ih (f.fill t)
    simp only [List.length_cons, plug]
    omega

/-- A tree of black height `n` has at least `2 ^ n - 1` nodes. -/
theorem Balanced.two_pow_le {t : RBTree α} {n : Nat} (h : Balanced t n) :
    2 ^ n ≤ t.toList.length + 1 := by
  induction t generalizing n with
  | nil => rw [balanced_nil] at h; simp [h]
  | node c l a r ihl ihr =>
    simp only [RBTree.toList, List.length_append, List.length_cons]
    cases c with
    | red =>
      have hl := ihl (balanced_red.mp h).2.2.1
      omega
    | black =>
      obtain ⟨m, rfl, hl, hr⟩ := balanced_black.mp h
      have hl := ihl hl
      have hr := ihr hr
      rw [Nat.pow_succ]
      omega

/-- A red-black tree is at most twice as high as a full one. -/
theorem IsRedBlack.height_le {t : RBTree α} (h : IsRedBlack t) :
    t.height ≤ 2 * Nat.log2 (t.toList.length + 1) := by
  obtain ⟨hcolor, n, hn⟩ := h
  have hlog : n ≤ Nat.log2 (t.toList.length + 1) :=
    (Nat.le_log2 (by omega)).mpr hn.two_pow_le
  have := hn.height_le.2 hcolor
  omega

end

end Mylib.Lib.RedBlack
