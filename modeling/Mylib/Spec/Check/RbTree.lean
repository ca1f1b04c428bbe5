import Mylib.Lib.RedBlack

/-!
# `Mylib.Spec.Check.RbTree`: the red-black tree of linked nodes

`src/public/check/rbtree.cc` and `rbtree.h`. The nodes live in a memory that maps
addresses to nodes, and a pointer is an address or `NULL`. To follow a pointer that
is `NULL`, or whose node is not allocated, has no result. A `while` loop takes the
number of its rounds as `fuel` and has no result when that runs out.

The source writes every branch twice, with `rb_left` and `rb_right` exchanged. Here
the side is an argument. Where the two texts test something in one order, so does
the model.
-/

set_option autoImplicit false

namespace Mylib.Spec.Check.RbTree

open Mylib.Lib.RedBlack (Color Side)

/-- `struct rb_node`. -/
structure RbNode (ν : Type) where
  rbParent : Option ν
  rbColor : Color
  rbRight : Option ν
  rbLeft : Option ν
  deriving DecidableEq, Repr

/-- All nodes, and the `struct rb_root` the functions are called with. -/
structure Heap (ν : Type) where
  node : ν → Option (RbNode ν)
  rbNode : Option ν

section

variable {ν : Type}

namespace RbNode

def child (n : RbNode ν) (s : Side) : Option ν := s.pick n.rbLeft n.rbRight

def setChild (s : Side) (p : Option ν) (n : RbNode ν) : RbNode ν :=
  match s with
  | .left => { n with rbLeft := p }
  | .right => { n with rbRight := p }

def setParent (p : Option ν) (n : RbNode ν) : RbNode ν := { n with rbParent := p }

def setColor (c : Color) (n : RbNode ν) : RbNode ν := { n with rbColor := c }

end RbNode

variable [DecidableEq ν]

namespace Heap

/-- The node a pointer leads to. -/
def read (h : Heap ν) (p : Option ν) : Option (RbNode ν) := p.bind h.node

def set (h : Heap ν) (a : ν) (n : RbNode ν) : Heap ν :=
  { h with node := Function.update h.node a (some n) }

/-- Assignments through a pointer. -/
def modify (h : Heap ν) (p : Option ν) (f : RbNode ν → RbNode ν) : Option (Heap ν) := do
  let a ← p
  let n ← h.node a
  some (h.set a (f n))

/-- `if(p) ...`: the assignments are left out at `NULL`. -/
def modifyIf (h : Heap ν) (p : Option ν) (f : RbNode ν → RbNode ν) : Option (Heap ν) :=
  if p = none then some h else h.modify p f

/-- `!p || p->rb_color == RB_BLACK` -/
def isBlack (h : Heap ν) (p : Option ν) : Option Bool :=
  if p = none then some true else (h.read p).map fun n => n.rbColor = .black

/-- `p && p->rb_color == RB_RED` -/
def isRed (h : Heap ν) (p : Option ν) : Option Bool :=
  if p = none then some false else (h.read p).map fun n => n.rbColor = .red

/-- `new` in the place of `old` below `parent`, or at the root. The side `s` is tried first. -/
def changeChild (h : Heap ν) (s : Side) (parent old new : Option ν) : Option (Heap ν) :=
  if parent = none then some { h with rbNode := new }
  else do
    let n ← h.read parent
    h.modify parent (RbNode.setChild (if n.child s = old then s else s.other) new)

end Heap

/-! ### Rotations -/

/-- The node goes down on the side `s`, and its child on the other side takes its place. -/
def rotate (s : Side) (node : Option ν) (h : Heap ν) : Option (Heap ν) := do
  let right := (← h.read node).child s.other
  let h ← h.modify node (.setChild s.other ((← h.read right).child s))
  let h ← h.modifyIf ((← h.read right).child s) (.setParent node)
  let h ← h.modify right (.setChild s node)
  let h ← h.modify right (.setParent (← h.read node).rbParent)
  let h ← h.changeChild s (← h.read node).rbParent node right
  h.modify node (.setParent right)

def rbRotateLeft (node : Option ν) (h : Heap ν) : Option (Heap ν) := rotate .left node h

def rbRotateRight (node : Option ν) (h : Heap ν) : Option (Heap ν) := rotate .right node h

/-! ### Insertion -/

/-- `*rb_link`: the root pointer or a child pointer of a node. -/
inductive Link (ν : Type) where
  | root
  | child (s : Side) (p : ν)
  deriving DecidableEq, Repr

def Heap.follow (h : Heap ν) : Link ν → Option (Option ν)
  | .root => some h.rbNode
  | .child s p => (h.node p).map (·.child s)

def Heap.store (h : Heap ν) (new : Option ν) : Link ν → Option (Heap ν)
  | .root => some { h with rbNode := new }
  | .child s p => h.modify (some p) (.setChild s new)

def rbLinkNode (node parent : Option ν) (rbLink : Link ν) (h : Heap ν) : Option (Heap ν) := do
  let h ← h.modify node fun _ => ⟨parent, .red, none, none⟩
  h.store node rbLink

/-- The branch of `rb_insert_color` for a parent on the side `s` of `gparent`, at a black uncle.
The result is the node the loop goes on with. -/
def insertRotate (s : Side) (node parent gparent : Option ν) (h : Heap ν) :
    Option (Option ν × Heap ν) := do
  let (node, parent, h) ←
    if (← h.read parent).child s.other = node then do
      let h ← rotate s parent h
      some (parent, node, h)
    else some (node, parent, h)
  let h ← h.modify parent (.setColor .black)
  let h ← h.modify gparent (.setColor .red)
  let h ← rotate s.other gparent h
  some (node, h)

def rbInsertColor : Nat → Option ν → Heap ν → Option (Heap ν)
  | 0, _, _ => none
  | fuel + 1, node, h => do
    let parent := (← h.read node).rbParent
    if ← h.isRed parent then
      let gparent := (← h.read parent).rbParent
      -- Left and right are the same code with the sides exchanged.
      let s : Side := if parent = (← h.read gparent).rbLeft then .left else .right
      let uncle := (← h.read gparent).child s.other
      -- A red uncle: recolour, and go on from the grandparent.
      if ← h.isRed uncle then
        let h ← h.modify uncle (.setColor .black)
        let h ← h.modify parent (.setColor .black)
        let h ← h.modify gparent (.setColor .red)
        rbInsertColor fuel gparent h
      else
        -- A black uncle: behind the rotations the parent is black, which ends the loop.
        let (node, h) ← insertRotate s node parent gparent h
        rbInsertColor fuel node h
    else h.modify h.rbNode (.setColor .black)

/-! ### Erasure -/

/-- `if(node) node->rb_color = RB_BLACK` -/
def blacken (node : Option ν) (h : Heap ν) : Option (Heap ν) := h.modifyIf node (.setColor .black)

/-- Both children are black or `NULL`. The second one is not looked at when the first is red. -/
def bothBlack (n : RbNode ν) (h : Heap ν) : Option Bool := do
  if ← h.isBlack n.rbLeft then h.isBlack n.rbRight else some false

/-- A red sibling is rotated over the parent. The result is the sibling after that. -/
def eraseRotate (s : Side) (parent other : Option ν) (h : Heap ν) :
    Option (Option ν × Heap ν) := do
  if (← h.read other).rbColor = .red then
    let h ← h.modify other (.setColor .black)
    let h ← h.modify parent (.setColor .red)
    let h ← rotate s parent h
    some ((← h.read parent).child s.other, h)
  else some (other, h)

/-- A sibling that is red on the near side only is rotated to have it on the far side. -/
def eraseInner (s : Side) (parent other : Option ν) (h : Heap ν) :
    Option (Option ν × Heap ν) := do
  if ← h.isBlack ((← h.read other).child s.other) then
    let h ← h.modifyIf ((← h.read other).child s) (.setColor .black)
    let h ← h.modify other (.setColor .red)
    let h ← rotate s.other other h
    some ((← h.read parent).child s.other, h)
  else some (other, h)

/-- The end of the walk at a sibling that is red on the far side. -/
def eraseOuter (s : Side) (parent other : Option ν) (h : Heap ν) : Option (Heap ν) := do
  let h ← h.modify other (.setColor (← h.read parent).rbColor)
  let h ← h.modify parent (.setColor .black)
  let h ← h.modifyIf ((← h.read other).child s.other) (.setColor .black)
  rotate s parent h

def rbEraseColor : Nat → (node parent : Option ν) → Heap ν → Option (Heap ν)
  | 0, _, _, _ => none
  | fuel + 1, node, parent, h => do
    if (← h.isBlack node) ∧ node ≠ h.rbNode then
      let s : Side := if (← h.read parent).rbLeft = node then .left else .right
      -- A red sibling is rotated to the other side first.
      let (other, h) ← eraseRotate s parent ((← h.read parent).child s.other) h
      if ← bothBlack (← h.read other) h then
        -- Both children of the sibling are black: the node that misses one is the parent now.
        let h ← h.modify other (.setColor .red)
        rbEraseColor fuel parent (← h.read parent).rbParent h
      else
        -- The last rotations leave the loop, and the root is painted black.
        let (other, h) ← eraseInner s parent other h
        let h ← eraseOuter s parent other h
        blacken h.rbNode h
    else blacken node h

/-- The last node on the way down along the side `s`. -/
def extreme (s : Side) : Nat → Option ν → Heap ν → Option (Option ν)
  | 0, _, _ => none
  | fuel + 1, n, h => do
    let c := (← h.read n).child s
    if c = none then some n else extreme s fuel c h

/-- A node is cut out of the tree, and `child` comes into its place. -/
def unlink (node child parent : Option ν) (h : Heap ν) : Option (Heap ν) := do
  let h ← h.modifyIf child (.setParent parent)
  h.changeChild .left parent node child

def rbErase (fuel : Nat) (node : Option ν) (h : Heap ν) : Option (Heap ν) := do
  let n ← h.read node
  if n.rbLeft = none ∨ n.rbRight = none then
    let child := if n.rbLeft = none then n.rbRight else n.rbLeft
    let h ← unlink node child n.rbParent h
    if n.rbColor = .black then rbEraseColor fuel child n.rbParent h else some h
  else
    let old := node
    let node ← extreme .left fuel n.rbRight h
    let ⟨parent, color, child, _⟩ ← h.read node
    let h ← unlink node child parent h
    let parent := if (← h.read node).rbParent = old then node else parent
    -- the four fields of `old`, assigned one by one in the source
    let o ← h.read old
    let h ← h.modify node fun _ => o
    let h ← h.changeChild .left (← h.read old).rbParent old node
    let h ← h.modify (← h.read old).rbLeft (.setParent node)
    let h ← h.modifyIf (← h.read old).rbRight (.setParent node)
    if color = .black then rbEraseColor fuel child parent h else some h

/-! ### Walks -/

def rbFirst (fuel : Nat) (h : Heap ν) : Option (Option ν) :=
  if h.rbNode = none then some none else extreme .left fuel h.rbNode h

def rbLast (fuel : Nat) (h : Heap ν) : Option (Option ν) :=
  if h.rbNode = none then some none else extreme .right fuel h.rbNode h

/-- `while(node->rb_parent && node == node->rb_parent->...) node = node->rb_parent`, and the
parent at the end. -/
def climb (s : Side) : Nat → Option ν → Heap ν → Option (Option ν)
  | 0, _, _ => none
  | fuel + 1, node, h => do
    let parent := (← h.read node).rbParent
    if parent = none then some none
    else if node = (← h.read parent).child s then climb s fuel parent h
    else some parent

/-- The neighbour on the side `s`. -/
def neighbour (s : Side) (fuel : Nat) (node : Option ν) (h : Heap ν) : Option (Option ν) := do
  let c := (← h.read node).child s
  if c = none then climb s fuel node h else extreme s.other fuel c h

def rbNext (fuel : Nat) (node : Option ν) (h : Heap ν) : Option (Option ν) :=
  neighbour .right fuel node h

def rbPrev (fuel : Nat) (node : Option ν) (h : Heap ν) : Option (Option ν) :=
  neighbour .left fuel node h

def rbReplaceNode (victim n : Option ν) (h : Heap ν) : Option (Heap ν) := do
  let parent := (← h.read victim).rbParent
  let h ← h.changeChild .left parent victim n
  let h ← h.modifyIf (← h.read victim).rbLeft (.setParent n)
  let h ← h.modifyIf (← h.read victim).rbRight (.setParent n)
  let v ← h.read victim
  h.modify n fun _ => v

end

end Mylib.Spec.Check.RbTree
