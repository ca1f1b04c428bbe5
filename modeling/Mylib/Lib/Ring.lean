import Mathlib

/-!
# `Mylib.Lib.Ring`: families of intrusive rings

An intrusive ring is a doubly linked circular list whose links live in the
elements themselves. It is reached through a sentinel, which is linked like an
element. Several rings share one supply of elements: an element is in at most one
of them at a time, and moves from one to another by `remove` and `insertBefore`.

A node is `null`, the sentinel `head i` of the ring `i`, or the element `elem n`.
`Links` holds the `next` and `prev` fields of all nodes, and the operations are
the single assignments of the usual ring macros.

`Rings l q` says that the links `l` hold, for every `i`, a ring whose elements in
order are `q i`, and that no element occurs twice. `IsRing` is stated by cuts:
wherever the element list is cut in two, `next` leads from the last node before
the cut to the first node after it, and `prev` leads back. The operations act on
`q` as on plain lists: `Rings.insertBefore` inserts at a cut, `Rings.remove`
deletes one element, and all other rings stay. `Rings.toList_eq` reads the list
back from the links.
-/

set_option autoImplicit false

namespace Mylib.Lib.Ring

/-- A place a link can point to: nowhere, a sentinel, or an element. -/
inductive Node (ι : Type) where
  | null
  | head (i : ι)
  | elem (n : Nat)
  deriving DecidableEq, Repr

/-- The link fields of all nodes. -/
structure Links (ι : Type) where
  next : Node ι → Node ι
  prev : Node ι → Node ι

section Operations
variable {ι : Type} [DecidableEq ι]

namespace Links

def setNext (l : Links ι) (e x : Node ι) : Links ι := { l with next := Function.update l.next e x }

def setPrev (l : Links ι) (e x : Node ι) : Links ι := { l with prev := Function.update l.prev e x }

/-- Link a node to itself. -/
def elemInit (l : Links ι) (ep : Node ι) : Links ι := (l.setNext ep ep).setPrev ep ep

/-- Link the run from `ep1` to `epN` in front of `lep`. -/
def spliceBefore (l : Links ι) (lep ep1 epN : Node ι) : Links ι :=
  let l := l.setNext epN lep
  let l := l.setPrev ep1 (l.prev lep)
  let l := l.setNext (l.prev lep) ep1
  l.setPrev lep epN

def insertBefore (l : Links ι) (lep nep : Node ι) : Links ι := l.spliceBefore lep nep nep

def insertTail (l : Links ι) (i : ι) (nep : Node ι) : Links ι := l.insertBefore (.head i) nep

/-- Link the neighbours of the run from `ep1` to `epN` to each other. The links of
the run itself stay as they are. -/
def unsplice (l : Links ι) (ep1 epN : Node ι) : Links ι :=
  let l := l.setNext (l.prev ep1) (l.next epN)
  l.setPrev (l.next epN) (l.prev ep1)

def remove (l : Links ι) (ep : Node ι) : Links ι := l.unsplice ep ep

/-- The elements met from the node `e` on, at most `fuel` of them. -/
def follow (l : Links ι) : Nat → Node ι → List Nat
  | fuel + 1, .elem n => n :: l.follow fuel (l.next (.elem n))
  | _, _ => []

/-- The elements of the ring `i`, at most `fuel` of them. -/
def toList (l : Links ι) (fuel : Nat) (i : ι) : List Nat := l.follow fuel (l.next (.head i))

/-- The `next` pointers after an insertion: only the new element and the one in front of it
change. -/
theorem insertBefore_next (l : Links ι) {lep nep : Node ι} (hne : lep ≠ nep) (e : Node ι) :
    (l.insertBefore lep nep).next e
      = if e = l.prev lep then nep else if e = nep then lep else l.next e := by
  simp [insertBefore, spliceBefore, setNext, setPrev, Function.update_apply, hne]

/-- The `prev` pointers after an insertion: only the new element and the one behind it change. -/
theorem insertBefore_prev (l : Links ι) (lep nep e : Node ι) :
    (l.insertBefore lep nep).prev e
      = if e = lep then nep else if e = nep then l.prev lep else l.prev e := by
  simp [insertBefore, spliceBefore, setNext, setPrev, Function.update_apply]

/-- Removing an element changes the `next` pointer in front of it only. -/
theorem remove_next (l : Links ι) (ep e : Node ι) :
    (l.remove ep).next e = if e = l.prev ep then l.next ep else l.next e := by
  simp [remove, unsplice, setNext, setPrev, Function.update_apply]

/-- Removing an element changes the `prev` pointer behind it only. -/
theorem remove_prev (l : Links ι) (ep e : Node ι) :
    (l.remove ep).prev e = if e = l.next ep then l.prev ep else l.prev e := by
  simp [remove, unsplice, setNext, setPrev, Function.update_apply]

/-- Taking a stretch out changes the `next` pointer in front of it only. -/
theorem unsplice_next (l : Links ι) (ep1 epN e : Node ι) :
    (l.unsplice ep1 epN).next e = if e = l.prev ep1 then l.next epN else l.next e := by
  simp [unsplice, setNext, setPrev, Function.update_apply]

/-- A store to `next` changes one pointer. -/
@[simp] theorem setNext_next (l : Links ι) (x y e : Node ι) :
    (l.setNext x y).next e = if e = x then y else l.next e := by
  simp [setNext, Function.update_apply]

/-- A store to `next` leaves `prev` alone. -/
@[simp] theorem setNext_prev (l : Links ι) (x y : Node ι) : (l.setNext x y).prev = l.prev := rfl

/-- A store to `prev` leaves `next` alone. -/
@[simp] theorem setPrev_next (l : Links ι) (x y : Node ι) : (l.setPrev x y).next = l.next := rfl

/-- A new element points to itself. -/
theorem elemInit_next (l : Links ι) (ep e : Node ι) :
    (l.elemInit ep).next e = if e = ep then ep else l.next e := by
  simp [elemInit, setNext, setPrev, Function.update_apply]

/-- A new element is its own predecessor. -/
theorem elemInit_prev (l : Links ι) (ep e : Node ι) :
    (l.elemInit ep).prev e = if e = ep then ep else l.prev e := by
  simp [elemInit, setNext, setPrev, Function.update_apply]

end Links

end Operations

/-! ### Cuts of the element list -/

section Cuts
variable {ι : Type}

/-- The first node after a cut: the first element, or the sentinel again. -/
def firstNode (i : ι) : List Nat → Node ι
  | [] => .head i
  | n :: _ => .elem n

/-- The last node before a cut: the last element, or the sentinel. -/
def lastNode (i : ι) (xs : List Nat) : Node ι := firstNode i xs.reverse

/-- An empty ring begins with its head. -/
@[simp] theorem firstNode_nil (i : ι) : firstNode i [] = .head i := rfl

/-- A ring with elements begins with the first one. -/
@[simp] theorem firstNode_cons (i : ι) (n : Nat) (ys : List Nat) :
    firstNode i (n :: ys) = .elem n := rfl

/-- An empty ring ends with its head. -/
@[simp] theorem lastNode_nil (i : ι) : lastNode i [] = .head i := rfl

/-- A ring with elements ends with the last one. -/
@[simp] theorem lastNode_concat (i : ι) (xs : List Nat) (n : Nat) :
    lastNode i (xs ++ [n]) = .elem n := by
  simp [lastNode]

/-- The first node comes from the first part that is not empty. -/
theorem firstNode_append {i : ι} {xs ys : List Nat} (h : xs ≠ []) :
    firstNode i (xs ++ ys) = firstNode i xs := by
  cases xs with
  | nil => exact absurd rfl h
  | cons x xs => rfl

/-- The last node comes from the last part that is not empty. -/
theorem lastNode_append {i : ι} {xs ys : List Nat} (h : ys ≠ []) :
    lastNode i (xs ++ ys) = lastNode i ys := by
  rw [lastNode, List.reverse_append, firstNode_append (by simpa using h), lastNode]

/-- The first of two elements does not change the last node. -/
theorem lastNode_cons_cons (i : ι) (x y : Nat) (zs : List Nat) :
    lastNode i (x :: y :: zs) = lastNode i (y :: zs) := by
  have h : y :: zs ≠ [] := List.cons_ne_nil y zs
  exact @lastNode_append ι i [x] (y :: zs) h

/-- The first node is an element exactly if the list begins with it. -/
theorem firstNode_eq_elem {i : ι} {ys : List Nat} {n : Nat} :
    firstNode i ys = .elem n ↔ ∃ ys', ys = n :: ys' := by
  cases ys with
  | nil => simp
  | cons y ys => simp

/-- The first node is a head exactly if the list is empty. -/
theorem firstNode_eq_head {i j : ι} {ys : List Nat} :
    firstNode i ys = .head j ↔ i = j ∧ ys = [] := by
  cases ys with
  | nil => simp
  | cons y ys => simp

/-- The last node is an element exactly if the list ends with it. -/
theorem lastNode_eq_elem {i : ι} {xs : List Nat} {n : Nat} :
    lastNode i xs = .elem n ↔ ∃ xs', xs = xs' ++ [n] := by
  rw [lastNode, firstNode_eq_elem]
  constructor
  · rintro ⟨ys, h⟩
    exact ⟨ys.reverse, by rw [← List.reverse_reverse xs, h, List.reverse_cons]⟩
  · rintro ⟨xs', rfl⟩
    exact ⟨xs'.reverse, by simp⟩

/-- Two cuts of a list without repetitions have different first nodes. -/
theorem eq_of_firstNode_eq {i : ι} {a b c d : List Nat} (hnd : (a ++ b).Nodup)
    (heq : a ++ b = c ++ d) (hf : firstNode i b = firstNode i d) : a = c := by
  cases b with
  | nil =>
      obtain ⟨-, rfl⟩ := firstNode_eq_head.mp hf.symm
      simpa using heq
  | cons n b =>
      obtain ⟨d', rfl⟩ := firstNode_eq_elem.mp hf.symm
      have hna : n ∉ a := fun hin =>
        (List.nodup_append.mp hnd).2.2 n hin n (List.mem_cons_self) rfl
      have hnb : n ∉ b := (List.nodup_cons.mp (List.nodup_append.mp hnd).2.1).1
      exact ((List.append_cons_inj_of_notMem hna hnb).mp heq).1

/-- Two cuts of a list without repetitions have different last nodes. -/
theorem eq_of_lastNode_eq {i : ι} {a b c d : List Nat} (hnd : (a ++ b).Nodup)
    (heq : a ++ b = c ++ d) (hl : lastNode i a = lastNode i c) : a = c := by
  have hrev : b.reverse ++ a.reverse = d.reverse ++ c.reverse := by
    rw [← List.reverse_append, ← List.reverse_append, heq]
  have hnd' : (b.reverse ++ a.reverse).Nodup := by
    rw [← List.reverse_append]
    exact List.nodup_reverse.mpr hnd
  have hbd : b = d := List.reverse_injective (eq_of_firstNode_eq hnd' hrev hl)
  rw [hbd] at heq
  exact List.append_cancel_right heq

/-- The ring `i` has the elements `zs`, in order: at every cut, `next` and `prev`
lead across it. -/
def IsRing (l : Links ι) (i : ι) (zs : List Nat) : Prop :=
  ∀ xs ys, zs = xs ++ ys →
    l.next (lastNode i xs) = firstNode i ys ∧ l.prev (firstNode i ys) = lastNode i xs

/-- The links hold one ring per index, with the elements `q i` in order, and no
element is in two places. -/
structure Rings (l : Links ι) (q : ι → List Nat) : Prop where
  ring : ∀ i, IsRing l i (q i)
  nodup : ∀ i, (q i).Nodup
  disjoint : ∀ i j n, n ∈ q i → n ∈ q j → i = j

/-- Heads that point to themselves are empty rings. -/
theorem Rings.empty {l : Links ι} (hnext : ∀ i, l.next (.head i) = .head i)
    (hprev : ∀ i, l.prev (.head i) = .head i) : Rings l fun _ => [] where
  ring i xs ys hcut := by
    obtain ⟨rfl, rfl⟩ := List.append_eq_nil_iff.mp hcut.symm
    exact ⟨hnext i, hprev i⟩
  nodup _ := List.nodup_nil
  disjoint _ _ _ hn := absurd hn List.not_mem_nil

/-- A node of the ring `i`. -/
theorem lastNode_cases (i : ι) (xs : List Nat) :
    lastNode i xs = .head i ∨ ∃ n ∈ xs, lastNode i xs = .elem n := by
  rcases List.eq_nil_or_concat xs with rfl | ⟨xs', n, rfl⟩
  · exact Or.inl rfl
  · exact Or.inr ⟨n, by simp, by simp⟩

/-- The first node is the head or an element of the list. -/
theorem firstNode_cases (i : ι) (ys : List Nat) :
    firstNode i ys = .head i ∨ ∃ n ∈ ys, firstNode i ys = .elem n := by
  cases ys with
  | nil => exact Or.inl rfl
  | cons n ys => exact Or.inr ⟨n, by simp, rfl⟩

variable {l : Links ι} {q : ι → List Nat}

/-- Behind the head of a ring comes its first element. -/
theorem Rings.next_head (h : Rings l q) (i : ι) : l.next (.head i) = firstNode i (q i) :=
  (h.ring i [] (q i) rfl).1

/-- The node after an element. -/
theorem Rings.next_elem (h : Rings l q) {i : ι} {xs ys : List Nat} {n : Nat}
    (hq : q i = xs ++ n :: ys) : l.next (.elem n) = firstNode i ys := by
  have hcut := (h.ring i (xs ++ [n]) ys (by simpa using hq)).1
  rwa [lastNode_concat] at hcut

/-- `next` and `prev` are inverse to each other on the nodes of a ring. -/
theorem Rings.prev_next (h : Rings l q) {i : ι} {e : Node ι}
    (he : e = .head i ∨ ∃ n ∈ q i, e = .elem n) : l.prev (l.next e) = e := by
  rcases he with rfl | ⟨n, hn, rfl⟩
  · obtain ⟨hnext, hprev⟩ := h.ring i [] (q i) rfl
    rw [lastNode_nil] at hnext hprev
    rw [hnext, hprev]
  · obtain ⟨xs, ys, hq⟩ := List.append_of_mem hn
    obtain ⟨hnext, hprev⟩ := h.ring i (xs ++ [n]) ys (by simpa using hq)
    rw [lastNode_concat] at hnext hprev
    rw [hnext, hprev]

/-- Back and forth leads to the same node. -/
theorem Rings.next_prev (h : Rings l q) {i : ι} {e : Node ι}
    (he : e = .head i ∨ ∃ n ∈ q i, e = .elem n) : l.next (l.prev e) = e := by
  rcases he with rfl | ⟨n, hn, rfl⟩
  · obtain ⟨hnext, hprev⟩ := h.ring i (q i) [] (List.append_nil _).symm
    rw [firstNode_nil] at hnext hprev
    rw [hprev, hnext]
  · obtain ⟨xs, ys, hq⟩ := List.append_of_mem hn
    obtain ⟨hnext, hprev⟩ := h.ring i xs (n :: ys) hq
    rw [firstNode_cons] at hnext hprev
    rw [hprev, hnext]

/-- An element of a ring is never linked to itself. -/
theorem Rings.next_ne_self (h : Rings l q) {i : ι} {n : Nat} (hn : n ∈ q i) :
    l.next (.elem n) ≠ .elem n := by
  obtain ⟨xs, ys, hq⟩ := List.append_of_mem hn
  rw [h.next_elem hq]
  intro hself
  obtain ⟨ys', rfl⟩ := firstNode_eq_elem.mp hself
  have hnd := h.nodup i
  rw [hq] at hnd
  simp [List.nodup_append] at hnd

/-- Two rings share no node. -/
theorem Rings.ring_eq_of_node (h : Rings l q) {i j : ι} {e : Node ι}
    (hi : e = .head i ∨ ∃ n ∈ q i, e = .elem n) (hj : e = .head j ∨ ∃ n ∈ q j, e = .elem n) :
    i = j := by
  rcases hi with rfl | ⟨n, hn, rfl⟩
  · rcases hj with hj | ⟨m, -, hj⟩
    · simpa using hj
    · exact absurd hj (by simp)
  · rcases hj with hj | ⟨m, hm, hj⟩
    · exact absurd hj (by simp)
    · obtain rfl : n = m := by simpa using hj
      exact h.disjoint i j n hn hm

/-- A ring whose nodes keep their links stays. -/
theorem IsRing.congr {l' : Links ι} {i : ι} {zs : List Nat} (h : IsRing l i zs)
    (hnext : ∀ e, (e = .head i ∨ ∃ n ∈ zs, e = .elem n) → l'.next e = l.next e)
    (hprev : ∀ e, (e = .head i ∨ ∃ n ∈ zs, e = .elem n) → l'.prev e = l.prev e) :
    IsRing l' i zs := by
  rintro xs ys rfl
  obtain ⟨h1, h2⟩ := h xs ys rfl
  refine ⟨(hnext _ ?_).trans h1, (hprev _ ?_).trans h2⟩
  · rcases lastNode_cases i xs with he | ⟨n, hn, he⟩
    · exact Or.inl he
    · exact Or.inr ⟨n, by simp [hn], he⟩
  · rcases firstNode_cases i ys with he | ⟨n, hn, he⟩
    · exact Or.inl he
    · exact Or.inr ⟨n, by simp [hn], he⟩

/-- A node of the ring `i` is not a node of another ring. -/
theorem Rings.ne_of_other (h : Rings l q) {i j : ι} (hj : j ≠ i) {e e' : Node ι}
    (he : e = .head j ∨ ∃ n ∈ q j, e = .elem n) (he' : e' = .head i ∨ ∃ n ∈ q i, e' = .elem n) :
    e ≠ e' := by
  rintro rfl
  exact hj (h.ring_eq_of_node he he')

/-- The last node of the first part of a ring is its head or an element of it. -/
theorem Rings.lastNode_mem {i : ι} {xs ys : List Nat} (hq : q i = xs ++ ys) :
    lastNode i xs = .head i ∨ ∃ m ∈ q i, lastNode i xs = .elem m := by
  rcases lastNode_cases i xs with he | ⟨m, hm, he⟩
  · exact Or.inl he
  · exact Or.inr ⟨m, by simp [hq, hm], he⟩

/-- The first node of the last part of a ring is its head or an element of it. -/
theorem Rings.firstNode_mem {i : ι} {xs ys : List Nat} (hq : q i = xs ++ ys) :
    firstNode i ys = .head i ∨ ∃ m ∈ q i, firstNode i ys = .elem m := by
  rcases firstNode_cases i ys with he | ⟨m, hm, he⟩
  · exact Or.inl he
  · exact Or.inr ⟨m, by simp [hq, hm], he⟩

end Cuts

/-! ### The operations on the element lists -/

section Edits
variable {ι : Type} [DecidableEq ι] {l : Links ι} {q : ι → List Nat}

/-- A family of rings after a change of the ring `i` only. -/
theorem Rings.update (h : Rings l q) {l' : Links ι} {i : ι} {zs : List Nat}
    (hring : IsRing l' i zs) (hnd : zs.Nodup)
    (hnew : ∀ n ∈ zs, ∀ j, n ∈ q j → j = i)
    (hnext : ∀ e j, j ≠ i → (e = .head j ∨ ∃ n ∈ q j, e = .elem n) → l'.next e = l.next e)
    (hprev : ∀ e j, j ≠ i → (e = .head j ∨ ∃ n ∈ q j, e = .elem n) → l'.prev e = l.prev e) :
    Rings l' (Function.update q i zs) := by
  constructor
  -- The other rings lie apart from the one that changed.
  · intro j
    by_cases hj : j = i
    · subst hj
      rwa [Function.update_self]
    · rw [Function.update_of_ne hj]
      exact (h.ring j).congr (fun e => hnext e j hj) (fun e => hprev e j hj)
  · intro j
    by_cases hj : j = i
    · subst hj
      rwa [Function.update_self]
    · rw [Function.update_of_ne hj]
      exact h.nodup j
  · intro j k n hjn hkn
    -- A node of the new ring is in no other ring.
    by_cases hj : j = i <;> by_cases hk : k = i
    · rw [hj, hk]
    · subst hj
      rw [Function.update_self] at hjn
      rw [Function.update_of_ne hk] at hkn
      exact (hnew n hjn k hkn).symm
    · subst hk
      rw [Function.update_self] at hkn
      rw [Function.update_of_ne hj] at hjn
      exact hnew n hkn j hjn
    · rw [Function.update_of_ne hj] at hjn
      rw [Function.update_of_ne hk] at hkn
      exact h.disjoint j k n hjn hkn

/-- A ring after the insertion of a fresh element at a cut. -/
theorem IsRing.insertBefore {i : ι} {xs ys : List Nat} {n : Nat} (h : IsRing l i (xs ++ ys))
    (hnd : (xs ++ n :: ys).Nodup) :
    IsRing (l.insertBefore (firstNode i ys) (.elem n)) i (xs ++ n :: ys) := by
  have hprev := (h xs ys rfl).2
  have hys : n ∉ ys := (List.nodup_cons.mp (List.nodup_append.mp hnd).2.1).1
  have hne : firstNode i ys ≠ .elem n := by
    intro heq
    obtain ⟨ys', rfl⟩ := firstNode_eq_elem.mp heq
    simp at hys
  have hcons : xs ++ n :: ys = (xs ++ [n]) ++ ys := by simp
  intro as bs hcut
  rw [Links.insertBefore_next l hne, Links.insertBefore_prev, hprev]
  rw [hcut] at hnd
  -- A cut of the new list is the one before the new element, the one after it, or
  -- a cut of the old list.
  by_cases has : as = xs
  · subst has
    obtain rfl : bs = n :: ys := (List.append_cancel_left hcut).symm
    simp [hne.symm]
  · by_cases has' : as = xs ++ [n]
    · subst has'
      obtain rfl : bs = ys := (List.append_cancel_left (hcons.symm.trans hcut)).symm
      have hlast : Node.elem n ≠ lastNode i xs := fun heq =>
        has (eq_of_lastNode_eq hnd hcut.symm (by rw [lastNode_concat]; exact heq))
      simp [hlast]
    · have h1 : lastNode i as ≠ lastNode i xs := fun heq =>
        has (eq_of_lastNode_eq hnd hcut.symm heq)
      have h2 : lastNode i as ≠ .elem n := fun heq =>
        has' (eq_of_lastNode_eq hnd (hcut.symm.trans hcons) (by rw [lastNode_concat]; exact heq))
      have h3 : firstNode i bs ≠ firstNode i ys := fun heq =>
        has' (eq_of_firstNode_eq hnd (hcut.symm.trans hcons) heq)
      have h4 : firstNode i bs ≠ .elem n := fun heq =>
        has (eq_of_firstNode_eq hnd hcut.symm heq)
      rw [if_neg h1, if_neg h2, if_neg h3, if_neg h4]
      rcases List.append_eq_append_iff.mp hcut with ⟨zs, rfl, hbs⟩ | ⟨zs, rfl, hbs⟩
      · cases zs with
        | nil => exact absurd (List.append_nil xs) has
        | cons z zs =>
            obtain ⟨rfl, rfl⟩ : n = z ∧ ys = zs ++ bs := by simpa using hbs
            have hzs : zs ≠ [] := by
              rintro rfl
              exact has' rfl
            have hold := h (xs ++ zs) bs (by simp)
            rw [lastNode_append hzs] at hold
            rwa [lastNode_append (by simp), ← List.singleton_append, lastNode_append hzs]
      · have hzs : zs ≠ [] := by
          rintro rfl
          exact has (List.append_nil as).symm
        have hold := h as (zs ++ ys) (by simp)
        rw [firstNode_append hzs] at hold
        rwa [hbs, firstNode_append hzs]

/-- A ring after the removal of an element. -/
theorem IsRing.remove {i : ι} {xs ys : List Nat} {n : Nat} (h : IsRing l i (xs ++ n :: ys))
    (hnd : (xs ++ ys).Nodup) : IsRing (l.remove (.elem n)) i (xs ++ ys) := by
  have hprev : l.prev (.elem n) = lastNode i xs := (h xs (n :: ys) rfl).2
  have hnext : l.next (.elem n) = firstNode i ys := by
    have hcut := (h (xs ++ [n]) ys (by simp)).1
    rwa [lastNode_concat] at hcut
  intro as bs hcut
  rw [Links.remove_next, Links.remove_prev, hprev, hnext]
  rw [hcut] at hnd
  -- Between the two neighbours the ring is closed; anywhere else it is as before.
  by_cases has : as = xs
  · subst has
    obtain rfl : bs = ys := (List.append_cancel_left hcut).symm
    simp
  · have h1 : lastNode i as ≠ lastNode i xs := fun heq =>
      has (eq_of_lastNode_eq hnd hcut.symm heq)
    have h2 : firstNode i bs ≠ firstNode i ys := fun heq =>
      has (eq_of_firstNode_eq hnd hcut.symm heq)
    rw [if_neg h1, if_neg h2]
    -- The place lies before the removed node or behind it.
    rcases List.append_eq_append_iff.mp hcut with ⟨zs, rfl, rfl⟩ | ⟨zs, rfl, rfl⟩
    · have hzs : zs ≠ [] := by
        rintro rfl
        exact has (List.append_nil xs)
      have hold := h (xs ++ n :: zs) bs (by simp)
      rw [lastNode_append (by simp), ← List.singleton_append, lastNode_append hzs] at hold
      rwa [lastNode_append hzs]
    · have hzs : zs ≠ [] := by
        rintro rfl
        exact has (List.append_nil as).symm
      have hold := h as (zs ++ n :: ys) (by simp)
      rw [firstNode_append hzs] at hold
      rwa [firstNode_append hzs]

/-- Inserting a fresh element at the cut before `ys`. -/
theorem Rings.insertBefore (h : Rings l q) {i : ι} {xs ys : List Nat} {n : Nat}
    (hq : q i = xs ++ ys) (hn : ∀ j, n ∉ q j) :
    Rings (l.insertBefore (firstNode i ys) (.elem n)) (Function.update q i (xs ++ n :: ys)) := by
  have hring := h.ring i
  have hnd := h.nodup i
  have hni := hn i
  rw [hq] at hring hnd hni
  have hnd' : (xs ++ n :: ys).Nodup := (List.nodup_middle).mpr (List.nodup_cons.mpr ⟨hni, hnd⟩)
  have hprev := (hring xs ys rfl).2
  have hne : firstNode i ys ≠ .elem n := by
    intro heq
    obtain ⟨ys', rfl⟩ := firstNode_eq_elem.mp heq
    simp at hni
  -- The changed nodes are the new element and two nodes of the ring `i`.
  have hother : ∀ e j, j ≠ i → (e = .head j ∨ ∃ m ∈ q j, e = .elem m) →
      e ≠ lastNode i xs ∧ e ≠ firstNode i ys ∧ e ≠ .elem n := by
    intro e j hj he
    refine ⟨h.ne_of_other hj he (Rings.lastNode_mem hq),
      h.ne_of_other hj he (Rings.firstNode_mem hq), ?_⟩
    rintro rfl
    rcases he with he | ⟨m, hm, he⟩
    · exact absurd he (by simp)
    · obtain rfl : n = m := by simpa using he
      exact hn j hm
  refine h.update (hring.insertBefore hnd') hnd' ?_ ?_ ?_
  · intro m hm j hmj
    rw [List.mem_append, List.mem_cons] at hm
    rcases hm with hm | rfl | hm
    · exact h.disjoint j i m hmj (by simp [hq, hm])
    · exact absurd hmj (hn j)
    · exact h.disjoint j i m hmj (by simp [hq, hm])
  · intro e j hj he
    obtain ⟨h1, -, h3⟩ := hother e j hj he
    rw [Links.insertBefore_next l hne, hprev, if_neg h1, if_neg h3]
  · intro e j hj he
    obtain ⟨-, h2, h3⟩ := hother e j hj he
    rw [Links.insertBefore_prev, if_neg h2, if_neg h3]

/-- Appending a fresh element. -/
theorem Rings.insertTail (h : Rings l q) (i : ι) {n : Nat} (hn : ∀ j, n ∉ q j) :
    Rings (l.insertTail i (.elem n)) (Function.update q i (q i ++ [n])) :=
  h.insertBefore (i := i) (List.append_nil (q i)).symm hn

/-- A list with one more element in the middle. -/
theorem mem_middle_of_mem {xs ys : List Nat} {m : Nat} (n : Nat) (hm : m ∈ xs ++ ys) :
    m ∈ xs ++ n :: ys :=
  ((List.sublist_cons_self n ys).append_left xs).subset hm

/-- What is in a ring behind a deletion was there before. -/
theorem mem_of_mem_removed {i : ι} {xs ys : List Nat} {n : Nat} (hq : q i = xs ++ n :: ys)
    {j : ι} {m : Nat} (hm : m ∈ Function.update q i (xs ++ ys) j) : m ∈ q j := by
  by_cases hj : j = i
  · subst hj
    rw [Function.update_self] at hm
    rw [hq]
    exact mem_middle_of_mem n hm
  · rwa [Function.update_of_ne hj] at hm

/-- What is in a ring behind an insertion was there before, or it is what was inserted. -/
theorem mem_or_eq_of_mem_inserted {i : ι} {n : Nat} {j : ι} {m : Nat}
    (hm : m ∈ Function.update q i (q i ++ [n]) j) : m ∈ q j ∨ m = n := by
  by_cases hj : j = i
  · subst hj
    rwa [Function.update_self, List.mem_append, List.mem_singleton] at hm
  · rw [Function.update_of_ne hj] at hm
    exact Or.inl hm

/-- Deleting an element. -/
theorem Rings.remove (h : Rings l q) {i : ι} {xs ys : List Nat} {n : Nat}
    (hq : q i = xs ++ n :: ys) :
    Rings (l.remove (.elem n)) (Function.update q i (xs ++ ys)) := by
  have hring := h.ring i
  have hnd := h.nodup i
  rw [hq] at hring hnd
  have hnd' : (xs ++ ys).Nodup := (List.nodup_cons.mp (List.nodup_middle.mp hnd)).2
  have hprev : l.prev (.elem n) = lastNode i xs := (hring xs (n :: ys) rfl).2
  have hnext : l.next (.elem n) = firstNode i ys := h.next_elem hq
  have hq' : q i = (xs ++ [n]) ++ ys := by simp [hq]
  refine h.update (hring.remove hnd') hnd' ?_ ?_ ?_
  -- What is left of the ring was in it before.
  · intro m hm j hmj
    refine h.disjoint j i m hmj ?_
    rw [hq]
    exact mem_middle_of_mem n hm
  -- The link into the removed node is the only next link that changed.
  · intro e j hj he
    rw [Links.remove_next, hprev, if_neg (h.ne_of_other hj he (Rings.lastNode_mem hq))]
  -- The link out of it is the only previous one.
  · intro e j hj he
    rw [Links.remove_prev, hnext, if_neg (h.ne_of_other hj he (Rings.firstNode_mem hq'))]

/-- A deleted element is in no ring. -/
theorem Rings.notMem_remove (h : Rings l q) {i : ι} {xs ys : List Nat} {n : Nat}
    (hq : q i = xs ++ n :: ys) (j : ι) : n ∉ Function.update q i (xs ++ ys) j := by
  intro hin
  by_cases hj : j = i
  · subst hj
    have hnd := h.nodup j
    rw [hq] at hnd
    rw [Function.update_self] at hin
    exact (List.nodup_cons.mp (List.nodup_middle.mp hnd)).1 hin
  · rw [Function.update_of_ne hj] at hin
    exact hj (h.disjoint j i n hin (by simp [hq]))

/-- Linking an element to itself while it is in no ring. -/
theorem Rings.elemInit (h : Rings l q) {n : Nat} (hn : ∀ j, n ∉ q j) :
    Rings (l.elemInit (.elem n)) q := by
  have hne : ∀ (e : Node ι) i, (e = .head i ∨ ∃ m ∈ q i, e = .elem m) → e ≠ .elem n := by
    rintro e i (rfl | ⟨m, hm, rfl⟩) heq
    · exact absurd heq (by simp)
    · obtain rfl : m = n := by simpa using heq
      exact hn i hm
  refine ⟨fun i => (h.ring i).congr ?_ ?_, h.nodup, h.disjoint⟩
  · intro e he
    rw [Links.elemInit_next, if_neg (hne e i he)]
  · intro e he
    rw [Links.elemInit_prev, if_neg (hne e i he)]

end Edits

/-! ### Runs of a ring -/

section Runs
variable {ι : Type} {l : Links ι}

/-- From each element of the run, `next` leads to the one behind it. -/
def IsRun (l : Links ι) : List Nat → Prop
  | x :: y :: zs => l.next (.elem x) = .elem y ∧ IsRun l (y :: zs)
  | _ => True

/-- The end of a ring is a run. -/
theorem IsRing.isRun {i : ι} {ks zs : List Nat} (h : IsRing l i (ks ++ zs)) : IsRun l zs := by
  induction zs generalizing ks with
  | nil => trivial
  | cons x zs ih =>
      have hmoved : IsRing l i ((ks ++ [x]) ++ zs) := by simpa using h
      have hrest : IsRun l zs := ih hmoved
      cases zs with
      | nil => trivial
      | cons y zs =>
          have hcut := (h (ks ++ [x]) (y :: zs) (by simp)).1
          rw [lastNode_concat, firstNode_cons] at hcut
          exact ⟨hcut, hrest⟩

/-- A run stays when its elements, the last one apart, keep their `next`. -/
theorem IsRun.congr {l' : Links ι} {i : ι} {zs : List Nat} (h : IsRun l zs) (hnd : zs.Nodup)
    (hnext : ∀ n ∈ zs, Node.elem n ≠ lastNode i zs → l'.next (.elem n) = l.next (.elem n)) :
    IsRun l' zs := by
  induction zs with
  | nil => trivial
  | cons x zs ih =>
      cases zs with
      | nil => trivial
      | cons y zs =>
          obtain ⟨hx, hrest⟩ := h
          obtain ⟨hnotin, hnd'⟩ := List.nodup_cons.mp hnd
          have hlast := lastNode_cons_cons i x y zs
          -- The first node is not the last, for the nodes are all different.
          have hne : Node.elem x ≠ lastNode i (y :: zs) := by
            intro heq
            rcases lastNode_cases i (y :: zs) with hh | ⟨n, hn, hh⟩
            · exact absurd (heq.trans hh) (by simp)
            · obtain rfl : x = n := by simpa using heq.trans hh
              exact hnotin hn
          refine ⟨(hnext x List.mem_cons_self (by rw [hlast]; exact hne)).trans hx,
            ih hrest hnd' ?_⟩
          intro n hn hlastn
          exact hnext n (List.mem_cons_of_mem x hn) (by rw [hlast]; exact hlastn)

end Runs

/-! ### Reading a ring back -/

section Reading
variable {ι : Type} {l : Links ι} {q : ι → List Nat}

/-- From the cut before `ys` on, `follow` meets `ys`. -/
theorem Rings.follow_eq (h : Rings l q) {i : ι} {xs ys : List Nat} (hq : q i = xs ++ ys)
    {fuel : Nat} (hfuel : ys.length ≤ fuel) : l.follow fuel (firstNode i ys) = ys := by
  induction ys generalizing xs fuel with
  | nil => cases fuel <;> rfl
  | cons n ys ih =>
      cases fuel with
      | zero => simp at hfuel
      | succ fuel =>
          have hq' : q i = (xs ++ [n]) ++ ys := by simp [hq]
          rw [firstNode_cons, Links.follow, h.next_elem hq,
            ih hq' (by simpa using hfuel)]

/-- The links hold the elements of every ring. -/
theorem Rings.toList_eq (h : Rings l q) (i : ι) {fuel : Nat} (hfuel : (q i).length ≤ fuel) :
    l.toList fuel i = q i := by
  rw [Links.toList, h.next_head]
  exact h.follow_eq (List.nil_append (q i)).symm hfuel

end Reading

end Mylib.Lib.Ring
