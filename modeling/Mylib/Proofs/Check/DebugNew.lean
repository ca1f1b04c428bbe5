import Mylib.Proofs.Check.RbWalk
import Mylib.Spec.Check.DebugNew

/-!
# `Mylib.Proofs.Check.DebugNew`: the leak checker and its ledger

A `Ledger` is what the checker stands for: the chunks handed out and not given back,
in the order of their pointers. `Tracks m ledger t` says that the memory `m` holds
the ledger in its tree `t`. A new chunk is added to it (`exists_malloc`), a search
finds exactly the pointers in it (`findChunkNolocked_mem`,
`findChunkNolocked_not_mem`), and a chunk that goes is taken from it
(`exists_release`).
-/

set_option autoImplicit false

namespace Mylib.Proofs.Check.DebugNew

open Mylib.Lib.RedBlack
open Mylib.Spec.Check.RbTree
open Mylib.Spec.Check.DebugNew
open Mylib.Proofs.Check.RbShape
open Mylib.Proofs.Check.RbErase
open Mylib.Proofs.Check.RbWalk

/-! ### The ledger -/

/-- The chunks handed out, in the order of their pointers. -/
abbrev Ledger := List MemChunk

def Ledger.add (c : MemChunk) (ledger : Ledger) : Ledger :=
  ledger.filter (·.ptr < c.ptr) ++ c :: ledger.filter (c.ptr < ·.ptr)

def Ledger.remove (p : Addr) (ledger : Ledger) : Ledger := ledger.filter (·.ptr ≠ p)

/-- Where a chunk starts. -/
def address (c : MemChunk) : Addr := c.ptr - sizeofMemChunk

/-- The pointer that is handed out is behind the header. -/
@[simp] theorem address_add (c : MemChunk) : address c + sizeofMemChunk = c.ptr := by
  simp [address]

/-- The memory holds the chunks of the ledger, and a red-black tree of their nodes. -/
structure Tracks (m : DebugMemCheck) (ledger : Ledger) (t : RBTree Addr) : Prop where
  holding : Holding m.heap (ledger.map address) t
  chunk : ∀ c ∈ ledger, m.chunk (address c) = some c
  block : ∀ c ∈ ledger, (m.block (address c)).isSome
  sorted : ledger.Pairwise fun c d => c.ptr < d.ptr
  nonnull : ∀ c ∈ ledger, c.ptr ≠ 0

/-! ### The way to a pointer -/

/-- Where the loops go from the chunk at `a` when they look for the pointer `x`. -/
def toward (x a : Addr) : Option Side :=
  if a + sizeofMemChunk > x then some .left
  else if a + sizeofMemChunk < x then some .right
  else none

/-- Smaller pointers are to the left. -/
theorem toward_eq_left {x a : Addr} : toward x a = some .left ↔ x < a + sizeofMemChunk := by
  unfold toward
  grind

/-- Larger pointers are to the right. -/
theorem toward_eq_right {x a : Addr} : toward x a = some .right ↔ a + sizeofMemChunk < x := by
  unfold toward
  grind

/-- The search ends at the pointer itself. -/
theorem toward_eq_none {x a : Addr} : toward x a = none ↔ a + sizeofMemChunk = x := by
  unfold toward
  grind

variable {m : DebugMemCheck} {ledger : Ledger} {t : RBTree Addr}

/-- The tree is ordered by the pointers handed out, so the comparisons lead to the right place. -/
theorem Tracks.guides (h : Tracks m ledger t) (x : Addr) : Guides (toward x) t.toList := by
  rw [h.holding.toList]
  refine List.pairwise_map.mpr (h.sorted.imp fun {c d} hlt => ?_)
  rw [toward_eq_left, address_add]
  intro hc
  rw [Ne, toward_eq_right, address_add] at hc
  grind

/-- Every node of the tree is the header of a chunk in the ledger. -/
theorem Tracks.exists_chunk (h : Tracks m ledger t) {a : Addr} (ha : a ∈ t.toList) :
    ∃ c, m.chunk a = some c ∧ c.ptr = a + sizeofMemChunk ∧ c ∈ ledger := by
  rw [h.holding.toList] at ha
  obtain ⟨c, hc, rfl⟩ := List.mem_map.mp ha
  exact ⟨c, h.chunk c hc, (address_add c).symm, hc⟩

/-- The chunks of these nodes. -/
def Known (m : DebugMemCheck) (as : List Addr) : Prop :=
  ∀ a ∈ as, ∃ c, m.chunk a = some c ∧ c.ptr = a + sizeofMemChunk

/-- The search in the heap finds what the search in the tree finds. -/
theorem findLoop_eq {par : Option Addr} {k : List (Frame Addr)} (ht : Holds m.heap par t)
    (hknown : Known m t.toList) (x : Addr) {fuel : Nat} (hfuel : t.height < fuel) :
    m.findLoop x fuel (top t) = some (top (seek (toward x) k t).2) := by
  obtain ⟨fuel, rfl⟩ : ∃ f, fuel = f + 1 := ⟨fuel - 1, by omega⟩
  induction t generalizing par k fuel with
  | nil => rfl
  | node c l a r ihl ihr =>
    obtain ⟨ha, hl, hr⟩ := ht
    -- The node is the header of a known chunk, whose pointer the comparisons read.
    obtain ⟨pos, hpos, hptr⟩ := hknown a (by simp [RBTree.toList])
    have hknown_l : Known m l.toList := fun b hb => hknown b (by simp [RBTree.toList, hb])
    have hknown_r : Known m r.toList := fun b hb => hknown b (by simp [RBTree.toList, hb])
    simp only [RBTree.height] at hfuel
    obtain ⟨fuel, rfl⟩ : ∃ f, fuel = f + 1 := ⟨fuel - 1, by omega⟩
    simp only [top_node, DebugMemCheck.findLoop, hpos, ha, Option.bind_eq_bind,
      Option.bind_some, hptr, seek]
    -- The comparison in the loop is the one in the tree.
    cases hside : toward x a with
    | none =>
      rw [toward_eq_none] at hside
      rw [if_neg (by grind), if_neg (by grind)]
      rfl
    | some s =>
      cases s with
      | left =>
        rw [if_pos (toward_eq_left.mp hside)]
        exact ihl hl hknown_l fuel (by omega)
      | right =>
        rw [toward_eq_right] at hside
        rw [if_neg (by grind), if_pos hside]
        exact ihr hr hknown_r fuel (by omega)

/-- The descent to a free place, if the pointer is not there yet. -/
theorem descend_eq {k : List (Frame Addr)} (hs : Shape m.heap k t) (hknown : Known m t.toList)
    {x : Addr} (hne : ∀ a ∈ t.toList, a + sizeofMemChunk ≠ x) {fuel : Nat}
    (hfuel : t.height < fuel) :
    m.descend x fuel (linkOf k) (parentOf k) =
        some (linkOf (seek (toward x) k t).1, parentOf (seek (toward x) k t).1) ∧
      (seek (toward x) k t).2 = .nil := by
  obtain ⟨fuel, rfl⟩ : ∃ f, fuel = f + 1 := ⟨fuel - 1, by omega⟩
  induction t generalizing k fuel with
  | nil =>
    simp only [DebugMemCheck.descend, follow_linkOf hs, top, Option.bind_eq_bind,
      Option.bind_some, seek, and_self]
  | node c l a r ihl ihr =>
    obtain ⟨pos, hpos, hptr⟩ := hknown a (by simp [RBTree.toList])
    have hknown_l : Known m l.toList := fun b hb => hknown b (by simp [RBTree.toList, hb])
    have hknown_r : Known m r.toList := fun b hb => hknown b (by simp [RBTree.toList, hb])
    -- The pointer is in no chunk, so the descent does not end here.
    have ha := hne a (by simp [RBTree.toList])
    simp only [RBTree.height] at hfuel
    obtain ⟨fuel, rfl⟩ : ∃ f, fuel = f + 1 := ⟨fuel - 1, by omega⟩
    rw [DebugMemCheck.descend]
    simp only [follow_linkOf hs, top_node, hpos, Option.bind_eq_bind,
      Option.bind_some, hptr, if_neg ha, seek]
    -- The comparison leads to the child's link.
    cases hside : toward x a with
    | none => exact absurd (toward_eq_none.mp hside) ha
    | some s =>
      cases s with
      | left =>
        rw [if_pos (toward_eq_left.mp hside)]
        exact ihl (k := ⟨.left, c, a, r⟩ :: k) (shape_cons.mpr hs) hknown_l
          (fun b hb => hne b (by simp [RBTree.toList, hb])) fuel (by omega)
      | right =>
        rw [toward_eq_right] at hside
        rw [if_neg (by grind)]
        exact ihr (k := ⟨.right, c, a, l⟩ :: k) (shape_cons.mpr hs) hknown_r
          (fun b hb => hne b (by simp [RBTree.toList, hb])) fuel (by omega)

/-! ### A new chunk -/

/-- Selecting chunks is selecting their addresses. -/
theorem map_address_filter (ledger : Ledger) (q : Addr → Bool) :
    (ledger.filter fun c => q c.ptr).map address =
      (ledger.map address).filter fun a => q (a + sizeofMemChunk) := by
  rw [List.filter_map]
  simp [Function.comp_def]

/-- What is in the ledger after a chunk is added. -/
theorem Ledger.mem_add {c d : MemChunk} (h : d ∈ Ledger.add c ledger) : d = c ∨ d ∈ ledger := by
  simp only [Ledger.add, List.mem_append, List.mem_cons, List.mem_filter] at h
  tauto

/-- At most one chunk more. -/
theorem Ledger.length_add_le (c : MemChunk) (ledger : Ledger) :
    (Ledger.add c ledger).length ≤ ledger.length + 1 := by
  have hle : ∀ l : Ledger, (l.filter (·.ptr < c.ptr)).length +
      (l.filter (c.ptr < ·.ptr)).length ≤ l.length := by
    intro l
    induction l with
    | nil => rfl
    | cons d l ih =>
      simp only [List.filter_cons, List.length_cons, decide_eq_true_eq]
      split <;> split <;> grind
  have := hle ledger
  simp only [Ledger.add, List.length_append, List.length_cons]
  omega

/-- A chunk is added at its place in the order. -/
theorem Ledger.sorted_add (c : MemChunk) (h : ledger.Pairwise fun c d => c.ptr < d.ptr) :
    (Ledger.add c ledger).Pairwise fun c d => c.ptr < d.ptr := by
  refine List.pairwise_append.mpr ⟨h.filter _, List.pairwise_cons.mpr ⟨?_, h.filter _⟩, ?_⟩
  · simp
  · simp only [List.mem_filter, List.mem_cons, decide_eq_true_eq]
    rintro a ⟨-, ha⟩ b (rfl | ⟨-, hb⟩)
    · exact ha
    · grind

/-- What `operator new` hands out is not null. -/
theorem ptr_ne_zero {p size : UInt64} (h : p.toNat + size.toNat < 2 ^ 64)
    (hsize : sizeofMemChunk ≤ size) : p + sizeofMemChunk ≠ 0 := by
  intro h0
  have h0 := congrArg UInt64.toNat h0
  have hsize := UInt64.le_iff_toNat_le.mp hsize
  simp only [sizeofMemChunk, UInt64.toNat_add, UInt64.reduceToNat] at h0 hsize
  omega

/-- The size with its header does not wrap. -/
theorem sizeofMemChunk_le {size : UInt64} (h : size.toNat + 64 < 2 ^ 64) :
    sizeofMemChunk ≤ size + sizeofMemChunk := by
  rw [UInt64.le_iff_toNat_le]
  simp only [sizeofMemChunk, UInt64.toNat_add, UInt64.reduceToNat]
  omega

/-- What `operator new` leaves behind before the tree is touched. -/
def prepared (m : DebugMemCheck) (p : Addr) (junk : RbNode Addr) (size : UInt64)
    (c : MemChunk) : DebugMemCheck :=
  { m with
    block := Function.update m.block p (some (size + sizeofMemChunk))
    chunk := Function.update m.chunk p (some c)
    heap := m.heap.set p junk }

section

variable {x : Addr} {as bs : List Addr} (has : ∀ a ∈ as, toward x a = some .right)
  (hbs : ∀ a ∈ bs, toward x a = some .left)

include has hbs

/-- The chunks before a place. -/
theorem filter_before :
    ((as ++ bs).filter fun a => decide (a + sizeofMemChunk < x)) = as := by
  rw [List.filter_append, List.filter_eq_self.mpr, List.filter_eq_nil_iff.mpr, List.append_nil]
  · intro b hb
    have := toward_eq_left.mp (hbs b hb)
    grind
  · exact fun a ha => by simpa using toward_eq_right.mp (has a ha)

/-- The chunks behind a place. -/
theorem filter_after :
    ((as ++ bs).filter fun a => decide (x < a + sizeofMemChunk)) = bs := by
  rw [List.filter_append, List.filter_eq_nil_iff.mpr, List.filter_eq_self.mpr, List.nil_append]
  · exact fun b hb => by simpa using toward_eq_left.mp (hbs b hb)
  · intro a ha
    have := toward_eq_right.mp (has a ha)
    grind

end

/-- A block that was malloced is linked and balanced into the tree, and the ledger has its chunk. -/
theorem exists_malloc (h : Tracks m ledger t) {p : Addr} (junk : RbNode Addr) (size : UInt64)
    {c : MemChunk} (hfresh : m.block p = none) (hptr : c.ptr = p + sizeofMemChunk)
    (hnull : c.ptr ≠ 0) {fuel : Nat} (hfuel : t.height < fuel) :
    ∃ m' t', (prepared m p junk size c).malloc fuel p = some m' ∧
      Tracks m' (Ledger.add c ledger) t' ∧ m'.startup = m.startup ∧
      m'.block = Function.update m.block p (some (size + sizeofMemChunk)) := by
  -- the blocks of the ledger are allocated, and this one was not
  have hpt : ∀ d ∈ ledger, address d ≠ p := by
    rintro d hd rfl
    simpa [hfresh] using h.block d hd
  have hp : p ∉ t.toList := by
    intro hp
    rw [h.holding.toList] at hp
    obtain ⟨d, hd, hdp⟩ := List.mem_map.mp hp
    exact hpt d hd hdp
  have haddr : address c = p := by
    simp [address, hptr]
  -- the new chunk is not in the tree yet
  have hs : Shape (prepared m p junk size c).heap [] t := by
    refine h.holding.shape.congr (fun q hq => ?_) rfl
    have hqp : q ≠ p := by
      rintro rfl
      exact hp hq
    simp [prepared, hqp]
  have hknown : Known (prepared m p junk size c) t.toList := by
    intro a ha
    obtain ⟨d, hd, hdp, -⟩ := h.exists_chunk ha
    have hap : a ≠ p := by
      rintro rfl
      exact hp ha
    exact ⟨d, by simpa [prepared, Function.update_of_ne hap] using hd, hdp⟩
  have hne : ∀ a ∈ t.toList, a + sizeofMemChunk ≠ c.ptr := by
    intro a ha heq
    rw [hptr, UInt64.add_left_inj] at heq
    exact hp (heq ▸ ha)
  -- the loop ends at the cut of the sequence where the pointer belongs
  obtain ⟨hdescend, hnil⟩ := descend_eq hs hknown hne hfuel
  obtain ⟨hbefore, hafter⟩ : Aims (toward c.ptr) (seek (toward c.ptr) [] t).1 :=
    aims_seek (h.guides c.ptr) ⟨by simp [before], by simp [after]⟩
  have hplug : plug (seek (toward c.ptr) [] t).1 .nil = t := by
    rw [← hnil]
    exact plug_seek (toward c.ptr) [] t
  generalize (seek (toward c.ptr) [] t).1 = k at hdescend hbefore hafter hplug
  have hlist : ledger.map address = before k ++ after k := by
    rw [← h.holding.toList, ← hplug, toList_plug]
    simp [RBTree.toList]
  have hpk : p ∉ labels k := by
    intro hpk
    exact hp (hplug ▸ mem_plug.mpr (.inr hpk))
  have hlength := length_add_height_le k .nil
  rw [hplug] at hlength
  simp only [RBTree.height] at hlength
  obtain ⟨h₁, h', t', hh₁, hh', ht', -⟩ := exists_inserted (k := k) (b := p) (n := junk)
    (h := (prepared m p junk size c).heap)
    (shape_root.mpr (by rw [hplug]; exact hs)) (by rw [hplug]; exact h.holding.redBlack)
    (by simp [prepared]) hpk (show k.length < 2 * fuel by omega)
  -- and there the ledger has the new chunk
  have hadd : (Ledger.add c ledger).map address = before k ++ p :: after k := by
    rw [Ledger.add, List.map_append, List.map_cons, haddr,
      map_address_filter ledger fun q => q < c.ptr, map_address_filter ledger fun q => c.ptr < q,
      hlist, filter_before hbefore hafter, filter_after hbefore hafter]
  refine ⟨{ prepared m p junk size c with heap := h' }, t', ?_, ?_, rfl, rfl⟩
  · have hchunk : (prepared m p junk size c).chunk p = some c := by simp [prepared]
    rw [show linkOf [] = Link.root from rfl, show parentOf [] = none from rfl] at hdescend
    simp only [DebugMemCheck.malloc, hchunk, Option.bind_eq_bind, Option.bind_some, hdescend, hh₁,
      hh']
  · exact {
      holding := ⟨ht'.shape, ht'.redBlack, ht'.toList.trans hadd.symm⟩
      chunk := by
        intro d hd
        obtain rfl | hd := Ledger.mem_add hd
        · simp [prepared, haddr]
        · simpa [prepared, Function.update_of_ne (hpt d hd)] using h.chunk d hd
      block := by
        intro d hd
        obtain rfl | hd := Ledger.mem_add hd
        · simp [prepared, haddr]
        · simpa [prepared, Function.update_of_ne (hpt d hd)] using h.block d hd
      sorted := Ledger.sorted_add c h.sorted
      nonnull := by
        intro d hd
        obtain rfl | hd := Ledger.mem_add hd
        · exact hnull
        · exact h.nonnull d hd }

/-! ### A chunk that goes -/

/-- The search finds the chunk of a pointer handed out. -/
theorem findChunkNolocked_mem (h : Tracks m ledger t) {c : MemChunk} (hc : c ∈ ledger)
    {fuel : Nat} (hfuel : t.height < fuel) :
    m.findChunkNolocked fuel c.ptr = some (some (address c)) := by
  have hmem : address c ∈ t.toList := by
    rw [h.holding.toList]
    exact List.mem_map_of_mem hc
  have hfind := findLoop_eq (k := []) h.holding.shape.focus
    (fun a ha => (h.exists_chunk ha).imp fun c hc => ⟨hc.1, hc.2.1⟩) c.ptr hfuel
  obtain ⟨hbefore, hafter⟩ : Aims (toward c.ptr) (seek (toward c.ptr) [] t).1 :=
    aims_seek (h.guides c.ptr) ⟨by simp [before], by simp [after]⟩
  have hplug := plug_seek (toward c.ptr) [] t
  rw [DebugMemCheck.findChunkNolocked, show m.heap.rbNode = top t from h.holding.shape.above, hfind]
  cases hseek : (seek (toward c.ptr) [] t).2 with
  | nil =>
    -- every node of the tree is left or right of the empty place
    rw [hseek] at hplug
    rw [← show plug [] t = t from rfl, ← hplug, toList_plug] at hmem
    simp only [RBTree.toList, List.append_nil, List.mem_append] at hmem
    obtain hmem | hmem := hmem
    · have := toward_eq_right.mp (hbefore _ hmem)
      rw [address_add] at this
      grind
    · have := toward_eq_left.mp (hafter _ hmem)
      rw [address_add] at this
      grind
  | node d l a r =>
    have ha := toward_eq_none.mp (side_seek hseek)
    rw [← address_add c, UInt64.add_left_inj] at ha
    rw [top_node, ha]

/-- The search finds no other pointer. -/
theorem findChunkNolocked_not_mem (h : Tracks m ledger t) {p : Addr}
    (hp : ∀ c ∈ ledger, c.ptr ≠ p) {fuel : Nat} (hfuel : t.height < fuel) :
    m.findChunkNolocked fuel p = some none := by
  have hfind := findLoop_eq (k := []) h.holding.shape.focus
    (fun a ha => (h.exists_chunk ha).imp fun c hc => ⟨hc.1, hc.2.1⟩) p hfuel
  rw [DebugMemCheck.findChunkNolocked, show m.heap.rbNode = top t from h.holding.shape.above, hfind]
  cases hseek : (seek (toward p) [] t).2 with
  | nil => rfl
  | node d l a r =>
    have ha := toward_eq_none.mp (side_seek hseek)
    have hmem : a ∈ t.toList := by
      rw [← show plug [] t = t from rfl, ← plug_seek (toward p) [] t, hseek, mem_plug_node]
      exact .inl rfl
    obtain ⟨c, -, hptr, hc⟩ := h.exists_chunk hmem
    exact absurd (hptr.trans ha) (hp c hc)

/-- A chunk is erased from the tree and its block freed. -/
theorem exists_release (h : Tracks m ledger t) {c : MemChunk} (hc : c ∈ ledger) {fuel : Nat}
    (hfuel : t.height ≤ fuel) :
    ∃ h' m' t', rbErase fuel (some (address c)) m.heap = some h' ∧
      DebugMemCheck.freeBlock (address c) { m with heap := h' } = some m' ∧
      Tracks m' (Ledger.remove c.ptr ledger) t' ∧ m'.startup = m.startup ∧
      m'.block = Function.update m.block (address c) none := by
  obtain ⟨pre, post, rfl⟩ := List.append_of_mem hc
  -- the ledger is sorted, so no other chunk has this pointer
  have hne : ∀ d ∈ pre ++ post, d.ptr ≠ c.ptr := by
    obtain ⟨-, hpost, hpre⟩ := List.pairwise_append.mp h.sorted
    intro d hd
    obtain hd | hd := List.mem_append.mp hd
    · have := hpre d hd c (by simp)
      grind
    · have := (List.pairwise_cons.mp hpost).1 d hd
      grind
  have haddr : ∀ d ∈ pre ++ post, address d ≠ address c := by
    intro d hd heq
    rw [address, address, UInt64.sub_left_inj] at heq
    exact hne d hd heq
  have hmem : ∀ d ∈ pre ++ post, d ∈ pre ++ c :: post := by
    intro d hd
    simp only [List.mem_append, List.mem_cons] at hd ⊢
    tauto
  have hremove : Ledger.remove c.ptr (pre ++ c :: post) = pre ++ post := by
    have hself := List.filter_eq_self.mpr fun d hd => decide_eq_true (hne d hd)
    simpa [Ledger.remove, List.filter_append] using hself
  have hholding := h.holding
  rw [List.map_append, List.map_cons] at hholding
  obtain ⟨h', t', hh', ht', -, -⟩ := exists_erased hholding hfuel
  rw [hremove]
  refine ⟨h', _, t', hh', if_pos (h.block c hc), ⟨⟨?_, ht'.redBlack, ?_⟩, ?_, ?_, ?_, ?_⟩, rfl,
    rfl⟩
  · -- the block that is freed is outside of the new tree
    refine ht'.shape.congr (fun q hq => ?_) rfl
    have hq' : q ≠ address c := by
      rintro rfl
      rw [show plug [] t' = t' from rfl, ht'.toList, ← List.map_append] at hq
      obtain ⟨d, hd, heq⟩ := List.mem_map.mp hq
      exact haddr d hd heq
    simp [Function.update_of_ne hq']
  · rw [ht'.toList, List.map_append]
  · exact fun d hd => by
      simpa [Function.update_of_ne (haddr d hd)] using h.chunk d (hmem d hd)
  · exact fun d hd => by
      simpa [Function.update_of_ne (haddr d hd)] using h.block d (hmem d hd)
  · exact h.sorted.sublist (List.Sublist.append_left (List.sublist_cons_self c post) pre)
  · exact fun d hd => h.nonnull d (hmem d hd)

end Mylib.Proofs.Check.DebugNew
