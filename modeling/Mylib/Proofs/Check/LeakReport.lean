import Mylib.Lib.Custody
import Mylib.Proofs.Check.DebugNew

/-!
# `Mylib.Proofs.Check.LeakReport`: what the leak checker reports

A `Book` is the ledger with the blocks of the C library, and `Book.step` says what an
operator does to it. `tracks_run` is the refinement over whole runs: no call follows a
wrong pointer, frees a block twice or fails the assertion, and the loops end within
twice the logarithm of the number of chunks. The destructor logs a line for each chunk of
the ledger (`destruct_eq`), and the ledger holds the chunks that were handed out and not
given back (`mem_ledger_iff`). A line has the size of its chunk as an `int`, so the sizes from
`2 ^ 31` on are not those that were asked for (`leakLine_size_iff`).
-/

set_option autoImplicit false

namespace Mylib.Proofs.Check.LeakReport

open Mylib.Lib.RedBlack
open Mylib.Spec.Check.RbTree
open Mylib.Spec.Check.DebugNew
open Mylib.Spec.Check.DebugNew.DebugMemCheck
open Mylib.Proofs.Check.RbShape
open Mylib.Proofs.Check.RbWalk
open Mylib.Proofs.Check.DebugNew
open Mylib.Lib.Custody (EachStep)

/-! ### The book -/

/-- What the checker and the C library know about the blocks. -/
structure Book where
  ledger : Ledger
  block : Addr → Option UInt64

/-- The chunk an operator makes at `p`. -/
def chunkAt (p : Addr) (size : UInt64) (file : Addr) (line : Int32) : MemChunk :=
  ⟨p + sizeofMemChunk, size, file, line⟩

def Book.step (b : Book) : Op → Answer × Book
  | .new _ _ _ none => (.pointer none, b)
  | .new size file line (some (p, _)) =>
    (.pointer (some (p + sizeofMemChunk)),
      ⟨b.ledger.add (chunkAt p size file line),
        Function.update b.block p (some (size + sizeofMemChunk))⟩)
  | .delete _ p =>
    if b.ledger.any (·.ptr = p) then
      (.found true, ⟨b.ledger.remove p, Function.update b.block (p - sizeofMemChunk) none⟩)
    else (.found false, b)

def Book.run : List Op → Book → List Answer × Book
  | [], b => ([], b)
  | op :: ops, b =>
    let (answers, b') := Book.run ops (b.step op).2
    ((b.step op).1 :: answers, b')

/-- The promise of `malloc`: the block is new and ends inside the memory. And the caller leaves
room for the chunk in front of what it asks for. -/
def Allowed (b : Book) : Op → Prop
  | .new size _ _ (some (p, _)) =>
    b.block p = none ∧ size.toNat + 64 < 2 ^ 64 ∧ p.toNat + (size + sizeofMemChunk).toNat < 2 ^ 64
  | _ => True

/-- A run in which `malloc` keeps its promise. -/
def AllowedRun (b : Book) (ops : List Op) : Prop :=
  EachStep (fun b op => (b.step op).2) Allowed b ops

/-- The memory is as the book says. -/
structure Keeps (m : DebugMemCheck) (b : Book) (t : RBTree Addr) : Prop where
  tracks : Tracks m b.ledger t
  startup : m.startup = true
  block : m.block = b.block

/-- Rounds that are enough for every loop over a tree of `n` nodes. -/
def enough (n : Nat) : Nat := 2 * Nat.log2 (n + 1) + 1

/-- The bound grows with the number of chunks. -/
theorem enough_mono {n n' : Nat} (h : n ≤ n') : enough n ≤ enough n' := by
  have : Nat.log2 (n + 1) ≤ Nat.log2 (n' + 1) :=
    (Nat.le_log2 (by omega)).mpr ((Nat.log2_self_le (by omega)).trans (by omega))
  unfold enough
  omega

/-- A red-black tree is lower than twice the logarithm, so the bound is enough for one way down. -/
theorem height_lt_enough {m : DebugMemCheck} {ledger : Ledger} {t : RBTree Addr}
    (h : Tracks m ledger t) {n : Nat} (hn : ledger.length ≤ n) : t.height < enough n := by
  have hheight := h.holding.height_le
  rw [List.length_map] at hheight
  have := enough_mono hn
  unfold enough at this ⊢
  omega

/-! ### One call -/

/-- One call keeps the tree and the book in step, with the book's answer. -/
theorem tracks_step {m : DebugMemCheck} {b : Book} {t : RBTree Addr} (h : Keeps m b t) (op : Op)
    (hop : Allowed b op) {fuel : Nat} (hfuel : enough b.ledger.length ≤ fuel) :
    ∃ m' t', m.step fuel op = some ((b.step op).1, m') ∧ Keeps m' (b.step op).2 t' := by
  have hheight := height_lt_enough h.tracks (Nat.le_refl _)
  match op, hop with
  -- No memory: null is handed out, and nothing is recorded.
  | .new size file line none, _ =>
    exact ⟨m, t, rfl, h⟩
  | .new size file line (some (p, junk)), ⟨hfresh, hsize, hinside⟩ =>
    have hle := sizeofMemChunk_le hsize
    obtain ⟨m', t', hm', htracks, hstartup, hblock⟩ := exists_malloc h.tracks junk size
      (c := chunkAt p size file line) (h.block ▸ hfresh) rfl
      (ptr_ne_zero hinside hle) (hheight.trans_le hfuel)
    refine ⟨m', t', ?_, htracks, hstartup.trans h.startup, ?_⟩
    -- The size with its header has not wrapped.
    · have hnot : ¬ size + sizeofMemChunk < sizeofMemChunk := by grind
      simp only [DebugMemCheck.step, operatorNew, if_pos h.startup, fillChunk, if_neg hnot]
      show Option.map _ (((prepared m p junk size _).malloc fuel p).bind _) = _
      rw [show (⟨p + sizeofMemChunk, size, file, line⟩ : MemChunk) = chunkAt p size file line
        from rfl, hm']
      rfl
    · rw [hblock, h.block]
      rfl
  | .delete nullTest p, _ =>
    -- The pointer is one of those handed out, or unknown.
    by_cases hmem : ∃ c ∈ b.ledger, c.ptr = p
    · obtain ⟨c, hc, rfl⟩ := hmem
      obtain ⟨h', m', t', hh', hm', htracks, hstartup, hblock⟩ :=
        exists_release h.tracks hc (hheight.trans_le hfuel).le
      have hfind := findChunkNolocked_mem h.tracks hc (hheight.trans_le hfuel)
      have hany : b.ledger.any (·.ptr = c.ptr) = true := by
        simpa using ⟨c, hc, rfl⟩
      refine ⟨m', t', ?_, ?_⟩
      · have hnull : ¬ (nullTest = true ∧ c.ptr = 0) := fun hn => h.tracks.nonnull c hc hn.2
        simp only [DebugMemCheck.step, operatorDelete, if_neg hnull, if_pos h.startup,
          DebugMemCheck.free, hfind, Option.bind_eq_bind, Option.bind_some, reduceCtorEq,
          if_false, hh', hm', Option.map_some, Book.step, if_pos hany]
      · simp only [Book.step, if_pos hany]
        refine ⟨htracks, hstartup.trans h.startup, ?_⟩
        rw [hblock, h.block]
        rfl
    · -- an unknown pointer changes nothing
      have hne : ∀ c ∈ b.ledger, c.ptr ≠ p := fun c hc heq => hmem ⟨c, hc, heq⟩
      have hfind := findChunkNolocked_not_mem h.tracks hne (hheight.trans_le hfuel)
      have hany : ¬ b.ledger.any (·.ptr = p) = true := by
        simpa using hne
      simp only [Book.step, if_neg hany]
      refine ⟨m, t, ?_, h⟩
      simp only [DebugMemCheck.step, operatorDelete, if_pos h.startup, DebugMemCheck.free, hfind,
        Option.bind_eq_bind, Option.bind_some, if_true]
      split <;> rfl

/-! ### Runs -/

/-- One call adds one chunk at most. -/
theorem length_step_le (b : Book) (op : Op) :
    (b.step op).2.ledger.length ≤ b.ledger.length + 1 := by
  match op with
  | .new _ _ _ none => simp [Book.step]
  | .new size file line (some (p, _)) => exact Ledger.length_add_le _ _
  | .delete _ p =>
    simp only [Book.step]
    split
    · exact (List.length_filter_le _ _).trans (Nat.le_succ _)
    · exact Nat.le_succ _

/-- A run adds one chunk for each call at most. -/
theorem length_run_le (ops : List Op) (b : Book) :
    (Book.run ops b).2.ledger.length ≤ b.ledger.length + ops.length := by
  induction ops generalizing b with
  | nil => exact Nat.le_refl _
  | cons op ops ih =>
    have hstep := length_step_le b op
    have hrest := ih (b.step op).2
    simp only [Book.run, List.length_cons]
    omega

/-- A whole run keeps them in step. By induction on the calls. -/
theorem tracks_run {m : DebugMemCheck} {b : Book} {t : RBTree Addr} (h : Keeps m b t)
    (ops : List Op) (hops : AllowedRun b ops) {fuel : Nat}
    (hfuel : enough (b.ledger.length + ops.length) ≤ fuel) :
    ∃ m' t', m.run fuel ops = some ((Book.run ops b).1, m') ∧
      Keeps m' (Book.run ops b).2 t' := by
  induction ops generalizing m b t with
  | nil => exact ⟨m, t, rfl, h⟩
  | cons op ops ih =>
    rw [List.length_cons] at hfuel
    obtain ⟨m₁, t₁, hm₁, h₁⟩ := tracks_step h op hops.1 ((enough_mono (by omega)).trans hfuel)
    have hlength := length_step_le b op
    obtain ⟨m₂, t₂, hm₂, h₂⟩ := ih h₁ hops.2 ((enough_mono (by omega)).trans hfuel)
    refine ⟨m₂, t₂, ?_, h₂⟩
    simp only [DebugMemCheck.run, hm₁, hm₂, Option.bind_eq_bind, Option.bind_some]
    rfl

/-! ### The destructor -/

/-- The blocks that are left when those of the ledger are freed. -/
def freed (ledger : Ledger) (block : Addr → Option UInt64) : Addr → Option UInt64 :=
  fun p => if p ∈ ledger.map address then none else block p

/-- The loop of the destructor visits the chunks in order. -/
theorem destructLoop_eq {m : DebugMemCheck} {ledger : Ledger} {t : RBTree Addr}
    (h : Tracks m ledger t) {fuel rounds : Nat} (hfuel : enough ledger.length ≤ fuel)
    (hrounds : ledger.length < rounds) :
    ∃ m', destructLoop fuel rounds (ledger.map address).head? m
        = some (ledger.map MemChunk.leakLine, m') ∧
      m'.startup = m.startup ∧ m'.heap.rbNode = none ∧ m'.block = freed ledger m.block := by
  obtain ⟨rounds, rfl⟩ : ∃ r, rounds = r + 1 := ⟨rounds - 1, by omega⟩
  induction ledger generalizing m t rounds with
  | nil =>
    have ht : t = .nil := toList_eq_nil.mp h.holding.toList
    subst ht
    exact ⟨m, rfl, rfl, h.holding.shape.above, (funext fun p => if_neg (by simp)).symm⟩
  | cons c ledger ih =>
    have hheight := height_lt_enough h (Nat.le_refl _)
    rw [List.length_cons] at hrounds hfuel hheight
    obtain ⟨rounds, rfl⟩ : ∃ r, rounds = r + 1 := ⟨rounds - 1, by omega⟩
    -- The next node is read before the first one is erased.
    have hnext : rbNext fuel (some (address c)) m.heap = some (ledger.map address).head? :=
      rbNext_eq [] h.holding.shape h.holding.toList (hheight.trans_le hfuel).le
    obtain ⟨h', m₁, t₁, hh', hm₁, htracks, hstartup, hblock⟩ :=
      exists_release h (c := c) (by simp) (hheight.trans_le hfuel).le
    -- The pointers are all different, so one chunk is removed.
    have hremove : Ledger.remove c.ptr (c :: ledger) = ledger := by
      have hself : ledger.filter (·.ptr ≠ c.ptr) = ledger := by
        refine List.filter_eq_self.mpr fun d hd => ?_
        have := (List.pairwise_cons.mp h.sorted).1 d hd
        grind
      simpa [Ledger.remove] using hself
    rw [hremove] at htracks
    obtain ⟨m₂, hm₂, hstartup₂, hroot, hblock₂⟩ :=
      ih htracks ((enough_mono (by omega)).trans hfuel) rounds (by omega)
    refine ⟨m₂, ?_, hstartup₂.trans hstartup, hroot, ?_⟩
    · simp only [List.map_cons, List.head?_cons, destructLoop, h.chunk c (by simp), hnext, hh', hm₁,
        hm₂, Option.bind_eq_bind, Option.bind_some]
    · rw [hblock₂, hblock]
      funext p
      -- The block of the first chunk is freed as well.
      by_cases hp : p = address c
      · simp [freed, hp]
      · simp [freed, hp]

/-- The destructor logs the chunks of the ledger in the order of their pointers, and frees them. -/
theorem destruct_eq {m : DebugMemCheck} {ledger : Ledger} {t : RBTree Addr}
    (h : Tracks m ledger t) {fuel rounds : Nat} (hfuel : enough ledger.length ≤ fuel)
    (hrounds : ledger.length < rounds) :
    ∃ m', destruct fuel rounds m = some (ledger.map MemChunk.leakLine, m') ∧ m'.startup = false ∧
      m'.heap.rbNode = none ∧ m'.block = freed ledger m.block := by
  have hheight := height_lt_enough h (Nat.le_refl _)
  have h' : Tracks { m with startup := false } ledger t := ⟨h.1, h.2, h.3, h.4, h.5⟩
  obtain ⟨m', hm', hrest⟩ := destructLoop_eq h' hfuel hrounds
  refine ⟨m', ?_, hrest⟩
  have hfirst : rbFirst fuel m.heap = some (ledger.map address).head? := by
    rw [rbFirst_eq h.holding.shape (hheight.trans_le hfuel).le, h.holding.toList]
  simp only [destruct, hfirst, Option.bind_eq_bind, Option.bind_some, hm']

/-! ### What the ledger holds -/

/-- A run in two pieces. -/
theorem Book.run_append (ops ops' : List Op) (b : Book) :
    (Book.run (ops ++ ops') b).2 = (Book.run ops' (Book.run ops b).2).2 := by
  induction ops generalizing b with
  | nil => rfl
  | cons op ops ih => exact ih (b.step op).2

/-- The chunk was handed out, and the pointer was not given back since. -/
def Outstanding (ops : List Op) (c : MemChunk) : Prop :=
  ∃ before after size file line p junk,
    ops = before ++ .new size file line (some (p, junk)) :: after ∧
      c = chunkAt p size file line ∧ ∀ nullTest, .delete nullTest c.ptr ∉ after

/-- The last call of an allowed run, and the run before it. -/
theorem allowedRun_append {b : Book} {ops : List Op} {op : Op} (h : AllowedRun b (ops ++ [op])) :
    AllowedRun b ops ∧ Allowed (Book.run ops b).2 op := by
  induction ops generalizing b with
  | nil => exact ⟨trivial, h.1⟩
  | cons op' ops ih =>
    obtain ⟨hrest, hop⟩ := ih h.2
    exact ⟨⟨h.1, hrest⟩, hop⟩

/-- The chunks of the ledger stand in blocks. -/
theorem block_run {b : Book} (hb : ∀ c ∈ b.ledger, (b.block (address c)).isSome)
    (ops : List Op) :
    ∀ c ∈ (Book.run ops b).2.ledger, ((Book.run ops b).2.block (address c)).isSome := by
  induction ops generalizing b with
  | nil => exact hb
  | cons op ops ih =>
    refine ih fun c hc => ?_
    match op with
    | .new _ _ _ none => exact hb c hc
    | .new size file line (some (p, _)) =>
      -- The new block is allocated, and the others are as before.
      by_cases hp : address c = p
      · simp [Book.step, hp]
      · obtain rfl | hc := Ledger.mem_add hc
        · simp [chunkAt, address] at hp
        · simpa [Book.step, Function.update_of_ne hp] using hb c hc
    | .delete _ p =>
      simp only [Book.step] at hc ⊢
      split at hc
      · next hany =>
        rw [if_pos hany]
        obtain ⟨hc, hne⟩ := List.mem_filter.mp hc
        -- The freed block is that of another chunk.
        have hp : address c ≠ p - sizeofMemChunk := by
          intro heq
          rw [address, UInt64.sub_left_inj] at heq
          simp [heq] at hne
        simpa [Function.update_of_ne hp] using hb c hc
      · next hany =>
        rw [if_neg hany]
        exact hb c hc

/-- The chunk is the one this call hands out. -/
def HandsOut (op : Op) (c : MemChunk) : Prop :=
  ∃ size file line p junk, op = .new size file line (some (p, junk)) ∧ c = chunkAt p size file line

/-- What the last call changes: the block it frees is not outstanding any more, and the one it hands
out is. -/
theorem outstanding_append {ops : List Op} {op : Op} {c : MemChunk} :
    Outstanding (ops ++ [op]) c ↔
      Outstanding ops c ∧ (∀ nullTest, op ≠ .delete nullTest c.ptr) ∨ HandsOut op c := by
  constructor
  · rintro ⟨before, after, size, file, line, p, junk, hsplit, hc, hafter⟩
    obtain rfl | ⟨after, last, rfl⟩ := List.eq_nil_or_concat after
    · obtain ⟨rfl, hop⟩ := List.append_inj' hsplit rfl
      exact .inr ⟨size, file, line, p, junk, by simpa using hop, hc⟩
    · rw [List.concat_eq_append, ← List.cons_append, ← List.append_assoc] at hsplit
      obtain ⟨rfl, hop⟩ := List.append_inj' hsplit rfl
      obtain rfl : op = last := by simpa using hop
      refine .inl ⟨⟨before, after, size, file, line, p, junk, rfl, hc, fun b hb => ?_⟩,
        fun b hb => ?_⟩
      · exact hafter b (by simp [hb])
      · exact hafter b (by simp [hb])
  · rintro (⟨⟨before, after, size, file, line, p, junk, rfl, hc, hafter⟩, hop⟩ |
      ⟨size, file, line, p, junk, rfl, hc⟩)
    · refine ⟨before, after ++ [op], size, file, line, p, junk, by simp, hc, fun b hb => ?_⟩
      rw [List.mem_append, List.mem_singleton] at hb
      exact hb.elim (hafter b) fun hb => hop b hb.symm
    · exact ⟨ops, [], size, file, line, p, junk, rfl, hc, by simp⟩

/-- The ledger after a call has what it had, less the freed chunk, and the new one. -/
theorem mem_step_iff {b : Book} (hb : ∀ c ∈ b.ledger, (b.block (address c)).isSome) {op : Op}
    (hop : Allowed b op) {c : MemChunk} :
    c ∈ (b.step op).2.ledger ↔
      c ∈ b.ledger ∧ (∀ nullTest, op ≠ .delete nullTest c.ptr) ∨ HandsOut op c := by
  match op, hop with
  | .new size file line none, _ => simp [Book.step, HandsOut]
  | .new size file line (some (p, junk)), ⟨hfresh, _⟩ =>
    -- A chunk in the ledger has an allocated block, so its pointer is not the new one.
    have hother : c ∈ b.ledger → c.ptr ≠ p + sizeofMemChunk := by
      intro hc heq
      have hsome := hb c hc
      rw [address, heq, UInt64.add_sub_cancel, hfresh] at hsome
      cases hsome
    have hadd : c ∈ Ledger.add (chunkAt p size file line) b.ledger ↔
        c ∈ b.ledger ∨ c = chunkAt p size file line := by
      constructor
      · exact fun h => (Ledger.mem_add h).symm
      · rintro (hc | rfl)
        · have hne := hother hc
          simp only [Ledger.add, chunkAt, List.mem_append, List.mem_cons, List.mem_filter, hc,
            true_and]
          grind
        · simp [Ledger.add]
    show c ∈ Ledger.add _ b.ledger ↔ _
    rw [hadd]
    refine or_congr (by simp) ⟨fun h => ⟨size, file, line, p, junk, rfl, h⟩, ?_⟩
    rintro ⟨size', file', line', p', junk', heq, h⟩
    cases heq
    exact h
  | .delete nullTest p, _ =>
    -- A chunk stays exactly if the call has not freed its pointer.
    have hdelete : (∀ n, Op.delete nullTest p ≠ .delete n c.ptr) ↔ c.ptr ≠ p := by
      constructor
      · rintro h rfl
        exact h nullTest rfl
      · rintro h n heq
        cases heq
        exact h rfl
    have hhands : ¬ HandsOut (.delete nullTest p) c := by
      rintro ⟨_, _, _, _, _, heq, -⟩
      cases heq
    rw [hdelete, or_iff_left hhands, Book.step]
    split
    · simp [Ledger.remove]
    · next hany =>
      have hne : ∀ d ∈ b.ledger, d.ptr ≠ p := by simpa using hany
      exact ⟨fun hc => ⟨hc, hne c hc⟩, fun hc => hc.1⟩

/-- After a run the ledger holds what was handed out and not given back. -/
theorem mem_ledger_iff {block : Addr → Option UInt64} (ops : List Op)
    (hops : AllowedRun ⟨[], block⟩ ops) (c : MemChunk) :
    c ∈ (Book.run ops ⟨[], block⟩).2.ledger ↔ Outstanding ops c := by
  induction ops using List.reverseRecOn with
  | nil =>
    refine iff_of_false (by simp [Book.run]) ?_
    rintro ⟨before, after, size, file, line, p, junk, hsplit, -⟩
    simp at hsplit
  | append_singleton ops op ih =>
    obtain ⟨hrest, hop⟩ := allowedRun_append hops
    have hih := ih hrest
    have hblock := block_run (b := ⟨[], block⟩) (by simp) ops
    rw [Book.run_append]
    generalize (Book.run ops ⟨[], block⟩).2 = b at hih hop hblock
    show c ∈ (b.step op).2.ledger ↔ _
    rw [mem_step_iff hblock hop, hih, outstanding_append]

/-! ### A process from its start to the report -/

/-- At the start both are empty. -/
theorem keeps_construct (m : DebugMemCheck) : Keeps m.construct ⟨[], m.block⟩ .nil where
  tracks := {
    holding := ⟨⟨trivial, rfl, by simp [labels, RBTree.toList]⟩, ⟨rfl, 0, rfl⟩, rfl⟩
    chunk := by simp
    block := by simp
    sorted := List.Pairwise.nil
    nonnull := by simp }
  startup := rfl
  block := rfl

/-- From the constructor on, every run of calls answers as the book does, and leaves a red-black
tree of the ledger. No call follows a wrong pointer, writes behind a block, frees a block twice or
fails the assertion, and no loop takes more rounds than twice the logarithm of the number of
calls. -/
theorem run_refines (m : DebugMemCheck) (ops : List Op) (hops : AllowedRun ⟨[], m.block⟩ ops)
    {fuel : Nat} (hfuel : enough ops.length ≤ fuel) :
    ∃ m' t', m.construct.run fuel ops = some ((Book.run ops ⟨[], m.block⟩).1, m') ∧
      Keeps m' (Book.run ops ⟨[], m.block⟩).2 t' :=
  tracks_run (keeps_construct m) ops hops (by simpa using hfuel)

/-- The size in the line is the one asked for exactly if that fits an `int`. -/
theorem leakLine_size_iff (c : MemChunk) :
    c.leakLine.size.toInt = c.size.toNat ↔ c.size.toNat < 2 ^ 31 := by
  have hsize : c.leakLine.size.toInt = (c.size.toNat : Int).bmod (2 ^ 32) := by
    show (BitVec.ofNat 32 c.size.toNat).toInt = _
    exact BitVec.toInt_ofNat' _
  rw [hsize, Int.bmod_def]
  split_ifs <;> omega

/-- From the constructor over any calls to the destructor: every call has a result, and the lines
logged are exactly those of the chunks handed out and not given back, each once, in the order of
their pointers. The blocks of these chunks are freed then. -/
theorem leaks_reported (m : DebugMemCheck) (ops : List Op) (hops : AllowedRun ⟨[], m.block⟩ ops)
    {fuel rounds : Nat} (hfuel : enough ops.length ≤ fuel) (hrounds : ops.length < rounds) :
    ∃ answers m₁ leaks m₂, m.construct.run fuel ops = some (answers, m₁) ∧
      m₁.destruct fuel rounds = some (leaks, m₂) ∧
      (∀ l, l ∈ leaks ↔ ∃ c, Outstanding ops c ∧ c.leakLine = l) ∧
      leaks.Pairwise (fun l l' => l.ptr < l'.ptr) ∧
      m₂.heap.rbNode = none ∧ ∀ c, Outstanding ops c → m₂.block (address c) = none := by
  have hlength := length_run_le ops ⟨[], m.block⟩
  rw [List.length_nil, Nat.zero_add] at hlength
  obtain ⟨m₁, t₁, hm₁, h₁⟩ := tracks_run (keeps_construct m) ops hops (by simpa using hfuel)
  obtain ⟨m₂, hm₂, -, hroot, hblock⟩ :=
    destruct_eq h₁.tracks ((enough_mono hlength).trans hfuel) (hlength.trans_lt hrounds)
  have hmem := mem_ledger_iff ops hops
  refine ⟨_, m₁, _, m₂, hm₁, hm₂, fun l => ?_, ?_, hroot, fun c hc => ?_⟩
  · rw [List.mem_map]
    exact exists_congr fun c => and_congr_left fun _ => hmem c
  · exact List.pairwise_map.mpr h₁.tracks.sorted
  · rw [hblock, freed, if_pos (List.mem_map_of_mem ((hmem c).mpr hc))]

/-! ### Three calls -/

/-- A process that has not allocated anything. -/
def empty : DebugMemCheck := ⟨false, fun _ => none, fun _ => none, ⟨fun _ => none, none⟩⟩

/-- Two blocks, of which the first one is given back. -/
def calls : List Op :=
  [.new 10 0 0 (some (1000, ⟨none, .red, none, none⟩)),
    .new 20 7 3 (some (2000, ⟨none, .black, none, none⟩)), .delete true 1064]

/-- The example's calls are allowed: they free what is there and get addresses that are free. -/
theorem allowed_calls : AllowedRun ⟨[], empty.block⟩ calls :=
  ⟨⟨rfl, by decide, by decide⟩, ⟨rfl, by decide, by decide⟩, trivial, trivial⟩

/-- The refinement on these calls. -/
theorem run_refines_calls :
    ∃ m' t', empty.construct.run 5 calls = some ((Book.run calls ⟨[], empty.block⟩).1, m') ∧
      Keeps m' (Book.run calls ⟨[], empty.block⟩).2 t' :=
  run_refines empty calls allowed_calls (by decide)

/-- The report on these calls. -/
theorem leaks_reported_calls :
    ∃ answers m₁ leaks m₂, empty.construct.run 5 calls = some (answers, m₁) ∧
      m₁.destruct 5 4 = some (leaks, m₂) ∧
      (∀ l, l ∈ leaks ↔ ∃ c, Outstanding calls c ∧ c.leakLine = l) ∧
      leaks.Pairwise (fun l l' => l.ptr < l'.ptr) ∧
      m₂.heap.rbNode = none ∧ ∀ c, Outstanding calls c → m₂.block (address c) = none :=
  leaks_reported empty calls allowed_calls (by decide) (by decide)

end Mylib.Proofs.Check.LeakReport
