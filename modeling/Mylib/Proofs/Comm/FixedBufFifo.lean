import Mylib.Spec.Comm.FixedBuf

/-!
# `Mylib.Proofs.Comm.FixedBufFifo`: `fixed_buf` against a FIFO queue

The abstract queue is the list of the committed cells. `queueAfter` moves it by what
a call reports: a write appends as many of its bytes as it says, a successful
`wunlock` appends the cells behind its pointer, a read and a successful `runlock`
take cells from the front, and a successful `clear` empties it. `FifoHolds b q ops`
says of a whole run that the contents are the queue before every call and after the
last, that the position stays inside the array, that no call leaves the array, that
bytes handed out are the front of the queue, and that a call which reports failure
or zero changes neither the contents nor the position.

The invariant is `Linear b`: the array has `_total` cells and `_ppos` is inside it.
It holds of every mixture of locked and unlocked calls, so `fixedBuf_fifo` has no
hypothesis. Each call has one lemma, which says what it reports and how the contents
move.
-/

set_option autoImplicit false

namespace Mylib.Proofs.Comm

open Mylib.Lib.Memory
open Mylib.Spec.Comm

/-! ### The queue -/

/-- The committed cells, oldest first. -/
def contents (b : FixedBuf) : Block UInt8 := slice b.data 0 b.ppos

/-- The queue after a call on `b` that reported `r`. -/
def queueAfter (b : FixedBuf) (q : Block UInt8) : FixedBufOp → FixedBufResult → Block UInt8
  | .write bs, .count n => q ++ (bs.take n).map some
  | .read _, .bytes out => q.drop out.length
  | .wunlock p n, .flag true => q ++ slice b.data p.off n
  | .runlock _ n, .flag true => q.drop n
  | .clear, .flag true => []
  | _, _ => q

/-- The call reported failure or zero. -/
def FixedBufResult.Failed : FixedBufResult → Prop
  | .count n => n = 0
  | .bytes out => out = []
  | .flag ok => ok = false
  | .region p => p = none
  | .stored => False

/-- The buffer holds the queue, before every call of the run and after the last. -/
def FifoHolds (b : FixedBuf) (q : Block UInt8) : List FixedBufOp → Prop
  | [] => contents b = q ∧ b.ppos ≤ b.capacity
  | op :: ops =>
      contents b = q ∧ b.ppos ≤ b.capacity ∧ ∃ r b', b.step op = some (r, b') ∧
        (FixedBufResult.Failed r → contents b' = contents b ∧ b'.ppos = b.ppos) ∧
        (∀ out, r = .bytes out → out = q.take out.length) ∧
        FifoHolds b' (queueAfter b q op r) ops

/-! ### The invariant -/

/-- The position is inside the array. -/
structure Linear (b : FixedBuf) : Prop where
  data_length : b.data.length = b.total
  total_lt : b.total < 2 ^ 64
  ppos_le : b.ppos ≤ b.total

/-- `b'` is `b` with its contents in the same place, in an array at least as large. -/
structure Moved (b b' : FixedBuf) : Prop where
  linear : Linear b'
  contents_eq : contents b' = contents b
  ppos_eq : b'.ppos = b.ppos
  rlocked_eq : b'.rlocked = b.rlocked
  wlocked_eq : b'.wlocked = b.wlocked

section
variable {b : FixedBuf}

/-- What is in the buffer reaches up to the end position. -/
theorem Linear.length_contents (h : Linear b) : (contents b).length = b.ppos := by
  have hd := h.data_length
  have hp := h.ppos_le
  exact length_slice (by omega)

/-- What is free is behind it. -/
theorem Linear.avail_eq (h : Linear b) : b.avail = b.total - b.ppos := by
  have ht := h.total_lt
  have hp := h.ppos_le
  simp only [FixedBuf.avail, FixedBuf.capacity, FixedBuf.size, szSub]
  omega

/-- Nothing was moved. -/
theorem Linear.moved (h : Linear b) : Moved b b := ⟨h, rfl, rfl, rfl, rfl⟩

/-- A rounded size is a `size_t`. -/
theorem dwordAlign_lt (n : Nat) : dwordAlign n < 2 ^ 64 := by
  simp only [dwordAlign, szAdd]
  omega

/-! ### The calls keep the invariant -/

/-- A new buffer is linear. -/
theorem linear_fixedBuf (size : Nat) : Linear (FixedBuf.fixedBuf size) where
  data_length := length_alloc _
  total_lt := dwordAlign_lt size
  ppos_le := Nat.zero_le _

/-- A new buffer is empty. -/
theorem contents_fixedBuf (size : Nat) : contents (FixedBuf.fixedBuf size) = [] :=
  slice_zero _ _

/-- `reserve` keeps the contents. It is refused on a locked buffer, and otherwise
leaves an array of at least the aligned size. -/
theorem Linear.reserve (h : Linear b) (n : Nat) :
    ∃ b', b.reserve n = some (!b.anyLocked, b') ∧ Moved b b' ∧
      (b.anyLocked = true → b' = b) ∧
      (b.anyLocked = false → b'.total = max b.total (dwordAlign n)) := by
  have hd := h.data_length
  have hp := h.ppos_le
  -- While a lock is held the array stays.
  by_cases hlock : b.anyLocked = true
  · refine ⟨b, ?_, h.moved, fun _ => rfl, ?_⟩
    · simp only [FixedBuf.reserve, hlock, if_true, Bool.not_true]
    · simp [hlock]
  · have hfree : b.anyLocked = false := by simpa using hlock
    by_cases hn : dwordAlign n ≤ b.total
    · refine ⟨b, ?_, h.moved, fun _ => rfl, fun _ => by omega⟩
      simp only [FixedBuf.reserve, hfree, Bool.false_eq_true, if_false, if_pos hn, Bool.not_false]
    · -- A new array: the contents are copied to its front.
      have hlen := h.length_contents
      have hin : 0 + (contents b).length ≤ (alloc (dwordAlign n) : Block UInt8).length := by
        rw [length_alloc]
        omega
      refine ⟨{ b with
          array := b.array + 1
          data := splice (alloc (dwordAlign n)) 0 (contents b)
          total := dwordAlign n },
        ?_, ⟨⟨?_, dwordAlign_lt n, ?_⟩, ?_, rfl, rfl, rfl⟩, ?_, ?_⟩
      · simp only [FixedBuf.reserve, hfree, Bool.false_eq_true, if_false, if_neg hn,
          Bool.not_false, Option.bind_eq_bind, FixedBuf.size]
        rw [copyOut_of_le (by omega), Option.bind_some,
          show slice b.data 0 b.ppos = contents b from rfl, copyIn_of_le hin]
        rfl
      · show (splice (alloc (dwordAlign n)) 0 (contents b)).length = dwordAlign n
        rw [length_splice hin, length_alloc]
      · show b.ppos ≤ dwordAlign n
        omega
      · show slice (splice (alloc (dwordAlign n)) 0 (contents b)) 0 b.ppos = contents b
        have hself := slice_splice_self hin
        rwa [hlen] at hself
      · simp [hfree]
      · intro _
        show dwordAlign n = max b.total (dwordAlign n)
        omega

/-- The growth keeps the contents, whatever it is asked for. -/
theorem Linear.makeRoom (h : Linear b) (len : Nat) :
    ∃ b', b.makeRoom len = some b' ∧ Moved b b' := by
  rw [FixedBuf.makeRoom]
  by_cases hfew : b.avail < len
  · obtain ⟨b', hrun, hmoved, -⟩ := h.reserve (growSize b.capacity (szSub len b.avail))
    exact ⟨b', by rw [if_pos hfew, FixedBuf.grow, hrun]; rfl, hmoved⟩
  · exact ⟨b, if_neg hfew, h.moved⟩

/-- `peek` hands out the front of the contents. -/
theorem Linear.peek (h : Linear b) (len : Nat) :
    ∃ out, b.peek len = some out ∧ out = (contents b).take out.length ∧ out.length ≤ b.ppos ∧
      (b.rlocked = false → out.length = min len b.ppos) := by
  have hd := h.data_length
  have hp := h.ppos_le
  rw [FixedBuf.peek]
  by_cases hr : b.rlocked = true
  · exact ⟨[], if_pos hr, by simp, Nat.zero_le _, by simp [hr]⟩
  · have hlen : (slice b.data 0 (min len b.size)).length = min len b.ppos :=
      length_slice (by simp only [FixedBuf.size]; omega)
    refine ⟨_, by rw [if_neg hr, copyOut_of_le (by simp only [FixedBuf.size]; omega)], ?_, ?_, ?_⟩
    · rw [hlen]
      exact slice_take (Nat.min_le_right _ _)
    · omega
    · exact fun _ => hlen

/-- The `memmove` leaves the contents without their first `len` cells. -/
theorem Linear.dropFront (h : Linear b) {len : Nat} (hlen : len ≤ b.ppos) :
    ∃ b', b.dropFront len = some b' ∧ Linear b' ∧ contents b' = (contents b).drop len ∧
      b'.ppos = b.ppos - len ∧ b'.array = b.array ∧ b'.total = b.total ∧
      b'.rlocked = b.rlocked ∧ b'.wlocked = b.wlocked := by
  have hd := h.data_length
  have hp := h.ppos_le
  -- What is kept lies behind the bytes that are dropped.
  have hrest : (slice b.data len (b.ppos - len)).length = b.ppos - len := length_slice (by omega)
  have hin : 0 + (slice b.data len (b.ppos - len)).length ≤ b.data.length := by omega
  refine ⟨{ b with
      data := splice b.data 0 (slice b.data len (b.ppos - len))
      ppos := b.ppos - len },
    ?_, ⟨?_, h.total_lt, ?_⟩, ?_, rfl, rfl, rfl, rfl, rfl⟩
  · simp only [FixedBuf.dropFront, FixedBuf.size, Option.bind_eq_bind]
    rw [copyOut_of_le (by omega), Option.bind_some, copyIn_of_le hin]
    rfl
  · show (splice b.data 0 (slice b.data len (b.ppos - len))).length = b.total
    rw [length_splice hin, hd]
  · show b.ppos - len ≤ b.total
    omega
  -- It is moved to the front.
  · show slice (splice b.data 0 (slice b.data len (b.ppos - len))) 0 (b.ppos - len) = _
    have hself := slice_splice_self hin
    rw [hrest] at hself
    have hdrop := slice_drop b.data 0 b.ppos len
    rw [Nat.zero_add] at hdrop
    rw [hself, hdrop, contents]

/-- `read` takes the front of the contents. -/
theorem Linear.read (h : Linear b) (len : Nat) :
    ∃ out b', b.read len = some (out, b') ∧ Linear b' ∧ out = (contents b).take out.length ∧
      contents b' = (contents b).drop out.length ∧ b'.ppos = b.ppos - out.length := by
  rw [FixedBuf.read]
  by_cases hr : b.rlocked = true
  · exact ⟨[], b, if_pos hr, h, by simp, by simp, by simp⟩
  · obtain ⟨out, hpeek, hout, hle, -⟩ := h.peek len
    obtain ⟨b', hdrop, hlin, hcont, hpos, -⟩ := h.dropFront hle
    refine ⟨out, b', ?_, hlin, hout, hcont, hpos⟩
    rw [if_neg hr, hpeek]
    show (b.dropFront out.length).bind _ = _
    rw [hdrop]
    rfl

/-- `write` appends the bytes it reports. -/
theorem Linear.write (h : Linear b) (bs : List UInt8) :
    ∃ n b', b.write bs = some (n, b') ∧ Linear b' ∧
      contents b' = contents b ++ (bs.take n).map some ∧ b'.ppos = b.ppos + n := by
  rw [FixedBuf.write]
  by_cases hw : b.wlocked = true
  · exact ⟨0, b, if_pos hw, h, by simp, rfl⟩
  -- As many bytes are written as there is room for.
  · obtain ⟨b₁, hroom, hmoved⟩ := h.makeRoom bs.length
    have hlin := hmoved.linear
    have hd := hlin.data_length
    have hp := hlin.ppos_le
    have havail : szSub b₁.capacity b₁.size = b₁.total - b₁.ppos := hlin.avail_eq
    have hcount : ((bs.take (min bs.length (b₁.total - b₁.ppos))).map some).length
        = min bs.length (b₁.total - b₁.ppos) := by
      simp
    have hin : b₁.ppos + ((bs.take (min bs.length (b₁.total - b₁.ppos))).map some).length
        ≤ b₁.data.length := by omega
    refine ⟨min bs.length (b₁.total - b₁.ppos),
      { b₁ with
        data := splice b₁.data b₁.ppos ((bs.take (min bs.length (b₁.total - b₁.ppos))).map some)
        ppos := b₁.ppos + min bs.length (b₁.total - b₁.ppos) },
      ?_, ⟨?_, hlin.total_lt, ?_⟩, ?_, ?_⟩
    · simp only [if_neg hw, hroom, Option.bind_eq_bind, Option.bind_some, havail]
      rw [copyIn_of_le hin]
      rfl
    · show (splice b₁.data b₁.ppos _).length = b₁.total
      rw [length_splice hin, hd]
    · show b₁.ppos + min bs.length (b₁.total - b₁.ppos) ≤ b₁.total
      omega
    · show slice (splice b₁.data b₁.ppos _) 0 (b₁.ppos + min bs.length (b₁.total - b₁.ppos)) = _
      have hself := slice_splice_self hin
      rw [hcount] at hself
      rw [slice_add, slice_splice_of_le hin (by omega), Nat.zero_add, hself,
        show slice b₁.data 0 b₁.ppos = contents b₁ from rfl, hmoved.contents_eq]
    · show b₁.ppos + min bs.length (b₁.total - b₁.ppos) = _
      rw [hmoved.ppos_eq]

/-- `wlock` keeps the contents. -/
theorem Linear.wlock (h : Linear b) (len : Nat) :
    ∃ p b', b.wlock len = some (p, b') ∧ Linear b' ∧ contents b' = contents b ∧
      b'.ppos = b.ppos := by
  rw [FixedBuf.wlock]
  by_cases hw : b.wlocked = true
  · exact ⟨none, b, if_pos hw, h, rfl, rfl⟩
  · obtain ⟨b₁, hroom, hmoved⟩ := h.makeRoom len
    have hlin := hmoved.linear
    exact ⟨some ⟨b₁.array, b₁.ppos⟩, { b₁ with wlocked := true },
      by rw [if_neg hw, hroom]; rfl, ⟨hlin.data_length, hlin.total_lt, hlin.ppos_le⟩,
      hmoved.contents_eq, hmoved.ppos_eq⟩

/-- A successful `wunlock` appends the cells behind its pointer, a refused one
changes nothing. -/
theorem Linear.wunlock (h : Linear b) (p : BufPtr) (n : Nat) :
    (b.wunlock p n = (false, b)) ∨
    ∃ b', b.wunlock p n = (true, b') ∧ Linear b' ∧ contents b' = contents b ++ slice b.data p.off n
      := by
  have hp := h.ppos_le
  rw [FixedBuf.wunlock]
  by_cases hw : b.wlocked = true
  · by_cases heq : p = ⟨b.array, b.ppos⟩
    · by_cases hfew : b.avail < n
      · exact .inl (by simp [hw, heq, hfew])
      · have hn : b.ppos + n ≤ b.total := by
          have ha := h.avail_eq
          omega
        refine .inr ⟨{ b with ppos := b.ppos + n, wlocked := false }, by simp [hw, heq, hfew],
          ⟨h.data_length, h.total_lt, hn⟩, ?_⟩
        show slice b.data 0 (b.ppos + n) = _
        rw [slice_add, Nat.zero_add, heq, contents]
    · exact .inl (by simp [hw, heq])
  · exact .inl (by simp [hw])

/-- A successful `runlock` takes cells from the front, a refused one changes
nothing. -/
theorem Linear.runlock (h : Linear b) (p : BufPtr) (n : Nat) :
    (b.runlock p n = some (false, b)) ∨
    ∃ b', b.runlock p n = some (true, b') ∧ Linear b' ∧ contents b' = (contents b).drop n := by
  rw [FixedBuf.runlock]
  by_cases hr : b.rlocked = true
  · by_cases hw : b.wlocked = true
    · exact .inl (by simp [hr, hw])
    · by_cases heq : p = ⟨b.array, 0⟩
      · by_cases hfew : b.size < n
        · exact .inl (by simp [hr, hw, heq, hfew])
        · obtain ⟨b₁, hdrop, hlin, hcont, -⟩ := h.dropFront (Nat.not_lt.mp hfew)
          refine .inr ⟨{ b₁ with rlocked := false }, ?_,
            ⟨hlin.data_length, hlin.total_lt, hlin.ppos_le⟩, hcont⟩
          simp [hr, hw, heq, hfew, hdrop]
      · exact .inl (by simp [hr, hw, heq])
  · exact .inl (by simp [hr])

/-- A store of the lock holder stays behind the contents. -/
theorem Linear.store (h : Linear b) (off : Nat) (bs : List UInt8) : Moved b (b.store off bs) := by
  have hd := h.data_length
  rw [FixedBuf.store]
  by_cases hmay : b.wlocked ∧ b.ppos ≤ off ∧ off + bs.length ≤ b.total
  · rw [if_pos hmay]
    have hin : off + (bs.map some).length ≤ b.data.length := by
      rw [List.length_map]
      omega
    refine ⟨⟨?_, h.total_lt, h.ppos_le⟩, ?_, rfl, rfl, rfl⟩
    · show (splice b.data off (bs.map some)).length = b.total
      rw [length_splice hin, hd]
    · show slice (splice b.data off (bs.map some)) 0 b.ppos = _
      rw [slice_splice_of_le hin (by omega), contents]
  · rw [if_neg hmay]
    exact h.moved

/-! ### Whole runs -/

/-- One call: it stays inside the array, the contents move as `queueAfter` says, and
a call that reports failure or zero changes nothing. -/
theorem Linear.step (h : Linear b) (op : FixedBufOp) :
    ∃ r b', b.step op = some (r, b') ∧ Linear b' ∧ contents b' = queueAfter b (contents b) op r ∧
      (FixedBufResult.Failed r → contents b' = contents b ∧ b'.ppos = b.ppos) ∧
      (∀ out, r = .bytes out → out = (contents b).take out.length) := by
  cases op with
  | write bs =>
      obtain ⟨n, b', hrun, hlin, hcont, hpos⟩ := h.write bs
      refine ⟨.count n, b', by rw [FixedBuf.step, hrun]; rfl, hlin, hcont, ?_, by simp⟩
      -- A write that fails writes nothing; it may still have made room.
      intro hzero
      have hn : n = 0 := hzero
      subst hn
      exact ⟨by simpa using hcont, hpos⟩
  | read len =>
      obtain ⟨out, b', hrun, hlin, hout, hcont, hpos⟩ := h.read len
      refine ⟨.bytes out, b', by rw [FixedBuf.step, hrun]; rfl, hlin, hcont, ?_, ?_⟩
      · intro hzero
        have hnil : out = [] := hzero
        subst hnil
        exact ⟨hcont, hpos⟩
      · intro out' heq
        cases heq
        exact hout
  | peek len =>
      obtain ⟨out, hrun, hout, -⟩ := h.peek len
      refine ⟨.bytes out, b, by rw [FixedBuf.step, hrun]; rfl, h, rfl, fun _ => ⟨rfl, rfl⟩, ?_⟩
      intro out' heq
      cases heq
      exact hout
  | reserve n =>
      obtain ⟨b', hrun, hmoved, -⟩ := h.reserve n
      exact ⟨.flag (!b.anyLocked), b', by rw [FixedBuf.step, hrun]; rfl, hmoved.linear,
        hmoved.contents_eq, fun _ => ⟨hmoved.contents_eq, hmoved.ppos_eq⟩, by simp⟩
  | clear =>
      by_cases hlock : b.anyLocked = true
      · exact ⟨.flag false, b, by simp [FixedBuf.step, FixedBuf.clear, hlock], h, rfl,
          fun _ => ⟨rfl, rfl⟩, by simp⟩
      · refine ⟨.flag true, { b with ppos := 0 }, by simp [FixedBuf.step, FixedBuf.clear, hlock],
          ⟨h.data_length, h.total_lt, Nat.zero_le _⟩, slice_zero _ _, ?_, by simp⟩
        intro hfail
        cases hfail
  | wlock len =>
      obtain ⟨p, b', hrun, hlin, hcont, hpos⟩ := h.wlock len
      exact ⟨.region (p.map fun p => (p, len)), b', by rw [FixedBuf.step, hrun]; rfl, hlin, hcont,
        fun _ => ⟨hcont, hpos⟩, by simp⟩
  | wunlock p n =>
      rcases h.wunlock p n with hno | ⟨b', hyes, hlin, hcont⟩
      · exact ⟨.flag false, b, by rw [FixedBuf.step, hno], h, rfl, fun _ => ⟨rfl, rfl⟩, by simp⟩
      · refine ⟨.flag true, b', by rw [FixedBuf.step, hyes], hlin, hcont, ?_, by simp⟩
        intro hfail
        cases hfail
  | rlock len =>
      by_cases hr : b.rlocked = true
      · exact ⟨.region none, b, by simp [FixedBuf.step, FixedBuf.rlock, hr], h, rfl,
          fun _ => ⟨rfl, rfl⟩, by simp⟩
      · exact ⟨.region (some (⟨b.array, 0⟩, min b.size len)), { b with rlocked := true },
          by simp [FixedBuf.step, FixedBuf.rlock, hr], ⟨h.data_length, h.total_lt, h.ppos_le⟩, rfl,
          fun _ => ⟨rfl, rfl⟩, by simp⟩
  | runlock p n =>
      rcases h.runlock p n with hno | ⟨b', hyes, hlin, hcont⟩
      · exact ⟨.flag false, b, by rw [FixedBuf.step, hno]; rfl, h, rfl, fun _ => ⟨rfl, rfl⟩,
          by simp⟩
      · refine ⟨.flag true, b', by rw [FixedBuf.step, hyes]; rfl, hlin, hcont, ?_, by simp⟩
        intro hfail
        cases hfail
  | store off bs =>
      have hmoved := h.store off bs
      exact ⟨.stored, b.store off bs, rfl, hmoved.linear, hmoved.contents_eq,
        fun _ => ⟨hmoved.contents_eq, hmoved.ppos_eq⟩, by simp⟩

/-- A run from a buffer that keeps the invariant is a run of the queue. -/
theorem Linear.fifoHolds (h : Linear b) (ops : List FixedBufOp) :
    FifoHolds b (contents b) ops := by
  induction ops generalizing b with
  | nil => exact ⟨rfl, h.ppos_le⟩
  | cons op ops ih =>
      obtain ⟨r, b', hstep, hlin, hcont, hfail, hbytes⟩ := h.step op
      refine ⟨rfl, h.ppos_le, r, b', hstep, hfail, hbytes, ?_⟩
      rw [← hcont]
      exact ih hlin

end

/-- Every run on a new buffer, locked or not, is a run of the queue that starts
empty. -/
theorem fixedBuf_fifo (size : Nat) (ops : List FixedBufOp) :
    FifoHolds (FixedBuf.fixedBuf size) [] ops := by
  have hrun := (linear_fixedBuf size).fifoHolds ops
  rwa [contents_fixedBuf] at hrun

end Mylib.Proofs.Comm
