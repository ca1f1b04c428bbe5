import Mylib.Proofs.Comm.CycBufLayout

/-!
# `Mylib.Proofs.Comm.CycBufFifo`: `cyc_buf` against a FIFO queue

The abstract queue is the list of the bytes written and not yet read. `fifoStep`
gives the result and the new queue of each call, and `FifoRun size ops` says that
a buffer built with `size` answers the calls `ops` exactly as the queue does, and
that afterwards `size()` is the length of the queue and at most `capacity()`.

`FifoRun` fails. `write` leaves `_pend` at the end of the array when the new bytes
end there, and only `read` wraps its own pointer: a read of all remaining bytes
then puts `_pbeg` at the start while `_pend` stays at the end, and the empty buffer
reports `_total` unread bytes (`not_fifoRun_of_drain`). `StepOk` rules that read
out, and a write whose grown size leaves `size_t`. `fifoRun_of_runOk` proves that
every run whose calls all meet `StepOk` is a run of the queue.

The invariant is `Rep b q`: the bytes from `_pbeg` to `_pend`, once around the
array when `_pend` comes first, are `q`, `_pbeg` is inside the array, and at least
one byte is free. One lemma per call shows that the call keeps `Rep`.
-/

set_option autoImplicit false

namespace Mylib.Proofs.Comm

open Mylib.Lib.Memory
open Mylib.Spec.Comm

/-! ### The queue -/

/-- One call on the queue of unread bytes. -/
def fifoStep (q : List UInt8) : CycBufOp → CycBufResult × List UInt8
  | .write bs => (.count bs.length, q ++ bs)
  | .read len => (.bytes ((q.take len).map some), q.drop len)
  | .peek len => (.bytes ((q.take len).map some), q)
  | .reserve _ => (.flag true, q)
  | .clear => (.flag true, [])

/-- A sequence of calls on the queue. -/
def fifoRun (q : List UInt8) : List CycBufOp → List CycBufResult × List UInt8
  | [] => ([], q)
  | op :: ops =>
      let (r, q) := fifoStep q op
      let (rs, q) := fifoRun q ops
      (r :: rs, q)

/-- A buffer built with `size` answers the calls `ops` as the queue does. No call
leaves the array, the results are the queue's, and afterwards `size()` is the number
of unread bytes and at most `capacity()`. -/
def FifoRun (size : Nat) (ops : List CycBufOp) : Prop :=
  ∃ b, (CycBuf.cycBuf size).run ops = some ((fifoRun [] ops).1, b) ∧
    b.size = (fifoRun [] ops).2.length ∧ b.size ≤ b.capacity

/-! ### The condition on a call -/

/-- The call does not reach the two defects. A write that has to grow asks for an
array whose size fits `size_t`. A read does not take all the bytes while `_pend`
stands at the end of the array. -/
def StepOk (b : CycBuf) : CycBufOp → Prop
  | .write bs =>
      b.avail < bs.length → b.capacity + max (bs.length - b.avail) (b.capacity / 2) + 4 < 2 ^ 64
  | .read len => ¬ (b.pend = b.total ∧ b.total - b.pbeg ≤ len)
  | _ => True

instance (b : CycBuf) : (op : CycBufOp) → Decidable (StepOk b op)
  | .write bs => inferInstanceAs (Decidable (b.avail < bs.length →
      b.capacity + max (bs.length - b.avail) (b.capacity / 2) + 4 < 2 ^ 64))
  | .read len => inferInstanceAs (Decidable (¬ (b.pend = b.total ∧ b.total - b.pbeg ≤ len)))
  | .peek _ => .isTrue trivial
  | .reserve _ => .isTrue trivial
  | .clear => .isTrue trivial

/-- Every call of the run meets `StepOk` in the state it is made in. -/
def RunOk (b : CycBuf) : List CycBufOp → Prop
  | [] => True
  | op :: ops => StepOk b op ∧ ((b.step op).elim True fun after => RunOk after.2 ops)

instance decidableRunOk (b : CycBuf) : (ops : List CycBufOp) → Decidable (RunOk b ops)
  | [] => .isTrue trivial
  | op :: ops =>
      have : Decidable ((b.step op).elim True fun after => RunOk after.2 ops) :=
        match b.step op with
        | none => .isTrue trivial
        | some after => decidableRunOk after.2 ops
      inferInstanceAs (Decidable (_ ∧ _))

/-! ### The invariant -/

/-- The unlocked buffer `b` holds the bytes `q`. -/
structure Rep (b : CycBuf) (q : List UInt8) : Prop where
  rlocked : b.rlocked = false
  wlocked : b.wlocked = false
  data_length : b.data.length = b.total
  total_lt : b.total < 2 ^ 64
  pbeg_lt : b.pbeg < b.total
  pend_le : b.pend ≤ b.total
  free : b.pbeg = 0 → b.pend < b.total
  unread_eq : unread b = q.map some

section
variable {b : CycBuf} {q : List UInt8}

/-- What represents a queue is well-formed. -/
theorem Rep.layout (h : Rep b q) : Layout b :=
  ⟨h.data_length, h.total_lt, Nat.zero_lt_of_lt h.pbeg_lt, Nat.le_of_lt h.pbeg_lt, h.pend_le,
    h.free⟩

/-- `size()` is the number of unread bytes. -/
theorem Rep.size_eq (h : Rep b q) : b.size = q.length := by
  rw [← h.layout.inArray.length_unread, h.unread_eq, List.length_map]

/-- One byte of the array is free. -/
theorem Rep.length_lt (h : Rep b q) : q.length < b.total := by
  rw [← h.size_eq]
  exact h.layout.size_lt

/-- One byte of the array is never used. -/
theorem Rep.capacity_eq (h : Rep b q) : b.capacity = b.total - 1 := h.layout.capacity_eq

/-- What is free is the capacity less the queue. -/
theorem Rep.avail_eq (h : Rep b q) : b.avail = b.total - 1 - q.length := by
  rw [h.layout.avail_eq, h.size_eq]

/-- Nothing is locked between calls. -/
theorem Rep.anyLocked_eq (h : Rep b q) : b.anyLocked = false := by
  rw [CycBuf.anyLocked, h.rlocked, h.wlocked]
  rfl

/-! ### The calls keep the invariant -/

/-- The constructor builds the empty queue when the array size fits `size_t`. -/
theorem rep_cycBuf {n : Nat} (hn : n + 4 < 2 ^ 64) : Rep (CycBuf.cycBuf n) [] := by
  have htotal : dwordAlign (szAdd n 1) = (n + 4) / 4 * 4 := by
    simp only [dwordAlign, szAdd]
    omega
  constructor
  case unread_eq => simp [unread, CycBuf.cycBuf]
  all_goals simp only [CycBuf.cycBuf, length_alloc, htotal]
  all_goals omega

/-- The queue is copied to the front of a new block. -/
theorem Rep.copyUnread (h : Rep b q) {pnew : Block UInt8} (hfit : q.length ≤ pnew.length) :
    b.copyUnread pnew = some (splice pnew 0 (q.map some)) := by
  rw [h.layout.inArray.copyUnread (by rw [h.size_eq]; exact hfit), h.unread_eq]

/-- `reserve` succeeds and keeps the queue. The array is either the old one or has
the aligned size. -/
theorem Rep.reserve (h : Rep b q) (n : Nat) :
    ∃ b', b.reserve n = some (true, b') ∧ Rep b' q ∧
      b'.total = max b.total (dwordAlign (szAdd n 1)) := by
  have hl := h.length_lt
  simp only [CycBuf.reserve, h.anyLocked_eq, h.size_eq, Bool.false_eq_true, if_false]
  by_cases hn : dwordAlign (szAdd n 1) ≤ b.total
  · exact ⟨b, if_pos hn, h, by omega⟩
  · have hbig : dwordAlign (szAdd n 1) < 2 ^ 64 := by
      simp only [dwordAlign, szAdd]
      omega
    have hfit : 0 + (q.map some).length
        ≤ (alloc (dwordAlign (szAdd n 1)) : Block UInt8).length := by
      rw [List.length_map, length_alloc]
      omega
    -- The new array takes the unread bytes to its front, whether they were in one piece or two.
    rw [if_neg hn, h.copyUnread (by rw [length_alloc]; omega)]
    refine ⟨_, rfl, ⟨h.rlocked, h.wlocked, ?_, hbig, ?_, ?_, ?_, ?_⟩, ?_⟩
    · rw [length_splice hfit, length_alloc]
    · show 0 < dwordAlign (szAdd n 1)
      omega
    · show q.length ≤ dwordAlign (szAdd n 1)
      omega
    · intro _
      show q.length < dwordAlign (szAdd n 1)
      omega
    · rw [unread_of_pbeg_zero rfl]
      have hself := slice_splice_self hfit
      rwa [List.length_map] at hself
    · show dwordAlign (szAdd n 1) = _
      omega

/-- `peek` stores the oldest unread bytes. -/
theorem Rep.peek (h : Rep b q) (len : Nat) : b.peek len = some ((q.take len).map some) := by
  have hb := h.pbeg_lt
  have he := h.pend_le
  have hd := h.data_length
  have hu := h.unread_eq
  have hlen := congrArg List.length hu
  rw [List.length_map] at hlen
  simp only [CycBuf.peek, h.rlocked, h.size_eq, Bool.false_eq_true, if_false]
  have hmin : (q.take len).map some = (unread b).take (min q.length len) := by
    rw [hu, ← List.map_take, Nat.min_comm, ← List.take_eq_take_min]
  rw [hmin]
  rw [unread] at hlen ⊢
  by_cases hwrap : b.pbeg ≤ b.pend
  · rw [if_pos hwrap, length_slice (by omega)] at hlen
    rw [if_pos (Or.inl hwrap), if_pos hwrap, copyOut_of_le (by omega),
      slice_take (n := b.pend - b.pbeg) (by omega)]
  · rw [if_neg hwrap, List.length_append, length_slice (by omega), length_slice (by omega)] at hlen
    have htail : (slice b.data b.pbeg (b.total - b.pbeg)).length = b.total - b.pbeg :=
      length_slice (by omega)
    rw [if_neg hwrap]
    -- Behind a wrap the bytes asked for may end before the end of the array, or behind it.
    by_cases hshort : min q.length len ≤ b.total - b.pbeg
    · rw [if_pos (Or.inr hshort), copyOut_of_le (by omega),
        List.take_append_of_le_length (by omega), ← slice_take hshort]
    · rw [if_neg (by omega), copyOut_of_le (by omega), copyOut_of_le (by omega),
        List.take_append, List.take_of_length_le (by omega), htail, ← slice_take (by omega)]
      rfl

/-- `read` returns the oldest unread bytes and leaves the rest, unless it takes them
all while `_pend` stands at the end of the array. -/
theorem Rep.read (h : Rep b q) (len : Nat) (hok : StepOk b (.read len)) :
    ∃ b', b.read len = some ((q.take len).map some, b') ∧ Rep b' (q.drop len) := by
  have hb := h.pbeg_lt
  have he := h.pend_le
  have hd := h.data_length
  have hu := h.unread_eq
  have hlen := congrArg List.length hu
  rw [List.length_map] at hlen
  simp only [StepOk] at hok
  rw [CycBuf.read, if_neg (by simp [h.rlocked]), h.peek]
  refine ⟨_, rfl, ?_⟩
  -- What is left of the queue is what is left of the unread bytes.
  have hmin : (q.drop len).map some = (unread b).drop (min len q.length) := by
    rw [hu, ← List.map_drop]
    congr 1
    by_cases hle : len ≤ q.length
    · rw [Nat.min_eq_left hle]
    · rw [Nat.min_eq_right (by omega), List.drop_length, List.drop_of_length_le (by omega)]
  have hcount : ((q.take len).map some).length = min len q.length := by simp
  rw [hcount]
  rw [unread] at hlen hmin
  by_cases hwrap : b.pbeg ≤ b.pend
  · -- The unread bytes do not wrap: the read stops at `_pend` at the latest.
    rw [if_pos hwrap] at hmin
    rw [if_pos hwrap, length_slice (by omega)] at hlen
    have hlt : b.pbeg + min len q.length < b.total := by omega
    rw [if_neg (by omega)]
    refine ⟨h.rlocked, h.wlocked, hd, h.total_lt, hlt, he, ?_, ?_⟩
    · show b.pbeg + min len q.length = 0 → b.pend < b.total
      intro hz
      exact h.free (by omega)
    · rw [hmin, unread, if_pos (by show b.pbeg + min len q.length ≤ b.pend; omega)]
      show slice b.data (b.pbeg + min len q.length) (b.pend - (b.pbeg + min len q.length)) = _
      rw [← slice_drop, Nat.sub_add_eq]
  -- The unread bytes wrap.
  · rw [if_neg hwrap] at hmin
    rw [if_neg hwrap, List.length_append, length_slice (by omega), length_slice (by omega)] at hlen
    have htail : (slice b.data b.pbeg (b.total - b.pbeg)).length = b.total - b.pbeg :=
      length_slice (by omega)
    by_cases hpast : b.total ≤ b.pbeg + min len q.length
    · -- The read passes the end of the array and wraps `_pbeg`.
      rw [if_pos hpast]
      refine ⟨h.rlocked, h.wlocked, hd, h.total_lt, ?_, he, ?_, ?_⟩
      · show b.pbeg + min len q.length - b.total < b.total
        omega
      · intro _
        show b.pend < b.total
        omega
      · rw [hmin, List.drop_append, List.drop_of_length_le (by omega), List.nil_append, htail,
          unread, if_pos (by show b.pbeg + min len q.length - b.total ≤ b.pend; omega)]
        show slice b.data (b.pbeg + min len q.length - b.total)
          (b.pend - (b.pbeg + min len q.length - b.total)) = _
        rw [← slice_drop, Nat.zero_add]
        congr 1 <;> omega
    -- The read stops in front of the end of the array.
    · rw [if_neg hpast]
      refine ⟨h.rlocked, h.wlocked, hd, h.total_lt, Nat.not_le.mp hpast, he, ?_, ?_⟩
      · intro _
        show b.pend < b.total
        omega
      · rw [hmin, List.drop_append_of_le_length (by omega), unread,
          if_neg (by show ¬ b.pbeg + min len q.length ≤ b.pend; omega)]
        show slice b.data (b.pbeg + min len q.length) (b.total - (b.pbeg + min len q.length))
          ++ slice b.data 0 b.pend = _
        rw [← slice_drop, Nat.sub_add_eq]

/-- The copy in `write` appends `bs` when it fits beside the unread bytes and the free
byte. -/
theorem Rep.append (h : Rep b q) (bs : List UInt8) (hfit : q.length + bs.length < b.total) :
    ∃ b', b.append bs = some b' ∧ Rep b' (q ++ bs) := by
  have hb := h.pbeg_lt
  have he := h.pend_le
  have hd := h.data_length
  have hu := h.unread_eq
  have hlen := congrArg List.length hu
  rw [List.length_map] at hlen
  rw [unread] at hu hlen
  have hbs : (bs.map some).length = bs.length := List.length_map some
  simp only [CycBuf.append, Option.bind_eq_bind]
  by_cases hwrap : b.pbeg ≤ b.pend
  -- The unread bytes do not wrap.
  · rw [if_pos hwrap, length_slice (by omega)] at hlen
    rw [if_pos hwrap] at hu
    by_cases htail : bs.length ≤ b.total - b.pend
    · -- The new bytes end before the end of the array, or exactly there.
      have hin : b.pend + (bs.map some).length ≤ b.data.length := by omega
      rw [if_pos htail, copyIn_of_le hin, Option.bind_some]
      refine ⟨_, rfl, h.rlocked, h.wlocked, ?_, h.total_lt, hb, ?_, ?_, ?_⟩
      · rw [length_splice hin, hd]
      · show b.pend + bs.length ≤ b.total
        omega
      · show b.pbeg = 0 → b.pend + bs.length < b.total
        omega
      · rw [unread, if_pos (by show b.pbeg ≤ b.pend + bs.length; omega)]
        show slice (splice b.data b.pend (bs.map some)) b.pbeg (b.pend + bs.length - b.pbeg) = _
        have hsplit : b.pend + bs.length - b.pbeg = (b.pend - b.pbeg) + (bs.map some).length := by
          omega
        rw [hsplit, slice_add, slice_splice_of_le hin (by omega), hu,
          Nat.add_sub_cancel' hwrap, slice_splice_self hin, List.map_append]
    · -- The new bytes wrap: the first part fills the array up to its end.
      have hdrop : ((bs.drop (b.total - b.pend)).map some).length
          = bs.length - (b.total - b.pend) := by simp
      have htake : ((bs.take (b.total - b.pend)).map some).length = b.total - b.pend := by
        simp only [List.length_map, List.length_take]
        omega
      have hin1 : b.pend + ((bs.take (b.total - b.pend)).map some).length ≤ b.data.length := by
        omega
      have hin2 : 0 + ((bs.drop (b.total - b.pend)).map some).length
          ≤ (splice b.data b.pend ((bs.take (b.total - b.pend)).map some)).length := by
        rw [length_splice hin1]
        omega
      rw [if_neg htail, copyIn_of_le hin1, Option.bind_some, copyIn_of_le hin2, Option.bind_some]
      refine ⟨_, rfl, h.rlocked, h.wlocked, ?_, h.total_lt, hb, ?_, ?_, ?_⟩
      · rw [length_splice hin2, length_splice hin1, hd]
      · show bs.length - (b.total - b.pend) ≤ b.total
        omega
      · intro _
        show bs.length - (b.total - b.pend) < b.total
        omega
      · rw [unread, if_neg (by show ¬ b.pbeg ≤ bs.length - (b.total - b.pend); omega)]
        show slice (splice (splice b.data b.pend ((bs.take (b.total - b.pend)).map some)) 0
              ((bs.drop (b.total - b.pend)).map some)) b.pbeg (b.total - b.pbeg)
            ++ slice (splice (splice b.data b.pend ((bs.take (b.total - b.pend)).map some)) 0
              ((bs.drop (b.total - b.pend)).map some)) 0 (bs.length - (b.total - b.pend)) = _
        have hsplit : b.total - b.pbeg
            = (b.pend - b.pbeg) + ((bs.take (b.total - b.pend)).map some).length := by omega
        have hself := slice_splice_self hin2
        rw [hdrop] at hself
        rw [hself, slice_splice_of_ge hin2 (by omega), hsplit, slice_add,
          slice_splice_of_le hin1 (by omega), hu, Nat.add_sub_cancel' hwrap,
          slice_splice_self hin1, List.append_assoc, ← List.map_append, List.take_append_drop,
          List.map_append]
  -- They wrap, so the free part is in one piece.
  · rw [if_neg hwrap, List.length_append, length_slice (by omega), length_slice (by omega)] at hlen
    rw [if_neg hwrap] at hu
    have hin : b.pend + (bs.map some).length ≤ b.data.length := by omega
    rw [if_pos (by omega), copyIn_of_le hin, Option.bind_some]
    refine ⟨_, rfl, h.rlocked, h.wlocked, ?_, h.total_lt, hb, ?_, ?_, ?_⟩
    · rw [length_splice hin, hd]
    · show b.pend + bs.length ≤ b.total
      omega
    · intro _
      show b.pend + bs.length < b.total
      omega
    · rw [unread, if_neg (by show ¬ b.pbeg ≤ b.pend + bs.length; omega)]
      show slice (splice b.data b.pend (bs.map some)) b.pbeg (b.total - b.pbeg)
        ++ slice (splice b.data b.pend (bs.map some)) 0 (b.pend + bs.length) = _
      have hself := slice_splice_self hin
      rw [hbs] at hself
      rw [slice_splice_of_ge hin (by omega), slice_add, slice_splice_of_le hin (by omega),
        Nat.zero_add, hself, ← List.append_assoc, hu, List.map_append]

/-- A growth whose request fits `size_t` makes room for the missing bytes. -/
theorem Rep.grow (h : Rep b q) {inc : Nat}
    (hfit : b.capacity + max inc (b.capacity / 2) + 4 < 2 ^ 64) :
    ∃ b', b.grow inc = some b' ∧ Rep b' q ∧ b.total + inc ≤ b'.total := by
  have hb := h.pbeg_lt
  have hc := h.capacity_eq
  obtain ⟨b', hrun, hrep, htotal⟩ := h.reserve (growSize b.capacity inc)
  refine ⟨b', ?_, hrep, ?_⟩
  · rw [CycBuf.grow, hrun]
    rfl
  · have halign : dwordAlign (szAdd (growSize b.capacity inc) 1)
        = (b.capacity + max inc (b.capacity / 2) + 4) / 4 * 4 := by
      simp only [dwordAlign, growSize, szAdd]
      omega
    omega

/-- `write` appends all its bytes, unless its growth request leaves `size_t`. -/
theorem Rep.write (h : Rep b q) (bs : List UInt8) (hok : StepOk b (.write bs)) :
    ∃ b', b.write bs = some (bs.length, b') ∧ Rep b' (q ++ bs) := by
  have hl := h.length_lt
  have ha := h.avail_eq
  have ht := h.total_lt
  simp only [StepOk] at hok
  simp only [CycBuf.write, h.wlocked, Bool.false_eq_true, if_false, Option.bind_eq_bind]
  -- The buffer grows first, or has room already.
  by_cases hgrow : b.avail < bs.length
  · have hfit := hok hgrow
    have hsub : szSub bs.length b.avail = bs.length - b.avail := by
      simp only [szSub]
      omega
    obtain ⟨b1, hrun1, hrep1, htotal⟩ := h.grow hfit
    obtain ⟨b2, hrun2, hrep2⟩ := hrep1.append bs (by omega)
    refine ⟨b2, ?_, hrep2⟩
    rw [if_pos hgrow, hsub, hrun1, Option.bind_some, hrun2]
    rfl
  · obtain ⟨b2, hrun2, hrep2⟩ := h.append bs (by omega)
    refine ⟨b2, ?_, hrep2⟩
    rw [if_neg hgrow, Option.bind_some, hrun2]
    rfl

/-- `clear` empties the queue. -/
theorem Rep.clear (h : Rep b q) : ∃ b', b.clear = (true, b') ∧ Rep b' [] := by
  have hb := h.pbeg_lt
  rw [CycBuf.clear, if_neg (by simp [h.anyLocked_eq])]
  refine ⟨_, rfl, h.rlocked, h.wlocked, h.data_length, h.total_lt, ?_, Nat.zero_le _, ?_, ?_⟩
  · show 0 < b.total
    omega
  · intro _
    show 0 < b.total
    omega
  · simp [unread]

/-! ### Whole runs -/

/-- One call that meets `StepOk` answers as the queue does and keeps the invariant. -/
theorem Rep.step (h : Rep b q) (op : CycBufOp) (hok : StepOk b op) :
    ∃ b', b.step op = some ((fifoStep q op).1, b') ∧ Rep b' (fifoStep q op).2 := by
  cases op with
  | write bs =>
      obtain ⟨b', hrun, hrep⟩ := h.write bs hok
      exact ⟨b', by rw [CycBuf.step, hrun]; rfl, hrep⟩
  | read len =>
      obtain ⟨b', hrun, hrep⟩ := h.read len hok
      exact ⟨b', by rw [CycBuf.step, hrun]; rfl, hrep⟩
  | peek len => exact ⟨b, by rw [CycBuf.step, h.peek]; rfl, h⟩
  | reserve n =>
      obtain ⟨b', hrun, hrep, -⟩ := h.reserve n
      exact ⟨b', by rw [CycBuf.step, hrun]; rfl, hrep⟩
  | clear =>
      obtain ⟨b', hrun, hrep⟩ := h.clear
      exact ⟨b', by rw [CycBuf.step, hrun]; rfl, hrep⟩

/-- A run whose calls all meet `StepOk` answers as the queue does and keeps the
invariant. -/
theorem Rep.run (h : Rep b q) (ops : List CycBufOp) (hok : RunOk b ops) :
    ∃ b', b.run ops = some ((fifoRun q ops).1, b') ∧ Rep b' (fifoRun q ops).2 := by
  induction ops generalizing b q with
  | nil => exact ⟨b, rfl, h⟩
  | cons op ops ih =>
      obtain ⟨hop, hrest⟩ := hok
      obtain ⟨b1, hstep, hrep1⟩ := h.step op hop
      rw [hstep] at hrest
      obtain ⟨b2, hrun, hrep2⟩ := ih hrep1 hrest
      refine ⟨b2, ?_, hrep2⟩
      rw [CycBuf.run, hstep]
      show (b1.run ops).bind _ = _
      rw [hrun]
      rfl

end

/-- Every run whose calls all meet `StepOk`, on a buffer whose array size fits
`size_t`, is a run of the queue. -/
theorem fifoRun_of_runOk (size : Nat) (ops : List CycBufOp) (hsize : size + 4 < 2 ^ 64)
    (hok : RunOk (CycBuf.cycBuf size) ops) : FifoRun size ops := by
  obtain ⟨b, hrun, hrep⟩ := (rep_cycBuf hsize).run ops hok
  have hl := hrep.length_lt
  refine ⟨b, hrun, hrep.size_eq, ?_⟩
  rw [hrep.size_eq, hrep.capacity_eq]
  omega

/-- The calls of a buffer with room for three bytes that meet `StepOk`: the second
write wraps, and the read behind it empties the buffer. -/
theorem fifoRun_wrapping : FifoRun 3 [.write [1, 2], .read 2, .write [3, 4, 5], .read 9] :=
  fifoRun_of_runOk 3 _ (by decide) (by decide)

/-- The failing run. The second write ends at the end of the array, so the last read
leaves `_pbeg` at 0 and `_pend` at 4, and `size()` is 4 with no byte unread. -/
theorem not_fifoRun_of_drain :
    ¬ FifoRun 3 [.write [1, 2, 3], .read 3, .write [4], .read 1] := by
  rintro ⟨b, hrun, hsize, -⟩
  cases hrun
  exact absurd hsize (by decide)

end Mylib.Proofs.Comm
