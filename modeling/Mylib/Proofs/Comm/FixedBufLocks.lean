import Mylib.Proofs.Comm.FixedBufFifo

/-!
# `Mylib.Proofs.Comm.FixedBufLocks`: the write lock of `fixed_buf`

`WriteLockUsable size pre len mid` is the promise of `wlock`: when `wlock(len)`
returns a pointer after the calls `pre`, the `len` bytes behind it are inside the
array, and after the calls `mid`, none of which releases the lock, `wunlock` with at
most `len` bytes succeeds and appends what stands behind the pointer.

The promise fails in two ways. `wlock` cannot grow a read-locked buffer, and returns
a pointer all the same with `len` unchanged (`not_writeLockUsable_of_rlocked`). And
`read` moves `_ppos` while the write lock is held, which `runlock` refuses to do: the
pointer then no longer matches (`not_writeLockUsable_of_read`). `LockStepOk` rules
both out, and a growth that leaves `size_t`. `writeLockUsable_of_lockRunOk` proves the
promise of every run whose calls all meet it.

The invariant between the two calls is `WriteHeld b p len`: the lock is set, `p` is
where `_ppos` stands, and `len` bytes are free.
-/

set_option autoImplicit false

namespace Mylib.Proofs.Comm

open Mylib.Lib.Memory
open Mylib.Spec.Comm

/-! ### The promise -/

/-- The promise of `wlock(len)` after the calls `pre`, used after the calls `mid`. -/
def WriteLockUsable (size : Nat) (pre : List FixedBufOp) (len : Nat) (mid : List FixedBufOp) :
    Prop :=
  ∃ b₁ r b₂, (FixedBuf.fixedBuf size).run pre = some b₁ ∧ b₁.wlock len = some (r, b₂) ∧
    ∀ p, r = some p →
      (p.array = b₂.array ∧ p.off + len ≤ b₂.total) ∧
      ((∀ n, FixedBufOp.wunlock p n ∉ mid) →
        ∃ b₃, b₂.run mid = some b₃ ∧ ∀ n ≤ len,
          ∃ b₄, b₃.wunlock p n = (true, b₄) ∧
            contents b₄ = contents b₃ ++ slice b₃.data p.off n)

/-! ### The condition on a call -/

/-- The call does not reach the two defects. A `wlock` that has to grow finds the
buffer not read-locked and asks for an array whose size fits `size_t`. A read under
the write lock takes nothing. -/
def LockStepOk (b : FixedBuf) : FixedBufOp → Prop
  | .wlock len =>
      b.wlocked = false → b.avail < len →
        b.rlocked = false ∧
          b.capacity + max (len - b.avail) (b.capacity / 2) + 3 < 2 ^ 64
  | .read len => b.wlocked = true → b.rlocked = false → min len b.size = 0
  | _ => True

instance (b : FixedBuf) : (op : FixedBufOp) → Decidable (LockStepOk b op)
  | .wlock len => inferInstanceAs (Decidable (b.wlocked = false → b.avail < len →
      b.rlocked = false ∧ b.capacity + max (len - b.avail) (b.capacity / 2) + 3 < 2 ^ 64))
  | .read len =>
      inferInstanceAs (Decidable (b.wlocked = true → b.rlocked = false → min len b.size = 0))
  | .write _ => .isTrue trivial
  | .peek _ => .isTrue trivial
  | .reserve _ => .isTrue trivial
  | .clear => .isTrue trivial
  | .wunlock _ _ => .isTrue trivial
  | .rlock _ => .isTrue trivial
  | .runlock _ _ => .isTrue trivial
  | .store _ _ => .isTrue trivial

/-- Every call of the run meets `LockStepOk` in the state it is made in. -/
def LockRunOk (b : FixedBuf) : List FixedBufOp → Prop
  | [] => True
  | op :: ops => LockStepOk b op ∧ ((b.step op).elim True fun after => LockRunOk after.2 ops)

instance decidableLockRunOk (b : FixedBuf) : (ops : List FixedBufOp) → Decidable (LockRunOk b ops)
  | [] => .isTrue trivial
  | op :: ops =>
      have : Decidable ((b.step op).elim True fun after => LockRunOk after.2 ops) :=
        match b.step op with
        | none => .isTrue trivial
        | some after => decidableLockRunOk after.2 ops
      inferInstanceAs (Decidable (_ ∧ _))

/-! ### The invariant under the lock -/

/-- The write lock on `len` bytes at `p` is held. -/
structure WriteHeld (b : FixedBuf) (p : BufPtr) (len : Nat) : Prop where
  linear : Linear b
  wlocked : b.wlocked = true
  here : p = ⟨b.array, b.ppos⟩
  room : b.ppos + len ≤ b.total

section
variable {b : FixedBuf} {p : BufPtr} {len : Nat}

/-- A growth whose request fits `size_t` makes room for `len` bytes. -/
theorem Linear.makeRoom_room (h : Linear b) (hw : b.wlocked = false)
    (hok : LockStepOk b (.wlock len)) :
    ∃ b', b.makeRoom len = some b' ∧ Moved b b' ∧ b'.ppos + len ≤ b'.total := by
  have ht := h.total_lt
  have hp := h.ppos_le
  have ha := h.avail_eq
  rw [FixedBuf.makeRoom]
  -- Growing needs a buffer without locks, which the condition says.
  by_cases hfew : b.avail < len
  · obtain ⟨hr, hfit⟩ := hok hw hfew
    simp only [FixedBuf.capacity] at hfit
    have hfree : b.anyLocked = false := by simp [FixedBuf.anyLocked, hr, hw]
    obtain ⟨b', hrun, hmoved, -, hgrown⟩ := h.reserve (growSize b.capacity (szSub len b.avail))
    refine ⟨b', by rw [if_pos hfew, FixedBuf.grow, hrun]; rfl, hmoved, ?_⟩
    have hsub : szSub len b.avail = len - b.avail := by
      simp only [szSub]
      omega
    -- The growth is what is missing, rounded up.
    have halign : b.total + (len - b.avail) ≤ dwordAlign (growSize b.total (len - b.avail)) := by
      simp only [dwordAlign, growSize, szAdd]
      omega
    have htotal := hgrown hfree
    rw [hsub, FixedBuf.capacity] at htotal
    rw [hmoved.ppos_eq]
    omega
  · exact ⟨b, if_neg hfew, h.moved, by omega⟩

/-- A `wlock` that returns a pointer leaves the lock held there. -/
theorem Linear.wlock_held (h : Linear b) (hok : LockStepOk b (.wlock len)) :
    ∃ r b', b.wlock len = some (r, b') ∧ Linear b' ∧ ∀ p, r = some p → WriteHeld b' p len := by
  rw [FixedBuf.wlock]
  by_cases hw : b.wlocked = true
  · exact ⟨none, b, if_pos hw, h, by simp⟩
  · obtain ⟨b₁, hroom, hmoved, hfits⟩ := h.makeRoom_room (by simpa using hw) hok
    have hlin : Linear { b₁ with wlocked := true } :=
      ⟨hmoved.linear.data_length, hmoved.linear.total_lt, hmoved.linear.ppos_le⟩
    refine ⟨some ⟨b₁.array, b₁.ppos⟩, { b₁ with wlocked := true },
      by rw [if_neg hw, hroom]; rfl, hlin, ?_⟩
    intro p hp
    cases hp
    exact ⟨hlin, rfl, rfl, hfits⟩

/-- Under the lock a read moves nothing. -/
theorem WriteHeld.read (h : WriteHeld b p len) {k : Nat} (hok : LockStepOk b (.read k)) :
    ∃ out b', b.read k = some (out, b') ∧ WriteHeld b' p len := by
  rw [FixedBuf.read]
  by_cases hr : b.rlocked = true
  · exact ⟨[], b, if_pos hr, h⟩
  · have hfree : b.rlocked = false := by simpa using hr
    obtain ⟨out, hpeek, -, hle, hcount⟩ := h.linear.peek k
    have hzero : out.length = 0 := (hcount hfree).trans (hok h.wlocked hfree)
    obtain ⟨b', hdrop, hlin, -, hpos, harr, htot, -, hwl⟩ := h.linear.dropFront hle
    rw [hzero, Nat.sub_zero] at hpos
    refine ⟨out, b', ?_, hlin, hwl.trans h.wlocked, ?_, ?_⟩
    · rw [if_neg hr, hpeek]
      show (b.dropFront out.length).bind _ = _
      rw [hdrop]
      rfl
    · rw [harr, hpos]
      exact h.here
    · rw [hpos, htot]
      exact h.room

/-- The fields `WriteHeld` reads are the same in `b'`. -/
theorem WriteHeld.of_moved (h : WriteHeld b p len) {b' : FixedBuf} (hmoved : Moved b b')
    (harr : b'.array = b.array) (htot : b'.total = b.total) : WriteHeld b' p len where
  linear := hmoved.linear
  wlocked := hmoved.wlocked_eq.trans h.wlocked
  here := by
    rw [harr, hmoved.ppos_eq]
    exact h.here
  room := by
    rw [htot, hmoved.ppos_eq]
    exact h.room

/-- Every call but the release of the lock keeps it held. -/
theorem WriteHeld.step (h : WriteHeld b p len) (op : FixedBufOp) (hok : LockStepOk b op)
    (hother : ∀ n, op ≠ .wunlock p n) : ∃ r b', b.step op = some (r, b') ∧ WriteHeld b' p len := by
  have hw := h.wlocked
  have hany : b.anyLocked = true := by simp [FixedBuf.anyLocked, hw]
  cases op with
  | write bs => exact ⟨.count 0, b, by simp [FixedBuf.step, FixedBuf.write, hw], h⟩
  | read k =>
      obtain ⟨out, b', hrun, hheld⟩ := h.read hok
      exact ⟨.bytes out, b', by rw [FixedBuf.step, hrun]; rfl, hheld⟩
  | peek k =>
      obtain ⟨out, hrun, -⟩ := h.linear.peek k
      exact ⟨.bytes out, b, by rw [FixedBuf.step, hrun]; rfl, h⟩
  | reserve n => exact ⟨.flag false, b, by simp [FixedBuf.step, FixedBuf.reserve, hany], h⟩
  | clear => exact ⟨.flag false, b, by simp [FixedBuf.step, FixedBuf.clear, hany], h⟩
  | wlock k => exact ⟨.region none, b, by simp [FixedBuf.step, FixedBuf.wlock, hw], h⟩
  | wunlock p' n =>
      -- Another pointer is not where `_ppos` stands, so the call is refused.
      have hne : p' ≠ ⟨b.array, b.ppos⟩ := by
        intro heq
        exact hother n (by rw [heq, ← h.here])
      exact ⟨.flag false, b, by simp [FixedBuf.step, FixedBuf.wunlock, hw, hne], h⟩
  | rlock k =>
      by_cases hr : b.rlocked = true
      · exact ⟨.region none, b, by simp [FixedBuf.step, FixedBuf.rlock, hr], h⟩
      · have hlin := h.linear
        exact ⟨.region (some (⟨b.array, 0⟩, min b.size k)), { b with rlocked := true },
          by simp [FixedBuf.step, FixedBuf.rlock, hr],
          ⟨hlin.data_length, hlin.total_lt, hlin.ppos_le⟩, hw, h.here, h.room⟩
  | runlock p' n =>
      exact ⟨.flag false, b, by simp [FixedBuf.step, FixedBuf.runlock, hw], h⟩
  | store off bs =>
      refine ⟨.stored, b.store off bs, rfl, h.of_moved (h.linear.store off bs) ?_ ?_⟩
      · rw [FixedBuf.store]
        split <;> rfl
      · rw [FixedBuf.store]
        split <;> rfl

/-- The lock stays held along a run that does not release it. -/
theorem WriteHeld.run (h : WriteHeld b p len) (ops : List FixedBufOp) (hok : LockRunOk b ops)
    (hother : ∀ n, FixedBufOp.wunlock p n ∉ ops) :
    ∃ b', b.run ops = some b' ∧ WriteHeld b' p len := by
  induction ops generalizing b with
  | nil => exact ⟨b, rfl, h⟩
  | cons op ops ih =>
      obtain ⟨hop, hrest⟩ := hok
      obtain ⟨r, b₁, hstep, hheld⟩ := h.step op hop
        (fun n heq => hother n (heq ▸ List.mem_cons_self))
      rw [hstep] at hrest
      obtain ⟨b₂, hrun, hheld₂⟩ := ih hheld hrest fun n hmem =>
        hother n (List.mem_cons_of_mem _ hmem)
      exact ⟨b₂, by rw [FixedBuf.run, hstep]; exact hrun, hheld₂⟩

/-- The release of a held lock commits the cells behind the pointer. -/
theorem WriteHeld.wunlock (h : WriteHeld b p len) {n : Nat} (hn : n ≤ len) :
    ∃ b', b.wunlock p n = (true, b') ∧ contents b' = contents b ++ slice b.data p.off n := by
  have ha := h.linear.avail_eq
  have hroom := h.room
  rcases h.linear.wunlock p n with hno | ⟨b', hyes, -, hcont⟩
  · have hfits : ¬ b.avail < n := by omega
    simp [FixedBuf.wunlock, h.wlocked, ← h.here, hfits] at hno
  · exact ⟨b', hyes, hcont⟩

end

/-! ### Whole runs -/

/-- No call of a run leaves the array, and the condition holds of the calls that
follow it. -/
theorem Linear.run_append {b : FixedBuf} (h : Linear b) (pre ops : List FixedBufOp)
    (hok : LockRunOk b (pre ++ ops)) :
    ∃ b', b.run pre = some b' ∧ Linear b' ∧ LockRunOk b' ops := by
  induction pre generalizing b with
  | nil => exact ⟨b, rfl, h, hok⟩
  | cons op pre ih =>
      obtain ⟨-, hrest⟩ := hok
      obtain ⟨r, b₁, hstep, hlin, -⟩ := h.step op
      rw [hstep] at hrest
      obtain ⟨b₂, hrun, hlin₂, hok₂⟩ := ih hlin hrest
      exact ⟨b₂, by rw [FixedBuf.run, hstep]; exact hrun, hlin₂, hok₂⟩

/-- The promise of `wlock` holds along every run whose calls all meet
`LockStepOk`. -/
theorem writeLockUsable_of_lockRunOk (size : Nat) (pre : List FixedBufOp) (len : Nat)
    (mid : List FixedBufOp)
    (hok : LockRunOk (FixedBuf.fixedBuf size) (pre ++ FixedBufOp.wlock len :: mid)) :
    WriteLockUsable size pre len mid := by
  obtain ⟨b₁, hrun₁, hlin₁, hlock, hmid⟩ :=
    (linear_fixedBuf size).run_append pre (FixedBufOp.wlock len :: mid) hok
  obtain ⟨r, b₂, hwlock, -, hheld⟩ := hlin₁.wlock_held hlock
  have hstep : b₁.step (.wlock len) = some (.region (r.map fun p => (p, len)), b₂) := by
    rw [FixedBuf.step, hwlock]
    rfl
  rw [hstep] at hmid
  refine ⟨b₁, r, b₂, hrun₁, hwlock, ?_⟩
  intro p hp
  have hp₂ := hheld p hp
  refine ⟨⟨by rw [hp₂.here], by rw [hp₂.here]; exact hp₂.room⟩, ?_⟩
  intro hother
  obtain ⟨b₃, hrun₃, hp₃⟩ := hp₂.run mid hmid hother
  exact ⟨b₃, hrun₃, fun n hn => hp₃.wunlock hn⟩

/-- A lock that makes the buffer grow, with stores, a read lock and refused calls
before the release. -/
theorem writeLockUsable_growing :
    WriteLockUsable 4 [.write [1, 2, 3]] 6
      [.store 3 [7, 8], .rlock 2, .write [9], .read 3, .runlock ⟨1, 0⟩ 1] :=
  writeLockUsable_of_lockRunOk _ _ _ _ (by decide)

/-- The first failing run: the read lock keeps the buffer from growing, and the eight
bytes behind the pointer end outside the array of four. -/
theorem not_writeLockUsable_of_rlocked : ¬ WriteLockUsable 4 [.write [1, 2, 3], .rlock 4] 8 [] := by
  intro ⟨b₁, r, b₂, hrun, hwlock, hp⟩
  have hb₁ : (FixedBuf.fixedBuf 4).run [.write [1, 2, 3], .rlock 4]
      = some ⟨0, [some 1, some 2, some 3, none], 4, 3, true, false⟩ := by decide
  rw [hb₁] at hrun
  cases hrun
  have hb₂ : FixedBuf.wlock ⟨0, [some 1, some 2, some 3, none], 4, 3, true, false⟩ 8
      = some (some ⟨0, 3⟩, ⟨0, [some 1, some 2, some 3, none], 4, 3, true, true⟩) := by decide
  rw [hb₂] at hwlock
  cases hwlock
  exact absurd (hp ⟨0, 3⟩ rfl).1.2 (by decide)

/-- The second failing run: the read moves `_ppos` away from the pointer. -/
theorem not_writeLockUsable_of_read : ¬ WriteLockUsable 4 [.write [1, 2, 3]] 1 [.read 1] := by
  intro ⟨b₁, r, b₂, hrun, hwlock, hp⟩
  -- Three bytes have been written.
  have hb₁ : (FixedBuf.fixedBuf 4).run [.write [1, 2, 3]]
      = some ⟨0, [some 1, some 2, some 3, none], 4, 3, false, false⟩ := by decide
  rw [hb₁] at hrun
  cases hrun
  -- Room for one more is locked, at index 3.
  have hb₂ : FixedBuf.wlock ⟨0, [some 1, some 2, some 3, none], 4, 3, false, false⟩ 1
      = some (some ⟨0, 3⟩, ⟨0, [some 1, some 2, some 3, none], 4, 3, false, true⟩) := by decide
  rw [hb₂] at hwlock
  cases hwlock
  obtain ⟨b₃, hrun₃, hrelease⟩ := (hp ⟨0, 3⟩ rfl).2 (by simp)
  -- A read moves the contents to the front, the end with them.
  have hb₃ : FixedBuf.run ⟨0, [some 1, some 2, some 3, none], 4, 3, false, true⟩ [.read 1]
      = some ⟨0, [some 2, some 3, some 3, none], 4, 2, false, true⟩ := by decide
  rw [hb₃] at hrun₃
  cases hrun₃
  obtain ⟨b₄, hun, -⟩ := hrelease 1 (Nat.le_refl 1)
  -- The region does not begin at the end any more, so its unlock is refused.
  have hrefused : FixedBuf.wunlock ⟨0, [some 2, some 3, some 3, none], 4, 2, false, true⟩ ⟨0, 3⟩ 1
      = (false, ⟨0, [some 2, some 3, some 3, none], 4, 2, false, true⟩) := by decide
  rw [hrefused] at hun
  cases hun

end Mylib.Proofs.Comm
