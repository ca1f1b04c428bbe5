import Mylib.Proofs.Comm.CycBufRepos

/-!
# `Mylib.Proofs.Comm.CycBufRegions`: the regions `cyc_buf` hands out

`RegionStable side size pre len mid` is the promise of `rlock` and `wlock` on an
elastic buffer: the region handed out after the calls `pre` is, after the calls `mid`
that do not release it, at the same place inside the same array, holds only cells of
its own side, holds the same bytes when it is a read region, and can be released with
any length up to the one returned.

The promise fails where one side's slow path ignores the other side's lock. `wlock`
repositions the bytes of a read region (`not_regionStable_of_repos`) or returns a
region for which the refused growth made no room; `rlock` moves `_pend` away from
a write region; `write` copies over unread bytes when it could not grow. Outside the
locks, a read that drains a buffer whose `_pend` stands at the end of the array breaks
the pointers. `RegionStepOk` rules these calls out, and a growth that leaves `size_t`.
`regionStable_of_regionRunOk` proves the promise of every run whose calls all meet it.

What a step leaves to the holder of a lock is `WriteFrame` and `ReadFrame`; one lemma,
`Layout.step`, says of every call that it keeps `Layout` and both frames.
-/

set_option autoImplicit false

namespace Mylib.Proofs.Comm

open Mylib.Lib.Memory
open Mylib.Spec.Comm

/-! ### The promise -/

/-- The cell at offset `i` holds an unread byte. -/
def Unread (b : CycBuf) (i : Nat) : Prop :=
  if b.pbeg ≤ b.pend then b.pbeg ≤ i ∧ i < b.pend else (b.pbeg ≤ i ∧ i < b.total) ∨ i < b.pend

/-- The two sides of a buffer. -/
inductive Side where
  | read
  | write
  deriving DecidableEq

def Side.lock : Side → Nat → ElasticBufOp
  | .read, len => .rlock len
  | .write, len => .wlock len

def Side.unlock : Side → BufPtr → Nat → ElasticBufOp
  | .read, p, n => .runlock p n
  | .write, p, n => .wunlock p n

/-- The cells of a side: the unread ones, and the others. -/
def Side.Owns (b : CycBuf) : Side → Nat → Prop
  | .read, i => Unread b i
  | .write, i => ¬ Unread b i

/-- The promise of a lock on `len` bytes taken after the calls `pre`, used after the calls
`mid`. -/
def RegionStable (side : Side) (size : Nat) (pre : List ElasticBufOp) (len : Nat)
    (mid : List ElasticBufOp) : Prop :=
  ∃ b₁ r b₂, (ElasticBuf.elasticBuf size).run pre = some b₁ ∧
    b₁.step (side.lock len) = some (.region r, b₂) ∧
    ∀ p n, r = some (p, n) → (∀ k, side.unlock p k ∉ mid) →
      ∃ b₃, b₂.run mid = some b₃ ∧
        (p.array = b₃.array ∧ p.off + n ≤ b₃.buf.total) ∧
        (∀ i, p.off ≤ i → i < p.off + n → side.Owns b₃.buf i) ∧
        (side = .read → slice b₃.buf.data p.off n = slice b₂.buf.data p.off n) ∧
        ∀ k ≤ n, ∃ b₄, b₃.step (side.unlock p k) = some (.flag true, b₄)

/-! ### The condition on a call -/

/-- The call does not reach the defects. A `write` or `wlock` that has to grow finds no
read lock and asks for an array whose size fits `size_t`. A `wlock` under a read lock
and an `rlock` under a write lock find their bytes in one piece. A read does not drain
the buffer while `_pend` stands at the end of the array. -/
def RegionStepOk (b : ElasticBuf) : ElasticBufOp → Prop
  | .call (.write bs) =>
      b.buf.wlocked = false → b.buf.avail < bs.length →
        b.buf.rlocked = false ∧ GrowthFits b.buf (bs.length - b.buf.avail)
  | .call (.read len) =>
      b.buf.rlocked = false →
        ¬ (b.buf.pend = b.buf.total ∧ b.buf.total - b.buf.pbeg ≤ len)
  | .wlock len =>
      b.buf.wlocked = false →
        (b.buf.avail < len →
          b.buf.rlocked = false ∧ GrowthFits b.buf (len - b.buf.avail)) ∧
        (b.buf.rlocked = true → len ≤ b.buf.total - b.buf.pend)
  | .rlock len =>
      b.buf.rlocked = false → b.buf.wlocked = true →
        min len b.buf.size ≤ b.buf.total - b.buf.pbeg ∨ b.buf.pbeg = b.buf.total
  | _ => True

instance (b : ElasticBuf) : (op : ElasticBufOp) → Decidable (RegionStepOk b op)
  | .call (.write bs) => inferInstanceAs (Decidable (b.buf.wlocked = false →
      b.buf.avail < bs.length →
        b.buf.rlocked = false ∧ GrowthFits b.buf (bs.length - b.buf.avail)))
  | .call (.read len) => inferInstanceAs (Decidable (b.buf.rlocked = false →
      ¬ (b.buf.pend = b.buf.total ∧ b.buf.total - b.buf.pbeg ≤ len)))
  | .wlock len => inferInstanceAs (Decidable (b.buf.wlocked = false →
      (b.buf.avail < len → b.buf.rlocked = false ∧ GrowthFits b.buf (len - b.buf.avail)) ∧
        (b.buf.rlocked = true → len ≤ b.buf.total - b.buf.pend)))
  | .rlock len => inferInstanceAs (Decidable (b.buf.rlocked = false → b.buf.wlocked = true →
      min len b.buf.size ≤ b.buf.total - b.buf.pbeg ∨ b.buf.pbeg = b.buf.total))
  | .call (.peek _) => .isTrue trivial
  | .call (.reserve _) => .isTrue trivial
  | .call .clear => .isTrue trivial
  | .wunlock _ _ => .isTrue trivial
  | .runlock _ _ => .isTrue trivial
  | .store _ _ => .isTrue trivial

/-- Every call of the run meets `RegionStepOk` in the state it is made in. -/
def RegionRunOk (b : ElasticBuf) : List ElasticBufOp → Prop
  | [] => True
  | op :: ops => RegionStepOk b op ∧ ((b.step op).elim True fun after => RegionRunOk after.2 ops)

instance decidableRegionRunOk (b : ElasticBuf) :
    (ops : List ElasticBufOp) → Decidable (RegionRunOk b ops)
  | [] => .isTrue trivial
  | op :: ops =>
      have : Decidable ((b.step op).elim True fun after => RegionRunOk after.2 ops) :=
        match b.step op with
        | none => .isTrue trivial
        | some after => decidableRegionRunOk after.2 ops
      inferInstanceAs (Decidable (_ ∧ _))

/-! ### What a step leaves to the holder of a lock -/

/-- What the holder of the write lock relies on. -/
structure WriteFrame (b b' : ElasticBuf) : Prop where
  array_eq : b'.array = b.array
  wlocked_eq : b'.buf.wlocked = b.buf.wlocked
  pend_eq : b'.buf.pend = b.buf.pend
  total_eq : b'.buf.total = b.buf.total
  size_le : b'.buf.size ≤ b.buf.size

/-- What the holder of the read lock relies on. -/
structure ReadFrame (b b' : ElasticBuf) : Prop where
  array_eq : b'.array = b.array
  rlocked_eq : b'.buf.rlocked = b.buf.rlocked
  pbeg_eq : b'.buf.pbeg = b.buf.pbeg
  total_eq : b'.buf.total = b.buf.total
  size_ge : b.buf.size ≤ b'.buf.size
  slice_eq : ∀ n ≤ b.buf.size, b.buf.pbeg + n ≤ b.buf.total →
    slice b'.buf.data b.buf.pbeg n = slice b.buf.data b.buf.pbeg n

/-- Nothing has changed outside of the free part. -/
theorem WriteFrame.refl (b : ElasticBuf) : WriteFrame b b := ⟨rfl, rfl, rfl, rfl, Nat.le_refl _⟩

/-- Nothing has changed in the unread part. -/
theorem ReadFrame.refl (b : ElasticBuf) : ReadFrame b b :=
  ⟨rfl, rfl, rfl, rfl, Nat.le_refl _, fun _ _ _ => rfl⟩

/-- The call returned `b'`, which keeps `Layout` and what the holders of the two locks
rely on, unless it is the release of their own lock. -/
structure Kept (b : ElasticBuf) (op : ElasticBufOp) (b' : ElasticBuf) : Prop where
  layout : Layout b'.buf
  write : b.buf.wlocked = true → (∀ n, op ≠ .wunlock ⟨b.array, b.buf.pend⟩ n) → WriteFrame b b'
  read : b.buf.rlocked = true → (∀ n, op ≠ .runlock ⟨b.array, b.buf.pbeg⟩ n) → ReadFrame b b'

/-- An operation that does nothing keeps both parts. -/
theorem Layout.kept {b : ElasticBuf} (h : Layout b.buf) (op : ElasticBufOp) : Kept b op b :=
  ⟨h, fun _ _ => .refl b, fun _ _ => .refl b⟩

section
variable {b : ElasticBuf}

/-- The array is the same as long as its size is. -/
theorem after_array {buf : CycBuf} (htotal : buf.total = b.buf.total) :
    (b.after buf).array = b.array := if_pos htotal

/-- The buffer after a call on it. -/
@[simp] theorem after_buf (buf : CycBuf) : (b.after buf).buf = buf := rfl

/-! ### The calls without a pointer -/

/-- A write keeps the regions that the condition names. -/
theorem Layout.call_write (h : Layout b.buf) (bs : List UInt8)
    (hok : RegionStepOk b (.call (.write bs))) :
    ∃ n buf, b.buf.write bs = some (n, buf) ∧ Kept b (.call (.write bs)) (b.after buf) := by
  have ha := h.avail_eq
  have ht := h.total_lt
  -- A locked buffer refuses the write.
  by_cases hw : b.buf.wlocked = true
  · have hsame : b.after b.buf = b := by simp [ElasticBuf.after]
    exact ⟨0, b.buf, by simp [CycBuf.write, hw], by rw [hsame]; exact h.kept _⟩
  have hopen : b.buf.wlocked = false := by simpa using hw
  by_cases hfew : b.buf.avail < bs.length
  · -- The buffer grows: nobody holds a lock.
    obtain ⟨hr, hfit⟩ := hok hopen hfew
    have hfree : b.buf.anyLocked = false := by simp [CycBuf.anyLocked, hopen, hr]
    have hlt := h.size_lt
    have hsub : szSub bs.length b.buf.avail = bs.length - b.buf.avail := by
      simp only [GrowthFits] at hfit
      simp only [szSub]
      omega
    obtain ⟨b₁, hgrow, hlay₁, hsize₁, -, htotal₁, -⟩ := h.grow hfree hfit
    obtain ⟨b₂, happ, hlay₂, -⟩ := hlay₁.append bs (by rw [hlay₁.avail_eq]; omega)
    refine ⟨bs.length, b₂, ?_, hlay₂, by simp [hopen], by simp [hr]⟩
    simp only [CycBuf.write, hopen, Bool.false_eq_true, if_false, if_pos hfew, hsub, hgrow,
      Option.bind_eq_bind, Option.bind_some, happ]
    rfl
  -- There is room, so the bytes are put into the free part.
  · obtain ⟨b₂, happ, hlay₂, hsize₂, hpbeg, htotal, hlocks, hslice⟩ :=
      h.append bs (Nat.not_lt.mp hfew)
    refine ⟨bs.length, b₂, ?_, hlay₂, by simp [hopen], ?_⟩
    · simp only [CycBuf.write, hopen, Bool.false_eq_true, if_false, if_neg hfew,
        Option.bind_eq_bind, Option.bind_some, happ]
      rfl
    · intro _ _
      exact ⟨after_array htotal, hlocks.rlocked_eq, hpbeg, htotal,
        by rw [after_buf]; omega, hslice⟩

/-- A read does. -/
theorem Layout.call_read (h : Layout b.buf) (len : Nat)
    (hok : RegionStepOk b (.call (.read len))) :
    ∃ out buf, b.buf.read len = some (out, buf) ∧ Kept b (.call (.read len)) (b.after buf) := by
  by_cases hr : b.buf.rlocked = true
  · have hsame : b.after b.buf = b := by simp [ElasticBuf.after]
    exact ⟨[], b.buf, by simp [CycBuf.read, hr], by rw [hsame]; exact h.kept _⟩
  obtain ⟨out, b', hrun, hlay, hsize, hpend, -, htotal, hlocks⟩ := h.read len hok
  refine ⟨out, b', hrun, hlay, ?_, by simp [hr]⟩
  intro _ _
  exact ⟨after_array htotal, hlocks.wlocked_eq, hpend, htotal, hsize⟩

/-- A call that hands out no pointer. -/
theorem Layout.call (h : Layout b.buf) (op : CycBufOp) (hok : RegionStepOk b (.call op)) :
    ∃ r b', b.step (.call op) = some (.plain r, b') ∧ Kept b (.call op) b' := by
  have hsame : b.after b.buf = b := by simp [ElasticBuf.after]
  cases op with
  | write bs =>
      obtain ⟨n, buf, hrun, hkept⟩ := h.call_write bs hok
      exact ⟨.count n, _, by rw [ElasticBuf.step, CycBuf.step, hrun]; rfl, hkept⟩
  | read len =>
      obtain ⟨out, buf, hrun, hkept⟩ := h.call_read len hok
      exact ⟨.bytes out, _, by rw [ElasticBuf.step, CycBuf.step, hrun]; rfl, hkept⟩
  | peek len =>
      obtain ⟨out, hrun, -⟩ := h.peek len
      refine ⟨.bytes out, b.after b.buf, by rw [ElasticBuf.step, CycBuf.step, hrun]; rfl, ?_⟩
      rw [hsame]
      exact h.kept _
  | reserve n =>
      obtain ⟨buf, hrun, hlay, -, -, hlocked, -⟩ := h.reserve n
      refine ⟨.flag (!b.buf.anyLocked), b.after buf,
        by rw [ElasticBuf.step, CycBuf.step, hrun]; rfl, hlay, ?_, ?_⟩
      · intro hw _
        -- A locked buffer refuses, so there is no growth under a region.
        rw [hlocked (by simp [CycBuf.anyLocked, hw]), hsame]
        exact .refl b
      · intro hr _
        rw [hlocked (by simp [CycBuf.anyLocked, hr]), hsame]
        exact .refl b
  | clear =>
      by_cases hlock : b.buf.anyLocked = true
      · refine ⟨.flag false, b.after b.buf,
          by simp [ElasticBuf.step, CycBuf.step, CycBuf.clear, hlock], ?_⟩
        rw [hsame]
        exact h.kept _
      · have hfree : b.buf.wlocked = false ∧ b.buf.rlocked = false := by
          simpa [CycBuf.anyLocked] using hlock
        refine ⟨.flag true, b.after { b.buf with pbeg := 0, pend := 0 },
          by simp [ElasticBuf.step, CycBuf.step, CycBuf.clear, hlock], ?_, by simp [hfree.1],
          by simp [hfree.2]⟩
        exact ⟨h.data_length, h.total_lt, h.total_pos, Nat.zero_le _, Nat.zero_le _,
          fun _ => h.total_pos⟩

/-! ### The locks -/

/-- The write lock on `n` bytes at `p` is held. -/
structure WriteRegion (b : ElasticBuf) (p : BufPtr) (n : Nat) : Prop where
  wlocked : b.buf.wlocked = true
  here : p = ⟨b.array, b.buf.pend⟩
  free : n ≤ b.buf.avail
  inside : b.buf.pend + n ≤ b.buf.total

/-- The read lock on `n` bytes at `p` is held. -/
structure ReadRegion (b : ElasticBuf) (p : BufPtr) (n : Nat) : Prop where
  rlocked : b.buf.rlocked = true
  here : p = ⟨b.array, b.buf.pbeg⟩
  unread : n ≤ b.buf.size
  inside : b.buf.pbeg + n ≤ b.buf.total

/-- The flags do not move the pointers. -/
theorem Layout.set_locks {buf : CycBuf} (h : Layout buf) (r w : Bool) :
    Layout { buf with rlocked := r, wlocked := w } :=
  ⟨h.data_length, h.total_lt, h.total_pos, h.pbeg_le, h.pend_le, h.free⟩

/-- When `len` bytes are free, they are in one piece behind `_pend` after the
repositioning. It is reached only with the unread bytes in one piece. -/
theorem Layout.wlock_repos (h : Layout b.buf) {len : Nat} (hlen : len ≤ b.buf.avail) :
    ∃ b', b.onePiece (b.buf.total - b.buf.pend) len = some b' ∧
      Layout b'.buf ∧ len ≤ b'.buf.avail ∧ b'.buf.pend + len ≤ b'.buf.total ∧
      SameLocks b.buf b'.buf := by
  have ha := h.avail_eq
  have hlt := h.size_lt
  have he := h.pend_le
  have hsize := h.size_cases
  by_cases hshort : b.buf.total - b.buf.pend < len
  · have hb := h.pbeg_le
    -- With a wrap all free bytes lie between the pointers, so too few in a row means there is none.
    have hflat : b.buf.pbeg ≤ b.buf.pend := by omega
    obtain ⟨data, hdata, -, hrun⟩ := h.inArray.reposFuel_flat hflat b.array
    obtain ⟨hlay, hsame⟩ := layout_of_pointers (r := b.buf.rlocked) (w := b.buf.wlocked) hdata
      h.total_lt (Nat.zero_le b.buf.size) (by omega) (by omega)
    rw [Nat.sub_zero] at hsame
    refine ⟨⟨b.array, { b.buf with data := data, pbeg := 0, pend := b.buf.size }⟩,
      (if_pos hshort).trans (hrun 1), hlay, ?_, ?_, rfl, rfl⟩
    · rw [hlay.avail_eq]
      simp only [hsame]
      omega
    · show b.buf.size + len ≤ b.buf.total
      omega
  · exact ⟨b, if_neg hshort, h, hlen, by omega, rfl, rfl⟩

/-- `wlock` hands out free cells in one piece and keeps what the reader relies on. -/
theorem Layout.wlock (h : Layout b.buf) (len : Nat) (hok : RegionStepOk b (.wlock len)) :
    ∃ r b', b.wlock len = some (r, b') ∧ Kept b (.wlock len) b' ∧
      ∀ p n, r = some (p, n) → WriteRegion b' p n := by
  have ha := h.avail_eq
  have ht := h.total_lt
  have hlt := h.size_lt
  have he := h.pend_le
  by_cases hw : b.buf.wlocked = true
  · exact ⟨none, b, by simp [ElasticBuf.wlock, hw], h.kept _, by simp⟩
  have hopen : b.buf.wlocked = false := by simpa using hw
  obtain ⟨hgrowth, hpiece⟩ := hok hopen
  -- What `makeRoom` and `_repos` return, when the buffer is not read-locked.
  have hroom : ∃ b₁ b₂, b.makeRoom len = some b₁ ∧
      b₁.onePiece (b₁.buf.total - b₁.buf.pend) len = some b₂ ∧
      Layout b₂.buf ∧ len ≤ b₂.buf.avail ∧ b₂.buf.pend + len ≤ b₂.buf.total ∧
      (b.buf.rlocked = true → b₂ = b) := by
    by_cases hfew : b.buf.avail < len
    · obtain ⟨hr, hfit⟩ := hgrowth hfew
      have hfree : b.buf.anyLocked = false := by simp [CycBuf.anyLocked, hopen, hr]
      have hsub : szSub len b.buf.avail = len - b.buf.avail := by
        simp only [GrowthFits] at hfit
        simp only [szSub]
        omega
      obtain ⟨buf₁, hgrow, hlay₁, hsize₁, -, htotal₁, -⟩ := h.grow hfree hfit
      have hlay₁' : Layout (b.after buf₁).buf := hlay₁
      have hroom : len ≤ (b.after buf₁).buf.avail := by
        rw [hlay₁'.avail_eq, after_buf]
        omega
      obtain ⟨b₂, hrepos, hlay₂, havail₂, hin₂, -⟩ := hlay₁'.wlock_repos hroom
      refine ⟨b.after buf₁, b₂, ?_, hrepos, hlay₂, havail₂, hin₂, by simp [hr]⟩
      rw [ElasticBuf.makeRoom, if_pos hfew, hsub, hgrow]
      rfl
    · have hroom₁ : b.makeRoom len = some b := if_neg hfew
      by_cases hr : b.buf.rlocked = true
      · have hone := hpiece hr
        exact ⟨b, b, hroom₁, if_neg (by omega), h, by omega, by omega, fun _ => rfl⟩
      · obtain ⟨b₂, hrepos, hlay₂, havail₂, hin₂, -⟩ := h.wlock_repos (Nat.not_lt.mp hfew)
        exact ⟨b, b₂, hroom₁, hrepos, hlay₂, havail₂, hin₂, by simp [hr]⟩
  obtain ⟨b₁, b₂, hmake, hrepos, hlay₂, havail₂, hin₂, hsame⟩ := hroom
  have hlay₃ := hlay₂.set_locks b₂.buf.rlocked true
  refine ⟨some (⟨b₂.array, b₂.buf.pend⟩, len),
    { b₂ with buf := { b₂.buf with wlocked := true } }, ?_, ⟨hlay₃, by simp [hopen], ?_⟩, ?_⟩
  · rw [ElasticBuf.wlock, if_neg hw, hmake, Option.bind_eq_bind, Option.bind_some, hrepos]
    rfl
  · intro hr _
    rw [hsame hr]
    exact ⟨rfl, rfl, rfl, rfl, Nat.le_refl _, fun _ _ _ => rfl⟩
  · intro p n hp
    cases hp
    exact ⟨rfl, rfl, havail₂, hin₂⟩

/-- `rlock` hands out unread bytes in one piece and keeps what the writer relies on. -/
theorem Layout.rlock (h : Layout b.buf) (len : Nat) (hok : RegionStepOk b (.rlock len)) :
    ∃ r b', b.rlock len = some (r, b') ∧ Kept b (.rlock len) b' ∧
      ∀ p n, r = some (p, n) → ReadRegion b' p n := by
  have hb := h.pbeg_le
  have he := h.pend_le
  have hsize := h.size_cases
  have hlt := h.size_lt
  by_cases hr : b.buf.rlocked = true
  · exact ⟨none, b, by simp [ElasticBuf.rlock, hr], h.kept _, by simp⟩
  have hopen : b.buf.rlocked = false := by simpa using hr
  -- What `_repos` returns. With the write lock set it is reached only when `_pbeg` is at
  -- the end of the array, and then leaves `_pend` where it is.
  have hroom : ∃ b₁,
      b.onePiece (b.buf.total - b.buf.pbeg) (min len b.buf.size) = some b₁ ∧
      Layout b₁.buf ∧ min len b.buf.size ≤ b₁.buf.size ∧
      b₁.buf.pbeg + min len b.buf.size ≤ b₁.buf.total ∧
      (b.buf.wlocked = true → WriteFrame b b₁) := by
    by_cases hshort : b.buf.total - b.buf.pbeg < min len b.buf.size
    · rw [ElasticBuf.onePiece, if_pos hshort]
      by_cases hw : b.buf.wlocked = true
      · have hend : b.buf.pbeg = b.buf.total := by
          rcases hok hopen hw with hone | hend
          · omega
          · exact hend
        obtain ⟨data, hdata, -, hrun⟩ := h.inArray.reposFuel_case1 (by omega) (by omega) b.array
        obtain ⟨hlay, hsame⟩ := layout_of_pointers (r := b.buf.rlocked) (w := b.buf.wlocked) hdata
          h.total_lt (Nat.zero_le b.buf.size) (by omega) (by omega)
        rw [Nat.sub_zero] at hsame
        refine ⟨⟨b.array, { b.buf with data := data, pbeg := 0, pend := b.buf.size }⟩, hrun 1, hlay,
          ?_, ?_, fun _ => ⟨rfl, rfl, ?_, rfl, Nat.le_of_eq hsame⟩⟩
        · rw [hsame]
          omega
        · show 0 + min len b.buf.size ≤ b.buf.total
          omega
        · show b.buf.size = b.buf.pend
          omega
      · obtain ⟨array', b', hrun, hplaced⟩ := h.repos b.array
        have hflat := hplaced.layout.size_cases
        have hle := hplaced.flat
        have hsame := hplaced.size_eq
        have hin := hplaced.layout.pend_le
        exact ⟨⟨array', b'⟩, hrun, hplaced.layout, by show _ ≤ b'.size; omega,
          by show b'.pbeg + _ ≤ b'.total; omega, by simp [hw]⟩
    · exact ⟨b, if_neg hshort, h, by omega, by omega, fun _ => .refl b⟩
  obtain ⟨b₁, hrepos, hlay₁, hunread, hin, hframe⟩ := hroom
  have hlay₂ := hlay₁.set_locks true b₁.buf.wlocked
  refine ⟨some (⟨b₁.array, b₁.buf.pbeg⟩, min len b.buf.size),
    { b₁ with buf := { b₁.buf with rlocked := true } }, ?_, ⟨hlay₂, ?_, by simp [hopen]⟩, ?_⟩
  · simp only [ElasticBuf.rlock, if_neg hr, hrepos]
    rfl
  · intro hw _
    have hfr := hframe hw
    exact ⟨hfr.array_eq, hfr.wlocked_eq, hfr.pend_eq, hfr.total_eq, hfr.size_le⟩
  · intro p n hp
    cases hp
    exact ⟨rfl, rfl, hunread, hin⟩

/-- The release of the write lock moves `_pend` only. -/
theorem Layout.wunlock (h : Layout b.buf) (p : BufPtr) (n : Nat) :
    ∃ ok b', b.wunlock p n = (ok, b') ∧ Kept b (.wunlock p n) b' := by
  have ha := h.avail_eq
  have he := h.pend_le
  have hsize := h.size_cases
  have hlt := h.size_lt
  -- A lock that is not held, or another region, is refused.
  by_cases hw : b.buf.wlocked = true
  · by_cases hp : p = ⟨b.array, b.buf.pend⟩
    · by_cases hfew : b.buf.avail < n
      · exact ⟨false, b, by simp [ElasticBuf.wunlock, hw, hp, hfew], h.kept _⟩
      by_cases hshort : b.buf.total - b.buf.pend < n
      · exact ⟨false, b, by simp [ElasticBuf.wunlock, hw, hp, hfew, hshort], h.kept _⟩
      -- The new end is inside of the array, and the buffer is not full to the last byte.
      have hlay : Layout { b.buf with pend := b.buf.pend + n, wlocked := false } := by
        refine ⟨h.data_length, h.total_lt, h.total_pos, h.pbeg_le, ?_, ?_⟩
        · show b.buf.pend + n ≤ b.buf.total
          omega
        · show b.buf.pbeg = 0 → b.buf.pend + n < b.buf.total
          omega
      have hafter := hlay.size_cases
      simp only at hafter
      -- What was written counts as unread from here on.
      have hmore : b.buf.size ≤
          CycBuf.size { b.buf with pend := b.buf.pend + n, wlocked := false } := by
        simp only
        omega
      refine ⟨true, { b with buf := { b.buf with pend := b.buf.pend + n, wlocked := false } },
        by simp [ElasticBuf.wunlock, hw, hp, hfew, hshort], hlay, ?_, ?_⟩
      · intro _ hother
        exact absurd (by rw [hp]) (hother n)
      · intro _ _
        exact ⟨rfl, rfl, rfl, rfl, hmore, fun _ _ _ => rfl⟩
    · exact ⟨false, b, by simp [ElasticBuf.wunlock, hw, hp], h.kept _⟩
  · exact ⟨false, b, by simp [ElasticBuf.wunlock, hw], h.kept _⟩

/-- The release of the read lock moves `_pbeg` only. -/
theorem Layout.runlock (h : Layout b.buf) (p : BufPtr) (n : Nat) :
    ∃ ok b', b.runlock p n = (ok, b') ∧ Kept b (.runlock p n) b' := by
  have hb := h.pbeg_le
  have hsize := h.size_cases
  have hfree := h.free
  -- A lock that is not held, or another region, is refused.
  by_cases hr : b.buf.rlocked = true
  · by_cases hp : p = ⟨b.array, b.buf.pbeg⟩
    · by_cases hfew : b.buf.size < n
      · exact ⟨false, b, by simp [ElasticBuf.runlock, hr, hp, hfew], h.kept _⟩
      by_cases hshort : b.buf.total - b.buf.pbeg < n
      · exact ⟨false, b, by simp [ElasticBuf.runlock, hr, hp, hfew, hshort], h.kept _⟩
      -- The new beginning is inside of the array.
      have hlay : Layout { b.buf with pbeg := b.buf.pbeg + n, rlocked := false } := by
        refine ⟨h.data_length, h.total_lt, h.total_pos, ?_, h.pend_le, ?_⟩
        · show b.buf.pbeg + n ≤ b.buf.total
          omega
        · show b.buf.pbeg + n = 0 → b.buf.pend < b.buf.total
          omega
      have hafter := hlay.size_cases
      simp only at hafter
      have hless : CycBuf.size { b.buf with pbeg := b.buf.pbeg + n, rlocked := false } ≤
          b.buf.size := by
        simp only
        omega
      refine ⟨true, { b with buf := { b.buf with pbeg := b.buf.pbeg + n, rlocked := false } },
        by simp [ElasticBuf.runlock, hr, hp, hfew, hshort], hlay, ?_, ?_⟩
      · intro _ _
        exact ⟨rfl, rfl, rfl, rfl, hless⟩
      · intro _ hother
        exact absurd (by rw [hp]) (hother n)
    · exact ⟨false, b, by simp [ElasticBuf.runlock, hr, hp], h.kept _⟩
  · exact ⟨false, b, by simp [ElasticBuf.runlock, hr], h.kept _⟩

/-- A store of the lock holder stays off the unread bytes. -/
theorem Layout.store (h : Layout b.buf) (off : Nat) (bs : List UInt8) :
    Kept b (.store off bs) (b.store off bs) := by
  have hd := h.data_length
  have ha := h.avail_eq
  have hb := h.pbeg_le
  have hsize := h.size_cases
  -- The bytes have to lie in the locked part, or nothing is stored.
  by_cases hmay : b.buf.wlocked ∧ b.buf.pend ≤ off ∧ off + bs.length ≤ b.buf.total ∧
      off + bs.length - b.buf.pend ≤ b.buf.avail
  · rw [ElasticBuf.store, if_pos hmay]
    obtain ⟨-, hoff, hend, hfree⟩ := hmay
    have hcount : (bs.map some).length = bs.length := List.length_map some
    have hin : off + (bs.map some).length ≤ b.buf.data.length := by omega
    refine ⟨⟨(length_splice hin).trans hd, h.total_lt, h.total_pos, hb, h.pend_le, h.free⟩, ?_, ?_⟩
    · intro _ _
      exact ⟨rfl, rfl, rfl, rfl, Nat.le_refl _⟩
    -- Outside of the free part nothing has changed.
    · intro _ _
      refine ⟨rfl, rfl, rfl, rfl, Nat.le_refl _, ?_⟩
      intro n hn hlast
      cases Nat.lt_or_ge b.buf.pend b.buf.pbeg with
      | inl hwrap => exact slice_splice_of_ge hin (by omega)
      | inr hflat => exact slice_splice_of_le hin (by omega)
  · rw [ElasticBuf.store, if_neg hmay]
    exact h.kept _

/-! ### Whole runs -/

/-- Every call that meets `RegionStepOk` returns and keeps `Layout` and both frames. -/
theorem Layout.step (h : Layout b.buf) (op : ElasticBufOp) (hok : RegionStepOk b op) :
    ∃ r b', b.step op = some (r, b') ∧ Kept b op b' := by
  cases op with
  | call op =>
      obtain ⟨r, b', hrun, hkept⟩ := h.call op hok
      exact ⟨.plain r, b', hrun, hkept⟩
  | wlock len =>
      obtain ⟨r, b', hrun, hkept, -⟩ := h.wlock len hok
      exact ⟨.region r, b', by rw [ElasticBuf.step, hrun]; rfl, hkept⟩
  | wunlock p n =>
      obtain ⟨ok, b', hrun, hkept⟩ := h.wunlock p n
      exact ⟨.flag ok, b', by rw [ElasticBuf.step, hrun], hkept⟩
  | rlock len =>
      obtain ⟨r, b', hrun, hkept, -⟩ := h.rlock len hok
      exact ⟨.region r, b', by rw [ElasticBuf.step, hrun]; rfl, hkept⟩
  | runlock p n =>
      obtain ⟨ok, b', hrun, hkept⟩ := h.runlock p n
      exact ⟨.flag ok, b', by rw [ElasticBuf.step, hrun], hkept⟩
  | store off bs => exact ⟨.stored, b.store off bs, rfl, h.store off bs⟩

/-- The write region stays held across a call that does not release it. -/
theorem WriteRegion.step {p : BufPtr} {n : Nat} (h : WriteRegion b p n) (hlay : Layout b.buf)
    {op : ElasticBufOp} {b' : ElasticBuf} (hkept : Kept b op b') (hother : ∀ k, op ≠ .wunlock p k) :
    WriteRegion b' p n := by
  have hframe := hkept.write h.wlocked fun k => by rw [← h.here]; exact hother k
  have hsize := hframe.size_le
  have htotal := hframe.total_eq
  have hfree := h.free
  rw [hlay.avail_eq] at hfree
  refine ⟨hframe.wlocked_eq.trans h.wlocked, ?_, ?_, ?_⟩
  · rw [hframe.array_eq, hframe.pend_eq]
    exact h.here
  · rw [hkept.layout.avail_eq]
    omega
  · rw [hframe.pend_eq, htotal]
    exact h.inside

/-- The read region stays held, with its bytes, across a call that does not release it. -/
theorem ReadRegion.step {p : BufPtr} {n : Nat} (h : ReadRegion b p n) {op : ElasticBufOp}
    {b' : ElasticBuf} (hkept : Kept b op b') (hother : ∀ k, op ≠ .runlock p k) :
    ReadRegion b' p n ∧ slice b'.buf.data p.off n = slice b.buf.data p.off n := by
  have hframe := hkept.read h.rlocked fun k => by rw [← h.here]; exact hother k
  refine ⟨⟨hframe.rlocked_eq.trans h.rlocked, ?_, h.unread.trans hframe.size_ge, ?_⟩, ?_⟩
  · rw [hframe.array_eq, hframe.pbeg_eq]
    exact h.here
  · rw [hframe.pbeg_eq, hframe.total_eq]
    exact h.inside
  · rw [h.here]
    exact hframe.slice_eq n h.unread h.inside

/-- A locked write region outlives any run without its unlock. By induction on the operations. -/
theorem WriteRegion.run {p : BufPtr} {n : Nat} (h : WriteRegion b p n) (hlay : Layout b.buf)
    (ops : List ElasticBufOp) (hok : RegionRunOk b ops)
    (hother : ∀ k, ElasticBufOp.wunlock p k ∉ ops) :
    ∃ b', b.run ops = some b' ∧ Layout b'.buf ∧ WriteRegion b' p n := by
  induction ops generalizing b with
  | nil => exact ⟨b, rfl, hlay, h⟩
  | cons op ops ih =>
      obtain ⟨hop, hrest⟩ := hok
      obtain ⟨r, b₁, hstep, hkept⟩ := hlay.step op hop
      rw [hstep] at hrest
      have h₁ := h.step hlay hkept fun k heq => hother k (heq ▸ List.mem_cons_self)
      obtain ⟨b₂, hrun, hlay₂, h₂⟩ := ih h₁ hkept.layout hrest
        fun k hmem => hother k (List.mem_cons_of_mem _ hmem)
      exact ⟨b₂, by rw [ElasticBuf.run, hstep]; exact hrun, hlay₂, h₂⟩

/-- So does a locked read region. -/
theorem ReadRegion.run {p : BufPtr} {n : Nat} (h : ReadRegion b p n) (hlay : Layout b.buf)
    (ops : List ElasticBufOp) (hok : RegionRunOk b ops)
    (hother : ∀ k, ElasticBufOp.runlock p k ∉ ops) :
    ∃ b', b.run ops = some b' ∧ Layout b'.buf ∧ ReadRegion b' p n ∧
      slice b'.buf.data p.off n = slice b.buf.data p.off n := by
  induction ops generalizing b with
  | nil => exact ⟨b, rfl, hlay, h, rfl⟩
  | cons op ops ih =>
      obtain ⟨hop, hrest⟩ := hok
      obtain ⟨r, b₁, hstep, hkept⟩ := hlay.step op hop
      rw [hstep] at hrest
      obtain ⟨h₁, hbytes₁⟩ := h.step hkept fun k heq => hother k (heq ▸ List.mem_cons_self)
      obtain ⟨b₂, hrun, hlay₂, h₂, hbytes₂⟩ := ih h₁ hkept.layout hrest
        fun k hmem => hother k (List.mem_cons_of_mem _ hmem)
      exact ⟨b₂, by rw [ElasticBuf.run, hstep]; exact hrun, hlay₂, h₂, hbytes₂.trans hbytes₁⟩

/-- A held write region holds no unread byte. -/
theorem WriteRegion.not_unread {p : BufPtr} {n : Nat} (h : WriteRegion b p n)
    (hlay : Layout b.buf) {i : Nat} (hi : p.off ≤ i) (hlt : i < p.off + n) : ¬ Unread b.buf i := by
  have hfree := h.free
  have hsize := hlay.size_cases
  have hb := hlay.pbeg_le
  rw [hlay.avail_eq] at hfree
  simp only [h.here] at hi hlt
  rw [Unread]
  split <;> omega

/-- A held read region holds unread bytes only. -/
theorem ReadRegion.all_unread {p : BufPtr} {n : Nat} (h : ReadRegion b p n) (hlay : Layout b.buf)
    {i : Nat} (hi : p.off ≤ i) (hlt : i < p.off + n) : Unread b.buf i := by
  have hunread := h.unread
  have hin := h.inside
  have hsize := hlay.size_cases
  simp only [h.here] at hi hlt
  rw [Unread]
  split <;> omega

/-- A held write region can be released. -/
theorem WriteRegion.unlock {p : BufPtr} {n : Nat} (h : WriteRegion b p n) {k : Nat} (hk : k ≤ n) :
    ∃ b', b.wunlock p k = (true, b') := by
  have hfree := h.free
  have hin := h.inside
  have hfits : ¬ b.buf.avail < k := by omega
  have hroom : ¬ b.buf.total - b.buf.pend < k := by omega
  exact ⟨_, by simp [ElasticBuf.wunlock, h.wlocked, ← h.here, hfits, hroom]; rfl⟩

/-- A held read region can be released. -/
theorem ReadRegion.unlock {p : BufPtr} {n : Nat} (h : ReadRegion b p n) {k : Nat} (hk : k ≤ n) :
    ∃ b', b.runlock p k = (true, b') := by
  have hunread := h.unread
  have hin := h.inside
  have hfits : ¬ b.buf.size < k := by omega
  have hroom : ¬ b.buf.total - b.buf.pbeg < k := by omega
  exact ⟨_, by simp [ElasticBuf.runlock, h.rlocked, ← h.here, hfits, hroom]; rfl⟩

/-- The calls before the lock return, and the condition holds of those that follow. -/
theorem Layout.run_append (h : Layout b.buf) (pre ops : List ElasticBufOp)
    (hok : RegionRunOk b (pre ++ ops)) :
    ∃ b', b.run pre = some b' ∧ Layout b'.buf ∧ RegionRunOk b' ops := by
  induction pre generalizing b with
  | nil => exact ⟨b, rfl, h, hok⟩
  | cons op pre ih =>
      obtain ⟨hop, hrest⟩ := hok
      obtain ⟨r, b₁, hstep, hkept⟩ := h.step op hop
      rw [hstep] at hrest
      obtain ⟨b₂, hrun, hlay₂, hok₂⟩ := ih hkept.layout hrest
      exact ⟨b₂, by rw [ElasticBuf.run, hstep]; exact hrun, hlay₂, hok₂⟩

end

/-- The promise of both locks holds along every run whose calls all meet `RegionStepOk`, on
a buffer whose array size fits `size_t`. -/
theorem regionStable_of_regionRunOk (side : Side) (size : Nat) (pre : List ElasticBufOp)
    (len : Nat) (mid : List ElasticBufOp) (hsize : size + 4 < 2 ^ 64)
    (hok : RegionRunOk (ElasticBuf.elasticBuf size) (pre ++ side.lock len :: mid)) :
    RegionStable side size pre len mid := by
  have hinit : Layout (ElasticBuf.elasticBuf size).buf := layout_cycBuf hsize
  -- The run up to the lock, the lock, and the run under it.
  obtain ⟨b₁, hrun₁, hlay₁, hlock, hmid⟩ := hinit.run_append pre (side.lock len :: mid) hok
  cases side with
  | read =>
      obtain ⟨r, b₂, hrlock, hkept, hregion⟩ := hlay₁.rlock len hlock
      have hstep : b₁.step (.rlock len) = some (.region r, b₂) := by
        rw [ElasticBuf.step, hrlock]
        rfl
      rw [show b₁.step (Side.read.lock len) = _ from hstep] at hmid
      refine ⟨b₁, r, b₂, hrun₁, hstep, ?_⟩
      intro p n hp hother
      obtain ⟨b₃, hrun₃, hlay₃, h₃, hbytes⟩ := (hregion p n hp).run hkept.layout mid hmid hother
      refine ⟨b₃, hrun₃, ⟨by rw [h₃.here], by rw [h₃.here]; exact h₃.inside⟩,
        fun i hi hlt => h₃.all_unread hlay₃ hi hlt, fun _ => hbytes, ?_⟩
      intro k hk
      obtain ⟨b₄, hunlock⟩ := h₃.unlock hk
      exact ⟨b₄, by show b₃.step (.runlock p k) = _; rw [ElasticBuf.step, hunlock]⟩
  | write =>
      obtain ⟨r, b₂, hwlock, hkept, hregion⟩ := hlay₁.wlock len hlock
      have hstep : b₁.step (.wlock len) = some (.region r, b₂) := by
        rw [ElasticBuf.step, hwlock]
        rfl
      rw [show b₁.step (Side.write.lock len) = _ from hstep] at hmid
      refine ⟨b₁, r, b₂, hrun₁, hstep, ?_⟩
      intro p n hp hother
      obtain ⟨b₃, hrun₃, hlay₃, h₃⟩ := (hregion p n hp).run hkept.layout mid hmid hother
      refine ⟨b₃, hrun₃, ⟨by rw [h₃.here], by rw [h₃.here]; exact h₃.inside⟩,
        fun i hi hlt => h₃.not_unread hlay₃ hi hlt, by simp, ?_⟩
      intro k hk
      obtain ⟨b₄, hunlock⟩ := h₃.unlock hk
      exact ⟨b₄, by show b₃.step (.wunlock p k) = _; rw [ElasticBuf.step, hunlock]⟩

/-- A read region under a write lock that is taken, stored to and released. -/
theorem regionStable_both_locks :
    RegionStable .read 7 [.call (.write [1, 2, 3, 4]), .call (.read 1)] 2
      [.wlock 3, .store 4 [5, 6], .wunlock ⟨0, 4⟩ 2, .call (.write [7])] :=
  regionStable_of_regionRunOk _ _ _ _ _ (by decide) (by decide)

/-- The failing run: `wlock` finds two bytes free but only one of them before the end of the
array, and moves the read region's byte to the front under the reader. -/
theorem not_regionStable_of_repos :
    ¬ RegionStable .read 3 [.call (.write [1, 2, 3]), .call (.read 2)] 1 [.wlock 2] := by
  intro ⟨b₁, r, b₂, hrun, hlock, hregion⟩
  -- Two of three bytes have been read.
  have hb₁ : (ElasticBuf.elasticBuf 3).run [.call (.write [1, 2, 3]), .call (.read 2)]
      = some ⟨0, ⟨[some 1, some 2, some 3, none], 4, 2, 3, false, false⟩⟩ := by decide
  rw [hb₁] at hrun
  cases hrun
  -- The third one is locked for reading, at index 2.
  have hb₂ : ElasticBuf.step ⟨0, ⟨[some 1, some 2, some 3, none], 4, 2, 3, false, false⟩⟩
      (Side.read.lock 1) = some (.region (some (⟨0, 2⟩, 1)),
        ⟨0, ⟨[some 1, some 2, some 3, none], 4, 2, 3, true, false⟩⟩) := by decide
  rw [hb₂] at hlock
  cases hlock
  obtain ⟨b₃, hrun₃, -, -, -, hunlock⟩ := hregion ⟨0, 2⟩ 1 rfl (by simp [Side.unlock])
  -- The lock for writing needs room in one piece and moves it to index 0.
  have hb₃ : ElasticBuf.run ⟨0, ⟨[some 1, some 2, some 3, none], 4, 2, 3, true, false⟩⟩ [.wlock 2]
      = some ⟨0, ⟨[some 3, some 2, some 3, none], 4, 0, 1, true, true⟩⟩ := by decide
  rw [hb₃] at hrun₃
  cases hrun₃
  obtain ⟨b₄, hstep⟩ := hunlock 1 (Nat.le_refl 1)
  -- The region that was locked is not the beginning any more, so its unlock is refused.
  have hrefused : ElasticBuf.step ⟨0, ⟨[some 3, some 2, some 3, none], 4, 0, 1, true, true⟩⟩
      (Side.read.unlock ⟨0, 2⟩ 1) = some (.flag false,
        ⟨0, ⟨[some 3, some 2, some 3, none], 4, 0, 1, true, true⟩⟩) := by decide
  rw [hrefused] at hstep
  cases hstep

end Mylib.Proofs.Comm
