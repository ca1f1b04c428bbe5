import Mylib.Spec.Thread.Trim
import Mylib.Proofs.Thread.WorkerAccounting

/-!
# `Mylib.Proofs.Thread.ThreadMax`: the limit of `base_threadpool_set_thread_max`

`HonoursLimit p b cnt` is what the call promises of a pool with the worker rings `b`:
`thd_cnt - cnt` of its workers are stopped, idle ones before busy ones, the others are as
before, and the busy ring still holds the busy workers.

No call keeps it (`not_honoursLimit`). There are three ways to go wrong, by the number `n` of
workers to stop, which is the difference cut to an `unsigned int`.

* Where `n` reaches all idle workers and there are none, `trim_busy_threads` is handed the number
  of workers to stop and takes it for the number to keep, and `trim_threads` cuts the links of the
  last busy worker without taking it out of its ring (`WorkersLinked.trimBusyThreads_cut`).
* Where an idle worker is stopped, `trim_idle_threads` joins it with the arguments of
  `base_join_thread` swapped, so that an `int` on the stack is used as a thread
  (`trimIdleThreads_undefined`). Up to there it does what it should: `trimThreads_idle` says that
  the workers behind the first `cnt` have been stopped and taken out of the idle ring.
* Where the difference is a multiple of `2 ^ 32`, no worker is stopped at all.
-/

set_option autoImplicit false

namespace Mylib.Proofs.Thread

open Mylib.Lib.Ring
open Mylib.Spec.Thread

/-! ### The promise -/

/-- The worker rings of a pool are `b`. No linked worker has been stopped, and workers that
have not entered their loop yet are in no ring. -/
structure WorkersLinked (p : Pool) (b : ThdRing → List Nat) : Prop where
  rings : Rings p.thdLinks b
  brk : ∀ r, ∀ e ∈ b r, e < p.eltBrk
  idleCnt : p.idleCnt = (b .idle).length
  thdCnt : (b .idle).length + (b .busy).length ≤ p.thdCnt
  noStop : ∀ e, e ∈ b .idle ∨ e ∈ b .busy → (p.elt e).state ≠ .stop

/-- The worker elements with those of `zs` stopped. -/
def stopAll (zs : List Nat) (elt : Nat → Elt) : Nat → Elt :=
  fun e => if e ∈ zs then { elt e with state := .stop } else elt e

/-- The promise of `base_threadpool_set_thread_max(cnt)`. -/
def HonoursLimit (p : Pool) (b : ThdRing → List Nat) (cnt : Nat) : Prop :=
  ∃ r p', p.setThreadMax cnt = some (r, p') ∧
    (∃ stopped : List Nat, stopped.Nodup ∧ stopped.length = p.thdCnt - cnt ∧
      (∀ e ∈ stopped, e ∈ b .idle ∨ e ∈ b .busy) ∧
      ((∀ e ∈ stopped, e ∈ b .idle) ∨ ∀ e ∈ b .idle, e ∈ stopped) ∧
      p'.elt = stopAll stopped p.elt) ∧
    ∃ zs, IsRing p'.thdLinks .busy zs ∧ zs.Nodup ∧ ∀ e, e ∈ zs ↔ e ∈ b .busy

/-! ### The walks -/

section
variable {p : Pool} {i : ThdRing}

/-- The walk past the first elements of a ring. -/
theorem advance_ring {xs ks zs : List Nat} (h : IsRing p.thdLinks i (xs ++ (ks ++ zs))) :
    p.advance ks.length (firstNode i (ks ++ zs)) = some (firstNode i zs) := by
  induction ks generalizing xs with
  | nil => rfl
  | cons k ks ih =>
      have hcut := (h (xs ++ [k]) (ks ++ zs) (by simp)).1
      rw [lastNode_concat] at hcut
      show p.advance ks.length (p.thdLinks.next (.elem k)) = _
      rw [hcut]
      have hmoved : IsRing p.thdLinks i ((xs ++ [k]) ++ (ks ++ zs)) := by simpa using h
      exact ih hmoved

/-- Nothing to be stopped. -/
theorem stopAll_nil (elt : Nat → Elt) : stopAll [] elt = elt := by
  funext e
  simp [stopAll]

/-- The first of the idle threads is told to stop, and then the others. -/
theorem stopAll_cons (x : Nat) (zs : List Nat) (elt : Nat → Elt) :
    stopAll zs (Function.update elt x { elt x with state := .stop }) = stopAll (x :: zs) elt := by
  funext e
  by_cases hx : e = x
  · subst hx
    simp [stopAll]
  · simp [stopAll, hx]

/-- The loop that stops the workers of a run. -/
theorem stopFrom_run {zs : List Nat} (hne : zs ≠ []) (hlinked : IsRun p.thdLinks zs)
    (hnd : zs.Nodup) {fuel : Nat} (hfuel : zs.length ≤ fuel) :
    Pool.stopFrom (lastNode i zs) fuel (firstNode i zs) p
      = some (zs.length, { p with elt := stopAll zs p.elt }) := by
  induction zs generalizing p fuel with
  | nil => exact absurd rfl hne
  | cons x zs ih =>
      cases fuel with
      | zero => simp at hfuel
      | succ fuel =>
          cases zs with
          | nil =>
              have hone := stopAll_cons x [] p.elt
              have hlast : lastNode i [x] = .elem x := lastNode_concat i [] x
              rw [hlast, firstNode_cons, Pool.stopFrom, if_pos rfl, ← hone, stopAll_nil]
              rfl
          | cons y zs =>
              obtain ⟨hnext, hrest⟩ := hlinked
              obtain ⟨hnotin, hnd'⟩ := List.nodup_cons.mp hnd
              have hlast := lastNode_cons_cons i x y zs
              -- The loop ends at the last node, which is not `x` while more elements follow.
              have hx : Node.elem x ≠ lastNode i (y :: zs) := by
                intro heq
                rcases lastNode_cases i (y :: zs) with hh | ⟨n, hn, hh⟩
                · exact absurd (heq.trans hh) (by simp)
                · obtain rfl : x = n := by simpa using heq.trans hh
                  exact hnotin hn
              have hleft : (y :: zs).length ≤ fuel := by simpa using hfuel
              have hih := ih (p := { p with
                  elt := Function.update p.elt x { p.elt x with state := .stop } })
                (by simp) hrest hnd' hleft
              rw [hlast, firstNode_cons, Pool.stopFrom, if_neg hx]
              show (Pool.stopFrom (lastNode i (y :: zs)) fuel (p.thdLinks.next (.elem x)) _).bind _
                = _
              rw [hnext, ← firstNode_cons i y zs, hih]
              show some (_, _) = _
              rw [stopAll_cons]
              rfl

/-- The loop that stops workers changes nothing else, and ends at an element. -/
theorem stopFrom_frame {tail e : EltPtr} {fuel n : Nat} {p' : Pool}
    (h : Pool.stopFrom tail fuel e p = some (n, p')) :
    p'.thdLinks = p.thdLinks ∧ p'.idleCnt = p.idleCnt ∧ p'.eltBrk = p.eltBrk ∧
      ∃ t, tail = .elem t := by
  induction fuel generalizing p e n with
  | zero => cases h
  | succ fuel ih =>
      cases e with
      | null => cases h
      | head r => cases h
      | elem x =>
          rw [Pool.stopFrom] at h
          split at h
          · rename_i heq
            cases h
            exact ⟨rfl, rfl, rfl, x, heq.symm⟩
          · obtain ⟨⟨m, p₁⟩, hrec, hret⟩ := Option.bind_eq_some_iff.mp h
            cases hret
            have hsame := ih hrec
            exact hsame

/-- The first join dereferences the `int`. -/
theorem joinFrom_undefined (fuel e : Nat) : Pool.joinFrom fuel e p = none := by
  cases fuel <;> rfl

/-! ### Stopping idle workers -/

/-- The links after `trim_threads` has taken the run from `head` to `tail` out of its ring
and cut it at both ends. -/
def cutLinks (l : Links ThdRing) (head tail : EltPtr) : Links ThdRing :=
  ((l.unsplice head tail).setPrev head .null).setNext tail .null

/-- An element of the second part of a ring is not the last node of the first part. -/
theorem elem_ne_lastNode {ks zs : List Nat} (hnd : (ks ++ zs).Nodup) {n : Nat} (hn : n ∈ zs) :
    Node.elem n ≠ lastNode i ks := by
  intro heq
  rcases lastNode_cases i ks with hh | ⟨m, hm, hh⟩
  · exact absurd (heq.trans hh) (by simp)
  · obtain rfl : n = m := by simpa using heq.trans hh
    exact (List.nodup_append.mp hnd).2.2 n hm n hn rfl

/-- A ring whose elements are allocated is no longer than their number. -/
theorem length_le_of_lt {zs : List Nat} {k : Nat} (hnd : zs.Nodup) (hlt : ∀ e ∈ zs, e < k) :
    zs.length ≤ k := by
  have hsub : zs.Subperm (List.range k) :=
    List.subperm_of_subset hnd fun e he => List.mem_range.mpr (hlt e he)
  simpa using hsub.length_le

section
variable {ks zs : List Nat}

/-- `trim_threads` on the idle ring: the workers behind the first `cnt` are stopped. -/
theorem trimThreads_idle (hring : IsRing p.thdLinks .idle (ks ++ zs)) (hnd : (ks ++ zs).Nodup)
    (hlt : ∀ e ∈ ks ++ zs, e < p.eltBrk) (hcnt : p.idleCnt = (ks ++ zs).length) (hne : zs ≠ []) :
    p.trimThreads ks.length true = some (zs.length, firstNode .idle zs,
      { p with
        thdLinks := cutLinks p.thdLinks (firstNode .idle zs) (lastNode .idle zs)
        idleCnt := ks.length
        elt := stopAll zs p.elt }) := by
  have hndz : zs.Nodup := (List.nodup_append.mp hnd).2.1
  have hpos : 0 < zs.length := List.length_pos_of_ne_nil hne
  have hfirst : p.thdLinks.next (.head .idle) = firstNode .idle (ks ++ zs) := (hring [] _ rfl).1
  have htail : p.thdLinks.prev (.head .idle) = lastNode .idle zs := by
    have hcut := (hring (ks ++ zs) [] (by simp)).2
    rwa [firstNode_nil, lastNode_append hne] at hcut
  have hprev : p.thdLinks.prev (firstNode .idle zs) = lastNode .idle ks := (hring ks zs rfl).2
  have hadvance : p.advance ks.length (firstNode .idle (ks ++ zs)) = some (firstNode .idle zs) :=
    advance_ring (show IsRing p.thdLinks .idle ([] ++ (ks ++ zs)) from hring)
  -- Cutting `zs` out of the ring leaves its inner links as they are.
  have hlinked : IsRun (p.thdLinks.unsplice (firstNode .idle zs) (lastNode .idle zs)) zs := by
    refine hring.isRun.congr (i := .idle) hndz ?_
    intro n hn _
    rw [Links.unsplice_next, hprev, if_neg (elem_ne_lastNode hnd hn)]
  have hfuel : zs.length ≤ p.eltBrk + 1 :=
    (length_le_of_lt hndz fun e he => hlt e (List.mem_append_right ks he)).trans (Nat.le_succ _)
  have hstop := stopFrom_run (i := .idle) (p := { p with
      thdLinks := p.thdLinks.unsplice (firstNode .idle zs) (lastNode .idle zs)
      idleCnt := ks.length }) hne hlinked hndz hfuel
  have hmore : ¬ p.idleCnt ≤ ks.length := by
    rw [hcnt, List.length_append]
    omega
  have hcount : p.idleCnt - ks.length = zs.length := by
    rw [hcnt, List.length_append]
    omega
  simp only [Pool.trimThreads, if_true, if_neg hmore, hfirst, hadvance, htail, hcount,
    Option.bind_eq_bind, Option.bind_some, hstop]
  rfl

end

/-- What `trim_threads` says of the number of idle workers it has stopped. -/
theorem trimThreads_count {keep n : Nat} {elt : EltPtr} {p' : Pool} (hkeep : keep < p.idleCnt)
    (hrun : p.trimThreads keep true = some (n, elt, p')) : n = p.idleCnt - keep := by
  simp only [Pool.trimThreads, if_true, if_neg (Nat.not_le.mpr hkeep)] at hrun
  obtain ⟨head, -, hrun⟩ := Option.bind_eq_some_iff.mp hrun
  obtain ⟨⟨nDbg, p₂⟩, -, hrun⟩ := Option.bind_eq_some_iff.mp hrun
  split at hrun
  · cases hrun
    rfl
  · cases hrun

/-- A call of `trim_idle_threads` that has a worker to stop has no defined end. -/
theorem trimIdleThreads_undefined {keep : Nat} (hkeep : keep < p.idleCnt) :
    p.trimIdleThreads keep = none := by
  rw [Pool.trimIdleThreads]
  cases hrun : p.trimThreads keep true with
  | none => rfl
  | some r =>
      obtain ⟨n, elt, p'⟩ := r
      have hcount := trimThreads_count hkeep hrun
      simp only [Option.bind_eq_bind, Option.bind_some]
      cases elt with
      | elem e =>
          dsimp only
          rw [joinFrom_undefined, Option.bind_none]
      | null => exact if_neg (by omega)
      | head r => rfl

/-- Without a worker to stop it changes nothing. -/
theorem trimIdleThreads_nothing {keep : Nat} (hkeep : p.idleCnt ≤ keep) :
    p.trimIdleThreads keep = some (0, p) := by
  simp [Pool.trimIdleThreads, Pool.trimThreads, hkeep]

/-! ### The two branches -/

section
variable {b : ThdRing → List Nat} {cnt : Nat}

/-- `trim_busy_threads` that stops anything leaves the last busy worker in the ring with its
`next` cut off. -/
theorem WorkersLinked.trimBusyThreads_cut (h : WorkersLinked p b) {keep n : Nat} {p₁ : Pool}
    (hkeep : keep < p.thdCnt - p.idleCnt) (hrun : p.trimBusyThreads keep = some (n, p₁)) :
    p₁.idleCnt = p.idleCnt ∧ ∃ t ∈ b .busy, p₁.thdLinks.next (.elem t) = .null := by
  have htail : p.thdLinks.prev (.head .busy) = lastNode .busy (b .busy) :=
    (h.rings.ring .busy (b .busy) [] (by simp)).2
  -- The busy ring is never cut out: only the first node's `prev` and the last node's `next` are
  -- cleared, so the ring stays behind with an open end.
  obtain ⟨⟨n', head, p₁'⟩, htrim, hret⟩ := Option.bind_eq_some_iff.mp hrun
  cases hret
  simp only [Pool.trimThreads, Bool.false_eq_true, if_false, if_neg (Nat.not_le.mpr hkeep)] at htrim
  obtain ⟨e₀, -, htrim⟩ := Option.bind_eq_some_iff.mp htrim
  obtain ⟨⟨nDbg, p₂⟩, hstop, htrim⟩ := Option.bind_eq_some_iff.mp htrim
  obtain ⟨-, hidle, -, t, ht⟩ := stopFrom_frame hstop
  rw [htail] at ht
  split at htrim
  · cases htrim
    have hmem : t ∈ b .busy := by
      obtain ⟨xs, hxs⟩ := lastNode_eq_elem.mp ht
      simp [hxs]
    refine ⟨hidle, t, hmem, ?_⟩
    show ((p₂.thdLinks.setPrev head .null).setNext (p.thdLinks.prev (.head .busy)) .null).next
      (.elem t) = .null
    rw [Links.setNext_next, htail, ht, if_pos rfl]
  · cases htrim

/-- A ring that holds an element whose `next` is cut off is not well formed. -/
theorem not_isRing_of_cut {l : Links ThdRing} {zs : List Nat} {t : Nat} (ht : t ∈ zs)
    (hcut : l.next (.elem t) = .null) : ¬ IsRing l i zs := by
  intro hring
  obtain ⟨xs, ys, rfl⟩ := List.append_of_mem ht
  have hnext := (hring (xs ++ [t]) ys (by simp)).1
  rw [lastNode_concat, hcut] at hnext
  cases ys with
  | nil => exact absurd hnext (by simp)
  | cons y ys => exact absurd hnext (by simp)

/-- Where no worker is idle, the busy ring is broken. -/
theorem WorkersLinked.not_honoursLimit_of_noIdle (h : WorkersLinked p b) (hpos : 0 < cnt)
    (hlt : cnt < p.thdCnt) (hnone : p.idleCnt = 0) : ¬ HonoursLimit p b cnt := by
  rintro ⟨r, p', hrun, -, zs, hring, -, hmem⟩
  have hguard : ¬ (cnt = 0 ∨ p.thdCnt ≤ cnt) := by omega
  have hmod : (p.thdCnt - cnt) % 2 ^ 32 ≤ p.thdCnt - cnt := Nat.mod_le _ _
  have hbusy : p.idleCnt ≤ (p.thdCnt - cnt) % 2 ^ 32 := by omega
  simp only [Pool.setThreadMax, if_neg hguard, if_pos hbusy] at hrun
  obtain ⟨⟨n₁, p₁⟩, htrim, hrun⟩ := Option.bind_eq_some_iff.mp hrun
  have h₀ : WorkersLinked { p with thdMax := cnt } b :=
    ⟨h.rings, h.brk, h.idleCnt, h.thdCnt, h.noStop⟩
  have hfew : (p.thdCnt - cnt) % 2 ^ 32 - p.idleCnt < p.thdCnt - p.idleCnt := by omega
  obtain ⟨hcnt₁, t, htmem, hcut⟩ := h₀.trimBusyThreads_cut hfew htrim
  -- There is nothing left for `trim_idle_threads`, so the cut link stays.
  have hnone₁ : p₁.idleCnt ≤ 0 := (hcnt₁.trans hnone).le
  rw [trimIdleThreads_nothing hnone₁] at hrun
  cases hrun
  exact not_isRing_of_cut ((hmem t).mpr htmem) hcut hring

/-- Where an idle worker has to be stopped, the call has no defined end. -/
theorem WorkersLinked.not_honoursLimit_of_join (h : WorkersLinked p b) (hpos : 0 < cnt)
    (hlt : cnt < p.thdCnt) (hidle : 0 < p.idleCnt) (hsome : 0 < (p.thdCnt - cnt) % 2 ^ 32) :
    ¬ HonoursLimit p b cnt := by
  rintro ⟨r, p', hrun, -⟩
  have hguard : ¬ (cnt = 0 ∨ p.thdCnt ≤ cnt) := by omega
  have hmod : (p.thdCnt - cnt) % 2 ^ 32 ≤ p.thdCnt - cnt := Nat.mod_le _ _
  have hthd := h.thdCnt
  have hidleCnt := h.idleCnt
  simp only [Pool.setThreadMax, if_neg hguard] at hrun
  split at hrun
  · obtain ⟨⟨n₁, p₁⟩, htrim, hrun⟩ := Option.bind_eq_some_iff.mp hrun
    -- The busy workers come first, and they leave the idle ones as they are.
    have h₀ : WorkersLinked { p with thdMax := cnt } b :=
      ⟨h.rings, h.brk, h.idleCnt, h.thdCnt, h.noStop⟩
    have hfew : (p.thdCnt - cnt) % 2 ^ 32 - p.idleCnt < p.thdCnt - p.idleCnt := by omega
    have hsame : p₁.idleCnt = p.idleCnt := (h₀.trimBusyThreads_cut hfew htrim).1
    rw [trimIdleThreads_undefined (hsame ▸ hidle)] at hrun
    cases hrun
  · have hkeep : p.idleCnt - (p.thdCnt - cnt) % 2 ^ 32 < p.idleCnt := by omega
    rw [trimIdleThreads_undefined (p := { p with thdMax := cnt }) hkeep] at hrun
    cases hrun

/-- A difference that is a multiple of `2 ^ 32` stops no worker. -/
theorem WorkersLinked.not_honoursLimit_of_wrap (h : WorkersLinked p b) (hpos : 0 < cnt)
    (hlt : cnt < p.thdCnt) (hidle : 0 < p.idleCnt) (hzero : (p.thdCnt - cnt) % 2 ^ 32 = 0) :
    ¬ HonoursLimit p b cnt := by
  rintro ⟨r, p', hrun, ⟨stopped, -, hlen, hlinked, -, helt⟩, -⟩
  have hguard : ¬ (cnt = 0 ∨ p.thdCnt ≤ cnt) := by omega
  have hnone : p.idleCnt ≤ p.idleCnt - 0 := le_rfl
  simp only [Pool.setThreadMax, if_neg hguard, hzero, if_neg (Nat.not_le.mpr hidle)] at hrun
  rw [trimIdleThreads_nothing (p := { p with thdMax := cnt }) hnone] at hrun
  cases hrun
  -- At least one worker should have been stopped.
  obtain ⟨e, he⟩ : ∃ e, e ∈ stopped := by
    refine List.exists_mem_of_length_pos ?_
    omega
  have hstate := congrArg Elt.state (congrFun helt e)
  simp only [stopAll, if_pos he] at hstate
  exact h.noStop e (hlinked e he) hstate

end

end

/-- `base_threadpool_set_thread_max(cnt)` never keeps its promise: no pool of linked workers, and
no `cnt` below the number of its workers. -/
theorem not_honoursLimit (p : Pool) (b : ThdRing → List Nat) (cnt : Nat) (h : WorkersLinked p b)
    (hpos : 0 < cnt) (hlt : cnt < p.thdCnt) : ¬ HonoursLimit p b cnt := by
  rcases Nat.eq_zero_or_pos p.idleCnt with hnone | hidle
  · exact h.not_honoursLimit_of_noIdle hpos hlt hnone
  · rcases Nat.eq_zero_or_pos ((p.thdCnt - cnt) % 2 ^ 32) with hzero | hsome
    · exact h.not_honoursLimit_of_wrap hpos hlt hidle hzero
    · exact h.not_honoursLimit_of_join hpos hlt hidle hsome

/-! ### Reachable pools -/

/-- The pools of every interleaving without trimming are of this kind. -/
theorem Consistent.workersLinked {k : Nat} {s : Sys} {q : TaskRing → List Nat}
    {b : ThdRing → List Nat} (h : Consistent k (view s q b)) : WorkersLinked s.pool b where
  rings := h.rings
  brk := h.brk
  idleCnt := h.idleCnt
  noStop := fun e _ => h.noStop e
  thdCnt := by
    -- The linked elements, with their rings, are places of workers that have not exited.
    have hnd : ((b .idle).map (Prod.mk ThdRing.idle)
        ++ (b .busy).map (Prod.mk ThdRing.busy)).Nodup := by
      refine List.nodup_append.mpr ⟨?_, ?_, ?_⟩
      · exact (h.rings.nodup .idle).map (Prod.mk_right_injective _)
      · exact (h.rings.nodup .busy).map (Prod.mk_right_injective _)
      · intro x hx y hy heq
        obtain ⟨e, -, rfl⟩ := List.mem_map.mp hx
        obtain ⟨e', -, rfl⟩ := List.mem_map.mp hy
        simp at heq
    have hsub : (b .idle).map (Prod.mk ThdRing.idle) ++ (b .busy).map (Prod.mk ThdRing.busy)
        ⊆ (s.workers.map place).filterMap Place.linked := by
      have hone : ∀ r : ThdRing, r ≠ .recycled → ∀ e ∈ b r,
          (r, e) ∈ (s.workers.map place).filterMap Place.linked := by
        intro r hr e he
        obtain ⟨w, x, hx, hlinked⟩ := (h.mem r e hr).mp he
        exact List.mem_filterMap.mpr ⟨x, List.mem_of_getElem? hx, hlinked⟩
      intro x hx
      rw [List.mem_append, List.mem_map, List.mem_map] at hx
      rcases hx with ⟨e, he, rfl⟩ | ⟨e, he, rfl⟩
      · exact hone .idle (by simp) e he
      · exact hone .busy (by simp) e he
    have hle := (List.subperm_of_subset hnd hsub).length_le
    rw [List.length_append, List.length_map, List.length_map,
      List.length_filterMap_eq_countP] at hle
    have hcnt : s.pool.thdCnt = (s.workers.map place).countP (· ≠ .exited) := h.thdCnt
    rw [hcnt]
    refine hle.trans (List.countP_mono_left ?_)
    intro x _ hx
    cases x with
    | exited => simp [Place.linked] at hx
    | _ => simp

/-! ### Pools of busy and idle workers -/

/-- Elements appended to a ring one by one. -/
theorem rings_insertTail_all {l : Links ThdRing} {q : ThdRing → List Nat} (h : Rings l q)
    (i : ThdRing) (zs : List Nat) (hnd : zs.Nodup) (hfresh : ∀ n ∈ zs, ∀ j, n ∉ q j) :
    Rings (zs.foldl (fun l n => l.insertTail i (.elem n)) l) (Function.update q i (q i ++ zs)) := by
  induction zs generalizing l q with
  | nil => simpa using h
  | cons z zs ih =>
      obtain ⟨hz, hnd'⟩ := List.nodup_cons.mp hnd
      have hone := h.insertTail i (hfresh z List.mem_cons_self)
      have hrest := ih hone hnd' ?_
      · simpa using hrest
      · intro n hn j hin
        rcases mem_or_eq_of_mem_inserted hin with hin | rfl
        · exact hfresh n (List.mem_cons_of_mem z hn) j hin
        · exact hz hn

/-- A pool of `m` busy and `k` idle workers. -/
def poolOf (m k : Nat) : Pool :=
  { threadPoolConstruct 0 0 0 with
    thdCnt := m + k
    idleCnt := k
    eltBrk := m + k
    thdLinks := (List.range' m k).foldl (fun l n => l.insertTail .idle (.elem n))
      ((List.range m).foldl (fun l n => l.insertTail .busy (.elem n)) (emptyLinks ThdRing)) }

/-- The worker rings of `poolOf`. -/
def ringsOf (m k : Nat) : ThdRing → List Nat
  | .busy => List.range m
  | .idle => List.range' m k
  | .recycled => []

/-- The pool of the example has its threads in the ring. -/
theorem workersLinked_poolOf (m k : Nat) : WorkersLinked (poolOf m k) (ringsOf m k) where
  rings := by
    -- The busy and the idle workers are linked one after another into empty rings.
    have hempty : Rings (emptyLinks ThdRing) (fun _ => []) := .empty (fun _ => rfl) (fun _ => rfl)
    have hbusy := rings_insertTail_all hempty .busy (List.range m) List.nodup_range (by simp)
    have hidle := rings_insertTail_all hbusy .idle (List.range' m k) (List.nodup_range' ..) ?_
    · have hq : Function.update (Function.update (fun _ => []) ThdRing.busy ([] ++ List.range m))
          .idle (Function.update (fun _ => []) ThdRing.busy ([] ++ List.range m) .idle
            ++ List.range' m k) = ringsOf m k := by
        funext r
        cases r <;> rfl
      rw [hq] at hidle
      exact hidle
    -- The idle ones are numbered from `m` on, so none of them is busy.
    · intro n hn j hin
      obtain ⟨hle, -⟩ := List.mem_range'_1.mp hn
      cases j with
      | busy =>
          have hlt : n < m := by simpa using hin
          omega
      | idle => exact absurd hin (by simp)
      | recycled => exact absurd hin (by simp)
  brk := by
    intro r e he
    show e < m + k
    cases r with
    | busy =>
        have hlt : e < m := by simpa [ringsOf] using he
        omega
    | idle => exact (List.mem_range'_1.mp he).2
    | recycled => exact absurd he List.not_mem_nil
  idleCnt := by simp [ringsOf, poolOf]
  thdCnt := by
    simp [ringsOf, poolOf]
    omega
  noStop := by
    intro e _
    simp [poolOf, threadPoolConstruct]

/-- One busy and two idle workers, and room for two: the idle worker that is stopped is not
joined. -/
theorem not_honoursLimit_one_idle : ¬ HonoursLimit (poolOf 1 2) (ringsOf 1 2) 2 :=
  not_honoursLimit _ _ 2 (workersLinked_poolOf 1 2) (by decide) (by decide)

/-- Three busy workers, and room for one: one worker is stopped instead of two, and the last
busy worker's `next` no longer leads back to the sentinel. -/
theorem not_honoursLimit_three_busy :
    WorkersLinked (poolOf 3 0) (ringsOf 3 0) ∧ 0 < 1 ∧ 1 < (poolOf 3 0).thdCnt ∧
      ¬ HonoursLimit (poolOf 3 0) (ringsOf 3 0) 1 :=
  ⟨workersLinked_poolOf 3 0, by decide, by decide,
    (workersLinked_poolOf 3 0).not_honoursLimit_of_noIdle (by decide) (by decide) (by decide)⟩

end Mylib.Proofs.Thread
