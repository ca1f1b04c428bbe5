import Mathlib

/-!
# `Mylib.Lib.Runs`: the maximal runs between separators

`MaximalRun p l i j` says that the elements of `l` from `i` up to `j` are a run without
separators that cannot be made longer, where `p` says which elements are separators.
`RunsOf p l out` says that `out` are all of these runs, in order. There is one such list only
(`RunsOf.unique`), and it is found from the front: a separator in
front of a list changes nothing (`RunsOf.skip`), and a piece in front of a list that begins with a
separator is one run more (`RunsOf.cons`).
-/

set_option autoImplicit false

namespace Mylib.Lib.Runs

variable {α : Type} {p : α → Prop}

/-- The elements from `i` up to `j`: some, no separator, and separators or the ends around. -/
structure MaximalRun (p : α → Prop) (l : List α) (i j : ℕ) : Prop where
  lt : i < j
  le : j ≤ l.length
  inside : ∀ k, i ≤ k → k < j → ∀ c ∈ l[k]?, ¬ p c
  left : ∀ k, k + 1 = i → ∀ c ∈ l[k]?, p c
  right : ∀ c ∈ l[j]?, p c

/-- The elements from `i` up to `j`. -/
def slice (l : List α) (span : ℕ × ℕ) : List α := (l.drop span.1).take (span.2 - span.1)

/-- All maximal runs, in order. -/
def RunsOf (p : α → Prop) (l : List α) (out : List (List α)) : Prop :=
  ∃ spans : List (ℕ × ℕ), spans.Pairwise (fun a b => a.2 < b.1) ∧
    (∀ i j, (i, j) ∈ spans ↔ MaximalRun p l i j) ∧ out = spans.map (slice l)

/-- There is only one such list. -/
theorem RunsOf.unique {l : List α} {out out' : List (List α)} (h : RunsOf p l out)
    (h' : RunsOf p l out') : out = out' := by
  obtain ⟨spans, hsorted, hspans, rfl⟩ := h
  obtain ⟨spans', hsorted', hspans', rfl⟩ := h'
  have hlt (a : ℕ × ℕ) (ha : a ∈ spans) : a.1 < a.2 := ((hspans a.1 a.2).mp ha).lt
  have hmem (a : ℕ × ℕ) : a ∈ spans ↔ a ∈ spans' :=
    (hspans a.1 a.2).trans (hspans' a.1 a.2).symm
  have hne (a b : ℕ × ℕ) (ha : a ∈ spans) (hab : a.2 < b.1) : a ≠ b := by
    rintro rfl
    exact absurd (hlt a ha) hab.not_gt
  -- Both are sorted lists of the same spans.
  have hperm : spans.Perm spans' := (List.perm_ext_iff_of_nodup
    (hsorted.imp_of_mem fun ha _ hab => hne _ _ ha hab)
    (hsorted'.imp_of_mem fun ha _ hab => hne _ _ ((hmem _).mpr ha) hab)).mpr hmem
  rw [hperm.eq_of_pairwise (fun a b ha hb hab hba => ?_) hsorted hsorted']
  have ha := hlt a ha
  have hb := hlt b ((hmem b).mpr hb)
  omega

/-- An empty list has no runs. -/
theorem RunsOf.nil : RunsOf p ([] : List α) [] := by
  refine ⟨[], List.Pairwise.nil, fun i j => ⟨fun h => absurd h List.not_mem_nil, fun h => ?_⟩, rfl⟩
  have hlt := h.lt
  have hle : j ≤ 0 := h.le
  omega

/-- The span `n` places further on. -/
def shift (n : ℕ) (span : ℕ × ℕ) : ℕ × ℕ := (span.1 + n, span.2 + n)

/-- Spans that are moved together stay in order. -/
theorem pairwise_shift {spans : List (ℕ × ℕ)} (h : spans.Pairwise fun a b => a.2 < b.1) (n : ℕ) :
    (spans.map (shift n)).Pairwise fun a b => a.2 < b.1 :=
  List.pairwise_map.mpr (h.imp fun hlt => Nat.add_lt_add_right hlt n)

/-- A span that is moved behind a front gives the same slice. -/
theorem slice_shift (front l : List α) (span : ℕ × ℕ) :
    slice (front ++ l) (shift front.length span) = slice l span := by
  unfold slice shift
  rw [Nat.add_sub_add_right, Nat.add_comm, ← List.drop_drop, List.drop_left]

/-- A run further on stays a run behind `front`, if it does not touch it or `front` ends in a
separator. -/
theorem MaximalRun.shift {l : List α} {i j : ℕ} (h : MaximalRun p l i j) (front : List α)
    (hfront : i = 0 → ∀ c ∈ front.getLast?, p c) :
    MaximalRun p (front ++ l) (i + front.length) (j + front.length) where
  lt := Nat.add_lt_add_right h.lt _
  le := by
    rw [List.length_append, Nat.add_comm]
    exact Nat.add_le_add_left h.le _
  inside k hik hkj c hc := by
    rw [List.getElem?_append_right (by omega)] at hc
    exact h.inside (k - front.length) (by omega) (by omega) c hc
  left k hk c hc := by
    -- In front of the run is the end of `front`, or an element of `l`.
    by_cases hi : i = 0
    · rw [List.getElem?_append_left (by omega)] at hc
      refine hfront hi c ?_
      rwa [List.getLast?_eq_getElem?, show front.length - 1 = k by omega]
    · rw [List.getElem?_append_right (by omega)] at hc
      exact h.left (k - front.length) (by omega) c hc
  right c hc := by
    rw [List.getElem?_append_right (by omega), Nat.add_sub_cancel] at hc
    exact h.right c hc

/-- A run behind `front` is a run without it. -/
theorem MaximalRun.unshift (front : List α) {l : List α} {i j : ℕ}
    (h : MaximalRun p (front ++ l) (i + front.length) (j + front.length)) : MaximalRun p l i j where
  lt := Nat.lt_of_add_lt_add_right h.lt
  le := by
    have hle := h.le
    rw [List.length_append] at hle
    omega
  inside k hik hkj c hc := h.inside (k + front.length) (by omega) (by omega) c (by
    rwa [List.getElem?_append_right (by omega), Nat.add_sub_cancel])
  left k hk c hc := h.left (k + front.length) (by omega) c (by
    rwa [List.getElem?_append_right (by omega), Nat.add_sub_cancel])
  right c hc := h.right c (by
    rwa [List.getElem?_append_right (by omega), Nat.add_sub_cancel])

/-- A run that begins in a piece without separators is the whole piece. -/
theorem MaximalRun.eq_first {piece l : List α} {i j : ℕ} (h : MaximalRun p (piece ++ l) i j)
    (hpiece : ∀ c ∈ piece, ¬ p c) (hhead : ∀ c ∈ l.head?, p c) (hi : i < piece.length) :
    (i, j) = (0, piece.length) := by
  have hle := h.le
  rw [List.length_append] at hle
  have hget (k : ℕ) (hk : k < piece.length) : (piece ++ l)[k]? = some piece[k] := by
    rw [List.getElem?_append_left hk, List.getElem?_eq_getElem hk]
  -- In front of the run there is no character that separates.
  have hi_zero : i = 0 := by
    by_contra hne
    exact hpiece _ (List.getElem_mem (by omega))
      (h.left (i - 1) (by omega) _ (hget (i - 1) (by omega)))
  have hj_ge : piece.length ≤ j := by
    by_contra hlt
    exact hpiece _ (List.getElem_mem (by omega)) (h.right _ (hget j (by omega)))
  -- The run stops at the first such character.
  have hj_le : j ≤ piece.length := by
    by_contra hlt
    have hl : 0 < l.length := by omega
    have hc : (piece ++ l)[piece.length]? = some l[0] := by
      rw [List.getElem?_append_right le_rfl, Nat.sub_self, List.getElem?_eq_getElem hl]
    exact h.inside piece.length (by omega) (by omega) _ hc
      (hhead _ (by rw [List.head?_eq_getElem?, List.getElem?_eq_getElem hl]; rfl))
  exact Prod.ext hi_zero (hj_le.antisymm hj_ge)

/-- A separator in front changes nothing. -/
theorem RunsOf.skip {d : α} (hd : p d) {l : List α} {out : List (List α)} (h : RunsOf p l out) :
    RunsOf p (d :: l) out := by
  obtain ⟨spans, hsorted, hspans, rfl⟩ := h
  refine ⟨spans.map (shift 1), pairwise_shift hsorted 1, fun i j => ?_, ?_⟩
  · rw [List.mem_map]
    constructor
    · rintro ⟨⟨i', j'⟩, hmem, heq⟩
      obtain ⟨rfl, rfl⟩ := Prod.mk.inj heq
      exact ((hspans i' j').mp hmem).shift [d] fun _ c hc => by
        rwa [← Option.some.inj hc]
    · intro hrun
      -- The first character separates, so a run begins behind it.
      have hi : i ≠ 0 := fun hzero =>
        hrun.inside 0 (by omega) (by have := hrun.lt; omega) d rfl hd
      have hlt := hrun.lt
      obtain ⟨i, rfl⟩ := Nat.exists_eq_succ_of_ne_zero hi
      obtain ⟨j, rfl⟩ := Nat.exists_eq_succ_of_ne_zero (by omega : j ≠ 0)
      exact ⟨(i, j), (hspans i j).mpr (MaximalRun.unshift [d] hrun), rfl⟩
  · rw [List.map_map]
    exact List.map_congr_left fun span _ => (slice_shift [d] l span).symm

/-- Separators in front change no run. -/
theorem RunsOf.skip_append {l : List α} {out : List (List α)} (h : RunsOf p l out)
    {front : List α} (hfront : ∀ c ∈ front, p c) : RunsOf p (front ++ l) out := by
  induction front with
  | nil => exact h
  | cons d front ih =>
    exact (ih fun c hc => hfront c (List.mem_cons_of_mem d hc)).skip (hfront d List.mem_cons_self)

/-- A piece in front of a separator, or of nothing, is one run more. -/
theorem RunsOf.cons {piece l : List α} (hne : piece ≠ []) (hpiece : ∀ c ∈ piece, ¬ p c)
    (hhead : ∀ c ∈ l.head?, p c) {out : List (List α)} (h : RunsOf p l out) :
    RunsOf p (piece ++ l) (piece :: out) := by
  obtain ⟨spans, hsorted, hspans, rfl⟩ := h
  have hpos := List.length_pos_iff.mpr hne
  -- the runs of the rest do not begin at its first element
  have hstart (i j : ℕ) (hrun : MaximalRun p l i j) : i ≠ 0 := by
    rintro rfl
    obtain ⟨c, hc⟩ : ∃ c, l[0]? = some c := by
      have hlt := hrun.lt.trans_le hrun.le
      exact ⟨_, List.getElem?_eq_getElem hlt⟩
    exact hrun.inside 0 le_rfl hrun.lt c hc (hhead c (by rwa [List.head?_eq_getElem?]))
  have hfirst : MaximalRun p (piece ++ l) 0 piece.length := by
    refine ⟨hpos, by rw [List.length_append]; omega, fun k _ hk c hc => ?_, fun k hk => ?_,
      fun c hc => ?_⟩
    · rw [List.getElem?_append_left hk] at hc
      exact hpiece c (List.mem_of_getElem? hc)
    · exact absurd hk k.succ_ne_zero
    · rw [List.getElem?_append_right le_rfl, Nat.sub_self] at hc
      exact hhead c (by rwa [List.head?_eq_getElem?])
  refine ⟨(0, piece.length) :: spans.map (shift piece.length), ?_, fun i j => ?_, ?_⟩
  · refine List.pairwise_cons.mpr ⟨fun span hspan => ?_, pairwise_shift hsorted _⟩
    obtain ⟨⟨i, j⟩, hmem, rfl⟩ := List.mem_map.mp hspan
    have hi := hstart i j ((hspans i j).mp hmem)
    show piece.length < i + piece.length
    omega
  · rw [List.mem_cons, List.mem_map]
    constructor
    · rintro (heq | ⟨⟨i', j'⟩, hmem, heq⟩)
      · obtain ⟨rfl, rfl⟩ := Prod.mk.inj heq
        exact hfirst
      · obtain ⟨rfl, rfl⟩ := Prod.mk.inj heq
        have hrun := (hspans i' j').mp hmem
        exact hrun.shift piece fun hzero => absurd hzero (hstart i' j' hrun)
    · intro hrun
      have hlt := hrun.lt
      -- A run begins in the piece, and is the piece, or behind it.
      rcases Nat.lt_or_ge i piece.length with hi | hi
      · exact .inl (hrun.eq_first hpiece hhead hi)
      · obtain ⟨i, rfl⟩ := Nat.exists_eq_add_of_le' hi
        obtain ⟨j, rfl⟩ := Nat.exists_eq_add_of_le' (hi.trans hlt.le)
        exact .inr ⟨(i, j), (hspans i j).mpr (hrun.unshift piece), rfl⟩
  · rw [List.map_cons, List.map_map]
    congr 1
    · unfold slice
      simp
    · exact List.map_congr_left fun span _ => (slice_shift piece l span).symm

end Mylib.Lib.Runs
