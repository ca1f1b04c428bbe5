import Mylib.Spec.Base.JsonGrammar

/-!
# `Mylib.Proofs.Base.JsonGaps`: whitespace and comments are skipped as the grammar says

`EatWhitesspaceAndComments` and `EatComment` on a text without a zero. Each loop
returns, and it stops behind a gap of the grammar (`eatWhitesspaceAndComments_spec`).
The other way round, a gap in front of something that is not one is eaten whole
(`eatWhitesspaceAndComments_gap`).
-/

set_option autoImplicit false

namespace Mylib.Proofs.Base

open Mylib.Lib.CString
open Mylib.Spec.Base
open JsonValueSerializer JsonGrammar

/-! ### The characters of the grammar as numbers -/

/-- The two line breaks. -/
theorem lineBreak_iff {c : WChar} : LineBreak c ↔ c = 10 ∨ c = 13 := by
  simp [LineBreak, wide]

/-- The four blanks. -/
theorem blank_iff {c : WChar} : Blank c ↔ c = 32 ∨ c = 10 ∨ c = 13 ∨ c = 9 := by
  simp [Blank, wide]

/-- Two gaps are one. By induction on the derivation of the first. -/
theorem gap_append {g g' : WString} (hg : Gap g) (hg' : Gap g') : Gap (g ++ g') := by
  induction hg with
  | nil => exact hg'
  | blank hc _ ih => exact Gap.blank hc ih
  | line hbody hc _ ih => simpa using Gap.line hbody hc ih
  | block hbody _ ih => simpa using Gap.block hbody ih

/-- A character of a text without zeros is not the terminator. -/
theorem ne_zero_of_mem {c : WChar} {p : WString} (hz : 0 ∉ p) (h : c ∈ p) : c ≠ 0 := by
  rintro rfl
  exact hz h

/-- The rest of a text without zeros has none. -/
theorem nulFree_tail {c : WChar} {p : WString} (hz : 0 ∉ c :: p) : 0 ∉ p := fun h =>
  hz (List.mem_cons_of_mem _ h)

/-! ### Line comments -/

/-- The line scan stops behind a line break and goes on otherwise. -/
theorem eatLineComment_cons {c : WChar} (p : WString) (hc : c ≠ 0) :
    eatLineComment (c :: p) = if LineBreak c then .ok p else eatLineComment p := by
  rw [eatLineComment]
  simp [hc, lineBreak_iff]

/-- The line scan stops at the first line break, or at the end if there is none. -/
theorem eatLineComment_spec {p : WString} (hz : 0 ∉ p) :
    ∃ q, eatLineComment p = .ok q ∧
      ((∃ body c, p = body ++ c :: q ∧ LineBody body ∧ LineBreak c) ∨
        (q = [] ∧ LineBody p)) := by
  induction p with
  | nil =>
    refine ⟨[], ?_, Or.inr ⟨rfl, fun c h => absurd h List.not_mem_nil⟩⟩
    rw [eatLineComment]
    simp
  | cons c p ih =>
    rw [eatLineComment_cons p (ne_zero_of_mem hz List.mem_cons_self)]
    by_cases hc : LineBreak c
    · refine ⟨p, if_pos hc, Or.inl ⟨[], c, rfl, fun c h => absurd h List.not_mem_nil, hc⟩⟩
    · obtain ⟨q, hq, hcases⟩ := ih (nulFree_tail hz)
      refine ⟨q, by rw [if_neg hc, hq], ?_⟩
      have hcons : ∀ {body : WString}, LineBody body → LineBody (c :: body) :=
        fun hbody => List.forall_mem_cons.mpr ⟨hc, hbody⟩
      cases hcases with
      | inl hbreak =>
        obtain ⟨body, c', rfl, hbody, hc'⟩ := hbreak
        exact Or.inl ⟨c :: body, c', rfl, hcons hbody, hc'⟩
      | inr hend => exact Or.inr ⟨hend.1, hcons hend.2⟩

/-- A line comment is eaten up to its line break. -/
theorem eatLineComment_break {body : WString} {c : WChar} (q : WString) (hz : 0 ∉ body)
    (hbody : LineBody body) (hc : LineBreak c) : eatLineComment (body ++ c :: q) = .ok q := by
  induction body with
  | nil =>
    have hne : c ≠ 0 := by
      rintro rfl
      simp [lineBreak_iff] at hc
    rw [List.nil_append, eatLineComment_cons q hne, if_pos hc]
  | cons b body ih =>
    rw [List.cons_append, eatLineComment_cons _ (ne_zero_of_mem hz List.mem_cons_self),
      if_neg (hbody b List.mem_cons_self)]
    exact ih (nulFree_tail hz) fun c h => hbody c (List.mem_cons_of_mem _ h)

/-- A line comment without a line break is eaten up to the end. -/
theorem eatLineComment_end {body : WString} (hz : 0 ∉ body) (hbody : LineBody body) :
    eatLineComment body = .ok [] := by
  obtain ⟨q, hq, hcases⟩ := eatLineComment_spec hz
  cases hcases with
  | inl hbreak =>
    obtain ⟨body', c, rfl, _, hc⟩ := hbreak
    exact absurd hc (hbody c (List.mem_append_right _ List.mem_cons_self))
  | inr hend => rw [hq, hend.1]

/-! ### Block comments -/

/-- The comment is closed here. -/
def ClosesHere (p : WString) : Prop := wide ['*', '/'] <+: p

/-- The two characters that end a block comment. -/
theorem closesHere_cons {c : WChar} {p : WString} :
    ClosesHere (c :: p) ↔ c = 42 ∧ ∃ q, p = 47 :: q := by
  cases p with
  | nil => simp [ClosesHere, wide]
  | cons d p => simp [ClosesHere, wide, eq_comm]

/-- The block scan stops behind the two characters of the end. -/
theorem eatBlockComment_close (q : WString) :
    eatBlockComment (wide ['*', '/'] ++ q) = .ok q := by
  rw [eatBlockComment]
  simp [wide]

/-- At any other character the block scan goes on. -/
theorem eatBlockComment_cons {c : WChar} {p : WString} (hc : c ≠ 0) (h : ¬ClosesHere (c :: p)) :
    eatBlockComment (c :: p) = eatBlockComment p := by
  rw [eatBlockComment]
  by_cases hstar : c = 42
  · subst hstar
    cases p with
    | nil => simp
    | cons d p =>
      have hd : d ≠ 47 := fun hd => h (closesHere_cons.mpr ⟨rfl, p, by rw [hd]⟩)
      simp [hd]
  · simp [hc, hstar]

/-- The body of a block comment, from its first character on. -/
theorem blockBody_cons {c : WChar} {body : WString} :
    BlockBody (c :: body) ↔ ¬ClosesHere (c :: body) ∧ BlockBody body := by
  rw [BlockBody, List.infix_cons_iff, not_or]
  rfl

/-- The block scan stops behind the first `*/`, or at the end if there is none. -/
theorem eatBlockComment_spec {p : WString} (hz : 0 ∉ p) :
    ∃ q, eatBlockComment p = .ok q ∧
      ((∃ body, p = body ++ wide ['*', '/'] ++ q ∧ BlockBody body) ∨
        (q = [] ∧ BlockBody p)) := by
  have hnil : BlockBody [] := by simp [BlockBody, wide]
  induction p with
  | nil =>
    refine ⟨[], ?_, Or.inr ⟨rfl, hnil⟩⟩
    rw [eatBlockComment]
    simp
  | cons c p ih =>
    by_cases hclose : ClosesHere (c :: p)
    · obtain ⟨q, hq⟩ := hclose
      refine ⟨q, hq ▸ eatBlockComment_close q, Or.inl ⟨[], hq.symm, hnil⟩⟩
    · obtain ⟨q, hq, hcases⟩ := ih (nulFree_tail hz)
      refine ⟨q, ?_, ?_⟩
      · rw [eatBlockComment_cons (ne_zero_of_mem hz List.mem_cons_self) hclose, hq]
      cases hcases with
      | inl hend =>
        obtain ⟨body, rfl, hbody⟩ := hend
        -- `c` cannot close the comment with the first character of the body.
        have hopen : ¬ClosesHere (c :: body) := fun h =>
          hclose (h.trans ⟨wide ['*', '/'] ++ q, by simp⟩)
        exact Or.inl ⟨c :: body, rfl, blockBody_cons.mpr ⟨hopen, hbody⟩⟩
      | inr hend => exact Or.inr ⟨hend.1, blockBody_cons.mpr ⟨hclose, hend.2⟩⟩

/-- A block comment is eaten as a whole. -/
theorem eatBlockComment_body {body : WString} (q : WString) (hz : 0 ∉ body)
    (hbody : BlockBody body) : eatBlockComment (body ++ wide ['*', '/'] ++ q) = .ok q := by
  induction body with
  | nil => exact eatBlockComment_close q
  | cons b body ih =>
    rw [blockBody_cons] at hbody
    have hopen : ¬ClosesHere (b :: (body ++ wide ['*', '/'] ++ q)) := by
      rw [closesHere_cons]
      rintro ⟨rfl, r, hr⟩
      -- The character behind `b` is the body's, or the star of the closing pair.
      cases body with
      | nil => simp [wide] at hr
      | cons d body =>
        have hd : d = 47 := by simpa using (List.cons.inj hr).1
        exact hbody.1 (closesHere_cons.mpr ⟨rfl, body, by rw [hd]⟩)
    show eatBlockComment (b :: (body ++ wide ['*', '/'] ++ q)) = .ok q
    rw [eatBlockComment_cons (ne_zero_of_mem hz List.mem_cons_self) hopen]
    exact ih (nulFree_tail hz) hbody.2

/-- A block comment that is not closed is eaten up to the end. -/
theorem eatBlockComment_end {body : WString} (hz : 0 ∉ body) (hbody : BlockBody body) :
    eatBlockComment body = .ok [] := by
  obtain ⟨q, hq, hcases⟩ := eatBlockComment_spec hz
  cases hcases with
  | inl hclose =>
    obtain ⟨body', rfl, _⟩ := hclose
    exact absurd ⟨body', q, rfl⟩ hbody
  | inr hend => rw [hq, hend.1]

/-! ### Gaps -/

/-- Nothing to skip: the end of the text, or a character that opens a token. -/
def Stops (q : WString) : Prop :=
  (∀ c, q.head? = some c → ¬Blank c) ∧ ¬wide ['/', '/'] <+: q ∧ ¬wide ['/', '*'] <+: q

/-- The prefix `g` of the text up to `q` is what `EatWhitesspaceAndComments` may
skip. -/
def Skipped (g q : WString) : Prop := Gap g ∨ (EndGap g ∧ q = [])

/-- At the end there is nothing to skip. -/
theorem stops_nil : Stops [] := by
  simp [Stops, wide]

/-- A text stops when its first character is neither a blank nor a slash. -/
theorem stops_cons {c : WChar} (q : WString) (hb : ¬Blank c) (hs : c ≠ 47) : Stops (c :: q) := by
  simp [Stops, wide, hb, Ne.symm hs]

/-- One blank is skipped. -/
theorem eat_blank {c : WChar} (p : WString) (hc : Blank c) :
    eatWhitesspaceAndComments (c :: p) = eatWhitesspaceAndComments p := by
  rw [eatWhitesspaceAndComments]
  simp [blank_iff.mp hc]

/-- A comment is skipped in one step of the loop. -/
theorem eat_comment {p q : WString} (h : eatComment ('/'.toNat :: p) = .ok (true, q))
    (hle : q.length ≤ p.length) :
    eatWhitesspaceAndComments ('/'.toNat :: p) = eatWhitesspaceAndComments q := by
  have hlt : q.length < ('/'.toNat :: p).length := Nat.lt_succ_of_le hle
  rw [eatWhitesspaceAndComments, deref_cons_zero, ok_bind, if_neg (by decide), if_pos rfl, h,
    ok_bind]
  exact dif_pos hlt

/-- One line comment is skipped. -/
theorem eat_line {p q : WString} (h : eatLineComment p = .ok q) (hle : q.length ≤ p.length) :
    eatWhitesspaceAndComments (wide ['/', '/'] ++ p) = eatWhitesspaceAndComments q := by
  refine @eat_comment ('/'.toNat :: p) q ?_ (Nat.le_succ_of_le hle)
  simp [eatComment, h]

/-- One block comment is skipped. -/
theorem eat_block {p q : WString} (h : eatBlockComment p = .ok q) (hle : q.length ≤ p.length) :
    eatWhitesspaceAndComments (wide ['/', '*'] ++ p) = eatWhitesspaceAndComments q := by
  refine @eat_comment ('*'.toNat :: p) q ?_ (Nat.le_succ_of_le hle)
  simp [eatComment, h]

/-- Where a token begins, nothing is skipped. -/
theorem eat_stops {q : WString} (h : Stops q) : eatWhitesspaceAndComments q = .ok q := by
  obtain ⟨hblank, hline, hblock⟩ := h
  rw [eatWhitesspaceAndComments]
  cases q with
  | nil => simp
  | cons c q =>
    -- A blank would have been skipped.
    have hb : ¬(c = 32 ∨ c = 10 ∨ c = 13 ∨ c = 9) := fun h => hblank c rfl (blank_iff.mpr h)
    by_cases hs : c = 47
    · subst hs
      cases q with
      | nil => simp [eatComment]
      | cons d q =>
        -- A slash that opens no comment stays, too.
        have hd : d ≠ 47 ∧ d ≠ 42 := by
          constructor
          · rintro rfl
            exact hline ⟨q, rfl⟩
          · rintro rfl
            exact hblock ⟨q, rfl⟩
        simp [eatComment, hd.1, hd.2]
    · simp [hs, not_or.mp hb]

/-- A gap is skipped, whatever comes behind it. -/
theorem eat_gap {g : WString} (q : WString) (hg : Gap g) (hz : 0 ∉ g) :
    eatWhitesspaceAndComments (g ++ q) = eatWhitesspaceAndComments q := by
  induction hg with
  | nil => rfl
  | blank hc _ ih =>
    rw [List.cons_append, eat_blank _ hc]
    exact ih (nulFree_tail hz)
  -- A line comment takes its line break with it.
  | @line body c g hbody hc _ ih =>
    simp only [List.mem_append, List.mem_cons, not_or] at hz
    have heat := eatLineComment_break (g ++ q) hz.1.2 hbody hc
    rw [show wide ['/', '/'] ++ body ++ c :: g ++ q = wide ['/', '/'] ++ (body ++ c :: (g ++ q)) by
        simp,
      eat_line heat (by simp; omega)]
    exact ih hz.2.2
  -- A block comment is eaten up to its `*/`.
  | @block body g hbody _ ih =>
    simp only [List.mem_append, not_or] at hz
    have heat := eatBlockComment_body (g ++ q) hz.1.1.2 hbody
    rw [show wide ['/', '*'] ++ body ++ wide ['*', '/'] ++ g ++ q
          = wide ['/', '*'] ++ (body ++ wide ['*', '/'] ++ (g ++ q)) by simp,
      eat_block heat (by simp; omega)]
    exact ih hz.2

/-- A whole gap is skipped. By induction on its derivation. -/
theorem eatWhitesspaceAndComments_gap {g q : WString} (hg : Gap g) (hz : 0 ∉ g) (hq : Stops q) :
    eatWhitesspaceAndComments (g ++ q) = .ok q := by
  rw [eat_gap q hg hz, eat_stops hq]

/-- What the text may end with is skipped to the end. -/
theorem eatWhitesspaceAndComments_endGap {e : WString} (he : EndGap e) (hz : 0 ∉ e) :
    eatWhitesspaceAndComments e = .ok [] := by
  cases he with
  | gap hg =>
    have heat := eatWhitesspaceAndComments_gap hg hz stops_nil
    rwa [List.append_nil] at heat
  | line hg hbody =>
    simp only [List.mem_append, not_or] at hz
    rw [List.append_assoc, eat_gap _ hg hz.1.1, eat_line (eatLineComment_end hz.2 hbody) (by simp),
      eat_stops stops_nil]
  | block hg hbody =>
    simp only [List.mem_append, not_or] at hz
    rw [List.append_assoc, eat_gap _ hg hz.1.1,
      eat_block (eatBlockComment_end hz.2 hbody) (by simp), eat_stops stops_nil]

/-- A skipped part stays one with a complete piece of gap in front. -/
theorem Skipped.cons {a g q : WString} (h : Skipped g q) (ha : ∀ g', Gap g' → Gap (a ++ g')) :
    Skipped (a ++ g) q := by
  cases h with
  | inl hg => exact Or.inl (ha g hg)
  | inr hend =>
    refine Or.inr ⟨?_, hend.2⟩
    cases hend.1 with
    | gap hg => exact EndGap.gap (ha _ hg)
    | line hg hbody => simpa using EndGap.line (ha _ hg) hbody
    | block hg hbody => simpa using EndGap.block (ha _ hg) hbody

/-- On a text without a zero the skipping returns, and stops behind a gap. -/
theorem eatWhitesspaceAndComments_spec (p : WString) (hz : 0 ∉ p) :
    ∃ g q, eatWhitesspaceAndComments p = .ok q ∧ p = g ++ q ∧ Stops q ∧ Skipped g q := by
  -- On the length: a comment is skipped in one step.
  induction hn : p.length using Nat.strong_induction_on generalizing p with
  | _ n ih =>
    by_cases hstop : Stops p
    · exact ⟨[], p, eat_stops hstop, rfl, hstop, Or.inl Gap.nil⟩
    by_cases hline : wide ['/', '/'] <+: p
    · obtain ⟨r, rfl⟩ := hline
      have hzr : 0 ∉ r := fun h => hz (List.mem_append_right _ h)
      obtain ⟨q, hq, hcases⟩ := eatLineComment_spec hzr
      cases hcases with
      | inl hbreak =>
        obtain ⟨body, c, rfl, hbody, hc⟩ := hbreak
        have hzq : 0 ∉ q := fun h => hzr (List.mem_append_right _ (List.mem_cons_of_mem _ h))
        obtain ⟨g, q', heat, rfl, hstops, hskip⟩ :=
          ih _ (by simp [wide] at hn; omega) q hzq rfl
        refine ⟨wide ['/', '/'] ++ body ++ [c] ++ g, q', ?_, by simp, hstops, ?_⟩
        · rw [eat_line hq (by simp; omega), heat]
        · refine hskip.cons fun g' hg' => ?_
          simpa using Gap.line hbody hc hg'
      | inr hend =>
        obtain ⟨rfl, hbody⟩ := hend
        refine ⟨wide ['/', '/'] ++ r, [], ?_, by simp, stops_nil, Or.inr ⟨?_, rfl⟩⟩
        · rw [eat_line hq (by simp), eat_stops stops_nil]
        · exact EndGap.line Gap.nil hbody
    by_cases hblock : wide ['/', '*'] <+: p
    · obtain ⟨r, rfl⟩ := hblock
      have hzr : 0 ∉ r := fun h => hz (List.mem_append_right _ h)
      obtain ⟨q, hq, hcases⟩ := eatBlockComment_spec hzr
      cases hcases with
      | inl hclose =>
        obtain ⟨body, rfl, hbody⟩ := hclose
        have hzq : 0 ∉ q := fun h => hzr (List.mem_append_right _ h)
        obtain ⟨g, q', heat, rfl, hstops, hskip⟩ :=
          ih _ (by simp [wide] at hn; omega) q hzq rfl
        refine ⟨wide ['/', '*'] ++ body ++ wide ['*', '/'] ++ g, q', ?_, by simp, hstops, ?_⟩
        · rw [eat_block hq (by simp; omega), heat]
        · exact hskip.cons fun g' hg' => Gap.block hbody hg'
      | inr hend =>
        obtain ⟨rfl, hbody⟩ := hend
        refine ⟨wide ['/', '*'] ++ r, [], ?_, by simp, stops_nil, Or.inr ⟨?_, rfl⟩⟩
        · rw [eat_block hq (by simp), eat_stops stops_nil]
        · exact EndGap.block Gap.nil hbody
    · cases p with
      | nil => exact absurd stops_nil hstop
      | cons c p =>
        -- What does not stop and opens no comment starts with a blank.
        have hc : Blank c := by
          by_contra hc
          exact hstop ⟨by simpa using hc, hline, hblock⟩
        obtain ⟨g, q, heat, rfl, hstops, hskip⟩ :=
          ih _ (by simp at hn; omega) p (nulFree_tail hz) rfl
        refine ⟨c :: g, q, by rw [eat_blank _ hc, heat], rfl, hstops, ?_⟩
        exact hskip.cons (a := [c]) fun g' hg' => Gap.blank hc hg'

end Mylib.Proofs.Base
