import Mylib.Proofs.Base.JsonSafety
import Mylib.Proofs.Base.JsonAccepts
import Mylib.Spec.Base.JsonReports

/-!
# `Mylib.Proofs.Base.JsonRecords`: where the parser records an error

`SetErrorCode` is called from few places. A call of the parser leaves `error_code_`
as it was, or it records an error and the text is one that is reported
(`Records`). This is followed from `ParseStringToken` up to `BuildValue`.

The token in front of a value is read twice, once by the loop around it and once by
`BuildValue`. The statements about a loop and about a recursive call therefore begin
before the first of the two reads.

The two container loops are one loop (`itemLoop`) that differs in how an item is
read and put into the container.
-/

set_option autoImplicit false

namespace Mylib.Proofs.Base

open Mylib.Lib
open Mylib.Lib.CString
open Mylib.Spec.Base
open JsonValueSerializer JsonGrammar

/-! ### Recording -/

/-- Between `s` and `s'` the code has not changed, or an error has been recorded and
`report` holds. -/
def Records (s s' : JsonValueSerializer) (report : Prop) : Prop :=
  s'.errorCode = s.errorCode ∨ s'.errorCode ≠ .noError ∧ report

/-- A code that is left alone needs no reason. -/
theorem Records.kept {s s' : JsonValueSerializer} {report : Prop}
    (h : s'.errorCode = s.errorCode) : Records s s' report := Or.inl h

/-- A reason may be weakened. -/
theorem Records.mono {s s' : JsonValueSerializer} {report report' : Prop}
    (h : Records s s' report) (himp : report → report') : Records s s' report' :=
  h.imp_right fun h => ⟨h.1, himp h.2⟩

/-- Two calls in a row, with the same reason. -/
theorem Records.trans {s s' s'' : JsonValueSerializer} {report : Prop} (h : Records s s' report)
    (h' : Records s' s'' report) : Records s s'' report := by
  cases h' with
  | inr hnew => exact Or.inr hnew
  | inl hkept =>
    cases h with
    | inl hkept' => exact Or.inl (hkept.trans hkept')
    | inr hnew => exact Or.inr ⟨hkept ▸ hnew.1, hnew.2⟩

/-- An error that is stored is one. -/
theorem setErrorCode_records {s s' : JsonValueSerializer} {error : ParseError}
    {errorPos : WString} (herror : error ≠ .noError)
    (h : s.setErrorCode error errorPos = .ok s') : Records s s' True := by
  unfold setErrorCode at h
  obtain ⟨r, hr⟩ := errorPosition_returns s.startPos errorPos 1 1
  rw [hr, ok_bind] at h
  cases r with
  | none =>
    cases h
    exact Records.kept rfl
  | some r =>
    cases h
    exact Or.inr ⟨herror, trivial⟩

/-- The loop of `SetErrorCode` finds every position of the text. -/
theorem errorPosition_of_suffix {pos errorPos : WString} (hz : 0 ∉ pos) (h : errorPos <:+ pos)
    (line col : Nat) : ∃ r, errorPosition pos errorPos line col = .ok (some r) := by
  induction pos generalizing line col with
  | nil =>
    obtain rfl : errorPos = [] := List.suffix_nil.mp h
    exact ⟨(line, col), by rw [errorPosition, if_pos rfl]; rfl⟩
  | cons c pos ih =>
    by_cases heq : c :: pos = errorPos
    · exact ⟨(line, col), by rw [errorPosition, if_pos heq]; rfl⟩
    have hsuffix : errorPos <:+ pos := (List.suffix_cons_iff.mp h).resolve_left (Ne.symm heq)
    have hc : c ≠ 0 := ne_zero_of_mem hz List.mem_cons_self
    rw [errorPosition, if_neg heq, deref_cons_zero, ok_bind, if_neg hc, next_cons, ok_bind]
    split_ifs
    · exact ih (nulFree_tail hz) hsuffix _ _
    · exact ih (nulFree_tail hz) hsuffix _ _

/-- Inside the text `SetErrorCode` does record the error. -/
theorem setErrorCode_recorded {s : JsonValueSerializer} (error : ParseError) {errorPos : WString}
    (hz : 0 ∉ s.startPos) (hpos : errorPos <:+ s.startPos) (herror : error ≠ .noError) :
    ∃ s', s.setErrorCode error errorPos = .ok s' ∧ ErrorOnly s s' ∧ s'.errorCode ≠ .noError := by
  obtain ⟨r, hr⟩ := errorPosition_of_suffix hz hpos 1 1
  unfold setErrorCode
  rw [hr, ok_bind]
  exact ⟨_, rfl, ⟨rfl, rfl, rfl, rfl⟩, herror⟩

/-! ### String literals -/

/-- The characters of two pieces of a literal. -/
theorem chars_append {t t' w w' : WString} (h : Chars t w) (h' : Chars t' w') :
    Chars (t ++ t') (w ++ w') := by
  induction h with
  | nil => exact h'
  | raw hquote hback _ ih => exact Chars.raw hquote hback ih
  | short he _ ih => exact Chars.short he ih
  | hex2 ha hb _ ih => exact Chars.hex2 ha hb ih
  | hex4 ha hb hc hd _ ih => exact Chars.hex4 ha hb hc hd ih

/-- A text begins with the inside of a literal, up to its end, to a quote or to an
invalid escape. -/
theorem exists_chars (q : WString) :
    ∃ t w r, q = t ++ r ∧ Chars t w ∧
      (r = [] ∨ (∃ r', r = '"'.toNat :: r') ∨ ∃ e, r = '\\'.toNat :: e ∧ NoEscape e) := by
  -- On the length: an escape is taken as a whole.
  induction hn : q.length using Nat.strong_induction_on generalizing q with
  | _ n ih =>
    cases q with
    | nil => exact ⟨[], [], [], rfl, Chars.nil, Or.inl rfl⟩
    | cons c q =>
      by_cases hquote : c = '"'.toNat
      · subst hquote
        exact ⟨[], [], _, rfl, Chars.nil, Or.inr (Or.inl ⟨q, rfl⟩)⟩
      by_cases hback : c = '\\'.toNat
      · subst hback
        by_cases hescape : NoEscape q
        · exact ⟨[], [], _, rfl, Chars.nil, Or.inr (Or.inr ⟨q, rfl, hescape⟩)⟩
        simp only [NoEscape, not_forall, not_not] at hescape
        obtain ⟨a, v, r, ha, rfl⟩ := hescape
        have hlt : r.length < n := by
          rw [← hn, List.length_cons, List.length_append]
          omega
        obtain ⟨t, w, r', rfl, ht, hr'⟩ := ih r.length hlt r rfl
        exact ⟨'\\'.toNat :: a ++ t, v ++ w, r', by simp, chars_append ha ht, hr'⟩
      · have hlt : q.length < n := by
          rw [← hn, List.length_cons]
          omega
        obtain ⟨t, w, r, rfl, ht, hr⟩ := ih q.length hlt q rfl
        exact ⟨c :: t, c :: w, r, rfl, Chars.raw hquote hback ht, hr⟩

/-- The scan reports a backslash that begins no escape, and where. -/
theorem scanString_noEscape (pre : WString) {e : WString} (h : NoEscape e) :
    scanString (pre ++ '\\'.toNat :: e) pre.length = .ok (.invalidEscape (pre.length + 1)) := by
  rw [scanString_step (deref_append_length pre _), if_neg (by simp), if_pos rfl, deref_append,
    deref_cons_succ]
  cases e with
  | nil => rfl
  | cons c e =>
    rw [deref_cons_zero, ok_bind]
    cases hc : escapeDigits c with
    | none => rfl
    | some k =>
      obtain ⟨ok, hread, hok⟩ := readHexDigits_spec (n := pre.length + 1) (i := 1)
        (pre ++ ['\\'.toNat, c]) e (by simp) k
      rw [List.append_assoc] at hread
      show (readHexDigits (pre ++ (['\\'.toNat, c] ++ e)) (pre.length + 1) 1 k >>= _) = _
      rw [hread, ok_bind]
      cases ok with
      | false => rfl
      | true =>
        -- The letter with its hex digits would be an escape.
        obtain ⟨hs, r, rfl, rfl, hhex⟩ := hok rfl
        obtain ⟨d, hd⟩ := chars_escape hc hhex
        exact absurd (by simp) (h (c :: (hs ++ [])) [d] r (hd [] [] Chars.nil))

/-- What `ParseStringToken` does at a quote: it takes a literal, or it records an
invalid escape, or the literal has no end. -/
theorem parseStringToken_records (s : JsonValueSerializer) {q : WString} {token : Token}
    {s' : JsonValueSerializer} (hz : 0 ∉ q) (hq : s.jsonPos = '"'.toNat :: q)
    (h : s.parseStringToken = .ok (token, s')) :
    Records s s' (BadToken s.jsonPos ∧ token = kInvalidToken) := by
  -- The characters of the literal, and what ends them.
  obtain ⟨t, w, r, rfl, ht, hr⟩ := exists_chars q
  rw [List.mem_append, not_or] at hz
  have hscan : scanString s.jsonPos 1
      = scanString (('"'.toNat :: t) ++ r) ('"'.toNat :: t).length := by
    rw [hq]
    exact scanString_chars ['"'.toNat] r ht hz.1
  unfold parseStringToken at h
  rw [hscan] at h
  rcases hr with rfl | ⟨r', rfl⟩ | ⟨e, rfl, he⟩
  -- The text ends inside of the literal: no error is recorded.
  · rw [scanString_step (deref_append_length _ [])] at h
    cases h
    exact Records.kept rfl
  -- The literal is closed.
  · rw [scanString_step (deref_append_length _ _)] at h
    cases h
    exact Records.kept rfl
  -- A backslash that begins no escape: the scan records the error.
  · rw [scanString_noEscape _ he, ok_bind] at h
    obtain ⟨errorPos, -, h⟩ := bind_eq_ok_iff.mp h
    obtain ⟨s₁, hset, h⟩ := bind_eq_ok_iff.mp h
    cases h
    have hbad : BadToken s.jsonPos := ⟨[], t, w, e, Gap.nil, ht, he, hq⟩
    exact (setErrorCode_records (by simp) hset).mono fun _ => ⟨hbad, rfl⟩

/-- A literal with an invalid escape is reported. -/
theorem parseStringToken_bad {s : JsonValueSerializer} {t w e : WString} (hin : InText s)
    (ht : Chars t w) (he : NoEscape e) (hpos : s.jsonPos = '"'.toNat :: (t ++ '\\'.toNat :: e)) :
    ∃ s', s.parseStringToken = .ok (kInvalidToken, s') ∧ ErrorOnly s s' ∧
      s'.errorCode ≠ .noError := by
  have hz : 0 ∉ t := fun h => hin.nulFree (by simp [hpos, h])
  have hsplit : s.jsonPos = (('"'.toNat :: t) ++ ['\\'.toNat]) ++ e := by simp [hpos]
  have hscan : scanString s.jsonPos 1
      = .ok (.invalidEscape (('"'.toNat :: t) ++ ['\\'.toNat]).length) := by
    rw [hpos]
    refine (scanString_chars ['"'.toNat] _ ht hz).trans ?_
    refine (scanString_noEscape ('"'.toNat :: t) he).trans ?_
    rw [List.length_append]
    rfl
  have hwithin : e <:+ s.startPos := List.IsSuffix.trans ⟨_, hsplit.symm⟩ hin.within
  obtain ⟨s', hset, herror, hcode⟩ :=
    setErrorCode_recorded .invalidEscape hin.nul_free hwithin (by simp)
  refine ⟨s', ?_, herror, hcode⟩
  unfold parseStringToken
  rw [hscan, ok_bind]
  show (advance s.jsonPos _ >>= _) = _
  rw [hsplit, advance_append_length, ok_bind, hset]
  rfl

/-! ### Tokens -/

/-- `ParseToken` is `ParseStringToken` at a quote, and otherwise changes `json_pos_`
alone. -/
theorem parseToken_cases {s s' : JsonValueSerializer} {token : Token} (hz : 0 ∉ s.jsonPos)
    (h : s.parseToken = .ok (token, s')) :
    (∃ g q, Gap g ∧ s.jsonPos = g ++ '"'.toNat :: q ∧
      (moveTo s ('"'.toNat :: q)).parseStringToken = .ok (token, s')) ∨
    ∃ q, s' = moveTo s q := by
  obtain ⟨g, q, heat, hpos, -, hskip⟩ := eatWhitesspaceAndComments_spec s.jsonPos hz
  unfold parseToken at h
  rw [heat, ok_bind, deref_zero, ok_bind] at h
  by_cases hquote : q.headD 0 = '"'.toNat
  -- The only token whose scan can record an error is a literal.
  · obtain ⟨r, rfl⟩ : ∃ r, q = '"'.toNat :: r := by
      cases q with
      | nil => simp at hquote
      | cons c r => exact ⟨r, by rw [← hquote]; rfl⟩
    exact Or.inl ⟨g, r, hskip.gap (by simp), hpos, h⟩
  · -- Every other branch returns the state it began with.
    right
    refine ⟨q, ?_⟩
    have done : ∀ {x : Except Fault Token},
        (x >>= fun token => pure (token, moveTo s q)) = .ok (token, s') → s' = moveTo s q := by
      intro x hx
      obtain ⟨_, -, hx⟩ := bind_eq_ok_iff.mp hx
      exact (congrArg Prod.snd (Except.ok.inj hx)).symm
    split_ifs at h
    · cases h
      rfl
    · exact done h
    · exact done h
    · exact done h
    · exact done h
    · cases hpunct : punctuator (q.headD 0) with
      | none =>
        rw [hpunct] at h
        cases h
        rfl
      | some type =>
        rw [hpunct] at h
        cases h
        rfl

/-- A token sets the code only if it is a literal that breaks off at an invalid escape. -/
theorem parseToken_records {s s' : JsonValueSerializer} {token : Token} (hz : 0 ∉ s.jsonPos)
    (h : s.parseToken = .ok (token, s')) :
    Records s s' (BadToken s.jsonPos ∧ token = kInvalidToken) := by
  rcases parseToken_cases hz h with ⟨g, q, hg, hpos, hstring⟩ | ⟨q, rfl⟩
  · have hzq : 0 ∉ q := fun h => hz (by simp [hpos, h])
    refine (parseStringToken_records (moveTo s ('"'.toNat :: q)) hzq rfl hstring).mono ?_
    rintro ⟨⟨g', t, w, e, hg', ht, he, hq⟩, htoken⟩
    refine ⟨⟨g ++ g', t, w, e, gap_append hg hg', ht, he, ?_⟩, htoken⟩
    rw [hpos, List.append_assoc, ← hq]
    rfl
  · exact Records.kept rfl

/-- A bad token is reported, and is still the next token after that. -/
theorem parseToken_bad {s : JsonValueSerializer} (hin : InText s) (h : BadToken s.jsonPos) :
    ∃ s', s.parseToken = .ok (kInvalidToken, s') ∧ Moved s s' ∧ s'.stackDepth = s.stackDepth ∧
      BadToken s'.jsonPos ∧ s'.errorCode ≠ .noError := by
  obtain ⟨g, t, w, e, hg, ht, he, hpos⟩ := h
  have hzg : 0 ∉ g := fun h => hin.nulFree (by simp [hpos, h])
  have hmoved : Moved s (moveTo s ('"'.toNat :: (t ++ '\\'.toNat :: e))) :=
    moved_moveTo ⟨g, hpos.symm⟩
  obtain ⟨s', hstring, herror, hcode⟩ := parseStringToken_bad (hin.moved hmoved) ht he rfl
  refine ⟨s', ?_, hmoved.trans herror.moved, herror.stackDepth, ?_, hcode⟩
  · have heat : eatWhitesspaceAndComments s.jsonPos = .ok ('"'.toNat :: (t ++ '\\'.toNat :: e)) :=
      hpos ▸ eatWhitesspaceAndComments_gap hg hzg (stops_cons _ (by decide) (by decide))
    unfold parseToken
    rw [heat, ok_bind, deref_cons_zero, ok_bind, if_neg (by decide), if_neg (by decide),
      if_neg (by decide), if_neg (by decide), if_neg (by decide), if_pos rfl]
    exact hstring
  · rw [herror.jsonPos]
    exact ⟨[], t, w, e, Gap.nil, ht, he, rfl⟩

/-- A token of one character: nothing but `json_pos_` has changed. -/
theorem parseToken_at_punctuator {s s' : JsonValueSerializer} {token : Token} {c : WChar}
    {type : TokenType} (hz : 0 ∉ s.jsonPos) (h : s.parseToken = .ok (token, s'))
    (htype : token.type = type) (hc : punctuator c = some type) :
    ∃ g r, Gap g ∧ s.jsonPos = g ++ c :: r ∧ token = ⟨type, some (c :: r), 1⟩ ∧
      s' = moveTo s (c :: r) := by
  obtain ⟨g, token', s'', hparse, hpos, hskip, htoken, -, -⟩ := parseToken_run s hz
  rw [h] at hparse
  cases hparse
  obtain ⟨r, hr, -⟩ := tokenAt_punctuator htoken htype hc
  have hg : Gap g := hskip.gap (by simp [hr])
  rw [hr] at hpos
  have hzg : 0 ∉ g := fun h => hz (by simp [hpos, h])
  have hexact := parseToken_punctuator hpos hg hc hzg
  rw [h] at hexact
  cases hexact
  exact ⟨g, r, hg, hpos, rfl, rfl⟩

/-- A string token is a literal of the grammar. -/
theorem tokenAt_string {token : Token} {q : WString} (h : TokenAt token q)
    (htype : token.type = .string) :
    ∃ t w r, Chars t w ∧ q = quoted t ++ r ∧
      token = ⟨.string, some (quoted t ++ r), (quoted t).length⟩ := by
  cases h with
  | invalid _ => cases htype
  | endOfInput => cases htype
  | lexeme r hlex =>
    cases hlex with
    | string hchars => exact ⟨_, _, r, hchars, rfl, rfl⟩
    | punctuator hc =>
      rcases punctuator_cases hc with h | h | h | h | h | h <;> cases h.2.symm.trans htype
    | _ => cases htype

/-- A string token: nothing but `json_pos_` has changed. -/
theorem parseToken_at_string {s s' : JsonValueSerializer} {token : Token} (hz : 0 ∉ s.jsonPos)
    (h : s.parseToken = .ok (token, s')) (htype : token.type = .string) :
    ∃ g t w r, Gap g ∧ Chars t w ∧ s.jsonPos = g ++ (quoted t ++ r) ∧
      token = ⟨.string, some (quoted t ++ r), (quoted t).length⟩ ∧
      s' = moveTo s (quoted t ++ r) := by
  obtain ⟨g, token', s'', hparse, hpos, hskip, htoken, -, -⟩ := parseToken_run s hz
  rw [h] at hparse
  cases hparse
  obtain ⟨t, w, r, ht, hr, -⟩ := tokenAt_string htoken htype
  have hg : Gap g := hskip.gap (by simp [hr, quoted])
  rw [hr] at hpos
  have hzt : 0 ∉ g ++ quoted t := fun h => hz (by
    rw [hpos, ← List.append_assoc]
    exact List.mem_append_left r h)
  have hexact := parseToken_lexeme hpos hg (Lexeme.string ht) (by simp) hzt
  rw [h] at hexact
  cases hexact
  exact ⟨g, t, w, r, hg, ht, hpos, rfl, rfl⟩

/-- Where `ParseToken` finds neither a string nor a closing brace, there is none. -/
theorem keyMissing_of_token {s s' : JsonValueSerializer} {token : Token} (hz : 0 ∉ s.jsonPos)
    (h : s.parseToken = .ok (token, s')) (hstring : token.type ≠ .string)
    (hend : token.type ≠ .objectEnd) : KeyMissing s.jsonPos := by
  constructor
  · intro g t w r hg ht hpos
    have hzt : 0 ∉ g ++ quoted t := fun h => hz (by
      rw [hpos, ← List.append_assoc]
      exact List.mem_append_left r h)
    have hfound := parseToken_lexeme hpos hg (Lexeme.string ht) (by simp) hzt
    rw [h] at hfound
    cases hfound
    exact hstring rfl
  · intro g r hg hpos
    have hzg : 0 ∉ g := fun h => hz (by simp [hpos, h])
    have hfound := parseToken_punctuator hpos hg punctuator_brace hzg
    rw [h] at hfound
    cases hfound
    exact hend rfl

/-- Where `ParseToken` finds no opening bracket or brace, there is none. -/
theorem containerMissing_of_token {s s' : JsonValueSerializer} {token : Token}
    (hz : 0 ∉ s.jsonPos) (h : s.parseToken = .ok (token, s')) (harray : token.type ≠ .arrayBegin)
    (hobject : token.type ≠ .objectBegin) : ContainerMissing s.jsonPos := by
  have hnone : ∀ {c : WChar} {type : TokenType} {g r : WString}, punctuator c = some type →
      token.type ≠ type → Gap g → s.jsonPos ≠ g ++ c :: r := by
    intro c type g r hc hne hg hpos
    have hzg : 0 ∉ g := fun h => hz (by simp [hpos, h])
    have hfound := parseToken_punctuator hpos hg hc hzg
    rw [h] at hfound
    cases hfound
    exact hne rfl
  intro g r hg
  exact ⟨hnone rfl harray hg, hnone rfl hobject hg⟩

/-! ### Behind an item -/

/-- What `afterItem` may have recorded between `s` and `s'`. Where there is more,
the state behind the comma has the code of `s` still. -/
def AfterRecords (s s' : JsonValueSerializer) : AfterItem → Prop
  | .bad => Records s s' (BadToken s.jsonPos)
  | .closed _ => s'.errorCode = s.errorCode
  | .more token => ∃ g u, Gap g ∧ s.jsonPos = g ++ ','.toNat :: u ∧
      (moveTo s u).parseToken = .ok (token, s')

/-- Behind an item no code is set except for such a literal, since trailing commas are allowed. -/
theorem afterItem_records {s s' : JsonValueSerializer} {closing : TokenType} {close : WChar}
    {res : AfterItem} (hclose : punctuator close = some closing) (hz : 0 ∉ s.jsonPos)
    (hallow : s.allowTrailingComma = true) (h : s.afterItem closing = .ok (res, s')) :
    AfterRecords s s' res := by
  unfold afterItem at h
  obtain ⟨⟨token, s₁⟩, hparse, h⟩ := bind_eq_ok_iff.mp h
  by_cases hcomma : token.type = .listSeparator
  -- Behind a comma the next token decides.
  · obtain ⟨g, u, hg, hpos, rfl, rfl⟩ :=
      parseToken_at_punctuator hz hparse hcomma punctuator_comma
    have hzu : 0 ∉ u := fun h => hz (by simp [hpos, h])
    simp only [if_true, skip_punctuator (moveTo_jsonPos s _), ok_bind, moveTo_moveTo] at h
    obtain ⟨⟨token', s₂⟩, hparse', h⟩ := bind_eq_ok_iff.mp h
    by_cases hend : token'.type = closing
    · obtain ⟨-, r, -, -, rfl, rfl⟩ := parseToken_at_punctuator hzu hparse' hend hclose
      simp only [if_true, moveTo_allowTrailingComma, hallow] at h
      cases h
      rfl
    · simp only [if_neg hend] at h
      cases h
      exact ⟨g, u, hg, hpos, hparse'⟩
  -- Without a comma it is the end of the container, or something that is neither.
  · simp only [if_neg hcomma] at h
    by_cases hend : token.type = closing
    · obtain ⟨-, r, -, -, rfl, rfl⟩ := parseToken_at_punctuator hz hparse hend hclose
      simp only [if_true] at h
      cases h
      rfl
    · simp only [if_neg hend] at h
      cases h
      exact (parseToken_records hz hparse).mono And.left

/-! ### The loops -/

section

variable {D α β : Type}

/-- The loop of a container: `read` reads an item from the token it begins with, and
`push` puts it into the container. -/
def itemLoop
    (read : JsonValueSerializer → Token → Except Fault (Option α × JsonValueSerializer))
    (closing : TokenType) (push : List β → α → List β) (self : JsonValueSerializer)
    (token : Token) (node : List β) :
    Except Fault (Option (List β × Token) × JsonValueSerializer) :=
  if token.type = closing then return (some (node, token), self)
  else do
    let (item, s₁) ← read self token
    match item with
    | none => return (none, s₁)
    | some a =>
      let (after, s₂) ← s₁.afterItem closing
      match after with
      | .bad => return (none, s₂)
      | .closed token => return (some (push node a, token), s₂)
      | .more token =>
        if _ : s₂.jsonPos.length < self.jsonPos.length then
          itemLoop read closing push s₂ token (push node a)
        else .error .stall
termination_by self.jsonPos.length

/-- A member as the loop for an object reads it. -/
def readMember
    (build : JsonValueSerializer → Except Fault (Option (Value D) × JsonValueSerializer))
    (self : JsonValueSerializer) (token : Token) :
    Except Fault (Option (WString × Value D) × JsonValueSerializer) := do
  let (dictKey, s₁) ← readKey (D := D) self token
  match dictKey with
  | none => return (none, s₁)
  | some key =>
    let (dictValue, s₂) ← build s₁
    return (dictValue.map (key, ·), s₂)

/-- The array loop, written over what it does with one item. -/
theorem arrayLoop_eq_itemLoop
    (build : JsonValueSerializer → Except Fault (Option (Value D) × JsonValueSerializer))
    (s : JsonValueSerializer) (token : Token) (node : List (Value D)) :
    arrayLoop build s token node
      = itemLoop (fun s _ => build s) .arrayEnd (fun node v => node ++ [v]) s token node := by
  induction hn : s.jsonPos.length using Nat.strong_induction_on generalizing s token node with
  | _ n ih =>
    rw [arrayLoop, itemLoop]
    by_cases htype : token.type = .arrayEnd
    · rw [if_pos htype, if_pos htype]
    rw [if_neg htype, if_neg htype]
    refine bind_congr fun built => ?_
    rcases built with ⟨_ | v, s₁⟩
    · rfl
    refine bind_congr fun found => ?_
    rcases found with ⟨_ | _ | tok, s₂⟩
    · rfl
    · rfl
    · refine dite_congr rfl (fun hlt => ?_) fun _ => rfl
      exact ih _ (hn ▸ hlt) s₂ tok _ rfl

/-- The object loop in the same way, so that both need one lemma only. -/
theorem objectLoop_eq_itemLoop
    (build : JsonValueSerializer → Except Fault (Option (Value D) × JsonValueSerializer))
    (s : JsonValueSerializer) (token : Token) (node : List (WString × Value D)) :
    objectLoop build s token node
      = itemLoop (readMember build) .objectEnd
          (fun node m => Value.setWithoutPathExpansion m.1 m.2 node) s token node := by
  induction hn : s.jsonPos.length using Nat.strong_induction_on generalizing s token node with
  | _ n ih =>
    rw [objectLoop, itemLoop]
    -- Both loops take the same branches, one after the other.
    by_cases htype : token.type = .objectEnd
    · rw [if_pos htype, if_pos htype]
    rw [if_neg htype, if_neg htype, readMember, bind_assoc]
    refine bind_congr fun key => ?_
    rcases key with ⟨_ | key, s₀⟩
    · rfl
    show _ = (build s₀ >>= _) >>= _
    rw [bind_assoc]
    refine bind_congr fun built => ?_
    rcases built with ⟨_ | v, s₁⟩
    · rfl
    refine bind_congr fun found => ?_
    rcases found with ⟨_ | _ | tok, s₂⟩
    · rfl
    · rfl
    · refine dite_congr rfl (fun hlt => ?_) fun _ => rfl
      exact ih _ (hn ▸ hlt) s₂ tok _ rfl

/-- A state in which the text at depth `d` can be read on. -/
structure Ready (d : Nat) (s : JsonValueSerializer) : Prop where
  nulFree : 0 ∉ s.jsonPos
  depth : s.stackDepth = d
  allow : s.allowTrailingComma = true

/-- A call that only moves forward leaves the state ready. -/
theorem Ready.moved {d : Nat} {s s' : JsonValueSerializer} (h : Ready d s) (hmoved : Moved s s')
    (hdepth : s'.stackDepth = d) : Ready d s' :=
  ⟨hmoved.nulFree h.nulFree, hdepth, hmoved.allowTrailingComma.trans h.allow⟩

/-- So does moving the cursor by hand. -/
theorem Ready.moveTo {d : Nat} {s : JsonValueSerializer} {p : WString} (h : Ready d s)
    (hp : p <:+ s.jsonPos) : Ready d (moveTo s p) :=
  h.moved (moved_moveTo hp) h.depth

/-- `ParseToken` from such a state leads to one. -/
theorem Ready.parseToken {d : Nat} {s s' : JsonValueSerializer} {token : Token} (h : Ready d s)
    (hparse : s.parseToken = .ok (token, s')) :
    Ready d s' ∧ ∃ g, s.jsonPos = g ++ s'.jsonPos ∧ Skipped g s'.jsonPos ∧
      TokenAt token s'.jsonPos := by
  obtain ⟨g, token', s'', hrun, hpos, hskip, htoken, hmoved, hdepth⟩ := parseToken_run s h.nulFree
  rw [hparse] at hrun
  cases hrun
  exact ⟨h.moved hmoved (hdepth.trans h.depth), g, hpos, hskip, htoken⟩

/-- What is asked of `read`, with the token in front of the item read from `s₀`: it
records an error only where `report` has one, and what it reads is an item. -/
def ReadRecords (d : Nat) (closing : TokenType) (item : WString → α → Prop)
    (report : WString → Prop)
    (read : JsonValueSerializer → Token → Except Fault (Option α × JsonValueSerializer)) : Prop :=
  ∀ {s₀ s s' : JsonValueSerializer} {token : Token} {r : Option α}, Ready d s₀ →
    s₀.parseToken = .ok (token, s) → token.type ≠ closing → read s token = .ok (r, s') →
    Records s₀ s' (report s₀.jsonPos) ∧
      ∀ a, r = some a → Ready d s' ∧
        ∃ g t, s₀.jsonPos = g ++ (t ++ s'.jsonPos) ∧ Gap g ∧ item t a

/-- The loop sets the code for a reason of one of its items or of what comes behind one. By
induction on the length of the text. -/
theorem itemLoop_records {d : Nat} {closing : TokenType} {close : WChar}
    {item : WString → α → Prop} {report : WString → Prop}
    {read : JsonValueSerializer → Token → Except Fault (Option α × JsonValueSerializer)}
    {push : List β → α → List β} (hread : ReadRecords d closing item report read)
    (hclose : punctuator close = some closing) {s₀ s s' : JsonValueSerializer} {token : Token}
    {node : List β} {r : Option (List β × Token)} (hready : Ready d s₀)
    (hparse : s₀.parseToken = .ok (token, s))
    (h : itemLoop read closing push s token node = .ok (r, s')) :
    Records s₀ s' (ItemsReport item report s₀.jsonPos) := by
  induction hn : s.jsonPos.length using Nat.strong_induction_on generalizing s₀ s token node with
  | _ n ih =>
    rw [itemLoop] at h
    by_cases htype : token.type = closing
    -- The end of the container is found before any item.
    · rw [if_pos htype] at h
      cases h
      obtain ⟨-, q, -, -, -, rfl⟩ :=
        parseToken_at_punctuator hready.nulFree hparse htype hclose
      exact Records.kept rfl
    rw [if_neg htype] at h
    obtain ⟨⟨item?, s₁⟩, hcall, h⟩ := bind_eq_ok_iff.mp h
    obtain ⟨hrecords, hitem⟩ := hread hready hparse htype hcall
    have hfirst : Records s₀ s₁ (ItemsReport item report s₀.jsonPos) :=
      hrecords.mono ItemsReport.first
    -- The item was not read, and what it records is its own.
    cases item? with
    | none =>
      cases h
      exact hfirst
    | some a =>
      obtain ⟨hready₁, g, t, hpos, hg, ha⟩ := hitem a rfl
      obtain ⟨⟨after, s₂⟩, hafter, h⟩ := bind_eq_ok_iff.mp h
      have hbehind := afterItem_records hclose hready₁.nulFree hready₁.allow hafter
      -- What comes behind the item records an error only for a bad token.
      cases after with
      | bad =>
        cases h
        refine hfirst.trans (hbehind.mono fun hbad => ?_)
        rw [hpos]
        exact ItemsReport.behind hg ha hbad
      | closed tok =>
        cases h
        exact hfirst.trans (Records.kept hbehind)
      | more tok =>
        obtain ⟨g', u, hg', hpos₁, hnext⟩ := hbehind
        have hsuffix : u <:+ s₁.jsonPos := ⟨g' ++ [','.toNat], by simp [hpos₁]⟩
        by_cases hlt : s₂.jsonPos.length < s.jsonPos.length
        · -- The rest of the loop begins with the token behind the comma.
          simp only [dif_pos hlt] at h
          have hrest := ih _ (hn ▸ hlt) (hready₁.moveTo hsuffix) hnext h rfl
          refine hfirst.trans (Records.mono hrest fun hlater => ?_)
          rw [hpos, hpos₁]
          exact ItemsReport.later hg ha hg' hlater
        · simp only [dif_neg hlt] at h
          cases h

/-- The same of the recursive call, for any token in front of the value. -/
def BuildRecords (d : Nat) (value : WString → Value D → Prop) (report : WString → Prop)
    (build : JsonValueSerializer → Except Fault (Option (Value D) × JsonValueSerializer)) : Prop :=
  ∀ {s₀ s s' : JsonValueSerializer} {token : Token} {r : Option (Value D)}, Ready d s₀ →
    s₀.parseToken = .ok (token, s) → build s = .ok (r, s') →
    Records s₀ s' (report s₀.jsonPos) ∧
      ∀ v, r = some v → Ready d s' ∧
        ∃ g t, s₀.jsonPos = g ++ (t ++ s'.jsonPos) ∧ Gap g ∧ value t v

/-- A member sets the code for its key, for the missing key, or in its value. -/
theorem readMember_records {d : Nat} {value : WString → Value D → Prop} {report : WString → Prop}
    {build : JsonValueSerializer → Except Fault (Option (Value D) × JsonValueSerializer)}
    (hbuild : BuildRecords d value report build) :
    ReadRecords d .objectEnd (Member value) (MemberReport report) (readMember build) := by
  intro s₀ s s' token r hready hparse htype h
  unfold readMember at h
  obtain ⟨⟨key, s₁⟩, hkey, h⟩ := bind_eq_ok_iff.mp h
  unfold readKey at hkey
  -- A key, its colon and the value: each step can be the one that is reported.
  by_cases hstring : token.type = .string
  · obtain ⟨g, t, w, q, hg, ht, hpos, rfl, rfl⟩ :=
      parseToken_at_string hready.nulFree hparse hstring
    have hreadyq : Ready d (moveTo s₀ q) := hready.moveTo ⟨g ++ quoted t, by simp [hpos]⟩
    simp only [ne_eq, not_true_eq_false, if_false, decodeString_quoted q ht, ok_bind,
      skip_token (moveTo_jsonPos s₀ _), moveTo_moveTo] at hkey
    obtain ⟨⟨tok, s₂⟩, hparse₂, hkey⟩ := bind_eq_ok_iff.mp hkey
    by_cases hcolon : tok.type = .objectPairSeparator
    · obtain ⟨g', u, hg', hq, rfl, rfl⟩ := parseToken_at_punctuator (c := ':'.toNat)
        hreadyq.nulFree hparse₂ hcolon rfl
      have hq : q = g' ++ ':'.toNat :: u := hq
      have hreadyu : Ready d (moveTo s₀ u) :=
        hready.moveTo ⟨g ++ quoted t ++ g' ++ [':'.toNat], by simp [hpos, hq]⟩
      simp only [not_true_eq_false, if_false, skip_punctuator (moveTo_jsonPos _ _), ok_bind,
        moveTo_moveTo] at hkey
      obtain ⟨⟨tok', s₄⟩, hparse₄, hkey⟩ := bind_eq_ok_iff.mp hkey
      cases hkey
      obtain ⟨⟨v, s₅⟩, hcall, h⟩ := bind_eq_ok_iff.mp h
      cases h
      obtain ⟨hrecords, hvalue⟩ := hbuild hreadyu hparse₄ hcall
      refine ⟨Records.mono hrecords fun hreport => ?_, ?_⟩
      · rw [hpos, hq]
        exact MemberReport.value hg ht hg' hreport
      · intro m hm
        obtain ⟨v, rfl, rfl⟩ := Option.map_eq_some_iff.mp hm
        obtain ⟨hready', g'', t', hu, hg'', hv⟩ := hvalue v rfl
        have hu : u = g'' ++ (t' ++ s'.jsonPos) := hu
        refine ⟨hready', g, _, ?_, hg, Member.mk ht hg' hg'' hv⟩
        rw [hpos, hq, hu]
        simp
    · simp only [if_pos hcolon] at hkey
      cases hkey
      cases h
      refine ⟨?_, by simp⟩
      -- A missing colon has no code of its own: only a bad token in its place is reported.
      have hcode := parseToken_records hreadyq.nulFree hparse₂
      refine Records.mono (s := s₀) hcode fun hbad => ?_
      rw [hpos]
      exact MemberReport.colon hg ht hbad.1
  · have hmissing := keyMissing_of_token hready.nulFree hparse hstring htype
    rw [if_pos hstring] at hkey
    obtain ⟨s₂, hset, hkey⟩ := bind_eq_ok_iff.mp hkey
    cases hkey
    cases h
    have hcode : Records s₀ s (MemberReport report s₀.jsonPos) :=
      (parseToken_records hready.nulFree hparse).mono fun _ => MemberReport.key hmissing
    refine ⟨hcode.trans ?_, by simp⟩
    exact (setErrorCode_records (by simp) hset).mono fun _ => MemberReport.key hmissing

/-! ### The recursion -/

/-- Moving over a token sets no code. -/
theorem skip_kept {s s' : JsonValueSerializer} {token : Token} (h : s.skip token = .ok s') :
    s'.errorCode = s.errorCode := by
  unfold skip at h
  obtain ⟨p, -, h⟩ := bind_eq_ok_iff.mp h
  cases h
  rfl

/-- The end of a value sets no code. -/
theorem finish_kept {s s' : JsonValueSerializer} {token : Token} {node r : Option (Value D)}
    (h : s.finish token node = .ok (r, s')) : s'.errorCode = s.errorCode := by
  unfold finish at h
  cases node with
  | none =>
    cases h
    rfl
  | some v =>
    obtain ⟨s₁, hskip, h⟩ := bind_eq_ok_iff.mp h
    cases h
    show s₁.errorCode = s.errorCode
    exact skip_kept hskip

variable (F : Doubles D)

/-- One call of `BuildValue` above the last level, for a recursive call that behaves. -/
theorem buildValue_call_records {n d : Nat} {isRoot : Bool} {s s' : JsonValueSerializer}
    {r : Option (Value D)} (hready : Ready d s) (hd : d < kStackLimit)
    (hbuild : BuildRecords (d + 1) (JsonText F n) (ValueReport F n) (buildValue F (n + 1) false))
    (h : buildValue F (n + 2) isRoot s = .ok (r, s')) :
    Records s s' (BadToken s.jsonPos ∨ isRoot = true ∧ ContainerMissing s.jsonPos ∨
      ContainerReport (JsonText F n) (ValueReport F n) s.jsonPos) := by
  have hlimit : ¬kStackLimit < s.stackDepth + 1 := by
    have hdepth := hready.depth
    omega
  have henter : Ready (d + 1) (enter s) :=
    ⟨hready.nulFree, congrArg (· + 1) hready.depth, hready.allow⟩
  rw [buildValue] at h
  simp only [if_neg hlimit] at h
  change (enter s).parseToken >>= _ = _ at h
  obtain ⟨⟨token, s₁⟩, hparse, h⟩ := bind_eq_ok_iff.mp h
  have hfirst : Records s s₁ (BadToken s.jsonPos) :=
    (parseToken_records henter.nulFree hparse).mono And.left
  by_cases hroot : isRoot = true ∧ token.type ≠ .objectBegin ∧ token.type ≠ .arrayBegin
  · simp only [if_pos hroot] at h
    obtain ⟨s₂, hset, h⟩ := bind_eq_ok_iff.mp h
    cases h
    have hmissing := containerMissing_of_token henter.nulFree hparse hroot.2.2 hroot.2.1
    refine (hfirst.mono Or.inl).trans ((setErrorCode_records (by simp) hset).mono fun _ => ?_)
    exact Or.inr (Or.inl ⟨hroot.1, hmissing⟩)
  simp only [if_neg hroot] at h
  -- The code changes again only inside a container.
  split at h
  case h_1 => exact (hfirst.mono Or.inl).trans (Records.kept (finish_kept h))
  case h_2 => exact (hfirst.mono Or.inl).trans (Records.kept (finish_kept h))
  case h_3 => exact (hfirst.mono Or.inl).trans (Records.kept (finish_kept h))
  case h_4 =>
    obtain ⟨v, -, h⟩ := bind_eq_ok_iff.mp h
    exact (hfirst.mono Or.inl).trans (Records.kept (finish_kept h))
  case h_5 =>
    obtain ⟨v, -, h⟩ := bind_eq_ok_iff.mp h
    exact (hfirst.mono Or.inl).trans (Records.kept (finish_kept h))
  case h_6 htype =>
    obtain ⟨g, u, hg, hpos, rfl, rfl⟩ := parseToken_at_punctuator (c := '['.toNat)
      henter.nulFree hparse htype rfl
    have hpos : s.jsonPos = g ++ '['.toNat :: u := hpos
    have hreadyu : Ready (d + 1) (moveTo (enter s) u) :=
      henter.moveTo ⟨g ++ ['['.toNat], by simp [enter, hpos]⟩
    simp only [skip_punctuator (moveTo_jsonPos _ _), ok_bind, moveTo_moveTo] at h
    obtain ⟨⟨tok, s₂⟩, hparse₂, h⟩ := bind_eq_ok_iff.mp h
    obtain ⟨⟨node, s₃⟩, hloop, h⟩ := bind_eq_ok_iff.mp h
    rw [arrayLoop_eq_itemLoop] at hloop
    have hread : ReadRecords (d + 1) .arrayEnd (JsonText F n) (ValueReport F n)
        (fun s _ => buildValue F (n + 1) false s) := fun hready hparse _ hcall =>
      hbuild hready hparse hcall
    have hitems := itemLoop_records hread punctuator_bracket hreadyu hparse₂ hloop
    have hkept : s'.errorCode = s₃.errorCode := by
      cases node with
      | none =>
        cases h
        rfl
      | some node => exact finish_kept h
    have hinside : Records s s₃ (ContainerReport (JsonText F n) (ValueReport F n) s.jsonPos) :=
      Records.mono hitems fun hreport => hpos ▸ ContainerReport.array hg hreport
    exact (hinside.trans (Records.kept hkept)).mono fun hreport => Or.inr (Or.inr hreport)
  case h_7 htype =>
    obtain ⟨g, u, hg, hpos, rfl, rfl⟩ := parseToken_at_punctuator (c := '{'.toNat)
      henter.nulFree hparse htype rfl
    have hpos : s.jsonPos = g ++ '{'.toNat :: u := hpos
    have hreadyu : Ready (d + 1) (moveTo (enter s) u) :=
      henter.moveTo ⟨g ++ ['{'.toNat], by simp [enter, hpos]⟩
    simp only [skip_punctuator (moveTo_jsonPos _ _), ok_bind, moveTo_moveTo] at h
    obtain ⟨⟨tok, s₂⟩, hparse₂, h⟩ := bind_eq_ok_iff.mp h
    obtain ⟨⟨node, s₃⟩, hloop, h⟩ := bind_eq_ok_iff.mp h
    rw [objectLoop_eq_itemLoop] at hloop
    have hmembers := itemLoop_records (readMember_records hbuild) punctuator_brace hreadyu hparse₂
      hloop
    have hkept : s'.errorCode = s₃.errorCode := by
      cases node with
      | none =>
        cases h
        rfl
      | some node => exact finish_kept h
    have hinside : Records s s₃ (ContainerReport (JsonText F n) (ValueReport F n) s.jsonPos) :=
      Records.mono hmembers fun hreport => hpos ▸ ContainerReport.object hg hreport
    exact (hinside.trans (Records.kept hkept)).mono fun hreport => Or.inr (Or.inr hreport)
  case h_8 =>
    cases h
    exact hfirst.mono Or.inl

/-- A gap before an invalid literal is part of the report. -/
theorem badToken_gap {g u : WString} (hg : Gap g) (h : BadToken u) : BadToken (g ++ u) := by
  obtain ⟨g', t, w, e, hg', ht, he, rfl⟩ := h
  exact ⟨g ++ g', t, w, e, gap_append hg hg', ht, he, by simp⟩

/-- There is a literal to be read. -/
theorem badToken_ne_nil {u : WString} (h : BadToken u) : u ≠ [] := by
  obtain ⟨g, t, w, e, -, -, -, rfl⟩ := h
  simp

/-- A gap before the contents of a container does not change its report. -/
theorem containerReport_gap {value : WString → Value D → Prop} {report : WString → Prop}
    {g u : WString} (hg : Gap g) (h : ContainerReport value report u) :
    ContainerReport value report (g ++ u) := by
  cases h with
  | array hg' hitems =>
    rw [← List.append_assoc]
    exact ContainerReport.array (gap_append hg hg') hitems
  | object hg' hmembers =>
    rw [← List.append_assoc]
    exact ContainerReport.object (gap_append hg hg') hmembers

/-- A report has text to it. -/
theorem containerReport_ne_nil {value : WString → Value D → Prop} {report : WString → Prop}
    {u : WString} (h : ContainerReport value report u) : u ≠ [] := by
  cases h <;> simp

/-- `BuildValue` with `n` levels left records an error only for a text of
`ValueReport n`. -/
theorem buildValue_records (n d : Nat) (hd : d + n = kStackLimit) :
    BuildRecords d (JsonText F n) (ValueReport F n) (buildValue F (n + 1) false) := by
  induction n generalizing d with
  | zero =>
    intro s₀ s s' token r hready hparse h
    obtain ⟨hready₁, -⟩ := hready.parseToken hparse
    have hlimit : kStackLimit < s.stackDepth + 1 := by
      have hdepth := hready₁.depth
      omega
    rw [buildValue] at h
    simp only [if_pos hlimit] at h
    cases h
    exact ⟨(parseToken_records hready.nulFree hparse).mono And.left, by simp⟩
  | succ n ih =>
    intro s₀ s s' token r hready hparse h
    obtain ⟨hready₁, g, hpos, hskip, -⟩ := hready.parseToken hparse
    -- What the call returns is known already; what is new is the error code behind it.
    obtain ⟨r', s'', hcall, hmoved, hvalue⟩ := buildValue_spec F (n + 1) false s hready₁.nulFree
      (by rw [hready₁.depth, hd])
    rw [h] at hcall
    cases hcall
    constructor
    · have hfirst : Records s₀ s (ValueReport F (n + 1) s₀.jsonPos) :=
        (parseToken_records hready.nulFree hparse).mono fun hbad => Or.inl hbad.1
      have hinner := buildValue_call_records F hready₁ (by omega) (ih (d + 1) (by omega)) h
      refine hfirst.trans (hinner.mono ?_)
      rw [hpos]
      rintro (hbad | ⟨hroot, -⟩ | hreport)
      · exact Or.inl (badToken_gap (hskip.gap (badToken_ne_nil hbad)) hbad)
      · cases hroot
      · exact Or.inr
          (containerReport_gap (hskip.gap (containerReport_ne_nil hreport)) hreport)
    · intro v hv
      obtain ⟨hdepth, -, g', t, hpos', hg', hne, htext⟩ := hvalue v hv
      have hg : Gap g := hskip.gap (by simp [hpos', hne])
      refine ⟨hready₁.moved hmoved (hdepth.trans hready₁.depth), g ++ g', t, ?_,
        gap_append hg hg', htext⟩
      rw [hpos, hpos']
      simp

/-- On a whole text `BuildValue` records an error only if the text is reported. -/
theorem buildValue_root_records {self s' : JsonValueSerializer} {text : WString}
    {r : Option (Value D)} (hz : 0 ∉ text)
    (h : buildValue F (kStackLimit + 1) true (self.start text) = .ok (r, s'))
    (hcode : s'.errorCode ≠ .noError) : RootReport F text := by
  have hready : Ready 0 (self.start text) := ⟨hz, rfl, rfl⟩
  have hrecords := buildValue_call_records F (n := kStackLimit - 1) hready (by decide)
    (buildValue_records F (kStackLimit - 1) 1 rfl) h
  obtain ⟨-, hbad | ⟨-, hmissing⟩ | hreport⟩ := hrecords.resolve_left hcode
  · -- An invalid token is no bracket.
    obtain ⟨s₁, hparse, -⟩ := parseToken_bad (inText_start self hz) hbad
    exact Or.inl (containerMissing_of_token hz hparse (by simp [kInvalidToken])
      (by simp [kInvalidToken]))
  · exact Or.inl hmissing
  · exact Or.inr hreport

end

end Mylib.Proofs.Base
