import Mylib.Spec.Base.HttpGrammar
import Mylib.Proofs.Base.JsonScalars

/-!
# `Mylib.Proofs.Base.HttpTokens`: the tokenizer, field by field

Every text without a zero is a field followed by a separator or by nothing
(`exists_field`). At a field the tokenizer returns, and `TokenOf` says what
(`tokenAt_field`): a keyword where the field starts with one, a number where
`NextNumberMatch` passes it and `ParseNumberToken` can read it, otherwise a string.
A string token with an invalid escape may cover the terminator; `DecodeString` then
gives `NULL`, so it is never skipped.
-/

set_option autoImplicit false

namespace Mylib.Proofs.Base.Http

open Mylib.Lib.CString
open Mylib.Spec.Base
open JsonValueSerializer (kInvalidToken wide isDigit isHexDigit hexToInt nextStringMatch
  parseNumberToken readHexDigits escapeDigits unescape decodeChars decodeNumber)
open JsonGrammar (Number keyOf shortEscapes)
open HttpValueSerializer HttpGrammar

/-! ### Fields -/

/-- A field ends here: a separator or the terminator follows. -/
def Separated (r : WString) : Prop := ∀ c, r.head? = some c → c = '&'.toNat ∨ c = '='.toNat

/-- The three things that can stand behind a field. -/
theorem separated_cases {r : WString} (h : Separated r) :
    r = [] ∨ (∃ r', r = '&'.toNat :: r') ∨ ∃ r', r = '='.toNat :: r' := by
  cases r with
  | nil => exact Or.inl rfl
  | cons c r' =>
    rcases h c rfl with rfl | rfl
    · exact Or.inr (Or.inl ⟨r', rfl⟩)
    · exact Or.inr (Or.inr ⟨r', rfl⟩)

/-- Every text without a zero is a field and what separates it from the rest. -/
theorem exists_field {p : WString} (hz : 0 ∉ p) :
    ∃ t r, p = t ++ r ∧ IsFieldText t ∧ Separated r := by
  let inField : WChar → Bool := fun c => c ≠ '&'.toNat && c ≠ '='.toNat
  refine ⟨p.takeWhile inField, p.dropWhile inField, List.takeWhile_append_dropWhile.symm, ?_, ?_⟩
  · intro c hc
    have hin : inField c := List.mem_takeWhile_imp hc
    have hne : c ≠ 0 := ne_zero_of_mem hz ((List.takeWhile_subset _) hc)
    simp only [inField, ne_eq, Bool.and_eq_true, decide_eq_true_eq] at hin
    exact ⟨hin.1, hin.2, hne⟩
  · intro c hc
    have hout := List.head?_dropWhile_not inField p
    rw [hc] at hout
    simpa [inField, or_iff_not_imp_left] using hout

/-- A field without its first character is a field. -/
theorem isField_tail {c : WChar} {t : WString} (h : IsFieldText (c :: t)) : IsFieldText t :=
  fun d hd => h d (List.mem_cons_of_mem _ hd)

/-- So is every end of a field. -/
theorem isField_right {t u : WString} (h : IsFieldText (t ++ u)) : IsFieldText u := fun d hd =>
  h d (List.mem_append_right _ hd)

/-- A field has no zero. -/
theorem isField_nulFree {t : WString} (h : IsFieldText t) : 0 ∉ t := fun hz => (h 0 hz).2.2 rfl

/-- What stands in front of a field's end and holds no separator lies inside the
field. -/
theorem field_split {a q t r : WString} (hr : Separated r)
    (ha : ∀ c ∈ a, c ≠ '&'.toNat ∧ c ≠ '='.toNat) (h : t ++ r = a ++ q) :
    ∃ t', t = a ++ t' ∧ q = t' ++ r := by
  rcases List.append_eq_append_iff.mp h with ⟨b, rfl, hrb⟩ | ⟨t', rfl, rfl⟩
  · cases b with
    | nil => exact ⟨[], by simp, by simpa using hrb.symm⟩
    | cons c b =>
      have hc := ha c (by simp)
      rcases hr c (by rw [hrb]; rfl) with rfl | rfl
      · exact absurd rfl hc.1
      · exact absurd rfl hc.2
  · exact ⟨t', rfl, rfl⟩

/-! ### Blanks -/

/-- Eating blanks is dropping them: the scan never gets to the end of a text. -/
theorem eatWhitesspaceAndComments_eq (p : WString) :
    HttpValueSerializer.eatWhitesspaceAndComments p = .ok (trim p) := by
  induction p with
  | nil =>
    rw [HttpValueSerializer.eatWhitesspaceAndComments]
    rfl
  | cons c p ih =>
    have hblank : (c = ' '.toNat ∨ c = '\r'.toNat ∨ c = '\t'.toNat) ↔ IsBlank c := by
      simp [IsBlank, wide]
    rw [HttpValueSerializer.eatWhitesspaceAndComments]
    simp only [deref_cons_zero, ok_bind, next_cons, hblank, trim, List.dropWhile_cons,
      decide_eq_true_eq]
    split_ifs with h
    · exact ih
    · rfl

/-- The separators are no blanks. -/
theorem not_isBlank_separator {c : WChar} (h : c = '&'.toNat ∨ c = '='.toNat) : ¬IsBlank c := by
  rcases h with rfl | rfl <;> decide

/-- At a separator there is nothing to drop. -/
theorem trim_separated {r : WString} (h : Separated r) : trim r = r := by
  cases r with
  | nil => rfl
  | cons c r => simp [trim, not_isBlank_separator (h c rfl)]

/-- Blanks are dropped inside of a field, for the separator behind it is none. -/
theorem trim_append {t r : WString} (h : Separated r) : trim (t ++ r) = trim t ++ r := by
  induction t with
  | nil => exact trim_separated h
  | cons c t ih =>
    by_cases hc : IsBlank c
    · simpa [trim, hc] using ih
    · simp [trim, hc]

/-- Blanks are dropped once. -/
theorem trim_trim (t : WString) : trim (trim t) = trim t := by
  unfold trim
  exact List.dropWhile_idempotent _ t

/-- What is left after blanks is a suffix. -/
theorem trim_suffix (t : WString) : trim t <:+ t := List.dropWhile_suffix _

/-- A field stays one without its blanks. -/
theorem isField_trim {t : WString} (h : IsFieldText t) : IsFieldText (trim t) := fun c hc =>
  h c ((trim_suffix t).subset hc)

/-- Nothing is left exactly of a text of blanks. -/
theorem trim_eq_nil {t : WString} : trim t = [] ↔ ∀ c ∈ t, IsBlank c := by
  simp [trim, List.dropWhile_eq_nil_iff]

/-! ### The number check -/

/-- One round of `NextNumberMatch`. -/
theorem nextNumberLoop_step {p : WString} {pos : Nat} {c : WChar} (spot : Nat)
    (h : deref p pos = .ok c) :
    nextNumberLoop p pos spot =
      if c = 0 then .ok (decide (pos ≤ 19))
      else if c = '&'.toNat then .ok (decide (pos ≤ 19))
      else if isDigit c then nextNumberLoop p (pos + 1) spot
      else if c = '.'.toNat then
        deref p (pos + 1) >>= fun _ =>
          if 1 < spot + 1 then .ok false else nextNumberLoop p (pos + 1) (spot + 1)
      else if c = 'e'.toNat ∨ c = 'E'.toNat then nextNumberLoop p (pos + 1) spot
      else if (c = '-'.toNat ∨ c = '+'.toNat) ∧ pos = 0 then nextNumberLoop p (pos + 1) spot
      else .ok false := by
  obtain ⟨hc, hchar⟩ := charAt_of_deref h
  rw [nextNumberLoop, hchar]
  rfl

/-- At the end of a field the number scan stops, and the length and the next character decide. -/
theorem nextNumberLoop_end {pre r : WString} (spot : Nat) (hpre : pre ≠ []) (hr : Separated r) :
    nextNumberLoop (pre ++ r) pre.length spot
      = .ok (decide (pre.length ≤ 19 ∧ r.head? ≠ some '='.toNat)) := by
  have hpos : pre.length ≠ 0 := fun h => hpre (List.eq_nil_of_length_eq_zero h)
  have hderef : deref (pre ++ r) pre.length = .ok (r.headD 0) := by
    rw [deref_append_length, deref_zero]
  rw [nextNumberLoop_step spot hderef]
  rcases separated_cases hr with rfl | ⟨r', rfl⟩ | ⟨r', rfl⟩
  · simp
  · simp
  · simp [isDigit, hpos]

/-- What may stand behind the first character of a number. -/
def NumberTail (c : WChar) : Prop := isDigit c ∨ c ∈ wide ['.', 'e', 'E']

/-- Over a field the number scan decides the shape of a number. The induction keeps the characters
already passed and whether a point was among them. -/
theorem nextNumberLoop_spec {pre t r : WString} {spot : Nat} (hpre : pre ≠ []) (hspot : spot ≤ 1)
    (ht : IsFieldText t) (hr : Separated r) :
    ∃ b, nextNumberLoop (pre ++ (t ++ r)) pre.length spot = .ok b ∧
      (b = true ↔ pre.length + t.length ≤ 19 ∧ (∀ c ∈ t, NumberTail c) ∧
        spot + t.count '.'.toNat ≤ 1 ∧ r.head? ≠ some '='.toNat) := by
  induction t generalizing pre spot with
  | nil =>
    refine ⟨_, nextNumberLoop_end spot hpre hr, ?_⟩
    simp [hspot]
  | cons c t ih =>
    have hpos : pre.length ≠ 0 := fun h => hpre (List.eq_nil_of_length_eq_zero h)
    obtain ⟨hamp, -, hne⟩ := ht c List.mem_cons_self
    have hstep := nextNumberLoop_step spot (deref_append_length pre (c :: t ++ r))
    rw [if_neg hne, if_neg hamp] at hstep
    -- The round that passes `c` and goes on with `spot'` points seen.
    have hnext : ∀ {spot' : Nat}, spot' ≤ 1 → NumberTail c →
        spot + (c :: t).count '.'.toNat = spot' + t.count '.'.toNat →
        nextNumberLoop (pre ++ (c :: t ++ r)) pre.length spot
          = nextNumberLoop (pre ++ (c :: t ++ r)) (pre.length + 1) spot' →
        ∃ b, nextNumberLoop (pre ++ (c :: t ++ r)) pre.length spot = .ok b ∧
          (b = true ↔ pre.length + (c :: t).length ≤ 19 ∧ (∀ x ∈ c :: t, NumberTail x) ∧
            spot + (c :: t).count '.'.toNat ≤ 1 ∧ r.head? ≠ some '='.toNat) := by
      intro spot' hspot' htail hcount hround
      obtain ⟨b, hb, hiff⟩ := @ih (pre ++ [c]) spot' (by simp) hspot' (isField_tail ht)
      rw [List.append_assoc, List.length_append] at hb
      rw [List.length_append, List.length_singleton] at hiff
      refine ⟨b, hround.trans hb, hiff.trans ?_⟩
      rw [hcount, List.forall_mem_cons, List.length_cons]
      constructor
      · rintro ⟨hlen, hall, hone, hstop⟩
        exact ⟨by omega, ⟨htail, hall⟩, hone, hstop⟩
      · rintro ⟨hlen, ⟨-, hall⟩, hone, hstop⟩
        exact ⟨by omega, hall, hone, hstop⟩
    by_cases hdigit : isDigit c
    · rw [if_pos hdigit] at hstep
      have hpoint : c ≠ '.'.toNat := by
        rintro rfl
        simp [isDigit] at hdigit
      exact hnext hspot (Or.inl hdigit) (by rw [List.count_cons_of_ne hpoint]) hstep
    rw [if_neg hdigit] at hstep
    by_cases hpoint : c = '.'.toNat
    · subst hpoint
      rw [if_pos rfl] at hstep
      obtain ⟨d, hd⟩ : ∃ d, deref (pre ++ ('.'.toNat :: t ++ r)) (pre.length + 1) = .ok d := by
        rw [deref_append, List.cons_append, deref_cons_succ, deref_zero]
        exact ⟨_, rfl⟩
      rw [hd, ok_bind] at hstep
      by_cases hsecond : 1 < spot + 1
      · rw [if_pos hsecond] at hstep
        refine ⟨false, hstep, ?_⟩
        simp only [Bool.false_eq_true, List.count_cons_self, false_iff, not_and]
        omega
      · rw [if_neg hsecond] at hstep
        refine hnext (by omega) (Or.inr (by simp [wide])) ?_ hstep
        rw [List.count_cons_self]
        omega
    rw [if_neg hpoint] at hstep
    by_cases hexp : c = 'e'.toNat ∨ c = 'E'.toNat
    · rw [if_pos hexp] at hstep
      refine hnext hspot (Or.inr ?_) (by rw [List.count_cons_of_ne hpoint]) hstep
      rcases hexp with rfl | rfl <;> simp [wide]
    · rw [if_neg hexp, if_neg fun h => hpos h.2] at hstep
      refine ⟨false, hstep, ?_⟩
      have hout : ¬NumberTail c := by
        rintro (h | h)
        · exact hdigit h
        · simp only [wide, List.map_cons, List.map_nil, List.mem_cons, List.not_mem_nil,
            or_false] at h
          exact h.elim hpoint hexp
      simp only [Bool.false_eq_true, false_iff, not_and]
      intro _ hall
      exact absurd (hall c List.mem_cons_self) hout

/-- `NextNumberMatch` where `ParseToken` calls it, at a digit or a minus. A key is
never taken for a number: the `=` behind it is none of a number's characters. -/
theorem nextNumberMatch_spec {c : WChar} {t r : WString} (hc : isDigit c ∨ c = '-'.toNat)
    (ht : IsFieldText (c :: t)) (hr : Separated r) :
    ∃ b, nextNumberMatch (c :: t ++ r) = .ok b ∧
      (b = true ↔ NumberShaped (c :: t) ∧ r.head? ≠ some '='.toNat) := by
  obtain ⟨hamp, -, hne⟩ := ht c List.mem_cons_self
  have hpoint : c ≠ '.'.toNat := by
    rintro rfl
    simp [isDigit] at hc
  -- The first character passes, as a digit or as the sign that only the first may be.
  have hfirst : nextNumberMatch (c :: t ++ r) = nextNumberLoop (c :: t ++ r) 1 0 := by
    have hexp : ¬(c = 'e'.toNat ∨ c = 'E'.toNat) := by
      rintro (rfl | rfl) <;> simp [isDigit] at hc
    unfold nextNumberMatch
    rw [List.cons_append, nextNumberLoop_step 0 (deref_cons_zero c (t ++ r)), if_neg hne,
      if_neg hamp, if_neg hpoint, if_neg hexp]
    by_cases hdigit : isDigit c
    · rw [if_pos hdigit]
    · rw [if_neg hdigit, if_pos ⟨Or.inl (hc.resolve_left hdigit), rfl⟩]
  obtain ⟨b, hb, hiff⟩ := @nextNumberLoop_spec [c] t r 0 (by simp) (by omega) (isField_tail ht) hr
  refine ⟨b, hfirst.trans hb, hiff.trans ?_⟩
  rw [List.length_singleton]
  constructor
  · rintro ⟨hlen, hall, hone, hstop⟩
    refine ⟨⟨?_, by rw [List.length_cons]; omega, hall, ?_⟩, hstop⟩
    · intro d hd
      exact Option.some.inj hd ▸ hc
    · rw [List.count_cons_of_ne hpoint]
      omega
  · rintro ⟨⟨-, hlen, hall, hone⟩, hstop⟩
    rw [List.length_cons] at hlen
    rw [List.count_cons_of_ne hpoint] at hone
    exact ⟨by omega, hall, by omega, hstop⟩

/-! ### Escapes -/

/-- The first character of an escape says how many hex digits belong to it. -/
theorem escape_parts {es : WString} {d : WChar} (h : Escape es d) :
    ∃ e hs, es = e :: hs ∧ escapeDigits e = some hs.length ∧ ∀ c ∈ hs, isHexDigit c := by
  cases h with
  | short hmem => exact ⟨_, [], rfl, (shortEscape_tables hmem).1, by simp⟩
  | hex2 ha hb => exact ⟨_, _, rfl, rfl, by simp [ha, hb]⟩
  | hex4 ha hb hc hd => exact ⟨_, _, rfl, rfl, by simp [ha, hb, hc, hd]⟩

/-- The other way round, a letter with its hex digits is an escape. -/
theorem escape_of_digits {e : WChar} {hs : WString} (h : escapeDigits e = some hs.length)
    (hhex : ∀ c ∈ hs, isHexDigit c) : ∃ d, Escape (e :: hs) d := by
  -- `x` has two digits, `u` has four, and the other escapes have none.
  by_cases hx : e = 'x'.toNat
  · subst hx
    obtain ⟨a, b, rfl⟩ := List.length_eq_two.mp (Option.some.inj h).symm
    exact ⟨_, Escape.hex2 (hhex a (by simp)) (hhex b (by simp))⟩
  by_cases hu : e = 'u'.toNat
  · subst hu
    obtain ⟨a, b, c, d, rfl⟩ : ∃ a b c d, hs = [a, b, c, d] := by
      match hs, Option.some.inj h with
      | [a, b, c, d], _ => exact ⟨a, b, c, d, rfl⟩
    exact ⟨_, Escape.hex4 (hhex a (by simp)) (hhex b (by simp)) (hhex c (by simp))
      (hhex d (by simp))⟩
  · have hzero : hs.length = 0 := by
      unfold escapeDigits at h
      rw [if_neg hx, if_neg hu] at h
      split_ifs at h
      exact (Option.some.inj h).symm
    obtain rfl : hs = [] := List.eq_nil_of_length_eq_zero hzero
    obtain ⟨d, hd⟩ := shortEscape_of_escapeDigits h
    exact ⟨d, Escape.short hd⟩

/-- Where a field goes on behind a backslash, it goes on with an escape. -/
theorem unescapes_back {t w : WString} (h : Unescapes ('\\'.toNat :: t) w) :
    ∃ es d t' w', t = es ++ t' ∧ Escape es d ∧ Unescapes t' w' ∧ w = d :: w' := by
  generalize hq : '\\'.toNat :: t = q at h
  cases h with
  | nil => cases hq
  | raw hne _ =>
    cases hq
    exact absurd rfl hne
  | escape hes ht' =>
    cases hq
    exact ⟨_, _, _, _, rfl, hes, ht', rfl⟩

/-- A character that is no backslash stands for itself. -/
theorem unescapes_raw {c : WChar} {t w : WString} (hc : c ≠ '\\'.toNat)
    (h : Unescapes (c :: t) w) : ∃ w', Unescapes t w' ∧ w = c :: w' := by
  generalize hq : c :: t = q at h
  cases h with
  | nil => cases hq
  | raw _ ht' =>
    cases hq
    exact ⟨_, ht', rfl⟩
  | escape _ _ =>
    cases hq
    exact absurd rfl hc

/-- Two escapes in front of one text are the same. -/
theorem escape_unique {e : WChar} {hs es t t' : WString} {d : WChar} (h : Escape es d)
    (he : escapeDigits e = some hs.length) (heq : e :: (hs ++ t) = es ++ t') : t = t' := by
  obtain ⟨e', hs', rfl, he', -⟩ := escape_parts h
  obtain ⟨rfl, htail⟩ := List.cons.inj heq
  have hlen : hs.length = hs'.length := Option.some.inj (he.symm.trans he')
  exact (List.append_inj htail hlen).2

/-! ### The loop of `ParseStringToken` -/

/-- One step of the string scan, by the character at the cursor. -/
theorem scanStringToken_step {p : WString} {n : Nat} {c : WChar} (h : deref p n = .ok c) :
    scanStringToken p n =
      if c = 0 then .ok (some n)
      else if c = '\\'.toNat then
        deref p (n + 1) >>= fun e =>
          match escapeDigits e with
          | none => .ok (some (n + 2))
          | some k => readHexDigits p (n + 1) 1 k >>= fun ok =>
              if ok then scanStringToken p (n + 1 + k + 1) else .ok none
      else if c = '&'.toNat ∨ c = '='.toNat then .ok (some n)
      else scanStringToken p (n + 1) := by
  obtain ⟨hc, hchar⟩ := charAt_of_deref h
  rw [scanStringToken, hchar]
  rfl

/-- The scan stops behind a field. -/
theorem scanStringToken_end (pre : WString) {r : WString} (hr : Separated r) :
    scanStringToken (pre ++ r) pre.length = .ok (some pre.length) := by
  have hderef : deref (pre ++ r) pre.length = .ok (r.headD 0) := by
    rw [deref_append_length, deref_zero]
  rw [scanStringToken_step hderef]
  rcases separated_cases hr with rfl | ⟨r', rfl⟩ | ⟨r', rfl⟩ <;> simp

/-- The scan passes a plain character. -/
theorem scanStringToken_raw (pre : WString) {c : WChar} (q : WString) (hc : c ≠ '\\'.toNat)
    (hfield : c ≠ '&'.toNat ∧ c ≠ '='.toNat ∧ c ≠ 0) :
    scanStringToken (pre ++ c :: q) pre.length
      = scanStringToken ((pre ++ [c]) ++ q) (pre ++ [c]).length := by
  obtain ⟨hamp, heq, hne⟩ := hfield
  rw [scanStringToken_step (deref_append_length pre (c :: q)), if_neg hne, if_neg hc,
    if_neg (not_or.mpr ⟨hamp, heq⟩)]
  simp

/-- The scan passes an escape as a whole. -/
theorem scanStringToken_escape (pre : WString) {es : WString} {d : WChar} (q : WString)
    (h : Escape es d) :
    scanStringToken (pre ++ '\\'.toNat :: (es ++ q)) pre.length
      = scanStringToken ((pre ++ '\\'.toNat :: es) ++ q) (pre ++ '\\'.toNat :: es).length := by
  obtain ⟨e, hs, rfl, he, hhex⟩ := escape_parts h
  have hread : readHexDigits ((pre ++ ['\\'.toNat, e]) ++ (hs ++ q)) (pre.length + 1) 1 hs.length
      = .ok true := readHexDigits_ok (pre ++ ['\\'.toNat, e]) q (by simp) hhex
  rw [List.append_assoc] at hread
  rw [scanStringToken_step (deref_append_length pre _), if_neg (by decide), if_pos rfl,
    deref_append, deref_cons_succ, List.cons_append, deref_cons_zero, ok_bind, he]
  show (readHexDigits (pre ++ (['\\'.toNat, e] ++ (hs ++ q))) (pre.length + 1) 1 hs.length >>= _)
    = _
  rw [hread, ok_bind, if_pos rfl]
  simp only [List.append_assoc, List.cons_append, List.length_append, List.length_cons]
  congr 1
  omega

/-! ### The loop of `DecodeString` -/

/-- The decoder takes over a plain character. -/
theorem decodeChars_raw (pre : WString) {c : WChar} {n : Nat} (q acc : WString)
    (hn : pre.length < n) (hc : c ≠ '\\'.toNat) :
    decodeChars (pre ++ c :: q) (n + 1) pre.length acc
      = decodeChars ((pre ++ [c]) ++ q) (n + 1) (pre ++ [c]).length (acc ++ [c]) := by
  rw [decodeChars, dif_pos (by simpa using hn), deref_append_length, deref_cons_zero, ok_bind,
    if_neg hc]
  simp

/-- The decoder takes the meaning of an escape. -/
theorem decodeChars_escape (pre : WString) {es : WString} {d : WChar} {n : Nat} (q acc : WString)
    (hn : pre.length < n) (h : Escape es d) :
    decodeChars (pre ++ '\\'.toNat :: (es ++ q)) (n + 1) pre.length acc
      = decodeChars ((pre ++ '\\'.toNat :: es) ++ q) (n + 1) (pre ++ '\\'.toNat :: es).length
          (acc ++ [d]) := by
  rw [decodeChars, dif_pos (by simpa using hn)]
  cases h with
  | short hmem =>
    obtain ⟨-, hunescape, hx, hu⟩ := shortEscape_tables hmem
    simp only [deref_append_length, deref_append, deref_cons_zero, deref_cons_succ, ok_bind,
      if_true, List.cons_append, List.nil_append, if_neg hx, if_neg hu, hunescape,
      List.append_assoc, List.length_append, List.length_cons, List.length_nil]
  | hex2 ha hb =>
    simp only [deref_append_length, deref_append, deref_cons_zero, deref_cons_succ, ok_bind,
      if_true, List.cons_append, List.nil_append, List.append_assoc, List.length_append,
      List.length_cons, List.length_nil]
  | hex4 ha hb hc hd =>
    simp only [deref_append_length, deref_append, deref_cons_zero, deref_cons_succ, ok_bind,
      if_true, List.cons_append, List.nil_append, List.append_assoc, List.length_append,
      List.length_cons, List.length_nil, if_neg (show 'u'.toNat ≠ 'x'.toNat by decide)]

/-- An escape the scanner does not know is none for the decoder either. -/
theorem unescape_of_escapeDigits {e : WChar} (h : escapeDigits e = none) :
    e ≠ 'x'.toNat ∧ e ≠ 'u'.toNat ∧ unescape e = none := by
  unfold escapeDigits at h
  split_ifs at h with hx hu hmem
  refine ⟨hx, hu, ?_⟩
  simp [wide] at hmem
  simp [unescape, wide, hmem]

/-- The decoder gives up at a backslash before a character that starts no escape. -/
theorem decodeChars_unknown (pre : WString) {n : Nat} (q acc : WString) (hn : pre.length < n)
    (h : escapeDigits (q.headD 0) = none) :
    decodeChars (pre ++ '\\'.toNat :: q) (n + 1) pre.length acc = .ok none := by
  obtain ⟨hx, hu, hnone⟩ := unescape_of_escapeDigits h
  rw [decodeChars, dif_pos (by simpa using hn), deref_append_length, deref_cons_zero, ok_bind,
    if_pos rfl, deref_append, deref_cons_succ, deref_zero, ok_bind, if_neg hx, if_neg hu, hnone]
  rfl

/-! ### String tokens -/

/-- Nothing can be decoded from index `i` on: the scan failed, or the token it
returned holds an invalid escape. -/
def Undecodable (p : WString) (i : Nat) (length : Option Nat) : Prop :=
  ∀ n, length = some n → i < n ∧ ∀ acc, decodeChars p (n + 1) i acc = .ok none

/-- A scan that goes on behind a piece of the field, which the decoder passes. -/
theorem Undecodable.before {p : WString} {i j : Nat} {length : Option Nat}
    (h : Undecodable p j length) (hij : i < j)
    (hpass : ∀ n acc, i < n → ∃ acc', decodeChars p (n + 1) i acc = decodeChars p (n + 1) j acc') :
    Undecodable p i length := by
  intro n hn
  obtain ⟨hlt, hdecode⟩ := h n hn
  refine ⟨hij.trans hlt, fun acc => ?_⟩
  obtain ⟨acc', hacc⟩ := hpass n acc (hij.trans hlt)
  exact hacc.trans (hdecode acc')

/-- What the scan of a field gives, and what the decoder makes of it. -/
inductive FieldScan (pre t r : WString) : Prop where
  | whole {w : WString} : Unescapes t w →
      scanStringToken (pre ++ (t ++ r)) pre.length = .ok (some (pre.length + t.length)) →
      (∀ acc, decodeChars (pre ++ (t ++ r)) (pre.length + t.length + 1) pre.length acc
        = .ok (some (acc ++ w))) → FieldScan pre t r
  | bad {length : Option Nat} : (∀ w, ¬Unescapes t w) →
      scanStringToken (pre ++ (t ++ r)) pre.length = .ok length →
      Undecodable (pre ++ (t ++ r)) pre.length length → FieldScan pre t r

/-- A field is scanned as its rest is, once a piece `a` of it has been passed by the
scanner and the decoder in one step. -/
theorem FieldScan.pass {pre a t r : WString} {d : WChar} (h : FieldScan (pre ++ a) t r)
    (ha : a ≠ []) (hwhole : ∀ w, Unescapes t w → Unescapes (a ++ t) (d :: w))
    (hback : ∀ w, Unescapes (a ++ t) w → ∃ w', Unescapes t w')
    (hscan : scanStringToken (pre ++ (a ++ (t ++ r))) pre.length
      = scanStringToken ((pre ++ a) ++ (t ++ r)) (pre ++ a).length)
    (hdecode : ∀ n acc, pre.length < n →
      decodeChars (pre ++ (a ++ (t ++ r))) (n + 1) pre.length acc
        = decodeChars ((pre ++ a) ++ (t ++ r)) (n + 1) (pre ++ a).length (acc ++ [d])) :
    FieldScan pre (a ++ t) r := by
  have hlt : pre.length < (pre ++ a).length := by
    have := List.length_pos_iff.mpr ha
    rw [List.length_append]
    omega
  have htext : (pre ++ a) ++ (t ++ r) = pre ++ (a ++ t ++ r) := by simp
  have hassoc : a ++ (t ++ r) = a ++ t ++ r := by simp
  rw [htext, hassoc] at hscan
  rw [htext, hassoc] at hdecode
  -- Behind `a` the scan and the decoder are where they would be for the rest of the field.
  cases h with
  | @whole w hw hrest hdec =>
    rw [htext] at hrest
    have hlen : (pre ++ a).length + t.length = pre.length + (a ++ t).length := by
      simp only [List.length_append]
      omega
    rw [hlen] at hrest
    refine .whole (hwhole w hw) (hscan.trans hrest) fun acc => ?_
    have hdec' := hdec (acc ++ [d])
    rw [htext, hlen] at hdec'
    rw [hdecode _ acc (by rw [← hlen]; omega), hdec']
    simp
  | @bad length hnone hrest hundec =>
    rw [htext] at hrest hundec
    refine .bad (fun w hw => ?_) (hscan.trans hrest) (hundec.before hlt fun n acc hn => ?_)
    · obtain ⟨w', hw'⟩ := hback w hw
      exact hnone w' hw'
    · exact ⟨_, hdecode n acc hn⟩

/-- The digits of an escape that begins in a field are in the field, too, since a separator is no
digit. -/
theorem escape_in_field {e : WChar} {hs q t r : WString} (hr : Separated r)
    (he : escapeDigits e = some hs.length) (hhex : ∀ c ∈ hs, isHexDigit c)
    (h : t ++ r = e :: (hs ++ q)) : ∃ t', t = e :: (hs ++ t') ∧ q = t' ++ r := by
  rw [← List.cons_append] at h
  refine field_split hr (fun c hc => ?_) h
  rcases List.mem_cons.mp hc with rfl | hc
  · constructor <;> rintro rfl <;> simp [escapeDigits, wide] at he
  · have hdigit := hhex c hc
    constructor <;> rintro rfl <;> simp [isHexDigit, isDigit] at hdigit

/-- A backslash that no escape follows. -/
theorem fieldScan_unknown (pre : WString) {t r : WString} (hr : Separated r)
    (hnone : ∀ es d t', Escape es d → t ≠ es ++ t') :
    FieldScan pre ('\\'.toNat :: t) r := by
  have hbad : ∀ w, ¬Unescapes ('\\'.toNat :: t) w := by
    intro w hw
    obtain ⟨es, d, t', w', ht, hes, -⟩ := unescapes_back hw
    exact hnone es d t' hes ht
  have hstep := scanStringToken_step (deref_append_length pre ('\\'.toNat :: (t ++ r)))
  rw [if_neg (by decide), if_pos rfl, deref_append, deref_cons_succ, deref_zero, ok_bind] at hstep
  cases he : escapeDigits ((t ++ r).headD 0) with
  | none =>
    rw [he] at hstep
    refine .bad hbad hstep fun n hn => ?_
    obtain rfl : pre.length + 2 = n := Option.some.inj hn
    exact ⟨by omega, fun acc => decodeChars_unknown pre (t ++ r) acc (by omega) he⟩
  | some k =>
    obtain ⟨e, q, hq⟩ : ∃ e q, t ++ r = e :: q := by
      cases htr : t ++ r with
      | nil =>
        rw [htr] at he
        cases he
      | cons e q => exact ⟨e, q, rfl⟩
    rw [hq, List.headD_cons] at he hstep
    obtain ⟨ok, hread, hok⟩ : ∃ ok,
        readHexDigits ((pre ++ ['\\'.toNat, e]) ++ q) (pre.length + 1) 1 k = .ok ok ∧ _ :=
      readHexDigits_spec (pre ++ ['\\'.toNat, e]) q (by simp) k
    rw [List.append_assoc] at hread
    cases ok with
    | false =>
      rw [he] at hstep
      have hscan : scanStringToken (pre ++ '\\'.toNat :: (t ++ r)) pre.length = .ok none := by
        rw [hq, hstep]
        exact (congrArg (· >>= _) hread).trans rfl
      exact .bad hbad hscan fun n hn => by cases hn
    | true =>
      -- Hex digits are no separators, so a whole escape would lie inside the field after all.
      obtain ⟨hs, q', rfl, rfl, hhex⟩ := hok rfl
      obtain ⟨d, hd⟩ := escape_of_digits he hhex
      obtain ⟨t', rfl, -⟩ := escape_in_field hr he hhex hq
      exact absurd rfl (hnone (e :: hs) d t' hd)

/-- The scan over a field: it ends at the separator or at an escape that is malformed. -/
theorem fieldScan (pre : WString) {t r : WString} (ht : IsFieldText t) (hr : Separated r) :
    FieldScan pre t r := by
  -- On the length: an escape is passed in one step.
  induction hn : t.length using Nat.strong_induction_on generalizing pre t with
  | _ n ih =>
    cases t with
    | nil =>
      refine .whole Unescapes.nil (scanStringToken_end pre hr) fun acc => ?_
      rw [decodeChars, dif_neg (by simp)]
      simp
    | cons c t =>
      rw [List.length_cons] at hn
      by_cases hc : c = '\\'.toNat
      · subst hc
        by_cases hescape : ∃ es d t', Escape es d ∧ t = es ++ t'
        · obtain ⟨es, d, t', hes, rfl⟩ := hescape
          have hrest := ih t'.length (by rw [List.length_append] at hn; omega)
            (pre ++ '\\'.toNat :: es) (isField_right (isField_tail ht)) rfl
          refine hrest.pass (by simp) (fun w hw => Unescapes.escape hes hw) (fun w hw => ?_)
            (scanStringToken_escape pre (t' ++ r) hes)
            (fun n acc hlt => decodeChars_escape pre (t' ++ r) acc hlt hes)
          obtain ⟨es', d', t'', w', heq, hes', hw', -⟩ := unescapes_back hw
          obtain ⟨e, hs, rfl, he, -⟩ := escape_parts hes
          exact ⟨w', escape_unique hes' he heq ▸ hw'⟩
        · refine fieldScan_unknown pre hr fun es d t' hes heq => hescape ⟨es, d, t', hes, heq⟩
      · have hrest := ih t.length (by omega) (pre ++ [c]) (isField_tail ht) rfl
        refine hrest.pass (by simp) (fun w hw => Unescapes.raw hc hw) (fun w hw => ?_)
          (scanStringToken_raw pre (t ++ r) hc (ht c List.mem_cons_self))
          (fun n acc hlt => decodeChars_raw pre (t ++ r) acc hlt hc)
        obtain ⟨w', hw', -⟩ := unescapes_raw hc hw
        exact ⟨w', hw'⟩

/-! ### Tokens -/

/-- `NextNumberMatch` passes the field `t`, with `r` behind it. -/
def NumberAt (t r : WString) : Prop := NumberShaped t ∧ r.head? ≠ some '='.toNat

/-- The token at the field `t`, with `r` behind it. -/
inductive TokenOf (t r : WString) : Token → Prop where
  | keyword {keyword : WString × TokenType} {u : WString} :
      keyword ∈ keywords → t = keyword.1 ++ u → TokenOf t r ⟨keyword.2, some (t ++ r), 4⟩
  | number {n : Number} : NumberAt t r → t = n.text →
      TokenOf t r ⟨.number, some (t ++ r), t.length⟩
  | partNumber {n : Number} {u : WString} : NumberAt t r → (∀ n : Number, t ≠ n.text) →
      t = n.text ++ u → TokenOf t r ⟨.number, some (t ++ r), n.text.length⟩
  | noNumber : NumberAt t r → (∀ n : Number, t ≠ n.text) → TokenOf t r kInvalidToken
  | string {w : WString} : ¬StartsKeyword t → ¬NumberAt t r → Unescapes t w →
      (∀ acc, decodeChars (t ++ r) (t.length + 1) 0 acc = .ok (some (acc ++ w))) →
      TokenOf t r ⟨.string, some (t ++ r), t.length⟩
  | badString {n : Nat} : ¬StartsKeyword t → ¬NumberAt t r → (∀ w, ¬Unescapes t w) →
      (∀ acc, decodeChars (t ++ r) (n + 1) 0 acc = .ok none) →
      TokenOf t r ⟨.string, some (t ++ r), n⟩
  | badHex : ¬StartsKeyword t → ¬NumberAt t r → (∀ w, ¬Unescapes t w) → TokenOf t r kInvalidToken

/-- A field that is neither a keyword nor a number is a string token. -/
theorem parseStringToken_field {t r : WString} (ht : IsFieldText t) (hr : Separated r)
    (hkeyword : ¬StartsKeyword t) (hnumber : ¬NumberAt t r) :
    ∃ token, HttpValueSerializer.parseStringToken (t ++ r) = .ok token ∧ TokenOf t r token := by
  unfold HttpValueSerializer.parseStringToken
  cases fieldScan [] ht hr with
  | @whole w hw hscan hdecode =>
    simp only [List.nil_append, List.length_nil, Nat.zero_add] at hscan hdecode
    refine ⟨⟨.string, some (t ++ r), t.length⟩, ?_, .string hkeyword hnumber hw hdecode⟩
    rw [hscan]
    rfl
  | @bad length hw hscan hundec =>
    simp only [List.nil_append, List.length_nil] at hscan hundec
    rw [hscan, ok_bind]
    cases length with
    | none => exact ⟨kInvalidToken, rfl, .badHex hkeyword hnumber hw⟩
    | some n => exact ⟨_, rfl, .badString hkeyword hnumber hw (hundec n rfl).2⟩

/-- No two keywords start with the same letter, and none with a digit or a minus. -/
theorem keyword_head {keyword : WString × TokenType} (h : keyword ∈ keywords) :
    ∃ c w, keyword.1 = c :: w ∧ ¬(isDigit c ∨ c = '-'.toNat) ∧ 0 ∉ keyword.1 ∧
      (∀ d ∈ keyword.1, d ≠ '&'.toNat ∧ d ≠ '='.toNat) ∧
      ∀ keyword' ∈ keywords, keyword'.1.head? = some c → keyword' = keyword := by
  simp only [keywords, List.mem_cons, List.not_mem_nil, or_false] at h
  rcases h with rfl | rfl | rfl <;>
    exact ⟨_, _, rfl, by decide, by decide, by decide, by decide⟩

/-- A number begins with a digit or a minus. -/
theorem not_numberAt_of_head {c : WChar} {t : WString} (r : WString)
    (h : ¬(isDigit c ∨ c = '-'.toNat)) : ¬NumberAt (c :: t) r := fun hnumber =>
  h (hnumber.1.first c rfl)

/-- A field with the first letter of a keyword is that keyword or no token. -/
theorem keywordToken_field (keyword : WString × TokenType) {t r : WString}
    (hk : keyword ∈ keywords) (hhead : t.head? = keyword.1.head?) (ht : IsFieldText t)
    (hr : Separated r) :
    ∃ token, HttpValueSerializer.keywordToken (t ++ r) keyword.1 keyword.2 = .ok token ∧
      TokenOf t r token := by
  obtain ⟨c, w, hword, hc, hz, hsep, hunique⟩ := keyword_head hk
  unfold HttpValueSerializer.keywordToken
  by_cases hprefix : keyword.1 <+: t
  · obtain ⟨u, rfl⟩ := hprefix
    have hne : (keyword.1 ++ (u ++ r)).headD 0 ≠ 0 := by
      rw [hword] at hz ⊢
      exact fun h => hz (h ▸ List.mem_cons_self)
    have hmatch : nextStringMatch (keyword.1 ++ u ++ r) 0 keyword.1 = .ok true := by
      rw [List.append_assoc]
      exact nextStringMatch_ok [] keyword.1 (u ++ r) hne
    exact ⟨_, by rw [hmatch]; rfl, .keyword hk rfl⟩
  · obtain ⟨ok, hmatch, hok⟩ := nextStringMatch_spec [] (t ++ r) hz
    rw [List.nil_append, List.length_nil] at hmatch
    -- A keyword has no separator in it, so it cannot reach over the end of the field.
    have hfalse : ok = false := by
      refine Bool.eq_false_iff.mpr fun htrue => hprefix ?_
      obtain ⟨q, hq⟩ := hok htrue
      obtain ⟨t', rfl, -⟩ := field_split hr hsep hq.symm
      exact ⟨t', rfl⟩
    obtain ⟨t', rfl⟩ : ∃ t', t = c :: t' := by
      rw [hword] at hhead
      cases t with
      | nil => cases hhead
      | cons d t' => exact ⟨t', by rw [Option.some.inj hhead]⟩
    -- The first letter decides which keyword it could have been.
    have hnone : ¬StartsKeyword (c :: t') := by
      rintro ⟨keyword', hk', q, hq⟩
      obtain ⟨c', w', hword', -⟩ := keyword_head hk'
      rw [hword', List.cons_append, List.cons.injEq] at hq
      obtain rfl := hunique keyword' hk' (by rw [hword', hq.1]; rfl)
      exact hprefix ⟨q, by rw [hword', List.cons_append, hq.1, hq.2]⟩
    rw [hmatch, hfalse]
    exact parseStringToken_field ht hr hnone (not_numberAt_of_head r hc)

/-- A digit is no separator. -/
theorem digit_no_separator {c : WChar} (h : isDigit c) : c ≠ '&'.toNat ∧ c ≠ '='.toNat := by
  constructor <;> rintro rfl <;> simp [isDigit] at h

/-- No separator stands in a fraction. -/
theorem frac_no_separator (n : Number) : ∀ c ∈ n.frac, c ≠ '&'.toNat ∧ c ≠ '='.toNat := by
  intro c hc
  rcases n.frac_text with hnil | ⟨ds, hds, hfrac⟩
  · rw [hnil] at hc
    cases hc
  · rw [hfrac, List.mem_append] at hc
    rcases hc with hpoint | hmem
    · obtain rfl : c = '.'.toNat := by simpa [wide] using hpoint
      decide
    · exact digit_no_separator (hds.2 c hmem)

/-- No separator stands in an exponent. -/
theorem exp_no_separator (n : Number) : ∀ c ∈ n.exp, c ≠ '&'.toNat ∧ c ≠ '='.toNat := by
  intro c hc
  -- An exponent may be missing; otherwise it is a letter, a sign and digits.
  rcases n.exp_text with hnil | ⟨e, sign, ds, he, hsign, hds, hexp⟩
  · rw [hnil] at hc
    cases hc
  · rw [hexp, List.mem_cons, List.mem_append] at hc
    rcases hc with rfl | hmem | hmem
    · have hletter : c = 'e'.toNat ∨ c = 'E'.toNat := by simpa [wide] using he
      rcases hletter with rfl | rfl <;> decide
    · -- The sign of the exponent may be missing.
      have hplus : c = '-'.toNat ∨ c = '+'.toNat := by
        simp only [List.mem_cons, List.not_mem_nil, or_false] at hsign
        rcases hsign with rfl | rfl | rfl
        · cases hmem
        · exact Or.inl (by simpa [wide] using hmem)
        · exact Or.inr (by simpa [wide] using hmem)
      rcases hplus with rfl | rfl <;> decide
    · exact digit_no_separator (hds.2 c hmem)

/-- The characters of a number are none of the separators. -/
theorem number_no_separator (n : Number) : ∀ c ∈ n.text, c ≠ '&'.toNat ∧ c ≠ '='.toNat := by
  intro c hc
  simp only [Number.text, Number.sign, List.mem_append] at hc
  rcases hc with ((hsign | hwhole) | hfrac) | hexp
  · have hminus : c = '-'.toNat := by
      split_ifs at hsign
      · simpa [wide] using hsign
      · cases hsign
    subst hminus
    decide
  · exact digit_no_separator (n.whole_text.1.2 c hwhole)
  · exact frac_no_separator n c hfrac
  · exact exp_no_separator n c hexp

/-- A separator ends a number. -/
theorem delimited_separated {r : WString} (h : Separated r) : Delimited r := by
  intro c hc
  rcases h c hc with rfl | rfl <;> decide

/-- A field that is a number is a number token. -/
theorem parseNumberToken_field {t r : WString} (hr : Separated r) (hnumber : NumberAt t r) :
    ∃ token, parseNumberToken (t ++ r) = .ok token ∧ TokenOf t r token := by
  by_cases hn : ∃ n : Number, t = n.text
  · obtain ⟨n, rfl⟩ := hn
    exact ⟨_, parseNumberToken_ok n (delimited_separated hr), .number hnumber rfl⟩
  · have hnone : ∀ n : Number, t ≠ n.text := fun n h => hn ⟨n, h⟩
    obtain ⟨token, htoken, rfl | ⟨n, q, hq, rfl⟩⟩ := parseNumberToken_spec (t ++ r)
    · exact ⟨_, htoken, .noNumber hnumber hnone⟩
    · obtain ⟨u, rfl, -⟩ := field_split hr (number_no_separator n) hq
      exact ⟨_, htoken, .partNumber hnumber hnone rfl⟩

/-- At the end of the text the object ends. -/
theorem tokenAt_nil : tokenAt [] = .ok ⟨.objectEnd, some [], 0⟩ := rfl

/-- `&` separates pairs. -/
theorem tokenAt_amp (r : WString) :
    tokenAt ('&'.toNat :: r) = .ok ⟨.listSeparator, some ('&'.toNat :: r), 1⟩ := rfl

/-- `=` separates a key from its value. -/
theorem tokenAt_eq (r : WString) :
    tokenAt ('='.toNat :: r) = .ok ⟨.objectPairSeparator, some ('='.toNat :: r), 1⟩ := rfl

/-- The token of a field, whatever the field is. -/
theorem tokenAt_field {t r : WString} (ht : IsFieldText t) (hne : t ≠ []) (hr : Separated r) :
    ∃ token, tokenAt (t ++ r) = .ok token ∧ TokenOf t r token := by
  obtain ⟨c, t, rfl⟩ := List.exists_cons_of_ne_nil hne
  obtain ⟨hamp, heq, hz⟩ := ht c List.mem_cons_self
  unfold tokenAt
  rw [List.cons_append, deref_cons_zero, ok_bind, ← List.cons_append]
  by_cases hn : c = 'n'.toNat
  · rw [if_pos hn]
    exact keywordToken_field (wide ['n', 'u', 'l', 'l'], .nullToken) (by decide)
      (by rw [hn]; rfl) ht hr
  by_cases htrue : c = 't'.toNat
  · rw [if_neg hn, if_pos htrue]
    exact keywordToken_field (wide ['t', 'r', 'u', 'e'], .boolTrue) (by decide)
      (by rw [htrue]; rfl) ht hr
  by_cases hfalse : c = 'f'.toNat
  · rw [if_neg hn, if_neg htrue, if_pos hfalse]
    exact keywordToken_field (wide ['f', 'a', 'l', 's', 'e'], .boolFalse) (by decide)
      (by rw [hfalse]; rfl) ht hr
  -- From here on no keyword starts at `c`.
  have hkeyword : ¬StartsKeyword (c :: t) := by
    rintro ⟨keyword, hk, q, hq⟩
    simp only [keywords, List.mem_cons, List.not_mem_nil, or_false] at hk
    rcases hk with rfl | rfl | rfl
    · exact hn (List.cons.inj hq).1.symm
    · exact htrue (List.cons.inj hq).1.symm
    · exact hfalse (List.cons.inj hq).1.symm
  rw [if_neg hn, if_neg htrue, if_neg hfalse, if_neg hamp, if_neg heq]
  by_cases hdigit : isDigit c ∨ c = '-'.toNat
  · rw [if_pos hdigit]
    obtain ⟨b, hmatch, hiff⟩ := nextNumberMatch_spec hdigit ht hr
    rw [hmatch, ok_bind]
    cases b with
    | true => exact parseNumberToken_field hr (hiff.mp rfl)
    | false =>
      have hnumber : ¬NumberAt (c :: t) r := fun h => Bool.false_ne_true (hiff.mpr h)
      exact parseStringToken_field ht hr hkeyword hnumber
  · rw [if_neg hdigit, if_neg hz]
    exact parseStringToken_field ht hr hkeyword (not_numberAt_of_head r hdigit)

end Mylib.Proofs.Base.Http
