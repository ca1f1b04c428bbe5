import Mylib.Proofs.Base.JsonGaps

/-!
# `Mylib.Proofs.Base.JsonTokens`: the scanner finds the grammar's tokens

`ParseToken` and the scanners below it, on a text without a zero. Every scanner
returns. What it accepts is a token of the grammar at `json_pos_` (the `_spec`
lemmas), and a token of the grammar there is what it accepts (the others).

A scanner in the middle of a token looks at `pre ++ q` from the index
`pre.length` on: `pre` is the part it has already taken.
-/

set_option autoImplicit false

namespace Mylib.Proofs.Base

open Mylib.Lib.CString
open Mylib.Spec.Base
open JsonValueSerializer JsonGrammar

/-! ### Digits -/

/-- No digit comes first. -/
def NoDigit (r : WString) : Prop := ∀ c, r.head? = some c → ¬isDigit c

/-- Nothing comes first that a number could go on with. -/
def Delimited (r : WString) : Prop :=
  ∀ c, r.head? = some c → ¬isDigit c ∧ c ∉ wide ['.', 'e', 'E']

/-- Where no number goes on, no digit follows. -/
theorem Delimited.noDigit {r : WString} (h : Delimited r) : NoDigit r := fun c hc => (h c hc).1

/-- Every text begins with some digits, maybe none, and no digit behind them. -/
theorem exists_digits (q : WString) :
    ∃ ds r, q = ds ++ r ∧ (∀ c ∈ ds, isDigit c) ∧ NoDigit r := by
  refine ⟨q.takeWhile isDigit, q.dropWhile isDigit, List.takeWhile_append_dropWhile.symm, ?_, ?_⟩
  · intro c hc
    exact List.mem_takeWhile_imp hc
  · intro c hc
    have hne : q.dropWhile isDigit ≠ [] := by
      intro hnil
      simp [hnil] at hc
    have hhead := List.head_dropWhile_not isDigit hne
    rw [List.head?_eq_some_head hne] at hc
    simpa [Option.some.inj hc] using hhead

/-- One step of the digit scan. -/
theorem readDigits_step {p : WString} {n : Nat} {c : WChar} (h : deref p n = .ok c) :
    readDigits p n = if isDigit c then readDigits p (n + 1) else .ok n := by
  obtain ⟨hc, hchar⟩ := charAt_of_deref h
  rw [readDigits, hchar]
  simp

/-- The scan passes the digits and stops behind them. By induction on the digits. -/
theorem readDigits_eq (pre ds r : WString) (hds : ∀ c ∈ ds, isDigit c) (hr : NoDigit r) :
    readDigits (pre ++ (ds ++ r)) pre.length = .ok (pre.length + ds.length) := by
  induction ds generalizing pre with
  | nil =>
    have hhead : ¬isDigit (r.headD 0) := by
      cases r with
      | nil => simp [isDigit]
      | cons c r => exact hr c rfl
    rw [List.nil_append, readDigits_step ((deref_append_length pre r).trans (deref_zero r)),
      if_neg hhead]
    rfl
  | cons d ds ih =>
    have hnext := ih (pre ++ [d]) fun c h => hds c (List.mem_cons_of_mem _ h)
    rw [List.append_assoc, List.length_append] at hnext
    rw [readDigits_step (deref_append_length pre (d :: ds ++ r)),
      if_pos (hds d List.mem_cons_self)]
    refine hnext.trans ?_
    simp only [List.length_cons, List.length_nil]
    congr 1
    omega

/-- The digits `ReadInt` accepts. -/
def IntText (canHaveLeadingZeros : Bool) (ds : WString) : Prop :=
  Digits ds ∧ (canHaveLeadingZeros = false → 1 < ds.length → ds.head? ≠ some '0'.toNat)

/-- A run of digits is an integer unless it has a leading zero that is not allowed. -/
theorem readInt_eq (pre ds r : WString) (lead : Bool) (hds : ∀ c ∈ ds, isDigit c)
    (hr : NoDigit r) :
    (IntText lead ds →
      readInt (pre ++ (ds ++ r)) pre.length lead = .ok (true, pre.length + ds.length)) ∧
    (¬IntText lead ds →
      readInt (pre ++ (ds ++ r)) pre.length lead = .ok (false, pre.length + ds.length)) := by
  unfold readInt
  rw [deref_append_length, deref_zero, ok_bind, readDigits_eq pre ds r hds hr, ok_bind]
  cases ds with
  | nil => simp [IntText, Digits]
  | cons d ds =>
    have hdigits : Digits (d :: ds) := ⟨List.cons_ne_nil d ds, hds⟩
    cases lead with
    | true => simp [IntText, hdigits]
    | false =>
      by_cases hzero : d = 48
      · subst hzero
        simp [IntText, hdigits]
      · simp [IntText, hdigits, hzero]

/-- What the integer scan has passed is an integer of the grammar. -/
theorem readInt_spec (pre q : WString) (lead : Bool) :
    ∃ ok n, readInt (pre ++ q) pre.length lead = .ok (ok, n) ∧
      (ok = true → ∃ ds r, q = ds ++ r ∧ IntText lead ds ∧ n = pre.length + ds.length) := by
  obtain ⟨ds, r, rfl, hds, hr⟩ := exists_digits q
  have heq := readInt_eq pre ds r lead hds hr
  by_cases hint : IntText lead ds
  · exact ⟨true, _, heq.1 hint, fun _ => ⟨ds, r, rfl, hint, rfl⟩⟩
  · exact ⟨false, _, heq.2 hint, fun h => absurd h Bool.false_ne_true⟩

/-- The integer scan passes every integer of the grammar. -/
theorem readInt_ok (pre : WString) (lead : Bool) {ds r : WString} (hds : IntText lead ds)
    (hr : NoDigit r) :
    readInt (pre ++ (ds ++ r)) pre.length lead = .ok (true, pre.length + ds.length) :=
  (readInt_eq pre ds r lead hds.1.2 hr).1 hds

/-! ### Numbers -/

/-- What the fraction scan has passed is a fraction, maybe an empty one. -/
theorem readFraction_spec (pre q : WString) :
    ∃ ok n, readFraction (pre ++ q) pre.length = .ok (ok, n) ∧
      (ok = true → ∃ f r, q = f ++ r ∧ FracText f ∧ n = pre.length + f.length) := by
  unfold readFraction
  rw [deref_append_length, deref_zero, ok_bind]
  by_cases hpoint : q.headD 0 = '.'.toNat
  · obtain ⟨c, q, rfl⟩ : ∃ c q', q = c :: q' := by
      cases q with
      | nil => simp at hpoint
      | cons c q => exact ⟨c, q, rfl⟩
    obtain rfl : c = '.'.toNat := hpoint
    obtain ⟨ok, n, hread, hok⟩ := readInt_spec (pre ++ ['.'.toNat]) q true
    rw [List.append_assoc, List.length_append] at hread
    refine ⟨ok, n, (if_pos rfl).trans hread, fun h => ?_⟩
    obtain ⟨ds, r, rfl, hds, rfl⟩ := hok h
    refine ⟨'.'.toNat :: ds, r, rfl, Or.inr ⟨ds, hds.1, rfl⟩, ?_⟩
    simp only [List.length_append, List.length_cons, List.length_nil]
    omega
  · exact ⟨true, pre.length, if_neg hpoint, fun _ => ⟨[], q, rfl, Or.inl rfl, rfl⟩⟩

/-- The fraction scan passes every fraction. -/
theorem readFraction_ok (pre : WString) {f r : WString} (hf : FracText f) (hr : NoDigit r)
    (hpoint : r.head? ≠ some '.'.toNat) :
    readFraction (pre ++ (f ++ r)) pre.length = .ok (true, pre.length + f.length) := by
  unfold readFraction
  rw [deref_append_length, deref_zero, ok_bind]
  -- Without a point there is no fraction, and with one the digits follow.
  cases hf with
  | inl hnil =>
    subst hnil
    have hhead : r.headD 0 ≠ '.'.toNat := by
      cases r with
      | nil => decide
      | cons c r => simpa using hpoint
    exact if_neg hhead
  | inr hdigits =>
    obtain ⟨ds, hds, rfl⟩ := hdigits
    have hread := readInt_ok (pre ++ ['.'.toNat]) true ⟨hds, by simp⟩ hr
    rw [List.append_assoc, List.length_append] at hread
    refine (if_pos rfl).trans (hread.trans ?_)
    simp only [wide, List.map_cons, List.map_nil, List.length_append, List.length_cons,
      List.length_nil]
    congr 2
    omega

/-- What the exponent scan has passed is an exponent, maybe an empty one. -/
theorem readExponent_spec (pre q : WString) :
    ∃ ok n, readExponent (pre ++ q) pre.length = .ok (ok, n) ∧
      (ok = true → ∃ e r, q = e ++ r ∧ ExpText e ∧ n = pre.length + e.length) := by
  unfold readExponent
  rw [deref_append_length, deref_zero, ok_bind]
  by_cases hexp : q.headD 0 = 'e'.toNat ∨ q.headD 0 = 'E'.toNat
  · obtain ⟨c, q, rfl⟩ : ∃ c q', q = c :: q' := by
      cases q with
      | nil => simp at hexp
      | cons c q => exact ⟨c, q, rfl⟩
    have hc : c ∈ wide ['e', 'E'] := by simpa [wide] using hexp
    rw [if_pos hexp, deref_append, deref_cons_succ, deref_zero, ok_bind]
    -- The sign of the exponent is optional, and leading zeros are allowed behind it.
    by_cases hsign : q.headD 0 = '-'.toNat ∨ q.headD 0 = '+'.toNat
    · obtain ⟨s, q, rfl⟩ : ∃ s q', q = s :: q' := by
        cases q with
        | nil => simp at hsign
        | cons s q => exact ⟨s, q, rfl⟩
      have hs : [s] ∈ [[], wide ['-'], wide ['+']] := by simpa [wide] using hsign
      obtain ⟨ok, n, hread, hok⟩ := readInt_spec (pre ++ [c, s]) q true
      rw [List.append_assoc, List.length_append] at hread
      refine ⟨ok, n, ?_, fun h => ?_⟩
      · rw [if_pos hsign, deref_append, deref_cons_succ, deref_cons_succ, deref_zero, ok_bind]
        exact hread
      · obtain ⟨ds, r, rfl, hds, rfl⟩ := hok h
        refine ⟨c :: ([s] ++ ds), r, rfl, Or.inr ⟨c, [s], ds, hc, hs, hds.1, rfl⟩, ?_⟩
        simp only [List.length_append, List.length_cons, List.length_nil]
        omega
    · obtain ⟨ok, n, hread, hok⟩ := readInt_spec (pre ++ [c]) q true
      rw [List.append_assoc, List.length_append] at hread
      refine ⟨ok, n, by rw [if_neg hsign]; exact hread, fun h => ?_⟩
      obtain ⟨ds, r, rfl, hds, rfl⟩ := hok h
      refine ⟨c :: ([] ++ ds), r, rfl, Or.inr ⟨c, [], ds, hc, by simp, hds.1, rfl⟩, ?_⟩
      simp only [List.nil_append, List.length_append, List.length_cons, List.length_nil]
      omega
  · exact ⟨true, pre.length, if_neg hexp, fun _ => ⟨[], q, rfl, Or.inl rfl, rfl⟩⟩

/-- The exponent scan passes every exponent. -/
theorem readExponent_ok (pre : WString) {e r : WString} (he : ExpText e) (hr : Delimited r) :
    readExponent (pre ++ (e ++ r)) pre.length = .ok (true, pre.length + e.length) := by
  unfold readExponent
  rw [deref_append_length, deref_zero, ok_bind]
  -- Without an `e` there is no exponent.
  cases he with
  | inl hnil =>
    subst hnil
    have hhead : ¬(r.headD 0 = 'e'.toNat ∨ r.headD 0 = 'E'.toNat) := by
      cases r with
      | nil => decide
      | cons c r =>
        have hc := (hr c rfl).2
        simp only [wide, List.map_cons, List.map_nil, List.mem_cons, not_or] at hc
        exact not_or.mpr ⟨hc.2.1, hc.2.2.1⟩
    exact if_neg hhead
  | inr hexp =>
    obtain ⟨c, sign, ds, hc, hsign, hds, rfl⟩ := hexp
    have hhead : c = 'e'.toNat ∨ c = 'E'.toNat := by simpa [wide] using hc
    -- Behind the letter and the sign come the digits.
    have hread : ∀ sign : WString, readInt (pre ++ (c :: (sign ++ ds) ++ r))
        (pre.length + (sign.length + 1)) true
          = .ok (true, pre.length + (c :: (sign ++ ds)).length) := by
      intro sign
      have hint := readInt_ok (pre ++ c :: sign) true ⟨hds, by simp⟩ hr.noDigit
      rw [List.append_assoc, List.length_append] at hint
      simp only [List.cons_append, List.append_assoc, List.length_cons, List.length_append]
        at hint ⊢
      rw [hint]
      congr 2
      omega
    refine (if_pos hhead).trans ?_
    rw [deref_append, List.cons_append, deref_cons_succ, deref_zero, ok_bind]
    simp only [List.mem_cons, List.not_mem_nil, or_false] at hsign
    rcases hsign with rfl | rfl | rfl
    · -- Without a sign the next character is a digit.
      obtain ⟨d, ds', rfl⟩ := List.exists_cons_of_ne_nil hds.1
      have hd : ¬(d = '-'.toNat ∨ d = '+'.toNat) := by
        have hdigit := hds.2 d List.mem_cons_self
        rintro (rfl | rfl) <;> simp [isDigit] at hdigit
      exact (if_neg hd).trans (hread [])
    · refine (if_pos (Or.inl rfl)).trans ?_
      rw [deref_append]
      simp only [wide, List.map_cons, List.map_nil, List.cons_append, List.nil_append,
        deref_cons_succ]
      rw [deref_zero, ok_bind]
      exact hread ['-'.toNat]
    · refine (if_pos (Or.inr rfl)).trans ?_
      rw [deref_append]
      simp only [wide, List.map_cons, List.map_nil, List.cons_append, List.nil_append,
        deref_cons_succ]
      rw [deref_zero, ok_bind]
      exact hread ['+'.toNat]

/-- What follows the fraction of a number is neither a digit nor a point. -/
theorem expText_head {e r : WString} (he : ExpText e) (hr : Delimited r) :
    NoDigit (e ++ r) ∧ (e ++ r).head? ≠ some '.'.toNat := by
  cases he with
  | inl hnil =>
    subst hnil
    refine ⟨hr.noDigit, fun h => (hr _ h).2 ?_⟩
    simp [wide]
  | inr hexp =>
    obtain ⟨c, sign, ds, hc, _, _, rfl⟩ := hexp
    have hhead : c = 'e'.toNat ∨ c = 'E'.toNat := by simpa [wide] using hc
    constructor
    · intro d hd
      obtain rfl : c = d := by simpa using hd
      rcases hhead with rfl | rfl <;> simp [isDigit]
    · rcases hhead with rfl | rfl <;> simp

/-- A fraction begins with a point, so the digits before it end there. -/
theorem fracText_head {f q : WString} (hf : FracText f) (hq : NoDigit q) : NoDigit (f ++ q) := by
  cases hf with
  | inl hnil => exact hnil ▸ hq
  | inr hdigits =>
    obtain ⟨ds, _, rfl⟩ := hdigits
    intro c hc
    obtain rfl : '.'.toNat = c := by simpa [wide] using hc
    simp [isDigit]

/-- The part of `ParseNumberToken` behind the sign. -/
def readNumber (p : WString) (length : Nat) : Except Fault Token := do
  let (whole, length) ← readInt p length false
  if !whole then return kInvalidToken
  else
    let (fraction, length) ← readFraction p length
    if !fraction then return kInvalidToken
    else
      let (exponent, length) ← readExponent p length
      if !exponent then return kInvalidToken
      else return ⟨.number, some p, length⟩

/-- With a minus the scan starts behind it. -/
theorem parseNumberToken_minus (q : WString) :
    parseNumberToken ('-'.toNat :: q) = readNumber ('-'.toNat :: q) 1 := by
  unfold parseNumberToken readNumber
  rw [deref_cons_zero, ok_bind, if_pos rfl, deref_cons_succ, deref_zero]
  rfl

/-- Without one it starts at the first character. -/
theorem parseNumberToken_noMinus {q : WString} (h : q.headD 0 ≠ '-'.toNat) :
    parseNumberToken q = readNumber q 0 := by
  unfold parseNumberToken readNumber
  rw [deref_zero, ok_bind, if_neg h]
  rfl

/-- Behind the sign, the scan gives a number of the grammar or no token at all. -/
theorem readNumber_spec (pre q : WString) :
    ∃ token, readNumber (pre ++ q) pre.length = .ok token ∧
      (token = kInvalidToken ∨ ∃ w f e r, q = w ++ f ++ e ++ r ∧ WholeText w ∧ FracText f ∧
        ExpText e ∧ token = ⟨.number, some (pre ++ q), (pre ++ w ++ f ++ e).length⟩) := by
  unfold readNumber
  obtain ⟨whole, n, hwhole, hw⟩ := readInt_spec pre q false
  rw [hwhole, ok_bind]
  cases whole with
  | false => exact ⟨kInvalidToken, rfl, Or.inl rfl⟩
  | true =>
    obtain ⟨w, q, rfl, hint, rfl⟩ := hw rfl
    -- Each part is scanned from where the one before it ended.
    obtain ⟨fraction, n, hfraction, hf⟩ := readFraction_spec (pre ++ w) q
    rw [List.append_assoc, List.length_append] at hfraction
    simp only [Bool.not_true, Bool.false_eq_true, if_false]
    rw [hfraction, ok_bind]
    cases fraction with
    | false => exact ⟨kInvalidToken, rfl, Or.inl rfl⟩
    | true =>
      obtain ⟨f, q, rfl, hfrac, rfl⟩ := hf rfl
      obtain ⟨exponent, n, hexponent, he⟩ := readExponent_spec (pre ++ w ++ f) q
      simp only [List.append_assoc, List.length_append] at hexponent
      simp only [Bool.not_true, Bool.false_eq_true, if_false, List.length_append, Nat.add_assoc]
      rw [hexponent, ok_bind]
      cases exponent with
      | false => exact ⟨kInvalidToken, rfl, Or.inl rfl⟩
      | true =>
        obtain ⟨e, r, rfl, hexp, rfl⟩ := he rfl
        refine ⟨_, rfl, Or.inr ⟨w, f, e, r, by simp, ?_, hfrac, hexp, ?_⟩⟩
        · exact ⟨hint.1, hint.2 rfl⟩
        · simp [Nat.add_assoc]

/-- The scan passes every number of the grammar that is delimited. -/
theorem readNumber_ok (pre : WString) {w f e r : WString} (hw : WholeText w) (hf : FracText f)
    (he : ExpText e) (hr : Delimited r) :
    readNumber (pre ++ (w ++ f ++ e ++ r)) pre.length
      = .ok ⟨.number, some (pre ++ (w ++ f ++ e ++ r)), (pre ++ w ++ f ++ e).length⟩ := by
  obtain ⟨hdigit, hpoint⟩ := expText_head he hr
  have hwhole := readInt_ok pre false ⟨hw.1, fun _ => hw.2⟩ (fracText_head hf hdigit)
  have hfraction := readFraction_ok (pre ++ w) hf hdigit hpoint
  have hexponent := readExponent_ok (pre ++ w ++ f) he hr
  simp only [List.append_assoc, List.length_append, Nat.add_assoc] at hwhole hfraction hexponent ⊢
  unfold readNumber
  rw [hwhole, ok_bind]
  simp only [Bool.not_true, Bool.false_eq_true, if_false]
  rw [hfraction, ok_bind]
  simp only [Bool.not_true, Bool.false_eq_true, if_false]
  rw [hexponent]
  rfl

/-- A number token is a number of the grammar. -/
theorem parseNumberToken_spec (p : WString) :
    ∃ token, parseNumberToken p = .ok token ∧
      (token = kInvalidToken ∨ ∃ (n : Number) (r : WString), p = n.text ++ r ∧
        token = ⟨.number, some p, n.text.length⟩) := by
  by_cases hminus : p.headD 0 = '-'.toNat
  · obtain ⟨q, rfl⟩ : ∃ q, p = '-'.toNat :: q := by
      cases p with
      | nil => simp at hminus
      | cons c q => exact ⟨q, by rw [← hminus]; rfl⟩
    obtain ⟨token, hread, hcases⟩ := readNumber_spec ['-'.toNat] q
    refine ⟨token, (parseNumberToken_minus q).trans hread, ?_⟩
    -- What was scanned behind the minus is a number with its sign.
    cases hcases with
    | inl hinvalid => exact Or.inl hinvalid
    | inr hnumber =>
      obtain ⟨w, f, e, r, rfl, hw, hf, he, htoken⟩ := hnumber
      refine Or.inr ⟨⟨true, w, f, e, hw, hf, he⟩, r, ?_, htoken⟩
      simp [Number.text, Number.sign, wide]
  · obtain ⟨token, hread, hcases⟩ := readNumber_spec [] p
    refine ⟨token, (parseNumberToken_noMinus hminus).trans hread, ?_⟩
    cases hcases with
    | inl hinvalid => exact Or.inl hinvalid
    | inr hnumber =>
      obtain ⟨w, f, e, r, rfl, hw, hf, he, htoken⟩ := hnumber
      refine Or.inr ⟨⟨false, w, f, e, hw, hf, he⟩, r, ?_, htoken⟩
      simp [Number.text, Number.sign]

/-- A number begins with its sign or with a digit. -/
theorem number_head (n : Number) (r : WString) :
    ∃ c q, n.text ++ r = c :: q ∧ (c = '-'.toNat ∨ isDigit c) ∧
      (n.negative = false → isDigit c) := by
  obtain ⟨d, ds, hds⟩ := List.exists_cons_of_ne_nil n.whole_text.1.1
  have hd : isDigit d := n.whole_text.1.2 d (by rw [hds]; exact List.mem_cons_self)
  cases hneg : n.negative with
  | true =>
    refine ⟨'-'.toNat, n.whole ++ n.frac ++ n.exp ++ r, ?_, Or.inl rfl, by simp⟩
    simp [Number.text, Number.sign, hneg, wide]
  | false =>
    refine ⟨d, ds ++ n.frac ++ n.exp ++ r, ?_, Or.inr hd, fun _ => hd⟩
    simp [Number.text, Number.sign, hneg, hds]

/-- Every number is parsed to its own token. -/
theorem parseNumberToken_ok (n : Number) {r : WString} (hr : Delimited r) :
    parseNumberToken (n.text ++ r) = .ok ⟨.number, some (n.text ++ r), n.text.length⟩ := by
  cases hneg : n.negative with
  | true =>
    have hread := readNumber_ok ['-'.toNat] n.whole_text n.frac_text n.exp_text hr
    have htext : n.text ++ r = '-'.toNat :: (n.whole ++ n.frac ++ n.exp ++ r) := by
      simp [Number.text, Number.sign, hneg, wide]
    rw [htext, parseNumberToken_minus]
    refine hread.trans ?_
    simp [Number.text, Number.sign, hneg, wide]
  -- The first digit is no minus.
  | false =>
    obtain ⟨c, q, hcq, _, hdigit⟩ := number_head n r
    have hminus : (n.text ++ r).headD 0 ≠ '-'.toNat := by
      rw [hcq]
      rintro rfl
      simpa [isDigit] using hdigit hneg
    have hread := readNumber_ok [] n.whole_text n.frac_text n.exp_text hr
    have htext : n.text ++ r = n.whole ++ n.frac ++ n.exp ++ r := by
      simp [Number.text, Number.sign, hneg]
    rw [parseNumberToken_noMinus hminus, htext]
    refine hread.trans ?_
    simp [Number.text, Number.sign, hneg]

/-! ### Strings -/

/-- What the hex scan has passed are as many hex digits as were asked for. -/
theorem readHexDigits_spec {n i : Nat} (pre q : WString) (hi : n + i = pre.length) (k : Nat) :
    ∃ ok, readHexDigits (pre ++ q) n i k = .ok ok ∧
      (ok = true → ∃ hs r, q = hs ++ r ∧ hs.length = k ∧ ∀ c ∈ hs, isHexDigit c) := by
  induction k generalizing i pre q with
  | zero => exact ⟨true, rfl, fun _ => ⟨[], q, rfl, rfl, by simp⟩⟩
  | succ k ih =>
    unfold readHexDigits
    rw [hi, deref_append_length]
    cases q with
    | nil => exact ⟨false, rfl, by simp⟩
    | cons c q =>
      rw [deref_cons_zero, ok_bind]
      -- The terminator is no hex digit, so the scan stops at the end of the text.
      by_cases hhex : isHexDigit c
      · have hne : c ≠ 0 := by
          rintro rfl
          simp [isHexDigit, isDigit] at hhex
        obtain ⟨ok, hread, hok⟩ := ih (pre ++ [c]) q (i := i + 1) (by simp; omega)
        rw [List.append_assoc] at hread
        refine ⟨ok, by simpa [hne, hhex] using hread, fun h => ?_⟩
        obtain ⟨hs, r, rfl, hlen, hall⟩ := hok h
        exact ⟨c :: hs, r, rfl, by simp [hlen], List.forall_mem_cons.mpr ⟨hhex, hall⟩⟩
      · refine ⟨false, ?_, by simp⟩
        by_cases hne : c = 0 <;> simp [hne, hhex]

/-- The hex scan passes the hex digits that it was asked for. -/
theorem readHexDigits_ok {n i : Nat} (pre : WString) {hs : WString} (r : WString)
    (hi : n + i = pre.length) (hhex : ∀ c ∈ hs, isHexDigit c) :
    readHexDigits (pre ++ (hs ++ r)) n i hs.length = .ok true := by
  induction hs generalizing i pre with
  | nil => rfl
  | cons c hs ih =>
    have hc : isHexDigit c := hhex c List.mem_cons_self
    have hne : c ≠ 0 := by
      rintro rfl
      simp [isHexDigit, isDigit] at hc
    have hrest := ih (pre ++ [c]) (i := i + 1) (by simp; omega) fun c h =>
      hhex c (List.mem_cons_of_mem _ h)
    rw [List.append_assoc] at hrest
    rw [List.length_cons]
    unfold readHexDigits
    rw [hi, deref_append_length]
    simpa [hne, hc] using hrest

/-- The scanner's and the decoder's tables agree with the grammar's. -/
theorem shortEscape_tables {e d : WChar} (h : (e, d) ∈ shortEscapes) :
    escapeDigits e = some 0 ∧ unescape e = some d ∧ e ≠ 'x'.toNat ∧ e ≠ 'u'.toNat := by
  simp only [shortEscapes, List.mem_cons, Prod.mk.injEq, List.not_mem_nil, or_false] at h
  rcases h with h | h | h | h | h | h | h | h | h <;> obtain ⟨rfl, rfl⟩ := h <;> decide

/-- The escapes without digits are those of the table. -/
theorem shortEscape_of_escapeDigits {e : WChar} (h : escapeDigits e = some 0) :
    ∃ d, (e, d) ∈ shortEscapes := by
  have he : e ∈ wide ['\\', '/', 'b', 'f', 'n', 'r', 't', 'v', '"'] := by
    unfold escapeDigits at h
    split_ifs at h with _ _ hmem
    · simp at h
    · simp at h
    · exact hmem
  simp only [wide, List.map_cons, List.map_nil, List.mem_cons, List.not_mem_nil, or_false] at he
  rcases he with rfl | rfl | rfl | rfl | rfl | rfl | rfl | rfl | rfl <;>
    simp [shortEscapes]

/-- An escape with its hex digits is one of the grammar. -/
theorem chars_escape {e : WChar} {hs : WString} (h : escapeDigits e = some hs.length)
    (hhex : ∀ c ∈ hs, isHexDigit c) :
    ∃ d, ∀ t w, Chars t w → Chars ('\\'.toNat :: e :: (hs ++ t)) (d :: w) := by
  -- `x` has two digits, `u` has four, and the other escapes have none.
  by_cases hx : e = 'x'.toNat
  · subst hx
    obtain ⟨a, b, rfl⟩ := List.length_eq_two.mp (Option.some.inj h).symm
    exact ⟨_, fun t w => Chars.hex2 (hhex a (by simp)) (hhex b (by simp))⟩
  by_cases hu : e = 'u'.toNat
  · subst hu
    obtain ⟨a, b, c, d, rfl⟩ : ∃ a b c d, hs = [a, b, c, d] := by
      match hs, Option.some.inj h with
      | [a, b, c, d], _ => exact ⟨a, b, c, d, rfl⟩
    exact ⟨_, fun t w => Chars.hex4 (hhex a (by simp)) (hhex b (by simp)) (hhex c (by simp))
      (hhex d (by simp))⟩
  · have hzero : hs.length = 0 := by
      unfold escapeDigits at h
      rw [if_neg hx, if_neg hu] at h
      split_ifs at h
      exact (Option.some.inj h).symm
    obtain rfl : hs = [] := List.eq_nil_of_length_eq_zero hzero
    obtain ⟨d, hd⟩ := shortEscape_of_escapeDigits h
    exact ⟨d, fun t w => Chars.short hd⟩

/-- One step of the string scan, by the character at the cursor. -/
theorem scanString_step {p : WString} {n : Nat} {c : WChar} (h : deref p n = .ok c) :
    scanString p n =
      if c = 0 then .ok .unterminated
      else if c = '\\'.toNat then
        deref p (n + 1) >>= fun e =>
          match escapeDigits e with
          | none => .ok (.invalidEscape (n + 1))
          | some k => readHexDigits p (n + 1) 1 k >>= fun ok =>
              if ok then scanString p (n + 1 + k + 1) else .ok (.invalidEscape (n + 1))
      else if c = '"'.toNat then .ok (.closed (n + 1))
      else scanString p (n + 1) := by
  obtain ⟨hc, hchar⟩ := charAt_of_deref h
  rw [scanString, hchar]
  rfl

/-- A complete escape is passed in one step of the loop. -/
theorem scanString_escape (pre : WString) {e : WChar} {hs : WString} (r : WString)
    (h : escapeDigits e = some hs.length) (hhex : ∀ c ∈ hs, isHexDigit c) :
    scanString (pre ++ '\\'.toNat :: e :: (hs ++ r)) pre.length
      = scanString ((pre ++ '\\'.toNat :: e :: hs) ++ r) (pre ++ '\\'.toNat :: e :: hs).length := by
  have hread := readHexDigits_ok (n := pre.length + 1) (i := 1) (pre ++ ['\\'.toNat, e]) r
    (by simp) hhex
  rw [List.append_assoc] at hread
  rw [scanString_step (deref_append_length pre _), if_neg (by decide), if_pos rfl, deref_append,
    deref_cons_succ, deref_cons_zero, ok_bind, h]
  show (readHexDigits (pre ++ (['\\'.toNat, e] ++ (hs ++ r))) (pre.length + 1) 1 hs.length
    >>= _) = _
  rw [hread, ok_bind, if_pos rfl]
  simp only [List.append_assoc, List.cons_append, List.length_append, List.length_cons]
  congr 1
  omega

/-- What the end of the loop says about the text `q` from `n` on, up to a
terminator at `m`. -/
def ScanResult (q : WString) (n m : Nat) : StringScan → Prop
  | .closed k =>
    ∃ t w r, q = t ++ '"'.toNat :: r ∧ Chars t w ∧ 0 ∉ t ∧ k = n + t.length + 1
  | .invalidEscape k => k ≤ m
  | .unterminated => True

/-- A scan that goes on behind a piece `a` of a string. -/
theorem ScanResult.after {a q : WString} {n m : Nat} {res : StringScan}
    (h : ScanResult q (n + a.length) m res) (hza : 0 ∉ a)
    (ha : ∀ t w, Chars t w → ∃ w', Chars (a ++ t) w') : ScanResult (a ++ q) n m res := by
  cases res with
  | closed k =>
    obtain ⟨t, w, r, rfl, hchars, hz, rfl⟩ := h
    obtain ⟨w', hw'⟩ := ha t w hchars
    exact ⟨a ++ t, w', r, by simp, hw', by simp [hza, hz], by simp; omega⟩
  | invalidEscape k => exact h
  | unterminated => exact trivial

/-- No part of an escape is the terminator. -/
theorem escape_nulFree {e : WChar} {hs : WString} (h : escapeDigits e = some hs.length)
    (hhex : ∀ c ∈ hs, isHexDigit c) : 0 ∉ '\\'.toNat :: e :: hs := by
  intro hmem
  rcases List.mem_cons.mp hmem with hback | hmem
  · exact absurd hback (by decide)
  rcases List.mem_cons.mp hmem with rfl | hmem
  · simp [escapeDigits, wide] at h
  · have hzero := hhex 0 hmem
    simp [isHexDigit, isDigit] at hzero

/-- The scanner stops at a terminator wherever the text has one. -/
theorem scanString_spec (pre q : WString) :
    ∃ res, scanString (pre ++ q) pre.length = .ok res ∧
      ScanResult q pre.length (pre ++ q).length res := by
  -- On the length: an escape is scanned in one step.
  induction hn : q.length using Nat.strong_induction_on generalizing pre q with
  | _ n ih =>
    cases q with
    | nil =>
      refine ⟨.unterminated, ?_, trivial⟩
      rw [scanString_step (deref_append_length pre []), if_pos rfl]
    | cons c q =>
      by_cases hc : c = 0
      · refine ⟨.unterminated, ?_, trivial⟩
        rw [scanString_step (deref_append_length pre (c :: q)), if_pos hc]
      by_cases hback : c = '\\'.toNat
      · subst hback
        have hshort : pre.length + 1 ≤ (pre ++ '\\'.toNat :: q).length := by
          rw [List.length_append, List.length_cons]
          omega
        cases q with
        | nil =>
          refine ⟨.invalidEscape (pre.length + 1), ?_, hshort⟩
          rw [scanString_step (deref_append_length pre _), if_neg hc, if_pos rfl, deref_append]
          rfl
        | cons e q =>
          have hstep := scanString_step (deref_append_length pre ('\\'.toNat :: e :: q))
          rw [if_neg hc, if_pos rfl, deref_append, deref_cons_succ, deref_cons_zero, ok_bind]
            at hstep
          cases he : escapeDigits e with
          | none =>
            rw [he] at hstep
            exact ⟨_, hstep, hshort⟩
          | some k =>
            obtain ⟨ok, hread, hok⟩ := readHexDigits_spec (n := pre.length + 1) (i := 1)
              (pre ++ ['\\'.toNat, e]) q (by simp) k
            rw [List.append_assoc] at hread
            cases ok with
            | false =>
              rw [he] at hstep
              refine ⟨.invalidEscape (pre.length + 1), ?_, hshort⟩
              rw [hstep]
              exact (congrArg (· >>= _) hread).trans rfl
            | true =>
              obtain ⟨hs, r, rfl, rfl, hhex⟩ := hok rfl
              obtain ⟨d, hd⟩ := chars_escape he hhex
              obtain ⟨res, hscan, hres⟩ :=
                ih r.length (by simp at hn; omega) (pre ++ '\\'.toNat :: e :: hs) r rfl
              refine ⟨res, (scanString_escape pre r he hhex).trans hscan, ?_⟩
              rw [List.length_append, List.append_assoc] at hres
              exact hres.after (escape_nulFree he hhex) fun t w h => ⟨d :: w, hd t w h⟩
      · have hstep := scanString_step (deref_append_length pre (c :: q))
        rw [if_neg hc, if_neg hback] at hstep
        by_cases hquote : c = '"'.toNat
        · subst hquote
          rw [if_pos rfl] at hstep
          exact ⟨_, hstep, [], [], q, rfl, Chars.nil, List.not_mem_nil, rfl⟩
        · rw [if_neg hquote] at hstep
          obtain ⟨res, hscan, hres⟩ := ih q.length (by simp at hn; omega) (pre ++ [c]) q rfl
          rw [List.append_assoc, List.length_append] at hscan
          rw [List.append_assoc, List.length_append] at hres
          have hzc : 0 ∉ [c] := by simpa using Ne.symm hc
          exact ⟨res, hstep.trans hscan,
            hres.after hzc fun t w h => ⟨c :: w, Chars.raw hquote hback h⟩⟩

/-- The step of `scanString_chars` over an escape. -/
theorem scanString_chars_escape (pre : WString) {e : WChar} (hs t r : WString)
    (h : escapeDigits e = some hs.length) (hhex : ∀ c ∈ hs, isHexDigit c)
    (ih : ∀ pre : WString, scanString (pre ++ (t ++ r)) pre.length
      = scanString ((pre ++ t) ++ r) (pre ++ t).length) :
    scanString (pre ++ ('\\'.toNat :: e :: (hs ++ t) ++ r)) pre.length
      = scanString ((pre ++ '\\'.toNat :: e :: (hs ++ t)) ++ r)
          (pre ++ '\\'.toNat :: e :: (hs ++ t)).length := by
  have hstep := (scanString_escape pre (t ++ r) h hhex).trans (ih _)
  simpa only [List.append_assoc, List.cons_append] using hstep

/-- The scanner passes over the inside of a literal. -/
theorem scanString_chars (pre : WString) {t w : WString} (r : WString) (ht : Chars t w)
    (hz : 0 ∉ t) :
    scanString (pre ++ (t ++ r)) pre.length
      = scanString ((pre ++ t) ++ r) (pre ++ t).length := by
  induction ht generalizing pre with
  | nil => rw [List.nil_append, List.append_nil]
  -- A raw character is passed by itself, an escape with its digits.
  | @raw c t w hquote hback _ ih =>
    have hrest := ih (pre ++ [c]) (nulFree_tail hz)
    rw [List.append_assoc pre [c] t, List.append_assoc pre [c], List.length_append] at hrest
    rw [List.cons_append, scanString_step (deref_append_length pre _),
      if_neg (ne_zero_of_mem hz List.mem_cons_self), if_neg hback, if_neg hquote]
    exact hrest
  | @short e d t w he _ ih =>
    have hzt : 0 ∉ t := nulFree_tail (nulFree_tail hz)
    exact scanString_chars_escape pre [] t r (shortEscape_tables he).1 (by simp)
      fun pre => ih pre hzt
  | @hex2 a b t w ha hb _ ih =>
    have hzt : 0 ∉ t := fun h => hz (by simp [h])
    exact scanString_chars_escape pre [a, b] t r rfl (by simp [ha, hb])
      fun pre => ih pre hzt
  | @hex4 a b c d t w ha hb hc hd _ ih =>
    have hzt : 0 ∉ t := fun h => hz (by simp [h])
    exact scanString_chars_escape pre [a, b, c, d] t r rfl (by simp [ha, hb, hc, hd])
      fun pre => ih pre hzt

/-- The scan passes the characters of a literal up to its quote. By induction on the characters. -/
theorem scanString_ok (pre : WString) {t w : WString} (r : WString) (ht : Chars t w)
    (hz : 0 ∉ t) :
    scanString (pre ++ (t ++ '"'.toNat :: r)) pre.length
      = .ok (.closed (pre.length + t.length + 1)) := by
  rw [scanString_chars pre _ ht hz, scanString_step (deref_append_length (pre ++ t) _),
    List.length_append]
  rfl

/-- The decoder turns the inside of a literal into the characters it stands for. -/
theorem decodeChars_ok (pre : WString) {t w : WString} (r acc : WString) (ht : Chars t w) :
    decodeChars (pre ++ (t ++ '"'.toNat :: r)) (pre.length + t.length + 1) pre.length acc
      = .ok (some (acc ++ w)) := by
  -- `pre` is what has been decoded, and it grows by one character or one escape in each case.
  induction ht generalizing pre acc with
  | nil =>
    rw [decodeChars, dif_neg (by simp)]
    simp
  | @raw c t w hquote hback _ ih =>
    have hrest := ih (pre ++ [c]) (acc ++ [c])
    simp only [List.append_assoc, List.length_append, List.singleton_append,
      List.length_singleton] at hrest
    rw [decodeChars, dif_pos (by simp)]
    rw [List.cons_append, deref_append_length, deref_cons_zero, ok_bind, if_neg hback]
    convert hrest using 2
    simp only [List.length_cons]
    omega
  | @short e d t w he _ ih =>
    obtain ⟨-, hunescape, hx, hu⟩ := shortEscape_tables he
    have hrest := ih (pre ++ ['\\'.toNat, e]) (acc ++ [d])
    simp only [List.append_assoc, List.length_append, List.cons_append, List.nil_append,
      List.length_cons, List.length_nil] at hrest
    rw [decodeChars, dif_pos (by simp)]
    simp only [List.cons_append, deref_append_length, deref_append, deref_cons_zero,
      deref_cons_succ, ok_bind, if_true, if_neg hx, if_neg hu, hunescape]
    convert hrest using 2
    simp only [List.length_cons]
    omega
  | @hex2 a b t w ha hb _ ih =>
    have hrest := ih (pre ++ ['\\'.toNat, 'x'.toNat, a, b]) (acc ++ [hexToInt a * 16 + hexToInt b])
    simp only [List.append_assoc, List.length_append, List.cons_append, List.nil_append,
      List.length_cons, List.length_nil] at hrest
    rw [decodeChars, dif_pos (by simp)]
    simp only [List.cons_append, deref_append_length, deref_append, deref_cons_zero,
      deref_cons_succ, ok_bind, if_true]
    convert hrest using 2
    simp only [List.length_cons]
    omega
  | @hex4 a b c d t w ha hb hc hd _ ih =>
    have hrest := ih (pre ++ ['\\'.toNat, 'u'.toNat, a, b, c, d])
      (acc ++ [hexToInt a * 4096 + hexToInt b * 256 + hexToInt c * 16 + hexToInt d])
    simp only [List.append_assoc, List.length_append, List.cons_append, List.nil_append,
      List.length_cons, List.length_nil] at hrest
    rw [decodeChars, dif_pos (by simp)]
    simp only [List.cons_append, deref_append_length, deref_append, deref_cons_zero,
      deref_cons_succ, ok_bind, if_true, if_neg (show 'u'.toNat ≠ 'x'.toNat by decide)]
    convert hrest using 2
    simp only [List.length_cons]
    omega

/-! ### Keywords and error positions -/

/-- If the scan matches a word, the text begins with it. -/
theorem nextStringMatch_spec (pre q : WString) {str : WString} (hz : 0 ∉ str) :
    ∃ ok, nextStringMatch (pre ++ q) pre.length str = .ok ok ∧ (ok = true → str <+: q) := by
  induction str generalizing pre q with
  | nil => exact ⟨true, rfl, fun _ => List.nil_prefix⟩
  | cons s str ih =>
    unfold nextStringMatch
    rw [deref_zero, ok_bind, deref_append_length]
    -- At the end of the text the word does not match.
    by_cases hnul : (pre ++ q).headD 0 = 0
    · exact ⟨false, by rw [if_pos hnul]; rfl, by simp⟩
    rw [if_neg hnul, deref_zero, ok_bind]
    -- The first characters agree, and the rest is matched from the next place.
    by_cases hs : q.headD 0 = s
    · obtain ⟨q, rfl⟩ : ∃ q', q = s :: q' := by
        cases q with
        | nil => exact absurd hs.symm (ne_zero_of_mem hz List.mem_cons_self)
        | cons c q => exact ⟨q, by rw [← hs]; rfl⟩
      obtain ⟨ok, hmatch, hok⟩ := ih (pre ++ [s]) q (nulFree_tail hz)
      rw [List.append_assoc, List.length_append] at hmatch
      refine ⟨ok, by rw [if_neg (not_not.mpr hs)]; exact hmatch, fun h => ?_⟩
      obtain ⟨r, rfl⟩ := hok h
      exact ⟨r, rfl⟩
    · exact ⟨false, by rw [if_pos hs]; rfl, by simp⟩

/-- Where the text begins with a word, the scan matches it. -/
theorem nextStringMatch_ok (pre str r : WString) (hne : (pre ++ (str ++ r)).headD 0 ≠ 0) :
    nextStringMatch (pre ++ (str ++ r)) pre.length str = .ok true := by
  induction str generalizing pre with
  | nil => rfl
  | cons s str ih =>
    have hrest := ih (pre ++ [s]) (by simpa using hne)
    rw [List.append_assoc, List.length_append] at hrest
    unfold nextStringMatch
    rw [deref_zero, ok_bind, if_neg hne, deref_append_length]
    simpa using hrest

/-- Counting lines ends at the position or at the end of the text. -/
theorem errorPosition_returns (pos errorPos : WString) (line col : Nat) :
    ∃ r, errorPosition pos errorPos line col = .ok r := by
  induction pos generalizing line col with
  | nil =>
    rw [errorPosition]
    by_cases h : [] = errorPos <;> simp [h]
  | cons c pos ih =>
    rw [errorPosition]
    obtain ⟨r₁, h₁⟩ := ih (line + 1) 1
    obtain ⟨r₂, h₂⟩ := ih line (col + 1)
    split_ifs with heq
    · exact ⟨_, rfl⟩
    · rw [deref_cons_zero, ok_bind, next_cons]
      by_cases hc : c = 0
      · exact ⟨none, by simp [hc]⟩
      by_cases hn : c = 10
      · exact ⟨r₁, by simp [hn, h₁]⟩
      · exact ⟨r₂, by simpa [hc, hn] using h₂⟩

/-- `s'` differs from `s` at most in the members that describe an error. -/
structure ErrorOnly (s s' : JsonValueSerializer) : Prop where
  startPos : s'.startPos = s.startPos
  jsonPos : s'.jsonPos = s.jsonPos
  stackDepth : s'.stackDepth = s.stackDepth
  allowTrailingComma : s'.allowTrailingComma = s.allowTrailingComma

/-- Nothing has changed. -/
theorem ErrorOnly.rfl {s : JsonValueSerializer} : ErrorOnly s s := ⟨by rfl, by rfl, by rfl, by rfl⟩

/-- Storing an error changes the error fields only. -/
theorem setErrorCode_returns (s : JsonValueSerializer) (error : ParseError) (errorPos : WString) :
    ∃ s', s.setErrorCode error errorPos = .ok s' ∧ ErrorOnly s s' := by
  unfold setErrorCode
  obtain ⟨r, hr⟩ := errorPosition_returns s.startPos errorPos 1 1
  rw [hr, ok_bind]
  cases r with
  | none => exact ⟨s, rfl, ErrorOnly.rfl⟩
  | some r => exact ⟨_, rfl, by rfl, by rfl, by rfl, by rfl⟩

/-! ### Tokens -/

/-- The texts of the tokens. -/
inductive Lexeme : TokenType → WString → Prop where
  | null : Lexeme .nullToken (wide ['n', 'u', 'l', 'l'])
  | boolTrue : Lexeme .boolTrue (wide ['t', 'r', 'u', 'e'])
  | boolFalse : Lexeme .boolFalse (wide ['f', 'a', 'l', 's', 'e'])
  | number (n : Number) : Lexeme .number n.text
  | string {t w : WString} : Chars t w → Lexeme .string (quoted t)
  | punctuator {c : WChar} {type : TokenType} : punctuator c = some type → Lexeme type [c]

/-- `token` is what `ParseToken` may return at the text `q`. -/
inductive TokenAt : Token → WString → Prop where
  | invalid (q : WString) : TokenAt kInvalidToken q
  | endOfInput : TokenAt ⟨.endOfInput, none, 0⟩ []
  | lexeme {type : TokenType} {t : WString} (r : WString) :
      Lexeme type t → TokenAt ⟨type, some (t ++ r), t.length⟩ (t ++ r)

/-- The six punctuators and their tokens. -/
theorem punctuator_cases {c : WChar} {type : TokenType} (h : punctuator c = some type) :
    c = '['.toNat ∧ type = .arrayBegin ∨ c = ']'.toNat ∧ type = .arrayEnd ∨
    c = ','.toNat ∧ type = .listSeparator ∨ c = '{'.toNat ∧ type = .objectBegin ∨
    c = '}'.toNat ∧ type = .objectEnd ∨ c = ':'.toNat ∧ type = .objectPairSeparator := by
  unfold punctuator at h
  split_ifs at h <;> simp_all

/-- A token begins with a character that `EatWhitesspaceAndComments` stops at. -/
theorem lexeme_head {type : TokenType} {t : WString} (h : Lexeme type t) :
    ∃ c u, t = c :: u ∧ c ≠ 0 ∧ ¬Blank c ∧ c ≠ 47 := by
  cases h with
  | null => exact ⟨_, _, rfl, by decide, by decide, by decide⟩
  | boolTrue => exact ⟨_, _, rfl, by decide, by decide, by decide⟩
  | boolFalse => exact ⟨_, _, rfl, by decide, by decide, by decide⟩
  -- A number begins with a digit or a minus.
  | number n =>
    obtain ⟨c, q, hcq, hc, -⟩ := number_head n []
    rw [List.append_nil] at hcq
    refine ⟨c, q, hcq, ?_⟩
    rw [blank_iff]
    rcases hc with rfl | hc
    · decide
    · refine ⟨?_, ?_, ?_⟩
      · rintro rfl
        simp [isDigit] at hc
      · rintro (rfl | rfl | rfl | rfl) <;> simp [isDigit] at hc
      · rintro rfl
        simp [isDigit] at hc
  | string _ => exact ⟨_, _, rfl, by decide, by decide, by decide⟩
  -- The six punctuators, one by one.
  | punctuator h =>
    rcases punctuator_cases h with h | h | h | h | h | h <;> obtain ⟨rfl, -⟩ := h <;>
      exact ⟨_, _, rfl, by decide, by decide, by decide⟩

/-- No token begins with a blank or a comment. -/
theorem stops_lexeme {type : TokenType} {t : WString} (r : WString) (h : Lexeme type t) :
    Stops (t ++ r) := by
  obtain ⟨c, u, rfl, _, hblank, hslash⟩ := lexeme_head h
  exact stops_cons (u ++ r) hblank hslash

/-- A keyword that is matched is a token of the grammar. -/
theorem keywordToken_spec (q : WString) {str : WString} {type : TokenType} (hz : 0 ∉ str)
    (hstr : Lexeme type str) : ∃ token, keywordToken q str type = .ok token ∧ TokenAt token q := by
  obtain ⟨ok, hmatch, hok⟩ := nextStringMatch_spec [] q hz
  unfold keywordToken
  rw [show nextStringMatch q 0 str = .ok ok from hmatch, ok_bind]
  cases ok with
  | false => exact ⟨kInvalidToken, rfl, TokenAt.invalid q⟩
  | true =>
    obtain ⟨r, rfl⟩ := hok rfl
    exact ⟨_, rfl, TokenAt.lexeme r hstr⟩

/-- A keyword at the beginning of the text is matched. -/
theorem keywordToken_ok (str r : WString) (type : TokenType) (hne : (str ++ r).headD 0 ≠ 0) :
    keywordToken (str ++ r) str type = .ok ⟨type, some (str ++ r), str.length⟩ := by
  unfold keywordToken
  rw [show nextStringMatch (str ++ r) 0 str = .ok true from nextStringMatch_ok [] str r hne]
  rfl

/-- `ParseStringToken` takes a literal without a terminator inside, or returns an
invalid token. -/
theorem parseStringToken_cases (s : JsonValueSerializer) {q : WString}
    (hq : s.jsonPos = '"'.toNat :: q) :
    (∃ t w r, s.jsonPos = quoted t ++ r ∧ Chars t w ∧ 0 ∉ t ∧
      s.parseStringToken = .ok (⟨.string, some s.jsonPos, (quoted t).length⟩, s)) ∨
    ∃ s', s.parseStringToken = .ok (kInvalidToken, s') ∧ ErrorOnly s s' := by
  obtain ⟨res, hscan, hres⟩ := scanString_spec ['"'.toNat] q
  unfold parseStringToken
  rw [hq, show scanString ('"'.toNat :: q) 1 = .ok res from hscan, ok_bind]
  cases res with
  -- The closing quote was found.
  | closed k =>
    obtain ⟨t, w, r, rfl, ht, hz, rfl⟩ := hres
    have hlen : ['"'.toNat].length + t.length + 1 = (quoted t).length := by simp [quoted]; omega
    refine Or.inl ⟨t, w, r, by simp [quoted], ht, hz, ?_⟩
    rw [← hlen]
    rfl
  -- The scan stopped at an escape that is not one.
  | invalidEscape k =>
    obtain ⟨a, b, hab, hk⟩ : ∃ a b, '"'.toNat :: q = a ++ b ∧ a.length = k :=
      ⟨_, _, (List.take_append_drop k _).symm, List.length_take_of_le hres⟩
    obtain ⟨s', hset, herror⟩ := setErrorCode_returns s .invalidEscape b
    refine Or.inr ⟨s', ?_, herror⟩
    rw [hab, ← hk]
    show (advance (a ++ b) a.length >>= _) = _
    rw [advance_append_length, ok_bind, hset]
    rfl
  | unterminated => exact Or.inr ⟨s, rfl, ErrorOnly.rfl⟩

/-- What begins with a quote is a string literal or no token. -/
theorem parseStringToken_spec (s : JsonValueSerializer) {q : WString}
    (hq : s.jsonPos = '"'.toNat :: q) :
    ∃ token s', s.parseStringToken = .ok (token, s') ∧ ErrorOnly s s' ∧
      TokenAt token s.jsonPos := by
  rcases parseStringToken_cases s hq with ⟨t, w, r, hpos, ht, -, htoken⟩ | ⟨s', htoken, herror⟩
  · refine ⟨_, s, htoken, ErrorOnly.rfl, ?_⟩
    rw [hpos]
    exact TokenAt.lexeme r (Lexeme.string ht)
  · exact ⟨kInvalidToken, s', htoken, herror, TokenAt.invalid _⟩

/-- Every string literal of the grammar is parsed. -/
theorem parseStringToken_ok (s : JsonValueSerializer) {t w r : WString} (ht : Chars t w)
    (hz : 0 ∉ t) (hq : s.jsonPos = quoted t ++ r) :
    s.parseStringToken = .ok (⟨.string, some (quoted t ++ r), (quoted t).length⟩, s) := by
  have hscan := scanString_ok ['"'.toNat] r ht hz
  have hpos : quoted t ++ r = ['"'.toNat] ++ (t ++ '"'.toNat :: r) := by simp [quoted]
  unfold parseStringToken
  rw [hq, hpos, show scanString _ 1 = _ from hscan, ok_bind]
  simp only [quoted, List.length_cons, List.length_append, List.length_nil]
  congr 4
  omega

/-- On a text without a zero `ParseToken` returns. It leaves `json_pos_` behind a
gap, and the token it returns lies there. -/
theorem parseToken_spec (s : JsonValueSerializer) (hz : 0 ∉ s.jsonPos) :
    ∃ g q token s', s.parseToken = .ok (token, s') ∧ s.jsonPos = g ++ q ∧ Stops q ∧
      Skipped g q ∧ ErrorOnly { s with jsonPos := q } s' ∧ TokenAt token q := by
  obtain ⟨g, q, heat, hpos, hstops, hskip⟩ := eatWhitesspaceAndComments_spec s.jsonPos hz
  have hzq : 0 ∉ q := fun h => hz (hpos ▸ List.mem_append_right _ h)
  -- What remains is the `switch` on the first character of `q`.
  suffices h : ∃ token s', s.parseToken = .ok (token, s') ∧
      ErrorOnly { s with jsonPos := q } s' ∧ TokenAt token q by
    obtain ⟨token, s', hparse, herror, htoken⟩ := h
    exact ⟨g, q, token, s', hparse, hpos, hstops, hskip, herror, htoken⟩
  unfold parseToken
  rw [heat, ok_bind]
  cases q with
  | nil => exact ⟨_, _, rfl, ErrorOnly.rfl, TokenAt.endOfInput⟩
  | cons c q =>
    have hc : c ≠ 0 := ne_zero_of_mem hzq List.mem_cons_self
    rw [deref_cons_zero, ok_bind, if_neg hc]
    have keyword : ∀ {str : WString} {type : TokenType}, 0 ∉ str → Lexeme type str →
        ∃ token s', (do return (← keywordToken (c :: q) str type, { s with jsonPos := c :: q })
            : Except Fault (Token × JsonValueSerializer)) = .ok (token, s') ∧
          ErrorOnly { s with jsonPos := c :: q } s' ∧ TokenAt token (c :: q) := by
      intro str type hstr hlex
      obtain ⟨token, hkey, htoken⟩ := keywordToken_spec (c :: q) hstr hlex
      exact ⟨token, _, by rw [hkey]; rfl, ErrorOnly.rfl, htoken⟩
    by_cases hn : c = 'n'.toNat
    · rw [if_pos hn]
      exact keyword (by decide) Lexeme.null
    by_cases ht : c = 't'.toNat
    · rw [if_neg hn, if_pos ht]
      exact keyword (by decide) Lexeme.boolTrue
    by_cases hf : c = 'f'.toNat
    · rw [if_neg hn, if_neg ht, if_pos hf]
      exact keyword (by decide) Lexeme.boolFalse
    by_cases hnum : isDigit c ∨ c = '-'.toNat
    · rw [if_neg hn, if_neg ht, if_neg hf, if_pos hnum]
      obtain ⟨token, hparse, hcases⟩ := parseNumberToken_spec (c :: q)
      refine ⟨token, _, by rw [hparse]; rfl, ErrorOnly.rfl, ?_⟩
      cases hcases with
      | inl hinvalid => exact hinvalid ▸ TokenAt.invalid _
      | inr hnumber =>
        obtain ⟨n, r, hnr, rfl⟩ := hnumber
        rw [hnr]
        exact TokenAt.lexeme r (Lexeme.number n)
    by_cases hquote : c = '"'.toNat
    · rw [if_neg hn, if_neg ht, if_neg hf, if_neg hnum, if_pos hquote]
      subst hquote
      exact parseStringToken_spec { s with jsonPos := '"'.toNat :: q } rfl
    · rw [if_neg hn, if_neg ht, if_neg hf, if_neg hnum, if_neg hquote]
      cases hpunct : punctuator c with
      | none => exact ⟨_, _, rfl, ErrorOnly.rfl, TokenAt.invalid _⟩
      | some type =>
        exact ⟨_, _, rfl, ErrorOnly.rfl, TokenAt.lexeme q (Lexeme.punctuator hpunct)⟩

/-- A token behind a gap is found. -/
theorem parseToken_lexeme {s : JsonValueSerializer} {type : TokenType} {g t r : WString}
    (hpos : s.jsonPos = g ++ (t ++ r)) (hg : Gap g) (ht : Lexeme type t)
    (hr : type = .number → Delimited r) (hz : 0 ∉ g ++ t) :
    s.parseToken = .ok (⟨type, some (t ++ r), t.length⟩, { s with jsonPos := t ++ r }) := by
  rw [List.mem_append, not_or] at hz
  have heat : eatWhitesspaceAndComments s.jsonPos = .ok (t ++ r) :=
    hpos ▸ eatWhitesspaceAndComments_gap hg hz.1 (stops_lexeme r ht)
  unfold parseToken
  rw [heat, ok_bind, deref_zero, ok_bind]
  cases ht with
  | null =>
    rw [show (wide ['n', 'u', 'l', 'l'] ++ r).headD 0 = 'n'.toNat from rfl, if_neg (by decide),
      if_pos rfl, keywordToken_ok _ r _ (by simp [wide])]
    rfl
  | boolTrue =>
    rw [show (wide ['t', 'r', 'u', 'e'] ++ r).headD 0 = 't'.toNat from rfl, if_neg (by decide),
      if_neg (by decide), if_pos rfl, keywordToken_ok _ r _ (by simp [wide])]
    rfl
  | boolFalse =>
    rw [show (wide ['f', 'a', 'l', 's', 'e'] ++ r).headD 0 = 'f'.toNat from rfl,
      if_neg (by decide), if_neg (by decide), if_neg (by decide), if_pos rfl,
      keywordToken_ok _ r _ (by simp [wide])]
    rfl
  | number n =>
    obtain ⟨c, q, hcq, hc, -⟩ := number_head n r
    have hhead : (n.text ++ r).headD 0 = c := by rw [hcq]; rfl
    have hswitch : c ≠ 0 ∧ c ≠ 'n'.toNat ∧ c ≠ 't'.toNat ∧ c ≠ 'f'.toNat := by
      rcases hc with rfl | hc
      · decide
      · refine ⟨?_, ?_, ?_, ?_⟩ <;> rintro rfl <;> simp [isDigit] at hc
    rw [hhead, if_neg hswitch.1, if_neg hswitch.2.1, if_neg hswitch.2.2.1, if_neg hswitch.2.2.2,
      if_pos hc.symm, parseNumberToken_ok n (hr rfl)]
    rfl
  | @string t w hchars =>
    have hzt : 0 ∉ t := fun h => hz.2 (by simp [quoted, h])
    rw [show (quoted t ++ r).headD 0 = '"'.toNat from rfl, if_neg (by decide), if_neg (by decide),
      if_neg (by decide), if_neg (by decide), if_neg (by decide), if_pos rfl]
    exact parseStringToken_ok { s with jsonPos := quoted t ++ r } hchars hzt rfl
  | @punctuator c _ hpunct =>
    -- The punctuators stand at the end of the `switch`: no case before them takes one.
    have hswitch : (c ≠ 0 ∧ c ≠ 'n'.toNat ∧ c ≠ 't'.toNat ∧ c ≠ 'f'.toNat) ∧
        ¬(isDigit c ∨ c = '-'.toNat) ∧ c ≠ '"'.toNat := by
      rcases punctuator_cases hpunct with h | h | h | h | h | h <;> obtain ⟨rfl, -⟩ := h <;> decide
    obtain ⟨⟨h0, hn, ht, hf⟩, hnum, hquote⟩ := hswitch
    rw [show ([c] ++ r).headD 0 = c from rfl, if_neg h0, if_neg hn, if_neg ht, if_neg hf,
      if_neg hnum, if_neg hquote, hpunct]
    rfl

/-- Behind the last token nothing is left. -/
theorem parseToken_end {s : JsonValueSerializer} (he : EndGap s.jsonPos) (hz : 0 ∉ s.jsonPos) :
    s.parseToken = .ok (⟨.endOfInput, none, 0⟩, { s with jsonPos := [] }) := by
  unfold parseToken
  rw [eatWhitesspaceAndComments_endGap he hz]
  rfl

end Mylib.Proofs.Base
