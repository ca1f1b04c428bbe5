import Mylib.Proofs.Base.JsonTokens

/-!
# `Mylib.Proofs.Base.JsonScalars`: scalar tokens decode to what they denote

`DecodeNumber` and `DecodeString` on the tokens the scanner returns. A number is a
64-bit integer exactly when it has neither a fraction nor an exponent and fits, and
`strtoll` with the checks around it finds that out (`stringToInt64_number`).
-/

set_option autoImplicit false

namespace Mylib.Proofs.Base

open Mylib.Lib.CString
open Mylib.Spec.Base
open JsonValueSerializer JsonGrammar StringConversions StringUtil

/-! ### The bytes of a number -/

/-- A digit's code fits a byte, so narrowing loses nothing. -/
theorem toNat_of_isDigit {c : WChar} (h : JsonValueSerializer.isDigit c) :
    (UInt8.ofNat c).toNat = c := by
  have hc : c ≤ '9'.toNat := by simpa using (Bool.and_eq_true_iff.mp h).2
  have hlt : c < 256 := lt_of_le_of_lt hc (by decide)
  simpa using hlt

/-- A digit stays one when it is narrowed. -/
theorem isDigit_ofNat {c : WChar} (h : JsonValueSerializer.isDigit c) :
    StringUtil.isDigit (UInt8.ofNat c) := by
  unfold StringUtil.isDigit
  rw [toNat_of_isDigit h]
  exact h

/-- The value of digits does not depend on the width of the characters. -/
theorem digitsValue_wideToASCII {ds : WString} (h : ∀ c ∈ ds, JsonValueSerializer.isDigit c) :
    digitsValue (wideToASCII ds) = ds.foldl (fun m c => 10 * m + (c - '0'.toNat)) 0 := by
  unfold digitsValue wideToASCII
  rw [List.foldl_map]
  refine List.foldl_ext _ _ 0 fun m c hc => ?_
  rw [toNat_of_isDigit (h c hc)]
  rfl

/-- Behind the digits of a number stands nothing, a point or an `e`. -/
theorem takeWhile_number (n : Number) :
    (wideToASCII (n.whole ++ (n.frac ++ n.exp))).takeWhile StringUtil.isDigit
        = wideToASCII n.whole ∧
      (wideToASCII (n.whole ++ (n.frac ++ n.exp))).dropWhile StringUtil.isDigit
        = wideToASCII (n.frac ++ n.exp) := by
  have hpos : ∀ b ∈ wideToASCII n.whole, StringUtil.isDigit b := by
    intro b hb
    obtain ⟨c, hc, rfl⟩ := List.mem_map.mp hb
    exact isDigit_ofNat (n.whole_text.1.2 c hc)
  -- Behind the digits comes a point, an `e` or the end.
  have hrest : (wideToASCII (n.frac ++ n.exp)).takeWhile StringUtil.isDigit = [] ∧
      (wideToASCII (n.frac ++ n.exp)).dropWhile StringUtil.isDigit
        = wideToASCII (n.frac ++ n.exp) := by
    rcases n.frac_text with hf | ⟨ds, _, hf⟩
    · rcases n.exp_text with he | ⟨c, sign, ds, hc, _, _, he⟩
      · simp [hf, he, wideToASCII]
      · have hhead : c = 'e'.toNat ∨ c = 'E'.toNat := by simpa [wide] using hc
        rcases hhead with rfl | rfl <;>
          simp [hf, he, wideToASCII, StringUtil.isDigit]
    · simp [hf, wide, wideToASCII, StringUtil.isDigit]
  have happend : wideToASCII (n.whole ++ (n.frac ++ n.exp))
      = wideToASCII n.whole ++ wideToASCII (n.frac ++ n.exp) := List.map_append
  rw [happend, List.takeWhile_append_of_pos hpos, List.dropWhile_append_of_pos hpos, hrest.1,
    hrest.2, List.append_nil]
  exact ⟨rfl, rfl⟩

/-- The first byte of a number is its sign or a digit, so no blank is skipped. -/
theorem number_bytes (n : Number) :
    ∃ b bs, wideToASCII n.text = b :: bs ∧ isSpace b = false ∧
      readSign (b :: bs) = (n.negative, wideToASCII (n.whole ++ (n.frac ++ n.exp))) := by
  obtain ⟨d, ds, hds⟩ := List.exists_cons_of_ne_nil n.whole_text.1.1
  have hd : JsonValueSerializer.isDigit d :=
    n.whole_text.1.2 d (by rw [hds]; exact List.mem_cons_self)
  cases hneg : n.negative with
  -- A minus in front of the digits.
  | true =>
    refine ⟨45, wideToASCII (n.whole ++ (n.frac ++ n.exp)), ?_, rfl, rfl⟩
    simp [Number.text, Number.sign, hneg, wide, wideToASCII]
  | false =>
    -- The first digit is neither a blank nor a sign.
    have hlo : 48 ≤ d := by simpa using (Bool.and_eq_true_iff.mp hd).1
    have hhi : d ≤ 57 := by simpa using (Bool.and_eq_true_iff.mp hd).2
    refine ⟨UInt8.ofNat d, wideToASCII (ds ++ (n.frac ++ n.exp)), ?_, ?_, ?_⟩
    · simp [Number.text, Number.sign, hneg, hds, wideToASCII]
    · unfold isSpace
      rw [toNat_of_isDigit hd]
      simp only [Bool.or_eq_false_iff, beq_eq_false_iff_ne, Bool.and_eq_false_iff,
        decide_eq_false_iff_not]
      constructor
      · rintro rfl
        simp at hlo
      · right
        exact not_le.mpr (lt_of_lt_of_le (by decide) hlo)
    · have hminus : d ≠ 45 := by
        rintro rfl
        simp at hlo
      have hplus : d ≠ 43 := by
        rintro rfl
        simp at hlo
      show (if (UInt8.ofNat d).toNat = 45 then _ else if (UInt8.ofNat d).toNat = 43 then _ else _)
        = _
      rw [toNat_of_isDigit hd, if_neg hminus, if_neg hplus, hds]
      rfl

/-- The number parser agrees with the grammar on its numbers. -/
theorem stringToInt64_number (n : Number) : stringToInt64 (wideToASCII n.text) = n.int64 := by
  obtain ⟨b, bs, htext, hspace, hsign⟩ := number_bytes n
  obtain ⟨htake, hdrop⟩ := takeWhile_number n
  have hvalid : validFunc (b :: bs) = true := by simp [validFunc, hspace]
  have hwhole : wideToASCII n.whole ≠ [] := by
    simpa [wideToASCII] using n.whole_text.1.1
  have hrest : (wideToASCII (n.frac ++ n.exp)).isEmpty = true ↔ n.frac = [] ∧ n.exp = [] := by
    simp [wideToASCII]
  have hvalue : (if n.negative = true then -(digitsValue (wideToASCII n.whole) : Int)
      else digitsValue (wideToASCII n.whole)) = n.wholeValue := by
    unfold Number.wholeValue
    rw [digitsValue_wideToASCII n.whole_text.1.2]
  unfold stringToInt64 strtoll Number.int64
  rw [htext, List.dropWhile_cons, hspace]
  simp only [Bool.false_eq_true, if_false, hsign, htake, hdrop, hvalue, hvalid, hwhole]
  -- `strtoll` saturates at both ends and sets `errno`, which `StringToInt64` looks at.
  by_cases hlo : n.wholeValue < -2 ^ 63
  · have hout : ¬(n.frac = [] ∧ n.exp = [] ∧ -2 ^ 63 ≤ n.wholeValue ∧ n.wholeValue < 2 ^ 63) :=
      fun h => Int.not_le.mpr hlo h.2.2.1
    rw [if_pos hlo, if_neg hout]
    simp
  by_cases hhi : 2 ^ 63 ≤ n.wholeValue
  · have hout : ¬(n.frac = [] ∧ n.exp = [] ∧ -2 ^ 63 ≤ n.wholeValue ∧ n.wholeValue < 2 ^ 63) :=
      fun h => Int.not_lt.mpr hhi h.2.2.2
    rw [if_neg hlo, if_pos hhi, if_neg hout]
    simp
  · rw [if_neg hlo, if_neg hhi]
    simp only [Bool.not_false, Bool.true_and, Bool.and_true, List.isEmpty_cons, hrest]
    by_cases hint : n.frac = [] ∧ n.exp = []
    · rw [if_pos hint, if_pos ⟨hint.1, hint.2, Int.not_lt.mp hlo, Int.not_le.mp hhi⟩]
    · rw [if_neg hint, if_neg fun h => hint ⟨h.1, h.2.1⟩]

/-! ### The two decoders -/

section

variable {D : Type} (F : Doubles D)

/-- A number token is decoded to what its number denotes. -/
theorem decodeNumber_number (n : Number) (r : WString) :
    decodeNumber F ⟨.number, some (n.text ++ r), n.text.length⟩ = .ok (n.denote F) := by
  obtain ⟨b, bs, htext, -⟩ := number_bytes n
  unfold decodeNumber Number.denote
  show (copy (n.text ++ r) n.text.length >>= _) = _
  rw [copy_append_length]
  simp only [ok_bind, stringToInt64_number]
  cases n.int64 with
  | some i => rfl
  | none =>
    have hdouble : stringToDouble F (wideToASCII n.text) = some (F.atof (wideToASCII n.text)) := by
      rw [htext]
      rfl
    simp only [hdouble]
    rfl

/-- A string token is decoded to what its characters denote. -/
theorem decodeString_quoted {t w : WString} (r : WString) (h : Chars t w) :
    decodeString (D := D) ⟨.string, some (quoted t ++ r), (quoted t).length⟩
      = .ok (some (Value.createStringValue w)) := by
  have hdecode := decodeChars_ok ['"'.toNat] r [] h
  have hpos : quoted t ++ r = ['"'.toNat] ++ (t ++ '"'.toNat :: r) := by simp [quoted]
  have hlen : (quoted t).length = ['"'.toNat].length + t.length + 1 := by simp [quoted]; omega
  unfold decodeString
  rw [hpos, hlen]
  show (decodeChars (['"'.toNat] ++ (t ++ '"'.toNat :: r)) _ ['"'.toNat].length [] >>= _) = _
  rw [hdecode]
  rfl

end

end Mylib.Proofs.Base
