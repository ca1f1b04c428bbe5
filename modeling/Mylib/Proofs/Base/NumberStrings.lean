import Mylib.Proofs.Base.IntegerTexts
import Mylib.Spec.Base.NumberStrings

/-!
# `Mylib.Proofs.Base.NumberStrings`: which strings are numbers

`Numeral` is the grammar: digits behind an optional sign. `strtol` reads such a string to its
end (`strtoll_numeral`), and no other string that starts without a blank
(`numeral_of_strtoll`).

`errno` tells whether the value fits in 64 bits, for all four targets. So the narrow parsers
take every numeral of 64 bits and cut it, and `parsesExactly_iff` says that this is right if
and only if the target holds the value.
-/

set_option autoImplicit false

namespace Mylib.Proofs.Base

open Mylib.Spec.Base
open StringUtil

/-! ### Numerals -/

/-- A run of decimal digits. -/
def IsDigits (ds : Str) : Prop := ds ≠ [] ∧ ∀ d ∈ ds, isDigit d

/-- An optionally signed decimal numeral, with its value. -/
inductive Numeral : Str → Int → Prop where
  | plain {ds : Str} : IsDigits ds → Numeral ds (digitsValue ds)
  | plus {ds : Str} : IsDigits ds → Numeral (43 :: ds) (digitsValue ds)
  | minus {ds : Str} : IsDigits ds → Numeral (45 :: ds) (-(digitsValue ds : Int))

/-- `value` fits in a signed target of so many bits. -/
def Fits (bits : Nat) (value : Int) : Prop := -2 ^ (bits - 1) ≤ value ∧ value < 2 ^ (bits - 1)

/-- The four parsers. -/
inductive IntParser where
  | charInt
  | shortInt
  | int
  | int64

namespace IntParser

def bits : IntParser → Nat
  | charInt => 8
  | shortInt => 16
  | int => 32
  | int64 => 64

def run : IntParser → Str → Bool × Int
  | charInt => stringToCharInt
  | shortInt => stringToShortInt
  | int => stringToInt
  | int64 => stringToInt64Output

/-- The four parsers are one function, at their numbers of bits. -/
theorem run_eq (parser : IntParser) (input : Str) :
    parser.run input = stringToNumber parser.bits input := by
  cases parser <;> rfl

end IntParser

/-- What is promised of a parser on a string. -/
structure ParsesExactly (parser : IntParser) (input : Str) : Prop where
  accepts : (parser.run input).1 = true ↔ ∃ v, Numeral input v ∧ Fits parser.bits v
  stores : (parser.run input).1 = true → ∀ v, Numeral input v → (parser.run input).2 = v

/-! ### `strtol` -/

/-- A digit is neither a blank nor a sign. -/
theorem not_space_of_digit {d : UInt8} (h : isDigit d) :
    isSpace d = false ∧ d.toNat ≠ 45 ∧ d.toNat ≠ 43 := by
  simp only [isDigit, Bool.and_eq_true, decide_eq_true_eq] at h
  refine ⟨?_, by omega, by omega⟩
  simp only [isSpace, Bool.or_eq_false_iff, beq_eq_false_iff_ne, Bool.and_eq_false_iff,
    decide_eq_false_iff_not]
  omega

/-- The sign and the digits of a numeral, and its value. -/
theorem Numeral.readSign {t : Str} {v : Int} (h : Numeral t v) :
    ∃ neg ds, IsDigits ds ∧ t.dropWhile isSpace = t ∧ readSign t = (neg, ds) ∧
      v = if neg then -(digitsValue ds : Int) else digitsValue ds := by
  cases h with
  | plain hds =>
    obtain ⟨d, ds, rfl⟩ := List.exists_cons_of_ne_nil hds.1
    obtain ⟨hspace, hminus, hplus⟩ := not_space_of_digit (hds.2 d List.mem_cons_self)
    refine ⟨false, d :: ds, hds, List.dropWhile_cons_of_neg (by simp [hspace]), ?_, rfl⟩
    rw [StringUtil.readSign, if_neg hminus, if_neg hplus]
  | plus hds => exact ⟨false, _, hds, List.dropWhile_cons_of_neg (by decide), rfl, rfl⟩
  | minus hds => exact ⟨true, _, hds, List.dropWhile_cons_of_neg (by decide), rfl, rfl⟩

/-- A numeral is read to its end, and a value out of range is reported. -/
theorem strtoll_numeral {t : Str} {v : Int} (h : Numeral t v) :
    (strtoll t).endptr = [] ∧ ((strtoll t).erange = false ↔ Fits 64 v) ∧
      (Fits 64 v → (strtoll t).value.toInt = v) := by
  obtain ⟨neg, ds, hds, hblank, hsign, hv⟩ := h.readSign
  have htake : ds.takeWhile isDigit = ds := List.takeWhile_eq_self_iff.mpr hds.2
  have hdrop : ds.dropWhile isDigit = [] := List.dropWhile_eq_nil_iff.mpr hds.2
  unfold strtoll
  rw [hblank, hsign]
  simp only [htake, hdrop, ← hv]
  rw [if_neg hds.1]
  unfold Fits
  -- Out of range, `errno` is set; both ends are included in the range.
  by_cases hlo : v < -2 ^ 63
  · rw [if_pos hlo]
    exact ⟨rfl, by simp; omega, fun hfits => absurd hfits.1 (by omega)⟩
  by_cases hhi : 2 ^ 63 ≤ v
  · rw [if_neg hlo, if_pos hhi]
    exact ⟨rfl, by simp; omega, fun hfits => absurd hfits.2 (by omega)⟩
  · rw [if_neg hlo, if_neg hhi]
    refine ⟨rfl, by simp; omega, fun _ => Int64.toInt_ofInt_of_le (by omega) (by omega)⟩

/-- Where a string is read to its end, something was read, and nothing is left behind the
digits. -/
theorem isDigits_of_strtoll {t : Str} (hne : t ≠ []) (hblank : t.dropWhile isSpace = t)
    (hend : (strtoll t).endptr = []) : IsDigits (readSign t).2 := by
  unfold strtoll at hend
  rw [hblank] at hend
  dsimp only at hend
  by_cases hnil : (readSign t).2.takeWhile isDigit = []
  · -- Without a digit, `endptr` is the string.
    rw [if_pos hnil] at hend
    exact absurd hend hne
  · rw [if_neg hnil] at hend
    have hdrop : (readSign t).2.dropWhile isDigit = [] := by
      split_ifs at hend <;> exact hend
    refine ⟨fun hempty => ?_, List.dropWhile_eq_nil_iff.mp hdrop⟩
    rw [hempty] at hnil
    exact hnil rfl

/-- A string without blanks in front that is read to its end is a numeral. -/
theorem numeral_of_strtoll {t : Str} (hvalid : validFunc t = true)
    (hend : (strtoll t).endptr = []) : ∃ v, Numeral t v := by
  cases t with
  | nil => cases hvalid
  | cons b s =>
    have hspace : isSpace b = false := by simpa [validFunc] using hvalid
    have hread := isDigits_of_strtoll (List.cons_ne_nil b s)
      (List.dropWhile_cons_of_neg (by simp [hspace])) hend
    -- The cases of the sign are the kinds of numerals.
    unfold readSign at hread
    dsimp only at hread
    split_ifs at hread with hminus hplus
    · obtain rfl : b = 45 := UInt8.toNat_inj.mp hminus
      exact ⟨_, .minus hread⟩
    · obtain rfl : b = 43 := UInt8.toNat_inj.mp hplus
      exact ⟨_, .plus hread⟩
    · exact ⟨_, .plain hread⟩

/-- A numeral passes the first check: it is not empty and has no blank in front. -/
theorem Numeral.validFunc {t : Str} {v : Int} (h : Numeral t v) :
    validFunc t = true ∧ t ≠ [] := by
  cases h with
  | plain hds =>
    obtain ⟨d, ds, rfl⟩ := List.exists_cons_of_ne_nil hds.1
    have hspace := (not_space_of_digit (hds.2 d List.mem_cons_self)).1
    exact ⟨by simp [StringUtil.validFunc, hspace], List.cons_ne_nil _ _⟩
  | plus _ => exact ⟨rfl, List.cons_ne_nil _ _⟩
  | minus _ => exact ⟨rfl, List.cons_ne_nil _ _⟩

/-! ### `StringToNumber` -/

/-- Whatever the target is, the numerals of 64 bits are accepted. -/
theorem stringToNumber_accepts (bits : Nat) (input : Str) :
    (stringToNumber bits input).1 = true ↔ ∃ v, Numeral input v ∧ Fits 64 v := by
  unfold stringToNumber
  simp only [Bool.and_eq_true, Bool.not_eq_true', List.isEmpty_eq_false_iff, List.isEmpty_iff]
  constructor
  · rintro ⟨⟨⟨herange, -⟩, hend⟩, hvalid⟩
    obtain ⟨v, hv⟩ := numeral_of_strtoll hvalid hend
    exact ⟨v, hv, (strtoll_numeral hv).2.1.mp herange⟩
  · rintro ⟨v, hv, hfits⟩
    obtain ⟨hend, herange, -⟩ := strtoll_numeral hv
    exact ⟨⟨⟨herange.mpr hfits, hv.validFunc.2⟩, hend⟩, hv.validFunc.1⟩

/-- What is stored is the value, cut to the target. -/
theorem stringToNumber_stores (bits : Nat) {input : Str} {v : Int} (h : Numeral input v)
    (hfits : Fits 64 v) : (stringToNumber bits input).2 = narrow bits v := by
  rw [stringToNumber, (strtoll_numeral h).2.2 hfits]

/-- The widest parser returns its output unless it reports a failure. -/
theorem stringToInt64_eq (input : Str) : stringToInt64 input
    = if (stringToInt64Output input).1 then some (Int64.ofInt (stringToInt64Output input).2)
      else none := by
  have hvalue : Int64.ofInt (narrow 64 (strtoll input).value.toInt) = (strtoll input).value := by
    have hlo := (strtoll input).value.le_toInt
    have hhi := (strtoll input).value.toInt_lt
    rw [narrow, Int.bmod_eq_of_le (by omega) (by omega), Int64.ofInt_toInt]
  unfold stringToInt64 stringToInt64Output stringToNumber
  dsimp only
  rw [hvalue]

/-! ### Cutting to the target -/

/-- All four number types have between 1 and 64 bits. -/
theorem IntParser.bits_pos (parser : IntParser) : 1 ≤ parser.bits ∧ parser.bits ≤ 64 := by
  cases parser <;> decide

/-- A value fits exactly if nothing of it is cut. -/
theorem fits_iff_narrow {bits : Nat} (h : 1 ≤ bits) (v : Int) :
    Fits bits v ↔ narrow bits v = v := by
  obtain ⟨k, rfl⟩ : ∃ k, bits = k + 1 := ⟨bits - 1, by omega⟩
  have hpow : (2 : Int) ^ (k + 1) = 2 * 2 ^ k := by ring
  have hnat : ((2 ^ (k + 1) : Nat) : Int) = 2 * 2 ^ k := by push_cast; exact hpow
  unfold Fits narrow
  rw [Nat.add_sub_cancel]
  constructor
  · intro hfits
    exact Int.bmod_eq_of_le (by omega) (by omega)
  · intro hbmod
    have hlo := Int.le_bmod (x := v) (m := 2 ^ (k + 1)) (by positivity)
    have hhi := Int.bmod_lt (x := v) (m := 2 ^ (k + 1)) (by positivity)
    omega

/-- What fits some bits fits 64. -/
theorem Fits.mono {bits : Nat} {v : Int} (h : Fits bits v) (hle : bits ≤ 64) : Fits 64 v := by
  have hpow : (2 : Int) ^ (bits - 1) ≤ 2 ^ (64 - 1) := pow_le_pow_right₀ (by decide) (by omega)
  unfold Fits at h ⊢
  omega

/-- The promise is kept on a string exactly if the value of a numeral that fits in 64 bits
fits in the target, too. -/
theorem parsesExactly_iff (parser : IntParser) (input : Str) :
    ParsesExactly parser input ↔ ∀ v, Numeral input v → Fits 64 v → Fits parser.bits v := by
  obtain ⟨hpos, hle⟩ := parser.bits_pos
  constructor
  · intro h v hv hfits
    have haccepts : (parser.run input).1 = true := by
      rw [parser.run_eq]
      exact (stringToNumber_accepts _ _).mpr ⟨v, hv, hfits⟩
    have hstores := h.stores haccepts v hv
    rw [parser.run_eq, stringToNumber_stores _ hv hfits] at hstores
    exact (fits_iff_narrow hpos v).mpr hstores
  · intro h
    refine ⟨?_, ?_⟩
    · rw [parser.run_eq, stringToNumber_accepts]
      constructor
      · rintro ⟨v, hv, hfits⟩
        exact ⟨v, hv, h v hv hfits⟩
      · rintro ⟨v, hv, hfits⟩
        exact ⟨v, hv, hfits.mono hle⟩
    · intro haccepts v hv
      rw [parser.run_eq] at haccepts ⊢
      -- Only a numeral of 64 bits is accepted, so the condition speaks about it.
      have herange : (strtoll input).erange = false := by
        unfold stringToNumber at haccepts
        simp only [Bool.and_eq_true, Bool.not_eq_true'] at haccepts
        exact haccepts.1.1.1
      have hfits := (strtoll_numeral hv).2.1.mp herange
      rw [stringToNumber_stores _ hv hfits]
      exact (fits_iff_narrow hpos v).mp (h v hv hfits)

/-- `StringToCharInt` takes `300`, and stores 44. -/
theorem not_parsesExactly_char : ¬∀ parser input, ParsesExactly parser input := by
  intro hall
  have hvalue : digitsValue (text ['3', '0', '0']) = 300 := by decide
  have hdigits : IsDigits (text ['3', '0', '0']) := ⟨by decide, by simp [text, isDigit]⟩
  have hnumeral : Numeral (text ['3', '0', '0']) (300 : Nat) := hvalue ▸ .plain hdigits
  have hfits : Fits 64 300 := ⟨by decide, by decide⟩
  have haccepts := (stringToNumber_accepts 8 _).mpr ⟨300, hnumeral, hfits⟩
  have hstores := (hall .charInt _).stores haccepts 300 hnumeral
  rw [IntParser.run_eq, stringToNumber_stores _ hnumeral hfits] at hstores
  exact absurd hstores (by decide)

end Mylib.Proofs.Base
