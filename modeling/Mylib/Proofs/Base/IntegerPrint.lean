import Mylib.Proofs.Base.NumberStrings

/-!
# `Mylib.Proofs.Base.IntegerPrint`: integers printed and read back

`IntToString` fills its buffer from the end. What it has written is always the end of the
numeral of the whole number (`intToStringLoop_eq`), so the number of bytes it needs is the
length of the numeral. A magnitude of 64 bits has at most 20 digits, and the buffer holds 25
bytes.

Digits of one length have different values, and a number below `10 ^ k` needs no more than `k`
of them, so `decimal` is the shortest run of digits for its value (`decimal_shortest`).
-/

set_option autoImplicit false

namespace Mylib.Proofs.Base

open Mylib.Spec.Base
open StringUtil

/-! ### Decimal digits -/

/-- The last digit is the remainder by ten. -/
theorem decimal_eq (n : Nat) : decimal n
    = (if n < 10 then [] else decimal (n / 10)) ++ [UInt8.ofNat (n % 10 + 48)] := by
  have hchar : ∀ d < 10, text [Nat.digitChar d] = [UInt8.ofNat (d + 48)] := by decide
  have happend : ∀ cs d, d < 10 →
      text (cs ++ [Nat.digitChar d]) = text cs ++ [UInt8.ofNat (d + 48)] := by
    intro cs d hd
    rw [← hchar d hd]
    exact List.map_append
  rw [decimal, Nat.toDigits_eq_if (by decide)]
  split_ifs with hlt
  · rw [Nat.mod_eq_of_lt hlt]
    exact hchar n hlt
  · exact happend _ _ (Nat.mod_lt n (by decide))

/-- The digits of a number are as many as the powers of ten say. The buffer bound of the printer
comes from this. -/
theorem length_decimal_le_iff {n k : Nat} (hk : 0 < k) : (decimal n).length ≤ k ↔ n < 10 ^ k := by
  rw [decimal, text, List.length_map]
  exact Nat.length_toDigits_le_iff (by decide) hk

/-- A printed number has digits only. -/
theorem isDigits_decimal (n : Nat) : IsDigits (decimal n) := by
  refine ⟨?_, fun d hd => ?_⟩
  · rw [decimal, text]
    simp
  · obtain ⟨hlo, hhi⟩ := decimal_digit hd
    rw [isDigit, decide_eq_true hlo, decide_eq_true hhi]
    rfl

/-- The last digit counts once, what stands before it ten times. -/
theorem digitsValue_append (ds : Str) (d : UInt8) :
    digitsValue (ds ++ [d]) = 10 * digitsValue ds + (d.toNat - 48) := by
  rw [digitsValue, List.foldl_append]
  rfl

/-- The codes of the digits. -/
theorem toNat_of_digit {d : UInt8} (h : isDigit d) : 48 ≤ d.toNat ∧ d.toNat ≤ 57 := by
  simpa only [isDigit, Bool.and_eq_true, decide_eq_true_eq] using h

/-- A number is below the power of ten that its digits give, so a shorter numeral is a smaller
number. -/
theorem digitsValue_lt {ds : Str} (h : ∀ d ∈ ds, isDigit d) : digitsValue ds < 10 ^ ds.length := by
  induction ds using List.reverseRecOn with
  | nil => exact Nat.one_pos
  | append_singleton ds d ih =>
    have hlt := ih fun e he => h e (List.mem_append_left _ he)
    have hd := toNat_of_digit (h d (by simp))
    rw [digitsValue_append, List.length_append, List.length_singleton, pow_succ]
    omega

/-- The digits are determined by their number and their value. -/
theorem digits_ext {ds es : Str} (hds : ∀ d ∈ ds, isDigit d) (hes : ∀ e ∈ es, isDigit e)
    (hlength : ds.length = es.length) (hvalue : digitsValue ds = digitsValue es) : ds = es := by
  induction ds using List.reverseRecOn generalizing es with
  | nil => exact (List.length_eq_zero_iff.mp hlength.symm).symm
  | append_singleton ds d ih =>
    rcases List.eq_nil_or_concat es with rfl | ⟨es, e, rfl⟩
    · simp at hlength
    rw [List.concat_eq_append] at *
    have hd := toNat_of_digit (hds d (by simp))
    have he := toNat_of_digit (hes e (by simp))
    rw [digitsValue_append, digitsValue_append] at hvalue
    simp only [List.length_append, List.length_singleton, Nat.add_right_cancel_iff] at hlength
    -- Both values have the same remainder by ten, which is the last digit.
    have hlast : d = e := UInt8.toNat_inj.mp (by omega)
    rw [hlast, ih (fun x hx => hds x (List.mem_append_left _ hx))
      (fun x hx => hes x (List.mem_append_left _ hx)) hlength (by omega)]

/-- No other digits with the same value are as few. -/
theorem decimal_shortest {ds : Str} (h : IsDigits ds) (hne : ds ≠ decimal (digitsValue ds)) :
    (decimal (digitsValue ds)).length < ds.length := by
  have hpos : 0 < ds.length := List.length_pos_iff.mpr h.1
  have hle := (length_decimal_le_iff hpos).mpr (digitsValue_lt h.2)
  refine lt_of_le_of_ne hle fun hlength => hne ?_
  exact digits_ext h.2 (isDigits_decimal _).2 hlength.symm (digitsValue_decimal _).symm

/-! ### The numeral of an integer -/

/-- The printed text is a numeral of the value. -/
theorem numeral_signedDecimal (v : Int) : Numeral (signedDecimal v) v := by
  have hvalue := digitsValue_decimal v.natAbs
  have hdigits := isDigits_decimal v.natAbs
  unfold signedDecimal
  split_ifs with hneg
  · have hnumeral := Numeral.minus hdigits
    rw [hvalue] at hnumeral
    rwa [show -(v.natAbs : Int) = v by omega] at hnumeral
  · have hnumeral := Numeral.plain hdigits
    rw [hvalue] at hnumeral
    rwa [show (v.natAbs : Int) = v by omega] at hnumeral

/-- Every other numeral of the integer is longer. -/
theorem signedDecimal_shortest {t : Str} {v : Int} (h : Numeral t v) (hne : t ≠ signedDecimal v) :
    (signedDecimal v).length < t.length := by
  have hle : ∀ {ds : Str}, IsDigits ds → (decimal (digitsValue ds)).length ≤ ds.length := by
    intro ds hds
    by_cases heq : ds = decimal (digitsValue ds)
    · exact (congrArg List.length heq).ge
    · exact (decimal_shortest hds heq).le
  unfold signedDecimal at hne ⊢
  cases h with
  | plain hds =>
    rw [if_neg (by omega), Int.natAbs_natCast] at hne ⊢
    exact decimal_shortest hds hne
  | plus hds =>
    rw [if_neg (by omega), Int.natAbs_natCast]
    exact Nat.lt_succ_of_le (hle hds)
  | @minus ds hds =>
    rw [Int.natAbs_neg, Int.natAbs_natCast] at hne ⊢
    -- `-0` is a numeral, too, but zero is printed without the sign.
    split_ifs at hne ⊢ with hneg
    · have hdigits : ds ≠ decimal (digitsValue ds) := fun heq => hne (congrArg (45 :: ·) heq)
      exact Nat.succ_lt_succ (decimal_shortest hds hdigits)
    · exact Nat.lt_succ_of_le (hle hds)

/-! ### The loop -/

/-- The sign in front of the digits. -/
def signOf (isNeg : Bool) : Str := if isNeg then [45] else []

/-- The byte that a round of the loop writes. -/
theorem lowDigit_eq (res : UInt64) : lowDigit res = UInt8.ofNat (res.toNat % 10 + 48) := by
  rw [lowDigit, UInt64.toNat_mod]
  rfl

/-- The loop goes on with a tenth of the value; nothing wraps. -/
theorem toNat_div_ten (res : UInt64) : (res / 10).toNat = res.toNat / 10 := UInt64.toNat_div ..

/-- The loop ends with the first digit. -/
theorem div_ten_eq_zero_iff (res : UInt64) : res / 10 = 0 ↔ res.toNat < 10 := by
  rw [← UInt64.toNat_inj, toNat_div_ten]
  exact Nat.div_eq_zero_iff_lt (by decide)

/-- A character that is stored stands in front of what has been written. -/
theorem drop_set_self {outbuf : Str} {it : Nat} (h : it < outbuf.length) (c : UInt8) :
    (outbuf.set it c).drop it = c :: outbuf.drop (it + 1) := by
  rw [List.drop_eq_getElem_cons (by rwa [List.length_set]), List.getElem_set_self,
    List.drop_set_of_lt (Nat.lt_succ_self it)]

/-- The loop writes the numeral in front of what is there, if it has room for it. -/
theorem intToStringLoop_eq (isNeg : Bool) (it : Nat) (res : UInt64) (outbuf : Str)
    (hit : it ≤ outbuf.length)
    (hroom : (signOf isNeg).length + (decimal res.toNat).length ≤ it) :
    intToStringLoop isNeg res outbuf it
      = some (signOf isNeg ++ decimal res.toNat ++ outbuf.drop it) := by
  induction it generalizing res outbuf with
  | zero =>
    -- Without any room there is none for the first digit.
    have hne := List.length_pos_iff.mpr (isDigits_decimal res.toNat).1
    omega
  | succ it ih =>
    have hdecimal := decimal_eq res.toNat
    rw [← lowDigit_eq] at hdecimal
    rw [hdecimal, List.length_append, List.length_singleton] at hroom
    rw [intToStringLoop.eq_def, hdecimal]
    dsimp only
    by_cases hlast : res.toNat < 10
    · rw [if_pos hlast] at hroom ⊢
      rw [if_pos ((div_ten_eq_zero_iff res).mpr hlast), List.nil_append]
      cases isNeg with
      | false =>
        rw [if_neg Bool.false_ne_true, drop_set_self hit]
        rfl
      | true =>
        -- The sign takes one more place.
        obtain ⟨k, rfl⟩ : ∃ k, it = k + 1 := ⟨it - 1, by
          simp only [signOf, if_true, List.length_singleton, List.length_nil] at hroom
          omega⟩
        rw [if_pos rfl]
        show some (((outbuf.set (k + 1) (lowDigit res)).set k 45).drop k) = _
        rw [drop_set_self (by rw [List.length_set]; omega), drop_set_self hit]
        rfl
    · -- The digit is stored, and the others are written in front of it.
      rw [if_neg hlast] at hroom ⊢
      rw [if_neg ((div_ten_eq_zero_iff res).not.mpr hlast),
        ih _ _ (by rw [List.length_set]; omega) (by rw [toNat_div_ten]; omega), toNat_div_ten,
        drop_set_self hit]
      simp

/-! ### `Int64ToString` -/

/-- The magnitude, of the most negative value, too. -/
theorem toNat_toUnsigned (v : Int64) : (toUnsigned v).toNat = v.toInt.natAbs := by
  have hunsigned : ∀ x : Int64, (x.toUInt64.toNat : Int) = x.toInt % 2 ^ 64 := by
    intro x
    show (x.toBitVec.toNat : Int) = x.toBitVec.toInt % 2 ^ 64
    have hlt := x.toBitVec.isLt
    rw [BitVec.toInt_eq_toNat_cond]
    split_ifs <;> omega
  have hlo := v.le_toInt
  have hhi := v.toInt_lt
  unfold toUnsigned
  split_ifs with hneg
  · have hv : v.toInt < 0 := Int64.lt_iff_toInt_lt.mp hneg
    -- The most negative value is its own negation, and its bits are its magnitude.
    have hneg := hunsigned (-v)
    rw [Int64.toInt_neg, Int.bmod_def] at hneg
    split_ifs at hneg <;> omega
  · have hv : ¬v.toInt < 0 := fun hlt => hneg (Int64.lt_iff_toInt_lt.mpr hlt)
    have hpos := hunsigned v
    omega

/-- The buffer has room for every value. -/
theorem int64ToString_eq (v : Int64) : int64ToString v = some (signedDecimal v.toInt) := by
  have hlt : v.toInt.natAbs < 10 ^ 20 := by
    have hlo := v.le_toInt
    have hhi := v.toInt_lt
    omega
  have hdigits := (length_decimal_le_iff (by decide)).mpr hlt
  have hsign : (signOf (v < 0)).length ≤ 1 := by
    unfold signOf
    split_ifs <;> simp
  unfold int64ToString
  rw [intToStringLoop_eq _ _ _ _ (by simp) (by rw [toNat_toUnsigned, kOutputBufSize]; omega),
    toNat_toUnsigned, List.drop_of_length_le (by simp), List.append_nil]
  have hneg : v < 0 ↔ v.toInt < 0 := Int64.lt_iff_toInt_lt
  unfold signedDecimal signOf
  simp only [decide_eq_true_eq, hneg]
  split_ifs <;> rfl

/-- What is promised of printing and reading back. -/
structure PrintsAndParses (v : Int64) : Prop where
  inside : int64ToString v ≠ none
  numeral : ∀ out, int64ToString v = some out → Numeral out v.toInt
  shortest : ∀ out, int64ToString v = some out →
    ∀ t, Numeral t v.toInt → t ≠ out → out.length < t.length
  parses : ∀ out, int64ToString v = some out → stringToInt64 out = some v

/-- **Every `int64` is printed and parsed back**: the digits fit the buffer, the text is the
shortest numeral of the value, and parsing it gives the value. -/
theorem printsAndParses (v : Int64) : PrintsAndParses v := by
  have hnumeral := numeral_signedDecimal v.toInt
  have hfits : Fits 64 v.toInt := ⟨v.le_toInt, v.toInt_lt⟩
  -- The printer gives one text only, the decimal one.
  have hout : ∀ out, int64ToString v = some out → out = signedDecimal v.toInt := by
    intro out h
    rw [int64ToString_eq] at h
    exact (Option.some.inj h).symm
  refine ⟨by rw [int64ToString_eq]; simp, ?_, ?_, ?_⟩
  · intro out h
    exact hout out h ▸ hnumeral
  · intro out h t ht hne
    rw [hout out h] at hne ⊢
    exact signedDecimal_shortest ht hne
  -- The text is a numeral of the value, and the value fits, so the parser stores it.
  · intro out h
    rw [hout out h, stringToInt64_eq]
    have haccepts := (stringToNumber_accepts 64 _).mpr ⟨_, hnumeral, hfits⟩
    have hstores := stringToNumber_stores 64 hnumeral hfits
    rw [(fits_iff_narrow (by decide) _).mp hfits] at hstores
    rw [stringToInt64Output, if_pos haccepts, hstores, Int64.ofInt_toInt]

end Mylib.Proofs.Base
