import Mylib.Proofs.Base.JsonEmits
import Mylib.Spec.Base.HttpWriter
import Mylib.Spec.Base.XmlWriter

/-!
# `Mylib.Proofs.Base.IntegerTexts`: integers in three formats

What the JSON, the HTTP and the XML emitter append for an integer. JSON prints all four
kinds. The other two have no case for the 8-bit and the 16-bit kind, and XML prints a
64-bit integer with the format for 32 bits. All three texts are the integer in decimal
exactly for a 32-bit integer and for a 64-bit one that fits in 32 bits
(`integersAgree_iff`).
-/

set_option autoImplicit false

namespace Mylib.Proofs.Base

open Mylib.Spec.Base
open StringUtil

/-! ### The text determines the number -/

/-- Only digits are printed. -/
theorem decimal_digit {n : Nat} {b : UInt8} (h : b ∈ decimal n) :
    48 ≤ b.toNat ∧ b.toNat ≤ 57 := by
  obtain ⟨c, hc, rfl⟩ := List.mem_map.mp h
  have hdigit := (isDigit_toDigits hc).1
  simp only [JsonValueSerializer.isDigit, Bool.and_eq_true, decide_eq_true_eq] at hdigit
  obtain ⟨hlo, hhi⟩ := hdigit
  have h48 : (48 : Nat) ≤ c.toNat := hlo
  have h57 : c.toNat ≤ (57 : Nat) := hhi
  rw [UInt8.toNat_ofNat_of_lt' (by show _ < 256; omega)]
  exact ⟨h48, h57⟩

/-- The digits of a number have its value. -/
theorem digitsValue_decimal (n : Nat) : digitsValue (decimal n) = n := by
  unfold digitsValue decimal text
  rw [List.foldl_map]
  refine Eq.trans (List.foldl_ext _ _ 0 fun m c hc => ?_) Nat.ofDigitChars_ten_toDigits
  have hdigit := (isDigit_toDigits hc).1
  simp only [JsonValueSerializer.isDigit, Bool.and_eq_true, decide_eq_true_eq] at hdigit
  have h57 : c.toNat ≤ (57 : Nat) := hdigit.2
  rw [UInt8.toNat_ofNat_of_lt' (by show _ < 256; omega)]
  rfl

/-- Different numbers have different texts. -/
theorem signedDecimal_injective : Function.Injective signedDecimal := by
  have hminus : ∀ m k : Nat, text ['-'] ++ decimal m ≠ decimal k := by
    intro m k h
    have hdigit := decimal_digit (h ▸ List.mem_cons_self : (45 : UInt8) ∈ decimal k)
    exact absurd hdigit.1 (by decide)
  have hdecimal : ∀ {m k : Nat}, decimal m = decimal k → m = k := by
    intro m k h
    rw [← digitsValue_decimal m, h, digitsValue_decimal]
  intro a b h
  unfold signedDecimal at h
  split_ifs at h with ha hb hb
  · have hab := hdecimal (List.append_cancel_left h)
    omega
  · exact absurd h (hminus _ _)
  · exact absurd h.symm (hminus _ _)
  · have hab := hdecimal h
    omega

/-- No blank stands at the front, so a width is told apart from the digits. -/
theorem signedDecimal_no_blank (n : Int) :
    (signedDecimal n).dropWhile (· = 32) = signedDecimal n := by
  -- A minus and digits are no blanks.
  have hblank : ∀ b ∈ signedDecimal n, b ≠ 32 := by
    intro b hb
    unfold signedDecimal at hb
    have hdigits : ∀ {m : Nat}, b ∈ decimal m → b ≠ 32 := by
      rintro m hm rfl
      exact absurd (decimal_digit hm).1 (by decide)
    split_ifs at hb with hneg
    · rcases List.mem_append.mp hb with hsign | hb
      · rintro rfl
        exact absurd hsign (by decide)
      · exact hdigits hb
    · exact hdigits hb
  cases htext : signedDecimal n with
  | nil => rfl
  | cons b rest =>
    rw [htext] at hblank
    exact List.dropWhile_cons_of_neg (by simpa using hblank b List.mem_cons_self)

/-- The text is, behind leading blanks, the integer in decimal. -/
def IsDecimal (n : Int) (t : Str) : Prop := t.dropWhile (· = 32) = signedDecimal n

/-- What is printed with a width is the number behind blanks. -/
theorem isDecimal_formatInt (width : Nat) (n : Int) : IsDecimal n (formatInt width n) := by
  unfold IsDecimal formatInt
  rw [List.dropWhile_append_of_pos, signedDecimal_no_blank]
  intro b hb
  rw [List.eq_of_mem_replicate hb]
  rfl

/-- Without a width exactly the number itself is printed. -/
theorem isDecimal_formatInt_iff (m n : Int) : IsDecimal n (formatInt 0 m) ↔ m = n := by
  have hm : IsDecimal m (formatInt 0 m) := isDecimal_formatInt 0 m
  constructor
  · intro hn
    exact signedDecimal_injective (hm.symm.trans hn)
  · rintro rfl
    exact hm

/-- The empty text is no number. -/
theorem not_isDecimal_nil (n : Int) : ¬IsDecimal n [] := by
  intro h
  have hne : signedDecimal n ≠ [] := by
    unfold signedDecimal decimal text
    split_ifs <;> simp
  exact hne h.symm

/-! ### The three emitters -/

section

variable {D : Type} (F : Doubles D)

/-- The number an integer value holds. -/
def integerOf : Value D → Option Int
  | .charInteger value => some value.toInt
  | .shortInteger value => some value.toInt
  | .integer value => some value.toInt
  | .bigInteger value => some value.toInt
  | _ => none

/-- Each emitter appends the integer in decimal. In XML the end tag of the parent follows
it. -/
def IntegersAgree (prettyPrint escape : Bool) (depth : Nat) (keyMap : XmlWriter.KeyMap)
    (value : Value D) (n : Int) : Prop :=
  IsDecimal n (JsonWriter.buildJSONString F prettyPrint escape depth value) ∧
  IsDecimal n (HttpWriter.buildHTTPString F escape value) ∧
  ∃ t, XmlWriter.buildXMLString F prettyPrint escape depth keyMap value =
    XmlWriter.close depth t keyMap ∧ IsDecimal n t

/-- A 32-bit integer, or a 64-bit one that fits in 32 bits. -/
def Fits32 : Value D → Prop
  | .integer _ => True
  | .bigInteger value => -2 ^ 31 ≤ value.toInt ∧ value.toInt < 2 ^ 31
  | _ => False

/-- The text before the end tag is determined. -/
theorem close_injective {depth : Nat} {keyMap : XmlWriter.KeyMap} {t t' : Str}
    (h : XmlWriter.close depth t keyMap = XmlWriter.close depth t' keyMap) : t = t' := by
  unfold XmlWriter.close at h
  split at h
  · exact List.append_cancel_right (congrArg Prod.fst h)
  · exact congrArg Prod.fst h

/-- The low word of a value is the value exactly in the range of an `int32`. -/
theorem toInt32_eq_iff (value : Int64) :
    value.toInt32.toInt = value.toInt ↔ -2 ^ 31 ≤ value.toInt ∧ value.toInt < 2 ^ 31 := by
  rw [Int64.toInt_toInt32]
  constructor
  · intro h
    rw [← h]
    exact ⟨Int.le_bmod (by decide), Int.bmod_lt (by decide)⟩
  · rintro ⟨hlo, hhi⟩
    exact Int.bmod_eq_of_le (by omega) (by omega)

/-- **The writers print an integer as decimal text exactly if** its kind is one that the writer
handles and its value survives the `%d` that the writer prints with; for every writer, kind and
value. -/
theorem integersAgree_iff (prettyPrint escape : Bool) (depth : Nat) (keyMap : XmlWriter.KeyMap)
    (value : Value D) (n : Int) (h : integerOf value = some n) :
    IntegersAgree F prettyPrint escape depth keyMap value n ↔ Fits32 value := by
  have hjson : ∀ width m, IsDecimal m (formatInt width m) := isDecimal_formatInt
  unfold IntegersAgree
  cases value with
  -- The HTTP emitter has no case for the two small kinds and writes nothing.
  | charInteger value =>
    rw [HttpWriter.buildHTTPString]
    exact ⟨fun hall => absurd hall.2.1 (not_isDecimal_nil n), False.elim⟩
  | shortInteger value =>
    rw [HttpWriter.buildHTTPString]
    exact ⟨fun hall => absurd hall.2.1 (not_isDecimal_nil n), False.elim⟩
  | integer value =>
    cases h
    rw [JsonWriter.buildJSONString, HttpWriter.buildHTTPString, XmlWriter.buildXMLString]
    exact ⟨fun _ => trivial, fun _ => ⟨hjson 0 _, hjson 0 _, _, rfl, hjson 0 _⟩⟩
  -- The XML emitter prints the low 32 bits only.
  | bigInteger value =>
    cases h
    rw [JsonWriter.buildJSONString, HttpWriter.buildHTTPString, XmlWriter.buildXMLString, Fits32,
      ← toInt32_eq_iff, ← isDecimal_formatInt_iff]
    constructor
    · rintro ⟨-, -, t, ht, hdecimal⟩
      rw [close_injective ht]
      exact hdecimal
    · intro hdecimal
      exact ⟨hjson 0 _, hjson 0 _, _, rfl, hdecimal⟩
  | _ => cases h

/-- Minus seven, in 64 bits. -/
theorem integersAgree_minusSeven :
    IntegersAgree (⟨fun _ => (), fun _ => true, fun _ => []⟩ : Doubles Unit) false false 1
      XmlWriter.KeyMap.clear (.bigInteger (-7)) (-7) :=
  (integersAgree_iff _ false false 1 _ (.bigInteger (-7)) (-7) rfl).mpr
    ⟨by decide, by decide⟩

/-- Five thousand million, in 64 bits: XML prints its low half. -/
theorem not_integersAgree_large :
    ¬IntegersAgree (⟨fun _ => (), fun _ => true, fun _ => []⟩ : Doubles Unit) false false 1
      XmlWriter.KeyMap.clear (.bigInteger 5000000000) 5000000000 := by
  rintro ⟨-, -, t, ht, hdecimal⟩
  rw [XmlWriter.buildXMLString] at ht
  rw [← close_injective ht, isDecimal_formatInt_iff] at hdecimal
  exact absurd hdecimal (by decide)

end

end Mylib.Proofs.Base
