import Mylib.Proofs.Base.Utf8Reader

/-!
# `Mylib.Proofs.Base.Utf8Check`: what `IsStringUTF8` decides

`Decides` says what is promised: the answer is `true` exactly for well-formed UTF-8 all of whose
characters are valid. The test in the loop lacks its negation. The loop leaves with `false` at
the first valid character (`scanUTF8_false_iff`) and returns `true` when it has met none.

So the answer is right for a string that is in order only if the loop meets none of its
characters, which below `2 ^ 31` bytes is the empty string alone, and for any other string only
if a valid character occurs in it (`decides_iff`).
-/

set_option autoImplicit false

namespace Mylib.Proofs.Base.Utf8

open Mylib.Spec.Base
open StringConversions hiding converUnicode utf8ToWide
open Utf8Reader

/-! ### The promise -/

/-- Well-formed UTF-8, and `IsValidCharacter` holds of all its code points. -/
def AllValid (s : Str) : Prop := ∃ cs, s = utf8 cs ∧ ∀ c ∈ cs, isValidCharacter c.toNat = true

def Decides (s : Str) : Prop := ∃ r, isStringUTF8 s = .ok r ∧ (r = true ↔ AllValid s)

/-! ### The loop -/

section

variable {s : Str} {len i p : Nat}

/-- A valid character starts at `p` and ends within the first `len` bytes. -/
def ValidAt (s : Str) (len p : Nat) : Prop :=
  ∃ c, CharAt s p c ∧ behind p c ≤ len ∧ isValidCharacter c.toNat = true

/-- The code's valid characters are code points. -/
theorem isValidCodepoint_of_valid {v : Nat} (h : isValidCharacter v = true) :
    isValidCodepoint v = true := by
  simp only [isValidCharacter, isValidCodepoint, Bool.or_eq_true, Bool.and_eq_true,
    decide_eq_true_eq] at h ⊢
  omega

/-- The test in the loop. -/
theorem valid_iff (hlen : len ≤ s.length) (hi : i < len) {r : Option Nat × Nat}
    (hr : cbu8Next s i len = .ok r) :
    isValidCharacter (r.1.getD 0xFFFFFFFF) = true ↔ ValidAt s len i := by
  constructor
  · intro h
    cases hcode : r.1 with
    | none =>
      rw [hcode] at h
      exact absurd h (by decide)
    | some v =>
      rw [hcode, Option.getD_some] at h
      obtain ⟨c, hc, hat, hstop⟩ :=
        char_of_cbu8Next hlen hi hr hcode (isValidCodepoint_of_valid h)
      exact ⟨c, hat, hstop ▸ (consumes_trail hlen hi hr).2.1, hc.symm ▸ h⟩
  · rintro ⟨c, hat, hend, hvalid⟩
    rw [cbu8Next_char hlen hi hat hend hr]
    exact hvalid

/-- At the end the scan says yes. -/
theorem scanUTF8_done (h : len ≤ i) : scanUTF8 s len i = .ok true := by
  rw [scanUTF8, if_neg (not_lt.mpr h)]

/-- An overflow ends the scan. -/
theorem scanUTF8_error (hi : i < len) {e : Fault} (h : cbu8Next s i len = .error e) :
    scanUTF8 s len i = .error e := by
  rw [scanUTF8, if_pos hi]
  split <;> simp_all

/-- One pass: the scan says no at a character that is valid, and goes on at any other. -/
theorem scanUTF8_pass (hi : i < len) {r : Option Nat × Nat} (h : cbu8Next s i len = .ok r) :
    scanUTF8 s len i
      = if isValidCharacter (r.1.getD 0xFFFFFFFF) = true then .ok false
        else scanUTF8 s len r.2 := by
  rw [scanUTF8, if_pos hi]
  split
  · simp_all
  · next r' hr' =>
    obtain rfl : r' = r := by simpa [h] using hr'.symm
    rfl

/-- Where no valid character starts, the next pass does not go over the start of one. -/
theorem stop_le_of_validAt (hlen : len ≤ s.length) (hi : i < len) {r : Option Nat × Nat}
    (hr : cbu8Next s i len = .ok r) (hp : i ≤ p) (hvalid : ValidAt s len p)
    (hno : ¬ValidAt s len i) : r.2 ≤ p := by
  obtain ⟨c, hat, -⟩ := id hvalid
  rcases hp.eq_or_lt with rfl | hip
  · exact absurd hvalid hno
  · exact stop_le_of_charAt hlen hi hr hat hip

/-- `true` is returned where no valid character is ahead. -/
theorem none_valid_of_true (hlen : len ≤ s.length) (i : Nat) :
    scanUTF8 s len i = .ok true → ∀ p, i ≤ p → ¬ValidAt s len p := by
  induction i using pass_induction s len with
  | done i hi =>
    rintro - p hp ⟨c, -, hend, -⟩
    have hlt := lt_behind p c
    omega
  | pass i hi ih =>
    intro h p hp hvalid
    cases hr : cbu8Next s i len with
    | error e =>
      rw [scanUTF8_error hi hr] at h
      cases h
    | ok r =>
      rw [scanUTF8_pass hi hr] at h
      split_ifs at h with htest
      · cases h
      -- This pass has seen no valid character, so all that are ahead are behind it.
      have hno := htest ∘ (valid_iff hlen hi hr).mpr
      exact ih r hr h p (stop_le_of_validAt hlen hi hr hp hvalid hno) hvalid

/-- `false` is returned at the first valid character, if no sum overflows in front of it. -/
theorem scanUTF8_false_iff (hlen : len ≤ s.length) (hlarge : len < 2 ^ 31) (i : Nat) :
    scanUTF8 s len i = .ok false ↔
      ∃ p, i ≤ p ∧ ValidAt s len p ∧ ∀ j, i ≤ j → j < p → ¬Overflows s j := by
  induction i using pass_induction s len with
  | done i hi =>
    rw [scanUTF8_done hi]
    refine iff_of_false (by simp) ?_
    rintro ⟨p, hp, ⟨c, -, hend, -⟩, -⟩
    have hlt := lt_behind p c
    omega
  | pass i hi ih =>
    by_cases hvalid : ValidAt s len i
    · refine iff_of_true ?_ ⟨i, le_rfl, hvalid, fun j hj hlt => absurd hlt (not_lt.mpr hj)⟩
      obtain ⟨c, hat, hend, -⟩ := id hvalid
      obtain ⟨r, hr⟩ := exists_cbu8Next hlen hi (hat.not_overflows (lt_of_le_of_lt hend hlarge))
      rw [scanUTF8_pass hi hr, if_pos ((valid_iff hlen hi hr).mpr hvalid)]
    by_cases hover : Overflows s i
    · -- The overflow is in front of every valid character that is left.
      rw [scanUTF8_error hi (cbu8Next_overflow hlen hi hover)]
      refine iff_of_false (by simp) ?_
      rintro ⟨p, hp, hat, hno⟩
      rcases hp.eq_or_lt with rfl | hip
      · exact hvalid hat
      · exact hno i le_rfl hip hover
    obtain ⟨r, hr⟩ := exists_cbu8Next hlen hi hover
    rw [scanUTF8_pass hi hr, if_neg (hvalid ∘ (valid_iff hlen hi hr).mp), ih r hr]
    have hlt := lt_of_cbu8Next hr
    -- From here on the first valid character and the overflows are those behind the pass.
    constructor
    · rintro ⟨p, hp, hat, hno⟩
      refine ⟨p, hlt.le.trans hp, hat, fun j hj hjp hoverj => ?_⟩
      rcases hj.eq_or_lt with rfl | hij
      · exact hover hoverj
      · exact hno j (stop_le_of_overflows hlen hi hr hoverj hij) hjp hoverj
    · rintro ⟨p, hp, hat, hno⟩
      exact ⟨p, stop_le_of_validAt hlen hi hr hp hat hvalid, hat,
        fun j hj => hno j (hlt.le.trans hj)⟩

/-- Without a valid character and without an overflow the scan gets to the end. By strong induction
on what is left. -/
theorem scanUTF8_true (hlen : len ≤ s.length) (i : Nat) :
    (∀ p, i ≤ p → ¬ValidAt s len p) → (∀ j, i ≤ j → j < len → ¬Overflows s j) →
      scanUTF8 s len i = .ok true := by
  induction i using pass_induction s len with
  | done i hi => exact fun _ _ => scanUTF8_done hi
  | pass i hi ih =>
    intro hnone hno
    obtain ⟨r, hr⟩ := exists_cbu8Next hlen hi (hno i le_rfl hi)
    have hlt := lt_of_cbu8Next hr
    rw [scanUTF8_pass hi hr, if_neg (hnone i le_rfl ∘ (valid_iff hlen hi hr).mp)]
    exact ih r hr (fun p hp => hnone p (hlt.le.trans hp)) fun j hj => hno j (hlt.le.trans hj)

end

/-! ### The answer -/

section

variable {s : Str}

/-- A valid character ends within the bytes that the `int32` length leaves. -/
abbrev ValidSeen (s : Str) (p : Nat) : Prop := ValidAt s (srcLen32 s.length) p

/-- Where the loop sees no character of a text in order, it sees at most three bytes. -/
theorem srcLen32_of_unseen (hvalid : AllValid s) (hnone : ∀ p, ¬ValidSeen s p) :
    srcLen32 s.length < 4 := by
  obtain ⟨cs, rfl, hall⟩ := hvalid
  cases cs with
  | nil => decide
  | cons c cs =>
    have hat : CharAt (utf8 (c :: cs)) 0 c := List.prefix_append _ _
    have hlt : srcLen32 (utf8 (c :: cs)).length < behind 0 c := by
      by_contra hle
      exact hnone 0 ⟨c, hat, not_lt.mp hle, hall c List.mem_cons_self⟩
    have hfour : (String.utf8EncodeChar c).length ≤ 4 := by
      rcases utf8EncodeChar_cases c with ⟨-, henc⟩ | ⟨-, -, henc⟩ | ⟨-, -, henc⟩ | ⟨-, henc⟩ <;>
        rw [henc] <;> simp
    unfold behind at hlt
    omega

/-- **`IsStringUTF8` decides validity exactly if** the text is valid and the scan sees no valid
character in it, that is, none is in the part that the length lets it see; or it is not valid and
the scan gets to a valid character, without an overflow before it. -/
theorem decides_iff (s : Str) : Decides s ↔
    (AllValid s ∧ ∀ p, ¬ValidSeen s p) ∨
    (¬AllValid s ∧ ∃ p, ValidSeen s p ∧ ∀ j < p, ¬Overflows s j) := by
  have hlen := srcLen32_le s.length
  have hfalse := scanUTF8_false_iff hlen (srcLen32_lt s.length) 0
  constructor
  · rintro ⟨r, hrun, hr⟩
    cases r with
    | true =>
      exact Or.inl ⟨hr.mp rfl, fun p => none_valid_of_true hlen 0 hrun p (Nat.zero_le p)⟩
    | false =>
      obtain ⟨p, -, hvalid, hno⟩ := hfalse.mp hrun
      exact Or.inr ⟨fun hall => absurd (hr.mpr hall) (by decide), p, hvalid,
        fun j hj => hno j (Nat.zero_le j) hj⟩
  · rintro (⟨hall, hnone⟩ | ⟨hall, p, hvalid, hno⟩)
    · refine ⟨true, scanUTF8_true hlen 0 (fun p _ => hnone p) ?_, iff_of_true rfl hall⟩
      have hfour := srcLen32_of_unseen hall hnone
      exact fun j _ hj => not_overflows (by omega)
    · exact ⟨false, hfalse.mpr ⟨p, Nat.zero_le p, hvalid, fun j _ hj => hno j hj⟩,
        iff_of_false (by decide) hall⟩

/-- `a` is well-formed, and refused. -/
theorem not_decides_letter : ¬Decides [97] := by
  rintro ⟨r, hrun, hr⟩
  have hvalid : ValidAt [97] 1 0 := ⟨'a', ⟨[], rfl⟩, by decide, by decide⟩
  have hfalse : isStringUTF8 [97] = .ok false :=
    (scanUTF8_false_iff le_rfl (by decide) 0).mpr ⟨0, le_rfl, hvalid, by omega⟩
  rw [hfalse, Except.ok.injEq] at hrun
  subst hrun
  refine absurd (hr.mpr ⟨['a'], rfl, fun c hc => ?_⟩) (by decide)
  rw [List.mem_singleton.mp hc]
  decide

end

end Mylib.Proofs.Base.Utf8
