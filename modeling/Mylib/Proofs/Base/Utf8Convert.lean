import Mylib.Proofs.Base.Utf8Reader

/-!
# `Mylib.Proofs.Base.Utf8Convert`: what `UTF8ToWide` keeps

`Lossless` says what is promised. Well-formed UTF-8 below `2 ^ 31` bytes comes back from
`WideToUTF8`. Every string is converted without a fault, and then what the passes consume are
sequences of bytes one behind another (`Kept`): every well-formed character is one of them, and
each other one is written as one `U+FFFD`.

The loop goes over the bytes as far as the `int32` length says (`converUnicode_tiles`), and
stops at an overflow. So a string is converted without loss exactly when its characters end
within that length and no lead byte stands so near to `2 ^ 31` that the sum overflows
(`lossless_iff`).
-/

set_option autoImplicit false

namespace Mylib.Proofs.Base.Utf8

open Mylib.Spec.Base
open StringConversions hiding converUnicode utf8ToWide
open Utf8Reader

/-! ### The promise -/

/-- The wide characters that one pass appends. -/
def units (q : Consumed) : WString := writeUnicodeCharacter16 (q.codePoint.getD 0xFFFD)

/-- One behind another from `i` to `n`, none of them empty. -/
def Tiles : Nat → List Consumed → Nat → Prop
  | i, [], n => i = n
  | i, q :: qs, n => q.start = i ∧ q.start < q.stop ∧ Tiles q.stop qs n

/-- A sequence of bytes that is a well-formed character. -/
def WellFormed (s : Str) (q : Consumed) : Prop :=
  ∃ c : Char, CharAt s q.start c ∧ q = ⟨q.start, behind q.start c, some c.toNat⟩

structure Kept (s : Str) (output : WString) (consumed : List Consumed) : Prop where
  tiles : ∃ n ≤ s.length, Tiles 0 consumed n
  output : output = consumed.flatMap units
  ill_formed : ∀ q ∈ consumed, WellFormed s q ∨
    units q = [0xFFFD] ∧ ∀ p c, CharAt s p c → q.stop ≤ p ∨ behind p c ≤ q.start
  kept : ∀ p c, CharAt s p c → ⟨p, behind p c, some c.toNat⟩ ∈ consumed

structure Lossless (s : Str) : Prop where
  round_trip : ValidUtf8 s → s.length < 2 ^ 31 →
    ∃ wide consumed, utf8ToWide s = .ok (wide, consumed) ∧ wideToUTF8 wide = s
  total : ∃ wide consumed, utf8ToWide s = .ok (wide, consumed) ∧ Kept s wide consumed

/-! ### The loop -/

section

variable {s : Str} {len i p : Nat} {c : Char}

/-- At the end nothing is left to convert. -/
theorem converUnicode_done (h : len ≤ i) : converUnicode s len i = .ok ([], []) := by
  rw [converUnicode, if_neg (not_lt.mpr h)]

/-- An overflow ends the conversion. -/
theorem converUnicode_error (hi : i < len) {e : Fault} (h : cbu8Next s i len = .error e) :
    converUnicode s len i = .error e := by
  rw [converUnicode, if_pos hi]
  split <;> simp_all

/-- One pass: what is read at the index, and then the rest. -/
theorem converUnicode_pass (hi : i < len) {r : Option Nat × Nat} (h : cbu8Next s i len = .ok r) :
    converUnicode s len i = (converUnicode s len r.2).map fun out =>
      let q : Consumed := ⟨i, r.2, r.1.filter isValidCodepoint⟩
      (units q ++ out.1, q :: out.2) := by
  rw [converUnicode, if_pos hi]
  split
  · simp_all
  · next r' hr' =>
    obtain rfl : r' = r := by simpa [h] using hr'.symm
    cases converUnicode s len r'.2 <;> rfl

/-- The passes of a run from the index `i` on. -/
inductive Passes (s : Str) (len : Nat) : Nat → List Consumed → Prop
  | done : Passes s len len []
  | pass {i : Nat} {r : Option Nat × Nat} {qs : List Consumed} (hi : i < len)
      (h : cbu8Next s i len = .ok r) (hrest : Passes s len r.2 qs) :
      Passes s len i (⟨i, r.2, r.1.filter isValidCodepoint⟩ :: qs)

/-- A run that returns is a sequence of passes, and its output is theirs. -/
theorem passes_of_ok (hlen : len ≤ s.length) (i : Nat) : ∀ {w : WString} {qs : List Consumed},
    i ≤ len → converUnicode s len i = .ok (w, qs) → Passes s len i qs ∧ w = qs.flatMap units := by
  induction i using pass_induction s len with
  | done i hi =>
    intro w qs hle h
    rw [converUnicode_done hi] at h
    -- The last pass has stopped at the end and not behind it.
    obtain rfl : i = len := le_antisymm hle hi
    cases h
    exact ⟨.done, rfl⟩
  | pass i hi ih =>
    intro w qs hle h
    cases hnext : cbu8Next s i len with
    | error e =>
      rw [converUnicode_error hi hnext] at h
      cases h
    | ok r =>
      rw [converUnicode_pass hi hnext] at h
      cases hrun : converUnicode s len r.2 with
      | error e =>
        rw [hrun] at h
        cases h
      | ok out =>
        rw [hrun] at h
        cases h
        obtain ⟨hpasses, houtput⟩ := ih r hnext (consumes_trail hlen hi hnext).2.1 hrun
        refine ⟨.pass hi hnext hpasses, ?_⟩
        rw [houtput]
        rfl

/-- Without an overflow ahead, the run returns. -/
theorem exists_converUnicode (hlen : len ≤ s.length) (i : Nat) :
    (∀ p, i ≤ p → p < len → ¬Overflows s p) → ∃ out, converUnicode s len i = .ok out := by
  induction i using pass_induction s len with
  | done i hi => exact fun _ => ⟨_, converUnicode_done hi⟩
  | pass i hi ih =>
    intro h
    obtain ⟨r, hr⟩ := exists_cbu8Next hlen hi (h i le_rfl hi)
    have hlt := lt_of_cbu8Next hr
    obtain ⟨out, hout⟩ := ih r hr fun p hp => h p (hlt.le.trans hp)
    rw [converUnicode_pass hi hr, hout]
    exact ⟨_, rfl⟩

namespace Passes

variable {qs : List Consumed}

/-- The passes lie one behind the other and cover the text. -/
theorem tiles (h : Passes s len i qs) : Tiles i qs len := by
  induction h with
  | done => rfl
  | pass hi hr _ ih => exact ⟨rfl, lt_of_cbu8Next hr, ih⟩

/-- A conversion that got to the end had no overflow anywhere. -/
theorem no_overflow (hlen : len ≤ s.length) (h : Passes s len i qs) :
    ∀ p, i ≤ p → p < len → ¬Overflows s p := by
  induction h with
  | done => exact fun p hle hlt => absurd hlt (not_lt.mpr hle)
  | pass hi hr _ ih =>
    intro p hle hlt hover
    rcases hle.eq_or_lt with rfl | hip
    · obtain ⟨b, -, hno, -⟩ := cbu8Next_ok hlen hi hr
      exact hno hover
    · exact ih p (stop_le_of_overflows hlen hi hr hover hip) hlt hover

/-- A pass gives a code point only where a character starts. -/
theorem wellFormed (hlen : len ≤ s.length) (h : Passes s len i qs) :
    ∀ q ∈ qs, q.codePoint = none ∨ WellFormed s q := by
  induction h with
  | done => simp
  | @pass i r qs hi hr hrest ih =>
    refine List.forall_mem_cons.mpr ⟨?_, ih⟩
    cases hcode : r.1.filter isValidCodepoint with
    | none => exact Or.inl rfl
    | some v =>
      obtain ⟨hv, hvalid⟩ := Option.filter_eq_some_iff.mp hcode
      obtain ⟨c, hc, hat, hstop⟩ := char_of_cbu8Next hlen hi hr hv hvalid
      exact Or.inr ⟨c, hat, by rw [hstop, hc]⟩

/-- The passes take every character that ends within the length. -/
theorem kept (hlen : len ≤ s.length) (h : Passes s len i qs) (hp : i ≤ p) (hc : CharAt s p c)
    (hend : behind p c ≤ len) : ⟨p, behind p c, some c.toNat⟩ ∈ qs := by
  induction h with
  | done => exact absurd (lt_behind p c) (not_lt.mpr (hend.trans hp))
  | pass hi hr _ ih =>
    rcases hp.eq_or_lt with rfl | hip
    · rw [cbu8Next_char hlen hi hc hend hr, filter_char]
      exact List.mem_cons_self
    · exact List.mem_cons_of_mem _ (ih (stop_le_of_charAt hlen hi hr hc hip))

/-- The output is that of the loop over the bytes left. -/
theorem flatMap_units (hlen : len ≤ s.length) (h : Passes s len i qs) :
    qs.flatMap units = wideOf (rest s len i) := by
  induction h with
  | done => rw [rest_eq_nil le_rfl, wideOf_nil, List.flatMap_nil]
  | @pass i r qs hi hr _ ih =>
    obtain ⟨b, -, -, hrest, rfl⟩ := cbu8Next_ok hlen hi hr
    have hdrop := @drop_rest s len (i + 1) (next8 b (rest s len (i + 1))).2
    rw [hrest, wideOf, StringConversions.converUnicode, List.flatMap_cons, ih, ← hdrop]
    rfl

end Passes

end

/-! ### Sequences that tile -/

/-- Every pass lies between the ends of its row. -/
theorem Tiles.start_le {i n : Nat} {qs : List Consumed} (h : Tiles i qs n) :
    i ≤ n ∧ ∀ q ∈ qs, i ≤ q.start ∧ q.start < q.stop ∧ q.stop ≤ n := by
  induction qs generalizing i with
  | nil =>
    obtain rfl : i = n := h
    simp
  | cons q qs ih =>
    obtain ⟨rfl, hlt, hrest⟩ := h
    obtain ⟨hle, hqs⟩ := ih hrest
    refine ⟨hlt.le.trans hle, List.forall_mem_cons.mpr ⟨⟨le_rfl, hlt, hle⟩, fun q' hq' => ?_⟩⟩
    obtain ⟨hstart, hstop⟩ := hqs q' hq'
    exact ⟨hlt.le.trans hstart, hstop⟩

/-- Two passes are the same or do not overlap. -/
theorem Tiles.apart {i n : Nat} {qs : List Consumed} (h : Tiles i qs n) {q q' : Consumed}
    (hq : q ∈ qs) (hq' : q' ∈ qs) : q = q' ∨ q.stop ≤ q'.start ∨ q'.stop ≤ q.start := by
  induction qs generalizing i with
  | nil => cases hq
  | cons p qs ih =>
    obtain ⟨-, -, hrest⟩ := h
    rcases List.mem_cons.mp hq with rfl | hmem <;> rcases List.mem_cons.mp hq' with rfl | hmem'
    · exact Or.inl rfl
    · exact Or.inr (Or.inl (hrest.start_le.2 q' hmem').1)
    · exact Or.inr (Or.inr (hrest.start_le.2 q hmem).1)
    · exact ih hrest hmem hmem'

/-! ### `UTF8ToWide` -/

section

variable {s : Str}

/-- Every character of the string ends within the bytes that the `int32` length leaves, and
no lead byte among them overflows. -/
structure Fits (s : Str) : Prop where
  chars : ∀ p c, CharAt s p c → behind p c ≤ srcLen32 s.length
  leads : ∀ p < srcLen32 s.length, ¬Overflows s p

/-- If everything fits, every character of the text is in one pass, and its units are in the
result. -/
theorem Passes.kept_of_fits {qs : List Consumed} (h : Fits s)
    (hpasses : Passes s (srcLen32 s.length) 0 qs) : Kept s (qs.flatMap units) qs := by
  have hlen := srcLen32_le s.length
  have hkept : ∀ p c, CharAt s p c → ⟨p, behind p c, some c.toNat⟩ ∈ qs := fun p c hc =>
    hpasses.kept hlen (Nat.zero_le p) hc (h.chars p c hc)
  refine ⟨⟨_, hlen, hpasses.tiles⟩, rfl, fun q hq => ?_, hkept⟩
  rcases hpasses.wellFormed hlen q hq with hnone | hwell
  · refine Or.inr ⟨by rw [units, hnone]; rfl, fun p c hc => ?_⟩
    rcases hpasses.tiles.apart hq (hkept p c hc) with rfl | hapart
    · cases hnone
    · exact hapart
  · exact Or.inl hwell

/-- A run that returns gives what the loop over the bytes left gives. -/
theorem utf8ToWide_refines {w : WString} {qs : List Consumed} (h : utf8ToWide s = .ok (w, qs)) :
    w = StringConversions.utf8ToWide s := by
  have hlen := srcLen32_le s.length
  obtain ⟨hpasses, hw⟩ := passes_of_ok hlen 0 (Nat.zero_le _) h
  rw [hw, hpasses.flatMap_units hlen, rest, List.drop_zero]
  rfl

/-- In well-formed text a character starts at every byte that is no trail byte. -/
theorem charAt_of_first {cs : List Char} {p : Nat} {b : UInt8} (hb : (utf8 cs)[p]? = some b)
    (hfirst : isTrail8 b = false) : ∃ c, CharAt (utf8 cs) p c := by
  induction cs generalizing p with
  | nil => cases hb
  | cons c cs ih =>
    rw [utf8_cons] at hb ⊢
    by_cases hin : p < (String.utf8EncodeChar c).length
    · obtain ⟨b', bs, henc, -, htrail⟩ := utf8EncodeChar_lead c
      rw [List.getElem?_append_left hin, henc] at hb
      cases p with
      | zero => exact ⟨c, List.prefix_append _ _⟩
      | succ p =>
        have hmem : b ∈ bs := List.mem_of_getElem? hb
        rw [htrail b hmem] at hfirst
        cases hfirst
    · rw [List.getElem?_append_right (not_lt.mp hin)] at hb
      obtain ⟨d, hd⟩ := ih hb
      refine ⟨d, ?_⟩
      unfold CharAt at hd ⊢
      rwa [List.drop_append, List.drop_of_length_le (not_lt.mp hin), List.nil_append]

/-- A valid text below 2 ^ 31 bytes fits. -/
theorem fits_of_valid (hvalid : ValidUtf8 s) (hshort : s.length < 2 ^ 31) : Fits s := by
  have hlen := srcLen32_of_lt hshort
  refine ⟨fun p c hc => hc.behind_le.trans_eq hlen.symm, fun p _ hover => ?_⟩
  obtain ⟨cs, rfl⟩ := hvalid
  obtain ⟨b, hb, hlead, hlarge⟩ := hover
  obtain ⟨c, hc⟩ := charAt_of_first hb (not_trail_of_lead hlead)
  exact hc.not_overflows (lt_of_le_of_lt hc.behind_le hshort) ⟨b, hb, hlead, hlarge⟩

/-- Well-formed text below `2 ^ 31` bytes is converted, and comes back. -/
theorem round_trip (hvalid : ValidUtf8 s) (hshort : s.length < 2 ^ 31) :
    ∃ wide consumed, utf8ToWide s = .ok (wide, consumed) ∧ wideToUTF8 wide = s := by
  obtain ⟨⟨wide, consumed⟩, hrun⟩ := exists_converUnicode (srcLen32_le s.length) 0
    fun p _ hp => (fits_of_valid hvalid hshort).leads p hp
  obtain ⟨cs, rfl⟩ := hvalid
  refine ⟨wide, consumed, hrun, ?_⟩
  rw [utf8ToWide_refines hrun, utf8ToWide_utf8 hshort]
  exact wideToUTF8_utf16 (lt_of_le_of_lt (length_utf16_le cs) hshort)

/-- **Nothing is lost exactly if** the text fits: all its characters lie in the part that the length
lets the loop see, and no sum of an index overflows. -/
theorem lossless_iff (s : Str) : Lossless s ↔ Fits s := by
  have hlen := srcLen32_le s.length
  constructor
  · intro h
    obtain ⟨wide, consumed, hrun, hkept⟩ := h.total
    obtain ⟨hpasses, -⟩ := passes_of_ok hlen 0 (Nat.zero_le _) hrun
    refine ⟨fun p c hc => ?_, fun p hp => hpasses.no_overflow hlen p (Nat.zero_le p) hp⟩
    exact (hpasses.tiles.start_le.2 _ (hkept.kept p c hc)).2.2
  · intro h
    obtain ⟨⟨wide, consumed⟩, hrun⟩ := exists_converUnicode hlen 0 fun p _ hp => h.leads p hp
    obtain ⟨hpasses, hwide⟩ := passes_of_ok hlen 0 (Nat.zero_le _) hrun
    exact ⟨round_trip, wide, consumed, hrun, hwide ▸ hpasses.kept_of_fits h⟩

/-- Up to `2 ^ 31 - 6` bytes nothing is lost. -/
theorem fits_of_short (h : s.length + 6 ≤ 2 ^ 31) : Fits s := by
  have hlen : srcLen32 s.length = s.length := srcLen32_of_lt (by omega)
  exact ⟨fun p c hc => hc.behind_le.trans_eq hlen.symm, fun p hp => not_overflows (by omega)⟩

/-- Up to `2 ^ 31 - 6` bytes the 32-bit sums make no difference. -/
theorem utf8ToWide_of_short (h : s.length + 6 ≤ 2 ^ 31) :
    ∃ qs, utf8ToWide s = .ok (StringConversions.utf8ToWide s, qs) := by
  obtain ⟨⟨wide, consumed⟩, hrun⟩ := exists_converUnicode (srcLen32_le s.length) 0
    fun p _ hp => (fits_of_short h).leads p hp
  refine ⟨consumed, ?_⟩
  rw [← utf8ToWide_refines hrun]
  exact hrun

/-- Of `2 ^ 31` times the letter `a` nothing is converted. -/
theorem not_lossless_long : ¬Lossless (List.replicate (2 ^ 31) 97) := by
  intro h
  obtain ⟨wide, consumed, hrun, hkept⟩ := h.total
  have hlen : srcLen32 (List.replicate (2 ^ 31) (97 : UInt8)).length = 0 := by
    rw [List.length_replicate]
    decide
  have hat : CharAt (List.replicate (2 ^ 31) 97) 0 'a' := by
    rw [CharAt, List.drop_zero, show (2 ^ 31 : Nat) = (2 ^ 31 - 1) + 1 from rfl,
      List.replicate_succ]
    exact ⟨List.replicate (2 ^ 31 - 1) 97, rfl⟩
  rw [utf8ToWide, hlen, converUnicode_done le_rfl] at hrun
  cases hrun
  exact absurd (hkept.kept 0 'a' hat) List.not_mem_nil

end

end Mylib.Proofs.Base.Utf8
