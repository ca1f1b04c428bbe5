import Mylib.Spec.Base.StringConversions

/-!
# `Mylib.Proofs.Base.Unicode`: the conversions on valid text

`UTF8ToWide` and `WideToUTF8` are inverse on valid UTF-8 that is short enough for
an `int32` length. A string is valid when it is the UTF-8 encoding of some
characters, in Lean's own sense of both words.
-/

set_option autoImplicit false

namespace Mylib.Proofs.Base

open Mylib.Spec.Base StringConversions

/-- The UTF-8 encoding of a list of characters. -/
def utf8 (cs : List Char) : Str := cs.flatMap String.utf8EncodeChar

/-- The wide characters of a list of characters. -/
def utf16 (cs : List Char) : WString := cs.flatMap fun c => writeUnicodeCharacter16 c.toNat

def ValidUtf8 (s : Str) : Prop := ∃ cs, s = utf8 cs

/-- The UTF-8 of nothing. -/
@[simp]
theorem utf8_nil : utf8 [] = [] := rfl

/-- UTF-8 is written character by character. -/
@[simp]
theorem utf8_cons (c : Char) (cs : List Char) :
    utf8 (c :: cs) = String.utf8EncodeChar c ++ utf8 cs := rfl

/-- The UTF-16 of nothing. -/
@[simp]
theorem utf16_nil : utf16 [] = [] := rfl

/-- UTF-16 is written character by character. -/
@[simp]
theorem utf16_cons (c : Char) (cs : List Char) :
    utf16 (c :: cs) = writeUnicodeCharacter16 c.toNat ++ utf16 cs := rfl

/-- The UTF-8 of two texts. -/
theorem utf8_append (cs ds : List Char) : utf8 (cs ++ ds) = utf8 cs ++ utf8 ds :=
  List.flatMap_append

/-- The UTF-16 of two texts. -/
theorem utf16_append (cs ds : List Char) : utf16 (cs ++ ds) = utf16 cs ++ utf16 ds :=
  List.flatMap_append

/-! ### One character -/

/-- A character is no surrogate and is at most 0x10FFFF. -/
theorem char_valid (c : Char) : c.toNat < 0xD800 ∨ (0xDFFF < c.toNat ∧ c.toNat < 0x110000) :=
  c.valid

/-- A character passes the code point check. -/
theorem isValidCodepoint_char (c : Char) : isValidCodepoint c.toNat = true := by
  have h := char_valid c
  simp only [isValidCodepoint, Bool.or_eq_true, Bool.and_eq_true, decide_eq_true_eq]
  omega

/-- A character's code is not filtered out. -/
theorem filter_char (c : Char) :
    Option.filter isValidCodepoint (some c.toNat) = some c.toNat := by
  simp [Option.filter, isValidCodepoint_char c]

/-- The bytes that follow the first one are continuation bytes. -/
theorem isTrail8_of_toNat {t : UInt8} {v : Nat} (ht : t.toNat = 0x80 + v % 64) :
    isTrail8 t = true := by
  simp only [isTrail8, ht, beq_iff_eq]
  omega

/-- A continuation byte carries six bits. -/
theorem trail_bits {t : UInt8} {v : Nat} (ht : t.toNat = 0x80 + v % 64) :
    t.toNat % 64 = v % 64 := by
  omega

/-- A lead byte with its trail bytes, neither too long nor a surrogate. -/
theorem next8_of_sequence {b : UInt8} {rest : Str} {v k : Nat} (hlead : 0xC0 ≤ b.toNat)
    (hmax : b.toNat < 0xF8) (hcount : countTrailBytes b = k) (hlen : k ≤ rest.length)
    (hseq : sequence (b.toNat % 2 ^ (6 - k)) k rest = some v) (hlegal : minLegal k ≤ v)
    (hsurrogate : isSurrogate v = false) : next8 b rest = (some v, k) := by
  have hisLead : isLead8 b = true := by
    simp only [isLead8, Bool.and_eq_true, decide_eq_true_eq]
    omega
  unfold next8 nextCharSafeBody
  rw [if_pos (by omega), if_pos hisLead, hcount, if_pos hlen, hseq]
  simp [hsurrogate, Nat.not_lt.mpr hlegal]

/-- A sequence of two bytes is decoded. -/
theorem next8_two {b t : UInt8} {v : Nat} (rest : Str) (hb : b.toNat = 0xC0 + v / 64)
    (ht : t.toNat = 0x80 + v % 64) (hlo : 0x80 ≤ v) (hhi : v ≤ 0x7FF) :
    next8 b (t :: rest) = (some v, 1) := by
  refine next8_of_sequence (by omega) (by omega) ?_ (by simp) ?_ hlo ?_
  · simp only [countTrailBytes, hb]
    rw [if_neg (by omega), if_pos (by omega)]
  · simp only [StringConversions.sequence, isTrail8_of_toNat ht, if_true, trail_bits ht, hb]
    congr 1
    omega
  · simp only [isSurrogate, beq_eq_false_iff_ne]
    omega

/-- A sequence of three bytes is decoded. -/
theorem next8_three {b t u : UInt8} {v : Nat} (rest : Str) (hb : b.toNat = 0xE0 + v / 4096)
    (ht : t.toNat = 0x80 + v / 64 % 64) (hu : u.toNat = 0x80 + v % 64) (hlo : 0x800 ≤ v)
    (hhi : v ≤ 0xFFFF) (hvalid : v < 0xD800 ∨ 0xDFFF < v) :
    next8 b (t :: u :: rest) = (some v, 2) := by
  refine next8_of_sequence (by omega) (by omega) ?_ (by simp) ?_ hlo ?_
  · simp only [countTrailBytes, hb]
    rw [if_neg (by omega), if_neg (by omega), if_pos (by omega)]
  · simp only [StringConversions.sequence, isTrail8_of_toNat ht, isTrail8_of_toNat hu,
      trail_bits ht, trail_bits hu, hb, Bool.and_self, if_true]
    congr 1
    omega
  · simp only [isSurrogate, beq_eq_false_iff_ne]
    omega

/-- A sequence of four bytes is decoded. -/
theorem next8_four {b t u w : UInt8} {v : Nat} (rest : Str) (hb : b.toNat = 0xF0 + v / 262144)
    (ht : t.toNat = 0x80 + v / 4096 % 64) (hu : u.toNat = 0x80 + v / 64 % 64)
    (hw : w.toNat = 0x80 + v % 64) (hlo : 0x10000 ≤ v) (hhi : v < 0x110000) :
    next8 b (t :: u :: w :: rest) = (some v, 3) := by
  refine next8_of_sequence (by omega) (by omega) ?_ (by simp) ?_ hlo ?_
  · simp only [countTrailBytes, hb]
    rw [if_neg (by omega), if_neg (by omega), if_neg (by omega), if_pos (by omega)]
  · have hplane : (0xF0 + v / 262144) % 2 ^ (6 - 3) * 64 + v / 4096 % 64 < 0x110 := by omega
    simp only [StringConversions.sequence, isTrail8_of_toNat ht, isTrail8_of_toNat hu,
      isTrail8_of_toNat hw, trail_bits ht, trail_bits hu, trail_bits hw, hb, hplane, decide_true,
      Bool.and_self, if_true]
    congr 1
    omega
  · simp only [isSurrogate, beq_eq_false_iff_ne]
    omega

/-- The four shapes of an encoded character. -/
theorem utf8EncodeChar_cases (c : Char) :
    (c.toNat ≤ 0x7F ∧ String.utf8EncodeChar c = [UInt8.ofNat c.toNat]) ∨
    (0x80 ≤ c.toNat ∧ c.toNat ≤ 0x7FF ∧ String.utf8EncodeChar c
      = [UInt8.ofNat (c.toNat / 64 + 0xC0), UInt8.ofNat (c.toNat % 64 + 0x80)]) ∨
    (0x800 ≤ c.toNat ∧ c.toNat ≤ 0xFFFF ∧ String.utf8EncodeChar c
      = [UInt8.ofNat (c.toNat / 4096 + 0xE0), UInt8.ofNat (c.toNat / 64 % 64 + 0x80),
          UInt8.ofNat (c.toNat % 64 + 0x80)]) ∨
    (0x10000 ≤ c.toNat ∧ String.utf8EncodeChar c
      = [UInt8.ofNat (c.toNat / 262144 + 0xF0), UInt8.ofNat (c.toNat / 4096 % 64 + 0x80),
          UInt8.ofNat (c.toNat / 64 % 64 + 0x80), UInt8.ofNat (c.toNat % 64 + 0x80)]) := by
  have hvalid := char_valid c
  unfold String.utf8EncodeChar
  show _ ∨ _ ∨ _ ∨ _
  simp only [Char.toNat] at hvalid ⊢
  by_cases h₁ : c.val.toNat ≤ 0x7F
  · exact Or.inl ⟨h₁, by rw [if_pos h₁]⟩
  by_cases h₂ : c.val.toNat ≤ 0x7FF
  · refine Or.inr (Or.inl ⟨by omega, h₂, ?_⟩)
    rw [if_neg h₁, if_pos h₂, Nat.mod_eq_of_lt (show c.val.toNat / 64 < 0x20 by omega)]
  by_cases h₃ : c.val.toNat ≤ 0xFFFF
  · refine Or.inr (Or.inr (Or.inl ⟨by omega, h₃, ?_⟩))
    rw [if_neg h₁, if_neg h₂, if_pos h₃, Nat.mod_eq_of_lt (show c.val.toNat / 4096 < 0x10 by omega)]
  · refine Or.inr (Or.inr (Or.inr ⟨by omega, ?_⟩))
    rw [if_neg h₁, if_neg h₂, if_neg h₃,
      Nat.mod_eq_of_lt (show c.val.toNat / 262144 < 0x08 by omega)]

/-- A first byte does not wrap. -/
theorem toNat_ofNat_add {n k : Nat} (h : n + k < 256) : (UInt8.ofNat (n + k)).toNat = k + n := by
  rw [UInt8.toNat_ofNat']
  omega

/-- Reading an encoded character gives the character, and takes all its bytes. -/
theorem readUnicodeCharacter8_char (c : Char) (rest : Str) :
    ∃ b bs, String.utf8EncodeChar c = b :: bs ∧
      readUnicodeCharacter8 b (bs ++ rest) = (some c.toNat, bs.length) := by
  have hvalid := char_valid c
  have hread : ∀ {b : UInt8} {bs : Str}, next8 b (bs ++ rest) = (some c.toNat, bs.length) →
      readUnicodeCharacter8 b (bs ++ rest) = (some c.toNat, bs.length) := by
    intro b bs h
    unfold readUnicodeCharacter8
    simp only [h, filter_char]
  -- By the number of bytes that the character takes.
  rcases utf8EncodeChar_cases c with ⟨h, henc⟩ | ⟨hlo, hhi, henc⟩ | ⟨hlo, hhi, henc⟩ | ⟨hlo, henc⟩
  · refine ⟨_, _, henc, hread ?_⟩
    have hb : (UInt8.ofNat c.toNat).toNat = c.toNat := by
      rw [UInt8.toNat_ofNat']
      omega
    unfold next8
    rw [hb, if_neg (by omega)]
    rfl
  · exact ⟨_, _, henc, hread (next8_two rest (toNat_ofNat_add (by omega))
      (toNat_ofNat_add (by omega)) hlo hhi)⟩
  · exact ⟨_, _, henc, hread (next8_three rest (toNat_ofNat_add (by omega))
      (toNat_ofNat_add (by omega)) (toNat_ofNat_add (by omega)) hlo hhi (by omega))⟩
  · exact ⟨_, _, henc, hread (next8_four rest (toNat_ofNat_add (by omega))
      (toNat_ofNat_add (by omega)) (toNat_ofNat_add (by omega)) (toNat_ofNat_add (by omega))
      hlo (by omega))⟩

/-- The loop of `UTF8ToWide`. -/
def wideOf (s : Str) : WString := converUnicode readUnicodeCharacter8 writeUnicodeCharacter16 s

/-- The loop of `WideToUTF8`. -/
def utf8Of (w : WString) : Str := converUnicode readUnicodeCharacter16 writeUnicodeCharacter8 w

/-- No bytes are converted to no wide units. -/
@[simp]
theorem wideOf_nil : wideOf [] = [] := by
  rw [wideOf, converUnicode]

/-- No wide units are converted to no bytes. -/
@[simp]
theorem utf8Of_nil : utf8Of [] = [] := by
  rw [utf8Of, converUnicode]

/-- The bytes of one character are converted to its wide form. -/
theorem wideOf_char (c : Char) (rest : Str) :
    wideOf (String.utf8EncodeChar c ++ rest) = writeUnicodeCharacter16 c.toNat ++ wideOf rest := by
  obtain ⟨b, bs, henc, hread⟩ := readUnicodeCharacter8_char c rest
  rw [henc, List.cons_append, wideOf, converUnicode, hread]
  simp [wideOf]

/-- A valid text is converted character by character, whatever follows it. By induction on the
characters. -/
theorem wideOf_utf8 (cs : List Char) (rest : Str) :
    wideOf (utf8 cs ++ rest) = utf16 cs ++ wideOf rest := by
  induction cs with
  | nil => rfl
  | cons c cs ih =>
    rw [utf8_cons, List.append_assoc, wideOf_char, ih, utf16_cons, List.append_assoc]

/-! ### The way back -/

/-- A character is written as its UTF-8. -/
theorem writeUnicodeCharacter8_char (c : Char) :
    writeUnicodeCharacter8 c.toNat = String.utf8EncodeChar c := by
  unfold writeUnicodeCharacter8
  rcases utf8EncodeChar_cases c with ⟨h, henc⟩ | ⟨hlo, hhi, henc⟩ | ⟨hlo, hhi, henc⟩ | ⟨hlo, henc⟩
  · rw [if_pos h, henc]
  · rw [if_neg (by omega), if_pos hhi, henc]
  · rw [if_neg (by omega), if_neg (by omega), if_pos hhi, henc]
  · rw [if_neg (by omega), if_neg (by omega), if_neg (by omega), henc]

/-- One or two wide units of a character are converted to its bytes. -/
theorem utf8Of_char (c : Char) (rest : WString) :
    utf8Of (writeUnicodeCharacter16 c.toNat ++ rest) = String.utf8EncodeChar c ++ utf8Of rest := by
  have hvalid := char_valid c
  unfold writeUnicodeCharacter16
  -- In the basic plane a character is one unit and no surrogate.
  by_cases hbmp : c.toNat ≤ 0xFFFF
  · have hsurrogate : isSurrogate c.toNat = false := by
      simp only [isSurrogate, beq_eq_false_iff_ne]
      omega
    rw [if_pos hbmp, List.singleton_append, utf8Of, converUnicode]
    simp [readUnicodeCharacter16, hsurrogate, filter_char, writeUnicodeCharacter8_char c, utf8Of]
  -- Above it, it is a pair of surrogates whose parts give it back.
  · have hsurrogate : isSurrogate (c.toNat / 0x400 + 0xD7C0) = true := by
      simp only [isSurrogate, beq_iff_eq]
      omega
    have hlead : isSurrogateLead (c.toNat / 0x400 + 0xD7C0) = true := by
      rw [isSurrogateLead, beq_iff_eq]
      show (c.toNat / 0x400 + 0xD7C0 : Nat) / 0x400 % 2 = 0
      omega
    have htrail : isTrail16 (c.toNat % 0x400 + 0xDC00) = true := by
      rw [isTrail16, beq_iff_eq]
      show (c.toNat % 0x400 + 0xDC00 : Nat) / 0x400 = 0x37
      omega
    have hpair : getSupplementary (c.toNat / 0x400 + 0xD7C0) (c.toNat % 0x400 + 0xDC00)
        = c.toNat := by
      show (c.toNat / 0x400 + 0xD7C0 : Nat) * 0x400 + (c.toNat % 0x400 + 0xDC00) - 0x35FDC00
        = c.toNat
      omega
    rw [if_neg hbmp, List.cons_append, List.singleton_append, utf8Of, converUnicode]
    simp [readUnicodeCharacter16, hsurrogate, hlead, htrail, hpair, filter_char,
      writeUnicodeCharacter8_char c, utf8Of]

/-- And so are all of them. -/
theorem utf8Of_utf16 (cs : List Char) : utf8Of (utf16 cs) = utf8 cs := by
  induction cs with
  | nil => exact utf8Of_nil
  | cons c cs ih => rw [utf16_cons, utf8Of_char, ih, utf8_cons]

/-! ### Lengths -/

/-- A length below 2 ^ 31 survives the cast to `int32`. -/
theorem srcLen32_of_lt {n : Nat} (h : n < 2 ^ 31) : srcLen32 n = n := by
  have hmod : n % 2 ^ 32 = n := Nat.mod_eq_of_lt (by omega)
  unfold srcLen32
  rw [hmod, if_pos h]

/-- The cast never makes a length larger. -/
theorem srcLen32_le (n : Nat) : srcLen32 n ≤ n := by
  have hmod := Nat.mod_le n (2 ^ 32)
  unfold srcLen32
  split_ifs <;> omega

/-- The cast gives a length below 2 ^ 31. -/
theorem srcLen32_lt (n : Nat) : srcLen32 n < 2 ^ 31 := by
  unfold srcLen32
  split_ifs with h
  · exact h
  · decide

/-- A valid text below 2 ^ 31 bytes is converted as a whole. -/
theorem utf8ToWide_utf8 {cs : List Char} (h : (utf8 cs).length < 2 ^ 31) :
    utf8ToWide (utf8 cs) = utf16 cs := by
  have hwide := wideOf_utf8 cs []
  rw [List.append_nil, wideOf_nil, List.append_nil] at hwide
  rw [utf8ToWide, srcLen32_of_lt h, List.take_length]
  exact hwide

/-- A wide text below 2 ^ 31 units is converted as a whole. -/
theorem wideToUTF8_utf16 {cs : List Char} (h : (utf16 cs).length < 2 ^ 31) :
    wideToUTF8 (utf16 cs) = utf8 cs := by
  rw [wideToUTF8, srcLen32_of_lt h, List.take_length]
  exact utf8Of_utf16 cs

/-- The characters of an ASCII text are its bytes. -/
theorem wideOf_ascii {s : Str} (h : ∀ b ∈ s, b.toNat < 0x80) : wideOf s = s.map UInt8.toNat := by
  induction s with
  | nil => exact wideOf_nil
  | cons b s ih =>
    have hb : b.toNat < 0x80 := h b List.mem_cons_self
    have hread : readUnicodeCharacter8 b s = (some b.toNat, 0) := by
      have hvalid : isValidCodepoint b.toNat = true := by
        simp only [isValidCodepoint, Bool.or_eq_true, decide_eq_true_eq]
        omega
      simp [readUnicodeCharacter8, next8, Nat.not_le.mpr hb, hvalid]
    have hwrite : writeUnicodeCharacter16 b.toNat = [b.toNat] := if_pos (by omega)
    have hrest := ih fun c hc => h c (List.mem_cons_of_mem _ hc)
    rw [wideOf] at hrest ⊢
    rw [converUnicode]
    simp only [hread, Option.getD_some, hwrite, List.drop_zero]
    rw [hrest]
    rfl

/-- ASCII bytes are converted one by one. -/
theorem utf8ToWide_of_ascii {s : Str} (h : ∀ b ∈ s, b.toNat < 0x80) (hlen : s.length < 2 ^ 31) :
    utf8ToWide s = s.map UInt8.toNat := by
  rw [utf8ToWide, srcLen32_of_lt hlen, List.take_length]
  exact wideOf_ascii h

/-- The wide form has at most as many units as there are bytes. -/
theorem length_utf16_le (cs : List Char) : (utf16 cs).length ≤ (utf8 cs).length := by
  induction cs with
  | nil => exact Nat.le_refl _
  | cons c cs ih =>
    have hchar : (writeUnicodeCharacter16 c.toNat).length ≤ (String.utf8EncodeChar c).length := by
      unfold writeUnicodeCharacter16
      rcases utf8EncodeChar_cases c with ⟨h, henc⟩ | ⟨_, h, henc⟩ | ⟨_, h, henc⟩ | ⟨h, henc⟩ <;>
        rw [henc]
      · rw [if_pos (by omega)]; simp
      · rw [if_pos (by omega)]; simp
      · rw [if_pos (by omega)]; simp
      · rw [if_neg (by omega)]; simp
    rw [utf16_cons, utf8_cons, List.length_append, List.length_append]
    omega

/-- What `utf8_nextCharSafeBody` accepts has at least one trail byte. -/
theorem nextCharSafeBody_cases (b : UInt8) (rest : Str) :
    (nextCharSafeBody b rest).1 = none ∨
      (1 ≤ (nextCharSafeBody b rest).2 ∧ (nextCharSafeBody b rest).2 ≤ rest.length) := by
  unfold nextCharSafeBody
  dsimp only
  split_ifs with hle
  · cases hseq : sequence (b.toNat % 2 ^ (6 - countTrailBytes b)) (countTrailBytes b) rest with
    | none => exact Or.inl rfl
    | some c =>
      have hpos : 1 ≤ countTrailBytes b := by
        by_contra hzero
        have hzero : countTrailBytes b = 0 := by omega
        rw [hzero] at hseq
        simp [StringConversions.sequence] at hseq
      dsimp only
      split_ifs with hlegal
      · exact Or.inl rfl
      · exact Or.inr ⟨hpos, hle⟩
  · exact Or.inl rfl

/-- A code point that takes two wide characters has taken a trail byte. -/
theorem length_write_le (b : UInt8) (rest : Str) :
    (writeUnicodeCharacter16 ((readUnicodeCharacter8 b rest).1.getD 0xFFFD)).length
        + (rest.drop (readUnicodeCharacter8 b rest).2).length ≤ rest.length + 1 := by
  have hone : ∀ {v : Nat}, v ≤ 0xFFFF → (writeUnicodeCharacter16 v).length = 1 := by
    intro v hv
    rw [writeUnicodeCharacter16, if_pos hv]
    rfl
  have htwo : ∀ v : Nat, (writeUnicodeCharacter16 v).length ≤ 2 := by
    intro v
    unfold writeUnicodeCharacter16
    split_ifs <;> simp
  have hnone : ∀ k : Nat, (writeUnicodeCharacter16 ((none : Option Nat).getD 0xFFFD)).length
      + (rest.drop k).length ≤ rest.length + 1 := by
    intro k
    rw [hone (by decide), List.length_drop]
    omega
  unfold readUnicodeCharacter8 next8
  split_ifs with hhigh hlead
  -- Two units are written only for a sequence of at least two bytes.
  · rcases nextCharSafeBody_cases b rest with h | ⟨hpos, hle⟩
    · dsimp only
      rw [h]
      exact hnone _
    · have h := htwo (((nextCharSafeBody b rest).1.filter isValidCodepoint).getD 0xFFFD)
      rw [List.length_drop]
      dsimp only
      omega
  · exact hnone 0
  · have hsmall : ((some b.toNat).filter isValidCodepoint).getD 0xFFFD ≤ 0xFFFF := by
      have hb := b.toNat_lt
      cases hf : (some b.toNat).filter isValidCodepoint with
      | none => decide
      | some v =>
        have hv := (Option.filter_eq_some_iff.mp hf).1
        cases hv
        show b.toNat ≤ 0xFFFF
        omega
    rw [hone hsmall]
    simp
    omega

/-- A wide text has no more characters than the string has bytes. -/
theorem length_wideOf_le (s : Str) : (wideOf s).length ≤ s.length := by
  induction hn : s.length using Nat.strong_induction_on generalizing s with
  | _ n ih =>
    cases s with
    | nil => simp
    | cons b rest =>
      have hstep := length_write_le b rest
      have hrest := ih _ (by
        rw [← hn, List.length_cons, List.length_drop]
        omega) (rest.drop (readUnicodeCharacter8 b rest).2) rfl
      rw [wideOf, converUnicode]
      rw [wideOf] at hrest
      simp only [List.length_append, List.length_cons] at hn ⊢
      omega

/-- The length of the text `Deserialize` parses fits an `int`. -/
theorem utf8ToWide_length_lt (s : Str) : (utf8ToWide s).length < 2 ^ 31 := by
  have hlen := length_wideOf_le (s.take (srcLen32 s.length))
  have htake := List.length_take_le (srcLen32 s.length) s
  have hsrc := srcLen32_lt s.length
  show (wideOf _).length < 2 ^ 31
  omega

/-! ### A text that is cut short -/

/-- An encoded character is a lead byte with as many trail bytes as it announces. -/
theorem utf8EncodeChar_lead (c : Char) : ∃ b bs, String.utf8EncodeChar c = b :: bs ∧
    (bs ≠ [] → 0xC0 ≤ b.toNat ∧ b.toNat < 0xF8 ∧ countTrailBytes b = bs.length) ∧
    ∀ t ∈ bs, isTrail8 t = true := by
  have hvalid := char_valid c
  have htrail : ∀ n : Nat, isTrail8 (UInt8.ofNat (n % 64 + 0x80)) = true := fun n =>
    isTrail8_of_toNat (toNat_ofNat_add (by omega))
  -- A single byte has none behind it; the longer forms begin with their own range.
  rcases utf8EncodeChar_cases c with ⟨h, henc⟩ | ⟨hlo, hhi, henc⟩ | ⟨hlo, hhi, henc⟩ | ⟨hlo, henc⟩
  · exact ⟨_, _, henc, by simp, by simp⟩
  · have hb : (UInt8.ofNat (c.toNat / 64 + 0xC0)).toNat = 0xC0 + c.toNat / 64 :=
      toNat_ofNat_add (by omega)
    refine ⟨_, _, henc, fun _ => ⟨by omega, by omega, ?_⟩,
      by simp only [List.forall_mem_cons, htrail, true_and]; simp⟩
    rw [countTrailBytes, hb, if_neg (by omega), if_pos (by omega)]
    rfl
  · have hb : (UInt8.ofNat (c.toNat / 4096 + 0xE0)).toNat = 0xE0 + c.toNat / 4096 :=
      toNat_ofNat_add (by omega)
    refine ⟨_, _, henc, fun _ => ⟨by omega, by omega, ?_⟩,
      by simp only [List.forall_mem_cons, htrail, true_and]; simp⟩
    rw [countTrailBytes, hb, if_neg (by omega), if_neg (by omega), if_pos (by omega)]
    rfl
  · have hb : (UInt8.ofNat (c.toNat / 262144 + 0xF0)).toNat = 0xF0 + c.toNat / 262144 :=
      toNat_ofNat_add (by omega)
    refine ⟨_, _, henc, fun _ => ⟨by omega, by omega, ?_⟩,
      by simp only [List.forall_mem_cons, htrail, true_and]; simp⟩
    rw [countTrailBytes, hb, if_neg (by omega), if_neg (by omega), if_neg (by omega),
      if_pos (by omega)]
    rfl

/-- A lead byte with too few trail bytes behind it takes them all, and is invalid. -/
theorem wideOf_short {b : UInt8} {ts : Str} (hlo : 0xC0 ≤ b.toNat) (hhi : b.toNat < 0xF8)
    (hlen : ts.length < countTrailBytes b) (htrail : ∀ t ∈ ts, isTrail8 t = true) :
    wideOf (b :: ts) = [0xFFFD] := by
  have hisLead : isLead8 b = true := by
    simp only [isLead8, Bool.and_eq_true, decide_eq_true_eq]
    omega
  have hread : readUnicodeCharacter8 b ts = (none, ts.length) := by
    unfold readUnicodeCharacter8 next8 nextCharSafeBody
    dsimp only
    rw [if_pos (by omega), if_pos hisLead, if_neg (by omega),
      List.takeWhile_eq_self_iff.mpr htrail]
    rfl
  rw [wideOf, converUnicode, hread]
  simp only [List.drop_length]
  rw [converUnicode]
  rfl

/-- The start of an encoded character is an invalid one. -/
theorem wideOf_cut {c : Char} {k : Nat} (hk : k < (String.utf8EncodeChar c).length) :
    wideOf ((String.utf8EncodeChar c).take k) ⊆ [0xFFFD] := by
  obtain ⟨b, bs, henc, hlead, htrail⟩ := utf8EncodeChar_lead c
  rw [henc, List.length_cons] at hk
  rw [henc]
  cases k with
  | zero => simp
  | succ k =>
    have hne : bs ≠ [] := by
      rintro rfl
      simp at hk
    have hlead := hlead hne
    have hlen : (bs.take k).length < countTrailBytes b := by
      rw [List.length_take, hlead.2.2]
      omega
    rw [List.take_succ_cons, wideOf_short hlead.1 hlead.2.1 hlen
      fun t ht => htrail t (List.mem_of_mem_take ht)]
    exact List.Subset.refl _

/-- A valid text cut at a byte: the characters before the cut, and one invalid one
when the cut is inside a character. -/
structure CutText (cs : List Char) (w : WString) : Prop where
  parts : ∃ ds e es cut, cs = ds ++ e :: es ∧ cut ⊆ [0xFFFD] ∧ (e.toNat ≤ 0x7F → cut = []) ∧
    w = utf16 ds ++ cut

/-- A text that is cut is converted to the wide form of a shorter one, with U+FFFD for a character
that was cut apart. -/
theorem wideOf_take (cs : List Char) {k : Nat} (hk : k < (utf8 cs).length) :
    CutText cs (wideOf ((utf8 cs).take k)) := by
  induction cs generalizing k with
  | nil =>
    rw [utf8_nil] at hk
    exact absurd hk (Nat.not_lt_zero k)
  | cons c cs ih =>
    rw [utf8_cons] at hk ⊢
    by_cases hin : k < (String.utf8EncodeChar c).length
    · rw [List.take_append_of_le_length (Nat.le_of_lt hin)]
      refine ⟨[], c, cs, _, rfl, wideOf_cut hin, fun hascii => ?_, rfl⟩
      -- An ASCII character is one byte.
      rcases utf8EncodeChar_cases c with ⟨_, henc⟩ | ⟨h, _⟩ | ⟨h, _⟩ | ⟨h, _⟩
      · rw [henc, List.length_singleton] at hin
        rw [show k = 0 by omega, List.take_zero, wideOf_nil]
      all_goals omega
    · have hrest : k - (String.utf8EncodeChar c).length < (utf8 cs).length := by
        rw [List.length_append] at hk
        omega
      obtain ⟨ds, e, es, cut, rfl, hcut, hascii, htake⟩ := ih hrest
      refine ⟨c :: ds, e, es, cut, rfl, hcut, hascii, ?_⟩
      rw [List.take_append, List.take_of_length_le (Nat.not_lt.mp hin), wideOf_char, htake,
        utf16_cons, List.append_assoc]

/-- What `UTF8ToWide` gives for a valid text whose length does not fit an `int32`. -/
theorem utf8ToWide_long {cs : List Char} (h : 2 ^ 31 ≤ (utf8 cs).length) :
    CutText cs (utf8ToWide (utf8 cs)) := by
  refine wideOf_take cs ?_
  unfold srcLen32
  split_ifs <;> omega

/-! ### UTF-16 loses nothing -/

/-- A code unit of a character is the character, or a surrogate. -/
theorem mem_writeUnicodeCharacter16 {c : Char} {x : Nat}
    (h : x ∈ writeUnicodeCharacter16 c.toNat) : x = c.toNat ∨ 0xD800 ≤ x ∧ x < 0xE000 := by
  have hvalid := char_valid c
  unfold writeUnicodeCharacter16 at h
  split_ifs at h with hbmp
  · exact Or.inl (List.mem_singleton.mp h)
  · have hx : x = c.toNat / 0x400 + 0xD7C0 ∨ x = c.toNat % 0x400 + 0xDC00 := by simpa using h
    omega

/-- An ASCII character is in the wide form exactly if it is in the text. -/
theorem ascii_mem_utf16 {c : Char} {cs : List Char} (hc : c.toNat < 0x80) :
    c.toNat ∈ utf16 cs ↔ c ∈ cs := by
  constructor
  · intro h
    obtain ⟨d, hd, hmem⟩ := List.mem_flatMap.mp h
    rcases mem_writeUnicodeCharacter16 hmem with heq | hrange
    · rwa [Char.toNat_inj.mp heq]
    · omega
  · intro h
    refine List.mem_flatMap.mpr ⟨c, h, ?_⟩
    rw [writeUnicodeCharacter16, if_pos (by omega)]
    exact List.mem_singleton_self _

/-- One character in front is told from the units. -/
theorem writeUnicodeCharacter16_prefix {c d : Char} {x y : WString}
    (h : writeUnicodeCharacter16 c.toNat ++ x <+: writeUnicodeCharacter16 d.toNat ++ y) :
    c = d ∧ x <+: y := by
  have hc := char_valid c
  have hd := char_valid d
  unfold writeUnicodeCharacter16 at h
  split_ifs at h with hbmp hbmp' hbmp'
  · simp only [List.singleton_append, List.cons_prefix_cons] at h
    exact ⟨Char.toNat_inj.mp h.1, h.2⟩
  · -- A surrogate is no character.
    simp only [List.cons_append, List.nil_append, List.cons_prefix_cons] at h
    have hhead : c.toNat = d.toNat / 0x400 + 0xD7C0 := h.1
    omega
  · simp only [List.cons_append, List.nil_append, List.cons_prefix_cons] at h
    have hhead : c.toNat / 0x400 + 0xD7C0 = d.toNat := h.1
    omega
  · simp only [List.cons_append, List.nil_append, List.cons_prefix_cons] at h
    have hlead : c.toNat / 0x400 + 0xD7C0 = d.toNat / 0x400 + 0xD7C0 := h.1
    have htrail : c.toNat % 0x400 + 0xDC00 = d.toNat % 0x400 + 0xDC00 := h.2.1
    exact ⟨Char.toNat_inj.mp (by omega), h.2.2⟩

/-- One wide form begins another exactly if its text begins the other text. -/
theorem utf16_prefix {as bs : List Char} : utf16 as <+: utf16 bs ↔ as <+: bs := by
  constructor
  · intro h
    induction as generalizing bs with
    | nil => exact List.nil_prefix
    | cons a as ih =>
      cases bs with
      | nil =>
        have hlen := h.length_le
        rw [utf16_cons, List.length_append] at hlen
        unfold writeUnicodeCharacter16 at hlen
        split_ifs at hlen <;> simp at hlen
      | cons b bs =>
        obtain ⟨rfl, hrest⟩ := writeUnicodeCharacter16_prefix h
        exact List.cons_prefix_cons.mpr ⟨rfl, ih hrest⟩
  · rintro ⟨cs, rfl⟩
    rw [utf16_append]
    exact List.prefix_append _ _

/-- Different texts have different wide forms. -/
theorem utf16_injective {as bs : List Char} (h : utf16 as = utf16 bs) : as = bs := by
  have hle : as <+: bs := utf16_prefix.mp (h ▸ List.prefix_rfl)
  have hge : bs <+: as := utf16_prefix.mp (h ▸ List.prefix_rfl)
  exact hle.eq_of_length (le_antisymm hle.length_le hge.length_le)

end Mylib.Proofs.Base
