import Mylib.Proofs.Base.StringLiteral

/-!
# `Mylib.Proofs.Base.JsonEmits`: the pieces of an emitted text

What the writer appends, piece by piece, as texts of the grammar: blanks, integers
with their padding, string literals, and the items of a container between their
separators. `Emits s w` says that the bytes `s` are the UTF-8 form of the wide text
`w`, so the pieces can be put together before anything is converted.
-/

set_option autoImplicit false

namespace Mylib.Proofs.Base

open Mylib.Spec.Base
open JsonValueSerializer JsonGrammar StringConversions StringUtil StringEscape

/-- The bytes `s` and the wide text `w` are the same characters, none of them a
zero. -/
def Emits (s : Str) (w : WString) : Prop := ∃ cs, s = utf8 cs ∧ w = utf16 cs ∧ '\x00' ∉ cs

/-- Nothing is emitted for nothing. -/
theorem Emits.nil : Emits [] [] := ⟨[], rfl, rfl, List.not_mem_nil⟩

/-- Two pieces of output are one. -/
theorem Emits.append {s s' : Str} {w w' : WString} (h : Emits s w) (h' : Emits s' w') :
    Emits (s ++ s') (w ++ w') := by
  obtain ⟨cs, rfl, rfl, hz⟩ := h
  obtain ⟨ds, rfl, rfl, hz'⟩ := h'
  refine ⟨cs ++ ds, (utf8_append cs ds).symm, (utf16_append cs ds).symm, ?_⟩
  rw [List.mem_append, not_or]
  exact ⟨hz, hz'⟩

/-- No zero is emitted. -/
theorem Emits.nulFree {s : Str} {w : WString} (h : Emits s w) : 0 ∉ w := by
  obtain ⟨cs, -, rfl, hz⟩ := h
  rwa [zero_mem_utf16]

/-- An ASCII character other than zero. -/
def isAscii (c : Char) : Bool := 0 < c.toNat && c.toNat ≤ 0x7F

/-- The codes of ASCII characters other than zero. -/
theorem toNat_of_isAscii {cs : List Char} (h : cs.all isAscii = true) :
    ∀ c ∈ cs, 0 < c.toNat ∧ c.toNat ≤ 0x7F := by
  intro c hc
  simpa [isAscii] using List.all_eq_true.mp h c hc

/-- The text of a literal in the source has no zero. -/
theorem nul_not_mem_ascii {cs : List Char} (h : cs.all isAscii = true) : '\x00' ∉ cs := fun hz =>
  absurd (toNat_of_isAscii h _ hz).1 (by decide)

/-- An ASCII text has one byte for each character. -/
theorem utf8_ascii {cs : List Char} (h : cs.all isAscii = true) : utf8 cs = text cs := by
  induction cs with
  | nil => rfl
  | cons c cs ih =>
    have hc := (toNat_of_isAscii h c List.mem_cons_self).2
    rw [utf8_cons, ih (Bool.and_eq_true_iff.mp h).2]
    rcases utf8EncodeChar_cases c with ⟨_, henc⟩ | ⟨hlo, _⟩ | ⟨hlo, _⟩ | ⟨hlo, _⟩
    · rw [henc]
      rfl
    all_goals exact absurd hc (by omega)

/-- An ASCII text has one wide unit for each character. -/
theorem utf16_ascii {cs : List Char} (h : cs.all isAscii = true) : utf16 cs = wide cs := by
  induction cs with
  | nil => rfl
  | cons c cs ih =>
    have hc := (toNat_of_isAscii h c List.mem_cons_self).2
    have hwide : writeUnicodeCharacter16 c.toNat = [c.toNat] := if_pos (by omega)
    rw [utf16_cons, ih (Bool.and_eq_true_iff.mp h).2, hwide]
    rfl

/-- A text of ASCII characters is its own encoding, both ways. -/
theorem emits_text {cs : List Char} (h : cs.all isAscii = true) : Emits (text cs) (wide cs) :=
  ⟨cs, (utf8_ascii h).symm, (utf16_ascii h).symm, nul_not_mem_ascii h⟩

/-! ### Blanks -/

/-- Blanks are a gap. -/
theorem gap_of_blanks {g : WString} (h : ∀ c ∈ g, Blank c) : Gap g := by
  induction g with
  | nil => exact Gap.nil
  | cons c g ih =>
    exact Gap.blank (h c List.mem_cons_self) (ih fun d hd => h d (List.mem_cons_of_mem _ hd))

/-- Text that stands between tokens. -/
structure EmitsGap (s : Str) (g : WString) : Prop where
  emits : Emits s g
  gap : Gap g

/-- Nothing is a gap. -/
theorem EmitsGap.nil : EmitsGap [] [] := ⟨Emits.nil, Gap.nil⟩

/-- Two gaps are one. -/
theorem EmitsGap.append {s s' : Str} {g g' : WString} (h : EmitsGap s g) (h' : EmitsGap s' g') :
    EmitsGap (s ++ s') (g ++ g') :=
  ⟨h.emits.append h'.emits, gap_append h.gap h'.gap⟩

/-- The blanks the writer uses. -/
def isFiller (c : Char) : Bool := c == ' ' || c == '\n'

/-- A text of blanks and line breaks, as the pretty printer puts in. -/
theorem emitsGap_text {cs : List Char} (h : cs.all isFiller = true) :
    EmitsGap (text cs) (wide cs) := by
  have hfiller : ∀ c ∈ cs, c = ' ' ∨ c = '\n' := by
    intro c hc
    simpa [isFiller] using List.all_eq_true.mp h c hc
  constructor
  · refine emits_text (List.all_eq_true.mpr fun c hc => ?_)
    rcases hfiller c hc with rfl | rfl <;> rfl
  · refine gap_of_blanks fun x hx => ?_
    obtain ⟨c, hc, rfl⟩ := List.mem_map.mp hx
    rcases hfiller c hc with rfl | rfl <;> decide

/-- The writer's indentation and its padding. -/
theorem emitsGap_replicate (n : Nat) : ∃ g, EmitsGap (List.replicate n 32) g := by
  have htext : text (List.replicate n ' ') = List.replicate n 32 := List.map_replicate
  have h : EmitsGap (text (List.replicate n ' ')) _ :=
    emitsGap_text (List.all_eq_true.mpr fun c hc => by rw [List.eq_of_mem_replicate hc]; rfl)
  exact ⟨_, htext ▸ h⟩

/-! ### Integers -/

/-- The characters of a printed number are digits of the grammar. -/
theorem isDigit_toDigits {n : Nat} {c : Char} (h : c ∈ Nat.toDigits 10 n) :
    JsonValueSerializer.isDigit c.toNat ∧ isAscii c = true := by
  have hdigit := Nat.isDigit_of_mem_toDigits (by decide) (by decide) h
  have hbounds : 48 ≤ c.toNat ∧ c.toNat ≤ 57 := by
    simpa [Char.isDigit, UInt32.le_iff_toNat_le] using hdigit
  constructor
  · unfold JsonValueSerializer.isDigit
    simpa using hbounds
  · simp only [isAscii, Bool.and_eq_true, decide_eq_true_eq]
    omega

/-- A positive number is written without a leading zero. -/
theorem head_toDigits {n : Nat} (h : 0 < n) : (Nat.toDigits 10 n).head? ≠ some '0' := by
  induction n using Nat.base_induction 10 (by decide) with
  | single m hm =>
    intro hhead
    rw [Nat.toDigits_of_lt_base hm] at hhead
    have hchar : m.digitChar = '0' := Option.some.inj hhead
    have hnat := Nat.toNat_digitChar_of_lt_ten hm
    rw [hchar, show ('0').toNat = 48 from rfl] at hnat
    omega
  | digit m k hk hm ih =>
    rw [← Nat.toDigits_append_toDigits (by decide) hm hk,
      List.head?_append_of_ne_nil _ Nat.toDigits_ne_nil]
    exact ih hm

/-- A printed number has no leading zeros, as the grammar asks. -/
theorem wholeText_toDigits (n : Nat) : WholeText (wide (Nat.toDigits 10 n)) := by
  refine ⟨⟨?_, fun x hx => ?_⟩, fun hlen => ?_⟩
  · simp [wide]
  · obtain ⟨c, hc, rfl⟩ := List.mem_map.mp hx
    exact (isDigit_toDigits hc).1
  · cases n with
    | zero => simp [wide] at hlen
    | succ n =>
      intro hhead
      unfold wide at hhead
      rw [List.head?_map] at hhead
      obtain ⟨c, hc, hzero⟩ := Option.map_eq_some_iff.mp hhead
      exact head_toDigits (Nat.succ_pos n) (hc.trans (congrArg some (Char.toNat_inj.mp hzero)))

/-- The literal the writer prints for `n`. -/
def intNumber (n : Int) : Number where
  negative := n < 0
  whole := wide (Nat.toDigits 10 n.natAbs)
  frac := []
  exp := []
  whole_text := wholeText_toDigits n.natAbs
  frac_text := Or.inl rfl
  exp_text := Or.inl rfl

/-- The number that is made of a printed integer has its value. -/
theorem wholeValue_intNumber (n : Int) : (intNumber n).wholeValue = n := by
  have hdigits : (wide (Nat.toDigits 10 n.natAbs)).foldl (fun m c => 10 * m + (c - '0'.toNat)) 0
      = n.natAbs := by
    unfold wide
    rw [List.foldl_map]
    exact Nat.ofDigitChars_ten_toDigits
  show (if (decide (n < 0)) = true then -(_ : Int) else _) = n
  rw [show (intNumber n).whole = wide (Nat.toDigits 10 n.natAbs) from rfl, hdigits]
  split_ifs with hneg
  · have hneg := of_decide_eq_true hneg
    omega
  · have hneg := of_decide_eq_false (Bool.eq_false_iff.mpr hneg)
    omega

/-- An integer is emitted as the text of its number. -/
theorem emits_signedDecimal (n : Int) : Emits (signedDecimal n) (intNumber n).text := by
  have hdigits : Emits (decimal n.natAbs) (wide (Nat.toDigits 10 n.natAbs)) :=
    emits_text (List.all_eq_true.mpr fun c hc => (isDigit_toDigits hc).2)
  have htext : (intNumber n).text
      = (if n < 0 then wide ['-'] else []) ++ wide (Nat.toDigits 10 n.natAbs) := by
    simp [Number.text, Number.sign, intNumber]
  rw [htext]
  unfold signedDecimal
  split_ifs with hneg
  · exact (emits_text rfl).append hdigits
  · exact hdigits

section

variable {D : Type} (F : Doubles D)

/-- An integer of 64 bits is read back from what the writer prints for it. -/
theorem denote_intNumber {n : Int} (hlo : -2 ^ 63 ≤ n) (hhi : n < 2 ^ 63) :
    (intNumber n).denote F = some (.bigInteger (Int64.ofInt n)) := by
  have hint : (intNumber n).int64 = some (Int64.ofInt n) := by
    unfold Number.int64
    rw [wholeValue_intNumber, if_pos ⟨rfl, rfl, hlo, hhi⟩]
  unfold Number.denote
  rw [hint]

end

/-- Padding is a gap before the number. -/
theorem emits_formatInt (width : Nat) (n : Int) :
    ∃ g, Gap g ∧ Emits (formatInt width n) (g ++ (intNumber n).text) := by
  obtain ⟨g, hg⟩ := emitsGap_replicate (width - (signedDecimal n).length)
  exact ⟨g, hg.gap, hg.emits.append (emits_signedDecimal n)⟩

/-! ### Strings and keys -/

/-- A string without a quote and a zero, in its literal. -/
theorem emits_jsonDoubleQuote {cs : List Char} (hquote : '"' ∉ cs) (hz : '\x00' ∉ cs) :
    Emits (jsonDoubleQuote (utf8 cs) true) (quoted (utf16 (escapeChars cs))) ∧
      Chars (utf16 (escapeChars cs)) (utf16 cs) := by
  refine ⟨⟨literalChars cs, jsonDoubleQuote_utf8 cs, (utf16_literalChars cs).symm, ?_⟩,
    chars_escapeChars hquote⟩
  have hinner : '\x00' ∉ escapeChars cs := by rwa [nul_mem_escapeChars]
  simpa [literalChars] using hinner

/-- A key of ASCII characters without a zero and a double quote. -/
def PlainKey (key : WString) : Prop := ∀ c ∈ key, 0 < c ∧ c < 0x80 ∧ c ≠ '"'.toNat

instance (key : WString) : Decidable (PlainKey key) :=
  inferInstanceAs (Decidable (∀ c ∈ key, _))

/-- A plain key is a text of ASCII characters. -/
theorem exists_chars_of_plainKey {key : WString} (h : PlainKey key) :
    ∃ cs, key = wide cs ∧ cs.all isAscii = true ∧ '"' ∉ cs := by
  induction key with
  | nil => exact ⟨[], rfl, rfl, List.not_mem_nil⟩
  | cons x key ih =>
    obtain ⟨cs, rfl, hascii, hquote⟩ := ih fun c hc => h c (List.mem_cons_of_mem _ hc)
    obtain ⟨hpos, hlt, hne⟩ := h x List.mem_cons_self
    obtain ⟨c, rfl⟩ : ∃ c : Char, c.toNat = x :=
      ⟨Char.ofNatAux x (Or.inl (lt_trans hlt (by decide))), rfl⟩
    refine ⟨c :: cs, rfl, ?_, ?_⟩
    · have hc : isAscii c = true := by
        simp only [isAscii, Bool.and_eq_true, decide_eq_true_eq]
        exact ⟨hpos, Nat.le_of_lt_succ hlt⟩
      rw [List.all_cons, hc, hascii]
      rfl
    · rw [List.mem_cons, not_or]
      exact ⟨fun h => hne (by rw [h]), hquote⟩

/-- The literal of a plain key, and the key it is read back as. -/
theorem emits_key {key : WString} (h : PlainKey key) :
    ∃ t w, Emits (jsonDoubleQuote (wideToASCII key) true) (quoted t) ∧ Chars t w ∧
      ((jsonDoubleQuote (wideToASCII key) true).length < 2 ^ 31 → keyOf w = key) := by
  obtain ⟨cs, rfl, hascii, hquote⟩ := exists_chars_of_plainKey h
  have hbytes : wideToASCII (wide cs) = utf8 cs := by
    rw [utf8_ascii hascii]
    exact List.map_map
  obtain ⟨hemits, hchars⟩ :=
    emits_jsonDoubleQuote hquote (nul_not_mem_ascii hascii)
  rw [hbytes]
  refine ⟨_, _, hemits, hchars, fun hlen => ?_⟩
  rw [length_jsonDoubleQuote] at hlen
  have hle := length_utf16_le cs
  unfold keyOf
  rw [wideToUTF8_utf16 (by omega), utf8ToWide_utf8 (by omega), utf16_ascii hascii]

/-! ### The items of a container -/

section

variable {α β : Type}

/-- The texts of the items with `sep` before each but the first. -/
def joined (sep : Str) (emit : α → Str) : List α → Str
  | [] => []
  | a :: as => emit a ++ as.flatMap fun a => sep ++ emit a

/-- The items and one separator between any two of them. -/
theorem length_joined (sep : Str) (emit : α → Str) (as : List α) :
    (joined sep emit as).length
      = (as.map fun a => (emit a).length).sum + (as.length - 1) * sep.length := by
  have hrest : ∀ as : List α, (as.flatMap fun a => sep ++ emit a).length
      = (as.map fun a => (emit a).length).sum + as.length * sep.length := by
    intro as
    induction as with
    | nil => simp
    | cons a as ih =>
      rw [List.flatMap_cons, List.length_append, ih, List.map_cons, List.sum_cons,
        List.length_cons, List.length_append, Nat.succ_mul]
      omega
  cases as with
  | nil => simp [joined]
  | cons a as =>
    rw [joined, List.length_append, hrest, List.map_cons, List.sum_cons, List.length_cons,
      Nat.add_sub_cancel]
    omega

/-- What the writer emits for `a` is an item's text behind a gap, and stands for
`denote a` as long as its length fits an `int32`. -/
def EmitsItem (emit : α → Str) (denote : α → β) (item : WString → β → Prop) (a : α) : Prop :=
  ∃ g t b, Emits (emit a) (g ++ t) ∧ Gap g ∧ item t b ∧
    ((emit a).length < 2 ^ 31 → b = denote a)

variable {emit : α → Str} {denote : α → β} {item : WString → β → Prop} {close : WChar}
variable {sep tail : Str} {g' : WString}

/-- Behind the first item, what is emitted for the others is separated by commas. By induction on
the list. -/
theorem emits_moreItems (hsep : Emits sep (','.toNat :: g')) (hg' : Gap g')
    {g : WString} (htail : Emits tail (g ++ [close])) (hg : Gap g) {as : List α}
    (h : ∀ a ∈ as, EmitsItem emit denote item a) :
    ∃ u bs, Emits ((as.flatMap fun a => sep ++ emit a) ++ tail) u ∧ MoreItems item close u bs ∧
      ((as.flatMap fun a => sep ++ emit a).length < 2 ^ 31 → bs = as.map denote) := by
  induction as with
  | nil => exact ⟨_, [], htail, MoreItems.close hg, fun _ => rfl⟩
  | cons a as ih =>
    obtain ⟨u, bs, hu, hmore, hbs⟩ := ih fun b hb => h b (List.mem_cons_of_mem _ hb)
    obtain ⟨ga, t, b, hemits, hga, hitem, hb⟩ := h a List.mem_cons_self
    refine ⟨_, b :: bs, ?_, MoreItems.next Gap.nil (gap_append hg' hga) hitem hmore, fun hlen => ?_⟩
    · have hall := (hsep.append hemits).append hu
      simpa only [List.flatMap_cons, List.append_assoc, List.cons_append, List.nil_append]
        using hall
    · simp only [List.flatMap_cons, List.length_append] at hlen
      rw [hb (by omega), hbs (by omega), List.map_cons]

/-- A whole container: the opening, the items and the end. -/
theorem emits_items (hsep : Emits sep (','.toNat :: g')) (hg' : Gap g')
    {opening : Str} {g₀ : WString} (hopening : EmitsGap opening g₀)
    {g : WString} (htail : Emits tail (g ++ [close])) (hg : Gap g) {as : List α}
    (h : ∀ a ∈ as, EmitsItem emit denote item a) :
    ∃ u bs, Emits (opening ++ joined sep emit as ++ tail) u ∧ Items item close u bs ∧
      ((joined sep emit as).length < 2 ^ 31 → bs = as.map denote) := by
  cases as with
  | nil =>
    refine ⟨_, [], ?_, Items.empty (gap_append hopening.gap hg), fun _ => rfl⟩
    have hall := hopening.emits.append htail
    simpa only [joined, List.append_assoc, List.append_nil] using hall
  | cons a as =>
    obtain ⟨u, bs, hu, hmore, hbs⟩ :=
      emits_moreItems hsep hg' htail hg fun b hb => h b (List.mem_cons_of_mem _ hb)
    obtain ⟨ga, t, b, hemits, hga, hitem, hb⟩ := h a List.mem_cons_self
    refine ⟨_, b :: bs, ?_, Items.items (gap_append hopening.gap hga) hitem hmore, fun hlen => ?_⟩
    · have hall := (hopening.emits.append hemits).append hu
      simpa only [joined, List.append_assoc] using hall
    · simp only [joined, List.length_append] at hlen
      rw [hb (by omega), hbs (by omega), List.map_cons]

end

end Mylib.Proofs.Base
