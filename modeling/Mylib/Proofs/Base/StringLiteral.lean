import Mylib.Proofs.Base.JsonScalars
import Mylib.Proofs.Base.Unicode
import Mylib.Spec.Base.JsonWriter

/-!
# `Mylib.Proofs.Base.StringLiteral`: the literal of a string, written and read back

`JsonDoubleQuote` against `ParseStringToken` and `DecodeString`. The two halves agree
on a string without a double quote, which the writer does not escape, and without a
zero, at which the scanner stops, as long as the literal's length fits an `int32`
(`faithful_iff`).

The escapes are first moved from bytes to characters (`utf8_quoteChar`); what the
literal decodes to is then a fact about characters alone.
-/

set_option autoImplicit false

namespace Mylib.Proofs.Base

open Mylib.Lib.CString
open Mylib.Spec.Base
open JsonValueSerializer JsonGrammar StringConversions StringEscape

/-! ### The writer's escapes, on characters -/

/-- The characters the writer puts a backslash before, with the letter behind it. -/
def escapeLetters : List (Char × Char) :=
  [('\x08', 'b'), ('\x0C', 'f'), ('\n', 'n'), ('\r', 'r'), ('\t', 't'), ('\\', '\\')]

def escapeChar (c : Char) : List Char :=
  match escapeLetters.lookup c with
  | some e => ['\\', e]
  | none => [c]

/-- The inside of the literal of `cs`. -/
def escapeChars (cs : List Char) : List Char := cs.flatMap escapeChar

/-- The characters are written one by one. -/
@[simp]
theorem escapeChars_cons (c : Char) (cs : List Char) :
    escapeChars (c :: cs) = escapeChar c ++ escapeChars cs := rfl

/-- Two texts are written one behind the other. -/
theorem escapeChars_append (cs ds : List Char) :
    escapeChars (cs ++ ds) = escapeChars cs ++ escapeChars ds :=
  List.flatMap_append

/-- A character is escaped with a letter both sides know, or stays as it is. -/
theorem escapeChar_cases (c : Char) :
    (∃ e, (c, e) ∈ escapeLetters ∧ escapeChar c = ['\\', e]) ∨
      (c ≠ '\\' ∧ (∀ e, (c, e) ∉ escapeLetters) ∧ escapeChar c = [c]) := by
  unfold escapeChar
  cases h : escapeLetters.lookup c with
  | some e =>
    refine Or.inl ⟨e, ?_, rfl⟩
    obtain ⟨l, l', hl, -⟩ := List.lookup_eq_some_iff.mp h
    rw [hl]
    simp
  | none =>
    have hne := List.lookup_eq_none_iff.mp h
    have hmem : ∀ e, (c, e) ∉ escapeLetters := by
      intro e he
      simpa using hne _ he
    refine Or.inr ⟨?_, hmem, rfl⟩
    rintro rfl
    exact hmem '\\' (by decide)

/-- Both tables agree on the escapes the writer uses. -/
theorem escapeLetters_shortEscapes {c e : Char} (h : (c, e) ∈ escapeLetters) :
    (e.toNat, c.toNat) ∈ shortEscapes ∧ c.toNat ≠ '"'.toNat ∧ c.toNat ≤ 0x7F ∧
      e.toNat ≤ 0x7F := by
  simp only [escapeLetters, List.mem_cons, Prod.mk.injEq, List.not_mem_nil, or_false] at h
  rcases h with h | h | h | h | h | h <;> obtain ⟨rfl, rfl⟩ := h <;> decide

/-- Every character is written as something. -/
theorem escapeChar_ne_nil (c : Char) : escapeChar c ≠ [] := by
  rcases escapeChar_cases c with ⟨e, -, h⟩ | ⟨-, -, h⟩ <;> rw [h] <;> simp

/-- Only the empty text is written as nothing. -/
theorem escapeChars_eq_nil {cs : List Char} (h : escapeChars cs = []) : cs = [] := by
  cases cs with
  | nil => rfl
  | cons c cs => exact absurd (List.append_eq_nil_iff.mp h).1 (escapeChar_ne_nil c)

/-! ### Bytes and characters -/

/-- An ASCII byte of an encoded character is the character. -/
theorem toNat_eq_of_mem_utf8EncodeChar {c : Char} {b : UInt8} (hb : b ∈ String.utf8EncodeChar c)
    (hascii : b.toNat < 0x80) : c.toNat = b.toNat ∧ String.utf8EncodeChar c = [b] := by
  have hvalid := char_valid c
  -- The bytes of a longer sequence are not ASCII.
  have hlead : ∀ {n k : Nat}, n + k < 256 → 0x80 ≤ k → b ≠ UInt8.ofNat (n + k) := by
    rintro n k hlt hk rfl
    rw [toNat_ofNat_add hlt] at hascii
    omega
  rcases utf8EncodeChar_cases c with ⟨h, henc⟩ | ⟨hlo, hhi, henc⟩ | ⟨hlo, hhi, henc⟩ | ⟨hlo, henc⟩
  -- A character of one byte is that byte.
  · rw [henc, List.mem_singleton] at hb
    subst hb
    refine ⟨?_, henc⟩
    rw [UInt8.toNat_ofNat']
    omega
  all_goals
    rw [henc] at hb
    simp only [List.mem_cons, List.not_mem_nil, or_false] at hb
    exfalso
    revert hb
    simp only [imp_false, not_or]
    repeat' constructor
    all_goals exact hlead (by omega) (by omega)

/-- An ASCII byte stands in a valid text where its character does. -/
theorem mem_utf8_iff {cs : List Char} {b : UInt8} {c : Char} (hc : c.toNat = b.toNat)
    (hascii : b.toNat < 0x80) : b ∈ utf8 cs ↔ c ∈ cs := by
  unfold utf8
  rw [List.mem_flatMap]
  constructor
  · rintro ⟨d, hd, hb⟩
    have hdb := (toNat_eq_of_mem_utf8EncodeChar hb hascii).1
    rwa [Char.toNat_inj.mp (hc.trans hdb.symm)]
  · intro h
    refine ⟨c, h, ?_⟩
    rcases utf8EncodeChar_cases c with ⟨_, henc⟩ | ⟨hlo, _⟩ | ⟨hlo, _⟩ | ⟨hlo, _⟩
    · rw [henc, hc, UInt8.ofNat_toNat]
      exact List.mem_singleton_self b
    all_goals omega

/-- The bytes with an escape of two characters. -/
def escaped (b : UInt8) : Bool := b.toNat ∈ [0x08, 0x0C, 0x0A, 0x0D, 0x09, 0x5C]

/-- Bytes that need no escape stay as they are. -/
theorem quoteChar_of_not_escaped {b : UInt8} (h : escaped b = false) : quoteChar b = [b] := by
  simp only [escaped, List.mem_cons, List.not_mem_nil, or_false, decide_eq_false_iff_not,
    not_or] at h
  unfold quoteChar singleEscapeChar
  rw [if_neg h.1, if_neg h.2.1, if_neg h.2.2.1, if_neg h.2.2.2.1, if_neg h.2.2.2.2.1,
    if_neg (show ¬b.toNat = '\\'.toNat from h.2.2.2.2.2)]
  by_cases hquote : b.toNat = '"'.toNat
  · rw [if_pos hquote]
    obtain rfl : b = 34 := UInt8.toNat_inj.mp hquote
    rfl
  · rw [if_neg hquote]
    rfl

/-- An escape takes one byte more. -/
theorem length_quoteChar (b : UInt8) :
    (quoteChar b).length = 1 + if escaped b then 1 else 0 := by
  cases h : escaped b with
  | false => rw [quoteChar_of_not_escaped h]; rfl
  | true =>
    simp only [escaped, List.mem_cons, List.not_mem_nil, or_false, decide_eq_true_eq] at h
    unfold quoteChar singleEscapeChar
    rcases h with h | h | h | h | h | h <;> rw [h] <;> rfl

/-- The size of a literal: one byte more for every escape, and two quotes. -/
theorem length_jsonDoubleQuote (s : Str) :
    (jsonDoubleQuote s true).length = s.length + s.countP escaped + 2 := by
  have hflat : (s.flatMap quoteChar).length = s.length + s.countP escaped := by
    induction s with
    | nil => rfl
    | cons b s ih =>
      rw [List.flatMap_cons, List.length_append, ih, length_quoteChar, List.countP_cons,
        List.length_cons]
      omega
  show ([34] ++ s.flatMap quoteChar ++ [34] : Str).length = _
  rw [List.length_append, List.length_append, hflat]
  simp
  omega

/-- Escaping the bytes of a character is encoding the escaped character. -/
theorem utf8_quoteChar (c : Char) :
    (String.utf8EncodeChar c).flatMap quoteChar = utf8 (escapeChar c) := by
  rcases escapeChar_cases c with ⟨e, he, hc⟩ | ⟨-, hne, hc⟩
  -- One of the escaped characters, each of one byte.
  · rw [hc]
    simp only [escapeLetters, List.mem_cons, Prod.mk.injEq, List.not_mem_nil, or_false] at he
    rcases he with h | h | h | h | h | h <;> obtain ⟨rfl, rfl⟩ := h <;> decide
  -- No byte of any other character is escaped: an escaped byte is ASCII, so it would be the
  -- character.
  · have hraw : ∀ b ∈ String.utf8EncodeChar c, quoteChar b = [b] := by
      intro b hb
      refine quoteChar_of_not_escaped ?_
      by_contra hesc
      simp only [escaped, List.mem_cons, List.not_mem_nil, or_false, Bool.not_eq_false,
        decide_eq_true_eq] at hesc
      have hcb := (toNat_eq_of_mem_utf8EncodeChar hb (by omega)).1
      have hletter : ∃ e, (c, e) ∈ escapeLetters := by
        rcases hesc with h | h | h | h | h | h <;> rw [h] at hcb
        · exact ⟨'b', by rw [show c = '\x08' from Char.toNat_inj.mp hcb]; decide⟩
        · exact ⟨'f', by rw [show c = '\x0C' from Char.toNat_inj.mp hcb]; decide⟩
        · exact ⟨'n', by rw [show c = '\n' from Char.toNat_inj.mp hcb]; decide⟩
        · exact ⟨'r', by rw [show c = '\r' from Char.toNat_inj.mp hcb]; decide⟩
        · exact ⟨'t', by rw [show c = '\t' from Char.toNat_inj.mp hcb]; decide⟩
        · exact ⟨'\\', by rw [show c = '\\' from Char.toNat_inj.mp hcb]; decide⟩
      exact hne hletter.choose hletter.choose_spec
    rw [hc, List.flatMap_congr hraw, List.flatMap_singleton']
    simp

/-- The characters of the literal. -/
def literalChars (cs : List Char) : List Char := '"' :: (escapeChars cs ++ ['"'])

/-- Quoting byte by byte is quoting character by character, since all escaped bytes are ASCII. -/
theorem jsonDoubleQuote_utf8 (cs : List Char) :
    jsonDoubleQuote (utf8 cs) true = utf8 (literalChars cs) := by
  have hinner : (utf8 cs).flatMap quoteChar = utf8 (escapeChars cs) := by
    induction cs with
    | nil => rfl
    | cons c cs ih =>
      rw [utf8_cons, List.flatMap_append, ih, utf8_quoteChar, escapeChars_cons, utf8_append]
  show [34] ++ (utf8 cs).flatMap quoteChar ++ [34] = _
  rw [hinner, literalChars, utf8_cons, utf8_append]
  rfl

/-- In its wide form a literal stands between quotes. -/
theorem utf16_literalChars (cs : List Char) :
    utf16 (literalChars cs) = quoted (utf16 (escapeChars cs)) := by
  rw [literalChars, utf16_cons, utf16_append]
  rfl

/-! ### What the literal stands for -/

/-- The wide characters of a character that is neither a quote nor a backslash are
neither. -/
theorem raw_writeUnicodeCharacter16 {c : Char} (hquote : c ≠ '"') (hback : c ≠ '\\') :
    ∀ x ∈ writeUnicodeCharacter16 c.toNat, x ≠ '"'.toNat ∧ x ≠ '\\'.toNat := by
  intro x hx
  unfold writeUnicodeCharacter16 at hx
  split_ifs at hx with hbmp
  · rw [List.mem_singleton] at hx
    subst hx
    exact ⟨fun h => hquote (Char.toNat_inj.mp h), fun h => hback (Char.toNat_inj.mp h)⟩
  · have hge : (0x80 : Nat) ≤ x := by
      simp only [List.mem_cons, List.not_mem_nil, or_false] at hx
      rcases hx with rfl | rfl
      · exact Nat.le_add_left_of_le (by decide)
      · exact Nat.le_add_left_of_le (by decide)
    constructor
    · rintro rfl
      exact absurd hge (by decide)
    · rintro rfl
      exact absurd hge (by decide)

/-- Raw characters may be put in front of the characters of a literal. -/
theorem chars_raw_append {a t w : WString}
    (ha : ∀ x ∈ a, x ≠ '"'.toNat ∧ x ≠ '\\'.toNat) (h : Chars t w) :
    Chars (a ++ t) (a ++ w) := by
  induction a with
  | nil => exact h
  | cons x a ih =>
    have hx := ha x List.mem_cons_self
    exact Chars.raw hx.1 hx.2 (ih fun y hy => ha y (List.mem_cons_of_mem _ hy))

/-- A character that is not a backslash stands for itself, and is no quote. -/
theorem chars_of_cons {x : WChar} {t w : WString} (hback : x ≠ '\\'.toNat)
    (h : Chars (x :: t) w) : x ≠ '"'.toNat ∧ ∃ w', w = x :: w' ∧ Chars t w' := by
  generalize htext : x :: t = text at h
  cases h with
  | nil => cases htext
  | @raw c t' w' hquote _ hrest =>
    obtain ⟨rfl, rfl⟩ := List.cons.inj htext
    exact ⟨hquote, w', rfl, hrest⟩
  | short | hex2 | hex4 => exact absurd (List.cons.inj htext).1 hback

/-- Raw characters in front of a literal's others stand for themselves. -/
theorem chars_of_raw_append {a t w : WString}
    (ha : ∀ x ∈ a, x ≠ '"'.toNat ∧ x ≠ '\\'.toNat) (h : Chars (a ++ t) w) :
    ∃ w', w = a ++ w' ∧ Chars t w' := by
  induction a generalizing w with
  | nil => exact ⟨w, rfl, h⟩
  | cons x a ih =>
    obtain ⟨-, w', rfl, hrest⟩ := chars_of_cons (ha x List.mem_cons_self).2 h
    obtain ⟨w'', rfl, hw''⟩ := ih (fun y hy => ha y (List.mem_cons_of_mem _ hy)) hrest
    exact ⟨w'', rfl, hw''⟩

/-- The wide form of an escape sequence. -/
theorem utf16_escape {e : Char} (h : e.toNat ≤ 0x7F) (cs : List Char) :
    utf16 ('\\' :: e :: cs) = '\\'.toNat :: e.toNat :: utf16 cs := by
  have he : writeUnicodeCharacter16 e.toNat = [e.toNat] := if_pos (by omega)
  rw [utf16_cons, utf16_cons, he]
  rfl

/-- Without a double quote the literal stands for the string. -/
theorem chars_escapeChars {cs : List Char} (hquote : '"' ∉ cs) :
    Chars (utf16 (escapeChars cs)) (utf16 cs) := by
  induction cs with
  | nil => exact Chars.nil
  | cons c cs ih =>
    have hrest := ih fun h => hquote (List.mem_cons_of_mem _ h)
    rw [escapeChars_cons, utf16_cons]
    rcases escapeChar_cases c with ⟨e, he, hc⟩ | ⟨hback, -, hc⟩
    · obtain ⟨htable, -, hascii, hascii'⟩ := escapeLetters_shortEscapes he
      have hwide : writeUnicodeCharacter16 c.toNat = [c.toNat] := if_pos (by omega)
      rw [hc, hwide]
      show Chars (utf16 ('\\' :: e :: escapeChars cs)) (c.toNat :: utf16 cs)
      rw [utf16_escape hascii']
      exact Chars.short htable hrest
    · have hne : c ≠ '"' := fun h => hquote (by rw [h]; exact List.mem_cons_self)
      rw [hc, List.singleton_append, utf16_cons]
      exact chars_raw_append (raw_writeUnicodeCharacter16 hne hback) hrest

/-- A wide text has a terminator inside only where a character is one. -/
theorem zero_mem_utf16 {cs : List Char} : 0 ∈ utf16 cs ↔ '\x00' ∈ cs := by
  unfold utf16
  rw [List.mem_flatMap]
  constructor
  · rintro ⟨c, hc, hzero⟩
    have hnul : c.toNat = 0 := by
      unfold writeUnicodeCharacter16 at hzero
      split_ifs at hzero with hbmp
      · exact (List.mem_singleton.mp hzero).symm
      · simp only [List.mem_cons, List.not_mem_nil, or_false] at hzero
        have hpos : (0 : Nat) = c.toNat / 0x400 + 0xD7C0 ∨ (0 : Nat) = c.toNat % 0x400 + 0xDC00 :=
          hzero
        omega
    rwa [show c = '\x00' from Char.toNat_inj.mp hnul] at hc
  · intro h
    exact ⟨'\x00', h, List.mem_singleton_self 0⟩

/-- The escapes neither add nor remove a zero. -/
theorem nul_mem_escapeChars {cs : List Char} : '\x00' ∈ escapeChars cs ↔ '\x00' ∈ cs := by
  unfold escapeChars
  rw [List.mem_flatMap]
  constructor
  · rintro ⟨c, hc, hnul⟩
    rcases escapeChar_cases c with ⟨e, he, hesc⟩ | ⟨-, -, hesc⟩
    · have hmem : '\x00' = e := by simpa [hesc] using hnul
      subst hmem
      simp [escapeLetters] at he
    · rw [hesc, List.mem_singleton] at hnul
      rwa [hnul]
  · intro h
    exact ⟨'\x00', h, List.mem_singleton_self _⟩

/-- The letter of an escape says which character it stands for. -/
theorem chars_of_escape {c e : Char} {t w : WString} (he : (c, e) ∈ escapeLetters)
    (h : Chars ('\\'.toNat :: e.toNat :: t) w) : ∃ w', w = c.toNat :: w' ∧ Chars t w' := by
  obtain ⟨htable, -⟩ := escapeLetters_shortEscapes he
  obtain ⟨-, hunescape, hx, hu⟩ := shortEscape_tables htable
  generalize htext : '\\'.toNat :: e.toNat :: t = text at h
  cases h with
  | nil => cases htext
  | raw _ hback => exact absurd (List.cons.inj htext).1.symm hback
  | @short e' d t' w' hmem hrest =>
    obtain ⟨rfl, rfl⟩ := List.cons.inj (List.cons.inj htext).2
    have hd := (shortEscape_tables hmem).2.1
    rw [hunescape] at hd
    exact ⟨w', by rw [Option.some.inj hd], hrest⟩
  | hex2 => exact absurd (List.cons.inj (List.cons.inj htext).2).1 hx
  | hex4 => exact absurd (List.cons.inj (List.cons.inj htext).2).1 hu

/-- A piece of the literal's inside that is the inside of a literal itself ends
behind a character of the string, has no double quote, and stands for that part of
the string. -/
theorem chars_of_append {cs b b' : List Char} {w : WString} (hcs : escapeChars cs = b ++ b')
    (h : Chars (utf16 b) w) :
    ∃ ds es, cs = ds ++ es ∧ b = escapeChars ds ∧ '"' ∉ ds ∧ w = utf16 ds := by
  induction cs generalizing b w with
  | nil =>
    obtain ⟨rfl, -⟩ := List.append_eq_nil_iff.mp hcs.symm
    cases h
    exact ⟨[], [], rfl, rfl, List.not_mem_nil, rfl⟩
  | cons c cs ih =>
    rw [escapeChars_cons] at hcs
    cases b with
    | nil =>
      cases h
      exact ⟨[], c :: cs, rfl, rfl, List.not_mem_nil, rfl⟩
    | cons x b =>
      -- The piece starts with the first character, escaped or not.
      rcases escapeChar_cases c with ⟨e, he, hc⟩ | ⟨hback, -, hc⟩
      · obtain ⟨htable, hquote, hascii, hascii'⟩ := escapeLetters_shortEscapes he
        simp only [hc, List.cons_append, List.nil_append, List.cons.injEq] at hcs
        obtain ⟨rfl, hrest⟩ := hcs
        cases b with
        | nil =>
          -- The cut is behind the backslash.
          generalize htext : utf16 ['\\'] = text at h
          cases h with
          | nil => cases htext
          | raw _ hne => exact absurd (List.cons.inj htext).1.symm hne
          | short | hex2 | hex4 => cases htext
        | cons y b =>
          obtain ⟨rfl, htail⟩ := List.cons.inj hrest
          rw [utf16_escape hascii'] at h
          obtain ⟨w', rfl, hw'⟩ := chars_of_escape he h
          obtain ⟨ds, es, rfl, rfl, hds, rfl⟩ := ih htail hw'
          have hwide : writeUnicodeCharacter16 c.toNat = [c.toNat] := if_pos (by omega)
          refine ⟨c :: ds, es, rfl, ?_, ?_, ?_⟩
          · rw [escapeChars_cons, hc]
            rfl
          · rw [List.mem_cons, not_or]
            exact ⟨fun h => hquote (by rw [← h]), hds⟩
          · rw [utf16_cons, hwide]
            rfl
      · simp only [hc, List.cons_append, List.nil_append, List.cons.injEq] at hcs
        obtain ⟨rfl, hrest⟩ := hcs
        have hquote : c ≠ '"' := by
          rintro rfl
          exact (chars_of_cons (by decide) h).1 rfl
        rw [utf16_cons] at h
        obtain ⟨w', rfl, hw'⟩ :=
          chars_of_raw_append (raw_writeUnicodeCharacter16 hquote hback) h
        obtain ⟨ds, es, rfl, rfl, hds, rfl⟩ := ih hrest hw'
        refine ⟨c :: ds, es, rfl, ?_, ?_, rfl⟩
        · rw [escapeChars_cons, hc]
          rfl
        · rw [List.mem_cons, not_or]
          exact ⟨Ne.symm hquote, hds⟩

/-! ### The literal, scanned and decoded -/

section

variable (D : Type)

/-- Scanning the literal of `s`, whatever follows, takes exactly the literal, and
decoding the token gives `s`. -/
def Faithful (s : Str) : Prop :=
  ∀ (self : JsonValueSerializer) (r : WString),
    self.jsonPos = utf8ToWide (jsonDoubleQuote s true) ++ r →
    ∃ token, self.parseStringToken = .ok (token, self) ∧ token.type = .string ∧
      token.begin = some self.jsonPos ∧
      token.length = (utf8ToWide (jsonDoubleQuote s true)).length ∧
      decodeString (D := D) token = .ok (some (.string s))

variable {D}

/-- A scanned literal is one of the grammar, and stands for what it decodes to. -/
theorem quoted_of_faithful {s : Str} (h : Faithful D s) {q : WString}
    (hq : utf8ToWide (jsonDoubleQuote s true) = '"'.toNat :: q) :
    ∃ t w, utf8ToWide (jsonDoubleQuote s true) = quoted t ∧ Chars t w ∧ 0 ∉ t ∧
      wideToUTF8 w = s := by
  let self : JsonValueSerializer :=
    ⟨[], utf8ToWide (jsonDoubleQuote s true), 0, true, .noError, 0, 0⟩
  obtain ⟨token, hscan, hstring, hbegin, hlen, hdecode⟩ := h self [] (List.append_nil _).symm
  rcases parseStringToken_cases self hq with ⟨t, w, r, hpos, ht, hz, htoken⟩ | ⟨s', htoken, -⟩
  · obtain ⟨rfl, -⟩ := Prod.mk.inj (Except.ok.inj (hscan.symm.trans htoken))
    have hself : utf8ToWide (jsonDoubleQuote s true) = quoted t ++ r := hpos
    have hr : r = [] := by
      have hlen : (quoted t).length = (utf8ToWide (jsonDoubleQuote s true)).length := hlen
      rw [hself, List.length_append] at hlen
      exact List.eq_nil_of_length_eq_zero (by omega)
    subst hr
    rw [hpos, decodeString_quoted [] ht] at hdecode
    exact ⟨t, w, by rw [hself, List.append_nil], ht, hz,
      (Value.string.inj (Option.some.inj (Except.ok.inj hdecode)))⟩
  · obtain ⟨rfl, -⟩ := Prod.mk.inj (Except.ok.inj (hscan.symm.trans htoken))
    cases hstring

/-- Some of the text is left to scan. -/
theorem ne_nil_of_faithful {s : Str} (h : Faithful D s) :
    utf8ToWide (jsonDoubleQuote s true) ≠ [] := by
  intro hnil
  let self : JsonValueSerializer := ⟨[], ['"'.toNat], 0, true, .noError, 0, 0⟩
  obtain ⟨token, hscan, hstring, -, hlen, -⟩ := h self ['"'.toNat] (by rw [hnil]; rfl)
  rcases parseStringToken_cases self rfl with ⟨t, w, r, -, -, -, htoken⟩ | ⟨s', htoken, -⟩
  · obtain ⟨rfl, -⟩ := Prod.mk.inj (Except.ok.inj (hscan.symm.trans htoken))
    rw [hnil] at hlen
    simp [quoted] at hlen
  · obtain ⟨rfl, -⟩ := Prod.mk.inj (Except.ok.inj (hscan.symm.trans htoken))
    cases hstring

/-- A character whose wide form ends in a double quote is one. -/
theorem eq_quote_of_write {c : Char} {t : WString}
    (h : writeUnicodeCharacter16 c.toNat = t ++ ['"'.toNat]) : c = '"' := by
  by_contra hne
  by_cases hback : c = '\\'
  · subst hback
    cases t with
    | nil => exact absurd (List.cons.inj h).1 (by decide)
    | cons x t => exact absurd (List.cons.inj h).2 (by simp)
  · have hmem : '"'.toNat ∈ writeUnicodeCharacter16 c.toNat := by
      rw [h]
      simp
    exact (raw_writeUnicodeCharacter16 hne hback _ hmem).1 rfl

/-- The start of a literal's text is empty or begins with the quote. -/
theorem cutText_head {cs : List Char} {w : WString} (h : CutText (literalChars cs) w) :
    w = [] ∨ ∃ q, w = '"'.toNat :: q := by
  obtain ⟨ds, e, es, cut, hcs, -, hascii, rfl⟩ := h
  cases ds with
  | nil =>
    obtain ⟨rfl, -⟩ := List.cons.inj hcs
    exact Or.inl (hascii (by decide))
  | cons d ds =>
    obtain ⟨rfl, -⟩ := List.cons.inj hcs
    exact Or.inr ⟨utf16 ds ++ cut, rfl⟩

/-- A text cut short that is still a literal ends at a double quote of the string. -/
theorem quoted_of_cutText {cs : List Char} {t : WString}
    (h : CutText (literalChars cs) (quoted t)) :
    ∃ b b', escapeChars cs = b ++ '"' :: b' ∧ t = utf16 b := by
  obtain ⟨ds, e, es, cut, hcs, hcut, -, hw⟩ := h
  -- The last character is a quote, so nothing invalid stands there.
  have hnil : cut = [] := by
    rcases List.eq_nil_or_concat' cut with hnil | ⟨xs, x, hx⟩
    · exact hnil
    · have hlast : '"'.toNat :: t ++ ['"'.toNat] = (utf16 ds ++ xs) ++ [x] := by
        rw [List.append_assoc, ← hx]
        exact hw
      obtain ⟨-, hquote⟩ := List.append_inj' hlast rfl
      have hmem := hcut (show x ∈ cut by rw [hx]; simp)
      rw [List.mem_singleton, ← (List.cons.inj hquote).1] at hmem
      exact absurd hmem (by decide)
  rw [hnil, List.append_nil] at hw
  cases ds with
  | nil => cases hw
  | cons d ds =>
    obtain ⟨rfl, hinside⟩ := List.cons.inj hcs
    have hinner : t ++ ['"'.toNat] = utf16 ds := (List.cons.inj hw).2
    rcases List.eq_nil_or_concat' ds with rfl | ⟨b, x, rfl⟩
    · exact absurd hinner (by simp)
    -- What is left ends behind a quote, which stands in the string.
    obtain ⟨y, z, hyz⟩ : ∃ y z, writeUnicodeCharacter16 x.toNat = y ++ [z] := by
      rcases List.eq_nil_or_concat' (writeUnicodeCharacter16 x.toNat) with h | ⟨y, z, h⟩
      · unfold writeUnicodeCharacter16 at h
        split_ifs at h
      · exact ⟨y, z, h⟩
    have hsplit : t ++ ['"'.toNat] = (utf16 b ++ y) ++ [z] := by
      rw [hinner, utf16_append, utf16_cons, utf16_nil, List.append_nil, hyz, List.append_assoc]
    obtain ⟨rfl, hz⟩ := List.append_inj' hsplit rfl
    rw [← (List.cons.inj hz).1] at hyz
    obtain rfl := eq_quote_of_write hyz
    have hy : y = [] := by
      have hlen := congrArg List.length hyz
      rw [List.length_append] at hlen
      exact List.eq_nil_of_length_eq_zero (Nat.succ.inj hlen).symm
    rcases List.eq_nil_or_concat' (e :: es) with h | ⟨b', z', h⟩
    · cases h
    · refine ⟨b, b', ?_, by rw [hy, List.append_nil]⟩
      have hchars : escapeChars cs ++ ['"'] = (b ++ '"' :: b') ++ [z'] := by
        refine hinside.trans ?_
        rw [h]
        simp
      exact (List.append_inj' hchars rfl).1

/-- No text denotes more characters than it has. -/
theorem length_chars_le {t w : WString} (h : Chars t w) : w.length ≤ t.length := by
  induction h with
  | nil => exact Nat.le_refl _
  | raw _ _ _ ih | short _ _ ih | hex2 _ _ _ ih | hex4 _ _ _ _ _ ih =>
    simp only [List.length_cons]
    omega

/-- A literal whose length does not fit an `int32` does not come back. -/
theorem not_faithful_of_long {cs : List Char} (hlen : 2 ^ 31 ≤ (utf8 (literalChars cs)).length) :
    ¬Faithful D (utf8 cs) := by
  intro h
  have hcut := utf8ToWide_long hlen
  rw [← jsonDoubleQuote_utf8] at hcut
  obtain ⟨q, hq⟩ := (cutText_head hcut).resolve_left (ne_nil_of_faithful h)
  obtain ⟨t, w, hquoted, hchars, -, hdecode⟩ := quoted_of_faithful h hq
  have hshort := utf8ToWide_length_lt (jsonDoubleQuote (utf8 cs) true)
  rw [hquoted] at hcut hshort
  obtain ⟨b, b', hcs, rfl⟩ := quoted_of_cutText hcut
  obtain ⟨ds, es, rfl, rfl, -, rfl⟩ := chars_of_append hcs hchars
  -- What comes back is only the start of the string.
  have hwide : (utf16 ds).length < 2 ^ 31 := by
    have hle := length_chars_le hchars
    simp only [quoted, List.length_cons, List.length_append] at hshort
    omega
  rw [wideToUTF8_utf16 hwide, utf8_append, List.self_eq_append_right] at hdecode
  have hes : es = [] := by
    cases es with
    | nil => rfl
    | cons c es =>
      obtain ⟨x, xs, henc, -⟩ := utf8EncodeChar_lead c
      rw [utf8_cons, henc] at hdecode
      cases hdecode
  rw [hes, List.append_nil, List.self_eq_append_right] at hcs
  cases hcs

/-- The text between two quotes is determined. -/
theorem quoted_inj {t u : WString} (h : quoted t = quoted u) : t = u :=
  (List.append_inj' (List.cons.inj h).2 rfl).1

/-- A string whose literal fits comes back from its wide form. -/
theorem createStringValue_utf16 {cs : List Char}
    (hlen : (utf8 (literalChars cs)).length < 2 ^ 31) :
    (.createStringValue (utf16 cs) : Value D) = .string (utf8 cs) := by
  have hle := length_utf16_le cs
  rw [← jsonDoubleQuote_utf8, length_jsonDoubleQuote] at hlen
  rw [Value.createStringValue, wideToUTF8_utf16 (by omega)]

/-- The literal of a valid string is read back exactly when the string has neither a
double quote nor a zero and the literal's length fits an `int32`. -/
theorem faithful_iff {s : Str} (hvalid : ValidUtf8 s) :
    Faithful D s ↔ 34 ∉ s ∧ 0 ∉ s ∧ s.length + s.countP escaped + 2 < 2 ^ 31 := by
  obtain ⟨cs, rfl⟩ := hvalid
  have hquote : 34 ∉ utf8 cs ↔ '"' ∉ cs := not_congr (mem_utf8_iff rfl (by decide))
  have hzero : 0 ∉ utf8 cs ↔ '\x00' ∉ cs := not_congr (mem_utf8_iff rfl (by decide))
  rw [hquote, hzero, ← length_jsonDoubleQuote, jsonDoubleQuote_utf8]
  constructor
  · intro h
    -- A longer literal is cut to nothing by the conversion to wide characters.
    have hlen : (utf8 (literalChars cs)).length < 2 ^ 31 := by
      by_contra hlong
      exact not_faithful_of_long (Nat.not_lt.mp hlong) h
    have hwide := utf8ToWide_utf8 hlen
    rw [← jsonDoubleQuote_utf8, utf16_literalChars] at hwide
    obtain ⟨t, w, hquoted, hchars, hz, -⟩ := quoted_of_faithful h hwide
    obtain rfl : utf16 (escapeChars cs) = t := quoted_inj (hwide.symm.trans hquoted)
    -- The scanner stops at the first quote that is not escaped: nothing may be left behind it.
    obtain ⟨ds, es, rfl, hesc, hds, -⟩ := chars_of_append (List.append_nil _).symm hchars
    rw [escapeChars_append, List.append_right_eq_self] at hesc
    rw [zero_mem_utf16, nul_mem_escapeChars] at hz
    refine ⟨?_, hz, hlen⟩
    rwa [escapeChars_eq_nil hesc, List.append_nil]
  · rintro ⟨hq, hz, hlen⟩ self r hpos
    have hchars := chars_escapeChars hq
    have hzt : 0 ∉ utf16 (escapeChars cs) := by rwa [zero_mem_utf16, nul_mem_escapeChars]
    have hwide := utf8ToWide_utf8 hlen
    rw [utf16_literalChars] at hwide
    rw [jsonDoubleQuote_utf8, hwide] at hpos ⊢
    have hdecode := decodeString_quoted (D := D) r hchars
    rw [createStringValue_utf16 hlen] at hdecode
    refine ⟨_, parseStringToken_ok self hchars hzt hpos, rfl, ?_, rfl, hdecode⟩
    rw [hpos]

end

/-- The string `a\b` is read back. -/
theorem faithful_iff_backslash :
    ValidUtf8 [97, 92, 98] ∧ Faithful Unit [97, 92, 98] :=
  have hvalid : ValidUtf8 [97, 92, 98] := ⟨['a', '\\', 'b'], by decide⟩
  ⟨hvalid, (faithful_iff hvalid).mpr (by decide)⟩

/-- The string of one double quote is written as three quotes, and read back as the
empty string. -/
theorem not_faithful_quote : ValidUtf8 [34] ∧ ¬Faithful Unit [34] := by
  refine ⟨⟨['"'], by decide⟩, fun h => ?_⟩
  have hwide : utf8ToWide (jsonDoubleQuote [34] true) = quoted [] ++ ['"'.toNat] :=
    @utf8ToWide_utf8 ['"', '"', '"'] (by decide)
  let self : JsonValueSerializer :=
    ⟨[], utf8ToWide (jsonDoubleQuote [34] true), 0, true, .noError, 0, 0⟩
  obtain ⟨token, hscan, -, -, hlen, -⟩ := h self [] (List.append_nil _).symm
  -- The scanner stops at the second quote.
  have htoken := parseStringToken_ok self Chars.nil List.not_mem_nil hwide
  obtain ⟨rfl, -⟩ := Prod.mk.inj (Except.ok.inj (hscan.symm.trans htoken))
  rw [hwide] at hlen
  exact absurd hlen (by decide)

end Mylib.Proofs.Base
