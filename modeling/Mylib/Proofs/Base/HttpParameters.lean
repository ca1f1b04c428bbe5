import Mylib.Proofs.Base.HttpSafety
import Mylib.Proofs.Base.Unicode

/-!
# `Mylib.Proofs.Base.HttpParameters`: which parameter lists are read right

A parameter list in characters, written in UTF-8, and what it is meant to give: a
dictionary with each key as text and each value as what `Meaning` says. Where the
tokenizer goes wrong a list is refused as a whole. `readsParameters_iff` says exactly
when `Deserialize` gives the dictionary: no key starts with a keyword, every value
can be read, and a byte order mark in front does no harm.
-/

set_option autoImplicit false

namespace Mylib.Proofs.Base.Http

open Mylib.Lib
open Mylib.Lib.CString
open Mylib.Spec.Base
open JsonValueSerializer (kStackLimit wide)
open JsonGrammar (Number keyOf)
open StringConversions HttpValueSerializer HttpGrammar

/-! ### Lists of characters -/

/-- A key or a value: not empty, and none of the separators, the backslash, the
terminator and the blanks. -/
def IsPlain (cs : List Char) : Prop :=
  cs ≠ [] ∧ ∀ c ∈ cs, c ∉ ['&', '=', '\\', '\x00', ' ', '\t', '\r']

/-- A parameter list. -/
def ArePlain (pairs : List (List Char × List Char)) : Prop :=
  pairs ≠ [] ∧ ∀ pair ∈ pairs, IsPlain pair.1 ∧ IsPlain pair.2

/-- The text of a parameter list. -/
def paramText (pairs : List (List Char × List Char)) : List Char := joinPairs '=' '&' pairs

section

variable {D : Type} (F : Doubles D)

/-- The value is a number in the accepted syntax: `NextNumberMatch` passes it, it is a
number of the grammar, and it denotes `v`. -/
def IsNumber (cs : List Char) (v : Value D) : Prop :=
  NumberShaped (utf16 cs) ∧ ∃ n : Number, utf16 cs = n.text ∧ n.denote F = some v

/-- What the text of a value stands for. -/
inductive Meaning (cs : List Char) : Value D → Prop where
  | null : cs = ['n', 'u', 'l', 'l'] → Meaning cs .null
  | boolTrue : cs = ['t', 'r', 'u', 'e'] → Meaning cs (.boolean true)
  | boolFalse : cs = ['f', 'a', 'l', 's', 'e'] → Meaning cs (.boolean false)
  | number {v : Value D} : IsNumber F cs v → Meaning cs v
  | text : cs ∉ [['n', 'u', 'l', 'l'], ['t', 'r', 'u', 'e'], ['f', 'a', 'l', 's', 'e']] →
      (∀ v, ¬IsNumber F cs v) → Meaning cs (.string (utf8 cs))

/-- An entry for a pair: the key as text, and what the value stands for. -/
def MeansEntry (pair : List Char × List Char) (entry : WString × Value D) : Prop :=
  entry.1 = utf16 pair.1 ∧ Meaning F pair.2 entry.2

/-- `Deserialize` returns the dictionary the list describes. -/
def ReadsParameters (s : HttpValueSerializer) (nullCode : Bool)
    (pairs : List (List Char × List Char)) : Prop :=
  ∃ members entries s', HttpValueSerializer.deserialize F s (utf8 (paramText pairs)) nullCode
      = .ok (some (.dictionary entries), s') ∧
    List.Forall₂ (MeansEntry F) pairs members ∧ OrderedMap.Describes members entries

/-! ### When a list is read -/

def NoKeyword (cs : List Char) : Prop :=
  ¬['n', 'u', 'l', 'l'] <+: cs ∧ ¬['t', 'r', 'u', 'e'] <+: cs ∧ ¬['f', 'a', 'l', 's', 'e'] <+: cs

/-- A value the tokenizer does not stumble over: `null`, `true`, or no keyword in
front and a number wherever `NextNumberMatch` takes it for one. -/
def ValueOk (cs : List Char) : Prop :=
  cs = ['n', 'u', 'l', 'l'] ∨ cs = ['t', 'r', 'u', 'e'] ∨
    NoKeyword cs ∧ (NumberShaped (utf16 cs) → ∃ v, IsNumber F cs v)

def byteOrderMark : Char := '\uFEFF'

/-- A byte order mark in front is skipped. That does no harm when later pairs replace
the first one, under its key and under its key without the mark. -/
def MarkOk (pairs : List (List Char × List Char)) : Prop :=
  ∀ key value rest, pairs = (byteOrderMark :: key, value) :: rest →
    (∃ pair ∈ rest, pair.1 = byteOrderMark :: key) ∧ ∃ pair ∈ rest, pair.1 = key

end

/-! ### Plain texts in UTF-16 -/

/-- The characters that a plain text excludes are not in its wide form either. -/
theorem not_mem_utf16 {cs : List Char} (h : IsPlain cs) {c : Char}
    (hc : c ∈ ['&', '=', '\\', '\x00', ' ', '\t', '\r']) : c.toNat ∉ utf16 cs := by
  have hascii : c.toNat < 0x80 := by
    simp only [List.mem_cons, List.not_mem_nil, or_false] at hc
    rcases hc with rfl | rfl | rfl | rfl | rfl | rfl | rfl <;> decide
  rw [ascii_mem_utf16 hascii]
  exact fun hmem => h.2 c hmem hc

/-- A plain text is a field. -/
theorem isFieldText_utf16 {cs : List Char} (h : IsPlain cs) : IsFieldText (utf16 cs) := by
  intro x hx
  refine ⟨?_, ?_, ?_⟩
  · rintro rfl
    exact not_mem_utf16 h (c := '&') (by simp) hx
  · rintro rfl
    exact not_mem_utf16 h (c := '=') (by simp) hx
  · rintro rfl
    exact not_mem_utf16 h (c := '\x00') (by simp) hx

/-- No blank stands in a plain text. -/
theorem not_isBlank_utf16 {cs : List Char} (h : IsPlain cs) : ∀ x ∈ utf16 cs, ¬IsBlank x := by
  intro x hx hblank
  simp only [IsBlank, wide, List.map_cons, List.map_nil, List.mem_cons, List.not_mem_nil,
    or_false] at hblank
  rcases hblank with rfl | rfl | rfl
  · exact not_mem_utf16 h (c := ' ') (by simp) hx
  · exact not_mem_utf16 h (c := '\r') (by simp) hx
  · exact not_mem_utf16 h (c := '\t') (by simp) hx

/-- A text that is not empty has a wide form that is not. -/
theorem utf16_ne_nil {cs : List Char} (h : cs ≠ []) : utf16 cs ≠ [] := by
  intro hnil
  exact h (utf16_injective hnil)

/-- A plain text has no blanks to be dropped. -/
theorem trim_utf16 {cs : List Char} (h : IsPlain cs) : trim (utf16 cs) = utf16 cs := by
  obtain ⟨x, t, ht⟩ := List.exists_cons_of_ne_nil (utf16_ne_nil h.1)
  have hx := not_isBlank_utf16 h x (by rw [ht]; exact List.mem_cons_self)
  rw [ht]
  simp [trim, hx]

/-- Without a backslash a field stands for itself. -/
theorem unescapes_of_no_backslash {t : WString} (h : '\\'.toNat ∉ t) (w : WString) :
    Unescapes t w ↔ w = t := by
  induction t generalizing w with
  | nil =>
    constructor
    · intro hw
      cases hw
      rfl
    · rintro rfl
      exact .nil
  | cons c t ih =>
    -- Neither the first character nor a later one begins an escape.
    have hc : c ≠ '\\'.toNat := fun heq => h (heq ▸ List.mem_cons_self)
    have ht : '\\'.toNat ∉ t := fun hmem => h (List.mem_cons_of_mem _ hmem)
    constructor
    · intro hw
      obtain ⟨w', hw', rfl⟩ := unescapes_raw hc hw
      rw [(ih ht w').mp hw']
    · rintro rfl
      exact .raw hc ((ih ht t).mpr rfl)

/-- Without a backslash every character stands for itself. -/
theorem unescapes_utf16 {cs : List Char} (h : IsPlain cs) (w : WString) :
    Unescapes (utf16 cs) w ↔ w = utf16 cs :=
  unescapes_of_no_backslash (not_mem_utf16 h (c := '\\') (by simp)) w

/-- A keyword in front of the units is one in front of the characters. -/
theorem startsKeyword_utf16 (cs : List Char) : StartsKeyword (utf16 cs) ↔ ¬NoKeyword cs := by
  have hword : ∀ {word : List Char}, utf16 word = wide word →
      (wide word <+: utf16 cs ↔ word <+: cs) := by
    intro word h
    rw [← h, utf16_prefix]
  have hnull := hword (show utf16 ['n', 'u', 'l', 'l'] = wide ['n', 'u', 'l', 'l'] by decide)
  have htrue := hword (show utf16 ['t', 'r', 'u', 'e'] = wide ['t', 'r', 'u', 'e'] by decide)
  have hfalse :=
    hword (show utf16 ['f', 'a', 'l', 's', 'e'] = wide ['f', 'a', 'l', 's', 'e'] by decide)
  unfold StartsKeyword NoKeyword
  simp only [keywords, List.mem_cons, List.not_mem_nil, or_false, exists_eq_or_imp,
    exists_eq_left, hnull, htrue, hfalse]
  tauto

/-! ### Keys and values in characters -/

/-- A key goes to UTF-8 and back unchanged. -/
theorem keyOf_utf16 {cs : List Char} (h : (utf8 cs).length < 2 ^ 31) :
    keyOf (utf16 cs) = utf16 cs := by
  unfold keyOf
  rw [wideToUTF8_utf16 (lt_of_le_of_lt (length_utf16_le cs) h), utf8ToWide_utf8 h]

/-- A plain key is readable unless it begins with a keyword, and then it stands for itself. -/
theorem keyText_utf16 {cs : List Char} (h : IsPlain cs) (hsize : (utf8 cs).length < 2 ^ 31)
    (key : WString) : KeyText (utf16 cs) key ↔ NoKeyword cs ∧ key = utf16 cs := by
  constructor
  · rintro ⟨-, hkeyword, w, hw, rfl⟩
    rw [trim_utf16 h] at hkeyword hw
    rw [(unescapes_utf16 h w).mp hw, keyOf_utf16 hsize]
    exact ⟨not_not.mp fun hno => hkeyword ((startsKeyword_utf16 cs).mpr hno), rfl⟩
  · rintro ⟨hkeyword, rfl⟩
    refine ⟨?_, ?_, utf16 cs, ?_, (keyOf_utf16 hsize).symm⟩
    · rw [trim_utf16 h]
      exact utf16_ne_nil h.1
    · rw [trim_utf16 h, startsKeyword_utf16]
      exact not_not.mpr hkeyword
    · rw [trim_utf16 h]
      exact (unescapes_utf16 h _).mpr rfl

section

variable {D : Type} {F : Doubles D}

/-- A word with nothing but blanks behind it, where there are no blanks. -/
theorem eq_word {cs : List Char} (word : List Char) {g : WString} (h : IsPlain cs)
    (hword : utf16 word = wide word) (heq : trim (utf16 cs) = wide word ++ g)
    (hg : ∀ c ∈ g, IsBlank c) : cs = word := by
  rw [trim_utf16 h] at heq
  have hnil : g = [] := by
    refine List.eq_nil_iff_forall_not_mem.mpr fun c hc => ?_
    exact not_isBlank_utf16 h c (by rw [heq]; exact List.mem_append_right _ hc) (hg c hc)
  rw [hnil, List.append_nil, ← hword] at heq
  exact utf16_injective heq

/-- What has the shape of a number begins with no keyword. -/
theorem noKeyword_of_number {cs : List Char} (h : NumberShaped (utf16 cs)) : NoKeyword cs :=
  not_not.mp fun hno => not_numberShaped_of_keyword ((startsKeyword_utf16 cs).mpr hno) h

/-- What begins with a keyword is no number. -/
theorem not_isNumber_of_keyword {cs : List Char} {v : Value D} (h : ¬NoKeyword cs) :
    ¬IsNumber F cs v := fun hnumber => h (noKeyword_of_number hnumber.1)

/-- The tokenizer reads a value as what it means, where it reads it at all. -/
theorem valueText_utf16 {cs : List Char} (h : IsPlain cs) (hsize : (utf8 cs).length < 2 ^ 31)
    (v : Value D) : ValueText F (utf16 cs) v ↔ ValueOk F cs ∧ Meaning F cs v := by
  have hstring : Value.createStringValue (D := D) (utf16 cs) = .string (utf8 cs) := by
    unfold Value.createStringValue
    rw [wideToUTF8_utf16 (lt_of_le_of_lt (length_utf16_le cs) hsize)]
  constructor
  · intro hv
    cases hv with
    | null heq hg =>
      have hcs := eq_word ['n', 'u', 'l', 'l'] h (by decide) heq hg
      exact ⟨Or.inl hcs, .null hcs⟩
    | boolTrue heq hg =>
      have hcs := eq_word ['t', 'r', 'u', 'e'] h (by decide) heq hg
      exact ⟨Or.inr (Or.inl hcs), .boolTrue hcs⟩
    | @number n v heq hshape hdenote =>
      rw [trim_utf16 h] at heq
      have hnumber : IsNumber F cs v := ⟨heq ▸ hshape, n, heq, hdenote⟩
      exact ⟨Or.inr (Or.inr ⟨noKeyword_of_number hnumber.1, fun _ => ⟨v, hnumber⟩⟩),
        .number hnumber⟩
    | @string w _ hkeyword hshape hw =>
      rw [trim_utf16 h] at hkeyword hshape hw
      rw [startsKeyword_utf16, not_not] at hkeyword
      rw [(unescapes_utf16 h w).mp hw, hstring]
      refine ⟨Or.inr (Or.inr ⟨hkeyword, fun hno => absurd hno hshape⟩), .text ?_ fun v hv => ?_⟩
      · simp only [List.mem_cons, List.not_mem_nil, or_false]
        rintro (rfl | rfl | rfl)
        · exact hkeyword.1 List.prefix_rfl
        · exact hkeyword.2.1 List.prefix_rfl
        · exact hkeyword.2.2 List.prefix_rfl
      · exact hshape hv.1
  · rintro ⟨hok, hv⟩
    have hne : trim (utf16 cs) ≠ [] := by
      rw [trim_utf16 h]
      exact utf16_ne_nil h.1
    -- `null` and `true` are whole words here; any other text must not begin like a keyword.
    rcases hok with rfl | rfl | ⟨hkeyword, hnumber⟩
    · cases hv with
      | null _ => exact .null (g := []) (by rw [trim_utf16 h]; decide) (by simp)
      | boolTrue heq => simp at heq
      | boolFalse heq => simp at heq
      | number hv => exact absurd hv (not_isNumber_of_keyword fun hno => hno.1 List.prefix_rfl)
      | text hno _ => simp at hno
    · cases hv with
      | null heq => simp at heq
      | boolTrue _ => exact .boolTrue (g := []) (by rw [trim_utf16 h]; decide) (by simp)
      | boolFalse heq => simp at heq
      | number hv => exact absurd hv (not_isNumber_of_keyword fun hno => hno.2.1 List.prefix_rfl)
      | text hno _ => simp at hno
    · cases hv with
      | null heq => exact absurd (heq ▸ List.prefix_rfl) hkeyword.1
      | boolTrue heq => exact absurd (heq ▸ List.prefix_rfl) hkeyword.2.1
      | boolFalse heq => exact absurd (heq ▸ List.prefix_rfl) hkeyword.2.2
      | number hv =>
        obtain ⟨hshape, n, heq, hdenote⟩ := hv
        exact .number (n := n) ((trim_utf16 h).trans heq) (heq ▸ hshape) hdenote
      | text _ hno =>
        have hshape : ¬NumberShaped (utf16 cs) := fun hs => (hnumber hs).elim hno
        rw [← hstring]
        refine .string hne ?_ ?_ ?_
        · rw [trim_utf16 h, startsKeyword_utf16]
          exact not_not.mpr hkeyword
        · rw [trim_utf16 h]
          exact hshape
        · rw [trim_utf16 h]
          exact (unescapes_utf16 h _).mpr rfl

/-- Every value means something. -/
theorem exists_meaning (cs : List Char) : ∃ v : Value D, Meaning F cs v := by
  by_cases hword : cs ∈ [['n', 'u', 'l', 'l'], ['t', 'r', 'u', 'e'], ['f', 'a', 'l', 's', 'e']]
  · simp only [List.mem_cons, List.not_mem_nil, or_false] at hword
    rcases hword with h | h | h
    · exact ⟨_, .null h⟩
    · exact ⟨_, .boolTrue h⟩
    · exact ⟨_, .boolFalse h⟩
  by_cases hnumber : ∃ v, IsNumber F cs v
  · obtain ⟨v, hv⟩ := hnumber
    exact ⟨v, .number hv⟩
  · exact ⟨_, .text hword fun v hv => hnumber ⟨v, hv⟩⟩

end

/-! ### The text the parser sees -/

/-- The list in code units. -/
def widePairs (pairs : List (List Char × List Char)) : List (WString × WString) :=
  pairs.map (Prod.map utf16 utf16)

/-- The wide form of a text of parameters is the list of their wide forms. -/
theorem utf16_paramText (pairs : List (List Char × List Char)) :
    utf16 (paramText pairs) = listText (widePairs pairs) := by
  induction pairs with
  | nil => rfl
  | cons pair pairs ih =>
    obtain ⟨k, v⟩ := pair
    cases pairs with
    | nil =>
      show utf16 (k ++ '=' :: v) = utf16 k ++ '='.toNat :: utf16 v
      rw [utf16_append]
      rfl
    | cons pair pairs =>
      show utf16 (k ++ '=' :: (v ++ '&' :: paramText (pair :: pairs)))
        = utf16 k ++ '='.toNat :: (utf16 v ++ '&'.toNat :: listText (widePairs (pair :: pairs)))
      rw [← ih, utf16_append, utf16_cons, utf16_append, utf16_cons]
      rfl

/-- A part of the list is no longer than the list. -/
theorem length_utf8_le {pairs : List (List Char × List Char)} {pair : List Char × List Char}
    (h : pair ∈ pairs) :
    (utf8 pair.1).length ≤ (utf8 (paramText pairs)).length ∧
      (utf8 pair.2).length ≤ (utf8 (paramText pairs)).length := by
  induction pairs with
  | nil => cases h
  | cons first pairs ih =>
    obtain ⟨k, v⟩ := first
    cases pairs with
    -- The last pair has no separator behind it.
    | nil =>
      obtain rfl := List.mem_singleton.mp h
      show (utf8 k).length ≤ (utf8 (k ++ '=' :: v)).length ∧
        (utf8 v).length ≤ (utf8 (k ++ '=' :: v)).length
      simp only [utf8_append, utf8_cons, List.length_append]
      omega
    -- Any other pair is followed by one, and the text goes on.
    | cons next pairs =>
      have htext : utf8 (paramText ((k, v) :: next :: pairs))
          = utf8 k ++ utf8 ['='] ++ (utf8 v ++ utf8 ['&'] ++ utf8 (paramText (next :: pairs))) := by
        show utf8 (k ++ '=' :: (v ++ '&' :: paramText (next :: pairs))) = _
        simp [utf8_append]
      rw [htext]
      simp only [List.length_append]
      rcases List.mem_cons.mp h with rfl | hmem
      · constructor
        · show (utf8 k).length ≤ _
          omega
        · show (utf8 v).length ≤ _
          omega
      · have hrest := ih hmem
        omega

/-- The list without a byte order mark in front. -/
def seenPairs : List (List Char × List Char) → List (List Char × List Char)
  | (c :: key, value) :: rest =>
    if c = byteOrderMark then (key, value) :: rest else (c :: key, value) :: rest
  | pairs => pairs

/-- Plain parameters are fields. -/
theorem areFields_widePairs {pairs : List (List Char × List Char)}
    (h : ∀ pair ∈ pairs, IsPlain pair.1 ∧ IsPlain pair.2) : AreFields (widePairs pairs) := by
  intro pair hp
  obtain ⟨pair', hp', rfl⟩ := List.mem_map.mp hp
  exact ⟨isFieldText_utf16 (h pair' hp').1, isFieldText_utf16 (h pair' hp').2⟩

/-- Only the byte order mark is written as `0xFEFF`. -/
theorem head_utf16 (c : Char) (t : WString) :
    (writeUnicodeCharacter16 c.toNat ++ t).headD 0 = 0xFEFF ↔ c = byteOrderMark := by
  have hvalid := char_valid c
  unfold writeUnicodeCharacter16
  split_ifs with hbmp
  · show c.toNat = byteOrderMark.toNat ↔ _
    exact Char.toNat_inj
  · constructor
    · intro h
      have hhead : c.toNat / 0x400 + 0xD7C0 = 0xFEFF := h
      omega
    · rintro rfl
      exact absurd (show byteOrderMark.toNat ≤ 0xFFFF by decide) hbmp

/-- The parse starts behind a byte order mark. -/
theorem startText_paramText {pairs : List (List Char × List Char)} (h : ArePlain pairs) :
    startText (utf16 (paramText pairs)) = .ok (listText (widePairs (seenPairs pairs))) := by
  have hz : 0 ∉ utf16 (paramText pairs) := by
    rw [utf16_paramText]
    exact listText_nulFree (areFields_widePairs h.2)
  have hcut : (utf16 (paramText pairs)).takeWhile (· ≠ 0) = utf16 (paramText pairs) := by
    refine List.takeWhile_eq_self_iff.mpr fun c hc => ?_
    simpa using ne_zero_of_mem hz hc
  obtain ⟨⟨key, value⟩, rest, rfl⟩ := List.exists_cons_of_ne_nil h.1
  obtain ⟨c, key, rfl⟩ := List.exists_cons_of_ne_nil (h.2 _ List.mem_cons_self).1.1
  have htext : ∀ key : List Char, listText (widePairs ((key, value) :: rest))
      = utf16 key ++ '='.toNat :: (utf16 value ++ moreText (widePairs rest)) := fun key =>
    listText_cons (utf16 key) (utf16 value) (widePairs rest)
  have hwrite : utf16 (paramText ((c :: key, value) :: rest))
      = writeUnicodeCharacter16 c.toNat ++
        (utf16 key ++ '='.toNat :: (utf16 value ++ moreText (widePairs rest))) := by
    rw [utf16_paramText, htext, utf16_cons, List.append_assoc]
  have hnonempty : (utf16 (paramText ((c :: key, value) :: rest))).isEmpty = false := by
    rw [utf16_paramText, htext]
    simp
  unfold startText
  simp only [hcut, deref_zero, ok_bind, hnonempty, Bool.not_false, Bool.true_and,
    decide_eq_true_eq]
  -- A byte order mark in front is skipped, although it is the first character of a key.
  by_cases hmark : c = byteOrderMark
  · subst hmark
    have hhead : (utf16 (paramText ((byteOrderMark :: key, value) :: rest))).headD 0 = 0xFEFF := by
      rw [hwrite]
      exact (head_utf16 byteOrderMark _).mpr rfl
    rw [if_pos hhead, hwrite]
    show advance (0xFEFF :: _) 1 = _
    rw [advance_cons_succ, advance_zero, seenPairs, if_pos rfl, htext]
    rfl
  · have hhead : (utf16 (paramText ((c :: key, value) :: rest))).headD 0 ≠ 0xFEFF := by
      rw [hwrite]
      exact fun h => hmark ((head_utf16 c _).mp h)
    rw [if_neg hhead, seenPairs, if_neg hmark, utf16_paramText]
    rfl

/-! ### What `Deserialize` returns -/

section

variable {D : Type} (F : Doubles D)

/-- The pair can be read. -/
def PairOk (pair : List Char × List Char) : Prop := NoKeyword pair.1 ∧ ValueOk F pair.2

/-- The parts of a pair the parser may see: a mark alone leaves no key. -/
structure SeenPair (pair : List Char × List Char) : Prop where
  key : pair.1 ≠ [] → IsPlain pair.1
  value : IsPlain pair.2
  key_size : (utf8 pair.1).length < 2 ^ 31
  value_size : (utf8 pair.2).length < 2 ^ 31

/-- What the parser sees of plain pairs is plain and short enough for the conversions. -/
theorem seenPairs_spec {pairs : List (List Char × List Char)} (h : ArePlain pairs)
    (hsize : (utf8 (paramText pairs)).length < 2 ^ 31) :
    ∀ pair ∈ seenPairs pairs, SeenPair pair := by
  have hplain : ∀ pair ∈ pairs, SeenPair pair := by
    intro pair hp
    obtain ⟨hkey, hvalue⟩ := length_utf8_le hp
    exact ⟨fun _ => (h.2 pair hp).1, (h.2 pair hp).2, by omega, by omega⟩
  obtain ⟨⟨key, value⟩, rest, rfl⟩ := List.exists_cons_of_ne_nil h.1
  obtain ⟨c, key, rfl⟩ := List.exists_cons_of_ne_nil (h.2 _ List.mem_cons_self).1.1
  rw [seenPairs]
  split_ifs with hmark
  -- The byte order mark in front is not seen.
  · refine List.forall_mem_cons.mpr ⟨?_, fun pair hp => hplain pair (List.mem_cons_of_mem _ hp)⟩
    have hfirst := hplain _ List.mem_cons_self
    refine ⟨fun hne => ⟨hne, fun d hd => ?_⟩, hfirst.value, ?_, hfirst.value_size⟩
    · exact (hfirst.key (by simp)).2 d (List.mem_cons_of_mem _ hd)
    · have hlen := hfirst.key_size
      rw [utf8_cons, List.length_append] at hlen
      show (utf8 key).length < _
      omega
  · exact hplain

/-- A pair that is seen is read exactly if its key is not empty and its value has an entry of its
meaning. -/
theorem readsAs_seen {pair : List Char × List Char} (h : SeenPair pair)
    (entry : WString × Value D) :
    ReadsAs F (Prod.map utf16 utf16 pair) entry ↔
      (pair.1 ≠ [] ∧ PairOk F pair) ∧ MeansEntry F pair entry := by
  by_cases hne : pair.1 = []
  · constructor
    · intro hentry
      refine absurd ?_ hentry.1.nonempty
      show trim (utf16 pair.1) = []
      rw [hne]
      rfl
    · exact fun hentry => absurd hne hentry.1.1
  · unfold ReadsAs PairOk MeansEntry
    rw [Prod.map_fst, Prod.map_snd, keyText_utf16 (h.key hne) h.key_size,
      valueText_utf16 h.value h.value_size]
    tauto

/-- The same for the whole list of pairs. -/
theorem forall₂_means {pairs : List (List Char × List Char)}
    {entries : List (WString × Value D)} (h : ∀ pair ∈ pairs, SeenPair pair)
    (hentries : List.Forall₂ (ReadsAs F) (widePairs pairs) entries) :
    List.Forall₂ (MeansEntry F) pairs entries := by
  induction pairs generalizing entries with
  | nil =>
    cases hentries
    exact .nil
  | cons pair pairs ih =>
    cases hentries with
    | cons hentry hrest =>
      exact .cons ((readsAs_seen F (h pair List.mem_cons_self) _).mp hentry).2
        (ih (fun pair hp => h pair (List.mem_cons_of_mem _ hp)) hrest)

/-- A seen pair is readable exactly if it has a key and an accepted value. -/
theorem exists_readsAs {pair : List Char × List Char} (h : SeenPair pair) :
    (∃ entry, ReadsAs F (Prod.map utf16 utf16 pair) entry) ↔ pair.1 ≠ [] ∧ PairOk F pair := by
  constructor
  · rintro ⟨entry, hentry⟩
    exact ((readsAs_seen F h entry).mp hentry).1
  · intro hok
    obtain ⟨v, hv⟩ := exists_meaning (F := F) pair.2
    exact ⟨(utf16 pair.1, v), (readsAs_seen F h _).mpr ⟨hok, rfl, hv⟩⟩

/-- `Deserialize` gives what the pairs it sees describe, if it can read them all, and
nothing if it cannot. -/
theorem deserialize_seen (s : HttpValueSerializer) (nullCode : Bool)
    {pairs : List (List Char × List Char)} (h : ArePlain pairs)
    (hsize : (utf8 (paramText pairs)).length < 2 ^ 31) :
    ((∀ pair ∈ seenPairs pairs, pair.1 ≠ [] ∧ PairOk F pair) →
      ∃ entries s', List.Forall₂ (MeansEntry F) (seenPairs pairs) entries ∧
        HttpValueSerializer.deserialize F s (utf8 (paramText pairs)) nullCode
          = .ok (some (.dictionary (OrderedMap.setAll [] entries)), s')) ∧
    ((¬∀ pair ∈ seenPairs pairs, pair.1 ≠ [] ∧ PairOk F pair) →
      ∃ s', HttpValueSerializer.deserialize F s (utf8 (paramText pairs)) nullCode
        = .ok (none, s')) := by
  have hseen := seenPairs_spec h hsize
  have hfields : AreFields (widePairs (seenPairs pairs)) := by
    intro wpair hw
    obtain ⟨pair, hp, rfl⟩ := List.mem_map.mp hw
    refine ⟨?_, isFieldText_utf16 (hseen pair hp).value⟩
    show IsFieldText (utf16 pair.1)
    by_cases hne : pair.1 = []
    · rw [hne]
      exact fun c hc => absurd hc List.not_mem_nil
    · exact isFieldText_utf16 ((hseen pair hp).key hne)
  have hread : (∀ wpair ∈ widePairs (seenPairs pairs), ∃ entry, ReadsAs F wpair entry) ↔
      ∀ pair ∈ seenPairs pairs, pair.1 ≠ [] ∧ PairOk F pair := by
    unfold widePairs
    rw [List.forall_mem_map]
    exact forall₂_congr fun pair hp => exists_readsAs F (hseen pair hp)
  -- What `BuildValue` gives on the text it sees is what `Deserialize` returns.
  have hreturn : ∀ {root : Option (Value D)} {s₁ : HttpValueSerializer},
      HttpValueSerializer.buildValue F (kStackLimit + 1) true
        (s.start (listText (widePairs (seenPairs pairs)))) = .ok (root, s₁) →
      ∃ s', HttpValueSerializer.deserialize F s (utf8 (paramText pairs)) nullCode
        = .ok (root, s') := by
    intro root s₁ hbuild
    obtain ⟨root', s₁', s', hbuild', hparse, -⟩ := httpParseRoot_safe F nullCode
      (s := s.start (listText (widePairs (seenPairs pairs))))
      ⟨listText_nulFree hfields, List.suffix_rfl⟩
    obtain ⟨rfl, -⟩ := Prod.mk.inj (Except.ok.inj (hbuild'.symm.trans hbuild))
    refine ⟨s', ?_⟩
    unfold HttpValueSerializer.deserialize HttpValueSerializer.deserializeWide
    rw [utf8ToWide_utf8 hsize, startText_paramText h, ok_bind, hparse]
  constructor
  · intro hok
    obtain ⟨entries, s₁, hentries, hbuild, -⟩ := buildValue_readable F (kStackLimit - 1)
      (start_at s (listText (widePairs (seenPairs pairs)))) hfields (by decide) (hread.mpr hok)
    obtain ⟨s', hdeserialize⟩ := hreturn hbuild
    exact ⟨entries, s', forall₂_means F hseen hentries, hdeserialize⟩
  · intro hbad
    obtain ⟨res, s₁, hbuild, -, hnull⟩ := buildValue_unreadable F (kStackLimit - 1)
      (start_at s (listText (widePairs (seenPairs pairs)))) hfields (by decide)
      (fun hall => hbad (hread.mp hall))
    -- No value of the list is empty, so nothing was replaced by the empty string.
    have hnone : res = none := by
      refine hnull.resolve_right ?_
      rintro ⟨wpair, hw, hempty⟩
      obtain ⟨pair, hp, rfl⟩ := List.mem_map.mp hw
      have hvalue := (hseen pair hp).value
      rw [Prod.map_snd, trim_utf16 hvalue] at hempty
      exact utf16_ne_nil hvalue.1 hempty
    rw [hnone] at hbuild
    exact hreturn hbuild

/-! ### A mark in front -/

variable {F}

/-- The keys of the entries are the keys of the pairs. -/
theorem exists_key {pairs : List (List Char × List Char)} {entries : List (WString × Value D)}
    (h : List.Forall₂ (MeansEntry F) pairs entries) (cs : List Char) :
    (∃ entry ∈ entries, entry.1 = utf16 cs) ↔ ∃ pair ∈ pairs, pair.1 = cs := by
  induction h with
  | nil => simp
  | @cons pair entry pairs entries hentry _ ih =>
    have hfirst : entry.1 = utf16 cs ↔ pair.1 = cs := by
      rw [hentry.1]
      exact ⟨fun heq => utf16_injective heq, fun heq => heq ▸ rfl⟩
    simp only [List.exists_mem_cons_iff, hfirst, ih]

/-- Of the pairs with one key the last is found in the entries. -/
theorem lastValue_ne_none {pairs : List (List Char × List Char)}
    {entries : List (WString × Value D)} (h : List.Forall₂ (MeansEntry F) pairs entries)
    (cs : List Char) :
    OrderedMap.lastValue (utf16 cs) entries ≠ none ↔ ∃ pair ∈ pairs, pair.1 = cs := by
  rw [Ne, OrderedMap.lastValue_eq_none, ← exists_key h cs]
  push Not
  rfl

/-- Two lists that differ in the mark on their first key describe the same map only if
both keys come again. -/
theorem keys_of_lastValue {key value : List Char} {rest : List (List Char × List Char)}
    {members entries : List (WString × Value D)}
    (hmembers : List.Forall₂ (MeansEntry F) ((byteOrderMark :: key, value) :: rest) members)
    (hentries : List.Forall₂ (MeansEntry F) ((key, value) :: rest) entries)
    (h : ∀ k, OrderedMap.lastValue k entries = OrderedMap.lastValue k members) :
    (∃ pair ∈ rest, pair.1 = byteOrderMark :: key) ∧ ∃ pair ∈ rest, pair.1 = key := by
  have hkeys : ∀ cs, (∃ pair ∈ (key, value) :: rest, pair.1 = cs) ↔
      ∃ pair ∈ (byteOrderMark :: key, value) :: rest, pair.1 = cs := by
    intro cs
    rw [← lastValue_ne_none hentries, ← lastValue_ne_none hmembers, h]
  simp only [List.exists_mem_cons_iff] at hkeys
  constructor
  · exact ((hkeys (byteOrderMark :: key)).mpr (Or.inl rfl)).resolve_left (by simp)
  · exact ((hkeys key).mp (Or.inl rfl)).resolve_left (by simp)

/-- The first pair does not count when both keys come again. -/
theorem lastValue_of_keys {key : List Char} {rest : List (List Char × List Char)}
    {entries : List (WString × Value D)} (v : Value D)
    (hentries : List.Forall₂ (MeansEntry F) rest entries)
    (hmark : ∃ pair ∈ rest, pair.1 = byteOrderMark :: key) (hkey : ∃ pair ∈ rest, pair.1 = key)
    (k : WString) :
    OrderedMap.lastValue k ((utf16 key, v) :: entries)
      = OrderedMap.lastValue k ((utf16 (byteOrderMark :: key), v) :: entries) := by
  unfold OrderedMap.lastValue
  cases hlast : OrderedMap.lastValue k entries with
  | some v => rfl
  | none =>
    have hne : k ≠ utf16 key := by
      rintro rfl
      exact (lastValue_ne_none hentries key).mpr hkey hlast
    have hne' : k ≠ utf16 (byteOrderMark :: key) := by
      rintro rfl
      exact (lastValue_ne_none hentries _).mpr hmark hlast
    rw [if_neg hne, if_neg hne']

/-! ### The exact condition -/

variable (F)

/-- Below the length the conversion can take, a list is read as it is meant exactly
when every pair can be read and a mark in front does no harm. -/
theorem readsParameters_small (s : HttpValueSerializer) (nullCode : Bool)
    {pairs : List (List Char × List Char)} (h : ArePlain pairs)
    (hsize : (utf8 (paramText pairs)).length < 2 ^ 31) :
    ReadsParameters F s nullCode pairs ↔ (∀ pair ∈ pairs, PairOk F pair) ∧ MarkOk pairs := by
  obtain ⟨hok, hbad⟩ := deserialize_seen F s nullCode h hsize
  obtain ⟨⟨key, value⟩, rest, rfl⟩ := List.exists_cons_of_ne_nil h.1
  obtain ⟨c, key, rfl⟩ := List.exists_cons_of_ne_nil (h.2 _ List.mem_cons_self).1.1
  have hnonempty : ∀ pair ∈ rest, pair.1 ≠ [] := fun pair hp =>
    (h.2 pair (List.mem_cons_of_mem _ hp)).1.1
  -- A list that is read has been seen whole.
  have hreads : ReadsParameters F s nullCode ((c :: key, value) :: rest) →
      ∀ pair ∈ seenPairs ((c :: key, value) :: rest), pair.1 ≠ [] ∧ PairOk F pair := by
    rintro ⟨members, entries, s', hdeserialize, -⟩
    by_contra hno
    obtain ⟨s'', hnull⟩ := hbad hno
    cases Except.ok.inj (hnull.symm.trans hdeserialize)
  by_cases hmark : c = byteOrderMark
  · subst hmark
    rw [seenPairs, if_pos rfl] at hreads hok
    have hfirst : PairOk F (key, value) → PairOk F (byteOrderMark :: key, value) := by
      intro hpair
      refine ⟨⟨?_, ?_, ?_⟩, hpair.2⟩ <;> exact fun hprefix =>
        absurd (List.cons_prefix_cons.mp hprefix).1 (by decide)
    constructor
    · intro hread
      have hall := hreads hread
      obtain ⟨members, entries, s', hdeserialize, hmembers, hdescribes⟩ := hread
      obtain ⟨entries', s'', hentries', hdeserialize'⟩ := hok hall
      have hsame := Except.ok.inj (hdeserialize'.symm.trans hdeserialize)
      simp only [Prod.mk.injEq, Option.some.injEq, Value.dictionary.injEq] at hsame
      refine ⟨List.forall_mem_cons.mpr ⟨hfirst (hall _ List.mem_cons_self).2, fun pair hp =>
        (hall pair (List.mem_cons_of_mem _ hp)).2⟩, ?_⟩
      rintro key' value' rest' heq
      simp only [List.cons.injEq, Prod.mk.injEq, true_and] at heq
      obtain ⟨⟨rfl, rfl⟩, rfl⟩ := heq
      refine keys_of_lastValue hmembers hentries' fun k => ?_
      rw [← hdescribes.last_wins k, ← hsame.1]
      exact ((OrderedMap.describes_setAll entries').last_wins k).symm
    · rintro ⟨hall, hmarkOk⟩
      obtain ⟨hmark, pair, hp, hpkey⟩ := hmarkOk key value rest rfl
      -- The key without the mark comes again, so it can be read too.
      have hkey : key ≠ [] ∧ NoKeyword key := by
        rw [← hpkey]
        exact ⟨hnonempty pair hp, (hall pair (List.mem_cons_of_mem _ hp)).1⟩
      obtain ⟨entries, s', hentries, hdeserialize⟩ := hok (List.forall_mem_cons.mpr
        ⟨⟨hkey.1, hkey.2, (hall _ List.mem_cons_self).2⟩, fun pair hp =>
          ⟨hnonempty pair hp, hall pair (List.mem_cons_of_mem _ hp)⟩⟩)
      cases hentries with
      | @cons _ entry _ entries hentry hrest =>
        obtain ⟨k, v⟩ := entry
        obtain rfl : k = utf16 key := hentry.1
        refine ⟨(utf16 (byteOrderMark :: key), v) :: entries, _, s', hdeserialize,
          .cons ⟨rfl, hentry.2⟩ hrest, (OrderedMap.describes_setAll _).sorted, fun k => ?_⟩
        rw [(OrderedMap.describes_setAll _).last_wins k]
        exact lastValue_of_keys v hrest hmark ⟨pair, hp, hpkey⟩ k
  · rw [seenPairs, if_neg hmark] at hreads hok
    constructor
    · intro hread
      refine ⟨fun pair hp => (hreads hread pair hp).2, ?_⟩
      rintro key' value' rest' heq
      simp only [List.cons.injEq, Prod.mk.injEq] at heq
      exact absurd heq.1.1.1 hmark
    · rintro ⟨hall, -⟩
      obtain ⟨entries, s', hentries, hdeserialize⟩ :=
        hok fun pair hp => ⟨(h.2 pair hp).1.1, hall pair hp⟩
      exact ⟨entries, _, s', hdeserialize, hentries, OrderedMap.describes_setAll entries⟩

/-- A text whose length turns negative in the conversion is read as an empty list. -/
theorem not_readsParameters_long (s : HttpValueSerializer) (nullCode : Bool)
    {pairs : List (List Char × List Char)} (h : ArePlain pairs)
    (hlo : 2 ^ 31 ≤ (utf8 (paramText pairs)).length)
    (hhi : (utf8 (paramText pairs)).length < 2 ^ 32) : ¬ReadsParameters F s nullCode pairs := by
  have hcut : utf8ToWide (utf8 (paramText pairs)) = [] := by
    -- As an `int32` the length is negative, and the conversion loop does not run.
    have hlen : srcLen32 (utf8 (paramText pairs)).length = 0 := by
      unfold srcLen32
      rw [Nat.mod_eq_of_lt hhi, if_neg (by omega)]
    unfold utf8ToWide
    rw [hlen, List.take_zero, converUnicode]
  obtain ⟨entries, s₁, hentries, hbuild, hat⟩ := buildValue_readable F
    (kStackLimit - 1) (start_at s (listText [])) (fun _ hp => absurd hp List.not_mem_nil)
    (by decide) (fun _ hp => absurd hp List.not_mem_nil)
  cases hentries
  obtain ⟨s₂, hparse, -⟩ := parseRoot_of_buildValue F nullCode
    (hat.inText List.not_mem_nil List.nil_suffix) hbuild
  rintro ⟨members, entries, s', hdeserialize, hmembers, hdescribes⟩
  have hempty : HttpValueSerializer.deserialize F s (utf8 (paramText pairs)) nullCode
      = .ok (some (.dictionary []), s₂) := by
    unfold HttpValueSerializer.deserialize HttpValueSerializer.deserializeWide
    rw [hcut]
    exact hparse
  have hsame := Except.ok.inj (hempty.symm.trans hdeserialize)
  simp only [Prod.mk.injEq, Option.some.injEq, Value.dictionary.injEq] at hsame
  obtain ⟨⟨key, value⟩, rest, rfl⟩ := List.exists_cons_of_ne_nil h.1
  refine (lastValue_ne_none hmembers key).mpr ⟨(key, value), List.mem_cons_self, rfl⟩ ?_
  rw [← hdescribes.last_wins, ← hsame.1]
  rfl

/-- Which parameter lists `Deserialize` reads as they are meant: those below `2 ^ 31`
bytes of which every pair can be read, where a mark in front does no harm. -/
theorem readsParameters_iff (s : HttpValueSerializer) (nullCode : Bool)
    {pairs : List (List Char × List Char)} (h : ArePlain pairs)
    (hsize : (utf8 (paramText pairs)).length < 2 ^ 32) :
    ReadsParameters F s nullCode pairs ↔
      (utf8 (paramText pairs)).length < 2 ^ 31 ∧ (∀ pair ∈ pairs, PairOk F pair) ∧
        MarkOk pairs := by
  by_cases hsmall : (utf8 (paramText pairs)).length < 2 ^ 31
  · rw [readsParameters_small F s nullCode h hsmall]
    exact ⟨fun hok => ⟨hsmall, hok⟩, fun hok => hok.2⟩
  · constructor
    · exact fun hread =>
        absurd hread (not_readsParameters_long F s nullCode h (not_lt.mp hsmall) hsize)
    · exact fun hok => absurd hok.1 hsmall

end

/-- `a=x&a=b` is read, and the second value wins. -/
theorem readsParameters_twice :
    ArePlain [(['a'], ['x']), (['a'], ['b'])] ∧
      (utf8 (paramText [(['a'], ['x']), (['a'], ['b'])])).length < 2 ^ 32 ∧
      ReadsParameters (⟨fun _ => (), fun _ => true, fun _ => []⟩ : Doubles Unit)
        ⟨[], [], 0, .noError, 0, 0⟩ false [(['a'], ['x']), (['a'], ['b'])] := by
  have hplain : ArePlain [(['a'], ['x']), (['a'], ['b'])] := by
    simp [ArePlain, IsPlain]
  have hword : NoKeyword ['a'] ∧ NoKeyword ['x'] ∧ NoKeyword ['b'] := by
    unfold NoKeyword
    decide
  refine ⟨hplain, by decide, ?_⟩
  refine (readsParameters_iff _ _ false hplain (by decide)).mpr ⟨by decide, ?_, ?_⟩
  -- No key or value begins with a keyword or is a number.
  · intro pair hp
    simp only [List.mem_cons, List.not_mem_nil, or_false] at hp
    rcases hp with rfl | rfl
    · refine ⟨hword.1, Or.inr (Or.inr ⟨hword.2.1, fun hshape => ?_⟩)⟩
      exact absurd (hshape.first _ rfl) (by decide)
    · refine ⟨hword.1, Or.inr (Or.inr ⟨hword.2.2, fun hshape => ?_⟩)⟩
      exact absurd (hshape.first _ rfl) (by decide)
  -- The text does not begin with a byte order mark.
  · intro key value rest heq
    simp only [List.cons.injEq, Prod.mk.injEq] at heq
    exact absurd heq.1.1.1 (by decide)

/-- `a=false` is refused: the keyword is passed with the length of `true`, and its
last letter is left. -/
theorem not_readsParameters_false :
    ArePlain [(['a'], ['f', 'a', 'l', 's', 'e'])] ∧
      ¬ReadsParameters (⟨fun _ => (), fun _ => true, fun _ => []⟩ : Doubles Unit)
        ⟨[], [], 0, .noError, 0, 0⟩ false [(['a'], ['f', 'a', 'l', 's', 'e'])] := by
  have hplain : ArePlain [(['a'], ['f', 'a', 'l', 's', 'e'])] := by
    simp [ArePlain, IsPlain]
  refine ⟨hplain, fun hread => ?_⟩
  obtain ⟨hok, -⟩ := (readsParameters_small _ _ false hplain (by decide)).mp hread
  rcases (hok _ (List.mem_singleton_self _)).2 with heq | heq | ⟨hkeyword, -⟩
  · simp at heq
  · simp at heq
  · exact hkeyword.2.2 List.prefix_rfl

end Mylib.Proofs.Base.Http
