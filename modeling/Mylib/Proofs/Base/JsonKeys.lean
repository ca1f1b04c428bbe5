import Mylib.Proofs.Base.JsonRoundTrip

/-!
# `Mylib.Proofs.Base.JsonKeys`: the keys of a dictionary in JSON

`BuildJSONString` writes a string value in UTF-8, and a key through `WideToASCII`, which keeps
the low byte of every wide character. So a key is written like a value only while each of its
characters is one byte long: `keyLiteral_eq_iff`. `keysSurvive_iff` is the result for a whole
dictionary, and `not_keysSurvive_merged` one whose two keys become one.

The keys are given by the texts they are made of, as `UTF8ToWide` makes them.
-/

set_option autoImplicit false

namespace Mylib.Proofs.Base

open Mylib.Lib
open Mylib.Spec.Base
open JsonValueSerializer JsonGrammar StringConversions StringUtil StringEscape JsonWriter

/-! ### The quoting loses nothing -/

/-- The byte behind a backslash, read back. -/
def unescape (b : UInt8) : UInt8 :=
  if b = 98 then 8 else if b = 102 then 12 else if b = 110 then 10 else if b = 114 then 13
  else if b = 116 then 9 else b

/-- The bytes of a quoted text. -/
def unquote : Str → Str
  | [] => []
  | [b] => [b]
  | b :: c :: str => if b = 92 then unescape c :: unquote str else b :: unquote (c :: str)

/-- The bytes of a quoted character are read back as that character, whatever follows. -/
theorem unquote_quoteChar (b : UInt8) (str : Str) :
    unquote (quoteChar b ++ str) = b :: unquote str := by
  cases h : escaped b with
  | true =>
    simp only [escaped, List.mem_cons, List.not_mem_nil, or_false, decide_eq_true_eq] at h
    have hbyte : ∀ {n : Nat}, b.toNat = n → b = UInt8.ofNat n := by
      intro n hn
      rw [← hn, UInt8.ofNat_toNat]
    rcases h with h | h | h | h | h | h <;> rw [hbyte h] <;> rfl
  | false =>
    have hback : b ≠ 92 := by
      rintro rfl
      exact absurd h (by decide)
    rw [quoteChar_of_not_escaped h, List.singleton_append]
    cases str with
    | nil => rfl
    | cons c str => rw [unquote, if_neg hback]

/-- Different texts are quoted to different ones, byte by byte. -/
theorem quoted_injective {s t : Str} (h : s.flatMap quoteChar = t.flatMap quoteChar) : s = t := by
  have hleft : ∀ s : Str, unquote (s.flatMap quoteChar) = s := by
    intro s
    induction s with
    | nil => rfl
    | cons b s ih => rw [List.flatMap_cons, unquote_quoteChar, ih]
  rw [← hleft s, h, hleft t]

/-! ### One key -/

/-- What `BuildJSONString` writes for a key. -/
def keyLiteral (key : WString) : Str := jsonDoubleQuote (wideToASCII key) true

/-- What it writes for a string value. -/
def valueLiteral (s : Str) : Str := jsonDoubleQuote s true

/-- A text of one-byte characters, shorter than the `int32` bound of `UTF8ToWide`. -/
def AsciiKey (s : Str) : Prop := (∀ b ∈ s, b.toNat < 0x80) ∧ s.length < 2 ^ 31

/-- Only an ASCII text takes as many wide characters as bytes. -/
theorem ascii_of_length_eq {cs : List Char} (h : (utf16 cs).length = (utf8 cs).length) :
    ∀ b ∈ utf8 cs, b.toNat < 0x80 := by
  induction cs with
  | nil => simp [utf8]
  | cons c cs ih =>
    rw [utf16_cons, utf8_cons, List.length_append, List.length_append] at h
    have hrest := length_utf16_le cs
    rw [utf8_cons]
    unfold writeUnicodeCharacter16 at h
    -- One wide character against two or three bytes, or two against four.
    rcases utf8EncodeChar_cases c with ⟨hle, henc⟩ | ⟨_, hhi, henc⟩ | ⟨_, hhi, henc⟩ | ⟨hlo, henc⟩
    · rw [henc, if_pos (by omega)] at h
      intro b hb
      rcases List.mem_append.mp hb with hb | hb
      · rw [henc] at hb
        rw [List.mem_singleton.mp hb, UInt8.toNat_ofNat_of_lt' (by show _ < 256; omega)]
        omega
      · exact ih (by simpa using h) b hb
    · rw [henc, if_pos (by omega)] at h
      simp only [List.length_cons, List.length_nil] at h
      omega
    · rw [henc, if_pos (by omega)] at h
      simp only [List.length_cons, List.length_nil] at h
      omega
    · rw [henc, if_neg (by omega)] at h
      simp only [List.length_cons, List.length_nil] at h
      omega

/-- The two literals of a valid text are the same if and only if the text is ASCII. -/
theorem keyLiteral_eq_iff {s : Str} (hvalid : ValidUtf8 s) :
    keyLiteral (utf8ToWide s) = valueLiteral s ↔ AsciiKey s := by
  constructor
  · intro h
    -- Inside the quotes the two are the same bytes, so their number is that of the characters.
    have hquoted : (wideToASCII (utf8ToWide s)).flatMap quoteChar = s.flatMap quoteChar :=
      List.append_cancel_left (List.append_cancel_right h)
    have hlength : (utf8ToWide s).length = s.length := by
      rw [← congrArg List.length (quoted_injective hquoted), wideToASCII, List.length_map]
    have hlen : s.length < 2 ^ 31 := hlength ▸ utf8ToWide_length_lt s
    obtain ⟨cs, rfl⟩ := hvalid
    rw [utf8ToWide_utf8 hlen] at hlength
    exact ⟨ascii_of_length_eq hlength, hlen⟩
  · intro h
    have hbytes : wideToASCII (s.map UInt8.toNat) = s := by
      rw [wideToASCII, List.map_map]
      refine (List.map_congr_left fun b _ => ?_).trans (List.map_id s)
      exact UInt8.ofNat_toNat
    unfold keyLiteral valueLiteral
    rw [utf8ToWide_of_ascii h.1 h.2, hbytes]

/-! ### The keys of a dictionary -/

section

variable {D : Type} (F : Doubles D) (prettyPrint : Bool)

/-- The dictionary whose keys are made of the texts. -/
def keyed (items : List (Str × Value D)) : List (WString × Value D) :=
  items.map fun item => (utf8ToWide item.1, item.2)

/-- The text of that dictionary. -/
def keyedText (items : List (Str × Value D)) : Str :=
  buildJSONString F prettyPrint false 0 (.dictionary (keyed items))

/-- Every key is written like a value with the same text. If the values themselves can be
written and read, `Deserialize` gives back a dictionary with the same keys. -/
structure KeysSurvive (items : List (Str × Value D)) : Prop where
  literals : ∀ item ∈ items, keyLiteral (utf8ToWide item.1) = valueLiteral item.1
  parsed : (∀ item ∈ items, Plain item.2) →
    height (.dictionary (keyed items)) ≤ kStackLimit →
    (keyedText F prettyPrint items).length < 2 ^ 31 →
    ∀ self : JsonValueSerializer, ∃ entries s',
      deserialize F self (keyedText F prettyPrint items)
        = .ok ((some (.dictionary entries), none), s') ∧
      entries.map Prod.fst = (keyed items).map Prod.fst

/-- The keys are those of the tree, only the values are read differently. -/
theorem fst_asBigEntries (entries : List (WString × Value D)) :
    (asBigEntries entries).map Prod.fst = entries.map Prod.fst := by
  induction entries with
  | nil => rfl
  | cons entry entries ih =>
    obtain ⟨key, value⟩ := entry
    rw [asBigEntries, List.map_cons, List.map_cons, ih]

/-- A text that begins with a brace and holds no zero goes to the parser as it is. -/
theorem deserialize_of_parseRoot {self s' : JsonValueSerializer} {str : Str} {rest : WString}
    {root : Option (Value D)} (hwide : utf8ToWide str = 123 :: rest) (hz : 0 ∉ utf8ToWide str)
    (hroot : parseRoot F (self.start (utf8ToWide str)) = .ok (root, true, s')) :
    deserialize F self str = .ok ((root, none), s') := by
  have hall : (utf8ToWide str).takeWhile (· ≠ 0) = utf8ToWide str := by
    rw [List.takeWhile_eq_self_iff]
    intro c hc
    simpa using fun h : c = 0 => hz (h ▸ hc)
  unfold deserialize deserializeWide
  rw [hall]
  dsimp only
  rw [show CString.deref (utf8ToWide str) 0 = .ok 123 by rw [hwide]; rfl]
  simp [hroot]

/-- The opening brace goes through the conversion by itself. -/
theorem utf8ToWide_brace {rest : Str} (hlen : ((123 : UInt8) :: rest).length < 2 ^ 31) :
    ∃ w, utf8ToWide (123 :: rest) = 123 :: w := by
  have hread : readUnicodeCharacter8 123 rest = (some 123, 0) := by
    simp [readUnicodeCharacter8, next8, isValidCodepoint]
  rw [utf8ToWide, srcLen32_of_lt hlen, List.take_length, converUnicode, hread]
  exact ⟨_, rfl⟩

variable {F prettyPrint}

/-- An ASCII key without a zero and a double quote is one the writer can express. -/
theorem plainKey_of_ascii {s : Str} (h : AsciiKey s) (hzero : 0 ∉ s) (hquote : 34 ∉ s) :
    PlainKey (utf8ToWide s) := by
  rw [utf8ToWide_of_ascii h.1 h.2]
  intro c hc
  obtain ⟨b, hb, rfl⟩ := List.mem_map.mp hc
  refine ⟨Nat.pos_of_ne_zero fun h0 => ?_, h.1 b hb, fun h34 => ?_⟩
  · rw [UInt8.toNat_inj.mp (h0.trans (by decide : 0 = (0 : UInt8).toNat))] at hb
    exact hzero hb
  · rw [UInt8.toNat_inj.mp (h34.trans (by decide : '"'.toNat = (34 : UInt8).toNat))] at hb
    exact hquote hb

/-- The keys of a dictionary survive if and only if they are all made of ASCII texts. -/
theorem keysSurvive_iff (items : List (Str × Value D))
    (hvalid : ∀ item ∈ items, ValidUtf8 item.1 ∧ 0 ∉ item.1 ∧ 34 ∉ item.1)
    (hsorted : OrderedMap.Sorted (keyed items)) :
    KeysSurvive F prettyPrint items ↔ ∀ item ∈ items, AsciiKey item.1 := by
  constructor
  · intro h item hitem
    exact (keyLiteral_eq_iff (hvalid item hitem).1).mp (h.literals item hitem)
  · intro hascii
    refine ⟨fun item hitem => (keyLiteral_eq_iff (hvalid item hitem).1).mpr (hascii item hitem),
      fun hplain hheight hlen self => ?_⟩
    have hdict : Plain (.dictionary (keyed items)) := by
      rw [Plain, plainEntries_iff]
      refine ⟨hsorted, fun entry hentry => ?_⟩
      obtain ⟨item, hitem, rfl⟩ := List.mem_map.mp hentry
      obtain ⟨-, hzero, hquote⟩ := hvalid item hitem
      exact ⟨plainKey_of_ascii (hascii item hitem) hzero hquote, hplain item hitem⟩
    obtain ⟨s', hroot⟩ := roundTrips_of_short (F := F) hdict trivial hheight hlen self
    -- `Deserialize` cuts at a zero and skips a byte order mark; the text has neither.
    have hz : 0 ∉ utf8ToWide (keyedText F prettyPrint items) := by
      obtain ⟨t, b, hemits, -⟩ := @emits_root _ F prettyPrint _ hdict trivial hheight
      have hnul := hemits.nulFree
      obtain ⟨cs, hcs, rfl, -⟩ := hemits
      unfold keyedText at hlen ⊢
      rw [hcs] at hlen ⊢
      rwa [utf8ToWide_utf8 hlen]
    have hbrace : ∃ rest, keyedText F prettyPrint items = 123 :: rest := by
      unfold keyedText
      rw [buildJSONString]
      exact ⟨_, rfl⟩
    obtain ⟨rest, hbrace⟩ := hbrace
    obtain ⟨w, hwide⟩ := utf8ToWide_brace (hbrace ▸ hlen)
    rw [← hbrace] at hwide
    refine ⟨asBigEntries (keyed items), s', ?_, fst_asBigEntries _⟩
    have hdone := deserialize_of_parseRoot F hwide hz hroot
    rwa [asBig] at hdone

end

/-- The keys and values of the failing input are valid UTF-8. -/
theorem validUtf8_letters :
    ValidUtf8 [9] ∧ ValidUtf8 [65] ∧ ValidUtf8 [92, 97] ∧ ValidUtf8 [0xC5, 0x81] :=
  ⟨⟨['\t'], by decide⟩, ⟨['A'], by decide⟩, ⟨['\\', 'a'], by decide⟩, ⟨['\u0141'], by decide⟩⟩

/-- Three ASCII keys, with a control character and a backslash among their bytes. -/
theorem keysSurvive_ascii :
    KeysSurvive (⟨fun _ => (), fun _ => true, fun _ => []⟩ : Doubles Unit) true
      [([9], .null), ([65], .boolean true), ([92, 97], .list [])] := by
  obtain ⟨htab, hletter, hback, -⟩ := validUtf8_letters
  refine (keysSurvive_iff _ ?_ ?_).mpr ?_
  · intro item hitem
    simp only [List.mem_cons, List.not_mem_nil, or_false] at hitem
    rcases hitem with rfl | rfl | rfl
    · exact ⟨htab, by decide⟩
    · exact ⟨hletter, by decide⟩
    · exact ⟨hback, by decide⟩
  · unfold OrderedMap.Sorted keyed
    decide +kernel
  · unfold AsciiKey
    intro item hitem
    simp only [List.mem_cons, List.not_mem_nil, or_false] at hitem
    rcases hitem with rfl | rfl | rfl <;> simp

/-- The texts `A` and `U+0141` make two keys of a dictionary. Both are written as `"A"`. -/
theorem not_keysSurvive_merged :
    (∀ item ∈ ([([65], .null), ([0xC5, 0x81], .null)] : List (Str × Value Unit)),
      ValidUtf8 item.1 ∧ 0 ∉ item.1 ∧ 34 ∉ item.1) ∧
    OrderedMap.Sorted (keyed ([([65], .null), ([0xC5, 0x81], .null)] : List (Str × Value Unit))) ∧
    keyLiteral (utf8ToWide [65]) = keyLiteral (utf8ToWide [0xC5, 0x81]) ∧
    ¬KeysSurvive (⟨fun _ => (), fun _ => true, fun _ => []⟩ : Doubles Unit) false
      [([65], .null), ([0xC5, 0x81], .null)] := by
  obtain ⟨-, hletter, -, hstroke⟩ := validUtf8_letters
  refine ⟨fun item hitem => ?_, ?_, by decide +kernel, fun h => ?_⟩
  · simp only [List.mem_cons, List.not_mem_nil, or_false] at hitem
    rcases hitem with rfl | rfl
    · exact ⟨hletter, by decide⟩
    · exact ⟨hstroke, by decide⟩
  · unfold OrderedMap.Sorted keyed
    decide +kernel
  · have hliteral := h.literals ([0xC5, 0x81], .null) (by simp)
    exact absurd hliteral (by decide +kernel)

end Mylib.Proofs.Base
