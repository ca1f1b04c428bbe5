import Mylib.Proofs.Base.JsonAccepts
import Mylib.Proofs.Base.JsonEmits

/-!
# `Mylib.Proofs.Base.JsonRoundTrip`: what is written is read back

The text `BuildJSONString` emits for a tree, given to the parser. For the trees whose
strings and keys the writer can express, both walks meet in the grammar: the emitted
text is one of `JsonGrammar` (`emits_value`), and the parser reads the grammar
(`buildValue_root`). Integers come back as 64-bit ones.

A text of `2 ^ 31` bytes or more is cut by `UTF8ToWide`, and then the parser never
succeeds: what is left would have to be a document, and the whole text would have to
end where it does (`not_roundTrips_of_long`).
-/

set_option autoImplicit false

namespace Mylib.Proofs.Base

open Mylib.Lib
open Mylib.Spec.Base
open JsonValueSerializer JsonGrammar StringConversions StringUtil StringEscape JsonWriter

section

variable {D : Type}

/-! ### The trees -/

mutual

/-- The trees without reals and blobs, whose strings are valid UTF-8 without a zero
and a double quote and whose keys are plain. -/
def Plain : Value D → Prop
  | .null => True
  | .boolean _ => True
  | .charInteger _ => True
  | .shortInteger _ => True
  | .integer _ => True
  | .bigInteger _ => True
  | .real _ => False
  | .string value => ValidUtf8 value ∧ 0 ∉ value ∧ 34 ∉ value
  | .binary _ => False
  | .dictionary entries => OrderedMap.Sorted entries ∧ PlainEntries entries
  | .list items => PlainItems items

def PlainEntries : List (WString × Value D) → Prop
  | [] => True
  | (key, value) :: entries => PlainKey key ∧ Plain value ∧ PlainEntries entries

def PlainItems : List (Value D) → Prop
  | [] => True
  | value :: items => Plain value ∧ PlainItems items

end

mutual

/-- The nesting height, a scalar being one level. -/
def height : Value D → Nat
  | .dictionary entries => 1 + heightEntries entries
  | .list items => 1 + heightItems items
  | _ => 1

def heightEntries : List (WString × Value D) → Nat
  | [] => 0
  | (_, value) :: entries => max (height value) (heightEntries entries)

def heightItems : List (Value D) → Nat
  | [] => 0
  | value :: items => max (height value) (heightItems items)

end

mutual

/-- The tree with every integer as a 64-bit one. -/
def asBig : Value D → Value D
  | .charInteger value => .bigInteger (Int64.ofInt value.toInt)
  | .shortInteger value => .bigInteger (Int64.ofInt value.toInt)
  | .integer value => .bigInteger (Int64.ofInt value.toInt)
  | .dictionary entries => .dictionary (asBigEntries entries)
  | .list items => .list (asBigItems items)
  | value => value

def asBigEntries : List (WString × Value D) → List (WString × Value D)
  | [] => []
  | (key, value) :: entries => (key, asBig value) :: asBigEntries entries

def asBigItems : List (Value D) → List (Value D)
  | [] => []
  | value :: items => asBig value :: asBigItems items

end

/-- The characters of an integer with its sign, at least `width` of them. -/
def intSize (width : Nat) (n : Int) : Nat :=
  max width ((Nat.toDigits 10 n.natAbs).length + if n < 0 then 1 else 0)

/-- The bytes of a string with its quotes and escapes. -/
def literalSize (s : Str) : Nat := s.length + s.countP escaped + 2

mutual

/-- How many bytes a tree takes in JSON: its scalars, its keys, two brackets for each
container, a comma between two items and a colon in each entry, and the blanks,
line breaks and indentation of pretty printing. -/
def jsonSize (prettyPrint : Bool) (depth : Nat) : Value D → Nat
  | .null => 4
  | .boolean value => if value then 4 else 5
  | .charInteger value => intSize 1 value.toInt
  | .shortInteger value => intSize 2 value.toInt
  | .integer value => intSize 0 value.toInt
  | .bigInteger value => intSize 0 value.toInt
  | .real _ => 0
  | .string value => literalSize value
  | .binary _ => 0
  | .dictionary entries =>
    (if prettyPrint then 4 + 3 * depth else 2) + entriesSize prettyPrint depth entries
      + (entries.length - 1) * (if prettyPrint then 2 else 1)
  | .list items =>
    (if prettyPrint then 4 else 2) + itemsSize prettyPrint depth items
      + (items.length - 1) * (if prettyPrint then 2 else 1)

def entriesSize (prettyPrint : Bool) (depth : Nat) : List (WString × Value D) → Nat
  | [] => 0
  | (key, value) :: entries =>
    (if prettyPrint then 3 * (depth + 1) + 2 else 1) + literalSize (wideToASCII key)
      + jsonSize prettyPrint (depth + 1) value + entriesSize prettyPrint depth entries

def itemsSize (prettyPrint : Bool) (depth : Nat) : List (Value D) → Nat
  | [] => 0
  | value :: items => jsonSize prettyPrint depth value + itemsSize prettyPrint depth items

end

/-- A list is plain if its items are. -/
theorem plainItems_iff {items : List (Value D)} : PlainItems items ↔ ∀ v ∈ items, Plain v := by
  induction items with
  | nil => simp [PlainItems]
  | cons v items ih => rw [PlainItems, ih, List.forall_mem_cons]

/-- A dictionary is plain if its keys and values are. -/
theorem plainEntries_iff {entries : List (WString × Value D)} :
    PlainEntries entries ↔ ∀ p ∈ entries, PlainKey p.1 ∧ Plain p.2 := by
  induction entries with
  | nil => simp [PlainEntries]
  | cons p entries ih =>
    obtain ⟨key, v⟩ := p
    rw [PlainEntries, ih, List.forall_mem_cons, and_assoc]

/-- The height of a list is bounded by that of its items. -/
theorem heightItems_le {items : List (Value D)} {n : Nat} :
    heightItems items ≤ n ↔ ∀ v ∈ items, height v ≤ n := by
  induction items with
  | nil => simp [heightItems]
  | cons v items ih => rw [heightItems, Nat.max_le, ih, List.forall_mem_cons]

/-- The same for a dictionary. -/
theorem heightEntries_le {entries : List (WString × Value D)} {n : Nat} :
    heightEntries entries ≤ n ↔ ∀ p ∈ entries, height p.2 ≤ n := by
  induction entries with
  | nil => simp [heightEntries]
  | cons p entries ih =>
    obtain ⟨key, v⟩ := p
    rw [heightEntries, Nat.max_le, ih, List.forall_mem_cons]

/-- Every value has a height. -/
theorem height_pos (v : Value D) : 0 < height v := by
  cases v <;> simp [height]

/-- Integers are replaced item by item. -/
theorem asBigItems_eq (items : List (Value D)) : asBigItems items = items.map asBig := by
  induction items with
  | nil => rfl
  | cons v items ih => rw [asBigItems, ih, List.map_cons]

/-- Integers are replaced entry by entry, and keys stay. -/
theorem asBigEntries_eq (entries : List (WString × Value D)) :
    asBigEntries entries = entries.map fun p => (p.1, asBig p.2) := by
  induction entries with
  | nil => rfl
  | cons p entries ih =>
    obtain ⟨key, v⟩ := p
    rw [asBigEntries, ih, List.map_cons]

/-! ### The writer's loops -/

variable (F : Doubles D) (prettyPrint : Bool)

/-- What the writer puts between two items. -/
def itemSep : Str := text [','] ++ pretty prettyPrint [' ']

/-- What the writer puts between two entries. -/
def entrySep : Str := text [','] ++ pretty prettyPrint ['\n']

/-- The text of one entry, from the indentation on. -/
def emitEntry (depth : Nat) (p : WString × Value D) : Str :=
  (if prettyPrint then indentLine (depth + 1) else [])
    ++ jsonDoubleQuote (wideToASCII p.1) true
    ++ (if prettyPrint then text [':', ' '] else text [':'])
    ++ buildJSONString F prettyPrint false (depth + 1) p.2

/-- Behind the first item every item has its separator in front. -/
theorem buildItems_rest (depth : Nat) (items : List (Value D)) :
    buildItems F prettyPrint false depth false items
      = items.flatMap fun v =>
        itemSep prettyPrint ++ buildJSONString F prettyPrint false depth v := by
  induction items with
  | nil => rfl
  | cons v items ih =>
    rw [buildItems, ih]
    rfl

/-- The items as they are written, with separators between them. -/
theorem buildItems_eq_joined (depth : Nat) (items : List (Value D)) :
    buildItems F prettyPrint false depth true items
      = joined (itemSep prettyPrint) (buildJSONString F prettyPrint false depth) items := by
  cases items with
  | nil => rfl
  | cons v items =>
    rw [buildItems, buildItems_rest]
    rfl

/-- Behind the first entry every entry has its separator in front. -/
theorem buildEntries_rest (depth : Nat) (entries : List (WString × Value D)) :
    buildEntries F prettyPrint false depth false entries
      = entries.flatMap fun p => entrySep prettyPrint ++ emitEntry F prettyPrint depth p := by
  induction entries with
  | nil => rfl
  | cons p entries ih =>
    obtain ⟨key, v⟩ := p
    rw [buildEntries, ih]
    simp only [List.flatMap_cons, emitEntry, entrySep, List.append_assoc]
    rfl

/-- The entries as they are written, with separators between them. -/
theorem buildEntries_eq_joined (depth : Nat) (entries : List (WString × Value D)) :
    buildEntries F prettyPrint false depth true entries
      = joined (entrySep prettyPrint) (emitEntry F prettyPrint depth) entries := by
  cases entries with
  | nil => rfl
  | cons p entries =>
    obtain ⟨key, v⟩ := p
    rw [buildEntries, buildEntries_rest]
    simp only [joined, emitEntry, List.append_assoc]
    rfl

/-- What the pretty printer puts in is a gap. -/
theorem emitsGap_pretty {cs : List Char} (h : cs.all isFiller = true) :
    ∃ g, EmitsGap (pretty prettyPrint cs) g := by
  unfold pretty
  split_ifs
  · exact ⟨_, emitsGap_text h⟩
  · exact ⟨[], EmitsGap.nil⟩

/-- A separator is a comma and a gap. -/
theorem emits_sep {cs : List Char} (h : cs.all isFiller = true) :
    ∃ g, Gap g ∧ Emits (text [','] ++ pretty prettyPrint cs) (','.toNat :: g) := by
  obtain ⟨g, hg⟩ := emitsGap_pretty prettyPrint h
  exact ⟨g, hg.gap, (emits_text rfl).append hg.emits⟩

/-! ### The text of a container -/

variable {F prettyPrint}

/-- The text of an array, once its items' texts are known. -/
theorem emits_list {n depth : Nat} {items : List (Value D)}
    (h : ∀ v ∈ items,
      EmitsItem (buildJSONString F prettyPrint false depth) asBig (JsonText F n) v) :
    ∃ t bs, Emits (buildJSONString F prettyPrint false depth (.list items)) t ∧
      JsonText F (n + 1) t (.list bs) ∧
      ((buildJSONString F prettyPrint false depth (.list items)).length < 2 ^ 31 →
        bs = items.map asBig) := by
  obtain ⟨gs, hgs, hsep⟩ := @emits_sep prettyPrint [' '] rfl
  obtain ⟨g, hg⟩ := @emitsGap_pretty prettyPrint [' '] rfl
  have htail : Emits (pretty prettyPrint [' '] ++ text [']']) (g ++ [']'.toNat]) :=
    hg.emits.append (emits_text rfl)
  obtain ⟨u, bs, hu, hitems, hbs⟩ := emits_items hsep hgs hg htail hg.gap h
  have htext : buildJSONString F prettyPrint false depth (.list items)
      = text ['['] ++ (pretty prettyPrint [' ']
          ++ joined (itemSep prettyPrint) (buildJSONString F prettyPrint false depth) items
          ++ (pretty prettyPrint [' '] ++ text [']'])) := by
    rw [buildJSONString, buildItems_eq_joined]
    simp only [List.append_assoc]
  refine ⟨'['.toNat :: u, bs, ?_, ValueText.array hitems, fun hlen => hbs ?_⟩
  · rw [htext]
    exact (@emits_text ['['] rfl).append hu
  · rw [htext] at hlen
    simp only [List.length_append] at hlen
    exact Nat.lt_of_le_of_lt (by simp only [itemSep]; omega) hlen

/-- The text of an entry. -/
theorem emits_entry {n depth : Nat} {p : WString × Value D} (hkey : PlainKey p.1)
    (h : EmitsItem (buildJSONString F prettyPrint false (depth + 1)) asBig (JsonText F n) p.2) :
    EmitsItem (emitEntry F prettyPrint depth) (fun p => (p.1, asBig p.2))
      (Member (JsonText F n)) p := by
  obtain ⟨g, t, b, hemits, hg, htext, hb⟩ := h
  obtain ⟨k, w, hquoted, hchars, hkeyOf⟩ := emits_key hkey
  obtain ⟨gi, hgi⟩ : ∃ gi, EmitsGap (if prettyPrint then indentLine (depth + 1) else []) gi := by
    split_ifs
    · exact emitsGap_replicate _
    · exact ⟨[], EmitsGap.nil⟩
  obtain ⟨gc, hgc, hcolon⟩ : ∃ gc, Gap gc ∧
      Emits (if prettyPrint then text [':', ' '] else text [':']) (':'.toNat :: gc) := by
    split_ifs
    · exact ⟨wide [' '], gap_of_blanks (by decide), @emits_text [':', ' '] rfl⟩
    · exact ⟨[], Gap.nil, @emits_text [':'] rfl⟩
  refine ⟨gi, _, (keyOf w, b), ?_, hgi.gap, Member.mk hchars Gap.nil (gap_append hgc hg) htext,
    fun hlen => ?_⟩
  · have hall := ((hgi.emits.append hquoted).append hcolon).append hemits
    simpa only [emitEntry, List.append_assoc, List.cons_append, List.nil_append] using hall
  · simp only [emitEntry, List.length_append] at hlen
    rw [hkeyOf (by omega), hb (by omega)]

/-- The text of an object, once its values' texts are known. Its keys rise, so the
pairs that are read back line up as they were. -/
theorem emits_dictionary {n depth : Nat} {entries : List (WString × Value D)}
    (hsorted : OrderedMap.Sorted entries)
    (h : ∀ p ∈ entries, PlainKey p.1 ∧
      EmitsItem (buildJSONString F prettyPrint false (depth + 1)) asBig (JsonText F n) p.2) :
    ∃ t es, Emits (buildJSONString F prettyPrint false depth (.dictionary entries)) t ∧
      JsonText F (n + 1) t (.dictionary es) ∧
      ((buildJSONString F prettyPrint false depth (.dictionary entries)).length < 2 ^ 31 →
        es = entries.map fun p => (p.1, asBig p.2)) := by
  obtain ⟨gs, hgs, hsep⟩ := @emits_sep prettyPrint ['\n'] rfl
  obtain ⟨g, hg⟩ := @emitsGap_pretty prettyPrint ['\n'] rfl
  obtain ⟨gt, hgt⟩ : ∃ gt, EmitsGap
      (if prettyPrint then text ['\n'] ++ indentLine depth else []) gt := by
    split_ifs
    · obtain ⟨gi, hgi⟩ := emitsGap_replicate (depth * 3)
      exact ⟨_, (@emitsGap_text ['\n'] rfl).append hgi⟩
    · exact ⟨[], EmitsGap.nil⟩
  have htail := hgt.emits.append (@emits_text ['}'] rfl)
  obtain ⟨u, ms, hu, hitems, hms⟩ := emits_items hsep hgs hg htail hgt.gap
    fun p hp => emits_entry (h p hp).1 (h p hp).2
  have htext : buildJSONString F prettyPrint false depth (.dictionary entries)
      = text ['{'] ++ (pretty prettyPrint ['\n']
          ++ joined (entrySep prettyPrint) (emitEntry F prettyPrint depth) entries
          ++ ((if prettyPrint then text ['\n'] ++ indentLine depth else []) ++ text ['}'])) := by
    rw [buildJSONString, buildEntries_eq_joined]
    simp only [List.append_assoc]
  refine ⟨'{'.toNat :: u, OrderedMap.setAll [] ms, ?_,
    ValueText.object hitems (OrderedMap.describes_setAll ms), fun hlen => ?_⟩
  · rw [htext]
    exact (@emits_text ['{'] rfl).append hu
  · rw [htext] at hlen
    simp only [List.length_append] at hlen
    rw [hms (Nat.lt_of_le_of_lt (by simp only [entrySep]; omega) hlen)]
    -- The entries are emitted in the order of the keys, so setting them one by one appends them.
    have hmapped : OrderedMap.Sorted (entries.map fun p => (p.1, asBig p.2)) :=
      List.pairwise_map.mpr hsorted
    rw [OrderedMap.setAll_eq_append (by simpa using hmapped), List.nil_append]

/-! ### The text of a value -/

/-- A value the writer prints as a number of at most 64 bits. -/
theorem emits_int {n depth : Nat} {v : Value D} (width : Nat) (i : Int)
    (hemit : buildJSONString F prettyPrint false depth v = formatInt width i)
    (hbig : asBig v = .bigInteger (Int64.ofInt i)) (hlo : -2 ^ 63 ≤ i) (hhi : i < 2 ^ 63) :
    EmitsItem (buildJSONString F prettyPrint false depth) asBig (JsonText F (n + 1)) v := by
  obtain ⟨g, hg, hemits⟩ := emits_formatInt width i
  refine ⟨g, _, _, ?_, hg, ValueText.number (denote_intNumber F hlo hhi), fun _ => hbig.symm⟩
  rw [hemit]
  exact hemits

/-- The text of a plain container, once the texts of what it holds are known. -/
theorem emits_container {n depth : Nat}
    (ih : ∀ {v : Value D} (depth : Nat), Plain v → height v ≤ n →
      EmitsItem (buildJSONString F prettyPrint false depth) asBig (JsonText F n) v)
    {v : Value D} (hplain : Plain v) (hcontainer : IsContainer v) (hheight : height v ≤ n + 1) :
    ∃ t b, Emits (buildJSONString F prettyPrint false depth v) t ∧ JsonText F (n + 1) t b ∧
      IsContainer b ∧
      ((buildJSONString F prettyPrint false depth v).length < 2 ^ 31 → b = asBig v) := by
  cases v with
  | list items =>
    rw [Plain, plainItems_iff] at hplain
    have hitems : ∀ v ∈ items, height v ≤ n := heightItems_le.mp (by rw [height] at hheight; omega)
    obtain ⟨t, bs, hemits, htext, hbs⟩ :=
      emits_list fun v hv => ih depth (hplain v hv) (hitems v hv)
    refine ⟨t, _, hemits, htext, trivial, fun hlen => ?_⟩
    rw [hbs hlen, asBig, asBigItems_eq]
  | dictionary entries =>
    rw [Plain, plainEntries_iff] at hplain
    have hentries : ∀ p ∈ entries, height p.2 ≤ n :=
      heightEntries_le.mp (by rw [height] at hheight; omega)
    obtain ⟨t, es, hemits, htext, hes⟩ := emits_dictionary hplain.1 fun p hp =>
      ⟨(hplain.2 p hp).1, ih (depth + 1) (hplain.2 p hp).2 (hentries p hp)⟩
    refine ⟨t, _, hemits, htext, trivial, fun hlen => ?_⟩
    rw [hes hlen, asBig, asBigEntries_eq]
  | null | boolean | charInteger | shortInteger | integer | bigInteger | real | string | binary =>
    exact absurd hcontainer id

/-- The emitted text of a plain tree is a text of the grammar, and stands for the
tree when its length fits an `int32`. -/
theorem emits_value {n : Nat} : ∀ {v : Value D} (depth : Nat), Plain v → height v ≤ n →
    EmitsItem (buildJSONString F prettyPrint false depth) asBig (JsonText F n) v := by
  -- By induction on the height, so that the items of a container are covered by `ih` at once.
  induction n with
  | zero =>
    intro v depth _ hheight
    exact absurd (height_pos v) (by omega)
  | succ n ih =>
    intro v depth hplain hheight
    cases v with
    | null =>
      exact ⟨[], _, _, @emits_text ['n', 'u', 'l', 'l'] rfl, Gap.nil, ValueText.null,
        fun _ => rfl⟩
    | boolean value =>
      cases value with
      | true =>
        exact ⟨[], _, _, @emits_text ['t', 'r', 'u', 'e'] rfl, Gap.nil,
          ValueText.boolTrue, fun _ => rfl⟩
      | false =>
        exact ⟨[], _, _, @emits_text ['f', 'a', 'l', 's', 'e'] rfl, Gap.nil,
          ValueText.boolFalse, fun _ => rfl⟩
    | charInteger value =>
      have hlo := value.le_toInt
      have hhi := value.toInt_lt
      exact emits_int 1 value.toInt (by rw [buildJSONString]) (by rw [asBig]) (by omega) (by omega)
    | shortInteger value =>
      have hlo := value.le_toInt
      have hhi := value.toInt_lt
      exact emits_int 2 value.toInt (by rw [buildJSONString]) (by rw [asBig]) (by omega) (by omega)
    | integer value =>
      have hlo := value.le_toInt
      have hhi := value.toInt_lt
      exact emits_int 0 value.toInt (by rw [buildJSONString]) (by rw [asBig]) (by omega) (by omega)
    | bigInteger value =>
      have hbig : asBig (.bigInteger value : Value D) = .bigInteger (Int64.ofInt value.toInt) := by
        rw [Int64.ofInt_toInt]
        simp [asBig]
      exact emits_int 0 value.toInt (by rw [buildJSONString]) hbig value.le_toInt value.toInt_lt
    -- What is not plain: doubles are printed by the C library, and binaries not at all.
    | real value => exact absurd hplain id
    | binary value => exact absurd hplain id
    | string value =>
      obtain ⟨⟨cs, rfl⟩, hz, hquote⟩ := hplain
      have hquote : '"' ∉ cs := by rwa [mem_utf8_iff (c := '"') rfl (by decide)] at hquote
      have hz : '\x00' ∉ cs := by rwa [mem_utf8_iff (c := '\x00') rfl (by decide)] at hz
      obtain ⟨hemits, hchars⟩ := emits_jsonDoubleQuote hquote hz
      have htext : buildJSONString F prettyPrint false depth (.string (utf8 cs))
          = jsonDoubleQuote (utf8 cs) true := by
        rw [buildJSONString]
        rfl
      refine ⟨[], _, _, ?_, Gap.nil, ValueText.string hchars, fun hlen => ?_⟩
      · rw [htext]
        exact hemits
      · rw [htext, jsonDoubleQuote_utf8] at hlen
        rw [createStringValue_utf16 hlen]
        simp [asBig]
    | list items =>
      obtain ⟨t, b, hemits, htext, -, hb⟩ := emits_container ih hplain trivial hheight
      exact ⟨[], t, b, hemits, Gap.nil, htext, hb⟩
    | dictionary entries =>
      obtain ⟨t, b, hemits, htext, -, hb⟩ := emits_container ih hplain trivial hheight
      exact ⟨[], t, b, hemits, Gap.nil, htext, hb⟩

/-! ### The length of the text -/

/-- The size of a printed integer. -/
theorem length_formatInt (width : Nat) (n : Int) :
    (formatInt width n).length = intSize width n := by
  have hdigits : (signedDecimal n).length
      = (Nat.toDigits 10 n.natAbs).length + if n < 0 then 1 else 0 := by
    unfold signedDecimal decimal text
    split_ifs <;> simp
  unfold formatInt intSize
  rw [List.length_append, List.length_replicate, hdigits]
  omega

/-- The size of the separator between items. -/
theorem length_itemSep : (itemSep prettyPrint).length = if prettyPrint then 2 else 1 := by
  cases prettyPrint <;> rfl

/-- The size of the separator between entries. -/
theorem length_entrySep : (entrySep prettyPrint).length = if prettyPrint then 2 else 1 := by
  cases prettyPrint <;> rfl

/-- The size of an entry: its indent, its quoted key, the colon and its value. -/
theorem length_emitEntry (depth : Nat) (p : WString × Value D) :
    (emitEntry F prettyPrint depth p).length
      = (if prettyPrint then 3 * (depth + 1) + 2 else 1) + literalSize (wideToASCII p.1)
        + (buildJSONString F prettyPrint false (depth + 1) p.2).length := by
  have hliteral : (jsonDoubleQuote (wideToASCII p.1) true).length
      = literalSize (wideToASCII p.1) := length_jsonDoubleQuote _
  unfold emitEntry
  simp only [List.length_append, hliteral]
  cases prettyPrint with
  | false =>
    simp [text]
    omega
  | true =>
    simp [text, indentLine]
    omega

/-- The size of a list, from that of its items. -/
theorem length_buildItems {depth : Nat} {items : List (Value D)}
    (h : ∀ v ∈ items, (buildJSONString F prettyPrint false depth v).length
      = jsonSize prettyPrint depth v) :
    (items.map fun v => (buildJSONString F prettyPrint false depth v).length).sum
      = itemsSize prettyPrint depth items := by
  induction items with
  | nil => rfl
  | cons v items ih =>
    rw [List.map_cons, List.sum_cons, itemsSize, h v List.mem_cons_self,
      ih fun u hu => h u (List.mem_cons_of_mem _ hu)]

/-- The size of a dictionary, from that of its values. -/
theorem length_buildEntries {depth : Nat} {entries : List (WString × Value D)}
    (h : ∀ p ∈ entries, (buildJSONString F prettyPrint false (depth + 1) p.2).length
      = jsonSize prettyPrint (depth + 1) p.2) :
    (entries.map fun p => (emitEntry F prettyPrint depth p).length).sum
      = entriesSize prettyPrint depth entries := by
  induction entries with
  | nil => rfl
  | cons p entries ih =>
    obtain ⟨key, v⟩ := p
    rw [List.map_cons, List.sum_cons, entriesSize, length_emitEntry, h _ List.mem_cons_self,
      ih fun u hu => h u (List.mem_cons_of_mem _ hu)]

/-- The emitted text has the size of the tree. -/
theorem length_buildJSONString {n : Nat} : ∀ {v : Value D} (depth : Nat), Plain v →
    height v ≤ n → (buildJSONString F prettyPrint false depth v).length
      = jsonSize prettyPrint depth v := by
  induction n with
  | zero =>
    intro v depth _ hheight
    exact absurd (height_pos v) (by omega)
  | succ n ih =>
    intro v depth hplain hheight
    cases v with
    | null => rfl
    | boolean value => cases value <;> rfl
    -- The four kinds of integers are printed by one function.
    | charInteger value | shortInteger value | integer value | bigInteger value =>
      rw [buildJSONString, length_formatInt, jsonSize]
    | real value | binary value => exact absurd hplain id
    | string value =>
      rw [jsonSize, literalSize, ← length_jsonDoubleQuote, buildJSONString]
      rfl
    -- A list: its items, the separators between them and the brackets.
    | list items =>
      rw [Plain, plainItems_iff] at hplain
      have hitems : ∀ v ∈ items, height v ≤ n :=
        heightItems_le.mp (by rw [height] at hheight; omega)
      rw [buildJSONString, jsonSize, buildItems_eq_joined,
        ← length_buildItems fun v hv => ih depth (hplain v hv) (hitems v hv)]
      simp only [List.length_append, length_joined, length_itemSep]
      cases prettyPrint <;> simp [text, pretty] <;> omega
    -- A dictionary: its entries are written one level deeper.
    | dictionary entries =>
      rw [Plain, plainEntries_iff] at hplain
      have hentries : ∀ p ∈ entries, height p.2 ≤ n :=
        heightEntries_le.mp (by rw [height] at hheight; omega)
      rw [buildJSONString, jsonSize, buildEntries_eq_joined,
        ← length_buildEntries fun p hp => ih (depth + 1) (hplain.2 p hp).2 (hentries p hp)]
      simp only [List.length_append, length_joined, length_entrySep]
      cases prettyPrint <;> simp [text, pretty, indentLine] <;> omega

/-! ### There and back -/

/-- Behind an item, a container's text ends with its closing character. -/
theorem moreItems_last {α : Type} {item : WString → α → Prop} {close : WChar} {u : WString}
    {as : List α} (h : MoreItems item close u as) : ∃ u', u = u' ++ [close] := by
  induction h with
  | close => exact ⟨_, rfl⟩
  | @trailing g g' => exact ⟨g ++ ','.toNat :: g', by simp⟩
  | @next g g' t u a as _ _ _ _ ih =>
    obtain ⟨u', rfl⟩ := ih
    exact ⟨g ++ ','.toNat :: (g' ++ t ++ u'), by simp⟩

/-- The text of a container ends with its closing character, also that of an empty one. -/
theorem items_last {α : Type} {item : WString → α → Prop} {close : WChar} {u : WString}
    {as : List α} (h : Items item close u as) : ∃ u', u = u' ++ [close] := by
  cases h with
  | empty => exact ⟨_, rfl⟩
  | @items g t u a as _ _ hmore =>
    obtain ⟨u', rfl⟩ := moreItems_last hmore
    exact ⟨g ++ t ++ u', by simp⟩

/-- A container's text ends in a bracket. -/
theorem jsonText_last {n : Nat} {t : WString} {v : Value D} (h : JsonText F n t v)
    (hcontainer : IsContainer v) : ∃ t' c, t = t' ++ [c] ∧ c ≠ 0xFFFD := by
  cases n with
  | zero => exact absurd h id
  | succ n =>
    change ValueText F (JsonText F n) t v at h
    cases h with
    | null | boolTrue | boolFalse | string => exact absurd hcontainer id
    | number hdenote => exact absurd hcontainer (number_not_container F hdenote)
    | array hitems =>
      obtain ⟨u', rfl⟩ := items_last hitems
      exact ⟨'['.toNat :: u', _, rfl, by decide⟩
    | object hitems _ =>
      obtain ⟨u', rfl⟩ := items_last hitems
      exact ⟨'{'.toNat :: u', _, rfl, by decide⟩

/-- What stands before a bracket stands before the cut. -/
theorem prefix_of_cut {a t' e w cut : WString} {c : WChar} (hc : c ≠ 0xFFFD)
    (hcut : cut ⊆ [0xFFFD]) (h : a ++ (t' ++ [c]) ++ e = w ++ cut) :
    ∃ e', w = a ++ (t' ++ [c]) ++ e' := by
  rcases List.append_eq_append_iff.mp h with ⟨e', hw, -⟩ | ⟨x, hx, hcutx⟩
  · exact ⟨e', hw⟩
  · rcases List.eq_nil_or_concat' x with rfl | ⟨x', y, rfl⟩
    · exact ⟨[], by rw [hx, List.append_nil, List.append_nil]⟩
    · have hlast : (a ++ t') ++ [c] = (w ++ x') ++ [y] := by
        rw [List.append_assoc, hx, List.append_assoc]
      have hcy := (List.cons.inj (List.append_inj' hlast rfl).2).1
      have hmem : c ∈ cut := by
        rw [hcutx, hcy]
        simp
      exact absurd (List.mem_singleton.mp (hcut hmem)) hc

variable (F prettyPrint)

/-- The parser, given the text of `v`, succeeds and returns `v` with its integers as
64-bit ones. -/
def RoundTrips (v : Value D) : Prop :=
  ∀ self : JsonValueSerializer, ∃ s',
    parseRoot F (self.start (utf8ToWide (buildJSONString F prettyPrint false 0 v)))
      = .ok (some (asBig v), true, s')

variable {F prettyPrint} {v : Value D}

/-- What is written for a plain container is a text of the grammar. Below 2 ^ 31 bytes it denotes
the value; at or above it a string or a key may have been cut. -/
theorem emits_root (hplain : Plain v) (hcontainer : IsContainer v)
    (hheight : height v ≤ kStackLimit) :
    ∃ t b, Emits (buildJSONString F prettyPrint false 0 v) t ∧ JsonText F kStackLimit t b ∧
      IsContainer b ∧
      ((buildJSONString F prettyPrint false 0 v).length < 2 ^ 31 → b = asBig v) :=
  emits_container emits_value hplain hcontainer hheight

/-- A text below 2 ^ 31 bytes comes back. -/
theorem roundTrips_of_short (hplain : Plain v) (hcontainer : IsContainer v)
    (hheight : height v ≤ kStackLimit)
    (hlen : (buildJSONString F prettyPrint false 0 v).length < 2 ^ 31) :
    RoundTrips F prettyPrint v := by
  intro self
  obtain ⟨t, b, hemits, htext, hb, hbig⟩ := emits_root hplain hcontainer hheight
  obtain rfl := hbig hlen
  have hz := hemits.nulFree
  obtain ⟨cs, hcs, rfl, -⟩ := hemits
  rw [hcs] at hlen ⊢
  rw [utf8ToWide_utf8 hlen]
  refine parseRoot_of_document F self hz ⟨⟨[], _, [], ?_, Gap.nil, EndGap.gap Gap.nil, htext⟩, hb⟩
  rw [List.nil_append, List.append_nil]

/-- A text of `2 ^ 31` bytes is not read back: what is left of it would be a
document, and the root of the whole text would end with it. -/
theorem not_roundTrips_of_long (hplain : Plain v) (hcontainer : IsContainer v)
    (hheight : height v ≤ kStackLimit)
    (hlen : 2 ^ 31 ≤ (buildJSONString F prettyPrint false 0 v).length) :
    ¬RoundTrips F prettyPrint v := by
  intro h
  let self : JsonValueSerializer := ⟨[], [], 0, true, .noError, 0, 0⟩
  obtain ⟨s', hroot⟩ := h self
  obtain ⟨t, b, hemits, htext, hb, -⟩ := emits_root hplain hcontainer hheight
  have hz := hemits.nulFree
  obtain ⟨cs, hcs, rfl, hnul⟩ := hemits
  rw [hcs] at hlen hroot
  obtain ⟨ds, e, es, cut, rfl, hcut, -, hwide⟩ := utf8ToWide_long hlen
  rw [hwide] at hroot
  rw [utf16_append] at hz
  have hz' : 0 ∉ utf16 ds ++ cut := by
    rw [List.mem_append, not_or] at hz ⊢
    exact ⟨hz.1, fun hmem => absurd (hcut hmem) (by decide)⟩
  -- The text that is left ends inside the whole one.
  obtain ⟨⟨g, t, e', hparts, hg, -, htext'⟩, hcontainer'⟩ := document_of_parseRoot F hz' hroot
  obtain ⟨t', c, rfl, hc⟩ := jsonText_last htext' hcontainer'
  obtain ⟨rest, hds⟩ := prefix_of_cut hc hcut hparts.symm
  have hzg : 0 ∉ g ++ (t' ++ [c]) := by
    intro hmem
    refine hz (List.mem_append_left _ ?_)
    rw [hds]
    exact List.mem_append_left _ hmem
  have hzw : 0 ∉ [] ++ utf16 (ds ++ e :: es) := by rwa [List.nil_append, utf16_append]
  have hsplit : g ++ (t' ++ [c]) ++ (rest ++ utf16 (e :: es))
      = [] ++ utf16 (ds ++ e :: es) ++ [] := by
    rw [List.nil_append, List.append_nil, utf16_append, hds]
    simp only [List.append_assoc]
  -- Both readings of the whole text start with the same call of `BuildValue`.
  have hshort := buildValue_root F self (rest ++ utf16 (e :: es)) hg htext' hcontainer' hzg
  have hfull := buildValue_root F self [] Gap.nil htext hb hzw
  rw [hsplit] at hshort
  obtain ⟨-, hstate⟩ := Prod.mk.inj (Except.ok.inj (hshort.symm.trans hfull))
  have hpos : rest ++ utf16 (e :: es) = [] := by
    simpa only [moveTo_jsonPos] using congrArg JsonValueSerializer.jsonPos hstate
  have hnil : writeUnicodeCharacter16 e.toNat = [] :=
    (List.append_eq_nil_iff.mp (List.append_eq_nil_iff.mp hpos).2).1
  unfold writeUnicodeCharacter16 at hnil
  split_ifs at hnil

/-- A plain container of at most `kStackLimit` levels is read back from its text
exactly when its size fits an `int32`. -/
theorem roundTrips_iff (F : Doubles D) (prettyPrint : Bool) (hplain : Plain v)
    (hcontainer : IsContainer v) (hheight : height v ≤ 100) :
    RoundTrips F prettyPrint v ↔ jsonSize prettyPrint 0 v < 2 ^ 31 := by
  rw [← length_buildJSONString (F := F) 0 hplain (Nat.le_refl _)]
  constructor
  · intro h
    by_contra hlong
    exact not_roundTrips_of_long hplain hcontainer hheight (Nat.not_lt.mp hlong) h
  · exact roundTrips_of_short hplain hcontainer hheight

end

/-- The tree `{"a": [null, 7]}`, pretty printed. -/
theorem roundTrips_iff_small :
    Plain (.dictionary [([97], .list [.null, .shortInteger 7])] : Value Unit) ∧
      RoundTrips (⟨fun _ => (), fun _ => true, fun _ => []⟩ : Doubles Unit) true
        (.dictionary [([97], .list [.null, .shortInteger 7])]) := by
  have hplain : Plain (.dictionary [([97], .list [.null, .shortInteger 7])] : Value Unit) := by
    refine ⟨List.pairwise_singleton _ _, ?_, ?_, trivial⟩
    · show PlainKey [97]
      decide
    · exact ⟨trivial, trivial, trivial⟩
  exact ⟨hplain, (roundTrips_iff _ true hplain trivial (by decide)).mpr (by decide)⟩

/-- The trees of the failing inputs are plain. -/
theorem plain_letters (n : Nat) :
    Plain (.list [.string (List.replicate n 97)] : Value Unit) := by
  have hutf8 : List.replicate n 97 = utf8 (List.replicate n 'a') := by
    induction n with
    | zero => rfl
    | succ n ih =>
      rw [List.replicate_succ, List.replicate_succ, utf8_cons, ih]
      rfl
  refine ⟨⟨⟨_, hutf8⟩, ?_, ?_⟩, trivial⟩
  · rw [List.mem_replicate]
    simp
  · rw [List.mem_replicate]
    simp

/-- Their texts get as long as one likes. -/
theorem length_letters (F : Doubles Unit) (n : Nat) :
    n ≤ (buildJSONString F false false 0 (.list [.string (List.replicate n 97)])).length := by
  rw [length_buildJSONString 0 (plain_letters n) (Nat.le_refl _)]
  simp only [jsonSize, itemsSize, literalSize, List.length_replicate]
  omega

/-- A list of one string of `2 ^ 31` letters is not read back. -/
theorem not_roundTrips_of_letters :
    Plain (.list [.string (List.replicate (2 ^ 31) 97)] : Value Unit) ∧
      height (.list [.string (List.replicate (2 ^ 31) 97)] : Value Unit) ≤ 100 ∧
      ¬RoundTrips (⟨fun _ => (), fun _ => true, fun _ => []⟩ : Doubles Unit) false
        (.list [.string (List.replicate (2 ^ 31) 97)]) := by
  have hheight : ∀ s : Str, height (.list [.string s] : Value Unit) ≤ 100 := by
    intro s
    simp [height, heightItems]
  exact ⟨plain_letters _, hheight _,
    not_roundTrips_of_long (plain_letters _) trivial (hheight _) (length_letters _ _)⟩

end Mylib.Proofs.Base
