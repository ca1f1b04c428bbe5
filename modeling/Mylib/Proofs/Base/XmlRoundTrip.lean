import Mylib.Proofs.Base.XmlBalance
import Mylib.Proofs.Base.XmlMerge
import Mylib.Proofs.Base.XmlReturns

/-!
# `Mylib.Proofs.Base.XmlRoundTrip`: what is written as XML is read back

Between the value and its text stands the tree of elements that `XmlToXmlTree` builds.
`nodesOf` gives the elements of a value under a key: one for a string or a dictionary, and one
for each item of a list. `nodeText` gives the text of an element.

* `buildXMLString_eq`: the writer appends the text of the elements of a value.
* `reads_node`: the parser reads an element back from its text, wherever the text stands.
* `mergeTree_entries`: `MergeTree` makes the dictionary out of its elements again.

`xmlRoundTrips_of_short` puts the three together. Positions are `int`, so the text has to be
shorter than `2 ^ 31` bytes; `not_xmlRoundTrips_of_long` shows what happens to a longer
one. -/

set_option autoImplicit false

namespace Mylib.Proofs.Base.Xml

open Mylib.Lib Mylib.Lib.CString
open Mylib.Spec.Base
open StringUtil StringEscape StringConversions XmlReader
open XmlWriter (tagName openTag closeTag kXml buildXMLString buildItems buildEntries serialize)

/-! ### The trees -/

/-- A character of a key: printable ASCII, and none of `<`, `>`, `/`, `.`, `!` and the
backslash. -/
def KeyChar (c : WChar) : Prop :=
  32 ≤ c ∧ c ≤ 126 ∧ c ∉ ['<', '>', '/', '.', '!', '\\'].map Char.toNat

def PlainKey (key : WString) : Prop := key ≠ [] ∧ ∀ c ∈ key, KeyChar c

/-- A byte of a string: printable, and neither `<` nor the backslash. The bytes of UTF-8
sequences are among them. -/
def TextByte (b : UInt8) : Prop :=
  32 ≤ b.toNat ∧ b.toNat ≠ 127 ∧ b.toNat ≠ '<'.toNat ∧ b.toNat ≠ '\\'.toNat

section

variable {D : Type}

def isList : Value D → Bool
  | .list _ => true
  | _ => false

mutual

/-- Strings, dictionaries that are not empty, and lists of two or more strings and
dictionaries. -/
def PlainTree : Value D → Prop
  | .string value => ∀ b ∈ value, TextByte b
  | .dictionary entries => entries ≠ [] ∧ PlainEntries entries
  | .list items => 2 ≤ items.length ∧ PlainItems items
  | _ => False

def PlainEntries : List (WString × Value D) → Prop
  | [] => True
  | (key, value) :: entries => PlainKey key ∧ PlainTree value ∧ PlainEntries entries

def PlainItems : List (Value D) → Prop
  | [] => True
  | value :: items => isList value = false ∧ PlainTree value ∧ PlainItems items

end

/-! ### The elements of a value -/

mutual

/-- The elements that a value under a key becomes. -/
def nodesOf (key : WString) : Value D → List XmlNode
  | .string value => [.mk (wideToASCII key) (some value) []]
  | .dictionary entries => [.mk (wideToASCII key) none (nodesOfEntries entries)]
  | .list items => nodesOfItems key items
  | _ => []

def nodesOfItems (key : WString) : List (Value D) → List XmlNode
  | [] => []
  | value :: items => nodesOf key value ++ nodesOfItems key items

def nodesOfEntries : List (WString × Value D) → List XmlNode
  | [] => []
  | (key, value) :: entries => nodesOf key value ++ nodesOfEntries entries

end

mutual

def nodeText : XmlNode → Str
  | .mk name (some value) _ => openTag name ++ value ++ closeTag name
  | .mk name none child => openTag name ++ nodesText child ++ closeTag name

def nodesText : List XmlNode → Str
  | [] => []
  | node :: nodes => nodeText node ++ nodesText nodes

end

/-- The text of two lists of elements. -/
theorem nodesText_append (ms ns : List XmlNode) :
    nodesText (ms ++ ns) = nodesText ms ++ nodesText ns := by
  induction ms with
  | nil => rfl
  | cons m ms ih =>
    rw [List.cons_append, nodesText, nodesText, ih, List.append_assoc]

/-! ### Writing -/

/-- Printable bytes other than the backslash are not escaped. -/
theorem escaped_of_printable {b : UInt8} (hlo : 32 ≤ b.toNat) (hback : b.toNat ≠ '\\'.toNat) :
    escaped b = false := by
  have hback : b.toNat ≠ 0x5C := hback
  simp only [escaped, List.mem_cons, List.not_mem_nil, or_false, decide_eq_false_iff_not, not_or]
  omega

/-- A text of printable bytes is written as it is. -/
theorem xmlDoubleQuote_eq {str : Str}
    (h : ∀ b ∈ str, 32 ≤ b.toNat ∧ b.toNat ≠ '\\'.toNat) : xmlDoubleQuote str = str := by
  unfold xmlDoubleQuote
  induction str with
  | nil => rfl
  | cons b str ih =>
    obtain ⟨hlo, hback⟩ := h b List.mem_cons_self
    rw [List.flatMap_cons, quoteChar_of_not_escaped (escaped_of_printable hlo hback),
      ih fun c hc => h c (List.mem_cons_of_mem _ hc)]
    rfl

/-- The characters of a plain key fit a byte. -/
theorem toNat_wideToASCII {key : WString} (h : ∀ c ∈ key, KeyChar c) :
    (wideToASCII key).map UInt8.toNat = key := by
  unfold wideToASCII
  rw [List.map_map]
  refine (List.map_congr_left fun c hc => ?_).trans (List.map_id key)
  have hc : (c : Nat) ≤ 126 := (h c hc).2.1
  exact UInt8.toNat_ofNat_of_lt' (by show c < 256; omega)

/-- So the bytes of the written key are those characters. -/
theorem mem_wideToASCII {key : WString} (h : ∀ c ∈ key, KeyChar c) {b : UInt8}
    (hb : b ∈ wideToASCII key) : KeyChar b.toNat := by
  have hmem : b.toNat ∈ (wideToASCII key).map UInt8.toNat := List.mem_map_of_mem hb
  rw [toNat_wideToASCII h] at hmem
  exact h _ hmem

/-- None of them has a meaning in a tag. -/
theorem KeyChar.ne {b : UInt8} (h : KeyChar b.toNat) :
    b ≠ 60 ∧ b ≠ 62 ∧ b ≠ 47 ∧ b ≠ 46 ∧ b ≠ 33 ∧ b.toNat ≠ '\\'.toNat := by
  have hmem := h.2.2
  refine ⟨?_, ?_, ?_, ?_, ?_, ?_⟩
  all_goals
    intro hb
    simp [hb] at hmem

/-- A plain key is its own tag name. -/
theorem tagName_eq {key : WString} (h : PlainKey key) : tagName key = wideToASCII key :=
  xmlDoubleQuote_eq fun _ hb =>
    have hc := mem_wideToASCII h.2 hb
    ⟨hc.1, hc.ne.2.2.2.2.2⟩

section

variable (F : Doubles D)

mutual

/-- A call appends the text of the elements, the start tag of the first of them apart: that
one is written by the call for its parent. -/
theorem buildXMLString_eq {d : Nat} {keyMap : XmlWriter.KeyMap} {key : WString}
    (hkey : PlainKey key) :
    ∀ value : Value D, PlainTree value → Entered d keyMap key →
      ∃ t, buildXMLString F false false (d + 1) keyMap value = (t, keyMap.erase d) ∧
        openTag (tagName key) ++ t = nodesText (nodesOf key value)
  | .string value, hplain, h => by
    rw [PlainTree] at hplain
    have hquote : xmlDoubleQuote value = value :=
      xmlDoubleQuote_eq fun b hb => ⟨(hplain b hb).1, (hplain b hb).2.2.2⟩
    have hbuild : buildXMLString F false false (d + 1) keyMap (.string value)
        = (value ++ closeTag (tagName key), keyMap.erase d) := by
      rw [buildXMLString, close_of_entered h, hquote]
      rfl
    refine ⟨_, hbuild, ?_⟩
    simp [nodesOf, nodesText, nodeText, tagName_eq hkey]
  | .dictionary entries, hplain, h => by
    rw [PlainTree] at hplain
    have hentries := buildEntries_eq entries hplain.2 h.above
    have hbuild : buildXMLString F false false (d + 1) keyMap (.dictionary entries)
        = (nodesText (nodesOfEntries entries) ++ closeTag (tagName key), keyMap.erase d) := by
      rw [buildXMLString, hentries]
      exact close_of_entered h _
    refine ⟨_, hbuild, ?_⟩
    simp [nodesOf, nodesText, nodeText, tagName_eq hkey]
  | .list items, hplain, h => by
    rw [PlainTree] at hplain
    have hne : items ≠ [] := by
      rintro rfl
      simp at hplain
    obtain ⟨t, hbuild, htext⟩ := buildItems_eq hkey true items hne hplain.2 h
    refine ⟨t, ?_, by rw [nodesOf, htext]⟩
    -- The last item has closed the element: nothing is left to close.
    have hclosed : XmlWriter.close (d + 1) t (keyMap.erase d) = (t, keyMap.erase d) := by
      unfold XmlWriter.close
      rw [Nat.add_sub_cancel, XmlWriter.KeyMap.erase, Function.update_self]
    rw [buildXMLString, Nat.add_sub_cancel, h.here, hbuild]
    exact hclosed
  | .null, hplain, _ | .boolean _, hplain, _ | .charInteger _, hplain, _
  | .shortInteger _, hplain, _ | .integer _, hplain, _ | .bigInteger _, hplain, _
  | .real _, hplain, _ | .binary _, hplain, _ => by
    simp [PlainTree] at hplain

/-- The loop over a list: each item but the first has its start tag written by the loop. -/
theorem buildItems_eq {d : Nat} {keyMap : XmlWriter.KeyMap} {key : WString}
    (hkey : PlainKey key) (first : Bool) :
    ∀ items : List (Value D), items ≠ [] → PlainItems items → Entered d keyMap key →
      ∃ t, buildItems F false false (d + 1) (some key) first keyMap items
          = (t, keyMap.erase d) ∧
        openTag (tagName key) ++ t = nodesText (nodesOfItems key items)
  | [], hne, _, _ => absurd rfl hne
  | [item], _, hplain, h => by
    rw [PlainItems] at hplain
    obtain ⟨t, hitem, htext⟩ := buildXMLString_eq hkey item hplain.2.1 h
    refine ⟨t, ?_, ?_⟩
    · simp [buildItems, hitem]
    · simp only [nodesOfItems, List.append_nil, htext]
  | item :: next :: items, _, hplain, h => by
    rw [PlainItems] at hplain
    obtain ⟨t, hitem, htext⟩ := buildXMLString_eq hkey item hplain.2.1 h
    obtain ⟨rest, hrest, htext'⟩ := buildItems_eq hkey false (next :: items) (by simp) hplain.2.2 h
    refine ⟨t ++ openTag (tagName key) ++ rest, ?_, ?_⟩
    · rw [buildItems, hitem]
      simp only [List.isEmpty_cons, Nat.add_sub_cancel, Bool.false_eq_true, if_false,
        set_erase h.here, hrest]
      simp
    · rw [nodesOfItems, nodesText_append, ← htext, ← htext']
      simp

/-- The loop over a dictionary. -/
theorem buildEntries_eq {d : Nat} {keyMap : XmlWriter.KeyMap} :
    ∀ entries : List (WString × Value D), PlainEntries entries →
      (∀ e, d < e → keyMap e = none) →
      buildEntries F false false (d + 1) keyMap entries
        = (nodesText (nodesOfEntries entries), keyMap)
  | [], _, _ => by
    rw [buildEntries]
    rfl
  | (key, value) :: entries, hplain, habove => by
    rw [PlainEntries] at hplain
    obtain ⟨hkey, hvalue, hentries⟩ := hplain
    obtain ⟨t, hbuild, htext⟩ := buildXMLString_eq hkey value hvalue (entered_set habove key)
    rw [erase_set (habove (d + 1) (Nat.lt_succ_self d))] at hbuild
    have hrest := buildEntries_eq entries hentries habove
    simp only [buildEntries, hbuild, hrest, htext, nodesOfEntries, nodesText_append]

end

/-- The whole text is that of one element named `xml`. -/
theorem serialize_eq {entries : List (WString × Value D)} (h : PlainEntries entries) :
    (serialize F false (.dictionary entries)).1
      = nodeText (.mk (text ['x', 'm', 'l']) none (nodesOfEntries entries)) := by
  have hentries := buildEntries_eq F entries h entered_root.above
  have hbuild : buildXMLString F false false (0 + 1) rootKeyMap (.dictionary entries)
      = (nodesText (nodesOfEntries entries) ++ closeTag (tagName kXml), rootKeyMap.erase 0) := by
    rw [buildXMLString, hentries]
    exact close_of_entered entered_root _
  have hname : tagName kXml = text ['x', 'm', 'l'] := by decide
  show openTag (text ['x', 'm', 'l'])
    ++ (buildXMLString F false false (0 + 1) rootKeyMap (.dictionary entries)).1 = _
  rw [hbuild, hname, nodeText, List.append_assoc]

end

/-! ### Reading -/

/-- A name of an element: it does not begin with a slash or an exclamation mark, and ends at
the `>`. -/
structure GoodName (name : Str) : Prop where
  first : ∃ c rest, name = c :: rest ∧ c ≠ 47 ∧ c ≠ 33
  noEnd : 62 ∉ name

mutual

/-- An element whose text is read back. -/
def Readable : XmlNode → Prop
  | .mk name (some value) child => GoodName name ∧ 60 ∉ value ∧ child = []
  | .mk name none child => GoodName name ∧ child ≠ [] ∧ ReadableAll child

def ReadableAll : List XmlNode → Prop
  | [] => True
  | node :: nodes => Readable node ∧ ReadableAll nodes

end

/-- The text of an element begins with its start tag. -/
theorem nodeText_begins {node : XmlNode} (h : Readable node) :
    ∃ c name rest, nodeText node = openTag (c :: name) ++ rest ∧ c ≠ 47 ∧ c ≠ 33 := by
  obtain ⟨name, value, child⟩ := node
  cases value with
  | some value =>
    rw [Readable] at h
    obtain ⟨c, rest, hname, hslash, hbang⟩ := h.1.first
    exact ⟨c, rest, value ++ closeTag name, by rw [nodeText, hname, List.append_assoc],
      hslash, hbang⟩
  | none =>
    rw [Readable] at h
    obtain ⟨c, rest, hname, hslash, hbang⟩ := h.1.first
    exact ⟨c, rest, nodesText child ++ closeTag name, by rw [nodeText, hname, List.append_assoc],
      hslash, hbang⟩

/-- The next tag of an element's text is its start tag. -/
theorem nextTag_node {pre post : Str} {node : XmlNode} (h : Readable node)
    (hlen : (pre ++ nodeText node ++ post).length < 2 ^ 31) :
    nextTag (pre ++ nodeText node ++ post) (pre.length : Nat)
      = .ok ((pre.length : Nat), false) := by
  obtain ⟨c, name, rest, htext, hslash, hbang⟩ := nodeText_begins h
  have hsplit : pre ++ nodeText node ++ post
      = pre ++ [] ++ openTag (c :: name) ++ (rest ++ post) := by simp [htext]
  rw [hsplit] at hlen ⊢
  have htag := nextTag_open hlen List.not_mem_nil hslash hbang
  rwa [List.append_nil] at htag ⊢

/-- The beginning of a short text is short. -/
theorem length_lt_of_begins {s t : Str} (h : s <+: t) (hlen : t.length < 2 ^ 31) :
    s.length < 2 ^ 31 := lt_of_le_of_lt h.length_le hlen

mutual

/-- An element is read from its text, and the position goes behind it. -/
theorem reads_node :
    ∀ node, Readable node → ∀ pre post : Str,
      (pre ++ nodeText node ++ post).length < 2 ^ 31 →
      ∃ fuel, xmlToXmlTree (pre ++ nodeText node ++ post) fuel (pre.length : Nat)
        = .ok (node, ((pre ++ nodeText node).length : Nat))
  | .mk name (some value) child, h, pre, post, hlen => by
    rw [Readable] at h
    obtain ⟨hname, hvalue, rfl⟩ := h
    have hsplit : pre ++ nodeText (.mk name (some value) []) ++ post
        = pre ++ openTag name ++ (value ++ closeTag name ++ post) := by simp [nodeText]
    have hsplit' : pre ++ openTag name ++ (value ++ closeTag name ++ post)
        = pre ++ openTag name ++ value ++ closeTag name ++ post := by simp
    have hend : pre ++ nodeText (.mk name (some value) [])
        = pre ++ openTag name ++ value ++ closeTag name := by simp [nodeText]
    rw [hsplit] at hlen ⊢
    rw [hend]
    have hkey : readKey (pre ++ openTag name ++ (value ++ closeTag name ++ post))
        (pre.length : Nat) = .ok (name, ((pre ++ openTag name).length : Nat)) :=
      readKey_append (length_lt_of_begins (List.prefix_append _ _) hlen) hname.noEnd
    rw [hsplit'] at hlen hkey ⊢
    have hshort : (pre ++ openTag name ++ value).length < 2 ^ 31 := by
      simp only [List.length_append] at hlen ⊢
      omega
    have hvalueText : substr (pre ++ openTag name ++ value ++ closeTag name ++ post)
        ((pre ++ openTag name).length : Nat)
        (int32 (((pre ++ openTag name ++ value).length : Nat)
          - ((pre ++ openTag name).length : Nat))) = .ok value := by
      rw [List.append_assoc _ (closeTag name)]
      exact substr_between hshort
    exact ⟨1, xmlToXmlTree_eq_ok_iff.mpr ⟨name, _, hkey, .inl ⟨_, value,
      nextTag_close hlen hvalue, hvalueText, rfl,
      (afterClose_append (length_lt_of_begins (List.prefix_append _ _) hlen) hname.noEnd).symm⟩⟩⟩
  | .mk name none child, h, pre, post, hlen => by
    rw [Readable] at h
    obtain ⟨hname, hne, hall⟩ := h
    have hsplit : pre ++ nodeText (.mk name none child) ++ post
        = pre ++ openTag name ++ (nodesText child ++ closeTag name ++ post) := by simp [nodeText]
    have hsplit' : pre ++ openTag name ++ (nodesText child ++ closeTag name ++ post)
        = pre ++ openTag name ++ nodesText child ++ closeTag name ++ post := by simp
    have hend : pre ++ nodeText (.mk name none child)
        = pre ++ openTag name ++ nodesText child ++ closeTag name := by simp [nodeText]
    rw [hsplit] at hlen ⊢
    rw [hend]
    have hkey : readKey (pre ++ openTag name ++ (nodesText child ++ closeTag name ++ post))
        (pre.length : Nat) = .ok (name, ((pre ++ openTag name).length : Nat)) :=
      readKey_append (length_lt_of_begins (List.prefix_append _ _) hlen) hname.noEnd
    rw [hsplit'] at hlen hkey ⊢
    obtain ⟨fuel, hloop⟩ := reads_nodes child hall (pre ++ openTag name) name post hname.noEnd hlen
    -- The first tag behind the key is that of the first child.
    have htag : nextTag (pre ++ openTag name ++ nodesText child ++ closeTag name ++ post)
        ((pre ++ openTag name).length : Nat)
          = .ok (((pre ++ openTag name).length : Nat), false) := by
      cases child with
      | nil => exact absurd rfl hne
      | cons node nodes =>
        rw [ReadableAll] at hall
        have hfirst : pre ++ openTag name ++ nodesText (node :: nodes) ++ closeTag name ++ post
            = pre ++ openTag name ++ nodeText node
              ++ (nodesText nodes ++ closeTag name ++ post) := by simp [nodesText]
        rw [hfirst] at hlen ⊢
        exact nextTag_node hall.1 hlen
    exact ⟨fuel + 1, xmlToXmlTree_eq_ok_iff.mpr ⟨name, _, hkey, .inr ⟨_, child, htag, hloop, rfl⟩⟩⟩

/-- The loop reads the children up to the end tag of their parent. -/
theorem reads_nodes :
    ∀ nodes, ReadableAll nodes → ∀ pre name post : Str, 62 ∉ name →
      (pre ++ nodesText nodes ++ closeTag name ++ post).length < 2 ^ 31 →
      ∃ fuel, childLoop (pre ++ nodesText nodes ++ closeTag name ++ post) fuel (pre.length : Nat)
        = .ok (nodes, ((pre ++ nodesText nodes ++ closeTag name).length : Nat))
  | [], _, pre, name, post, hname, hlen => by
    have htag := nextTag_close hlen List.not_mem_nil
    refine ⟨1, childLoop_eq_ok_iff.mpr (.inl ⟨_, htag, rfl, ?_⟩)⟩
    exact (afterClose_append (length_lt_of_begins (List.prefix_append _ _) hlen) hname).symm
  | node :: nodes, h, pre, name, post, hname, hlen => by
    rw [ReadableAll] at h
    have hsplit : pre ++ nodesText (node :: nodes) ++ closeTag name ++ post
        = pre ++ nodeText node ++ (nodesText nodes ++ closeTag name ++ post) := by
      simp [nodesText]
    have hsplit' : pre ++ nodeText node ++ (nodesText nodes ++ closeTag name ++ post)
        = pre ++ nodeText node ++ nodesText nodes ++ closeTag name ++ post := by simp
    have hend : pre ++ nodesText (node :: nodes) ++ closeTag name
        = pre ++ nodeText node ++ nodesText nodes ++ closeTag name := by simp [nodesText]
    rw [hsplit] at hlen ⊢
    rw [hend]
    have htag := nextTag_node h.1 hlen
    obtain ⟨f, hnode⟩ := reads_node node h.1 pre _ hlen
    rw [hsplit'] at hlen htag hnode ⊢
    obtain ⟨g, hloop⟩ := reads_nodes nodes h.2 (pre ++ nodeText node) name post hname hlen
    -- The fuel of the child and that of its siblings are both enough under the larger.
    exact ⟨max f g + 1, childLoop_eq_ok_iff.mpr (.inr ⟨_, node, _, nodes, htag,
      returns_mono.1 (le_max_left f g) hnode, returns_mono.2 (le_max_right f g) hloop, rfl⟩)⟩

end

/-! ### The elements of a tree are read back -/

/-- A plain key can be read as a name. -/
theorem PlainKey.goodName {key : WString} (h : PlainKey key) : GoodName (wideToASCII key) where
  first := by
    obtain ⟨c, rest, rfl⟩ := List.exists_cons_of_ne_nil h.1
    have hc := (mem_wideToASCII h.2 (b := UInt8.ofNat c) List.mem_cons_self).ne
    exact ⟨UInt8.ofNat c, wideToASCII rest, rfl, hc.2.2.1, hc.2.2.2.2.1⟩
  noEnd := fun hmem => (mem_wideToASCII h.2 hmem).ne.2.1 rfl

/-- Two lists of readable elements. -/
theorem ReadableAll.append {ms ns : List XmlNode} (hms : ReadableAll ms) (hns : ReadableAll ns) :
    ReadableAll (ms ++ ns) := by
  induction ms with
  | nil => exact hns
  | cons m ms ih =>
    rw [ReadableAll] at hms
    rw [List.cons_append, ReadableAll]
    exact ⟨hms.1, ih hms.2⟩

mutual

/-- The elements of a plain value are readable. By induction over the tree. -/
theorem readable_nodesOf {key : WString} (hkey : PlainKey key) :
    ∀ value : Value D, PlainTree value →
      ReadableAll (nodesOf key value) ∧ nodesOf key value ≠ []
  | .string value, hplain => by
    rw [PlainTree] at hplain
    have hfree : (60 : UInt8) ∉ value := fun hmem => (hplain 60 hmem).2.2.1 rfl
    simp [nodesOf, ReadableAll, Readable, hkey.goodName, hfree]
  | .dictionary entries, hplain => by
    rw [PlainTree] at hplain
    have hentries := readable_nodesOfEntries entries hplain.2
    simp [nodesOf, ReadableAll, Readable, hkey.goodName, hentries.1, hentries.2 hplain.1]
  | .list items, hplain => by
    rw [PlainTree] at hplain
    have hitems := readable_nodesOfItems hkey items hplain.2
    have hne : items ≠ [] := by
      rintro rfl
      simp at hplain
    rw [nodesOf]
    exact ⟨hitems.1, hitems.2 hne⟩
  | .null, hplain | .boolean _, hplain | .charInteger _, hplain | .shortInteger _, hplain
  | .integer _, hplain | .bigInteger _, hplain | .real _, hplain | .binary _, hplain => by
    simp [PlainTree] at hplain

/-- The elements of a plain list are readable. -/
theorem readable_nodesOfItems {key : WString} (hkey : PlainKey key) :
    ∀ items : List (Value D), PlainItems items →
      ReadableAll (nodesOfItems key items) ∧ (items ≠ [] → nodesOfItems key items ≠ [])
  | [], _ => by simp [nodesOfItems, ReadableAll]
  | item :: items, hplain => by
    rw [PlainItems] at hplain
    have hitem := readable_nodesOf hkey item hplain.2.1
    rw [nodesOfItems]
    exact ⟨hitem.1.append (readable_nodesOfItems hkey items hplain.2.2).1,
      fun _ => List.append_ne_nil_of_left_ne_nil hitem.2 _⟩

/-- The elements of a plain dictionary are readable. -/
theorem readable_nodesOfEntries :
    ∀ entries : List (WString × Value D), PlainEntries entries →
      ReadableAll (nodesOfEntries entries) ∧ (entries ≠ [] → nodesOfEntries entries ≠ [])
  | [], _ => by simp [nodesOfEntries, ReadableAll]
  | (key, value) :: entries, hplain => by
    rw [PlainEntries] at hplain
    have hvalue := readable_nodesOf hplain.1 value hplain.2.1
    rw [nodesOfEntries]
    exact ⟨hvalue.1.append (readable_nodesOfEntries entries hplain.2.2).1,
      fun _ => List.append_ne_nil_of_left_ne_nil hvalue.2 _⟩

end

/-! ### Merging -/

/-- `UTF8ToWide` undoes `WideToASCII` on a key. -/
theorem utf8ToWide_wideToASCII {key : WString} (h : ∀ c ∈ key, KeyChar c)
    (hlen : key.length < 2 ^ 31) : utf8ToWide (wideToASCII key) = key := by
  have hbyte : ∀ c ∈ key, (UInt8.ofNat c).toNat = c ∧ c < 0x80 := by
    intro c hc
    have hhi : c ≤ 126 := (h c hc).2.1
    exact ⟨UInt8.toNat_ofNat_of_lt' (lt_of_le_of_lt hhi (by decide)),
      lt_of_le_of_lt hhi (by decide)⟩
  have hascii : ∀ b ∈ wideToASCII key, b.toNat < 0x80 := by
    intro b hb
    obtain ⟨c, hc, rfl⟩ := List.mem_map.mp hb
    rw [(hbyte c hc).1]
    exact (hbyte c hc).2
  rw [utf8ToWide_of_ascii hascii (by rwa [wideToASCII, List.length_map]), wideToASCII, List.map_map]
  exact (List.map_congr_left fun c hc => (hbyte c hc).1).trans (List.map_id key)

/-- A key without a dot is no path. -/
theorem set_wideToASCII {key : WString} (h : PlainKey key) (hlen : key.length < 2 ^ 31)
    (value : Value D) (entries : List (WString × Value D)) :
    Value.set (wideToASCII key) (some value) entries = OrderedMap.set key value entries := by
  have hwide := utf8ToWide_wideToASCII h.2 hlen
  have hdot : '.'.toNat ∉ utf8ToWide (wideToASCII key) := by
    rw [hwide]
    intro hmem
    exact (h.2 _ hmem).2.2 (by decide)
  rw [set_of_no_dot hdot, hwide]

/-- The children that `MergeTree` finds for an entry of a dictionary. -/
def childrenOf : WString × Value D → List (Child D)
  | (key, .list items) => items.map fun item => (wideToASCII key, some item)
  | (key, value) => [(wideToASCII key, some value)]

/-- A value that is no list is one child. -/
theorem childrenOf_of_not_list {key : WString} {value : Value D} (h : isList value = false) :
    childrenOf (key, value) = [(wideToASCII key, some value)] := by
  cases value with
  | list items => cases h
  | _ => rfl

/-- An entry's children are the value itself or the items of a list. -/
theorem childrenOf_cases (key : WString) (value : Value D) :
    childrenOf (key, value) = [(wideToASCII key, some value)] ∨ ∃ items, value = .list items := by
  cases hlist : isList value with
  | false => exact .inl (childrenOf_of_not_list hlist)
  | true =>
    cases value with
    | list items => exact .inr ⟨items, rfl⟩
    | _ => cases hlist

/-- What is asked of an entry: its key can be written and read, and a list is not taken for a
single value. -/
structure GoodEntry (entry : WString × Value D) : Prop where
  key : PlainKey entry.1
  short : entry.1.length < 2 ^ 31
  twoItems : ∀ items, entry.2 = .list items → 2 ≤ items.length

/-- The children of a good entry are set as that entry. -/
theorem setGroup_childrenOf {entry : WString × Value D} (h : GoodEntry entry)
    (entries : List (WString × Value D)) :
    setGroup entries (entry.1, childrenOf entry) = OrderedMap.set entry.1 entry.2 entries := by
  obtain ⟨key, value⟩ := entry
  rcases childrenOf_cases key value with hsingle | ⟨items, rfl⟩
  · rw [hsingle]
    exact set_wideToASCII h.key h.short value entries
  -- Two children or more are merged to a list; one alone would stay what it is.
  · obtain ⟨a, b, items, rfl⟩ : ∃ a b rest, items = a :: b :: rest := by
      have htwo := h.twoItems items rfl
      cases items with
      | nil => simp at htwo
      | cons a items =>
        cases items with
        | nil => simp at htwo
        | cons b items => exact ⟨a, b, items, rfl⟩
    have hvalues : ∀ items : List (Value D),
        (items.map fun item => (wideToASCII key, some item)).filterMap Prod.snd = items := by
      intro items
      rw [List.filterMap_map]
      exact List.filterMap_some
    show Value.set (wideToASCII key) (some (.list (((a :: b :: items).map fun item =>
      (wideToASCII key, some item)).filterMap Prod.snd))) entries = _
    rw [hvalues]
    exact set_wideToASCII h.key h.short _ entries

/-- Every child of an entry has the entry's key as its name. -/
theorem name_of_mem_childrenOf {entry : WString × Value D} {child : Child D}
    (hchild : child ∈ childrenOf entry) : child.1 = wideToASCII entry.1 := by
  obtain ⟨key, value⟩ := entry
  rcases childrenOf_cases key value with hsingle | ⟨items, rfl⟩
  · rw [hsingle] at hchild
    rw [List.mem_singleton.mp hchild]
  · obtain ⟨item, -, rfl⟩ := List.mem_map.mp hchild
    rfl

/-- A good entry has a child. -/
theorem childrenOf_ne_nil {entry : WString × Value D} (h : GoodEntry entry) :
    childrenOf entry ≠ [] := by
  obtain ⟨key, value⟩ := entry
  rcases childrenOf_cases key value with hsingle | ⟨items, rfl⟩
  · simp [hsingle]
  · have htwo := h.twoItems items rfl
    intro hnil
    rw [List.map_eq_nil_iff.mp hnil] at htwo
    simp at htwo

/-- The children of a dictionary are grouped by its keys, in their order. -/
theorem foldl_pushBack_childrenOf {entries : List (WString × Value D)}
    (hsorted : OrderedMap.Sorted entries) (h : ∀ entry ∈ entries, GoodEntry entry) :
    (entries.flatMap childrenOf).foldl pushBack []
      = entries.map fun entry => (entry.1, childrenOf entry) := by
  have hpairs : (entries.flatMap childrenOf).map
        (fun child : Child D => (child.1.map UInt8.toNat, child))
      = (entries.map fun entry => (entry.1, childrenOf entry)).flatMap
        fun g => g.2.map (Prod.mk g.1) := by
    rw [List.map_flatMap, List.flatMap_map]
    refine List.flatMap_congr fun entry hentry => List.map_congr_left fun child hchild => ?_
    rw [name_of_mem_childrenOf hchild, toNat_wideToASCII (h entry hentry).key.2]
  have hfold : (entries.flatMap childrenOf).foldl pushBack []
      = ((entries.flatMap childrenOf).map
        (fun child : Child D => (child.1.map UInt8.toNat, child))).foldl
        (fun m p => OrderedMap.push p.1 p.2 m) [] := by
    rw [List.foldl_map]
    rfl
  -- Each group comes in one piece, and the pieces come in the order of the keys.
  rw [hfold, hpairs, OrderedMap.foldl_push_groups]
  · rfl
  · exact List.pairwise_map.mpr hsorted
  · intro g hg
    obtain ⟨entry, hentry, rfl⟩ := List.mem_map.mp hg
    exact childrenOf_ne_nil (h entry hentry)

/-- All good entries are set one after the other. -/
theorem foldl_setGroup_childrenOf {entries : List (WString × Value D)}
    (h : ∀ entry ∈ entries, GoodEntry entry) (m : List (WString × Value D)) :
    (entries.map fun entry => (entry.1, childrenOf entry)).foldl setGroup m
      = OrderedMap.setAll m entries := by
  induction entries generalizing m with
  | nil => rfl
  | cons entry entries ih =>
    show (entries.map _).foldl setGroup (setGroup m (entry.1, childrenOf entry))
      = OrderedMap.setAll (OrderedMap.set entry.1 entry.2 m) entries
    rw [setGroup_childrenOf (h entry List.mem_cons_self),
      ih fun e he => h e (List.mem_cons_of_mem _ he)]

/-- The groups make the dictionary again. -/
theorem mergeChildren_flatMap {entries : List (WString × Value D)}
    (hsorted : OrderedMap.Sorted entries) (h : ∀ entry ∈ entries, GoodEntry entry) :
    mergeChildren (entries.flatMap childrenOf) = .dictionary entries := by
  unfold mergeChildren
  rw [foldl_pushBack_childrenOf hsorted h, foldl_setGroup_childrenOf h,
    OrderedMap.setAll_eq_append (by simpa using hsorted)]
  rfl

/-- Two lists of elements are merged one after the other. -/
theorem mergeAll_append (ms ns : List XmlNode) :
    (mergeAll (ms ++ ns) : List (Child D)) = mergeAll ms ++ mergeAll ns := by
  induction ms with
  | nil => rfl
  | cons m ms ih =>
    obtain ⟨key, value, child⟩ := m
    rw [List.cons_append, mergeAll, mergeAll, ih, List.cons_append]

/-- The name of an element is a part of its text. -/
theorem length_key_le {key : WString} {value : Value D} (hplain : PlainTree value) :
    key.length ≤ (nodesText (nodesOf key value)).length := by
  -- A value that is no list has a start tag with the key.
  have hfirst : ∀ {value : Value D}, isList value = false → PlainTree value →
      key.length ≤ (nodesText (nodesOf key value)).length := by
    intro value hlist hplain
    cases value with
    | string value =>
      simp [nodesOf, nodesText, nodeText, openTag_eq, wideToASCII]
      omega
    | dictionary entries =>
      simp [nodesOf, nodesText, nodeText, openTag_eq, wideToASCII]
      omega
    | list items => cases hlist
    | _ => simp [PlainTree] at hplain
  cases hlist : isList value with
  | false => exact hfirst hlist hplain
  -- A list has a tag for its first item.
  | true =>
    cases value with
    | list items =>
      rw [PlainTree] at hplain
      cases items with
      | nil => simp at hplain
      | cons item items =>
        rw [PlainItems] at hplain
        have hitem := hfirst hplain.2.1 hplain.2.2.1
        rw [nodesOf, nodesOfItems, nodesText_append, List.length_append]
        omega
    | _ => cases hlist

/-- A plain entry with a short text is good. -/
theorem goodEntry {key : WString} {value : Value D} (hkey : PlainKey key)
    (hplain : PlainTree value) (hlen : (nodesText (nodesOf key value)).length < 2 ^ 31) :
    GoodEntry (key, value) where
  key := hkey
  short := lt_of_le_of_lt (length_key_le hplain) hlen
  twoItems := by
    rintro items rfl
    rw [PlainTree] at hplain
    exact hplain.1

/-- All entries of a plain dictionary with a short text are. -/
theorem goodEntries {entries : List (WString × Value D)} (hplain : PlainEntries entries)
    (hlen : (nodesText (nodesOfEntries entries)).length < 2 ^ 31) :
    ∀ entry ∈ entries, GoodEntry entry := by
  induction entries with
  | nil => simp
  | cons entry entries ih =>
    obtain ⟨key, value⟩ := entry
    rw [PlainEntries] at hplain
    rw [nodesOfEntries, nodesText_append, List.length_append] at hlen
    rw [List.forall_mem_cons]
    exact ⟨goodEntry hplain.1 hplain.2.1 (by omega), ih hplain.2.2 (by omega)⟩

/-- An element with the children of a dictionary has the dictionary for its value. -/
theorem mergeTree_entries (name : Str) {entries : List (WString × Value D)} (hne : entries ≠ [])
    (hplain : PlainEntries entries) (hsorted : OrderedMap.Sorted entries)
    (hlen : (nodesText (nodesOfEntries entries)).length < 2 ^ 31)
    (hall : mergeAll (nodesOfEntries entries) = entries.flatMap childrenOf) :
    mergeTree (.mk name none (nodesOfEntries entries)) = some (.dictionary entries) := by
  have hnodes := (readable_nodesOfEntries entries hplain).2 hne
  cases hchild : nodesOfEntries entries with
  | nil => exact absurd hchild hnodes
  | cons child rest =>
    rw [mergeTree, ← hchild, hall, mergeChildren_flatMap hsorted (goodEntries hplain hlen)]

mutual

/-- The elements of a value are merged to its children. By induction over the tree. -/
theorem mergeAll_nodesOf (key : WString) :
    ∀ value : Value D, PlainTree value → value.WellFormed →
      (nodesText (nodesOf key value)).length < 2 ^ 31 →
      mergeAll (nodesOf key value) = childrenOf (key, value)
  -- By the kind of the value; a scalar other than a text is not plain.
  | .string value, _, _, _ => by
    simp [nodesOf, mergeAll, mergeTree, childrenOf]
  | .dictionary entries, hplain, hwf, hlen => by
    rw [PlainTree] at hplain
    rw [Value.WellFormed] at hwf
    have hlen' : (nodesText (nodesOfEntries entries)).length < 2 ^ 31 := by
      simp only [nodesOf, nodesText, nodeText, List.length_append] at hlen
      omega
    have hmerge := mergeTree_entries (wideToASCII key) hplain.1 hplain.2 hwf.1 hlen'
      (mergeAll_nodesOfEntries entries hplain.2 hwf.2 hlen')
    simp [nodesOf, mergeAll, hmerge, childrenOf]
  | .list items, hplain, hwf, hlen => by
    rw [PlainTree] at hplain
    rw [Value.WellFormed] at hwf
    rw [nodesOf] at hlen ⊢
    exact mergeAll_nodesOfItems key items hplain.2 hwf hlen
  | .null, hplain, _, _ | .boolean _, hplain, _, _ | .charInteger _, hplain, _, _
  | .shortInteger _, hplain, _, _ | .integer _, hplain, _, _ | .bigInteger _, hplain, _, _
  | .real _, hplain, _, _ | .binary _, hplain, _, _ => by
    simp [PlainTree] at hplain

/-- The elements of a list are merged to its items. -/
theorem mergeAll_nodesOfItems (key : WString) :
    ∀ items : List (Value D), PlainItems items → Value.WellFormedItems items →
      (nodesText (nodesOfItems key items)).length < 2 ^ 31 →
      mergeAll (nodesOfItems key items) = items.map fun item => (wideToASCII key, some item)
  | [], _, _, _ => by simp [nodesOfItems, mergeAll]
  | item :: items, hplain, hwf, hlen => by
    rw [PlainItems] at hplain
    rw [Value.WellFormedItems] at hwf
    rw [nodesOfItems, nodesText_append, List.length_append] at hlen
    have hitem := mergeAll_nodesOf key item hplain.2.1 hwf.1 (by omega)
    have hitems := mergeAll_nodesOfItems key items hplain.2.2 hwf.2 (by omega)
    rw [nodesOfItems, mergeAll_append, hitem, childrenOf_of_not_list hplain.1, hitems]
    rfl

/-- The elements of a dictionary are merged to the children of its entries. -/
theorem mergeAll_nodesOfEntries :
    ∀ entries : List (WString × Value D), PlainEntries entries →
      Value.WellFormedEntries entries →
      (nodesText (nodesOfEntries entries)).length < 2 ^ 31 →
      mergeAll (nodesOfEntries entries) = entries.flatMap childrenOf
  | [], _, _, _ => by simp [nodesOfEntries, mergeAll]
  | (key, value) :: entries, hplain, hwf, hlen => by
    rw [PlainEntries] at hplain
    rw [Value.WellFormedEntries] at hwf
    rw [nodesOfEntries, nodesText_append, List.length_append] at hlen
    have hvalue := mergeAll_nodesOf key value hplain.2.1 hwf.1 (by omega)
    have hentries := mergeAll_nodesOfEntries entries hplain.2.2 hwf.2 (by omega)
    rw [nodesOfEntries, mergeAll_append, hvalue, hentries, List.flatMap_cons]

end

end

/-! ### The round trip -/

/-- `Deserialize` returns the value that `Serialize` has written, pretty printing off. -/
def XmlRoundTrips {D : Type} (F : Doubles D) (value : Value D) : Prop :=
  ∃ fuel, deserialize fuel (serialize F false value).1 = .ok (some value)

/-- The root's name can be read. -/
theorem goodName_xml : GoodName (text ['x', 'm', 'l']) :=
  ⟨⟨_, _, rfl, by decide, by decide⟩, by decide⟩

/-- A dictionary whose text is shorter than `2 ^ 31` bytes is read back. -/
theorem xmlRoundTrips_of_short {D : Type} (F : Doubles D) (entries : List (WString × Value D))
    (hplain : PlainTree (.dictionary entries)) (hwf : (Value.dictionary entries).WellFormed)
    (hlen : (serialize F false (.dictionary entries)).1.length < 2 ^ 31) :
    XmlRoundTrips F (.dictionary entries) := by
  rw [PlainTree] at hplain
  rw [Value.WellFormed] at hwf
  obtain ⟨hne, hplain⟩ := hplain
  have hreadable := readable_nodesOfEntries entries hplain
  have hroot : Readable (.mk (text ['x', 'm', 'l']) none (nodesOfEntries entries)) := by
    rw [Readable]
    exact ⟨goodName_xml, hreadable.2 hne, hreadable.1⟩
  unfold XmlRoundTrips
  rw [serialize_eq F hplain] at hlen ⊢
  have hlen' : (nodesText (nodesOfEntries entries)).length < 2 ^ 31 := by
    simp only [nodeText, List.length_append] at hlen
    omega
  obtain ⟨fuel, hread⟩ := reads_node _ hroot [] [] (by simpa using hlen)
  rw [List.nil_append, List.append_nil] at hread
  refine ⟨fuel, bind_eq_ok_iff.mpr ⟨_, hread, ?_⟩⟩
  show Except.ok (mergeTree _) = _
  rw [mergeTree_entries _ hne hplain hwf.1 hlen'
    (mergeAll_nodesOfEntries entries hplain hwf.2 hlen')]

/-- A string, and a list of a string and a dictionary. -/
theorem xmlRoundTrips_list :
    XmlRoundTrips (⟨fun _ => (), fun _ => true, fun _ => []⟩ : Doubles Unit)
      (.dictionary [([97], .string [120]),
        ([98], .list [.string [62, 47], .dictionary [([99], .string [])]])]) := by
  refine xmlRoundTrips_of_short _ _ ?_ ?_ (by decide)
  · simp [PlainTree, PlainEntries, PlainItems, PlainKey, KeyChar, TextByte, isList]
  · simp only [Value.WellFormed, Value.WellFormedEntries, Value.WellFormedItems,
      OrderedMap.Sorted]
    decide

/-! ### Long texts -/

/-- Without a `!` there is no CDATA section. -/
theorem findCdata_of_no_bang {xmlStr : Str} (h : 33 ∉ xmlStr) (start : Int) :
    findCdata xmlStr start = -1 := by
  unfold findCdata findWhere
  cases hfirst : firstWhere cdata.isPrefixOf (xmlStr.drop (sizeT start)) with
  | none => rfl
  | some i =>
    obtain ⟨-, hprefix⟩ := firstWhere_eq_some hfirst
    have hbang : (33 : UInt8) ∈ cdata := by decide
    have hmem := (List.isPrefixOf_iff_prefix.mp hprefix).subset hbang
    exact absurd (List.mem_of_mem_drop (List.mem_of_mem_drop hmem)) h

/-- The position behind one at or behind `2 ^ 31 - 1` is a very large index. -/
theorem le_sizeT_of_wrapped {n : Nat} (hlo : 2 ^ 31 ≤ n + 1) (hhi : n + 1 < 2 ^ 32) :
    2 ^ 63 ≤ sizeT (int32 (int32 (n : Int) + 1)) := by
  unfold sizeT int32
  rw [Int.bmod_def (n : Int), Int.bmod_def]
  split_ifs <;> omega

/-- Behind the end nothing can be read. -/
theorem deref_of_length_lt {xmlStr : Str} {i : Nat} (h : xmlStr.length < i) :
    deref xmlStr i = .error .overrun := by
  induction xmlStr generalizing i with
  | nil =>
    cases i with
    | zero => simp at h
    | succ i => rfl
  | cons c str ih =>
    cases i with
    | zero => simp at h
    | succ i => exact ih (Nat.lt_of_succ_lt_succ h)

/-- The `<` of an end tag too far behind sends the parser out of the text. -/
theorem nextTag_overrun {pre mid rest : Str} (hmid : 60 ∉ mid) (hpre : pre.length < 2 ^ 31)
    (hlo : 2 ^ 31 ≤ (pre ++ mid).length + 1) (hhi : (pre ++ mid).length + 1 < 2 ^ 32)
    (hlen : (pre ++ mid ++ 60 :: rest).length < 2 ^ 63) :
    nextTag (pre ++ mid ++ 60 :: rest) (pre.length : Nat) = .error .overrun := by
  have hfind : find '<' (pre ++ mid ++ 60 :: rest) (pre.length : Nat)
      = int32 ((pre ++ mid).length : Nat) := find_eq_int32 (by decide) hpre hmid
  have hindex := le_sizeT_of_wrapped hlo hhi
  have hchar : XmlReader.charAt (pre ++ mid ++ 60 :: rest)
      (int32 (int32 ((pre ++ mid).length : Nat) + 1)) = .error .overrun :=
    deref_of_length_lt (by omega)
  unfold nextTag
  dsimp only
  rw [hfind, hchar]
  rfl

/-- The key of the failing input is plain. -/
theorem plainKey_a : PlainKey [97] := by
  unfold PlainKey KeyChar
  decide

/-- A dictionary with one string is not read back when the end tag of the string begins at
byte `2 ^ 31 - 1` or behind it: the parser reads outside the text. -/
theorem not_xmlRoundTrips_of_long {D : Type} (F : Doubles D) {value : Str}
    (hplain : ∀ b ∈ value, TextByte b) (hbang : 33 ∉ value)
    (hlo : 2 ^ 31 ≤ value.length + 9) (hhi : value.length + 9 < 2 ^ 32) :
    ¬XmlRoundTrips F (.dictionary [([97], .string value)]) := by
  have hentries : PlainEntries [(([97] : WString), (Value.string value : Value D))] := by
    simp only [PlainEntries, PlainTree]
    exact ⟨plainKey_a, hplain, trivial⟩
  have hfree : (60 : UInt8) ∉ value := fun hmem => (hplain 60 hmem).2.2.1 rfl
  have htext : (serialize F false (.dictionary [([97], .string value)])).1
      = text ['<', 'x', 'm', 'l', '>', '<', 'a', '>'] ++ value
        ++ 60 :: text ['/', 'a', '>', '<', '/', 'x', 'm', 'l', '>'] := by
    rw [serialize_eq F hentries]
    simp [nodesOfEntries, nodesOf, nodesText, nodeText, openTag_eq, closeTag_eq, text, wideToASCII]
  -- The parser reads the keys `xml` and `a`, and then looks for the end tag.
  have hxml : readKey (serialize F false (.dictionary [([97], .string value)])).1 0
      = .ok (text ['x', 'm', 'l'], 5) := by
    rw [htext]
    exact @readKey_append [] (text ['x', 'm', 'l']) (text ['<', 'a', '>'] ++ value
      ++ 60 :: text ['/', 'a', '>', '<', '/', 'x', 'm', 'l', '>']) (by decide) (by decide)
  have hchild : nextTag (serialize F false (.dictionary [([97], .string value)])).1 5
      = .ok (5, false) := by
    rw [htext]
    refine @nextTag_other (text ['<', 'x', 'm', 'l', '>']) [] (97 :: _) (by decide) (by simp)
      (by simp) ?_
    have hnone : (33 : UInt8) ∉ text ['<', 'x', 'm', 'l', '>', '<', 'a', '>'] ++ value
        ++ 60 :: text ['/', 'a', '>', '<', '/', 'x', 'm', 'l', '>'] := by
      simp [text, hbang]
    intro heq
    have hminus := findCdata_of_no_bang hnone 5
    exact absurd (hminus.symm.trans heq) (by decide)
  have ha : readKey (serialize F false (.dictionary [([97], .string value)])).1 5
      = .ok (text ['a'], 8) := by
    rw [htext]
    exact @readKey_append (text ['<', 'x', 'm', 'l', '>']) (text ['a']) (value
      ++ 60 :: text ['/', 'a', '>', '<', '/', 'x', 'm', 'l', '>']) (by decide) (by decide)
  have hend : nextTag (serialize F false (.dictionary [([97], .string value)])).1 8
      = .error .overrun := by
    rw [htext]
    refine @nextTag_overrun (text ['<', 'x', 'm', 'l', '>', '<', 'a', '>']) value _ hfree
      (by decide) ?_ ?_ ?_
    · simp [text]
      omega
    · simp [text]
      omega
    · simp [text]
      omega
  rintro ⟨fuel, h⟩
  obtain ⟨⟨root, pos⟩, htree, -⟩ := bind_eq_ok_iff.mp h
  obtain ⟨tags, key, start, hkey', hscan⟩ :=
    (closes_of_returns fuel).2 htree (closesWithin_zero 0 false pos)
  rw [hxml] at hkey'
  cases hkey'
  cases tags with
  | zero => cases hscan
  | succ tags =>
    rcases closesWithin_succ_iff.mp hscan with
      ⟨stop, htag, -⟩ | ⟨stop, key, next, htag, hkey', hscan⟩
    · rw [hchild] at htag
      cases htag
    · rw [hchild] at htag
      cases htag
      rw [ha] at hkey'
      cases hkey'
      cases tags with
      | zero => cases hscan
      | succ tags =>
        rcases closesWithin_succ_iff.mp hscan with ⟨stop, htag, -⟩ | ⟨stop, key, next, htag, -⟩
        · rw [hend] at htag
          cases htag
        · rw [hend] at htag
          cases htag

/-- The text of the failing input is plain. -/
theorem textByte_letters (n : Nat) : ∀ b ∈ List.replicate n (120 : UInt8), TextByte b := by
  intro b hb
  rw [List.eq_of_mem_replicate hb]
  unfold TextByte
  decide

/-- The tree of the failing input is plain. -/
theorem plainTree_letters (n : Nat) :
    PlainTree (.dictionary [([97], .string (List.replicate n 120))] : Value Unit) := by
  rw [PlainTree, PlainEntries, PlainEntries, PlainTree]
  exact ⟨List.cons_ne_nil _ _, plainKey_a, textByte_letters n, trivial⟩

/-- The tree of the failing input is well-formed. -/
theorem wellFormed_letters (n : Nat) :
    (Value.dictionary [([97], .string (List.replicate n 120))] : Value Unit).WellFormed := by
  simp [Value.WellFormed, Value.WellFormedEntries, OrderedMap.Sorted]

/-- From 2 ^ 31 letters on, the dictionary does not come back. -/
theorem not_xmlRoundTrips_replicate {n : Nat} (hlo : 2 ^ 31 ≤ n) (hhi : n + 9 < 2 ^ 32) :
    ¬XmlRoundTrips (⟨fun _ => (), fun _ => true, fun _ => []⟩ : Doubles Unit)
      (.dictionary [([97], .string (List.replicate n 120))]) := by
  refine not_xmlRoundTrips_of_long _ (textByte_letters n) (fun hmem => ?_) ?_ ?_
  · exact absurd (List.eq_of_mem_replicate hmem) (by decide)
  · rw [List.length_replicate]
    omega
  · rw [List.length_replicate]
    omega

/-- A dictionary with one string of `2 ^ 31` letters is not read back. -/
theorem not_xmlRoundTrips_letters :
    PlainTree (.dictionary [([97], .string (List.replicate (2 ^ 31) 120))] : Value Unit) ∧
    (Value.dictionary [([97], .string (List.replicate (2 ^ 31) 120))] : Value Unit).WellFormed ∧
    ¬XmlRoundTrips (⟨fun _ => (), fun _ => true, fun _ => []⟩ : Doubles Unit)
      (.dictionary [([97], .string (List.replicate (2 ^ 31) 120))]) :=
  ⟨plainTree_letters _, wellFormed_letters _,
    not_xmlRoundTrips_replicate (Nat.le_refl _) (by decide)⟩

end Mylib.Proofs.Base.Xml
