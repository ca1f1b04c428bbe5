import Mylib.Proofs.Base.XmlReturns

/-!
# `Mylib.Proofs.Base.XmlCdata`: elements that hold a CDATA section

`CdataKept` says what is promised of an element whose content is one CDATA section: it is
read as a leaf, the text of the leaf contains that of the section, and the position goes
right behind the end tag. What stands around the element is arbitrary.

The parser does not look for the end of the section. It looks for the next `<` from eight
characters behind the start tag on (`nextTag_cdata`). So the promise is kept exactly when
three things hold (`cdataKept_iff`): the text of the section has no `<`; the search starts
inside the `<![CDATA[` and not in front of it, where the parser has taken a `>` in an
attribute value for the end of the start tag; and the element ends before byte `2 ^ 31`.
-/

set_option autoImplicit false

namespace Mylib.Proofs.Base.Xml

open Mylib.Lib.CString hiding charAt
open Mylib.Spec.Base
open StringUtil XmlReader
open XmlWriter (openTag closeTag)

/-! ### The promise -/

/-- The end of a CDATA section. -/
def cdataEnd : Str := text [']', ']', '>']

/-- An element whose content is a CDATA section. `tag` is the text of the start tag, with its
attributes. -/
def cdataElement (tag t name : Str) : Str :=
  openTag tag ++ (cdata ++ t ++ cdataEnd) ++ closeTag name

/-- `XmlToXmlTree` on the element between `pre` and `post` makes a leaf whose text contains
`t`, and goes on right behind the element. -/
def CdataKept (pre tag t name post : Str) : Prop :=
  ∃ fuel key value, xmlToXmlTree (pre ++ cdataElement tag t name ++ post) fuel
      (int32 (pre.length : Nat))
    = .ok (.mk key (some value) [], ((pre ++ cdataElement tag t name).length : Nat)) ∧
    t <:+: value

/-! ### The start tag -/

/-- The start tag up to its first `>`, which ends the key, and the part behind it. -/
theorem openTag_split {tag : Str} (h : 60 ∉ tag) : ∃ key gap, openTag tag = openTag key ++ gap ∧
    62 ∉ key ∧ 60 ∉ gap ∧ gap.length = (tag.dropWhile (· ≠ 62)).length := by
  have hsplit := List.takeWhile_append_dropWhile (p := fun b : UInt8 => decide (b ≠ 62)) (l := tag)
  have hkey : (62 : UInt8) ∉ tag.takeWhile (· ≠ 62) := by
    intro hmem
    have hne := List.mem_takeWhile_imp hmem
    simp at hne
  -- The key ends at the first `>`, and what is left of the tag is text.
  cases hrest : tag.dropWhile (· ≠ 62) with
  | nil =>
    rw [hrest, List.append_nil] at hsplit
    exact ⟨tag, [], by rw [List.append_nil], hsplit ▸ hkey, List.not_mem_nil, rfl⟩
  | cons b more =>
    have hb : b = 62 := by
      have hhead := List.head?_dropWhile_not (fun b : UInt8 => decide (b ≠ 62)) tag
      rw [hrest] at hhead
      simpa using hhead
    rw [hrest, hb] at hsplit
    generalize tag.takeWhile (· ≠ 62) = key at hsplit hkey
    subst hsplit
    simp only [List.mem_append, List.mem_cons, not_or] at h
    exact ⟨key, more ++ [62], by simp [openTag_eq], hkey, by simp [h.2.2], by simp⟩

/-! ### The search behind the start tag -/

/-- The marker, with its first two bytes apart. -/
theorem cdata_eq : cdata = 60 :: 33 :: text ['[', 'C', 'D', 'A', 'T', 'A', '['] := rfl

/-- The marker is found behind a text without a `<`. -/
theorem findCdata_append {pre gap rest : Str} (hpre : pre.length < 2 ^ 32) (hgap : 60 ∉ gap)
    (hlen : (pre ++ gap).length < 2 ^ 31) :
    findCdata (pre ++ gap ++ cdata ++ rest) (pre.length : Nat) = ((pre ++ gap).length : Nat) := by
  have hfirst : firstWhere cdata.isPrefixOf (gap ++ 60 :: (cdata.tail ++ rest))
      = some gap.length := by
    refine firstWhere_append (fun i hi => ?_) (by simp [cdata_eq])
    -- In front of the section there is no `<`.
    rw [List.drop_append_of_le_length hi.le]
    obtain ⟨b, gap', hdrop⟩ := List.exists_cons_of_length_pos (List.length_pos_of_ne_nil
      (List.drop_eq_nil_iff.not.mpr (not_le.mpr hi)))
    have hb : b ≠ 60 := fun heq =>
      hgap (List.mem_of_mem_drop (heq ▸ hdrop ▸ List.mem_cons_self))
    simp [hdrop, cdata_eq, List.isPrefixOf, Ne.symm hb]
  have hdoc : (pre ++ gap ++ cdata ++ rest).drop pre.length
      = gap ++ 60 :: (cdata.tail ++ rest) := by
    rw [List.append_assoc, List.append_assoc, List.drop_left]
    rfl
  unfold findCdata findWhere
  rw [sizeT_natCast hpre, hdoc, hfirst, List.length_append] at *
  exact int32_natCast hlen

/-- Behind a start tag, the tag that is found is the first one from eight characters on. -/
theorem nextTag_cdata {pre gap rest x mid rest' : Str}
    (hsplit : gap ++ cdata ++ rest = x ++ mid ++ 60 :: rest') (hx : x.length = 8)
    (hgap : 60 ∉ gap) (hmid : 60 ∉ mid) (hshort : (pre ++ gap ++ [60]).length < 2 ^ 31)
    (hlen : (pre ++ x ++ mid ++ [60]).length < 2 ^ 31) :
    nextTag (pre ++ gap ++ cdata ++ rest) (pre.length : Nat)
      = .ok (((pre ++ x ++ mid).length : Nat), decide ([rest'.headD 0] = text ['/'])) := by
  -- The document as the first search sees it, and as the second one does.
  have hdoc : pre ++ gap ++ cdata ++ rest
      = pre ++ gap ++ 60 :: 33 :: (text ['[', 'C', 'D', 'A', 'T', 'A', '['] ++ rest) := by
    simp [cdata_eq]
  have hdoc' : pre ++ gap ++ cdata ++ rest = pre ++ x ++ mid ++ 60 :: rest' := by
    have happ := congrArg (pre ++ ·) hsplit
    simpa using happ
  have hpre : pre.length < 2 ^ 31 ∧ (pre ++ gap).length < 2 ^ 31 := by
    simp only [List.length_append] at hshort ⊢
    omega
  -- The search for the marker finds the one that follows.
  have hcdata := @findCdata_append pre gap rest (by omega) hgap hpre.2
  obtain ⟨hfind, hchar⟩ := @find_tag pre gap
    (33 :: (text ['[', 'C', 'D', 'A', 'T', 'A', '['] ++ rest)) hshort hgap
  obtain ⟨hfind', hchar'⟩ := @find_tag (pre ++ x) mid rest' hlen hmid
  rw [← hdoc] at hfind hchar
  rw [← hdoc'] at hfind' hchar'
  -- The second search begins eight characters further on.
  have height : int32 ((pre.length : Nat) + 8) = ((pre ++ x).length : Nat) := by
    simp only [List.length_append] at hlen ⊢
    rw [int32_of_fits (by omega) (by omega), hx]
    simp
  unfold nextTag
  dsimp only
  rw [hfind, hchar, ok_bind, List.headD_cons, if_neg (by decide), if_pos hcdata, height, hfind',
    hchar']
  rfl

/-- Where the search starts inside the `<![CDATA[`. -/
theorem cdata_skip {gap : Str} (h : gap.length ≤ 7) :
    ∃ x y, gap ++ cdata = x ++ y ∧ x.length = 8 ∧ 60 ∉ y := by
  refine ⟨_, _, (List.take_append_drop 8 (gap ++ cdata)).symm, ?_, ?_⟩
  · have hlen : cdata.length = 9 := rfl
    rw [List.length_take, List.length_append, hlen]
    omega
  · have hsplit : gap ++ cdata = gap ++ [60] ++ cdata.tail := by simp [cdata_eq]
    rw [hsplit, List.drop_append, List.drop_of_length_le (by simp; omega), List.nil_append]
    intro hmem
    exact absurd (List.mem_of_mem_drop hmem) (by decide)

/-! ### The position behind an element -/

/-- Every value of an `int32` is below 2 ^ 31. -/
theorem int32_lt (n : Int) : int32 n < 2 ^ 31 := by
  have hlt := Int.bmod_lt (x := n) (m := 2 ^ 32) (by decide)
  unfold int32
  omega

/-- The position is an `int`. -/
theorem pos_lt_of_returns {xmlStr : Str} (fuel : Nat) :
    (∀ {origin node pos}, xmlToXmlTree xmlStr fuel origin = .ok (node, pos) → pos < 2 ^ 31) ∧
      ∀ {start children pos}, childLoop xmlStr fuel start = .ok (children, pos) → pos < 2 ^ 31 := by
  induction fuel with
  -- Without fuel neither returns.
  | zero =>
    constructor
    · intro origin node pos h
      cases h
    · intro start children pos h
      cases h
  | succ fuel ih =>
    constructor
    · intro origin node pos h
      obtain ⟨key, start, -, ⟨stop, value, -, -, -, rfl⟩ | ⟨stop, children, -, hloop, -⟩⟩ :=
        xmlToXmlTree_eq_ok_iff.mp h
      -- A returned position has been cast to `int32`.
      · exact int32_lt _
      · exact ih.2 hloop
    · intro start children pos h
      rcases childLoop_eq_ok_iff.mp h with
        ⟨stop, -, -, rfl⟩ | ⟨stop, child, next, rest, -, -, hrest, -⟩
      · exact int32_lt _
      · exact ih.2 hrest

/-! ### When the section is kept -/

section

variable {pre gap t name post : Str}

/-- The section and the end tag behind the start tag. -/
def afterStart (t name post : Str) : Str := t ++ cdataEnd ++ closeTag name ++ post

/-- Without a `<` in the section the end tag is found, and the text in front of it read. -/
theorem readsSection (hgap : 60 ∉ gap) (hshort : gap.length ≤ 7) (ht : 60 ∉ t)
    (hname : 62 ∉ name)
    (hlen : (pre ++ gap ++ cdata ++ t ++ cdataEnd ++ closeTag name).length < 2 ^ 31) :
    ∃ stop, nextTag (pre ++ gap ++ cdata ++ afterStart t name post) (pre.length : Nat)
        = .ok (stop, true) ∧
      substr (pre ++ gap ++ cdata ++ afterStart t name post) (pre.length : Nat)
        (int32 (stop - (pre.length : Nat))) = .ok (gap ++ cdata ++ t ++ cdataEnd) ∧
      afterClose (pre ++ gap ++ cdata ++ afterStart t name post) stop
        = ((pre ++ gap ++ cdata ++ t ++ cdataEnd ++ closeTag name).length : Nat) := by
  -- The eight characters that are skipped hide the `<` of the section.
  obtain ⟨x, y, hxy, hx, hy⟩ := cdata_skip hshort
  have hmid : 60 ∉ y ++ t ++ cdataEnd := by
    have hend : (60 : UInt8) ∉ cdataEnd := by decide
    simp [hy, ht, hend]
  have hsplit : gap ++ cdata ++ afterStart t name post
      = x ++ (y ++ t ++ cdataEnd) ++ 60 :: 47 :: (name ++ 62 :: post) := by
    rw [hxy, afterStart]
    simp [closeTag_eq]
  have hstop : pre ++ x ++ (y ++ t ++ cdataEnd) = pre ++ (gap ++ cdata ++ t ++ cdataEnd) := by
    rw [hxy]
    simp
  have hbefore : (pre ++ (gap ++ cdata ++ t ++ cdataEnd) ++ [60]).length < 2 ^ 31 := by
    rw [closeTag_eq] at hlen
    simp only [List.length_append, List.length_cons] at hlen ⊢
    omega
  have hdoc : pre ++ gap ++ cdata ++ afterStart t name post
      = pre ++ (gap ++ cdata ++ t ++ cdataEnd) ++ closeTag name ++ post := by simp [afterStart]
  refine ⟨((pre ++ (gap ++ cdata ++ t ++ cdataEnd)).length : Nat), ?_, ?_, ?_⟩
  -- The next tag is the end tag behind the section.
  · rw [← hstop, nextTag_cdata hsplit hx hgap hmid ?_ (hstop ▸ hbefore)]
    · rfl
    · simp only [List.length_append] at hbefore ⊢
      omega
  -- The text in front of it is the whole section.
  · rw [hdoc, List.append_assoc _ (closeTag name)]
    refine substr_between ?_
    simp only [List.length_append] at hbefore ⊢
    omega
  -- Behind the end tag the parser goes on.
  · have hend : pre ++ gap ++ cdata ++ t ++ cdataEnd ++ closeTag name
        = pre ++ (gap ++ cdata ++ t ++ cdataEnd) ++ closeTag name := by simp
    rw [hdoc, hend]
    exact afterClose_append (hend ▸ hlen) hname

/-- The text of a leaf that ends in front of a `<` of the section does not contain the
section. -/
theorem not_infix_of_cut {u r : Str} (hgap : 60 ∉ gap) (hu : 60 ∉ u) :
    ¬ u ++ 60 :: 47 :: r <:+: gap ++ cdata ++ u := by
  rintro ⟨a, b, hab⟩
  have hone : gap ++ 60 :: (cdata.tail ++ u) = a ++ u ++ 60 :: (47 :: r ++ b) := by
    rw [cdata_eq] at hab ⊢
    simpa using hab.symm
  have htail : (60 : UInt8) ∉ cdata.tail ++ u := by
    have hcdata : (60 : UInt8) ∉ cdata.tail := by decide
    simp [hcdata, hu]
  -- There is one `<` only, and behind it stands a `!`.
  obtain ⟨-, -, hbehind⟩ := (List.append_cons_inj_of_notMem hgap htail).mp hone
  exact absurd (List.cons.inj hbehind).1 (by decide)

/-- The first `<` of a short text has a short position. -/
theorem gapEnd_lt
    (hlen : (pre ++ gap ++ cdata ++ t ++ cdataEnd ++ closeTag name).length < 2 ^ 31) :
    (pre ++ gap ++ [60]).length < 2 ^ 31 := by
  rw [cdata_eq] at hlen
  simp only [List.length_append, List.length_cons, List.length_nil] at hlen ⊢
  omega

/-- If an end tag is found, the search starts inside the `<![CDATA[`. -/
theorem gap_le_of_endTag {stop : Int} (hgap : 60 ∉ gap)
    (hlen : (pre ++ gap ++ cdata ++ t ++ cdataEnd ++ closeTag name).length < 2 ^ 31)
    (htag : nextTag (pre ++ gap ++ cdata ++ afterStart t name post) (pre.length : Nat)
      = .ok (stop, true)) : gap.length ≤ 7 := by
  by_contra hlong
  -- The search finds the `<![CDATA[` itself.
  have hsplit : gap ++ cdata ++ afterStart t name post
      = gap.take 8 ++ gap.drop 8 ++ 60 :: 33 :: (cdata.tail.tail ++ afterStart t name post) := by
    rw [List.take_append_drop, cdata_eq]
    simp
  have hskip : pre ++ gap.take 8 ++ gap.drop 8 = pre ++ gap := by
    rw [List.append_assoc, List.take_append_drop]
  have hgapEnd := gapEnd_lt hlen
  rw [nextTag_cdata hsplit (by rw [List.length_take]; omega) hgap
    (fun hmem => hgap (List.mem_of_mem_drop hmem)) hgapEnd (hskip ▸ hgapEnd)] at htag
  cases htag

/-- If an end tag is found and the text in front of it contains the section, then the section
has no `<`. -/
theorem free_of_readsSection {stop : Int} {value : Str} (hgap : 60 ∉ gap)
    (hshort : gap.length ≤ 7)
    (hlen : (pre ++ gap ++ cdata ++ t ++ cdataEnd ++ closeTag name).length < 2 ^ 31)
    (htag : nextTag (pre ++ gap ++ cdata ++ afterStart t name post) (pre.length : Nat)
      = .ok (stop, true))
    (hvalue : substr (pre ++ gap ++ cdata ++ afterStart t name post) (pre.length : Nat)
      (int32 (stop - (pre.length : Nat))) = .ok value)
    (hkept : t <:+: value) : 60 ∉ t := by
  intro ht
  -- The search stops at the first `<` of the section.
  obtain ⟨u, r, rfl, hu⟩ := List.eq_append_cons_of_mem ht
  obtain ⟨x, y, hxy, hx, hy⟩ := cdata_skip hshort
  obtain ⟨c, rest, hc⟩ : ∃ c rest, r ++ cdataEnd ++ closeTag name ++ post = c :: rest := by
    cases r with
    | nil => exact ⟨93, _, rfl⟩
    | cons c r => exact ⟨c, _, rfl⟩
  have hsplit : gap ++ cdata ++ afterStart (u ++ 60 :: r) name post
      = x ++ (y ++ u) ++ 60 :: c :: rest := by
    rw [← hc, hxy, afterStart]
    simp
  have hstop : pre ++ x ++ (y ++ u) = pre ++ (gap ++ cdata ++ u) := by
    rw [hxy]
    simp
  have hbefore : (pre ++ (gap ++ cdata ++ u) ++ [60]).length < 2 ^ 31 := by
    simp only [List.length_append, List.length_cons, List.length_nil] at hlen ⊢
    omega
  rw [nextTag_cdata hsplit hx hgap (by simp [hy, hu]) (gapEnd_lt hlen)
    (hstop ▸ hbefore)] at htag
  obtain ⟨hstopEq, hclosing⟩ := Prod.mk.inj (Except.ok.inj htag)
  -- An end tag was found, so a slash stands behind the `<`, and it is one of the section.
  obtain rfl : c = 47 := by simpa [text] using hclosing
  obtain ⟨r', rfl⟩ : ∃ r', r = 47 :: r' := by
    cases r with
    | nil => exact absurd (List.cons.inj hc).1 (by decide)
    | cons b r' => exact ⟨r', by rw [(List.cons.inj hc).1]⟩
  have hdoc : pre ++ gap ++ cdata ++ afterStart (u ++ 60 :: 47 :: r') name post
      = pre ++ (gap ++ cdata ++ u) ++ (60 :: 47 :: rest) := by
    have happ := congrArg (pre ++ ·) hsplit
    rw [← List.append_assoc, ← List.append_assoc] at happ
    rw [happ, ← hstop]
    simp
  have hcut : substr (pre ++ (gap ++ cdata ++ u) ++ (60 :: 47 :: rest)) (pre.length : Nat)
      (int32 (((pre ++ (gap ++ cdata ++ u)).length : Nat) - (pre.length : Nat)))
        = .ok (gap ++ cdata ++ u) := by
    refine substr_between ?_
    simp only [List.length_append] at hbefore ⊢
    omega
  rw [← hstopEq, hstop, hdoc, hcut] at hvalue
  rw [← Except.ok.inj hvalue] at hkept
  exact not_infix_of_cut hgap hu hkept

end

/-- The parts of the element, with the key and what the parser takes for text behind it. -/
structure Parts (pre tag t name key gap : Str) : Prop where
  element : pre ++ cdataElement tag t name
    = pre ++ openTag key ++ gap ++ cdata ++ t ++ cdataEnd ++ closeTag name
  key_free : 62 ∉ key
  gap_free : 60 ∉ gap
  gap_length : gap.length = (tag.dropWhile (· ≠ 62)).length

/-- Any tag has a key that ends at its first `>`, and what is left of it is text. -/
theorem exists_parts (pre t name : Str) {tag : Str} (htag : 60 ∉ tag) :
    ∃ key gap, Parts pre tag t name key gap := by
  obtain ⟨key, gap, hopen, hkey, hgap, hlength⟩ := openTag_split htag
  exact ⟨key, gap, by rw [cdataElement, hopen]; simp, hkey, hgap, hlength⟩

section

variable {pre tag t name key gap : Str}

/-- The document, cut at the places that the parser looks at. -/
theorem Parts.document (h : Parts pre tag t name key gap) (post : Str) :
    pre ++ cdataElement tag t name ++ post
      = pre ++ openTag key ++ gap ++ cdata ++ afterStart t name post := by
  rw [h.element, afterStart]
  simp

/-- The key is read up to the first `>`. -/
theorem Parts.reads_key (h : Parts pre tag t name key gap) (post : Str)
    (hlen : (pre ++ cdataElement tag t name).length < 2 ^ 31) :
    int32 (pre.length : Nat) = (pre.length : Nat) ∧
      readKey (pre ++ cdataElement tag t name ++ post) (pre.length : Nat)
        = .ok (key, ((pre ++ openTag key).length : Nat)) := by
  have hstart : (pre ++ openTag key).length < 2 ^ 31 := by
    rw [h.element] at hlen
    simp only [List.length_append] at hlen ⊢
    omega
  refine ⟨int32_natCast ?_, ?_⟩
  · rw [List.length_append] at hlen
    omega
  · rw [h.document, List.append_assoc _ gap, List.append_assoc]
    exact readKey_append hstart h.key_free

/-- What an element has whose section is kept. -/
theorem conditions_of_cdataKept {post : Str} (htag : 60 ∉ tag)
    (h : CdataKept pre tag t name post) :
    60 ∉ t ∧ (tag.dropWhile (· ≠ 62)).length ≤ 7 ∧
      (pre ++ cdataElement tag t name).length < 2 ^ 31 := by
  obtain ⟨key, gap, hparts⟩ := exists_parts pre t name htag
  obtain ⟨fuel, key', value, hparse, hkept⟩ := h
  have hlen : (pre ++ cdataElement tag t name).length < 2 ^ 31 := by
    have hpos := (pos_lt_of_returns fuel).1 hparse
    omega
  obtain ⟨hint, hreadKey⟩ := hparts.reads_key post hlen
  cases fuel with
  | zero => cases hparse
  | succ fuel =>
    rw [hint, xmlToXmlTree_eq_ok_iff] at hparse
    obtain ⟨key'', start, hkey', ⟨stop, value', hnext, hvalue, hnode, -⟩ |
      ⟨stop, children, -, -, hnode⟩⟩ := hparse
    · obtain ⟨-, hvalue', -⟩ := XmlNode.mk.inj hnode
      obtain rfl : value = value' := Option.some.inj hvalue'
      obtain ⟨-, rfl⟩ := Prod.mk.inj (Except.ok.inj (hreadKey.symm.trans hkey'))
      rw [hparts.document] at hnext hvalue
      have hlen' := hparts.element ▸ hlen
      have hshort := gap_le_of_endTag hparts.gap_free hlen' hnext
      have ht := free_of_readsSection hparts.gap_free hshort hlen' hnext hvalue hkept
      exact ⟨ht, hparts.gap_length ▸ hshort, hlen⟩
    -- An element with children is no leaf.
    · obtain ⟨-, hvalue', -⟩ := XmlNode.mk.inj hnode
      cases hvalue'

/-- Under the conditions the section is kept. -/
theorem cdataKept_of_conditions (post : Str) (htag : 60 ∉ tag) (hname : 62 ∉ name)
    (ht : 60 ∉ t) (hshort : (tag.dropWhile (· ≠ 62)).length ≤ 7)
    (hlen : (pre ++ cdataElement tag t name).length < 2 ^ 31) :
    CdataKept pre tag t name post := by
  obtain ⟨key, gap, hparts⟩ := exists_parts pre t name htag
  obtain ⟨hint, hreadKey⟩ := hparts.reads_key post hlen
  obtain ⟨stop, hnext, hvalue, hafter⟩ := @readsSection _ gap t name post hparts.gap_free
    (hparts.gap_length ▸ hshort) ht hname (hparts.element ▸ hlen)
  rw [← hparts.document] at hnext hvalue hafter
  rw [← hparts.element] at hafter
  refine ⟨1, key, gap ++ cdata ++ t ++ cdataEnd, ?_, gap ++ cdata, cdataEnd, rfl⟩
  rw [hint]
  exact xmlToXmlTree_eq_ok_iff.mpr ⟨key, _, hreadKey, .inl ⟨stop, _, hnext, hvalue, rfl,
    hafter.symm⟩⟩

end

/-- A CDATA section is kept exactly when its text has no `<`, at most seven characters stand
between the first `>` of the start tag and the section, and the element ends before byte
`2 ^ 31`. -/
theorem cdataKept_iff (pre tag t name post : Str) (htag : 60 ∉ tag) (hname : 62 ∉ name) :
    CdataKept pre tag t name post ↔
      60 ∉ t ∧ (tag.dropWhile (· ≠ 62)).length ≤ 7 ∧
        (pre ++ cdataElement tag t name).length < 2 ^ 31 := by
  constructor
  · exact conditions_of_cdataKept htag
  · rintro ⟨ht, hshort, hlen⟩
    exact cdataKept_of_conditions post htag hname ht hshort hlen

/-- The element `<k><![CDATA[a]>/>]]></k>` as a second child. -/
theorem cdataKept_second :
    60 ∉ text ['k'] ∧ 62 ∉ text ['k'] ∧
    CdataKept (text ['<', 'r', '>', '<', 'b', '>', '<', '/', 'b', '>']) (text ['k'])
      (text ['a', ']', '>', '/', '>']) (text ['k']) (text ['<', '/', 'r', '>']) :=
  ⟨by decide, by decide,
    (cdataKept_iff _ _ _ _ _ (by decide) (by decide)).mpr ⟨by decide, by decide, by decide⟩⟩

/-- The section of `<k><![CDATA[<]]></k>` is taken for the beginning of a child. -/
theorem not_cdataKept_angle :
    60 ∉ text ['k'] ∧ 62 ∉ text ['k'] ∧ ¬ cdataEnd <:+: text ['<'] ∧
    ¬ CdataKept [] (text ['k']) (text ['<']) (text ['k']) [] := by
  refine ⟨by decide, by decide, fun h => absurd h.length_le (by decide), fun h => ?_⟩
  exact (conditions_of_cdataKept (by decide) h).1 (by decide)

end Mylib.Proofs.Base.Xml
