import Mylib.Proofs.Xmpp.Expat
import Mylib.Proofs.Xmpp.Reading

/-!
# `Mylib.Proofs.Xmpp.Escaping`: a printed document is a document

The text that the printer writes for a plain element is read again as XML: the reader finds the
tags of the document in it, and what it reports for values and texts is what was there before the
printer replaced characters by entities (`read_document`). Nothing else in the text can be taken
for a tag, a quote or a reference, and its characters are XML characters
(`isText_document`). -/

set_option autoImplicit false

namespace Mylib.Proofs.Xmpp.Escaping

open Mylib.Lib.XmlText
open Mylib.Spec.Base (Str)
open Mylib.Spec.Base.StringUtil (text)
open Mylib.Spec.Xmpp
open Mylib.Spec.Xmpp.XmlnsStack
open Mylib.Proofs.Xmpp.Printing
open Mylib.Proofs.Xmpp.Reading
open Mylib.Proofs.Xmpp.Expat

/-! ### Documents that can be printed -/

/-- Names, values and texts that can stand in an XML document, and no attribute twice in a tag. -/
def Printable : Markup → Prop
  | .nil => True
  | .text t next => IsContent t ∧ Printable next
  | .element name atts first next =>
    (IsName name ∧ (∀ a ∈ atts, IsName a.1 ∧ IsValue a.2) ∧ (atts.map Prod.fst).Nodup) ∧
      Printable first ∧ Printable next

/-- The markup of plain elements can be printed. -/
theorem printable_markup {c : XmlChild} (hplain : Plain c) {s : XmlnsStack} (hs : Named s) :
    Printable (markup s c) := by
  induction c generalizing s with
  | nil => trivial
  | text t next ih => exact ⟨hplain.1, ih hplain.2 hs⟩
  | element name attrs firstChild next ihFirst ihNext =>
    obtain ⟨htag, hfirst, hnext⟩ := hplain
    have hdeclared := declared_spec s name attrs
    have hs' := named_declared hdeclared hs htag
    refine ⟨⟨isName_formatQName hs' htag.plain hdeclared.found, fun a ha => ?_,
      nodup_tagAtts hdeclared hs htag⟩, ihFirst hfirst hs', ihNext hnext hs⟩
    rcases List.mem_append.mp ha with ha | ha
    · obtain ⟨b, hb, rfl⟩ := List.mem_map.mp ha
      exact ⟨isName_formatQName hs' (htag.plainAttrs b hb) (hdeclared.attrsFound b hb),
        htag.areValues b hb⟩
    · -- a definition that was added is one of the namespace of a name
      obtain ⟨d, hd, rfl⟩ := List.mem_map.mp ha
      obtain ⟨s₁, -, hfree⟩ := hdeclared.fresh.isFree d hd
      refine ⟨isName_xmlnsName (isName_of_isFree hfree), ?_⟩
      rcases hdeclared.origin d hd with ⟨heq, -⟩ | ⟨b, hb, heq, -⟩
      · show IsValue d.2
        rw [heq]
        exact htag.plain.isValue
      · show IsValue d.2
        rw [heq]
        exact (htag.plainAttrs b hb).isValue

/-! ### References -/

/-- The four characters that are escaped. -/
theorem entity_cases {ch : UInt8} (h : ch ∈ specials) : ch = 60 ∨ ch = 62 ∨ ch = 38 ∨ ch = 34 := by
  simpa [specials] using h

/-- In a text the quote may stand for itself. -/
theorem bodySpecials_subset : ∀ ch ∈ [60, 62, 38], ch ∈ specials :=
  fun _ h => List.mem_append_left [34] h

/-- A text is escaped character by character. -/
theorem escape_cons (chars : Str) (ch : UInt8) (t : Str) :
    escape chars (ch :: t) = (if ch ∈ chars then entity ch else [ch]) ++ escape chars t := rfl

/-- In a value, every entity is read as the character it stands for. -/
theorem run_entity_value {ch : UInt8} (h : ch ∈ specials) (opened : List Bytes) (name : Bytes)
    (atts : List (Bytes × Bytes)) (att seen : Bytes) :
    run ⟨opened, .value name atts att seen⟩ (entity ch)
      = some (⟨opened, .value name atts att (seen ++ [ch])⟩, []) := by
  rcases entity_cases h with rfl | rfl | rfl | rfl
  · rfl
  · rfl
  · rfl
  · rfl

/-- The same in the content of an element. -/
theorem run_entity_content {ch : UInt8} (h : ch ∈ specials) (opened : List Bytes) :
    run ⟨opened, .content⟩ (entity ch) = some (⟨opened, .content⟩, [.chars [ch]]) := by
  rcases entity_cases h with rfl | rfl | rfl | rfl
  · rfl
  · rfl
  · rfl
  · rfl

/-- A value is read back from what `PrintQuotedValue` writes. -/
theorem run_escape_value {value : Str} (h : IsValue value) (opened : List Bytes) (name : Bytes)
    (atts : List (Bytes × Bytes)) (att : Bytes) :
    run ⟨opened, .value name atts att []⟩ (escape specials value)
      = some (⟨opened, .value name atts att value⟩, []) := by
  -- over the characters that are left, with those that were read
  have hrest : ∀ (rest seen : Str), 13 ∉ rest → 9 ∉ rest → 10 ∉ rest →
      run ⟨opened, .value name atts att seen⟩ (escape specials rest)
        = some (⟨opened, .value name atts att (seen ++ rest)⟩, []) := by
    intro rest
    induction rest with
    | nil =>
      intro seen _ _ _
      rw [List.append_nil]
      rfl
    | cons ch rest ih =>
      intro seen hreturn htab hnewline
      obtain ⟨hch, hreturn⟩ := List.ne_and_not_mem_of_not_mem_cons hreturn
      obtain ⟨hch', htab⟩ := List.ne_and_not_mem_of_not_mem_cons htab
      obtain ⟨hch'', hnewline⟩ := List.ne_and_not_mem_of_not_mem_cons hnewline
      have hnext := ih (seen ++ [ch]) hreturn htab hnewline
      rw [List.append_assoc, List.singleton_append] at hnext
      rw [escape_cons]
      split_ifs with hspecial
      · rw [run_append_silent (run_entity_value hspecial opened name atts att seen), hnext]
      · have hstep : step ⟨opened, .value name atts att seen⟩ ch
            = some (⟨opened, .value name atts att (seen ++ [ch])⟩, []) := by
          simp only [specials, List.mem_cons, List.not_mem_nil, or_false, not_or] at hspecial
          obtain ⟨hlt, -, hamp, hquote⟩ := hspecial
          show (if ch = 34 then _ else if ch = 38 then _
            else if ch = 60 ∨ ch = 9 ∨ ch = 10 ∨ ch = 13 then _ else _) = _
          rw [if_neg hquote, if_neg hamp, if_neg]
          rintro (rfl | rfl | rfl | rfl)
          · exact hlt rfl
          · exact hch' rfl
          · exact hch'' rfl
          · exact hch rfl
        rw [List.singleton_append, run_silent hstep, hnext]
  exact hrest value [] h.noReturn h.noTab h.noNewline

/-- A text is read back from what `PrintBodyText` writes, byte by byte. -/
theorem run_escape_content {t : Str} (h : IsContent t) (opened : List Bytes) :
    run ⟨opened, .content⟩ (escape [60, 62, 38] t)
      = some (⟨opened, .content⟩, t.map fun b => .chars [b]) := by
  have hreturn := h.noReturn
  clear h
  -- A special is undone by its entity, any other byte stands for itself.
  induction t with
  | nil => rfl
  | cons ch t ih =>
    obtain ⟨hch, hreturn⟩ := List.ne_and_not_mem_of_not_mem_cons hreturn
    rw [escape_cons]
    split_ifs with hspecial
    · exact run_append_of (run_entity_content (bodySpecials_subset ch hspecial) opened) (ih hreturn)
    -- The byte is none that ends the text, starts a reference or is refused.
    · have hstep : step ⟨opened, .content⟩ ch = some (⟨opened, .content⟩, [.chars [ch]]) := by
        simp only [List.mem_cons, List.not_mem_nil, or_false, not_or] at hspecial
        obtain ⟨hlt, hgt, hamp⟩ := hspecial
        show (if ch = 60 then _ else if ch = 38 then _ else if ch = 62 ∨ ch = 13 then _ else _) = _
        rw [if_neg hlt, if_neg hamp, if_neg]
        rintro (rfl | rfl)
        · exact hgt rfl
        · exact hch rfl
      rw [List.singleton_append, run_cons hstep, ih hreturn]
      rfl

/-! ### Tags -/

/-- What the printer writes for the attributes of a tag. -/
def attributes (atts : List (Str × Str)) : Str :=
  atts.flatMap fun a => text [' '] ++ a.1 ++ text ['=', '"'] ++ escape specials a.2 ++ text ['"']

/-- The attributes are read one after the other. -/
theorem run_attributes {atts : List (Str × Str)} (h : ∀ a ∈ atts, IsName a.1 ∧ IsValue a.2)
    (opened : List Bytes) (name : Bytes) (seen : List (Bytes × Bytes)) (rest : Str) :
    run ⟨opened, .behindValue name seen⟩ (attributes atts ++ rest)
      = run ⟨opened, .behindValue name (seen ++ atts)⟩ rest := by
  induction atts generalizing seen with
  | nil =>
    rw [List.append_nil]
    rfl
  | cons a atts ih =>
    obtain ⟨⟨hname, hvalue⟩, hatts⟩ := List.forall_mem_cons.mp h
    have htext : attributes (a :: atts) ++ rest
        = 32 :: (a.1 ++ 61 :: 34 :: (escape specials a.2 ++ 34 :: (attributes atts ++ rest))) := by
      simp [attributes, text]
    have hblank : step ⟨opened, .behindValue name seen⟩ 32
        = some (⟨opened, .gap name seen⟩, []) := rfl
    have hquote : step ⟨opened, .value name seen a.1 a.2⟩ 34
        = some (⟨opened, .behindValue name (seen ++ [a])⟩, []) := rfl
    rw [htext, run_silent hblank, run_attribute hname,
      run_append_silent (run_escape_value hvalue opened name seen a.1), run_silent hquote,
      ih hatts, List.append_assoc, List.singleton_append]

/-- A start tag, up to its end. -/
theorem run_tag {name : Str} {atts : List (Str × Str)} (hname : IsName name)
    (hatts : ∀ a ∈ atts, IsName a.1 ∧ IsValue a.2) {opened : List Bytes} {mode : Mode}
    (hmode : step ⟨opened, mode⟩ 60 = some (⟨opened, .angle⟩, [])) {c : UInt8}
    (hc : isNameChar c = false) (rest : Str) :
    run ⟨opened, mode⟩ (60 :: (name ++ (attributes atts ++ c :: rest)))
      = run ⟨opened, .behindValue name atts⟩ (c :: rest) := by
  rw [run_silent hmode, run_append_silent (run_startTag hname)]
  -- behind the name there is a blank, or the end of the tag
  have hfirst : run ⟨opened, .startTag name⟩ (attributes atts ++ c :: rest)
      = run ⟨opened, .behindValue name []⟩ (attributes atts ++ c :: rest) := by
    cases atts with
    | nil => exact run_startTag_eq hc rest
    | cons a atts =>
      obtain ⟨more, hmore⟩ : ∃ more, attributes (a :: atts) ++ c :: rest = 32 :: more :=
        ⟨_, rfl⟩
      rw [hmore]
      exact run_startTag_eq (by decide) more
  rw [hfirst, run_attributes hatts, List.nil_append]

/-! ### Documents -/

/-- The events of a document, with every byte of its texts alone. -/
def spelled : Markup → List Event
  | .nil => []
  | .text t next => (t.map fun b => .chars [b]) ++ spelled next
  | .element name atts first next =>
    .start name atts :: (spelled first ++ .finish name :: spelled next)

/-- What the printer writes for an element without what comes behind it. -/
theorem serialize_element (name : Str) (atts : List (Str × Str)) (first next : Markup) :
    serialize (.element name atts first next) =
      60 :: (name ++ (attributes atts ++
        (if first = .nil then [47, 62] else 62 :: (serialize first ++ 60 :: 47 :: (name ++ [62])))))
        ++ serialize next := by
  cases first with
  | nil => simp [serialize, attributes, text]
  | text t rest => simp [serialize, attributes, text]
  | element name' atts' first' rest => simp [serialize, attributes, text]

/-- An element is read from its tag to the end of it, once its content is. -/
theorem run_serialize_element {name : Str} {atts : List (Str × Str)} {first : Markup}
    (htag : IsName name ∧ (∀ a ∈ atts, IsName a.1 ∧ IsValue a.2) ∧ (atts.map Prod.fst).Nodup)
    {opened : List Bytes} {mode : Mode}
    (hmode : step ⟨opened, mode⟩ 60 = some (⟨opened, .angle⟩, []))
    (hfirst : run ⟨name :: opened, .content⟩ (serialize first)
      = some (⟨name :: opened, .content⟩, spelled first)) :
    run ⟨opened, mode⟩ (60 :: (name ++ (attributes atts ++ (if first = .nil then [47, 62]
        else 62 :: (serialize first ++ 60 :: 47 :: (name ++ [62]))))))
      = some (⟨opened, behind opened⟩, .start name atts :: (spelled first ++ [.finish name])) := by
  obtain ⟨hname, hatts, hnodup⟩ := htag
  split_ifs with hnil
  -- No content: the tag is closed by its own slash.
  · rw [run_tag hname hatts hmode (by decide), hnil]
    have hslash : step ⟨opened, .behindValue name atts⟩ 47
        = some (⟨opened, .slash name atts⟩, []) := rfl
    have hend : step ⟨opened, .slash name atts⟩ 62
        = some (⟨opened, behind opened⟩, [.start name atts, .finish name]) := if_pos ⟨rfl, hnodup⟩
    rw [run_silent hslash, run_cons hend]
    rfl
  -- With content: the tag is opened, the content run, and the end tag read.
  · rw [run_tag hname hatts hmode (by decide)]
    have hopen : step ⟨opened, .behindValue name atts⟩ 62
        = some (⟨name :: opened, .content⟩, [.start name atts]) := by
      show tagStep opened name atts 62 = _
      rw [tagStep, if_neg (by decide), if_neg (by decide), if_pos ⟨rfl, hnodup⟩]
    have hangle : step ⟨name :: opened, .content⟩ 60
        = some (⟨name :: opened, .angle⟩, []) := rfl
    have hslash : step ⟨name :: opened, .angle⟩ 47
        = some (⟨name :: opened, .endTag []⟩, []) := rfl
    have hend : run ⟨name :: opened, .content⟩ (60 :: 47 :: (name ++ [62]))
        = some (⟨opened, behind opened⟩, [.finish name]) := by
      rw [run_silent hangle, run_silent hslash, run_endTag hname]
    rw [run_cons hopen, run_append_of hfirst hend]
    rfl

/-- The siblings inside of an element. -/
theorem run_serialize {m : Markup} (hm : Printable m) {opened : List Bytes} (hopen : opened ≠ []) :
    run ⟨opened, .content⟩ (serialize m) = some (⟨opened, .content⟩, spelled m) := by
  induction m generalizing opened with
  | nil => rfl
  | text t next ih => exact run_append_of (run_escape_content hm.1 opened) (ih hm.2 hopen)
  | element name atts first next ihFirst ihNext =>
    obtain ⟨htag, hfirst, hnext⟩ := hm
    have hmode : step ⟨opened, .content⟩ 60 = some (⟨opened, .angle⟩, []) := rfl
    have helement := run_serialize_element htag hmode
      (ihFirst hfirst (List.cons_ne_nil name opened))
    rw [behind, if_neg hopen] at helement
    rw [serialize_element, run_append_of helement (ihNext hnext hopen), spelled]
    simp

/-- The text of one element is a document, and it is read as that element. -/
theorem read_serialize {name : Str} {atts : List (Str × Str)} {first : Markup}
    (hm : Printable (.element name atts first .nil)) :
    readDocument (serialize (.element name atts first .nil))
      = some (spelled (.element name atts first .nil)) := by
  obtain ⟨htag, hfirst, -⟩ := hm
  have hmode : step ⟨[], .front⟩ 60 = some (⟨[], .angle⟩, []) := rfl
  have helement := run_serialize_element htag hmode
    (run_serialize hfirst (List.cons_ne_nil name []))
  unfold readDocument
  rw [serialize_element, show serialize .nil = [] from rfl, List.append_nil, helement]
  rfl

/-! ### Characters -/

/-- Escaping keeps a text a text. -/
theorem isText_escape {chars t : Str} (hchars : ∀ ch ∈ chars, ch ∈ specials) (ht : IsText t) :
    IsText (escape chars t) := by
  refine ht.replace fun ch => ?_
  split_ifs with hch
  · rcases entity_cases (hchars ch hch) with rfl | rfl | rfl | rfl
    · exact .inr (by decide +kernel)
    · exact .inr (by decide +kernel)
    · exact .inr (by decide +kernel)
    · exact .inr (by decide +kernel)
  · exact .inl rfl

/-- Attributes with names and printable values are text of the grammar. -/
theorem isText_attributes {atts : List (Str × Str)} (h : ∀ a ∈ atts, IsName a.1 ∧ IsValue a.2) :
    IsText (attributes atts) := by
  refine isText_flatMap fun a ha => ?_
  obtain ⟨hname, hvalue⟩ := h a ha
  have hescape : IsText (escape specials a.2) := isText_escape (fun _ h => h) hvalue.isText
  have hblank : IsText (text [' ']) := by decide
  have hequals : IsText (text ['=', '"']) := by decide
  have hquote : IsText (text ['"']) := by decide
  exact (((hblank.append hname.isText).append hequals).append hescape).append hquote

/-- What is printed is text of the grammar. By induction on the markup. -/
theorem isText_serialize {m : Markup} (hm : Printable m) : IsText (serialize m) := by
  induction m with
  | nil => exact isText_nil
  | text t next ih =>
    have hescape : IsText (escape [60, 62, 38] t) := isText_escape bodySpecials_subset hm.1.isText
    exact hescape.append (ih hm.2)
  | element name atts first next ihFirst ihNext =>
    obtain ⟨⟨hname, hatts, -⟩, hfirst, hnext⟩ := hm
    have hangle : IsText [60] := by decide
    have hclose : IsText [62] := by decide
    have hempty : IsText [47, 62] := by decide
    have hend : IsText [60, 47] := by decide
    rw [serialize_element]
    refine IsText.append (hangle.append (hname.isText.append ((isText_attributes hatts).append ?_)))
      (ihNext hnext)
    split_ifs
    · exact hempty
    · exact hclose.append ((ihFirst hfirst).append (hend.append (hname.isText.append hclose)))

end Mylib.Proofs.Xmpp.Escaping
