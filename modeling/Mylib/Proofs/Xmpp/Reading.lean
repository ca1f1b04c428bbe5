import Mylib.Proofs.Xmpp.Printing

/-!
# `Mylib.Proofs.Xmpp.Reading`: a printed tag is read back

The parser sees the attributes of a tag as strings. From them it makes the definitions the
printer had (`startNamespaces_tag`), so that every name resolves to what it was
(`buildElement_tag`). The one tag it refuses is an element without a namespace under a default
namespace: the printer gives such an element a prefix for the empty namespace
(`startNamespaces_homeless`).
-/

set_option autoImplicit false

namespace Mylib.Proofs.Xmpp.Reading

open Mylib.Lib.XmlText (IsName isNameStart isNameChar)
open Mylib.Spec.Base (Str)
open Mylib.Spec.Base.StringUtil (text)
open Mylib.Spec.Xmpp
open Mylib.Spec.Xmpp.XmlnsStack
open Mylib.Spec.Xmpp.XmlParser (startNamespaces)
open Mylib.Spec.Xmpp.XmlBuilder (buildAttrs buildElement)
open Mylib.Proofs.Xmpp.Namespaces
open Mylib.Proofs.Xmpp.Printing

/-! ### Names -/

/-- Prefixes that are names without a colon, but for the default one. -/
def Named (s : XmlnsStack) : Prop :=
  ∀ d ∈ s.pxmlnsStack, d.1 = [] ∨ (IsName d.1 ∧ colon ∉ d.1)

/-- No colon stands in a prefix on the stack. -/
theorem Named.noColon {s : XmlnsStack} (hs : Named s) : ∀ d ∈ s.pxmlnsStack, colon ∉ d.1 := by
  intro d hd
  rcases hs d hd with hnil | hname
  · rw [hnil]
    exact List.not_mem_nil
  · exact hname.2

/-- No prefix but the default one is for the empty namespace. -/
structure Sane (s : XmlnsStack) : Prop where
  named : Named s
  bound : ∀ d ∈ s.pxmlnsStack, d.2 = [] → d.1 = []

/-- No colon stands in a prefix that is found. -/
theorem noColon_prefixForNs {s : XmlnsStack} (hs : ∀ d ∈ s.pxmlnsStack, colon ∉ d.1) {ns pfx : Str}
    {isattr : Bool} (h : s.prefixForNs ns isattr = some pfx) : colon ∉ pfx := by
  obtain ⟨-, rfl⟩ | ⟨-, rfl⟩ | ⟨rfl, -⟩ | ⟨pos, hpos, rfl, -⟩ := prefixForNs_cases h
  · decide
  · decide
  · exact List.not_mem_nil
  · exact hs pos hpos

/-- A name is printed with its prefix, or without the empty one. -/
theorem formatQName_of_prefixForNs {s : XmlnsStack} {name : QName} {isAttr : Bool} {pfx : Str}
    (h : s.prefixForNs name.ns isAttr = some pfx) :
    s.formatQName name isAttr =
      if pfx = [] then name.localPart else pfx ++ colon :: name.localPart := by
  rw [formatQName, h, Option.getD_some]
  cases pfx with
  | nil => rfl
  | cons ch pfx => rfl

/-- A name that is printed with its prefix resolves to itself. -/
theorem resolveQName_formatQName {s : XmlnsStack} (hs : ∀ d ∈ s.pxmlnsStack, colon ∉ d.1)
    {name : QName} (hname : PlainName name) {isAttr : Bool}
    (h : (s.prefixForNs name.ns isAttr).isSome) :
    resolveQName s (s.formatQName name isAttr) isAttr = name := by
  obtain ⟨pfx, hpfx⟩ := Option.isSome_iff_exists.mp h
  have hstands := stands_prefixForNs hpfx
  have hcolon := noColon_prefixForNs hs hpfx
  rw [formatQName_of_prefixForNs hpfx]
  -- Printed bare, or behind its prefix and a colon.
  by_cases hnil : pfx = []
  · rw [if_pos hnil, resolveQName, if_neg hname.noColon]
    subst hnil
    -- A bare attribute has no namespace; a bare element has the default one.
    cases isAttr with
    | true =>
      have hns : name.ns = [] := by simpa [Stands] using hstands
      rw [if_pos rfl, ← hns]
    | false =>
      have hns : s.nsForPrefix [] = some name.ns := by simpa [Stands] using hstands
      rw [if_neg (by decide), hns]
  · have hns : s.nsForPrefix pfx = some name.ns := by simpa [Stands, hnil] using hstands
    -- The prefix has no colon, so the printed name is cut where it was joined.
    have hsafe : ∀ ch ∈ pfx, decide (ch ≠ colon) = true := by
      intro ch hch
      rw [decide_eq_true_eq]
      rintro rfl
      exact hcolon hch
    have htake : (pfx ++ colon :: name.localPart).takeWhile (· ≠ colon) = pfx := by
      rw [List.takeWhile_append_of_pos hsafe]
      simp
    have hdrop : (pfx ++ colon :: name.localPart).dropWhile (· ≠ colon) =
        colon :: name.localPart := by
      rw [List.dropWhile_append_of_pos hsafe]
      simp
    rw [if_neg hnil, resolveQName, if_pos (by simp), htake, hns, hdrop, List.tail_cons]

/-- The attribute that defines a prefix has the name of the definition. -/
theorem resolveQName_xmlnsName (s : XmlnsStack) (pfx : Str) :
    resolveQName s (xmlnsName pfx) true = ⟨nsXmlns, pfx⟩ := by
  have hmem : colon ∈ xmlnsName pfx := List.mem_append_right _ List.mem_cons_self
  rw [resolveQName, if_pos hmem]
  rfl

/-! ### The definitions of a tag -/

/-- The namespace of definitions is not the empty one. -/
theorem ne_nsXmlns_nil : nsXmlns ≠ [] := by decide

/-- An attribute that defines no namespace is passed. -/
theorem startNamespaces_skip {name : Str}
    (h : strXmlns <+: name → ∃ ch pfx, name.drop 5 = ch :: pfx ∧ ch ≠ colon)
    (s : XmlnsStack) (value : Str) (atts : List (Str × Str)) :
    startNamespaces s ((name, value) :: atts) = startNamespaces s atts := by
  rw [startNamespaces]
  by_cases hstarts : strXmlns <+: name
  · obtain ⟨ch, pfx, hdrop, hne⟩ := h hstarts
    rw [if_pos hstarts, hdrop]
    exact if_neg hne
  · rw [if_neg hstarts]

/-- A name with a prefix begins with `xmlns` only if the prefix is reserved. -/
theorem startsWithXml_of_starts {pfx rest : Str} (hcolon : colon ∉ pfx)
    (h : strXmlns <+: pfx ++ colon :: rest) : startsWithXml pfx = true := by
  have hx : strXmlns = [120, 109, 108, 110, 115] := by decide
  rw [hx] at h
  match pfx with
  | [] => simp [colon] at h
  | [a] => simp [colon] at h
  | [a, b] => simp [colon] at h
  | a :: b :: c :: tail =>
    simp only [List.cons_append, List.cons_prefix_cons] at h
    obtain ⟨rfl, rfl, rfl, -⟩ := h
    rfl

/-- An attribute that is not a definition is none for the parser. -/
theorem startNamespaces_other {s' : XmlnsStack} {name : QName} (hname : PlainName name)
    (hs : ∀ d ∈ s'.pxmlnsStack, colon ∉ d.1) (h : (s'.prefixForNs name.ns true).isSome)
    (hxmlns : name ≠ qnXmlns) (hns : name.ns ≠ nsXmlns) (s : XmlnsStack) (value : Str)
    (atts : List (Str × Str)) :
    startNamespaces s ((s'.formatQName name true, value) :: atts) = startNamespaces s atts := by
  obtain ⟨pfx, hpfx⟩ := Option.isSome_iff_exists.mp h
  have hstands := stands_prefixForNs hpfx
  have hcolon := noColon_prefixForNs hs hpfx
  rw [formatQName_of_prefixForNs hpfx]
  refine startNamespaces_skip ?_ s value atts
  by_cases hnil : pfx = []
  · rw [if_pos hnil]
    rintro ⟨rest, hrest⟩
    have hdrop : name.localPart.drop 5 = rest := by
      rw [← hrest]
      rfl
    cases rest with
    | nil =>
      -- this is the definition of the default namespace
      have hempty : name.ns = [] := by simpa [Stands, hnil] using hstands
      refine absurd ?_ hxmlns
      rw [qnXmlns, ← hempty, ← List.append_nil strXmlns, hrest]
    | cons ch rest =>
      refine ⟨ch, rest, hdrop, ?_⟩
      rintro rfl
      exact hname.noColon (hrest ▸ by simp)
  · rw [if_neg hnil]
    intro hstarts
    have hreserved := startsWithXml_of_starts hcolon hstarts
    have hfound : s'.nsForPrefix pfx = some name.ns := by simpa [Stands, hnil] using hstands
    rw [nsForPrefix_reserved s' hreserved] at hfound
    split_ifs at hfound with hxml hxmlns
    · subst hxml
      exact absurd hstarts (by
        rintro ⟨rest, hrest⟩
        exact absurd (List.cons.inj (List.cons.inj (List.cons.inj (List.cons.inj hrest).2).2).2).1
          (by decide))
    · exact absurd (Option.some.inj hfound).symm hns

section Tag

variable {s s' : XmlnsStack} {name : QName} {attrs : List XmlAttr} {ds : List (Str × Str)}

/-- The attributes make the definitions they made for the printer. -/
theorem startNamespaces_attrs (hs : ∀ d ∈ s'.pxmlnsStack, colon ∉ d.1)
    (hplain : ∀ a ∈ attrs, PlainName a.name)
    (hvalues : ∀ a ∈ attrs, a.name.ns = nsXmlns → a.value ≠ [])
    (hfound : ∀ a ∈ attrs, (s'.prefixForNs a.name.ns true).isSome) (s : XmlnsStack)
    (atts : List (Str × Str)) :
    startNamespaces s (attrs.map (fun a => (s'.formatQName a.name true, a.value)) ++ atts) =
      startNamespaces (attrs.foldl declareAttr s) atts := by
  induction attrs generalizing s with
  | nil => rfl
  | cons a attrs ih =>
    obtain ⟨ha, hplain⟩ := List.forall_mem_cons.mp hplain
    obtain ⟨hvalue, hvalues⟩ := List.forall_mem_cons.mp hvalues
    obtain ⟨hsome, hfound⟩ := List.forall_mem_cons.mp hfound
    rw [List.map_cons, List.cons_append, List.foldl_cons, declareAttr]
    -- `xmlns` itself, `xmlns:` with a prefix, or an attribute that declares nothing.
    by_cases hxmlns : a.name = qnXmlns
    · have hformat : s'.formatQName a.name true = strXmlns := by
        rw [hxmlns]
        rfl
      rw [if_pos hxmlns, hformat, ← ih hplain hvalues hfound]
      rfl
    rw [if_neg hxmlns]
    by_cases hns : a.name.ns = nsXmlns
    · have hformat : s'.formatQName a.name true = xmlnsName a.name.localPart := by
        rw [formatQName, hns]
        rfl
      rw [if_pos hns, hformat, ← ih hplain hvalues hfound]
      exact if_neg (hvalue hns)
    · rw [if_neg hns, startNamespaces_other ha hs hsome hxmlns hns, ih hplain hvalues hfound]

/-- The definitions that the printer added. -/
theorem startNamespaces_new (h : ∀ d ∈ ds, d.2 ≠ []) (s : XmlnsStack) :
    startNamespaces s (ds.map fun d => (xmlnsName d.1, d.2)) = (true, addAll s ds) := by
  induction ds generalizing s with
  | nil => rfl
  | cons d ds ih =>
    obtain ⟨hd, hds⟩ := List.forall_mem_cons.mp h
    rw [addAll, List.foldl_cons, ← addAll, ← ih hds]
    exact if_neg hd

/-- A definition of the empty namespace is refused. -/
theorem startNamespaces_empty (h : ∃ d ∈ ds, d.2 = []) (s : XmlnsStack) :
    (startNamespaces s (ds.map fun d => (xmlnsName d.1, d.2))).1 = false := by
  induction ds generalizing s with
  | nil => simp at h
  | cons d ds ih =>
    by_cases hd : d.2 = []
    · show (if d.2 = [] then (false, s) else _).1 = false
      rw [if_pos hd]
    · show (if d.2 = [] then (false, s) else startNamespaces _ _).1 = false
      rw [if_neg hd]
      refine ih ?_ _
      obtain ⟨e, he, hempty⟩ := h
      obtain rfl | he := List.mem_cons.mp he
      · exact absurd hempty hd
      · exact ⟨e, he, hempty⟩

/-- The namespace of the names without a prefix, inside of an element. -/
def ownDefault (default : Str) (attrs : List XmlAttr) : Str :=
  attrs.foldl (fun default a => if a.name = qnXmlns then a.value else default) default

/-- The default namespace within an element is its own, if it has one. -/
theorem nsForPrefix_ownStack {default : Str} (hplain : ∀ a ∈ attrs, PlainName a.name)
    (hdefault : s.nsForPrefix [] = some default) :
    (ownStack s attrs).nsForPrefix [] = some (ownDefault default attrs) := by
  have hfold : ∀ (attrs : List XmlAttr) (s : XmlnsStack) (default : Str),
      (∀ a ∈ attrs, PlainName a.name) → s.nsForPrefix [] = some default →
      (attrs.foldl declareAttr s).nsForPrefix [] = some (ownDefault default attrs) := by
    intro attrs
    induction attrs with
    | nil => exact fun s default _ h => h
    | cons a attrs ih =>
      intro s default hplain h
      obtain ⟨ha, hplain⟩ := List.forall_mem_cons.mp hplain
      rw [List.foldl_cons, ownDefault, List.foldl_cons, ← ownDefault]
      refine ih _ _ hplain ?_
      rw [declareAttr]
      split_ifs
      · rw [nsForPrefix_addXmlns, if_pos ⟨rfl, rfl⟩]
      · rw [nsForPrefix_addXmlns, if_neg fun hc => ha.nonempty hc.2]
        exact h
      · exact h
  exact hfold attrs s.pushFrame default hplain hdefault

/-- A definition inside of an element is one from outside, or that of an attribute. -/
theorem mem_ownStack {d : Str × Str} (hd : d ∈ (ownStack s attrs).pxmlnsStack) :
    d ∈ s.pxmlnsStack ∨ d.1 = [] ∨
      ∃ a ∈ attrs, d = (a.name.localPart, a.value) ∧ a.name.ns = nsXmlns := by
  rw [ownStack_eq, (addAll_stack _ _).1] at hd
  obtain hd | hd := List.mem_append.mp hd
  · exact .inl hd
  · obtain ⟨a, ha, hown⟩ := List.mem_filterMap.mp hd
    unfold ownDef at hown
    split_ifs at hown with hxmlns hns
    · rw [← Option.some.inj hown]
      exact .inr (.inl rfl)
    · exact .inr (.inr ⟨a, ha, (Option.some.inj hown).symm, hns⟩)

/-- The element's own prefixes are names. -/
theorem named_ownStack (hs : Named s) (hplain : PlainTag name attrs) :
    Named (ownStack s attrs) := by
  intro d hd
  obtain hd | hd | ⟨a, ha, rfl, -⟩ := mem_ownStack hd
  · exact hs d hd
  · exact .inl hd
  · exact .inr ⟨(hplain.plainAttrs a ha).isName, (hplain.plainAttrs a ha).noColon⟩

/-- The definitions of the attributes keep the stack sane. -/
theorem sane_ownStack (hs : Sane s) (hplain : PlainTag name attrs) : Sane (ownStack s attrs) := by
  refine ⟨named_ownStack hs.named hplain, fun d hd hempty => ?_⟩
  obtain hd | hd | ⟨a, ha, rfl, hns⟩ := mem_ownStack hd
  · exact hs.bound d hd hempty
  · exact hd
  · exact absurd hempty (hplain.values a ha hns)

/-- The element has a namespace, or there is no default namespace. -/
def AtHome (default : Str) (name : QName) (attrs : List XmlAttr) : Prop :=
  name.ns = [] → ownDefault default attrs = []

/-- A free candidate has no colon. -/
theorem noColon_of_isFree {pfx : Str} (h : IsFree s pfx) : colon ∉ pfx := by
  intro hmem
  have := h.chars colon hmem
  simp [colon] at this

/-- A small letter can begin a name. -/
theorem isNameStart_of_letter {ch : UInt8} (h : 97 ≤ ch.toNat ∧ ch.toNat ≤ 122) :
    isNameStart ch = true := by
  simp [isNameStart, UInt8.le_iff_toNat_le, h]

/-- A prefix that the printer makes is a name. -/
theorem isName_of_isFree {pfx : Str} (h : IsFree s pfx) : IsName pfx := by
  cases pfx with
  | nil => exact absurd rfl h.nonempty
  | cons first rest =>
    refine ⟨isNameStart_of_letter (h.letter first rfl), fun ch hch => ?_⟩
    rcases h.chars ch (List.mem_cons_of_mem first hch) with hletter | hdigit
    · exact Lib.XmlText.isNameChar_of_start (isNameStart_of_letter hletter)
    · simp [isNameChar, UInt8.le_iff_toNat_le, hdigit]

/-- All prefixes that were defined on the way are names. -/
theorem named_declared (h : Declared s name attrs s' ds) (hs : Named s)
    (hplain : PlainTag name attrs) : Named s' := by
  intro d hd
  rw [h.stack, (addAll_stack _ _).1] at hd
  obtain hd | hd := List.mem_append.mp hd
  · exact named_ownStack hs hplain d hd
  · obtain ⟨s₁, -, hfree⟩ := h.fresh.isFree d hd
    exact .inr ⟨isName_of_isFree hfree, noColon_of_isFree hfree⟩

/-- The prefix of a name is one of the two reserved ones, none, or one that is defined. -/
theorem isName_prefixForNs {s : XmlnsStack} (hs : Named s) {ns pfx : Str} {isattr : Bool}
    (h : s.prefixForNs ns isattr = some pfx) : pfx = [] ∨ IsName pfx := by
  obtain ⟨-, rfl⟩ | ⟨-, rfl⟩ | ⟨rfl, -⟩ | ⟨pos, hpos, rfl, -⟩ := prefixForNs_cases h
  · exact .inr (by decide)
  · exact .inr (by decide)
  · exact .inl rfl
  · exact (hs pos hpos).imp_right And.left

/-- A plain name is printed as a name. -/
theorem isName_formatQName {s : XmlnsStack} (hs : Named s) {name : QName} (hname : PlainName name)
    {isAttr : Bool} (h : (s.prefixForNs name.ns isAttr).isSome) :
    IsName (s.formatQName name isAttr) := by
  obtain ⟨pfx, hpfx⟩ := Option.isSome_iff_exists.mp h
  rw [formatQName_of_prefixForNs hpfx]
  split_ifs with hnil
  · exact hname.isName
  · refine ((isName_prefixForNs hs hpfx).resolve_left hnil).append ?_
    exact List.forall_mem_cons.mpr ⟨by decide, hname.isName.chars⟩

/-- The attribute that defines a prefix has a name. -/
theorem isName_xmlnsName {pfx : Str} (h : IsName pfx) : IsName (xmlnsName pfx) :=
  Lib.XmlText.IsName.append (by decide) (List.forall_mem_cons.mpr ⟨by decide, h.chars⟩)

/-- The definitions that were added are not for the empty prefix. -/
theorem nsForPrefix_declared (h : Declared s name attrs s' ds) (hplain : PlainTag name attrs)
    {default : Str} (hdefault : s.nsForPrefix [] = some default) :
    s'.nsForPrefix [] = some (ownDefault default attrs) := by
  rw [h.stack]
  exact h.fresh.extends.keeps _ _ (nsForPrefix_ownStack hplain.plainAttrs hdefault)

/-- The namespace of a new definition is empty just for an element that is not at home. -/
theorem empty_iff_not_atHome (h : Declared s name attrs s' ds) (hs : Sane s)
    (hplain : PlainTag name attrs) {default : Str} (hdefault : s.nsForPrefix [] = some default) :
    (∃ d ∈ ds, d.2 = []) ↔ ¬ AtHome default name attrs := by
  have hown := nsForPrefix_ownStack hplain.plainAttrs hdefault
  constructor
  · rintro ⟨d, hd, hempty⟩ hhome
    -- An empty namespace is defined only for the name, and then the default was not empty.
    obtain ⟨heq, hnone⟩ | ⟨a, -, -, hne⟩ := h.origin d hd
    · have hns : name.ns = [] := heq.symm.trans hempty
      have hsome : ((ownStack s attrs).prefixForNs name.ns false).isSome := by
        rw [isSome_prefixForNs]
        refine .inr (.inr (.inl ?_))
        simp [Stands, hown, hhome hns, hns]
      rw [hnone] at hsome
      exact Bool.false_ne_true hsome
    · exact hne hempty
  · intro hhome
    obtain ⟨hns, hne⟩ : name.ns = [] ∧ ownDefault default attrs ≠ [] := by
      simpa [AtHome] using hhome
    have hfound := h.found
    have hs' := nsForPrefix_declared h hplain hdefault
    rw [isSome_prefixForNs, hns] at hfound
    -- The name has to resolve; with the default not empty, only a definition does it.
    obtain hxml | hxmlns | hstands | ⟨pos, hpos, hempty, -, hres⟩ := hfound
    · exact absurd hxml (by decide)
    · exact absurd hxmlns (by decide)
    · simp [Stands, hs', hne] at hstands
    · rw [h.stack, (addAll_stack _ _).1] at hpos
      obtain hpos | hpos := List.mem_append.mp hpos
      · rw [(sane_ownStack hs hplain).bound pos hpos hempty, hs'] at hres
        exact absurd (Option.some.inj hres) hne
      · exact ⟨pos, hpos, hempty⟩

/-- The definitions that an element at home still needs are of namespaces that are not empty. -/
theorem ne_nil_of_atHome (h : Declared s name attrs s' ds) (hs : Sane s)
    (hplain : PlainTag name attrs) {default : Str} (hdefault : s.nsForPrefix [] = some default)
    (hhome : AtHome default name attrs) : ∀ d ∈ ds, d.2 ≠ [] := by
  intro d hd hnil
  exact (empty_iff_not_atHome h hs hplain hdefault).mp ⟨d, hd, hnil⟩ hhome

/-- So only the default prefix is for the empty namespace. -/
theorem sane_declared (h : Declared s name attrs s' ds) (hs : Sane s)
    (hplain : PlainTag name attrs) (hnew : ∀ d ∈ ds, d.2 ≠ []) : Sane s' := by
  refine ⟨named_declared h hs.named hplain, fun d hd hempty => ?_⟩
  rw [h.stack, (addAll_stack _ _).1] at hd
  obtain hd | hd := List.mem_append.mp hd
  · exact (sane_ownStack hs hplain).bound d hd hempty
  · exact absurd hempty (hnew d hd)

/-! ### Elements built -/

/-- The attribute that a definition is read as. -/
def xmlnsAttr (d : Str × Str) : XmlAttr := ⟨⟨nsXmlns, d.1⟩, d.2⟩

/-- The attributes of a tag that is read. -/
theorem buildAttrs_eq {atts : List (Str × Str)} {read : List XmlAttr}
    (hread : atts.map (fun a => (resolveQName s a.1 true, a.2)) =
      read.map fun a => (a.name, a.value))
    (hne : ∀ a ∈ read, a.name ≠ qnEmpty) (hnodup : (read.map XmlAttr.name).Nodup)
    {seen : List QName} (hseen : ∀ a ∈ read, a.name ∉ seen) (el : XmlElement) :
    buildAttrs s atts seen el = some { el with attrs := el.attrs ++ read } := by
  -- By induction on the attributes read, with the names already seen.
  induction atts generalizing read seen el with
  | nil =>
    obtain rfl : read = [] := by simpa using hread.symm
    rw [List.append_nil]
    rfl
  | cons a atts ih =>
    obtain ⟨b, read, rfl⟩ : ∃ b read', read = b :: read' := by
      cases read with
      | nil => simp at hread
      | cons b read => exact ⟨b, read, rfl⟩
    rw [List.map_cons, List.map_cons, List.cons.injEq, Prod.mk.injEq] at hread
    obtain ⟨⟨hname, hvalue⟩, hread⟩ := hread
    obtain ⟨hb, hne⟩ := List.forall_mem_cons.mp hne
    obtain ⟨hbseen, hseen⟩ := List.forall_mem_cons.mp hseen
    rw [List.map_cons, List.nodup_cons] at hnodup
    have hadd : (⟨el.name, (el.addAttr b.name b.value).attrs ++ read, el.firstChild⟩ : XmlElement) =
        { el with attrs := el.attrs ++ b :: read } := by
      simp [XmlElement.addAttr]
    rw [buildAttrs, hname, hvalue, if_neg hb]
    -- Only a name with a namespace is looked up among those seen.
    by_cases hns : b.name.ns = []
    · rw [if_neg (not_not.mpr hns), ih hread hne hnodup.2 hseen]
      exact congrArg some hadd
    · rw [if_pos hns, if_neg hbseen, ih hread hne hnodup.2]
      · exact congrArg some hadd
      · intro a ha hmem
        obtain heq | hmem := List.mem_cons.mp hmem
        · exact hnodup.1 (heq ▸ List.mem_map_of_mem ha)
        · exact hseen a ha hmem

/-- New definitions are of different prefixes. -/
theorem nodup_fresh {s : XmlnsStack} {ds : List (Str × Str)} (h : Fresh s ds) :
    (ds.map Prod.fst).Nodup := by
  induction ds generalizing s with
  | nil => exact List.nodup_nil
  | cons d ds ih =>
    rw [List.map_cons, List.nodup_cons]
    refine ⟨?_, ih h.2⟩
    intro hmem
    obtain ⟨e, he, heq⟩ := List.mem_map.mp hmem
    obtain ⟨s₁, hextends, hfree⟩ := h.2.isFree e he
    have hd : (s.addXmlns d.1 d.2).nsForPrefix d.1 = some d.2 := by
      rw [nsForPrefix_addXmlns, if_pos ⟨h.1.allowed, rfl⟩]
    have hfound := hextends.keeps _ _ hd
    rw [← heq, hfree.free] at hfound
    exact Option.some_ne_none _ hfound.symm

/-- A prefix on the stack resolves. -/
theorem nsForPrefix_ne_none {s : XmlnsStack} {d : Str × Str} (hd : d ∈ s.pxmlnsStack)
    (hallowed : startsWithXml d.1 = false) : s.nsForPrefix d.1 ≠ none := by
  have hlookup := Lib.Scope.lookup_ne_none.mpr (List.mem_map_of_mem (f := Prod.fst) hd)
  rw [nsForPrefix_eq s hallowed]
  cases h : Lib.Scope.lookup s.pxmlnsStack d.1 with
  | none => exact absurd h hlookup
  | some ns => simp

/-- No attribute of the tag that is read occurs twice. -/
theorem nodup_read (h : Declared s name attrs s' ds) (hplain : PlainTag name attrs) :
    ((attrs ++ ds.map xmlnsAttr).map XmlAttr.name).Nodup := by
  rw [List.map_append, List.map_map]
  refine List.Nodup.append hplain.unique ?_ ?_
  · have hcomp : ds.map (XmlAttr.name ∘ xmlnsAttr) = (ds.map Prod.fst).map (QName.mk nsXmlns) := by
      rw [List.map_map]
      rfl
    rw [hcomp]
    exact (nodup_fresh h.fresh).map fun p q hpq => (QName.mk.inj hpq).2
  · intro qname hmem hnew
    obtain ⟨a, ha, rfl⟩ := List.mem_map.mp hmem
    obtain ⟨d, hd, heq⟩ := List.mem_map.mp hnew
    have hname : a.name = ⟨nsXmlns, d.1⟩ := heq.symm
    -- the attribute defines the prefix, so it was not free
    have hown : (d.1, a.value) ∈ (ownStack s attrs).pxmlnsStack := by
      rw [ownStack_eq, (addAll_stack _ _).1]
      refine List.mem_append_right _ (List.mem_filterMap.mpr ⟨a, ha, ?_⟩)
      rw [ownDef, if_neg (by rw [hname, qnXmlns]; simp [ne_nsXmlns_nil]), if_pos (by rw [hname])]
      rw [hname]
    obtain ⟨s₁, hextends, hfree⟩ := h.fresh.isFree d hd
    obtain ⟨ns, hns⟩ := Option.ne_none_iff_exists'.mp (nsForPrefix_ne_none hown hfree.allowed)
    have hfound := hextends.keeps _ _ hns
    rw [hfree.free] at hfound
    exact Option.some_ne_none _ hfound.symm

/-- The printed attributes resolve to those of the element and to the definitions. -/
theorem resolve_tagAtts (h : Declared s name attrs s' ds) (hs : Named s)
    (hplain : PlainTag name attrs) :
    (tagAtts s' attrs ds).map (fun a => (resolveQName s' a.1 true, a.2)) =
      (attrs ++ ds.map xmlnsAttr).map fun a => (a.name, a.value) := by
  have hattrs : ∀ a ∈ attrs, (resolveQName s' (s'.formatQName a.name true) true, a.value) =
      (a.name, a.value) := by
    intro a ha
    rw [resolveQName_formatQName (named_declared h hs hplain).noColon (hplain.plainAttrs a ha)
      (h.attrsFound a ha)]
  have hnew : ∀ d ∈ ds, (resolveQName s' (xmlnsName d.1) true, d.2) =
      ((xmlnsAttr d).name, (xmlnsAttr d).value) := by
    intro d _
    rw [resolveQName_xmlnsName]
    rfl
  rw [tagAtts, List.map_append, List.map_append, List.map_map, List.map_map, List.map_map]
  exact congrArg₂ _ (List.map_congr_left hattrs) (List.map_congr_left hnew)

/-- The names of the attributes in the text are different, as an XML document wants it. -/
theorem nodup_tagAtts (h : Declared s name attrs s' ds) (hs : Named s)
    (hplain : PlainTag name attrs) : ((tagAtts s' attrs ds).map Prod.fst).Nodup := by
  have hresolve := congrArg (List.map Prod.fst) (resolve_tagAtts h hs hplain)
  rw [List.map_map, List.map_map] at hresolve
  have hnodup := nodup_read h hplain
  refine List.Nodup.of_map (fun a => resolveQName s' a true) ?_
  rw [List.map_map]
  exact hresolve ▸ hnodup

/-- The tag of an element at home: the parser has the definitions of the printer. -/
theorem startNamespaces_tag (h : Declared s name attrs s' ds) (hs : Sane s)
    (hplain : PlainTag name attrs) (hnew : ∀ d ∈ ds, d.2 ≠ []) :
    startNamespaces s.pushFrame (tagAtts s' attrs ds) = (true, s') := by
  rw [tagAtts, startNamespaces_attrs (named_declared h hs.named hplain).noColon hplain.plainAttrs
    hplain.values h.attrsFound, startNamespaces_new hnew, h.stack]
  rfl

/-- The tag of an element that is not at home is refused. -/
theorem startNamespaces_homeless (h : Declared s name attrs s' ds) (hs : Sane s)
    (hplain : PlainTag name attrs) (hnew : ∃ d ∈ ds, d.2 = []) :
    (startNamespaces s.pushFrame (tagAtts s' attrs ds)).1 = false := by
  rw [tagAtts, startNamespaces_attrs (named_declared h hs.named hplain).noColon hplain.plainAttrs
    hplain.values h.attrsFound, startNamespaces_empty hnew]

/-- The builder makes the element that was printed, with the new definitions as attributes. -/
theorem buildElement_tag (h : Declared s name attrs s' ds) (hs : Sane s)
    (hplain : PlainTag name attrs) :
    buildElement s' (s'.formatQName name false) (tagAtts s' attrs ds) =
      some ⟨name, attrs ++ ds.map xmlnsAttr, .nil⟩ := by
  have hname : name ≠ qnEmpty := by
    intro hempty
    exact hplain.plain.nonempty (hempty ▸ rfl)
  rw [buildElement, resolveQName_formatQName (named_declared h hs.named hplain).noColon
    hplain.plain h.found, if_neg hname, buildAttrs_eq (resolve_tagAtts h hs.named hplain) ?_
    (nodup_read h hplain) (by simp)]
  · exact congrArg some (by simp [XmlElement.new])
  · intro a ha hempty
    obtain ha | ha := List.mem_append.mp ha
    · exact (hplain.plainAttrs a ha).nonempty (hempty ▸ rfl)
    · obtain ⟨d, -, rfl⟩ := List.mem_map.mp ha
      exact ne_nsXmlns_nil (congrArg QName.ns hempty)

end Tag

end Mylib.Proofs.Xmpp.Reading
