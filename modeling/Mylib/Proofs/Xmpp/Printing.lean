import Mylib.Lib.XmlText
import Mylib.Proofs.Xmpp.Namespaces
import Mylib.Spec.Xmpp.XmlParser

/-!
# `Mylib.Proofs.Xmpp.Printing`: the markup an element is printed as

`Markup` is a document before names are resolved: names and attributes as the strings that stand
in the text, and `serialize` writes it. `markup` is what an element looks like under the
definitions in force, and `printChildren_eq` says that this is what the printer writes, and that
it leaves its stack as it found it.
-/

set_option autoImplicit false

namespace Mylib.Proofs.Xmpp.Printing

open Mylib.Lib.XmlText (IsName IsContent IsValue)
open Mylib.Spec.Base (Str)
open Mylib.Spec.Base.StringUtil (text)
open Mylib.Spec.Xmpp
open Mylib.Spec.Xmpp.XmlnsStack
open Mylib.Proofs.Xmpp.Namespaces

/-! ### Text -/

/-- The characters that do not stand for themselves. -/
def specials : Str := [60, 62, 38, 34]

/-- The text with an entity for each of these characters. -/
def escape (chars : Str) (t : Str) : Str :=
  t.flatMap fun ch => if ch ∈ chars then entity ch else [ch]

/-- Two texts are escaped one behind the other. -/
theorem escape_append (chars t u : Str) :
    escape chars (t ++ u) = escape chars t ++ escape chars u :=
  List.flatMap_append

/-- What has no special character is not changed. -/
theorem escape_safe {chars t : Str} (h : ∀ ch ∈ t, ch ∉ chars) : escape chars t = t := by
  induction t with
  | nil => rfl
  | cons ch t ih =>
    obtain ⟨hch, ht⟩ := List.forall_mem_cons.mp h
    show (if ch ∈ chars then entity ch else [ch]) ++ escape chars t = _
    rw [if_neg hch, ih ht, List.singleton_append]

/-- The loop writes the safe runs and the entities in turn. -/
theorem printUnsafe_eq (chars t : Str) : printUnsafe chars t = escape chars t := by
  have hrun : ∀ t : Str, escape chars (t.takeWhile (· ∉ chars)) = t.takeWhile (· ∉ chars) :=
    fun t => escape_safe fun ch hch => by simpa using List.mem_takeWhile_imp hch
  have hsplit : ∀ t : Str, escape chars t =
      t.takeWhile (· ∉ chars) ++ escape chars (t.dropWhile (· ∉ chars)) := by
    intro t
    rw [← hrun, ← escape_append, List.takeWhile_append_dropWhile]
  -- `printUnsafe` goes from one special to the next, so `escape` is cut at the first one.
  fun_induction printUnsafe chars t with
  | case1 t safe hrest =>
    rw [hsplit, hrest]
    exact (List.append_nil _).symm
  | case2 t safe ch rest hrest ih =>
    have hch : ch ∈ chars := by
      have hhead := List.head?_dropWhile_not (· ∉ chars) t
      rw [hrest] at hhead
      simpa using hhead
    have hcons : escape chars (ch :: rest) = entity ch ++ escape chars rest := by
      show (if ch ∈ chars then entity ch else [ch]) ++ escape chars rest = _
      rw [if_pos hch]
    rw [hsplit t, hrest, hcons, List.append_assoc]
    split
    next hnil => rw [hnil]; rfl
    next => rw [ih]

/-! ### Documents -/

/-- A document, as `XmlChild` has it, but with the names of the text. -/
inductive Markup where
  | nil
  | text (t : Str) (next : Markup)
  | element (name : Str) (atts : List (Str × Str)) (first next : Markup)
  deriving DecidableEq

/-- The text of a document. -/
def serialize : Markup → Str
  | .nil => []
  | .text t next => escape [60, 62, 38] t ++ serialize next
  | .element name atts first next =>
    let tag := text ['<'] ++ name ++ atts.flatMap fun a =>
      text [' '] ++ a.1 ++ text ['=', '"'] ++ escape specials a.2 ++ text ['"']
    (match first with
      | .nil => tag ++ text ['/', '>']
      | first => tag ++ text ['>'] ++ serialize first ++ text ['<', '/'] ++ name ++ text ['>'])
      ++ serialize next

/-! ### The definitions of an element -/

/-- The stack with more definitions. -/
def addAll (s : XmlnsStack) (ds : List (Str × Str)) : XmlnsStack :=
  ds.foldl (fun s d => s.addXmlns d.1 d.2) s

/-- Definitions each of a prefix that was free before it. -/
def Fresh (s : XmlnsStack) : List (Str × Str) → Prop
  | [] => True
  | d :: ds => IsFree s d.1 ∧ Fresh (s.addXmlns d.1 d.2) ds

/-- Definitions in two rows. -/
theorem addAll_append (s : XmlnsStack) (ds es : List (Str × Str)) :
    addAll s (ds ++ es) = addAll (addAll s ds) es := List.foldl_append

/-- Free prefixes may all be defined. -/
theorem Fresh.extends {s : XmlnsStack} {ds : List (Str × Str)} (h : Fresh s ds) :
    Extends s (addAll s ds) := by
  induction ds generalizing s with
  | nil => exact Extends.refl s
  | cons d ds ih => exact (h.1.extends d.2).trans (ih h.2)

/-- The stack behind the definitions that the attributes make. -/
def ownStack (s : XmlnsStack) (attrs : List XmlAttr) : XmlnsStack :=
  attrs.foldl declareAttr s.pushFrame

/-- What the first half of `PrintElement` ends with. -/
structure Declared (s : XmlnsStack) (name : QName) (attrs : List XmlAttr) (s' : XmlnsStack)
    (ds : List (Str × Str)) : Prop where
  stack : s' = addAll (ownStack s attrs) ds
  fresh : Fresh (ownStack s attrs) ds
  found : (s'.prefixForNs name.ns false).isSome
  attrsFound : ∀ a ∈ attrs, (s'.prefixForNs a.name.ns true).isSome
  origin : ∀ d ∈ ds, (d.2 = name.ns ∧ (ownStack s attrs).prefixForNs name.ns false = none) ∨
    ∃ a ∈ attrs, d.2 = a.name.ns ∧ d.2 ≠ []

/-- One name gets a prefix, if it has none. -/
theorem addName_cases (ns : Str) (isAttr : Bool) (s : XmlnsStack) (ds : List (Str × Str)) :
    (addName ns isAttr s ds = some (s, ds) ∧ (s.prefixForNs ns isAttr).isSome) ∨
      ∃ pfx, addName ns isAttr s ds = some (s.addXmlns pfx ns, ds ++ [(pfx, ns)]) ∧
        IsFree s pfx ∧ s.prefixForNs ns isAttr = none := by
  unfold addName
  obtain ⟨hrun, hsome⟩ | ⟨pfx, hrun, hfree, hnone⟩ := addNewPrefix_cases s ns isAttr
  · exact .inl ⟨by rw [hrun]; rfl, hsome⟩
  · exact .inr ⟨pfx, by rw [hrun]; rfl, hfree, hnone⟩

/-- All attributes get their prefixes. -/
theorem exists_addNames (attrs : List XmlAttr) (s : XmlnsStack) (ds : List (Str × Str)) :
    ∃ es, attrs.foldlM (fun found a => addName a.name.ns true found.1 found.2) (s, ds) =
        some (addAll s es, ds ++ es) ∧ Fresh s es ∧
      (∀ a ∈ attrs, ((addAll s es).prefixForNs a.name.ns true).isSome) ∧
      ∀ d ∈ es, ∃ a ∈ attrs, d.2 = a.name.ns ∧ d.2 ≠ [] := by
  induction attrs generalizing s ds with
  | nil => exact ⟨[], by simp [addAll], trivial, by simp, by simp⟩
  | cons a attrs ih =>
    rw [List.foldlM_cons]
    obtain ⟨hrun, hsome⟩ | ⟨pfx, hrun, hfree, hnone⟩ := addName_cases a.name.ns true s ds
    · obtain ⟨es, hes, hfresh, hattrs, horigin⟩ := ih s ds
      refine ⟨es, by rw [hrun]; exact hes, hfresh, ?_, ?_⟩
      · intro b hb
        obtain rfl | hb := List.mem_cons.mp hb
        · exact hfresh.extends.isSome_prefixForNs hsome
        · exact hattrs b hb
      · intro d hd
        obtain ⟨b, hb, hdb⟩ := horigin d hd
        exact ⟨b, List.mem_cons_of_mem a hb, hdb⟩
    · obtain ⟨es, hes, hfresh, hattrs, horigin⟩ :=
        ih (s.addXmlns pfx a.name.ns) (ds ++ [(pfx, a.name.ns)])
      -- an attribute without a namespace needs no prefix
      have hne : a.name.ns ≠ [] := by
        intro hnil
        have hsome : (s.prefixForNs a.name.ns true).isSome := by
          rw [isSome_prefixForNs]
          exact .inr (.inr (.inl (by simpa [Stands] using hnil)))
        rw [hnone] at hsome
        exact Bool.false_ne_true hsome
      refine ⟨(pfx, a.name.ns) :: es, ?_, ⟨hfree, hfresh⟩, ?_, ?_⟩
      · rw [hrun]
        simpa [addAll] using hes
      · intro b hb
        obtain rfl | hb := List.mem_cons.mp hb
        · exact hfresh.extends.isSome_prefixForNs (hfree.isSome_prefixForNs _ true)
        · exact hattrs b hb
      · intro d hd
        obtain rfl | hd := List.mem_cons.mp hd
        · exact ⟨a, List.mem_cons_self, rfl, hne⟩
        · obtain ⟨b, hb, hdb⟩ := horigin d hd
          exact ⟨b, List.mem_cons_of_mem a hb, hdb⟩

/-- The first half of `PrintElement` returns, with definitions for all names. -/
theorem exists_declare (s : XmlnsStack) (name : QName) (attrs : List XmlAttr) :
    ∃ s' ds, declare name attrs s = some (s', ds) ∧ Declared s name attrs s' ds := by
  unfold declare
  -- The name resolves on the own stack, or a prefix is defined for it.
  obtain ⟨hrun, hsome⟩ | ⟨pfx, hrun, hfree, hnone⟩ :=
    addName_cases name.ns false (ownStack s attrs) []
  · obtain ⟨es, hes, hfresh, hattrs, horigin⟩ := exists_addNames attrs (ownStack s attrs) []
    refine ⟨_, es, ?_, rfl, hfresh, hfresh.extends.isSome_prefixForNs hsome, hattrs, ?_⟩
    · show (addName name.ns false (ownStack s attrs) []).bind _ = _
      rw [hrun]
      exact hes
    · intro d hd
      exact .inr (horigin d hd)
  · obtain ⟨es, hes, hfresh, hattrs, horigin⟩ :=
      exists_addNames attrs ((ownStack s attrs).addXmlns pfx name.ns) [(pfx, name.ns)]
    refine ⟨_, (pfx, name.ns) :: es, ?_, rfl, ⟨hfree, hfresh⟩,
      hfresh.extends.isSome_prefixForNs (hfree.isSome_prefixForNs _ false), hattrs, ?_⟩
    · show (addName name.ns false (ownStack s attrs) []).bind _ = _
      rw [hrun]
      exact hes
    · intro d hd
      obtain rfl | hd := List.mem_cons.mp hd
      · exact .inl ⟨rfl, hnone⟩
      · exact .inr (horigin d hd)

/-- The stack inside an element, and the definitions it needs besides its own. -/
def declared (s : XmlnsStack) (name : QName) (attrs : List XmlAttr) :
    XmlnsStack × List (Str × Str) :=
  (declare name attrs s).getD (s, [])

/-- What the first half of `PrintElement` returns, by name. -/
theorem declare_eq (s : XmlnsStack) (name : QName) (attrs : List XmlAttr) :
    declare name attrs s = some (declared s name attrs) := by
  obtain ⟨s', ds, hrun, -⟩ := exists_declare s name attrs
  rw [declared, hrun]
  rfl

/-- What is known of the definitions that were made. -/
theorem declared_spec (s : XmlnsStack) (name : QName) (attrs : List XmlAttr) :
    Declared s name attrs (declared s name attrs).1 (declared s name attrs).2 := by
  obtain ⟨s', ds, hrun, hdeclared⟩ := exists_declare s name attrs
  rw [declared, hrun]
  exact hdeclared

/-! ### Frames -/

/-- Definitions are pushed, and the frames are as before. -/
theorem addAll_stack (s : XmlnsStack) (ds : List (Str × Str)) :
    (addAll s ds).pxmlnsStack = s.pxmlnsStack ++ ds ∧
      (addAll s ds).pxmlnsDepthStack = s.pxmlnsDepthStack := by
  induction ds generalizing s with
  | nil => simp [addAll]
  | cons d ds ih =>
    obtain ⟨hstack, hdepth⟩ := ih (s.addXmlns d.1 d.2)
    refine ⟨?_, hdepth⟩
    show (addAll (s.addXmlns d.1 d.2) ds).pxmlnsStack = _
    rw [hstack]
    simp [addXmlns]

/-- The definition that an attribute makes. -/
def ownDef (a : XmlAttr) : Option (Str × Str) :=
  if a.name = qnXmlns then some ([], a.value)
  else if a.name.ns = nsXmlns then some (a.name.localPart, a.value)
  else none

def ownDefs (attrs : List XmlAttr) : List (Str × Str) := attrs.filterMap ownDef

/-- An element's own definitions are added in the order of its attributes. -/
theorem foldl_declareAttr (s : XmlnsStack) (attrs : List XmlAttr) :
    attrs.foldl declareAttr s = addAll s (ownDefs attrs) := by
  induction attrs generalizing s with
  | nil => rfl
  | cons a attrs ih =>
    rw [List.foldl_cons, ih, ownDefs, ownDefs, List.filterMap_cons, declareAttr, ownDef]
    split_ifs
    · rfl
    · rfl
    · rfl

/-- They are added in a frame of their own. -/
theorem ownStack_eq (s : XmlnsStack) (attrs : List XmlAttr) :
    ownStack s attrs = addAll s.pushFrame (ownDefs attrs) := foldl_declareAttr _ _

/-- The definitions inside an element. -/
theorem Declared.pxmlnsStack {s s' : XmlnsStack} {name : QName} {attrs : List XmlAttr}
    {ds : List (Str × Str)} (h : Declared s name attrs s' ds) :
    s'.pxmlnsStack = s.pxmlnsStack ++ (ownDefs attrs ++ ds) := by
  rw [h.stack, ownStack_eq, ← addAll_append, (addAll_stack _ _).1]
  rfl

/-- The frame of the element goes, whatever was defined in it. -/
theorem Declared.popFrame {s s' : XmlnsStack} {name : QName} {attrs : List XmlAttr}
    {ds : List (Str × Str)} (h : Declared s name attrs s' ds) : s'.popFrame = some s := by
  have hdepth : s'.pxmlnsDepthStack = s.pxmlnsDepthStack ++ [s.pxmlnsStack.length] := by
    rw [h.stack, ownStack_eq, ← addAll_append, (addAll_stack _ _).2]
    rfl
  rw [XmlnsStack.popFrame, hdepth, List.getLast?_concat, h.pxmlnsStack]
  simp only [List.dropLast_concat, List.take_left]
  split
  next => rfl
  next hlen =>
    rw [List.length_append] at hlen
    have hnil : ownDefs attrs ++ ds = [] := List.length_eq_zero_iff.mp (by omega)
    rw [hnil, List.append_nil]

/-! ### The markup of an element -/

/-- The attribute that defines a prefix. -/
def xmlnsName (pfx : Str) : Str := strXmlns ++ colon :: pfx

/-- The attributes of a tag as strings, with the new definitions behind them. -/
def tagAtts (s' : XmlnsStack) (attrs : List XmlAttr) (ds : List (Str × Str)) : List (Str × Str) :=
  attrs.map (fun a => (s'.formatQName a.name true, a.value)) ++
    ds.map fun d => (xmlnsName d.1, d.2)

/-- What is printed for the siblings. -/
def markup (s : XmlnsStack) : XmlChild → Markup
  | .nil => .nil
  | .text t next => .text t (markup s next)
  | .element name attrs firstChild next =>
    let s' := (declared s name attrs).1
    .element (s'.formatQName name false) (tagAtts s' attrs (declared s name attrs).2)
      (markup s' firstChild) (markup s next)

/-- A local name of ASCII characters without a colon, and a namespace that can stand in an
attribute value and needs no entity there. -/
structure PlainName (name : QName) : Prop where
  isName : IsName name.localPart
  noColon : colon ∉ name.localPart
  isValue : IsValue name.ns
  safe : ∀ ch ∈ name.ns, ch ∉ specials

/-- A plain name has a local part. -/
theorem PlainName.nonempty {name : QName} (h : PlainName name) : name.localPart ≠ [] :=
  h.isName.ne_nil

/-- The names and values of a tag. No attribute occurs twice, and none gives a prefix the empty
namespace. -/
structure PlainTag (name : QName) (attrs : List XmlAttr) : Prop where
  plain : PlainName name
  plainAttrs : ∀ a ∈ attrs, PlainName a.name
  areValues : ∀ a ∈ attrs, IsValue a.value
  values : ∀ a ∈ attrs, a.name.ns = nsXmlns → a.value ≠ []
  unique : (attrs.map XmlAttr.name).Nodup

/-- Plain tags throughout, and texts that can stand in an XML document. -/
def Plain : XmlChild → Prop
  | .nil => True
  | .text t next => IsContent t ∧ Plain next
  | .element name attrs firstChild next => PlainTag name attrs ∧ Plain firstChild ∧ Plain next

instance decidablePlainName (name : QName) : Decidable (PlainName name) :=
  decidable_of_iff (IsName name.localPart ∧ colon ∉ name.localPart ∧ IsValue name.ns ∧
      ∀ ch ∈ name.ns, ch ∉ specials)
    ⟨fun h => ⟨h.1, h.2.1, h.2.2.1, h.2.2.2⟩, fun h => ⟨h.isName, h.noColon, h.isValue, h.safe⟩⟩

instance decidablePlainTag (name : QName) (attrs : List XmlAttr) :
    Decidable (PlainTag name attrs) :=
  decidable_of_iff (PlainName name ∧ (∀ a ∈ attrs, PlainName a.name) ∧
      (∀ a ∈ attrs, IsValue a.value) ∧ (∀ a ∈ attrs, a.name.ns = nsXmlns → a.value ≠ []) ∧
      (attrs.map XmlAttr.name).Nodup)
    ⟨fun h => ⟨h.1, h.2.1, h.2.2.1, h.2.2.2.1, h.2.2.2.2⟩,
      fun h => ⟨h.plain, h.plainAttrs, h.areValues, h.values, h.unique⟩⟩

instance decidablePlain : (c : XmlChild) → Decidable (Plain c)
  | .nil => .isTrue trivial
  | .text t next =>
    have := decidablePlain next
    inferInstanceAs (Decidable (IsContent t ∧ Plain next))
  | .element name attrs firstChild next =>
    have := decidablePlain firstChild
    have := decidablePlain next
    inferInstanceAs (Decidable (PlainTag name attrs ∧ Plain firstChild ∧ Plain next))

/-- The namespaces of new definitions are those of names. -/
theorem Declared.safe {s s' : XmlnsStack} {name : QName} {attrs : List XmlAttr}
    {ds : List (Str × Str)} (h : Declared s name attrs s' ds) (hplain : PlainTag name attrs) :
    ∀ d ∈ ds, ∀ ch ∈ d.2, ch ∉ specials := by
  intro d hd
  obtain ⟨heq, -⟩ | ⟨a, ha, heq, -⟩ := h.origin d hd
  · rw [heq]
    exact hplain.plain.safe
  · rw [heq]
    exact (hplain.plainAttrs a ha).safe

/-- Each of the prefixes was free when its turn came. -/
theorem Fresh.isFree {s : XmlnsStack} {ds : List (Str × Str)} (h : Fresh s ds) :
    ∀ d ∈ ds, ∃ s', Extends s s' ∧ IsFree s' d.1 := by
  induction ds generalizing s with
  | nil => exact fun d hd => absurd hd List.not_mem_nil
  | cons e ds ih =>
    intro d hd
    obtain rfl | hd := List.mem_cons.mp hd
    · exact ⟨s, Extends.refl s, h.1⟩
    · obtain ⟨s', hs', hfree⟩ := ih h.2 d hd
      exact ⟨s', (h.1.extends e.2).trans hs', hfree⟩

/-- The tag, as the document has it. -/
theorem printTag_eq {s s' : XmlnsStack} {name : QName} {attrs : List XmlAttr}
    {ds : List (Str × Str)} (h : Declared s name attrs s' ds) (hplain : PlainTag name attrs) :
    printTag name attrs ds s' = text ['<'] ++ s'.formatQName name false ++
      (attrs.map (fun a => (s'.formatQName a.name true, a.value))
        ++ ds.map fun d => (xmlnsName d.1, d.2)).flatMap fun a =>
      text [' '] ++ a.1 ++ text ['=', '"'] ++ escape specials a.2 ++ text ['"'] := by
  rw [printTag, List.flatMap_append, List.flatMap_map, List.flatMap_map, ← List.append_assoc]
  congr 1
  · congr 1
    refine List.flatMap_congr fun a _ => ?_
    rw [printQuotedValue, printUnsafe_eq]
    rfl
  · refine List.flatMap_congr fun d hd => ?_
    obtain ⟨s₁, -, hfree⟩ := h.fresh.isFree d hd
    rw [if_neg hfree.nonempty, escape_safe (h.safe hplain d hd)]
    simp [xmlnsName, strXmlns, colon, text]

/-- The printer writes the markup, and its stack is the same behind it. -/
theorem printChildren_eq {c : XmlChild} (hplain : Plain c) (s : XmlnsStack) :
    printChildren s c = some (serialize (markup s c), s) := by
  induction c generalizing s with
  | nil => rfl
  | text t next ih =>
    rw [printChildren, ih hplain.2]
    show some (printBodyText t ++ serialize (markup s next), s) = _
    rw [printBodyText, printUnsafe_eq]
    rfl
  | element name attrs firstChild next ihFirst ihNext =>
    obtain ⟨htag, hfirst, hnext⟩ := hplain
    have hdeclared := declared_spec s name attrs
    have htagText := printTag_eq hdeclared htag
    rw [printChildren, declare_eq]
    -- an element with children has an end tag, one without has none
    cases firstChild with
    | nil =>
      simp only [Option.bind_eq_bind, Option.bind_some, htagText, hdeclared.popFrame,
        ihNext hnext s]
      rfl
    | text t rest =>
      simp only [Option.bind_eq_bind, Option.bind_some, htagText, ihFirst hfirst,
        Option.map_some, hdeclared.popFrame, ihNext hnext s]
      rfl
    | element name' attrs' first' rest =>
      simp only [Option.bind_eq_bind, Option.bind_some, htagText, ihFirst hfirst,
        Option.map_some, hdeclared.popFrame, ihNext hnext s]
      rfl

end Mylib.Proofs.Xmpp.Printing
