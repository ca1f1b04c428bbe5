import Mylib.Proofs.Xmpp.Escaping

/-!
# `Mylib.Proofs.Xmpp.RoundTrip`: what is printed is parsed again

`ForStr` of `Str` gives the element back, with the definitions that the printer added as
attributes (`readBack`), or nothing when an element has no namespace and stands under a default
namespace (`Homed`). Expat is a parameter that reads XML documents (`Conforms`), and what is
printed is one (`Mylib.Proofs.Xmpp.Escaping`), so its callbacks are those of the markup (`events`),
up to how the text is cut.

The run of the callbacks is one induction over the tree. It is done for every handler that
carries a builder (`Carries`), so that it serves the stanza parser as well.
-/

set_option autoImplicit false

namespace Mylib.Proofs.Xmpp.RoundTrip

open Mylib.Spec.Base (Str)
open Mylib.Spec.Base.StringUtil (text)
open Mylib.Spec.Xmpp
open Mylib.Spec.Xmpp.XmlnsStack
open Mylib.Spec.Xmpp.XmlParser
open Mylib.Proofs.Xmpp.Namespaces
open Mylib.Proofs.Xmpp.Printing
open Mylib.Proofs.Xmpp.Reading
open Mylib.Proofs.Xmpp.Expat
open Mylib.Proofs.Xmpp.Escaping

/-! ### What expat reports -/

/-- The callbacks of a document. -/
def events : Markup → List Callback
  | .nil => []
  | .text t next => .characterData t :: events next
  | .element name atts first next =>
    .startElement name atts :: (events first ++ .endElement name :: events next)

/-- The bytes of a text that are reported alone join to the text. -/
theorem foldr_spelled (m : Markup) (cs : List Callback) :
    ((spelled m).map ofEvent).foldr joinFront cs = (events m).foldr joinFront cs := by
  induction m generalizing cs with
  | nil => rfl
  | text t next ih =>
    have hchars : (t.map fun b => Lib.XmlText.Event.chars [b]).map ofEvent
        = t.map fun b => Callback.characterData [b] := by
      rw [List.map_map]
      rfl
    rw [spelled, List.map_append, hchars, List.foldr_append, ih, foldr_joinFront_chars]
    rfl
  | element name atts first next ihFirst ihNext =>
    rw [spelled, events, List.map_cons, List.map_append, List.map_cons, List.foldr_cons,
      List.foldr_append, List.foldr_cons, ihNext, ihFirst, List.foldr_cons, List.foldr_append,
      List.foldr_cons]
    rfl

/-- Escaping cuts text to pieces; joined again they are the events of the markup. -/
theorem joinText_spelled (m : Markup) : joinText ((spelled m).map ofEvent) = joinText (events m) :=
  foldr_spelled m []

variable {σ : Type} {H : XmlParseHandler σ}

/-- Callbacks in two rows. -/
theorem callbacks_append (cs ds : List Callback) (p : XmlParser σ) :
    callbacks H (cs ++ ds) p = (callbacks H cs p).bind (callbacks H ds) := by
  induction cs generalizing p with
  | nil => rfl
  | cons c cs ih =>
    rw [List.cons_append, callbacks, callbacks, Option.bind_assoc]
    congr 1
    funext q
    exact ih q

/-- After an error nothing happens any more. -/
theorem callbacks_raised (cs : List Callback) {p : XmlParser σ} (h : p.context.raised ≠ none) :
    callbacks H cs p = some p := by
  induction cs with
  | nil => rfl
  | cons c cs ih =>
    have hsame : callback H c p = some p := by
      cases c with
      | startElement name atts => exact congrArg some (if_pos h)
      | endElement name => exact if_pos h
      | characterData t => exact congrArg some (if_pos h)
      | xmlDecl ver enc standalone => exact congrArg some (if_pos h)
    rw [callbacks, hsame]
    exact ih

/-! ### The text of an element -/

/-- Adding no text. -/
theorem addText_nil (c : XmlChild) : c.addText [] = c := by
  fun_induction XmlChild.addText [] c with
  | case1 => rfl
  | case2 h => exact absurd rfl h
  | case3 t => rw [List.append_nil]
  | case4 t next _ ih => rw [ih]
  | case5 name attrs firstChild next ih => rw [ih]

/-- Text is added behind the last child. -/
theorem addText_text (t v : Str) {c : XmlChild} (h : c ≠ .nil) :
    (XmlChild.text v c).addText t = .text v (c.addText t) := by
  cases c with
  | nil => exact absurd rfl h
  | text w next => rfl
  | element name attrs firstChild next => rfl

/-- A child stays one. -/
theorem addText_ne_nil (t : Str) {c : XmlChild} (h : c ≠ .nil) : c.addText t ≠ .nil := by
  fun_cases XmlChild.addText t c with
  | case1 => exact absurd rfl h
  | case2 => exact absurd rfl h
  | case3 => exact XmlChild.noConfusion
  | case4 => exact XmlChild.noConfusion
  | case5 => exact XmlChild.noConfusion

/-- Text that is added twice is added as one. -/
theorem addText_append (c : XmlChild) (t u : Str) :
    (c.addText t).addText u = c.addText (t ++ u) := by
  fun_induction XmlChild.addText t c with
  | case1 h => rw [h, List.nil_append]
  | case2 h =>
    show XmlChild.text (t ++ u) .nil = if t ++ u = [] then .nil else .text (t ++ u) .nil
    rw [if_neg fun hnil => h (List.append_eq_nil_iff.mp hnil).1]
  | case3 v =>
    show XmlChild.text (v ++ t ++ u) .nil = .text (v ++ (t ++ u)) .nil
    rw [List.append_assoc]
  | case4 v next hne ih =>
    rw [addText_text _ _ (addText_ne_nil t hne), addText_text _ _ hne, ih]
  | case5 name attrs firstChild next ih =>
    show XmlChild.element name attrs firstChild ((next.addText t).addText u) = _
    rw [ih]
    rfl

/-- The builder does not mind how text is cut. -/
theorem joinsText_builder : JoinsText XmlBuilder.handler where
  nil := by
    intro b
    obtain ⟨parents, root⟩ := b
    cases parents with
    | nil => rfl
    | cons el parents =>
      show XmlBuilder.mk ({ el with firstChild := el.firstChild.addText [] } :: parents) root = _
      rw [addText_nil]
  append := by
    intro t u b
    obtain ⟨parents, root⟩ := b
    cases parents with
    | nil => rfl
    | cons el parents =>
      show XmlBuilder.mk ({ el with firstChild := (el.firstChild.addText t).addText u } :: parents)
        root = _
      rw [addText_append]
      rfl

/-! ### What is read back -/

/-- The children that the builder makes of printed ones, behind those it has. -/
def readBack (s : XmlnsStack) (into : XmlChild) : XmlChild → XmlChild
  | .nil => into
  | .text t next => readBack s (into.addText t) next
  | .element name attrs firstChild next =>
    readBack s (into.append (.element name (attrs ++ (declared s name attrs).2.map xmlnsAttr)
      (readBack (declared s name attrs).1 .nil firstChild) .nil)) next

/-- The element that is read for a printed one: the new definitions of its tag are attributes. -/
def readElement (s : XmlnsStack) (el : XmlElement) : XmlElement :=
  ⟨el.name, el.attrs ++ (declared s el.name el.attrs).2.map xmlnsAttr,
    readBack (declared s el.name el.attrs).1 .nil el.firstChild⟩

/-- An element is read back by reading back its children and what follows it. -/
theorem readBack_element (s : XmlnsStack) (el : XmlElement) (name : QName) (attrs : List XmlAttr)
    (firstChild next : XmlChild) :
    readBack s el.firstChild (.element name attrs firstChild next) =
      readBack s (el.addElement (readElement s ⟨name, attrs, firstChild⟩)).firstChild next := by
  rw [readBack]
  rfl

/-- Every element has a namespace, or stands where there is no default namespace. -/
def Homed (default : Str) : XmlChild → Prop
  | .nil => True
  | .text _ next => Homed default next
  | .element name attrs firstChild next => AtHome default name attrs ∧
    Homed (ownDefault default attrs) firstChild ∧ Homed default next

instance decidableAtHome (default : Str) (name : QName) (attrs : List XmlAttr) :
    Decidable (AtHome default name attrs) :=
  inferInstanceAs (Decidable (name.ns = [] → ownDefault default attrs = []))

instance decidableHomed (default : Str) : (c : XmlChild) → Decidable (Homed default c)
  | .nil => .isTrue trivial
  | .text _ next => decidableHomed default next
  | .element name attrs firstChild next =>
    have := decidableHomed (ownDefault default attrs) firstChild
    have := decidableHomed default next
    inferInstanceAs (Decidable (AtHome default name attrs ∧
      Homed (ownDefault default attrs) firstChild ∧ Homed default next))

/-! ### Handlers with a builder -/

/-- A handler whose state carries a builder. When the outermost element of the builder ends, the
handler may do what it likes, and so with text outside of it. -/
structure Carries (H : XmlParseHandler σ) (put : XmlBuilder → σ) : Prop where
  start : ∀ s name atts b, (b.startElement s name atts).1 = none →
    H.startElement s name atts (put b) = (none, put (b.startElement s name atts).2)
  finish : ∀ name b, 2 ≤ b.parents.length → H.endElement name (put b) = b.endElement.map put
  chars : ∀ t b, b.parents ≠ [] → H.characterData t (put b) = put (b.characterData t)

/-- The builder is a handler that carries itself. -/
theorem carries_builder : Carries XmlBuilder.handler id where
  start _ _ _ _ h := Prod.ext h rfl
  finish _ b _ := by
    rw [Option.map_id]
    rfl
  chars _ _ _ := rfl

/-- The callbacks end with an error, and the handler still has a builder. -/
def Raises (H : XmlParseHandler σ) (put : XmlBuilder → σ) (cs : List Callback)
    (p : XmlParser σ) : Prop :=
  ∃ t b, callbacks H cs p = some ⟨⟨t, some .errorSyntax⟩, put b, p.sentError⟩

/-- An error stays raised. -/
theorem Raises.append {put : XmlBuilder → σ} {cs : List Callback} {p : XmlParser σ}
    (h : Raises H put cs p) (ds : List Callback) : Raises H put (cs ++ ds) p := by
  obtain ⟨t, b, hrun⟩ := h
  refine ⟨t, b, ?_⟩
  rw [callbacks_append, hrun, Option.bind_some]
  exact callbacks_raised ds (Option.some_ne_none _)

/-- The children of an open element are built as they were printed, or an error is raised. -/
def BuildsChildren (H : XmlParseHandler σ) (put : XmlBuilder → σ) (s : XmlnsStack)
    (default : Str) (c : XmlChild) : Prop :=
  ∀ el parents root e,
    (Homed default c → callbacks H (events (markup s c))
        ⟨⟨s, none⟩, put ⟨el :: parents, root⟩, e⟩ = some ⟨⟨s, none⟩,
          put ⟨⟨el.name, el.attrs, readBack s el.firstChild c⟩ :: parents, root⟩, e⟩) ∧
    (¬ Homed default c → Raises H put (events (markup s c))
        ⟨⟨s, none⟩, put ⟨el :: parents, root⟩, e⟩)

/-! ### Runs -/

section Run

variable {s s' : XmlnsStack} {name : QName} {attrs : List XmlAttr} {ds : List (Str × Str)}
  {default : Str} {put : XmlBuilder → σ}

/-- The tag of an element at home opens its frame, and its element is begun. -/
theorem start_tag (hC : Carries H put) (h : Declared s name attrs s' ds) (hs : Sane s)
    (hplain : PlainTag name attrs) (hnew : ∀ d ∈ ds, d.2 ≠ []) (b : XmlBuilder) (e : Bool) :
    callback H (.startElement (s'.formatQName name false) (tagAtts s' attrs ds))
        ⟨⟨s, none⟩, put b, e⟩ =
      some ⟨⟨s', none⟩, put ⟨⟨name, attrs ++ ds.map xmlnsAttr, .nil⟩ :: b.parents,
        if b.parents = [] then none else b.root⟩, e⟩ := by
  have hbuilt : b.startElement s' (s'.formatQName name false) (tagAtts s' attrs ds) =
      (none, ⟨⟨name, attrs ++ ds.map xmlnsAttr, .nil⟩ :: b.parents,
        if b.parents = [] then none else b.root⟩) := by
    rw [XmlBuilder.startElement, buildElement_tag h hs hplain]
  have hstart := hC.start s' (s'.formatQName name false) (tagAtts s' attrs ds) b (by rw [hbuilt])
  rw [hbuilt] at hstart
  simp only [callback, expatStartElement, ne_eq, not_true_eq_false, if_false,
    startNamespaces_tag h hs hplain hnew, hstart]

/-- The tag of an element that is not at home raises an error. -/
theorem start_homeless (h : Declared s name attrs s' ds) (hs : Sane s)
    (hplain : PlainTag name attrs) (hnew : ∃ d ∈ ds, d.2 = []) (raw : Str) (x : σ) (e : Bool) :
    ∃ t, callback H (.startElement raw (tagAtts s' attrs ds)) ⟨⟨s, none⟩, x, e⟩ =
      some ⟨⟨t, some .errorSyntax⟩, x, e⟩ := by
  have hflag := startNamespaces_homeless h hs hplain hnew
  generalize hresult : startNamespaces s.pushFrame (tagAtts s' attrs ds) = result at hflag
  obtain ⟨flag, t⟩ := result
  obtain rfl : flag = false := hflag
  refine ⟨t, ?_⟩
  simp only [callback, expatStartElement, ne_eq, not_true_eq_false, if_false, hresult]
  rfl

/-- The end of an element drops the definitions of its frame. -/
theorem end_tag (h : Declared s name attrs s' ds) (raw : Str) (x : σ) (e : Bool) :
    callback H (.endElement raw) ⟨⟨s', none⟩, x, e⟩ =
      (H.endElement raw x).map fun x' => ⟨⟨s, none⟩, x', e⟩ := by
  simp only [callback, expatEndElement, ne_eq, not_true_eq_false, if_false, h.popFrame,
    Option.bind_eq_bind, Option.bind_some]
  cases H.endElement raw x with
  | none => rfl
  | some x' => rfl

/-- An element is a start, the events of its children and an end. -/
theorem events_element (s : XmlnsStack) (name : QName) (attrs : List XmlAttr)
    (firstChild next : XmlChild) :
    events (markup s (.element name attrs firstChild next)) =
      .startElement ((declared s name attrs).1.formatQName name false)
        (tagAtts (declared s name attrs).1 attrs (declared s name attrs).2) ::
      (events (markup (declared s name attrs).1 firstChild) ++
        .endElement ((declared s name attrs).1.formatQName name false) :: events (markup s next)) :=
  rfl

/-- An element: if it is at home with all inside of it, it has been built when it ends. -/
theorem run_element (hC : Carries H put) (hplain : PlainTag name attrs) (hs : Sane s)
    (hdefault : s.nsForPrefix [] = some default) {firstChild : XmlChild}
    (hfirst : ∀ {s'}, Sane s' → s'.nsForPrefix [] = some (ownDefault default attrs) →
      BuildsChildren H put s' (ownDefault default attrs) firstChild)
    (next : XmlChild) (b : XmlBuilder) (e : Bool) :
    (AtHome default name attrs ∧ Homed (ownDefault default attrs) firstChild →
      callbacks H (events (markup s (.element name attrs firstChild next)))
          ⟨⟨s, none⟩, put b, e⟩ =
        (H.endElement ((declared s name attrs).1.formatQName name false)
          (put ⟨readElement s ⟨name, attrs, firstChild⟩ :: b.parents,
            if b.parents = [] then none else b.root⟩)).bind
          fun x => callbacks H (events (markup s next)) ⟨⟨s, none⟩, x, e⟩) ∧
    (¬ (AtHome default name attrs ∧ Homed (ownDefault default attrs) firstChild) →
      Raises H put (events (markup s (.element name attrs firstChild next)))
        ⟨⟨s, none⟩, put b, e⟩) := by
  have hdeclared := declared_spec s name attrs
  have hempty := empty_iff_not_atHome hdeclared hs hplain hdefault
  rw [events_element]
  by_cases hhome : AtHome default name attrs
  · have hnew := ne_nil_of_atHome hdeclared hs hplain hdefault hhome
    -- inside of the element the parser has the namespaces of the printer
    have hstart := start_tag hC hdeclared hs hplain hnew b e
    obtain ⟨hgood, hbad⟩ := hfirst (sane_declared hdeclared hs hplain hnew)
      (nsForPrefix_declared hdeclared hplain hdefault)
      ⟨name, attrs ++ (declared s name attrs).2.map xmlnsAttr, .nil⟩ b.parents
      (if b.parents = [] then none else b.root) e
    constructor
    · rintro ⟨-, hinside⟩
      rw [callbacks, hstart, Option.bind_some, callbacks_append, hgood hinside, Option.bind_some,
        callbacks, end_tag hdeclared, Option.bind_map]
      rfl
    · intro houtside
      -- the error is raised before the element ends
      obtain ⟨t, b', hrun⟩ := (hbad fun hinside => houtside ⟨hhome, hinside⟩).append
        (.endElement ((declared s name attrs).1.formatQName name false) :: events (markup s next))
      refine ⟨t, b', ?_⟩
      rw [callbacks, hstart, Option.bind_some]
      exact hrun
  · -- the tag is refused, and the rest is ignored
    obtain ⟨t, hrefused⟩ := start_homeless (H := H) hdeclared hs hplain (hempty.mpr hhome)
      ((declared s name attrs).1.formatQName name false) (put b) e
    refine ⟨fun hhomed => absurd hhomed.1 hhome, fun _ => ⟨t, b, ?_⟩⟩
    rw [callbacks, hrefused, Option.bind_some]
    exact callbacks_raised _ (Option.some_ne_none _)

/-- The children of an open element are built. By induction on the tree. -/
theorem run_children (hC : Carries H put) {c : XmlChild} (hplain : Plain c) (hs : Sane s)
    (hdefault : s.nsForPrefix [] = some default) : BuildsChildren H put s default c := by
  intro el parents root e
  -- over the siblings, for every stack: an element has its children under another one
  induction c generalizing s default el parents root e with
  | nil => exact ⟨fun _ => rfl, fun h => absurd trivial h⟩
  | text t next ih =>
    have hchars : callback H (.characterData t) ⟨⟨s, none⟩, put ⟨el :: parents, root⟩, e⟩ =
        some ⟨⟨s, none⟩, put ⟨el.addParsedText t :: parents, root⟩, e⟩ := by
      simp only [callback, expatCharacterData, ne_eq, not_true_eq_false, if_false,
        hC.chars t ⟨el :: parents, root⟩ (List.cons_ne_nil _ _)]
      rfl
    unfold Raises
    rw [markup, events, callbacks, hchars]
    exact ih hplain.2 hs hdefault (el.addParsedText t) parents root e
  | element name attrs firstChild next ihFirst ihNext =>
    obtain ⟨htag, hfirst, hnext⟩ := hplain
    obtain ⟨hgood, hbad⟩ := run_element hC htag hs hdefault
      (fun hs' hdefault' => ihFirst hfirst hs' hdefault')
      next ⟨el :: parents, root⟩ e
    have hfinish := hC.finish ((declared s name attrs).1.formatQName name false)
      ⟨readElement s ⟨name, attrs, firstChild⟩ :: el :: parents, root⟩ (by simp)
    obtain ⟨hgoodNext, hbadNext⟩ := ihNext hnext hs hdefault
      (el.addElement (readElement s ⟨name, attrs, firstChild⟩)) parents root e
    by_cases hhomed : AtHome default name attrs ∧ Homed (ownDefault default attrs) firstChild
    · -- the element becomes the last child of the open one
      have hrun : callbacks H (events (markup s (.element name attrs firstChild next)))
          ⟨⟨s, none⟩, put ⟨el :: parents, root⟩, e⟩ =
        callbacks H (events (markup s next)) ⟨⟨s, none⟩, put ⟨el.addElement
          (readElement s ⟨name, attrs, firstChild⟩) :: parents, root⟩, e⟩ := by
        rw [hgood hhomed, if_neg (List.cons_ne_nil _ _), hfinish]
        rfl
      unfold Raises
      rw [hrun, readBack_element]
      exact ⟨fun h => hgoodNext h.2.2, fun h => hbadNext fun hn => h ⟨hhomed.1, hhomed.2, hn⟩⟩
    · exact ⟨fun h => absurd ⟨h.1, h.2.1⟩ hhomed, fun _ => hbad hhomed⟩

end Run

/-! ### `Str` and `ForStr` -/

/-- An element without siblings. -/
def alone (el : XmlElement) : XmlChild := .element el.name el.attrs el.firstChild .nil

/-- The document that `Str` writes. -/
def document (el : XmlElement) : Markup := markup XmlnsStack.new (alone el)

/-- The first stack has the empty namespace as its default only. -/
theorem sane_new : Sane XmlnsStack.new where
  named _ hd := absurd hd List.not_mem_nil
  bound _ hd := absurd hd List.not_mem_nil

/-- `Str` prints the document of the element. -/
theorem str_eq {el : XmlElement} (hplain : Plain (alone el)) :
    el.str = some (serialize (document el)) := by
  show (printChildren XmlnsStack.new (alone el)).map Prod.fst = _
  rw [printChildren_eq hplain]
  rfl

/-- What a parse without an error of expat ends with. -/
theorem parse_eq {report : Report} (herror : report.error = none) {p p' : XmlParser σ}
    (hsent : p.sentError = false) (hrun : callbacks H report.callbacks p = some p') :
    parse H report p = some (match p'.context.raised with
      | none => (true, p')
      | some err => (false, ⟨p'.context, H.error err p'.pxph, true⟩)) := by
  obtain ⟨⟨t, raised⟩, x, e⟩ := p'
  rw [parse, hsent, if_neg Bool.false_ne_true, hrun, herror, Option.bind_eq_bind, Option.bind_some]
  cases raised with
  | none => rfl
  | some err => rfl

/-- Expat reads a printed element, in any pieces: there is no error, and the run of the callbacks
is that of the markup. -/
theorem callbacks_printed {expat : Expat} {limit : Nat} (hexpat : Conforms expat limit)
    {el : XmlElement} (hplain : Plain (alone el)) {pieces : List Str}
    (hpieces : pieces.flatten = serialize (document el))
    (hlen : (serialize (document el)).length < limit) (hH : JoinsText H) :
    (∀ report ∈ reports expat [] (cut pieces), report.error = none) ∧
      ∀ p, callbacks H ((reports expat [] (cut pieces)).flatMap Report.callbacks) p
        = callbacks H (events (document el)) p := by
  have hprintable : Printable (document el) := printable_markup hplain sane_new.named
  obtain ⟨herror, hcallbacks⟩ := hexpat.reads (by rwa [hpieces])
    (by rw [hpieces]; exact isText_serialize hprintable)
    (by rw [hpieces]; exact read_serialize hprintable)
  refine ⟨herror, fun p => ?_⟩
  rw [← callbacks_joinText hH, hcallbacks, joinText_spelled, callbacks_joinText hH]
  rfl

/-- `Str` writes every plain element. What `ForStr` reads is the same element, with the
definitions that were added, or nothing when an element is not at home. -/
theorem forStr_str {el : XmlElement} (hplain : Plain (alone el)) {expat : Expat} {limit : Nat}
    (hexpat : Conforms expat limit) :
    ∃ str, el.str = some str ∧ (str.length < limit →
      (Homed [] (alone el) →
        XmlElement.forStr expat str = some (some (readElement XmlnsStack.new el))) ∧
      (¬ Homed [] (alone el) → XmlElement.forStr expat str = some none)) := by
  refine ⟨_, str_eq hplain, fun hlen => ?_⟩
  have hwhole : [serialize (document el)].flatten = serialize (document el) := by simp
  obtain ⟨herror, hcallbacks⟩ := callbacks_printed hexpat hplain hwhole hlen joinsText_builder
  have hnone : (expat [parseCall (serialize (document el)) true]).error = none :=
    herror _ List.mem_cons_self
  -- What expat reports is what the printed tree stands for.
  have hreport : ∀ p, callbacks XmlBuilder.handler
      (expat [parseCall (serialize (document el)) true]).callbacks p
        = callbacks XmlBuilder.handler (events (document el)) p := by
    intro p
    rw [← hcallbacks p]
    exact congrArg (callbacks XmlBuilder.handler · p) (List.append_nil _).symm
  obtain ⟨name, attrs, firstChild⟩ := el
  obtain ⟨htag, hfirst, -⟩ := hplain
  have hdefault : XmlnsStack.new.nsForPrefix [] = some [] := by decide
  -- The first element is run from the new stack, whose default namespace is empty.
  obtain ⟨hgood, hbad⟩ := run_element carries_builder htag sane_new hdefault
    (fun hs' hdefault' => run_children carries_builder hfirst hs' hdefault') .nil
    XmlBuilder.new false
  constructor
  · intro hhomed
    rw [XmlElement.forStr, parse_eq (p := XmlParser.new XmlBuilder.new) hnone rfl
      ((hreport _).trans (hgood ⟨hhomed.1, hhomed.2.1⟩))]
    rfl
  · -- the error makes the builder drop what it has
    intro hhomed
    obtain ⟨t, b, hrun⟩ := hbad fun h => hhomed ⟨h.1, h.2, trivial⟩
    rw [XmlElement.forStr, parse_eq (p := XmlParser.new XmlBuilder.new) hnone rfl
      ((hreport _).trans hrun)]
    rfl

/-- An element with a text and with a child that needs a prefix. -/
def greeting : XmlElement where
  name := ⟨text ['u', 'r', 'i'], text ['a']⟩
  attrs := [⟨qnXmlns, text ['u', 'r', 'i']⟩]
  firstChild := .text (text ['h', 'i'])
    (.element ⟨text ['u', 'r', 'n', ':', 'b', 'o', 'x'], text ['b']⟩
      [⟨⟨[], text ['c']⟩, text ['<']⟩] .nil .nil)

/-- Its child as it is read, with the definition of the prefix. -/
def greetingBox : XmlElement where
  name := ⟨text ['u', 'r', 'n', ':', 'b', 'o', 'x'], text ['b']⟩
  attrs := [⟨⟨[], text ['c']⟩, text ['<']⟩,
    ⟨⟨nsXmlns, text ['b', 'o', 'x']⟩, text ['u', 'r', 'n', ':', 'b', 'o', 'x']⟩]
  firstChild := .nil

/-- The example is plain. -/
theorem plain_greeting : Plain (alone greeting) := by decide +kernel

/-- The example is short. -/
theorem length_greeting : (serialize (document greeting)).length < 2 ^ 31 := by decide +kernel

/-- The example comes back. -/
theorem forStr_str_greeting : ∃ str, greeting.str = some str ∧
    XmlElement.forStr reader str =
      some (some { greeting with firstChild := .text (text ['h', 'i']) (alone greetingBox) }) := by
  obtain ⟨str, hstr, hread⟩ := forStr_str plain_greeting conforms_reader
  have hlen : str.length < 2 ^ 31 := by
    rw [← Option.some.inj ((str_eq plain_greeting).symm.trans hstr)]
    exact length_greeting
  exact ⟨str, hstr, ((hread hlen).1 (by decide)).trans (by decide)⟩

end Mylib.Proofs.Xmpp.RoundTrip
