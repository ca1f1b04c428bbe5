import Mylib.Proofs.Xmpp.RoundTrip

/-!
# `Mylib.Proofs.Xmpp.Stanzas`: the stanzas of a stream

`XmppStanzaParser` hands over the children of the stream element, in the order of the stream and
read as `ForStr` reads an element. Where the text of the stream is cut into pieces makes no
difference (`parsePieces_stream`). The first stanza that the parser refuses ends the calls with an
error.
-/

set_option autoImplicit false

namespace Mylib.Proofs.Xmpp.Stanzas

open Mylib.Spec.Base (Str)
open Mylib.Spec.Base.StringUtil (text)
open Mylib.Spec.Xmpp
open Mylib.Spec.Xmpp.XmlnsStack
open Mylib.Spec.Xmpp.XmlParser
open Mylib.Proofs.Xmpp.Printing
open Mylib.Proofs.Xmpp.Reading
open Mylib.Proofs.Xmpp.RoundTrip
open Mylib.Proofs.Xmpp.Expat

/-! ### Pieces -/

section Pieces

variable {σ : Type} {H : XmlParseHandler σ}

/-- A parser behind its last callback: an error that was raised is sent. -/
def settle (H : XmlParseHandler σ) (p : XmlParser σ) : XmlParser σ :=
  match p.context.raised with
  | none => p
  | some err => ⟨p.context, H.error err p.pxph, true⟩

/-- A callback does not report an error. -/
theorem sentError_callback {c : Callback} {p p' : XmlParser σ}
    (hrun : callback H c p = some p') : p'.sentError = p.sentError := by
  -- No callback touches the flag; only `Parse` does.
  cases c with
  | startElement name atts =>
    obtain rfl := Option.some.inj hrun
    unfold expatStartElement
    split_ifs
    · rfl
    · split
      · rfl
      · rfl
  | endElement name =>
    by_cases hraised : p.context.raised ≠ none
    · rw [callback, expatEndElement, if_pos hraised] at hrun
      rw [Option.some.inj hrun]
    · rw [callback, expatEndElement, if_neg hraised] at hrun
      obtain ⟨s, -, hrun⟩ := Option.bind_eq_some_iff.mp hrun
      obtain ⟨x, -, hrun⟩ := Option.bind_eq_some_iff.mp hrun
      obtain rfl := Option.some.inj hrun
      rfl
  | characterData t =>
    obtain rfl := Option.some.inj hrun
    unfold expatCharacterData
    split_ifs
    · rfl
    · rfl
  | xmlDecl ver enc standalone =>
    obtain rfl := Option.some.inj hrun
    unfold expatXmlDecl
    split_ifs
    · rfl
    · rfl
    · rfl
    · rfl
    · rfl

/-- Callbacks do not report an error: only a call to `Parse` does. -/
theorem sentError_callbacks {cs : List Callback} {p p' : XmlParser σ}
    (hrun : callbacks H cs p = some p') : p'.sentError = p.sentError := by
  induction cs generalizing p with
  | nil => rw [Option.some.inj hrun]
  | cons c cs ih =>
    obtain ⟨q, hq, hrun⟩ := Option.bind_eq_some_iff.mp hrun
    rw [ih hrun, sentError_callback hq]

/-- After an error is sent, nothing is parsed any more. -/
theorem parsePieces_sent (expat : Expat) (made : List ParseCall) (pieces : List (Str × Bool))
    {p : XmlParser σ} (hsent : p.sentError = true) :
    parsePieces H expat made pieces p = some p := by
  induction pieces generalizing made with
  | nil => rfl
  | cons piece pieces ih =>
    obtain ⟨data, isFinal⟩ := piece
    rw [parsePieces, parse, hsent, if_pos rfl]
    exact ih _

/-- The pieces do what one piece with all callbacks would do. -/
theorem parsePieces_eq {expat : Expat} {made : List ParseCall} {pieces : List (Str × Bool)}
    (herror : ∀ report ∈ reports expat made pieces, report.error = none) {p p' : XmlParser σ}
    (hsent : p.sentError = false) (hraised : p.context.raised = none)
    (hrun : callbacks H ((reports expat made pieces).flatMap Report.callbacks) p = some p') :
    parsePieces H expat made pieces p = some (settle H p') := by
  induction pieces generalizing made p with
  | nil =>
    obtain rfl := Option.some.inj hrun
    rw [settle, hraised]
    rfl
  | cons piece pieces ih =>
    obtain ⟨data, isFinal⟩ := piece
    obtain ⟨hnone, herror⟩ := List.forall_mem_cons.mp herror
    rw [reports, List.flatMap_cons, callbacks_append] at hrun
    obtain ⟨q, hq, hrun⟩ := Option.bind_eq_some_iff.mp hrun
    rw [parsePieces, parse_eq hnone hsent hq]
    cases hraised : q.context.raised with
    | none =>
      -- the next piece goes on where this one ends
      exact ih herror ((sentError_callbacks hq).trans hsent) hraised hrun
    | some err =>
      -- the error is sent with this piece, and the callbacks behind it do nothing
      rw [callbacks_raised _ (by rw [hraised]; exact Option.some_ne_none _)] at hrun
      obtain rfl := Option.some.inj hrun
      rw [settle, hraised]
      exact parsePieces_sent expat _ pieces rfl

end Pieces

/-! ### One stanza -/

/-- The stanza parser inside of the stream element. -/
def within (psph : List StanzaCall) (b : XmlBuilder) : XmppStanzaParser :=
  ⟨b.parents.length + 1, b, psph⟩

/-- Below its root the stanza parser carries a builder. -/
theorem carries_within (psph : List StanzaCall) :
    Carries XmppStanzaParser.handler (within psph) where
  start s name atts b h := by
    -- Below a child of the stream the depth is neither 0 nor 1, so the builder is called.
    have hdepth : ¬ (b.parents.length + 1 : Int) = 0 := by omega
    cases hbuilt : XmlBuilder.buildElement s name atts with
    | none => simp [XmlBuilder.startElement, hbuilt] at h
    | some pelNew =>
      simp [XmppStanzaParser.handler, XmppStanzaParser.incomingStartElement, within, hdepth,
        XmlBuilder.startElement, hbuilt]
  finish name b h := by
    obtain ⟨parents, root⟩ := b
    cases parents with
    | nil => simp at h
    | cons el parents =>
      cases parents with
      | nil => simp at h
      | cons parent parents =>
        have hzero : ¬ (parents.length + 1 + 1 : Int) = 0 := by omega
        have hone : ¬ (parents.length + 1 + 1 : Int) = 1 := by omega
        simp [XmppStanzaParser.handler, XmppStanzaParser.incomingEndElement, within, hzero, hone,
          XmlBuilder.endElement]
  chars t b h := by
    obtain ⟨parents, root⟩ := b
    cases parents with
    | nil => exact absurd rfl h
    | cons el parents =>
      simp [XmppStanzaParser.handler, XmppStanzaParser.incomingCharacterData, within,
        XmlBuilder.characterData]

/-- The stanza parser does not mind how text is cut. -/
theorem joinsText_stanzas : JoinsText XmppStanzaParser.handler where
  nil p := by
    show XmppStanzaParser.incomingCharacterData [] p = p
    unfold XmppStanzaParser.incomingCharacterData
    split_ifs
    · rw [show p.builder.characterData [] = p.builder from joinsText_builder.nil p.builder]
    · rfl
  append t u p := by
    show (p.incomingCharacterData t).incomingCharacterData u = p.incomingCharacterData (t ++ u)
    unfold XmppStanzaParser.incomingCharacterData
    split_ifs
    · rw [show p.builder.characterData (t ++ u) = (p.builder.characterData t).characterData u from
        (joinsText_builder.append t u p.builder).symm]
    · rfl

/-! ### The stream -/

/-- The calls for the children of the stream element. -/
def delivered (s : XmlnsStack) (default : Str) : XmlChild → List StanzaCall
  | .nil => [.endStream]
  | .text _ next => delivered s default next
  | .element name attrs firstChild next =>
    if AtHome default name attrs ∧ Homed (ownDefault default attrs) firstChild then
      .stanza (some (readElement s ⟨name, attrs, firstChild⟩)) :: delivered s default next
    else [.xmlError]

/-- The calls for a stream. -/
def calls (el : XmlElement) : List StanzaCall :=
  if AtHome [] el.name el.attrs then
    delivered (declared XmlnsStack.new el.name el.attrs).1 (ownDefault [] el.attrs) el.firstChild
  else [.xmlError]

/-- Every child of the root is delivered, or an error is raised. By induction on the children. -/
theorem run_stanzas {c : XmlChild} (hplain : Plain c) {s : XmlnsStack} {default : Str}
    (hs : Sane s) (hdefault : s.nsForPrefix [] = some default) (psph : List StanzaCall)
    (e : Bool) :
    (∃ more, delivered s default c = more ++ [.endStream] ∧
      callbacks XmppStanzaParser.handler (events (markup s c))
          ⟨⟨s, none⟩, within psph XmlBuilder.new, e⟩ =
        some ⟨⟨s, none⟩, within (psph ++ more) XmlBuilder.new, e⟩) ∨
    (∃ more t b, delivered s default c = more ++ [.xmlError] ∧
      callbacks XmppStanzaParser.handler (events (markup s c))
          ⟨⟨s, none⟩, within psph XmlBuilder.new, e⟩ =
        some ⟨⟨t, some .errorSyntax⟩, within (psph ++ more) b, e⟩) := by
  induction c generalizing psph with
  | nil =>
    refine .inl ⟨[], rfl, ?_⟩
    rw [List.append_nil]
    rfl
  | text t next ih =>
    -- text outside of stanzas is ignored
    exact ih hplain.2 psph
  | element name attrs firstChild next _ ihNext =>
    obtain ⟨htag, hfirst, hnext⟩ := hplain
    obtain ⟨hgood, hbad⟩ := run_element (carries_within psph) htag hs hdefault
      (fun hs' hdefault' => run_children (carries_within psph) hfirst hs' hdefault')
      next XmlBuilder.new e
    rw [delivered]
    by_cases hhomed : AtHome default name attrs ∧ Homed (ownDefault default attrs) firstChild
    · -- the end of the stanza hands it over, and the builder is empty again
      rw [if_pos hhomed, hgood hhomed]
      obtain ⟨more, hmore, hrun⟩ | ⟨more, t, b, hmore, hrun⟩ := ihNext hnext
        (psph ++ [.stanza (some (readElement s ⟨name, attrs, firstChild⟩))])
      · refine .inl ⟨_ :: more, congrArg _ hmore, ?_⟩
        rw [List.append_cons]
        exact hrun
      · refine .inr ⟨_ :: more, t, b, congrArg _ hmore, ?_⟩
        rw [List.append_cons]
        exact hrun
    · rw [if_neg hhomed]
      obtain ⟨t, b, hrun⟩ := hbad hhomed
      refine .inr ⟨[], t, b, rfl, ?_⟩
      rw [List.append_nil]
      exact hrun

/-- A whole stream, from the start of its root to the end. -/
theorem run_stream {el : XmlElement} (hplain : Plain (alone el)) :
    ∃ p, callbacks XmppStanzaParser.handler (events (document el))
        (XmlParser.new XmppStanzaParser.new) = some p ∧
      (settle XmppStanzaParser.handler p).pxph.psph = calls el := by
  obtain ⟨name, attrs, firstChild⟩ := el
  obtain ⟨htag, hfirst, -⟩ := hplain
  have hdeclared := declared_spec XmlnsStack.new name attrs
  have hdefault : XmlnsStack.new.nsForPrefix [] = some [] := by decide
  have hempty := empty_iff_not_atHome hdeclared sane_new htag hdefault
  rw [document, alone, events_element, calls]
  by_cases hhome : AtHome [] name attrs
  · have hnew := ne_nil_of_atHome hdeclared sane_new htag hdefault hhome
    -- the stream element itself is built to be checked, and dropped
    have hstart : callback XmppStanzaParser.handler
        (.startElement ((declared XmlnsStack.new name attrs).1.formatQName name false)
          (tagAtts (declared XmlnsStack.new name attrs).1 attrs
            (declared XmlnsStack.new name attrs).2)) (XmlParser.new XmppStanzaParser.new) =
        some ⟨⟨(declared XmlnsStack.new name attrs).1, none⟩, within [] XmlBuilder.new, false⟩ := by
      simp [callback, expatStartElement, XmlParser.new, ParseContext.new,
        startNamespaces_tag hdeclared sane_new htag hnew, XmppStanzaParser.handler,
        XmppStanzaParser.incomingStartElement, XmppStanzaParser.new,
        buildElement_tag hdeclared sane_new htag, within, XmlBuilder.new]
    rw [if_pos hhome, callbacks, hstart, Option.bind_some]
    obtain ⟨more, hmore, hrun⟩ | ⟨more, t, b, hmore, hrun⟩ := run_stanzas hfirst
      (sane_declared hdeclared sane_new htag hnew) (nsForPrefix_declared hdeclared htag hdefault)
      [] false
    · refine ⟨⟨⟨XmlnsStack.new, none⟩, ⟨0, XmlBuilder.new, more ++ [StanzaCall.endStream]⟩,
        false⟩, ?_, hmore.symm⟩
      rw [callbacks_append, hrun, Option.bind_some, callbacks, end_tag hdeclared]
      rfl
    · refine ⟨⟨⟨t, some .errorSyntax⟩, within more b, false⟩, ?_, hmore.symm⟩
      rw [callbacks_append, hrun, Option.bind_some]
      exact callbacks_raised _ (Option.some_ne_none _)
  · -- no stanza has been begun when the tag of the stream is refused
    obtain ⟨t, hrefused⟩ := start_homeless (H := XmppStanzaParser.handler) hdeclared sane_new htag
      (hempty.mpr hhome) ((declared XmlnsStack.new name attrs).1.formatQName name false)
      XmppStanzaParser.new false
    rw [if_neg hhome, callbacks]
    refine ⟨⟨⟨t, some .errorSyntax⟩, XmppStanzaParser.new, false⟩, ?_, rfl⟩
    show (callback XmppStanzaParser.handler _
      ⟨⟨XmlnsStack.new, none⟩, XmppStanzaParser.new, false⟩).bind _ = _
    rw [hrefused, Option.bind_some]
    exact callbacks_raised _ (Option.some_ne_none _)

/-- The stanzas of a stream, wherever its text is cut. -/
theorem parsePieces_stream {el : XmlElement} (hplain : Plain (alone el)) {expat : Expat}
    {limit : Nat} (hexpat : Conforms expat limit) {pieces : List Str}
    (hstr : el.str = some pieces.flatten) (hlen : pieces.flatten.length < limit) :
    ∃ p, parsePieces XmppStanzaParser.handler expat [] (cut pieces)
        (XmlParser.new XmppStanzaParser.new) = some p ∧ p.pxph.psph = calls el := by
  have hpieces : pieces.flatten = serialize (document el) :=
    Option.some.inj (hstr.symm.trans (str_eq hplain))
  obtain ⟨herror, hcallbacks⟩ := callbacks_printed hexpat hplain hpieces (hpieces ▸ hlen)
    joinsText_stanzas
  obtain ⟨p, hrun, hcalls⟩ := run_stream hplain
  rw [← hcallbacks] at hrun
  exact ⟨_, parsePieces_eq herror rfl rfl hrun, hcalls⟩

/-- The stream of an element with a text and a child, cut within the text. -/
theorem parsePieces_stream_greeting : ∃ p, parsePieces XmppStanzaParser.handler reader []
    (cut [(serialize (document greeting)).take 16, (serialize (document greeting)).drop 16])
      (XmlParser.new XmppStanzaParser.new) = some p ∧
      p.pxph.psph = [.stanza (some greetingBox), .endStream] := by
  have hwhole : [(serialize (document greeting)).take 16,
      (serialize (document greeting)).drop 16].flatten = serialize (document greeting) := by simp
  obtain ⟨p, hrun, hcalls⟩ := parsePieces_stream plain_greeting conforms_reader
    (hwhole ▸ str_eq plain_greeting) (hwhole ▸ length_greeting)
  exact ⟨p, hrun, hcalls.trans (by decide)⟩

end Mylib.Proofs.Xmpp.Stanzas
