import Mylib.Spec.Xmpp.XmlPrinter

/-!
# `Mylib.Spec.Xmpp.XmlParser`: names resolved, elements built, stanzas cut out

`xmlparser.cc`, `xmlbuilder.cc` and `xmppstanzaparser.cc` of `public/xmpp`. The XML parser
itself is expat, which is not part of the repository: a `Report` is what one call of `XML_Parse`
does, the callbacks in order and the error it returns, and `Expat` says what it does after the
calls that were made before. `none` is undefined behaviour: `back` of an empty vector.
-/

set_option autoImplicit false

namespace Mylib.Spec.Xmpp

open Mylib.Spec.Base (Str)
open Mylib.Spec.Base.StringUtil (text)

/-! ### Callbacks and errors -/

/-- The callbacks of expat, with the strings they pass. -/
inductive Callback where
  | startElement (name : Str) (atts : List (Str × Str))
  | endElement (name : Str)
  | characterData (text : Str)
  | xmlDecl (ver enc : Option Str) (standalone : Int)
  deriving DecidableEq, Repr

/-- `XML_Error`: the two codes the source raises, and those of expat. -/
inductive XmlError where
  | errorSyntax
  | incorrectEncoding
  | expat (code : Nat)
  deriving DecidableEq, Repr

/-- What `XML_Parse` does. -/
structure Report where
  callbacks : List Callback
  error : Option XmlError

/-- A call of `XML_Parse`: the data, the length it is given as an `int`, and whether the data is
the last one. -/
structure ParseCall where
  data : Str
  len : Int
  isFinal : Bool
  deriving DecidableEq

/-- The parser of expat: what the last one of the calls that were made on it does. -/
abbrev Expat := List ParseCall → Report

/-- The call that `XmlParser::Parse` makes, with its cast of the length. -/
def parseCall (data : Str) (isFinal : Bool) : ParseCall :=
  ⟨data, (data.length : Int).bmod (2 ^ 32), isFinal⟩

/-- `XmlParser::ParseContext`. -/
structure ParseContext where
  xmlnsstack : XmlnsStack
  raised : Option XmlError
  deriving DecidableEq, Repr

namespace ParseContext

def new : ParseContext := ⟨XmlnsStack.new, none⟩

/-- The first error stays. -/
def raiseError (err : XmlError) (c : ParseContext) : ParseContext :=
  { c with raised := c.raised.or (some err) }

end ParseContext

/-- `ParseContext::ResolveQName`. -/
def resolveQName (s : XmlnsStack) (qname : Str) (isAttr : Bool) : QName :=
  if colon ∈ qname then
    match s.nsForPrefix (qname.takeWhile (· ≠ colon)) with
    | none => qnEmpty
    | some result => ⟨result, (qname.dropWhile (· ≠ colon)).tail⟩
  else if isAttr then ⟨[], qname⟩
  else
    match s.nsForPrefix [] with
    | none => qnEmpty
    | some result => ⟨result, qname⟩

/-- `XmlParseHandler`. The start of an element sees the namespaces and may raise an error. -/
structure XmlParseHandler (σ : Type) where
  startElement : XmlnsStack → Str → List (Str × Str) → σ → Option XmlError × σ
  endElement : Str → σ → Option σ
  characterData : Str → σ → σ
  error : XmlError → σ → σ

/-- `XmlParser`, with the state of its handler. -/
structure XmlParser (σ : Type) where
  context : ParseContext
  pxph : σ
  sentError : Bool

namespace XmlParser

variable {σ : Type}

/-- The constructor. -/
def new (pxph : σ) : XmlParser σ := ⟨ParseContext.new, pxph, false⟩

/-- The loop of `ExpatStartElement` over the attributes. The flag is `false` when a prefix has
the empty namespace. -/
def startNamespaces (s : XmlnsStack) : List (Str × Str) → Bool × XmlnsStack
  | [] => (true, s)
  | (name, value) :: atts =>
    if strXmlns <+: name then
      match name.drop 5 with
      | [] => startNamespaces (s.addXmlns [] value) atts
      | ch :: pfx =>
        if ch = colon then
          if value = [] then (false, s) else startNamespaces (s.addXmlns pfx value) atts
        else startNamespaces s atts
    else startNamespaces s atts

variable (H : XmlParseHandler σ)

def expatStartElement (name : Str) (atts : List (Str × Str)) (p : XmlParser σ) : XmlParser σ :=
  if p.context.raised ≠ none then p
  else
    match startNamespaces p.context.xmlnsstack.pushFrame atts with
    | (false, s) =>
      { p with context := ({ p.context with xmlnsstack := s }).raiseError .errorSyntax }
    | (true, s) =>
      let (err, pxph) := H.startElement s name atts p.pxph
      let context := { p.context with xmlnsstack := s }
      { p with
        context := match err with | none => context | some err => context.raiseError err
        pxph }

def expatEndElement (name : Str) (p : XmlParser σ) : Option (XmlParser σ) :=
  if p.context.raised ≠ none then some p
  else do
    let s ← p.context.xmlnsstack.popFrame
    let pxph ← H.endElement name p.pxph
    return { p with context := { p.context with xmlnsstack := s }, pxph }

def expatCharacterData (text : Str) (p : XmlParser σ) : XmlParser σ :=
  if p.context.raised ≠ none then p
  else { p with pxph := H.characterData text p.pxph }

/-- The encoding that `ExpatXmlDecl` takes: one that begins with `utf-8`, in any case. -/
def isUtf8 : Str → Bool
  | a :: b :: c :: d :: e :: _ =>
    (a == 85 || a == 117) && (b == 84 || b == 116) && (c == 70 || c == 102) && d == 45 && e == 56
  | _ => false

def expatXmlDecl (ver enc : Option Str) (standalone : Int) (p : XmlParser σ) : XmlParser σ :=
  if p.context.raised ≠ none then p
  else if ver.any (· ≠ text ['1', '.', '0']) then
    { p with context := p.context.raiseError .errorSyntax }
  else if standalone = 0 then { p with context := p.context.raiseError .errorSyntax }
  else if enc.any (!isUtf8 ·) then { p with context := p.context.raiseError .incorrectEncoding }
  else p

def callback : Callback → XmlParser σ → Option (XmlParser σ)
  | .startElement name atts, p => some (expatStartElement H name atts p)
  | .endElement name, p => expatEndElement H name p
  | .characterData text, p => some (expatCharacterData H text p)
  | .xmlDecl ver enc standalone, p => some (expatXmlDecl ver enc standalone p)

/-- The callbacks of one call of expat. -/
def callbacks : List Callback → XmlParser σ → Option (XmlParser σ)
  | [], p => some p
  | c :: cs, p => (callback H c p).bind (callbacks cs)

/-- `Parse`, with what `XML_Parse` does on the data. -/
def parse (report : Report) (p : XmlParser σ) : Option (Bool × XmlParser σ) :=
  if p.sentError then some (false, p)
  else do
    let p ← callbacks H report.callbacks p
    let context := match report.error with
      | none => p.context
      | some err => p.context.raiseError err
    match context.raised with
    | none => return (true, { p with context })
    | some err => return (false, ⟨context, H.error err p.pxph, true⟩)

end XmlParser

/-! ### `XmlBuilder` -/

/-- `XmlBuilder`. An element is kept outside of its parent until it ends: `parents` are the
elements begun, the innermost one, which is `pelCurrent_`, first. `root` is what is built. -/
structure XmlBuilder where
  parents : List XmlElement
  root : Option XmlElement
  deriving DecidableEq, Repr

namespace XmlBuilder

def new : XmlBuilder := ⟨[], none⟩

/-- The loop of `BuildElement` over the attributes. -/
def buildAttrs (s : XmlnsStack) : List (Str × Str) → List QName → XmlElement → Option XmlElement
  | [], _, pelNew => some pelNew
  | (name, value) :: atts, seenNonlocalAtts, pelNew =>
    let attName := resolveQName s name true
    if attName = qnEmpty then none
    else if attName.ns ≠ [] then
      if attName ∈ seenNonlocalAtts then none
      else buildAttrs s atts (attName :: seenNonlocalAtts) (pelNew.addAttr attName value)
    else buildAttrs s atts seenNonlocalAtts (pelNew.addAttr attName value)

def buildElement (s : XmlnsStack) (name : Str) (atts : List (Str × Str)) : Option XmlElement :=
  let tagName := resolveQName s name false
  if tagName = qnEmpty then none else buildAttrs s atts [] (XmlElement.new tagName)

def startElement (s : XmlnsStack) (name : Str) (atts : List (Str × Str)) (b : XmlBuilder) :
    Option XmlError × XmlBuilder :=
  match buildElement s name atts with
  | none => (some .errorSyntax, b)
  | some pelNew =>
    (none, ⟨pelNew :: b.parents, if b.parents = [] then none else b.root⟩)

def endElement (b : XmlBuilder) : Option XmlBuilder :=
  match b.parents with
  | [] => none
  | [el] => some ⟨[], some el⟩
  | el :: parent :: parents => some ⟨parent.addElement el :: parents, b.root⟩

def characterData (text : Str) (b : XmlBuilder) : XmlBuilder :=
  match b.parents with
  | [] => b
  | el :: parents => { b with parents := el.addParsedText text :: parents }

/-- `BuiltElement`: the elements begun count as they are. -/
def builtElement (b : XmlBuilder) : Option XmlElement :=
  match b.parents with
  | [] => b.root
  | el :: parents => some (parents.foldl (fun child parent => parent.addElement child) el)

/-- What `CreateElement` releases, and what it leaves behind. -/
def createElement (b : XmlBuilder) : Option XmlElement × XmlBuilder :=
  (b.builtElement, { b with root := none })

/-- `XmlBuilder` as a handler. -/
def handler : XmlParseHandler XmlBuilder where
  startElement := startElement
  endElement _ := endElement
  characterData := characterData
  error _ _ := new

end XmlBuilder

/-- `ForStr`: one call, with the whole string. -/
def XmlElement.forStr (expat : Expat) (str : Str) : Option (Option XmlElement) := do
  let (_, parser) ← XmlParser.parse XmlBuilder.handler (expat [parseCall str true])
    (XmlParser.new XmlBuilder.new)
  return parser.pxph.createElement.1

/-! ### `XmppStanzaParser` -/

/-- The calls of `XmppStanzaParseHandler`. -/
inductive StanzaCall where
  | stanza (element : Option XmlElement)
  | endStream
  | xmlError
  deriving DecidableEq, Repr

/-- `XmppStanzaParser` without its parser, and what its handler was called with. -/
structure XmppStanzaParser where
  depth : Int
  builder : XmlBuilder
  psph : List StanzaCall
  deriving DecidableEq, Repr

namespace XmppStanzaParser

def new : XmppStanzaParser := ⟨0, XmlBuilder.new, []⟩

def incomingStartElement (s : XmlnsStack) (name : Str) (atts : List (Str × Str))
    (p : XmppStanzaParser) : Option XmlError × XmppStanzaParser :=
  if p.depth = 0 then
    (match XmlBuilder.buildElement s name atts with
      | none => some .errorSyntax
      | some _ => none, { p with depth := p.depth + 1 })
  else
    let (err, builder) := p.builder.startElement s name atts
    (err, { p with depth := p.depth + 1, builder })

def incomingCharacterData (text : Str) (p : XmppStanzaParser) : XmppStanzaParser :=
  if p.depth > 1 then { p with builder := p.builder.characterData text } else p

def incomingEndElement (p : XmppStanzaParser) : Option XmppStanzaParser :=
  let depth := p.depth - 1
  if depth = 0 then some { p with depth, psph := p.psph ++ [.endStream] }
  else do
    let builder ← p.builder.endElement
    if depth = 1 then
      let (element, builder) := builder.createElement
      return ⟨depth, builder, p.psph ++ [.stanza element]⟩
    else return { p with depth, builder }

/-- `XmppStanzaParser::ParseHandler`. -/
def handler : XmlParseHandler XmppStanzaParser where
  startElement := incomingStartElement
  endElement _ := incomingEndElement
  characterData := incomingCharacterData
  error _ p := { p with psph := p.psph ++ [.xmlError] }

end XmppStanzaParser

/-- `XmppStanzaParser::Parse`, called for one piece of the stream after the other. The calls that
were made are given first: once an error is sent, `Parse` makes none, but nothing depends on them
then. -/
def XmlParser.parsePieces {σ : Type} (H : XmlParseHandler σ) (expat : Expat) :
    List ParseCall → List (Str × Bool) → XmlParser σ → Option (XmlParser σ)
  | _, [], p => some p
  | made, (data, isFinal) :: pieces, p => do
    let made := made ++ [parseCall data isFinal]
    let (_, p) ← XmlParser.parse H (expat made) p
    XmlParser.parsePieces H expat made pieces p

end Mylib.Spec.Xmpp
