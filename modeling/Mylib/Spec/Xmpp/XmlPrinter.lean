import Mylib.Spec.Xmpp.XmlnsStack

/-!
# `Mylib.Spec.Xmpp.XmlPrinter`: elements and their text

The tree of `public/xmpp/xmlelement.h` and the printer of `xmlprinter.cc`. As in the source, a
child knows its next sibling, and an element its first child. What is written to the stream is
the string a function returns. `none` is the one of `popFrame` and `addNewPrefix`.
-/

set_option autoImplicit false

namespace Mylib.Spec.Xmpp

open Mylib.Spec.Base (Str)
open Mylib.Spec.Base.StringUtil (text)
open XmlnsStack

/-- `XmlAttr`. -/
structure XmlAttr where
  name : QName
  value : Str
  deriving DecidableEq, Repr

/-- `XmlChild` with the siblings behind it; `nil` is `NULL`. -/
inductive XmlChild where
  | nil
  | text (text : Str) (next : XmlChild)
  | element (name : QName) (attrs : List XmlAttr) (firstChild next : XmlChild)
  deriving DecidableEq, Repr

/-- `XmlElement`. -/
structure XmlElement where
  name : QName
  attrs : List XmlAttr
  firstChild : XmlChild
  deriving DecidableEq, Repr

/-! ### The tree -/

/-- The siblings with one more behind them. -/
def XmlChild.append : XmlChild → XmlChild → XmlChild
  | .nil, last => last
  | .text t next, last => .text t (next.append last)
  | .element name attrs firstChild next, last => .element name attrs firstChild (next.append last)

/-- `AddParsedText` and `AddText`, on the children: the text joins a text at the end. -/
def XmlChild.addText (text : Str) : XmlChild → XmlChild
  | .nil => if text = [] then .nil else .text text .nil
  | .text t .nil => .text (t ++ text) .nil
  | .text t next => .text t (next.addText text)
  | .element name attrs firstChild next => .element name attrs firstChild (next.addText text)

namespace XmlElement

/-- The constructor with a name. -/
def new (name : QName) : XmlElement := ⟨name, [], .nil⟩

def addAttr (name : QName) (value : Str) (el : XmlElement) : XmlElement :=
  { el with attrs := el.attrs ++ [⟨name, value⟩] }

def addParsedText (text : Str) (el : XmlElement) : XmlElement :=
  { el with firstChild := el.firstChild.addText text }

def addElement (el child : XmlElement) : XmlElement :=
  { el with
    firstChild := el.firstChild.append (.element child.name child.attrs child.firstChild .nil) }

end XmlElement

/-! ### The printer -/

/-- The entity of an unsafe character. -/
def entity (ch : UInt8) : Str :=
  if ch = 60 then text ['&', 'l', 't', ';']
  else if ch = 62 then text ['&', 'g', 't', ';']
  else if ch = 38 then text ['&', 'a', 'm', 'p', ';']
  else if ch = 34 then text ['&', 'q', 'u', 'o', 't', ';']
  else []

/-- The loop of `PrintQuotedValue` and `PrintBodyText`, with the characters they look for. -/
def printUnsafe (unsafeChars : Str) (text : Str) : Str :=
  let safe := text.takeWhile (· ∉ unsafeChars)
  match _hrest : text.dropWhile (· ∉ unsafeChars) with
  | [] => safe
  | ch :: rest => safe ++ entity ch ++ (if rest = [] then [] else printUnsafe unsafeChars rest)
termination_by text.length
decreasing_by
  have h := (List.dropWhile_suffix (l := text) (· ∉ unsafeChars)).length_le
  rw [_hrest, List.length_cons] at h
  omega

/-- `PrintQuotedValue`. -/
def printQuotedValue (text : Str) : Str := printUnsafe [60, 62, 38, 34] text

/-- `PrintBodyText`. -/
def printBodyText (text : Str) : Str := printUnsafe [60, 62, 38] text

/-- The definition an attribute is, if it is one. -/
def declareAttr (s : XmlnsStack) (pattr : XmlAttr) : XmlnsStack :=
  if pattr.name = qnXmlns then s.addXmlns [] pattr.value
  else if pattr.name.ns = nsXmlns then s.addXmlns pattr.name.localPart pattr.value
  else s

/-- One name that needs a prefix. -/
def addName (ns : Str) (isAttr : Bool) (s : XmlnsStack) (newXmlns : List (Str × Str)) :
    Option (XmlnsStack × List (Str × Str)) := do
  let (pfx, s) ← s.addNewPrefix ns isAttr
  match pfx with
  | some pfx => return (s, newXmlns ++ [(pfx, ns)])
  | none => return (s, newXmlns)

/-- The first half of `PrintElement`: the definitions the attributes make, and those that the
names still need. -/
def declare (name : QName) (attrs : List XmlAttr) (s : XmlnsStack) :
    Option (XmlnsStack × List (Str × Str)) := do
  let s := attrs.foldl declareAttr s.pushFrame
  let found ← addName name.ns false s []
  attrs.foldlM (fun found pattr => addName pattr.name.ns true found.1 found.2) found

/-- The name and the attributes, and the extra definitions. -/
def printTag (name : QName) (attrs : List XmlAttr) (newXmlns : List (Str × Str))
    (s : XmlnsStack) : Str :=
  text ['<'] ++ s.formatQName name false
    ++ attrs.flatMap (fun pattr => text [' '] ++ s.formatQName pattr.name true ++ text ['=', '\"']
      ++ printQuotedValue pattr.value ++ text ['\"'])
    ++ newXmlns.flatMap (fun i =>
      (if i.1 = [] then text [' ', 'x', 'm', 'l', 'n', 's', '=', '\"']
        else text [' ', 'x', 'm', 'l', 'n', 's', ':'] ++ i.1 ++ text ['=', '\"'])
      ++ i.2 ++ text ['\"'])

/-- `PrintElement` for every element among the siblings, and `PrintBodyText` for every text. -/
def printChildren (s : XmlnsStack) : XmlChild → Option (Str × XmlnsStack)
  | .nil => some ([], s)
  | .text t next => do
    let (out, s) ← printChildren s next
    return (printBodyText t ++ out, s)
  | .element name attrs firstChild next => do
    -- The definitions that the tag needs come first, in a frame of their own.
    let (s, newXmlns) ← declare name attrs s
    let tag := printTag name attrs newXmlns s
    let (element, s) ←
      -- An element without a child is closed by its own tag.
      match firstChild with
      | .nil => some (tag ++ text ['/', '>'], s)
      | firstChild =>
        (printChildren s firstChild).map fun (inside, s) =>
          (tag ++ text ['>'] ++ inside ++ text ['<', '/'] ++ s.formatQName name false
            ++ text ['>'], s)
    let s ← s.popFrame
    let (out, s) ← printChildren s next
    return (element ++ out, s)

/-- `PrintElement`. -/
def printElement (element : XmlElement) (s : XmlnsStack) : Option (Str × XmlnsStack) :=
  printChildren s (.element element.name element.attrs element.firstChild .nil)

/-- `PrintXml`, with the definitions it is given. -/
def printXml (element : XmlElement) (xmlns : List (Str × Str)) : Option Str :=
  (printElement element (xmlns.foldl (fun s d => s.addXmlns d.1 d.2) XmlnsStack.new)).map Prod.fst

/-- `Str`. -/
def XmlElement.str (el : XmlElement) : Option Str := printXml el []

end Mylib.Spec.Xmpp
