import Mylib.Spec.Base.StringUtil

/-!
# `Mylib.Spec.Xmpp.XmlnsStack`: the namespaces in scope

`public/xmpp/xmlnsstack.cc`, with the names of `qname.h` and the constants of
`xmlconstants.cc`. The vector of strings, in which every second one is a namespace, is a list of
pairs here. A prefix found is an `Option`, where the source returns a pointer or a pair with a
flag. `none` of `popFrame` is undefined behaviour: `back` of an empty vector.
-/

set_option autoImplicit false

namespace Mylib.Spec.Xmpp

open Mylib.Spec.Base (Str)
open Mylib.Spec.Base.StringUtil (text decimal)

/-! ### Names -/

/-- `QName`: the strings its data holds, by which names are compared. -/
structure QName where
  /-- `Namespace()`. -/
  ns : Str
  /-- `LocalPart()`. -/
  localPart : Str
  deriving DecidableEq, Repr

/-- `STR_XML`. -/
def strXml : Str := text ['x', 'm', 'l']

/-- `STR_XMLNS`. -/
def strXmlns : Str := text ['x', 'm', 'l', 'n', 's']

/-- `NS_XML`. -/
def nsXml : Str :=
  text ['h', 't', 't', 'p', ':', '/', '/', 'w', 'w', 'w', '.', 'w', '3', '.', 'o', 'r', 'g', '/',
    'X', 'M', 'L', '/', '1', '9', '9', '8', '/', 'n', 'a', 'm', 'e', 's', 'p', 'a', 'c', 'e']

/-- `NS_XMLNS`. -/
def nsXmlns : Str :=
  text ['h', 't', 't', 'p', ':', '/', '/', 'w', 'w', 'w', '.', 'w', '3', '.', 'o', 'r', 'g', '/',
    '2', '0', '0', '0', '/', 'x', 'm', 'l', 'n', 's', '/']

/-- `QN_EMPTY`. -/
def qnEmpty : QName := ⟨[], []⟩

/-- `QN_XMLNS`. -/
def qnXmlns : QName := ⟨[], strXmlns⟩

/-- The colon between a prefix and a local name. -/
def colon : UInt8 := 58

/-! ### The stack -/

/-- `XmlnsStack`. -/
structure XmlnsStack where
  /-- Prefixes and namespaces, the last ones added at the end. -/
  pxmlnsStack : List (Str × Str)
  pxmlnsDepthStack : List Nat
  deriving DecidableEq, Repr

namespace XmlnsStack

/-- The constructor. -/
def new : XmlnsStack := ⟨[], []⟩

def pushFrame (s : XmlnsStack) : XmlnsStack :=
  { s with pxmlnsDepthStack := s.pxmlnsDepthStack ++ [s.pxmlnsStack.length] }

def popFrame (s : XmlnsStack) : Option XmlnsStack :=
  match s.pxmlnsDepthStack.getLast? with
  | none => none
  | some prevSize =>
    some ⟨if prevSize < s.pxmlnsStack.length then s.pxmlnsStack.take prevSize else s.pxmlnsStack,
      s.pxmlnsDepthStack.dropLast⟩

/-- A prefix that begins with `xml`, in any case. -/
def startsWithXml : Str → Bool
  | a :: b :: c :: _ => (a == 120 || a == 88) && (b == 109 || b == 77) && (c == 108 || c == 76)
  | _ => false

def nsForPrefix (pfx : Str) (s : XmlnsStack) : Option Str :=
  if startsWithXml pfx then
    if pfx = strXml then some nsXml
    else if pfx = strXmlns then some nsXmlns
    else none
  else
    match s.pxmlnsStack.reverse.find? (fun pos => pos.1 = pfx) with
    | some pos => some pos.2
    | none => if pfx = [] then some [] else none

def prefixMatchesNs (pfx ns : Str) (s : XmlnsStack) : Bool :=
  match s.nsForPrefix pfx with
  | none => false
  | some found => found = ns

def prefixForNs (ns : Str) (isattr : Bool) (s : XmlnsStack) : Option Str :=
  if ns = nsXml then some strXml
  else if ns = nsXmlns then some strXmlns
  else if (if isattr then ns = [] else s.prefixMatchesNs [] ns) then some []
  else
    (s.pxmlnsStack.reverse.find? fun pos =>
      pos.2 = ns && (!isattr || !pos.1.isEmpty) && s.prefixMatchesNs pos.1 ns).map Prod.fst

def formatQName (name : QName) (isAttr : Bool) (s : XmlnsStack) : Str :=
  match (s.prefixForNs name.ns isAttr).getD [] with
  | [] => name.localPart
  | pfx => pfx ++ colon :: name.localPart

def addXmlns (pfx ns : Str) (s : XmlnsStack) : XmlnsStack :=
  { s with pxmlnsStack := s.pxmlnsStack ++ [(pfx, ns)] }

/-! ### New prefixes -/

def isAsciiLetter (ch : UInt8) : Bool :=
  (97 ≤ ch && ch ≤ 122) || (65 ≤ ch && ch ≤ 90)

def asciiLower (s : Str) : Str := s.map fun ch => if 65 ≤ ch && ch ≤ 90 then ch + 32 else ch

/-- The namespace without an ending such as `.html`, up to four characters behind the dot. -/
def chopEnding (ns : Str) : Str :=
  match ns.reverse.idxOf? 46 with
  | some behind => if behind + 1 ≤ 4 + 1 then ns.take (ns.length - 1 - behind) else ns
  | none => ns

/-- `SuggestPrefix`: the last run of letters, or three of them. The two loops go back from the
end, so they are here on the reversed string. -/
def suggestPrefix (ns : Str) : Str :=
  let run :=
    (((chopEnding ns).reverse.dropWhile (!isAsciiLetter ·)).takeWhile isAsciiLetter).reverse
  let candidate := asciiLower (if run.length > 4 then run.take 3 else run)
  if run ≠ [] ∧ ¬ strXml <+: candidate then candidate else text ['n', 's']

/-- The loop for a prefix that is free, in at most `fuel` rounds. The counter is an `int` in the
source. It comes at most to the number of definitions and 2, so it does not overflow below
`2 ^ 31 - 2` definitions. -/
def freePrefix (s : XmlnsStack) (base : Str) : Nat → Str → Nat → Option Str
  | 0, _, _ => none
  | fuel + 1, result, i =>
    if s.nsForPrefix result ≠ none then freePrefix s base fuel (base ++ decimal i) (i + 1)
    else some result

/-- `AddNewPrefix`. Every round of its loop meets another prefix that is in use, so there are
at most as many as prefixes. -/
def addNewPrefix (ns : Str) (isAttr : Bool) (s : XmlnsStack) : Option (Option Str × XmlnsStack) :=
  if (s.prefixForNs ns isAttr).isSome then some (none, s)
  else
    let base := suggestPrefix ns
    match freePrefix s base (s.pxmlnsStack.length + 1) base 2 with
    | none => none
    | some result => some (some result, s.addXmlns result ns)

end XmlnsStack

end Mylib.Spec.Xmpp
