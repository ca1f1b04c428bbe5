import Mylib.Lib.CString
import Mylib.Spec.Base.Values

/-!
# `Mylib.Spec.Base.JsonReader`: the JSON parser

The reading half of `JsonValueSerializer`, `base/logic/json_serializer.cc`. The
parser walks a zero-terminated wide text through pointers and has no end pointer.
A pointer is the text from it to the terminator, and every read and every move is
checked (`Mylib.Lib.CString`): a result `.ok` says that the call returned and
stayed inside the text.

A token under construction is its `begin` and its `length`. `int` counts
characters of one text, which `UTF8ToWide` keeps below `2 ^ 31`
(`utf8ToWide_length_lt`), so it is a `Nat`. A null `Value*` is `none`. The class's
members are the fields of `JsonValueSerializer`, passed along as `self`.

The text is converted by `StringConversions.utf8ToWide`, without the 32-bit sums of
`Mylib.Spec.Base.Utf8Reader`. Up to `2 ^ 31 - 6` bytes the two agree
(`Utf8.utf8ToWide_of_short`), and so do they on longer texts wherever no sum overflows
(`Utf8.utf8ToWide_refines`).
-/

set_option autoImplicit false

namespace Mylib.Spec.Base

open Mylib.Lib.CString

/-- `ParseError`. -/
inductive ParseError where
  | noError
  | badRootElementType
  | invalidEscape
  | syntaxError
  | trailingComma
  | tooMuchNesting
  | unexpectedDataAfterRoot
  | unsupportedEncoding
  | unquotedDictionaryKey
  deriving DecidableEq, Repr

/-- `Token::Type`. -/
inductive TokenType where
  | string
  | number
  | boolTrue
  | boolFalse
  | nullToken
  | listSeparator
  | objectPairSeparator
  | objectBegin
  | objectEnd
  | arrayBegin
  | arrayEnd
  | endOfInput
  | invalidToken
  deriving DecidableEq, Repr

/-- `Token`, with `none` for a null `begin`. -/
structure Token where
  type : TokenType
  begin : Option WString
  length : Nat
  deriving DecidableEq, Repr

/-- The members of `JsonValueSerializer` the parser uses. -/
structure JsonValueSerializer where
  startPos : WString
  jsonPos : WString
  stackDepth : Nat
  allowTrailingComma : Bool
  errorCode : ParseError
  errorLine : Nat
  errorCol : Nat
  deriving DecidableEq, Repr

namespace JsonValueSerializer

def kInvalidToken : Token := ⟨.invalidToken, none, 0⟩

def kStackLimit : Nat := 100

/-- A wide string literal of the source. -/
def wide (cs : List Char) : WString := cs.map Char.toNat

/-! ### Characters -/

def isDigit (c : WChar) : Bool := '0'.toNat ≤ c && c ≤ '9'.toNat

def isHexDigit (c : WChar) : Bool :=
  isDigit c || ('a'.toNat ≤ c && c ≤ 'f'.toNat) || ('A'.toNat ≤ c && c ≤ 'F'.toNat)

/-- `HexToInt`. -/
def hexToInt (c : WChar) : Nat :=
  if '0'.toNat ≤ c ∧ c ≤ '9'.toNat then c - '0'.toNat
  else if 'A'.toNat ≤ c ∧ c ≤ 'F'.toNat then c - 'A'.toNat + 10
  else if 'a'.toNat ≤ c ∧ c ≤ 'f'.toNat then c - 'a'.toNat + 10
  else 0

/-- The tokens of one character. -/
def punctuator (c : WChar) : Option TokenType :=
  if c = '['.toNat then some .arrayBegin
  else if c = ']'.toNat then some .arrayEnd
  else if c = ','.toNat then some .listSeparator
  else if c = '{'.toNat then some .objectBegin
  else if c = '}'.toNat then some .objectEnd
  else if c = ':'.toNat then some .objectPairSeparator
  else none

/-! ### Whitespace and comments -/

/-- The loop of `EatComment` behind `//`. -/
def eatLineComment (p : WString) : Except Fault WString := do
  let c ← deref p 0
  if c = 0 then return p
  else
    let ⟨q, _⟩ ← next p
    if c = '\n'.toNat ∨ c = '\r'.toNat then return q else eatLineComment q
termination_by p.length

/-- The loop of `EatComment` behind `/*`. -/
def eatBlockComment (p : WString) : Except Fault WString := do
  let c ← deref p 0
  if c = 0 then return p
  else
    let c' ← if c = '*'.toNat then deref p 1 else pure 0
    if c' = '/'.toNat then advance p 2
    else
      let ⟨q, _⟩ ← next p
      eatBlockComment q
termination_by p.length

/-- `EatComment`: whether there was one, and `json_pos_` after it. -/
def eatComment (p : WString) : Except Fault (Bool × WString) := do
  let c ← deref p 0
  if c ≠ '/'.toNat then return (false, p)
  else
    let nextChar ← deref p 1
    if nextChar = '/'.toNat then
      let q ← advance p 2
      return (true, ← eatLineComment q)
    else if nextChar = '*'.toNat then
      let q ← advance p 2
      return (true, ← eatBlockComment q)
    else return (false, p)

/-- `EatWhitesspaceAndComments`: `json_pos_` after it. -/
def eatWhitesspaceAndComments (p : WString) : Except Fault WString := do
  let c ← deref p 0
  if c = ' '.toNat ∨ c = '\n'.toNat ∨ c = '\r'.toNat ∨ c = '\t'.toNat then
    let ⟨q, _⟩ ← next p
    eatWhitesspaceAndComments q
  else if c = '/'.toNat then
    let (eaten, q) ← eatComment p
    if !eaten then return q
    else if _ : q.length < p.length then eatWhitesspaceAndComments q
    else .error .stall
  else return p
termination_by p.length

/-! ### Tokens -/

/-- `NextStringMatch` from the index `i` of the string on. -/
def nextStringMatch (p : WString) (i : Nat) : WString → Except Fault Bool
  | [] => return true
  | s :: str => do
    let c₀ ← deref p 0
    if c₀ = 0 then return false
    else
      let c ← deref p i
      if c ≠ s then return false else nextStringMatch p (i + 1) str

/-- The loop of `ReadInt`: the length of the token after it. -/
def readDigits (p : WString) (length : Nat) : Except Fault Nat := do
  let ⟨c, hc⟩ ← charAt p length
  if _ : isDigit c then readDigits p (length + 1) else return length
termination_by p.length - length
decreasing_by
  have hne : c ≠ 0 := by
    rintro rfl
    contradiction
  have := hc hne
  omega

/-- `ReadInt`: whether there is an integer, and the length of the token after it. -/
def readInt (p : WString) (length : Nat) (canHaveLeadingZeros : Bool) :
    Except Fault (Bool × Nat) := do
  let first ← deref p length
  let stop ← readDigits p length
  let len := stop - length
  if len = 0 then return (false, stop)
  else if !canHaveLeadingZeros && 1 < len && first = '0'.toNat then return (false, stop)
  else return (true, stop)

/-- `ReadHexDigits` from its index `i` on. On `true` the token grows by `digits`. -/
def readHexDigits (p : WString) (length i : Nat) : (digits : Nat) → Except Fault Bool
  | 0 => return true
  | digits + 1 => do
    let c ← deref p (length + i)
    if c = 0 then return false
    else if !isHexDigit c then return false
    else readHexDigits p length (i + 1) digits

/-- The fraction part of `ParseNumberToken`. -/
def readFraction (p : WString) (length : Nat) : Except Fault (Bool × Nat) := do
  let c ← deref p length
  if c = '.'.toNat then readInt p (length + 1) true else return (true, length)

/-- The exponent part of `ParseNumberToken`. -/
def readExponent (p : WString) (length : Nat) : Except Fault (Bool × Nat) := do
  let c ← deref p length
  if c = 'e'.toNat ∨ c = 'E'.toNat then
    let c ← deref p (length + 1)
    if c = '-'.toNat ∨ c = '+'.toNat then
      let _ ← deref p (length + 2)
      readInt p (length + 2) true
    else readInt p (length + 1) true
  else return (true, length)

/-- `ParseNumberToken` at `json_pos_ = p`. -/
def parseNumberToken (p : WString) : Except Fault Token := do
  let c ← deref p 0
  let length ← if c = '-'.toNat then deref p 1 >>= fun _ => pure 1 else pure 0
  let (whole, length) ← readInt p length false
  if !whole then return kInvalidToken
  else
    let (fraction, length) ← readFraction p length
    if !fraction then return kInvalidToken
    else
      let (exponent, length) ← readExponent p length
      if !exponent then return kInvalidToken
      else return ⟨.number, some p, length⟩

/-- The `switch` on an escaped character: how many hex digits must follow it,
`none` for the `default`. -/
def escapeDigits (c : WChar) : Option Nat :=
  if c = 'x'.toNat then some 2
  else if c = 'u'.toNat then some 4
  else if c ∈ wide ['\\', '/', 'b', 'f', 'n', 'r', 't', 'v', '"'] then some 0
  else none

/-- How the loop of `ParseStringToken` ends. -/
inductive StringScan where
  | closed (length : Nat)
  | invalidEscape (length : Nat)
  | unterminated
  deriving DecidableEq, Repr

/-- The loop of `ParseStringToken`. -/
def scanString (p : WString) (length : Nat) : Except Fault StringScan := do
  let ⟨c, hc⟩ ← charAt p length
  if hne : c = 0 then return .unterminated
  else if c = '\\'.toNat then
    let e ← deref p (length + 1)
    match escapeDigits e with
    | none => return .invalidEscape (length + 1)
    | some digits =>
      if ← readHexDigits p (length + 1) 1 digits then scanString p (length + 1 + digits + 1)
      else return .invalidEscape (length + 1)
  else if c = '"'.toNat then return .closed (length + 1)
  else scanString p (length + 1)
termination_by p.length - length
decreasing_by
  all_goals
    have := hc hne
    omega

/-- The loop of `SetErrorCode`: the line and the column of `errorPos`, `none` when
the terminator comes first. -/
def errorPosition (pos errorPos : WString) (line col : Nat) :
    Except Fault (Option (Nat × Nat)) :=
  if pos = errorPos then return some (line, col)
  else do
    let c ← deref pos 0
    if c = 0 then return none
    else
      let ⟨q, _⟩ ← next pos
      if c = '\n'.toNat then errorPosition q errorPos (line + 1) 1
      else errorPosition q errorPos line (col + 1)
termination_by pos.length

/-- `SetErrorCode`. -/
def setErrorCode (self : JsonValueSerializer) (error : ParseError) (errorPos : WString) :
    Except Fault JsonValueSerializer := do
  match ← errorPosition self.startPos errorPos 1 1 with
  | none => return self
  | some (line, col) =>
    return { self with errorLine := line, errorCol := col, errorCode := error }

/-- `ParseStringToken`. -/
def parseStringToken (self : JsonValueSerializer) :
    Except Fault (Token × JsonValueSerializer) := do
  match ← scanString self.jsonPos 1 with
  | .closed length => return (⟨.string, some self.jsonPos, length⟩, self)
  | .invalidEscape length =>
    let errorPos ← advance self.jsonPos length
    return (kInvalidToken, ← self.setErrorCode .invalidEscape errorPos)
  | .unterminated => return (kInvalidToken, self)

/-- The token for a keyword whose first letter has been seen. -/
def keywordToken (p : WString) (keyword : WString) (type : TokenType) :
    Except Fault Token := do
  if ← nextStringMatch p 0 keyword then return ⟨type, some p, keyword.length⟩
  else return kInvalidToken

/-- `ParseToken`. -/
def parseToken (self : JsonValueSerializer) : Except Fault (Token × JsonValueSerializer) := do
  let p ← eatWhitesspaceAndComments self.jsonPos
  let self := { self with jsonPos := p }
  let c ← deref p 0
  if c = 0 then return (⟨.endOfInput, none, 0⟩, self)
  -- A keyword is told by its first letter, and the rest has to match.
  else if c = 'n'.toNat then
    return (← keywordToken p (wide ['n', 'u', 'l', 'l']) .nullToken, self)
  else if c = 't'.toNat then
    return (← keywordToken p (wide ['t', 'r', 'u', 'e']) .boolTrue, self)
  else if c = 'f'.toNat then
    return (← keywordToken p (wide ['f', 'a', 'l', 's', 'e']) .boolFalse, self)
  else if isDigit c ∨ c = '-'.toNat then return (← parseNumberToken p, self)
  else if c = '"'.toNat then self.parseStringToken
  else
    match punctuator c with
    | some type => return (⟨type, some p, 1⟩, self)
    | none => return (kInvalidToken, self)

/-! ### Scalars -/

section

variable {D : Type} (F : Doubles D)

/-- `DecodeNumber`. -/
def decodeNumber (token : Token) : Except Fault (Option (Value D)) := do
  match token.begin with
  | none => .error .null
  | some p =>
    let numWString ← copy p token.length
    let numString := StringConversions.wideToASCII numWString
    match StringUtil.stringToInt64 numString with
    | some n => return some (.bigInteger n)
    | none =>
      match StringUtil.stringToDouble F numString with
      | some d => return if F.finite d then some (.real d) else none
      | none => return none

/-- The escapes of `DecodeString` that stand for one character. -/
def unescape (c : WChar) : Option WChar :=
  if c ∈ wide ['"', '/', '\\'] then some c
  else if c = 'b'.toNat then some 0x08
  else if c = 'f'.toNat then some 0x0C
  else if c = 'n'.toNat then some 0x0A
  else if c = 'r'.toNat then some 0x0D
  else if c = 't'.toNat then some 0x09
  else if c = 'v'.toNat then some 0x0B
  else none

/-- The loop of `DecodeString` from its index `i` on. -/
def decodeChars (p : WString) (length i : Nat) (decodedStr : WString) :
    Except Fault (Option WString) :=
  if _ : i < length - 1 then do
    let c ← deref p i
    if c = '\\'.toNat then
      let e ← deref p (i + 1)
      -- The scanner has seen the digits, so they are not checked again.
      if e = 'x'.toNat then
        let h₁ := hexToInt (← deref p (i + 2))
        let h₂ := hexToInt (← deref p (i + 3))
        decodeChars p length (i + 4) (decodedStr ++ [h₁ * 16 + h₂])
      else if e = 'u'.toNat then
        let h₁ := hexToInt (← deref p (i + 2))
        let h₂ := hexToInt (← deref p (i + 3))
        let h₃ := hexToInt (← deref p (i + 4))
        let h₄ := hexToInt (← deref p (i + 5))
        decodeChars p length (i + 6)
          (decodedStr ++ [h₁ * 4096 + h₂ * 256 + h₃ * 16 + h₄])
      else
        match unescape e with
        | some d => decodeChars p length (i + 2) (decodedStr ++ [d])
        | none => return none
    else decodeChars p length (i + 1) (decodedStr ++ [c])
  else return some decodedStr
termination_by length - i

/-- `DecodeString`. -/
def decodeString (token : Token) : Except Fault (Option (Value D)) := do
  match token.begin with
  | none => .error .null
  | some p =>
    let decodedStr ← decodeChars p token.length 1 []
    return decodedStr.map Value.createStringValue

/-! ### Values -/

/-- `json_pos_ += token.length`. -/
def skip (self : JsonValueSerializer) (token : Token) : Except Fault JsonValueSerializer := do
  return { self with jsonPos := ← advance self.jsonPos token.length }

/-- What comes behind an item of a container. -/
inductive AfterItem where
  | bad
  | closed (token : Token)
  | more (token : Token)

/-- The part of the two container loops behind an item: the container's end, or a
comma with the next item or with the end. -/
def afterItem (self : JsonValueSerializer) (closing : TokenType) :
    Except Fault (AfterItem × JsonValueSerializer) := do
  let (token, self) ← self.parseToken
  if token.type = .listSeparator then
    let self ← self.skip token
    let (token, self) ← self.parseToken
    if token.type = closing then
      if !self.allowTrailingComma then
        return (.bad, ← self.setErrorCode .trailingComma self.jsonPos)
      else return (.closed token, self)
    else return (.more token, self)
  else if token.type = closing then return (.closed token, self)
  else return (.bad, self)

/-- The `while` loop for an array. `token` is the token at `json_pos_`, and
`buildValue` is the recursive call. The result holds the items and the token the
loop ended at. -/
def arrayLoop
    (buildValue : JsonValueSerializer → Except Fault (Option (Value D) × JsonValueSerializer))
    (self : JsonValueSerializer) (token : Token) (node : List (Value D)) :
    Except Fault (Option (List (Value D) × Token) × JsonValueSerializer) :=
  if token.type = .arrayEnd then return (some (node, token), self)
  else do
    let (arrayNode, s₁) ← buildValue self
    match arrayNode with
    | none => return (none, s₁)
    | some value =>
      let (after, s₂) ← s₁.afterItem .arrayEnd
      match after with
      -- What follows the item neither goes on with the list nor ends it.
      | .bad => return (none, s₂)
      | .closed token => return (some (node ++ [value], token), s₂)
      | .more token =>
        -- Every round passes an item, so the text gets shorter.
        if _ : s₂.jsonPos.length < self.jsonPos.length then
          arrayLoop buildValue s₂ token (node ++ [value])
        else .error .stall
termination_by self.jsonPos.length

/-- The key and the colon in the loop for an object: the key, or `none` where the
source returns `NULL`. -/
def readKey (self : JsonValueSerializer) (token : Token) :
    Except Fault (Option WString × JsonValueSerializer) := do
  if token.type ≠ .string then
    return (none, ← self.setErrorCode .unquotedDictionaryKey self.jsonPos)
  else
    match ← decodeString (D := D) token with
    | none => return (none, self)
    | some dictKeyValue =>
      let dictKey := dictKeyValue.getAsWString.getD []
      let self ← self.skip token
      let (token, self) ← self.parseToken
      -- A missing colon is no recorded error.
      if token.type ≠ .objectPairSeparator then return (none, self)
      else
        let self ← self.skip token
        let (_, self) ← self.parseToken
        return (some dictKey, self)

/-- The `while` loop for an object. -/
def objectLoop
    (buildValue : JsonValueSerializer → Except Fault (Option (Value D) × JsonValueSerializer))
    (self : JsonValueSerializer) (token : Token) (node : List (WString × Value D)) :
    Except Fault (Option (List (WString × Value D) × Token) × JsonValueSerializer) :=
  if token.type = .objectEnd then return (some (node, token), self)
  else do
    let (dictKey, s₁) ← readKey (D := D) self token
    match dictKey with
    | none => return (none, s₁)
    | some key =>
      let (dictValue, s₂) ← buildValue s₁
      match dictValue with
      | none => return (none, s₂)
      | some value =>
        let node := Value.setWithoutPathExpansion key value node
        let (after, s₃) ← s₂.afterItem .objectEnd
        match after with
        | .bad => return (none, s₃)
        | .closed token => return (some (node, token), s₃)
        | .more token =>
          if _ : s₃.jsonPos.length < self.jsonPos.length then
            objectLoop buildValue s₃ token node
          else .error .stall
termination_by self.jsonPos.length

/-- The end of `BuildValue`: `token` is skipped and the level left. -/
def finish (self : JsonValueSerializer) (token : Token) (node : Option (Value D)) :
    Except Fault (Option (Value D) × JsonValueSerializer) := do
  match node with
  | none => return (none, self)
  | some value =>
    let self ← self.skip token
    return (some value, { self with stackDepth := self.stackDepth - 1 })

/-- `BuildValue`. The first argument bounds the depth of the recursion, which
`stack_depth_` keeps below it. -/
def buildValue : Nat → Bool → JsonValueSerializer →
    Except Fault (Option (Value D) × JsonValueSerializer)
  | 0, _, _ => .error .stall
  | levels + 1, isRoot, self => do
    let self := { self with stackDepth := self.stackDepth + 1 }
    -- This exit and all others with `NULL` leave `stack_depth_` as it is.
    if kStackLimit < self.stackDepth then return (none, self)
    else
      let (token, self) ← self.parseToken
      if isRoot ∧ token.type ≠ .objectBegin ∧ token.type ≠ .arrayBegin then
        return (none, ← self.setErrorCode .badRootElementType self.jsonPos)
      else
        match token.type with
        | .nullToken => self.finish token (some .null)
        | .boolTrue => self.finish token (some (.boolean true))
        | .boolFalse => self.finish token (some (.boolean false))
        | .number => self.finish token (← decodeNumber F token)
        | .string => self.finish token (← decodeString token)
        | .arrayBegin =>
          let self ← self.skip token
          let (token, self) ← self.parseToken
          let (node, self) ← arrayLoop (buildValue levels false) self token []
          match node with
          | none => return (none, self)
          | some (items, token) => self.finish token (some (.list items))
        | .objectBegin =>
          let self ← self.skip token
          let (token, self) ← self.parseToken
          let (node, self) ← objectLoop (buildValue levels false) self token []
          match node with
          | none => return (none, self)
          | some (entries, token) => self.finish token (some (.dictionary entries))
        | _ => return (none, self)

/-- The two calls of `Deserialize`: `BuildValue(true)` and the `END_OF_INPUT`
check. The flag says that both succeeded. -/
def parseRoot (self : JsonValueSerializer) :
    Except Fault (Option (Value D) × Bool × JsonValueSerializer) := do
  let (root, self) ← buildValue F (kStackLimit + 1) true self
  match root with
  | none => return (none, false, self)
  | some value =>
    let (token, self) ← self.parseToken
    if token.type = .endOfInput then return (some value, true, self)
    else
      let self ← self.setErrorCode .unexpectedDataAfterRoot self.jsonPos
      return (some value, false, self)

/-- The assignments of `Deserialize` before the first call, with `start_pos_` at
`text`. -/
def start (self : JsonValueSerializer) (text : WString) : JsonValueSerializer :=
  { self with startPos := text, jsonPos := text, allowTrailingComma := true, stackDepth := 0,
              errorCode := .noError }

/-- `Deserialize` behind `UTF8ToWide`: the root, and what `*error_code` is set to
(`none` when it is left as it was). `c_str()` ends at the first zero, and a leading
byte order mark is skipped. -/
def deserializeWide (self : JsonValueSerializer) (jsonWide : WString) :
    Except Fault ((Option (Value D) × Option ParseError) × JsonValueSerializer) := do
  let cStr := jsonWide.takeWhile (· ≠ 0)
  let first ← deref cStr 0
  let text ← if !jsonWide.isEmpty && first = 0xFEFF then advance cStr 1 else pure cStr
  let (root, success, self) ← parseRoot F (self.start text)
  return ((root, if success then none else some self.errorCode), self)

/-- `Deserialize`. -/
def deserialize (self : JsonValueSerializer) (str : Str) :
    Except Fault ((Option (Value D) × Option ParseError) × JsonValueSerializer) :=
  deserializeWide F self (StringConversions.utf8ToWide str)

end

end JsonValueSerializer

end Mylib.Spec.Base
