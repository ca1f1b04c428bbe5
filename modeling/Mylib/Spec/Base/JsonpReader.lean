import Mylib.Spec.Base.JsonReader

/-!
# `Mylib.Spec.Base.JsonpReader`: the JSONP parser

The reading half of `JsonpValueSerializer`, `base/logic/jsonp_serializer.cc`. The
class holds a parser of its own for JSON texts, embedded here function by function
from its own file. Pointers, tokens and null results are as in
`Mylib.Spec.Base.JsonReader`; the tokens, the character classes and the ways a loop
can end are taken from there. So is the conversion of the text, which is right up to
`2 ^ 31 - 6` bytes (`Utf8.utf8ToWide_of_short`, `Utf8.utf8ToWide_refines`).
-/

set_option autoImplicit false

namespace Mylib.Spec.Base

open Mylib.Lib.CString

/-- The members of `JsonpValueSerializer` the parser uses. -/
structure JsonpValueSerializer where
  startPos : WString
  jsonpPos : WString
  stackDepth : Nat
  allowTrailingComma : Bool
  errorCode : ParseError
  errorLine : Nat
  errorCol : Nat
  deriving DecidableEq, Repr

namespace JsonpValueSerializer

open JsonValueSerializer (wide isDigit isHexDigit StringScan AfterItem)

def kInvalidToken : Token := ⟨.invalidToken, none, 0⟩

def kStackLimit : Nat := 100

/-- `HexToInt`. -/
def hexToInt (c : WChar) : Nat :=
  if '0'.toNat ≤ c ∧ c ≤ '9'.toNat then c - '0'.toNat
  else if 'A'.toNat ≤ c ∧ c ≤ 'F'.toNat then c - 'A'.toNat + 10
  else if 'a'.toNat ≤ c ∧ c ≤ 'f'.toNat then c - 'a'.toNat + 10
  else 0

/-- The tokens of one character. -/
def punctuator (c : WChar) : Option TokenType :=
  if c = '['.toNat then some .arrayBegin
  else if c = ']'.toNat then some .arrayEnd
  else if c = ','.toNat then some .listSeparator
  else if c = '{'.toNat then some .objectBegin
  else if c = '}'.toNat then some .objectEnd
  else if c = ':'.toNat then some .objectPairSeparator
  else none

/-! ### Whitespace and comments -/

/-- The loop of `EatComment` behind `//`. -/
def eatLineComment (p : WString) : Except Fault WString := do
  let c ← deref p 0
  if c = 0 then return p
  else
    let ⟨q, _⟩ ← next p
    if c = '\n'.toNat ∨ c = '\r'.toNat then return q else eatLineComment q
termination_by p.length

/-- The loop of `EatComment` behind `/*`. -/
def eatBlockComment (p : WString) : Except Fault WString := do
  let c ← deref p 0
  if c = 0 then return p
  else
    let c' ← if c = '*'.toNat then deref p 1 else pure 0
    if c' = '/'.toNat then advance p 2
    else
      let ⟨q, _⟩ ← next p
      eatBlockComment q
termination_by p.length

/-- `EatComment`: whether there was one, and `jsonp_pos_` after it. -/
def eatComment (p : WString) : Except Fault (Bool × WString) := do
  let c ← deref p 0
  if c ≠ '/'.toNat then return (false, p)
  else
    let nextChar ← deref p 1
    if nextChar = '/'.toNat then
      let q ← advance p 2
      return (true, ← eatLineComment q)
    else if nextChar = '*'.toNat then
      let q ← advance p 2
      return (true, ← eatBlockComment q)
    else return (false, p)

/-- `EatWhitesspaceAndComments`: `jsonp_pos_` after it. -/
def eatWhitesspaceAndComments (p : WString) : Except Fault WString := do
  let c ← deref p 0
  if c = ' '.toNat ∨ c = '\n'.toNat ∨ c = '\r'.toNat ∨ c = '\t'.toNat then
    let ⟨q, _⟩ ← next p
    eatWhitesspaceAndComments q
  else if c = '/'.toNat then
    let (eaten, q) ← eatComment p
    if !eaten then return q
    else if _ : q.length < p.length then eatWhitesspaceAndComments q
    else .error .stall
  else return p
termination_by p.length

/-! ### Tokens -/

/-- `NextStringMatch` from the index `i` of the string on. -/
def nextStringMatch (p : WString) (i : Nat) : WString → Except Fault Bool
  | [] => return true
  | s :: str => do
    let c₀ ← deref p 0
    if c₀ = 0 then return false
    else
      let c ← deref p i
      if c ≠ s then return false else nextStringMatch p (i + 1) str

/-- The loop of `ReadInt`. -/
def readDigits (p : WString) (length : Nat) : Except Fault Nat := do
  let ⟨c, hc⟩ ← charAt p length
  if _ : isDigit c then readDigits p (length + 1) else return length
termination_by p.length - length
decreasing_by
  have hne : c ≠ 0 := by
    rintro rfl
    contradiction
  have := hc hne
  omega

/-- `ReadInt`: whether there is an integer, and the length of the token after it. -/
def readInt (p : WString) (length : Nat) (canHaveLeadingZeros : Bool) :
    Except Fault (Bool × Nat) := do
  let first ← deref p length
  let stop ← readDigits p length
  let len := stop - length
  if len = 0 then return (false, stop)
  else if !canHaveLeadingZeros && 1 < len && first = '0'.toNat then return (false, stop)
  else return (true, stop)

/-- `ReadHexDigits` from its index `i` on. On `true` the token grows by `digits`. -/
def readHexDigits (p : WString) (length i : Nat) : (digits : Nat) → Except Fault Bool
  | 0 => return true
  | digits + 1 => do
    let c ← deref p (length + i)
    if c = 0 then return false
    else if !isHexDigit c then return false
    else readHexDigits p length (i + 1) digits

/-- The fraction part of `ParseNumberToken`. -/
def readFraction (p : WString) (length : Nat) : Except Fault (Bool × Nat) := do
  let c ← deref p length
  if c = '.'.toNat then readInt p (length + 1) true else return (true, length)

/-- The exponent part of `ParseNumberToken`. -/
def readExponent (p : WString) (length : Nat) : Except Fault (Bool × Nat) := do
  let c ← deref p length
  if c = 'e'.toNat ∨ c = 'E'.toNat then
    let c ← deref p (length + 1)
    if c = '-'.toNat ∨ c = '+'.toNat then
      let _ ← deref p (length + 2)
      readInt p (length + 2) true
    else readInt p (length + 1) true
  else return (true, length)

/-- `ParseNumberToken` at `jsonp_pos_ = p`. -/
def parseNumberToken (p : WString) : Except Fault Token := do
  let c ← deref p 0
  let length ← if c = '-'.toNat then deref p 1 >>= fun _ => pure 1 else pure 0
  let (whole, length) ← readInt p length false
  if !whole then return kInvalidToken
  else
    let (fraction, length) ← readFraction p length
    if !fraction then return kInvalidToken
    else
      let (exponent, length) ← readExponent p length
      if !exponent then return kInvalidToken
      else return ⟨.number, some p, length⟩

/-- The `switch` on an escaped character: the hex digits that must follow it. -/
def escapeDigits (c : WChar) : Option Nat :=
  if c = 'x'.toNat then some 2
  else if c = 'u'.toNat then some 4
  else if c ∈ wide ['\\', '/', 'b', 'f', 'n', 'r', 't', 'v', '"'] then some 0
  else none

/-- The loop of `ParseStringToken`. -/
def scanString (p : WString) (length : Nat) : Except Fault StringScan := do
  let ⟨c, hc⟩ ← charAt p length
  if hne : c = 0 then return .unterminated
  else if c = '\\'.toNat then
    let e ← deref p (length + 1)
    match escapeDigits e with
    | none => return .invalidEscape (length + 1)
    | some digits =>
      if ← readHexDigits p (length + 1) 1 digits then scanString p (length + 1 + digits + 1)
      else return .invalidEscape (length + 1)
  else if c = '"'.toNat then return .closed (length + 1)
  else scanString p (length + 1)
termination_by p.length - length
decreasing_by
  all_goals
    have := hc hne
    omega

/-- The loop of `SetErrorCode`. -/
def errorPosition (pos errorPos : WString) (line col : Nat) :
    Except Fault (Option (Nat × Nat)) :=
  if pos = errorPos then return some (line, col)
  else do
    let c ← deref pos 0
    if c = 0 then return none
    else
      let ⟨q, _⟩ ← next pos
      if c = '\n'.toNat then errorPosition q errorPos (line + 1) 1
      else errorPosition q errorPos line (col + 1)
termination_by pos.length

/-- `SetErrorCode`. -/
def setErrorCode (self : JsonpValueSerializer) (error : ParseError) (errorPos : WString) :
    Except Fault JsonpValueSerializer := do
  match ← errorPosition self.startPos errorPos 1 1 with
  | none => return self
  | some (line, col) =>
    return { self with errorLine := line, errorCol := col, errorCode := error }

/-- `ParseStringToken`. -/
def parseStringToken (self : JsonpValueSerializer) :
    Except Fault (Token × JsonpValueSerializer) := do
  match ← scanString self.jsonpPos 1 with
  | .closed length => return (⟨.string, some self.jsonpPos, length⟩, self)
  | .invalidEscape length =>
    let errorPos ← advance self.jsonpPos length
    return (kInvalidToken, ← self.setErrorCode .invalidEscape errorPos)
  | .unterminated => return (kInvalidToken, self)

/-- The token for a keyword whose first letter has been seen. -/
def keywordToken (p : WString) (keyword : WString) (type : TokenType) :
    Except Fault Token := do
  if ← nextStringMatch p 0 keyword then return ⟨type, some p, keyword.length⟩
  else return kInvalidToken

/-- `ParseToken`. -/
def parseToken (self : JsonpValueSerializer) : Except Fault (Token × JsonpValueSerializer) := do
  let p ← eatWhitesspaceAndComments self.jsonpPos
  let self := { self with jsonpPos := p }
  let c ← deref p 0
  if c = 0 then return (⟨.endOfInput, none, 0⟩, self)
  else if c = 'n'.toNat then
    return (← keywordToken p (wide ['n', 'u', 'l', 'l']) .nullToken, self)
  else if c = 't'.toNat then
    return (← keywordToken p (wide ['t', 'r', 'u', 'e']) .boolTrue, self)
  else if c = 'f'.toNat then
    return (← keywordToken p (wide ['f', 'a', 'l', 's', 'e']) .boolFalse, self)
  else if isDigit c ∨ c = '-'.toNat then return (← parseNumberToken p, self)
  else if c = '"'.toNat then self.parseStringToken
  else
    match punctuator c with
    | some type => return (⟨type, some p, 1⟩, self)
    | none => return (kInvalidToken, self)

/-! ### Scalars -/

section

variable {D : Type} (F : Doubles D)

/-- `DecodeNumber`. -/
def decodeNumber (token : Token) : Except Fault (Option (Value D)) := do
  match token.begin with
  | none => .error .null
  | some p =>
    let numWString ← copy p token.length
    let numString := StringConversions.wideToASCII numWString
    match StringUtil.stringToInt64 numString with
    | some n => return some (.bigInteger n)
    | none =>
      match StringUtil.stringToDouble F numString with
      | some d => return if F.finite d then some (.real d) else none
      | none => return none

/-- The escapes of `DecodeString` that stand for one character. -/
def unescape (c : WChar) : Option WChar :=
  if c ∈ wide ['"', '/', '\\'] then some c
  else if c = 'b'.toNat then some 0x08
  else if c = 'f'.toNat then some 0x0C
  else if c = 'n'.toNat then some 0x0A
  else if c = 'r'.toNat then some 0x0D
  else if c = 't'.toNat then some 0x09
  else if c = 'v'.toNat then some 0x0B
  else none

/-- The loop of `DecodeString` from its index `i` on. -/
def decodeChars (p : WString) (length i : Nat) (decodedStr : WString) :
    Except Fault (Option WString) :=
  if _ : i < length - 1 then do
    let c ← deref p i
    if c = '\\'.toNat then
      let e ← deref p (i + 1)
      if e = 'x'.toNat then
        let h₁ := hexToInt (← deref p (i + 2))
        let h₂ := hexToInt (← deref p (i + 3))
        decodeChars p length (i + 4) (decodedStr ++ [h₁ * 16 + h₂])
      else if e = 'u'.toNat then
        let h₁ := hexToInt (← deref p (i + 2))
        let h₂ := hexToInt (← deref p (i + 3))
        let h₃ := hexToInt (← deref p (i + 4))
        let h₄ := hexToInt (← deref p (i + 5))
        decodeChars p length (i + 6)
          (decodedStr ++ [h₁ * 4096 + h₂ * 256 + h₃ * 16 + h₄])
      else
        match unescape e with
        | some d => decodeChars p length (i + 2) (decodedStr ++ [d])
        | none => return none
    else decodeChars p length (i + 1) (decodedStr ++ [c])
  else return some decodedStr
termination_by length - i

/-- `DecodeString`. -/
def decodeString (token : Token) : Except Fault (Option (Value D)) := do
  match token.begin with
  | none => .error .null
  | some p =>
    let decodedStr ← decodeChars p token.length 1 []
    return decodedStr.map Value.createStringValue

/-! ### Values -/

/-- `jsonp_pos_ += token.length`. -/
def skip (self : JsonpValueSerializer) (token : Token) : Except Fault JsonpValueSerializer := do
  return { self with jsonpPos := ← advance self.jsonpPos token.length }

/-- The part of the two container loops behind an item. -/
def afterItem (self : JsonpValueSerializer) (closing : TokenType) :
    Except Fault (AfterItem × JsonpValueSerializer) := do
  let (token, self) ← self.parseToken
  if token.type = .listSeparator then
    let self ← self.skip token
    let (token, self) ← self.parseToken
    if token.type = closing then
      if !self.allowTrailingComma then
        return (.bad, ← self.setErrorCode .trailingComma self.jsonpPos)
      else return (.closed token, self)
    else return (.more token, self)
  else if token.type = closing then return (.closed token, self)
  else return (.bad, self)

/-- The `while` loop for an array, with `buildValue` for the recursive call. -/
def arrayLoop
    (buildValue : JsonpValueSerializer → Except Fault (Option (Value D) × JsonpValueSerializer))
    (self : JsonpValueSerializer) (token : Token) (node : List (Value D)) :
    Except Fault (Option (List (Value D) × Token) × JsonpValueSerializer) :=
  if token.type = .arrayEnd then return (some (node, token), self)
  else do
    let (arrayNode, s₁) ← buildValue self
    match arrayNode with
    | none => return (none, s₁)
    | some value =>
      let (after, s₂) ← s₁.afterItem .arrayEnd
      match after with
      | .bad => return (none, s₂)
      | .closed token => return (some (node ++ [value], token), s₂)
      | .more token =>
        if _ : s₂.jsonpPos.length < self.jsonpPos.length then
          arrayLoop buildValue s₂ token (node ++ [value])
        else .error .stall
termination_by self.jsonpPos.length

/-- The key and the colon in the loop for an object. -/
def readKey (self : JsonpValueSerializer) (token : Token) :
    Except Fault (Option WString × JsonpValueSerializer) := do
  if token.type ≠ .string then
    return (none, ← self.setErrorCode .unquotedDictionaryKey self.jsonpPos)
  else
    match ← decodeString (D := D) token with
    | none => return (none, self)
    | some dictKeyValue =>
      let dictKey := dictKeyValue.getAsWString.getD []
      let self ← self.skip token
      let (token, self) ← self.parseToken
      if token.type ≠ .objectPairSeparator then return (none, self)
      else
        let self ← self.skip token
        let (_, self) ← self.parseToken
        return (some dictKey, self)

/-- The `while` loop for an object. -/
def objectLoop
    (buildValue : JsonpValueSerializer → Except Fault (Option (Value D) × JsonpValueSerializer))
    (self : JsonpValueSerializer) (token : Token) (node : List (WString × Value D)) :
    Except Fault (Option (List (WString × Value D) × Token) × JsonpValueSerializer) :=
  if token.type = .objectEnd then return (some (node, token), self)
  else do
    let (dictKey, s₁) ← readKey (D := D) self token
    match dictKey with
    | none => return (none, s₁)
    | some key =>
      let (dictValue, s₂) ← buildValue s₁
      match dictValue with
      | none => return (none, s₂)
      | some value =>
        let node := Value.setWithoutPathExpansion key value node
        let (after, s₃) ← s₂.afterItem .objectEnd
        match after with
        | .bad => return (none, s₃)
        | .closed token => return (some (node, token), s₃)
        | .more token =>
          if _ : s₃.jsonpPos.length < self.jsonpPos.length then
            objectLoop buildValue s₃ token node
          else .error .stall
termination_by self.jsonpPos.length

/-- The end of `BuildValue`: `token` is skipped and the level left. -/
def finish (self : JsonpValueSerializer) (token : Token) (node : Option (Value D)) :
    Except Fault (Option (Value D) × JsonpValueSerializer) := do
  match node with
  | none => return (none, self)
  | some value =>
    let self ← self.skip token
    return (some value, { self with stackDepth := self.stackDepth - 1 })

/-- `BuildValue`, with a bound on the depth of the recursion that `stack_depth_` stays
below. -/
def buildValue : Nat → Bool → JsonpValueSerializer →
    Except Fault (Option (Value D) × JsonpValueSerializer)
  | 0, _, _ => .error .stall
  | levels + 1, isRoot, self => do
    let self := { self with stackDepth := self.stackDepth + 1 }
    -- Too deep: no error is recorded here.
    if kStackLimit < self.stackDepth then return (none, self)
    else
      let (token, self) ← self.parseToken
      if isRoot ∧ token.type ≠ .objectBegin ∧ token.type ≠ .arrayBegin then
        return (none, ← self.setErrorCode .badRootElementType self.jsonpPos)
      else
        match token.type with
        | .nullToken => self.finish token (some .null)
        | .boolTrue => self.finish token (some (.boolean true))
        | .boolFalse => self.finish token (some (.boolean false))
        | .number => self.finish token (← decodeNumber F token)
        | .string => self.finish token (← decodeString token)
        -- The two containers go on at the token behind the bracket.
        | .arrayBegin =>
          let self ← self.skip token
          let (token, self) ← self.parseToken
          let (node, self) ← arrayLoop (buildValue levels false) self token []
          match node with
          | none => return (none, self)
          | some (items, token) => self.finish token (some (.list items))
        | .objectBegin =>
          let self ← self.skip token
          let (token, self) ← self.parseToken
          let (node, self) ← objectLoop (buildValue levels false) self token []
          match node with
          | none => return (none, self)
          | some (entries, token) => self.finish token (some (.dictionary entries))
        | _ => return (none, self)

/-! ### The entry point -/

/-- The assignments of `Deserialize` before the first call, with `start_pos_` at
`text`. -/
def start (self : JsonpValueSerializer) (text : WString) : JsonpValueSerializer :=
  { self with startPos := text, jsonpPos := text, allowTrailingComma := true, stackDepth := 0,
              errorCode := .noError }

/-- `if(error_code == 0)`: the pointer is compared, not what it points at. -/
def checkNull (self : JsonpValueSerializer) (nullCode : Bool) :
    Except Fault JsonpValueSerializer :=
  if nullCode then self.setErrorCode .syntaxError self.jsonpPos else return self

/-- `Deserialize` from `BuildValue(true)` on: the root, and whether both that call and
the `END_OF_INPUT` check succeeded. `nullCode` says that `error_code` is a null
pointer. -/
def parseRoot (self : JsonpValueSerializer) (nullCode : Bool) :
    Except Fault ((Option (Value D) × Bool) × JsonpValueSerializer) := do
  let (root, self) ← buildValue F (kStackLimit + 1) true self
  match root with
  | none => return ((none, false), ← self.checkNull nullCode)
  | some value =>
    let (token, self) ← self.parseToken
    if token.type = .endOfInput then return ((some value, true), self)
    else
      let self ← self.setErrorCode .unexpectedDataAfterRoot self.jsonpPos
      return ((some value, false), ← self.checkNull nullCode)

/-- The two bodies of `Deserialize` behind `UTF8ToWide`. -/
def deserializeWide (self : JsonpValueSerializer) (jsonWide : WString) (nullCode : Bool) :
    Except Fault ((Option (Value D) × Bool) × JsonpValueSerializer) := do
  let cStr := jsonWide.takeWhile (· ≠ 0)
  let first ← deref cStr 0
  let text ← if !jsonWide.isEmpty && first = 0xFEFF then advance cStr 1 else pure cStr
  parseRoot F (self.start text) nullCode

/-- `Deserialize` of the string `str`. It returns the root in either case, and leaves
`*error_code` as it was. -/
def deserialize (self : JsonpValueSerializer) (str : Str) (nullCode : Bool) :
    Except Fault ((Option (Value D) × Bool) × JsonpValueSerializer) :=
  deserializeWide F self (StringConversions.utf8ToWide str) nullCode

end

end JsonpValueSerializer

end Mylib.Spec.Base
