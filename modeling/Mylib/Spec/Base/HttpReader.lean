import Mylib.Spec.Base.JsonReader

/-!
# `Mylib.Spec.Base.HttpReader`: the parser of HTTP parameter lists

The reading half of `HttpValueSerializer`, `base/logic/http_serializer.cc`, for texts
such as `a=1&b=x`. It is a copy of the JSON parser, cut down: `NextStringMatch`,
`ParseNumberToken`, `ReadInt`, `ReadHexDigits`, `HexToInt`, `DecodeNumber`, the loop
of `SetErrorCode` and the constants are the same text in both files and are taken
from `Mylib.Spec.Base.JsonReader`. The rest is below.

One tokenizer serves keys and values. A string stands without quotes and ends at `&`,
at `=` or at the terminator. A value that cannot be read becomes the empty string,
and the exits of `BuildValue` that return `NULL` do not restore `stack_depth_`. As in
`Mylib.Spec.Base.JsonReader`, the conversion of the text is the one of
`StringConversions`, which is right up to `2 ^ 31 - 6` bytes
(`Utf8.utf8ToWide_of_short`, `Utf8.utf8ToWide_refines`).
-/

set_option autoImplicit false

namespace Mylib.Spec.Base

open Mylib.Lib.CString

/-- The members of `HttpValueSerializer` the parser uses. -/
structure HttpValueSerializer where
  startPos : WString
  httpPos : WString
  stackDepth : Nat
  errorCode : ParseError
  errorLine : Nat
  errorCol : Nat
  deriving DecidableEq, Repr

namespace HttpValueSerializer

open JsonValueSerializer (kInvalidToken kStackLimit wide isDigit nextStringMatch parseNumberToken
  readHexDigits escapeDigits decodeChars decodeNumber errorPosition)

/-! ### Tokens -/

/-- `EatWhitesspaceAndComments`: `http_pos_` after it. A line break is not skipped. -/
def eatWhitesspaceAndComments (p : WString) : Except Fault WString := do
  let c ← deref p 0
  if c = ' '.toNat ∨ c = '\r'.toNat ∨ c = '\t'.toNat then
    let ⟨q, _⟩ ← next p
    eatWhitesspaceAndComments q
  else return p
termination_by p.length

/-- The loop of `NextNumberMatch`, with its counters `pos` and `spot`. Behind a
second point the next character is read before the loop gives up. -/
def nextNumberLoop (p : WString) (pos spot : Nat) : Except Fault Bool := do
  let ⟨c, hc⟩ ← charAt p pos
  if hne : c = 0 then return decide (pos ≤ 19)
  else if c = '&'.toNat then return decide (pos ≤ 19)
  else if isDigit c then nextNumberLoop p (pos + 1) spot
  else if c = '.'.toNat then
    let _ ← deref p (pos + 1)
    if 1 < spot + 1 then return false else nextNumberLoop p (pos + 1) (spot + 1)
  else if c = 'e'.toNat ∨ c = 'E'.toNat then nextNumberLoop p (pos + 1) spot
  else if (c = '-'.toNat ∨ c = '+'.toNat) ∧ pos = 0 then nextNumberLoop p (pos + 1) spot
  else return false
termination_by p.length - pos
decreasing_by
  all_goals
    have := hc hne
    omega

/-- `NextNumberMatch`. -/
def nextNumberMatch (p : WString) : Except Fault Bool := nextNumberLoop p 0 0

/-- The loop of `ParseStringToken`: the length of the token, `none` for an invalid
one. An unknown escape ends the token behind the escaped character, which may be the
terminator. -/
def scanStringToken (p : WString) (length : Nat) : Except Fault (Option Nat) := do
  let ⟨c, hc⟩ ← charAt p length
  if hne : c = 0 then return some length
  else if c = '\\'.toNat then
    let e ← deref p (length + 1)
    match escapeDigits e with
    | none => return some (length + 2)
    | some digits =>
      if ← readHexDigits p (length + 1) 1 digits then scanStringToken p (length + 1 + digits + 1)
      else return none
  else if c = '&'.toNat ∨ c = '='.toNat then return some length
  else scanStringToken p (length + 1)
termination_by p.length - length
decreasing_by
  all_goals
    have := hc hne
    omega

/-- `ParseStringToken` at `http_pos_ = p`. -/
def parseStringToken (p : WString) : Except Fault Token := do
  match ← scanStringToken p 0 with
  | some length => return ⟨.string, some p, length⟩
  | none => return kInvalidToken

/-- The token for a keyword whose first letter has been seen. All three are entered
with length 4, `false` too. -/
def keywordToken (p : WString) (keyword : WString) (type : TokenType) :
    Except Fault Token := do
  if ← nextStringMatch p 0 keyword then return ⟨type, some p, 4⟩ else parseStringToken p

/-- The `switch` of `ParseToken` at `http_pos_ = p`. -/
def tokenAt (p : WString) : Except Fault Token := do
  let c ← deref p 0
  if c = 'n'.toNat then keywordToken p (wide ['n', 'u', 'l', 'l']) .nullToken
  else if c = 't'.toNat then keywordToken p (wide ['t', 'r', 'u', 'e']) .boolTrue
  else if c = 'f'.toNat then keywordToken p (wide ['f', 'a', 'l', 's', 'e']) .boolFalse
  else if c = '&'.toNat then return ⟨.listSeparator, some p, 1⟩
  else if c = '='.toNat then return ⟨.objectPairSeparator, some p, 1⟩
  else if isDigit c ∨ c = '-'.toNat then
    if ← nextNumberMatch p then parseNumberToken p else parseStringToken p
  else if c = 0 then return ⟨.objectEnd, some p, 0⟩
  else parseStringToken p

/-- `ParseToken`. -/
def parseToken (self : HttpValueSerializer) : Except Fault (Token × HttpValueSerializer) := do
  let p ← eatWhitesspaceAndComments self.httpPos
  return (← tokenAt p, { self with httpPos := p })

/-- `SetErrorCode`. -/
def setErrorCode (self : HttpValueSerializer) (error : ParseError) (errorPos : WString) :
    Except Fault HttpValueSerializer := do
  match ← errorPosition self.startPos errorPos 1 1 with
  | none => return self
  | some (line, col) =>
    return { self with errorLine := line, errorCol := col, errorCode := error }

/-! ### Values -/

section

variable {D : Type} (F : Doubles D)

/-- `DecodeString`. There are no quotes, so it reads from the token's first
character to its last. -/
def decodeString (token : Token) : Except Fault (Option (Value D)) := do
  match token.begin with
  | none => .error .null
  | some p =>
    let decodedStr ← decodeChars p (token.length + 1) 0 []
    return decodedStr.map Value.createStringValue

/-- `http_pos_ += token.length`. -/
def skip (self : HttpValueSerializer) (token : Token) : Except Fault HttpValueSerializer := do
  return { self with httpPos := ← advance self.httpPos token.length }

/-- The key and the `=` in the loop for an object: the key, or `none` where the
source returns `NULL`. -/
def readKey (self : HttpValueSerializer) (token : Token) :
    Except Fault (Option WString × HttpValueSerializer) := do
  if token.type ≠ .string then
    return (none, ← self.setErrorCode .unquotedDictionaryKey self.httpPos)
  else
    match ← decodeString (D := D) token with
    -- The callers return `NULL` as well, and no error is recorded.
    | none => return (none, self)
    | some dictKeyValue =>
      let dictKey := dictKeyValue.getAsWString.getD []
      let self ← self.skip token
      let (token, self) ← self.parseToken
      -- Neither is one for a missing `=`.
      if token.type ≠ .objectPairSeparator then return (none, self)
      else
        let self ← self.skip token
        let (_, self) ← self.parseToken
        return (some dictKey, self)

/-- The `while` loop for an object. `token` is the token at `http_pos_`, and
`buildValue` is the recursive call, whose `NULL` becomes the empty string. The result
holds the entries and the token the loop ended at. -/
def pairLoop
    (buildValue : HttpValueSerializer → Except Fault (Option (Value D) × HttpValueSerializer))
    (self : HttpValueSerializer) (token : Token) (node : List (WString × Value D)) :
    Except Fault (Option (List (WString × Value D) × Token) × HttpValueSerializer) :=
  if token.type = .objectEnd then return (some (node, token), self)
  else do
    let (dictKey, s₁) ← readKey (D := D) self token
    match dictKey with
    | none => return (none, s₁)
    | some key =>
      let (dictValue, s₂) ← buildValue s₁
      -- A pair whose value was not built gets the empty string.
      let node := Value.setWithoutPathExpansion key (dictValue.getD (.string [])) node
      let (token, s₃) ← s₂.parseToken
      if token.type = .listSeparator then
        let s₄ ← s₃.skip token
        let (token, s₅) ← s₄.parseToken
        -- Every round passes a separator, so the text gets shorter.
        if _ : s₅.httpPos.length < self.httpPos.length then pairLoop buildValue s₅ token node
        else .error .stall
      else if token.type = .objectEnd then return (some (node, token), s₃)
      -- `return NULL`, past the `--stack_depth_` at the end.
      else return (none, s₃)
termination_by self.httpPos.length

/-- The end of `BuildValue`: `token` is skipped and the level left. -/
def finish (self : HttpValueSerializer) (token : Token) (node : Option (Value D)) :
    Except Fault (Option (Value D) × HttpValueSerializer) := do
  match node with
  | none => return (none, self)
  | some value =>
    let self ← self.skip token
    return (some value, { self with stackDepth := self.stackDepth - 1 })

/-- The token `BuildValue` switches on. At the root there is no bracket to read. -/
def firstToken (self : HttpValueSerializer) (isRoot : Bool) :
    Except Fault (Token × HttpValueSerializer) :=
  if isRoot then return (⟨.objectBegin, some self.httpPos, 0⟩, self) else self.parseToken

/-- `BuildValue`. The first argument bounds the depth of the recursion, which
`stack_depth_` keeps below it. -/
def buildValue : Nat → Bool → HttpValueSerializer →
    Except Fault (Option (Value D) × HttpValueSerializer)
  | 0, _, _ => .error .stall
  | levels + 1, isRoot, self => do
    let self := { self with stackDepth := self.stackDepth + 1 }
    -- On this way out `stack_depth_` is not counted down.
    if kStackLimit < self.stackDepth then
      return (none, ← self.setErrorCode .tooMuchNesting self.httpPos)
    else
      -- The root's token is made up, and no character is read for it.
      let (token, self) ← self.firstToken isRoot
      match token.type with
      | .nullToken => self.finish token (some .null)
      | .boolTrue => self.finish token (some (.boolean true))
      | .boolFalse => self.finish token (some (.boolean false))
      | .string => self.finish token (← decodeString token)
      | .number => self.finish token (← decodeNumber F token)
      | .objectBegin =>
        let self ← self.skip token
        let (token, self) ← self.parseToken
        let (node, self) ← pairLoop (buildValue levels false) self token []
        match node with
        | none => return (none, self)
        | some (entries, token) => self.finish token (some (.dictionary entries))
      | _ => return (none, self)

/-! ### The two entry points -/

/-- The assignments of `Deserialize` before the first call, with `start_pos_` at
`text`. -/
def start (self : HttpValueSerializer) (text : WString) : HttpValueSerializer :=
  { self with startPos := text, httpPos := text, stackDepth := 0, errorCode := .noError }

/-- The condition behind `BuildValue(true)`. Its second call of `ParseToken` is made
when the first does not give `END_OF_INPUT`. -/
def checkEnd (self : HttpValueSerializer) : Except Fault (Bool × HttpValueSerializer) := do
  let (token, self) ← self.parseToken
  if token.type = .endOfInput then return (true, self)
  else
    let (token, self) ← self.parseToken
    return (token.type = .listSeparator, self)

/-- `if(error_code == 0)`: the pointer is compared, not what it points at. -/
def checkNull (self : HttpValueSerializer) (nullCode : Bool) :
    Except Fault HttpValueSerializer :=
  if nullCode then self.setErrorCode .syntaxError self.httpPos else return self

/-- `start_pos_` on a wide text: `c_str()` ends at the first zero, and a leading byte
order mark is skipped. -/
def startText (httpWide : WString) : Except Fault WString := do
  let cStr := httpWide.takeWhile (· ≠ 0)
  let first ← deref cStr 0
  if !httpWide.isEmpty && first = 0xFEFF then advance cStr 1 else return cStr

/-- `Deserialize` from `BuildValue(true)` on. What follows the root sets an error, and
the root is returned with it. `nullCode` says that `error_code` is a null pointer. -/
def parseRoot (self : HttpValueSerializer) (nullCode : Bool) :
    Except Fault (Option (Value D) × HttpValueSerializer) := do
  let (root, self) ← buildValue F (kStackLimit + 1) true self
  match root with
  | none => return (none, ← self.checkNull nullCode)
  | some value =>
    let (done, self) ← self.checkEnd
    if done then return (some value, self)
    else
      let self ← self.setErrorCode .unexpectedDataAfterRoot self.httpPos
      return (some value, ← self.checkNull nullCode)

/-- The two bodies of `Deserialize` behind `UTF8ToWide`. -/
def deserializeWide (self : HttpValueSerializer) (httpWide : WString) (nullCode : Bool) :
    Except Fault (Option (Value D) × HttpValueSerializer) := do
  let text ← startText httpWide
  parseRoot F (self.start text) nullCode

/-- `Deserialize(str, error_code, error_str)`. It reads `*str` and does not write
it. -/
def deserialize (self : HttpValueSerializer) (str : Str) (nullCode : Bool) :
    Except Fault (Option (Value D) × HttpValueSerializer) :=
  deserializeWide F self (StringConversions.utf8ToWide str) nullCode

/-- `Deserialize(error_code, error_str)` with `*http_string_ = str`: the root, and
`*http_string_` after the call. The last character is overwritten by the terminator;
an empty string has none, and the write misses the string. -/
def deserializeOwn (self : HttpValueSerializer) (str : Str) (nullCode : Bool) :
    Except Fault ((Option (Value D) × Str) × HttpValueSerializer) :=
  if str = [] then .error .overrun
  else do
    let str := str.set (str.length - 1) 0
    let (root, self) ← deserializeWide F self (StringConversions.utf8ToWide str) nullCode
    return ((root, str), self)

end

end HttpValueSerializer

end Mylib.Spec.Base
