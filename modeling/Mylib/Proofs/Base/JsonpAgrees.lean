import Mylib.Lib.InStep
import Mylib.Proofs.Base.JsonSafety
import Mylib.Spec.Base.JsonpReader
import Mylib.Spec.Base.JsonpWriter

/-!
# `Mylib.Proofs.Base.JsonpAgrees`: the JSON and the JSONP engine

`JsonValueSerializer` and `JsonpValueSerializer` hold a parser and an emitter each. The
functions that walk the text are equal one by one. The parsers then go in step from
serializers at the same place of the same text (`buildValue_inStep`), whatever their
error members are, so that on every string they return the same root. The emitters
append the same text for every value and from all members (`buildJsonpString_text`).
-/

set_option autoImplicit false

namespace Mylib.Proofs.Base.Jsonp

open Mylib.Lib.CString
open Mylib.Lib.InStep
open Mylib.Spec.Base

/-! ### Walking the text -/

/-- The line scan of the copy is the one of the original. -/
theorem eatLineComment_eq (p : WString) :
    JsonpValueSerializer.eatLineComment p = JsonValueSerializer.eatLineComment p := by
  -- On the length of the text, as every loop below that goes on at a shorter one.
  induction hn : p.length using Nat.strong_induction_on generalizing p with
  | _ n ih =>
    rw [JsonpValueSerializer.eatLineComment, JsonValueSerializer.eatLineComment]
    refine bind_congr fun c => ?_
    split_ifs with hend hline
    · rfl
    · rfl
    · refine bind_congr fun q => ?_
      obtain ⟨q, hq⟩ := q
      exact ih _ (hn ▸ hq) q rfl

/-- The block scan of the copy is the one of the original. -/
theorem eatBlockComment_eq (p : WString) :
    JsonpValueSerializer.eatBlockComment p = JsonValueSerializer.eatBlockComment p := by
  induction hn : p.length using Nat.strong_induction_on generalizing p with
  | _ n ih =>
    rw [JsonpValueSerializer.eatBlockComment, JsonValueSerializer.eatBlockComment]
    refine bind_congr fun c => ?_
    split_ifs with hend hstar
    · rfl
    all_goals
      refine bind_congr fun c' => ?_
      dsimp only
      split_ifs with hslash
      · rfl
      · refine bind_congr fun q => ?_
        obtain ⟨q, hq⟩ := q
        exact ih _ (hn ▸ hq) q rfl

/-- The choice between the two scans is the same. -/
theorem eatComment_eq (p : WString) :
    JsonpValueSerializer.eatComment p = JsonValueSerializer.eatComment p := by
  unfold JsonpValueSerializer.eatComment JsonValueSerializer.eatComment
  simp only [eatLineComment_eq, eatBlockComment_eq]

/-- The loop around blanks and comments is the same. -/
theorem eatWhitesspaceAndComments_eq (p : WString) :
    JsonpValueSerializer.eatWhitesspaceAndComments p =
      JsonValueSerializer.eatWhitesspaceAndComments p := by
  induction hn : p.length using Nat.strong_induction_on generalizing p with
  | _ n ih =>
    rw [JsonpValueSerializer.eatWhitesspaceAndComments,
      JsonValueSerializer.eatWhitesspaceAndComments, eatComment_eq]
    refine bind_congr fun c => ?_
    split_ifs with hblank hslash
    · refine bind_congr fun q => ?_
      obtain ⟨q, hq⟩ := q
      exact ih _ (hn ▸ hq) q rfl
    · refine bind_congr fun r => ?_
      obtain ⟨eaten, q⟩ := r
      dsimp only
      split_ifs with heaten hshort
      · rfl
      · exact ih _ (hn ▸ hshort) q rfl
      · rfl
    · rfl

/-- Words are matched alike. -/
theorem nextStringMatch_eq (p : WString) (i : Nat) (str : WString) :
    JsonpValueSerializer.nextStringMatch p i str = JsonValueSerializer.nextStringMatch p i str := by
  induction str generalizing i with
  | nil => rfl
  | cons c str ih =>
    rw [JsonpValueSerializer.nextStringMatch, JsonValueSerializer.nextStringMatch]
    simp only [ih]

/-- Digits are scanned alike. -/
theorem readDigits_eq (p : WString) (length : Nat) :
    JsonpValueSerializer.readDigits p length = JsonValueSerializer.readDigits p length := by
  induction hn : p.length - length using Nat.strong_induction_on generalizing length with
  | _ n ih =>
    rw [JsonpValueSerializer.readDigits, JsonValueSerializer.readDigits]
    refine bind_congr fun r => ?_
    obtain ⟨c, hc⟩ := r
    dsimp only
    split_ifs with hdigit
    · have hne : c ≠ 0 := by
        rintro rfl
        contradiction
      have hlt := hc hne
      exact ih _ (by omega) (length + 1) rfl
    · rfl

/-- Integers are scanned alike. -/
theorem readInt_eq (p : WString) (length : Nat) (canHaveLeadingZeros : Bool) :
    JsonpValueSerializer.readInt p length canHaveLeadingZeros =
      JsonValueSerializer.readInt p length canHaveLeadingZeros := by
  unfold JsonpValueSerializer.readInt JsonValueSerializer.readInt
  simp only [readDigits_eq]

/-- Hex digits are scanned alike. -/
theorem readHexDigits_eq (p : WString) (length i digits : Nat) :
    JsonpValueSerializer.readHexDigits p length i digits =
      JsonValueSerializer.readHexDigits p length i digits := by
  induction digits generalizing i with
  | zero => rfl
  | succ digits ih =>
    rw [JsonpValueSerializer.readHexDigits, JsonValueSerializer.readHexDigits]
    simp only [ih]

/-- Numbers are scanned alike. -/
theorem parseNumberToken_eq (p : WString) :
    JsonpValueSerializer.parseNumberToken p = JsonValueSerializer.parseNumberToken p := by
  have hfraction : JsonpValueSerializer.readFraction = JsonValueSerializer.readFraction := by
    funext p length
    unfold JsonpValueSerializer.readFraction JsonValueSerializer.readFraction
    simp only [readInt_eq]
  have hexponent : JsonpValueSerializer.readExponent = JsonValueSerializer.readExponent := by
    funext p length
    unfold JsonpValueSerializer.readExponent JsonValueSerializer.readExponent
    simp only [readInt_eq]
  unfold JsonpValueSerializer.parseNumberToken JsonValueSerializer.parseNumberToken
  simp only [readInt_eq, hfraction, hexponent]
  rfl

/-- String literals are scanned alike. -/
theorem scanString_eq (p : WString) (length : Nat) :
    JsonpValueSerializer.scanString p length = JsonValueSerializer.scanString p length := by
  -- Both loops get nearer to the end of the text; the equations are compared round by round.
  induction hn : p.length - length using Nat.strong_induction_on generalizing length with
  | _ n ih =>
    rw [JsonpValueSerializer.scanString, JsonValueSerializer.scanString]
    refine bind_congr fun r => ?_
    obtain ⟨c, hc⟩ := r
    dsimp only
    split_ifs with hend hescape hquote
    · rfl
    · refine bind_congr fun e => ?_
      have hlt := hc hend
      have hsame : JsonpValueSerializer.escapeDigits e = JsonValueSerializer.escapeDigits e := rfl
      rw [hsame]
      cases JsonValueSerializer.escapeDigits e with
      | none => rfl
      | some digits =>
        show (_ >>= _) = _ >>= _
        rw [readHexDigits_eq]
        refine bind_congr fun read => ?_
        split_ifs with hread
        · exact ih _ (by omega) (length + 1 + digits + 1) rfl
        · rfl
    · rfl
    · have hlt := hc hend
      exact ih _ (by omega) (length + 1) rfl

/-- Lines are counted alike. -/
theorem errorPosition_eq (pos errorPos : WString) (line col : Nat) :
    JsonpValueSerializer.errorPosition pos errorPos line col =
      JsonValueSerializer.errorPosition pos errorPos line col := by
  induction hn : pos.length using Nat.strong_induction_on generalizing pos line col with
  | _ n ih =>
    rw [JsonpValueSerializer.errorPosition, JsonValueSerializer.errorPosition]
    split_ifs with hpos
    · rfl
    · refine bind_congr fun c => ?_
      split
      · rfl
      · refine bind_congr fun q => ?_
        obtain ⟨q, hq⟩ := q
        dsimp only
        split
        · exact ih _ (hn ▸ hq) q (line + 1) 1 rfl
        · exact ih _ (hn ▸ hq) q line (col + 1) rfl

/-- Keywords are scanned alike. -/
theorem keywordToken_eq (p keyword : WString) (type : TokenType) :
    JsonpValueSerializer.keywordToken p keyword type =
      JsonValueSerializer.keywordToken p keyword type := by
  unfold JsonpValueSerializer.keywordToken JsonValueSerializer.keywordToken
  rw [nextStringMatch_eq]
  rfl

/-- The characters of a literal are decoded alike. -/
theorem decodeChars_eq (p : WString) (length i : Nat) (decodedStr : WString) :
    JsonpValueSerializer.decodeChars p length i decodedStr =
      JsonValueSerializer.decodeChars p length i decodedStr := by
  induction hn : length - i using Nat.strong_induction_on generalizing i decodedStr with
  | _ n ih =>
    rw [JsonpValueSerializer.decodeChars, JsonValueSerializer.decodeChars]
    split_ifs with hi
    · refine bind_congr fun c => ?_
      split_ifs with hescape
      · refine bind_congr fun e => ?_
        split_ifs with hx hu
        · refine bind_congr fun c₁ => bind_congr fun c₂ => ?_
          exact ih _ (by omega) (i + 4) _ rfl
        · refine bind_congr fun c₁ => bind_congr fun c₂ => bind_congr fun c₃ =>
            bind_congr fun c₄ => ?_
          exact ih _ (by omega) (i + 6) _ rfl
        · have hsame : JsonpValueSerializer.unescape e = JsonValueSerializer.unescape e := rfl
          rw [hsame]
          cases JsonValueSerializer.unescape e with
          | none => rfl
          | some d => exact ih _ (by omega) (i + 2) _ rfl
      · exact ih _ (by omega) (i + 1) _ rfl
    · rfl

/-! ### The parsers in step -/

/-- Two serializers at the same place of the same text. The error members may differ. -/
structure InStep (t : JsonpValueSerializer) (s : JsonValueSerializer) : Prop where
  startPos : t.startPos = s.startPos
  pos : t.jsonpPos = s.jsonPos
  stackDepth : t.stackDepth = s.stackDepth
  allowTrailingComma : t.allowTrailingComma = s.allowTrailingComma

section

variable {t : JsonpValueSerializer} {s : JsonValueSerializer}

/-- Storing an error keeps the two in step. -/
theorem setErrorCode_inStep (error : ParseError) (errorPos : WString) (h : InStep t s) :
    Related InStep (t.setErrorCode error errorPos) (s.setErrorCode error errorPos) := by
  unfold JsonpValueSerializer.setErrorCode JsonValueSerializer.setErrorCode
  rw [errorPosition_eq, h.startPos]
  refine .bindEq _ fun r => ?_
  cases r with
  | none => exact .ok h
  | some position => exact .ok ⟨rfl, h.pos, h.stackDepth, h.allowTrailingComma⟩

/-- An error at the place the two are at. -/
theorem setErrorCode_here (error : ParseError) (h : InStep t s) :
    Related InStep (t.setErrorCode error t.jsonpPos) (s.setErrorCode error s.jsonPos) := by
  rw [h.pos]
  exact setErrorCode_inStep error s.jsonPos h

/-- Skipping a token keeps them in step. -/
theorem skip_inStep (token : Token) (h : InStep t s) :
    Related InStep (t.skip token) (s.skip token) := by
  unfold JsonpValueSerializer.skip JsonValueSerializer.skip
  rw [h.pos]
  exact .bindEq _ fun p => .ok ⟨h.startPos, rfl, h.stackDepth, h.allowTrailingComma⟩

/-- Parsing a literal keeps the two in step. -/
theorem parseStringToken_inStep (h : InStep t s) :
    Related (Same InStep) t.parseStringToken s.parseStringToken := by
  unfold JsonpValueSerializer.parseStringToken JsonValueSerializer.parseStringToken
  rw [scanString_eq, h.pos]
  refine .bindEq _ fun scan => ?_
  cases scan with
  | closed length => exact .same _ h
  | invalidEscape length =>
    refine .bindEq _ fun errorPos => ?_
    exact (setErrorCode_inStep .invalidEscape errorPos h).bind fun t' s' h' => .same _ h'
  | unterminated => exact .same _ h

/-- Parsing any token keeps the two in step. -/
theorem parseToken_inStep (h : InStep t s) :
    Related (Same InStep) t.parseToken s.parseToken := by
  unfold JsonpValueSerializer.parseToken JsonValueSerializer.parseToken
  rw [eatWhitesspaceAndComments_eq, h.pos]
  refine .bindEq _ fun p => ?_
  have hp : InStep { t with jsonpPos := p } { s with jsonPos := p } :=
    ⟨h.startPos, rfl, h.stackDepth, h.allowTrailingComma⟩
  dsimp only
  refine .bindEq _ fun c => ?_
  -- One case for each branch of the `switch`.
  split_ifs with hend hn ht hf hnumber hquote
  · exact .same _ hp
  · exact keywordToken_eq p _ _ ▸ .bindEq _ fun token => .same token hp
  · exact keywordToken_eq p _ _ ▸ .bindEq _ fun token => .same token hp
  · exact keywordToken_eq p _ _ ▸ .bindEq _ fun token => .same token hp
  · exact parseNumberToken_eq p ▸ .bindEq _ fun token => .same token hp
  · exact parseStringToken_inStep hp
  · have hsame : JsonpValueSerializer.punctuator c = JsonValueSerializer.punctuator c := rfl
    rw [hsame]
    cases JsonValueSerializer.punctuator c with
    | some type => exact .same _ hp
    | none => exact .same _ hp

/-- What comes behind an item is handled in step. -/
theorem afterItem_inStep (closing : TokenType) (h : InStep t s) :
    Related (Same InStep) (t.afterItem closing) (s.afterItem closing) := by
  unfold JsonpValueSerializer.afterItem JsonValueSerializer.afterItem
  refine (parseToken_inStep h).bindSame fun token t₁ s₁ h₁ => ?_
  dsimp only
  split_ifs with hcomma hclosing
  · refine (skip_inStep token h₁).bind fun t₂ s₂ h₂ => ?_
    refine (parseToken_inStep h₂).bindSame fun token' t₃ s₃ h₃ => ?_
    dsimp only
    rw [h₃.allowTrailingComma]
    split_ifs with hclosing htrailing
    · exact (setErrorCode_here .trailingComma h₃).bind fun t₄ s₄ h₄ => .same _ h₄
    · exact .same _ h₃
    · exact .same _ h₃
  · exact .same _ h₁
  · exact .same _ h₁

section

variable {D : Type} (F : Doubles D)

/-- String tokens are decoded alike. -/
theorem decodeString_eq (token : Token) :
    JsonpValueSerializer.decodeString (D := D) token = JsonValueSerializer.decodeString token := by
  obtain ⟨type, start, length⟩ := token
  cases start with
  | none => rfl
  | some p =>
    show (JsonpValueSerializer.decodeChars p length 1 [] >>= fun decodedStr =>
      .ok (decodedStr.map Value.createStringValue)) = _
    rw [decodeChars_eq]
    rfl

/-- Keys are read in step. -/
theorem readKey_inStep (token : Token) (h : InStep t s) :
    Related (Same InStep) (JsonpValueSerializer.readKey (D := D) t token)
      (JsonValueSerializer.readKey (D := D) s token) := by
  unfold JsonpValueSerializer.readKey JsonValueSerializer.readKey
  split_ifs with htype
  · exact (setErrorCode_here .unquotedDictionaryKey h).bind fun t' s' h' => .same none h'
  · rw [decodeString_eq]
    refine .bindEq _ fun decoded => ?_
    cases decoded with
    | none => exact .same none h
    | some dictKeyValue =>
      refine (skip_inStep token h).bind fun t₁ s₁ h₁ => ?_
      refine (parseToken_inStep h₁).bindSame fun colon t₂ s₂ h₂ => ?_
      dsimp only
      split_ifs with hcolon
      · exact .same none h₂
      · refine (skip_inStep colon h₂).bind fun t₃ s₃ h₃ => ?_
        exact (parseToken_inStep h₃).bindSame fun _ t₄ s₄ h₄ => .same _ h₄

/-- The end of a value keeps them in step. -/
theorem finish_inStep (token : Token) (node : Option (Value D)) (h : InStep t s) :
    Related (Same InStep) (t.finish token node) (s.finish token node) := by
  unfold JsonpValueSerializer.finish JsonValueSerializer.finish
  cases node with
  | none => exact .same none h
  | some value =>
    refine (skip_inStep token h).bind fun t' s' h' => ?_
    exact .same _ ⟨h'.startPos, h'.pos, congrArg (· - 1) h'.stackDepth, h'.allowTrailingComma⟩

section

variable
  {build' : JsonpValueSerializer → Except Fault (Option (Value D) × JsonpValueSerializer)}
  {build : JsonValueSerializer → Except Fault (Option (Value D) × JsonValueSerializer)}

/-- The array loop stays in step if building a value does. By induction on the length of the
text. -/
theorem arrayLoop_inStep
    (hinner : ∀ t s, InStep t s → Related (Same InStep) (build' t) (build s))
    (token : Token) (node : List (Value D)) (h : InStep t s) :
    Related (Same InStep) (JsonpValueSerializer.arrayLoop build' t token node)
      (JsonValueSerializer.arrayLoop build s token node) := by
  -- Both loops stop at the same place, so their tests that less is left agree.
  induction hn : s.jsonPos.length using Nat.strong_induction_on generalizing t s token node with
  | _ n ih =>
    rw [JsonpValueSerializer.arrayLoop, JsonValueSerializer.arrayLoop]
    split_ifs with hend
    · exact .same _ h
    · refine (hinner t s h).bindSame fun value t₁ s₁ h₁ => ?_
      cases value with
      | none => exact .same none h₁
      | some value =>
        refine (afterItem_inStep .arrayEnd h₁).bindSame fun after t₂ s₂ h₂ => ?_
        cases after with
        | bad => exact .same none h₂
        | closed token => exact .same _ h₂
        | more token =>
          dsimp only
          rw [h.pos, h₂.pos]
          split_ifs with hshort
          · exact ih _ (hn ▸ hshort) token _ h₂ rfl
          · exact .error Fault.stall

/-- So does the object loop. -/
theorem objectLoop_inStep
    (hinner : ∀ t s, InStep t s → Related (Same InStep) (build' t) (build s))
    (token : Token) (node : List (WString × Value D)) (h : InStep t s) :
    Related (Same InStep) (JsonpValueSerializer.objectLoop build' t token node)
      (JsonValueSerializer.objectLoop build s token node) := by
  induction hn : s.jsonPos.length using Nat.strong_induction_on generalizing t s token node with
  | _ n ih =>
    rw [JsonpValueSerializer.objectLoop, JsonValueSerializer.objectLoop]
    split_ifs with hend
    · exact .same _ h
    -- Key, value and what comes behind them, each in step.
    · refine (readKey_inStep token h).bindSame fun key t₁ s₁ h₁ => ?_
      cases key with
      | none => exact .same none h₁
      | some key =>
        refine (hinner t₁ s₁ h₁).bindSame fun value t₂ s₂ h₂ => ?_
        cases value with
        | none => exact .same none h₂
        | some value =>
          refine (afterItem_inStep .objectEnd h₂).bindSame fun after t₃ s₃ h₃ => ?_
          cases after with
          | bad => exact .same none h₃
          | closed token => exact .same _ h₃
          | more token =>
            dsimp only
            rw [h.pos, h₃.pos]
            -- Both loops go on at a shorter text, or stop at the same place.
            split_ifs with hshort
            · exact ih _ (hn ▸ hshort) token _ h₃ rfl
            · exact .error Fault.stall

end

/-- The two parsers, from the same place: they return the same value and stop at the
same place. -/
theorem buildValue_inStep (n : Nat) (isRoot : Bool) (h : InStep t s) :
    Related (Same InStep) (JsonpValueSerializer.buildValue F n isRoot t)
      (JsonValueSerializer.buildValue F n isRoot s) := by
  induction n generalizing t s isRoot with
  | zero => exact .error Fault.stall
  | succ n ih =>
    have hdeeper : InStep { t with stackDepth := s.stackDepth + 1 }
        { s with stackDepth := s.stackDepth + 1 } :=
      ⟨h.startPos, h.pos, rfl, h.allowTrailingComma⟩
    have hlimit : JsonpValueSerializer.kStackLimit = JsonValueSerializer.kStackLimit := rfl
    rw [JsonpValueSerializer.buildValue, JsonValueSerializer.buildValue, h.stackDepth, hlimit]
    -- The depth is counted alike and compared with the same limit.
    dsimp only
    split_ifs with hdepth
    · exact .same none hdeeper
    · refine (parseToken_inStep hdeeper).bindSame fun token t₁ s₁ h₁ => ?_
      dsimp only
      split_ifs with hroot
      · exact (setErrorCode_here .badRootElementType h₁).bind fun t' s' h' => .same none h'
      -- By the type of the token.
      · generalize token.type = type
        cases type with
        | nullToken => exact finish_inStep token _ h₁
        | boolTrue => exact finish_inStep token _ h₁
        | boolFalse => exact finish_inStep token _ h₁
        | number => exact .bindEq _ fun node => finish_inStep token node h₁
        | string => exact decodeString_eq (D := D) token ▸ .bindEq _ fun node =>
            finish_inStep token node h₁
        | arrayBegin =>
          refine (skip_inStep token h₁).bind fun t₂ s₂ h₂ => ?_
          refine (parseToken_inStep h₂).bindSame fun token' t₃ s₃ h₃ => ?_
          refine (arrayLoop_inStep (fun t s h => ih false h) token' [] h₃).bindSame
            fun node t₄ s₄ h₄ => ?_
          cases node with
          | none => exact .same none h₄
          | some found => exact finish_inStep found.2 _ h₄
        | objectBegin =>
          refine (skip_inStep token h₁).bind fun t₂ s₂ h₂ => ?_
          refine (parseToken_inStep h₂).bindSame fun token' t₃ s₃ h₃ => ?_
          refine (objectLoop_inStep (fun t s h => ih false h) token' [] h₃).bindSame
            fun node t₄ s₄ h₄ => ?_
          cases node with
          | none => exact .same none h₄
          | some found => exact finish_inStep found.2 _ h₄
        | _ => exact .same none h₁

/-- The error set for a null `error_code` moves nothing. -/
theorem checkNull_inStep (nullCode : Bool) (h : InStep t s) :
    ∃ t', t.checkNull nullCode = .ok t' ∧ InStep t' s := by
  unfold JsonpValueSerializer.checkNull
  cases nullCode with
  | false => exact ⟨t, rfl, h⟩
  | true =>
    obtain ⟨s', hset, herror⟩ := setErrorCode_returns s .syntaxError s.jsonPos
    have hrelated := setErrorCode_here .syntaxError h
    rw [hset] at hrelated
    show ∃ t', t.setErrorCode .syntaxError t.jsonpPos = .ok t' ∧ InStep t' s
    generalize t.setErrorCode .syntaxError t.jsonpPos = result at hrelated
    cases hrelated with
    | @ok t' _ h' =>
      exact ⟨t', rfl, h'.startPos.trans herror.startPos, h'.pos.trans herror.jsonPos,
        h'.stackDepth.trans herror.stackDepth,
        h'.allowTrailingComma.trans herror.allowTrailingComma⟩

/-- The same root, and the same answer of the `END_OF_INPUT` check. -/
def SameRoot (x : (Option (Value D) × Bool) × JsonpValueSerializer)
    (y : Option (Value D) × Bool × JsonValueSerializer) : Prop := x.1 = (y.1, y.2.1)

/-- A whole parse gives the same root, except that the copy also checks `null_code`. -/
theorem parseRoot_inStep (nullCode : Bool) (h : InStep t s) :
    Related SameRoot (JsonpValueSerializer.parseRoot F t nullCode)
      (JsonValueSerializer.parseRoot F s) := by
  unfold JsonpValueSerializer.parseRoot JsonValueSerializer.parseRoot
  refine (buildValue_inStep F _ true h).bindSame fun root t₁ s₁ h₁ => ?_
  cases root with
  | none =>
    obtain ⟨t₂, hnull, -⟩ := checkNull_inStep nullCode h₁
    simp only [hnull, ok_bind]
    exact .ok rfl
  | some value =>
    refine (parseToken_inStep h₁).bindSame fun token t₂ s₂ h₂ => ?_
    dsimp only
    split_ifs with hend
    · exact .ok rfl
    · refine (setErrorCode_here .unexpectedDataAfterRoot h₂).bind fun t₃ s₃ h₃ => ?_
      obtain ⟨t₄, hnull, -⟩ := checkNull_inStep nullCode h₃
      simp only [hnull, ok_bind]
      exact .ok rfl

/-- What the JSON parser reports is what the JSONP parser found. -/
def SameAnswer (x : (Option (Value D) × Bool) × JsonpValueSerializer)
    (y : (Option (Value D) × Option ParseError) × JsonValueSerializer) : Prop :=
  y.1 = (x.1.1, if x.1.2 then none else some y.2.errorCode)

/-- From states of their own both give the same answer, since a call sets every field that it
reads. -/
theorem deserializeWide_inStep (s : JsonValueSerializer) (t : JsonpValueSerializer)
    (jsonWide : WString) (nullCode : Bool) :
    Related SameAnswer (JsonpValueSerializer.deserializeWide F t jsonWide nullCode)
      (JsonValueSerializer.deserializeWide F s jsonWide) := by
  have hstart : ∀ text, InStep (t.start text) (s.start text) := fun _ => ⟨rfl, rfl, rfl, rfl⟩
  unfold JsonpValueSerializer.deserializeWide JsonValueSerializer.deserializeWide
  dsimp only
  refine .bindEq _ fun first => ?_
  split_ifs with hbom
  all_goals
    refine .bindEq _ fun text => ?_
    refine (parseRoot_inStep F nullCode (hstart text)).bindRight fun a b hab => ?_
    obtain ⟨root, success, s'⟩ := b
    obtain ⟨⟨_, _⟩, t'⟩ := a
    cases hab
    exact .ok rfl

/-- On every string both return, with the same root, and with the same answer of the
`END_OF_INPUT` check. -/
theorem deserialize_sameRoot (s : JsonValueSerializer) (t : JsonpValueSerializer) (str : Str)
    (nullCode : Bool) :
    ∃ root success s' t',
      JsonValueSerializer.deserialize F s str =
        .ok ((root, if success then none else some s'.errorCode), s') ∧
      JsonpValueSerializer.deserialize F t str nullCode = .ok ((root, success), t') := by
  obtain ⟨r, s', hjson, -⟩ := deserializeWide_returns F s (StringConversions.utf8ToWide str)
  have hrelated := deserializeWide_inStep F s t (StringConversions.utf8ToWide str) nullCode
  unfold JsonValueSerializer.deserialize JsonpValueSerializer.deserialize
  rw [hjson] at hrelated ⊢
  generalize JsonpValueSerializer.deserializeWide F t _ nullCode = result at hrelated ⊢
  cases hrelated with
  | @ok a _ hab =>
    obtain ⟨⟨root, success⟩, t'⟩ := a
    obtain rfl : r = (root, if success then none else some s'.errorCode) := hab
    exact ⟨root, success, s', t', rfl, rfl⟩

end

end

/-! ### The emitters -/

section

variable {D : Type} (F : Doubles D) (prettyPrint escape : Bool)

mutual

/-- The members decide nothing about the text a value is written as. -/
theorem buildJsonpString_text (depth : Nat) (self : JsonpCall) :
    ∀ value : Value D, (JsonpWriter.buildJsonpString F prettyPrint escape depth self value).1 =
      JsonWriter.buildJSONString F prettyPrint escape depth value
  | .null => by rw [JsonpWriter.buildJsonpString, JsonWriter.buildJSONString]
  | .boolean value => by rw [JsonpWriter.buildJsonpString, JsonWriter.buildJSONString]
  | .charInteger value => by rw [JsonpWriter.buildJsonpString, JsonWriter.buildJSONString]
  | .shortInteger value => by rw [JsonpWriter.buildJsonpString, JsonWriter.buildJSONString]
  | .integer value => by rw [JsonpWriter.buildJsonpString, JsonWriter.buildJSONString]
  | .bigInteger value => by rw [JsonpWriter.buildJsonpString, JsonWriter.buildJSONString]
  | .real value => by
    rw [JsonpWriter.buildJsonpString, JsonWriter.buildJSONString]
    rfl
  | .string value => by rw [JsonpWriter.buildJsonpString, JsonWriter.buildJSONString]
  | .binary buffer => by rw [JsonpWriter.buildJsonpString, JsonWriter.buildJSONString]
  | .list items => by
    rw [JsonpWriter.buildJsonpString, JsonWriter.buildJSONString, ← buildItems_text depth true self]
    rfl
  | .dictionary entries => by
    rw [JsonpWriter.buildJsonpString, JsonWriter.buildJSONString,
      ← buildEntries_text depth true self]
    rfl

/-- The text of a list is that of the original's writer. -/
theorem buildItems_text (depth : Nat) (first : Bool) (self : JsonpCall) :
    ∀ items : List (Value D),
      (JsonpWriter.buildItems F prettyPrint escape depth first self items).1 =
        JsonWriter.buildItems F prettyPrint escape depth first items
  | [] => by rw [JsonpWriter.buildItems, JsonWriter.buildItems]
  | value :: items => by
    rw [JsonpWriter.buildItems, JsonWriter.buildItems, ← buildJsonpString_text depth self value,
      ← buildItems_text depth false _ items]
    rfl

/-- So is the text of a dictionary; looking for a callback writes nothing. -/
theorem buildEntries_text (depth : Nat) (first : Bool) (self : JsonpCall) :
    ∀ entries : List (WString × Value D),
      (JsonpWriter.buildEntries F prettyPrint escape depth first self entries).1 =
        JsonWriter.buildEntries F prettyPrint escape depth first entries
  | [] => by rw [JsonpWriter.buildEntries, JsonWriter.buildEntries]
  | (key, value) :: entries => by
    rw [JsonpWriter.buildEntries, JsonWriter.buildEntries,
      ← buildJsonpString_text (depth + 1) (JsonpWriter.checkKey key value self) value,
      ← buildEntries_text depth false _ entries]
    rfl

end

/-- The two engines agree. On every string the parsers return the same root and the same
answer of the `END_OF_INPUT` check, from all serializers. The emitters append the same
text for every value, also for one that holds a callback. -/
theorem engines_agree :
    (∀ (s : JsonValueSerializer) (t : JsonpValueSerializer) (str : Str) (nullCode : Bool),
      ∃ root success s' t',
        JsonValueSerializer.deserialize F s str =
          .ok ((root, if success then none else some s'.errorCode), s') ∧
        JsonpValueSerializer.deserialize F t str nullCode = .ok ((root, success), t')) ∧
    (∀ (prettyPrint escape : Bool) (depth : Nat) (self : JsonpCall) (value : Value D),
      (JsonpWriter.buildJsonpString F prettyPrint escape depth self value).1 =
        JsonWriter.buildJSONString F prettyPrint escape depth value) :=
  ⟨deserialize_sameRoot F, fun prettyPrint escape depth self value =>
    buildJsonpString_text F prettyPrint escape depth self value⟩

end

end Mylib.Proofs.Base.Jsonp
