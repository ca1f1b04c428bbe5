import Mylib.Proofs.Base.HttpTokens

/-!
# `Mylib.Proofs.Base.HttpFields`: one key, one value

`readKey` and the inner call of `BuildValue`, at a field of a text without a zero.
Each returns, and stays inside the text. A key is read exactly where `KeyText` says
so. `ValueOutcome` says what becomes of a value: it is read whole, or it is empty and
the call returns `NULL`, or something of it is left that the next `ParseToken` will
stumble over.

Only the error members of the serializer are left open (`At`): nothing reads them.
-/

set_option autoImplicit false

namespace Mylib.Proofs.Base.Http

open Mylib.Lib.CString
open Mylib.Spec.Base
open JsonValueSerializer (kInvalidToken kStackLimit wide isDigit decodeChars decodeNumber)
open JsonGrammar (Number keyOf)
open HttpValueSerializer HttpGrammar

/-! ### Where the parser stands -/

/-- The members that matter: the text, the position in it and the depth. -/
structure At (start p : WString) (depth : Nat) (s : HttpValueSerializer) : Prop where
  startPos : s.startPos = start
  httpPos : s.httpPos = p
  stackDepth : s.stackDepth = depth

/-- The state that a call starts from is at the beginning of its text. -/
theorem start_at (s : HttpValueSerializer) (text : WString) :
    At text text 0 (s.start text) := ⟨rfl, rfl, rfl⟩

section

variable {start p : WString} {depth : Nat} {s : HttpValueSerializer}

/-- The line and column of an error are counted inside of the text, so storing one succeeds and
moves nothing. -/
theorem setErrorCode_at (error : ParseError) (errorPos : WString) (h : At start p depth s) :
    ∃ s', s.setErrorCode error errorPos = .ok s' ∧ At start p depth s' := by
  unfold HttpValueSerializer.setErrorCode
  obtain ⟨r, hr⟩ := errorPosition_returns s.startPos errorPos 1 1
  rw [hr, ok_bind]
  cases r with
  | none => exact ⟨s, rfl, h⟩
  | some position => exact ⟨_, rfl, h.startPos, h.httpPos, h.stackDepth⟩

/-- The cursor moves over a token that is known. -/
theorem skip_at (a : WString) {q : WString} (token : Token) (h : At start (a ++ q) depth s)
    (hlen : token.length = a.length) :
    ∃ s', s.skip token = .ok s' ∧ At start q depth s' := by
  unfold HttpValueSerializer.skip
  rw [h.httpPos, hlen, advance_append_length]
  exact ⟨_, rfl, h.startPos, rfl, h.stackDepth⟩

/-- The token is parsed at the cursor, behind the blanks. -/
theorem parseToken_at {token : Token} (h : At start p depth s)
    (htoken : tokenAt (trim p) = .ok token) :
    ∃ s', s.parseToken = .ok (token, s') ∧ At start (trim p) depth s' := by
  unfold HttpValueSerializer.parseToken
  rw [h.httpPos, eatWhitesspaceAndComments_eq, ok_bind, htoken]
  exact ⟨_, rfl, h.startPos, rfl, h.stackDepth⟩

end

/-! ### Tokens by type -/

/-- The token at a separator or at the end of the text. -/
inductive EndOf : WString → Token → Prop where
  | text : EndOf [] ⟨.objectEnd, some [], 0⟩
  | amp (r : WString) : EndOf ('&'.toNat :: r) ⟨.listSeparator, some ('&'.toNat :: r), 1⟩
  | eq (r : WString) : EndOf ('='.toNat :: r) ⟨.objectPairSeparator, some ('='.toNat :: r), 1⟩

/-- At a separator or at the end the token is known. -/
theorem tokenAt_separated {r : WString} (h : Separated r) :
    ∃ token, tokenAt r = .ok token ∧ EndOf r token := by
  rcases separated_cases h with rfl | ⟨r', rfl⟩ | ⟨r', rfl⟩
  · exact ⟨_, tokenAt_nil, .text⟩
  · exact ⟨_, tokenAt_amp r', .amp r'⟩
  · exact ⟨_, tokenAt_eq r', .eq r'⟩

/-- At a field there is neither a separator nor the end. -/
theorem TokenOf.type_ne {t r : WString} {token : Token} (h : TokenOf t r token) :
    token.type ≠ .objectEnd ∧ token.type ≠ .listSeparator ∧ token.type ≠ .objectPairSeparator ∧
      token.type ≠ .objectBegin := by
  cases h with
  | @keyword keyword u hk _ =>
    simp only [keywords, List.mem_cons, List.not_mem_nil, or_false] at hk
    rcases hk with rfl | rfl | rfl <;> simp
  | number _ _ => simp
  | partNumber _ _ _ => simp
  | noNumber _ _ => simp [kInvalidToken]
  | string _ _ _ _ => simp
  | badString _ _ _ _ => simp
  | badHex _ _ _ => simp [kInvalidToken]

/-- A token can be had wherever the text has no zero. -/
theorem tokenAt_returns {q : WString} (hz : 0 ∉ q) : ∃ token, tokenAt q = .ok token := by
  obtain ⟨t, r, rfl, ht, hr⟩ := exists_field hz
  cases t with
  | nil =>
    obtain ⟨token, htoken, -⟩ := tokenAt_separated hr
    exact ⟨token, htoken⟩
  | cons c t =>
    obtain ⟨token, htoken, -⟩ := tokenAt_field ht (by simp) hr
    exact ⟨token, htoken⟩

/-! ### Keys -/

section

variable {D : Type} {start : WString} {depth : Nat} {s : HttpValueSerializer}

/-- A token that is no string gives no key, and the position is left where it was. -/
theorem readKey_unquoted {p : WString} {token : Token} (h : At start p depth s)
    (htype : token.type ≠ .string) :
    ∃ s', readKey (D := D) s token = .ok (none, s') ∧ At start p depth s' := by
  obtain ⟨s', hset, hat⟩ := setErrorCode_at .unquotedDictionaryKey s.httpPos h
  refine ⟨s', ?_, hat⟩
  unfold HttpValueSerializer.readKey
  rw [if_pos htype, hset]
  rfl

/-- A string that cannot be decoded gives no key either. -/
theorem readKey_undecoded {p : WString} {token : Token} (h : At start p depth s)
    (htype : token.type = .string)
    (hdecode : HttpValueSerializer.decodeString (D := D) token = .ok none) :
    ∃ s', readKey (D := D) s token = .ok (none, s') ∧ At start p depth s' := by
  refine ⟨s, ?_, h⟩
  unfold HttpValueSerializer.readKey
  rw [if_neg (not_not.mpr htype), hdecode]
  rfl

/-- A decoded key: what `readKey` returns depends on the token behind it. -/
theorem readKey_decoded {t r w : WString} {after : Token} (h : At start (t ++ r) depth s)
    (hdecode : ∀ acc, decodeChars (t ++ r) (t.length + 1) 0 acc = .ok (some (acc ++ w)))
    (htrim : trim r = r) (hafter : tokenAt r = .ok after) :
    (after.type ≠ .objectPairSeparator →
      ∃ s', readKey (D := D) s ⟨.string, some (t ++ r), t.length⟩ = .ok (none, s') ∧
        At start r depth s') ∧
    (∀ r', r = '='.toNat :: r' → 0 ∉ r' →
      ∃ s', readKey (D := D) s ⟨.string, some (t ++ r), t.length⟩ = .ok (some (keyOf w), s') ∧
        At start (trim r') depth s') := by
  have hvalue : HttpValueSerializer.decodeString (D := D) ⟨.string, some (t ++ r), t.length⟩
      = .ok (some (.createStringValue w)) := by
    unfold HttpValueSerializer.decodeString
    show (decodeChars (t ++ r) (t.length + 1) 0 [] >>= _) = _
    rw [hdecode []]
    rfl
  obtain ⟨s₁, hskip, hat₁⟩ := skip_at t ⟨.string, some (t ++ r), t.length⟩ h rfl
  obtain ⟨s₂, hparse, hat₂⟩ := parseToken_at hat₁ (htrim.symm ▸ hafter)
  rw [htrim] at hat₂
  unfold HttpValueSerializer.readKey
  -- The key is decoded and skipped before the token behind it is looked at.
  rw [if_neg (not_not.mpr rfl), hvalue, ok_bind]
  simp only [hskip, ok_bind, hparse]
  constructor
  · intro htype
    exact ⟨s₂, by rw [if_pos htype]; rfl, hat₂⟩
  · rintro r' rfl hz
    obtain rfl : _ = after := Except.ok.inj ((tokenAt_eq r').symm.trans hafter)
    obtain ⟨s₃, hskip', hat₃⟩ :=
      skip_at ['='.toNat] ⟨.objectPairSeparator, some ('='.toNat :: r'), 1⟩ hat₂ rfl
    obtain ⟨token, htoken⟩ := tokenAt_returns fun hmem => hz ((trim_suffix r').subset hmem)
    obtain ⟨s₄, hparse', hat₄⟩ := parseToken_at hat₃ htoken
    refine ⟨s₄, ?_, hat₄⟩
    rw [if_neg (not_not.mpr rfl)]
    simp only [hskip', ok_bind, hparse']
    rfl

/-- `readKey` at the field `t`: a key with the `=` behind it is passed, and else
nothing is returned. -/
theorem readKey_spec {t r : WString} {token : Token} (h : At start (t ++ r) depth s)
    (ht : IsFieldText t) (htrim : trim t = t) (hr : Separated r) (hz : 0 ∉ r)
    (htoken : tokenAt (t ++ r) = .ok token) :
    (∃ key r' s', KeyText t key ∧ r = '='.toNat :: r' ∧
      readKey (D := D) s token = .ok (some key, s') ∧ At start (trim r') depth s') ∨
    ((∀ key r', KeyText t key → r ≠ '='.toNat :: r') ∧
      ∃ s' p', readKey (D := D) s token = .ok (none, s') ∧ At start p' depth s' ∧
        p' <:+ t ++ r) := by
  -- The exits that stay at the field, where there is no key.
  have hstay : (∀ key r', KeyText t key → r ≠ '='.toNat :: r') →
      (∃ s', readKey (D := D) s token = .ok (none, s') ∧ At start (t ++ r) depth s') →
      (∀ key r', KeyText t key → r ≠ '='.toNat :: r') ∧
        ∃ s' p', readKey (D := D) s token = .ok (none, s') ∧ At start p' depth s' ∧
          p' <:+ t ++ r := by
    rintro hnone ⟨s', hread, hat⟩
    exact ⟨hnone, s', _, hread, hat, List.suffix_rfl⟩
  by_cases hne : t = []
  · subst hne
    obtain ⟨token', htoken', hend⟩ := tokenAt_separated hr
    obtain rfl : token' = token := Except.ok.inj (htoken'.symm.trans htoken)
    refine Or.inr (hstay (fun key r' hkey => absurd rfl hkey.nonempty) (readKey_unquoted h ?_))
    cases hend <;> simp
  obtain ⟨token', htoken', hof⟩ := tokenAt_field ht hne hr
  obtain rfl : token' = token := Except.ok.inj (htoken'.symm.trans htoken)
  cases hof with
  | @keyword keyword u hk hu =>
    refine Or.inr (hstay (fun key r' hkey => ?_) (readKey_unquoted h ?_))
    · exact absurd (htrim.symm ▸ ⟨keyword, hk, u, hu.symm⟩) hkey.no_keyword
    · simp only [keywords, List.mem_cons, List.not_mem_nil, or_false] at hk
      rcases hk with rfl | rfl | rfl <;> simp
  | number hnumber _ =>
    refine Or.inr (hstay (fun key r' _ hr' => ?_) (readKey_unquoted h (by simp)))
    exact hnumber.2 (by rw [hr']; rfl)
  | partNumber hnumber _ _ =>
    refine Or.inr (hstay (fun key r' _ hr' => ?_) (readKey_unquoted h (by simp)))
    exact hnumber.2 (by rw [hr']; rfl)
  | noNumber hnumber _ =>
    refine Or.inr (hstay (fun key r' _ hr' => ?_) (readKey_unquoted h (by simp [kInvalidToken])))
    exact hnumber.2 (by rw [hr']; rfl)
  | @string w hkeyword _ hw hdecode =>
    obtain ⟨after, hafter, hend⟩ := tokenAt_separated hr
    have hread := readKey_decoded (D := D) h hdecode (trim_separated hr) hafter
    cases hend with
    | eq r' =>
      obtain ⟨s', hread', hat⟩ := hread.2 r' rfl (nulFree_tail hz)
      have hkey : KeyText t (keyOf w) := by
        refine ⟨htrim.symm ▸ hne, htrim.symm ▸ hkeyword, w, htrim.symm ▸ hw, rfl⟩
      exact Or.inl ⟨keyOf w, r', s', hkey, rfl, hread', hat⟩
    | text =>
      obtain ⟨s', hread', hat⟩ := hread.1 (by simp)
      exact Or.inr ⟨fun _ _ _ => by simp, s', _, hread', hat, List.suffix_append _ _⟩
    | amp r' =>
      obtain ⟨s', hread', hat⟩ := hread.1 (by simp)
      exact Or.inr ⟨fun _ _ _ => by simp, s', _, hread', hat, List.suffix_append _ _⟩
  | @badString n _ _ hw hdecode =>
    refine Or.inr (hstay (fun key r' hkey => ?_) (readKey_undecoded h rfl ?_))
    · obtain ⟨w, hw', -⟩ := hkey.unescapes
      exact absurd (htrim ▸ hw') (hw w)
    · unfold HttpValueSerializer.decodeString
      show (decodeChars (t ++ r) (n + 1) 0 [] >>= _) = _
      rw [hdecode []]
      rfl
  | badHex _ _ hw =>
    refine Or.inr (hstay (fun key r' hkey => ?_) (readKey_unquoted h (by simp [kInvalidToken])))
    obtain ⟨w, hw', -⟩ := hkey.unescapes
    exact absurd (htrim ▸ hw') (hw w)

end

/-! ### Values -/

section

variable {D : Type} (F : Doubles D) {start : WString} {depth : Nat} {s : HttpValueSerializer}

/-- The value of a token that opens nothing. -/
def scalar (token : Token) : Except Fault (Option (Value D)) :=
  match token.type with
  | .nullToken => .ok (some .null)
  | .boolTrue => .ok (some (.boolean true))
  | .boolFalse => .ok (some (.boolean false))
  | .string => HttpValueSerializer.decodeString token
  | .number => decodeNumber F token
  | _ => .ok none

/-- Without an opening token `BuildValue` decodes one token. -/
theorem buildValue_scalar (n : Nat) {s₁ : HttpValueSerializer} {token : Token}
    (hdepth : s.stackDepth < kStackLimit)
    (hparse : HttpValueSerializer.parseToken { s with stackDepth := s.stackDepth + 1 }
      = .ok (token, s₁))
    (htype : token.type ≠ .objectBegin) :
    HttpValueSerializer.buildValue F (n + 1) false s
      = scalar F token >>= HttpValueSerializer.finish s₁ token := by
  have hlimit : ¬kStackLimit < s.stackDepth + 1 := by omega
  unfold HttpValueSerializer.buildValue scalar
  simp only [hlimit, if_false, firstToken, Bool.false_eq_true, hparse, ok_bind]
  cases htoken : token.type with
  | objectBegin => exact absurd htoken htype
  | _ => rfl

/-- At the limit `BuildValue` returns `NULL` and reads nothing. -/
theorem buildValue_limit (n : Nat) (isRoot : Bool) {p : WString} (h : At start p depth s)
    (hdepth : kStackLimit ≤ depth) :
    ∃ s', HttpValueSerializer.buildValue F (n + 1) isRoot s = .ok (none, s') ∧
      At start p (depth + 1) s' := by
  have hat : At start p (depth + 1) { s with stackDepth := s.stackDepth + 1 } :=
    ⟨h.startPos, h.httpPos, congrArg (· + 1) h.stackDepth⟩
  obtain ⟨s', hset, hat'⟩ := setErrorCode_at .tooMuchNesting s.httpPos hat
  refine ⟨s', ?_, hat'⟩
  have hlimit : kStackLimit < s.stackDepth + 1 := by
    rw [h.stackDepth]
    omega
  unfold HttpValueSerializer.buildValue
  simp only [hlimit, if_true, hset]
  rfl

/-- The end of a value that was built: the depth goes down and the cursor moves behind the token. -/
theorem finish_some {a q : WString} (token : Token) (v : Value D)
    (h : At start (a ++ q) (depth + 1) s) (hlen : token.length = a.length) :
    ∃ s', HttpValueSerializer.finish s token (some v) = .ok (some v, s') ∧
      At start q depth s' := by
  obtain ⟨s', hskip, hat⟩ := skip_at a token h hlen
  unfold HttpValueSerializer.finish
  simp only [hskip, ok_bind]
  exact ⟨_, rfl, hat.startPos, hat.httpPos, congrArg (· - 1) hat.stackDepth⟩

/-- What becomes of the value `t`: the result of the call, and the part `u` of the
field it leaves unread. -/
inductive ValueOutcome (t : WString) : Option (Value D) → WString → Prop where
  | read {v : Value D} {u : WString} : ValueText F t v → trim u = [] →
      ValueOutcome t (some v) u
  | empty : t = [] → ValueOutcome t none []
  | unread {res : Option (Value D)} {u : WString} : (∀ v, ¬ValueText F t v) → trim u ≠ [] →
      ValueOutcome t res u

/-! ### Fields that are no value -/

variable {F}

/-- A keyword at the beginning stays there, whatever follows. -/
theorem startsKeyword_append {word : WString} {type : TokenType} (g : WString)
    (h : (word, type) ∈ keywords) : StartsKeyword (word ++ g) := ⟨(word, type), h, g, rfl⟩

/-- `null` is in the table of keywords. -/
theorem startsKeyword_null (g : WString) : StartsKeyword (wide ['n', 'u', 'l', 'l'] ++ g) :=
  startsKeyword_append g (show (_, TokenType.nullToken) ∈ keywords by decide)

/-- `true` is in the table of keywords. -/
theorem startsKeyword_true (g : WString) : StartsKeyword (wide ['t', 'r', 'u', 'e'] ++ g) :=
  startsKeyword_append g (show (_, TokenType.boolTrue) ∈ keywords by decide)

/-- No keyword begins as a number does. -/
theorem not_numberShaped_of_keyword {t : WString} (h : StartsKeyword t) : ¬NumberShaped t := by
  obtain ⟨keyword, hk, u, rfl⟩ := h
  obtain ⟨c, w, hword, hc, -⟩ := keyword_head hk
  rw [hword]
  exact fun hshape => hc (hshape.first c rfl)

/-- A field that starts with a keyword is a value only if it is `null` or `true`. -/
theorem valueText_of_keyword {t : WString} {v : Value D} (hkeyword : StartsKeyword (trim t))
    (h : ValueText F t v) :
    (∃ g, trim t = wide ['n', 'u', 'l', 'l'] ++ g ∧ trim g = []) ∨
      ∃ g, trim t = wide ['t', 'r', 'u', 'e'] ++ g ∧ trim g = [] := by
  cases h with
  | null ht hg => exact Or.inl ⟨_, ht, trim_eq_nil.mpr hg⟩
  | boolTrue ht hg => exact Or.inr ⟨_, ht, trim_eq_nil.mpr hg⟩
  | number ht hshape _ => exact absurd (ht ▸ hshape) (not_numberShaped_of_keyword hkeyword)
  | string _ hnone _ _ => exact absurd hkeyword hnone

/-- A field the number check passes is a value only if it is a number. -/
theorem valueText_of_shape {t : WString} {v : Value D} (hshape : NumberShaped (trim t))
    (h : ValueText F t v) :
    ∃ n : Number, trim t = n.text ∧ n.denote F = some v := by
  have hnone : ¬StartsKeyword (trim t) := fun hk => not_numberShaped_of_keyword hk hshape
  cases h with
  | null ht _ => exact absurd (ht ▸ startsKeyword_null _) hnone
  | boolTrue ht _ => exact absurd (ht ▸ startsKeyword_true _) hnone
  | number ht _ hv => exact ⟨_, ht, hv⟩
  | string _ _ hno _ => exact absurd hshape hno

/-- Any other field is a value only if its escapes are valid. -/
theorem valueText_of_text {t : WString} {v : Value D} (hkeyword : ¬StartsKeyword (trim t))
    (hshape : ¬NumberShaped (trim t)) (h : ValueText F t v) : ∃ w, Unescapes (trim t) w := by
  cases h with
  | null ht _ => exact absurd (ht ▸ startsKeyword_null _) hkeyword
  | boolTrue ht _ => exact absurd (ht ▸ startsKeyword_true _) hkeyword
  | number ht hno _ => exact absurd (ht ▸ hno) hshape
  | string _ _ _ hw => exact ⟨_, hw⟩

/-- The characters of a number are no blanks. -/
theorem not_isBlank_of_shape {t : WString} (h : NumberShaped t) : ∀ c ∈ t, ¬IsBlank c := by
  have hdigit : ∀ {c : WChar}, isDigit c → ¬IsBlank c := by
    intro c hc hblank
    simp only [IsBlank, wide, List.map_cons, List.map_nil, List.mem_cons, List.not_mem_nil,
      or_false] at hblank
    rcases hblank with rfl | rfl | rfl <;> simp [isDigit] at hc
  intro c hc
  obtain ⟨d, t', rfl⟩ := List.exists_cons_of_ne_nil (List.ne_nil_of_mem hc)
  rcases List.mem_cons.mp hc with rfl | hc
  · rcases h.first c rfl with hc | rfl
    · exact hdigit hc
    · decide
  · rcases h.chars c hc with hc | hc
    · exact hdigit hc
    · simp only [wide, List.map_cons, List.map_nil, List.mem_cons, List.not_mem_nil,
        or_false] at hc
      rcases hc with rfl | rfl | rfl <;> decide

/-- What a number denotes depends on its text only. -/
theorem denote_of_text {n m : Number} (h : n.text = m.text) : n.denote F = m.denote F := by
  have hn := decodeNumber_number F n []
  rw [h, decodeNumber_number F m []] at hn
  exact Except.ok.inj hn.symm

/-! ### The value of a token -/

/-- What the token at the field `t` is decoded to: the value with the part `a` of
the field the token covers and the part `u` behind it, or nothing. -/
structure ScalarOf (F : Doubles D) (t r : WString) (token : Token) (res : Option (Value D))
    (a u : WString) : Prop where
  decoded : scalar F token = .ok res
  field : t = a ++ u
  covered : ∀ v, res = some v → token.length = a.length
  unmoved : res = none → a = []
  outcome : r.head? ≠ some '='.toNat → ValueOutcome F t res u

/-- `null` and `true` are values when only blanks follow. `false` is entered with the
length of `true`, so its last letter stays. -/
theorem scalarOf_keyword {keyword : WString × TokenType} {t u : WString} (r : WString)
    (htrim : trim t = t) (hk : keyword ∈ keywords) (hu : t = keyword.1 ++ u) :
    ∃ res a u', ScalarOf F t r ⟨keyword.2, some (t ++ r), 4⟩ res a u' := by
  have hstarts : StartsKeyword (trim t) := htrim.symm ▸ ⟨keyword, hk, u, hu.symm⟩
  -- With no `null` and no `true` in front of blanks there is no value.
  have hno : (∀ g, trim g = [] → t ≠ wide ['n', 'u', 'l', 'l'] ++ g) →
      (∀ g, trim g = [] → t ≠ wide ['t', 'r', 'u', 'e'] ++ g) → ∀ v, ¬ValueText F t v := by
    intro hnull htrue v hv
    rcases valueText_of_keyword hstarts hv with ⟨g, ht, hg⟩ | ⟨g, ht, hg⟩
    · exact hnull g hg (htrim.symm.trans ht)
    · exact htrue g hg (htrim.symm.trans ht)
  simp only [keywords, List.mem_cons, List.not_mem_nil, or_false] at hk
  rcases hk with rfl | rfl | rfl
  · refine ⟨some .null, wide ['n', 'u', 'l', 'l'], u, rfl, hu, fun _ _ => rfl,
      fun h => absurd h (Option.some_ne_none _), fun _ => ?_⟩
    by_cases hblank : trim u = []
    · exact .read (.null (htrim.trans hu) (trim_eq_nil.mp hblank)) hblank
    · refine .unread (hno (fun g hg ht => hblank ?_) fun g _ ht => ?_) hblank
      · rw [List.append_cancel_left (hu.symm.trans ht)]
        exact hg
      · simp [wide, hu] at ht
  · refine ⟨some (.boolean true), wide ['t', 'r', 'u', 'e'], u, rfl, hu, fun _ _ => rfl,
      fun h => absurd h (Option.some_ne_none _), fun _ => ?_⟩
    by_cases hblank : trim u = []
    · exact .read (.boolTrue (htrim.trans hu) (trim_eq_nil.mp hblank)) hblank
    · refine .unread (hno (fun g _ ht => ?_) fun g hg ht => hblank ?_) hblank
      · simp [wide, hu] at ht
      · rw [List.append_cancel_left (hu.symm.trans ht)]
        exact hg
  · refine ⟨some (.boolean false), wide ['f', 'a', 'l', 's'], 'e'.toNat :: u, rfl, hu,
      fun _ _ => rfl, fun h => absurd h (Option.some_ne_none _), fun _ => ?_⟩
    refine .unread (hno (fun g _ ht => ?_) fun g _ ht => ?_) ?_
    · simp [wide, hu] at ht
    · simp [wide, hu] at ht
    · simp [trim, IsBlank, wide]

/-- A field the number check passes is read as the number in front of it. -/
theorem scalarOf_number {t u r : WString} {m : Number} (htrim : trim t = t)
    (hshape : NumberShaped t) (hm : t = m.text ++ u)
    (hpart : u ≠ [] → ∀ k : Number, t ≠ k.text) :
    ∃ res a u', ScalarOf F t r ⟨.number, some (t ++ r), m.text.length⟩ res a u' := by
  have hne : trim t ≠ [] := by
    obtain ⟨c, q, hq, -⟩ := number_head m u
    rw [htrim, hm, hq]
    simp
  have hdecode : scalar F ⟨.number, some (t ++ r), m.text.length⟩ = .ok (m.denote F) := by
    rw [hm, List.append_assoc]
    exact decodeNumber_number F m (u ++ r)
  -- A field shaped like a number means something only if all of it is one.
  have hvalue : ∀ {v : Value D}, ValueText F t v → u = [] ∧ m.denote F = some v := by
    intro v hv
    obtain ⟨k, hk, hdenote⟩ := valueText_of_shape (htrim.symm ▸ hshape) hv
    rw [htrim] at hk
    have hu : u = [] := by
      by_contra hu
      exact hpart hu k hk
    rw [hu, List.append_nil] at hm
    exact ⟨hu, (denote_of_text (hm.symm.trans hk)).trans hdenote⟩
  cases hd : m.denote F with
  | none =>
    refine ⟨none, [], t, hd ▸ hdecode, rfl, nofun, fun _ => rfl, fun _ => .unread ?_ hne⟩
    exact fun v hv => Option.some_ne_none v ((hvalue hv).2.symm.trans hd)
  | some v =>
    refine ⟨some v, m.text, u, hd ▸ hdecode, hm, fun _ _ => rfl, nofun, fun _ => ?_⟩
    cases u with
    | nil =>
      rw [List.append_nil] at hm
      exact .read (.number (htrim.trans hm) (hm ▸ hshape) hd) rfl
    | cons c u =>
      -- What the number leaves over is no blank, so the pair will be refused behind it.
      have hblank : ¬IsBlank c := not_isBlank_of_shape hshape c (by rw [hm]; simp)
      refine .unread (fun v' hv' => ?_) (by simp [trim, hblank])
      exact absurd (hvalue hv').1 (by simp)

/-- A field that is neither a keyword nor a number, and its escapes are bad. -/
theorem valueOutcome_text {t r : WString} (htrim : trim t = t) (hne : t ≠ [])
    (hkeyword : ¬StartsKeyword t) (hnumber : ¬NumberAt t r) (hw : ∀ w, ¬Unescapes t w)
    (hr : r.head? ≠ some '='.toNat) : ValueOutcome F t none t := by
  refine .unread (fun v hv => ?_) (htrim.symm ▸ hne)
  have hshape : ¬NumberShaped t := fun h => hnumber ⟨h, hr⟩
  rw [← htrim] at hkeyword hshape
  obtain ⟨w, hw'⟩ := valueText_of_text hkeyword hshape hv
  exact hw w (htrim ▸ hw')

/-- What the token of a field is turned into, by the kind of the token: keyword, number or
string. -/
theorem scalarOf_field {t r : WString} {token : Token} (htrim : trim t = t) (hne : t ≠ [])
    (h : TokenOf t r token) : ∃ res a u, ScalarOf F t r token res a u := by
  cases h with
  | keyword hk hu => exact scalarOf_keyword r htrim hk hu
  | @number m hnumber hm =>
    have hread := scalarOf_number (F := F) (r := r) htrim hnumber.1
      (hm.trans (List.append_nil _).symm) fun h => absurd rfl h
    rwa [← hm] at hread
  -- Only the beginning is a number, so the cursor stays behind it.
  | partNumber hnumber hno hm => exact scalarOf_number htrim hnumber.1 hm fun _ => hno
  -- No number at all: the token is read and gives nothing.
  | noNumber hnumber hno =>
    refine ⟨none, [], t, rfl, rfl, nofun, fun _ => rfl, fun _ => ?_⟩
    refine .unread (fun v hv => ?_) (htrim.symm ▸ hne)
    obtain ⟨k, hk, -⟩ := valueText_of_shape (htrim.symm ▸ hnumber.1) hv
    exact hno k (htrim.symm.trans hk)
  -- A string that is decoded is a value of the grammar.
  | @string w hkeyword hnumber hw hdecode =>
    refine ⟨some (.createStringValue w), t, [], ?_, (List.append_nil t).symm, fun _ _ => rfl, nofun,
      fun hr => .read ?_ rfl⟩
    · show (decodeChars (t ++ r) (t.length + 1) 0 [] >>= _) = _
      rw [hdecode []]
      rfl
    · have hshape : ¬NumberShaped t := fun h => hnumber ⟨h, hr⟩
      exact .string (htrim.symm ▸ hne) (htrim.symm ▸ hkeyword) (htrim.symm ▸ hshape)
        (htrim.symm ▸ hw)
  -- One that is not leaves the cursor where it was.
  | @badString k hkeyword hnumber hw hdecode =>
    refine ⟨none, [], t, ?_, rfl, nofun, fun _ => rfl, ?_⟩
    · show (decodeChars (t ++ r) (k + 1) 0 [] >>= _) = _
      rw [hdecode []]
      rfl
    · exact valueOutcome_text htrim hne hkeyword hnumber hw
  | badHex hkeyword hnumber hw =>
    exact ⟨none, [], t, rfl, rfl, nofun, fun _ => rfl,
      valueOutcome_text htrim hne hkeyword hnumber hw⟩

/-- The token at a position, with what it is decoded to. -/
theorem scalarOf_token {t r : WString} (ht : IsFieldText t) (htrim : trim t = t)
    (hr : Separated r) :
    ∃ token res a u, tokenAt (t ++ r) = .ok token ∧ token.type ≠ .objectBegin ∧
      ScalarOf F t r token res a u := by
  by_cases hne : t = []
  · subst hne
    obtain ⟨token, htoken, hend⟩ := tokenAt_separated hr
    have hscalar : scalar F token = .ok none := by cases hend <;> rfl
    have htype : token.type ≠ .objectBegin := by cases hend <;> simp
    exact ⟨token, none, [], [], htoken, htype, hscalar, rfl, nofun, fun _ => rfl,
      fun _ => .empty rfl⟩
  · obtain ⟨token, htoken, hof⟩ := tokenAt_field ht hne hr
    obtain ⟨res, a, u, hscalar⟩ := scalarOf_field htrim hne hof
    exact ⟨token, res, a, u, htoken, hof.type_ne.2.2.2, hscalar⟩

end

section

variable {D : Type} (F : Doubles D) {start : WString} {depth : Nat} {s : HttpValueSerializer}

/-- The inner call of `BuildValue` below the limit, at the field `t`. -/
theorem buildValue_field (n : Nat) {t r : WString} (h : At start (t ++ r) depth s)
    (ht : IsFieldText t) (hr : Separated r) (hdepth : depth < kStackLimit) :
    ∃ res u s', HttpValueSerializer.buildValue F (n + 1) false s = .ok (res, s') ∧ u <:+ trim t ∧
      At start (u ++ r) (if res.isSome then depth else depth + 1) s' ∧
      (r.head? ≠ some '='.toNat → ValueOutcome F (trim t) res u) := by
  have hat : At start (t ++ r) (depth + 1) { s with stackDepth := s.stackDepth + 1 } :=
    ⟨h.startPos, h.httpPos, congrArg (· + 1) h.stackDepth⟩
  have htext : trim (t ++ r) = trim t ++ r := trim_append hr
  -- What the field is decides the token, its value and how far the cursor goes.
  obtain ⟨token, res, a, u, htoken, htype, hscalar⟩ :=
    scalarOf_token (F := F) (isField_trim ht) (trim_trim t) hr
  obtain ⟨s₁, hparse, hat₁⟩ := parseToken_at hat (htext.symm ▸ htoken)
  rw [htext, hscalar.field, List.append_assoc] at hat₁
  have hbuild := buildValue_scalar F n (h.stackDepth ▸ hdepth) hparse htype
  rw [hscalar.decoded, ok_bind] at hbuild
  have hsuffix : u <:+ trim t := hscalar.field ▸ List.suffix_append a u
  cases res with
  -- Without a value the depth has gone up for good.
  | none =>
    rw [hscalar.unmoved rfl] at hat₁
    exact ⟨none, u, s₁, hbuild, hsuffix, hat₁, hscalar.outcome⟩
  | some v =>
    obtain ⟨s₂, hfinish, hat₂⟩ := finish_some token v hat₁ (hscalar.covered v rfl)
    exact ⟨some v, u, s₂, hbuild.trans hfinish, hsuffix, hat₂, hscalar.outcome⟩

end

end Mylib.Proofs.Base.Http
