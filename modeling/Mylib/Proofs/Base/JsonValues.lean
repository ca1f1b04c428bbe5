import Mylib.Proofs.Base.JsonScalars

/-!
# `Mylib.Proofs.Base.JsonValues`: what `BuildValue` returns is a value of the grammar

`BuildValue` and its two loops on a text without a zero. Every call returns, keeps
`json_pos_` inside the text, and a value comes back only where the grammar has it
and with `stack_depth_` as it was (`buildValue_spec`). The loops are treated for
any recursive call that does so (`BuildsValues`), and the recursion by induction
on the levels that are left.
-/

set_option autoImplicit false

namespace Mylib.Proofs.Base

open Mylib.Lib
open Mylib.Lib.CString
open Mylib.Spec.Base
open JsonValueSerializer JsonGrammar

/-! ### Moving along the text -/

/-- The call that leads from `s` to `s'` has moved `json_pos_` forward. -/
structure Moved (s s' : JsonValueSerializer) : Prop where
  startPos : s'.startPos = s.startPos
  allowTrailingComma : s'.allowTrailingComma = s.allowTrailingComma
  within : s'.jsonPos <:+ s.jsonPos

/-- Nothing has moved. -/
theorem Moved.refl (s : JsonValueSerializer) : Moved s s := ⟨rfl, rfl, List.suffix_rfl⟩

/-- Two moves are one. -/
theorem Moved.trans {s s' s'' : JsonValueSerializer} (h : Moved s s') (h' : Moved s' s'') :
    Moved s s'' :=
  ⟨h'.startPos.trans h.startPos, h'.allowTrailingComma.trans h.allowTrailingComma,
    h'.within.trans h.within⟩

/-- No zero appears by moving forward. -/
theorem Moved.nulFree {s s' : JsonValueSerializer} (h : Moved s s') (hz : 0 ∉ s.jsonPos) :
    0 ∉ s'.jsonPos := fun h' => hz (h.within.subset h')

/-- Setting an error moves nothing. -/
theorem ErrorOnly.moved {s s' : JsonValueSerializer} (h : ErrorOnly s s') : Moved s s' :=
  ⟨h.startPos, h.allowTrailingComma, h.jsonPos ▸ List.suffix_rfl⟩

/-- The state with `json_pos_` at `p`. -/
def moveTo (s : JsonValueSerializer) (p : WString) : JsonValueSerializer := { s with jsonPos := p }

/-- The cursor after it was moved. -/
@[simp]
theorem moveTo_jsonPos (s : JsonValueSerializer) (p : WString) : (moveTo s p).jsonPos = p := rfl

/-- Moving does not change what is allowed. -/
@[simp]
theorem moveTo_allowTrailingComma (s : JsonValueSerializer) (p : WString) :
    (moveTo s p).allowTrailingComma = s.allowTrailingComma := rfl

/-- The last move counts. -/
@[simp]
theorem moveTo_moveTo (s : JsonValueSerializer) (p q : WString) :
    moveTo (moveTo s p) q = moveTo s q := rfl

/-- Moving to a suffix is moving forward. -/
theorem moved_moveTo {s : JsonValueSerializer} {p : WString} (h : p <:+ s.jsonPos) :
    Moved s (moveTo s p) := ⟨rfl, rfl, h⟩

/-- In front of a token the skipped part is a whole gap. -/
theorem Skipped.gap {g q : WString} (h : Skipped g q) (hq : q ≠ []) : Gap g := by
  cases h with
  | inl hg => exact hg
  | inr hend => exact absurd hend.2 hq

/-! ### Single calls -/

/-- `ParseToken` moves `json_pos_` over a gap to the token it returns. -/
theorem parseToken_run (s : JsonValueSerializer) (hz : 0 ∉ s.jsonPos) :
    ∃ g token s', s.parseToken = .ok (token, s') ∧ s.jsonPos = g ++ s'.jsonPos ∧
      Skipped g s'.jsonPos ∧ TokenAt token s'.jsonPos ∧ Moved s s' ∧
      s'.stackDepth = s.stackDepth := by
  obtain ⟨g, q, token, s', hparse, hpos, -, hskip, herror, htoken⟩ := parseToken_spec s hz
  obtain rfl : s'.jsonPos = q := herror.jsonPos
  refine ⟨g, token, s', hparse, hpos, hskip, htoken, ?_, herror.stackDepth⟩
  exact ⟨herror.startPos, herror.allowTrailingComma, g, hpos.symm⟩

/-- The token of `,`. -/
theorem punctuator_comma : punctuator ','.toNat = some .listSeparator := rfl

/-- The token of `]`. -/
theorem punctuator_bracket : punctuator ']'.toNat = some .arrayEnd := rfl

/-- The token of `}`. -/
theorem punctuator_brace : punctuator '}'.toNat = some .objectEnd := rfl

/-- A token of one character lies at that character. -/
theorem tokenAt_punctuator {token : Token} {q : WString} {c : WChar} {type : TokenType}
    (h : TokenAt token q) (htype : token.type = type) (hc : punctuator c = some type) :
    ∃ r, q = c :: r ∧ token = ⟨type, some q, 1⟩ := by
  subst htype
  cases h with
  | invalid q => rcases punctuator_cases hc with h | h | h | h | h | h <;> cases h.2
  | endOfInput => rcases punctuator_cases hc with h | h | h | h | h | h <;> cases h.2
  | @lexeme type t r hlex =>
    cases hlex with
    | punctuator hd =>
      rcases punctuator_cases hc with h | h | h | h | h | h <;> obtain ⟨rfl, rfl⟩ := h <;>
        rcases punctuator_cases hd with h' | h' | h' | h' | h' | h' <;>
        obtain ⟨rfl, h'⟩ := h' <;> cases h' <;> exact ⟨r, rfl, rfl⟩
    | _ => rcases punctuator_cases hc with h | h | h | h | h | h <;> cases h.2

/-- The input ends at the end of the text only. -/
theorem tokenAt_endOfInput {token : Token} {q : WString} (h : TokenAt token q)
    (htype : token.type = .endOfInput) : q = [] := by
  cases h with
  | invalid _ => cases htype
  | endOfInput => rfl
  | lexeme r hlex =>
    cases hlex with
    | punctuator hc =>
      rcases punctuator_cases hc with h | h | h | h | h | h <;> cases h.2.symm.trans htype
    | _ => cases htype

/-- A token that is at the cursor is skipped. -/
theorem skip_token {s : JsonValueSerializer} {type : TokenType} {p : Option WString}
    {t r : WString} (hpos : s.jsonPos = t ++ r) :
    s.skip ⟨type, p, t.length⟩ = .ok (moveTo s r) := by
  unfold skip
  rw [hpos, advance_append_length]
  rfl

/-- A punctuator has one character. -/
theorem skip_punctuator {s : JsonValueSerializer} {type : TokenType} {p : Option WString}
    {c : WChar} {r : WString} (hpos : s.jsonPos = c :: r) :
    s.skip ⟨type, p, 1⟩ = .ok (moveTo s r) :=
  skip_token (t := [c]) hpos

/-! ### Behind an item -/

section

variable {α : Type} {item : WString → α → Prop} {close : WChar}

/-- A gap before the items belongs to their text. -/
theorem items_gap {g u : WString} {as : List α} (hg : Gap g) (h : Items item close u as) :
    Items item close (g ++ u) as := by
  cases h with
  | empty hg' =>
    rw [← List.append_assoc]
    exact Items.empty (gap_append hg hg')
  | items hg' hitem hmore =>
    rw [← List.append_assoc, ← List.append_assoc]
    exact Items.items (gap_append hg hg') hitem hmore

/-- Behind an item the container has to be closed, so there is text. -/
theorem moreItems_ne_nil {u : WString} {as : List α} (h : MoreItems item close u as) : u ≠ [] := by
  cases h <;> simp

/-- There is text to an empty container as well. -/
theorem items_ne_nil {u : WString} {as : List α} (h : Items item close u as) : u ≠ [] := by
  cases h with
  | empty _ => simp
  | items _ _ hmore => simp [moreItems_ne_nil hmore]

/-- A comma leads from an item to the next one, or to the end. -/
theorem moreItems_comma {g g' u : WString} {as : List α} (hg : Gap g) (hg' : Gap g')
    (h : Items item close u as) : MoreItems item close (g ++ ','.toNat :: (g' ++ u)) as := by
  cases h with
  | empty hg'' =>
    rw [← List.append_assoc g']
    exact MoreItems.trailing hg (gap_append hg' hg'')
  | items hg'' hitem hmore =>
    rw [← List.append_assoc g', ← List.append_assoc g']
    exact MoreItems.next hg (gap_append hg' hg'') hitem hmore

end

/-- What `afterItem` says about the text between `s` and `s'`. -/
def AfterText (s s' : JsonValueSerializer) (closing : TokenType) (close : WChar) :
    AfterItem → Prop
  | .bad => True
  | .closed token => token = ⟨closing, some s'.jsonPos, 1⟩ ∧
      ∃ r u, s'.jsonPos = close :: r ∧ s.jsonPos = u ++ r ∧
        ∀ {α : Type} (item : WString → α → Prop), MoreItems item close u []
  | .more token => TokenAt token s'.jsonPos ∧
      ∃ g g', Gap g ∧ Skipped g' s'.jsonPos ∧ s.jsonPos = g ++ ','.toNat :: (g' ++ s'.jsonPos)

/-- What comes behind an item: the end of the container, a further item, or something that is
neither. -/
theorem afterItem_spec (s : JsonValueSerializer) {closing : TokenType} {close : WChar}
    (hclose : punctuator close = some closing) (hz : 0 ∉ s.jsonPos) :
    ∃ res s', s.afterItem closing = .ok (res, s') ∧ Moved s s' ∧
      s'.stackDepth = s.stackDepth ∧ AfterText s s' closing close res := by
  obtain ⟨g, token, s₁, hparse, hpos, hskip, htoken, hmoved, hdepth⟩ := parseToken_run s hz
  unfold afterItem
  rw [hparse]
  simp only [ok_bind]
  -- Behind an item comes a comma and then a further token, the closing token, or an error.
  by_cases hcomma : token.type = .listSeparator
  · obtain ⟨r, hr, rfl⟩ := tokenAt_punctuator (c := ','.toNat) htoken hcomma rfl
    have hg : Gap g := hskip.gap (by simp [hr])
    have hmoved₁ : Moved s₁ (moveTo s₁ r) := moved_moveTo ⟨[','.toNat], hr.symm⟩
    obtain ⟨g', token', s₂, hparse', hpos', hskip', htoken', hmoved', hdepth'⟩ :=
      parseToken_run (moveTo s₁ r) ((hmoved.trans hmoved₁).nulFree hz)
    rw [moveTo_jsonPos] at hpos'
    have hall : Moved s s₂ := (hmoved.trans hmoved₁).trans hmoved'
    have hdepth₂ : s₂.stackDepth = s.stackDepth := hdepth'.trans hdepth
    rw [if_pos hcomma, skip_punctuator hr]
    simp only [ok_bind]
    rw [hparse']
    simp only [ok_bind]
    by_cases hend : token'.type = closing
    · rw [if_pos hend]
      obtain ⟨r', hr', rfl⟩ := tokenAt_punctuator htoken' hend hclose
      -- A closing token behind a comma is read only where trailing commas are allowed.
      by_cases hallow : s₂.allowTrailingComma
      · refine ⟨.closed ⟨closing, some s₂.jsonPos, 1⟩, s₂, by rw [hallow]; rfl, hall, hdepth₂, rfl,
          r', g ++ ','.toNat :: (g' ++ [close]), hr', ?_, ?_⟩
        · rw [hpos, hr, hpos', hr']
          simp
        · intro α item
          exact MoreItems.trailing hg (hskip'.gap (by simp [hr']))
      · obtain ⟨s₃, hset, herror⟩ := setErrorCode_returns s₂ .trailingComma s₂.jsonPos
        refine ⟨.bad, s₃, ?_, hall.trans herror.moved, herror.stackDepth.trans hdepth₂, trivial⟩
        simp [hallow, hset]
    · rw [if_neg hend]
      refine ⟨.more token', s₂, rfl, hall, hdepth₂, htoken', g, g', hg, hskip', ?_⟩
      rw [hpos, hr, hpos']
  · rw [if_neg hcomma]
    by_cases hend : token.type = closing
    · rw [if_pos hend]
      obtain ⟨r, hr, rfl⟩ := tokenAt_punctuator htoken hend hclose
      refine ⟨.closed ⟨closing, some s₁.jsonPos, 1⟩, s₁, rfl, hmoved, hdepth, rfl, r, g ++ [close],
        hr, by rw [hpos, hr]; simp, ?_⟩
      intro α item
      exact MoreItems.close (hskip.gap (by simp [hr]))
    · exact ⟨.bad, s₁, by rw [if_neg hend]; rfl, hmoved, hdepth, trivial⟩

/-! ### The loops -/

section

variable {D : Type}

/-- What is asked of the recursive call at depth `d`: it returns, and a value comes
back only behind a text of `value` and with the depth as it was. -/
def BuildsValues (d : Nat) (value : WString → Value D → Prop)
    (build : JsonValueSerializer → Except Fault (Option (Value D) × JsonValueSerializer)) : Prop :=
  ∀ s, 0 ∉ s.jsonPos → s.stackDepth = d →
    ∃ r s', build s = .ok (r, s') ∧ Moved s s' ∧
      ∀ v, r = some v → s'.stackDepth = d ∧
        ∃ g t, s.jsonPos = g ++ t ++ s'.jsonPos ∧ Gap g ∧ t ≠ [] ∧ value t v

/-- What a loop says about the text between `s` and `s'`: `node` has been extended
by the items of the text, which ends at the bracket `s'` stands at. -/
def LoopText {α : Type} (s s' : JsonValueSerializer) (item : WString → α → Prop)
    (closing : TokenType) (close : WChar) (token : Token) (as : List α) : Prop :=
  token = ⟨closing, some s'.jsonPos, 1⟩ ∧
    ∃ r u, s'.jsonPos = close :: r ∧ s.jsonPos = u ++ r ∧ Items item close u as

/-- A loop that stops at once has added nothing. -/
theorem loopText_nil {α : Type} {s : JsonValueSerializer} (item : WString → α → Prop)
    {closing : TokenType} {close : WChar} {token : Token} (htoken : TokenAt token s.jsonPos)
    (htype : token.type = closing) (hclose : punctuator close = some closing) :
    LoopText s s item closing close token [] := by
  obtain ⟨r, hr, rfl⟩ := tokenAt_punctuator htoken htype hclose
  exact ⟨rfl, r, [close], hr, hr, Items.empty Gap.nil⟩

/-- An item in front of the end of the container. -/
theorem loopText_last {α : Type} {s s₁ s₂ : JsonValueSerializer} {item : WString → α → Prop}
    {closing : TokenType} {close : WChar} {token : Token} {g t : WString} {a : α}
    (hpos : s.jsonPos = g ++ t ++ s₁.jsonPos) (hg : Gap g) (hitem : item t a)
    (hafter : AfterText s₁ s₂ closing close (.closed token)) :
    LoopText s s₂ item closing close token [a] := by
  obtain ⟨htoken, r, u, hr, hu, hmore⟩ := hafter
  refine ⟨htoken, r, g ++ t ++ u, hr, by rw [hpos, hu]; simp, Items.items hg hitem (hmore item)⟩

/-- An item in front of a comma and of the rest of the container. -/
theorem loopText_cons {α : Type} {s s₁ s₂ s₃ : JsonValueSerializer} {item : WString → α → Prop}
    {closing : TokenType} {close : WChar} {token token' : Token} {g t : WString} {a : α}
    {as : List α} (hpos : s.jsonPos = g ++ t ++ s₁.jsonPos) (hg : Gap g) (hitem : item t a)
    (hafter : AfterText s₁ s₂ closing close (.more token'))
    (hloop : LoopText s₂ s₃ item closing close token as) :
    LoopText s s₃ item closing close token (a :: as) := by
  obtain ⟨-, g₁, g₂, hg₁, hskip, hpos₁⟩ := hafter
  obtain ⟨htoken, r, u, hr, hu, hitems⟩ := hloop
  have hne : s₂.jsonPos ≠ [] := by simp [hu, items_ne_nil hitems]
  refine ⟨htoken, r, g ++ t ++ (g₁ ++ ','.toNat :: (g₂ ++ u)), hr, ?_, ?_⟩
  · rw [hpos, hpos₁, hu]
    simp
  · exact Items.items hg hitem (moreItems_comma hg₁ (hskip.gap hne) hitems)

/-- The text left is shorter behind an item. -/
theorem length_lt_of_item {s s₁ s₂ : JsonValueSerializer} {g t : WString}
    (hpos : s.jsonPos = g ++ t ++ s₁.jsonPos) (ht : t ≠ []) (hmoved : Moved s₁ s₂) :
    s₂.jsonPos.length < s.jsonPos.length := by
  have hle := hmoved.within.length_le
  have hlt := List.length_pos_iff.mpr ht
  rw [hpos, List.length_append, List.length_append]
  omega

/-- If the array loop gives a list, the text it has passed is that of the items it added. By
induction on the length of the text. -/
theorem arrayLoop_spec {d : Nat} {value : WString → Value D → Prop}
    {build : JsonValueSerializer → Except Fault (Option (Value D) × JsonValueSerializer)}
    (hbuild : BuildsValues d value build) (s : JsonValueSerializer) (token : Token)
    (node : List (Value D)) (hz : 0 ∉ s.jsonPos) (hd : s.stackDepth = d)
    (htoken : TokenAt token s.jsonPos) :
    ∃ r s', arrayLoop build s token node = .ok (r, s') ∧ Moved s s' ∧
      ∀ items tok, r = some (items, tok) → s'.stackDepth = d ∧
        ∃ as, items = node ++ as ∧ LoopText s s' value .arrayEnd ']'.toNat tok as := by
  -- On the text that is left: each item takes some of it.
  induction hn : s.jsonPos.length using Nat.strong_induction_on generalizing s token node with
  | _ n ih =>
    rw [arrayLoop]
    by_cases htype : token.type = .arrayEnd
    · rw [if_pos htype]
      refine ⟨_, s, rfl, Moved.refl s, ?_⟩
      rintro items tok heq
      cases heq
      exact ⟨hd, [], (List.append_nil node).symm, loopText_nil value htoken htype rfl⟩
    rw [if_neg htype]
    obtain ⟨r, s₁, hcall, hmoved₁, hvalue⟩ := hbuild s hz hd
    rw [hcall]
    simp only [ok_bind]
    cases r with
    | none => exact ⟨none, s₁, rfl, hmoved₁, by simp⟩
    | some v =>
      obtain ⟨hd₁, g, t, hpos, hg, hne, hitem⟩ := hvalue v rfl
      obtain ⟨res, s₂, hafter, hmoved₂, hd₂, htext⟩ :=
        afterItem_spec s₁ punctuator_bracket (hmoved₁.nulFree hz)
      have hmoved : Moved s s₂ := hmoved₁.trans hmoved₂
      simp only [hafter, ok_bind]
      cases res with
      | bad => exact ⟨none, s₂, rfl, hmoved, by simp⟩
      | closed tok =>
        refine ⟨_, s₂, rfl, hmoved, ?_⟩
        rintro items tok' heq
        cases heq
        exact ⟨hd₂.trans hd₁, [v], rfl, loopText_last hpos hg hitem htext⟩
      | more tok =>
        have hlt := length_lt_of_item hpos hne hmoved₂
        obtain ⟨r, s₃, hloop, hmoved₃, hrest⟩ := ih _ (hn ▸ hlt) s₂ tok (node ++ [v])
          (hmoved.nulFree hz) (hd₂.trans hd₁) htext.1 rfl
        refine ⟨r, s₃, ?_, hmoved.trans hmoved₃, ?_⟩
        · simp only [dif_pos hlt]
          exact hloop
        · rintro items tok' heq
          obtain ⟨hd₃, as, rfl, hloopText⟩ := hrest items tok' heq
          exact ⟨hd₃, v :: as, by simp, loopText_cons hpos hg hitem htext hloopText⟩

/-- The key of a member, its colon and the gap behind it. -/
theorem readKey_spec (s : JsonValueSerializer) (token : Token) (hz : 0 ∉ s.jsonPos)
    (htoken : TokenAt token s.jsonPos) :
    ∃ r s', readKey (D := D) s token = .ok (r, s') ∧ Moved s s' ∧
      s'.stackDepth = s.stackDepth ∧
      ∀ key, r = some key → ∃ t w g g', key = keyOf w ∧ Chars t w ∧ Gap g ∧
        Skipped g' s'.jsonPos ∧
        s.jsonPos = quoted t ++ g ++ ':'.toNat :: (g' ++ s'.jsonPos) := by
  unfold readKey
  by_cases htype : token.type ≠ .string
  · rw [if_pos htype]
    obtain ⟨s', hset, herror⟩ := setErrorCode_returns s .unquotedDictionaryKey s.jsonPos
    exact ⟨none, s', by rw [hset]; rfl, herror.moved, herror.stackDepth, by simp⟩
  rw [if_neg htype]
  rw [not_not] at htype
  -- A string token is a literal, so its decoding does not fail.
  obtain ⟨t, w, r, hchars, hpos, rfl⟩ : ∃ t w r, Chars t w ∧ s.jsonPos = quoted t ++ r ∧
      token = ⟨.string, some (quoted t ++ r), (quoted t).length⟩ := by
    generalize s.jsonPos = q at htoken
    cases htoken with
    | invalid _ => cases htype
    | endOfInput => cases htype
    | @lexeme type t r hlex =>
      cases hlex with
      | string hchars => exact ⟨_, _, r, hchars, rfl, rfl⟩
      | punctuator hc =>
        rcases punctuator_cases hc with h | h | h | h | h | h <;> cases h.2.symm.trans htype
      | _ => cases htype
  rw [decodeString_quoted r hchars]
  simp only [ok_bind]
  rw [skip_token hpos]
  simp only [ok_bind]
  have hmoved₁ : Moved s (moveTo s r) := moved_moveTo ⟨quoted t, hpos.symm⟩
  obtain ⟨g, tok, s₂, hparse, hpos₂, hskip, htok, hmoved₂, hdepth₂⟩ :=
    parseToken_run (moveTo s r) (hmoved₁.nulFree hz)
  have hmoved : Moved s s₂ := hmoved₁.trans hmoved₂
  rw [hparse]
  simp only [ok_bind]
  by_cases hcolon : tok.type ≠ .objectPairSeparator
  · exact ⟨none, s₂, by rw [if_pos hcolon]; rfl, hmoved, hdepth₂, by simp⟩
  rw [if_neg hcolon]
  rw [not_not] at hcolon
  obtain ⟨r₂, hr₂, rfl⟩ := tokenAt_punctuator (c := ':'.toNat) htok hcolon rfl
  rw [skip_punctuator hr₂]
  simp only [ok_bind]
  have hmoved₃ : Moved s₂ (moveTo s₂ r₂) := moved_moveTo ⟨[':'.toNat], hr₂.symm⟩
  obtain ⟨g', tok', s₄, hparse', hpos₄, hskip', -, hmoved₄, hdepth₄⟩ :=
    parseToken_run (moveTo s₂ r₂) ((hmoved.trans hmoved₃).nulFree hz)
  rw [hparse']
  refine ⟨_, s₄, rfl, (hmoved.trans hmoved₃).trans hmoved₄, hdepth₄.trans hdepth₂, ?_⟩
  rintro key heq
  cases heq
  refine ⟨t, w, g, g', rfl, hchars, hskip.gap (by simp [hr₂]), hskip', ?_⟩
  rw [moveTo_jsonPos] at hpos₂ hpos₄
  rw [hpos, hpos₂, hr₂, hpos₄]
  simp

/-- The same for the members of an object. -/
theorem objectLoop_spec {d : Nat} {value : WString → Value D → Prop}
    {build : JsonValueSerializer → Except Fault (Option (Value D) × JsonValueSerializer)}
    (hbuild : BuildsValues d value build) (s : JsonValueSerializer) (token : Token)
    (node : List (WString × Value D)) (hz : 0 ∉ s.jsonPos) (hd : s.stackDepth = d)
    (htoken : TokenAt token s.jsonPos) :
    ∃ r s', objectLoop build s token node = .ok (r, s') ∧ Moved s s' ∧
      ∀ entries tok, r = some (entries, tok) → s'.stackDepth = d ∧
        ∃ ms, entries = OrderedMap.setAll node ms ∧
          LoopText s s' (Member value) .objectEnd '}'.toNat tok ms := by
  induction hn : s.jsonPos.length using Nat.strong_induction_on generalizing s token node with
  | _ n ih =>
    rw [objectLoop]
    by_cases htype : token.type = .objectEnd
    · rw [if_pos htype]
      refine ⟨_, s, rfl, Moved.refl s, ?_⟩
      rintro entries tok heq
      cases heq
      exact ⟨hd, [], rfl, loopText_nil (Member value) htoken htype rfl⟩
    rw [if_neg htype]
    obtain ⟨r, s₀, hkey, hmoved₀, hdepth₀, hkeyText⟩ := readKey_spec (D := D) s token hz htoken
    rw [hkey]
    simp only [ok_bind]
    cases r with
    | none => exact ⟨none, s₀, rfl, hmoved₀, by simp⟩
    | some key =>
      obtain ⟨r, s₁, hcall, hmoved₁, hvalue⟩ := hbuild s₀ (hmoved₀.nulFree hz) (hdepth₀.trans hd)
      simp only [hcall, ok_bind]
      cases r with
      | none => exact ⟨none, s₁, rfl, hmoved₀.trans hmoved₁, by simp⟩
      | some v =>
        obtain ⟨hd₁, g, u, hpos₁, hg, hne, hu⟩ := hvalue v rfl
        obtain ⟨t, w, g₁, g₂, rfl, hchars, hg₁, hskip, hpos₀⟩ := hkeyText key rfl
        -- The key, the colon and the value are one member.
        have hg₂ : Gap g₂ := hskip.gap (by simp [hpos₁, hne])
        have hitem : Member value (quoted t ++ g₁ ++ ':'.toNat :: (g₂ ++ g ++ u)) (keyOf w, v) :=
          Member.mk hchars hg₁ (gap_append hg₂ hg) hu
        have hpos : s.jsonPos
            = [] ++ (quoted t ++ g₁ ++ ':'.toNat :: (g₂ ++ g ++ u)) ++ s₁.jsonPos := by
          rw [hpos₀, hpos₁]
          simp
        obtain ⟨res, s₂, hafter, hmoved₂, hd₂, htext⟩ :=
          afterItem_spec s₁ punctuator_brace ((hmoved₀.trans hmoved₁).nulFree hz)
        have hmoved : Moved s s₂ := (hmoved₀.trans hmoved₁).trans hmoved₂
        simp only [hafter, ok_bind]
        cases res with
        | bad => exact ⟨none, s₂, rfl, hmoved, by simp⟩
        | closed tok =>
          refine ⟨_, s₂, rfl, hmoved, ?_⟩
          rintro entries tok' heq
          cases heq
          exact ⟨hd₂.trans hd₁, [(keyOf w, v)], rfl, loopText_last hpos Gap.nil hitem htext⟩
        | more tok =>
          have hlt := length_lt_of_item hpos (by simp) hmoved₂
          obtain ⟨r, s₃, hloop, hmoved₃, hrest⟩ := ih _ (hn ▸ hlt) s₂ tok
            (OrderedMap.set (keyOf w) v node) (hmoved.nulFree hz) (hd₂.trans hd₁) htext.1 rfl
          refine ⟨r, s₃, ?_, hmoved.trans hmoved₃, ?_⟩
          · simp only [dif_pos hlt]
            exact hloop
          · rintro entries tok' heq
            obtain ⟨hd₃, ms, rfl, hloopText⟩ := hrest entries tok' heq
            exact ⟨hd₃, (keyOf w, v) :: ms, rfl,
              loopText_cons hpos Gap.nil hitem htext hloopText⟩

/-! ### The recursion -/

variable (F : Doubles D)

/-- The end of a call: the token at `json_pos_` is skipped and the level left. -/
theorem finish_token {s : JsonValueSerializer} {type : TokenType} {p : Option WString}
    {t r : WString} (v : Value D) (hpos : s.jsonPos = t ++ r) :
    s.finish ⟨type, p, t.length⟩ (some v)
      = .ok (some v, { moveTo s r with stackDepth := s.stackDepth - 1 }) := by
  unfold finish
  rw [skip_token hpos]
  rfl

/-- The result of a call that has read a value of the grammar, from `s` with the
depth `d` on. -/
def ValueRead (n d : Nat) (isRoot : Bool) (s s' : JsonValueSerializer) (v : Value D) : Prop :=
  s'.stackDepth = d ∧ (isRoot = true → IsContainer v) ∧
    ∃ g t, s.jsonPos = g ++ t ++ s'.jsonPos ∧ Gap g ∧ t ≠ [] ∧ JsonText F n t v

/-- A call that has come to the token `t` and read the value `v` there. -/
theorem finish_spec {n d : Nat} {isRoot : Bool} {s s₁ s₂ : JsonValueSerializer}
    {type : TokenType} {p : Option WString} {g t u r : WString} {v : Value D}
    (hmoved : Moved s s₂) (hd : s₂.stackDepth = d + 1) (hpos : s.jsonPos = g ++ s₁.jsonPos)
    (hg : Gap g) (hs₁ : s₁.jsonPos = u ++ r) (hs₂ : s₂.jsonPos = t ++ r) (hu : u ≠ [])
    (hroot : isRoot = true → IsContainer v) (hv : JsonText F n u v) :
    ∃ r s', s₂.finish ⟨type, p, t.length⟩ (some v) = .ok (r, s') ∧ Moved s s' ∧
      ∀ v, r = some v → ValueRead F n d isRoot s s' v := by
  refine ⟨_, _, finish_token v hs₂, ?_, ?_⟩
  · exact hmoved.trans ⟨rfl, rfl, t, hs₂.symm⟩
  · rintro v' heq
    cases heq
    refine ⟨?_, hroot, g, u, ?_, hg, hu, hv⟩
    · show s₂.stackDepth - 1 = d
      omega
    · rw [hpos, hs₁, List.append_assoc]
      rfl

/-- Below the last level every call fails. -/
theorem buildValue_limit (n : Nat) (isRoot : Bool) (s : JsonValueSerializer)
    (hlimit : kStackLimit < s.stackDepth + 1) :
    ∃ r s', buildValue F (n + 1) isRoot s = .ok (r, s') ∧ Moved s s' ∧
      ∀ v, r = some v → ValueRead F n s.stackDepth isRoot s s' v := by
  refine ⟨none, { s with stackDepth := s.stackDepth + 1 }, ?_, ⟨rfl, rfl, List.suffix_rfl⟩, by simp⟩
  rw [buildValue]
  simp [hlimit]

/-- A call with enough levels left returns, and a value comes back only where the
grammar has it. -/
theorem buildValue_spec (n : Nat) (isRoot : Bool) (s : JsonValueSerializer) (hz : 0 ∉ s.jsonPos)
    (hd : kStackLimit ≤ s.stackDepth + n) :
    ∃ r s', buildValue F (n + 1) isRoot s = .ok (r, s') ∧ Moved s s' ∧
      ∀ v, r = some v → ValueRead F n s.stackDepth isRoot s s' v := by
  -- `n` counts the levels left; a call that would pass the limit returns before it reads.
  induction n generalizing isRoot s with
  | zero => exact buildValue_limit F 0 isRoot s (Nat.lt_succ_of_le hd)
  | succ n ih =>
    by_cases hlimit : kStackLimit < s.stackDepth + 1
    · exact buildValue_limit F (n + 1) isRoot s hlimit
    obtain ⟨g, token, s₁, hparse, hpos, hskip, htoken, hmoved₁, hdepth₁⟩ :=
      parseToken_run { s with stackDepth := s.stackDepth + 1 } hz
    have hpos : s.jsonPos = g ++ s₁.jsonPos := hpos
    have hdepth₁ : s₁.stackDepth = s.stackDepth + 1 := hdepth₁
    have hmoved : Moved s s₁ := ⟨hmoved₁.startPos, hmoved₁.allowTrailingComma, hmoved₁.within⟩
    -- The items of a container are read by the same function one level down.
    have hbuild : BuildsValues (s.stackDepth + 1) (JsonText F n) (buildValue F (n + 1) false) := by
      intro s' hz' hd'
      obtain ⟨r, s'', hcall, hmoved', hvalue⟩ := ih false s' hz' (by omega)
      refine ⟨r, s'', hcall, hmoved', fun v hv => ?_⟩
      obtain ⟨hdepth, -, htext⟩ := hvalue v hv
      exact ⟨hdepth.trans hd', htext⟩
    rw [buildValue]
    simp only [if_neg hlimit, hparse, ok_bind]
    by_cases hroot : isRoot = true ∧ token.type ≠ .objectBegin ∧ token.type ≠ .arrayBegin
    · obtain ⟨s₂, hset, herror⟩ := setErrorCode_returns s₁ .badRootElementType s₁.jsonPos
      exact ⟨none, s₂, by rw [if_pos hroot, hset]; rfl, hmoved.trans herror.moved, by simp⟩
    rw [if_neg hroot]
    generalize hq : s₁.jsonPos = q at htoken
    -- What the token is decides the branch; the grammar has a value for each that returns one.
    cases htoken with
    | invalid _ => exact ⟨none, s₁, rfl, hmoved, by simp⟩
    | endOfInput => exact ⟨none, s₁, rfl, hmoved, by simp⟩
    | @lexeme type t r hlex =>
      obtain ⟨c, u, hcu, -⟩ := lexeme_head hlex
      have hne : t ≠ [] := by simp [hcu]
      have hg : Gap g := hskip.gap (by simp [hq, hne])
      cases hlex with
      | null =>
        exact finish_spec F hmoved hdepth₁ hpos hg hq hq hne
          (fun h => absurd ⟨h, by simp, by simp⟩ hroot) ValueText.null
      | boolTrue =>
        exact finish_spec F hmoved hdepth₁ hpos hg hq hq hne
          (fun h => absurd ⟨h, by simp, by simp⟩ hroot) ValueText.boolTrue
      | boolFalse =>
        exact finish_spec F hmoved hdepth₁ hpos hg hq hq hne
          (fun h => absurd ⟨h, by simp, by simp⟩ hroot) ValueText.boolFalse
      | number num =>
        simp only [decodeNumber_number F num r, ok_bind]
        cases hdenote : num.denote F with
        | none => exact ⟨none, s₁, rfl, hmoved, by simp⟩
        | some v =>
          exact finish_spec F hmoved hdepth₁ hpos hg hq hq hne
            (fun h => absurd ⟨h, by simp, by simp⟩ hroot) (ValueText.number hdenote)
      | string hchars =>
        simp only [decodeString_quoted r hchars, ok_bind]
        exact finish_spec F hmoved hdepth₁ hpos hg hq hq hne
          (fun h => absurd ⟨h, by simp, by simp⟩ hroot) (ValueText.string hchars)
      | @punctuator c type hc =>
        have hq : s₁.jsonPos = c :: r := hq
        have hmoved₂ : Moved s (moveTo s₁ r) := hmoved.trans (moved_moveTo ⟨[c], hq.symm⟩)
        obtain ⟨g', tok, s₂, hparse₂, hpos₂, hskip₂, htok, hmoved₃, hdepth₂⟩ :=
          parseToken_run (moveTo s₁ r) (hmoved₂.nulFree hz)
        have hmoved₂ : Moved s s₂ := hmoved₂.trans hmoved₃
        have hdepth₂ : s₂.stackDepth = s.stackDepth + 1 := hdepth₂.trans hdepth₁
        rw [moveTo_jsonPos] at hpos₂
        -- Of the six punctuators only `[` and `{` begin a value.
        rcases punctuator_cases hc with h | h | h | h | h | h <;> obtain ⟨rfl, rfl⟩ := h
        · obtain ⟨res, s₃, hloop, hmoved₄, hitems⟩ :=
            arrayLoop_spec hbuild s₂ tok [] (hmoved₂.nulFree hz) hdepth₂ htok
          simp only [List.length_singleton, skip_punctuator hq, ok_bind, hparse₂, hloop]
          cases res with
          | none => exact ⟨none, s₃, rfl, hmoved₂.trans hmoved₄, by simp⟩
          | some res =>
            obtain ⟨items, tok'⟩ := res
            obtain ⟨hd₃, as, rfl, rfl, r', u, hr', hu, htext⟩ := hitems items tok' rfl
            have hg' : Gap g' := hskip₂.gap (by simp [hu, items_ne_nil htext])
            exact finish_spec F (t := [']'.toNat]) (u := '['.toNat :: (g' ++ u))
              (hmoved₂.trans hmoved₄) hd₃ hpos hg
              (by rw [hq, hpos₂, hu]; simp) hr' (by simp) (v := .list _) (fun _ => trivial)
              (ValueText.array (items_gap hg' htext))
        · exact ⟨none, s₁, rfl, hmoved, by simp⟩
        · exact ⟨none, s₁, rfl, hmoved, by simp⟩
        · obtain ⟨res, s₃, hloop, hmoved₄, hitems⟩ :=
            objectLoop_spec hbuild s₂ tok [] (hmoved₂.nulFree hz) hdepth₂ htok
          simp only [List.length_singleton, skip_punctuator hq, ok_bind, hparse₂, hloop]
          cases res with
          | none => exact ⟨none, s₃, rfl, hmoved₂.trans hmoved₄, by simp⟩
          | some res =>
            obtain ⟨entries, tok'⟩ := res
            obtain ⟨hd₃, ms, rfl, rfl, r', u, hr', hu, htext⟩ := hitems entries tok' rfl
            have hg' : Gap g' := hskip₂.gap (by simp [hu, items_ne_nil htext])
            exact finish_spec F (t := ['}'.toNat]) (u := '{'.toNat :: (g' ++ u))
              (hmoved₂.trans hmoved₄) hd₃ hpos hg
              (by rw [hq, hpos₂, hu]; simp) hr' (by simp) (v := .dictionary _) (fun _ => trivial)
              (ValueText.object (items_gap hg' htext) (OrderedMap.describes_setAll ms))
        · exact ⟨none, s₁, rfl, hmoved, by simp⟩
        · exact ⟨none, s₁, rfl, hmoved, by simp⟩

end

end Mylib.Proofs.Base
