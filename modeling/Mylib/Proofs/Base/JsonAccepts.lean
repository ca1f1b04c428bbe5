import Mylib.Proofs.Base.JsonValues

/-!
# `Mylib.Proofs.Base.JsonAccepts`: the parser accepts exactly its grammar

`buildValue_spec` says that what the parser accepts is in the grammar. Here a text
of the grammar is accepted, with the value it denotes (`buildValue_complete`), and
the two directions meet in `parseRoot_iff`.

A number ends where no more of it can follow, so the text behind a scalar has to be
`Delimited`; inside a container it always is.
-/

set_option autoImplicit false

namespace Mylib.Proofs.Base

open Mylib.Lib
open Mylib.Lib.CString
open Mylib.Spec.Base
open JsonValueSerializer JsonGrammar

/-! ### What may stand behind a value -/

/-- A character that no number goes on with. -/
theorem delimited_cons {c : WChar} (r : WString) (hd : isDigit c = false)
    (hc : c ∉ wide ['.', 'e', 'E']) : Delimited (c :: r) := by
  intro d h
  obtain rfl : c = d := by simpa using h
  exact ⟨by simp [hd], hc⟩

/-- A gap delimits, too, for a blank and a `/` end a number. -/
theorem delimited_gap {g q : WString} (hg : Gap g) (hq : Delimited q) : Delimited (g ++ q) := by
  cases hg with
  | nil => exact hq
  | blank hc _ =>
    rw [blank_iff] at hc
    rcases hc with rfl | rfl | rfl | rfl <;> exact delimited_cons _ (by decide) (by decide)
  | line _ _ _ => exact delimited_cons (c := '/'.toNat) _ (by decide) (by decide)
  | block _ _ => exact delimited_cons (c := '/'.toNat) _ (by decide) (by decide)

/-- Behind an item stands a gap and then a comma or the end of the container. -/
theorem delimited_moreItems {α : Type} {item : WString → α → Prop} {close : WChar}
    {u : WString} {as : List α} (r : WString) (h : MoreItems item close u as)
    (hclose : ∀ r, Delimited (close :: r)) : Delimited (u ++ r) := by
  have hcomma : ∀ r, Delimited (','.toNat :: r) := fun r =>
    delimited_cons r (by decide) (by decide)
  cases h with
  | close hg =>
    rw [List.append_assoc]
    exact delimited_gap hg (hclose _)
  | trailing hg _ =>
    rw [List.append_assoc]
    exact delimited_gap hg (hcomma _)
  | next hg _ _ _ =>
    rw [List.append_assoc]
    exact delimited_gap hg (hcomma _)

/-! ### Single calls -/

/-- A punctuator behind a gap is parsed as its token. -/
theorem parseToken_punctuator {s : JsonValueSerializer} {type : TokenType} {c : WChar}
    {g r : WString} (hpos : s.jsonPos = g ++ c :: r) (hg : Gap g) (hc : punctuator c = some type)
    (hz : 0 ∉ g) :
    s.parseToken = .ok (⟨type, some (c :: r), 1⟩, moveTo s (c :: r)) := by
  have hzero : c ≠ 0 := by
    rintro rfl
    simp [punctuator] at hc
  refine parseToken_lexeme (t := [c]) hpos hg (Lexeme.punctuator hc) ?_ (by simp [hz, hzero.symm])
  rintro rfl
  rcases punctuator_cases hc with h | h | h | h | h | h <;> cases h.2

/-- Behind an item the container's end is found. -/
theorem afterItem_close {s : JsonValueSerializer} {closing : TokenType} {close : WChar}
    {g r : WString} (hclose : punctuator close = some closing) (hne : closing ≠ .listSeparator)
    (hpos : s.jsonPos = g ++ close :: r) (hg : Gap g) (hz : 0 ∉ g) :
    s.afterItem closing
      = .ok (.closed ⟨closing, some (close :: r), 1⟩, moveTo s (close :: r)) := by
  unfold afterItem
  rw [parseToken_punctuator hpos hg hclose hz]
  simp [hne]

/-- The end is also found behind a trailing comma, which these calls allow. -/
theorem afterItem_trailing {s : JsonValueSerializer} {closing : TokenType} {close : WChar}
    {g g' r : WString} (hclose : punctuator close = some closing)
    (hallow : s.allowTrailingComma = true)
    (hpos : s.jsonPos = g ++ ','.toNat :: (g' ++ close :: r)) (hg : Gap g) (hg' : Gap g')
    (hz : 0 ∉ g) (hz' : 0 ∉ g') :
    s.afterItem closing
      = .ok (.closed ⟨closing, some (close :: r), 1⟩, moveTo s (close :: r)) := by
  unfold afterItem
  rw [parseToken_punctuator hpos hg punctuator_comma hz]
  simp only [ok_bind, if_true, skip_punctuator (moveTo_jsonPos s _), moveTo_moveTo]
  rw [parseToken_punctuator (moveTo_jsonPos s _) hg' hclose hz']
  simp [hallow]

/-- A comma with a further item leads to that item's token. -/
theorem afterItem_more {s s' : JsonValueSerializer} {closing : TokenType} {token : Token}
    {g q : WString} (hpos : s.jsonPos = g ++ ','.toNat :: q) (hg : Gap g) (hz : 0 ∉ g)
    (hparse : (moveTo s q).parseToken = .ok (token, s')) (hne : token.type ≠ closing) :
    s.afterItem closing = .ok (.more token, s') := by
  unfold afterItem
  rw [parseToken_punctuator hpos hg punctuator_comma hz]
  simp only [ok_bind, if_true, skip_punctuator (moveTo_jsonPos s _), moveTo_moveTo, hparse,
    if_neg hne, pure_eq_ok]

/-! ### Items -/

/-- The first token of an item is not the end of its container. It is found behind
a gap, and again at the item itself. -/
def Starts {α : Type} (closing : TokenType) (item : WString → α → Prop) : Prop :=
  ∀ {t : WString} {a : α}, item t a → ∀ {s : JsonValueSerializer} {g r : WString},
    s.jsonPos = g ++ (t ++ r) → Gap g → 0 ∉ g ++ t → Delimited r →
    ∃ token, s.parseToken = .ok (token, moveTo s (t ++ r)) ∧ token.type ≠ closing ∧
      (moveTo s (t ++ r)).parseToken = .ok (token, moveTo s (t ++ r))

/-- It is enough that the text of an item begins with a token, and is nothing more
when that token is a number. -/
theorem starts_of_lexeme {α : Type} {closing : TokenType} {item : WString → α → Prop}
    (h : ∀ {t : WString} {a : α}, item t a → ∃ type u t', t = u ++ t' ∧ Lexeme type u ∧
      (type = .number → t' = []) ∧ type ≠ closing) : Starts closing item := by
  intro t a hitem s g r hpos hg hz hr
  obtain ⟨type, u, t', rfl, hlex, hnumber, htype⟩ := h hitem
  have hz' : 0 ∉ g ++ u := fun h => hz (by
    rw [← List.append_assoc]
    exact List.mem_append_left _ h)
  have hdelim : type = .number → Delimited (t' ++ r) := by
    intro h
    rw [hnumber h]
    exact hr
  refine ⟨⟨type, some (u ++ (t' ++ r)), u.length⟩, ?_, htype, ?_⟩
  · rw [List.append_assoc u] at hpos ⊢
    exact parseToken_lexeme hpos hg hlex hdelim hz'
  · rw [List.append_assoc u]
    exact parseToken_lexeme (g := []) rfl Gap.nil hlex hdelim fun h =>
      hz' (List.mem_append_right _ h)

/-- What `afterItem` finds at `u`, with `r` behind the container: its end, or the
next of its items. -/
theorem afterItem_items {α : Type} {item : WString → α → Prop} {closing : TokenType}
    {close : WChar} {u : WString} {as : List α} {s : JsonValueSerializer} {r : WString}
    (hclose : punctuator close = some closing) (hne : closing ≠ .listSeparator)
    (hdelim : ∀ r, Delimited (close :: r)) (hstarts : Starts closing item)
    (hmore : MoreItems item close u as) (hpos : s.jsonPos = u ++ r) (hz : 0 ∉ u)
    (hallow : s.allowTrailingComma = true) :
    (as = [] ∧ s.afterItem closing
      = .ok (.closed ⟨closing, some (close :: r), 1⟩, moveTo s (close :: r))) ∨
    ∃ t a u' as' token, as = a :: as' ∧ item t a ∧ MoreItems item close u' as' ∧ 0 ∉ t ++ u' ∧
      (t ++ (u' ++ r)).length < s.jsonPos.length ∧ token.type ≠ closing ∧
      (moveTo s (t ++ (u' ++ r))).parseToken = .ok (token, moveTo s (t ++ (u' ++ r))) ∧
      s.afterItem closing = .ok (.more token, moveTo s (t ++ (u' ++ r))) := by
  cases hmore with
  | close hg =>
    simp only [List.mem_append, not_or] at hz
    exact Or.inl ⟨rfl, afterItem_close hclose hne (by simp [hpos]) hg hz.1⟩
  | trailing hg hg' =>
    simp only [List.mem_append, List.mem_cons, not_or] at hz
    exact Or.inl ⟨rfl,
      afterItem_trailing hclose hallow (by simp [hpos]) hg hg' hz.1 hz.2.2.1⟩
  | @next g g' t u' a as' hg hg' ha hmore =>
    simp only [List.mem_append, List.mem_cons, not_or] at hz
    obtain ⟨hzg, -, ⟨hzg', hzt⟩, hzu⟩ := hz
    obtain ⟨token, hparse, htype, hself⟩ := hstarts ha (s := moveTo s (g' ++ (t ++ (u' ++ r))))
      (g := g') (r := u' ++ r) rfl hg' (by simp [hzg', hzt])
      (delimited_moreItems r hmore hdelim)
    refine Or.inr ⟨t, a, u', as', token, rfl, ha, hmore, by simp [hzt, hzu], ?_, htype, hself, ?_⟩
    · simp only [hpos, List.length_append, List.length_cons]
      omega
    · exact afterItem_more (q := g' ++ (t ++ (u' ++ r))) (by simp [hpos]) hg hzg hparse htype

/-! ### The loops -/

section

variable {D : Type}

/-- What is asked of the recursive call at depth `d`: it reads every text of
`value`. -/
def AcceptsValues (d : Nat) (value : WString → Value D → Prop)
    (build : JsonValueSerializer → Except Fault (Option (Value D) × JsonValueSerializer)) : Prop :=
  ∀ {t : WString} {v : Value D}, value t v → ∀ {s : JsonValueSerializer} {g r : WString},
    s.jsonPos = g ++ (t ++ r) → Gap g → 0 ∉ g ++ t → Delimited r → s.stackDepth = d →
    s.allowTrailingComma = true → build s = .ok (some v, moveTo s r)

/-- `]` ends a number. -/
theorem delimited_bracket (r : WString) : Delimited (']'.toNat :: r) :=
  delimited_cons r (by decide) (by decide)

/-- `}` ends a number. -/
theorem delimited_brace (r : WString) : Delimited ('}'.toNat :: r) :=
  delimited_cons r (by decide) (by decide)

/-- The array loop reads the items of a list, given that the recursive call reads each of them. By
induction on the derivation of the items. -/
theorem arrayLoop_items {d : Nat} {value : WString → Value D → Prop}
    {build : JsonValueSerializer → Except Fault (Option (Value D) × JsonValueSerializer)}
    (hbuild : AcceptsValues d value build) (hstarts : Starts .arrayEnd value) (r : WString)
    {as : List (Value D)} {u t : WString} {a : Value D} {s : JsonValueSerializer} {token : Token}
    (node : List (Value D)) (hmore : MoreItems value ']'.toNat u as) (ha : value t a)
    (hpos : s.jsonPos = t ++ (u ++ r)) (hz : 0 ∉ t ++ u) (hd : s.stackDepth = d)
    (hallow : s.allowTrailingComma = true) (htype : token.type ≠ .arrayEnd) :
    arrayLoop build s token node
      = .ok (some (node ++ a :: as, ⟨.arrayEnd, some (']'.toNat :: r), 1⟩),
          moveTo s (']'.toNat :: r)) := by
  induction as generalizing u t a s token node with
  | nil =>
    -- The item is read, and what follows it delimits.
    have hbuilt := hbuild ha (g := []) hpos Gap.nil (fun h => hz (List.mem_append_left _ h))
      (delimited_moreItems r hmore delimited_bracket) hd hallow
    rw [arrayLoop, if_neg htype, hbuilt]
    simp only [ok_bind]
    -- Nothing more: the container's end comes next, maybe behind a comma.
    rcases afterItem_items punctuator_bracket (by decide) delimited_bracket hstarts hmore
      (moveTo_jsonPos s (u ++ r)) (fun h => hz (List.mem_append_right _ h)) hallow with
      ⟨-, hafter⟩ | ⟨_, _, _, _, _, hcons, _⟩
    · rw [hafter]
      rfl
    · cases hcons
  | cons a' as ih =>
    have hbuilt := hbuild ha (g := []) hpos Gap.nil (fun h => hz (List.mem_append_left _ h))
      (delimited_moreItems r hmore delimited_bracket) hd hallow
    rw [arrayLoop, if_neg htype, hbuilt]
    simp only [ok_bind]
    -- Behind a comma comes the next item, whose text is shorter.
    rcases afterItem_items punctuator_bracket (by decide) delimited_bracket hstarts hmore
      (moveTo_jsonPos s (u ++ r)) (fun h => hz (List.mem_append_right _ h)) hallow with
      ⟨hnil, _⟩ | ⟨t', a'', u', as', token', hcons, ha', hmore', hz', hlt, htype', -, hafter⟩
    · cases hnil
    · cases hcons
      have hlt : (t' ++ (u' ++ r)).length < s.jsonPos.length :=
        lt_of_lt_of_le hlt (hpos ▸ (List.suffix_append t (u ++ r)).length_le)
      rw [hafter]
      simp only [ok_bind, moveTo_moveTo]
      refine (dif_pos hlt).trans ?_
      rw [ih (s := moveTo s (t' ++ (u' ++ r))) (node ++ [a]) hmore' ha' rfl hz' hd hallow htype']
      simp

/-- The key and the colon are passed over, and the token behind them is read. -/
theorem readKey_member {s s' : JsonValueSerializer} {t w g q : WString} {token : Token}
    (hchars : Chars t w) (hg : Gap g) (hz : 0 ∉ g)
    (hpos : s.jsonPos = quoted t ++ (g ++ ':'.toNat :: q))
    (hparse : (moveTo s q).parseToken = .ok (token, s')) :
    readKey (D := D) s ⟨.string, some s.jsonPos, (quoted t).length⟩
      = .ok (some (keyOf w), s') := by
  unfold readKey
  rw [if_neg (by simp), hpos, decodeString_quoted _ hchars]
  simp only [ok_bind, skip_token hpos]
  rw [parseToken_punctuator (moveTo_jsonPos s _) hg (show punctuator ':'.toNat = _ from rfl) hz]
  simp only [ok_bind, ne_eq, not_true_eq_false, if_false, moveTo_moveTo,
    skip_punctuator (moveTo_jsonPos s _), hparse]
  rfl

/-- A member as the loop for an object reads it: key, colon and value. -/
theorem member_read {d : Nat} {value : WString → Value D → Prop}
    {build : JsonValueSerializer → Except Fault (Option (Value D) × JsonValueSerializer)}
    (hbuild : AcceptsValues d value build) (hstarts : Starts .objectEnd value) {t r : WString}
    {m : WString × Value D} {s : JsonValueSerializer} {token : Token} (hm : Member value t m)
    (hpos : s.jsonPos = t ++ r) (hz : 0 ∉ t) (hr : Delimited r) (hd : s.stackDepth = d)
    (hallow : s.allowTrailingComma = true) (hself : s.parseToken = .ok (token, s)) :
    ∃ s₁, readKey (D := D) s token = .ok (some m.1, s₁) ∧
      build s₁ = .ok (some m.2, moveTo s r) := by
  cases hm with
  | @mk k w g g' u v hchars hg hg' hv =>
    simp only [List.mem_append, List.mem_cons, not_or] at hz
    obtain ⟨⟨hzk, hzg⟩, -, hzg', hzu⟩ := hz
    have hpos : s.jsonPos = quoted k ++ (g ++ ':'.toNat :: (g' ++ (u ++ r))) := by simp [hpos]
    obtain ⟨token', hparse, -, -⟩ := hstarts hv (s := moveTo s (g' ++ (u ++ r))) rfl hg'
      (by simp [hzg', hzu]) hr
    -- The token the loop comes with is the key.
    have hkey := parseToken_lexeme (s := s) (g := []) (t := quoted k) hpos Gap.nil
      (Lexeme.string hchars) (by simp) (by simpa using hzk)
    obtain rfl : ⟨.string, some s.jsonPos, (quoted k).length⟩ = token := by
      rw [hself, ← hpos] at hkey
      exact (congrArg Prod.fst (Except.ok.inj hkey)).symm
    refine ⟨moveTo s (u ++ r), readKey_member hchars hg hzg hpos hparse, ?_⟩
    exact hbuild hv (g := []) rfl Gap.nil (by simpa using hzu) hr hd hallow

/-- The same for the members of an object. -/
theorem objectLoop_items {d : Nat} {value : WString → Value D → Prop}
    {build : JsonValueSerializer → Except Fault (Option (Value D) × JsonValueSerializer)}
    (hbuild : AcceptsValues d value build) (hstarts : Starts .objectEnd value)
    (hmembers : Starts .objectEnd (Member value)) (r : WString)
    {ms : List (WString × Value D)} {u t : WString} {m : WString × Value D}
    {s : JsonValueSerializer} {token : Token} (node : List (WString × Value D))
    (hmore : MoreItems (Member value) '}'.toNat u ms) (hm : Member value t m)
    (hpos : s.jsonPos = t ++ (u ++ r)) (hz : 0 ∉ t ++ u) (hd : s.stackDepth = d)
    (hallow : s.allowTrailingComma = true) (htype : token.type ≠ .objectEnd)
    (hself : s.parseToken = .ok (token, s)) :
    objectLoop build s token node
      = .ok (some (OrderedMap.setAll node (m :: ms), ⟨.objectEnd, some ('}'.toNat :: r), 1⟩),
          moveTo s ('}'.toNat :: r)) := by
  have hzt : 0 ∉ t := fun h => hz (List.mem_append_left _ h)
  have hzu : 0 ∉ u := fun h => hz (List.mem_append_right _ h)
  induction ms generalizing u t m s token node with
  | nil =>
    obtain ⟨s₁, hkey, hbuilt⟩ := member_read hbuild hstarts hm hpos hzt
      (delimited_moreItems r hmore delimited_brace) hd hallow hself
    rw [objectLoop, if_neg htype, hkey]
    simp only [ok_bind, hbuilt]
    rcases afterItem_items punctuator_brace (by decide) delimited_brace hmembers hmore
      (moveTo_jsonPos s (u ++ r)) hzu hallow with
      ⟨-, hafter⟩ | ⟨_, _, _, _, _, hcons, _⟩
    · rw [hafter]
      rfl
    · cases hcons
  | cons m' ms ih =>
    obtain ⟨s₁, hkey, hbuilt⟩ := member_read hbuild hstarts hm hpos hzt
      (delimited_moreItems r hmore delimited_brace) hd hallow hself
    rw [objectLoop, if_neg htype, hkey]
    simp only [ok_bind, hbuilt]
    rcases afterItem_items punctuator_brace (by decide) delimited_brace hmembers hmore
      (moveTo_jsonPos s (u ++ r)) hzu hallow with
      ⟨hnil, _⟩ | ⟨t', m'', u', ms', token', hcons, hm', hmore', hz', hlt, htype', hself', hafter⟩
    · cases hnil
    · cases hcons
      -- What is left is shorter, as the loop wants it.
      have hlt : (t' ++ (u' ++ r)).length < s.jsonPos.length :=
        lt_of_lt_of_le hlt (hpos ▸ (List.suffix_append t (u ++ r)).length_le)
      rw [hafter]
      simp only [ok_bind, moveTo_moveTo]
      refine (dif_pos hlt).trans ?_
      exact ih (s := moveTo s (t' ++ (u' ++ r))) _ hmore' hm' rfl hz' hd hallow htype' hself'
        (fun h => hz' (List.mem_append_left _ h)) (fun h => hz' (List.mem_append_right _ h))

/-! ### The recursion -/

variable (F : Doubles D)

/-- The first token of a value, which is neither the end of a container nor the end of the text. -/
theorem lexeme_of_value {n : Nat} {t : WString} {v : Value D} (h : JsonText F n t v) :
    ∃ type u t', t = u ++ t' ∧ Lexeme type u ∧ (type = .number → t' = []) ∧
      type ≠ .arrayEnd ∧ type ≠ .objectEnd := by
  cases n with
  | zero => exact h.elim
  | succ n =>
    cases h with
    | null => exact ⟨_, _, [], (List.append_nil _).symm, Lexeme.null, by simp⟩
    | boolTrue => exact ⟨_, _, [], (List.append_nil _).symm, Lexeme.boolTrue, by simp⟩
    | boolFalse => exact ⟨_, _, [], (List.append_nil _).symm, Lexeme.boolFalse, by simp⟩
    | @number num _ _ => exact ⟨_, _, [], (List.append_nil _).symm, Lexeme.number num, by simp⟩
    | string hchars => exact ⟨_, _, [], (List.append_nil _).symm, Lexeme.string hchars, by simp⟩
    | array _ => exact ⟨.arrayBegin, ['['.toNat], _, rfl, Lexeme.punctuator rfl, by simp⟩
    | object _ _ => exact ⟨.objectBegin, ['{'.toNat], _, rfl, Lexeme.punctuator rfl, by simp⟩

/-- No value is mistaken for the end of its container. -/
theorem starts_value (n : Nat) :
    Starts .arrayEnd (JsonText F n) ∧ Starts .objectEnd (JsonText F n) := by
  constructor
  · refine starts_of_lexeme fun h => ?_
    obtain ⟨type, u, t', ht, hlex, hnumber, harray, -⟩ := lexeme_of_value F h
    exact ⟨type, u, t', ht, hlex, hnumber, harray⟩
  · refine starts_of_lexeme fun h => ?_
    obtain ⟨type, u, t', ht, hlex, hnumber, -, hobject⟩ := lexeme_of_value F h
    exact ⟨type, u, t', ht, hlex, hnumber, hobject⟩

/-- No member is either, as it begins with a quote. -/
theorem starts_member (value : WString → Value D → Prop) :
    Starts .objectEnd (Member value) := by
  refine starts_of_lexeme fun h => ?_
  cases h with
  | @mk t w g g' u v hchars _ _ _ =>
    exact ⟨.string, quoted t, g ++ ':'.toNat :: (g' ++ u), by simp, Lexeme.string hchars, by simp,
      by simp⟩

/-- The state with one more level entered. -/
def enter (s : JsonValueSerializer) : JsonValueSerializer :=
  { s with stackDepth := s.stackDepth + 1 }

/-- Where `BuildValue` is after the value `v`: behind it, with nothing else changed. -/
theorem finish_built {s : JsonValueSerializer} {type : TokenType} {p : Option WString}
    {q t r : WString} (v : Value D) (hq : q = t ++ r) :
    (moveTo (enter s) q).finish ⟨type, p, t.length⟩ (some v) = .ok (some v, moveTo s r) := by
  rw [finish_token v (show (moveTo _ q).jsonPos = t ++ r from hq)]
  rfl

/-- A number is never the root, which has to be a container. -/
theorem number_not_container {n : Number} {v : Value D} (h : n.denote F = some v) :
    ¬IsContainer v := by
  unfold Number.denote at h
  cases hint : n.int64 with
  | some i =>
    simp only [hint] at h
    cases h
    exact not_false
  | none =>
    simp only [hint] at h
    split_ifs at h
    cases h
    exact not_false

/-- A text of the grammar is read whole, behind any gap. -/
theorem buildValue_complete (n : Nat) (isRoot : Bool) {s : JsonValueSerializer}
    {g t r : WString} {v : Value D} (hv : JsonText F n t v) (hpos : s.jsonPos = g ++ (t ++ r))
    (hg : Gap g) (hz : 0 ∉ g ++ t) (hr : IsContainer v ∨ Delimited r)
    (hd : s.stackDepth + n ≤ kStackLimit) (hallow : s.allowTrailingComma = true)
    (hroot : isRoot = true → IsContainer v) :
    buildValue F (n + 1) isRoot s = .ok (some v, moveTo s r) := by
  induction n generalizing isRoot s g t r v with
  | zero => exact hv.elim
  | succ n ih =>
    have hlimit : ¬kStackLimit < s.stackDepth + 1 := by omega
    have hbuild : AcceptsValues (s.stackDepth + 1) (JsonText F n) (buildValue F (n + 1) false) := by
      intro t v hv s' g r hpos hg hz hr hd' hallow
      exact ih false hv hpos hg hz (Or.inr hr) (by omega) hallow (by simp)
    rw [buildValue]
    simp only [if_neg hlimit]
    change (enter s).parseToken >>= _ = _
    -- The first token, found with the level already entered.
    have htoken : ∀ {type : TokenType} (u r' : WString), t ++ r = u ++ r' → Lexeme type u →
        0 ∉ u → (type = .number → Delimited r') →
        (enter s).parseToken
          = .ok (⟨type, some (u ++ r'), u.length⟩, moveTo (enter s) (u ++ r')) := by
      intro type u r' hur hlex hzu hdelim
      refine parseToken_lexeme (g := g) (by rw [← hur]; exact hpos) hg hlex hdelim ?_
      simp only [List.mem_append, not_or] at hz ⊢
      exact ⟨hz.1, hzu⟩
    have hzt : 0 ∉ t := fun h => hz (List.mem_append_right _ h)
    cases hv with
    | null =>
      rw [htoken _ r rfl Lexeme.null hzt (by simp)]
      simp only [ok_bind]
      rw [if_neg fun h => hroot h.1]
      exact finish_built _ rfl
    | boolTrue =>
      rw [htoken _ r rfl Lexeme.boolTrue hzt (by simp)]
      simp only [ok_bind]
      rw [if_neg fun h => hroot h.1]
      exact finish_built _ rfl
    | boolFalse =>
      rw [htoken _ r rfl Lexeme.boolFalse hzt (by simp)]
      simp only [ok_bind]
      rw [if_neg fun h => hroot h.1]
      exact finish_built _ rfl
    | @number num _ hdenote =>
      have hscalar := number_not_container F hdenote
      rw [htoken _ r rfl (Lexeme.number num) hzt fun _ => hr.resolve_left hscalar]
      simp only [ok_bind]
      rw [if_neg fun h => hscalar (hroot h.1)]
      simp only [decodeNumber_number F num r, hdenote, ok_bind]
      exact finish_built _ rfl
    | string hchars =>
      rw [htoken _ r rfl (Lexeme.string hchars) hzt (by simp)]
      simp only [ok_bind]
      rw [if_neg fun h => hroot h.1]
      simp only [decodeString_quoted r hchars, ok_bind]
      exact finish_built _ rfl
    | @array t' items hitems =>
      have hzt' : 0 ∉ t' := nulFree_tail hzt
      rw [htoken ['['.toNat] (t' ++ r) rfl (Lexeme.punctuator rfl) (by decide) (by simp)]
      simp only [ok_bind]
      rw [if_neg fun h => h.2.2 rfl]
      simp only [skip_token (moveTo_jsonPos (enter s) _), ok_bind, moveTo_moveTo]
      cases hitems with
      | @empty g' hg' =>
        rw [List.mem_append, not_or] at hzt'
        rw [parseToken_punctuator (g := g') (r := r)
          ((moveTo_jsonPos _ _).trans (by simp)) hg' punctuator_bracket hzt'.1]
        simp only [ok_bind]
        rw [arrayLoop, if_pos rfl]
        simp only [pure_eq_ok, ok_bind, moveTo_moveTo]
        exact finish_built (t := [']'.toNat]) _ rfl
      | @items g' t₁ u a as hg' ha hmore =>
        simp only [List.mem_append, not_or] at hzt'
        have hpos' : (moveTo (enter s) (g' ++ t₁ ++ u ++ r)).jsonPos = g' ++ (t₁ ++ (u ++ r)) := by
          simp
        obtain ⟨token, hparse, htype, -⟩ := (starts_value F n).1 ha hpos' hg' (by simp [hzt'.1])
          (delimited_moreItems r hmore delimited_bracket)
        rw [hparse]
        simp only [ok_bind, moveTo_moveTo]
        rw [arrayLoop_items hbuild (starts_value F n).1 r [] hmore ha
          (moveTo_jsonPos (enter s) _) (by simp [hzt'.1.2, hzt'.2]) rfl hallow htype]
        simp only [ok_bind, moveTo_moveTo, List.nil_append]
        exact finish_built (t := [']'.toNat]) _ rfl
    | @object t' members entries hitems hdescribes =>
      have hzt' : 0 ∉ t' := nulFree_tail hzt
      rw [htoken ['{'.toNat] (t' ++ r) rfl (Lexeme.punctuator rfl) (by decide) (by simp)]
      simp only [ok_bind]
      rw [if_neg fun h => h.2.1 rfl]
      simp only [skip_token (moveTo_jsonPos (enter s) _), ok_bind, moveTo_moveTo]
      rw [hdescribes.eq_setAll]
      cases hitems with
      | @empty g' hg' =>
        rw [List.mem_append, not_or] at hzt'
        rw [parseToken_punctuator (g := g') (r := r)
          ((moveTo_jsonPos _ _).trans (by simp)) hg' punctuator_brace hzt'.1]
        simp only [ok_bind]
        rw [objectLoop, if_pos rfl]
        simp only [pure_eq_ok, ok_bind, moveTo_moveTo]
        exact finish_built (t := ['}'.toNat]) _ rfl
      | @items g' t₁ u m ms hg' hm hmore =>
        simp only [List.mem_append, not_or] at hzt'
        have hpos' : (moveTo (enter s) (g' ++ t₁ ++ u ++ r)).jsonPos = g' ++ (t₁ ++ (u ++ r)) := by
          simp
        obtain ⟨token, hparse, htype, hself⟩ := starts_member (JsonText F n) hm hpos' hg'
          (by simp [hzt'.1]) (delimited_moreItems r hmore delimited_brace)
        rw [hparse]
        simp only [ok_bind, moveTo_moveTo] at hself ⊢
        rw [objectLoop_items hbuild (starts_value F n).2 (starts_member _) r [] hmore hm
          (moveTo_jsonPos (enter s) _) (by simp [hzt'.1.2, hzt'.2]) rfl hallow htype hself]
        simp only [ok_bind, moveTo_moveTo]
        exact finish_built (t := ['}'.toNat]) _ rfl

/-! ### Whole texts -/

/-- A parse that succeeds has read a document. -/
theorem document_of_parseRoot {self s' : JsonValueSerializer} {text : WString} {v : Value D}
    (hz : 0 ∉ text) (hroot : parseRoot F (self.start text) = .ok (some v, true, s')) :
    Document F text v := by
  -- A root that was built has the text of a value in front of the cursor.
  obtain ⟨r, s₁, hcall, hmoved, hvalue⟩ :=
    buildValue_spec F kStackLimit true (self.start text) hz (Nat.le_add_left _ _)
  unfold parseRoot at hroot
  rw [hcall] at hroot
  simp only [ok_bind] at hroot
  cases r with
  | none => cases hroot
  | some v' =>
    obtain ⟨g', token, s₂, hparse, hpos₂, hskip, htoken, -⟩ :=
      parseToken_run s₁ (hmoved.nulFree hz)
    simp only [hparse, ok_bind] at hroot
    by_cases hend : token.type = .endOfInput
    · -- At the end of the input everything behind the root has been skipped.
      have hgap : EndGap s₁.jsonPos := by
        rw [hpos₂, tokenAt_endOfInput htoken hend, List.append_nil]
        cases hskip with
        | inl hg' => exact EndGap.gap hg'
        | inr h => exact h.1
      rw [if_pos hend] at hroot
      cases hroot
      obtain ⟨-, hcontainer, g, t, hpos, hg, -, htext⟩ := hvalue v rfl
      exact ⟨⟨g, t, s₁.jsonPos, hpos, hg, hgap, htext⟩, hcontainer rfl⟩
    -- Any other token is unexpected data behind the root.
    · rw [if_neg hend] at hroot
      obtain ⟨s₃, hset, -⟩ := setErrorCode_returns s₂ .unexpectedDataAfterRoot s₂.jsonPos
      rw [hset] at hroot
      cases hroot

/-- The root of a text is read from its first bracket to its last, whatever stands
behind it. -/
theorem buildValue_root (self : JsonValueSerializer) {g t : WString} (e : WString) {v : Value D}
    (hg : Gap g) (htext : JsonText F kStackLimit t v) (hcontainer : IsContainer v)
    (hz : 0 ∉ g ++ t) :
    buildValue F (kStackLimit + 1) true (self.start (g ++ t ++ e))
      = .ok (some v, moveTo (self.start (g ++ t ++ e)) e) :=
  buildValue_complete F kStackLimit true htext (List.append_assoc g t e) hg hz
    (Or.inl hcontainer) (by simp [start]) rfl fun _ => hcontainer

/-- Every document is parsed, to the value it denotes. -/
theorem parseRoot_of_document (self : JsonValueSerializer) {text : WString} {v : Value D}
    (hz : 0 ∉ text) (h : Document F text v) :
    ∃ s', parseRoot F (self.start text) = .ok (some v, true, s') := by
  obtain ⟨⟨g, t, e, rfl, hg, he, htext⟩, hcontainer⟩ := h
  rw [List.mem_append, not_or] at hz
  have hend := parseToken_end (s := moveTo (self.start (g ++ t ++ e)) e) he hz.2
  unfold parseRoot
  rw [buildValue_root F self e hg htext hcontainer hz.1]
  simp only [ok_bind]
  rw [hend]
  exact ⟨_, rfl⟩

/-- The parser accepts a text without a zero exactly when it is a document of the
grammar, and returns the value the text denotes. -/
theorem parseRoot_iff (self : JsonValueSerializer) (text : WString) (hz : 0 ∉ text)
    (v : Value D) :
    (∃ s', parseRoot F (self.start text) = .ok (some v, true, s')) ↔ Document F text v :=
  ⟨fun ⟨_, hroot⟩ => document_of_parseRoot F hz hroot, parseRoot_of_document F self hz⟩

end

/-- The text `[]//` is an empty array with an unterminated comment behind it. -/
theorem parseRoot_iff_emptyArray :
    0 ∉ wide ['[', ']', '/', '/'] ∧
      ∃ s', parseRoot (⟨fun _ => (), fun _ => true, fun _ => []⟩ : Doubles Unit)
        (start ⟨[], [], 0, false, .noError, 0, 0⟩ (wide ['[', ']', '/', '/']))
          = .ok (some (.list []), true, s') := by
  refine ⟨by decide, (parseRoot_iff _ _ _ (by decide) _).mpr ⟨?_, trivial⟩⟩
  refine ⟨[], wide ['[', ']'], wide ['/', '/'], rfl, Gap.nil, ?_, ?_⟩
  · exact @EndGap.line [] [] Gap.nil (by simp [LineBody])
  · exact ValueText.array (Items.empty Gap.nil)

end Mylib.Proofs.Base
