import Mylib.Proofs.Base.JsonValues

/-!
# `Mylib.Proofs.Base.JsonSafety`: the parser stays inside its text

Every read and every move of the parser is checked in the model, so a call that
returns `.ok` has not looked behind the terminator. Here every call returns, on
every input: `Deserialize` as a whole, and `ParseToken` and `BuildValue` from any
state whose `json_pos_` is inside the text.
-/

set_option autoImplicit false

namespace Mylib.Proofs.Base

open Mylib.Lib.CString
open Mylib.Spec.Base
open JsonValueSerializer JsonGrammar

/-- `json_pos_` is between `start_pos_` and the terminator of the text. -/
structure InText (s : JsonValueSerializer) : Prop where
  nul_free : 0 ∉ s.startPos
  within : s.jsonPos <:+ s.startPos

/-- The token lies between `start` and the terminator. -/
def TokenWithin (start : WString) (token : Token) : Prop :=
  ∀ p, token.begin = some p → p <:+ start ∧ token.length ≤ p.length

/-- Behind the cursor stands no zero. -/
theorem InText.nulFree {s : JsonValueSerializer} (h : InText s) : 0 ∉ s.jsonPos := fun hz =>
  h.nul_free (h.within.subset hz)

/-- A call that moves forward stays inside of the text. -/
theorem InText.moved {s s' : JsonValueSerializer} (h : InText s) (hmoved : Moved s s') :
    InText s' where
  nul_free := hmoved.startPos ▸ h.nul_free
  within := by
    rw [hmoved.startPos]
    exact hmoved.within.trans h.within

/-- A token that was parsed in the text lies in the text. -/
theorem TokenAt.within {token : Token} {q start : WString} (h : TokenAt token q)
    (hq : q <:+ start) : TokenWithin start token := by
  intro p hp
  cases h with
  | invalid _ => cases hp
  | endOfInput => cases hp
  | lexeme r _ =>
    cases hp
    exact ⟨hq, by simp⟩

/-- A call starts inside of its text. -/
theorem inText_start (s : JsonValueSerializer) {text : WString} (hz : 0 ∉ text) :
    InText (s.start text) := ⟨hz, List.suffix_rfl⟩

/-- The text before the first zero has none. -/
theorem nulFree_takeWhile (w : WString) : 0 ∉ w.takeWhile (· ≠ 0) := by
  intro h
  simpa using List.mem_takeWhile_imp h

/-- Parsing a token returns, and both the cursor and the token are in the text. -/
theorem parseToken_safe {s : JsonValueSerializer} (h : InText s) :
    ∃ token s', s.parseToken = .ok (token, s') ∧ InText s' ∧ TokenWithin s.startPos token := by
  obtain ⟨g, token, s', hparse, -, -, htoken, hmoved, -⟩ := parseToken_run s h.nulFree
  exact ⟨token, s', hparse, h.moved hmoved, htoken.within (hmoved.within.trans h.within)⟩

section

variable {D : Type} (F : Doubles D)

/-- Building a value returns. The fuel counts the levels that are left up to the limit of the
parser. -/
theorem buildValue_safe {n : Nat} {s : JsonValueSerializer} (isRoot : Bool) (h : InText s)
    (hd : kStackLimit ≤ s.stackDepth + n) :
    ∃ r s', buildValue F (n + 1) isRoot s = .ok (r, s') ∧ InText s' ∧
      (r ≠ none → s'.stackDepth = s.stackDepth) := by
  obtain ⟨r, s', hcall, hmoved, hvalue⟩ := buildValue_spec F n isRoot s h.nulFree hd
  refine ⟨r, s', hcall, h.moved hmoved, fun hr => ?_⟩
  obtain ⟨v, hv⟩ := Option.ne_none_iff_exists'.mp hr
  exact (hvalue v hv).1

/-- A whole parse returns. -/
theorem parseRoot_safe {s : JsonValueSerializer} (h : InText s) :
    ∃ root success s', parseRoot F s = .ok (root, success, s') ∧ InText s' := by
  obtain ⟨r, s₁, hcall, hin₁, -⟩ :=
    buildValue_safe F (n := kStackLimit) true h (Nat.le_add_left _ _)
  unfold parseRoot
  rw [hcall]
  simp only [ok_bind]
  cases r with
  | none => exact ⟨none, false, s₁, rfl, hin₁⟩
  | some v =>
    obtain ⟨token, s₂, hparse, hin₂, -⟩ := parseToken_safe hin₁
    simp only [hparse, ok_bind]
    by_cases hend : token.type = .endOfInput
    · exact ⟨some v, true, s₂, by rw [if_pos hend]; rfl, hin₂⟩
    · obtain ⟨s₃, hset, herror⟩ := setErrorCode_returns s₂ .unexpectedDataAfterRoot s₂.jsonPos
      refine ⟨some v, false, s₃, ?_, hin₂.moved herror.moved⟩
      rw [if_neg hend, hset]
      rfl

/-- `Deserialize` returns, with `json_pos_` inside the text it set `start_pos_` to. -/
theorem deserializeWide_returns (s : JsonValueSerializer) (jsonWide : WString) :
    ∃ r s', deserializeWide F s jsonWide = .ok (r, s') ∧ InText s' := by
  have hz := nulFree_takeWhile jsonWide
  unfold deserializeWide
  simp only [deref_zero, ok_bind]
  generalize jsonWide.takeWhile (· ≠ 0) = cStr at hz
  -- The text to parse is the C string, or the C string behind a byte order mark.
  split_ifs with hbom
  · cases cStr with
    | nil => simp at hbom
    | cons c text =>
      obtain ⟨root, success, s', hparse, hin⟩ :=
        parseRoot_safe F (inText_start s (nulFree_tail hz))
      exact ⟨_, s', by rw [advance_cons_succ, advance_zero, ok_bind, hparse]; rfl, hin⟩
  · obtain ⟨root, success, s', hparse, hin⟩ := parseRoot_safe F (inText_start s hz)
    exact ⟨_, s', by rw [pure_eq_ok, ok_bind, hparse]; rfl, hin⟩

/-- No read leaves the text. `Deserialize` returns on every input. Wherever in a
text the parser stands, `ParseToken` and `BuildValue` return, they leave `json_pos_`
and the token between `start_pos_` and the terminator, and a call of `BuildValue`
that returns a value leaves `stack_depth_` as it found it. -/
theorem deserialize_within (s : JsonValueSerializer) (jsonWide : WString) :
    (∃ r s', deserializeWide F s jsonWide = .ok (r, s') ∧ InText s') ∧
    (∀ s : JsonValueSerializer, InText s →
      ∃ token s', s.parseToken = .ok (token, s') ∧ InText s' ∧ TokenWithin s.startPos token) ∧
    (∀ (n : Nat) (isRoot : Bool) (s : JsonValueSerializer), InText s →
      kStackLimit ≤ s.stackDepth + n →
      ∃ r s', buildValue F (n + 1) isRoot s = .ok (r, s') ∧ InText s' ∧
        (r ≠ none → s'.stackDepth = s.stackDepth)) :=
  ⟨deserializeWide_returns F s jsonWide, fun _ h => parseToken_safe h,
    fun _ isRoot _ h hd => buildValue_safe F isRoot h hd⟩

end

end Mylib.Proofs.Base
