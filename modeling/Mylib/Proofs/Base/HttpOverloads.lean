import Mylib.Lib.InStep
import Mylib.Proofs.Base.HttpSafety

/-!
# `Mylib.Proofs.Base.HttpOverloads`: the two `Deserialize` of the HTTP parser

One overload parses the string it is given. The other parses the string of the
serializer, and first writes a terminator over its last character. The error members
of a serializer are never read, so what a call returns depends on the text alone
(`deserializeWide_alike`). Hence the two agree exactly on the strings that already
end in a terminator (`overloadsAgree_iff`).
-/

set_option autoImplicit false

namespace Mylib.Proofs.Base.Http

open Mylib.Lib.CString
open Mylib.Lib.InStep
open Mylib.Spec.Base
open JsonValueSerializer (kStackLimit)
open HttpValueSerializer

/-! ### Serializers that differ in their error members -/

structure Alike (s t : HttpValueSerializer) : Prop where
  startPos : s.startPos = t.startPos
  httpPos : s.httpPos = t.httpPos
  stackDepth : s.stackDepth = t.stackDepth

section

variable {s t : HttpValueSerializer}

/-- Storing an error reads the text only, which alike states share. -/
theorem setErrorCode_alike (error : ParseError) (h : Alike s t) :
    Related Alike (s.setErrorCode error s.httpPos) (t.setErrorCode error t.httpPos) := by
  unfold HttpValueSerializer.setErrorCode
  rw [h.startPos, h.httpPos]
  refine .bindEq _ fun r => ?_
  cases r with
  | none => exact .ok h
  | some position => exact .ok ⟨rfl, rfl, h.stackDepth⟩

/-- Alike states stay alike as the cursor moves. -/
theorem skip_alike (token : Token) (h : Alike s t) :
    Related Alike (s.skip token) (t.skip token) := by
  unfold HttpValueSerializer.skip
  rw [h.httpPos]
  exact .bindEq _ fun p => .ok ⟨h.startPos, rfl, h.stackDepth⟩

/-- Alike states are given the same token. -/
theorem parseToken_alike (h : Alike s t) :
    Related (Same Alike) s.parseToken t.parseToken := by
  unfold HttpValueSerializer.parseToken
  rw [h.httpPos]
  refine .bindEq _ fun p => .bindEq _ fun token => ?_
  exact .same token ⟨h.startPos, rfl, h.stackDepth⟩

/-- The token that a root starts from does not depend on the error fields either. -/
theorem firstToken_alike (isRoot : Bool) (h : Alike s t) :
    Related (Same Alike) (s.firstToken isRoot) (t.firstToken isRoot) := by
  unfold firstToken
  cases isRoot with
  | true => exact h.httpPos ▸ .same _ h
  | false => exact parseToken_alike h

section

variable {D : Type} (F : Doubles D)

/-- A key is read alike. -/
theorem readKey_alike (token : Token) (h : Alike s t) :
    Related (Same Alike) (readKey (D := D) s token) (readKey (D := D) t token) := by
  unfold HttpValueSerializer.readKey
  split_ifs with htype
  · exact (setErrorCode_alike .unquotedDictionaryKey h).bind fun s' t' h' => .same none h'
  · refine .bindEq _ fun decoded => ?_
    cases decoded with
    | none => exact .same none h
    | some dictKeyValue =>
      refine (skip_alike token h).bind fun s₁ t₁ h₁ => ?_
      refine (parseToken_alike h₁).bindSame fun after s₂ t₂ h₂ => ?_
      dsimp only
      split_ifs with hafter
      · exact .same none h₂
      · refine (skip_alike after h₂).bind fun s₃ t₃ h₃ => ?_
        refine (parseToken_alike h₃).bindSame fun _ s₄ t₄ h₄ => ?_
        exact .same _ h₄

/-- The end of a value keeps states alike. -/
theorem finish_alike (token : Token) (node : Option (Value D)) (h : Alike s t) :
    Related (Same Alike) (HttpValueSerializer.finish s token node)
      (HttpValueSerializer.finish t token node) := by
  unfold HttpValueSerializer.finish
  cases node with
  | none => exact .same none h
  | some value =>
    refine (skip_alike token h).bind fun s' t' h' => ?_
    exact .same _ ⟨h'.startPos, h'.httpPos, congrArg (· - 1) h'.stackDepth⟩

/-- The loop over pairs keeps states alike if building a value does. -/
theorem pairLoop_alike
    {buildValue : HttpValueSerializer → Except Fault (Option (Value D) × HttpValueSerializer)}
    (hinner : ∀ s t, Alike s t → Related (Same Alike) (buildValue s) (buildValue t))
    (token : Token) (node : List (WString × Value D)) (h : Alike s t) :
    Related (Same Alike) (pairLoop buildValue s token node) (pairLoop buildValue t token node) := by
  -- On the length of the text: the loop goes on at a shorter one.
  induction hn : s.httpPos.length using Nat.strong_induction_on generalizing s t token node with
  | _ n ih =>
    rw [pairLoop, pairLoop]
    split_ifs with htype
    · exact .same _ h
    · refine (readKey_alike token h).bindSame fun key s₁ t₁ h₁ => ?_
      cases key with
      | none => exact .same none h₁
      | some key =>
        refine (hinner s₁ t₁ h₁).bindSame fun value s₂ t₂ h₂ => ?_
        refine (parseToken_alike h₂).bindSame fun after s₃ t₃ h₃ => ?_
        dsimp only
        split_ifs with hamp hend
        · refine (skip_alike after h₃).bind fun s₄ t₄ h₄ => ?_
          refine (parseToken_alike h₄).bindSame fun after' s₅ t₅ h₅ => ?_
          dsimp only
          rw [← h.httpPos, ← h₅.httpPos]
          split_ifs with hshort
          · exact ih _ (hn ▸ hshort) after' _ h₅ rfl
          · exact .error Fault.stall
        · exact .same _ h₃
        · exact .same none h₃

/-- Building a value, with the loop inside of it. -/
theorem buildValue_alike (n : Nat) (isRoot : Bool) (h : Alike s t) :
    Related (Same Alike) (HttpValueSerializer.buildValue F n isRoot s)
      (HttpValueSerializer.buildValue F n isRoot t) := by
  induction n generalizing s t isRoot with
  | zero => exact .error Fault.stall
  | succ n ih =>
    have hdeeper : Alike { s with stackDepth := s.stackDepth + 1 }
        { t with stackDepth := s.stackDepth + 1 } := ⟨h.startPos, h.httpPos, rfl⟩
    rw [HttpValueSerializer.buildValue, HttpValueSerializer.buildValue, ← h.stackDepth]
    dsimp only
    -- Neither depends on the error members, so both take the same branch throughout.
    split_ifs with hlimit
    · exact (setErrorCode_alike .tooMuchNesting hdeeper).bind fun s' t' h' => .same none h'
    · refine (firstToken_alike isRoot hdeeper).bindSame fun token s₁ t₁ h₁ => ?_
      dsimp only
      generalize token.type = type
      cases type with
      | nullToken => exact finish_alike token _ h₁
      | boolTrue => exact finish_alike token _ h₁
      | boolFalse => exact finish_alike token _ h₁
      | string => exact .bindEq _ fun node => finish_alike token node h₁
      | number => exact .bindEq _ fun node => finish_alike token node h₁
      | objectBegin =>
        refine (skip_alike token h₁).bind fun s₂ t₂ h₂ => ?_
        refine (parseToken_alike h₂).bindSame fun token' s₃ t₃ h₃ => ?_
        refine (pairLoop_alike (fun s t h => ih false h) token' [] h₃).bindSame
          fun node s₄ t₄ h₄ => ?_
        cases node with
        | none => exact .same none h₄
        | some found => exact finish_alike found.2 _ h₄
      | _ => exact .same none h₁

/-- The check for trailing text decides alike. -/
theorem checkEnd_alike (h : Alike s t) : Related (Same Alike) s.checkEnd t.checkEnd := by
  unfold checkEnd
  refine (parseToken_alike h).bindSame fun token s₁ t₁ h₁ => ?_
  dsimp only
  split_ifs with hend
  · exact .same true h₁
  · exact (parseToken_alike h₁).bindSame fun token' s₂ t₂ h₂ => .same _ h₂

/-- The last check only changes the error code. -/
theorem checkNull_returns (nullCode : Bool) (s : HttpValueSerializer) :
    ∃ s', s.checkNull nullCode = .ok s' ∧ Alike s' s := by
  unfold checkNull
  cases nullCode with
  | true =>
    obtain ⟨s', hset, hat⟩ := setErrorCode_at .syntaxError s.httpPos ⟨rfl, rfl, rfl⟩
    exact ⟨s', hset, hat.startPos, hat.httpPos, hat.stackDepth⟩
  | false => exact ⟨s, rfl, rfl, rfl, rfl⟩

/-- The error may be set on one side only. -/
theorem checkNull_alike (m n : Bool) (h : Alike s t) :
    Related Alike (s.checkNull m) (t.checkNull n) := by
  obtain ⟨s', hs, hs'⟩ := checkNull_returns m s
  obtain ⟨t', ht, ht'⟩ := checkNull_returns n t
  rw [hs, ht]
  exact .ok ⟨hs'.startPos.trans (h.startPos.trans ht'.startPos.symm),
    hs'.httpPos.trans (h.httpPos.trans ht'.httpPos.symm),
    hs'.stackDepth.trans (h.stackDepth.trans ht'.stackDepth.symm)⟩

/-- From alike states a parse gives the same tree, whatever `null_code` is. -/
theorem parseRoot_alike (m n : Bool) (h : Alike s t) :
    Related (Same Alike) (HttpValueSerializer.parseRoot F s m)
      (HttpValueSerializer.parseRoot F t n) := by
  unfold HttpValueSerializer.parseRoot
  refine (buildValue_alike F (kStackLimit + 1) true h).bindSame fun root s₁ t₁ h₁ => ?_
  cases root with
  | none => exact (checkNull_alike m n h₁).bind fun s₂ t₂ h₂ => .same none h₂
  | some value =>
    refine (checkEnd_alike h₁).bindSame fun done s₂ t₂ h₂ => ?_
    cases done with
    | true => exact .same _ h₂
    | false =>
      refine (setErrorCode_alike .unexpectedDataAfterRoot h₂).bind fun s₃ t₃ h₃ => ?_
      exact (checkNull_alike m n h₃).bind fun s₄ t₄ h₄ => .same _ h₄

/-- What is returned depends on the text alone. -/
theorem deserializeWide_alike (s t : HttpValueSerializer) (httpWide : WString) (m n : Bool) :
    Related (Same Alike) (HttpValueSerializer.deserializeWide F s httpWide m)
      (HttpValueSerializer.deserializeWide F t httpWide n) := by
  unfold HttpValueSerializer.deserializeWide
  exact .bindEq _ fun text => parseRoot_alike F m n ⟨rfl, rfl, rfl⟩

/-! ### The two overloads -/

/-- On `str` both overloads return, with equal trees or both with none, and the string
is what it was. The serializers and the `error_code` pointers may differ. -/
def OverloadsAgree (s t : HttpValueSerializer) (str : Str) (m n : Bool) : Prop :=
  ∃ root s' t', deserializeOwn F s str m = .ok ((root, str), s') ∧
    HttpValueSerializer.deserialize F t str n = .ok (root, t')

/-- Writing a zero over the last byte changes nothing exactly if a zero stands there. -/
theorem set_last {str : Str} (h : str ≠ []) :
    str.set (str.length - 1) 0 = str ↔ str.getLast? = some 0 := by
  obtain ⟨init, b, rfl⟩ := List.eq_nil_or_concat' str |>.resolve_left h
  simp [List.set_append_right, eq_comm]

/-- If the last byte is a zero, both overloads parse the same text. -/
theorem overloadsAgree_of_terminated (s t : HttpValueSerializer) {str : Str} (m n : Bool)
    (h : str.getLast? = some 0) : OverloadsAgree F s t str m n := by
  have hne : str ≠ [] := by
    rintro rfl
    cases h
  obtain ⟨root, s', hroot, -⟩ :=
    httpDeserializeWide_returns F s (StringConversions.utf8ToWide str) m
  obtain ⟨t', hroot', -⟩ := (deserializeWide_alike F s t _ m n).of_ok hroot
  refine ⟨root, s', t', ?_, hroot'⟩
  unfold deserializeOwn
  simp only [if_neg hne, (set_last hne).mpr h, hroot, ok_bind]
  rfl

/-- If the caller's string is left alone, its last byte was the zero that is written. -/
theorem terminated_of_overloadsAgree {s t : HttpValueSerializer} {str : Str} {m n : Bool}
    (h : OverloadsAgree F s t str m n) : str.getLast? = some 0 := by
  obtain ⟨root, s', t', hown, -⟩ := h
  unfold deserializeOwn at hown
  split_ifs at hown with hempty
  -- The string that comes back is the one with the terminator in it.
  refine (set_last hempty).mp ?_
  obtain ⟨root', s'', hroot, -⟩ := httpDeserializeWide_returns F s
    (StringConversions.utf8ToWide (str.set (str.length - 1) 0)) m
  simp only [hroot, ok_bind, pure_eq_ok, Except.ok.injEq, Prod.mk.injEq] at hown
  exact hown.1.2

/-- The two overloads agree exactly on the strings that end in a zero byte. An empty
string is written behind its end, and any other loses its last byte. -/
theorem overloadsAgree_iff (s t : HttpValueSerializer) (str : Str) (m n : Bool) :
    OverloadsAgree F s t str m n ↔ str.getLast? = some 0 :=
  ⟨terminated_of_overloadsAgree F, overloadsAgree_of_terminated F s t m n⟩

/-- `a=12` comes back with its last byte gone. -/
theorem not_overloadsAgree_unframed :
    ¬OverloadsAgree (⟨fun _ => (), fun _ => true, fun _ => []⟩ : Doubles Unit)
      ⟨[], [], 0, .noError, 0, 0⟩ ⟨[], [], 0, .noError, 0, 0⟩ [97, 61, 49, 50] false false := by
  intro h
  exact absurd (terminated_of_overloadsAgree _ h) (by decide)

end

end

end Mylib.Proofs.Base.Http
