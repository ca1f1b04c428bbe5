import Mylib.Proofs.Base.HttpPairs
import Mylib.Proofs.Base.JsonSafety

/-!
# `Mylib.Proofs.Base.HttpSafety`: the HTTP parser stays inside its text

Every read and every move of the model is checked, so that a call returns says that
it did not leave the text. `httpDeserialize_within` says that every call returns, on
every input, bad and cut escapes included.
-/

set_option autoImplicit false

namespace Mylib.Proofs.Base.Http

open Mylib.Lib.CString
open Mylib.Spec.Base
open JsonValueSerializer (kStackLimit)
open HttpValueSerializer HttpGrammar

/-- `http_pos_` is between `start_pos_` and the terminator of the text. -/
structure HttpInText (s : HttpValueSerializer) : Prop where
  nul_free : 0 ∉ s.startPos
  within : s.httpPos <:+ s.startPos

/-- A state inside of its text is at its own cursor. -/
theorem HttpInText.at {s : HttpValueSerializer} (_ : HttpInText s) :
    At s.startPos s.httpPos s.stackDepth s := ⟨rfl, rfl, rfl⟩

/-- No zero stands behind the cursor, so a scan stops at the end at the latest. -/
theorem HttpInText.nulFree {s : HttpValueSerializer} (h : HttpInText s) : 0 ∉ s.httpPos :=
  fun hz => h.nul_free (h.within.subset hz)

/-- A cursor at a suffix of the text is inside of it. -/
theorem At.inText {start p : WString} {depth : Nat} {s : HttpValueSerializer}
    (h : At start p depth s) (hz : 0 ∉ start) (hp : p <:+ start) : HttpInText s where
  nul_free := h.startPos ▸ hz
  within := by rwa [h.startPos, h.httpPos]

/-- Parsing a token reads inside of the text. -/
theorem httpParseToken_safe {s : HttpValueSerializer} (h : HttpInText s) :
    ∃ token s', s.parseToken = .ok (token, s') ∧ HttpInText s' := by
  have hsuffix := (trim_suffix s.httpPos)
  obtain ⟨token, htoken⟩ := tokenAt_returns fun hmem => h.nulFree (hsuffix.subset hmem)
  obtain ⟨s', hparse, hat⟩ := parseToken_at h.at htoken
  exact ⟨token, s', hparse, hat.inText h.nul_free (hsuffix.trans h.within)⟩

/-- Counting lines up to the cursor reads inside of the text. -/
theorem httpSetErrorCode_safe {s : HttpValueSerializer} (error : ParseError) (h : HttpInText s) :
    ∃ s', s.setErrorCode error s.httpPos = .ok s' ∧ HttpInText s' := by
  obtain ⟨s', hset, hat⟩ := setErrorCode_at error s.httpPos h.at
  exact ⟨s', hset, hat.inText h.nul_free h.within⟩

section

variable {D : Type} (F : Doubles D)

/-- Building a value reads inside of the text, whatever its outcome. -/
theorem httpBuildValue_safe (n : Nat) (isRoot : Bool) {s : HttpValueSerializer}
    (h : HttpInText s) :
    ∃ r s', HttpValueSerializer.buildValue F (n + 2) isRoot s = .ok (r, s') ∧ HttpInText s' := by
  by_cases hdepth : s.stackDepth < kStackLimit
  · cases isRoot with
    -- The root is a list of pairs.
    | true =>
      obtain ⟨s₁, token, hat₁, htoken, hroot⟩ := buildValue_root F n h.at h.nulFree hdepth
      have hsuffix := trim_suffix s.httpPos
      obtain ⟨res, s₂, p, depth, hloop, hat₂, hp, hle, hend⟩ :=
        pairLoop_returns F n [] hat₁ (fun hmem => h.nulFree (hsuffix.subset hmem))
          (trim_trim _) htoken
      rw [hroot, hloop, ok_bind]
      have hin : HttpInText s₂ := hat₂.inText h.nul_free (hp.trans (hsuffix.trans h.within))
      cases res with
      | none => exact ⟨none, s₂, rfl, hin⟩
      | some found =>
        -- After the last pair the cursor is at the end and the depth goes down by one.
        obtain ⟨entries, token'⟩ := found
        obtain ⟨rfl, rfl⟩ := hend entries token' rfl
        obtain ⟨k, rfl⟩ : ∃ k, depth = k + 1 := ⟨depth - 1, by omega⟩
        obtain ⟨s₃, hfinish, hat₃⟩ := finish_end entries hat₂
        exact ⟨_, s₃, hfinish, hat₃.inText h.nul_free List.nil_suffix⟩
    | false =>
      -- A value is a field and what separates it from the rest.
      obtain ⟨t, r, hp, ht, hr⟩ := exists_field h.nulFree
      obtain ⟨res, u, s', hbuild, hu, hat, -⟩ :=
        buildValue_field F (n + 1) (hp ▸ h.at) ht hr hdepth
      refine ⟨res, s', hbuild, hat.inText h.nul_free ?_⟩
      obtain ⟨a, ha⟩ := hu.trans (trim_suffix t)
      -- The cursor stays in front of the separator.
      have hsuffix : u ++ r <:+ s.httpPos := ⟨a, by rw [hp, ← ha, List.append_assoc]⟩
      exact hsuffix.trans h.within
  -- At the limit nothing is read.
  · obtain ⟨s', hbuild, hat⟩ := buildValue_limit F (n + 1) isRoot h.at (not_lt.mp hdepth)
    exact ⟨none, s', hbuild, hat.inText h.nul_free h.within⟩

/-- The check for trailing text reads inside of the text. -/
theorem checkEnd_safe {s : HttpValueSerializer} (h : HttpInText s) :
    ∃ done s', s.checkEnd = .ok (done, s') ∧ HttpInText s' := by
  obtain ⟨token, s₁, hparse, hin₁⟩ := httpParseToken_safe h
  obtain ⟨token', s₂, hparse', hin₂⟩ := httpParseToken_safe hin₁
  unfold checkEnd
  simp only [hparse, ok_bind]
  by_cases hend : token.type = .endOfInput
  · exact ⟨true, s₁, by rw [if_pos hend]; rfl, hin₁⟩
  · exact ⟨_, s₂, by rw [if_neg hend, hparse']; rfl, hin₂⟩

/-- The last check reads inside of the text. -/
theorem checkNull_safe (nullCode : Bool) {s : HttpValueSerializer} (h : HttpInText s) :
    ∃ s', s.checkNull nullCode = .ok s' ∧ HttpInText s' := by
  unfold checkNull
  cases nullCode with
  | true => exact httpSetErrorCode_safe .syntaxError h
  | false => exact ⟨s, rfl, h⟩

/-- `Deserialize` returns the root that `BuildValue(true)` built. -/
theorem parseRoot_of_buildValue (nullCode : Bool) {s s₁ : HttpValueSerializer}
    {root : Option (Value D)} (hin : HttpInText s₁)
    (hbuild : HttpValueSerializer.buildValue F (kStackLimit + 1) true s = .ok (root, s₁)) :
    ∃ s', HttpValueSerializer.parseRoot F s nullCode = .ok (root, s') ∧ HttpInText s' := by
  unfold HttpValueSerializer.parseRoot
  simp only [hbuild, ok_bind]
  cases root with
  | none =>
    obtain ⟨s₂, hnull, hin₂⟩ := checkNull_safe nullCode hin
    exact ⟨s₂, by simp only [hnull]; rfl, hin₂⟩
  | some value =>
    obtain ⟨done, s₂, hcheck, hin₂⟩ := checkEnd_safe hin
    simp only [hcheck, ok_bind]
    cases done with
    | true => exact ⟨s₂, rfl, hin₂⟩
    | false =>
      obtain ⟨s₃, hset, hin₃⟩ := httpSetErrorCode_safe .unexpectedDataAfterRoot hin₂
      obtain ⟨s₄, hnull, hin₄⟩ := checkNull_safe nullCode hin₃
      exact ⟨s₄, by simp only [hset, ok_bind, hnull]; rfl, hin₄⟩

/-- A whole parse returns, and the cursor stays inside of the text. -/
theorem httpParseRoot_safe (nullCode : Bool) {s : HttpValueSerializer} (h : HttpInText s) :
    ∃ root s₁ s', HttpValueSerializer.buildValue F (kStackLimit + 1) true s = .ok (root, s₁) ∧
      HttpValueSerializer.parseRoot F s nullCode = .ok (root, s') ∧ HttpInText s' := by
  obtain ⟨root, s₁, hbuild, hin₁⟩ := httpBuildValue_safe F (kStackLimit - 1) true h
  obtain ⟨s', hparse, hin'⟩ := parseRoot_of_buildValue F nullCode hin₁ hbuild
  exact ⟨root, s₁, s', hbuild, hparse, hin'⟩

/-- The text the parser starts at has no zero. -/
theorem startText_returns (httpWide : WString) :
    ∃ text, startText httpWide = .ok text ∧ 0 ∉ text := by
  have hz := nulFree_takeWhile httpWide
  unfold startText
  simp only [deref_zero, ok_bind]
  generalize httpWide.takeWhile (· ≠ 0) = cStr at hz
  split_ifs with hbom
  · cases cStr with
    | nil => simp at hbom
    | cons c text => exact ⟨text, by simp, nulFree_tail hz⟩
  · exact ⟨cStr, rfl, hz⟩

/-- From any earlier state of the object, since a call starts by setting its pointers. -/
theorem httpDeserializeWide_returns (s : HttpValueSerializer) (httpWide : WString)
    (nullCode : Bool) :
    ∃ root s', HttpValueSerializer.deserializeWide F s httpWide nullCode = .ok (root, s') ∧
      HttpInText s' := by
  obtain ⟨text, htext, hz⟩ := startText_returns httpWide
  unfold HttpValueSerializer.deserializeWide
  obtain ⟨root, -, s', -, hparse, hin⟩ :=
    httpParseRoot_safe F nullCode (s := s.start text) ⟨hz, List.suffix_rfl⟩
  exact ⟨root, s', by rw [htext, ok_bind, hparse], hin⟩

/-- No read leaves the text. `Deserialize` returns on every wide input, with
`http_pos_` between `start_pos_` and the terminator. Wherever in a text the parser
stands, `ParseToken`, `SetErrorCode` and `BuildValue` return and leave it there. -/
theorem httpDeserialize_within (s : HttpValueSerializer) (httpWide : WString) (nullCode : Bool) :
    (∃ root s', HttpValueSerializer.deserializeWide F s httpWide nullCode = .ok (root, s') ∧
      HttpInText s') ∧
    ∀ s : HttpValueSerializer, HttpInText s →
      (∃ token s', s.parseToken = .ok (token, s') ∧ HttpInText s') ∧
      (∀ error, ∃ s', s.setErrorCode error s.httpPos = .ok s' ∧ HttpInText s') ∧
      ∀ (n : Nat) (isRoot : Bool), ∃ r s',
        HttpValueSerializer.buildValue F (n + 2) isRoot s = .ok (r, s') ∧ HttpInText s' :=
  ⟨httpDeserializeWide_returns F s httpWide nullCode, fun _ h =>
    ⟨httpParseToken_safe h, fun error => httpSetErrorCode_safe error h,
      fun n isRoot => httpBuildValue_safe F n isRoot h⟩⟩

end

/-- A value cut off inside an escape: `a=` and a backslash before the terminator. -/
theorem httpDeserialize_within_cut :
    HttpInText ⟨[97, 61, 92], [92], 0, .noError, 0, 0⟩ ∧
      (∃ root s', HttpValueSerializer.deserializeWide
        (⟨fun _ => (), fun _ => true, fun _ => []⟩ : Doubles Unit)
        ⟨[97, 61, 92], [92], 0, .noError, 0, 0⟩ [97, 61, 92] false = .ok (root, s') ∧
          HttpInText s') ∧
      ∃ token s', HttpValueSerializer.parseToken ⟨[97, 61, 92], [92], 0, .noError, 0, 0⟩
        = .ok (token, s') ∧ HttpInText s' := by
  have hin : HttpInText ⟨[97, 61, 92], [92], 0, .noError, 0, 0⟩ :=
    ⟨by decide, [97, 61], rfl⟩
  have hwithin := httpDeserialize_within
    (⟨fun _ => (), fun _ => true, fun _ => []⟩ : Doubles Unit)
    ⟨[97, 61, 92], [92], 0, .noError, 0, 0⟩ [97, 61, 92] false
  exact ⟨hin, hwithin.1, (hwithin.2 _ hin).1⟩

end Mylib.Proofs.Base.Http
