import Mylib.Proofs.Base.JsonRecords
import Mylib.Proofs.Base.Unicode

/-!
# `Mylib.Proofs.Base.JsonReports`: which failures a caller hears about

`buildValue_root_records` says that a recorded error is one of the texts of
`RootReport`. Here every such text makes `BuildValue` fail with a code
(`buildValue_root_reported`), and the two meet in the statement about `Deserialize`:
it does what its callers need of `*error_code` exactly for these texts. A document is
not among them, since on success the variable is not written at all.

A part of a text that is in the grammar is passed over with nothing but `json_pos_`
changed (`JsonAccepts`), so a report is reached from the start of the text by
induction on its relation.
-/

set_option autoImplicit false

namespace Mylib.Proofs.Base

open Mylib.Lib
open Mylib.Lib.CString
open Mylib.Spec.Base
open JsonValueSerializer JsonGrammar

/-! ### Behind an item -/

/-- A literal delimits, for it begins with a gap or a quote. -/
theorem delimited_badToken {u : WString} (h : BadToken u) : Delimited u := by
  obtain ⟨g, t, w, e, hg, -, -, rfl⟩ := h
  exact delimited_gap hg (delimited_cons (c := '"'.toNat) _ (by decide) (by decide))

/-- So does a comma behind a gap. -/
theorem delimited_comma {g u : WString} (hg : Gap g) : Delimited (g ++ ','.toNat :: u) :=
  delimited_gap hg (delimited_cons u (by decide) (by decide))

/-- Behind an item an invalid literal ends the loop with a code. -/
theorem afterItem_bad {s : JsonValueSerializer} {closing : TokenType} (hin : InText s)
    (hclosing : closing ≠ .invalidToken) (h : BadToken s.jsonPos) :
    ∃ s', s.afterItem closing = .ok (.bad, s') ∧ s'.errorCode ≠ .noError := by
  obtain ⟨s', hparse, -, -, -, hcode⟩ := parseToken_bad hin h
  refine ⟨s', ?_, hcode⟩
  unfold afterItem
  rw [hparse]
  simp [kInvalidToken, hclosing.symm]

/-! ### The loops -/

section

variable {D α β : Type}

/-- A state inside a text from which the text at depth `d` can be read on. -/
structure Reading (d : Nat) (s : JsonValueSerializer) : Prop where
  inText : InText s
  depth : s.stackDepth = d
  allow : s.allowTrailingComma = true

/-- Moving the cursor forward stays inside of the text. -/
theorem Reading.moveTo {d : Nat} {s : JsonValueSerializer} {p : WString} (h : Reading d s)
    (hp : p <:+ s.jsonPos) : Reading d (moveTo s p) :=
  ⟨h.inText.moved (moved_moveTo hp), h.depth, h.allow⟩

/-- What is asked of `read` on a text of `report`: it fails with a code. -/
def ReadFails (d : Nat) (closing : TokenType) (report : WString → Prop)
    (read : JsonValueSerializer → Token → Except Fault (Option α × JsonValueSerializer)) : Prop :=
  ∀ {s₀ : JsonValueSerializer}, Reading d s₀ → report s₀.jsonPos →
    ∃ token s s', s₀.parseToken = .ok (token, s) ∧ token.type ≠ closing ∧
      read s token = .ok (none, s') ∧ s'.errorCode ≠ .noError

/-- What is asked of `read` on an item: it is passed over. -/
def ReadAccepts (d : Nat) (item : WString → α → Prop)
    (read : JsonValueSerializer → Token → Except Fault (Option α × JsonValueSerializer)) : Prop :=
  ∀ {s : JsonValueSerializer} {t r : WString} {a : α} {token : Token}, Reading d s → item t a →
    s.jsonPos = t ++ r → Delimited r → s.parseToken = .ok (token, s) →
    read s token = .ok (some a, moveTo s r)

/-- An item in front of `r`: the token it begins with is read, and then the item. -/
theorem readItem {d : Nat} {closing : TokenType} {item : WString → α → Prop}
    {read : JsonValueSerializer → Token → Except Fault (Option α × JsonValueSerializer)}
    (haccepts : ReadAccepts d item read) (hstarts : Starts closing item)
    {s : JsonValueSerializer} {g t r : WString} {a : α} (hreading : Reading d s) (hg : Gap g)
    (ha : item t a) (hpos : s.jsonPos = g ++ (t ++ r)) (hr : Delimited r) :
    ∃ token, s.parseToken = .ok (token, moveTo s (t ++ r)) ∧ token.type ≠ closing ∧
      read (moveTo s (t ++ r)) token = .ok (some a, moveTo s r) := by
  have hz : 0 ∉ g ++ t := fun h => hreading.inText.nulFree (by
    rw [hpos, ← List.append_assoc]
    exact List.mem_append_left r h)
  obtain ⟨token, hparse, htype, hself⟩ := hstarts ha hpos hg hz hr
  have hread := haccepts (hreading.moveTo ⟨g, hpos.symm⟩) ha rfl hr hself
  exact ⟨token, hparse, htype, hread⟩

/-- If the items begin with good ones and then a report follows, the loop fails with a code. -/
theorem itemLoop_reported {d : Nat} {closing : TokenType} {item : WString → α → Prop}
    {report : WString → Prop}
    {read : JsonValueSerializer → Token → Except Fault (Option α × JsonValueSerializer)}
    (push : List β → α → List β) (hfails : ReadFails d closing report read)
    (haccepts : ReadAccepts d item read) (hstarts : Starts closing item)
    (hclosing : closing ≠ .invalidToken) {u : WString} (hreport : ItemsReport item report u)
    {s₀ : JsonValueSerializer} (hreading : Reading d s₀) (hpos : s₀.jsonPos = u)
    (node : List β) :
    ∃ token s s', s₀.parseToken = .ok (token, s) ∧
      itemLoop read closing push s token node = .ok (none, s') ∧ s'.errorCode ≠ .noError := by
  induction hreport generalizing s₀ node with
  | first hreport =>
    subst hpos
    obtain ⟨token, s, s', hparse, htype, hread, hcode⟩ := hfails hreading hreport
    refine ⟨token, s, s', hparse, ?_, hcode⟩
    rw [itemLoop, if_neg htype, hread]
    rfl
  | @behind g t u a hg ha hbad =>
    obtain ⟨token, hparse, htype, hread⟩ := readItem haccepts hstarts hreading hg ha hpos
      (delimited_badToken hbad)
    have hsuffix : u <:+ s₀.jsonPos := ⟨g ++ t, by simp [hpos]⟩
    obtain ⟨s', hafter, hcode⟩ := afterItem_bad (hreading.moveTo hsuffix).inText hclosing hbad
    refine ⟨token, _, s', hparse, ?_, hcode⟩
    rw [itemLoop, if_neg htype, hread]
    simp only [ok_bind]
    rw [hafter]
    rfl
  | @later g t g' u a hg ha hg' hreport ih =>
    obtain ⟨token, hparse, htype, hread⟩ := readItem haccepts hstarts hreading hg ha hpos
      (delimited_comma hg')
    have hsuffix : u <:+ s₀.jsonPos := ⟨g ++ (t ++ (g' ++ [','.toNat])), by simp [hpos]⟩
    have hzg : 0 ∉ g' := fun h => hreading.inText.nulFree (by simp [hpos, h])
    obtain ⟨token', s₂, s', hparse', hloop, hcode⟩ :=
      ih (hreading.moveTo hsuffix) rfl (push node a)
    -- The token behind the comma does not end the loop, which goes on to fail.
    have htype' : token'.type ≠ closing := by
      intro hend
      rw [itemLoop, if_pos hend] at hloop
      cases hloop
    have hafter : (moveTo s₀ (g' ++ ','.toNat :: u)).afterItem closing = .ok (.more token', s₂) :=
      afterItem_more rfl hg' hzg hparse' htype'
    have hlt : s₂.jsonPos.length < (moveTo s₀ (t ++ (g' ++ ','.toNat :: u))).jsonPos.length := by
      obtain ⟨_, _, _, hrun, -, -, -, hmoved, -⟩ :=
        parseToken_run (moveTo s₀ u) (hreading.moveTo hsuffix).inText.nulFree
      rw [hparse'] at hrun
      cases hrun
      have hle := hmoved.within.length_le
      simp only [moveTo_jsonPos, List.length_append, List.length_cons] at hle ⊢
      omega
    refine ⟨token, _, s', hparse, ?_, hcode⟩
    rw [itemLoop, if_neg htype, hread]
    simp only [ok_bind]
    rw [hafter]
    simp only [ok_bind]
    exact (dif_pos hlt).trans hloop

/-! ### Members -/

/-- A member is read as soon as its value is. -/
theorem readMember_accepts {d : Nat} {value : WString → Value D → Prop}
    {build : JsonValueSerializer → Except Fault (Option (Value D) × JsonValueSerializer)}
    (hbuild : AcceptsValues d value build) (hstarts : Starts .objectEnd value) :
    ReadAccepts d (Member value) (readMember build) := by
  intro s t r m token hreading hm hpos hr hself
  have hz : 0 ∉ t := fun h => hreading.inText.nulFree (by simp [hpos, h])
  obtain ⟨s₁, hkey, hbuilt⟩ := member_read hbuild hstarts hm hpos hz hr hreading.depth
    hreading.allow hself
  unfold readMember
  rw [hkey]
  simp only [ok_bind]
  rw [hbuilt]
  rfl

/-- A missing key is reported, with whatever stands in its place. -/
theorem readMember_noKey {d : Nat}
    (build : JsonValueSerializer → Except Fault (Option (Value D) × JsonValueSerializer))
    {s₀ : JsonValueSerializer} (hreading : Reading d s₀) (h : KeyMissing s₀.jsonPos) :
    ∃ token s s', s₀.parseToken = .ok (token, s) ∧ token.type ≠ .objectEnd ∧
      readMember build s token = .ok (none, s') ∧ s'.errorCode ≠ .noError := by
  have hz := hreading.inText.nulFree
  obtain ⟨-, token, s, hparse, -, -, -, hmoved, -⟩ := parseToken_run s₀ hz
  have hstring : token.type ≠ .string := by
    intro htype
    obtain ⟨g, t, w, r, hg, ht, hpos, -, -⟩ := parseToken_at_string hz hparse htype
    exact h.1 g t w r hg ht hpos
  have hend : token.type ≠ .objectEnd := by
    intro htype
    obtain ⟨g, r, hg, hpos, -, -⟩ := parseToken_at_punctuator hz hparse htype punctuator_brace
    exact h.2 g r hg hpos
  have hin : InText s := hreading.inText.moved hmoved
  obtain ⟨s', hset, -, hcode⟩ :=
    setErrorCode_recorded .unquotedDictionaryKey hin.nul_free hin.within (by simp)
  refine ⟨token, s, s', hparse, hend, ?_, hcode⟩
  unfold readMember readKey
  rw [if_pos hstring, hset]
  rfl

/-- A key is parsed as a string token and leaves no code. -/
theorem parseToken_key {d : Nat} {s : JsonValueSerializer} {g t w u : WString}
    (hreading : Reading d s) (hg : Gap g) (ht : Chars t w)
    (hpos : s.jsonPos = g ++ (quoted t ++ u)) :
    s.parseToken = .ok (⟨.string, some (quoted t ++ u), (quoted t).length⟩,
      moveTo s (quoted t ++ u)) := by
  refine parseToken_lexeme hpos hg (Lexeme.string ht) (by simp) fun h => hreading.inText.nulFree ?_
  rw [hpos, ← List.append_assoc]
  exact List.mem_append_left u h

/-- A member fails with a code in the three ways that its report names. -/
theorem readMember_fails {d : Nat} {report : WString → Prop}
    {build : JsonValueSerializer → Except Fault (Option (Value D) × JsonValueSerializer)}
    (hbuild : ReadFails d .arrayEnd report fun s _ => build s) :
    ReadFails d .objectEnd (MemberReport report) (readMember build) := by
  intro s₀ hreading h
  generalize hu : s₀.jsonPos = u at h
  cases h with
  | key hmissing => exact readMember_noKey build hreading (hu ▸ hmissing)
  -- The key is read, and the bad token stands where the colon should.
  | @colon g t w u hg ht hbad =>
    have hkey := parseToken_key hreading hg ht hu
    have hsuffix : u <:+ s₀.jsonPos := ⟨g ++ quoted t, by simp [hu]⟩
    obtain ⟨s', hparse, -, -, -, hcode⟩ :=
      parseToken_bad (hreading.moveTo hsuffix).inText hbad
    refine ⟨_, _, s', hkey, by simp, ?_, hcode⟩
    unfold readMember readKey
    rw [if_neg (by simp), decodeString_quoted u ht]
    simp only [ok_bind, skip_token (moveTo_jsonPos s₀ _), moveTo_moveTo]
    rw [hparse]
    rfl
  -- Key and colon are read, and the value fails.
  | @value g t w g' u hg ht hg' hreport =>
    have hkey := parseToken_key hreading hg ht hu
    have hsuffix : u <:+ s₀.jsonPos :=
      ⟨g ++ (quoted t ++ (g' ++ [':'.toNat])), by simp [hu]⟩
    have hzg : 0 ∉ g' := fun h => hreading.inText.nulFree (by simp [hu, h])
    obtain ⟨token, s, s', hparse, -, hbuilt, hcode⟩ :=
      hbuild (hreading.moveTo hsuffix) hreport
    refine ⟨_, _, s', hkey, by simp, ?_, hcode⟩
    have hread := readKey_member (D := D) (s := moveTo s₀ (quoted t ++ (g' ++ ':'.toNat :: u)))
      ht hg' hzg rfl hparse
    unfold readMember
    rw [moveTo_jsonPos] at hread
    rw [hread]
    simp only [ok_bind]
    rw [show build s = .ok (none, s') from hbuilt]
    rfl

/-! ### The recursion -/

variable (F : Doubles D)

/-- Building a value reads every text of its level of nesting. -/
theorem buildValue_accepts {n d : Nat} (hd : d + n = kStackLimit) :
    AcceptsValues d (JsonText F n) (buildValue F (n + 1) false) := by
  intro t v hv s g r hpos hg hz hr hdepth hallow
  exact buildValue_complete F n false hv hpos hg hz (Or.inr hr) (by omega) hallow (by simp)

/-- Entering a container adds one to the depth. -/
theorem Reading.enter {d : Nat} {s : JsonValueSerializer} (h : Reading d s) :
    Reading (d + 1) (enter s) :=
  ⟨⟨h.inText.nul_free, h.inText.within⟩, congrArg (· + 1) h.depth, h.allow⟩

/-- A container that is reported inside makes the call fail with a code. -/
theorem buildValue_container {n d : Nat} (isRoot : Bool) {s : JsonValueSerializer}
    (hreading : Reading d s) (hd : d + (n + 1) = kStackLimit)
    (hfails : ReadFails (d + 1) .arrayEnd (ValueReport F n)
      fun s _ => buildValue F (n + 1) false s)
    (h : ContainerReport (JsonText F n) (ValueReport F n) s.jsonPos) :
    ∃ s', buildValue F (n + 2) isRoot s = .ok (none, s') ∧ s'.errorCode ≠ .noError := by
  have hlimit : ¬kStackLimit < s.stackDepth + 1 := by
    have hdepth := hreading.depth
    omega
  have haccepts : AcceptsValues (d + 1) (JsonText F n) (buildValue F (n + 1) false) :=
    buildValue_accepts F (by omega)
  have henter := hreading.enter
  rw [buildValue]
  simp only [if_neg hlimit]
  change ∃ s', (enter s).parseToken >>= _ = _ ∧ _
  -- The report says which bracket is open and what goes wrong behind it.
  generalize hu : s.jsonPos = u at h
  cases h with
  | @array g u hg hitems =>
    have hzg : 0 ∉ g := fun h => hreading.inText.nulFree (by simp [hu, h])
    have hopen := parseToken_punctuator (s := enter s) hu hg
      (show punctuator '['.toNat = some .arrayBegin from rfl) hzg
    have hread : ReadAccepts (d + 1) (JsonText F n) fun s _ => buildValue F (n + 1) false s := by
      intro s t r v token hreading hv hpos hr _
      exact haccepts hv (g := []) hpos Gap.nil (fun h => hreading.inText.nulFree (by
        rw [hpos]
        exact List.mem_append_left r h)) hr hreading.depth hreading.allow
    have hsuffix : u <:+ (enter s).jsonPos := ⟨g ++ ['['.toNat], by simp [enter, hu]⟩
    obtain ⟨token, s₁, s', hparse, hloop, hcode⟩ := itemLoop_reported
      (fun node v => node ++ [v]) hfails hread (starts_value F n).1 (by simp) hitems
      (henter.moveTo hsuffix) rfl []
    refine ⟨s', ?_, hcode⟩
    rw [hopen]
    simp only [ok_bind]
    rw [if_neg (by simp)]
    simp only [skip_punctuator (moveTo_jsonPos _ _), ok_bind, moveTo_moveTo, hparse]
    rw [arrayLoop_eq_itemLoop, hloop]
    rfl
  | @object g u hg hmembers =>
    have hzg : 0 ∉ g := fun h => hreading.inText.nulFree (by simp [hu, h])
    have hopen := parseToken_punctuator (s := enter s) hu hg
      (show punctuator '{'.toNat = some .objectBegin from rfl) hzg
    have hsuffix : u <:+ (enter s).jsonPos := ⟨g ++ ['{'.toNat], by simp [enter, hu]⟩
    obtain ⟨token, s₁, s', hparse, hloop, hcode⟩ := itemLoop_reported
      (fun node m => Value.setWithoutPathExpansion m.1 m.2 node)
      (readMember_fails hfails) (readMember_accepts haccepts (starts_value F n).2)
      (starts_member _) (by simp) hmembers (henter.moveTo hsuffix) rfl []
    refine ⟨s', ?_, hcode⟩
    rw [hopen]
    simp only [ok_bind]
    rw [if_neg (by simp)]
    simp only [skip_punctuator (moveTo_jsonPos _ _), ok_bind, moveTo_moveTo, hparse]
    rw [objectLoop_eq_itemLoop, hloop]
    rfl

/-- The bracket a container begins with is found behind a gap, and again at the
container itself. -/
theorem containerReport_token {d : Nat} {value : WString → Value D → Prop}
    {report : WString → Prop} {s : JsonValueSerializer} (hreading : Reading d s)
    (h : ContainerReport value report s.jsonPos) :
    ∃ token q, s.parseToken = .ok (token, moveTo s q) ∧ token.type ≠ .arrayEnd ∧
      q <:+ s.jsonPos ∧ ContainerReport value report q := by
  generalize hu : s.jsonPos = u at h
  cases h with
  | @array g u hg hitems =>
    have hzg : 0 ∉ g := fun h => hreading.inText.nulFree (by simp [hu, h])
    exact ⟨_, _, parseToken_punctuator hu hg (show punctuator '['.toNat = _ from rfl) hzg, by simp,
      List.suffix_append g _, ContainerReport.array Gap.nil hitems⟩
  | @object g u hg hmembers =>
    have hzg : 0 ∉ g := fun h => hreading.inText.nulFree (by simp [hu, h])
    exact ⟨_, _, parseToken_punctuator hu hg (show punctuator '{'.toNat = _ from rfl) hzg, by simp,
      List.suffix_append g _, ContainerReport.object Gap.nil hmembers⟩

/-- An invalid literal in the place of a value ends with a code. -/
theorem buildValue_bad (n : Nat) {d : Nat} {s : JsonValueSerializer} (hreading : Reading d s)
    (hd : d < kStackLimit) (h : BadToken s.jsonPos) :
    ∃ s', buildValue F (n + 2) false s = .ok (none, s') ∧ s'.errorCode ≠ .noError := by
  have hlimit : ¬kStackLimit < s.stackDepth + 1 := by
    have hdepth := hreading.depth
    omega
  obtain ⟨s', hparse, -, -, -, hcode⟩ := parseToken_bad hreading.enter.inText h
  refine ⟨s', ?_, hcode⟩
  rw [buildValue]
  simp only [if_neg hlimit]
  change (enter s).parseToken >>= _ = _
  rw [hparse]
  rfl

/-- A root that is neither an array nor an object is reported. -/
theorem buildValue_noContainer {n d : Nat} {s : JsonValueSerializer} (hreading : Reading d s)
    (hd : d < kStackLimit) (h : ContainerMissing s.jsonPos) :
    ∃ s', buildValue F (n + 2) true s = .ok (none, s') ∧ s'.errorCode ≠ .noError := by
  have hlimit : ¬kStackLimit < s.stackDepth + 1 := by
    have hdepth := hreading.depth
    omega
  have hz := hreading.enter.inText.nulFree
  obtain ⟨-, token, s₁, hparse, -, -, -, hmoved, -⟩ := parseToken_run (enter s) hz
  -- A root of the grammar begins with a bracket, which is missing.
  have harray : token.type ≠ .arrayBegin := by
    intro htype
    obtain ⟨g, r, hg, hpos, -, -⟩ := parseToken_at_punctuator (c := '['.toNat) hz hparse htype rfl
    exact (h g r hg).1 hpos
  have hobject : token.type ≠ .objectBegin := by
    intro htype
    obtain ⟨g, r, hg, hpos, -, -⟩ := parseToken_at_punctuator (c := '{'.toNat) hz hparse htype rfl
    exact (h g r hg).2 hpos
  have hin : InText s₁ := hreading.enter.inText.moved hmoved
  -- So the code for a bad root is stored.
  obtain ⟨s', hset, -, hcode⟩ :=
    setErrorCode_recorded .badRootElementType hin.nul_free hin.within (by simp)
  refine ⟨s', ?_, hcode⟩
  rw [buildValue]
  simp only [if_neg hlimit]
  change (enter s).parseToken >>= _ = _
  rw [hparse]
  simp only [ok_bind]
  rw [if_pos ⟨trivial, hobject, harray⟩, hset]
  rfl

/-- `BuildValue` fails with a code on every text of `ValueReport n`, once the loop
around it has read the token in front. -/
theorem buildValue_fails (n d : Nat) (hd : d + n = kStackLimit) :
    ReadFails d .arrayEnd (ValueReport F n) fun s _ => buildValue F (n + 1) false s := by
  induction n generalizing d with
  | zero =>
    -- No level is left, but the token has been read.
    intro s₀ hreading hbad
    obtain ⟨s, hparse, -, hdepth, -, hcode⟩ := parseToken_bad hreading.inText hbad
    have hlimit : kStackLimit < s.stackDepth + 1 := by
      rw [hdepth, hreading.depth]
      omega
    refine ⟨_, s, enter s, hparse, by simp [kInvalidToken], ?_, hcode⟩
    show buildValue F 1 false s = _
    rw [buildValue]
    simp only [if_pos hlimit]
    rfl
  | succ n ih =>
    intro s₀ hreading h
    cases h with
    | inl hbad =>
      obtain ⟨s, hparse, hmoved, hdepth, hbad', -⟩ := parseToken_bad hreading.inText hbad
      have hreading' : Reading d s := ⟨hreading.inText.moved hmoved, hdepth.trans hreading.depth,
        hmoved.allowTrailingComma.trans hreading.allow⟩
      obtain ⟨s', hcall, hcode⟩ := buildValue_bad F n hreading' (by omega) hbad'
      exact ⟨_, s, s', hparse, by simp [kInvalidToken], hcall, hcode⟩
    | inr hreport =>
      obtain ⟨token, q, hparse, htype, hq, hreport'⟩ := containerReport_token hreading hreport
      obtain ⟨s', hcall, hcode⟩ := buildValue_container F false (hreading.moveTo hq) hd
        (ih (d + 1) (by omega)) hreport'
      exact ⟨token, _, s', hparse, htype, hcall, hcode⟩

/-- `BuildValue` fails with a code on every text that is reported. -/
theorem buildValue_root_reported (self : JsonValueSerializer) {text : WString} (hz : 0 ∉ text)
    (h : RootReport F text) :
    ∃ s', buildValue F (kStackLimit + 1) true (self.start text) = .ok (none, s') ∧
      s'.errorCode ≠ .noError := by
  have hreading : Reading 0 (self.start text) := ⟨inText_start self hz, rfl, rfl⟩
  cases h with
  | inl hmissing => exact buildValue_noContainer F hreading (by decide) hmissing
  | inr hreport =>
    exact buildValue_container F true hreading rfl (buildValue_fails F (kStackLimit - 1) 1 rfl)
      hreport

/-! ### `Deserialize` -/

/-- The text behind a byte order mark is a suffix. -/
theorem behindMark_suffix (w : WString) : behindMark w <:+ w := by
  unfold behindMark
  split_ifs
  · exact List.tail_suffix w
  · exact List.suffix_rfl

/-- What is parsed has no zero. -/
theorem parsedText_nulFree (w : WString) : 0 ∉ parsedText w := fun h =>
  nulFree_takeWhile w ((behindMark_suffix _).subset h)

/-- Without a zero the whole text is parsed. -/
theorem parsedText_of_nulFree {w : WString} (hz : 0 ∉ w) : parsedText w = behindMark w := by
  have hall : w.takeWhile (· ≠ 0) = w :=
    List.takeWhile_eq_self_iff.mpr fun c hc => by simpa using ne_zero_of_mem hz hc
  rw [parsedText, hall]

/-- `Deserialize` is `parseRoot` on the text it finds in its input. -/
theorem deserializeWide_eq (self : JsonValueSerializer) (w : WString) :
    deserializeWide F self w = (do
      let (root, success, s) ← parseRoot F (self.start (parsedText w))
      return ((root, if success then none else some s.errorCode), s)) := by
  unfold deserializeWide parsedText
  simp only [deref_zero, ok_bind]
  generalize hc : w.takeWhile (· ≠ 0) = cStr
  cases cStr with
  | nil => simp [behindMark]
  | cons c text =>
    have hne : w.isEmpty = false := by
      cases w with
      | nil => simp at hc
      | cons _ _ => rfl
    by_cases hmark : c = 0xFEFF
    · simp [behindMark, hne, hmark, advance_cons_succ, advance_zero]
    · simp [behindMark, hne, hmark]

/-- Of a document the caller hears nothing: on success the variable is not
written. -/
theorem not_reportsExactly_of_wellFormed {self : JsonValueSerializer} {str : Str}
    (h : WellFormed F (StringConversions.utf8ToWide str)) : ¬ReportsExactly F self str := by
  rintro ⟨root, code, s', hrun, -, -⟩
  obtain ⟨hz, v, hdoc⟩ := h
  rw [← parsedText_of_nulFree hz] at hdoc
  obtain ⟨s₁, hroot⟩ := parseRoot_of_document F self (parsedText_nulFree _) hdoc
  rw [deserialize, deserializeWide_eq, hroot] at hrun
  cases hrun

/-- The caller of `Deserialize` can rely on `*error_code` for exactly those inputs
that `BuildValue` fails on with an error it records. -/
theorem reportsExactly_iff (self : JsonValueSerializer) (str : Str) :
    ReportsExactly F self str ↔
      RootReport F (parsedText (StringConversions.utf8ToWide str)) := by
  have hz := parsedText_nulFree (StringConversions.utf8ToWide str)
  constructor
  · intro h
    have hmalformed : ¬WellFormed F (StringConversions.utf8ToWide str) := fun hwell =>
      not_reportsExactly_of_wellFormed F hwell h
    obtain ⟨root, code, s', hrun, -, helse⟩ := h
    obtain ⟨rfl, hcode⟩ := helse hmalformed
    rw [deserialize, deserializeWide_eq] at hrun
    obtain ⟨⟨root, success, s₁⟩, hroot, hrun⟩ := bind_eq_ok_iff.mp hrun
    simp only [pure_eq_ok, Except.ok.injEq, Prod.mk.injEq] at hrun
    obtain ⟨⟨rfl, hwritten⟩, rfl⟩ := hrun
    -- A root of `NULL` comes from `BuildValue`, and the code with it.
    have hbuild : buildValue F (kStackLimit + 1) true
        (self.start (parsedText (StringConversions.utf8ToWide str))) = .ok (none, s₁) := by
      rw [parseRoot] at hroot
      obtain ⟨⟨r, s₂⟩, hcall, hroot⟩ := bind_eq_ok_iff.mp hroot
      cases r with
      | none =>
        cases hroot
        exact hcall
      | some v =>
        obtain ⟨⟨token, s₃⟩, -, hroot⟩ := bind_eq_ok_iff.mp hroot
        by_cases hend : token.type = .endOfInput
        · simp only [if_pos hend] at hroot
          cases hroot
        · simp only [if_neg hend] at hroot
          obtain ⟨s₄, -, hroot⟩ := bind_eq_ok_iff.mp hroot
          cases hroot
    refine buildValue_root_records F hz hbuild ?_
    split_ifs at hwritten
    rwa [Option.some.inj hwritten]
  · intro h
    obtain ⟨s', hbuild, hcode⟩ := buildValue_root_reported F self hz h
    have hrun : self.deserialize F str = .ok ((none, some s'.errorCode), s') := by
      rw [deserialize, deserializeWide_eq, parseRoot, hbuild]
      rfl
    have hmalformed : ¬WellFormed F (StringConversions.utf8ToWide str) := by
      rintro ⟨hwz, v, hdoc⟩
      rw [← parsedText_of_nulFree hwz] at hdoc
      obtain ⟨s₁, hroot⟩ := parseRoot_of_document F self hz hdoc
      rw [parseRoot, hbuild] at hroot
      cases hroot
    exact ⟨none, s'.errorCode, s', hrun, iff_of_false hcode hmalformed, fun _ => ⟨rfl, hcode⟩⟩

end

/-- `[]` is a document, and `*error_code` is left as it was. -/
theorem not_reportsExactly_emptyArray :
    ¬ReportsExactly (⟨fun _ => (), fun _ => true, fun _ => []⟩ : Doubles Unit)
      ⟨[], [], 0, false, .noError, 0, 0⟩ [0x5B, 0x5D] := by
  have hwide : StringConversions.utf8ToWide [0x5B, 0x5D] = wide ['[', ']'] :=
    utf8ToWide_of_ascii (by simp) (by simp)
  refine not_reportsExactly_of_wellFormed _ ?_
  rw [hwide]
  refine ⟨by decide, .list [], ⟨[], wide ['[', ']'], [], rfl, Gap.nil, EndGap.gap Gap.nil, ?_⟩,
    trivial⟩
  exact ValueText.array (Items.empty Gap.nil)

end Mylib.Proofs.Base
