import Mylib.Proofs.Base.HttpFields

/-!
# `Mylib.Proofs.Base.HttpPairs`: the loop over the pairs

One round of the loop in `BuildValue` reads a key, an `=` and a value, and then finds
a separator, the end of the text or something left of the value (`pairLoop_round`).
From it follows, by induction on the text, that the loop returns on every text
without a zero and never leaves it (`pairLoop_returns`), and what it returns on a
parameter list: all entries when every key and every value can be read
(`pairLoop_readable`), otherwise `NULL` or a greater depth (`pairLoop_unreadable`).
-/

set_option autoImplicit false

namespace Mylib.Proofs.Base.Http

open Mylib.Lib
open Mylib.Lib.CString
open Mylib.Spec.Base
open JsonValueSerializer (kStackLimit wide)
open HttpValueSerializer HttpGrammar

section

variable {D : Type} (F : Doubles D) {start : WString} {depth : Nat} {s : HttpValueSerializer}

/-! ### The inner call at any depth -/

/-- The depth behind a call that gave `res`: one more when it returned `NULL`. -/
def depthAfter (depth : Nat) (res : Option (Value D)) : Nat :=
  if res.isSome then depth else depth + 1

/-- What the inner call leaves of the field `t`, with `r` behind it. -/
structure InnerOf (depth : Nat) (t r : WString) (res : Option (Value D)) (u : WString) : Prop where
  suffix : u <:+ t
  outcome : depth < kStackLimit → r.head? ≠ some '='.toNat → ValueOutcome F t res u
  limit : kStackLimit ≤ depth → res = none ∧ u = t

/-- A field in the place of a value: the token, what it is turned into, and where the cursor and the
depth are after it. -/
theorem buildValue_inner (n : Nat) {t r : WString} (h : At start (t ++ r) depth s)
    (ht : IsFieldText t) (htrim : trim t = t) (hr : Separated r) :
    ∃ res u s', HttpValueSerializer.buildValue F (n + 1) false s = .ok (res, s') ∧
      At start (u ++ r) (depthAfter depth res) s' ∧ InnerOf F depth t r res u := by
  by_cases hdepth : depth < kStackLimit
  · obtain ⟨res, u, s', hbuild, hsuffix, hat, houtcome⟩ := buildValue_field F n h ht hr hdepth
    rw [htrim] at hsuffix houtcome
    exact ⟨res, u, s', hbuild, hat, hsuffix, fun _ => houtcome, fun h => absurd hdepth h.not_gt⟩
  · obtain ⟨s', hbuild, hat⟩ := buildValue_limit F n false h (not_lt.mp hdepth)
    exact ⟨none, t, s', hbuild, hat, List.suffix_rfl, fun h => absurd h hdepth,
      fun _ => ⟨rfl, rfl⟩⟩

/-! ### One round -/

/-- The entries after a round that read `key` and was given `res` for its value. -/
def stored (key : WString) (res : Option (Value D)) (node : List (WString × Value D)) :
    List (WString × Value D) :=
  Value.setWithoutPathExpansion key (res.getD (.string [])) node

def endToken : Token := ⟨.objectEnd, some [], 0⟩

/-- At the end of the text the loop gives the entries it has. -/
theorem pairLoop_end
    {buildValue : HttpValueSerializer → Except Fault (Option (Value D) × HttpValueSerializer)}
    (node : List (WString × Value D)) :
    pairLoop buildValue s endToken node = .ok (some (node, endToken), s) := by
  rw [pairLoop, if_pos (show endToken.type = .objectEnd from rfl)]
  rfl

/-- The loop behind a key, an inner call and the token that follows them. -/
theorem pairLoop_step
    {buildValue : HttpValueSerializer → Except Fault (Option (Value D) × HttpValueSerializer)}
    {s₁ s₂ s₃ : HttpValueSerializer} {token after : Token} {key : WString}
    {res : Option (Value D)} (node : List (WString × Value D)) (htype : token.type ≠ .objectEnd)
    (hkey : readKey (D := D) s token = .ok (some key, s₁)) (hvalue : buildValue s₁ = .ok (res, s₂))
    (hafter : s₂.parseToken = .ok (after, s₃)) :
    pairLoop buildValue s token node =
      if after.type = .listSeparator then
        s₃.skip after >>= fun s₄ => s₄.parseToken >>= fun r =>
          if r.2.httpPos.length < s.httpPos.length then
            pairLoop buildValue r.2 r.1 (stored key res node)
          else .error .stall
      else if after.type = .objectEnd then .ok (some (stored key res node, after), s₃)
      else .ok (none, s₃) := by
  rw [pairLoop, if_neg htype, hkey, ok_bind]
  simp only [hvalue, ok_bind, hafter]
  rfl

/-- How a round ends, with `u` left of its value and `r` behind that. -/
inductive RoundEnd (loop : Except Fault (Option (List (WString × Value D) × Token) ×
      HttpValueSerializer))
    (again : HttpValueSerializer → Token →
      Except Fault (Option (List (WString × Value D) × Token) × HttpValueSerializer))
    (node : List (WString × Value D)) (start u r : WString) (depth : Nat) : Prop where
  | refused {s' : HttpValueSerializer} {p' : WString} :
      (r.head? ≠ some '='.toNat → trim u ≠ []) → loop = .ok (none, s') →
      At start p' depth s' → p' <:+ u ++ r → RoundEnd loop again node start u r depth
  | closed {s' : HttpValueSerializer} :
      trim u = [] → r = [] → loop = .ok (some (node, endToken), s') → At start [] depth s' →
      RoundEnd loop again node start u r depth
  | next {r' : WString} {s' : HttpValueSerializer} {token' : Token} :
      trim u = [] → r = '&'.toNat :: r' → loop = again s' token' →
      At start (trim r') depth s' → tokenAt (trim r') = .ok token' →
      RoundEnd loop again node start u r depth

/-- One round over a key, `=` and a value that are readable. -/
theorem pairLoop_round (n : Nat) {p key v r : WString} {s₁ : HttpValueSerializer}
    {token : Token} (node : List (WString × Value D)) (h : At start p depth s)
    (htype : token.type ≠ .objectEnd) (hkey : readKey (D := D) s token = .ok (some key, s₁))
    (hat : At start (trim v ++ r) depth s₁) (hlong : r.length < p.length) (hv : IsFieldText v)
    (hr : Separated r) (hz : 0 ∉ r) :
    ∃ res u, InnerOf F depth (trim v) r res u ∧
      RoundEnd (pairLoop (HttpValueSerializer.buildValue F (n + 1) false) s token node)
        (fun s' token' =>
          pairLoop (HttpValueSerializer.buildValue F (n + 1) false) s' token'
            (stored key res node))
        (stored key res node) start u r (depthAfter depth res) := by
  obtain ⟨res, u, s₂, hbuild, hat₂, hinner⟩ :=
    buildValue_inner F n hat (isField_trim hv) (trim_trim v) hr
  refine ⟨res, u, hinner, ?_⟩
  have hu : IsFieldText u := fun c hc => isField_trim hv c (hinner.suffix.subset hc)
  have htext : trim (u ++ r) = trim u ++ r := trim_append hr
  -- `u` is what the value has left over. Only blanks let the loop go on.
  by_cases hblank : trim u = []
  · rw [hblank, List.nil_append] at htext
    obtain ⟨after, hafter, hend⟩ := tokenAt_separated hr
    obtain ⟨s₃, hparse, hat₃⟩ := parseToken_at hat₂ (htext.symm ▸ hafter)
    rw [htext] at hat₃
    have hstep := pairLoop_step node htype hkey hbuild hparse
    cases hend with
    | text => exact .closed hblank rfl (by simpa [endToken] using hstep) hat₃
    | amp r' =>
      obtain ⟨s₄, hskip, hat₄⟩ :=
        skip_at ['&'.toNat] ⟨.listSeparator, some ('&'.toNat :: r'), 1⟩ hat₃ rfl
      obtain ⟨token', htoken'⟩ :=
        tokenAt_returns fun hmem => nulFree_tail hz ((trim_suffix r').subset hmem)
      obtain ⟨s₅, hparse', hat₅⟩ := parseToken_at hat₄ htoken'
      -- The round has moved on, so the loop does not stall.
      have hshort : s₅.httpPos.length < s.httpPos.length := by
        have htail := (trim_suffix r').length_le
        rw [List.length_cons] at hlong
        rw [hat₅.httpPos, h.httpPos]
        omega
      refine .next hblank rfl ?_ hat₅ htoken'
      rw [hstep, if_pos rfl, hskip, ok_bind, hparse', ok_bind, if_pos hshort]
    | eq r' =>
      refine .refused (fun h => absurd rfl h) ?_ hat₃ (List.suffix_append u _)
      rw [hstep, if_neg (by simp), if_neg (by simp)]
  · obtain ⟨after, hafter, hof⟩ := tokenAt_field (isField_trim hu) hblank hr
    obtain ⟨s₃, hparse, hat₃⟩ := parseToken_at hat₂ (htext.symm ▸ hafter)
    have hstep := pairLoop_step node htype hkey hbuild hparse
    refine .refused (fun _ => hblank) ?_ hat₃ (trim_suffix _)
    rw [hstep, if_neg hof.type_ne.2.1, if_neg hof.type_ne.1]

/-! ### Every text -/

/-- A key that cannot be read ends the loop with no value. -/
theorem pairLoop_noKey
    {buildValue : HttpValueSerializer → Except Fault (Option (Value D) × HttpValueSerializer)}
    {s' : HttpValueSerializer} {token : Token} (node : List (WString × Value D))
    (htype : token.type ≠ .objectEnd) (hkey : readKey (D := D) s token = .ok (none, s')) :
    pairLoop buildValue s token node = .ok (none, s') := by
  rw [pairLoop, if_neg htype, hkey]
  rfl

/-- The depth after a value is never below the one before it. -/
theorem depth_le_depthAfter (depth : Nat) (res : Option (Value D)) :
    depth ≤ depthAfter depth res := by
  unfold depthAfter
  split_ifs <;> omega

/-- Only the end of the text ends the loop at its head. -/
theorem type_ne_objectEnd {p : WString} {token : Token} (hz : 0 ∉ p) (hne : p ≠ [])
    (h : tokenAt p = .ok token) : token.type ≠ .objectEnd := by
  obtain ⟨t, r, rfl, ht, hr⟩ := exists_field hz
  by_cases hempty : t = []
  · subst hempty
    obtain ⟨token', htoken', hend⟩ := tokenAt_separated hr
    obtain rfl : token' = token := Except.ok.inj (htoken'.symm.trans h)
    cases hend with
    | text => exact absurd rfl hne
    | amp r' => simp
    | eq r' => simp
  · obtain ⟨token', htoken', hof⟩ := tokenAt_field ht hempty hr
    obtain rfl : token' = token := Except.ok.inj (htoken'.symm.trans h)
    exact hof.type_ne.1

/-- The loop returns, stays inside the text and does not lower the depth. It gives
entries only at the end of the text. -/
theorem pairLoop_returns (n : Nat) {p : WString} {token : Token}
    (node : List (WString × Value D)) (h : At start p depth s) (hz : 0 ∉ p)
    (htrim : trim p = p) (htoken : tokenAt p = .ok token) :
    ∃ res s' p' depth',
      pairLoop (HttpValueSerializer.buildValue F (n + 1) false) s token node = .ok (res, s') ∧
      At start p' depth' s' ∧ p' <:+ p ∧ depth ≤ depth' ∧
      ∀ entries token', res = some (entries, token') → token' = endToken ∧ p' = [] := by
  -- On the length: a round with a separator behind it goes on at a shorter text.
  induction hn : p.length using Nat.strong_induction_on generalizing s p depth token node with
  | _ k ih =>
    by_cases hne : p = []
    · subst hne
      obtain rfl : endToken = token := Except.ok.inj (tokenAt_nil.symm.trans htoken)
      refine ⟨_, s, [], depth, pairLoop_end node, h, List.suffix_rfl, le_rfl, ?_⟩
      rintro entries token' heq
      cases heq
      exact ⟨rfl, rfl⟩
    have htype := type_ne_objectEnd hz hne htoken
    obtain ⟨t, r, rfl, ht, hr⟩ := exists_field hz
    have htrim' : trim t = t := List.append_cancel_right ((trim_append hr).symm.trans htrim)
    have hzr : 0 ∉ r := fun hmem => hz (List.mem_append_right t hmem)
    rcases readKey_spec (D := D) h ht htrim' hr hzr htoken with
      ⟨key, r', s₁, -, rfl, hkey, hat⟩ | ⟨-, s', p', hkey, hat, hsuffix⟩
    · obtain ⟨v, r₂, rfl, hv, hr₂⟩ := exists_field (nulFree_tail hzr)
      rw [trim_append hr₂] at hat
      have hzr₂ : 0 ∉ r₂ := fun hmem => hzr (by simp [hmem])
      have hlong : r₂.length < (t ++ '='.toNat :: (v ++ r₂)).length := by
        simp only [List.length_append, List.length_cons]
        omega
      obtain ⟨res, u, hinner, hround⟩ :=
        pairLoop_round F n node h htype hkey hat hlong hv hr₂ hzr₂
      have hvr : v ++ r₂ <:+ t ++ '='.toNat :: (v ++ r₂) :=
        ⟨t ++ ['='.toNat], by simp⟩
      have hur : u ++ r₂ <:+ v ++ r₂ := by
        obtain ⟨a, ha⟩ := hinner.suffix.trans (trim_suffix v)
        exact ⟨a, by rw [← ha, List.append_assoc]⟩
      cases hround with
      | refused _ hloop hat' hsuffix =>
        exact ⟨none, _, _, _, hloop, hat', hsuffix.trans (hur.trans hvr),
          depth_le_depthAfter depth res, nofun⟩
      | closed _ _ hloop hat' =>
        refine ⟨_, _, _, _, hloop, hat', List.nil_suffix, depth_le_depthAfter depth res, ?_⟩
        rintro entries token' heq
        cases heq
        exact ⟨rfl, rfl⟩
      | @next r' s' token' _ hr' hloop hat' htoken' =>
        subst hr'
        have htail : trim r' <:+ u ++ '&'.toNat :: r' :=
          (trim_suffix r').trans ⟨u ++ ['&'.toNat], by simp⟩
        have hshort : (trim r').length < k := by
          have hle := (trim_suffix r').length_le
          rw [← hn]
          simp only [List.length_append, List.length_cons]
          omega
        obtain ⟨res', s'', p'', depth'', hrest, hat'', hsuffix, hdepth, hend⟩ :=
          ih _ hshort (stored key res node) hat'
            (fun hmem => nulFree_tail hzr₂ ((trim_suffix r').subset hmem)) (trim_trim r') htoken'
            rfl
        exact ⟨res', s'', p'', depth'', hloop.trans hrest, hat'',
          hsuffix.trans (htail.trans (hur.trans hvr)),
          (depth_le_depthAfter depth res).trans hdepth, hend⟩
    · exact ⟨none, s', p', depth, pairLoop_noKey node htype hkey, hat, hsuffix, le_rfl, nofun⟩

/-! ### The root -/

/-- `BuildValue(true)` below the limit is the loop from the first token on, and an
end that passes an empty token. -/
theorem buildValue_root (n : Nat) {p : WString} (h : At start p depth s) (hz : 0 ∉ p)
    (hdepth : depth < kStackLimit) :
    ∃ s₁ token, At start (trim p) (depth + 1) s₁ ∧ tokenAt (trim p) = .ok token ∧
      HttpValueSerializer.buildValue F (n + 2) true s =
        (pairLoop (HttpValueSerializer.buildValue F (n + 1) false) s₁ token [] >>= fun r =>
          match r.1 with
          | none => .ok (none, r.2)
          | some (entries, token) => r.2.finish token (some (.dictionary entries))) := by
  have hlimit : ¬kStackLimit < s.stackDepth + 1 := by
    rw [h.stackDepth]
    omega
  have hat : At start p (depth + 1) { s with stackDepth := s.stackDepth + 1 } :=
    ⟨h.startPos, h.httpPos, congrArg (· + 1) h.stackDepth⟩
  obtain ⟨s₀, hskip, hat₀⟩ := skip_at [] ⟨.objectBegin, some s.httpPos, 0⟩ hat rfl
  obtain ⟨token, htoken⟩ := tokenAt_returns fun hmem => hz ((trim_suffix p).subset hmem)
  obtain ⟨s₁, hparse, hat₁⟩ := parseToken_at hat₀ htoken
  refine ⟨s₁, token, hat₁, htoken, ?_⟩
  have hvalue := HttpValueSerializer.buildValue.eq_def F (n + 2) true s
  simp only [hlimit, if_false, firstToken, if_true, pure_eq_ok, ok_bind, hskip, hparse] at hvalue
  exact hvalue

/-- The end of `BuildValue(true)`: it succeeds where the loop does. -/
theorem finish_end (entries : List (WString × Value D)) (h : At start [] (depth + 1) s) :
    ∃ s', HttpValueSerializer.finish s endToken (some (.dictionary entries))
        = .ok (some (.dictionary entries), s') ∧ At start [] depth s' :=
  finish_some endToken (.dictionary entries) (List.nil_append [] ▸ h) rfl

/-! ### Parameter lists -/

/-- The pair's key and value are read as `entry`. -/
def ReadsAs (pair : WString × WString) (entry : WString × Value D) : Prop :=
  KeyText pair.1 entry.1 ∧ ValueText F pair.2 entry.2

def AreFields (pairs : List (WString × WString)) : Prop :=
  ∀ pair ∈ pairs, IsFieldText pair.1 ∧ IsFieldText pair.2

/-- What stands behind the first pair of a list. -/
def moreText (pairs : List (WString × WString)) : WString :=
  if pairs = [] then [] else '&'.toNat :: listText pairs

/-- The text of a list of pairs begins with its first pair. -/
theorem listText_cons (k v : WString) (pairs : List (WString × WString)) :
    listText ((k, v) :: pairs) = k ++ '='.toNat :: (v ++ moreText pairs) := by
  cases pairs with
  | nil => simp [listText, joinPairs, moreText]
  | cons pair pairs => simp [listText, joinPairs, moreText]

/-- What follows a value is the end or an `&`, and never a `=`. -/
theorem moreText_separated (pairs : List (WString × WString)) :
    Separated (moreText pairs) ∧ (moreText pairs).head? ≠ some '='.toNat := by
  unfold moreText
  split_ifs with h
  · exact ⟨fun c hc => by simp at hc, by simp⟩
  · exact ⟨fun c hc => Or.inl (Option.some.inj hc).symm, by simp⟩

/-- No zero stands in the text of fields. -/
theorem listText_nulFree {pairs : List (WString × WString)} (h : AreFields pairs) :
    0 ∉ listText pairs := by
  induction pairs with
  | nil => simp [listText, joinPairs]
  | cons pair pairs ih =>
    obtain ⟨k, v⟩ := pair
    have hkv := h (k, v) List.mem_cons_self
    have hmore : 0 ∉ moreText pairs := by
      unfold moreText
      split_ifs
      · simp
      · simpa using ih fun pair hp => h pair (List.mem_cons_of_mem _ hp)
    rw [listText_cons]
    simp [isField_nulFree hkv.1, isField_nulFree hkv.2, hmore]

/-- Blanks before a key do not count. -/
theorem keyText_trim {t key : WString} : KeyText (trim t) key ↔ KeyText t key := by
  constructor
  · rintro ⟨hne, hkeyword, hw⟩
    rw [trim_trim] at hne hkeyword hw
    exact ⟨hne, hkeyword, hw⟩
  · rintro ⟨hne, hkeyword, hw⟩
    rw [← trim_trim] at hne hkeyword hw
    exact ⟨hne, hkeyword, hw⟩

variable {F}

/-- Blanks before a value do not count. -/
theorem valueText_trim {t : WString} {v : Value D} : ValueText F (trim t) v ↔ ValueText F t v := by
  constructor
  · intro h
    cases h with
    | null ht hg => exact .null (trim_trim t ▸ ht) hg
    | boolTrue ht hg => exact .boolTrue (trim_trim t ▸ ht) hg
    | number ht hshape hv => exact .number (trim_trim t ▸ ht) hshape hv
    -- The shape tests are on the text without its blanks.
    | string hne hkeyword hshape hw =>
      rw [trim_trim] at hne hkeyword hshape hw
      exact .string hne hkeyword hshape hw
  · intro h
    cases h with
    | null ht hg => exact .null ((trim_trim t).trans ht) hg
    | boolTrue ht hg => exact .boolTrue ((trim_trim t).trans ht) hg
    | number ht hshape hv => exact .number ((trim_trim t).trans ht) hshape hv
    | string hne hkeyword hshape hw =>
      rw [← trim_trim] at hne hkeyword hshape hw
      exact .string hne hkeyword hshape hw

/-- Nothing but blanks is no value. -/
theorem not_valueText_of_blank {t : WString} {v : Value D} (h : trim t = []) :
    ¬ValueText F t v := by
  intro hv
  cases hv with
  | null ht _ => simp [h, wide] at ht
  | boolTrue ht _ => simp [h, wide] at ht
  | @number n v ht _ _ =>
    obtain ⟨c, q, hq, -⟩ := number_head n []
    rw [List.append_nil, ← ht, h] at hq
    cases hq
  | string hne _ _ _ => exact hne h

variable (F)

/-- The loop with `BuildValue(false)` inside. -/
def loopFrom (n : Nat) (s : HttpValueSerializer) (token : Token)
    (node : List (WString × Value D)) :
    Except Fault (Option (List (WString × Value D) × Token) × HttpValueSerializer) :=
  pairLoop (HttpValueSerializer.buildValue F (n + 1) false) s token node

/-- The loop is refused, or it leaves the depth raised behind an empty value. -/
def Spoilt (n : Nat) (start : WString) (depth : Nat) (s : HttpValueSerializer) (token : Token)
    (node : List (WString × Value D)) (emptyValue : Prop) : Prop :=
  ∃ res s' p' depth', loopFrom F n s token node = .ok (res, s') ∧ At start p' depth' s' ∧
    depth ≤ depth' ∧ (res = none ∨ depth < depth' ∧ emptyValue)

/-- The round for the first pair of a list, at any depth. -/
theorem loopFrom_round (n : Nat) {k v : WString} {pairs : List (WString × WString)}
    {token : Token} (node : List (WString × Value D))
    (h : At start (trim (listText ((k, v) :: pairs))) depth s)
    (hfields : AreFields ((k, v) :: pairs))
    (htoken : tokenAt (trim (listText ((k, v) :: pairs))) = .ok token) :
    (∃ key res u, KeyText k key ∧ InnerOf F depth (trim v) (moreText pairs) res u ∧
      RoundEnd (loopFrom F n s token node)
        (fun s' token' => loopFrom F n s' token' (stored key res node))
        (stored key res node) start u (moreText pairs) (depthAfter depth res)) ∨
    ((∀ key, ¬KeyText k key) ∧
      ∃ s' p', loopFrom F n s token node = .ok (none, s') ∧ At start p' depth s') := by
  obtain ⟨hk, hv⟩ := hfields (k, v) List.mem_cons_self
  obtain ⟨hmore, -⟩ := moreText_separated pairs
  have hpair : Separated ('='.toNat :: (v ++ moreText pairs)) := fun c hc =>
    Or.inr (Option.some.inj hc).symm
  have htext : trim (listText ((k, v) :: pairs))
      = trim k ++ '='.toNat :: (v ++ moreText pairs) := by
    rw [listText_cons, trim_append hpair]
  have hz : 0 ∉ trim k ++ '='.toNat :: (v ++ moreText pairs) := by
    rw [← htext]
    exact fun hmem => listText_nulFree hfields ((trim_suffix _).subset hmem)
  rw [htext] at h htoken
  have htype := type_ne_objectEnd hz (by simp) htoken
  -- Either the key is read up to its `=`, or the round ends with the call.
  rcases readKey_spec (D := D) h (isField_trim hk) (trim_trim k) hpair
      (fun hmem => hz (List.mem_append_right _ hmem)) htoken with
    ⟨key, r', s₁, hkey, hr', hread, hat⟩ | ⟨hnone, s', p', hread, hat, -⟩
  · obtain rfl : v ++ moreText pairs = r' := (List.cons.inj hr').2
    rw [trim_append hmore] at hat
    have hlong : (moreText pairs).length
        < (trim k ++ '='.toNat :: (v ++ moreText pairs)).length := by
      simp only [List.length_append, List.length_cons]
      omega
    obtain ⟨res, u, hinner, hround⟩ :=
      pairLoop_round F n node h htype hread hat hlong hv hmore fun hmem => hz (by simp [hmem])
    exact Or.inl ⟨key, res, u, keyText_trim.mp hkey, hinner, hround⟩
  · exact Or.inr ⟨fun key hkey => hnone key _ (keyText_trim.mpr hkey) rfl, s', p',
      pairLoop_noKey node htype hread, hat⟩

/-- The end of a round that left nothing but blanks of its value is the loop at the
next pair, or at the end of the text. -/
theorem RoundEnd.goOn {n : Nat} {key u : WString} {res : Option (Value D)}
    {pairs : List (WString × WString)} {token : Token} {node : List (WString × Value D)}
    (h : RoundEnd (loopFrom F n s token node)
      (fun s' token' => loopFrom F n s' token' (stored key res node)) (stored key res node) start u
      (moreText pairs) depth) (hblank : trim u = []) :
    ∃ s' token', loopFrom F n s token node = loopFrom F n s' token' (stored key res node) ∧
      At start (trim (listText pairs)) depth s' ∧ tokenAt (trim (listText pairs)) = .ok token' := by
  cases h with
  | refused hleft _ _ _ => exact absurd hblank (hleft (moreText_separated pairs).2)
  | @closed s' _ hend hloop hat' =>
    obtain rfl : pairs = [] := by
      by_contra hne
      simp [moreText, hne] at hend
    exact ⟨s', endToken, hloop.trans (pairLoop_end _).symm, hat', tokenAt_nil⟩
  | @next r' s' token' _ hamp hloop hat' htoken' =>
    have hr' : r' = listText pairs := by
      unfold moreText at hamp
      split_ifs at hamp
      exact (List.cons.inj hamp).2.symm
    subst hr'
    exact ⟨s', token', hloop, hat', htoken'⟩

/-- The end of a round that left something of its value. -/
theorem RoundEnd.stop {n : Nat} {key u : WString} {res : Option (Value D)} {r : WString}
    {token : Token} {node : List (WString × Value D)}
    (h : RoundEnd (loopFrom F n s token node)
      (fun s' token' => loopFrom F n s' token' (stored key res node)) (stored key res node) start u
      r depth) (hleft : trim u ≠ []) :
    ∃ s' p', loopFrom F n s token node = .ok (none, s') ∧ At start p' depth s' := by
  cases h with
  | refused _ hloop hat _ => exact ⟨_, _, hloop, hat⟩
  | closed hblank _ _ _ => exact absurd hblank hleft
  | next hblank _ _ _ _ => exact absurd hblank hleft

/-- The first pair of a list is read and stored and the loop goes on behind it, or it
cannot be read. -/
theorem loopFrom_pair (n : Nat) {k v : WString} {pairs : List (WString × WString)}
    {token : Token} (node : List (WString × Value D))
    (h : At start (trim (listText ((k, v) :: pairs))) depth s)
    (hfields : AreFields ((k, v) :: pairs)) (hdepth : depth < kStackLimit)
    (htoken : tokenAt (trim (listText ((k, v) :: pairs))) = .ok token) :
    (∃ entry s' token', ReadsAs F (k, v) entry ∧
      loopFrom F n s token node
        = loopFrom F n s' token' (Value.setWithoutPathExpansion entry.1 entry.2 node) ∧
      At start (trim (listText pairs)) depth s' ∧
      tokenAt (trim (listText pairs)) = .ok token') ∨
    ((∀ entry, ¬ReadsAs F (k, v) entry) ∧ Spoilt F n start depth s token node (trim v = [])) := by
  have hrest : AreFields pairs := fun pair hp => hfields pair (List.mem_cons_of_mem _ hp)
  rcases loopFrom_round F n node h hfields htoken with
    ⟨key, res, u, hkey, hinner, hround⟩ | ⟨hnone, s', p', hloop, hat⟩
  · cases hinner.outcome hdepth (moreText_separated pairs).2 with
    | @read val u hval hblank =>
      obtain ⟨s', token', hloop, hat, htoken'⟩ := hround.goOn F hblank
      exact Or.inl ⟨(key, val), s', token', ⟨hkey, valueText_trim.mp hval⟩, hloop, hat, htoken'⟩
    | empty hempty =>
      -- The call returned `NULL`, and its level was not left.
      obtain ⟨s', token', hloop, hat, htoken'⟩ := hround.goOn F rfl
      have hz : 0 ∉ trim (listText pairs) := fun hmem =>
        listText_nulFree hrest ((trim_suffix _).subset hmem)
      obtain ⟨res', s'', p'', depth'', hloop', hat'', -, hle, -⟩ :=
        pairLoop_returns F n (stored key none node) hat hz (trim_trim _) htoken'
      have hlt : depth < depth'' := hle
      exact Or.inr ⟨fun entry hentry => not_valueText_of_blank hempty hentry.2, res', s'', p'',
        depth'', hloop.trans hloop', hat'', hlt.le, Or.inr ⟨hlt, hempty⟩⟩
    | unread hnone hleft =>
      obtain ⟨s', p', hloop, hat⟩ := hround.stop F hleft
      exact Or.inr ⟨fun entry hentry => hnone entry.2 (valueText_trim.mpr hentry.2), none, s', p',
        _, hloop, hat, depth_le_depthAfter depth res, Or.inl rfl⟩
  · exact Or.inr ⟨fun entry hentry => hnone entry.1 hentry.1, none, s', p', depth, hloop, hat,
      le_rfl, Or.inl rfl⟩

/-- A list all of whose pairs can be read is read whole, at the depth it was
entered. -/
theorem loopFrom_readable (n : Nat) {pairs : List (WString × WString)} {token : Token}
    (node : List (WString × Value D)) (h : At start (trim (listText pairs)) depth s)
    (hfields : AreFields pairs) (hdepth : depth < kStackLimit)
    (htoken : tokenAt (trim (listText pairs)) = .ok token)
    (hread : ∀ pair ∈ pairs, ∃ entry, ReadsAs F pair entry) :
    ∃ entries s', List.Forall₂ (ReadsAs F) pairs entries ∧
      loopFrom F n s token node = .ok (some (OrderedMap.setAll node entries, endToken), s') ∧
      At start [] depth s' := by
  induction pairs generalizing s token node with
  | nil =>
    obtain rfl : endToken = token := Except.ok.inj (tokenAt_nil.symm.trans htoken)
    exact ⟨[], s, .nil, pairLoop_end node, h⟩
  | cons pair pairs ih =>
    obtain ⟨k, v⟩ := pair
    rcases loopFrom_pair F n node h hfields hdepth htoken with
      ⟨entry, s₁, token₁, hentry, hloop, hat₁, htoken₁⟩ | ⟨hno, -⟩
    · obtain ⟨entries, s', hentries, hrest, hat'⟩ :=
        ih (Value.setWithoutPathExpansion entry.1 entry.2 node) hat₁
          (fun pair hp => hfields pair (List.mem_cons_of_mem _ hp)) htoken₁
          (fun pair hp => hread pair (List.mem_cons_of_mem _ hp))
      exact ⟨entry :: entries, s', .cons hentry hentries, hloop.trans hrest, hat'⟩
    · obtain ⟨entry, hentry⟩ := hread (k, v) List.mem_cons_self
      exact absurd hentry (hno entry)

/-- A list with a pair that cannot be read spoils the loop. -/
theorem loopFrom_unreadable (n : Nat) {pairs : List (WString × WString)} {token : Token}
    (node : List (WString × Value D)) (h : At start (trim (listText pairs)) depth s)
    (hfields : AreFields pairs) (hdepth : depth < kStackLimit)
    (htoken : tokenAt (trim (listText pairs)) = .ok token)
    (hread : ¬∀ pair ∈ pairs, ∃ entry, ReadsAs F pair entry) :
    Spoilt F n start depth s token node (∃ pair ∈ pairs, trim pair.2 = []) := by
  induction pairs generalizing s token node with
  | nil => exact absurd (fun pair hp => absurd hp List.not_mem_nil) hread
  | cons pair pairs ih =>
    obtain ⟨k, v⟩ := pair
    rcases loopFrom_pair F n node h hfields hdepth htoken with
      ⟨entry, s₁, token₁, hentry, hloop, hat₁, htoken₁⟩ |
      ⟨-, res, s', p', depth', hloop, hat, hle, hspoilt⟩
    -- The first pair is read and the unreadable one comes later.
    · have hrest : ¬∀ pair ∈ pairs, ∃ entry, ReadsAs F pair entry := fun hall =>
        hread (List.forall_mem_cons.mpr ⟨⟨entry, hentry⟩, hall⟩)
      obtain ⟨res, s', p', depth', hloop', hat, hle, hspoilt⟩ :=
        ih (Value.setWithoutPathExpansion entry.1 entry.2 node) hat₁
          (fun pair hp => hfields pair (List.mem_cons_of_mem _ hp)) htoken₁ hrest
      refine ⟨res, s', p', depth', hloop.trans hloop', hat, hle, hspoilt.imp id ?_⟩
      rintro ⟨hlt, pair, hp, hempty⟩
      exact ⟨hlt, pair, List.mem_cons_of_mem _ hp, hempty⟩
    -- The first pair is the unreadable one.
    · refine ⟨res, s', p', depth', hloop, hat, hle, hspoilt.imp id ?_⟩
      rintro ⟨hlt, hempty⟩
      exact ⟨hlt, (k, v), List.mem_cons_self, hempty⟩

/-- `BuildValue(true)` on a list all of whose pairs can be read. -/
theorem buildValue_readable (n : Nat) {pairs : List (WString × WString)}
    (h : At start (listText pairs) depth s) (hfields : AreFields pairs)
    (hdepth : depth + 1 < kStackLimit) (hread : ∀ pair ∈ pairs, ∃ entry, ReadsAs F pair entry) :
    ∃ entries s', List.Forall₂ (ReadsAs F) pairs entries ∧
      HttpValueSerializer.buildValue F (n + 2) true s
        = .ok (some (.dictionary (OrderedMap.setAll [] entries)), s') ∧
      At start [] depth s' := by
  obtain ⟨s₁, token, hat₁, htoken, hroot⟩ :=
    buildValue_root F n h (listText_nulFree hfields) (by omega)
  obtain ⟨entries, s₂, hentries, hloop, hat₂⟩ :=
    loopFrom_readable F n [] hat₁ hfields hdepth htoken hread
  obtain ⟨s₃, hfinish, hat₃⟩ := finish_end (OrderedMap.setAll [] entries) hat₂
  refine ⟨entries, s₃, hentries, ?_, hat₃⟩
  unfold loopFrom at hloop
  rw [hroot, hloop, ok_bind]
  exact hfinish

/-- `BuildValue(true)` on a list with a pair that cannot be read: a level stays
entered, and without an empty value in the list `NULL` is returned. -/
theorem buildValue_unreadable (n : Nat) {pairs : List (WString × WString)}
    (h : At start (listText pairs) depth s) (hfields : AreFields pairs)
    (hdepth : depth + 1 < kStackLimit) (hread : ¬∀ pair ∈ pairs, ∃ entry, ReadsAs F pair entry) :
    ∃ res s', HttpValueSerializer.buildValue F (n + 2) true s = .ok (res, s') ∧
      depth < s'.stackDepth ∧ (res = none ∨ ∃ pair ∈ pairs, trim pair.2 = []) := by
  have hz := listText_nulFree hfields
  obtain ⟨s₁, token, hat₁, htoken, hroot⟩ := buildValue_root F n h hz (by omega)
  obtain ⟨res, s₂, p, depth', hloop, hat₂, hle, hspoilt⟩ :=
    loopFrom_unreadable F n [] hat₁ hfields hdepth htoken hread
  obtain ⟨res', s₂', p', depth'', hloop', hat₂', -, -, hend⟩ :=
    pairLoop_returns F n [] hat₁ (fun hmem => hz ((trim_suffix _).subset hmem)) (trim_trim _)
      htoken
  unfold loopFrom at hloop
  -- Two lemmas describe the same run: one what it returns, the other where it ends.
  obtain ⟨rfl, rfl⟩ := Prod.mk.inj (Except.ok.inj (hloop'.symm.trans hloop))
  rw [hroot, hloop, ok_bind]
  cases res' with
  | none =>
    refine ⟨none, s₂', rfl, ?_, Or.inl rfl⟩
    rw [hat₂.stackDepth]
    omega
  | some found =>
    obtain ⟨entries, token'⟩ := found
    obtain ⟨rfl, rfl⟩ := hend entries token' rfl
    obtain ⟨hlt, hempty⟩ := hspoilt.resolve_left (by simp)
    obtain ⟨j, rfl⟩ : ∃ j, depth'' = j + 1 := by
      refine ⟨depth'' - 1, ?_⟩
      have hsame := hat₂'.stackDepth.symm.trans hat₂.stackDepth
      omega
    obtain ⟨s₃, hfinish, hat₃⟩ := finish_end entries hat₂'
    refine ⟨_, s₃, hfinish, ?_, Or.inr hempty⟩
    have hsame := hat₂'.stackDepth.symm.trans hat₂.stackDepth
    rw [hat₃.stackDepth]
    omega

end

end Mylib.Proofs.Base.Http
