import Mylib.Proofs.Base.HttpPairs

/-!
# `Mylib.Proofs.Base.HttpDepth`: how deep a flat list gets

A parameter list nests nothing, so `stack_depth_` should come back to where it was.
`BuildValue` leaves a level only on the exit that returns a value. A value that
cannot be read becomes the empty string and its level stays entered.
`keepsDepth_iff` says which lists get by: those of which every key and every value
can be read, and an empty value never can. Behind 99 empty values the limit is
reached, and a list with a further value is refused (`buildValue_refused`).
-/

set_option autoImplicit false

namespace Mylib.Proofs.Base.Http

open Mylib.Lib
open Mylib.Lib.CString
open Mylib.Spec.Base
open JsonValueSerializer (kStackLimit wide isDigit)
open HttpValueSerializer HttpGrammar

section

variable {D : Type} (F : Doubles D) {start : WString} {depth : Nat} {s : HttpValueSerializer}

/-- `BuildValue(true)` on the list returns with `stack_depth_` as it found it, and no
parameter of the list is missing from the dictionary it returns. -/
def KeepsDepth (s : HttpValueSerializer) (pairs : List (WString × WString)) : Prop :=
  ∃ entries s', HttpValueSerializer.buildValue F (kStackLimit + 1) true (s.start (listText pairs))
      = .ok (some (.dictionary entries), s') ∧
    s'.stackDepth = (s.start (listText pairs)).stackDepth ∧
    ∀ pair ∈ pairs, ∃ entry ∈ entries, KeyText pair.1 entry.1

/-! ### Lists that can be read -/

/-- In two lists that belong together every pair has its entry. -/
theorem exists_entry {pairs : List (WString × WString)} {entries : List (WString × Value D)}
    {pair : WString × WString} (h : List.Forall₂ (ReadsAs F) pairs entries) (hp : pair ∈ pairs) :
    ∃ entry ∈ entries, ReadsAs F pair entry := by
  induction h with
  | nil => cases hp
  | @cons pair' entry pairs entries hentry _ ih =>
    rcases List.mem_cons.mp hp with rfl | hp
    · exact ⟨entry, List.mem_cons_self, hentry⟩
    · obtain ⟨entry', hmem, hentry'⟩ := ih hp
      exact ⟨entry', List.mem_cons_of_mem _ hmem, hentry'⟩

variable (s) in
/-- If every pair is readable, the depth goes up and down once and is 0 again. -/
theorem keepsDepth_of_readable {pairs : List (WString × WString)} (hfields : AreFields pairs)
    (hread : ∀ pair ∈ pairs, ∃ entry, ReadsAs F pair entry) : KeepsDepth F s pairs := by
  obtain ⟨entries, s', hentries, hbuild, hat⟩ :=
    buildValue_readable F (kStackLimit - 1) (start_at s (listText pairs)) hfields (by decide) hread
  refine ⟨OrderedMap.setAll [] entries, s', hbuild, hat.stackDepth, fun pair hp => ?_⟩
  obtain ⟨entry, hmem, hentry⟩ := exists_entry F hentries hp
  obtain ⟨v, hv⟩ := OrderedMap.exists_mem_setAll [] hmem
  exact ⟨_, hv, hentry.1⟩

variable (s) in
/-- The first pair that is not readable takes the way out that leaves the depth at 1. -/
theorem not_keepsDepth_of_unreadable {pairs : List (WString × WString)}
    (hfields : AreFields pairs) (hread : ¬∀ pair ∈ pairs, ∃ entry, ReadsAs F pair entry) :
    ¬KeepsDepth F s pairs := by
  rintro ⟨entries, s', hbuild, hdepth, -⟩
  obtain ⟨res, s'', hbuild', hlt, -⟩ := buildValue_unreadable F (kStackLimit - 1)
    (start_at s (listText pairs)) hfields (by decide) hread
  obtain ⟨-, rfl⟩ := Prod.mk.inj (Except.ok.inj (hbuild'.symm.trans hbuild))
  rw [hdepth] at hlt
  exact absurd hlt (lt_irrefl 0)

/-! ### Lists with empty values -/

/-- A pair whose key can be read and whose value is empty or blank. -/
def IsEmptyPair (pair : WString × WString) : Prop :=
  (∃ key, KeyText pair.1 key) ∧ trim pair.2 = []

/-- An empty value costs a level, at any depth. -/
theorem loopFrom_empty (n : Nat) {pair : WString × WString} {pairs : List (WString × WString)}
    {token : Token} (node : List (WString × Value D)) (hempty : IsEmptyPair pair)
    (h : At start (trim (listText (pair :: pairs))) depth s) (hfields : AreFields (pair :: pairs))
    (htoken : tokenAt (trim (listText (pair :: pairs))) = .ok token) :
    ∃ node' s' token', loopFrom F n s token node = loopFrom F n s' token' node' ∧
      At start (trim (listText pairs)) (depth + 1) s' ∧
      tokenAt (trim (listText pairs)) = .ok token' := by
  obtain ⟨k, v⟩ := pair
  obtain ⟨⟨key', hkey'⟩, hblank⟩ := hempty
  rcases loopFrom_round F n node h hfields htoken with
    ⟨key, res, u, -, hinner, hround⟩ | ⟨hnone, -⟩
  · -- Below the limit there is no value to read, and at the limit none is read.
    have hnull : res = none ∧ trim u = [] := by
      have hu : trim u = [] := by
        have hsuffix := hinner.suffix
        rw [hblank] at hsuffix
        rw [List.suffix_nil.mp hsuffix]
        rfl
      refine ⟨?_, hu⟩
      -- The nesting is at its limit or below it.
      by_cases hdepth : depth < kStackLimit
      · cases hinner.outcome hdepth (moreText_separated pairs).2 with
        | read hval _ => exact absurd hval (not_valueText_of_blank ((trim_trim v).trans hblank))
        | empty _ => rfl
        | unread _ hleft => exact absurd hu hleft
      · exact (hinner.limit (not_lt.mp hdepth)).1
    obtain ⟨s', token', hloop, hat, htoken'⟩ := hround.goOn F hnull.2
    rw [hnull.1] at hat
    exact ⟨_, s', token', hloop, hat, htoken'⟩
  -- The pair has a key, so it is not the other case.
  · exact absurd hkey' (hnone key')

/-- The run over leading empty values: each costs a level. -/
theorem loopFrom_empties (n : Nat) {empties pairs : List (WString × WString)} {token : Token}
    (node : List (WString × Value D)) (hempty : ∀ pair ∈ empties, IsEmptyPair pair)
    (h : At start (trim (listText (empties ++ pairs))) depth s)
    (hfields : AreFields (empties ++ pairs))
    (htoken : tokenAt (trim (listText (empties ++ pairs))) = .ok token) :
    ∃ node' s' token', loopFrom F n s token node = loopFrom F n s' token' node' ∧
      At start (trim (listText pairs)) (depth + empties.length) s' ∧
      tokenAt (trim (listText pairs)) = .ok token' := by
  induction empties generalizing s token node depth with
  | nil => exact ⟨node, s, token, rfl, h, htoken⟩
  | cons pair empties ih =>
    obtain ⟨node₁, s₁, token₁, hloop, hat₁, htoken₁⟩ :=
      loopFrom_empty F n node (hempty pair List.mem_cons_self) h hfields htoken
    obtain ⟨node₂, s₂, token₂, hloop', hat₂, htoken₂⟩ :=
      ih node₁ (fun pair hp => hempty pair (List.mem_cons_of_mem _ hp)) hat₁
        (fun pair hp => hfields pair (List.mem_cons_of_mem _ hp)) htoken₁
    refine ⟨node₂, s₂, token₂, hloop.trans hloop', ?_, htoken₂⟩
    rw [List.length_cons, ← Nat.add_assoc, Nat.add_right_comm]
    exact hat₂

/-- At the limit a value that is not empty is not passed, and the list is refused. -/
theorem loopFrom_limit (n : Nat) {k v : WString} {pairs : List (WString × WString)}
    {token : Token} (node : List (WString × Value D)) (hv : trim v ≠ [])
    (h : At start (trim (listText ((k, v) :: pairs))) depth s)
    (hfields : AreFields ((k, v) :: pairs)) (hdepth : kStackLimit ≤ depth)
    (htoken : tokenAt (trim (listText ((k, v) :: pairs))) = .ok token) :
    ∃ s', loopFrom F n s token node = .ok (none, s') := by
  rcases loopFrom_round F n node h hfields htoken with
    ⟨key, res, u, -, hinner, hround⟩ | ⟨-, s', p', hloop, -⟩
  · have hleft : trim u ≠ [] := by
      rw [(hinner.limit hdepth).2, trim_trim]
      exact hv
    obtain ⟨s', p', hloop, -⟩ := hround.stop F hleft
    exact ⟨s', hloop⟩
  · exact ⟨s', hloop⟩

variable (s) in
/-- A list is refused when a value follows 99 or more pairs with empty values. -/
theorem buildValue_refused {empties pairs : List (WString × WString)} {k v : WString}
    (hfields : AreFields (empties ++ (k, v) :: pairs))
    (hempty : ∀ pair ∈ empties, IsEmptyPair pair) (hmany : kStackLimit ≤ empties.length + 1)
    (hv : trim v ≠ []) :
    ∃ s', HttpValueSerializer.buildValue F (kStackLimit + 1) true
      (s.start (listText (empties ++ (k, v) :: pairs))) = .ok (none, s') := by
  obtain ⟨s₁, token, hat₁, htoken, hroot⟩ := buildValue_root F (kStackLimit - 1)
    (start_at s (listText (empties ++ (k, v) :: pairs))) (listText_nulFree hfields) (by decide)
  obtain ⟨node, s₂, token₂, hloop, hat₂, htoken₂⟩ :=
    loopFrom_empties F (kStackLimit - 1) [] hempty hat₁ hfields htoken
  obtain ⟨s₃, hstop⟩ := loopFrom_limit F (kStackLimit - 1) node hv hat₂
    (fun pair hp => hfields pair (List.mem_append_right _ hp)) (by omega) htoken₂
  refine ⟨s₃, ?_⟩
  unfold loopFrom at hloop hstop
  have hlevels : kStackLimit - 1 + 2 = kStackLimit + 1 := rfl
  rw [hlevels] at hroot
  rw [hroot, hloop, hstop]
  rfl

/-! ### The exact condition -/

/-- `stack_depth_` comes back, and no parameter is lost, exactly on the lists of which
every key and every value can be read. -/
theorem keepsDepth_iff (s : HttpValueSerializer) {pairs : List (WString × WString)}
    (hfields : AreFields pairs) :
    KeepsDepth F s pairs ↔ ∀ pair ∈ pairs, ∃ entry, ReadsAs F pair entry :=
  ⟨fun h => by_contra fun hread => not_keepsDepth_of_unreadable F s hfields hread h,
    keepsDepth_of_readable F s hfields⟩

end

/-! ### Two lists -/

section Letters

variable {c : WChar}

/-- A letter is not a blank. -/
theorem trim_letter (hc : 98 ≤ c ∧ c ≤ 101) : trim [c] = [c] := by
  have hblank : ¬IsBlank c := by
    simp only [IsBlank, wide, List.map_cons, List.map_nil, List.mem_cons, List.not_mem_nil,
      or_false]
    rintro (rfl | rfl | rfl) <;> simp at hc
  simp [trim, hblank]

/-- A keyword is longer than one character. -/
theorem not_startsKeyword_singleton (c : WChar) : ¬StartsKeyword [c] := by
  rintro ⟨keyword, hk, hprefix⟩
  have hlen := hprefix.length_le
  simp only [keywords, List.mem_cons, List.not_mem_nil, or_false] at hk
  rcases hk with rfl | rfl | rfl <;> simp [wide] at hlen

/-- A letter stands for itself. -/
theorem unescapes_letter (hc : 98 ≤ c ∧ c ≤ 101) : Unescapes [c] [c] := by
  refine .raw ?_ .nil
  rintro rfl
  simp at hc

/-- A letter starts no number. -/
theorem not_numberShaped_letter (hc : 98 ≤ c ∧ c ≤ 101) : ¬NumberShaped [c] := by
  intro h
  rcases h.first c rfl with hdigit | rfl
  · simp only [isDigit, Bool.and_eq_true, decide_eq_true_eq] at hdigit
    exact absurd (hc.1.trans hdigit.2) (by decide)
  · simp at hc

end Letters

/-- A letter is read as a key and as a string. -/
theorem letter_reads {D : Type} (F : Doubles D) {c d : WChar} (hc : 98 ≤ c ∧ c ≤ 101)
    (hd : 98 ≤ d ∧ d ≤ 101) : ∃ entry, ReadsAs F ([c], [d]) entry := by
  have hkey : trim [c] = [c] := trim_letter hc
  have hvalue : trim [d] = [d] := trim_letter hd
  refine ⟨(JsonGrammar.keyOf [c], .createStringValue [d]), ⟨?_, ?_, [c], ?_, rfl⟩,
    .string ?_ ?_ ?_ ?_⟩
  · simp [hkey]
  · rw [hkey]
    exact not_startsKeyword_singleton c
  · rw [hkey]
    exact unescapes_letter hc
  · simp [hvalue]
  · rw [hvalue]
    exact not_startsKeyword_singleton d
  · rw [hvalue]
    exact not_numberShaped_letter hd
  · rw [hvalue]
    exact unescapes_letter hd

/-- `b=c&d=e` is a list of fields whose pairs are all readable. -/
theorem keepsDepth_two_pairs :
    AreFields [(wide ['b'], wide ['c']), (wide ['d'], wide ['e'])] ∧
      KeepsDepth (⟨fun _ => (), fun _ => true, fun _ => []⟩ : Doubles Unit)
        ⟨[], [], 0, .noError, 0, 0⟩ [(wide ['b'], wide ['c']), (wide ['d'], wide ['e'])] := by
  have hfields : AreFields [(wide ['b'], wide ['c']), (wide ['d'], wide ['e'])] := by
    simp [AreFields, IsFieldText, wide]
  refine ⟨hfields, (keepsDepth_iff _ _ hfields).mpr fun pair hp => ?_⟩
  simp only [List.mem_cons, List.not_mem_nil, or_false] at hp
  rcases hp with rfl | rfl
  · exact letter_reads _ (by decide) (by decide)
  · exact letter_reads _ (by decide) (by decide)

/-- 99 times `a=`, and then `b=c`. -/
def hundredPairs : List (WString × WString) :=
  List.replicate 99 (wide ['a'], []) ++ [(wide ['b'], wide ['c'])]

/-- The hundredth parameter is refused, with everything before it. -/
theorem not_keepsDepth_of_hundred :
    AreFields hundredPairs ∧
      (∃ s', HttpValueSerializer.buildValue
        (⟨fun _ => (), fun _ => true, fun _ => []⟩ : Doubles Unit) (kStackLimit + 1) true
        (HttpValueSerializer.start ⟨[], [], 0, .noError, 0, 0⟩ (listText hundredPairs))
          = .ok (none, s')) ∧
      ¬KeepsDepth (⟨fun _ => (), fun _ => true, fun _ => []⟩ : Doubles Unit)
        ⟨[], [], 0, .noError, 0, 0⟩ hundredPairs := by
  have hfields : AreFields hundredPairs := by
    intro pair hp
    rcases List.mem_append.mp hp with hp | hp
    · rw [List.eq_of_mem_replicate hp]
      simp [IsFieldText, wide]
    · rw [List.mem_singleton.mp hp]
      simp [IsFieldText, wide]
  have hempty : ∀ pair ∈ List.replicate 99 (wide ['a'], ([] : WString)), IsEmptyPair pair := by
    intro pair hp
    rw [List.eq_of_mem_replicate hp]
    refine ⟨⟨JsonGrammar.keyOf (wide ['a']), ?_, ?_, wide ['a'], ?_, rfl⟩, rfl⟩
    · decide
    · rintro ⟨keyword, hk, hprefix⟩
      have hlen := hprefix.length_le
      simp only [keywords, List.mem_cons, List.not_mem_nil, or_false] at hk
      rcases hk with rfl | rfl | rfl <;> simp [wide, trim, IsBlank] at hlen
    · exact .raw (by decide) .nil
  -- Each empty value leaves one level entered, and the hundredth call finds the limit passed.
  obtain ⟨s', hrefused⟩ := buildValue_refused
    (⟨fun _ => (), fun _ => true, fun _ => []⟩ : Doubles Unit) ⟨[], [], 0, .noError, 0, 0⟩
    hfields hempty (by rw [List.length_replicate]; decide) (show trim (wide ['c']) ≠ [] by decide)
  refine ⟨hfields, ⟨s', hrefused⟩, ?_⟩
  rintro ⟨entries, s'', hbuild, -⟩
  have hsame := hrefused.symm.trans hbuild
  cases Except.ok.inj hsame

end Mylib.Proofs.Base.Http
