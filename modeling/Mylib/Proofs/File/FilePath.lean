import Mylib.Spec.File.FilePath

/-!
# `Mylib.Proofs.File.FilePath`: what `DirName` cuts off

A path is a run of separators, or it ends in another character with separators behind it
(`ends_cases`). Stripping takes them off the second kind (`strip_solid`); of the first kind,
one or two separators stay as they are, and more become one (`strip_separators`).

`DirName` of a path with a base name strips what stands in front of the base name, where a
leading separator counts as part of it (`dirName_join`). So it undoes `Append`
(`dirName_append`).
-/

set_option autoImplicit false

namespace Mylib.Proofs.File.FilePath

open Mylib.Spec.Base (Str)
open Mylib.Spec.File.FilePath

/-! ### Runs of separators -/

/-- So many separators. -/
def separators (n : Nat) : Str := List.replicate n separator

/-- One separator more at the end. -/
theorem separators_succ (n : Nat) : separators (n + 1) = separators n ++ [separator] :=
  List.replicate_succ'

/-- As many as were asked for. -/
theorem length_separators (n : Nat) : (separators n).length = n := List.length_replicate

/-- No separator at the end. -/
theorem append_separators_zero (path : Str) : path ++ separators 0 = path := List.append_nil path

/-- All of them are separators. -/
theorem isSeparator_of_mem {c : UInt8} {n : Nat} (h : c ∈ separators n) : isSeparator c = true := by
  rw [List.eq_of_mem_replicate h]
  rfl

/-- There is one separator only. -/
theorem isSeparator_of_ne {c : UInt8} (h : c ≠ separator) : isSeparator c = false := by
  simpa [isSeparator] using h

/-- The path ends in a character that is no separator. -/
def Solid (path : Str) : Prop := ∃ front c, path = front ++ [c] ∧ c ≠ separator

/-- A path that ends without a separator ends with something. -/
theorem Solid.ne_nil {path : Str} (h : Solid path) : path ≠ [] := by
  obtain ⟨front, c, rfl, -⟩ := h
  exact List.append_ne_nil_of_right_ne_nil _ (List.cons_ne_nil _ _)

/-- A base name: it is not empty, and has no separators. -/
structure BaseName (name : Str) : Prop where
  ne_nil : name ≠ []
  no_separator : separator ∉ name

/-- A base name at the end ends without a separator. -/
theorem BaseName.solid {name : Str} (h : BaseName name) (front : Str) : Solid (front ++ name) := by
  obtain ⟨start, c, rfl⟩ := List.eq_nil_or_concat' name |>.resolve_left h.ne_nil
  refine ⟨front ++ start, c, (List.append_assoc ..).symm, fun hc => h.no_separator ?_⟩
  rw [hc]
  exact List.mem_append_right _ List.mem_cons_self

/-- A path that ends with one does not. -/
theorem not_solid_append_separator (front : Str) : ¬ Solid (front ++ [separator]) := by
  rintro ⟨start, c, heq, hc⟩
  exact hc (List.concat_inj.mp (by simpa using heq)).2.symm

/-- Separators, or a solid path with separators behind it. -/
theorem ends_cases (path : Str) :
    (∃ n, path = separators n) ∨ ∃ s n, Solid s ∧ path = s ++ separators n := by
  induction path using List.reverseRecOn with
  | nil => exact .inl ⟨0, rfl⟩
  | append_singleton front c ih =>
    by_cases hc : c = separator
    · subst hc
      rcases ih with ⟨n, rfl⟩ | ⟨s, n, hs, rfl⟩
      · exact .inl ⟨n + 1, (separators_succ n).symm⟩
      · exact .inr ⟨s, n + 1, hs, by rw [List.append_assoc, separators_succ]⟩
    · exact .inr ⟨front ++ [c], 0, ⟨front, c, rfl, hc⟩, (List.append_nil _).symm⟩

/-- A solid path has a base name in front of which there is a separator, or it is one. -/
theorem Solid.cases {s : Str} (h : Solid s) :
    BaseName s ∨ ∃ front base, BaseName base ∧ s = front ++ separator :: base := by
  by_cases hmem : separator ∈ s
  · obtain ⟨base, front, hsplit, hbase⟩ :=
      List.eq_append_cons_of_mem (List.mem_reverse.mpr hmem)
    have hs : s = front.reverse ++ separator :: base.reverse := by
      rw [← List.reverse_reverse s, hsplit]
      simp
    refine .inr ⟨front.reverse, base.reverse, ⟨fun hnil => ?_, by simpa using hbase⟩, hs⟩
    rw [hnil] at hs
    exact not_solid_append_separator front.reverse (hs ▸ h)
  · exact .inl ⟨h.ne_nil, hmem⟩

/-! ### Stripping -/

/-- Cutting a path behind its front. -/
theorem resize_append (front back : Str) : resize (front ++ back) front.length = front := by
  unfold resize
  rw [Int.toNat_natCast, List.take_left, List.length_append, Nat.sub_eq_zero_of_le (by omega),
    List.replicate_zero, List.append_nil]

/-- The character behind the front. -/
theorem charAt_append (front : Str) (c : UInt8) (back : Str) :
    charAt (front ++ c :: back) front.length = c := by
  unfold charAt
  rw [Int.toNat_natCast, List.getD_append_right _ _ _ _ le_rfl, Nat.sub_self]
  rfl

/-- The loop stops at another character. -/
theorem stripLoop_solid {s : Str} (h : Solid s) (last : Int) :
    stripLoop 1 s.length last s = s := by
  obtain ⟨front, c, rfl, hc⟩ := h
  rw [List.length_append, List.length_singleton, stripLoop, charAt_append,
    if_neg fun hboth => by simp [isSeparator_of_ne hc] at hboth]

/-- Behind at least two characters, a separator goes. -/
theorem stripLoop_separator {front : Str} (h : 2 ≤ front.length) (last : Int) :
    stripLoop 1 (front.length + 1) last (front ++ [separator])
      = stripLoop 1 front.length (front.length + 1) front := by
  rw [stripLoop, charAt_append, if_pos ⟨by omega, rfl⟩, if_pos (.inl (by omega)), resize_append]

/-- Behind one character, a separator stays only if the character is one, too, and nothing was
stripped yet. -/
theorem stripLoop_two (a : UInt8) (last : Int) : stripLoop 1 2 last [a, separator]
    = if a ≠ separator ∨ last = 3 then [a] else [a, separator] := by
  have hfirst : charAt [a, separator] (1 - 1) = a := rfl
  have hcond : ((2 : Int) ≠ 1 + 1 ∨ last = 1 + 2 ∨ ¬isSeparator a = true) ↔
      (a ≠ separator ∨ last = 3) := by
    simp [isSeparator]
    tauto
  show (if (1 : Int) < 1 + 1 ∧ isSeparator separator then
    if (1 + 1 : Int) ≠ 1 + 1 ∨ last = 1 + 2 ∨ ¬isSeparator (charAt [a, separator] (1 - 1)) = true
      then stripLoop 1 1 2 [a] else stripLoop 1 1 last [a, separator]
    else _) = _
  rw [if_pos ⟨by decide, rfl⟩, hfirst]
  split_ifs <;> first | rfl | simp_all [isSeparator]

/-- All separators behind a solid path go. -/
theorem stripLoop_solid_append {s : Str} (h : Solid s) (k : Nat) (last : Int) :
    stripLoop 1 (s.length + k) last (s ++ separators k) = s := by
  induction k generalizing last with
  | zero =>
    show stripLoop 1 s.length last _ = s
    rw [append_separators_zero, stripLoop_solid h]
  | succ k ih =>
    by_cases hlong : 2 ≤ (s ++ separators k).length
    · rw [separators_succ, ← List.append_assoc, ← Nat.add_assoc]
      have hlength : (s ++ separators k).length = s.length + k := by
        rw [List.length_append, length_separators]
      rw [← hlength, stripLoop_separator hlong, hlength, ih]
    · -- one character, and the only separator behind it
      obtain ⟨front, c, rfl, hc⟩ := h
      simp only [List.length_append, length_separators, List.length_singleton] at hlong
      obtain rfl : k = 0 := by omega
      obtain rfl : front = [] := List.eq_nil_of_length_eq_zero (by omega)
      show stripLoop 1 2 last [c, separator] = [c]
      rw [stripLoop_two, if_pos (.inl hc)]

/-- After one of them went, a run of separators shrinks to one. -/
theorem stripLoop_separators (k : Nat) :
    stripLoop 1 (k + 2) (k + 3) (separators (k + 2)) = separators 1 := by
  induction k with
  | zero => exact (stripLoop_two separator 3).trans (if_pos (.inr rfl))
  | succ k ih =>
    have hlength := length_separators (k + 2)
    have hstep := stripLoop_separator (hlength.ge.trans' (by omega)) (k + 4)
    rw [hlength] at hstep
    rw [separators_succ]
    show stripLoop 1 (k + 2 + 1) _ _ = _
    push_cast at hstep ⊢
    rw [show (k : Int) + 1 + 3 = k + 4 by ring, hstep, show (k : Int) + 2 + 1 = k + 3 by ring, ih]

/-- `StripTrailingSeparatorsInternal` of a solid path with separators behind it. -/
theorem strip_solid {s : Str} (h : Solid s) (k : Nat) :
    stripTrailingSeparatorsInternal (s ++ separators k) = s := by
  show stripLoop 1 (s ++ separators k).length npos _ = s
  rw [List.length_append, length_separators, stripLoop_solid_append h]

/-- `StripTrailingSeparatorsInternal` of a run of separators. -/
theorem strip_separators (n : Nat) :
    stripTrailingSeparatorsInternal (separators n)
      = if n ≤ 2 then separators n else separators 1 := by
  match n with
  | 0 | 1 | 2 => rfl
  | n + 3 =>
    rw [if_neg (by omega)]
    show stripLoop 1 (separators (n + 3)).length npos (separators (n + 3)) = _
    have hlength := length_separators (n + 2)
    have hstep := stripLoop_separator (hlength.ge.trans' (by omega)) npos
    rw [hlength] at hstep
    rw [length_separators, separators_succ]
    show stripLoop 1 (n + 2 + 1) npos _ = _
    rw [hstep]
    push_cast
    rw [show (n : Int) + 2 + 1 = n + 3 by ring, stripLoop_separators]

/-! ### `DirName` -/

/-- What stands in front of a base name, where a separator in the first or second place is
part of it. -/
def parent (front : Str) : Str := if front.length ≤ 1 then front ++ [separator] else front

/-- A base name has no separator. -/
theorem findLastSeparator_base {base : Str} (h : separator ∉ base) :
    findLastSeparator base = npos := by
  unfold findLastSeparator
  rw [List.idxOf?_eq_none_iff.mpr (by simpa using h)]

/-- In front of a base name stands the last one. -/
theorem findLastSeparator_join (front : Str) {base : Str} (h : separator ∉ base) :
    findLastSeparator (front ++ separator :: base) = front.length := by
  have hreverse : (front ++ separator :: base).reverse
      = base.reverse ++ separator :: front.reverse := by simp
  have hfirst : (front ++ separator :: base).reverse.idxOf? separator = some base.length := by
    rw [hreverse, List.idxOf?, List.findIdx?_append,
      List.findIdx?_eq_none_iff.mpr fun c hc => by
        simpa using fun heq : c = separator => h (List.mem_reverse.mp (heq ▸ hc))]
    simp [List.findIdx?_cons]
  unfold findLastSeparator
  rw [hfirst]
  simp only [List.length_append, List.length_cons]
  push_cast
  omega

/-- Of a base name nothing is left. -/
theorem cutBaseName_base {base : Str} (h : separator ∉ base) : cutBaseName base = [] := by
  unfold cutBaseName
  rw [findLastSeparator_base h]
  show resize base 0 = []
  exact resize_append [] base

/-- Without its base name a path is its parent. -/
theorem cutBaseName_join (front : Str) {base : Str} (h : separator ∉ base) :
    cutBaseName (front ++ separator :: base) = parent front := by
  have hkeep : resize (front ++ separator :: base) (front.length + 1) = front ++ [separator] := by
    have happend := resize_append (front ++ [separator]) base
    rw [List.length_append, List.append_assoc] at happend
    exact_mod_cast happend
  -- There is no drive letter, so the places behind it are the first two.
  have hletter (path : Str) : findDriveLetter path = -1 := rfl
  unfold cutBaseName parent
  simp only [findLastSeparator_join front h, hletter]
  rw [if_neg (by unfold npos; omega)]
  by_cases hzero : front.length = 0
  · rw [if_pos (by omega), if_pos (by omega), ← hkeep, hzero]
    rfl
  · by_cases hone : front.length = 1
    · rw [if_neg (by omega), if_pos (by omega), if_pos (by omega), ← hkeep, hone]
      rfl
    · rw [if_neg (by omega), if_neg (by omega), if_pos (by omega), if_neg (by omega),
        resize_append]

/-- Of a path something is left without its trailing separators. -/
theorem strip_ne_nil {path : Str} (h : path ≠ []) : stripTrailingSeparatorsInternal path ≠ [] := by
  rcases ends_cases path with ⟨n, rfl⟩ | ⟨s, n, hs, rfl⟩
  · rw [strip_separators]
    split
    · exact h
    · exact List.cons_ne_nil _ _
  · rw [strip_solid hs]
    exact hs.ne_nil

/-- What is in front of a base name is stripped as any path, but for a single separator or
nothing. -/
theorem strip_parent_solid {s : Str} (h : Solid s) (k : Nat) :
    stripTrailingSeparatorsInternal (parent (s ++ separators k)) = s := by
  unfold parent
  split
  · rw [List.append_assoc, ← separators_succ, strip_solid h]
  · exact strip_solid h k

/-- The run in front of the base name: one or two separators, or more. -/
theorem strip_parent_separators (n : Nat) :
    stripTrailingSeparatorsInternal (parent (separators n))
      = separators (if n = 1 ∨ n = 2 then 2 else 1) := by
  match n with
  | 0 | 1 | 2 => rfl
  | n + 3 =>
    have hparent : parent (separators (n + 3)) = separators (n + 3) :=
      if_neg (by rw [length_separators]; omega)
    rw [hparent, strip_separators, if_neg (by omega), if_neg (by omega)]

/-- The directory of a base name is the current one. -/
theorem dirName_base {base : Str} (h : BaseName base) (k : Nat) :
    dirName (base ++ separators k) = kCurrentDirectory := by
  have hsolid : Solid base := h.solid []
  unfold dirName
  rw [strip_solid hsolid, cutBaseName_base h.no_separator]
  rfl

/-- The directory of a path with a base name behind a separator. -/
theorem dirName_join (front : Str) {base : Str} (h : BaseName base) (k : Nat) :
    dirName (front ++ separator :: base ++ separators k)
      = stripTrailingSeparatorsInternal (parent front) := by
  have hsolid : Solid (front ++ separator :: base) := by
    simpa using h.solid (front ++ [separator])
  have hparent : parent front ≠ [] := by
    unfold parent
    split
    · exact List.append_ne_nil_of_right_ne_nil _ (List.cons_ne_nil _ _)
    · rintro rfl
      contradiction
  unfold dirName
  rw [strip_solid hsolid, cutBaseName_join front h.no_separator]
  exact if_neg fun hzero => strip_ne_nil hparent (List.eq_nil_of_length_eq_zero hzero)

/-- A run of separators is its own directory, but for its length. -/
theorem dirName_separators (n : Nat) : dirName (separators n)
    = if n = 0 then kCurrentDirectory else if n = 2 then separators 2 else separators 1 := by
  match n with
  | 0 | 1 | 2 => rfl
  | n + 3 =>
    have hstrip : stripTrailingSeparatorsInternal (separators (n + 3)) = separators 1 := by
      rw [strip_separators, if_neg (by omega)]
    rw [if_neg (Nat.succ_ne_zero _), if_neg (by omega), dirName, hstrip]
    rfl

/-! ### `Append` -/

/-- Appending puts one separator between the two, except to the current directory. -/
theorem append_solid {s : Str} (h : Solid s) (k : Nat) {component : Str} (hne : component ≠ [])
    (hcurrent : s ++ separators k ≠ kCurrentDirectory) :
    append (s ++ separators k) component = s ++ separator :: component := by
  have hlength : 0 < component.length := List.length_pos_iff.mpr hne
  obtain ⟨front, c, rfl, hc⟩ := h
  have hlast : charAt (front ++ [c]) ((front ++ [c]).length - 1) = c := by
    have hat := charAt_append front c []
    rw [List.length_append, List.length_singleton]
    push_cast
    rwa [Int.add_sub_cancel]
  unfold append
  rw [if_neg hcurrent, strip_solid ⟨front, c, rfl, hc⟩]
  show (if _ then front ++ [c] ++ [separator] else _) ++ component = _
  rw [if_pos, List.append_assoc _ [separator]]
  · rfl
  · refine ⟨hlength, by simp, ?_, ?_⟩
    · rw [hlast, isSeparator_of_ne hc]
      exact Bool.false_ne_true
    · show (-1 : Int) + 1 ≠ _
      simp
      omega

/-- A path that ends in a separator gets no other one. -/
theorem append_separators {n : Nat} (h : n ≠ 0) (component : Str) :
    append (separators n) component = separators (if n = 2 then 2 else 1) ++ component := by
  have hcurrent : separators n ≠ kCurrentDirectory := by
    intro heq
    have hmem : (46 : UInt8) ∈ separators n := heq ▸ List.mem_singleton_self _
    exact absurd (List.eq_of_mem_replicate hmem) (by decide)
  have hstrip : stripTrailingSeparatorsInternal (separators n)
      = separators (if n = 2 then 2 else 1) := by
    match n with
    | 1 | 2 => rfl
    | n + 3 => rw [strip_separators, if_neg (by omega), if_neg (by omega)]
  have hlast (m : Nat) (hm : m = 1 ∨ m = 2) :
      isSeparator (charAt (separators m) ((separators m).length - 1)) = true := by
    rcases hm with rfl | rfl <;> rfl
  unfold append
  rw [if_neg hcurrent, hstrip]
  exact congrArg (· ++ component)
    (if_neg fun hcond => hcond.2.2.1 (hlast _ (by split_ifs <;> simp)))

/-- `DirName` undoes `Append`: what remains is the path without the separators behind it. -/
theorem dirName_append {path component : Str} (hpath : path ≠ []) (h : BaseName component) :
    dirName (append path component) = stripTrailingSeparatorsInternal path := by
  by_cases hcurrent : path = kCurrentDirectory
  · have hbase := dirName_base h 0
    rw [append_separators_zero] at hbase
    rw [append, if_pos hcurrent, hbase, hcurrent]
    rfl
  · rcases ends_cases path with ⟨n, rfl⟩ | ⟨s, k, hs, rfl⟩
    · have hn : n ≠ 0 := fun hzero => hpath (hzero ▸ rfl)
      have hjoin (m : Nat) := dirName_join (separators m) h 0
      simp only [append_separators_zero] at hjoin
      rw [append_separators hn, strip_separators]
      -- The last separator of the path is the one in front of the component.
      match n with
      | 1 => exact hjoin 0
      | 2 => exact hjoin 1
      | n + 3 =>
        rw [if_neg (by omega), if_neg (by omega)]
        exact hjoin 0
    · have hjoin := dirName_join s h 0
      have hparent := strip_parent_solid hs 0
      rw [append_separators_zero] at hjoin hparent
      rw [append_solid hs k h.ne_nil hcurrent, hjoin, hparent, strip_solid hs]

/-- The path `//` and the component `a`. -/
theorem dirName_append_slashes :
    dirName (append [47, 47] [97]) = stripTrailingSeparatorsInternal [47, 47] :=
  dirName_append (List.cons_ne_nil _ _) ⟨List.cons_ne_nil _ _, by decide⟩

end Mylib.Proofs.File.FilePath
