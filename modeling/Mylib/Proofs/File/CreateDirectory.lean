import Mylib.Lib.Fixpoint
import Mylib.Proofs.File.FilePath

/-!
# `Mylib.Proofs.File.CreateDirectory`: the ancestors of a path

`Ancestor` says by the text of a path which directories it lies in: the root, and every solid
path with a separator behind it that the path begins with. A path lies in its directory and in
what that lies in (`ancestor_step`), so these are the paths `DirName` comes to
(`iterate_dirName_iff`).

The directory of a path is shorter, or it is `.`, or it is the path (`dirName_descends`). So
the first loop of `CreateDirectory` ends, with each ancestor listed once (`ascends`).
-/

set_option autoImplicit false

namespace Mylib.Proofs.File.FilePath

open Mylib.Lib.Fixpoint
open Mylib.Spec.Base (Str)
open Mylib.Spec.File.FilePath

/-- The paths that are their own directories. -/
def IsRoot (path : Str) : Prop :=
  path = kCurrentDirectory ∨ path = separators 1 ∨ path = separators 2

/-- The outermost directory of a path, by the separators it begins with. -/
def rootOf (path : Str) : Str :=
  let leading := (path.takeWhile isSeparator).length
  if leading = 0 then kCurrentDirectory
  else if leading = 2 ∨ leading = 3 ∧ leading < path.length then separators 2
  else separators 1

/-- `dir` is a directory the path lies in: separators behind the path do not count. -/
def Ancestor (dir path : Str) : Prop :=
  dir = rootOf path ∨ Solid dir ∧ dir ++ [separator] <+: path.rdropWhile isSeparator

/-! ### One step upwards -/

/-- The root is its own parent. -/
theorem IsRoot.dirName_eq {path : Str} (h : IsRoot path) : dirName path = path := by
  rcases h with rfl | rfl | rfl <;> rfl

/-- Without its trailing separators a path is a prefix of itself. -/
theorem strip_isPrefix (path : Str) : stripTrailingSeparatorsInternal path <+: path := by
  rcases ends_cases path with ⟨n, rfl⟩ | ⟨s, n, hs, rfl⟩
  · rw [strip_separators]
    split
    · exact List.prefix_rfl
    · exact ⟨separators (n - 1), by
        rw [separators, separators, ← List.replicate_add]
        exact congrArg (List.replicate · separator) (by omega)⟩
  · rw [strip_solid hs]
    exact List.prefix_append s _

/-- `DirName` of a path that is not a root is `.`, or a shorter beginning of the path. -/
theorem dirName_descends {path : Str} (h : ¬ IsRoot path) : dirName path = kCurrentDirectory ∨
    dirName path <+: path ∧ (dirName path).length < path.length := by
  rcases ends_cases path with ⟨n, rfl⟩ | ⟨s, k, hs, rfl⟩
  · rw [dirName_separators]
    match n with
    -- `n` separators: none gives `.`, one and two are roots, and from three on all but one go.
    | 0 => exact .inl rfl
    | 1 => exact absurd (.inr (.inl rfl)) h
    | 2 => exact absurd (.inr (.inr rfl)) h
    | n + 3 =>
      rw [if_neg (by omega), if_neg (by omega)]
      refine .inr ⟨⟨separators (n + 2), rfl⟩, ?_⟩
      rw [length_separators, length_separators]
      omega
  · rcases hs.cases with hbase | ⟨front, base, hbase, rfl⟩
    -- No directory in front of the base name: the answer is `.`.
    · exact .inl (dirName_base hbase k)
    · -- What is in front of the base name, with its separator at most.
      rw [dirName_join front hbase]
      have hparent : parent front <+: front ++ [separator] := by
        unfold parent
        split
        · exact List.prefix_rfl
        · exact List.prefix_append _ _
      have hdir := (strip_isPrefix (parent front)).trans hparent
      have hlength := hdir.length_le
      have hbase_pos := List.length_pos_iff.mpr hbase.ne_nil
      refine .inr ⟨hdir.trans ⟨base ++ separators k, by simp⟩, ?_⟩
      simp only [List.length_append, List.length_cons, List.length_nil] at hlength ⊢
      omega

/-- Exactly the roots are their own parents, so the loop gets to one. -/
theorem dirName_eq_self_iff (path : Str) : dirName path = path ↔ IsRoot path := by
  refine ⟨fun heq => by_contra fun hroot => ?_, fun hroot => hroot.dirName_eq⟩
  rcases dirName_descends hroot with hcurrent | ⟨-, hlt⟩
  · exact hroot (.inl (heq.symm.trans hcurrent))
  · rw [heq] at hlt
    exact lt_irrefl _ hlt

/-- What becomes smaller: the length, where `.` counts less than the empty path. -/
def height (path : Str) : ℕ := if path = kCurrentDirectory then 0 else path.length + 1

/-- Any other path is higher than its parent. The loop ends for this reason. -/
theorem height_dirName_lt (path : Str) (h : dirName path ≠ path) :
    height (dirName path) < height path := by
  have hroot : ¬ IsRoot path := fun hroot => h hroot.dirName_eq
  have hpos : height path = path.length + 1 := if_neg fun heq => hroot (.inl heq)
  rcases dirName_descends hroot with hcurrent | ⟨-, hlt⟩
  · rw [hcurrent, hpos]
    exact Nat.succ_pos _
  · rw [hpos]
    unfold height
    split
    · exact Nat.succ_pos _
    · omega

/-! ### The ancestors -/

/-- A path of separators only lies in no directory but the root. -/
theorem not_prefix_rdropWhile (dir : Str) (n : Nat) :
    ¬ dir ++ [separator] <+: (separators n).rdropWhile isSeparator := by
  rw [List.rdropWhile_eq_nil_iff.mpr fun c hc => isSeparator_of_mem hc, List.prefix_nil]
  exact List.append_ne_nil_of_right_ne_nil _ (List.cons_ne_nil _ _)

/-- Trailing separators are dropped from a path that has none of its own. -/
theorem rdropWhile_solid {s : Str} (h : Solid s) (n : Nat) :
    (s ++ separators n).rdropWhile isSeparator = s := by
  induction n with
  | zero =>
    obtain ⟨front, c, rfl, hc⟩ := h
    rw [append_separators_zero,
      List.rdropWhile_concat_neg _ _ _ (by simp [isSeparator_of_ne hc])]
  | succ n ih =>
    rw [separators_succ, ← List.append_assoc, List.rdropWhile_concat_pos _ _ _ rfl, ih]

/-- What is behind another character than a separator does not matter for the root. -/
theorem rootOf_solid_append {s : Str} (h : Solid s) (back : Str) :
    rootOf (s ++ back) = rootOf s := by
  obtain ⟨front, c, rfl, hc⟩ := h
  have hshort : ((front ++ [c]).takeWhile isSeparator).length < (front ++ [c]).length := by
    refine lt_of_le_of_ne (List.takeWhile_prefix _).length_le fun hall => ?_
    have hmem : c ∈ (front ++ [c]).takeWhile isSeparator := by
      rw [(List.takeWhile_prefix _).eq_of_length hall]
      exact List.mem_append_right _ List.mem_cons_self
    exact absurd (List.mem_takeWhile_imp hmem) (by simp [isSeparator_of_ne hc])
  have hleading : (front ++ [c] ++ back).takeWhile isSeparator
      = (front ++ [c]).takeWhile isSeparator := by
    rw [List.takeWhile_append, if_neg hshort.ne]
  have hlong : ((front ++ [c]).takeWhile isSeparator).length < (front ++ [c] ++ back).length :=
    hshort.trans_le (List.prefix_append _ back).length_le
  simp only [rootOf, hleading, hshort, hlong]

/-- The root that a path of separators only leads to is its parent. -/
theorem rootOf_separators (n : Nat) : rootOf (separators n) = dirName (separators n) := by
  have hall : (separators n).takeWhile isSeparator = separators n :=
    List.takeWhile_eq_self_iff.mpr fun c hc => isSeparator_of_mem hc
  rw [dirName_separators]
  simp only [rootOf, hall, length_separators, lt_irrefl, and_false, or_false]

/-- The root of a base name, with so many separators in front of it. -/
theorem rootOf_separators_append (n : Nat) {name : Str} (h : BaseName name) :
    rootOf (separators n ++ name)
      = if n = 0 then kCurrentDirectory else if n = 2 ∨ n = 3 then separators 2
        else separators 1 := by
  have hleading : (separators n ++ name).takeWhile isSeparator = separators n := by
    rw [List.takeWhile_append_of_pos fun c hc => isSeparator_of_mem hc]
    obtain ⟨c, rest, rfl⟩ := List.exists_cons_of_ne_nil h.ne_nil
    have hc : c ≠ separator := fun heq => h.no_separator (heq ▸ List.mem_cons_self)
    rw [List.takeWhile_cons_of_neg (by simp [isSeparator_of_ne hc]), List.append_nil]
  have hlong : n < (separators n ++ name).length := by
    have hpos := List.length_pos_iff.mpr h.ne_nil
    rw [List.length_append, length_separators]
    omega
  simp only [rootOf, hleading, length_separators, hlong, and_true]

/-- No solid path is the beginning of a run of separators. -/
theorem not_solid_prefix_separators {dir : Str} (h : Solid dir) (n : Nat) :
    ¬ dir ++ [separator] <+: separators n := by
  intro hprefix
  obtain ⟨front, c, rfl, hc⟩ := h
  have hmem : c ∈ separators n := List.IsPrefix.subset hprefix (by simp)
  exact hc (List.eq_of_mem_replicate hmem)

/-- What a path with separators behind it lies in: the path, and what that lies in. -/
theorem prefix_append_separators {s dir : Str} (hdir : Solid dir) (n : Nat) :
    dir ++ [separator] <+: s ++ separators (n + 1) ↔ dir = s ∨ dir ++ [separator] <+: s := by
  induction n with
  | zero =>
    show dir ++ [separator] <+: s ++ [separator] ↔ _
    rw [List.prefix_concat_iff, List.append_left_inj]
  | succ n ih =>
    -- One separator more: the whole of it would be a directory that ends in a separator.
    rw [separators_succ, ← List.append_assoc, List.prefix_concat_iff, List.append_left_inj, ih]
    refine or_iff_right fun heq => ?_
    rw [heq, separators_succ, ← List.append_assoc] at hdir
    exact not_solid_append_separator _ hdir

/-- A base name adds nothing that a path lies in. -/
theorem prefix_base (front : Str) {base : Str} (h : separator ∉ base) (dir : Str) :
    dir ++ [separator] <+: front ++ separator :: base
      ↔ dir ++ [separator] <+: front ++ [separator] := by
  induction base using List.reverseRecOn with
  | nil => rfl
  | append_singleton base c ih =>
    have hc : separator ≠ c := fun heq => h (by simp [heq])
    have hlast : dir ++ [separator] ≠ front ++ separator :: base ++ [c] := fun heq =>
      hc (List.singleton_inj.mp (List.append_inj' heq rfl).2)
    rw [← List.cons_append, ← List.append_assoc, List.prefix_concat_iff, or_iff_right hlast,
      ih fun hmem => h (List.mem_append_left _ hmem)]

/-- A root lies in itself only. -/
theorem IsRoot.ancestor_iff {root : Str} (h : IsRoot root) (dir : Str) :
    Ancestor dir root ↔ dir = root := by
  have hself : rootOf root = root := by
    rcases h with rfl | rfl | rfl <;> rfl
  have hnothing : ¬ (Solid dir ∧ dir ++ [separator] <+: root.rdropWhile isSeparator) := by
    rintro ⟨hdir, hprefix⟩
    rcases h with rfl | rfl | rfl
    · have hle := hprefix.length_le
      rw [List.length_append] at hle
      have hzero : dir.length = 0 := Nat.le_zero.mp (Nat.le_of_succ_le_succ hle)
      exact hdir.ne_nil (List.eq_nil_of_length_eq_zero hzero)
    · exact not_prefix_rdropWhile dir 1 hprefix
    · exact not_prefix_rdropWhile dir 2 hprefix
  rw [Ancestor, or_iff_left hnothing, hself]

/-- A path whose directory is a root lies in that only. -/
theorem ancestor_step_root {path : Str} (h : IsRoot (dirName path))
    (hroot : rootOf path = dirName path) {dir : Str}
    (hnothing : Solid dir → ¬ dir ++ [separator] <+: path.rdropWhile isSeparator) :
    Ancestor dir path ↔ dir = dirName path ∨ Ancestor dir (dirName path) := by
  have hnone : ¬ (Solid dir ∧ dir ++ [separator] <+: path.rdropWhile isSeparator) :=
    fun hboth => hnothing hboth.1 hboth.2
  rw [h.ancestor_iff, or_self, Ancestor, hroot, or_iff_left hnone]

/-- The ancestors of such a path. -/
theorem ancestor_step_separators (dir : Str) (n : Nat) : Ancestor dir (separators n)
    ↔ dir = dirName (separators n) ∨ Ancestor dir (dirName (separators n)) := by
  refine ancestor_step_root ?_ (rootOf_separators n) fun _ => not_prefix_rdropWhile dir n
  rw [dirName_separators]
  split_ifs
  · exact .inl rfl
  · exact .inr (.inr rfl)
  · exact .inr (.inl rfl)

/-- Only separators are in front of the base name. -/
theorem ancestor_step_first (dir : Str) (n : Nat) {base : Str} (h : BaseName base) (k : Nat) :
    let path := separators n ++ separator :: base ++ separators k
    Ancestor dir path ↔ dir = dirName path ∨ Ancestor dir (dirName path) := by
  intro path
  have hdirName : dirName path = separators (if n = 1 ∨ n = 2 then 2 else 1) :=
    (dirName_join (separators n) h k).trans (strip_parent_separators n)
  have hjoin : separators n ++ separator :: base = separators (n + 1) ++ base := by
    rw [separators_succ, List.append_assoc]
    rfl
  have hsolid : Solid (separators n ++ separator :: base) := hjoin ▸ h.solid _
  refine ancestor_step_root ?_ ?_ fun hdir hprefix => ?_
  · rw [hdirName]
    split_ifs
    · exact .inr (.inr rfl)
    · exact .inr (.inl rfl)
  · rw [hdirName, rootOf_solid_append hsolid, hjoin, rootOf_separators_append _ h]
    split_ifs <;> first | rfl | (exfalso; omega)
  · rw [rdropWhile_solid hsolid, prefix_base _ h.no_separator, ← separators_succ] at hprefix
    exact not_solid_prefix_separators hdir _ hprefix

/-- A solid path is in front of the base name: it is the directory. -/
theorem ancestor_step_inner (dir : Str) {inner : Str} (hinner : Solid inner) (j : Nat)
    {base : Str} (h : BaseName base) (k : Nat) :
    let path := inner ++ separators j ++ separator :: base ++ separators k
    Ancestor dir path ↔ dir = dirName path ∨ Ancestor dir (dirName path) := by
  intro path
  -- `dirName` takes off the base name and the separators before it, so `inner` is left.
  have hdirName : dirName path = inner :=
    (dirName_join (inner ++ separators j) h k).trans (strip_parent_solid hinner j)
  have hsolid : Solid (inner ++ separators j ++ separator :: base) := by
    simpa using h.solid (inner ++ separators j ++ [separator])
  -- The root is read off the front, which the two paths share.
  have hroot : rootOf path = rootOf inner := by
    show rootOf (inner ++ separators j ++ separator :: base ++ separators k) = _
    rw [List.append_assoc inner, List.append_assoc inner, rootOf_solid_append hinner]
  -- The only ancestor of `path` that is not one of `inner` is `inner` itself.
  have hbelow (hdir : Solid dir) : dir ++ [separator] <+: path.rdropWhile isSeparator
      ↔ dir = inner ∨ dir ++ [separator] <+: inner := by
    rw [rdropWhile_solid hsolid, prefix_base _ h.no_separator, List.append_assoc inner,
      ← separators_succ, prefix_append_separators hdir]
  have hself : inner.rdropWhile isSeparator = inner := by
    have hdrop := rdropWhile_solid hinner 0
    rwa [append_separators_zero] at hdrop
  rw [hdirName, Ancestor, Ancestor, hroot, hself]
  constructor
  · rintro (heq | ⟨hdir, hprefix⟩)
    · exact .inr (.inl heq)
    · exact ((hbelow hdir).mp hprefix).imp_right fun h => .inr ⟨hdir, h⟩
  · rintro (rfl | heq | ⟨hdir, hprefix⟩)
    · exact .inr ⟨hinner, (hbelow hinner).mpr (.inl rfl)⟩
    · exact .inl heq
    · exact .inr ⟨hdir, (hbelow hdir).mpr (.inr hprefix)⟩

/-- A path lies in its directory, and in what that lies in. -/
theorem ancestor_step (dir path : Str) :
    Ancestor dir path ↔ dir = dirName path ∨ Ancestor dir (dirName path) := by
  rcases ends_cases path with ⟨n, rfl⟩ | ⟨s, k, hs, rfl⟩
  · exact ancestor_step_separators dir n
  · rcases hs.cases with hbase | ⟨front, base, hbase, rfl⟩
    · refine ancestor_step_root (.inl (dirName_base hbase k)) ?_ fun _ hprefix => ?_
      · rw [rootOf_solid_append hs, dirName_base hbase]
        exact rootOf_separators_append 0 hbase
      · rw [rdropWhile_solid hs] at hprefix
        exact hbase.no_separator (List.IsPrefix.subset hprefix (by simp))
    · rcases ends_cases front with ⟨n, rfl⟩ | ⟨inner, j, hinner, rfl⟩
      · exact ancestor_step_first dir n hbase k
      · exact ancestor_step_inner dir hinner j hbase k

/-- `DirName` comes to the ancestors, and to nothing else. -/
theorem iterate_dirName_iff (dir path : Str) :
    (∃ n, dirName^[n + 1] path = dir) ↔ Ancestor dir path := by
  -- By induction on the height: one `dirName` from a path that is not its own gives a lower one.
  induction hm : height path using Nat.strong_induction_on generalizing path with
  | _ m ih =>
    -- The first call gives the directory itself, or the chain goes on from there.
    have hsplit : (∃ n, dirName^[n + 1] path = dir)
        ↔ dir = dirName path ∨ ∃ n, dirName^[n + 1] (dirName path) = dir := by
      constructor
      · rintro ⟨n, hn⟩
        cases n with
        | zero => exact .inl hn.symm
        | succ n => exact .inr ⟨n, hn⟩
      · rintro (rfl | ⟨n, hn⟩)
        · exact ⟨0, rfl⟩
        · exact ⟨n + 1, hn⟩
    by_cases hfixed : dirName path = path
    -- A fixed point is a root, and its only ancestor is itself.
    · have hroot := (dirName_eq_self_iff path).mp hfixed
      rw [hroot.ancestor_iff]
      constructor
      · rintro ⟨n, rfl⟩
        exact Function.iterate_fixed hfixed _
      · rintro rfl
        exact ⟨0, hfixed⟩
    · rw [hsplit, ancestor_step, ih _ (hm ▸ height_dirName_lt path hfixed) _ rfl]

/-! ### `CreateDirectory` -/

/-- The first loop, from the `k`-th directory on: it ends at the first fixed one. -/
theorem subpathsLoop_run {path : Str} {n : ℕ}
    (hn : dirName (dirName^[n] path) = dirName^[n] path)
    (hbefore : ∀ k < n, dirName (dirName^[k] path) ≠ dirName^[k] path) {k : ℕ} (hk : k ≤ n) :
    subpathsLoop (n - k + 1) (dirName (dirName^[k] path)) (dirName^[k] path)
      (ascent dirName path k) = some (ascent dirName path n) := by
  induction hj : n - k generalizing k with
  | zero =>
    obtain rfl : k = n := by omega
    rw [subpathsLoop, if_neg (not_not_intro hn)]
  | succ j ih =>
    -- Not fixed yet: the next directory is listed.
    have hnext := ih (k := k + 1) (by omega) (by omega)
    rw [ascent_succ, Function.iterate_succ_apply'] at hnext
    rw [subpathsLoop, if_pos (hbefore k (by omega)), hnext]

/-- Going from directory to directory ends at a root, and every step before that gives `.` or a
shorter beginning of the path. So `CreateDirectory` lists the path and all that it lies in,
each once, the outermost last, and goes through them from the last to the first. -/
theorem ascends (path : Str) :
    (∃ n, IsRoot (dirName^[n] path)) ∧ (∀ q, dirName q = q ↔ IsRoot q) ∧
    (∀ q, ¬ IsRoot q →
      dirName q = kCurrentDirectory ∨ dirName q <+: q ∧ (dirName q).length < q.length) ∧
    ∃ fuel subpaths,
      subpathsLoop fuel (dirName path) path [path] = some subpaths ∧
      (∀ dir, dir ∈ subpaths ↔ dir = path ∨ Ancestor dir path) ∧
      subpaths.Nodup ∧ subpaths.Pairwise (fun inner outer => Ancestor outer inner) ∧
      ∀ {σ : Type} (fs : FileSystem σ) (s : σ),
        createDirectory fs fuel path s = some (makeLoop fs subpaths.reverse s) := by
  obtain ⟨n, hn, hbefore⟩ := exists_first_fixed height_dirName_lt path
  have hloop := subpathsLoop_run hn hbefore n.zero_le
  refine ⟨⟨n, (dirName_eq_self_iff _).mp hn⟩, dirName_eq_self_iff, fun q => dirName_descends,
    n + 1, ascent dirName path n, hloop, fun dir => ?_,
    ascent_nodup height_dirName_lt hbefore, ?_, fun fs s => ?_⟩
  -- What the loop collects is the path and its iterates, which are its ancestors.
  · rw [mem_ascent_iff hn, ← iterate_dirName_iff]
    constructor
    · rintro ⟨k, hk⟩
      cases k with
      | zero => exact .inl hk.symm
      | succ k => exact .inr ⟨k, hk⟩
    · rintro (rfl | ⟨k, hk⟩)
      · exact ⟨0, rfl⟩
      · exact ⟨k + 1, hk⟩
  -- Each collected path comes from the one before it, so the list descends.
  · exact (ascent_pairwise dirName path n).imp fun {inner outer} h =>
      (iterate_dirName_iff outer inner).mp h
  -- `createDirectory` runs the same loop and makes its paths from the outermost in.
  · show (subpathsLoop (n + 1) (dirName path) path [path]).map _ = _
    rw [show subpathsLoop (n + 1) (dirName path) path [path] = _ from hloop]
    rfl

end Mylib.Proofs.File.FilePath
