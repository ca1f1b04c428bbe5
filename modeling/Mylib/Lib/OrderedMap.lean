import Mathlib

/-!
# `Mylib.Lib.OrderedMap`: maps as sorted lists of pairs

A map from an ordered key type, kept as the list of its pairs in the order of the
keys, each key once. `set` stores a value under a key and keeps the order, so two
sorted lists that answer every lookup alike are the same list.
-/

set_option autoImplicit false

namespace Mylib.Lib.OrderedMap

section

variable {κ ν : Type} [LinearOrder κ]

/-! ### The operations -/

/-- The pairs with `v` stored under `k`, over whatever `k` held before. -/
def set (k : κ) (v : ν) : List (κ × ν) → List (κ × ν)
  | [] => [(k, v)]
  | (k', v') :: m =>
    if k < k' then (k, v) :: (k', v') :: m
    else if k = k' then (k, v) :: m
    else (k', v') :: set k v m

def find (k : κ) : List (κ × ν) → Option ν
  | [] => none
  | (k', v') :: m => if k = k' then some v' else find k m

/-- The pairs without those under `k`. -/
def erase (k : κ) (m : List (κ × ν)) : List (κ × ν) := m.filter fun p => p.1 ≠ k

/-- The pairs stored one after another. -/
def setAll (m : List (κ × ν)) (ps : List (κ × ν)) : List (κ × ν) :=
  ps.foldl (fun m p => set p.1 p.2 m) m

/-- The value of the last pair with key `k`. -/
def lastValue (k : κ) : List (κ × ν) → Option ν
  | [] => none
  | (k', v') :: ps => (lastValue k ps).or (if k = k' then some v' else none)

/-- The keys rise strictly. -/
def Sorted (m : List (κ × ν)) : Prop := m.Pairwise fun p q => p.1 < q.1

/-- `m` is the map the pairs `ps` describe: a later pair wins over an earlier one
with the same key. -/
structure Describes (ps m : List (κ × ν)) : Prop where
  sorted : Sorted m
  last_wins : ∀ k, find k m = lastValue k ps

/-! ### Storing one pair -/

/-- An entry of the map after `set` is the new one or an old one. -/
theorem mem_set {k : κ} {v : ν} {m : List (κ × ν)} {p : κ × ν} (h : p ∈ set k v m) :
    p = (k, v) ∨ p ∈ m := by
  induction m with
  | nil => simpa [set] using h
  | cons q m ih =>
    obtain ⟨k', v'⟩ := q
    unfold set at h
    split_ifs at h
    · simpa using h
    · rcases List.mem_cons.mp h with h | h
      · exact Or.inl h
      · exact Or.inr (List.mem_cons_of_mem _ h)
    · rcases List.mem_cons.mp h with h | h
      · exact Or.inr (h ▸ List.mem_cons_self)
      · exact (ih h).imp id (List.mem_cons_of_mem _)

/-- `set` keeps the keys in order. -/
theorem Sorted.set {k : κ} {v : ν} {m : List (κ × ν)} (h : Sorted m) :
    Sorted (set k v m) := by
  induction m with
  | nil => exact List.pairwise_singleton _ _
  | cons q m ih =>
    obtain ⟨k', v'⟩ := q
    have hm := (List.pairwise_cons.mp h).1
    have htail := (List.pairwise_cons.mp h).2
    unfold OrderedMap.set
    split_ifs with hlt heq
    -- The new key is below all others.
    · refine List.pairwise_cons.mpr ⟨fun p hp => ?_, h⟩
      rcases List.mem_cons.mp hp with hp | hp
      · exact hp ▸ hlt
      · exact lt_trans hlt (hm p hp)
    · subst heq
      exact List.pairwise_cons.mpr ⟨hm, htail⟩
    -- The new key is behind the first one, and whatever is set there is behind it, too.
    · refine List.pairwise_cons.mpr ⟨fun p hp => ?_, ih htail⟩
      rcases mem_set hp with hp | hp
      · exact hp ▸ lt_of_le_of_ne (not_lt.mp hlt) (Ne.symm heq)
      · exact hm p hp

/-- A key that differs from all keys is not found. -/
theorem find_eq_none_of_ne {k : κ} {m : List (κ × ν)} (h : ∀ p ∈ m, k ≠ p.1) :
    find k m = none := by
  induction m with
  | nil => rfl
  | cons q m ih =>
    unfold find
    rw [if_neg (h q List.mem_cons_self)]
    exact ih fun p hp => h p (List.mem_cons_of_mem _ hp)

/-- A key is not found exactly if no entry has it. -/
theorem find_eq_none_iff {k : κ} {m : List (κ × ν)} :
    find k m = none ↔ k ∉ m.map Prod.fst := by
  induction m with
  | nil => simp [find]
  | cons q m ih =>
    unfold find
    by_cases hk : k = q.1
    · simp [hk]
    · simpa [hk] using ih

/-- A key that is below all keys is not found. -/
theorem find_eq_none {k : κ} {m : List (κ × ν)} (h : ∀ p ∈ m, k < p.1) : find k m = none :=
  find_eq_none_of_ne fun p hp => ne_of_lt (h p hp)

/-- `set` changes what is found for its own key only. -/
theorem find_set (k j : κ) (v : ν) (m : List (κ × ν)) :
    find j (set k v m) = if j = k then some v else find j m := by
  induction m with
  | nil => rfl
  | cons q m ih =>
    obtain ⟨k', v'⟩ := q
    unfold set
    split_ifs with hlt heq hjk hjk <;> grind [find]

/-- `erase` makes its own key disappear and no other. -/
theorem find_erase (k j : κ) (m : List (κ × ν)) :
    find j (erase k m) = if j = k then none else find j m := by
  induction m with
  | nil => simp [erase, find]
  | cons q m ih =>
    have hcons : erase k (q :: m) = if q.1 = k then erase k m else q :: erase k m := by
      by_cases hq : q.1 = k <;> simp [erase, hq]
    rw [hcons]
    split_ifs with hq hjk hjk <;> grind [find]

/-- `erase` keeps the keys in order. -/
theorem Sorted.erase {k : κ} {m : List (κ × ν)} (h : Sorted m) : Sorted (erase k m) :=
  List.Pairwise.filter _ h

/-- A key above all others goes to the end. -/
theorem set_eq_append {k : κ} {v : ν} {m : List (κ × ν)} (h : ∀ p ∈ m, p.1 < k) :
    set k v m = m ++ [(k, v)] := by
  induction m with
  | nil => rfl
  | cons q m ih =>
    have hq : q.1 < k := h q List.mem_cons_self
    unfold set
    rw [if_neg (not_lt_of_gt hq), if_neg (ne_of_gt hq),
      ih fun p hp => h p (List.mem_cons_of_mem _ hp)]
    rfl

/-! ### Storing many -/

/-- Entering many pairs keeps the keys in order. -/
theorem sorted_setAll {m : List (κ × ν)} (ps : List (κ × ν)) (h : Sorted m) :
    Sorted (setAll m ps) := by
  induction ps generalizing m with
  | nil => exact h
  | cons p ps ih => exact ih h.set

/-- Of many pairs with one key the last one counts. -/
theorem find_setAll (k : κ) (m ps : List (κ × ν)) :
    find k (setAll m ps) = (lastValue k ps).or (find k m) := by
  induction ps generalizing m with
  | nil => rfl
  | cons p ps ih =>
    show find k (setAll (set p.1 p.2 m) ps)
      = ((lastValue k ps).or (if k = p.1 then some p.2 else none)).or (find k m)
    rw [ih, find_set]
    cases lastValue k ps <;> split_ifs <;> simp

/-- The pairs entered into an empty map are described by it. -/
theorem describes_setAll (ps : List (κ × ν)) : Describes ps (setAll [] ps) where
  sorted := sorted_setAll ps List.Pairwise.nil
  last_wins k := by
    rw [find_setAll]
    exact Option.or_none

/-- What is found stands in the map. -/
theorem mem_of_find {k : κ} {v : ν} {m : List (κ × ν)} (h : find k m = some v) :
    (k, v) ∈ m := by
  induction m with
  | nil => cases h
  | cons q m ih =>
    unfold find at h
    split_ifs at h with hk
    · rw [hk, ← Option.some.inj h]
      exact List.mem_cons_self
    · exact List.mem_cons_of_mem _ (ih h)

/-- The last value of a key comes from a pair with that key. -/
theorem mem_of_lastValue {k : κ} {v : ν} {ps : List (κ × ν)} (h : lastValue k ps = some v) :
    (k, v) ∈ ps := by
  induction ps with
  | nil => cases h
  | cons q ps ih =>
    unfold lastValue at h
    rcases Option.or_eq_some_iff.mp h with hlast | ⟨-, hfirst⟩
    · exact List.mem_cons_of_mem _ (ih hlast)
    · split_ifs at hfirst with hk
      rw [hk, ← Option.some.inj hfirst]
      exact List.mem_cons_self

/-- A key without a last value is the key of no pair. -/
theorem lastValue_eq_none {k : κ} {ps : List (κ × ν)} :
    lastValue k ps = none ↔ ∀ p ∈ ps, p.1 ≠ k := by
  induction ps with
  | nil => simp [lastValue]
  | cons q ps ih =>
    unfold lastValue
    rw [Option.or_eq_none_iff, ih, List.forall_mem_cons, and_comm]
    refine and_congr_left fun _ => ?_
    by_cases hk : k = q.1
    · simp [hk]
    · simp [hk, Ne.symm hk]

/-- The keys stored one after another are there, and no others. -/
theorem mem_keys_setAll {k : κ} {ps : List (κ × ν)} :
    k ∈ (setAll [] ps).map Prod.fst ↔ k ∈ ps.map Prod.fst := by
  have hfind : find k (setAll [] ps) = lastValue k ps := (describes_setAll ps).last_wins k
  rw [← not_iff_not, ← find_eq_none_iff, hfind, lastValue_eq_none, List.mem_map, not_exists]
  exact forall_congr' fun p => not_and.symm

/-- A key that is stored with one value only. -/
theorem lastValue_of_unique {k : κ} {v : ν} {ps : List (κ × ν)} (hmem : (k, v) ∈ ps)
    (hunique : ∀ p ∈ ps, p.1 = k → p.2 = v) : lastValue k ps = some v := by
  cases hlast : lastValue k ps with
  | none => exact absurd rfl (lastValue_eq_none.mp hlast (k, v) hmem)
  | some w =>
    have hw : (k, w) ∈ ps := mem_of_lastValue hlast
    rw [← hunique (k, w) hw rfl]

/-- Every key stored is there. -/
theorem exists_mem_setAll {p : κ × ν} {ps : List (κ × ν)} (m : List (κ × ν)) (h : p ∈ ps) :
    ∃ v, (p.1, v) ∈ setAll m ps := by
  cases hlast : lastValue p.1 ps with
  | none => exact absurd rfl (lastValue_eq_none.mp hlast p h)
  | some v =>
    refine ⟨v, mem_of_find ?_⟩
    rw [find_setAll, hlast]
    rfl

/-- Storing rising pairs behind smaller ones lines them up. -/
theorem setAll_eq_append {m ps : List (κ × ν)} (h : Sorted (m ++ ps)) :
    setAll m ps = m ++ ps := by
  induction ps generalizing m with
  | nil => simp [setAll]
  | cons p ps ih =>
    have hbelow : ∀ q ∈ m, q.1 < p.1 := fun q hq =>
      (List.pairwise_append.mp h).2.2 q hq p List.mem_cons_self
    show setAll (set p.1 p.2 m) ps = m ++ p :: ps
    rw [set_eq_append hbelow, ih (by simpa using h)]
    simp

/-! ### A sorted map is its lookups -/

/-- If two maps find the same, the first key of one is not above that of the other. -/
theorem Sorted.head_le {p q : κ × ν} {m n : List (κ × ν)} (hn : Sorted (q :: n))
    (h : ∀ k, find k (p :: m) = find k (q :: n)) : q.1 ≤ p.1 := by
  by_contra hlt
  have hbelow : ∀ r ∈ q :: n, p.1 < r.1 := by
    intro r hr
    rcases List.mem_cons.mp hr with hr | hr
    · exact hr ▸ not_le.mp hlt
    · exact lt_trans (not_le.mp hlt) ((List.pairwise_cons.mp hn).1 r hr)
  have hp := h p.1
  rw [find_eq_none hbelow] at hp
  simp [find] at hp

/-- Sorted maps that find the same for every key are equal. -/
theorem Sorted.ext {m n : List (κ × ν)} (hm : Sorted m) (hn : Sorted n)
    (h : ∀ k, find k m = find k n) : m = n := by
  induction m generalizing n with
  | nil =>
    cases n with
    | nil => rfl
    | cons q n => simpa [find] using h q.1
  | cons p m ih =>
    cases n with
    | nil => simpa [find] using h p.1
    | cons q n =>
      -- The first key of each is found in the other, so neither is below the other.
      have hkey : p.1 = q.1 := le_antisymm (hm.head_le fun k => (h k).symm) (hn.head_le h)
      have hval : p.2 = q.2 := by simpa [find, hkey] using h q.1
      -- Behind it, the lookups agree: they do at every other key, and at this one both find
      -- nothing.
      have htail : ∀ k, find k m = find k n := by
        intro k
        by_cases hk : k = p.1
        · rw [hk, find_eq_none (List.pairwise_cons.mp hm).1, hkey,
            find_eq_none (List.pairwise_cons.mp hn).1]
        · simpa [find, hk, hkey ▸ hk] using h k
      rw [ih (List.pairwise_cons.mp hm).2 (List.pairwise_cons.mp hn).2 htail,
        Prod.ext hkey hval]

/-- A sorted map is determined by the pairs it describes. -/
theorem Describes.eq_setAll {ps m : List (κ × ν)} (h : Describes ps m) : m = setAll [] ps :=
  h.sorted.ext (describes_setAll ps).sorted fun k =>
    (h.last_wins k).trans ((describes_setAll ps).last_wins k).symm

/-- No key stands twice in a sorted map. -/
theorem Sorted.nodup_keys {m : List (κ × ν)} (h : Sorted m) : (m.map Prod.fst).Nodup :=
  List.pairwise_map.mpr (h.imp fun hlt => ne_of_lt hlt)

/-- Every entry of a sorted map is found under its key. -/
theorem Sorted.find_of_mem {m : List (κ × ν)} (h : Sorted m) {p : κ × ν} (hp : p ∈ m) :
    find p.1 m = some p.2 := by
  induction m with
  | nil => cases hp
  | cons q m ih =>
    unfold find
    rcases List.mem_cons.mp hp with hp | hp
    · rw [hp, if_pos rfl]
    · rw [if_neg (ne_of_gt ((List.pairwise_cons.mp h).1 p hp))]
      exact ih (List.pairwise_cons.mp h).2 hp

/-! ### One map merged into another -/

/-- The pairs of `ps` stored one after another, each as `f` combines it with what its
key holds. -/
def mergeWith (f : Option ν → ν → ν) (m ps : List (κ × ν)) : List (κ × ν) :=
  ps.foldl (fun m p => set p.1 (f (find p.1 m) p.2) m) m

/-- Merging keeps the keys in order. -/
theorem Sorted.mergeWith {f : Option ν → ν → ν} {m : List (κ × ν)} (h : Sorted m)
    (ps : List (κ × ν)) : Sorted (mergeWith f m ps) := by
  induction ps generalizing m with
  | nil => exact h
  | cons p ps ih => exact ih h.set

/-- Merging leaves keys alone that are not in what is merged. -/
theorem find_mergeWith_of_none {f : Option ν → ν → ν} {k : κ} {ps : List (κ × ν)}
    (h : find k ps = none) (m : List (κ × ν)) : find k (mergeWith f m ps) = find k m := by
  induction ps generalizing m with
  | nil => rfl
  | cons p ps ih =>
    unfold find at h
    split_ifs at h with hk
    show find k (OrderedMap.mergeWith f (set p.1 (f (find p.1 m) p.2) m) ps) = _
    rw [ih h, find_set, if_neg hk]

/-- Each key of `ps` comes up once, so it holds what was combined at that moment. -/
theorem find_mergeWith_of_some {f : Option ν → ν → ν} {k : κ} {v : ν} {ps : List (κ × ν)}
    (hps : Sorted ps) (h : find k ps = some v) (m : List (κ × ν)) :
    find k (mergeWith f m ps) = some (f (find k m) v) := by
  induction ps generalizing m with
  | nil => cases h
  | cons p ps ih =>
    show find k (OrderedMap.mergeWith f (set p.1 (f (find p.1 m) p.2) m) ps) = _
    unfold find at h
    split_ifs at h with hk
    · have hlater : find k ps = none := find_eq_none (hk ▸ (List.pairwise_cons.mp hps).1)
      rw [find_mergeWith_of_none hlater, find_set, if_pos hk, hk, Option.some.inj h]
    · rw [ih (List.pairwise_cons.mp hps).2 h, find_set, if_neg hk]

/-! ### Lists of values under the keys -/

/-- `v` put behind the values that `k` holds. -/
def push (k : κ) (v : ν) (m : List (κ × List ν)) : List (κ × List ν) :=
  set k ((find k m).getD [] ++ [v]) m

/-- `push` adds the value behind those of its key and leaves the other keys alone. -/
theorem find_push (k j : κ) (v : ν) (m : List (κ × List ν)) :
    find j (push k v m) = if j = k then some ((find k m).getD [] ++ [v]) else find j m :=
  find_set k j _ m

/-- Pushing many pairs keeps the keys in order. -/
theorem sorted_foldl_push {m : List (κ × List ν)} (ps : List (κ × ν)) (h : Sorted m) :
    Sorted (ps.foldl (fun m p => push p.1 p.2 m) m) := by
  induction ps generalizing m with
  | nil => exact h
  | cons p ps ih => exact ih h.set

/-- The values that pairs have under `k`, in their order. -/
def valuesAt (k : κ) (ps : List (κ × ν)) : List ν := (ps.filter fun p => p.1 = k).map Prod.snd

/-- Pushing pairs one after another collects under each key the values it has. -/
theorem find_foldl_push (k : κ) (ps : List (κ × ν)) (m : List (κ × List ν)) :
    find k (ps.foldl (fun m p => push p.1 p.2 m) m)
      = if valuesAt k ps = [] then find k m
        else some ((find k m).getD [] ++ valuesAt k ps) := by
  induction ps generalizing m with
  | nil => rfl
  | cons p ps ih =>
    rw [List.foldl_cons, ih, find_push]
    by_cases hk : p.1 = k
    · have hcons : valuesAt k (p :: ps) = p.2 :: valuesAt k ps := by simp [valuesAt, hk]
      rw [hcons, if_pos hk.symm, if_neg (List.cons_ne_nil _ _), hk]
      split_ifs with hnil
      · rw [hnil]
      · simp
    · have hskip : valuesAt k (p :: ps) = valuesAt k ps := by simp [valuesAt, hk]
      rw [hskip, if_neg (Ne.symm hk)]

/-- The largest key can be found and stored over. -/
theorem find_append_last {k : κ} {v : ν} {m : List (κ × ν)} (h : ∀ p ∈ m, p.1 < k) :
    find k (m ++ [(k, v)]) = some v := by
  induction m with
  | nil =>
    show (if k = k then some v else none) = some v
    rw [if_pos rfl]
  | cons q m ih =>
    have hq : k ≠ q.1 := ne_of_gt (h q List.mem_cons_self)
    show (if k = q.1 then some q.2 else find k (m ++ [(k, v)])) = some v
    rw [if_neg hq]
    exact ih fun p hp => h p (List.mem_cons_of_mem _ hp)

/-- A key above all others is set at the end of the list. -/
theorem set_append_last {k : κ} {v w : ν} {m : List (κ × ν)} (h : ∀ p ∈ m, p.1 < k) :
    set k w (m ++ [(k, v)]) = m ++ [(k, w)] := by
  induction m with
  | nil =>
    show (if k < k then _ else if k = k then _ else _) = _
    rw [if_neg (lt_irrefl k), if_pos rfl]
    rfl
  | cons q m ih =>
    have hq : q.1 < k := h q List.mem_cons_self
    show (if k < q.1 then _ else if k = q.1 then _ else q :: set k w (m ++ [(k, v)])) = _
    rw [if_neg (not_lt_of_gt hq), if_neg (ne_of_gt hq),
      ih fun p hp => h p (List.mem_cons_of_mem _ hp)]
    rfl

/-- Values pushed one after another under a key above all others. -/
theorem foldl_push_last {k : κ} {m : List (κ × List ν)} (h : ∀ p ∈ m, p.1 < k) (v : ν)
    (vs : List ν) :
    (v :: vs).foldl (fun m v => push k v m) m = m ++ [(k, v :: vs)] := by
  -- Once the key is there its values are collected.
  have hmore : ∀ (vs : List ν) (us : List ν),
      vs.foldl (fun m v => push k v m) (m ++ [(k, us)]) = m ++ [(k, us ++ vs)] := by
    intro vs
    induction vs with
    | nil =>
      intro us
      rw [List.append_nil]
      rfl
    | cons w vs ih =>
      intro us
      have hpush : push k w (m ++ [(k, us)]) = m ++ [(k, us ++ [w])] := by
        unfold push
        rw [find_append_last h, Option.getD_some, set_append_last h]
      show vs.foldl _ (push k w (m ++ [(k, us)])) = _
      rw [hpush, ih, List.append_assoc, List.singleton_append]
  have hfirst : push k v m = m ++ [(k, [v])] := by
    unfold push
    rw [find_eq_none_of_ne fun p hp => ne_of_gt (h p hp), Option.getD_none, List.nil_append,
      set_eq_append h]
  show vs.foldl _ (push k v m) = _
  rw [hfirst, hmore, List.singleton_append]

/-- Rising keys, each with its values pushed one after another. -/
theorem foldl_push_groups {m groups : List (κ × List ν)} (hsorted : Sorted (m ++ groups))
    (hne : ∀ g ∈ groups, g.2 ≠ []) :
    (groups.flatMap fun g => g.2.map (Prod.mk g.1)).foldl (fun m p => push p.1 p.2 m) m
      = m ++ groups := by
  induction groups generalizing m with
  | nil => simp
  | cons g groups ih =>
    obtain ⟨k, vs⟩ := g
    obtain ⟨v, vs, rfl⟩ := List.exists_cons_of_ne_nil (hne _ List.mem_cons_self)
    have hbelow : ∀ p ∈ m, p.1 < k := fun p hp =>
      (List.pairwise_append.mp hsorted).2.2 p hp _ List.mem_cons_self
    rw [List.flatMap_cons, List.foldl_append, List.foldl_map, foldl_push_last hbelow,
      ih (by simpa using hsorted) fun g hg => hne g (List.mem_cons_of_mem _ hg)]
    simp

end

end Mylib.Lib.OrderedMap
