import Mylib.Lib.Scope
import Mylib.Proofs.Base.IntegerTexts
import Mylib.Spec.Xmpp.XmlnsStack

/-!
# `Mylib.Proofs.Xmpp.Namespaces`: prefixes that resolve

The definitions in force are a scope (`Mylib.Lib.Scope`) with three prefixes of its own.
`Stands` says that a prefix stands for a namespace. `prefixForNs` finds only prefixes that
stand for the namespace asked for (`stands_prefixForNs`), however often they are defined, and
`addNewPrefix` ends with one (`addNewPrefix_spec`): a prefix that was free, so nothing that
resolved before resolves in another way (`Extends`).
-/

set_option autoImplicit false

namespace Mylib.Proofs.Xmpp.Namespaces

open Mylib.Lib.Scope
open Mylib.Spec.Base (Str)
open Mylib.Spec.Base.StringUtil (text decimal digitsValue)
open Mylib.Proofs.Base (decimal_digit digitsValue_decimal)
open Mylib.Spec.Xmpp
open Mylib.Spec.Xmpp.XmlnsStack

/-! ### Lookups -/

/-- A prefix that is not reserved is looked up. -/
theorem nsForPrefix_eq (s : XmlnsStack) {pfx : Str} (h : startsWithXml pfx = false) :
    s.nsForPrefix pfx = (lookup s.pxmlnsStack pfx).or (if pfx = [] then some [] else none) := by
  rw [nsForPrefix, h, if_neg (by decide), lookup]
  cases s.pxmlnsStack.reverse.find? fun pos => pos.1 = pfx with
  | none => rfl
  | some pos => rfl

/-- A reserved one has its fixed namespace or none. -/
theorem nsForPrefix_reserved (s : XmlnsStack) {pfx : Str} (h : startsWithXml pfx = true) :
    s.nsForPrefix pfx = if pfx = strXml then some nsXml
      else if pfx = strXmlns then some nsXmlns else none := by
  rw [nsForPrefix, if_pos h]

/-- A definition changes what its own prefix resolves to. -/
theorem nsForPrefix_addXmlns (s : XmlnsStack) (pfx ns pfx' : Str) :
    (s.addXmlns pfx ns).nsForPrefix pfx' =
      if startsWithXml pfx' = false ∧ pfx = pfx' then some ns else s.nsForPrefix pfx' := by
  cases h : startsWithXml pfx' with
  | true =>
    rw [nsForPrefix_reserved _ h, nsForPrefix_reserved _ h]
    simp only [Bool.true_eq_false, false_and, if_false]
  | false =>
    rw [nsForPrefix_eq _ h, nsForPrefix_eq _ h]
    show (lookup (s.pxmlnsStack ++ [(pfx, ns)]) pfx').or _ = _
    rw [lookup_concat]
    by_cases hp : pfx = pfx'
    · simp [hp]
    · simp [hp]

/-! ### Prefixes found -/

/-- The prefix, in front of a name, stands for the namespace. An attribute without a prefix has
none. -/
def Stands (s : XmlnsStack) (pfx ns : Str) (isattr : Bool) : Prop :=
  if isattr = true ∧ pfx = [] then ns = [] else s.nsForPrefix pfx = some ns

/-- A prefix matches the namespace that it resolves to. -/
theorem prefixMatchesNs_iff {s : XmlnsStack} {pfx ns : Str} :
    s.prefixMatchesNs pfx ns = true ↔ s.nsForPrefix pfx = some ns := by
  rw [prefixMatchesNs]
  cases s.nsForPrefix pfx with
  | none => simp
  | some found => simp

/-- What the search takes. -/
theorem takes_iff {s : XmlnsStack} {ns : Str} {isattr : Bool} {pos : Str × Str} :
    (pos.2 = ns && (!isattr || !pos.1.isEmpty) && s.prefixMatchesNs pos.1 ns) = true ↔
      pos.2 = ns ∧ (isattr = true → pos.1 ≠ []) ∧ s.nsForPrefix pos.1 = some ns := by
  rw [Bool.and_eq_true, Bool.and_eq_true, prefixMatchesNs_iff, decide_eq_true_eq, and_assoc]
  cases isattr <;> simp

/-- The default namespace, where it will do. -/
theorem default_iff {s : XmlnsStack} {ns : Str} {isattr : Bool} :
    (if isattr then ns = [] else s.prefixMatchesNs [] ns = true) ↔ Stands s [] ns isattr := by
  cases isattr with
  | true => simp [Stands]
  | false => simp [Stands, prefixMatchesNs_iff]

/-- Where the prefix comes from. -/
theorem prefixForNs_cases {s : XmlnsStack} {ns pfx : Str} {isattr : Bool}
    (h : s.prefixForNs ns isattr = some pfx) :
    (ns = nsXml ∧ pfx = strXml) ∨ (ns = nsXmlns ∧ pfx = strXmlns) ∨
      (pfx = [] ∧ Stands s [] ns isattr) ∨
      ∃ pos ∈ s.pxmlnsStack, pos.1 = pfx ∧ (isattr = true → pfx ≠ []) ∧
        s.nsForPrefix pfx = some ns := by
  unfold prefixForNs at h
  by_cases hxml : ns = nsXml
  · rw [if_pos hxml] at h
    exact .inl ⟨hxml, (Option.some.inj h).symm⟩
  rw [if_neg hxml] at h
  by_cases hxmlns : ns = nsXmlns
  · rw [if_pos hxmlns] at h
    exact .inr (.inl ⟨hxmlns, (Option.some.inj h).symm⟩)
  rw [if_neg hxmlns] at h
  by_cases hdefault : if isattr then ns = [] else s.prefixMatchesNs [] ns = true
  · rw [if_pos hdefault] at h
    exact .inr (.inr (.inl ⟨(Option.some.inj h).symm, default_iff.mp hdefault⟩))
  · rw [if_neg hdefault] at h
    obtain ⟨pos, hpos, rfl⟩ := Option.map_eq_some_iff.mp h
    have htakes := List.find?_some hpos
    obtain ⟨-, hne, hns⟩ := takes_iff.mp htakes
    exact .inr (.inr (.inr
      ⟨pos, List.mem_reverse.mp (List.mem_of_find?_eq_some hpos), rfl, hne, hns⟩))

/-- A prefix that is found for a namespace stands for it. -/
theorem stands_prefixForNs {s : XmlnsStack} {ns pfx : Str} {isattr : Bool}
    (h : s.prefixForNs ns isattr = some pfx) : Stands s pfx ns isattr := by
  obtain ⟨rfl, rfl⟩ | ⟨rfl, rfl⟩ | ⟨rfl, hstands⟩ | ⟨pos, -, -, hne, hns⟩ := prefixForNs_cases h
  · rw [Stands, if_neg fun hc => absurd hc.2 (by decide)]
    rfl
  · rw [Stands, if_neg fun hc => absurd hc.2 (by decide)]
    rfl
  · exact hstands
  · rw [Stands, if_neg fun hc => hne hc.1 hc.2, hns]

/-- When a prefix is found. -/
theorem isSome_prefixForNs {s : XmlnsStack} {ns : Str} {isattr : Bool} :
    (s.prefixForNs ns isattr).isSome ↔ ns = nsXml ∨ ns = nsXmlns ∨ Stands s [] ns isattr ∨
      ∃ pos ∈ s.pxmlnsStack, pos.2 = ns ∧ (isattr = true → pos.1 ≠ []) ∧
        s.nsForPrefix pos.1 = some ns := by
  unfold prefixForNs
  by_cases hxml : ns = nsXml
  · simp [hxml]
  rw [if_neg hxml]
  by_cases hxmlns : ns = nsXmlns
  · rw [if_pos hxmlns]
    simp [hxmlns]
  rw [if_neg hxmlns]
  by_cases hdefault : if isattr then ns = [] else s.prefixMatchesNs [] ns = true
  · rw [if_pos hdefault]
    simp [default_iff.mp hdefault]
  · rw [if_neg hdefault, Option.isSome_map, List.find?_isSome]
    have hstands := mt default_iff.mpr hdefault
    simp only [List.mem_reverse, hxml, hxmlns, hstands, false_or, takes_iff]

/-! ### Definitions added -/

/-- A prefix that a new definition takes: lower-case letters and digits, a letter first, not `xml`,
and free. -/
structure IsFree (s : XmlnsStack) (pfx : Str) : Prop where
  chars : ∀ ch ∈ pfx, (97 ≤ ch.toNat ∧ ch.toNat ≤ 122) ∨ (48 ≤ ch.toNat ∧ ch.toNat ≤ 57)
  letter : ∀ ch ∈ pfx.head?, 97 ≤ ch.toNat ∧ ch.toNat ≤ 122
  nonempty : pfx ≠ []
  allowed : startsWithXml pfx = false
  free : s.nsForPrefix pfx = none

/-- More definitions, and every prefix that resolved resolves as before. -/
structure Extends (s s' : XmlnsStack) : Prop where
  subset : s.pxmlnsStack ⊆ s'.pxmlnsStack
  keeps : ∀ pfx ns, s.nsForPrefix pfx = some ns → s'.nsForPrefix pfx = some ns

/-- Nothing was added. -/
theorem Extends.refl (s : XmlnsStack) : Extends s s := ⟨fun _ h => h, fun _ _ h => h⟩

/-- More and still more definitions. -/
theorem Extends.trans {s s' s'' : XmlnsStack} (h : Extends s s') (h' : Extends s' s'') :
    Extends s s'' :=
  ⟨fun _ hd => h'.subset (h.subset hd), fun pfx ns hp => h'.keeps pfx ns (h.keeps pfx ns hp)⟩

/-- Defining a free prefix hides none. -/
theorem IsFree.extends {s : XmlnsStack} {pfx : Str} (h : IsFree s pfx) (ns : Str) :
    Extends s (s.addXmlns pfx ns) where
  subset := List.subset_append_left _ _
  keeps := by
    intro pfx' ns' hp
    rw [nsForPrefix_addXmlns, if_neg]
    · exact hp
    · rintro ⟨-, rfl⟩
      rw [h.free] at hp
      exact Option.some_ne_none _ hp.symm

/-- What stood for a namespace still does. -/
theorem Extends.stands {s s' : XmlnsStack} (h : Extends s s') {pfx ns : Str} {isattr : Bool}
    (hs : Stands s pfx ns isattr) : Stands s' pfx ns isattr := by
  unfold Stands at hs ⊢
  split
  next hc => rwa [if_pos hc] at hs
  next hc =>
    rw [if_neg hc] at hs
    exact h.keeps pfx ns hs

/-- A prefix that was found is still found. -/
theorem Extends.isSome_prefixForNs {s s' : XmlnsStack} (h : Extends s s') {ns : Str}
    {isattr : Bool} (hs : (s.prefixForNs ns isattr).isSome) :
    (s'.prefixForNs ns isattr).isSome := by
  rw [Namespaces.isSome_prefixForNs] at hs ⊢
  obtain hxml | hxmlns | hdefault | ⟨pos, hpos, hns, hne, hp⟩ := hs
  · exact .inl hxml
  · exact .inr (.inl hxmlns)
  · exact .inr (.inr (.inl (h.stands hdefault)))
  · exact .inr (.inr (.inr ⟨pos, h.subset hpos, hns, hne, h.keeps pos.1 ns hp⟩))

/-- The definition of a free prefix makes it the prefix of its namespace. -/
theorem IsFree.isSome_prefixForNs {s : XmlnsStack} {pfx : Str} (h : IsFree s pfx) (ns : Str)
    (isattr : Bool) : ((s.addXmlns pfx ns).prefixForNs ns isattr).isSome := by
  rw [Namespaces.isSome_prefixForNs]
  refine .inr (.inr (.inr ⟨(pfx, ns), ?_, rfl, fun _ => h.nonempty, ?_⟩))
  · exact List.mem_append_right _ List.mem_cons_self
  · rw [nsForPrefix_addXmlns, if_pos ⟨h.allowed, rfl⟩]

/-! ### The search for a free prefix -/

/-- A letter in lower case is a small letter. -/
theorem asciiLower_letter {ch : UInt8} (h : isAsciiLetter ch = true) :
    97 ≤ (if 65 ≤ ch && ch ≤ 90 then ch + 32 else ch).toNat ∧
      (if 65 ≤ ch && ch ≤ 90 then ch + 32 else ch).toNat ≤ 122 := by
  simp only [isAsciiLetter, Bool.or_eq_true, Bool.and_eq_true, decide_eq_true_eq,
    UInt8.le_iff_toNat_le, UInt8.reduceToNat] at h ⊢
  split
  next hupper =>
    simp only [UInt8.toNat_add, UInt8.reduceToNat]
    omega
  next hupper => omega

/-- What a prefix is built on: lower-case letters that do not begin with `xml`. -/
structure IsBase (base : Str) : Prop where
  chars : ∀ ch ∈ base, 97 ≤ ch.toNat ∧ ch.toNat ≤ 122
  nonempty : base ≠ []
  allowed : ¬ strXml <+: base

/-- A suggested prefix can be the base of the candidates. -/
theorem isBase_suggestPrefix (ns : Str) : IsBase (suggestPrefix ns) := by
  unfold suggestPrefix
  generalize hrun : (((chopEnding ns).reverse.dropWhile (!isAsciiLetter ·)).takeWhile
    isAsciiLetter).reverse = run
  -- What is looked for is a run of letters, cut to three when it has more than four.
  have hletters : ∀ ch ∈ run, isAsciiLetter ch = true := by
    intro ch hch
    rw [← hrun] at hch
    exact List.mem_takeWhile_imp (List.mem_reverse.mp hch)
  generalize hcut : (if run.length > 4 then run.take 3 else run) = cut
  have hsub : cut ⊆ run := by
    rw [← hcut]
    split
    · exact List.take_subset 3 run
    · exact List.Subset.refl run
  -- The cut leaves something of a run that is not empty.
  have hne : run ≠ [] → cut ≠ [] := by
    intro hne
    rw [← hcut]
    split
    · simpa using hne
    · exact hne
  by_cases hc : run ≠ [] ∧ ¬ strXml <+: asciiLower cut
  · simp only [hcut, if_pos hc]
    refine ⟨?_, ?_, hc.2⟩
    · intro ch hch
      obtain ⟨ch', hch', rfl⟩ := List.mem_map.mp hch
      exact asciiLower_letter (hletters ch' (hsub hch'))
    · intro hnil
      exact hne hc.1 (List.map_eq_nil_iff.mp hnil)
  -- No letters, or a name that starts with `xml`: the answer is `ns`.
  · simp only [hcut, if_neg hc]
    refine ⟨?_, by decide, by decide⟩
    intro ch hch
    obtain rfl | rfl : ch = 110 ∨ ch = 115 := by simpa [text] using hch
    · decide
    · decide

/-- The prefixes the loop tries. -/
def candidate (base : Str) : ℕ → Str
  | 0 => base
  | k + 1 => base ++ decimal (k + 2)

/-- Different numbers have different texts. -/
theorem decimal_injective : Function.Injective decimal :=
  Function.LeftInverse.injective digitsValue_decimal

/-- No number has an empty text. -/
theorem decimal_ne_nil {n : ℕ} (hn : n ≠ 0) : decimal n ≠ [] := by
  intro h
  exact hn (by rw [← digitsValue_decimal n, h]; rfl)

/-- So the candidates are all different: only finitely many are taken, and the loop ends. -/
theorem candidate_injective (base : Str) : Function.Injective (candidate base) := by
  intro j k h
  match j, k with
  | 0, 0 => rfl
  | 0, k + 1 =>
    exact absurd (List.append_right_eq_self.mp h.symm) (decimal_ne_nil (by omega))
  | j + 1, 0 =>
    exact absurd (List.append_right_eq_self.mp h) (decimal_ne_nil (by omega))
  | j + 1, k + 1 =>
    have := decimal_injective (List.append_cancel_left h)
    omega

/-- Their characters are small letters and digits. -/
theorem candidate_chars {base : Str} (h : IsBase base) (k : ℕ) :
    ∀ ch ∈ candidate base k,
      (97 ≤ ch.toNat ∧ ch.toNat ≤ 122) ∨ (48 ≤ ch.toNat ∧ ch.toNat ≤ 57) := by
  intro ch hch
  cases k with
  | zero => exact .inl (h.chars ch hch)
  | succ k =>
    obtain hbase | hdigit := List.mem_append.mp hch
    · exact .inl (h.chars ch hbase)
    · exact .inr (decimal_digit hdigit)

/-- The letters of the base come first. -/
theorem candidate_letter {base : Str} (h : IsBase base) (k : ℕ) :
    ∀ ch ∈ (candidate base k).head?, 97 ≤ ch.toNat ∧ ch.toNat ≤ 122 := by
  obtain ⟨first, rest, rfl⟩ := List.exists_cons_of_ne_nil h.nonempty
  have hhead : (candidate (first :: rest) k).head? = some first := by
    cases k with
    | zero => rfl
    | succ k => rfl
  intro ch hch
  rw [hhead, Option.mem_some_iff] at hch
  rw [← hch]
  exact h.chars first List.mem_cons_self

/-- The test for a reserved prefix, on its first three characters. -/
theorem startsWithXml_cons {a b c : UInt8} {rest : Str}
    (ha : 97 ≤ a.toNat ∧ a.toNat ≤ 122 ∨ 48 ≤ a.toNat ∧ a.toNat ≤ 57)
    (hb : 97 ≤ b.toNat ∧ b.toNat ≤ 122 ∨ 48 ≤ b.toNat ∧ b.toNat ≤ 57)
    (hc : 97 ≤ c.toNat ∧ c.toNat ≤ 122 ∨ 48 ≤ c.toNat ∧ c.toNat ≤ 57)
    (h : startsWithXml (a :: b :: c :: rest) = true) : a = 120 ∧ b = 109 ∧ c = 108 := by
  simp only [startsWithXml, Bool.and_eq_true, Bool.or_eq_true, beq_iff_eq] at h
  obtain ⟨⟨rfl | rfl, rfl | rfl⟩, rfl | rfl⟩ := h <;> revert ha hb hc <;> decide

/-- Behind the letters of the base there are digits only, so `xml` would be in the base. -/
theorem startsWithXml_candidate {base : Str} (h : IsBase base) (k : ℕ) :
    startsWithXml (candidate base k) = false := by
  by_contra hstarts
  rw [Bool.not_eq_false] at hstarts
  have hchars := candidate_chars h k
  generalize hcand : candidate base k = cand at hstarts hchars
  match cand, hstarts, hchars with
  | a :: b :: c :: rest, hstarts, hchars =>
    obtain ⟨rfl, rfl, rfl⟩ := startsWithXml_cons (hchars a (by simp)) (hchars b (by simp))
      (hchars c (by simp)) hstarts
    cases k with
    | zero => exact h.allowed ⟨rest, hcand.symm⟩
    | succ k =>
      -- the digits hold no letter of `xml`
      have hdigit : ∀ ch ∈ decimal (k + 2), ch.toNat ≤ 57 := fun ch hch => (decimal_digit hch).2
      have hm : (109 : UInt8) ∉ decimal (k + 2) := fun hmem => absurd (hdigit 109 hmem) (by decide)
      have hl : (108 : UInt8) ∉ decimal (k + 2) := fun hmem => absurd (hdigit 108 hmem) (by decide)
      match base, h, (show base ++ decimal (k + 2) = 120 :: 109 :: 108 :: rest from hcand) with
      | [], h, _ => exact h.nonempty rfl
      | [x], _, heq =>
        have hrest : decimal (k + 2) = 109 :: 108 :: rest := (List.cons.inj heq).2
        exact hm (hrest ▸ List.mem_cons_self)
      | [x, y], _, heq =>
        have hrest : decimal (k + 2) = 108 :: rest := (List.cons.inj (List.cons.inj heq).2).2
        exact hl (hrest ▸ List.mem_cons_self)
      | x :: y :: z :: tail, h, heq =>
        rw [List.cons_append, List.cons_append, List.cons_append, List.cons.injEq, List.cons.injEq,
          List.cons.injEq] at heq
        obtain ⟨rfl, rfl, rfl, -⟩ := heq
        exact h.allowed ⟨tail, rfl⟩

/-- The loop ends with the first candidate that is free. -/
theorem freePrefix_eq (s : XmlnsStack) (base : Str) {fuel k : ℕ} :
    ∀ j, k ≤ j → j < k + fuel → s.nsForPrefix (candidate base j) = none →
      ∃ j', freePrefix s base fuel (candidate base k) (k + 2) = some (candidate base j') ∧
        s.nsForPrefix (candidate base j') = none := by
  induction fuel generalizing k with
  | zero =>
    intro j hkj hjk
    omega
  | succ fuel ih =>
    intro j hkj hjk hfree
    rw [freePrefix]
    by_cases hk : s.nsForPrefix (candidate base k) = none
    · rw [if_neg (not_not.mpr hk)]
      exact ⟨k, rfl, hk⟩
    · rw [if_pos hk]
      have hne : j ≠ k := by
        rintro rfl
        exact hk hfree
      exact ih (k := k + 1) j (by omega) (by omega) hfree

/-- A free prefix is found in as many rounds as there are definitions, and one more. -/
theorem exists_freePrefix (s : XmlnsStack) (ns : Str) :
    ∃ pfx, freePrefix s (suggestPrefix ns) (s.pxmlnsStack.length + 1) (suggestPrefix ns) 2 =
      some pfx ∧ IsFree s pfx := by
  have hbase := isBase_suggestPrefix ns
  obtain ⟨j, hj, hlookup⟩ := exists_free s.pxmlnsStack (candidate_injective (suggestPrefix ns))
  have hne : ∀ k, candidate (suggestPrefix ns) k ≠ [] := by
    intro k hnil
    cases k with
    | zero => exact hbase.nonempty hnil
    | succ k => exact hbase.nonempty (List.append_eq_nil_iff.mp hnil).1
  have hfree : s.nsForPrefix (candidate (suggestPrefix ns) j) = none := by
    rw [nsForPrefix_eq s (startsWithXml_candidate hbase j), hlookup, if_neg (hne j)]
    rfl
  obtain ⟨j', hrun, hfree'⟩ := freePrefix_eq s (suggestPrefix ns) (k := 0) j (by omega)
    (show j < 0 + (s.pxmlnsStack.length + 1) by omega) hfree
  exact ⟨_, hrun, candidate_chars hbase j', candidate_letter hbase j', hne j',
    startsWithXml_candidate hbase j', hfree'⟩

/-- `AddNewPrefix`: the loop ends, and the namespace has a prefix afterwards. -/
theorem addNewPrefix_cases (s : XmlnsStack) (ns : Str) (isAttr : Bool) :
    (s.addNewPrefix ns isAttr = some (none, s) ∧ (s.prefixForNs ns isAttr).isSome) ∨
      ∃ pfx, s.addNewPrefix ns isAttr = some (some pfx, s.addXmlns pfx ns) ∧ IsFree s pfx ∧
        s.prefixForNs ns isAttr = none := by
  unfold addNewPrefix
  by_cases hsome : (s.prefixForNs ns isAttr).isSome
  · rw [if_pos hsome]
    exact .inl ⟨rfl, hsome⟩
  · rw [if_neg hsome]
    obtain ⟨pfx, hrun, hfree⟩ := exists_freePrefix s ns
    refine .inr ⟨pfx, ?_, hfree, Option.not_isSome_iff_eq_none.mp hsome⟩
    simp only [hrun]

/-- `AddNewPrefix` returns from any stack. Afterwards `PrefixForNs` gives a prefix that stands for
the namespace, and every prefix that resolved before resolves as before. -/
theorem addNewPrefix_resolves (s : XmlnsStack) (ns : Str) (isAttr : Bool) :
    ∃ r s', s.addNewPrefix ns isAttr = some (r, s') ∧
      (∃ pfx, s'.prefixForNs ns isAttr = some pfx ∧ Stands s' pfx ns isAttr) ∧
      ∀ pfx ns', s.nsForPrefix pfx = some ns' → s'.nsForPrefix pfx = some ns' := by
  have hstands : ∀ s' : XmlnsStack, (s'.prefixForNs ns isAttr).isSome →
      ∃ pfx, s'.prefixForNs ns isAttr = some pfx ∧ Stands s' pfx ns isAttr := by
    intro s' hsome
    obtain ⟨pfx, hpfx⟩ := Option.isSome_iff_exists.mp hsome
    exact ⟨pfx, hpfx, stands_prefixForNs hpfx⟩
  obtain ⟨hrun, hsome⟩ | ⟨pfx, hrun, hfree, -⟩ := addNewPrefix_cases s ns isAttr
  · exact ⟨none, s, hrun, hstands s hsome, fun _ _ h => h⟩
  · exact ⟨some pfx, _, hrun, hstands _ (hfree.isSome_prefixForNs ns isAttr),
      (hfree.extends ns).keeps⟩

end Mylib.Proofs.Xmpp.Namespaces
