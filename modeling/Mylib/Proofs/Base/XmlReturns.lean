import Mylib.Proofs.Base.XmlPositions

/-!
# `Mylib.Proofs.Base.XmlReturns`: the inputs on which the XML parser returns

`XmlToXmlTree` calls itself for every child, but all that a caller keeps of a call is the
position behind it. So the whole recursion is one scan over the tags of the text with a
count of the open elements: a tag counts up and an end tag counts down, and the parser
returns when the count comes to zero. `closesWithin` is that scan.

* `returns_of_closes`: where the count comes to zero, the recursion returns.
* `closes_of_returns`: the recursion returns only there.
* `returns_iff_closesWithin`: both for `Deserialize`.

A search that fails sends the scan back to the beginning of the text. This is how a text
without an end tag keeps the parser going for ever (`not_returns_of_no_endTag`).
-/

set_option autoImplicit false

namespace Mylib.Proofs.Base.Xml

open Mylib.Lib.CString hiding charAt
open Mylib.Spec.Base
open XmlReader StringUtil

section

variable {xmlStr : Str}

/-! ### The steps of the parser -/

/-- How the loop over children returns: at an end tag, or behind a child and a further round. -/
theorem childLoop_eq_ok_iff {fuel : Nat} {start pos : Int} {children : List XmlNode} :
    childLoop xmlStr (fuel + 1) start = .ok (children, pos) ↔
      (∃ stop, nextTag xmlStr start = .ok (stop, true) ∧ children = [] ∧
        pos = afterClose xmlStr stop) ∨
      (∃ stop child next rest, nextTag xmlStr start = .ok (stop, false) ∧
        xmlToXmlTree xmlStr fuel stop = .ok (child, next) ∧
        childLoop xmlStr fuel next = .ok (rest, pos) ∧ children = child :: rest) := by
  rw [childLoop, bind_eq_ok_iff]
  constructor
  · rintro ⟨⟨stop, closing⟩, htag, h⟩
    cases closing with
    | true =>
      cases h
      exact .inl ⟨stop, htag, rfl, rfl⟩
    | false =>
      obtain ⟨⟨child, next⟩, hchild, h⟩ := bind_eq_ok_iff.mp h
      obtain ⟨⟨rest, pos'⟩, hrest, h⟩ := bind_eq_ok_iff.mp h
      cases h
      exact .inr ⟨stop, child, next, rest, htag, hchild, hrest, rfl⟩
  · rintro (⟨stop, htag, rfl, rfl⟩ | ⟨stop, child, next, rest, htag, hchild, hrest, rfl⟩)
    · exact ⟨(stop, true), htag, rfl⟩
    · refine ⟨(stop, false), htag, ?_⟩
      simp [hchild, hrest]

/-- How an element returns: its key is read, then the text or its children. -/
theorem xmlToXmlTree_eq_ok_iff {fuel : Nat} {origin pos : Int} {node : XmlNode} :
    xmlToXmlTree xmlStr (fuel + 1) origin = .ok (node, pos) ↔
      ∃ key start, readKey xmlStr origin = .ok (key, start) ∧
        ((∃ stop value, nextTag xmlStr start = .ok (stop, true) ∧
            substr xmlStr start (int32 (stop - start)) = .ok value ∧
            node = .mk key (some value) [] ∧ pos = afterClose xmlStr stop) ∨
          (∃ stop children, nextTag xmlStr start = .ok (stop, false) ∧
            childLoop xmlStr fuel start = .ok (children, pos) ∧ node = .mk key none children)) := by
  rw [xmlToXmlTree, bind_eq_ok_iff]
  constructor
  · rintro ⟨⟨key, start⟩, hkey, h⟩
    obtain ⟨⟨stop, closing⟩, htag, h⟩ := bind_eq_ok_iff.mp h
    refine ⟨key, start, hkey, ?_⟩
    -- An end tag gives a text, a start tag the children.
    cases closing with
    | true =>
      obtain ⟨value, hvalue, h⟩ := bind_eq_ok_iff.mp h
      cases h
      exact .inl ⟨stop, value, htag, hvalue, rfl, rfl⟩
    | false =>
      obtain ⟨⟨children, pos'⟩, hloop, h⟩ := bind_eq_ok_iff.mp h
      cases h
      exact .inr ⟨stop, children, htag, hloop, rfl⟩
  · rintro ⟨key, start, hkey, ⟨stop, value, htag, hvalue, rfl, rfl⟩ |
      ⟨stop, children, htag, hloop, rfl⟩⟩
    · refine ⟨(key, start), hkey, ?_⟩
      simp [htag, hvalue]
    · refine ⟨(key, start), hkey, ?_⟩
      simp [htag, hloop]

/-! ### More fuel changes nothing -/

/-- More fuel changes nothing once the parse has returned. -/
theorem returns_mono {fuel : Nat} :
    (∀ {more origin r}, fuel ≤ more → xmlToXmlTree xmlStr fuel origin = .ok r →
      xmlToXmlTree xmlStr more origin = .ok r) ∧
    (∀ {more start r}, fuel ≤ more → childLoop xmlStr fuel start = .ok r →
      childLoop xmlStr more start = .ok r) := by
  -- Both functions at once: each calls the other with less fuel.
  induction fuel with
  | zero =>
    constructor
    · intro more origin r _ h
      cases h
    · intro more start r _ h
      cases h
  | succ fuel ih =>
    constructor
    · intro more origin r hle h
      obtain ⟨more, rfl⟩ : ∃ n, more = n + 1 := ⟨more - 1, by omega⟩
      obtain ⟨node, pos⟩ := r
      rw [xmlToXmlTree_eq_ok_iff] at h ⊢
      obtain ⟨key, start, hkey, hleaf | ⟨stop, children, htag, hloop, hnode⟩⟩ := h
      · exact ⟨key, start, hkey, .inl hleaf⟩
      · exact ⟨key, start, hkey, .inr ⟨stop, children, htag, ih.2 (by omega) hloop, hnode⟩⟩
    · intro more start r hle h
      obtain ⟨more, rfl⟩ : ∃ n, more = n + 1 := ⟨more - 1, by omega⟩
      obtain ⟨children, pos⟩ := r
      rw [childLoop_eq_ok_iff] at h ⊢
      rcases h with hend | ⟨stop, child, next, rest, htag, hchild, hrest, hcons⟩
      · exact .inl hend
      · exact .inr ⟨stop, child, next, rest, htag, ih.1 (by omega) hchild,
          ih.2 (by omega) hrest, hcons⟩

/-! ### The scan over the tags -/

/-- From `start` on, with `depth` open elements, the next `tags` tags bring the count to
zero. `behindKey` says that `start` lies behind the key of an element: if the next tag ends
the element, its text from `start` on is its value. -/
def closesWithin (xmlStr : Str) : (tags : Nat) → (behindKey : Bool) → (start : Int) →
    (depth : Nat) → Bool
  | _, _, _, 0 => true
  | 0, _, _, _ + 1 => false
  | tags + 1, behindKey, start, depth + 1 =>
    match nextTag xmlStr start with
    | .ok (stop, true) =>
      (!behindKey || sizeT start ≤ xmlStr.length) &&
        closesWithin xmlStr tags false (afterClose xmlStr stop) depth
    | .ok (stop, false) =>
      match readKey xmlStr stop with
      | .ok (_, start) => closesWithin xmlStr tags true start (depth + 2)
      | .error _ => false
    | .error _ => false

/-- Nothing is left to be closed. -/
theorem closesWithin_zero (tags : Nat) (behindKey : Bool) (start : Int) :
    closesWithin xmlStr tags behindKey start 0 = true := by
  cases tags <;> rfl

/-- The two ways on from a scan with an open element. -/
theorem closesWithin_succ_iff {tags depth : Nat} {behindKey : Bool} {start : Int} :
    closesWithin xmlStr (tags + 1) behindKey start (depth + 1) = true ↔
      (∃ stop, nextTag xmlStr start = .ok (stop, true) ∧
        (behindKey = true → sizeT start ≤ xmlStr.length) ∧
        closesWithin xmlStr tags false (afterClose xmlStr stop) depth = true) ∨
      (∃ stop key next, nextTag xmlStr start = .ok (stop, false) ∧
        readKey xmlStr stop = .ok (key, next) ∧
        closesWithin xmlStr tags true next (depth + 2) = true) := by
  rw [closesWithin]
  cases htag : nextTag xmlStr start with
  | error e => simp
  | ok r =>
    obtain ⟨stop, closing⟩ := r
    cases closing with
    | true => cases behindKey <;> simp
    | false =>
      cases hkey : readKey xmlStr stop with
      | error e => simp [hkey]
      | ok r =>
        obtain ⟨key, next⟩ := r
        simp [hkey]

/-- `substr` throws only from a position behind the end. -/
theorem substr_eq_ok {start count : Int} (h : sizeT start ≤ xmlStr.length) :
    ∃ value, substr xmlStr start count = .ok value := by
  unfold substr
  rw [if_pos h]
  exact ⟨_, rfl⟩

/-- If it has not thrown, the position is in the text. -/
theorem of_substr_eq_ok {start count : Int} {value : Str}
    (h : substr xmlStr start count = .ok value) : sizeT start ≤ xmlStr.length := by
  unfold substr at h
  split_ifs at h with hle
  exact hle

/-- A scan that closes `depth + 1` elements closes the innermost one first. The loop returns
where it is closed, and the scan goes on with the rest. Behind a key the same holds of the
element with that key. -/
theorem returns_of_closes (tags : Nat) :
    (∀ {start depth}, closesWithin xmlStr tags false start (depth + 1) = true →
      ∃ fuel children pos fewer, childLoop xmlStr fuel start = .ok (children, pos) ∧
        fewer < tags ∧ closesWithin xmlStr fewer false pos depth = true) ∧
    (∀ {origin key start depth}, readKey xmlStr origin = .ok (key, start) →
      closesWithin xmlStr tags true start (depth + 1) = true →
      ∃ fuel node pos fewer, xmlToXmlTree xmlStr fuel origin = .ok (node, pos) ∧
        fewer < tags ∧ closesWithin xmlStr fewer false pos depth = true) := by
  induction tags using Nat.strong_induction_on with
  | _ tags ih =>
    -- A child, and the loop over those behind it. The fuel of the two is made equal.
    have hchildren : ∀ {n start stop key next depth}, n < tags →
        nextTag xmlStr start = .ok (stop, false) → readKey xmlStr stop = .ok (key, next) →
        closesWithin xmlStr n true next (depth + 2) = true →
        ∃ fuel children pos fewer, childLoop xmlStr fuel start = .ok (children, pos) ∧
          fewer < n ∧ closesWithin xmlStr fewer false pos depth = true := by
      intro n start stop key next depth hn htag hkey hscan
      obtain ⟨f, child, mid, m, hchild, hm, hscan⟩ := (ih n hn).2 hkey hscan
      obtain ⟨g, rest, pos, k, hrest, hk, hscan⟩ := (ih m (hm.trans hn)).1 hscan
      refine ⟨max f g + 1, child :: rest, pos, k, ?_, hk.trans hm, hscan⟩
      exact childLoop_eq_ok_iff.mpr (.inr ⟨stop, child, mid, rest, htag,
        returns_mono.1 (le_max_left _ _) hchild, returns_mono.2 (le_max_right _ _) hrest, rfl⟩)
    constructor
    · intro start depth h
      cases tags with
      | zero => cases h
      | succ n =>
        rcases closesWithin_succ_iff.mp h with ⟨stop, htag, -, hscan⟩ |
          ⟨stop, key, next, htag, hkey, hscan⟩
        · exact ⟨1, [], afterClose xmlStr stop, n,
            childLoop_eq_ok_iff.mpr (.inl ⟨stop, htag, rfl, rfl⟩), Nat.lt_succ_self n, hscan⟩
        · obtain ⟨fuel, children, pos, k, hloop, hk, hscan⟩ :=
            hchildren (Nat.lt_succ_self n) htag hkey hscan
          exact ⟨fuel, children, pos, k, hloop, hk.trans (Nat.lt_succ_self n), hscan⟩
    · intro origin key start depth hkey h
      cases tags with
      | zero => cases h
      | succ n =>
        rcases closesWithin_succ_iff.mp h with ⟨stop, htag, hinside, hscan⟩ |
          ⟨stop, key', next, htag, hkey', hscan⟩
        · obtain ⟨value, hvalue⟩ := substr_eq_ok (hinside rfl)
          exact ⟨1, _, _, n, xmlToXmlTree_eq_ok_iff.mpr
            ⟨key, start, hkey, .inl ⟨stop, value, htag, hvalue, rfl, rfl⟩⟩,
            Nat.lt_succ_self n, hscan⟩
        · obtain ⟨fuel, children, pos, k, hloop, hk, hscan⟩ :=
            hchildren (Nat.lt_succ_self n) htag hkey' hscan
          exact ⟨fuel + 1, _, _, k, xmlToXmlTree_eq_ok_iff.mpr
            ⟨key, start, hkey, .inr ⟨stop, children, htag, hloop, rfl⟩⟩,
            hk.trans (Nat.lt_succ_self n), hscan⟩

/-- Where a call returns, the scan has closed one element more than the scan behind it. -/
theorem closes_of_returns (fuel : Nat) :
    (∀ {start children pos tags depth}, childLoop xmlStr fuel start = .ok (children, pos) →
      closesWithin xmlStr tags false pos depth = true →
      ∃ more, closesWithin xmlStr more false start (depth + 1) = true) ∧
    (∀ {origin node pos tags depth}, xmlToXmlTree xmlStr fuel origin = .ok (node, pos) →
      closesWithin xmlStr tags false pos depth = true →
      ∃ more key start, readKey xmlStr origin = .ok (key, start) ∧
        closesWithin xmlStr more true start (depth + 1) = true) := by
  induction fuel with
  | zero =>
    constructor
    · intro start children pos tags depth h
      cases h
    · intro origin node pos tags depth h
      cases h
  | succ fuel ih =>
    constructor
    · intro start children pos tags depth h hscan
      rcases childLoop_eq_ok_iff.mp h with ⟨stop, htag, -, rfl⟩ |
        ⟨stop, child, next, rest, htag, hchild, hrest, -⟩
      -- An end tag closes the element, and the rest is the scan that is given.
      · exact ⟨tags + 1, closesWithin_succ_iff.mpr (.inl ⟨stop, htag, by simp, hscan⟩)⟩
      -- A child is closed first, then what follows it.
      · obtain ⟨n, hscan⟩ := ih.1 hrest hscan
        obtain ⟨m, key, start', hkey, hscan⟩ := ih.2 hchild hscan
        exact ⟨m + 1, closesWithin_succ_iff.mpr (.inr ⟨stop, key, start', htag, hkey, hscan⟩)⟩
    · intro origin node pos tags depth h hscan
      obtain ⟨key, start, hkey, ⟨stop, value, htag, hvalue, -, rfl⟩ |
        ⟨stop, children, htag, hloop, -⟩⟩ := xmlToXmlTree_eq_ok_iff.mp h
      -- The element is closed by the end tag behind its text.
      · exact ⟨tags + 1, key, start, hkey, closesWithin_succ_iff.mpr
          (.inl ⟨stop, htag, fun _ => of_substr_eq_ok hvalue, hscan⟩)⟩
      · -- The loop reads the first tag again, so its scan is the scan behind the key.
        obtain ⟨n, hscan⟩ := ih.1 hloop hscan
        refine ⟨n, key, start, hkey, ?_⟩
        cases n with
        | zero => cases hscan
        | succ n =>
          rcases closesWithin_succ_iff.mp hscan with ⟨stop', htag', -⟩ | hopen
          · rw [htag] at htag'
            cases htag'
          · exact closesWithin_succ_iff.mpr (.inr hopen)

end

/-! ### `Deserialize` -/

/-- `Deserialize` returns: no index or `substr` is out of range, and the recursion ends. -/
def Returns (D : Type) (xmlStr : Str) : Prop :=
  ∃ fuel value, (deserialize fuel xmlStr : Except Fault (Option (Value D))) = .ok value

/-- The parser returns where the scan behind the first key closes the element of that key. -/
theorem returns_iff_closesWithin (D : Type) (xmlStr : Str) :
    Returns D xmlStr ↔ ∃ key start tags, readKey xmlStr 0 = .ok (key, start) ∧
      closesWithin xmlStr tags true start 1 = true := by
  constructor
  · rintro ⟨fuel, value, h⟩
    obtain ⟨⟨root, pos⟩, htree, -⟩ := bind_eq_ok_iff.mp h
    obtain ⟨tags, key, start, hkey, hscan⟩ :=
      (closes_of_returns fuel).2 htree (closesWithin_zero 0 false pos)
    exact ⟨key, start, tags, hkey, hscan⟩
  · rintro ⟨key, start, tags, hkey, hscan⟩
    obtain ⟨fuel, root, pos, -, htree, -⟩ := (returns_of_closes tags).2 hkey hscan
    exact ⟨fuel, mergeTree root, bind_eq_ok_iff.mpr ⟨(root, pos), htree, rfl⟩⟩

/-! ### Texts without an end tag -/

/-- Reading behind a position is reading in what is left. -/
theorem deref_drop {xmlStr rest : Str} {n : Nat} {b : UInt8} (hn : n ≤ xmlStr.length)
    (h : xmlStr.drop n = b :: rest) : deref xmlStr (n + 1) = deref rest 0 := by
  have hsplit : xmlStr = xmlStr.take n ++ b :: rest := by rw [← h, List.take_append_drop]
  have hlen : (xmlStr.take n).length = n := List.length_take_of_le hn
  calc deref xmlStr (n + 1)
      = deref (xmlStr.take n ++ b :: rest) ((xmlStr.take n).length + 1) := by rw [hlen, ← hsplit]
    _ = deref rest 0 := by rw [deref_append, deref_cons_succ]

/-- A slash behind what `find('<')` returns belongs to an end tag, or the search has failed
and the slash is the first character of the text. -/
theorem endTag_of_slash {xmlStr : Str} (hlen : xmlStr.length < 2 ^ 31) {start : Int}
    (h : charAt xmlStr (int32 (find '<' xmlStr start + 1)) = .ok 47) :
    xmlStr.head? = some 47 ∨ [60, 47] <:+: xmlStr := by
  unfold charAt at h
  -- Without a further `<` the position is `-1`, and the character looked at is the first one.
  rcases findWhere_cases (p := (text ['<']).isPrefixOf) hlen start with hnone | ⟨n, hn, hlt, hp⟩
  · left
    have hzero : sizeT (int32 (find '<' xmlStr start + 1)) = 0 := by
      unfold find
      rw [hnone]
      rfl
    rw [hzero] at h
    cases xmlStr with
    | nil => cases h
    | cons c str =>
      rw [deref_cons_zero] at h
      rw [List.head?_cons, Except.ok.inj h]
  · right
    have hnext : sizeT (int32 (find '<' xmlStr start + 1)) = n + 1 := by
      unfold find
      rw [hn, int32_of_fits (by omega) (by omega)]
      exact_mod_cast sizeT_natCast (n := n + 1) (by omega)
    rw [hnext] at h
    obtain ⟨rest, hrest⟩ := List.isPrefixOf_iff_prefix.mp hp
    have hdrop : xmlStr.drop n = 60 :: rest := hrest.symm
    rw [deref_drop hlt.le hdrop] at h
    cases rest with
    | nil => cases h
    | cons c rest =>
      rw [deref_cons_zero] at h
      rw [Except.ok.inj h] at hdrop
      refine List.IsInfix.trans ⟨[], rest, ?_⟩ (List.drop_suffix n xmlStr).isInfix
      rw [hdrop]
      rfl

/-- Where no `</` stands, and no slash in front of the first character, no tag is an end tag. -/
theorem eq_false_of_nextTag {xmlStr : Str} (hlen : xmlStr.length < 2 ^ 31)
    (hfirst : xmlStr.head? ≠ some 47) (hnone : ¬[60, 47] <:+: xmlStr) {start stop : Int}
    {closing : Bool} (h : nextTag xmlStr start = .ok (stop, closing)) : closing = false := by
  have hslash : ∀ {start c}, charAt xmlStr (int32 (find '<' xmlStr start + 1)) = .ok c →
      ¬[c] = text ['/'] := by
    intro start c hc heq
    rw [show c = 47 from List.head_eq_of_cons_eq heq] at hc
    exact (endTag_of_slash hlen hc).elim hfirst hnone
  unfold nextTag at h
  obtain ⟨c, hc, h⟩ := bind_eq_ok_iff.mp h
  rw [if_neg (hslash hc)] at h
  split_ifs at h with hcdata
  · obtain ⟨c', hc', h⟩ := bind_eq_ok_iff.mp h
    have hno : decide ([c'] = text ['/']) = false := decide_eq_false (hslash hc')
    rw [hno] at h
    cases h
    rfl
  · cases h
    rfl

/-- A text without an end tag, and without a slash at its beginning, is never read to an
end. -/
theorem not_returns_of_no_endTag {D : Type} {xmlStr : Str} (hlen : xmlStr.length < 2 ^ 31)
    (hfirst : xmlStr.head? ≠ some 47) (hnone : ¬[60, 47] <:+: xmlStr) :
    ¬Returns D xmlStr := by
  have hopen : ∀ tags behindKey start depth,
      closesWithin xmlStr tags behindKey start (depth + 1) ≠ true := by
    intro tags
    induction tags with
    | zero =>
      intro behindKey start depth h
      cases h
    | succ tags ih =>
      intro behindKey start depth h
      rcases closesWithin_succ_iff.mp h with ⟨stop, htag, -⟩ | ⟨stop, key, next, -, -, hscan⟩
      · exact absurd (eq_false_of_nextTag hlen hfirst hnone htag) (by simp)
      · exact ih true next (depth + 1) hscan
  rintro ⟨fuel, value, h⟩
  obtain ⟨⟨root, pos⟩, htree, -⟩ := bind_eq_ok_iff.mp h
  obtain ⟨tags, key, start, -, hscan⟩ :=
    (closes_of_returns fuel).2 htree (closesWithin_zero 0 false pos)
  exact hopen tags true start 0 hscan

/-- The empty text throws in the first `substr`, and a start tag alone is searched for its
end tag for ever. -/
theorem not_returns_malformed :
    ¬Returns Empty [] ∧ ¬Returns Empty (text ['<', 'a', '>']) := by
  constructor
  · rintro ⟨fuel, value, h⟩
    cases fuel with
    | zero => cases h
    | succ fuel => cases h
  · exact not_returns_of_no_endTag (by decide) (by decide) (by decide)

end Mylib.Proofs.Base.Xml
