import Mylib.Lib.Climb
import Mylib.Proofs.Base.XmlCdata

/-!
# `Mylib.Proofs.Base.XmlTags`: the tags that let the XML parser return

`scan` reads the tags of a text from left to right, without looking at what the parser does.
Outside of a tag a `<` begins one, an end tag if a `/` follows. A `<![CDATA[` that begins less than
eight characters behind the place where the reading left the last tag is no tag, and the next `<`
behind it begins one in any case. Inside a tag the reading looks for a `>`.

The parser comes to the end of a text when a `find` fails, and then it goes on at the beginning
(`reading`). Where it was outside of a tag, the failed search counts for one more tag, an end tag if
the text begins with a `/`, and the next reading begins inside of it; otherwise the next reading
begins outside of a tag. The three readings behind the first one are enough, since after them all
repeats (`Mylib.Lib.Climb`).

* `TagsClose`: there have been more end tags than start tags at some point.
* `returns_iff_tagsClose`: this is when `Deserialize` returns.
-/

set_option autoImplicit false

namespace Mylib.Proofs.Base.Xml.Tags

open Mylib.Lib.Climb
open Mylib.Lib.CString hiding charAt
open Mylib.Spec.Base
open XmlReader StringUtil

/-! ### The reading of the tags -/

/-- Where the reading is: `k` characters behind the last tag, behind a `<![CDATA[`, or inside of
a tag. -/
inductive Place where
  | outside (k : Nat)
  | cdata
  | inside
  deriving DecidableEq, Repr

/-- The reading of one character, with the text behind it: the tag that it begins, if it does, and
the next place. `true` is an end tag. -/
def read : Place → UInt8 → Str → Option Bool × Place
  | .outside k, c, rest =>
    if c ≠ 60 then (none, .outside (k + 1))
    else if rest.headD 0 = 47 then (some true, .inside)
    else if k < 8 ∧ text ['!', '[', 'C', 'D', 'A', 'T', 'A', '['] <+: rest then (none, .cdata)
    else (some false, .inside)
  | .cdata, c, rest =>
    if c ≠ 60 then (none, .cdata) else (some (rest.headD 0 = 47), .inside)
  | .inside, c, _ => if c ≠ 62 then (none, .inside) else (none, .outside 0)

/-- The tags of a text that begins at the position `i`, with their positions, and the place at its
end. -/
def scan : Place → Nat → Str → List (Nat × Bool) × Place
  | place, _, [] => ([], place)
  | place, i, c :: str =>
    let (tag, next) := read place c str
    let (tags, last) := scan next (i + 1) str
    (tag.toList.map (i, ·) ++ tags, last)

/-- An end tag counts up, a start tag down. -/
def weight (closing : Bool) : Int := if closing then 1 else -1

/-- What the tags of a part of the text `xmlStr`, up to its end, count, with the one of a failed
search. -/
def counts (xmlStr : Str) (scanned : List (Nat × Bool) × Place) : List Int :=
  scanned.1.map (fun tag => weight tag.2) ++
    if scanned.2 = .inside then [] else [weight (xmlStr.headD 0 = 47)]

/-- Where the next reading begins. -/
def again (scanned : List (Nat × Bool) × Place) : Place :=
  if scanned.2 = .inside then .outside 0 else .inside

/-- The first reading begins inside of the tag that the first character is taken for. -/
def firstReading (xmlStr : Str) : List (Nat × Bool) × Place := scan .inside 1 xmlStr.tail

/-- A reading from the beginning. -/
def reading (xmlStr : Str) (place : Place) : List (Nat × Bool) × Place := scan place 0 xmlStr

/-- At some point of the four readings there have been more end tags than start tags, or the last
two of them, which are repeated for ever, have more end tags. -/
def RepeatedClose (xmlStr : Str) : Prop :=
  let first := firstReading xmlStr
  let second := reading xmlStr (again first)
  let third := reading xmlStr (again second)
  let fourth := reading xmlStr (again third)
  let period := counts xmlStr third ++ counts xmlStr fourth
  Climbs 0 (counts xmlStr first ++ (counts xmlStr second ++ period)) ∨ 0 < period.sum

/-- What the tags count that begin at positions up to `2 ^ 31 - 2`. -/
def fitting (tags : List (Nat × Bool)) : List Int :=
  (tags.takeWhile fun tag => tag.1 + 1 < 2 ^ 31).map fun tag => weight tag.2

/-- There have been more end tags in the first reading up to the position `2 ^ 31 - 2`, and no
`<![CDATA[` stands where `find` does not fit an `int`. -/
def FirstClose (xmlStr : Str) : Prop :=
  ¬cdata <:+: xmlStr.drop (2 ^ 31) ∧ Climbs 0 (fitting (firstReading xmlStr).1)

/-- The tags of the text close the element of its first key. -/
def TagsClose (xmlStr : Str) : Prop :=
  xmlStr ≠ [] ∧ if xmlStr.length < 2 ^ 31 then RepeatedClose xmlStr else FirstClose xmlStr

instance (xmlStr : Str) : Decidable (RepeatedClose xmlStr) :=
  inferInstanceAs (Decidable (Climbs 0 _ ∨ 0 < List.sum _))

instance (xmlStr : Str) : Decidable (FirstClose xmlStr) :=
  inferInstanceAs (Decidable (¬cdata <:+: _ ∧ Climbs 0 _))

instance (xmlStr : Str) : Decidable (TagsClose xmlStr) :=
  inferInstanceAs (Decidable (xmlStr ≠ [] ∧ ite _ _ _))

/-! ### A stretch without a tag -/

section

variable {mid rest str : Str} {place : Place} {i : Nat}

/-- A character that begins no tag. -/
theorem scan_cons_none {c : UInt8} {next : Place} (h : read place c str = (none, next)) :
    scan place i (c :: str) = scan next (i + 1) str := by
  rw [scan, h]
  rfl

/-- A character that begins a tag. -/
theorem scan_cons_some {c : UInt8} {closing : Bool} {next : Place}
    (h : read place c str = (some closing, next)) :
    scan place i (c :: str)
      = ((i, closing) :: (scan next (i + 1) str).1, (scan next (i + 1) str).2) := by
  rw [scan, h]
  rfl

/-- Outside of a tag, up to the next `<`, only the distance from the last one counts. -/
theorem scan_outside_append (k : Nat) (hmid : 60 ∉ mid) :
    scan (.outside k) i (mid ++ rest) = scan (.outside (k + mid.length)) (i + mid.length) rest := by
  induction mid generalizing k i with
  | nil => rfl
  | cons c mid ih =>
    obtain ⟨hc, hmid⟩ := not_or.mp (List.mem_cons.not.mp hmid)
    have hread : read (.outside k) c (mid ++ rest) = (none, .outside (k + 1)) :=
      if_pos (Ne.symm hc)
    rw [List.cons_append, scan_cons_none hread, ih (k + 1) hmid, List.length_cons,
      Nat.add_right_comm k, Nat.add_right_comm i, Nat.add_assoc k, Nat.add_assoc i]

/-- Outside of a tag, up to the end of the text. -/
theorem scan_outside_end (k : Nat) (hmid : 60 ∉ mid) :
    scan (.outside k) i mid = ([], .outside (k + mid.length)) := by
  rw [← List.append_nil mid, scan_outside_append k hmid, List.append_nil]
  rfl

/-- In a CDATA section a text without a `<` is passed. -/
theorem scan_cdata_append (hmid : 60 ∉ mid) :
    scan .cdata i (mid ++ rest) = scan .cdata (i + mid.length) rest := by
  induction mid generalizing i with
  | nil => rfl
  | cons c mid ih =>
    obtain ⟨hc, hmid⟩ := not_or.mp (List.mem_cons.not.mp hmid)
    have hread : read .cdata c (mid ++ rest) = (none, .cdata) := if_pos (Ne.symm hc)
    rw [List.cons_append, scan_cons_none hread, ih hmid, List.length_cons,
      Nat.add_right_comm i, Nat.add_assoc i]

/-- In a CDATA section a text without a `<` may be the last. -/
theorem scan_cdata_end (hmid : 60 ∉ mid) : scan .cdata i mid = ([], .cdata) := by
  rw [← List.append_nil mid, scan_cdata_append hmid]
  rfl

/-- Inside of a tag everything up to the `>` is passed. -/
theorem scan_inside_append (hmid : 62 ∉ mid) :
    scan .inside i (mid ++ rest) = scan .inside (i + mid.length) rest := by
  induction mid generalizing i with
  | nil => rfl
  | cons c mid ih =>
    obtain ⟨hc, hmid⟩ := not_or.mp (List.mem_cons.not.mp hmid)
    have hread : read .inside c (mid ++ rest) = (none, .inside) := if_pos (Ne.symm hc)
    rw [List.cons_append, scan_cons_none hread, ih hmid, List.length_cons,
      Nat.add_right_comm i, Nat.add_assoc i]

/-- Inside of a tag a text without a `>` may be the last. -/
theorem scan_inside_end (hmid : 62 ∉ mid) : scan .inside i mid = ([], .inside) := by
  rw [← List.append_nil mid, scan_inside_append hmid]
  rfl

/-- The tags stand where the text does. -/
theorem mem_scan_bounds {tag : Nat × Bool} (h : tag ∈ (scan place i str).1) :
    i ≤ tag.1 ∧ tag.1 < i + str.length := by
  induction str generalizing place i with
  | nil => exact absurd h List.not_mem_nil
  | cons c str ih =>
    rw [List.length_cons]
    cases hread : read place c str with
    | mk found next =>
      cases found with
      | none =>
        rw [scan_cons_none hread] at h
        have hrest := ih h
        omega
      | some closing =>
        rw [scan_cons_some hread] at h
        rcases List.mem_cons.mp h with rfl | h
        · exact ⟨le_rfl, by simp⟩
        · have hrest := ih h
          omega

end

/-! ### The searches -/

/-- The eight characters of a `<![CDATA[` behind its `<`. -/
theorem cdata_eq_cons : cdata = 60 :: text ['!', '[', 'C', 'D', 'A', 'T', 'A', '['] := rfl

/-- A character that does not follow is not found. -/
theorem find_eq_neg_one {c : Char} {b : UInt8} {xmlStr : Str} {start : Int} (hb : text [c] = [b])
    (h : b ∉ xmlStr.drop (sizeT start)) : find c xmlStr start = -1 := by
  unfold find findWhere
  rw [hb]
  cases hfirst : firstWhere (List.isPrefixOf [b]) (xmlStr.drop (sizeT start)) with
  | none => rfl
  | some i =>
    obtain ⟨-, hbegins⟩ := firstWhere_eq_some hfirst
    have hmem := (List.isPrefixOf_iff_prefix.mp hbegins).subset (List.mem_singleton_self b)
    exact absurd (List.mem_of_mem_drop hmem) h

/-- What the search for a `<![CDATA[` returns, where no later one is cut to an earlier position. -/
theorem findCdata_cases {xmlStr : Str} (hcdata : ¬cdata <:+: xmlStr.drop (2 ^ 31)) {start : Nat}
    (hstart : start < 2 ^ 32) : findCdata xmlStr start = -1 ∨
      ∃ n : Nat, findCdata xmlStr start = n ∧ start ≤ n ∧ cdata <+: xmlStr.drop n := by
  unfold findCdata findWhere
  rw [sizeT_natCast hstart]
  cases hfirst : firstWhere cdata.isPrefixOf (xmlStr.drop start) with
  | none => exact .inl rfl
  | some i =>
    obtain ⟨-, hbegins⟩ := firstWhere_eq_some hfirst
    rw [List.drop_drop, List.isPrefixOf_iff_prefix] at hbegins
    have hlt : start + i < 2 ^ 31 := by
      by_contra hge
      have hsuffix : xmlStr.drop (start + i) <:+ xmlStr.drop (2 ^ 31) := by
        rw [show start + i = 2 ^ 31 + (start + i - 2 ^ 31) by omega, ← List.drop_drop]
        exact List.drop_suffix _ _
      exact hcdata (hbegins.isInfix.trans hsuffix.isInfix)
    exact .inr ⟨start + i, int32_natCast hlt, Nat.le_add_right _ _, hbegins⟩

/-- A short text has nothing behind the positions that fit. -/
theorem not_cdata_of_short {xmlStr : Str} (h : xmlStr.length < 2 ^ 31) :
    ¬cdata <:+: xmlStr.drop (2 ^ 31) := by
  rw [List.drop_of_length_le h.le]
  intro hinfix
  exact absurd (List.infix_nil.mp hinfix) (by decide)

section

variable {pre str : Str} {j : Nat} {closing : Bool} {more : List (Nat × Bool)} {last : Place}

/-- The comparison with a slash, on the code. -/
theorem slash_iff (c : UInt8) : [c] = text ['/'] ↔ c = 47 := by
  simp [text]

/-- The same as a decision. -/
theorem decide_slash (c : UInt8) : decide ([c] = text ['/']) = decide (c = 47) :=
  decide_eq_decide.mpr (slash_iff c)

/-- The three ways to read a `<` outside of a tag. -/
theorem read_cases (k : Nat) (rest : Str) :
    (rest.headD 0 = 47 ∧ read (.outside k) 60 rest = (some true, .inside)) ∨
    (rest.headD 0 ≠ 47 ∧ (k < 8 ∧ text ['!', '[', 'C', 'D', 'A', 'T', 'A', '['] <+: rest) ∧
      read (.outside k) 60 rest = (none, .cdata)) ∨
    (rest.headD 0 ≠ 47 ∧ ¬(k < 8 ∧ text ['!', '[', 'C', 'D', 'A', 'T', 'A', '['] <+: rest) ∧
      read (.outside k) 60 rest = (some false, .inside)) := by
  have hlt : ¬(60 : UInt8) ≠ 60 := fun h => h rfl
  rw [read, if_neg hlt]
  by_cases hslash : rest.headD 0 = 47
  · exact .inl ⟨hslash, if_pos hslash⟩
  · rw [if_neg hslash]
    by_cases hsection : k < 8 ∧ text ['!', '[', 'C', 'D', 'A', 'T', 'A', '['] <+: rest
    · exact .inr (.inl ⟨hslash, hsection, if_pos hsection⟩)
    · exact .inr (.inr ⟨hslash, hsection, if_neg hsection⟩)

/-- A `<![CDATA[` less than eight characters behind the place, and the tag behind it. -/
theorem nextTag_behind_section {mid sec rest : Str} (hmid : 60 ∉ mid) (hshort : mid.length < 8)
    (hsec : 60 ∉ sec) (hlen : (pre ++ mid ++ cdata ++ sec ++ [60]).length < 2 ^ 31) :
    nextTag (pre ++ mid ++ cdata ++ (sec ++ 60 :: rest)) (pre.length : Nat)
      = .ok (((pre ++ mid ++ cdata ++ sec).length : Nat), decide (rest.headD 0 = 47)) := by
  obtain ⟨x, y, hxy, hx, hy⟩ := cdata_skip (Nat.le_of_lt_succ hshort)
  have hsplit : mid ++ cdata ++ (sec ++ 60 :: rest) = x ++ (y ++ sec) ++ 60 :: rest := by
    rw [hxy]
    simp
  have hpos : pre ++ x ++ (y ++ sec) = pre ++ mid ++ cdata ++ sec := by
    rw [List.append_assoc pre mid, hxy]
    simp
  rw [nextTag_cdata hsplit hx hmid (by simp [hy, hsec]) ?_ (by rw [hpos]; exact hlen), hpos,
    decide_slash]
  simp only [List.length_append, List.length_cons] at hlen ⊢
  omega

/-- A start tag, behind whose `<` neither a `/` nor a section that counts follows. -/
theorem nextTag_startTag {mid rest : Str} (hcdata : ¬cdata <:+: (pre ++ mid ++ 60 :: rest).drop
    (2 ^ 31)) (hmid : 60 ∉ mid) (hslash : rest.headD 0 ≠ 47)
    (hsection : ¬(mid.length < 8 ∧ text ['!', '[', 'C', 'D', 'A', 'T', 'A', '['] <+: rest))
    (hlen : (pre ++ mid ++ [60]).length < 2 ^ 31) :
    nextTag (pre ++ mid ++ 60 :: rest) (pre.length : Nat)
      = .ok (((pre ++ mid).length : Nat), false) := by
  by_cases hbegins : text ['!', '[', 'C', 'D', 'A', 'T', 'A', '['] <+: rest
  · -- The second search begins in front of the same `<`.
    obtain ⟨rest', rfl⟩ := hbegins
    have hfar : 8 ≤ mid.length := by
      by_contra hnear
      exact hsection ⟨not_le.mp hnear, List.prefix_append _ _⟩
    have hcut : mid.take 8 ++ mid.drop 8 = mid := List.take_append_drop 8 mid
    have hsplit : mid ++ cdata ++ rest' = mid.take 8 ++ mid.drop 8 ++
        60 :: (text ['!', '[', 'C', 'D', 'A', 'T', 'A', '['] ++ rest') := by
      rw [hcut, cdata_eq_cons]
      simp
    have hpos : pre ++ mid.take 8 ++ mid.drop 8 = pre ++ mid := by
      rw [List.append_assoc, hcut]
    have htext : pre ++ mid ++ 60 :: (text ['!', '[', 'C', 'D', 'A', 'T', 'A', '['] ++ rest')
        = pre ++ mid ++ cdata ++ rest' := by
      rw [cdata_eq_cons]
      simp
    rw [htext, nextTag_cdata hsplit (List.length_take_of_le hfar) hmid
      (fun h => hmid (List.mem_of_mem_drop h)) hlen (by rw [hpos]; exact hlen), hpos]
    rfl
  -- The text behind the `<` begins no section, so the marker is not found in its place.
  · refine nextTag_other hlen hmid hslash ?_
    intro heq
    have hstart : pre.length < 2 ^ 32 := by
      simp only [List.length_append] at hlen
      omega
    rcases findCdata_cases hcdata hstart with hnone | ⟨n, hn, -, hfound⟩
    · rw [hnone] at heq
      omega
    · rw [hn] at heq
      rw [Int.ofNat_inj.mp heq, List.drop_left, cdata_eq_cons] at hfound
      exact hbegins (List.cons_prefix_cons.mp hfound).2

/-- The next tag of the reading is the one that the parser finds. -/
theorem nextTag_found (hcdata : ¬cdata <:+: (pre ++ str).drop (2 ^ 31))
    (hscan : scan (.outside 0) pre.length str = ((j, closing) :: more, last))
    (hj : j + 1 < 2 ^ 31) :
    ∃ mid rest, str = mid ++ 60 :: rest ∧ j = (pre ++ mid).length ∧
      nextTag (pre ++ str) (pre.length : Nat) = .ok ((j : Nat), closing) ∧
      scan .inside (j + 1) rest = (more, last) := by
  -- A tag is found, so there is a `<`.
  have hmem : 60 ∈ str := by
    by_contra hnone
    rw [scan_outside_end 0 hnone] at hscan
    cases hscan
  obtain ⟨mid, rest, rfl, hmid⟩ := List.eq_append_cons_of_mem hmem
  have hat : pre.length + mid.length = (pre ++ mid).length := (List.length_append).symm
  rw [scan_outside_append 0 hmid, Nat.zero_add, hat] at hscan
  rw [← List.append_assoc] at hcdata ⊢
  rcases read_cases mid.length rest with ⟨hslash, hread⟩ | ⟨hslash, ⟨hshort, hbegins⟩, hread⟩ |
    ⟨hslash, hsection, hread⟩
  · -- An end tag.
    rw [scan_cons_some hread] at hscan
    obtain ⟨htags, hlast⟩ := Prod.mk.inj hscan
    obtain ⟨htag, hmore⟩ := List.cons.inj htags
    obtain ⟨rfl, rfl⟩ := Prod.mk.inj htag
    have hlen : (pre ++ mid ++ [60]).length < 2 ^ 31 := by
      rw [List.length_append]
      exact hj
    obtain ⟨rest', rfl⟩ : ∃ rest', rest = 47 :: rest' := by
      cases rest with
      | nil => exact absurd hslash (by decide)
      | cons c rest' => exact ⟨rest', by rw [show c = 47 from hslash]⟩
    exact ⟨mid, _, rfl, rfl, nextTag_slash hlen hmid, Prod.ext hmore hlast⟩
  · -- A section, which is passed over.
    obtain ⟨behind, rfl⟩ := hbegins
    rw [scan_cons_none hread, scan_cdata_append (by decide)] at hscan
    have hmem' : 60 ∈ behind := by
      by_contra hnone
      rw [scan_cdata_end hnone] at hscan
      cases hscan
    obtain ⟨sec, rest, rfl, hsec⟩ := List.eq_append_cons_of_mem hmem'
    have hread' : read .cdata 60 rest = (some (decide (rest.headD 0 = 47)), .inside) := by
      rw [read, if_neg (fun h => h rfl)]
    have hpos : (pre ++ mid).length + 1
        + (text ['!', '[', 'C', 'D', 'A', 'T', 'A', '[']).length + sec.length
        = (pre ++ mid ++ cdata ++ sec).length := by
      rw [cdata_eq_cons]
      simp
      omega
    rw [scan_cdata_append hsec, scan_cons_some hread', hpos] at hscan
    obtain ⟨htags, hlast⟩ := Prod.mk.inj hscan
    obtain ⟨htag, hmore⟩ := List.cons.inj htags
    obtain ⟨rfl, rfl⟩ := Prod.mk.inj htag
    have hlen : (pre ++ mid ++ cdata ++ sec ++ [60]).length < 2 ^ 31 := by
      rw [List.length_append]
      exact hj
    refine ⟨mid ++ cdata ++ sec, rest, ?_, ?_, ?_, Prod.ext hmore hlast⟩
    · rw [cdata_eq_cons]
      simp
    · simp
    · rw [← nextTag_behind_section hmid hshort hsec hlen, cdata_eq_cons]
      simp
  · -- A start tag.
    rw [scan_cons_some hread] at hscan
    obtain ⟨htags, hlast⟩ := Prod.mk.inj hscan
    obtain ⟨htag, hmore⟩ := List.cons.inj htags
    obtain ⟨rfl, rfl⟩ := Prod.mk.inj htag
    have hlen : (pre ++ mid ++ [60]).length < 2 ^ 31 := by
      rw [List.length_append]
      exact hj
    exact ⟨mid, rest, rfl, rfl, nextTag_startTag hcdata hmid hslash hsection hlen,
      Prod.ext hmore hlast⟩

/-- The character looked at where a search has failed is the first one of the text. -/
theorem charAt_unfound (xmlStr : Str) :
    XmlReader.charAt xmlStr (int32 (-1 + 1)) = .ok (xmlStr.headD 0) := deref_zero _

/-- No `<` is left, so neither search finds one. -/
theorem nextTag_of_not_mem (hlen : (pre ++ str).length < 2 ^ 31) (hmem : 60 ∉ str) :
    nextTag (pre ++ str) (pre.length : Nat) = .ok (-1, decide ((pre ++ str).headD 0 = 47)) := by
  have hangle : text ['<'] = [60] := rfl
  have hpre : pre.length < 2 ^ 31 := by
    rw [List.length_append] at hlen
    omega
  -- Neither search finds a `<`, and the marker has one, too.
  have hfind : find '<' (pre ++ str) (pre.length : Nat) = -1 := by
    refine find_eq_neg_one hangle ?_
    rwa [sizeT_natCast (by omega), List.drop_left]
  have hfar : pre.length ≤ sizeT (int32 ((pre.length : Nat) + 8)) := by
    unfold sizeT int32
    rw [Int.bmod_def]
    split_ifs <;> omega
  have hagain : find '<' (pre ++ str) (int32 ((pre.length : Nat) + 8)) = -1 := by
    refine find_eq_neg_one hangle ?_
    rw [List.drop_append, List.drop_of_length_le hfar, List.nil_append]
    exact fun h => hmem (List.mem_of_mem_drop h)
  have hnone : findCdata (pre ++ str) (pre.length : Nat) = -1 := by
    rcases findCdata_cases (not_cdata_of_short hlen) (show pre.length < 2 ^ 32 by omega) with
      hnone | ⟨n, -, hle, hfound⟩
    · exact hnone
    · rw [cdata_eq_cons, List.drop_append, List.drop_of_length_le hle, List.nil_append] at hfound
      exact absurd (List.mem_of_mem_drop (hfound.subset List.mem_cons_self)) hmem
  unfold nextTag
  dsimp only
  rw [hfind, charAt_unfound, ok_bind]
  by_cases hhead : (pre ++ str).headD 0 = 47
  · rw [hhead, if_pos ((slash_iff 47).mpr rfl)]
    rfl
  · rw [if_neg ((slash_iff _).not.mpr hhead), if_pos hnone, hagain, charAt_unfound, ← decide_slash]
    rfl

/-- A `<![CDATA[` that is passed over, and no `<` behind it. -/
theorem nextTag_open_section {mid behind : Str} (hmid : 60 ∉ mid) (hshort : mid.length < 8)
    (hbehind : 60 ∉ behind) (hlen : (pre ++ mid ++ cdata ++ behind).length < 2 ^ 31) :
    nextTag (pre ++ mid ++ cdata ++ behind) (pre.length : Nat)
      = .ok (-1, decide ((pre ++ mid ++ cdata ++ behind).headD 0 = 47)) := by
  obtain ⟨x, y, hxy, hx, hy⟩ := cdata_skip (Nat.le_of_lt_succ hshort)
  have hcut : pre ++ mid ++ cdata ++ behind = pre ++ x ++ (y ++ behind) := by
    rw [List.append_assoc pre mid, hxy]
    simp
  have hsame : pre ++ mid ++ 60 :: (text ['!', '[', 'C', 'D', 'A', 'T', 'A', '['] ++ behind)
      = pre ++ mid ++ cdata ++ behind := by
    rw [cdata_eq_cons]
    simp
  have hfits : (pre ++ mid ++ [60]).length < 2 ^ 31 := by
    rw [← hsame] at hlen
    simp only [List.length_append, List.length_cons, List.length_nil] at hlen ⊢
    omega
  have hpos : (pre ++ mid).length < 2 ^ 31 := by
    rw [List.length_append] at hfits
    omega
  have hpre : pre.length < 2 ^ 32 := by
    rw [List.length_append] at hpos
    omega
  obtain ⟨hfind, hbang⟩ := @find_tag pre mid
    (text ['!', '[', 'C', 'D', 'A', 'T', 'A', '['] ++ behind) hfits hmid
  rw [hsame] at hfind hbang
  have hfound := @findCdata_append pre mid behind hpre hmid hpos
  -- The second search begins inside of the section's beginning.
  have hcutLen : (pre ++ x).length + (y ++ behind).length < 2 ^ 31 := by
    rw [← List.length_append, ← hcut]
    exact hlen
  have hstart : int32 ((pre.length : Nat) + 8) = ((pre ++ x).length : Nat) := by
    rw [List.length_append] at hcutLen ⊢
    rw [int32_of_fits (by omega) (by omega), hx]
    simp
  have hagain : find '<' (pre ++ mid ++ cdata ++ behind) (int32 ((pre.length : Nat) + 8))
      = -1 := by
    have hfit : (pre ++ x).length < 2 ^ 32 :=
      ((Nat.le_add_right _ _).trans_lt hcutLen).trans (by decide)
    refine find_eq_neg_one (show text ['<'] = [60] from rfl) ?_
    rw [hstart, sizeT_natCast hfit, hcut, List.drop_left, List.mem_append]
    exact not_or.mpr ⟨hy, hbehind⟩
  have hslash : ¬[(text ['!', '[', 'C', 'D', 'A', 'T', 'A', '['] ++ behind).headD 0]
      = text ['/'] := by
    rw [slash_iff]
    exact (by decide : ¬(33 : UInt8) = 47)
  unfold nextTag
  dsimp only
  rw [hfind, hbang, ok_bind, if_neg hslash, if_pos hfound, hagain, charAt_unfound, ← decide_slash]
  rfl

/-- Where the reading comes to the end of a short text without a tag, the search fails. -/
theorem nextTag_unfound (hlen : (pre ++ str).length < 2 ^ 31)
    (hscan : scan (.outside 0) pre.length str = ([], last)) :
    last ≠ .inside ∧ nextTag (pre ++ str) (pre.length : Nat)
      = .ok (-1, decide ((pre ++ str).headD 0 = 47)) := by
  -- A `<` that begins no tag opens a section that is not closed.
  by_cases hmem : 60 ∈ str
  · obtain ⟨mid, rest, rfl, hmid⟩ := List.eq_append_cons_of_mem hmem
    rw [scan_outside_append 0 hmid, Nat.zero_add] at hscan
    rcases read_cases mid.length rest with ⟨-, hread⟩ | ⟨-, ⟨hshort, hbegins⟩, hread⟩ |
      ⟨-, -, hread⟩
    · rw [scan_cons_some hread] at hscan
      cases hscan
    · obtain ⟨behind, rfl⟩ := hbegins
      rw [scan_cons_none hread, scan_cdata_append (by decide)] at hscan
      have hbehind : 60 ∉ behind := by
        intro hmem'
        obtain ⟨sec, rest, rfl, hsec⟩ := List.eq_append_cons_of_mem hmem'
        have hread' : read .cdata 60 rest = (some (decide (rest.headD 0 = 47)), .inside) := by
          rw [read, if_neg (fun h => h rfl)]
        rw [scan_cdata_append hsec, scan_cons_some hread'] at hscan
        cases hscan
      rw [scan_cdata_end hbehind] at hscan
      have hlast : Place.cdata = last := (Prod.mk.inj hscan).2
      have htext : pre ++ (mid ++ 60 :: (text ['!', '[', 'C', 'D', 'A', 'T', 'A', '['] ++ behind))
          = pre ++ mid ++ cdata ++ behind := by
        rw [cdata_eq_cons]
        simp
      rw [htext] at hlen ⊢
      exact ⟨by simp [← hlast], nextTag_open_section hmid hshort hbehind hlen⟩
    · rw [scan_cons_some hread] at hscan
      cases hscan
  · rw [scan_outside_end 0 hmem] at hscan
    have hlast : .outside (0 + str.length) = last := (Prod.mk.inj hscan).2
    exact ⟨by simp [← hlast], nextTag_of_not_mem hlen hmem⟩

/-! ### The end of a tag -/

/-- A tag ends at the next `>`, and the parser goes on behind it. -/
theorem key_found {mid : Str} (rest : Str) {stop : Int}
    (hstop : int32 (stop + 1) = (pre.length : Nat)) (hmid : 62 ∉ mid)
    (hlen : (pre ++ mid ++ [62]).length < 2 ^ 31) :
    readKey (pre ++ mid ++ 62 :: rest) stop = .ok (mid, ((pre ++ mid ++ [62]).length : Nat)) ∧
      afterClose (pre ++ mid ++ 62 :: rest) stop = ((pre ++ mid ++ [62]).length : Nat) := by
  have hpos : (pre ++ mid).length < 2 ^ 31 := by
    rw [List.length_append] at hlen
    omega
  have hfind : find '>' (pre ++ mid ++ 62 :: rest) (pre.length : Nat) = (pre ++ mid).length :=
    find_append (by decide) hpos hmid
  constructor
  · unfold readKey
    dsimp only
    rw [hstop, hfind, substr_between hpos, int32_next hlen]
    rfl
  · unfold afterClose
    rw [hstop, hfind, int32_next hlen]

/-- Without a `>` it goes on at the beginning of the text. -/
theorem key_unfound {stop : Int} (hstop : int32 (stop + 1) = (pre.length : Nat))
    (hmem : 62 ∉ str) (hlen : pre.length < 2 ^ 32) :
    (∃ key, readKey (pre ++ str) stop = .ok (key, 0)) ∧ afterClose (pre ++ str) stop = 0 := by
  have hfind : find '>' (pre ++ str) (pre.length : Nat) = -1 := by
    refine find_eq_neg_one (show text ['>'] = [62] from rfl) ?_
    rwa [sizeT_natCast hlen, List.drop_left]
  have hinside : sizeT (pre.length : Nat) ≤ (pre ++ str).length := by
    rw [sizeT_natCast hlen, List.length_append]
    exact Nat.le_add_right _ _
  constructor
  · obtain ⟨key, hkey⟩ : ∃ key, substr (pre ++ str) (pre.length : Nat)
        (int32 (-1 - (pre.length : Nat))) = .ok key := substr_eq_ok hinside
    refine ⟨key, ?_⟩
    unfold readKey
    dsimp only
    rw [hstop, hfind, hkey]
    rfl
  · unfold afterClose
    rw [hstop, hfind]
    rfl

/-- The `>` ends a tag. -/
theorem scan_inside_found {mid rest : Str} (hmid : 62 ∉ mid) :
    scan .inside pre.length (mid ++ 62 :: rest)
      = scan (.outside 0) (pre ++ mid ++ [62]).length rest := by
  have hread : read .inside 62 rest = (none, .outside 0) := by
    rw [read, if_neg (fun h => h rfl)]
  rw [scan_inside_append hmid, scan_cons_none hread, List.length_append, List.length_append,
    List.length_singleton]

end

/-! ### The readings one after the other -/

/-- What the tags count in the next `n` readings, the first of which has been begun. -/
def stream (xmlStr : Str) : Nat → List (Nat × Bool) × Place → List Int
  | 0, _ => []
  | n + 1, scanned => counts xmlStr scanned ++ stream xmlStr n (reading xmlStr (again scanned))

section

variable {xmlStr : Str}

/-- One tag of the first reading. -/
theorem stream_cons (n : Nat) (tag : Nat × Bool) (more : List (Nat × Bool)) (last : Place) :
    stream xmlStr (n + 1) (tag :: more, last)
      = weight tag.2 :: stream xmlStr (n + 1) (more, last) := rfl

/-- The reading ends with a search that fails. -/
theorem stream_unfound (n : Nat) {last : Place} (h : last ≠ .inside) :
    stream xmlStr (n + 1) ([], last)
      = weight (xmlStr.headD 0 = 47) :: stream xmlStr n (reading xmlStr .inside) := by
  rw [stream, counts, again, if_neg h, if_neg h]
  rfl

/-- More readings only add to it. -/
theorem climbs_stream_le {c : Int} {m n : Nat} (hle : m ≤ n) {scanned : List (Nat × Bool) × Place}
    (h : Climbs c (stream xmlStr m scanned)) : Climbs c (stream xmlStr n scanned) := by
  induction m generalizing c n scanned with
  | zero => exact .of_neg h _
  | succ m ih =>
    obtain ⟨n, rfl⟩ : ∃ k, n = k + 1 := ⟨n - 1, by omega⟩
    rw [stream, climbs_append_iff] at h ⊢
    exact h.imp_right (ih (Nat.le_of_succ_le_succ hle))

/-- From a place inside of a tag to the place behind it, in the parser and in the readings. -/
theorem key_step (hlen : xmlStr.length < 2 ^ 31) {pre str : Str} (hsplit : pre ++ str = xmlStr)
    {stop : Int} (hstop : int32 (stop + 1) = (pre.length : Nat)) :
    ∃ pre' str' key, pre' ++ str' = xmlStr ∧
      readKey xmlStr stop = .ok (key, (pre'.length : Nat)) ∧
      afterClose xmlStr stop = (pre'.length : Nat) ∧
      (∀ n, ∃ m, stream xmlStr n (scan .inside pre.length str)
        = stream xmlStr m (scan (.outside 0) pre'.length str')) ∧
      ∀ n, ∃ m, stream xmlStr (m + 1) (scan .inside pre.length str)
        = stream xmlStr (n + 1) (scan (.outside 0) pre'.length str') := by
  -- The tag ends at a `>` of the text.
  by_cases hmem : 62 ∈ str
  · obtain ⟨mid, rest, rfl, hmid⟩ := List.eq_append_cons_of_mem hmem
    have hwhole : pre ++ mid ++ 62 :: rest = xmlStr := by rw [← hsplit, List.append_assoc]
    have hfits : (pre ++ mid ++ [62]).length < 2 ^ 31 := by
      rw [← hwhole] at hlen
      simp only [List.length_append, List.length_cons, List.length_nil] at hlen ⊢
      omega
    obtain ⟨hkey, hclose⟩ := key_found rest hstop hmid hfits
    rw [hwhole] at hkey hclose
    have hscan : scan .inside pre.length (mid ++ 62 :: rest)
        = scan (.outside 0) (pre ++ mid ++ [62]).length rest := scan_inside_found hmid
    refine ⟨pre ++ mid ++ [62], rest, mid, by simp [← hwhole], hkey, hclose, fun n => ⟨n, ?_⟩,
      fun n => ⟨n, ?_⟩⟩
    · rw [hscan]
    · rw [hscan]
  -- Without one the search fails, and the parser goes on at the beginning.
  · have hpre : pre.length < 2 ^ 32 := by
      rw [← hsplit, List.length_append] at hlen
      omega
    obtain ⟨⟨key, hkey⟩, hclose⟩ := key_unfound hstop hmem hpre
    rw [hsplit] at hkey hclose
    rw [scan_inside_end hmem]
    refine ⟨[], xmlStr, key, rfl, hkey, hclose, fun n => ?_, fun n => ⟨n + 1, rfl⟩⟩
    cases n with
    | zero => exact ⟨0, rfl⟩
    | succ n => exact ⟨n, rfl⟩

/-- From a place outside of a tag to the place inside of the next one. -/
theorem tag_step (hlen : xmlStr.length < 2 ^ 31) {pre str : Str} (hsplit : pre ++ str = xmlStr) :
    ∃ stop closing pre' str', pre' ++ str' = xmlStr ∧ int32 (stop + 1) = (pre'.length : Nat) ∧
      nextTag xmlStr (pre.length : Nat) = .ok (stop, closing) ∧
      (∀ n, ∃ m, stream xmlStr (n + 1) (scan (.outside 0) pre.length str)
        = weight closing :: stream xmlStr m (scan .inside pre'.length str')) ∧
      ∀ n, ∃ m, stream xmlStr m (scan (.outside 0) pre.length str)
        = weight closing :: stream xmlStr (n + 1) (scan .inside pre'.length str') := by
  cases hscan : scan (.outside 0) pre.length str with
  | mk tags last =>
    cases tags with
    | nil =>
      -- The search fails, and the next tag is taken to begin in front of the text.
      obtain ⟨hlast, htag⟩ := nextTag_unfound (by rwa [hsplit]) hscan
      rw [hsplit] at htag
      refine ⟨-1, _, [], xmlStr, rfl, rfl, htag, fun n => ⟨n, ?_⟩, fun n => ⟨n + 2, ?_⟩⟩
      · exact stream_unfound n hlast
      · exact stream_unfound (n + 1) hlast
    | cons tag more =>
      obtain ⟨j, closing⟩ := tag
      have hj : j + 1 ≤ xmlStr.length := by
        have hmem : (j, closing) ∈ (scan (.outside 0) pre.length str).1 := by
          rw [hscan]
          exact List.mem_cons_self
        have hbounds := mem_scan_bounds hmem
        rw [← hsplit, List.length_append]
        exact hbounds.2
      obtain ⟨mid, rest, rfl, rfl, htag, hrest⟩ :=
        nextTag_found (not_cdata_of_short (by rwa [hsplit])) hscan (by omega)
      rw [hsplit] at htag
      have hwhole : pre ++ mid ++ 60 :: rest = xmlStr := by rw [← hsplit, List.append_assoc]
      have hfits : (pre ++ mid ++ [60]).length < 2 ^ 31 := by
        rw [List.length_append]
        exact hj.trans_lt hlen
      have hat : (pre ++ mid ++ [60]).length = (pre ++ mid).length + 1 := List.length_append
      refine ⟨_, closing, pre ++ mid ++ [60], rest, by simp [← hwhole], int32_next hfits, htag,
        fun n => ⟨n + 1, ?_⟩, fun n => ⟨n + 1, ?_⟩⟩
      · rw [stream_cons, hat, hrest]
      · rw [stream_cons, hat, hrest]

/-- Both together: one tag of the parser and one of the readings. -/
theorem scan_step (hlen : xmlStr.length < 2 ^ 31) {pre str : Str} (hsplit : pre ++ str = xmlStr) :
    ∃ stop closing pre' str' key, pre' ++ str' = xmlStr ∧
      nextTag xmlStr (pre.length : Nat) = .ok (stop, closing) ∧
      readKey xmlStr stop = .ok (key, (pre'.length : Nat)) ∧
      afterClose xmlStr stop = (pre'.length : Nat) ∧
      (∀ n, ∃ m, stream xmlStr (n + 1) (scan (.outside 0) pre.length str)
        = weight closing :: stream xmlStr m (scan (.outside 0) pre'.length str')) ∧
      ∀ n, ∃ m, stream xmlStr m (scan (.outside 0) pre.length str)
        = weight closing :: stream xmlStr (n + 1) (scan (.outside 0) pre'.length str') := by
  obtain ⟨stop, closing, pre₁, str₁, hsplit₁, hstop, htag, hfewer₁, hmore₁⟩ := tag_step hlen hsplit
  obtain ⟨pre₂, str₂, key, hsplit₂, hkey, hclose, hfewer₂, hmore₂⟩ := key_step hlen hsplit₁ hstop
  refine ⟨stop, closing, pre₂, str₂, key, hsplit₂, htag, hkey, hclose, fun n => ?_, fun n => ?_⟩
  · obtain ⟨m, hm⟩ := hfewer₁ n
    obtain ⟨k, hk⟩ := hfewer₂ m
    exact ⟨k, by rw [hm, hk]⟩
  · obtain ⟨m, hm⟩ := hmore₂ n
    obtain ⟨k, hk⟩ := hmore₁ m
    exact ⟨k, by rw [hk, hm]⟩

/-- Where the tags of the parser close `depth` elements, the count gets to `depth`. -/
theorem climbs_of_closesWithin (hlen : xmlStr.length < 2 ^ 31) (tags : Nat) {pre str : Str}
    (hsplit : pre ++ str = xmlStr) {behindKey : Bool} {depth : Nat}
    (h : closesWithin xmlStr tags behindKey (pre.length : Nat) depth = true) :
    ∃ n, Climbs ((depth : Int) - 1) (stream xmlStr n (scan (.outside 0) pre.length str)) := by
  induction tags generalizing pre str behindKey depth with
  | zero =>
    cases depth with
    | zero => exact ⟨0, .of_neg (show ((0 : Nat) : Int) - 1 < 0 by omega) _⟩
    | succ depth => cases h
  | succ tags ih =>
    cases depth with
    | zero => exact ⟨0, .of_neg (show ((0 : Nat) : Int) - 1 < 0 by omega) _⟩
    | succ depth =>
      obtain ⟨stop, closing, pre', str', key, hsplit', htag, hkey, hclose, -, hmore⟩ :=
        scan_step hlen hsplit
      -- Behind the tag its weight is taken off, which is what is left to be closed there.
      have hbehind {behind : Bool} {left : Nat}
          (hscan : closesWithin xmlStr tags behind (pre'.length : Nat) left = true)
          (hleft : ((depth + 1 : Nat) : Int) - 1 - weight closing ≤ (left : Int) - 1) :
          ∃ n, Climbs (((depth + 1 : Nat) : Int) - 1)
            (stream xmlStr n (scan (.outside 0) pre.length str)) := by
        obtain ⟨n, hn⟩ := ih hsplit' hscan
        obtain ⟨m, hm⟩ := hmore n
        refine ⟨m, ?_⟩
        rw [hm]
        exact .inr ((climbs_stream_le (Nat.le_succ n) hn).mono hleft)
      rcases closesWithin_succ_iff.mp h with ⟨stop', htag', -, hscan⟩ |
        ⟨stop', key', next, htag', hkey', hscan⟩
      · rw [htag] at htag'
        obtain ⟨rfl, rfl⟩ := Prod.mk.inj (Except.ok.inj htag')
        rw [hclose] at hscan
        refine hbehind hscan ?_
        rw [weight, if_pos rfl]
        omega
      · rw [htag] at htag'
        obtain ⟨rfl, rfl⟩ := Prod.mk.inj (Except.ok.inj htag')
        rw [hkey] at hkey'
        obtain ⟨rfl, rfl⟩ := Prod.mk.inj (Except.ok.inj hkey')
        refine hbehind hscan ?_
        rw [weight, if_neg Bool.false_ne_true]
        omega

/-- Where the count gets to `depth`, the tags of the parser close `depth` elements. -/
theorem closesWithin_of_climbs (hlen : xmlStr.length < 2 ^ 31) (k : Nat) {pre str : Str}
    (hsplit : pre ++ str = xmlStr) {n depth : Nat}
    (hk : (stream xmlStr n (scan (.outside 0) pre.length str)).length = k)
    (h : Climbs ((depth : Int) - 1) (stream xmlStr n (scan (.outside 0) pre.length str))) :
    ∃ tags, ∀ behindKey, closesWithin xmlStr tags behindKey (pre.length : Nat) depth = true := by
  induction k generalizing pre str n depth with
  | zero =>
    rw [List.length_eq_zero_iff.mp hk] at h
    have hneg : (depth : Int) - 1 < 0 := h
    obtain rfl : depth = 0 := by omega
    exact ⟨0, fun _ => rfl⟩
  | succ k ih =>
    cases depth with
    | zero => exact ⟨0, fun _ => rfl⟩
    | succ depth =>
      obtain ⟨n, rfl⟩ : ∃ m, n = m + 1 := by
        cases n with
        | zero => cases hk
        | succ n => exact ⟨n, rfl⟩
      obtain ⟨stop, closing, pre', str', key, hsplit', htag, hkey, hclose, hfewer, -⟩ :=
        scan_step hlen hsplit
      obtain ⟨m, hm⟩ := hfewer n
      rw [hm] at hk h
      have hinside : sizeT (pre.length : Nat) ≤ xmlStr.length := by
        rw [← hsplit, List.length_append] at hlen ⊢
        rw [sizeT_natCast (by omega)]
        omega
      have hrest := h.resolve_left (by omega)
      cases closing with
      -- Behind an end tag the count has less to climb.
      | true =>
        have hdepth : Climbs ((depth : Int) - 1)
            (stream xmlStr m (scan (.outside 0) pre'.length str')) :=
          hrest.mono (by simp [weight])
        obtain ⟨tags, htags⟩ := ih hsplit' (Nat.succ_inj.mp hk) hdepth
        refine ⟨tags + 1, fun _ => ?_⟩
        have hscan := htags false
        rw [← hclose] at hscan
        exact closesWithin_succ_iff.mpr (.inl ⟨stop, htag, fun _ => hinside, hscan⟩)
      | false =>
        -- Behind a start tag it has more to climb.
        have hdepth : Climbs (((depth + 2 : Nat) : Int) - 1)
            (stream xmlStr m (scan (.outside 0) pre'.length str')) :=
          hrest.mono (by simp [weight]; omega)
        obtain ⟨tags, htags⟩ := ih hsplit' (Nat.succ_inj.mp hk) hdepth
        exact ⟨tags + 1, fun _ => closesWithin_succ_iff.mpr
          (.inr ⟨stop, key, _, htag, hkey, htags true⟩)⟩

/-! ### Readings that repeat -/

/-- A further reading begins behind a tag or inside of one. -/
theorem again_cases (scanned : List (Nat × Bool) × Place) :
    again scanned = .outside 0 ∨ again scanned = .inside := by
  unfold again
  split_ifs with h
  · exact .inl rfl
  · exact .inr rfl

/-- There are two places to begin at, so the third time is as the first. -/
theorem again_third {f : Place → Place} (hf : ∀ p, f p = .outside 0 ∨ f p = .inside) {p : Place}
    (hp : p = .outside 0 ∨ p = .inside) : f (f (f p)) = f p := by
  rcases hf (.outside 0) with houtside | houtside <;> rcases hf .inside with hinside | hinside <;>
    rcases hp with rfl | rfl <;> simp only [houtside, hinside]

/-- Two readings that are repeated for ever. -/
theorem stream_period {third : List (Nat × Bool) × Place}
    (hrepeat : reading xmlStr (again (reading xmlStr (again third))) = third) (n : Nat) :
    stream xmlStr (2 * n) third = (List.replicate n
      (counts xmlStr third ++ counts xmlStr (reading xmlStr (again third)))).flatten := by
  induction n with
  | zero => rfl
  | succ n ih =>
    show counts xmlStr third ++ (counts xmlStr (reading xmlStr (again third)) ++
      stream xmlStr (2 * n) (reading xmlStr (again (reading xmlStr (again third))))) = _
    rw [hrepeat, ih, List.replicate_succ, List.flatten_cons, List.append_assoc]

/-- Four readings say what all of them do. -/
theorem repeatedClose_iff :
    RepeatedClose xmlStr ↔ ∃ n, Climbs 0 (stream xmlStr n (firstReading xmlStr)) := by
  let second := reading xmlStr (again (firstReading xmlStr))
  let third := reading xmlStr (again second)
  let period := counts xmlStr third ++ counts xmlStr (reading xmlStr (again third))
  have hrepeat : reading xmlStr (again (reading xmlStr (again third))) = third :=
    congrArg (reading xmlStr) (again_third (f := fun p => again (reading xmlStr p))
      (fun _ => again_cases _) (again_cases _))
  -- Behind the first two readings the tags repeat.
  have hstream : ∀ n, stream xmlStr (2 * n + 2) (firstReading xmlStr)
      = counts xmlStr (firstReading xmlStr) ++
        (counts xmlStr second ++ (List.replicate n period).flatten) := by
    intro n
    rw [← stream_period hrepeat n]
    rfl
  show Climbs 0 (counts xmlStr (firstReading xmlStr) ++ (counts xmlStr second ++ period)) ∨
    0 < period.sum ↔ _
  constructor
  -- Within the first four readings, or with a gain in each period from some period on.
  · rintro (h | hsum)
    · refine ⟨2 * 1 + 2, ?_⟩
      rw [hstream]
      simpa using h
    · obtain ⟨n, hn⟩ := climbs_replicate_iff
        (c := 0 - (counts xmlStr (firstReading xmlStr)).sum - (counts xmlStr second).sum).mpr
        (.inr hsum)
      refine ⟨2 * n + 2, ?_⟩
      rw [hstream, climbs_append_iff, climbs_append_iff]
      exact .inr (.inr hn)
  -- Further readings only add to it.
  · rintro ⟨n, hn⟩
    have hle : n ≤ 2 * n + 2 := by omega
    have h := climbs_stream_le hle hn
    rw [hstream, climbs_append_iff, climbs_append_iff] at h
    rw [climbs_append_iff, climbs_append_iff]
    rcases h with h | h | h
    · exact .inl (.inl h)
    · exact .inl (.inr (.inl h))
    · rcases climbs_replicate_iff.mp ⟨n, h⟩ with h | hsum
      · exact .inl (.inr (.inr h))
      · exact .inr hsum

/-- Texts whose positions fit an `int`. -/
theorem returns_iff_repeatedClose (D : Type) (hne : xmlStr ≠ []) (hlen : xmlStr.length < 2 ^ 31) :
    Returns D xmlStr ↔ RepeatedClose xmlStr := by
  obtain ⟨c, str, rfl⟩ := List.exists_cons_of_ne_nil hne
  rw [returns_iff_closesWithin, repeatedClose_iff]
  have hfirst : [c] ++ str = c :: str := rfl
  have hstop : int32 (0 + 1) = ([c].length : Nat) := rfl
  obtain ⟨pre', str', key, hsplit, hkey, -, hfewer, hmore⟩ := key_step hlen hfirst hstop
  constructor
  -- The key of the root is read first, by both sides.
  · rintro ⟨key', start, tags, hkey', hscan⟩
    rw [hkey] at hkey'
    obtain ⟨rfl, rfl⟩ := Prod.mk.inj (Except.ok.inj hkey')
    obtain ⟨n, hn⟩ := climbs_of_closesWithin hlen tags hsplit hscan
    obtain ⟨m, hm⟩ := hmore n
    have hclimbs := climbs_stream_le (Nat.le_succ n) hn
    rw [← hm] at hclimbs
    exact ⟨m + 1, hclimbs⟩
  · rintro ⟨n, hn⟩
    obtain ⟨m, hm⟩ := hfewer n
    have hclimbs : Climbs (((1 : Nat) : Int) - 1)
        (stream (c :: str) m (scan (.outside 0) pre'.length str')) := by
      rw [← hm]
      exact hn
    obtain ⟨tags, htags⟩ := closesWithin_of_climbs hlen _ hsplit rfl hclimbs
    exact ⟨key, _, tags, hkey, htags true⟩

/-! ### Texts of any length -/

/-- Where the tags behind this one still count, it is read up to its `>`. -/
theorem key_fits {pre str : Str} (hsplit : pre ++ str = xmlStr) {stop : Int}
    (hstop : int32 (stop + 1) = (pre.length : Nat)) {tags : List (Nat × Bool)} {last : Place}
    (hscan : scan .inside pre.length str = (tags, last)) {c : Int} (hc : 0 ≤ c)
    (h : Climbs c (fitting tags)) :
    ∃ pre' str' key, pre' ++ str' = xmlStr ∧ readKey xmlStr stop = .ok (key, (pre'.length : Nat)) ∧
      afterClose xmlStr stop = (pre'.length : Nat) ∧
      scan (.outside 0) pre'.length str' = (tags, last) := by
  -- A tag follows, so the text has a `>`.
  have hmem : 62 ∈ str := by
    by_contra hnone
    rw [scan_inside_end hnone] at hscan
    rw [← (Prod.mk.inj hscan).1] at h
    exact absurd h (not_lt.mpr hc)
  obtain ⟨mid, rest, rfl, hmid⟩ := List.eq_append_cons_of_mem hmem
  rw [scan_inside_found hmid] at hscan
  -- The next tag begins early enough, and this one ends in front of it.
  have hfits : (pre ++ mid ++ [62]).length < 2 ^ 31 := by
    cases tags with
    | nil => exact absurd h (not_lt.mpr hc)
    | cons tag more =>
      have hmem : tag ∈ (scan (.outside 0) (pre ++ mid ++ [62]).length rest).1 := by
        rw [hscan]
        exact List.mem_cons_self
      have hbounds := mem_scan_bounds hmem
      by_contra hge
      have hnone : fitting (tag :: more) = [] := by
        unfold fitting
        rw [List.takeWhile_cons_of_neg (by simp; omega), List.map_nil]
      rw [hnone] at h
      exact absurd h (not_lt.mpr hc)
  have hwhole : pre ++ mid ++ 62 :: rest = xmlStr := by rw [← hsplit, List.append_assoc]
  obtain ⟨hkey, hclose⟩ := key_found rest hstop hmid hfits
  rw [hwhole] at hkey hclose
  exact ⟨pre ++ mid ++ [62], rest, mid, by simp [← hwhole], hkey, hclose, hscan⟩

/-- Tags that fit and get the count to `depth` close `depth` elements. -/
theorem closesWithin_of_fitting (hcdata : ¬cdata <:+: xmlStr.drop (2 ^ 31))
    (tags : List (Nat × Bool)) {pre str : Str} (hsplit : pre ++ str = xmlStr) {last : Place}
    (hscan : scan (.outside 0) pre.length str = (tags, last)) {depth : Nat}
    (h : Climbs ((depth : Int) - 1) (fitting tags)) :
    ∃ n, ∀ behindKey, closesWithin xmlStr n behindKey (pre.length : Nat) depth = true := by
  induction tags generalizing pre str depth with
  | nil =>
    have hneg : (depth : Int) - 1 < 0 := h
    obtain rfl : depth = 0 := by omega
    exact ⟨0, fun _ => rfl⟩
  | cons tag more ih =>
    cases depth with
    | zero => exact ⟨0, fun _ => rfl⟩
    | succ depth =>
      obtain ⟨j, closing⟩ := tag
      -- The tag is counted, so it begins early enough.
      have hj : j + 1 < 2 ^ 31 := by
        by_contra hge
        have hnone : fitting ((j, closing) :: more) = [] := by
          unfold fitting
          rw [List.takeWhile_cons_of_neg (by simpa using hge), List.map_nil]
        rw [hnone] at h
        have hneg : ((depth + 1 : Nat) : Int) - 1 < 0 := h
        omega
      have hfirst : fitting ((j, closing) :: more) = weight closing :: fitting more := by
        unfold fitting
        rw [List.takeWhile_cons_of_pos (by simpa using hj), List.map_cons]
      rw [hfirst] at h
      have hrest := h.resolve_left (by omega)
      have hmem : (j, closing) ∈ (scan (.outside 0) pre.length str).1 := by
        rw [hscan]
        exact List.mem_cons_self
      have hge : pre.length ≤ j := (mem_scan_bounds hmem).1
      obtain ⟨mid, rest, rfl, rfl, htag, hmore⟩ :=
        nextTag_found (by rwa [hsplit]) hscan hj
      rw [hsplit] at htag
      have hwhole : pre ++ mid ++ [60] ++ rest = xmlStr := by simp [← hsplit]
      have hat : (pre ++ mid ++ [60]).length = (pre ++ mid).length + 1 := List.length_append
      have hstop : int32 (((pre ++ mid).length : Nat) + 1) = ((pre ++ mid ++ [60]).length : Nat) :=
        int32_next (by rw [hat]; exact hj)
      rw [← hat] at hmore
      -- The position survives the cast to `size_t`.
      have hinside : sizeT (pre.length : Nat) ≤ xmlStr.length := by
        have hpre : pre.length < 2 ^ 32 := by
          omega
        rw [sizeT_natCast hpre, ← hsplit, List.length_append]
        exact Nat.le_add_right _ _
      cases closing with
      | true =>
        -- The last end tag closes the root, and nothing behind it is read.
        cases depth with
        | zero =>
          exact ⟨1, fun _ => closesWithin_succ_iff.mpr
            (.inl ⟨_, htag, fun _ => hinside, closesWithin_zero 0 false _⟩)⟩
        | succ depth =>
          have hdepth : Climbs (((depth + 1 : Nat) : Int) - 1) (fitting more) :=
            hrest.mono (by simp [weight])
          obtain ⟨pre', str', key, hsplit', -, hclose, hscan'⟩ :=
            key_fits hwhole hstop hmore (by omega) hdepth
          obtain ⟨n, hn⟩ := ih hsplit' hscan' hdepth
          refine ⟨n + 1, fun _ => ?_⟩
          have hscan := hn false
          rw [← hclose] at hscan
          exact closesWithin_succ_iff.mpr (.inl ⟨_, htag, fun _ => hinside, hscan⟩)
      | false =>
        have hdepth : Climbs (((depth + 2 : Nat) : Int) - 1) (fitting more) :=
          hrest.mono (by simp [weight]; omega)
        obtain ⟨pre', str', key, hsplit', hkey, -, hscan'⟩ :=
          key_fits hwhole hstop hmore (by omega) hdepth
        obtain ⟨n, hn⟩ := ih hsplit' hscan' hdepth
        exact ⟨n + 1, fun _ => closesWithin_succ_iff.mpr (.inr ⟨_, key, _, htag, hkey, hn true⟩)⟩

/-- The first reading is enough where it closes the element. -/
theorem returns_of_firstClose (D : Type) (hne : xmlStr ≠ []) (h : FirstClose xmlStr) :
    Returns D xmlStr := by
  obtain ⟨c, str, rfl⟩ := List.exists_cons_of_ne_nil hne
  obtain ⟨hcdata, hclimbs⟩ := h
  have hfirst : [c] ++ str = c :: str := rfl
  have hstop : int32 (0 + 1) = ([c].length : Nat) := rfl
  obtain ⟨pre', str', key, hsplit, hkey, -, hscan⟩ :=
    key_fits hfirst hstop (Prod.eta (scan .inside [c].length str)).symm le_rfl hclimbs
  have hroot : Climbs (((1 : Nat) : Int) - 1) (fitting (firstReading (c :: str)).1) := hclimbs
  obtain ⟨n, hn⟩ := closesWithin_of_fitting hcdata _ hsplit hscan hroot
  exact (returns_iff_closesWithin D _).mpr ⟨key, _, n, hkey, hn true⟩

end

/-! ### `Deserialize` -/

/-- The parser returns where the tags of the text close the element of its first key, and on
texts whose positions fit an `int` only there. -/
theorem returns_iff_tagsClose (D : Type) (xmlStr : Str) :
    (TagsClose xmlStr → Returns D xmlStr) ∧
      (xmlStr.length < 2 ^ 31 → Returns D xmlStr → TagsClose xmlStr) := by
  constructor
  · rintro ⟨hne, h⟩
    split_ifs at h with hlen
    · exact (returns_iff_repeatedClose D hne hlen).mpr h
    · exact returns_of_firstClose D hne h
  · intro hlen h
    have hne : xmlStr ≠ [] := by
      rintro rfl
      obtain ⟨fuel, value, h⟩ := h
      cases fuel with
      | zero => cases h
      | succ fuel => cases h
    refine ⟨hne, ?_⟩
    rw [if_pos hlen]
    exact (returns_iff_repeatedClose D hne hlen).mp h

/-- An element, whose end tag closes it. -/
theorem returns_iff_tagsClose_element :
    Returns Empty (text ['<', 'a', '>', '<', '/', 'a', '>']) ∧
      TagsClose (text ['<', 'a', '>', '<', '/', 'a', '>']) := by
  have hreturns := (returns_iff_tagsClose Empty (text ['<', 'a', '>', '<', '/', 'a', '>'])).1
    (by decide)
  exact ⟨hreturns, (returns_iff_tagsClose Empty _).2 (by decide) hreturns⟩

/-- A start tag alone is searched for its end tag for ever. -/
example : ¬TagsClose (text ['<', 'a', '>']) := by decide

/-- Behind the last tag the search fails, and the slash at the front of the text counts for an end
tag. -/
example : TagsClose (text ['/', '<', 'a', '>']) := by decide

end Mylib.Proofs.Base.Xml.Tags
