import Mylib.Spec.Base.XmlReader
import Mylib.Spec.Base.XmlWriter

/-!
# `Mylib.Proofs.Base.XmlPositions`: searches with `int` positions

In a text shorter than `2 ^ 31` bytes an `int` holds every position. Then `find`, `substr` and
`[]` of the XML parser do what they do on a `size_t`, and a position that `find` returns is
`-1` or a place where the pattern stands.

The text is written as what lies before the position and what lies behind it. The lemmas
give the searches of the parser for a text that is split at the next tag.
-/

set_option autoImplicit false

namespace Mylib.Proofs.Base.Xml

open Mylib.Lib.CString hiding charAt
open Mylib.Spec.Base
open StringUtil XmlReader
open XmlWriter (openTag closeTag)

/-! ### Positions that fit -/

/-- A position between -1 and 2 ^ 31 survives the cast to `int32`. -/
theorem int32_of_fits {n : Int} (hlo : -1 ≤ n) (hhi : n < 2 ^ 31) : int32 n = n := by
  unfold int32
  rw [Int.bmod_def]
  split_ifs <;> omega

/-- A position below 2 ^ 32 survives the cast to `size_t`. -/
@[simp]
theorem sizeT_natCast {n : Nat} (h : n < 2 ^ 32) : sizeT (n : Int) = n := by
  unfold sizeT
  omega

/-- A position below 2 ^ 31 survives the cast to `int32`. -/
theorem int32_natCast {n : Nat} (h : n < 2 ^ 31) : int32 (n : Int) = n :=
  int32_of_fits (by omega) (by omega)

/-- One position further. -/
theorem int32_next {pre : Str} {b : UInt8} (h : (pre ++ [b]).length < 2 ^ 31) :
    int32 ((pre.length : Nat) + 1) = ((pre ++ [b]).length : Nat) := by
  simp only [List.length_append, List.length_singleton] at h
  rw [int32_of_fits (by omega) (by omega)]
  simp

/-! ### The first place of a pattern -/

section

variable {p : Str → Bool}

/-- What is found is inside of the text. -/
theorem firstWhere_eq_some {str : Str} {i : Nat} (h : firstWhere p str = some i) :
    i < str.length ∧ p (str.drop i) = true := by
  induction str generalizing i with
  | nil => cases h
  | cons c str ih =>
    unfold firstWhere at h
    split_ifs at h with hp
    · cases h
      exact ⟨Nat.succ_pos _, hp⟩
    · obtain ⟨j, hj, rfl⟩ := Option.map_eq_some_iff.mp h
      exact ⟨Nat.succ_lt_succ (ih hj).1, (ih hj).2⟩

/-- No place within `mid`, and one right behind it. -/
theorem firstWhere_append {mid rest : Str} {c : UInt8}
    (hmid : ∀ i < mid.length, p ((mid ++ c :: rest).drop i) = false)
    (hp : p (c :: rest) = true) : firstWhere p (mid ++ c :: rest) = some mid.length := by
  induction mid with
  | nil =>
    show firstWhere p (c :: rest) = some 0
    unfold firstWhere
    rw [if_pos hp]
  | cons b mid ih =>
    have hb : p (b :: (mid ++ c :: rest)) = false := hmid 0 (Nat.succ_pos _)
    have hrest : firstWhere p (mid ++ c :: rest) = some mid.length :=
      ih fun i hi => hmid (i + 1) (Nat.succ_lt_succ hi)
    show firstWhere p (b :: (mid ++ c :: rest)) = some (mid.length + 1)
    unfold firstWhere
    rw [hb, hrest]
    rfl

/-- What `findWhere` returns from a position of a short text. -/
theorem findWhere_cases {xmlStr : Str} (hlen : xmlStr.length < 2 ^ 31) (start : Int) :
    findWhere p xmlStr start = -1 ∨
      ∃ n : Nat, findWhere p xmlStr start = n ∧ n < xmlStr.length ∧
        p (xmlStr.drop n) = true := by
  unfold findWhere
  cases hfirst : firstWhere p (xmlStr.drop (sizeT start)) with
  | none => exact .inl rfl
  | some i =>
    obtain ⟨hi, hp⟩ := firstWhere_eq_some hfirst
    rw [List.length_drop] at hi
    rw [List.drop_drop] at hp
    have hlt : sizeT start + i < xmlStr.length := by omega
    exact .inr ⟨sizeT start + i, int32_natCast (by omega), hlt, hp⟩

end

/-! ### The searches of the parser -/

/-- A text begins with one character exactly if that is its first. -/
theorem isPrefixOf_singleton {c b : UInt8} {str : Str} :
    List.isPrefixOf [c] (b :: str) = (c == b) := by
  simp [List.isPrefixOf]

/-- The first such character behind others. -/
theorem firstWhere_char {c : Char} {mid rest : Str} {b : UInt8} (hb : text [c] = [b])
    (hmid : b ∉ mid) :
    firstWhere (text [c]).isPrefixOf (mid ++ b :: rest) = some mid.length := by
  rw [hb]
  refine firstWhere_append (fun i hi => ?_) (by simp)
  rw [List.drop_append_of_le_length hi.le]
  obtain ⟨a, mid', hsplit⟩ := List.exists_cons_of_length_pos (List.length_pos_of_ne_nil
    (List.drop_eq_nil_iff.not.mpr (not_le.mpr hi)))
  have ha : a ∈ mid := List.mem_of_mem_drop (hsplit ▸ List.mem_cons_self)
  rw [hsplit, List.cons_append, isPrefixOf_singleton]
  exact beq_eq_false_iff_ne.mpr fun h => hmid (h ▸ ha)

/-- `find` for one character, from the end of `pre` on. -/
theorem find_eq_int32 {c : Char} {pre mid rest : Str} {b : UInt8} (hb : text [c] = [b])
    (hpre : pre.length < 2 ^ 31) (hmid : b ∉ mid) :
    find c (pre ++ mid ++ b :: rest) (pre.length : Nat) = int32 ((pre ++ mid).length : Nat) := by
  unfold find findWhere
  rw [sizeT_natCast (by omega), List.append_assoc, List.drop_left, firstWhere_char hb hmid,
    List.length_append]

/-- `find` gives the position of the next such character. -/
theorem find_append {c : Char} {pre mid rest : Str} {b : UInt8} (hb : text [c] = [b])
    (hlen : (pre ++ mid).length < 2 ^ 31) (hmid : b ∉ mid) :
    find c (pre ++ mid ++ b :: rest) (pre.length : Nat) = (pre ++ mid).length := by
  have hpre : pre.length < 2 ^ 31 := by
    rw [List.length_append] at hlen
    omega
  rw [find_eq_int32 hb hpre hmid, int32_natCast hlen]

/-- The text between two positions that are known. -/
theorem substr_append {pre mid rest : Str} (hlen : (pre ++ mid).length < 2 ^ 31) :
    substr (pre ++ mid ++ rest) (pre.length : Nat) ((pre ++ mid).length - pre.length : Int)
      = .ok mid := by
  rw [List.length_append] at hlen
  have hcount : ((pre ++ mid).length - pre.length : Int) = (mid.length : Nat) := by
    rw [List.length_append]
    omega
  unfold substr
  rw [hcount, sizeT_natCast (by omega), sizeT_natCast (by omega), if_pos (by simp),
    List.append_assoc, List.drop_left, List.take_left]

/-- `substr` between two positions, the second of which is given by the difference. -/
theorem substr_between {pre mid rest : Str} (hlen : (pre ++ mid).length < 2 ^ 31) :
    substr (pre ++ mid ++ rest) (pre.length : Nat)
      (int32 (((pre ++ mid).length : Nat) - (pre.length : Nat))) = .ok mid := by
  have hcount : int32 (((pre ++ mid).length : Nat) - (pre.length : Nat))
      = ((pre ++ mid).length : Int) - pre.length := by
    rw [List.length_append] at hlen ⊢
    exact int32_of_fits (by omega) (by omega)
  rw [hcount, substr_append hlen]

/-! ### Tags -/

/-- The bytes of a start tag. -/
theorem openTag_eq (name : Str) : openTag name = 60 :: (name ++ [62]) := rfl

/-- The bytes of an end tag. -/
theorem closeTag_eq (name : Str) : closeTag name = 60 :: 47 :: (name ++ [62]) := rfl

/-- The key of a start tag, and the position behind the tag. -/
theorem readKey_append {pre name rest : Str}
    (hlen : (pre ++ openTag name).length < 2 ^ 31) (hname : 62 ∉ name) :
    readKey (pre ++ openTag name ++ rest) (pre.length : Nat)
      = .ok (name, ((pre ++ openTag name).length : Nat)) := by
  -- The key lies between the `<` and the `>`.
  have hsplit : pre ++ openTag name ++ rest = pre ++ [60] ++ name ++ 62 :: rest := by
    simp [openTag_eq]
  have hend : pre ++ openTag name = pre ++ [60] ++ name ++ [62] := by simp [openTag_eq]
  rw [hsplit]
  rw [hend] at hlen ⊢
  have hstop : (pre ++ [60] ++ name).length < 2 ^ 31 := by
    rw [List.length_append] at hlen
    omega
  have hstart : (pre ++ [60]).length < 2 ^ 31 := by
    rw [List.length_append] at hstop
    omega
  unfold readKey
  dsimp only
  rw [int32_next hstart, find_append (by decide) hstop hname, int32_next hlen,
    substr_between hstop]
  rfl

/-- The search for a `<`, and the character behind it. -/
theorem find_tag {pre mid rest : Str} (hlen : (pre ++ mid ++ [60]).length < 2 ^ 31)
    (hmid : 60 ∉ mid) :
    find '<' (pre ++ mid ++ 60 :: rest) (pre.length : Nat) = (pre ++ mid).length ∧
    charAt (pre ++ mid ++ 60 :: rest) (int32 ((pre ++ mid).length + 1)) = .ok (rest.headD 0) := by
  have hsplit : pre ++ mid ++ 60 :: rest = pre ++ mid ++ [60] ++ rest := by simp
  constructor
  · refine find_append (by decide) ?_ hmid
    rw [List.length_append] at hlen
    omega
  · unfold charAt
    rw [int32_next hlen, hsplit, sizeT_natCast (by omega), deref_append_length, deref_zero]

/-- The next tag is an end tag. -/
theorem nextTag_slash {pre mid rest : Str} (hlen : (pre ++ mid ++ [60]).length < 2 ^ 31)
    (hmid : 60 ∉ mid) :
    nextTag (pre ++ mid ++ 60 :: 47 :: rest) (pre.length : Nat)
      = .ok (((pre ++ mid).length : Nat), true) := by
  obtain ⟨hfind, hchar⟩ := @find_tag pre mid (47 :: rest) hlen hmid
  unfold nextTag
  dsimp only
  rw [hfind, hchar]
  rfl

/-- The next tag is a start tag, and no `<![CDATA[`. -/
theorem nextTag_other {pre mid rest : Str}
    (hlen : (pre ++ mid ++ [60]).length < 2 ^ 31) (hmid : 60 ∉ mid) (hslash : rest.headD 0 ≠ 47)
    (hcdata : findCdata (pre ++ mid ++ 60 :: rest) (pre.length : Nat)
      ≠ ((pre ++ mid).length : Nat)) :
    nextTag (pre ++ mid ++ 60 :: rest) (pre.length : Nat)
      = .ok (((pre ++ mid).length : Nat), false) := by
  obtain ⟨hfind, hchar⟩ := @find_tag pre mid rest hlen hmid
  have hne : ¬[rest.headD 0] = text ['/'] := fun h => hslash (List.head_eq_of_cons_eq h)
  unfold nextTag
  dsimp only
  rw [hfind, hchar, ok_bind, if_neg hne, if_neg hcdata]
  rfl

/-- In a short text the search for `<![CDATA[` ends only where one stands. -/
theorem findCdata_ne {pre rest : Str} {c : UInt8}
    (hlen : (pre ++ 60 :: c :: rest).length < 2 ^ 31) (hbang : c ≠ 33) (start : Int) :
    findCdata (pre ++ 60 :: c :: rest) start ≠ (pre.length : Nat) := by
  unfold findCdata
  rcases findWhere_cases hlen start with hnone | ⟨n, hn, -, hprefix⟩
  · rw [hnone]
    omega
  · rw [hn]
    intro heq
    rw [Int.ofNat_inj.mp heq, List.drop_left] at hprefix
    simp [cdata, text, List.isPrefixOf] at hprefix
    exact hbang hprefix.1.symm

/-- The text in front of an end tag holds no other tag. -/
theorem nextTag_close {pre mid name rest : Str}
    (hlen : (pre ++ mid ++ closeTag name ++ rest).length < 2 ^ 31) (hmid : 60 ∉ mid) :
    nextTag (pre ++ mid ++ closeTag name ++ rest) (pre.length : Nat)
      = .ok (((pre ++ mid).length : Nat), true) := by
  have hsplit : pre ++ mid ++ closeTag name ++ rest
      = pre ++ mid ++ 60 :: 47 :: (name ++ 62 :: rest) := by simp [closeTag_eq]
  rw [hsplit] at hlen ⊢
  refine nextTag_slash ?_ hmid
  simp only [List.length_append, List.length_cons, List.length_nil] at hlen ⊢
  omega

/-- A start tag whose name begins with neither a slash nor an exclamation mark. -/
theorem nextTag_open {pre mid name rest : Str} {c : UInt8}
    (hlen : (pre ++ mid ++ openTag (c :: name) ++ rest).length < 2 ^ 31) (hmid : 60 ∉ mid)
    (hslash : c ≠ 47) (hbang : c ≠ 33) :
    nextTag (pre ++ mid ++ openTag (c :: name) ++ rest) (pre.length : Nat)
      = .ok (((pre ++ mid).length : Nat), false) := by
  have hsplit : pre ++ mid ++ openTag (c :: name) ++ rest
      = pre ++ mid ++ 60 :: c :: (name ++ 62 :: rest) := by simp [openTag_eq]
  rw [hsplit] at hlen ⊢
  refine nextTag_other ?_ hmid hslash (findCdata_ne hlen hbang _)
  simp only [List.length_append, List.length_cons, List.length_nil] at hlen ⊢
  omega

/-- Behind an end tag the parser goes on behind its `>`. -/
theorem afterClose_append {pre name rest : Str}
    (hlen : (pre ++ closeTag name).length < 2 ^ 31) (hname : 62 ∉ name) :
    afterClose (pre ++ closeTag name ++ rest) (pre.length : Nat)
      = ((pre ++ closeTag name).length : Nat) := by
  have hsplit : pre ++ closeTag name ++ rest
      = pre ++ [60] ++ (47 :: name) ++ 62 :: rest := by simp [closeTag_eq]
  have hend : pre ++ closeTag name = pre ++ [60] ++ (47 :: name) ++ [62] := by
    simp [closeTag_eq]
  rw [hsplit]
  rw [hend] at hlen ⊢
  have hstop : (pre ++ [60] ++ (47 :: name)).length < 2 ^ 31 := by
    rw [List.length_append] at hlen
    omega
  have hstart : (pre ++ [60]).length < 2 ^ 31 := by
    rw [List.length_append] at hstop
    omega
  unfold afterClose
  rw [int32_next hstart, find_append (by decide) hstop (by simpa using hname), int32_next hlen]

end Mylib.Proofs.Base.Xml
