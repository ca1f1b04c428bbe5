import Mylib.Proofs.Base.Unicode
import Mylib.Spec.Base.XmlAttributes

/-!
# `Mylib.Proofs.Base.XmlAttributes`: the texts `GetXmlAttribute` accepts

`TagText` is the grammar: a tag name, attributes, blanks. `Exact` says what is promised: the
call returns `true` exactly on the texts of the grammar, and then the map is the one their
attributes describe. Whether a tag name may be empty is left open (`nameless`).

The automaton is first freed of its indices: `read` goes over the characters once and carries
the names and values themselves (`scanFrom_eq`). A text leads it into a state other than
`failed` exactly when it can be continued to a text of the grammar (`Viable`): what it has
read says how far it is in which attribute (`Reads`), and every such place can be completed.

The code asks for more than it should and for less. The state `failed` is noticed at the next
character only, and the state at the end is not looked at. So it accepts exactly the texts
that are viable without their last character (`accepts_iff`), and `exact_iff` says on which
texts that is right.
-/

set_option autoImplicit false

namespace Mylib.Proofs.Base.Xml

open Mylib.Lib Mylib.Spec.Base
open StringConversions StringUtil XmlAttributes

/-! ### The grammar -/

/-- A name: no blank, no quote and no equals sign. -/
def PlainName (s : Str) : Prop := ∀ b ∈ s, b ≠ blank ∧ b ≠ quote ∧ b ≠ equals

/-- A row of `n` blanks. -/
def blanks (n : Nat) : Str := List.replicate n blank

/-- Blanks, a name, an equals sign and a quoted value. -/
structure Attribute where
  before : Nat
  name : Str
  afterName : Nat
  afterEquals : Nat
  value : Str

namespace Attribute

/-- The text of an attribute without the closing quote. -/
def body (a : Attribute) : Str :=
  blanks a.before ++ a.name ++ blanks a.afterName ++ [equals] ++ blanks a.afterEquals ++
    [quote] ++ a.value

def text (a : Attribute) : Str := a.body ++ [quote]

structure WellFormed (a : Attribute) : Prop where
  before : 0 < a.before
  name_ne : a.name ≠ []
  name : PlainName a.name
  value : quote ∉ a.value

/-- The pair that the attribute stands for. -/
def pair (a : Attribute) : Str × Str := (a.name, a.value)

end Attribute

/-- A tag name, attributes and trailing blanks. -/
structure TagText where
  name : Str
  attributes : List Attribute
  trailing : Nat

namespace TagText

def text (t : TagText) : Str :=
  t.name ++ (t.attributes.flatMap Attribute.text ++ blanks t.trailing)

structure WellFormed (nameless : Bool) (t : TagText) : Prop where
  name : PlainName t.name
  name_ne : nameless = false → t.name ≠ []
  attributes : ∀ a ∈ t.attributes, a.WellFormed

end TagText

/-- The pairs as the map stores them. -/
def stored (ps : List (Str × Str)) : List (List Nat × Str) :=
  ps.map fun p => (p.1.map UInt8.toNat, p.2)

/-- The call returns `true` exactly on the texts of the grammar, and then the map holds the
attributes, the last of each name. -/
structure Exact (nameless : Bool) (key : Str) : Prop where
  accepts : (getXmlAttribute key).1 = true ↔ ∃ t : TagText, t.WellFormed nameless ∧ key = t.text
  holds : ∀ t : TagText, t.WellFormed nameless → key = t.text →
    OrderedMap.Describes (stored (t.attributes.map Attribute.pair)) (getXmlAttribute key).2

/-- The text can be continued to one of the grammar. -/
def Viable (s : Str) : Prop := ∃ rest, ∃ t : TagText, t.WellFormed true ∧ s ++ rest = t.text

/-! ### The automaton without indices -/

/-- A state of the automaton, with the name and the value read so far. -/
inductive Phase where
  | tagName
  | blanks
  | name (n : Str)
  | afterName (n : Str)
  | afterEquals (n : Str)
  | beforeValue (n : Str)
  | value (n v : Str)
  | afterValue
  | failed
  deriving DecidableEq

/-- The state behind a character, and the pair that is stored at it, if any. -/
def Phase.next (c : UInt8) : Phase → Phase × List (Str × Str)
  | .tagName =>
    if c = blank then (.blanks, []) else if c = quote ∨ c = equals then (.failed, [])
    else (.tagName, [])
  | .blanks =>
    if c = blank then (.blanks, []) else if c = quote ∨ c = equals then (.failed, [])
    else (.name [c], [])
  | .name n =>
    if c = blank then (.afterName n, []) else if c = quote then (.failed, [])
    else if c = equals then (.afterEquals n, []) else (.name (n ++ [c]), [])
  | .afterName n =>
    if c = blank then (.afterName n, []) else if c = equals then (.afterEquals n, [])
    else (.failed, [])
  | .afterEquals n =>
    if c = blank then (.beforeValue n, []) else if c = quote then (.value n [], [])
    else (.failed, [])
  | .beforeValue n =>
    if c = blank then (.beforeValue n, []) else if c = quote then (.value n [], [])
    else (.failed, [])
  | .value n v => if c = quote then (.afterValue, [(n, v)]) else (.value n (v ++ [c]), [])
  | .afterValue => if c = blank then (.blanks, []) else (.failed, [])
  | .failed => (.failed, [])

/-- The state behind a text, and the pairs stored on the way. -/
def read (p : Phase) : Str → Phase × List (Str × Str)
  | [] => (p, [])
  | c :: s => ((read (p.next c).1 s).1, (p.next c).2 ++ (read (p.next c).1 s).2)

/-- Reading a text in two pieces, the pairs of the second behind those of the first. -/
theorem read_append (p : Phase) (s t : Str) :
    read p (s ++ t) = ((read (read p s).1 t).1, (read p s).2 ++ (read (read p s).1 t).2) := by
  induction s generalizing p with
  | nil => rfl
  | cons c s ih =>
    rw [List.cons_append, read, ih, read]
    simp

/-- Once it has failed the scan stays so. -/
theorem read_failed (s : Str) : read .failed s = (.failed, []) := by
  induction s with
  | nil => rfl
  | cons c s ih =>
    rw [read]
    simp [Phase.next, ih]

/-! ### The loop -/

/-- The scan at the index `i` is in the state `p`. -/
def InPhase (key : Str) (i : Nat) (s : Scan) : Phase → Prop
  | .tagName => s.status = .tagName
  | .blanks => s.status = .blanks
  | .name n => s.status = .name ∧ s.start ≤ i ∧ substr key s.start i = n
  | .afterName n => s.status = .afterName ∧ s.mapKey = n
  | .afterEquals n => s.status = .afterEquals ∧ s.mapKey = n
  | .beforeValue n => s.status = .beforeValue ∧ s.mapKey = n
  | .value n v =>
    s.status = .value ∧ s.mapKey = n ∧ s.start ≤ i ∧ substr key s.start i = v
  | .afterValue => s.status = .afterValue
  | .failed => s.status = .failed

/-- An empty range is an empty text. -/
theorem substr_self (key : Str) (i : Nat) : substr key i i = [] := by
  simp [substr]

/-- A range grows by the character that was passed. -/
theorem substr_succ {key : Str} {start i : Nat} (hstart : start ≤ i) (hi : i < key.length) :
    substr key start (i + 1) = substr key start i ++ [key.getD i 0] := by
  have hlt : i - start < (key.drop start).length := by
    rw [List.length_drop]
    omega
  have hget : (key.drop start)[i - start] = key.getD i 0 := by
    rw [List.getElem_drop, List.getD_eq_getElem _ _ hi]
    congr 1
    omega
  rw [substr, substr, Nat.sub_add_comm hstart, ← List.take_concat_get' _ _ hlt, hget]

section

variable {key : Str} {len i : Nat} {c : UInt8} {s : Scan}

/-- No `return false` at an angle bracket. -/
theorem not_angle (hlt : c ≠ 60) (hgt : c ≠ 62) :
    ¬([c] = text ['<'] ∨ [c] = text ['>']) := by
  rw [show text ['<'] = [60] from rfl, show text ['>'] = [62] from rfl]
  simp [hlt, hgt]

/-- The scan at `i` is continued at `i + 1` in the state `q.1`, the pairs `q.2` stored. -/
def Continues (key : Str) (len i : Nat) (s : Scan) (q : Phase × List (Str × Str)) : Prop :=
  ∃ s', scanFrom key len i s = scanFrom key len (i + 1) s' ∧ InPhase key (i + 1) s' q.1 ∧
    s'.attr = OrderedMap.setAll s.attr (stored q.2)

/-- `c` is the character at `i`, inside the text and no angle bracket. -/
structure At (key : Str) (len i : Nat) (c : UInt8) : Prop where
  lt : i < len
  char : key.getD i 0 = c
  not_lt : c ≠ 60
  not_gt : c ≠ 62

namespace At

variable (hat : At key len i c)

include hat

/-- The state `failed` is noticed at the next character. -/
theorem scanFrom_failed (h : InPhase key i s .failed) :
    scanFrom key len i s = (false, s.attr) := by
  have hnone : scanChar key i (key.getD i 0) s = none := by
    simp [scanChar, show s.status = .failed from h]
  rw [scanFrom, if_pos hat.lt]
  dsimp only
  rw [if_neg (hat.char ▸ not_angle hat.not_lt hat.not_gt)]
  split <;> simp_all

/-- A character that is looked at again. -/
theorem again (s' : Scan) {q : Phase × List (Str × Str)} (h : scanChar key i c s = some (s', true))
    (hattr : s'.attr = s.attr) (hs : Continues key len i s' q) : Continues key len i s q := by
  have hstep : scanFrom key len i s = scanFrom key len i s' := by
    rw [scanFrom, if_pos hat.lt]
    dsimp only
    rw [if_neg (hat.char ▸ not_angle hat.not_lt hat.not_gt)]
    rw [← hat.char] at h
    split <;> simp_all
  obtain ⟨s'', heq, hphase, hstored⟩ := hs
  exact ⟨s'', hstep.trans heq, hphase, hattr ▸ hstored⟩

/-- A character that is looked at once. -/
theorem once (s' : Scan) {q : Phase × List (Str × Str)} (h : scanChar key i c s = some (s', false))
    (hattr : s'.attr = OrderedMap.setAll s.attr (stored q.2)) (hq : InPhase key (i + 1) s' q.1) :
    Continues key len i s q := by
  refine ⟨s', ?_, hq, hattr⟩
  rw [scanFrom, if_pos hat.lt]
  dsimp only
  rw [if_neg (hat.char ▸ not_angle hat.not_lt hat.not_gt)]
  rw [← hat.char] at h
  split <;> simp_all

variable {n v : Str}

/-- One step behind a name, where blanks and the `=` may stand. -/
theorem afterName (h : InPhase key i s (.afterName n)) :
    Continues key len i s (Phase.next c (.afterName n)) := by
  obtain ⟨status, start, mapKey, attr⟩ := s
  obtain ⟨rfl, rfl⟩ := h
  unfold Phase.next
  dsimp only
  split_ifs with hblank hequals
  · exact hat.once ⟨.afterName, start, mapKey, attr⟩ (by simp only [scanChar, if_pos hblank]) rfl
      ⟨rfl, rfl⟩
  · exact hat.once ⟨.afterEquals, start, mapKey, attr⟩
      (by simp only [scanChar, if_neg hblank, if_pos hequals]) rfl ⟨rfl, rfl⟩
  · exact hat.once ⟨.failed, start, mapKey, attr⟩
      (by simp only [scanChar, if_neg hblank, if_neg hequals]) rfl rfl

/-- One step at the quote of a value. -/
theorem beforeValue (h : InPhase key i s (.beforeValue n)) :
    Continues key len i s (Phase.next c (.beforeValue n)) := by
  obtain ⟨status, start, mapKey, attr⟩ := s
  obtain ⟨rfl, rfl⟩ := h
  unfold Phase.next
  dsimp only
  split_ifs with hblank hquote
  · exact hat.once ⟨.beforeValue, start, mapKey, attr⟩ (by simp only [scanChar, if_pos hblank]) rfl
      ⟨rfl, rfl⟩
  · exact hat.once ⟨.value, i + 1, mapKey, attr⟩
      (by simp only [scanChar, if_neg hblank, if_pos hquote]) rfl
      ⟨rfl, rfl, le_rfl, substr_self key (i + 1)⟩
  · exact hat.once ⟨.failed, start, mapKey, attr⟩
      (by simp only [scanChar, if_neg hblank, if_neg hquote]) rfl rfl

/-- One step behind the `=`. -/
theorem afterEquals (h : InPhase key i s (.afterEquals n)) :
    Continues key len i s (Phase.next c (.afterEquals n)) := by
  obtain ⟨status, start, mapKey, attr⟩ := s
  obtain ⟨rfl, rfl⟩ := h
  unfold Phase.next
  dsimp only
  split_ifs with hblank hquote
  · -- The loop goes back by one: the blank is looked at again in the next state.
    refine hat.again ⟨.beforeValue, start, mapKey, attr⟩
      (by simp only [scanChar, if_pos hblank]) rfl ?_
    have hstep := hat.beforeValue (s := ⟨.beforeValue, start, mapKey, attr⟩) ⟨rfl, rfl⟩
    rwa [Phase.next, if_pos hblank] at hstep
  · exact hat.once ⟨.value, i + 1, mapKey, attr⟩
      (by simp only [scanChar, if_neg hblank, if_pos hquote]) rfl
      ⟨rfl, rfl, le_rfl, substr_self key (i + 1)⟩
  · exact hat.once ⟨.failed, start, mapKey, attr⟩
      (by simp only [scanChar, if_neg hblank, if_neg hquote]) rfl rfl

/-- One step inside of a name. -/
theorem name (hlen : len ≤ key.length) (h : InPhase key i s (.name n)) :
    Continues key len i s (Phase.next c (.name n)) := by
  obtain ⟨status, start, mapKey, attr⟩ := s
  obtain ⟨rfl, hstart, rfl⟩ := h
  unfold Phase.next
  dsimp only at hstart ⊢
  split_ifs with hblank hquote hequals
  · refine hat.again ⟨.afterName, start, substr key start i, attr⟩
      (by simp only [scanChar, if_pos hblank]) rfl ?_
    have hstep := hat.afterName (s := ⟨.afterName, start, substr key start i, attr⟩) ⟨rfl, rfl⟩
    rwa [Phase.next, if_pos hblank] at hstep
  · exact hat.once ⟨.failed, start, mapKey, attr⟩
      (by simp only [scanChar, if_neg hblank, if_pos hquote]) rfl rfl
  · exact hat.once ⟨.afterEquals, start, substr key start i, attr⟩
      (by simp only [scanChar, if_neg hblank, if_neg hquote, if_pos hequals]) rfl ⟨rfl, rfl⟩
  · refine hat.once ⟨.name, start, mapKey, attr⟩
      (by simp only [scanChar, if_neg hblank, if_neg hquote, if_neg hequals]) rfl
      ⟨rfl, by dsimp only; omega, ?_⟩
    rw [substr_succ hstart (lt_of_lt_of_le hat.lt hlen), hat.char]

/-- One step between attributes. -/
theorem blanks (hlen : len ≤ key.length) (h : InPhase key i s .blanks) :
    Continues key len i s (Phase.next c .blanks) := by
  obtain ⟨status, start, mapKey, attr⟩ := s
  obtain rfl : status = .blanks := h
  unfold Phase.next
  dsimp only
  split_ifs with hblank hbad
  · exact hat.once ⟨.blanks, start, mapKey, attr⟩ (by simp only [scanChar, if_pos hblank]) rfl rfl
  · exact hat.once ⟨.failed, start, mapKey, attr⟩
      (by simp only [scanChar, if_neg hblank, if_pos hbad]) rfl rfl
  · -- The name starts at this very character, which is looked at again.
    refine hat.again ⟨.name, i, mapKey, attr⟩
      (by simp only [scanChar, if_neg hblank, if_neg hbad]) rfl ?_
    have hstep := hat.name (s := ⟨.name, i, mapKey, attr⟩) hlen ⟨rfl, le_rfl, substr_self key i⟩
    obtain ⟨hquote, hequals⟩ := not_or.mp hbad
    rwa [Phase.next, if_neg hblank, if_neg hquote, if_neg hequals, List.nil_append] at hstep

/-- One step inside of the tag's name. -/
theorem tagName (hlen : len ≤ key.length) (h : InPhase key i s .tagName) :
    Continues key len i s (Phase.next c .tagName) := by
  obtain ⟨status, start, mapKey, attr⟩ := s
  obtain rfl : status = .tagName := h
  unfold Phase.next
  dsimp only
  split_ifs with hblank hbad
  · refine hat.again ⟨.blanks, start, mapKey, attr⟩ (by simp only [scanChar, if_pos hblank]) rfl ?_
    have hstep := hat.blanks (s := ⟨.blanks, start, mapKey, attr⟩) hlen rfl
    rwa [Phase.next, if_pos hblank] at hstep
  · exact hat.once ⟨.failed, start, mapKey, attr⟩
      (by simp only [scanChar, if_neg hblank, if_pos hbad]) rfl rfl
  · exact hat.once ⟨.tagName, start, mapKey, attr⟩
      (by simp only [scanChar, if_neg hblank, if_neg hbad]) rfl rfl

/-- One step behind a value. -/
theorem afterValue (hlen : len ≤ key.length) (h : InPhase key i s .afterValue) :
    Continues key len i s (Phase.next c .afterValue) := by
  obtain ⟨status, start, mapKey, attr⟩ := s
  obtain rfl : status = .afterValue := h
  unfold Phase.next
  dsimp only
  split_ifs with hblank
  · refine hat.again ⟨.blanks, start, mapKey, attr⟩ (by simp only [scanChar, if_pos hblank]) rfl ?_
    have hstep := hat.blanks (s := ⟨.blanks, start, mapKey, attr⟩) hlen rfl
    rwa [Phase.next, if_pos hblank] at hstep
  · exact hat.once ⟨.failed, start, mapKey, attr⟩ (by simp only [scanChar, if_neg hblank]) rfl rfl

/-- One step inside of a value: its end stores the pair. -/
theorem value (hlen : len ≤ key.length) (h : InPhase key i s (.value n v)) :
    Continues key len i s (Phase.next c (.value n v)) := by
  obtain ⟨status, start, mapKey, attr⟩ := s
  obtain ⟨rfl, rfl, hstart, rfl⟩ := h
  unfold Phase.next
  dsimp only at hstart ⊢
  split_ifs with hquote
  · exact hat.once ⟨.afterValue, start, mapKey, store attr mapKey (substr key start i)⟩
      (by simp only [scanChar, if_pos hquote]) rfl rfl
  · refine hat.once ⟨.value, start, mapKey, attr⟩ (by simp only [scanChar, if_neg hquote]) rfl
      ⟨rfl, rfl, by dsimp only; omega, ?_⟩
    rw [substr_succ hstart (lt_of_lt_of_le hat.lt hlen), hat.char]

/-- One character, in every state that has not failed. -/
theorem step {p : Phase} (hlen : len ≤ key.length) (h : InPhase key i s p) (hp : p ≠ .failed) :
    Continues key len i s (p.next c) := by
  cases p with
  | tagName => exact hat.tagName hlen h
  | blanks => exact hat.blanks hlen h
  | name n => exact hat.name hlen h
  | afterName n => exact hat.afterName h
  | afterEquals n => exact hat.afterEquals h
  | beforeValue n => exact hat.beforeValue h
  | value n v => exact hat.value hlen h
  | afterValue => exact hat.afterValue hlen h
  | failed => exact absurd rfl hp

end At

end

/-- Two rows of pairs are stored one after the other. -/
theorem setAll_stored (m : AttrMap) (ps qs : List (Str × Str)) :
    OrderedMap.setAll (OrderedMap.setAll m (stored ps)) (stored qs)
      = OrderedMap.setAll m (stored (ps ++ qs)) := by
  rw [OrderedMap.setAll, OrderedMap.setAll, OrderedMap.setAll, ← List.foldl_append, stored, stored,
    stored, List.map_append]

/-- What is left of the text at the index `i`. -/
theorem at_of_drop {key : Str} {len i : Nat} {c : UInt8} {s : Str} (hlt : 60 ∉ key) (hgt : 62 ∉ key)
    (h : (key.take len).drop i = c :: s) : At key len i c ∧ (key.take len).drop (i + 1) = s := by
  have hlen : i < (key.take len).length := by
    by_contra hge
    rw [List.drop_eq_nil_of_le (not_lt.mp hge)] at h
    cases h
  have hkey := List.length_take_le' len key
  have hi : i < len := lt_of_lt_of_le hlen (List.length_take_le len key)
  rw [List.drop_eq_getElem_cons hlen, List.cons.injEq, List.getElem_take] at h
  have hmem : c ∈ key := h.1 ▸ List.getElem_mem _
  refine ⟨⟨hi, ?_, fun heq => hlt (heq ▸ hmem), fun heq => hgt (heq ▸ hmem)⟩, h.2⟩
  rw [List.getD_eq_getElem _ _ (lt_of_lt_of_le hlen hkey)]
  exact h.1

/-- The loop reads the rest of the text. It returns `true` unless the state had failed in
front of the last character. -/
theorem scanFrom_eq {key : Str} {len : Nat} (hlen : len ≤ key.length) (hlt : 60 ∉ key)
    (hgt : 62 ∉ key) (rest : Str) {i : Nat} {s : Scan} {p : Phase} (h : InPhase key i s p)
    (hrest : (key.take len).drop i = rest) : scanFrom key len i s
      = (decide (rest = [] ∨ (read p rest.dropLast).1 ≠ .failed),
          OrderedMap.setAll s.attr (stored (read p rest).2)) := by
  induction rest generalizing i s p with
  | nil =>
    have hi : ¬ i < len := by
      have hle := List.drop_eq_nil_iff.mp hrest
      rw [List.length_take_of_le hlen] at hle
      omega
    rw [scanFrom, if_neg hi]
    simp [read, stored, OrderedMap.setAll]
  | cons c rest ih =>
    obtain ⟨hat, hnext⟩ := at_of_drop hlt hgt hrest
    by_cases hp : p = .failed
    · -- There is a character left to notice the failure at.
      subst hp
      rw [hat.scanFrom_failed h, read_failed, read_failed]
      simp [stored, OrderedMap.setAll]
    obtain ⟨s', heq, hphase, hattr⟩ := hat.step hlen h hp
    -- The step is the one of the phases, and the rest is the induction hypothesis.
    rw [heq, ih hphase hnext, hattr, setAll_stored]
    cases rest with
    | nil => simp [read, hp]
    | cons d rest => simp [read]

/-- The characters that the `int` length leaves. -/
def seen (key : Str) : Str := key.take (srcLen32 key.length)

/-- The whole call as a run of the phases, over the characters that the length leaves but the
last. -/
theorem getXmlAttribute_eq {key : Str} (hlt : 60 ∉ key) (hgt : 62 ∉ key) : getXmlAttribute key
    = (decide ((read .tagName (seen key).dropLast).1 ≠ .failed),
        OrderedMap.setAll [] (stored (read .tagName (seen key)).2)) := by
  have hphase : InPhase key 0 ⟨.tagName, 0, [], []⟩ .tagName := rfl
  rw [getXmlAttribute, scanFrom_eq (srcLen32_le _) hlt hgt (seen key) hphase rfl]
  by_cases hseen : seen key = []
  · simp [hseen, read]
  · simp [hseen]

/-! ### Texts of the grammar are read -/

section

/-- A state in front of the blanks of an attribute. -/
def Phase.Outside (p : Phase) : Prop := p.next blank = (.blanks, [])

/-- Between attributes the scan is outside of one. -/
theorem outside_blanks : Phase.Outside .blanks := rfl

/-- Behind a value the scan is outside of an attribute. -/
theorem outside_afterValue : Phase.Outside .afterValue := rfl

/-- In the tag's name the scan is outside of an attribute. -/
theorem outside_tagName : Phase.Outside .tagName := rfl

variable {p q : Phase} {n v s : Str}

/-- A character that leaves the state as it is. -/
theorem read_replicate {c : UInt8} (h : p.next c = (p, [])) (k : Nat) :
    read p (List.replicate k c) = (p, []) := by
  induction k with
  | zero => rfl
  | succ k ih => rw [List.replicate_succ, read, h, ih, List.append_nil]

/-- Blanks lead to a phase in which further ones change nothing. -/
theorem read_blanks (h : p.next blank = (q, [])) (hq : q.next blank = (q, [])) (k : Nat) :
    read p (blanks k) = (if k = 0 then p else q, []) := by
  cases k with
  | zero => rfl
  | succ k =>
    rw [blanks, List.replicate_succ, read, h, read_replicate hq]
    simp

/-- The name of a tag stores nothing. -/
theorem read_tagName (h : PlainName s) : read .tagName s = (.tagName, []) := by
  induction s with
  | nil => rfl
  | cons c s ih =>
    obtain ⟨hblank, hquote, hequals⟩ := h c List.mem_cons_self
    rw [read, Phase.next, if_neg hblank, if_neg (not_or.mpr ⟨hquote, hequals⟩),
      ih fun b hb => h b (List.mem_cons_of_mem _ hb), List.append_nil]

/-- A name is collected character by character. -/
theorem read_name (h : PlainName s) : read (.name n) s = (.name (n ++ s), []) := by
  induction s generalizing n with
  | nil => simp [read]
  | cons c s ih =>
    obtain ⟨hblank, hquote, hequals⟩ := h c List.mem_cons_self
    rw [read, Phase.next, if_neg hblank, if_neg hquote, if_neg hequals,
      ih fun b hb => h b (List.mem_cons_of_mem _ hb), List.append_assoc]
    rfl

/-- The first character behind blanks begins a name. -/
theorem read_blanks_name (h : PlainName s) (hs : s ≠ []) :
    read .blanks s = (.name s, []) := by
  obtain ⟨c, s, rfl⟩ := List.exists_cons_of_ne_nil hs
  obtain ⟨hblank, hquote, hequals⟩ := h c List.mem_cons_self
  rw [read, Phase.next, if_neg hblank, if_neg (not_or.mpr ⟨hquote, hequals⟩),
    read_name fun b hb => h b (List.mem_cons_of_mem _ hb)]
  rfl

/-- A value is collected up to its quote. -/
theorem read_value (h : quote ∉ s) : read (.value n v) s = (.value n (v ++ s), []) := by
  induction s generalizing v with
  | nil => simp [read]
  | cons c s ih =>
    rw [List.mem_cons, not_or] at h
    rw [read, Phase.next, if_neg (Ne.symm h.1), ih h.2, List.append_assoc]
    rfl

/-- Blanks may stand before the `=`. -/
theorem read_blanks_equals (k : Nat) (p : Phase) (hp : p = .name n ∨ p = .afterName n) :
    read p (blanks k ++ [equals]) = (.afterEquals n, []) := by
  have hblanks : read p (blanks k) = (if k = 0 then p else .afterName n, []) := by
    rcases hp with rfl | rfl <;> exact read_blanks rfl rfl k
  rw [read_append, hblanks]
  rcases hp with rfl | rfl <;> split_ifs <;> rfl

/-- Blanks may stand before the quote. -/
theorem read_blanks_quote (k : Nat) (n : Str) :
    read (.afterEquals n) (blanks k ++ [quote]) = (.value n [], []) := by
  rw [read_append, read_blanks (q := .beforeValue n) rfl rfl]
  split_ifs <;> rfl

/-- An attribute without its closing quote. -/
theorem read_body {a : Attribute} (ha : a.WellFormed) (hp : p.Outside) :
    read p a.body = (.value a.name a.value, []) := by
  have hbefore : read p (blanks a.before) = (.blanks, []) := by
    rw [read_blanks hp rfl, if_neg ha.before.ne']
  have hbody : a.body = blanks a.before ++ (a.name ++ ((blanks a.afterName ++ [equals]) ++
      ((blanks a.afterEquals ++ [quote]) ++ a.value))) := by
    simp [Attribute.body]
  rw [hbody, read_append, hbefore, read_append, read_blanks_name ha.name ha.name_ne, read_append,
    read_blanks_equals _ _ (Or.inl rfl), read_append, read_blanks_quote, read_value ha.value]
  rfl

/-- One attribute is read as its pair. -/
theorem read_attribute {a : Attribute} (ha : a.WellFormed) (hp : p.Outside) :
    read p a.text = (.afterValue, [a.pair]) := by
  rw [Attribute.text, read_append, read_body ha hp]
  rfl

/-- All of them are read in their order. -/
theorem read_attributes {as : List Attribute} (has : ∀ a ∈ as, a.WellFormed) (hp : p.Outside) :
    ∃ q : Phase, q.Outside ∧
      read p (as.flatMap Attribute.text) = (q, as.map Attribute.pair) := by
  induction as generalizing p with
  | nil => exact ⟨p, hp, rfl⟩
  | cons a as ih =>
    obtain ⟨q, hq, hread⟩ := ih (fun b hb => has b (List.mem_cons_of_mem _ hb)) outside_afterValue
    refine ⟨q, hq, ?_⟩
    rw [List.flatMap_cons, read_append, read_attribute (has a List.mem_cons_self) hp, hread]
    rfl

/-- A text of the grammar is read as the pairs of its attributes. -/
theorem read_tagText {t : TagText} {nameless : Bool} (ht : t.WellFormed nameless) :
    ∃ q : Phase, q.Outside ∧
      read .tagName t.text = (q, t.attributes.map Attribute.pair) := by
  obtain ⟨q, hq, hread⟩ := read_attributes ht.attributes outside_tagName
  refine ⟨if t.trailing = 0 then q else .blanks, ?_, ?_⟩
  · split_ifs
    · exact hq
    · exact outside_blanks
  · rw [TagText.text, read_append, read_tagName ht.name, read_append, hread, read_blanks hq rfl]
    simp

end

/-! ### Texts that are read can be completed -/

/-- A text with a name is also one of the grammar that allows none. -/
theorem TagText.WellFormed.nameless {t : TagText} {nameless : Bool} (h : t.WellFormed nameless) :
    t.WellFormed true :=
  ⟨h.name, fun hfalse => absurd hfalse (by decide), h.attributes⟩

/-- The tag text up to the attribute that is being read. -/
structure Opened (t : TagText) (n : Str) : Prop where
  text : t.WellFormed true
  trailing : 0 < t.trailing
  name : PlainName n
  name_ne : n ≠ []

/-- What the state says of the text that led to it. -/
def Reads (s : Str) : Phase → Prop
  | .tagName => PlainName s
  | .blanks => ∃ t : TagText, t.WellFormed true ∧ 0 < t.trailing ∧ s = t.text
  | .name n => ∃ t, Opened t n ∧ s = t.text ++ n
  | .afterName n => ∃ t k, Opened t n ∧ s = t.text ++ n ++ blanks k
  | .afterEquals n => ∃ t k, Opened t n ∧ s = t.text ++ n ++ blanks k ++ [equals]
  | .beforeValue n => ∃ t k j, Opened t n ∧ s = t.text ++ n ++ blanks k ++ [equals] ++ blanks j
  | .value n v => ∃ t k j, Opened t n ∧ quote ∉ v ∧
      s = t.text ++ n ++ blanks k ++ [equals] ++ blanks j ++ [quote] ++ v
  | .afterValue => ∃ t : TagText, t.WellFormed true ∧ s = t.text
  | .failed => True

/-- The tag text with the attribute that was being read. -/
theorem Opened.close {t : TagText} {n v : Str} (h : Opened t n) (hv : quote ∉ v) (k j : Nat) :
    ∃ t' : TagText, t'.WellFormed true ∧
      t.text ++ n ++ blanks k ++ [equals] ++ blanks j ++ [quote] ++ v ++ [quote] = t'.text := by
  refine ⟨⟨t.name, t.attributes ++ [⟨t.trailing, n, k, j, v⟩], 0⟩,
    ⟨h.text.name, h.text.name_ne, ?_⟩, ?_⟩
  · intro a ha
    rcases List.mem_append.mp ha with ha | ha
    · exact h.text.attributes a ha
    · rw [List.mem_singleton.mp ha]
      exact ⟨h.trailing, h.name_ne, h.name, hv⟩
  · simp [TagText.text, Attribute.text, Attribute.body, blanks]

/-- A text of the grammar needs no continuation. -/
theorem TagText.WellFormed.viable {t : TagText} (h : t.WellFormed true) : Viable t.text :=
  ⟨[], t, h, List.append_nil _⟩

/-- Every state but `failed` has a text that leads from it to the end of an attribute. -/
theorem Reads.viable {s : Str} {p : Phase} (h : Reads s p) (hp : p ≠ .failed) : Viable s := by
  cases p with
  | tagName => exact ⟨[], ⟨s, [], 0⟩, ⟨h, fun hfalse => absurd hfalse (by decide), by simp⟩, rfl⟩
  | blanks =>
    obtain ⟨t, ht, -, rfl⟩ := h
    exact ht.viable
  | name n =>
    obtain ⟨t, ht, rfl⟩ := h
    -- What is missing is an equals sign and an empty value.
    obtain ⟨t', ht', heq⟩ := ht.close List.not_mem_nil 0 0
    exact ⟨[equals, quote, quote], t', ht', by rw [← heq]; simp [Xml.blanks]⟩
  | afterName n =>
    obtain ⟨t, k, ht, rfl⟩ := h
    obtain ⟨t', ht', heq⟩ := ht.close List.not_mem_nil k 0
    exact ⟨[equals, quote, quote], t', ht', by rw [← heq]; simp [Xml.blanks]⟩
  | afterEquals n =>
    obtain ⟨t, k, ht, rfl⟩ := h
    obtain ⟨t', ht', heq⟩ := ht.close List.not_mem_nil k 0
    exact ⟨[quote, quote], t', ht', by rw [← heq]; simp [Xml.blanks]⟩
  | beforeValue n =>
    obtain ⟨t, k, j, ht, rfl⟩ := h
    obtain ⟨t', ht', heq⟩ := ht.close List.not_mem_nil k j
    exact ⟨[quote, quote], t', ht', by rw [← heq]; simp⟩
  | value n v =>
    obtain ⟨t, k, j, ht, hv, rfl⟩ := h
    obtain ⟨t', ht', heq⟩ := ht.close hv k j
    exact ⟨[quote], t', ht', heq⟩
  | afterValue =>
    obtain ⟨t, ht, rfl⟩ := h
    exact ht.viable
  | failed => exact absurd rfl hp

/-- One blank more. -/
theorem blanks_succ (k : Nat) : blanks k ++ [blank] = blanks (k + 1) :=
  (List.replicate_succ' ..).symm

/-- One more blank behind a tag text. -/
theorem TagText.text_blank (t : TagText) :
    t.text ++ [blank] = { t with trailing := t.trailing + 1 }.text := by
  simp only [TagText.text, List.append_assoc, ← blanks_succ]

/-- Blanks may be added at the end. -/
theorem TagText.WellFormed.blank {t : TagText} (h : t.WellFormed true) (k : Nat) :
    { t with trailing := k }.WellFormed true := ⟨h.name, h.name_ne, h.attributes⟩

/-- A name grows by a character that is allowed in it. -/
theorem plainName_append {s : Str} {c : UInt8} (h : PlainName s) (hblank : c ≠ blank)
    (hquote : c ≠ quote) (hequals : c ≠ equals) : PlainName (s ++ [c]) := by
  intro b hb
  rcases List.mem_append.mp hb with hb | hb
  · exact h b hb
  · exact List.mem_singleton.mp hb ▸ ⟨hblank, hquote, hequals⟩

/-- A blank behind a text of the grammar. -/
theorem Reads.blanks_of_text {t : TagText} (h : t.WellFormed true) :
    Reads (t.text ++ [blank]) .blanks :=
  ⟨_, h.blank (t.trailing + 1), Nat.succ_pos _, t.text_blank⟩

/-- A character moves the place it says. -/
theorem Reads.step {s : Str} {p : Phase} (h : Reads s p) (c : UInt8) :
    Reads (s ++ [c]) (p.next c).1 := by
  cases p with
  | tagName =>
    unfold Phase.next
    dsimp only
    split_ifs with hblank hbad
    · -- The tag name is complete: a tag text with no attributes and one blank.
      have hname : (⟨s, [], 0⟩ : TagText).WellFormed true :=
        ⟨h, fun hfalse => absurd hfalse (by decide), by simp⟩
      have htext := Reads.blanks_of_text hname
      rw [TagText.text] at htext
      simpa [Xml.blanks, hblank] using htext
    · trivial
    · obtain ⟨hquote, hequals⟩ := not_or.mp hbad
      exact plainName_append h hblank hquote hequals
  -- A new name begins, or a further blank is added.
  | blanks =>
    obtain ⟨t, ht, htrailing, rfl⟩ := h
    unfold Phase.next
    dsimp only
    split_ifs with hblank hbad
    · exact hblank ▸ Reads.blanks_of_text ht
    · trivial
    · obtain ⟨hquote, hequals⟩ := not_or.mp hbad
      refine ⟨t, ⟨ht, htrailing, ?_, List.cons_ne_nil c []⟩, rfl⟩
      exact plainName_append (fun b hb => absurd hb List.not_mem_nil) hblank hquote hequals
  -- The name goes on, or a blank or the `=` ends it.
  | name n =>
    obtain ⟨t, ht, rfl⟩ := h
    unfold Phase.next
    dsimp only
    split_ifs with hblank hquote hequals
    · exact ⟨t, 1, ht, by rw [hblank]; rfl⟩
    · trivial
    · exact ⟨t, 0, ht, by rw [hequals]; simp [Xml.blanks]⟩
    · exact ⟨t, ⟨ht.text, ht.trailing, plainName_append ht.name hblank hquote hequals, by simp⟩,
        List.append_assoc ..⟩
  -- Blanks behind the name up to the `=`.
  | afterName n =>
    obtain ⟨t, k, ht, rfl⟩ := h
    unfold Phase.next
    dsimp only
    split_ifs with hblank hequals
    · exact ⟨t, k + 1, ht, by rw [hblank, List.append_assoc, blanks_succ]⟩
    · exact ⟨t, k, ht, by rw [hequals]⟩
    · trivial
  -- Blanks behind the `=` up to the quote.
  | afterEquals n =>
    obtain ⟨t, k, ht, rfl⟩ := h
    unfold Phase.next
    dsimp only
    split_ifs with hblank hquote
    · exact ⟨t, k, 1, ht, by rw [hblank]; rfl⟩
    · exact ⟨t, k, 0, ht, List.not_mem_nil, by rw [hquote]; simp [Xml.blanks]⟩
    · trivial
  | beforeValue n =>
    obtain ⟨t, k, j, ht, rfl⟩ := h
    unfold Phase.next
    dsimp only
    split_ifs with hblank hquote
    · exact ⟨t, k, j + 1, ht, by rw [hblank, List.append_assoc, blanks_succ]⟩
    · exact ⟨t, k, j, ht, List.not_mem_nil, by rw [hquote, List.append_nil]⟩
    · trivial
  | value n v =>
    obtain ⟨t, k, j, ht, hv, rfl⟩ := h
    unfold Phase.next
    dsimp only
    split_ifs with hquote
    · -- The closing quote ends the attribute.
      obtain ⟨t', ht', heq⟩ := ht.close hv k j
      exact ⟨t', ht', by rw [hquote, heq]⟩
    · refine ⟨t, k, j, ht, ?_, List.append_assoc ..⟩
      simp [hv, Ne.symm hquote]
  -- Between two attributes there has to be a blank.
  | afterValue =>
    obtain ⟨t, ht, rfl⟩ := h
    unfold Phase.next
    dsimp only
    split_ifs with hblank
    · exact hblank ▸ Reads.blanks_of_text ht
    · trivial
  | failed => trivial

/-- Whatever the scan has read, its state says so. By induction on the text, from the right. -/
theorem reads (s : Str) : Reads s (read .tagName s).1 := by
  induction s using List.reverseRecOn with
  | nil => exact fun b hb => absurd hb List.not_mem_nil
  | append_singleton s c ih =>
    rw [read_append]
    exact ih.step c

/-- A scan that has not failed later has not failed before. -/
theorem read_prefix {p : Phase} {s rest : Str} (h : (read p (s ++ rest)).1 ≠ .failed) :
    (read p s).1 ≠ .failed := by
  intro hfailed
  rw [read_append, hfailed, read_failed] at h
  exact h rfl

/-- A text leads to a state other than `failed` exactly if it can be continued. -/
theorem read_ne_failed_iff {s : Str} : (read .tagName s).1 ≠ .failed ↔ Viable s := by
  constructor
  · exact fun h => (reads s).viable h
  · rintro ⟨rest, t, ht, heq⟩
    obtain ⟨q, hq, hread⟩ := read_tagText ht
    have hfull : (read .tagName (s ++ rest)).1 ≠ .failed := by
      rw [heq, hread]
      -- A text of the grammar leads out of its attributes, and `failed` is not outside.
      rintro rfl
      exact absurd hq (by simp [Phase.Outside, Phase.next])
    exact read_prefix hfull

/-! ### The attributes that are read -/

/-- The attributes that end within the next `room` characters. -/
def fitting : Nat → List Attribute → List Attribute
  | _, [] => []
  | room, a :: as => if a.text.length ≤ room then a :: fitting (room - a.text.length) as else []

/-- The attributes that end within the first `m` characters. -/
def TagText.within (t : TagText) (m : Nat) : List Attribute :=
  fitting (m - t.name.length) t.attributes

/-- If there is room for all, all fit. -/
theorem fitting_of_le {as : List Attribute} {room : Nat}
    (h : (as.flatMap Attribute.text).length ≤ room) : fitting room as = as := by
  induction as generalizing room with
  | nil => rfl
  | cons a as ih =>
    rw [List.flatMap_cons, List.length_append] at h
    rw [fitting, if_pos (by omega), ih (by omega)]

/-- The same for a whole text. -/
theorem TagText.within_of_le {t : TagText} {m : Nat} (h : t.text.length ≤ m) :
    t.within m = t.attributes := by
  simp only [TagText.text, List.length_append] at h
  exact fitting_of_le (by omega)

/-- If a text stores no pair, none of its beginnings does. -/
theorem read_take {p : Phase} {s : Str} (h : (read p s).2 = []) (k : Nat) :
    (read p (s.take k)).2 = [] := by
  rw [← List.take_append_drop k s, read_append] at h
  exact (List.append_eq_nil_iff.mp h).1

/-- Of attributes that are cut those are read that end in front of the cut. -/
theorem read_fitting {as : List Attribute} (has : ∀ a ∈ as, a.WellFormed) {p : Phase}
    (hp : p.Outside) (trailing room : Nat) :
    (read p ((as.flatMap Attribute.text ++ blanks trailing).take room)).2
      = (fitting room as).map Attribute.pair := by
  induction as generalizing p room with
  | nil => exact read_take (by rw [List.flatMap_nil, List.nil_append, read_blanks hp rfl]) room
  | cons a as ih =>
    have ha := has a List.mem_cons_self
    rw [List.flatMap_cons, List.append_assoc, List.take_append, fitting]
    split_ifs with hroom
    · rw [List.take_of_length_le hroom, read_append, read_attribute ha hp,
        ih (fun b hb => has b (List.mem_cons_of_mem _ hb)) outside_afterValue]
      rfl
    · -- The closing quote is behind the last character that is looked at.
      have hbody : room ≤ a.body.length := by
        rw [Attribute.text, List.length_append, List.length_singleton] at hroom
        omega
      rw [Nat.sub_eq_zero_of_le (not_le.mp hroom).le, List.take_zero, List.append_nil,
        Attribute.text, List.take_append_of_le_length hbody,
        read_take (by rw [read_body ha hp]) room]
      rfl

/-- The same for a whole text. -/
theorem read_within {t : TagText} {nameless : Bool} (ht : t.WellFormed nameless) (m : Nat) :
    (read .tagName (t.text.take m)).2 = (t.within m).map Attribute.pair := by
  have hname : PlainName (t.name.take m) := fun b hb => ht.name b (List.mem_of_mem_take hb)
  rw [TagText.text, List.take_append, read_append, read_tagName hname, List.nil_append]
  exact read_fitting ht.attributes outside_tagName t.trailing _

/-! ### What is accepted -/

section

variable {key : Str}

/-- The call says yes exactly if what it has seen can be continued to a text of the grammar. -/
theorem accepts_iff (hlt : 60 ∉ key) (hgt : 62 ∉ key) :
    (getXmlAttribute key).1 = true ↔ Viable (seen key).dropLast := by
  rw [getXmlAttribute_eq hlt hgt, decide_eq_true_eq, read_ne_failed_iff]

/-- Every start of a text of the grammar is viable. -/
theorem viable_of_prefix {s : Str} {t : TagText} {nameless : Bool} (ht : t.WellFormed nameless)
    (h : s <+: t.text) : Viable s := by
  obtain ⟨rest, heq⟩ := h
  exact ⟨rest, t, ht.nameless, heq⟩

/-- The pairs are those of the text exactly if what lies behind the cut brings no new ones. -/
theorem describes_iff (hlt : 60 ∉ key) (hgt : 62 ∉ key) {t : TagText} {nameless : Bool}
    (ht : t.WellFormed nameless) (hkey : key = t.text) :
    OrderedMap.Describes (stored (t.attributes.map Attribute.pair)) (getXmlAttribute key).2 ↔
      ∀ k, OrderedMap.lastValue k (stored ((t.within (srcLen32 key.length)).map Attribute.pair))
        = OrderedMap.lastValue k (stored (t.attributes.map Attribute.pair)) := by
  have hread : (read .tagName (seen key)).2
      = (t.within (srcLen32 key.length)).map Attribute.pair := by
    rw [← read_within ht, ← hkey, seen]
  have hmap := OrderedMap.describes_setAll
    (stored ((t.within (srcLen32 key.length)).map Attribute.pair))
  rw [getXmlAttribute_eq hlt hgt, hread]
  constructor
  · exact fun h k => (hmap.last_wins k).symm.trans (h.last_wins k)
  · exact fun h => ⟨hmap.sorted, fun k => (hmap.last_wins k).trans (h k)⟩

/-- The promise is kept exactly under two conditions. In a text of the grammar, the attributes
that end within the characters looked at decide the last value of every name. A text outside
the grammar cannot be continued to one of it even without the last character looked at. -/
theorem exact_iff (hlt : 60 ∉ key) (hgt : 62 ∉ key) (nameless : Bool) :
    Exact nameless key ↔
      (∀ t : TagText, t.WellFormed nameless → key = t.text → ∀ k,
        OrderedMap.lastValue k (stored ((t.within (srcLen32 key.length)).map Attribute.pair))
          = OrderedMap.lastValue k (stored (t.attributes.map Attribute.pair))) ∧
      ((¬∃ t : TagText, t.WellFormed nameless ∧ key = t.text) →
        ¬Viable (seen key).dropLast) := by
  constructor
  · intro h
    refine ⟨fun t ht hkey => (describes_iff hlt hgt ht hkey).mp (h.holds t ht hkey), ?_⟩
    intro hout hviable
    exact hout (h.accepts.mp ((accepts_iff hlt hgt).mpr hviable))
  · rintro ⟨hlast, hout⟩
    refine ⟨?_, fun t ht hkey => (describes_iff hlt hgt ht hkey).mpr (hlast t ht hkey)⟩
    rw [accepts_iff hlt hgt]
    constructor
    · intro hviable
      by_contra hnot
      exact hout hnot hviable
    · rintro ⟨t, ht, hkey⟩
      refine viable_of_prefix ht ?_
      rw [← hkey, seen]
      exact (List.dropLast_prefix _).trans (List.take_prefix _ _)

end

/-- `p id="1"`, a text of the grammar. -/
theorem exact_paragraph : Exact false (text ['p', ' ', 'i', 'd', '=', '"', '1', '"']) := by
  refine (exact_iff (by decide) (by decide) false).mpr ⟨fun t ht hkey k => ?_, fun hout => ?_⟩
  · rw [TagText.within_of_le (by rw [← hkey]; decide)]
  · refine absurd ⟨⟨text ['p'], [⟨1, text ['i', 'd'], 0, 0, text ['1']⟩], 0⟩, ⟨?_, ?_, ?_⟩, rfl⟩
      hout
    · simp [PlainName, text, blank, quote, equals]
    · decide
    · intro a ha
      rw [List.mem_singleton.mp ha]
      exact ⟨by decide, by decide, by simp [PlainName, text, blank, quote, equals], by decide⟩

/-- `a b` is accepted, although the name `b` has no value. -/
theorem not_exact_valueless : ¬∃ nameless, Exact nameless (text ['a', ' ', 'b']) := by
  rintro ⟨nameless, hexact⟩
  have hviable : (getXmlAttribute (text ['a', ' ', 'b'])).1 = true := by
    rw [getXmlAttribute_eq (by decide) (by decide)]
    decide
  obtain ⟨t, ht, hkey⟩ := hexact.accepts.mp hviable
  obtain ⟨q, hq, hread⟩ := read_tagText ht
  -- It ends inside a name, but a text of the grammar ends outside.
  have hname : (read .tagName (text ['a', ' ', 'b'])).1 = .name (text ['b']) := by decide
  rw [hkey, hread] at hname
  rw [show q = .name (text ['b']) from hname] at hq
  exact absurd hq (by simp [Phase.Outside, Phase.next])

end Mylib.Proofs.Base.Xml
