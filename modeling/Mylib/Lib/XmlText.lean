import Mathlib.Data.List.Basic
import Mathlib.Order.Basic

/-!
# `Mylib.Lib.XmlText`: a reader of XML documents

The documents that a printer needs: one element, with attributes in double quotes, text and the
five predefined references. The reader goes through the bytes of the text one by one (`step`) and
reports the tags and the text it has read, so that a document can be read in pieces (`run_append`).
It refuses what it does not know, as comments, sections and declarations, and whatever an XML
processor changes while reading: carriage returns, and tabs and line ends in attribute values.

Which bytes may stand in a document at all is a question of its own (`IsText`): they are the UTF-8
encoding of XML characters.
-/

set_option autoImplicit false

namespace Mylib.Lib.XmlText

/-- The bytes of a text, or of a part of it. -/
abbrev Bytes := List UInt8

/-! ### Characters -/

/-- `Char` of the XML recommendation, as a code point. -/
def IsChar (n : Nat) : Prop :=
  n = 0x9 ∨ n = 0xA ∨ n = 0xD ∨ (0x20 ≤ n ∧ n ≤ 0xD7FF) ∨ (0xE000 ≤ n ∧ n ≤ 0xFFFD) ∨
    (0x10000 ≤ n ∧ n ≤ 0x10FFFF)

instance (n : Nat) : Decidable (IsChar n) := by
  unfold IsChar
  infer_instance

/-- Where a reader of UTF-8 is: between two characters, or in front of `left + 1` further bytes of
one, whose code point has to be at least `least` and of which `value` has been read. -/
inductive Utf8 where
  | between
  | inside (left least value : Nat)
  deriving DecidableEq

/-- One byte of UTF-8. -/
def utf8Step : Utf8 → UInt8 → Option Utf8
  | .between, b =>
    if b < 0x80 then if IsChar b.toNat then some .between else none
    else if 0xC0 ≤ b ∧ b < 0xE0 then some (.inside 0 0x80 (b.toNat - 0xC0))
    else if 0xE0 ≤ b ∧ b < 0xF0 then some (.inside 1 0x800 (b.toNat - 0xE0))
    else if 0xF0 ≤ b ∧ b < 0xF8 then some (.inside 2 0x10000 (b.toNat - 0xF0))
    else none
  | .inside left least value, b =>
    if 0x80 ≤ b ∧ b < 0xC0 then
      let value := value * 64 + (b.toNat - 0x80)
      match left with
      | 0 => if least ≤ value ∧ IsChar value then some .between else none
      | left + 1 => some (.inside left least value)
    else none

/-- The text is UTF-8 of XML characters. -/
def IsText (t : Bytes) : Prop := t.foldlM utf8Step .between = some .between

instance (t : Bytes) : Decidable (IsText t) :=
  inferInstanceAs (Decidable (t.foldlM utf8Step .between = some .between))

/-- The empty text has no character that could be wrong. -/
theorem isText_nil : IsText [] := rfl

/-- Two texts one after the other are a text, since the first one ends between characters. -/
theorem IsText.append {t u : Bytes} (ht : IsText t) (hu : IsText u) : IsText (t ++ u) := by
  show (t ++ u).foldlM utf8Step .between = some .between
  rw [List.foldlM_append, show t.foldlM utf8Step .between = some .between from ht]
  exact hu

/-- So are any number of texts. -/
theorem isText_flatMap {α : Type} {f : α → Bytes} {l : List α} (h : ∀ a ∈ l, IsText (f a)) :
    IsText (l.flatMap f) := by
  induction l with
  | nil => exact isText_nil
  | cons a l ih =>
    obtain ⟨ha, hl⟩ := List.forall_mem_cons.mp h
    rw [List.flatMap_cons]
    exact ha.append (ih hl)

/-- The printable characters of ASCII are one byte each. -/
theorem isText_ascii {t : Bytes} (h : ∀ b ∈ t, 0x20 ≤ b ∧ b < 0x80) : IsText t := by
  induction t with
  | nil => exact isText_nil
  | cons b t ih =>
    obtain ⟨⟨hge, hlt⟩, ht⟩ := List.forall_mem_cons.mp h
    have hchar : IsChar b.toNat := by
      rw [UInt8.le_iff_toNat_le] at hge
      rw [UInt8.lt_iff_toNat_lt] at hlt
      have hlow : 0x20 ≤ b.toNat := hge
      have hhigh : b.toNat < 0x80 := hlt
      unfold IsChar
      omega
    show List.foldlM utf8Step .between (b :: t) = some .between
    rw [List.foldlM_cons, utf8Step, if_pos hlt, if_pos hchar]
    exact ih ht

/-- A byte of ASCII is a character of its own. -/
theorem utf8Step_ascii {s s' : Utf8} {b : UInt8} (hb : b < 0x80) (h : utf8Step s b = some s') :
    s = .between ∧ s' = .between := by
  cases s with
  | between =>
    rw [utf8Step, if_pos hb] at h
    split_ifs at h
    exact ⟨rfl, (Option.some.inj h).symm⟩
  | inside left least value =>
    have hnot : ¬(0x80 ≤ b ∧ b < 0xC0) := by
      rintro ⟨hge, -⟩
      exact absurd hb (UInt8.not_lt.mpr hge)
    rw [utf8Step, if_neg hnot] at h
    cases h

/-- Characters of ASCII may be replaced by other texts. -/
theorem foldlM_utf8_replace {f : UInt8 → Bytes}
    (hf : ∀ b, f b = [b] ∨ (b < 0x80 ∧ IsText (f b))) {t : Bytes} {s s' : Utf8}
    (h : t.foldlM utf8Step s = some s') : (t.flatMap f).foldlM utf8Step s = some s' := by
  induction t generalizing s with
  | nil => exact h
  | cons b t ih =>
    rw [List.foldlM_cons] at h
    obtain ⟨mid, hstep, hrest⟩ := Option.bind_eq_some_iff.mp h
    rw [List.flatMap_cons, List.foldlM_append]
    have hfront : (f b).foldlM utf8Step s = some mid := by
      rcases hf b with hsame | ⟨hb, htext⟩
      · rw [hsame, List.foldlM_cons, hstep]
        rfl
      · obtain ⟨rfl, rfl⟩ := utf8Step_ascii hb hstep
        exact htext
    rw [hfront]
    exact ih hrest

/-- A text in which characters of ASCII are replaced by texts is a text. -/
theorem IsText.replace {f : UInt8 → Bytes} (hf : ∀ b, f b = [b] ∨ (b < 0x80 ∧ IsText (f b)))
    {t : Bytes} (h : IsText t) : IsText (t.flatMap f) :=
  foldlM_utf8_replace hf h

/-! ### Names, values and content -/

/-- The characters of ASCII that a name begins with, without the colon. -/
def isNameStart (c : UInt8) : Bool := (65 ≤ c && c ≤ 90) || (97 ≤ c && c ≤ 122) || c == 95

/-- The characters of ASCII that a name may go on with. -/
def isNameChar (c : UInt8) : Bool :=
  isNameStart c || (48 ≤ c && c ≤ 57) || c == 45 || c == 46 || c == 58

/-- A name of ASCII characters. -/
def IsName : Bytes → Prop
  | [] => False
  | c :: name => isNameStart c = true ∧ ∀ d ∈ name, isNameChar d = true

instance : (name : Bytes) → Decidable (IsName name)
  | [] => inferInstanceAs (Decidable False)
  | c :: name =>
    decidable_of_iff (isNameStart c = true ∧ name.all isNameChar = true)
      (and_congr_right' List.all_eq_true)

/-- What a name may begin with it may go on with. -/
theorem isNameChar_of_start {c : UInt8} (h : isNameStart c = true) : isNameChar c = true := by
  rw [isNameChar, h]
  rfl

/-- A name is not empty. -/
theorem IsName.ne_nil {name : Bytes} (h : IsName name) : name ≠ [] := by
  rintro rfl
  exact h

/-- All characters of a name may stand in a name. -/
theorem IsName.chars {name : Bytes} (h : IsName name) : ∀ c ∈ name, isNameChar c = true := by
  cases name with
  | nil => exact h.elim
  | cons c name => exact List.forall_mem_cons.mpr ⟨isNameChar_of_start h.1, h.2⟩

/-- More characters behind a name. -/
theorem IsName.append {name rest : Bytes} (h : IsName name)
    (hrest : ∀ c ∈ rest, isNameChar c = true) : IsName (name ++ rest) := by
  cases name with
  | nil => exact h.elim
  | cons c name =>
    refine ⟨h.1, fun d hd => ?_⟩
    rcases List.mem_append.mp hd with hd | hd
    · exact h.2 d hd
    · exact hrest d hd

/-- The characters of names are printable characters of ASCII. -/
theorem printable_of_isNameChar {c : UInt8} (h : isNameChar c = true) : 0x20 ≤ c ∧ c < 0x80 := by
  simp only [isNameChar, isNameStart, Bool.or_eq_true, Bool.and_eq_true, decide_eq_true_eq,
    beq_iff_eq, UInt8.le_iff_toNat_le, ← UInt8.toNat_inj] at h
  rw [UInt8.le_iff_toNat_le, UInt8.lt_iff_toNat_lt]
  simp only [UInt8.reduceToNat] at h ⊢
  omega

/-- Names are made of printable characters. -/
theorem IsName.isText {name : Bytes} (h : IsName name) : IsText name :=
  isText_ascii fun c hc => printable_of_isNameChar (h.chars c hc)

/-- A text that is read as it stands in the content of an element, but for references. -/
structure IsContent (t : Bytes) : Prop where
  isText : IsText t
  noReturn : 13 ∉ t

/-- A text that is read as it stands in an attribute value, but for references. -/
structure IsValue (t : Bytes) : Prop where
  isText : IsText t
  noReturn : 13 ∉ t
  noTab : 9 ∉ t
  noNewline : 10 ∉ t

instance (t : Bytes) : Decidable (IsContent t) :=
  decidable_of_iff (IsText t ∧ 13 ∉ t) ⟨fun h => ⟨h.1, h.2⟩, fun h => ⟨h.isText, h.noReturn⟩⟩

instance (t : Bytes) : Decidable (IsValue t) :=
  decidable_of_iff (IsText t ∧ 13 ∉ t ∧ 9 ∉ t ∧ 10 ∉ t)
    ⟨fun h => ⟨h.1, h.2.1, h.2.2.1, h.2.2.2⟩, fun h => ⟨h.isText, h.noReturn, h.noTab, h.noNewline⟩⟩

/-! ### The reader -/

/-- What is reported. -/
inductive Event where
  | start (name : Bytes) (atts : List (Bytes × Bytes))
  | finish (name : Bytes)
  | chars (text : Bytes)
  deriving DecidableEq, Repr

/-- Where the reader is. -/
inductive Mode where
  /-- In front of the document. -/
  | front
  /-- Inside of an element, between tags and references. -/
  | content
  /-- Behind the document. -/
  | done
  /-- Behind a `<`. -/
  | angle
  | reference (ref : Bytes)
  | endTag (name : Bytes)
  | startTag (name : Bytes)
  /-- Behind the blank in front of an attribute. -/
  | gap (name : Bytes) (atts : List (Bytes × Bytes))
  | attribute (name : Bytes) (atts : List (Bytes × Bytes)) (att : Bytes)
  /-- Behind the `=` of an attribute. -/
  | equals (name : Bytes) (atts : List (Bytes × Bytes)) (att : Bytes)
  | value (name : Bytes) (atts : List (Bytes × Bytes)) (att value : Bytes)
  | valueReference (name : Bytes) (atts : List (Bytes × Bytes)) (att value ref : Bytes)
  /-- Behind an attribute. -/
  | behindValue (name : Bytes) (atts : List (Bytes × Bytes))
  /-- Behind the `/` of a tag without content. -/
  | slash (name : Bytes) (atts : List (Bytes × Bytes))
  deriving DecidableEq, Repr

/-- The reader: the elements that are open, the innermost one first, and the place inside. -/
structure State where
  opened : List Bytes
  mode : Mode
  deriving DecidableEq, Repr

/-- The new state and what is reported, or nothing for a text that is refused. -/
abbrev Result := Option (State × List Event)

/-- The predefined references, without `&` and `;`. -/
def predefined : Bytes → Option UInt8
  | [108, 116] => some 60
  | [103, 116] => some 62
  | [97, 109, 112] => some 38
  | [113, 117, 111, 116] => some 34
  | [97, 112, 111, 115] => some 39
  | _ => none

/-- What comes behind an element. -/
def behind (opened : List Bytes) : Mode := if opened = [] then .done else .content

/-- What may come behind the name of a start tag, and behind each of its attributes. No attribute
stands in a tag twice. -/
def tagStep (opened : List Bytes) (name : Bytes) (atts : List (Bytes × Bytes)) (c : UInt8) :
    Result :=
  if c = 32 then some (⟨opened, .gap name atts⟩, [])
  else if c = 47 then some (⟨opened, .slash name atts⟩, [])
  else if c = 62 ∧ (atts.map Prod.fst).Nodup then
    some (⟨name :: opened, .content⟩, [.start name atts])
  else none

/-- One byte. -/
def step (s : State) (c : UInt8) : Result :=
  match s.mode with
  | .front => if c = 60 then some (⟨s.opened, .angle⟩, []) else none
  | .content =>
    if c = 60 then some (⟨s.opened, .angle⟩, [])
    else if c = 38 then some (⟨s.opened, .reference []⟩, [])
    else if c = 62 ∨ c = 13 then none
    else some (s, [.chars [c]])
  | .done => none
  | .angle =>
    if c = 47 then some (⟨s.opened, .endTag []⟩, [])
    else if isNameStart c then some (⟨s.opened, .startTag [c]⟩, [])
    else none
  | .reference ref =>
    if c = 59 then (predefined ref).map fun b => (⟨s.opened, .content⟩, [.chars [b]])
    else some (⟨s.opened, .reference (ref ++ [c])⟩, [])
  | .endTag name =>
    if c = 62 then
      match s.opened with
      | [] => none
      | inner :: opened =>
        if inner = name then some (⟨opened, behind opened⟩, [.finish name]) else none
    else some (⟨s.opened, .endTag (name ++ [c])⟩, [])
  | .startTag name =>
    if isNameChar c then some (⟨s.opened, .startTag (name ++ [c])⟩, [])
    else tagStep s.opened name [] c
  | .gap name atts =>
    if isNameStart c then some (⟨s.opened, .attribute name atts [c]⟩, []) else none
  | .attribute name atts att =>
    if c = 61 then some (⟨s.opened, .equals name atts att⟩, [])
    else if isNameChar c then some (⟨s.opened, .attribute name atts (att ++ [c])⟩, [])
    else none
  | .equals name atts att => if c = 34 then some (⟨s.opened, .value name atts att []⟩, []) else none
  | .value name atts att value =>
    if c = 34 then some (⟨s.opened, .behindValue name (atts ++ [(att, value)])⟩, [])
    else if c = 38 then some (⟨s.opened, .valueReference name atts att value []⟩, [])
    else if c = 60 ∨ c = 9 ∨ c = 10 ∨ c = 13 then none
    else some (⟨s.opened, .value name atts att (value ++ [c])⟩, [])
  | .valueReference name atts att value ref =>
    if c = 59 then
      (predefined ref).map fun b => (⟨s.opened, .value name atts att (value ++ [b])⟩, [])
    else some (⟨s.opened, .valueReference name atts att value (ref ++ [c])⟩, [])
  | .behindValue name atts => tagStep s.opened name atts c
  | .slash name atts =>
    if c = 62 ∧ (atts.map Prod.fst).Nodup then
      some (⟨s.opened, behind s.opened⟩, [.start name atts, .finish name])
    else none

/-- The bytes of a text one after the other, with all that is reported. -/
def run : State → Bytes → Result
  | s, [] => some (s, [])
  | s, c :: t => (step s c).bind fun r => (run r.1 t).map fun r' => (r'.1, r.2 ++ r'.2)

/-- The events of a whole document. -/
def readDocument (doc : Bytes) : Option (List Event) :=
  match run ⟨[], .front⟩ doc with
  | some (⟨_, .done⟩, es) => some es
  | _ => none

/-! ### Runs -/

section

variable {s s₁ s₂ : State} {t u : Bytes} {es fs : List Event}

/-- A run begins with the step for the first byte. -/
theorem run_cons {c : UInt8} (hstep : step s c = some (s₁, es)) :
    run s (c :: t) = (run s₁ t).map fun r => (r.1, es ++ r.2) := by
  rw [run, hstep, Option.bind_some]

/-- A byte for which nothing is reported. -/
theorem run_silent {c : UInt8} (hstep : step s c = some (s₁, [])) : run s (c :: t) = run s₁ t := by
  rw [run_cons hstep]
  exact Option.map_id'

/-- The second part of a text is read from where the first one ends. -/
theorem run_append (t u : Bytes) (s : State) :
    run s (t ++ u) = (run s t).bind fun r => (run r.1 u).map fun r' => (r'.1, r.2 ++ r'.2) := by
  induction t generalizing s with
  | nil => exact Option.map_id'.symm
  | cons c t ih =>
    rw [List.cons_append, run, run]
    -- By the outcome of the first step; a fault there ends both sides.
    cases step s c with
    | none => rfl
    | some r =>
      rw [Option.bind_some, Option.bind_some, ih]
      cases run r.1 t with
      | none => rfl
      | some r₁ =>
        rw [Option.map_some, Option.bind_some, Option.bind_some]
        cases run r₁.1 u with
        | none => rfl
        | some r₂ =>
          rw [Option.map_some, Option.map_some, Option.map_some, List.append_assoc]

/-- Two runs one after the other, with what both report. -/
theorem run_append_of (ht : run s t = some (s₁, es)) (hu : run s₁ u = some (s₂, fs)) :
    run s (t ++ u) = some (s₂, es ++ fs) := by
  rw [run_append, ht, Option.bind_some, hu]
  rfl

/-- Where nothing is reported for the first part. -/
theorem run_append_silent (ht : run s t = some (s₁, [])) : run s (t ++ u) = run s₁ u := by
  rw [run_append, ht, Option.bind_some]
  exact Option.map_id'

/-- Bytes that are only collected. -/
theorem run_collect (mode : Bytes → Mode) {opened : List Bytes}
    (h : ∀ c ∈ t, ∀ seen, step ⟨opened, mode seen⟩ c = some (⟨opened, mode (seen ++ [c])⟩, []))
    (seen : Bytes) : run ⟨opened, mode seen⟩ t = some (⟨opened, mode (seen ++ t)⟩, []) := by
  induction t generalizing seen with
  | nil =>
    rw [List.append_nil]
    rfl
  | cons c t ih =>
    obtain ⟨hc, ht⟩ := List.forall_mem_cons.mp h
    rw [run_silent (hc seen), ih ht, List.append_assoc, List.singleton_append]

end

/-! ### Tags -/

section

variable {opened : List Bytes} {name : Bytes} {atts : List (Bytes × Bytes)}

/-- The name of a start tag. -/
theorem run_startTag (h : IsName name) :
    run ⟨opened, .angle⟩ name = some (⟨opened, .startTag name⟩, []) := by
  cases name with
  | nil => exact h.elim
  | cons c name =>
    have hslash : c ≠ 47 := by
      rintro rfl
      exact absurd h.1 (by decide)
    have hfirst : step ⟨opened, .angle⟩ c = some (⟨opened, .startTag [c]⟩, []) := by
      show (if c = 47 then _ else if isNameStart c then _ else _) = _
      rw [if_neg hslash, if_pos h.1]
    have hchar : ∀ d ∈ name, ∀ seen, step ⟨opened, .startTag seen⟩ d
        = some (⟨opened, .startTag (seen ++ [d])⟩, []) := fun d hd seen => if_pos (h.2 d hd)
    rw [run_silent hfirst, run_collect .startTag hchar]
    rfl

/-- Behind its name a start tag goes on as behind an attribute. -/
theorem run_startTag_eq {c : UInt8} (hc : isNameChar c = false) (t : Bytes) :
    run ⟨opened, .startTag name⟩ (c :: t) = run ⟨opened, .behindValue name []⟩ (c :: t) := by
  have hstep : step ⟨opened, .startTag name⟩ c = step ⟨opened, .behindValue name []⟩ c :=
    if_neg (by rw [hc]; exact Bool.false_ne_true)
  rw [run, run, hstep]

/-- The name of an attribute, up to the quote in front of its value. -/
theorem run_attribute {att : Bytes} (h : IsName att) (t : Bytes) :
    run ⟨opened, .gap name atts⟩ (att ++ 61 :: 34 :: t)
      = run ⟨opened, .value name atts att []⟩ t := by
  cases att with
  | nil => exact h.elim
  | cons c att =>
    -- A character of the name is collected: it is not the equals sign.
    have hchar : ∀ d ∈ att, ∀ seen, step ⟨opened, .attribute name atts seen⟩ d
        = some (⟨opened, .attribute name atts (seen ++ [d])⟩, []) := by
      intro d hd seen
      have hequals : d ≠ 61 := by
        rintro rfl
        exact absurd (h.2 61 hd) (by decide)
      show (if d = 61 then _ else if isNameChar d then _ else _) = _
      rw [if_neg hequals, if_pos (h.2 d hd)]
    have hfirst : step ⟨opened, .gap name atts⟩ c = some (⟨opened, .attribute name atts [c]⟩, []) :=
      if_pos h.1
    have hequals : step ⟨opened, .attribute name atts (c :: att)⟩ 61
        = some (⟨opened, .equals name atts (c :: att)⟩, []) := rfl
    have hquote : step ⟨opened, .equals name atts (c :: att)⟩ 34
        = some (⟨opened, .value name atts (c :: att) []⟩, []) := rfl
    rw [List.cons_append, run_silent hfirst,
      run_append_silent (run_collect (.attribute name atts) hchar [c]), List.singleton_append,
      run_silent hequals, run_silent hquote]

/-- An end tag, behind its `</`. -/
theorem run_endTag (h : IsName name) :
    run ⟨name :: opened, .endTag []⟩ (name ++ [62])
      = some (⟨opened, behind opened⟩, [.finish name]) := by
  have hchar : ∀ d ∈ name, ∀ seen, step ⟨name :: opened, .endTag seen⟩ d
      = some (⟨name :: opened, .endTag (seen ++ [d])⟩, []) := by
    intro d hd seen
    refine if_neg ?_
    rintro rfl
    exact absurd (h.chars 62 hd) (by decide)
  have hclose : step ⟨name :: opened, .endTag name⟩ 62
      = some (⟨opened, behind opened⟩, [.finish name]) := by
    show (if name = name then _ else _) = _
    rw [if_pos rfl]
  rw [run_append_silent (run_collect .endTag hchar []), List.nil_append, run_cons hclose]
  rfl

end

end Mylib.Lib.XmlText
