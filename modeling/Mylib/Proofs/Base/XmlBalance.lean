import Mylib.Proofs.Base.IntegerTexts

/-!
# `Mylib.Proofs.Base.XmlBalance`: the tags of an XML text

`BuildXMLString` at depth `d` is called with the key of the open element under `d - 1`
in `key_map_` and with nothing above it (`Entered`). The text it appends closes that
element. A list closes and opens it again between its items, so the general shape is
`Closes`: balanced text and the end tag, any number of times with the start tag in
between. `buildXMLString_closes` is the invariant of one call, `calls_close` says that it
holds at every call of a run, and `xmlSerialize_balanced` is the result for `Serialize`.
-/

set_option autoImplicit false

namespace Mylib.Proofs.Base.Xml

open Mylib.Spec.Base
open StringUtil StringEscape XmlWriter

/-! ### Balanced texts -/

def AngleFree (t : Str) : Prop := 60 ∉ t ∧ 62 ∉ t

/-- Elements one inside the other or one after the other, and text between them. -/
inductive Balanced : Str → Prop where
  | nil : Balanced []
  | text {t rest : Str} : AngleFree t → Balanced rest → Balanced (t ++ rest)
  | element {name body rest : Str} : AngleFree name → Balanced body → Balanced rest →
      Balanced (openTag name ++ body ++ closeTag name ++ rest)

/-- A text that follows the start tag of an element: the element is closed, and may be
opened and closed again. -/
inductive Closes (name : Str) : Str → Prop where
  | once {body : Str} : Balanced body → Closes name (body ++ closeTag name)
  | again {body rest : Str} : Balanced body → Closes name rest →
      Closes name (body ++ closeTag name ++ (openTag name ++ rest))

/-- Two texts without angle brackets. -/
theorem AngleFree.append {s t : Str} (hs : AngleFree s) (ht : AngleFree t) :
    AngleFree (s ++ t) := by
  simp only [AngleFree, List.mem_append, not_or]
  exact ⟨⟨hs.1, ht.1⟩, hs.2, ht.2⟩

/-- Text alone is balanced. -/
theorem Balanced.of_angleFree {t : Str} (h : AngleFree t) : Balanced t := by
  rw [← List.append_nil t]
  exact .text h .nil

/-- Two balanced texts are, one behind the other. -/
theorem Balanced.append {s t : Str} (hs : Balanced s) (ht : Balanced t) : Balanced (s ++ t) := by
  induction hs with
  | nil => exact ht
  | text hfree _ ih =>
    rw [List.append_assoc]
    exact .text hfree ih
  | element hfree hbody _ _ ih =>
    rw [List.append_assoc]
    exact .element hfree hbody ih

/-- Text before what closes the element goes into it. -/
theorem Closes.prepend {name s t : Str} (hs : Balanced s) (ht : Closes name t) :
    Closes name (s ++ t) := by
  cases ht with
  | once hbody =>
    rw [← List.append_assoc]
    exact .once (hs.append hbody)
  | again hbody hrest =>
    have h := Closes.again (hs.append hbody) hrest
    simpa only [List.append_assoc] using h

/-- One text that closes the element, the start tag, and another one. -/
theorem Closes.reopen {name s t : Str} (hs : Closes name s) (ht : Closes name t) :
    Closes name (s ++ openTag name ++ t) := by
  induction hs with
  | once hbody =>
    rw [List.append_assoc]
    exact .again hbody ht
  | again hbody _ ih =>
    have h := Closes.again hbody ih
    simpa only [List.append_assoc] using h

/-- With its start tag it is a sequence of elements. -/
theorem Closes.balanced {name t : Str} (hname : AngleFree name) (h : Closes name t) :
    Balanced (openTag name ++ t) := by
  induction h with
  | once hbody =>
    rw [← List.append_assoc, ← List.append_nil (_ ++ _ ++ _)]
    exact .element hname hbody .nil
  | again hbody _ ih =>
    have h := Balanced.element hname hbody ih
    simpa only [List.append_assoc] using h

/-! ### The trees -/

section

variable {D : Type} (F : Doubles D)

mutual

/-- The texts hold no angle bracket, and the keys none as they are written. -/
def AngleFreeTree : Value D → Prop
  | .string value => AngleFree value
  | .real value => AngleFree (F.print value)
  | .dictionary entries => AngleFreeEntries entries
  | .list items => AngleFreeItems items
  | _ => True

def AngleFreeEntries : List (WString × Value D) → Prop
  | [] => True
  | (key, value) :: entries => AngleFree (StringConversions.wideToASCII key) ∧
      AngleFreeTree value ∧ AngleFreeEntries entries

def AngleFreeItems : List (Value D) → Prop
  | [] => True
  | value :: items => AngleFreeTree value ∧ AngleFreeItems items

end

/-- The constant texts of the writer have no angle brackets. -/
theorem angleFree_text {cs : List Char} (h : cs.all fun c => c.toNat < 128 && c ≠ '<' && c ≠ '>') :
    AngleFree (text cs) := by
  have hbyte : ∀ b ∈ text cs, b ≠ 60 ∧ b ≠ 62 := by
    intro b hb
    obtain ⟨c, hc, rfl⟩ := List.mem_map.mp hb
    have hchar := List.all_eq_true.mp h c hc
    simp only [Bool.and_eq_true, decide_eq_true_eq] at hchar
    obtain ⟨⟨hsmall, hlt⟩, hgt⟩ := hchar
    have hnat : (UInt8.ofNat c.toNat).toNat = c.toNat :=
      UInt8.toNat_ofNat_of_lt' (by show _ < 256; omega)
    constructor
    · intro h60
      rw [h60] at hnat
      exact hlt (Char.toNat_inj.mp hnat.symm)
    · intro h62
      rw [h62] at hnat
      exact hgt (Char.toNat_inj.mp hnat.symm)
  exact ⟨fun h60 => (hbyte 60 h60).1 rfl, fun h62 => (hbyte 62 h62).2 rfl⟩

/-- Escaping a byte makes no angle bracket. -/
theorem angleFree_quoteChar {b : UInt8} (h : b ≠ 60 ∧ b ≠ 62) : AngleFree (quoteChar b) := by
  obtain ⟨h60, h62⟩ := h
  unfold quoteChar singleEscapeChar
  split_ifs
  all_goals first
    | exact angleFree_text rfl
    | simp [AngleFree, h60.symm, h62.symm]

/-- Escaping a text makes no angle bracket. -/
theorem angleFree_xmlDoubleQuote {t : Str} (h : AngleFree t) : AngleFree (xmlDoubleQuote t) := by
  induction t with
  | nil => exact ⟨by simp [xmlDoubleQuote], by simp [xmlDoubleQuote]⟩
  | cons b t ih =>
    simp only [AngleFree, List.mem_cons, not_or] at h
    have hb := angleFree_quoteChar ⟨fun h0 => h.1.1 h0.symm, fun h0 => h.2.1 h0.symm⟩
    exact hb.append (ih ⟨h.1.2, h.2.2⟩)

/-- A tag's name has none if the key as it is written has none. -/
theorem angleFree_tagName {key : WString} (h : AngleFree (StringConversions.wideToASCII key)) :
    AngleFree (tagName key) := angleFree_xmlDoubleQuote h

/-- A printed integer has none. -/
theorem angleFree_formatInt (width : Nat) (n : Int) : AngleFree (formatInt width n) := by
  have hdecimal : ∀ m : Nat, AngleFree (decimal m) := fun m =>
    ⟨fun h => absurd (decimal_digit h).2 (by decide),
      fun h => absurd (decimal_digit h).2 (by decide)⟩
  have hblanks : ∀ k : Nat, AngleFree (List.replicate k 32) := fun k =>
    ⟨fun h => absurd (List.eq_of_mem_replicate h) (by decide),
      fun h => absurd (List.eq_of_mem_replicate h) (by decide)⟩
  refine (hblanks _).append ?_
  unfold signedDecimal
  split_ifs with hneg
  · exact (angleFree_text rfl).append (hdecimal _)
  · exact hdecimal _

/-- A printed number has none if the printer makes none. -/
theorem angleFree_realText {value : D} (h : AngleFree (F.print value)) :
    AngleFree (JsonWriter.realText F value) := by
  -- A part of an angle-free text, with `0` or `.0` put to it.
  have hreal : AngleFree (if (F.print value).any fun c => c ∈ text ['.', 'e', 'E']
      then F.print value else F.print value ++ text ['.', '0']) := by
    split_ifs
    · exact h
    · exact h.append (angleFree_text rfl)
  unfold JsonWriter.realText
  dsimp only
  generalize (if (F.print value).any fun c => c ∈ text ['.', 'e', 'E']
      then F.print value else F.print value ++ text ['.', '0']) = real at hreal ⊢
  cases real with
  | nil => exact hreal
  | cons b rest =>
    have hparts : AngleFree [b] ∧ AngleFree rest := by
      simp only [AngleFree, List.mem_cons, not_or, List.not_mem_nil, not_false_eq_true,
        and_true] at hreal ⊢
      exact ⟨⟨hreal.1.1, hreal.2.1⟩, hreal.1.2, hreal.2.2⟩
    dsimp only
    split_ifs
    · exact (angleFree_text rfl).append hreal
    · show AngleFree ([b] ++ (text ['0'] ++ rest))
      exact hparts.1.append ((angleFree_text rfl).append hparts.2)
    · exact hreal

/-! ### One call -/

/-- `key_map_` on entry to a call at depth `d + 1`: the key of the open element under `d`,
and nothing above it. -/
structure Entered (d : Nat) (keyMap : KeyMap) (key : WString) : Prop where
  here : keyMap d = some key
  above : ∀ e, d < e → keyMap e = none

section

variable {d : Nat} {keyMap : KeyMap} {key : WString}

/-- The element of a call is closed, and its entry removed. -/
theorem close_of_entered (h : Entered d keyMap key) (body : Str) :
    close (d + 1) body keyMap = (body ++ closeTag (tagName key), keyMap.erase d) := by
  unfold close
  rw [Nat.add_sub_cancel, h.here]

/-- The end of a call whose node is written as balanced text. -/
theorem close_closes (h : Entered d keyMap key) {body : Str} (hbody : Balanced body) :
    ∃ t, close (d + 1) body keyMap = (t, keyMap.erase d) ∧ Closes (tagName key) t :=
  ⟨_, close_of_entered h body, .once hbody⟩

/-- The element is closed and opened again. -/
theorem set_erase (h : keyMap d = some key) : (keyMap.erase d).set d key = keyMap := by
  rw [KeyMap.set, KeyMap.erase, Function.update_idem, ← h, Function.update_eq_self]

/-- The element of an entry is opened and closed. -/
theorem erase_set (h : keyMap d = none) (key : WString) : (keyMap.set d key).erase d = keyMap := by
  rw [KeyMap.set, KeyMap.erase, Function.update_idem, ← h, Function.update_eq_self]

/-- `key_map_` for the value of an entry. -/
theorem entered_set (habove : ∀ e, d < e → keyMap e = none) (key : WString) :
    Entered (d + 1) (keyMap.set (d + 1) key) key := by
  refine ⟨Function.update_self .., fun e he => ?_⟩
  rw [KeyMap.set, Function.update_of_ne (by omega)]
  exact habove e (by omega)

end

/-- A line break has none. -/
theorem angleFree_newline (prettyPrint first : Bool) :
    AngleFree (if !first && prettyPrint then text ['\n'] else []) := by
  split_ifs
  · exact angleFree_text rfl
  · exact ⟨List.not_mem_nil, List.not_mem_nil⟩

variable (prettyPrint escape : Bool)

mutual

/-- A call closes the element it was entered with. -/
theorem buildXMLString_closes {d : Nat} {keyMap : KeyMap} {key : WString} :
    ∀ value : Value D, AngleFreeTree F value → Entered d keyMap key →
      ∃ t, buildXMLString F prettyPrint escape (d + 1) keyMap value = (t, keyMap.erase d) ∧
        Closes (tagName key) t
  | .null, _, h => by
    rw [buildXMLString]
    exact close_closes h (.of_angleFree (angleFree_text rfl))
  | .boolean value, _, h => by
    rw [buildXMLString]
    cases value with
    | true => exact close_closes h (.of_angleFree (angleFree_text rfl))
    | false => exact close_closes h (.of_angleFree (angleFree_text rfl))
  | .charInteger _, _, h => by
    rw [buildXMLString]
    exact close_closes h .nil
  | .shortInteger _, _, h => by
    rw [buildXMLString]
    exact close_closes h .nil
  | .integer value, _, h => by
    rw [buildXMLString]
    exact close_closes h (.of_angleFree (angleFree_formatInt 0 _))
  | .bigInteger value, _, h => by
    rw [buildXMLString]
    exact close_closes h (.of_angleFree (angleFree_formatInt 0 _))
  | .real value, hfree, h => by
    rw [buildXMLString]
    exact close_closes h (.of_angleFree (angleFree_realText F (by rwa [AngleFreeTree] at hfree)))
  | .string value, hfree, h => by
    rw [buildXMLString]
    rw [AngleFreeTree] at hfree
    cases escape with
    | true => exact close_closes h .nil
    | false => exact close_closes h (.of_angleFree (angleFree_xmlDoubleQuote hfree))
  | .binary _, _, h => by
    rw [buildXMLString]
    exact close_closes h .nil
  | .list [], _, h => by
    rw [buildXMLString, buildItems]
    exact close_closes h .nil
  | .list (item :: items), hfree, h => by
    rw [AngleFreeTree] at hfree
    obtain ⟨t, hbuild, hcloses⟩ := buildItems_closes true (item :: items) (by simp) hfree h
    rw [buildXMLString, Nat.add_sub_cancel, h.here, hbuild]
    -- The last item has closed the element: nothing is left to close.
    have hclosed : close (d + 1) t (keyMap.erase d) = (t, keyMap.erase d) := by
      unfold close
      rw [Nat.add_sub_cancel, KeyMap.erase, Function.update_self]
    exact ⟨t, hclosed, hcloses⟩
  | .dictionary entries, hfree, h => by
    rw [AngleFreeTree] at hfree
    obtain ⟨t, hbuild, hbalanced⟩ := buildEntries_balanced entries hfree h.above
    rw [buildXMLString, hbuild]
    exact close_closes h hbalanced

/-- The loop over a list that is not empty. -/
theorem buildItems_closes {d : Nat} {keyMap : KeyMap} {key : WString} (first : Bool) :
    ∀ items : List (Value D), items ≠ [] → AngleFreeItems F items → Entered d keyMap key →
      ∃ t, buildItems F prettyPrint escape (d + 1) (some key) first keyMap items =
        (t, keyMap.erase d) ∧ Closes (tagName key) t
  | [], hne, _, _ => absurd rfl hne
  | [item], _, hfree, h => by
    rw [AngleFreeItems] at hfree
    obtain ⟨t, hitem, hcloses⟩ := buildXMLString_closes item hfree.1 h
    simp only [buildItems, hitem, List.isEmpty_nil, if_true, List.append_nil]
    exact ⟨_, rfl, .prepend (.of_angleFree (angleFree_newline prettyPrint first)) hcloses⟩
  | item :: next :: items, _, hfree, h => by
    rw [AngleFreeItems] at hfree
    obtain ⟨t, hitem, hcloses⟩ := buildXMLString_closes item hfree.1 h
    obtain ⟨rest, hrest, hcloses'⟩ := buildItems_closes false (next :: items) (by simp) hfree.2 h
    rw [buildItems, hitem]
    -- The element is opened again, and the map is the one the loop started with.
    simp only [List.isEmpty_cons, Nat.add_sub_cancel, Bool.false_eq_true, if_false,
      set_erase h.here, hrest]
    refine ⟨_, rfl, ?_⟩
    have hall := Closes.prepend (.of_angleFree (angleFree_newline prettyPrint first))
      (hcloses.reopen hcloses')
    simpa only [List.append_assoc] using hall

/-- The loop over a dictionary. -/
theorem buildEntries_balanced {d : Nat} {keyMap : KeyMap} :
    ∀ entries : List (WString × Value D), AngleFreeEntries F entries →
      (∀ e, d < e → keyMap e = none) →
      ∃ t, buildEntries F prettyPrint escape (d + 1) keyMap entries = (t, keyMap) ∧ Balanced t
  | [], _, _ => ⟨[], by rw [buildEntries], .nil⟩
  | (key, value) :: entries, hfree, habove => by
    rw [AngleFreeEntries] at hfree
    obtain ⟨hkey, hvalue, hentries⟩ := hfree
    obtain ⟨t, hbuild, hcloses⟩ := buildXMLString_closes value hvalue (entered_set habove key)
    obtain ⟨rest, hrest, hbalanced⟩ := buildEntries_balanced entries hentries habove
    rw [erase_set (habove (d + 1) (Nat.lt_succ_self d))] at hbuild
    simp only [buildEntries, hbuild, hrest]
    exact ⟨_, rfl, (hcloses.balanced (angleFree_tagName hkey)).append hbalanced⟩

end

/-! ### Every call of a run -/

/-- A call of `BuildXMLString`, with `key_map_` as the call finds it. -/
structure XmlCall (D : Type) where
  depth : Nat
  keyMap : KeyMap
  node : Value D

mutual

/-- The calls made from one call on, that one first. -/
def calls (depth : Nat) (keyMap : KeyMap) : Value D → List (XmlCall D)
  | .list items =>
    ⟨depth, keyMap, .list items⟩ :: callsItems depth (keyMap (depth - 1)) keyMap items
  | .dictionary entries =>
    ⟨depth, keyMap, .dictionary entries⟩ :: callsEntries depth keyMap entries
  | value => [⟨depth, keyMap, value⟩]

def callsItems (depth : Nat) (pairKey : Option WString) (keyMap : KeyMap) :
    List (Value D) → List (XmlCall D)
  | [] => []
  | value :: items =>
    let after := (buildXMLString F prettyPrint escape depth keyMap value).2
    let again :=
      match pairKey with
      | some key => if items.isEmpty then after else after.set (depth - 1) key
      | none => after
    calls depth keyMap value ++ callsItems depth pairKey again items

def callsEntries (depth : Nat) (keyMap : KeyMap) : List (WString × Value D) → List (XmlCall D)
  | [] => []
  | (key, value) :: entries =>
    let after := (buildXMLString F prettyPrint escape (depth + 1) (keyMap.set depth key) value).2
    calls (depth + 1) (keyMap.set depth key) value ++ callsEntries depth after entries

end

/-- The call is entered with its element open and nothing above it, appends a text that
closes the element, and leaves with that entry removed and all others as they were. -/
def CallCloses (call : XmlCall D) : Prop :=
  ∃ d key t, call.depth = d + 1 ∧ Entered d call.keyMap key ∧
    buildXMLString F prettyPrint escape call.depth call.keyMap call.node =
      (t, call.keyMap.erase d) ∧
    Closes (tagName key) t

/-- A call that is entered with its element open closes it, by the kind of the value. This is one
step of the induction over the tree. -/
theorem callCloses_of_entered {d : Nat} {keyMap : KeyMap} {key : WString} {value : Value D}
    (hfree : AngleFreeTree F value) (h : Entered d keyMap key) :
    CallCloses F prettyPrint escape ⟨d + 1, keyMap, value⟩ := by
  obtain ⟨t, hbuild, hcloses⟩ := buildXMLString_closes F prettyPrint escape value hfree h
  exact ⟨d, key, t, rfl, h, hbuild, hcloses⟩

mutual

/-- All calls for a value do. -/
theorem calls_close {d : Nat} {keyMap : KeyMap} {key : WString} :
    ∀ value : Value D, AngleFreeTree F value → Entered d keyMap key →
      ∀ call ∈ calls F prettyPrint escape (d + 1) keyMap value,
        CallCloses F prettyPrint escape call
  | .list items, hfree, h, call, hcall => by
    have hhere := callCloses_of_entered F prettyPrint escape hfree h
    rw [AngleFreeTree] at hfree
    rw [calls, Nat.add_sub_cancel, h.here] at hcall
    -- The items of a list are written with the key of the list itself.
    rcases List.mem_cons.mp hcall with rfl | hcall
    · exact hhere
    · exact callsItems_close items hfree h call hcall
  | .dictionary entries, hfree, h, call, hcall => by
    have hhere := callCloses_of_entered F prettyPrint escape hfree h
    rw [AngleFreeTree] at hfree
    rw [calls] at hcall
    rcases List.mem_cons.mp hcall with rfl | hcall
    · exact hhere
    · exact callsEntries_close entries hfree h.above call hcall
  | .null, hfree, h, call, hcall | .boolean _, hfree, h, call, hcall
  | .charInteger _, hfree, h, call, hcall | .shortInteger _, hfree, h, call, hcall
  | .integer _, hfree, h, call, hcall | .bigInteger _, hfree, h, call, hcall
  | .real _, hfree, h, call, hcall | .string _, hfree, h, call, hcall
  | .binary _, hfree, h, call, hcall => by
    rw [List.mem_singleton.mp hcall]
    exact callCloses_of_entered F prettyPrint escape hfree h

/-- All calls for the items of a list do: an item opens its element again. -/
theorem callsItems_close {d : Nat} {keyMap : KeyMap} {key : WString} :
    ∀ items : List (Value D), AngleFreeItems F items → Entered d keyMap key →
      ∀ call ∈ callsItems F prettyPrint escape (d + 1) (some key) keyMap items,
        CallCloses F prettyPrint escape call
  | [], _, _, call, hcall => by
    rw [callsItems] at hcall
    cases hcall
  | [item], hfree, h, call, hcall => by
    rw [AngleFreeItems] at hfree
    simp only [callsItems, List.append_nil] at hcall
    exact calls_close item hfree.1 h call hcall
  | item :: next :: items, hfree, h, call, hcall => by
    rw [AngleFreeItems] at hfree
    obtain ⟨t, hitem, -⟩ := buildXMLString_closes F prettyPrint escape item hfree.1 h
    rw [callsItems] at hcall
    simp only [List.isEmpty_cons, Nat.add_sub_cancel, Bool.false_eq_true, if_false, hitem,
      set_erase h.here] at hcall
    rcases List.mem_append.mp hcall with hcall | hcall
    · exact calls_close item hfree.1 h call hcall
    · exact callsItems_close (next :: items) hfree.2 h call hcall

/-- All calls for the entries of a dictionary do, each in an element of its own. -/
theorem callsEntries_close {d : Nat} {keyMap : KeyMap} :
    ∀ entries : List (WString × Value D), AngleFreeEntries F entries →
      (∀ e, d < e → keyMap e = none) →
      ∀ call ∈ callsEntries F prettyPrint escape (d + 1) keyMap entries,
        CallCloses F prettyPrint escape call
  | [], _, _, call, hcall => by
    rw [callsEntries] at hcall
    cases hcall
  | (key, value) :: entries, hfree, habove, call, hcall => by
    rw [AngleFreeEntries] at hfree
    obtain ⟨-, hvalue, hentries⟩ := hfree
    have hentered := entered_set habove key
    obtain ⟨t, hbuild, -⟩ := buildXMLString_closes F prettyPrint escape value hvalue hentered
    rw [erase_set (habove (d + 1) (Nat.lt_succ_self d))] at hbuild
    simp only [callsEntries, hbuild] at hcall
    rcases List.mem_append.mp hcall with hcall | hcall
    · exact calls_close value hvalue hentered call hcall
    · exact callsEntries_close entries hentries habove call hcall

end

/-! ### The whole text -/

/-- `key_map_` on entry to the outermost call. -/
def rootKeyMap : KeyMap := KeyMap.clear.set 0 kXml

/-- The root is entered with its element open. -/
theorem entered_root : Entered 0 rootKeyMap kXml := by
  refine ⟨rfl, fun e he => ?_⟩
  rw [rootKeyMap, KeyMap.set, Function.update_of_ne (by omega)]
  rfl

/-- `Serialize` appends a sequence of elements named `xml` and leaves `key_map_` empty, and
every call it makes closes the element it was entered with. -/
theorem xmlSerialize_balanced (prettyPrint : Bool) (root : Value D)
    (hfree : AngleFreeTree F root) :
    (∃ t, XmlWriter.serialize F prettyPrint root =
        (openTag (text ['x', 'm', 'l']) ++ t, KeyMap.clear) ∧
      Closes (text ['x', 'm', 'l']) t ∧ Balanced (openTag (text ['x', 'm', 'l']) ++ t)) ∧
    ∀ call ∈ calls F prettyPrint false 1 rootKeyMap root, CallCloses F prettyPrint false call := by
  have hname : tagName kXml = text ['x', 'm', 'l'] := rfl
  refine ⟨?_, calls_close F prettyPrint false root hfree entered_root⟩
  obtain ⟨t, hbuild, hcloses⟩ := buildXMLString_closes F prettyPrint false root hfree entered_root
  have hempty : rootKeyMap.erase 0 = KeyMap.clear := erase_set rfl kXml
  rw [hempty] at hbuild
  have hroot : buildXMLString F prettyPrint false 1 (KeyMap.clear.set 0 kXml) root =
      (t, KeyMap.clear) := hbuild
  rw [hname] at hcloses
  refine ⟨t, ?_, hcloses, hcloses.balanced (angleFree_text rfl)⟩
  rw [XmlWriter.serialize, hroot]

end

/-- A dictionary with a list of two strings. -/
theorem xmlSerialize_balanced_list :
    (∃ t, XmlWriter.serialize (⟨fun _ => (), fun _ => true, fun _ => []⟩ : Doubles Unit) true
        (.dictionary [([107], .list [.string [97], .string [98]])]) =
        (openTag (text ['x', 'm', 'l']) ++ t, KeyMap.clear) ∧
      Closes (text ['x', 'm', 'l']) t ∧ Balanced (openTag (text ['x', 'm', 'l']) ++ t)) ∧
    ∀ call ∈ calls (⟨fun _ => (), fun _ => true, fun _ => []⟩ : Doubles Unit) true false 1
        rootKeyMap
      (.dictionary [([107], .list [.string [97], .string [98]])]),
      CallCloses (⟨fun _ => (), fun _ => true, fun _ => []⟩ : Doubles Unit) true false call := by
  refine xmlSerialize_balanced _ true _ ?_
  simp only [AngleFreeTree, AngleFreeEntries, AngleFreeItems, AngleFree]
  decide

/-! ### A list reopens its element -/

/-- The size of an end tag. -/
theorem length_closeTag (name : Str) : (closeTag name).length = name.length + 3 := by
  rw [closeTag, List.length_append, List.length_append]
  show 2 + name.length + 1 = name.length + 3
  omega

/-- A balanced text has no tag, or a first one that is closed further on. -/
theorem Balanced.cases_first {t : Str} (h : Balanced t) :
    AngleFree t ∨ ∃ a name rest, AngleFree a ∧ AngleFree name ∧
      t = a ++ (openTag name ++ rest) ∧ name.length + 3 ≤ rest.length := by
  induction h with
  | nil => exact Or.inl ⟨by simp, by simp⟩
  | @text s rest hs _ ih =>
    rcases ih with hrest | ⟨a, name, rest', ha, hname, rfl, hlength⟩
    · exact Or.inl (hs.append hrest)
    · exact Or.inr ⟨s ++ a, name, rest', hs.append ha, hname, by rw [List.append_assoc], hlength⟩
  | @element name body rest hname _ _ _ _ =>
    refine Or.inr ⟨[], name, body ++ closeTag name ++ rest, ⟨by simp, by simp⟩, hname, ?_, ?_⟩
    · simp only [List.append_assoc, List.nil_append]
    · rw [List.length_append, List.length_append, length_closeTag]
      omega

/-- `</k><k>` is not balanced. -/
theorem not_balanced_reopened : ¬Balanced [60, 47, 107, 62, 60, 107, 62] := by
  intro h
  rcases h.cases_first with hfree | ⟨a, name, rest, ha, hname, heq, hlength⟩
  · exact absurd hfree.1 (by decide)
  · -- The first bracket opens an element whose name is up to the next one.
    cases a with
    | cons b a =>
      injection heq with hb _
      exact ha.1 (hb ▸ List.mem_cons_self)
    | nil =>
      have hrest : [47, 107, 62, 60, 107, 62] = name ++ (62 :: rest) := by
        have htail := congrArg List.tail heq
        simpa [openTag, text] using htail
      -- The name is too short for what is left, or it has a bracket of its own.
      rcases name with _ | ⟨b, _ | ⟨c, _ | ⟨e, name⟩⟩⟩
      · simp at hrest
      · simp at hrest
      · have hcount := congrArg List.length hrest
        simp only [List.length_append, List.length_cons, List.length_nil] at hcount hlength
        omega
      · have he : e = 62 := by
          simp only [List.cons_append, List.cons.injEq] at hrest
          exact hrest.2.2.1.symm
        exact hname.2 (by simp [he])

/-- The call that writes a list of two empty strings under the key `k` appends
`</k><k></k>`: what stands before its last end tag is not balanced. -/
theorem not_balanced_before_close :
    ∃ call ∈ calls (⟨fun _ => (), fun _ => true, fun _ => []⟩ : Doubles Unit) false false 1
        rootKeyMap
      (.dictionary [([107], .list [.string [], .string []])]),
      ¬∃ body key, Balanced body ∧ call.keyMap (call.depth - 1) = some key ∧
        (buildXMLString (⟨fun _ => (), fun _ => true, fun _ => []⟩ : Doubles Unit) false false
          call.depth call.keyMap call.node).1 = body ++ closeTag (tagName key) := by
  refine ⟨⟨2, rootKeyMap.set 1 [107], .list [.string [], .string []]⟩, ?_, ?_⟩
  · simp [calls, callsEntries, callsItems]
  · rintro ⟨body, key, hbalanced, hkey, htext⟩
    obtain rfl : key = [107] := (Option.some.inj hkey).symm
    have hwritten : (buildXMLString (⟨fun _ => (), fun _ => true, fun _ => []⟩ : Doubles Unit) false
        false 2 (rootKeyMap.set 1 [107]) (.list [.string [], .string []])).1 =
        [60, 47, 107, 62, 60, 107, 62] ++ closeTag (tagName [107]) := by
      decide
    have hbody := List.append_cancel_right (hwritten.symm.trans htext)
    exact not_balanced_reopened (hbody ▸ hbalanced)

end Mylib.Proofs.Base.Xml
