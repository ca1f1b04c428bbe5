import Mylib.Lib.XmlText
import Mylib.Spec.Xmpp.XmlParser

/-!
# `Mylib.Proofs.Xmpp.Expat`: what is relied on of expat

Expat is a parameter. `Conforms` is what its documentation promises, as far as this development
uses it: a document that the reader of `Mylib.Lib.XmlText` takes is reported with the events of
that reader. The document may be passed in pieces, and text may be reported in pieces of another
kind, so all that counts is the joined text (`joinText`). The reader knows nothing of the printer:
it finds the tags in the text and undoes the references by itself.

* `callbacks_joinText`: handlers make no difference how text is cut.
* `conforms_reader`: the reader itself is such a parser.
-/

set_option autoImplicit false

namespace Mylib.Proofs.Xmpp.Expat

open Mylib.Lib.XmlText (Event IsText State Mode run_append)
open Mylib.Spec.Base (Str)
open Mylib.Spec.Xmpp
open Mylib.Spec.Xmpp.XmlParser

/-! ### Text in pieces -/

/-- A callback in front, where text joins the text behind it. -/
def joinFront : Callback → List Callback → List Callback
  | .characterData t, .characterData u :: cs => .characterData (t ++ u) :: cs
  | .characterData [], cs => cs
  | c, cs => c :: cs

/-- The callbacks with the pieces of text joined. -/
def joinText (cs : List Callback) : List Callback := cs.foldr joinFront []

/-- Text that is empty is dropped. -/
theorem joinFront_nil (cs : List Callback) : joinFront (.characterData []) cs = cs := by
  cases cs with
  | nil => rfl
  | cons c cs =>
    cases c with
    | characterData v => rfl
    | startElement name atts => rfl
    | endElement name => rfl
    | xmlDecl ver enc standalone => rfl

/-- Two pieces join as one does. -/
theorem joinFront_append (t u : Str) (cs : List Callback) :
    joinFront (.characterData t) (joinFront (.characterData u) cs)
      = joinFront (.characterData (t ++ u)) cs := by
  cases u with
  | nil => rw [joinFront_nil, List.append_nil]
  | cons b u =>
    cases t with
    | nil => rw [joinFront_nil, List.nil_append]
    | cons a t =>
      -- Neither piece is empty, so both are joined, with the text behind them if there is any.
      cases cs with
      | nil => rfl
      | cons c cs =>
        cases c with
        | characterData v =>
          show Callback.characterData (a :: t ++ (b :: u ++ v)) :: cs = _
          rw [← List.append_assoc]
          rfl
        | startElement name atts => rfl
        | endElement name => rfl
        | xmlDecl ver enc standalone => rfl

/-- The bytes of a text, each reported alone. -/
theorem foldr_joinFront_chars (t : Str) (cs : List Callback) :
    (t.map fun b => Callback.characterData [b]).foldr joinFront cs
      = joinFront (.characterData t) cs := by
  induction t with
  | nil => exact (joinFront_nil cs).symm
  | cons b t ih =>
    rw [List.map_cons, List.foldr_cons, ih]
    exact joinFront_append [b] t cs

section

variable {σ : Type} {H : XmlParseHandler σ}

/-- A handler for which it makes no difference how text is cut. -/
structure JoinsText (H : XmlParseHandler σ) : Prop where
  nil : ∀ x, H.characterData [] x = x
  append : ∀ t u x, H.characterData u (H.characterData t x) = H.characterData (t ++ u) x

/-- Text in two pieces is text in one. -/
theorem expatCharacterData_append (hH : JoinsText H) (t u : Str) (p : XmlParser σ) :
    expatCharacterData H u (expatCharacterData H t p) = expatCharacterData H (t ++ u) p := by
  unfold expatCharacterData
  by_cases hraised : p.context.raised ≠ none
  · rw [if_pos hraised, if_pos hraised, if_pos hraised]
  · simp only [if_neg hraised, hH.append]

/-- So a piece of text may be joined to the one behind it. -/
theorem callbacks_joinFront (hH : JoinsText H) (c : Callback) (cs : List Callback)
    (p : XmlParser σ) :
    callbacks H (joinFront c cs) p = (callback H c p).bind (callbacks H cs) := by
  fun_cases joinFront c cs with
  | case1 t u cs =>
    -- the handler makes no difference between two pieces and one
    show callbacks H cs (expatCharacterData H (t ++ u) p) =
      callbacks H cs (expatCharacterData H u (expatCharacterData H t p))
    rw [expatCharacterData_append hH]
  | case2 cs =>
    -- an empty piece changes nothing
    have hsame : expatCharacterData H [] p = p := by
      unfold expatCharacterData
      split
      · rfl
      · rw [hH.nil]
    show callbacks H cs p = callbacks H cs (expatCharacterData H [] p)
    rw [hsame]
  | case3 => rfl

/-- The run depends on the joined text only. -/
theorem callbacks_joinText (hH : JoinsText H) (cs : List Callback) (p : XmlParser σ) :
    callbacks H (joinText cs) p = callbacks H cs p := by
  induction cs generalizing p with
  | nil => rfl
  | cons c cs ih =>
    show callbacks H (joinFront c (joinText cs)) p = _
    rw [callbacks_joinFront hH, callbacks]
    congr 1
    funext q
    exact ih q

end

/-! ### What expat promises -/

/-- The callback for an event. -/
def ofEvent : Event → Callback
  | .start name atts => .startElement name atts
  | .finish name => .endElement name
  | .chars t => .characterData t

/-- A document in pieces, the last of which is marked as final. -/
def cut : List Str → List (Str × Bool)
  | [] => []
  | [piece] => [(piece, true)]
  | piece :: pieces => (piece, false) :: cut pieces

/-- What expat does with further pieces, one report for each, after calls that were made. -/
def reports (expat : Expat) : List ParseCall → List (Str × Bool) → List Report
  | _, [] => []
  | made, (data, isFinal) :: pieces =>
    let made := made ++ [parseCall data isFinal]
    expat made :: reports expat made pieces

/-- Expat takes every document that the reader takes and that is shorter than `limit`, which
stands for the memory it has: it returns no error for any of the pieces and reports the events of
the document, however it cuts the text. The length of a piece is passed as an `int`. -/
structure Conforms (expat : Expat) (limit : Nat) : Prop where
  fits : limit ≤ 2 ^ 31
  reads : ∀ {pieces : List Str} {events : List Event}, pieces.flatten.length < limit →
    IsText pieces.flatten → Lib.XmlText.readDocument pieces.flatten = some events →
    (∀ report ∈ reports expat [] (cut pieces), report.error = none) ∧
      joinText ((reports expat [] (cut pieces)).flatMap Report.callbacks)
        = joinText (events.map ofEvent)

/-! ### The reader as a parser -/

/-- The reader, one call after the other. It reports every byte of text alone. An error is the
one of expat for a token that is not well-formed, or for a document that has not ended. -/
def reader : Expat := fun calls =>
  match calls.getLast? with
  | none => ⟨[], none⟩
  | some call =>
    match Lib.XmlText.run ⟨[], .front⟩ (calls.dropLast.flatMap ParseCall.data) with
    | none => ⟨[], some (.expat 4)⟩
    | some (s, _) =>
      match Lib.XmlText.run s call.data with
      | none => ⟨[], some (.expat 4)⟩
      | some (s, events) =>
        ⟨events.map ofEvent,
          if call.isFinal ∧ s.mode ≠ .done then some (.expat 3) else none⟩

/-- The report on a piece that the reader takes. -/
theorem reader_append {made : List ParseCall} {s s' : State} {before events : List Event}
    (hmade : Lib.XmlText.run ⟨[], .front⟩ (made.flatMap ParseCall.data) = some (s, before))
    {data : Str} (hdata : Lib.XmlText.run s data = some (s', events)) (isFinal : Bool) :
    reader (made ++ [parseCall data isFinal])
      = ⟨events.map ofEvent, if isFinal ∧ s'.mode ≠ .done then some (.expat 3) else none⟩ := by
  unfold reader
  rw [List.getLast?_concat, List.dropLast_concat]
  simp only [hmade, parseCall, hdata]
  rfl

/-- The pieces of a document, from any point inside of it. -/
theorem reports_reader (pieces : List Str) {made : List ParseCall} {s s' : State}
    {before events : List Event}
    (hmade : Lib.XmlText.run ⟨[], .front⟩ (made.flatMap ParseCall.data) = some (s, before))
    (hrest : Lib.XmlText.run s pieces.flatten = some (s', events)) (hdone : s'.mode = .done) :
    (∀ report ∈ reports reader made (cut pieces), report.error = none) ∧
      (reports reader made (cut pieces)).flatMap Report.callbacks
        = if pieces = [] then [] else events.map ofEvent := by
  induction pieces generalizing made s before events with
  | nil => exact ⟨fun report h => absurd h List.not_mem_nil, rfl⟩
  | cons piece pieces ih =>
    rw [if_neg (List.cons_ne_nil piece pieces)]
    cases pieces with
    -- The last piece is the final call.
    | nil =>
      rw [List.flatten_cons, List.flatten_nil, List.append_nil] at hrest
      have hreport := reader_append hmade hrest true
      rw [hdone] at hreport
      constructor
      · intro report h
        rw [List.mem_singleton.mp h, hreport]
        rfl
      · show (reader (made ++ [parseCall piece true])).callbacks ++ [] = _
        rw [hreport, List.append_nil]
    -- A piece before the last is reported as far as it goes, and the next call goes on behind it.
    | cons next pieces =>
      rw [List.flatten_cons, run_append] at hrest
      obtain ⟨⟨mid, first⟩, hpiece, hrest⟩ := Option.bind_eq_some_iff.mp hrest
      obtain ⟨⟨last, others⟩, hlast, heq⟩ := Option.map_eq_some_iff.mp hrest
      obtain ⟨rfl, rfl⟩ := Prod.mk.inj heq
      have hreport := reader_append hmade hpiece false
      have hmade' : Lib.XmlText.run ⟨[], .front⟩
          ((made ++ [parseCall piece false]).flatMap ParseCall.data)
          = some (mid, before ++ first) := by
        have hdata : (made ++ [parseCall piece false]).flatMap ParseCall.data
            = made.flatMap ParseCall.data ++ piece := by simp [parseCall]
        rw [hdata]
        exact Lib.XmlText.run_append_of hmade hpiece
      obtain ⟨herror, hcallbacks⟩ := ih hmade' hlast
      rw [if_neg (List.cons_ne_nil next pieces)] at hcallbacks
      constructor
      · intro report h
        rcases List.mem_cons.mp h with rfl | h
        · rw [hreport]
          rfl
        · exact herror report h
      · show (reader (made ++ [parseCall piece false])).callbacks
          ++ (reports reader (made ++ [parseCall piece false]) (cut (next :: pieces))).flatMap
            Report.callbacks = _
        rw [hreport, hcallbacks, ← List.map_append]

/-- The reader keeps the promise. -/
theorem conforms_reader : Conforms reader (2 ^ 31) where
  fits := le_rfl
  reads := by
    intro pieces events _ _ hread
    unfold Lib.XmlText.readDocument at hread
    split at hread
    next opened es hrun =>
      obtain rfl := Option.some.inj hread
      have hfront : Lib.XmlText.run ⟨[], .front⟩ (([] : List ParseCall).flatMap ParseCall.data)
          = some (⟨[], .front⟩, []) := rfl
      obtain ⟨herror, hcallbacks⟩ := reports_reader pieces hfront hrun rfl
      refine ⟨herror, ?_⟩
      rw [hcallbacks, if_neg]
      rintro rfl
      cases hrun
    next => cases hread

end Mylib.Proofs.Xmpp.Expat
