import Mylib.Lib.History
import Mylib.Proofs.Base.JsonpAgrees

/-!
# `Mylib.Proofs.Base.JsonpHistory`: one JSONP serializer, many calls

`Serialize` resets `is_init_jsonp_` only when it has put a callback around the text. A
value whose `jsonpcallback` is no string, or the empty one, is counted as found and
never wrapped, so from then on no callback is looked for again. Between two calls the
members are therefore the ones of a new serializer or `spent`, for good
(`serialize_init`, `serialize_spent`), and a sequence of calls is free of history
exactly when no such value comes before one with a callback
(`serialize_historyFree_iff`).
-/

set_option autoImplicit false

namespace Mylib.Proofs.Base.Jsonp

open Mylib.Lib.History
open Mylib.Spec.Base
open StringUtil JsonpWriter

section

variable {D : Type}

/-! ### The callback of a value -/

mutual

/-- The value of the first entry with the callback key, in the order the emitter writes
the entries. -/
def firstCallback : Value D → Option (Value D)
  | .list items => firstCallbackItems items
  | .dictionary entries => firstCallbackEntries entries
  | _ => none

def firstCallbackItems : List (Value D) → Option (Value D)
  | [] => none
  | value :: items => (firstCallback value).or (firstCallbackItems items)

def firstCallbackEntries : List (WString × Value D) → Option (Value D)
  | [] => none
  | (key, value) :: entries =>
    if StringConversions.wideToASCII key = kCallbackKey then some value
    else (firstCallback value).or (firstCallbackEntries entries)

end

/-- The callback's text, empty for a callback that is no string. -/
def callbackText (value : Value D) : Option Str :=
  (firstCallback value).map fun callback => callback.getAsString.getD []

/-- The members when no call has found a callback, and when one has found `callback`. -/
def found (jsonpCall : Str) : Option (Value D) → JsonpCall
  | none => ⟨jsonpCall, false⟩
  | some callback => ⟨callback.getAsString.getD jsonpCall, true⟩

/-! ### What a call leaves in the members -/

variable (F : Doubles D) (prettyPrint escape : Bool)

/-- Once a callback is found, a key changes nothing. -/
theorem checkKey_initialised (key : WString) (value : Value D) (jsonpCall : Str) :
    checkKey key value ⟨jsonpCall, true⟩ = ⟨jsonpCall, true⟩ := rfl

mutual

/-- Once a callback counts as found, the members stay. -/
theorem buildJsonpString_initialised (depth : Nat) (jsonpCall : Str) : ∀ value : Value D,
    (buildJsonpString F prettyPrint escape depth ⟨jsonpCall, true⟩ value).2 = ⟨jsonpCall, true⟩
  | .null | .boolean _ | .charInteger _ | .shortInteger _ | .integer _ | .bigInteger _ | .real _
  | .string _ | .binary _ => by rw [buildJsonpString]
  | .list items => by
    rw [buildJsonpString]
    exact buildItems_initialised depth true jsonpCall items
  | .dictionary entries => by
    rw [buildJsonpString]
    exact buildEntries_initialised depth true jsonpCall entries

/-- Once a callback is found, a list changes nothing. -/
theorem buildItems_initialised (depth : Nat) (first : Bool) (jsonpCall : Str) :
    ∀ items : List (Value D),
      (buildItems F prettyPrint escape depth first ⟨jsonpCall, true⟩ items).2 = ⟨jsonpCall, true⟩
  | [] => by rw [buildItems]
  | value :: items => by
    rw [buildItems]
    show (buildItems F prettyPrint escape depth false _ items).2 = _
    rw [buildJsonpString_initialised depth jsonpCall value]
    exact buildItems_initialised depth false jsonpCall items

/-- Once a callback is found, a dictionary changes nothing. -/
theorem buildEntries_initialised (depth : Nat) (first : Bool) (jsonpCall : Str) :
    ∀ entries : List (WString × Value D),
      (buildEntries F prettyPrint escape depth first ⟨jsonpCall, true⟩ entries).2 =
        ⟨jsonpCall, true⟩
  | [] => by rw [buildEntries]
  | (key, value) :: entries => by
    rw [buildEntries, checkKey_initialised]
    show (buildEntries F prettyPrint escape depth false _ entries).2 = _
    rw [buildJsonpString_initialised (depth + 1) jsonpCall value]
    exact buildEntries_initialised depth false jsonpCall entries

end

/-- Behind the part of a container that has been written, the search goes on in the
rest or is over. -/
theorem found_or {β : Type} {emit : JsonpCall → β → Str × JsonpCall} {rest : β}
    {jsonpCall : Str} {next : Option (Value D)}
    (hfound : ∀ call, (emit ⟨call, true⟩ rest).2 = ⟨call, true⟩)
    (hnext : (emit ⟨jsonpCall, false⟩ rest).2 = found jsonpCall next) (here : Option (Value D)) :
    (emit (found jsonpCall here) rest).2 = found jsonpCall (here.or next) := by
  cases here with
  | none => exact hnext
  | some callback => exact hfound _

mutual

/-- A call finds the first callback of its value. -/
theorem buildJsonpString_found (depth : Nat) (jsonpCall : Str) : ∀ value : Value D,
    (buildJsonpString F prettyPrint escape depth ⟨jsonpCall, false⟩ value).2 =
      found jsonpCall (firstCallback value)
  | .null | .boolean _ | .charInteger _ | .shortInteger _ | .integer _ | .bigInteger _ | .real _
  | .string _ | .binary _ => by
    rw [buildJsonpString, firstCallback, found] <;> simp
  | .list items => by
    rw [buildJsonpString, firstCallback]
    exact buildItems_found depth true jsonpCall items
  | .dictionary entries => by
    rw [buildJsonpString, firstCallback]
    exact buildEntries_found depth true jsonpCall entries

/-- In a list the first callback of its items is found. -/
theorem buildItems_found (depth : Nat) (first : Bool) (jsonpCall : Str) :
    ∀ items : List (Value D),
      (buildItems F prettyPrint escape depth first ⟨jsonpCall, false⟩ items).2 =
        found jsonpCall (firstCallbackItems items)
  | [] => by rw [buildItems, firstCallbackItems, found]
  | value :: items => by
    rw [buildItems, firstCallbackItems]
    show (buildItems F prettyPrint escape depth false _ items).2 = _
    rw [buildJsonpString_found depth jsonpCall value]
    exact found_or (fun call => buildItems_initialised F prettyPrint escape depth false call items)
      (buildItems_found depth false jsonpCall items) _

/-- In a dictionary the first callback of its entries is found, in the order in which they are
written. -/
theorem buildEntries_found (depth : Nat) (first : Bool) (jsonpCall : Str) :
    ∀ entries : List (WString × Value D),
      (buildEntries F prettyPrint escape depth first ⟨jsonpCall, false⟩ entries).2 =
        found jsonpCall (firstCallbackEntries entries)
  | [] => by rw [buildEntries, firstCallbackEntries, found]
  | (key, value) :: entries => by
    rw [buildEntries, firstCallbackEntries]
    show (buildEntries F prettyPrint escape depth false
      (buildJsonpString F prettyPrint escape (depth + 1) (checkKey key value _) value).2
      entries).2 = _
    by_cases hkey : StringConversions.wideToASCII key = kCallbackKey
    · have hcheck : checkKey key value ⟨jsonpCall, false⟩ = found jsonpCall (some value) := by
        simp [checkKey, hkey, found]
      rw [hcheck, if_pos hkey, found, buildJsonpString_initialised]
      exact buildEntries_initialised F prettyPrint escape depth false _ entries
    · have hcheck : checkKey key value ⟨jsonpCall, false⟩ = ⟨jsonpCall, false⟩ := by
        simp [checkKey, hkey]
      rw [hcheck, if_neg hkey, buildJsonpString_found (depth + 1) jsonpCall value]
      exact found_or
        (fun call => buildEntries_initialised F prettyPrint escape depth false call entries)
        (buildEntries_found depth false jsonpCall entries) _

end

/-! ### The two modes of a serializer -/

/-- The members behind a value whose callback cannot be put around a text. -/
def spent : JsonpCall := ⟨[], true⟩

/-- The text of a value with the callback `call` around it. -/
def wrapped (call : Str) (value : Value D) : Str :=
  call ++ text ['('] ++ JsonWriter.buildJSONString F prettyPrint false 0 value ++ text [')']

/-- A text with a callback around it is longer than the text. -/
theorem wrapped_ne (call : Str) (value : Value D) :
    wrapped F prettyPrint call value ≠ JsonWriter.buildJSONString F prettyPrint false 0 value := by
  intro h
  have hlength := congrArg List.length h
  simp only [wrapped, List.length_append] at hlength
  have hparen : (text ['(']).length = 1 := rfl
  omega

/-- A serializer whose callback is empty writes the plain text, now and later. -/
theorem serialize_spent (value : Value D) :
    serialize F prettyPrint spent value [] =
      (JsonWriter.buildJSONString F prettyPrint false 0 value, spent) := by
  have hmembers : (buildJsonpString F prettyPrint false 0 spent value).2 = spent :=
    buildJsonpString_initialised F prettyPrint false 0 [] value
  unfold serialize
  simp only [hmembers, buildJsonpString_text, List.nil_append]
  rfl

/-- The three ways a call of a new serializer can go. -/
theorem serialize_init (value : Value D) :
    serialize F prettyPrint init value [] =
      match callbackText value with
      | none => (JsonWriter.buildJSONString F prettyPrint false 0 value, init)
      | some [] => (JsonWriter.buildJSONString F prettyPrint false 0 value, spent)
      | some (b :: call) => (wrapped F prettyPrint (b :: call) value, init) := by
  have hmembers : (buildJsonpString F prettyPrint false 0 init value).2 =
      found [] (firstCallback value) := buildJsonpString_found F prettyPrint false 0 [] value
  unfold serialize callbackText
  simp only [hmembers, buildJsonpString_text, List.nil_append]
  cases firstCallback value with
  | none => rfl
  | some callback =>
    rw [found, Option.map_some]
    cases callback.getAsString.getD [] with
    | nil => rfl
    | cons b call => rfl

/-- A call on new members leaves them new, or spent. -/
theorem serialize_init_mode (value : Value D) :
    (serialize F prettyPrint init value []).2 = init ∨
      (serialize F prettyPrint init value []).2 = spent := by
  rw [serialize_init]
  rcases callbackText value with _ | _ | _
  · exact Or.inl rfl
  · exact Or.inr rfl
  · exact Or.inl rfl

/-- It is spent exactly by a callback with an empty text. -/
theorem serialize_init_spent (value : Value D) :
    (serialize F prettyPrint init value []).2 = spent ↔ callbackText value = some [] := by
  rw [serialize_init]
  rcases callbackText value with _ | _ | _
  · simp [init, spent]
  · simp
  · simp [init, spent]

/-- A spent serializer writes a value like a new one unless the value has a callback. -/
theorem serialize_spent_output (value : Value D) :
    (serialize F prettyPrint spent value []).1 = (serialize F prettyPrint init value []).1 ↔
      callbackText value = none ∨ callbackText value = some [] := by
  rw [serialize_init, serialize_spent]
  rcases callbackText value with _ | _ | ⟨b, call⟩
  · simp
  · simp
  · simp [(wrapped_ne F prettyPrint (b :: call) value).symm]

/-- The outputs of one serializer, call after call with empty target strings, are the
outputs of new serializers exactly when no value with an unusable callback comes before
one with a callback. -/
theorem serialize_historyFree_iff (values : List (Value D)) :
    HistoryFree (fun self value => serialize F prettyPrint self value []) init values ↔
      values.Pairwise fun u v =>
        callbackText u = some [] → callbackText v = none ∨ callbackText v = some [] := by
  have hrule := historyFree_iff (fun self value => serialize F prettyPrint self value [])
    (serialize_init_mode F prettyPrint) (fun value => by rw [serialize_spent]) values
  simp only [serialize_init_spent, serialize_spent_output] at hrule
  exact hrule

/-- A callback that is a number, and then one that is `cb`: the second text is not
wrapped. -/
theorem not_historyFree_number :
    ¬HistoryFree (fun self value => serialize
        (⟨fun _ => (), fun _ => true, fun _ => []⟩ : Doubles Unit) false self value []) init
      [.dictionary [(JsonValueSerializer.wide "jsonpcallback".toList, .bigInteger 5)],
        .dictionary [(JsonValueSerializer.wide "jsonpcallback".toList, .string [99, 98])]] := by
  unfold HistoryFree
  decide

end

end Mylib.Proofs.Base.Jsonp
