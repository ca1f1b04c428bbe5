import Mylib.Proofs.Protocol.HttpPacket
import Mylib.Spec.Http.HeaderFunction

/-!
# `Mylib.Proofs.Http.HeaderFunction`: which headers are lost

A line is taken apart as it should be (`headerFunction_line`): the name ends at the colon, the
blanks around the value are skipped from both sides, and the result is the size of the line.
What is lost is lost in the map: the values behind the first one of a name go into a copy of
its list (`find_addHeader`). So after a run every name has its first value only
(`find_addHeaders`), and none is lost exactly if no name comes twice (`noneLost_iff`).
-/

set_option autoImplicit false

namespace Mylib.Proofs.Http

open Mylib.Lib
open Mylib.Proofs.Protocol.HttpPacket (idxOf?_append_cons mapKey_injective)
open Mylib.Spec.Base.StringUtil (isSpace)
open Mylib.Spec.Http
open Mylib.Spec.Protocol (Str)
open Mylib.Spec.Protocol.HttpPacket (mapKey)

/-! ### Lines -/

/-- A line of the head: a name, a colon, blanks, a value, perhaps blanks, and the line end. -/
structure HeaderLine where
  name : Str
  blanks : Str
  value : Str
  trailing : Str
  name_start : ∀ c ∈ name.head?, isSpace c = false
  name_chars : 58 ∉ name ∧ 0 ∉ name
  blanks_space : ∀ c ∈ blanks, isSpace c = true
  value_ne_nil : value ≠ []
  value_start : ∀ c ∈ value.head?, isSpace c = false
  value_end : ∀ c ∈ value.getLast?, isSpace c = false
  value_chars : 13 ∉ value ∧ 0 ∉ value
  trailing_space : ∀ c ∈ trailing, isSpace c = true

/-- The characters of a line. -/
def HeaderLine.text (line : HeaderLine) : Str :=
  line.name ++ 58 :: (line.blanks ++ (line.value ++ (line.trailing ++ [13, 10])))

/-- A line with the size that the function is given. -/
structure Delivery where
  line : HeaderLine
  size : Nat
  nmemb : Nat
  full : size * nmemb = line.text.length
  fits : line.text.length < 2 ^ 64

/-- The calls with these lines: the results, and the content afterwards. -/
def run : List Delivery → CurlContent → List Nat × CurlContent
  | [], content => ([], content)
  | d :: ds, content =>
    let call := headerFunction d.line.text d.size d.nmemb content
    let calls := run ds call.2
    (call.1 :: calls.1, calls.2)

/-- The content before the first call. -/
def fresh : CurlContent where
  headers := []
  code := 0
  subversion := 0

/-- The content after the call with the status line. -/
def afterStatus (status : Str) : CurlContent := (headerFunction status 1 status.length fresh).2

/-- The status line has both numbers, and a code. -/
def ValidStatus (status : Str) : Prop :=
  (sscanf (skipSpace status) fresh).1 = 2 ∧ (sscanf (skipSpace status) fresh).2.code ≠ 0

instance (status : Str) : Decidable (ValidStatus status) :=
  inferInstanceAs (Decidable (_ ∧ _))

/-- The values of a name, in order. -/
def valuesOf (name : Str) (ds : List Delivery) : List Str :=
  (ds.filter fun d => d.line.name = name).map fun d => d.line.value

/-- A list in the map. Where there is no value, there is no entry. -/
def entry : List Str → Option (List Str)
  | [] => none
  | value :: values => some (value :: values)

/-- What is promised of the lines that follow a status line. -/
structure NoneLost (status : Str) (ds : List Delivery) : Prop where
  returns : (run ds (afterStatus status)).1 = ds.map fun d => d.size * d.nmemb
  headers : ∀ name, OrderedMap.find (mapKey name) (run ds (afterStatus status)).2.headers
    = entry (valuesOf name ds)

/-! ### One line -/

/-- The loop over the blanks stops at a character that is none. -/
theorem skipSpace_append {blanks rest : Str} (hblanks : ∀ c ∈ blanks, isSpace c = true)
    (hrest : ∀ c ∈ rest.head?, isSpace c = false) : skipSpace (blanks ++ rest) = rest := by
  unfold skipSpace
  rw [List.dropWhile_append_of_pos hblanks]
  cases rest with
  | nil => rfl
  | cons c rest => rw [List.dropWhile_cons_of_neg (by simpa using hrest c rfl)]

/-- From the end backwards, the loop stops at the last character that is no blank. -/
theorem trimEnd_eq {start : Str} {last : Nat} (hlast : isSpace (charAt start last) = false)
    (j : Nat) (hspace : ∀ i, last < i → i ≤ last + j → isSpace (charAt start i) = true) :
    trimEnd start (last + j) = last := by
  induction j with
  | zero =>
    cases last with
    | zero => rfl
    | succ last =>
      show (if isSpace (charAt start (last + 1)) then _ else _) = _
      rw [hlast]
      rfl
  | succ j ih =>
    show (if isSpace (charAt start (last + j + 1)) then _ else _) = _
    rw [hspace (last + j + 1) (by omega) le_rfl, if_pos rfl]
    exact ih fun i hlow hhigh => hspace i hlow (by omega)

/-- The value ends in front of the blanks and the line end. -/
theorem trimEnd_lineEnd {value trailing : Str} (hne : value ≠ [])
    (hend : ∀ c ∈ value.getLast?, isSpace c = false) (hvalue : 13 ∉ value)
    (htrailing : ∀ c ∈ trailing, isSpace c = true) :
    trimEnd (value ++ (trailing ++ [13, 10])) (lineEnd (value ++ (trailing ++ [13, 10]))) + 1
      = value.length := by
  have hspace : ∀ c ∈ trailing ++ [13, 10], isSpace c = true := by
    rw [List.forall_mem_append]
    exact ⟨htrailing, by decide +kernel⟩
  -- The first carriage return may be one of the blanks.
  obtain ⟨front, back, hsplit, hfront⟩ :=
    List.eq_append_cons_of_mem (show (13 : UInt8) ∈ trailing ++ [13, 10] by simp)
  have hline : lineEnd (value ++ (trailing ++ [13, 10])) = (value ++ front).length := by
    unfold lineEnd
    rw [hsplit, ← List.append_assoc, idxOf?_append_cons (List.not_mem_append hvalue hfront)]
  have hpos : 0 < value.length := List.length_pos_iff.mpr hne
  -- In front of the line end there are blanks, down to the end of the value.
  have hlast : isSpace (charAt (value ++ (trailing ++ [13, 10])) (value.length - 1)) = false := by
    apply hend
    unfold charAt
    rw [List.getD_append _ _ _ _ (by omega), List.getLast?_eq_getElem?, List.getD_eq_getElem?_getD,
      List.getElem?_eq_getElem (by omega)]
    rfl
  have hback : ∀ i, value.length - 1 < i → i ≤ value.length - 1 + (1 + front.length) →
      isSpace (charAt (value ++ (trailing ++ [13, 10])) i) = true := by
    intro i hlow hhigh
    have hrange : i - value.length < (trailing ++ [13, 10]).length := by
      rw [hsplit, List.length_append, List.length_cons]
      omega
    apply hspace
    unfold charAt
    rw [List.getD_append_right _ _ _ _ (by omega), List.getD_eq_getElem _ _ hrange]
    exact List.getElem_mem hrange
  have htrim := trimEnd_eq hlast (1 + front.length) hback
  -- So the loop goes back over all of them to the last character of the value.
  have hcount : (value ++ front).length = value.length - 1 + (1 + front.length) := by
    rw [List.length_append]
    omega
  rw [hline, hcount, htrim]
  omega

section Line

variable (line : HeaderLine)

/-- What follows the colon. -/
def HeaderLine.back : Str := line.blanks ++ (line.value ++ (line.trailing ++ [13, 10]))

/-- The line starts with its name, or with the colon. -/
theorem skipSpace_text : skipSpace line.text = line.text := by
  refine skipSpace_append (fun c hc => absurd hc List.not_mem_nil) fun c hc => ?_
  have hname := line.name_start
  cases h : line.name with
  | nil =>
    rw [h] at hc
    rw [← Option.some.inj hc]
    rfl
  | cons first name =>
    rw [h] at hc hname
    exact hname c hc

/-- The name of a header ends at its colon. -/
theorem dropWhile_text : line.text.dropWhile (· ≠ 58) = 58 :: line.back := by
  have hname : ∀ c ∈ line.name, c ≠ 58 := fun c hc h58 => line.name_chars.1 (h58 ▸ hc)
  unfold HeaderLine.text HeaderLine.back
  rw [List.dropWhile_append_of_pos (by simpa using hname)]
  simp

/-- The colon is no blank, so the name is not trimmed. -/
theorem take_text :
    line.text.take (trimEnd line.text (line.text.length - (58 :: line.back).length))
      = line.name := by
  have hstop : line.text.length - (58 :: line.back).length = line.name.length := by
    unfold HeaderLine.text HeaderLine.back
    rw [List.length_append, Nat.add_sub_cancel]
  have hcolon : charAt line.text line.name.length = 58 := by
    unfold charAt HeaderLine.text
    rw [List.getD_append_right _ _ _ _ le_rfl, Nat.sub_self]
    rfl
  have htrim : trimEnd line.text line.name.length = line.name.length :=
    trimEnd_eq (by rw [hcolon]; rfl) 0 fun i hlow hhigh => absurd hhigh (by omega)
  rw [hstop, htrim]
  exact List.take_left

/-- Blanks behind the colon are skipped, those at the end are not. -/
theorem skipSpace_back :
    skipSpace line.back = line.value ++ (line.trailing ++ [13, 10]) := by
  refine skipSpace_append line.blanks_space fun c hc => line.value_start c ?_
  obtain ⟨first, value, hcons⟩ := List.exists_cons_of_ne_nil line.value_ne_nil
  rw [hcons] at hc ⊢
  exact hc

/-- The value is cut at its length. -/
theorem take_value :
    (line.value ++ (line.trailing ++ [13, 10]) ++ [0]).take line.value.length = line.value := by
  rw [List.append_assoc]
  exact List.take_left

end Line

variable {content : CurlContent}

/-- One header line is added to the headers, whose code is set by then. -/
theorem headerFunction_line (hcode : content.code ≠ 0) (d : Delivery) :
    headerFunction d.line.text d.size d.nmemb content = (d.size * d.nmemb,
      { content with headers := addHeader d.line.name d.line.value content.headers }) := by
  have hsize : fullSize d.size d.nmemb = d.size * d.nmemb :=
    Nat.mod_eq_of_lt (d.full ▸ d.fits)
  have htext : d.line.text ≠ [] := List.append_ne_nil_of_right_ne_nil _ (List.cons_ne_nil _ _)
  have hvalue := List.append_ne_nil_of_left_ne_nil d.line.value_ne_nil
    (d.line.trailing ++ [13, 10])
  unfold headerFunction
  rw [if_neg hcode, skipSpace_text]
  dsimp only
  rw [if_neg htext, dropWhile_text, if_neg (List.cons_ne_nil _ _), take_text, List.tail_cons,
    skipSpace_back, if_neg hvalue, trimEnd_lineEnd d.line.value_ne_nil d.line.value_end
      d.line.value_chars.1 d.line.trailing_space, take_value, hsize]

/-! ### The map -/

/-- A name gets its first value, and keeps it. -/
theorem find_addHeader (name other value : Str) (headers : List (List Nat × List Str)) :
    OrderedMap.find (mapKey other) (addHeader name value headers)
      = (OrderedMap.find (mapKey other) headers).or
        (if name = other then some [value] else none) := by
  unfold addHeader
  cases hfind : OrderedMap.find (mapKey name) headers with
  | some values =>
    dsimp only
    by_cases hname : name = other
    · -- The value goes into the copy of the list.
      rw [← hname, hfind, Option.some_or]
    · rw [if_neg hname, Option.or_none]
  | none =>
    dsimp only
    rw [OrderedMap.find_set]
    by_cases hname : name = other
    · rw [if_pos hname, if_pos (congrArg mapKey hname.symm), ← hname, hfind, Option.none_or]
    · rw [if_neg hname, if_neg fun h => hname (mapKey_injective h).symm, Option.or_none]

/-- The updates of the map in a run. -/
def addHeaders (ds : List Delivery) (headers : List (List Nat × List Str)) :
    List (List Nat × List Str) :=
  ds.foldl (fun headers d => addHeader d.line.name d.line.value headers) headers

/-- All lines are added one after the other, and every call answers with the size it was given. -/
theorem run_eq (ds : List Delivery) (hcode : content.code ≠ 0) :
    run ds content = (ds.map fun d => d.size * d.nmemb,
      { content with headers := addHeaders ds content.headers }) := by
  induction ds generalizing content with
  | nil => rfl
  | cons d ds ih =>
    -- The code is still there for the rest of the lines.
    have hrest := @ih
      { content with headers := addHeader d.line.name d.line.value content.headers } hcode
    unfold run
    rw [headerFunction_line hcode d]
    dsimp only
    rw [hrest]
    rfl

/-- After a run every name has the first of its values. -/
theorem find_addHeaders (name : Str) (ds : List Delivery) (headers : List (List Nat × List Str)) :
    OrderedMap.find (mapKey name) (addHeaders ds headers)
      = (OrderedMap.find (mapKey name) headers).or
        ((valuesOf name ds).head?.map fun value => [value]) := by
  induction ds generalizing headers with
  | nil => exact Option.or_none.symm
  | cons d ds ih =>
    show OrderedMap.find (mapKey name)
      (addHeaders ds (addHeader d.line.name d.line.value headers)) = _
    rw [ih, find_addHeader, Option.or_assoc]
    unfold valuesOf
    by_cases hname : d.line.name = name
    · rw [if_pos hname, List.filter_cons_of_pos (by simpa using hname)]
      rfl
    · rw [if_neg hname, List.filter_cons_of_neg (by simpa using hname), Option.none_or]

/-! ### The result -/

/-- The first value is all there is if there is no second one. -/
theorem head_eq_entry_iff (values : List Str) :
    (values.head?.map fun value => [value]) = entry values ↔ values.length ≤ 1 := by
  rcases values with _ | ⟨first, _ | ⟨second, values⟩⟩
  · exact iff_of_true rfl (Nat.zero_le 1)
  · exact iff_of_true rfl le_rfl
  · -- The second value is the one that is lost.
    refine iff_of_false (fun h => ?_) (by simp)
    have hlists := Option.some.inj h
    exact List.cons_ne_nil second values (List.tail_eq_of_cons_eq hlists).symm

/-- As many values as lines have the name. -/
theorem length_valuesOf (name : Str) (ds : List Delivery) :
    (valuesOf name ds).length = (ds.map fun d => d.line.name).count name := by
  induction ds with
  | nil => rfl
  | cons d ds ih =>
    unfold valuesOf at ih ⊢
    rw [List.map_cons]
    by_cases hname : d.line.name = name
    · rw [List.filter_cons_of_pos (by simpa using hname), List.map_cons, List.length_cons, ih,
        hname, List.count_cons_self]
    · rw [List.filter_cons_of_neg (by simpa using hname), ih, List.count_cons_of_ne hname]

/-- A valid status line sets the code and nothing else of the content. -/
theorem afterStatus_eq {status : Str} (h : ValidStatus status) :
    afterStatus status = (sscanf (skipSpace status) fresh).2 := by
  have hcode : fresh.code = 0 := rfl
  unfold afterStatus headerFunction
  rw [if_pos hcode]
  dsimp only
  rw [if_neg (not_not.mpr h.1)]

/-- The status line leaves the map as it was. -/
theorem headers_sscanf (p : Str) (content : CurlContent) :
    (sscanf p content).2.headers = content.headers := by
  unfold sscanf
  dsimp only
  split_ifs <;> rfl

/-- **No header is lost exactly if** no two lines have the same name. -/
theorem noneLost_iff {status : Str} (h : ValidStatus status) (ds : List Delivery) :
    NoneLost status ds ↔ (ds.map fun d => d.line.name).Nodup := by
  have hstatus := afterStatus_eq h
  have hcode : (afterStatus status).code ≠ 0 := hstatus ▸ h.2
  have hempty : (afterStatus status).headers = [] := by rw [hstatus, headers_sscanf]; rfl
  have hrun := run_eq ds hcode
  have hfind : ∀ name, OrderedMap.find (mapKey name) (run ds (afterStatus status)).2.headers
      = (valuesOf name ds).head?.map fun value => [value] := by
    intro name
    rw [hrun, hempty]
    exact (find_addHeaders name ds []).trans (Option.none_or ..)
  rw [List.nodup_iff_count_le_one]
  constructor
  · intro hkeeps name
    rw [← length_valuesOf, ← head_eq_entry_iff, ← hfind]
    exact hkeeps.headers name
  · intro hcount
    refine ⟨by rw [hrun], fun name => ?_⟩
    rw [hfind, head_eq_entry_iff, length_valuesOf]
    exact hcount name

/-! ### Two lines -/

/-- The line `A: x` or `B: x`. -/
def shortLine (name : UInt8) (h : name = 65 ∨ name = 66) : Delivery where
  line :=
    { name := [name]
      blanks := [32]
      value := [120]
      trailing := []
      name_start := by rcases h with rfl | rfl <;> decide +kernel
      name_chars := by rcases h with rfl | rfl <;> decide
      blanks_space := by decide +kernel
      value_ne_nil := List.cons_ne_nil _ _
      value_start := by decide +kernel
      value_end := by decide +kernel
      value_chars := by decide
      trailing_space := by simp }
  size := 1
  nmemb := 6
  full := rfl
  fits := by
    show 6 < 2 ^ 64
    decide

/-- `HTTP/1.1 200`. -/
def okStatus : Str := [72, 84, 84, 80, 47, 49, 46, 49, 32, 50, 48, 48]

/-- Two headers with different names. -/
theorem noneLost_two : ValidStatus okStatus ∧
    NoneLost okStatus [shortLine 65 (.inl rfl), shortLine 66 (.inr rfl)] :=
  have h : ValidStatus okStatus := by decide
  ⟨h, (noneLost_iff h _).mpr (by decide)⟩

/-- The same line twice. -/
theorem not_noneLost_twice : ValidStatus okStatus ∧
    ¬ NoneLost okStatus [shortLine 65 (.inl rfl), shortLine 65 (.inl rfl)] := by
  have h : ValidStatus okStatus := by decide
  refine ⟨h, fun hkeeps => ?_⟩
  have hlist := hkeeps.headers [65]
  have hstored : OrderedMap.find (mapKey [65]) (run [shortLine 65 (.inl rfl),
      shortLine 65 (.inl rfl)] (afterStatus okStatus)).2.headers = some [[120]] := by
    decide
  rw [hstored] at hlist
  exact absurd hlist (by decide)

end Mylib.Proofs.Http
