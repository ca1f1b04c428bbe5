import Mylib.Lib.CString
import Mylib.Proofs.Protocol.PacketWrites
import Mylib.Spec.Protocol.HttpPacket

/-!
# `Mylib.Proofs.Protocol.HttpPacket`: which requests `SetData` parses

A round of the loop looks for the first `=` and the first `&` of what is left, and takes for
granted that they belong to the same piece:

* `setDataLoop_piece`, `setDataLoop_last`: they do, and the piece is stored;
* `setDataLoop_noEquals`: there is no `=`, and `substr` throws;
* `setDataLoop_early`: the `&` comes first, and a key with an `&` in it is stored, which no
  piece has. A key that is stored stays (`setDataLoop_stays`).

So every piece needs an `=`, but for an empty one at the end (`setData_iff`).
-/

set_option autoImplicit false

namespace Mylib.Proofs.Protocol.HttpPacket

open Mylib.Lib
open Mylib.Lib.CString (bind_eq_ok_iff)
open Mylib.Spec.Protocol
open Mylib.Spec.Protocol.HttpPacket

/-! ### What a request says -/

/-- The pieces between the separators. -/
def pieces (request : Str) : List Str := request.splitOn ampersand

/-- A piece at its first `=`; a piece without one has an empty value. -/
def keyValue (piece : Str) : List Nat × Str :=
  (mapKey (piece.takeWhile (· ≠ equals)), (piece.dropWhile (· ≠ equals)).tail)

/-- The keys and values of the pieces that are not empty. -/
def pairs (request : Str) : List (List Nat × Str) :=
  ((pieces request).filter (· ≠ [])).map keyValue

/-- What is promised of a request: the call ends without an exception, and the map has the last
value of each key. -/
def Parses (request : Str) : Prop :=
  ∃ fuel mapValue, setData fuel request = .ok mapValue ∧
    OrderedMap.Describes (pairs request) mapValue

/-- Every piece assigns a value, but for an empty one at the end. -/
def Assigned (pieces : List Str) : Prop :=
  (∀ piece ∈ pieces.dropLast, equals ∈ piece) ∧
    ∀ piece ∈ pieces.getLast?, piece ≠ [] → equals ∈ piece

instance (pieces : List Str) : Decidable (Assigned pieces) :=
  inferInstanceAs (Decidable (_ ∧ _))

/-- One piece is an assignment, or it is empty at the end. -/
theorem assigned_singleton (piece : Str) :
    Assigned [piece] ↔ (piece ≠ [] → equals ∈ piece) := by
  simp [Assigned]

/-- The first of several pieces has to be one. -/
theorem assigned_cons {piece : Str} {rest : List Str} (h : rest ≠ []) :
    Assigned (piece :: rest) ↔ equals ∈ piece ∧ Assigned rest := by
  unfold Assigned
  rw [List.dropLast_cons_of_ne_nil h, List.forall_mem_cons, and_assoc]
  cases rest with
  | nil => exact absurd rfl h
  | cons next rest => rw [List.getLast?_cons_cons]

/-- A piece ends at its ampersand. -/
theorem pieces_cons {piece : Str} (h : ampersand ∉ piece) (rest : Str) :
    pieces (piece ++ ampersand :: rest) = piece :: pieces rest :=
  List.splitOn_append_cons_self_of_not_mem h rest

/-- The last piece has none. -/
theorem pieces_last {piece : Str} (h : ampersand ∉ piece) : pieces piece = [piece] :=
  List.splitOn_eq_singleton h

/-- There is a piece to every request, maybe an empty one. -/
theorem pieces_ne_nil (request : Str) : pieces request ≠ [] := List.splitOn_ne_nil _ _

/-- The first `=` ends the key. -/
theorem keyValue_eq {key : Str} (h : equals ∉ key) (value : Str) :
    keyValue (key ++ equals :: value) = (mapKey key, value) := by
  have hkey : ∀ c ∈ key, c ≠ equals := fun c hc hce => h (hce ▸ hc)
  unfold keyValue
  rw [List.takeWhile_append_of_pos (by simpa using hkey),
    List.dropWhile_append_of_pos (by simpa using hkey)]
  simp

/-- The first pair and those behind it. -/
theorem pairs_cons {key value : Str} (hkey : equals ∉ key)
    (hand : ampersand ∉ key ++ equals :: value) (rest : Str) :
    pairs (key ++ equals :: value ++ ampersand :: rest) = (mapKey key, value) :: pairs rest := by
  unfold pairs
  rw [pieces_cons hand, List.filter_cons_of_pos (by simp), List.map_cons, keyValue_eq hkey]

/-- The last pair. -/
theorem pairs_last {key value : Str} (hkey : equals ∉ key)
    (hand : ampersand ∉ key ++ equals :: value) :
    pairs (key ++ equals :: value) = [(mapKey key, value)] := by
  unfold pairs
  rw [pieces_last hand, List.filter_cons_of_pos (by simp), List.filter_nil, List.map_singleton,
    keyValue_eq hkey]

/-- A request is a piece, or a piece, a separator and a request. -/
theorem piece_induction {P : Str → Prop} (last : ∀ piece, ampersand ∉ piece → P piece)
    (cons : ∀ piece rest, ampersand ∉ piece → P rest → P (piece ++ ampersand :: rest))
    (request : Str) : P request := by
  induction h : request.length using Nat.strong_induction_on generalizing request with
  | _ n ih =>
    by_cases hand : ampersand ∈ request
    · obtain ⟨piece, rest, rfl, hpiece⟩ := List.eq_append_cons_of_mem hand
      refine cons piece rest hpiece (ih rest.length ?_ rest rfl)
      rw [← h, List.length_append, List.length_cons]
      omega
    · exact last request hand

/-- No ampersand stands in a piece. -/
theorem not_mem_of_mem_pieces {request piece : Str} (h : piece ∈ pieces request) :
    ampersand ∉ piece := by
  induction request using piece_induction with
  | last first hfirst =>
    rw [pieces_last hfirst, List.mem_singleton] at h
    rwa [h]
  | cons first rest hfirst ih =>
    rw [pieces_cons hfirst, List.mem_cons] at h
    rcases h with rfl | h
    · exact hfirst
    · exact ih h

/-- Keys are told apart by their bytes. -/
theorem mapKey_injective : Function.Injective mapKey :=
  List.map_injective_iff.mpr fun _ _ h => UInt8.toNat_inj.mp h

/-- No piece has a separator in its key. -/
theorem lastValue_pairs {key : Str} (h : ampersand ∈ key) (request : Str) :
    OrderedMap.lastValue (mapKey key) (pairs request) = none := by
  rw [OrderedMap.lastValue_eq_none]
  intro pair hpair hkey
  obtain ⟨piece, hpiece, rfl⟩ := List.mem_map.mp hpair
  have htake : piece.takeWhile (· ≠ equals) = key := mapKey_injective hkey
  -- The key is the front of its piece.
  refine not_mem_of_mem_pieces (List.mem_of_mem_filter hpiece) ?_
  exact (List.takeWhile_prefix _).subset (htake ▸ h)

/-! ### A round of the loop -/

/-- The first occurrence of a character. -/
theorem idxOf?_append_cons {c : UInt8} {front : Str} (h : c ∉ front) (back : Str) :
    (front ++ c :: back).idxOf? c = some front.length := by
  rw [List.idxOf?_eq_some_iff]
  refine ⟨by simp, by simp, fun j hj hmem => h ?_⟩
  rw [List.getElem_append_left hj] at hmem
  exact hmem ▸ List.getElem_mem hj

/-- `find` gives the first place of a character. -/
theorem find_append {c : UInt8} {front : Str} (h : c ∉ front) (back : Str) :
    find c (front ++ c :: back) = front.length := by
  unfold find
  rw [idxOf?_append_cons h]
  rfl

/-- `find` gives `npos` where there is none. -/
theorem find_none {c : UInt8} {s : Str} (h : c ∉ s) : find c s = npos := by
  unfold find
  rw [List.idxOf?_eq_none_iff.mpr h]
  rfl

/-- `substr` throws only from a position behind the end. -/
theorem substr_eq {s : Str} {pos : Nat} (h : pos ≤ s.length) (n : Nat) :
    substr s pos n = .ok ((s.drop pos).take n) := if_neg (not_lt.mpr h)

/-- A position in a request that fits an `int32` is kept by the conversions. -/
theorem sizeT_int32 {n : Nat} (h : n < 2 ^ 31) : sizeT (int32 n) = n := by
  rw [int32_of_lt (Int.natCast_nonneg n) (by omega), sizeT_of_nonneg (Int.natCast_nonneg n)
    (by omega), Int.toNat_natCast]

section Loop

variable {len fuel : Nat} {mapValue : MapValue} {key back : Str}

/-- The key of a piece is cut out in front of its `=`. -/
theorem substr_key (hlen : (key ++ equals :: back).length < 2 ^ 31) :
    substr (key ++ equals :: back) 0 (sizeT (int32 key.length)) = .ok key := by
  rw [List.length_append] at hlen
  rw [sizeT_int32 (by omega), substr_eq (Nat.zero_le _)]
  exact congrArg Except.ok List.take_left

/-- The value of a piece is cut out behind its `=`. -/
theorem substr_value (n : Nat) :
    substr (key ++ equals :: back) (key.length + 1) n = .ok (back.take n) := by
  rw [substr_eq (by rw [List.length_append, List.length_cons]; omega), ← List.drop_drop,
    List.drop_left]
  rfl

/-- A piece with an `=` is not empty. -/
theorem key_ne_nil : ¬ (key ++ equals :: back).length = 0 := by
  rw [List.length_append, List.length_cons]
  omega

/-- A round without a separator: what is left of the request is one piece. -/
theorem setDataLoop_key (hkey : equals ∉ key)
    (hlen : (key ++ equals :: back).length < 2 ^ 31) (hand : ampersand ∉ key ++ equals :: back) :
    setDataLoop len (fuel + 1) (key ++ equals :: back) mapValue = setDataLoop len fuel []
      (putAttrib key (back.take (sizeT (len - key.length - 1))) mapValue) := by
  rw [setDataLoop, if_neg key_ne_nil, find_append hkey, find_none hand, if_pos rfl]
  dsimp only
  rw [substr_key hlen]
  show (substr (key ++ equals :: back) (key.length + 1) _ >>= _) = _
  rw [substr_value]
  simp only [ne_eq, not_true_eq_false, if_false]
  rfl

/-- A round with a separator: the value ends in front of the first one, if that is possible. -/
theorem setDataLoop_keyAnd (hkey : equals ∉ key)
    (hlen : (key ++ equals :: back).length < 2 ^ 31) {piece rest : Str}
    (hsplit : key ++ equals :: back = piece ++ ampersand :: rest) (hpiece : ampersand ∉ piece) :
    setDataLoop len (fuel + 1) (key ++ equals :: back) mapValue = setDataLoop len fuel rest
      (putAttrib key (back.take (sizeT (piece.length - key.length - 1))) mapValue) := by
  have hfind : find ampersand (key ++ equals :: back) = piece.length := by
    rw [hsplit, find_append hpiece]
  have hparts : (key ++ equals :: back).length = piece.length + (rest.length + 1) := by
    rw [hsplit, List.length_append, List.length_cons]
  -- The positions are small enough for all the conversions.
  have hnpos : ¬ piece.length = npos := by
    unfold npos
    omega
  have hend : int32 piece.length = piece.length := int32_of_lt (Int.natCast_nonneg _) (by omega)
  have hdrop : sizeT ((piece.length : Int) + 1) = piece.length + 1 :=
    sizeT_of_nonneg (by omega) (by omega)
  have hrest : substr (key ++ equals :: back) (piece.length + 1) (key ++ equals :: back).length
      = .ok rest := by
    rw [substr_eq (by omega), hparts, hsplit, ← List.drop_drop, List.drop_left]
    exact congrArg Except.ok (List.take_of_length_le (by simp; omega))
  rw [setDataLoop, if_neg key_ne_nil, find_append hkey, hfind, if_neg hnpos]
  dsimp only
  rw [substr_key hlen]
  show (substr (key ++ equals :: back) (key.length + 1) _ >>= _) = _
  rw [substr_value, hend]
  show (if piece.length ≠ npos then _ else _) = _
  rw [if_pos hnpos, hdrop, hrest]
  rfl

/-- A separator is no `=`. -/
theorem equals_not_mem {front rest : Str} (hfront : equals ∉ front) (hrest : equals ∉ rest) :
    equals ∉ front ++ ampersand :: rest := by
  rw [List.mem_append, List.mem_cons]
  rintro (h | h | h)
  · exact hfront h
  · exact absurd h (by decide)
  · exact hrest h

/-- Without an `=` the whole rest is the key, and the value would start behind its end. -/
theorem setDataLoop_noEquals {request : Str} (hequals : equals ∉ request) (hne : request ≠ [])
    (hlen : request.length < 2 ^ 31) :
    setDataLoop len (fuel + 1) request mapValue = .error .outOfRange := by
  -- `npos` is `-1` as an `int32`, and `npos` again as a position.
  have hnpos : sizeT (int32 npos) = npos := by decide
  have hkey : substr request 0 npos = .ok request := by
    rw [substr_eq (Nat.zero_le _), List.drop_zero, List.take_of_length_le]
    unfold npos
    omega
  have hvalue : ∀ n, substr request (request.length + 1) n = .error .outOfRange :=
    fun n => if_pos (Nat.lt_succ_self _)
  have hzero : ¬ request.length = 0 := fun h => hne (List.length_eq_zero_iff.mp h)
  rw [setDataLoop, if_neg hzero, find_none hequals]
  dsimp only
  rw [hnpos, hkey]
  show (substr request (request.length + 1) _ >>= _) = _
  rw [hvalue]
  rfl

/-- A piece with an `=` is stored. -/
theorem setDataLoop_piece {value rest : Str} (hkey : equals ∉ key)
    (hand : ampersand ∉ key ++ equals :: value)
    (hlen : (key ++ equals :: value ++ ampersand :: rest).length < 2 ^ 31) :
    setDataLoop len (fuel + 1) (key ++ equals :: value ++ ampersand :: rest) mapValue
      = setDataLoop len fuel rest (putAttrib key value mapValue) := by
  have hsplit : key ++ equals :: (value ++ ampersand :: rest)
      = key ++ equals :: value ++ ampersand :: rest := by
    rw [List.append_assoc, List.cons_append]
  -- Between the `=` and the separator there is nothing but the value.
  have hcount : sizeT (((key ++ equals :: value).length : Int) - key.length - 1)
      = value.length := by
    have hparts : (key ++ equals :: value).length = key.length + (value.length + 1) := by
      rw [List.length_append, List.length_cons]
    rw [List.length_append] at hlen
    rw [sizeT_of_nonneg (by omega) (by omega)]
    omega
  rw [← hsplit] at hlen ⊢
  rw [setDataLoop_keyAnd hkey hlen hsplit hand, hcount, List.take_left]

/-- The last piece with an `=` is stored. -/
theorem setDataLoop_last {value : Str} (hkey : equals ∉ key)
    (hand : ampersand ∉ key ++ equals :: value) (hle : (key ++ equals :: value).length ≤ len)
    (hlen : len < 2 ^ 31) :
    setDataLoop len (fuel + 1) (key ++ equals :: value) mapValue
      = setDataLoop len fuel [] (putAttrib key value mapValue) := by
  -- `len` is the length of the whole request, so the value is not cut.
  rw [setDataLoop_key hkey (by omega) hand, List.take_of_length_le]
  rw [List.length_append, List.length_cons] at hle
  rw [sizeT_of_nonneg (by omega) (by omega)]
  omega

/-- Storing a pair changes what is found for its key only, and the last one counts. -/
theorem find_putAttrib (k : List Nat) (value : Str) (m : MapValue) :
    OrderedMap.find k (putAttrib key value m)
      = if k = mapKey key then some value else OrderedMap.find k m := by
  unfold putAttrib
  rw [OrderedMap.find_set]
  split_ifs <;> rfl

/-- A key that was stored stays. -/
theorem setDataLoop_stays {request : Str} {result : MapValue} {k : List Nat}
    (hloop : setDataLoop len fuel request mapValue = .ok result)
    (hk : OrderedMap.find k mapValue ≠ none) : OrderedMap.find k result ≠ none := by
  have hput : ∀ key value (m : MapValue), OrderedMap.find k m ≠ none →
      OrderedMap.find k (putAttrib key value m) ≠ none := by
    intro key value m hm
    rw [find_putAttrib]
    split_ifs
    · exact Option.some_ne_none value
    · exact hm
  induction fuel generalizing request mapValue with
  | zero => cases hloop
  | succ fuel ih =>
    rw [setDataLoop] at hloop
    by_cases hempty : request.length = 0
    · rw [if_pos hempty] at hloop
      rw [← Except.ok.inj hloop]
      exact hk
    · rw [if_neg hempty] at hloop
      dsimp only at hloop
      -- A round that does not throw stores one attribute and goes on.
      obtain ⟨key, -, hloop⟩ := bind_eq_ok_iff.mp hloop
      obtain ⟨value, -, hloop⟩ := bind_eq_ok_iff.mp hloop
      by_cases hand : find ampersand request ≠ npos
      · rw [if_pos hand] at hloop
        obtain ⟨rest, -, hloop⟩ := bind_eq_ok_iff.mp hloop
        exact ih hloop (hput key value _ hk)
      · rw [if_neg hand] at hloop
        exact ih hloop (hput key value _ hk)

end Loop

/-! ### The result -/

/-- Where every piece assigns a value, the pairs are stored in order. -/
theorem setDataLoop_assigned {len : Nat} (hlen : len < 2 ^ 31) {request : Str}
    (hassigned : Assigned (pieces request)) (hle : request.length ≤ len) (mapValue : MapValue) :
    ∃ fuel, setDataLoop len fuel request mapValue
      = .ok (OrderedMap.setAll mapValue (pairs request)) := by
  induction request using piece_induction generalizing mapValue with
  | last piece hand =>
    rw [pieces_last hand, assigned_singleton] at hassigned
    by_cases hempty : piece = []
    · subst hempty
      exact ⟨1, rfl⟩
    · -- One round stores the piece, and the next one finds nothing left.
      obtain ⟨key, value, rfl, hkey⟩ := List.eq_append_cons_of_mem (hassigned hempty)
      refine ⟨2, ?_⟩
      rw [setDataLoop_last hkey hand hle hlen, pairs_last hkey hand]
      rfl
  | cons piece rest hand ih =>
    -- The first piece is stored, and the rest is read into a map that already holds it.
    rw [pieces_cons hand, assigned_cons (pieces_ne_nil rest)] at hassigned
    obtain ⟨key, value, rfl, hkey⟩ := List.eq_append_cons_of_mem hassigned.1
    have hrest : rest.length ≤ len := by
      rw [List.length_append, List.length_cons] at hle
      omega
    obtain ⟨fuel, hloop⟩ := ih hassigned.2 hrest (putAttrib key value mapValue)
    refine ⟨fuel + 1, ?_⟩
    rw [setDataLoop_piece hkey hand (by omega), hloop, pairs_cons hkey hand]
    rfl

/-- Elsewhere the loop throws, or leaves a key with a separator in it. -/
theorem setDataLoop_unassigned {len : Nat} {request : Str}
    (hassigned : ¬ Assigned (pieces request)) (hlen : request.length < 2 ^ 31) {fuel : Nat}
    {mapValue result : MapValue} (hloop : setDataLoop len fuel request mapValue = .ok result) :
    ∃ key, ampersand ∈ key ∧ getAttrib key result ≠ none := by
  induction request using piece_induction generalizing fuel mapValue with
  -- No `=` is left, so the loop gives no map.
  | last piece hand =>
    rw [pieces_last hand, assigned_singleton, Classical.not_imp] at hassigned
    cases fuel with
    | zero => cases hloop
    | succ fuel =>
      rw [setDataLoop_noEquals hassigned.2 hassigned.1 hlen] at hloop
      cases hloop
  | cons piece rest hand ih =>
    rw [pieces_cons hand, assigned_cons (pieces_ne_nil rest)] at hassigned
    have hrest : rest.length < 2 ^ 31 := by
      rw [List.length_append, List.length_cons] at hlen
      omega
    cases fuel with
    | zero => cases hloop
    | succ fuel =>
      by_cases hpiece : equals ∈ piece
      · -- The piece is stored, and a later one is to blame.
        obtain ⟨key, value, rfl, hkey⟩ := List.eq_append_cons_of_mem hpiece
        rw [setDataLoop_piece hkey hand hlen] at hloop
        exact ih (fun hrest => hassigned ⟨hpiece, hrest⟩) hrest hloop
      · by_cases hequals : equals ∈ rest
        · -- The `=` of a later piece ends the key.
          obtain ⟨front, back, rfl, hfront⟩ := List.eq_append_cons_of_mem hequals
          have hsplit : (piece ++ ampersand :: front) ++ equals :: back
              = piece ++ ampersand :: (front ++ equals :: back) := by
            rw [List.append_assoc, List.cons_append]
          rw [← hsplit] at hloop hlen
          rw [setDataLoop_keyAnd (equals_not_mem hpiece hfront) hlen hsplit hand] at hloop
          refine ⟨piece ++ ampersand :: front, by simp, setDataLoop_stays hloop ?_⟩
          rw [find_putAttrib, if_pos rfl]
          exact Option.some_ne_none _
        -- No `=` is left here either.
        · rw [setDataLoop_noEquals (equals_not_mem hpiece hequals) (by simp) hlen] at hloop
          cases hloop

/-- What `GetAttrib` returns for a request that was parsed. -/
theorem getAttrib_eq {request : Str} {mapValue : MapValue}
    (h : OrderedMap.Describes (pairs request) mapValue) (key : Str) :
    getAttrib key mapValue = OrderedMap.lastValue (mapKey key) (pairs request) :=
  h.last_wins (mapKey key)

/-- No piece has a key like the one that is left. -/
theorem not_parses {request : Str} (hassigned : ¬ Assigned (pieces request))
    (hlen : request.length < 2 ^ 31) : ¬ Parses request := by
  rintro ⟨fuel, mapValue, hloop, hdescribes⟩
  obtain ⟨key, hand, hfind⟩ := setDataLoop_unassigned hassigned hlen hloop
  rw [getAttrib_eq hdescribes, lastValue_pairs hand] at hfind
  exact hfind rfl

/-- **A request is parsed exactly if** its pieces are assignments, an empty one at the end apart.
The bound is that of the source's `int32` positions. -/
theorem setData_iff {request : Str} (hlen : request.length < 2 ^ 31) :
    Parses request ↔ Assigned (pieces request) := by
  constructor
  · intro hparses
    by_contra hassigned
    exact not_parses hassigned hlen hparses
  · intro hassigned
    obtain ⟨fuel, hloop⟩ := setDataLoop_assigned hlen hassigned le_rfl []
    exact ⟨fuel, _, hloop, OrderedMap.describes_setAll _⟩

/-- `a=1&`. -/
theorem setData_one : ([97, 61, 49, 38] : Str).length < 2 ^ 31 ∧ Parses [97, 61, 49, 38] :=
  have hlen : ([97, 61, 49, 38] : Str).length < 2 ^ 31 := by decide
  ⟨hlen, (setData_iff hlen).mpr (by decide)⟩

/-- `a`, and `&a=1`. -/
theorem not_setData_bare : ¬ Parses [97] ∧ ¬ Parses [38, 97, 61, 49] :=
  ⟨not_parses (by decide) (by decide), not_parses (by decide) (by decide)⟩

end Mylib.Proofs.Protocol.HttpPacket
