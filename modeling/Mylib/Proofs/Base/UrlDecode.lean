import Mylib.Proofs.Base.UrlEncode

/-!
# `Mylib.Proofs.Base.UrlDecode`: when `UrlDecode` undoes `UrlEncode`

The loop decodes in place. What is left to read stays as it was behind `data`, and what is
decoded stands in front of `dest`, which is never behind `data` (`decodeLoop_eq`). What it makes
of the text is `decoded`, and that undoes `encoded` byte by byte.

Both functions keep the length in an `int`. A length that is cut makes the encoder leave out the
end, a third of the range is enough for the size of its block to overflow (`urlEncode_overflow`),
and a length that becomes negative makes the decoder count down until the counter overflows
(`decodeLoop_negative`).

* `urlDecode_eq`: the result where the cut length is not negative.
* `decodesBack_iff`: on which strings both promises are kept.
-/

set_option autoImplicit false

namespace Mylib.Proofs.Base.Url

open Mylib.Lib.Memory
open Mylib.Spec.Base UrlCoding
open StringUtil
open Mylib.Lib.CString (bind_eq_ok_iff ok_bind)

/-! ### The decoding -/

/-- The character that `c` and the two characters behind it stand for, if it is `%` and they
are digits. -/
def escapeOf (c : UInt8) : Str → Option UInt8
  | x :: y :: _ =>
    if c = 37 ∧ isXDigit x = true ∧ isXDigit y = true then some (toChar (phpHtoi x y)) else none
  | _ => none

def decoded : Str → Str
  | [] => []
  | c :: s =>
    if c = 43 then 32 :: decoded s
    else
      match escapeOf c s with
      | some value => value :: decoded (s.drop 2)
      | none => c :: decoded s
termination_by s => s.length
decreasing_by all_goals simp only [List.length_drop, List.length_cons]; omega

/-- What is promised of the string `s`. `UrlEncode` has a result, and where it is `true`, its
output is decoded to `s`; and `UrlDecode` of `s` itself has a result that is no longer. -/
structure DecodesBack (malloc strdup : Bool) (s : Str) : Prop where
  defined : ∃ r, urlEncode malloc s = .ok r
  inverse : ∀ out, urlEncode malloc s = .ok (some out) → urlDecode strdup out = .ok s
  total : ∃ out, urlDecode strdup s = .ok out ∧ out.length ≤ s.length

section

variable {c value : UInt8} {s : Str}

/-- A plus stands for a blank. -/
theorem decoded_plus : decoded (43 :: s) = 32 :: decoded s := by
  rw [decoded, if_pos rfl]

/-- An escape stands for its byte, and its two digits are passed. -/
theorem decoded_escape (hc : c ≠ 43) (h : escapeOf c s = some value) :
    decoded (c :: s) = value :: decoded (s.drop 2) := by
  rw [decoded, if_neg hc, h]

/-- Any other byte stands for itself. -/
theorem decoded_plain (hc : c ≠ 43) (h : escapeOf c s = none) :
    decoded (c :: s) = c :: decoded s := by
  rw [decoded, if_neg hc, h]

/-- Behind the percent of an escape there are two digits. -/
theorem length_of_escapeOf (h : escapeOf c s = some value) : 2 ≤ s.length := by
  rcases s with _ | ⟨x, _ | ⟨y, s⟩⟩
  · cases h
  · cases h
  · simp

/-- Decoding never makes a text longer, so it can be done in place. -/
theorem length_decoded_le (s : Str) : (decoded s).length ≤ s.length := by
  induction s using decoded.induct with
  | case1 =>
    rw [decoded]
  | case2 s ih =>
    rw [decoded_plus]
    exact Nat.succ_le_succ ih
  | case3 c s hc value h ih =>
    rw [decoded_escape hc h]
    rw [List.length_drop] at ih
    simp only [List.length_cons]
    omega
  | case4 c s hc h ih =>
    rw [decoded_plain hc h]
    exact Nat.succ_le_succ ih

end

/-! ### Digits -/

/-- The sixteen digits that the encoder writes are read back. Checked one by one. -/
theorem hexDigit_facts : ∀ n : Fin 16, isXDigit (hexDigit n) = true ∧ htoiDigit (hexDigit n) = n ∧
    hexDigit n ≠ 0 := by
  decide

/-- The two digits of a byte are read back as the byte. -/
theorem phpHtoi_escaped (ch : UInt8) :
    toChar (phpHtoi (hexDigit (ch.toNat / 16)) (hexDigit (ch.toNat % 16))) = ch := by
  have hlt := ch.toNat_lt
  have hhigh := (hexDigit_facts ⟨ch.toNat / 16, by omega⟩).2.1
  have hlow := (hexDigit_facts ⟨ch.toNat % 16, by omega⟩).2.1
  dsimp only at hhigh hlow
  rw [phpHtoi, hhigh, hlow, toChar]
  have hvalue : ((((ch.toNat / 16 : Nat) : Int) * 16 + (ch.toNat % 16 : Nat)) % 256).toNat
      = ch.toNat := by
    omega
  rw [hvalue, UInt8.ofNat_toNat]

/-- What the encoder writes for a byte is an escape of that byte. -/
theorem escapeOf_escaped (ch : UInt8) (s : Str) :
    escapeOf 37 (hexDigit (ch.toNat / 16) :: hexDigit (ch.toNat % 16) :: s) = some ch := by
  have hlt := ch.toNat_lt
  have hhigh := (hexDigit_facts ⟨ch.toNat / 16, by omega⟩).1
  have hlow := (hexDigit_facts ⟨ch.toNat % 16, by omega⟩).1
  rw [escapeOf, if_pos ⟨rfl, hhigh, hlow⟩, phpHtoi_escaped]

/-- A character that is copied is neither `+` nor `%`. -/
theorem plain_of_copied {ch : UInt8} (h : ¬Escapes ch) : ch ≠ 43 ∧ ch ≠ 37 := by
  constructor
  · rintro rfl
    exact h (by decide)
  · rintro rfl
    exact h (by decide)

/-- Only a percent begins an escape. -/
theorem escapeOf_eq_none {c : UInt8} (hc : c ≠ 37) (s : Str) : escapeOf c s = none := by
  rcases s with _ | ⟨x, _ | ⟨y, s⟩⟩
  · rfl
  · rfl
  · rw [escapeOf, if_neg fun h => hc h.1]

/-- One encoded character is read back. -/
theorem decoded_encodeByte (ch : UInt8) (s : Str) :
    decoded (encodeByte ch ++ s) = ch :: decoded s := by
  unfold encodeByte
  split_ifs with hescape hblank
  · exact decoded_escape (by decide) (escapeOf_escaped ch s)
  · rw [hblank]
    exact decoded_plus
  · obtain ⟨hplus, hpercent⟩ := plain_of_copied hescape
    exact decoded_plain hplus (escapeOf_eq_none hpercent s)

/-- Decoding undoes encoding, on every text. -/
theorem decoded_encoded (s : Str) : decoded (encoded s) = s := by
  induction s with
  | nil => rw [encoded, List.flatMap_nil, decoded]
  | cons ch s ih => rw [encoded_cons, decoded_encodeByte, ih]

/-- The encoder writes no zero for bytes that are none. -/
theorem zero_notMem_encoded {s : Str} (h : 0 ∉ s) : 0 ∉ encoded s := by
  intro hmem
  obtain ⟨ch, hch, hzero⟩ := List.mem_flatMap.mp hmem
  unfold encodeByte at hzero
  split_ifs at hzero
  · have hlt := ch.toNat_lt
    have hhigh := (hexDigit_facts ⟨ch.toNat / 16, by omega⟩).2.2
    have hlow := (hexDigit_facts ⟨ch.toNat % 16, by omega⟩).2.2
    simp only [escaped, List.mem_cons, List.not_mem_nil, or_false] at hzero
    rcases hzero with hzero | hzero | hzero
    · exact absurd hzero (by decide)
    · exact hhigh hzero.symm
    · exact hlow hzero.symm
  · exact absurd hzero (by decide)
  · exact h (List.mem_singleton.mp hzero ▸ hch)

/-! ### The loop -/

section

variable {str : Block UInt8} {data dest : Nat} {c : UInt8} {s out : Str}

/-- The text that is left stands from `data` on, and what is decoded in front of `dest`. -/
structure Left (str : Block UInt8) (s : Str) (data dest : Nat) (out : Str) : Prop where
  order : dest ≤ data
  room : data + s.length ≤ str.length
  unread : slice str data s.length = s.map some
  written : slice str 0 dest = out.map some

/-- The pointer reads what is left of the text. -/
theorem Left.load (h : Left str s data dest out) {i : Nat} (hi : s[i]? = some c) :
    load str (data + i) = .ok c := by
  have hlt : i < s.length := (List.getElem?_eq_some_iff.mp hi).1
  have hget : (slice str data s.length)[i]? = some (some c) := by
    rw [h.unread, List.getElem?_map, hi]
    rfl
  rw [getElem?_slice, if_pos hlt] at hget
  rw [UrlCoding.load, hget]

/-- As long as a byte is left there is room for one. -/
theorem Left.dest_lt (h : Left str (c :: s) data dest out) : dest < str.length := by
  have hroom := h.room
  have horder := h.order
  rw [List.length_cons] at hroom
  omega

/-- One character is stored, and `k + 1` are behind `data`. -/
theorem Left.next (h : Left str (c :: s) data dest out) (value : UInt8) {k : Nat}
    (hk : k ≤ s.length) :
    store str dest [value] = .ok (splice str dest [some value]) ∧
      Left (splice str dest [some value]) (s.drop k) (data + (k + 1)) (dest + 1)
        (out ++ [value]) := by
  have hroom := h.room
  have horder := h.order
  rw [List.length_cons] at hroom
  have hinside : dest + [value].length ≤ str.length := by
    rw [List.length_singleton]
    omega
  have hcells : dest + [some value].length ≤ str.length := hinside
  refine ⟨store_eq hinside, by omega, ?_, ?_, slice_store hinside le_rfl h.written⟩
  · rw [length_splice hcells, List.length_drop]
    omega
  · rw [slice_splice_of_ge hcells (by rw [List.length_singleton]; omega), List.length_drop,
      ← Nat.add_sub_add_right s.length 1 k, slice_drop]
    rw [show s.length + 1 = (c :: s).length from rfl, h.unread]
    simp

/-- The three conditions of the code on the bytes at the pointer are those of an escape. -/
theorem escapeAt_eq (h : Left str (c :: s) data dest out) :
    escapeAt str data c (s.length : Nat) = .ok (escapeOf c s) := by
  unfold escapeAt
  by_cases htest : c = 37 ∧ (2 : Int) ≤ (s.length : Nat)
  · rw [if_pos htest]
    rcases s with _ | ⟨x, _ | ⟨y, s⟩⟩
    · exact absurd htest.2 (by simp)
    · exact absurd htest.2 (by simp)
    · have hx : load str (data + 1) = .ok x := h.load rfl
      have hy : load str (data + 2) = .ok y := h.load rfl
      rw [hx, escapeOf]
      simp only [bind, Except.bind, pure, Except.pure, hy, htest.1, true_and]
      cases isXDigit x <;> cases isXDigit y <;> rfl
  · rw [if_neg htest]
    rcases s with _ | ⟨x, _ | ⟨y, s⟩⟩
    · rfl
    · rfl
    · have hc : c ≠ 37 := fun hc => htest ⟨hc, by simp; omega⟩
      rw [escapeOf_eq_none hc]
      rfl

/-- One pass, by what stands at `data`. -/
theorem decodeLoop_cons (h : Left str (c :: s) data dest out) :
    decodeLoop ((c :: s).length : Nat) data dest str
      = if c = 43 then decodeLoop (s.length : Nat) (data + 1) (dest + 1) (splice str dest [some 32])
        else
          match escapeOf c s with
          | some value => decodeLoop ((s.drop 2).length : Nat) (data + 3) (dest + 1)
              (splice str dest [some value])
          | none => decodeLoop (s.length : Nat) (data + 1) (dest + 1)
              (splice str dest [some c]) := by
  have hload : load str data = .ok c := h.load (i := 0) rfl
  have hstore : ∀ value, store str dest [value] = .ok (splice str dest [some value]) :=
    fun value => (h.next value (Nat.zero_le _)).1
  have hleft : (((c :: s).length : Nat) : Int) - 1 = (s.length : Nat) := by simp
  rw [decodeLoop, if_neg (by simp; omega), dif_neg (by omega), hload, hleft]
  simp only [bind, Except.bind, hstore, escapeAt_eq h]
  split_ifs
  · rfl
  · cases hvalue : escapeOf c s with
    | none => rfl
    | some value =>
      have htwo := length_of_escapeOf hvalue
      have hdrop : ((s.length : Nat) : Int) - 2 = ((s.drop 2).length : Nat) := by
        rw [List.length_drop]
        omega
      dsimp only
      rw [hdrop]

/-- The loop stores `text` behind the output so far. -/
def Stores (inStrLen : Int) (data dest : Nat) (str : Block UInt8) (out text : Str) : Prop :=
  ∃ str', decodeLoop inStrLen data dest str = .ok (dest + text.length, str') ∧
    str'.length = str.length ∧ slice str' 0 (dest + text.length) = (out ++ text).map some

/-- A pass that stores `value`, and the loop behind it. -/
theorem Stores.cons {inStrLen : Int} {value : UInt8} {text : Str} (hdest : dest < str.length)
    (h : Stores inStrLen data (dest + 1) (splice str dest [some value]) (out ++ [value]) text)
    {n : Int} {i : Nat} (hpass : decodeLoop n i dest str
      = decodeLoop inStrLen data (dest + 1) (splice str dest [some value])) :
    Stores n i dest str out (value :: text) := by
  obtain ⟨str', hloop, hlength, hwritten⟩ := h
  rw [length_splice hdest] at hlength
  rw [List.append_assoc, List.singleton_append] at hwritten
  refine ⟨str', ?_, hlength, ?_⟩
  · rw [hpass, hloop, List.length_cons, Nat.add_right_comm, Nat.add_assoc]
  · rw [List.length_cons, Nat.add_comm text.length, ← Nat.add_assoc]
    exact hwritten

/-- The loop decodes the text that is left. -/
theorem decodeLoop_eq (s : Str) {data dest : Nat} {str : Block UInt8} {out : Str}
    (h : Left str s data dest out) : Stores (s.length : Nat) data dest str out (decoded s) := by
  -- By the cases of the decoding: the end, a plus, an escape, any other byte.
  induction s using decoded.induct generalizing data dest str out with
  | case1 =>
    refine ⟨str, ?_, rfl, ?_⟩
    · rw [decodeLoop, if_pos (by simp), decoded]
      rfl
    · rw [decoded, List.append_nil]
      exact h.written
  | case2 s ih =>
    have hpass := decodeLoop_cons h
    rw [if_pos rfl] at hpass
    rw [decoded_plus]
    exact .cons h.dest_lt (ih (h.next 32 (Nat.zero_le _)).2) hpass
  | case3 c s hc value hvalue ih =>
    have hpass := decodeLoop_cons h
    rw [if_neg hc, hvalue] at hpass
    rw [decoded_escape hc hvalue]
    exact .cons h.dest_lt (ih (h.next value (length_of_escapeOf hvalue)).2) hpass
  | case4 c s hc hvalue ih =>
    have hpass := decodeLoop_cons h
    rw [if_neg hc, hvalue] at hpass
    rw [decoded_plain hc hvalue]
    exact .cons h.dest_lt (ih (h.next c (Nat.zero_le _)).2) hpass

/-- A negative counter never gets to zero. -/
theorem decodeLoop_negative {inStrLen : Int} (h : inStrLen < 0) (data dest : Nat)
    (str : Block UInt8) (r : Nat × Block UInt8) : decodeLoop inStrLen data dest str ≠ .ok r := by
  induction hleft : (inStrLen + 2 ^ 31).toNat using Nat.strong_induction_on
    generalizing inStrLen data dest str with
  | _ left ih =>
    subst hleft
    rw [decodeLoop, if_neg h.ne]
    split_ifs with hover
    · exact fun h => by cases h
    -- Every pass makes the counter smaller, so it gets to the lower end of `int`.
    · intro hrun
      obtain ⟨c, -, hrun⟩ := bind_eq_ok_iff.mp hrun
      split_ifs at hrun
      · obtain ⟨str', -, hrun⟩ := bind_eq_ok_iff.mp hrun
        exact ih _ (by omega) (by omega) _ _ _ rfl hrun
      · obtain ⟨value, -, hrun⟩ := bind_eq_ok_iff.mp hrun
        cases value with
        | none =>
          obtain ⟨str', -, hrun⟩ := bind_eq_ok_iff.mp hrun
          exact ih _ (by omega) (by omega) _ _ _ rfl hrun
        | some value =>
          obtain ⟨str', -, hrun⟩ := bind_eq_ok_iff.mp hrun
          exact ih _ (by omega) (by omega) _ _ _ rfl hrun

end

/-! ### `UrlDecode` -/

/-- A C string ends at its first zero. -/
theorem cString_eq (out : Str) (tail : Block UInt8) :
    cString ((out ++ [0]).map some ++ tail) = .ok (out.takeWhile (· ≠ 0)) := by
  induction out with
  | nil => rfl
  | cons c out ih =>
    rw [List.cons_append, List.map_cons, List.cons_append, cString, ih, List.takeWhile_cons]
    by_cases hc : c = 0
    · simp [hc]
    · simp [hc, Except.map]

/-- The terminator is stored behind the text, and the block is read as a C string. -/
theorem cString_stored {str : Block UInt8} {out : Str} (h : out.length < str.length)
    (hout : slice str 0 out.length = out.map some) :
    (store str out.length [0] >>= cString) = .ok (out.takeWhile (· ≠ 0)) := by
  have hinside : out.length + [(0 : UInt8)].length ≤ str.length := h
  have hend := slice_store hinside le_rfl hout
  rw [List.take_length, slice, List.drop_zero] at hend
  rw [store_eq hinside, ok_bind]
  rw [← List.take_append_drop (out.length + [(0 : UInt8)].length)
    (splice str out.length ([0].map some)), hend]
  exact cString_eq _ _

section

variable {content : Str}

/-- The text in front of the first zero, as far as the cut length goes. -/
def textLeft (content : Str) : Str :=
  (content.takeWhile (· ≠ 0)).take ((content.takeWhile (· ≠ 0)).length % 2 ^ 32)

/-- Where the length is not negative as an `int`, the text is decoded up to its end, and the copy
that is handed back ends at the first zero. -/
theorem urlDecode_eq (h : (content.takeWhile (· ≠ 0)).length % 2 ^ 32 < 2 ^ 31) :
    urlDecode true content = .ok ((decoded (textLeft content)).takeWhile (· ≠ 0)) := by
  unfold urlDecode textLeft
  generalize content.takeWhile (· ≠ 0) = inStr at h ⊢
  have hcast : int32 inStr.length = (inStr.length % 2 ^ 32 : Nat) := by
    rcases int32_cases inStr.length with ⟨-, heq⟩ | ⟨hge, -⟩
    · exact heq
    · omega
  have hk := Nat.mod_le inStr.length (2 ^ 32)
  generalize inStr.length % 2 ^ 32 = k at hcast hk ⊢
  have hlen : (inStr.take k).length = k := List.length_take_of_le hk
  -- The loop stays in the first `k` bytes, in front of the terminator.
  have hleft : Left ((inStr ++ [0]).map some) (inStr.take k) 0 0 [] := by
    refine ⟨le_rfl, ?_, ?_, slice_zero _ _⟩
    · rw [List.length_map, List.length_append, hlen]
      omega
    · rw [hlen, slice, List.drop_zero, ← List.map_take, List.take_append_of_le_length hk]
  obtain ⟨str, hloop, hlength, hwritten⟩ := decodeLoop_eq _ hleft
  have hdecoded := length_decoded_le (inStr.take k)
  rw [hlen] at hloop hdecoded
  rw [Nat.zero_add] at hloop hwritten
  rw [List.nil_append] at hwritten
  have hinside : (decoded (inStr.take k)).length < str.length := by
    rw [hlength, List.length_map, List.length_append, List.length_singleton]
    exact Nat.lt_succ_of_le (hdecoded.trans hk)
  dsimp only
  rw [hcast, hloop]
  exact cString_stored hinside hwritten

/-- With a negative length the zero is written in front of the buffer. -/
theorem urlDecode_negative (h : 2 ^ 31 ≤ (content.takeWhile (· ≠ 0)).length % 2 ^ 32)
    (out : Str) : urlDecode true content ≠ .ok out := by
  unfold urlDecode
  dsimp only
  generalize content.takeWhile (· ≠ 0) = inStr at h ⊢
  have hneg : int32 inStr.length < 0 := by
    rcases int32_cases inStr.length with ⟨hlt, -⟩ | ⟨-, hneg⟩
    · omega
    · exact hneg
  intro hrun
  obtain ⟨r, hloop, -⟩ := bind_eq_ok_iff.mp hrun
  exact decodeLoop_negative hneg 0 0 _ r hloop

end

/-! ### Both ways -/

section

variable {s : Str}

/-- Without a zero the whole text is taken. -/
theorem takeWhile_of_zero_notMem (h : 0 ∉ s) : s.takeWhile (· ≠ 0) = s := by
  refine List.takeWhile_eq_self_iff.mpr fun c hc => ?_
  rw [decide_eq_true_eq]
  rintro rfl
  exact h hc

/-- What is encoded whole is decoded whole. -/
theorem urlDecode_encoded (h : 0 ∉ s) (hfits : 3 * s.length < 2 ^ 31) :
    urlDecode true (encoded s) = .ok s := by
  have hle := length_encoded_le s
  have hmod : (encoded s).length % 2 ^ 32 = (encoded s).length := Nat.mod_eq_of_lt (by omega)
  have htext : textLeft (encoded s) = encoded s := by
    rw [textLeft, takeWhile_of_zero_notMem (zero_notMem_encoded h), hmod, List.take_length]
  rw [urlDecode_eq, htext, decoded_encoded, takeWhile_of_zero_notMem h]
  rw [takeWhile_of_zero_notMem (zero_notMem_encoded h), hmod]
  omega

/-- The output is no longer than the text. -/
theorem urlDecode_length (h : 0 ∉ s) (hlt : s.length % 2 ^ 32 < 2 ^ 31) :
    ∃ out, urlDecode true s = .ok out ∧ out.length ≤ s.length := by
  refine ⟨_, urlDecode_eq (by rwa [takeWhile_of_zero_notMem h]), ?_⟩
  have hcut := (List.takeWhile_prefix (fun c : UInt8 => decide (c ≠ 0))
    (l := decoded (textLeft s))).length_le
  have hdecoded := length_decoded_le (textLeft s)
  have htake : (textLeft s).length ≤ s.length := by
    rw [textLeft, takeWhile_of_zero_notMem h]
    exact List.length_take_le' _ _
  exact hcut.trans (hdecoded.trans htake)

/-- `UrlDecode` returns exactly if `strdup` succeeds and the cut length is not negative. -/
theorem urlDecode_total_iff (h : 0 ∉ s) (strdup : Bool) :
    (∃ out, urlDecode strdup s = .ok out ∧ out.length ≤ s.length) ↔
      strdup = true ∧ s.length % 2 ^ 32 < 2 ^ 31 := by
  constructor
  · rintro ⟨out, hout, -⟩
    cases strdup with
    | false => cases hout
    | true =>
      refine ⟨rfl, ?_⟩
      by_contra hge
      refine urlDecode_negative ?_ out hout
      rw [takeWhile_of_zero_notMem h]
      omega
  · rintro ⟨rfl, hlt⟩
    exact urlDecode_length h hlt

/-- What `UrlEncode` returns is decoded to `s` exactly if the length is not cut. -/
theorem inverse_iff (h : 0 ∉ s) (malloc : Bool) :
    (∀ out, urlEncode malloc s = .ok (some out) → urlDecode true out = .ok s) ↔
      s.length < 2 ^ 31 ∨ ¬Returns malloc s (s.length % 2 ^ 32) := by
  have hmod := Nat.mod_le s.length (2 ^ 32)
  constructor
  · intro hinverse
    by_contra hcut
    obtain ⟨hlong, hreturns⟩ := not_or.mp hcut
    have hreturns := not_not.mp hreturns
    have htake : 0 ∉ s.take (s.length % 2 ^ 32) := fun hmem => h (List.mem_of_mem_take hmem)
    -- The end of the string is not encoded, so it does not come back.
    have hback := hinverse _ (urlEncode_eq_some_iff.mpr ⟨hreturns, rfl⟩)
    rw [urlDecode_encoded htake (by rw [List.length_take_of_le hmod]; exact hreturns.fits),
      Except.ok.injEq] at hback
    have hlength := congrArg List.length hback
    rw [List.length_take_of_le hmod] at hlength
    have hfits := hreturns.fits
    omega
  · intro hcut out hout
    obtain ⟨hreturns, rfl⟩ := urlEncode_eq_some_iff.mp hout
    rcases hcut with hshort | hno
    · -- The length is kept, so the whole string is encoded.
      have hwhole : s.length % 2 ^ 32 = s.length := Nat.mod_eq_of_lt (by omega)
      have hfits := hreturns.fits
      rw [hwhole] at hfits ⊢
      rw [List.take_length]
      exact urlDecode_encoded h hfits
    · exact absurd hreturns hno

/-- All of it is kept exactly if `strdup` succeeds, three times the cut length fits an `int`, and
`UrlEncode` does not return `true` on a string whose length is cut. -/
theorem decodesBack_iff (h : 0 ∉ s) (malloc strdup : Bool) : DecodesBack malloc strdup s ↔
    strdup = true ∧ 3 * (s.length % 2 ^ 32) < 2 ^ 31 ∧
      (s.length < 2 ^ 31 ∨ ¬Returns malloc s (s.length % 2 ^ 32)) := by
  constructor
  · intro hback
    obtain ⟨rfl, hlt⟩ := (urlDecode_total_iff h strdup).mp hback.total
    obtain ⟨r, hr⟩ := hback.defined
    refine ⟨rfl, ?_, (inverse_iff h malloc).mp hback.inverse⟩
    by_contra hlarge
    rw [urlEncode_overflow hlt (not_lt.mp hlarge)] at hr
    cases hr
  · rintro ⟨rfl, hfits, hcut⟩
    have hlt : s.length % 2 ^ 32 < 2 ^ 31 := by omega
    exact ⟨urlEncode_defined hfits malloc, (inverse_iff h malloc).mpr hcut,
      (urlDecode_total_iff h true).mpr ⟨rfl, hlt⟩⟩

/-- `a b`. -/
theorem decodesBack_blank : DecodesBack true true [97, 32, 98] :=
  (decodesBack_iff (by decide) true true).mpr ⟨rfl, by decide, Or.inl (by decide)⟩

/-- Of `2 ^ 32 + 1` times the letter `a` only the first is encoded. -/
theorem not_decodesBack_long : ¬∀ s : Str, 0 ∉ s → DecodesBack true true s := by
  intro hall
  -- With 2 ^ 32 + 1 letters the `int` length of the text is one, so one letter is encoded.
  obtain ⟨n, hn⟩ : ∃ n : Nat, n = 2 ^ 32 + 1 := ⟨_, rfl⟩
  have hback := hall (List.replicate n 97) fun hmem =>
    absurd (List.eq_of_mem_replicate hmem) (by decide)
  have hmod : (List.replicate n (97 : UInt8)).length % 2 ^ 32 = 1 := by
    rw [List.length_replicate]
    omega
  have htake : (List.replicate n (97 : UInt8)).take 1 = [97] := by
    rw [hn, List.replicate_succ]
    rfl
  have hreturns : Returns true (List.replicate n 97) 1 :=
    ⟨rfl, by decide, by decide, 97, by rw [htake]; exact List.mem_singleton_self _, by decide⟩
  have hencode : urlEncode true (List.replicate n 97) = .ok (some (encoded [97])) := by
    rw [urlEncode_eq_some_iff, hmod, htake]
    exact ⟨hreturns, rfl⟩
  have hdecode := hback.inverse _ hencode
  rw [urlDecode_encoded (by decide) (by decide), Except.ok.injEq] at hdecode
  have hlength := congrArg List.length hdecode
  rw [List.length_replicate, List.length_singleton] at hlength
  omega

end

end Mylib.Proofs.Base.Url
