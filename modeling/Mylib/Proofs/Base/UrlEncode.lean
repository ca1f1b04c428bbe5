import Mylib.Spec.Base.UrlCoding

/-!
# `Mylib.Proofs.Base.UrlEncode`: when `UrlEncode` succeeds

The block has three bytes for each character and none for the terminator that `sprintf` writes.
So the last of the three bytes is taken only if something in front of it has been shorter. The
loop keeps the output so far in the first `j` cells (`encodeLoop_some`), and gives up exactly if
the encoding fills the block (`encodeLoop_none`), which it does if every character has to be
escaped.

* `urlEncode_eq`: the result on any length that fits, without a fault.
* `urlEncode_iff`: the promised result is returned exactly if there is memory and a character
  that is not escaped.
-/

set_option autoImplicit false

namespace Mylib.Proofs.Base.Url

open Mylib.Lib.Memory
open Mylib.Spec.Base UrlCoding
open Mylib.Lib.CString (bind_eq_ok_iff)

/-! ### The encoding -/

/-- The character is neither copied nor written as `+`. -/
def Escapes (ch : UInt8) : Prop := isAlnum ch = false ∧ ch ≠ 32 ∧ isMark ch = false

instance (ch : UInt8) : Decidable (Escapes ch) :=
  inferInstanceAs (Decidable (_ ∧ _ ∧ _))

/-- The character itself, `+` for a blank, or `%` and two digits. -/
def encodeByte (ch : UInt8) : Str :=
  if Escapes ch then escaped ch else if ch = 32 then [43] else [ch]

def encoded (s : Str) : Str := s.flatMap encodeByte

/-- A byte takes three characters if it is escaped and one otherwise. -/
theorem length_encodeByte (ch : UInt8) :
    (encodeByte ch).length = if Escapes ch then 3 else 1 := by
  unfold encodeByte
  split_ifs <;> rfl

/-- Bytes are encoded one by one. -/
theorem encoded_cons (ch : UInt8) (s : Str) : encoded (ch :: s) = encodeByte ch ++ encoded s :=
  rfl

/-- Encoded text is at most three times as long. -/
theorem length_encoded_le (s : Str) : (encoded s).length ≤ 3 * s.length := by
  induction s with
  | nil => exact le_rfl
  | cons ch s ih =>
    rw [encoded_cons, List.length_append, length_encodeByte, List.length_cons]
    split_ifs <;> omega

/-- The encoding takes three bytes for each character only if all are escaped. -/
theorem length_encoded_lt_iff (s : Str) :
    (encoded s).length < 3 * s.length ↔ ∃ ch ∈ s, ¬Escapes ch := by
  induction s with
  | nil => simp [encoded]
  | cons ch s ih =>
    have hle := length_encoded_le s
    rw [encoded_cons, List.length_append, length_encodeByte, List.length_cons,
      List.exists_mem_cons_iff, ← ih]
    split_ifs with hescape
    · simp only [hescape, not_true_eq_false, false_or]
      omega
    · simp only [hescape, not_false_eq_true, true_or, iff_true]
      omega

/-! ### The block -/

section

variable {m : Block UInt8} {out : Str} {j : Nat}

/-- A write inside of the buffer succeeds. -/
theorem store_eq {bytes : Str} (h : j + bytes.length ≤ m.length) :
    store m j bytes = .ok (splice m j (bytes.map some)) := by
  rw [store, copyIn_of_le (by rwa [List.length_map])]

/-- It does not change the size of the buffer. -/
theorem length_store {bytes : Str} (h : j + bytes.length ≤ m.length) :
    (splice m j (bytes.map some)).length = m.length :=
  length_splice (by rwa [List.length_map])

/-- The first `k` of the stored bytes go behind the output so far. -/
theorem slice_store {bytes : Str} {k : Nat} (h : j + bytes.length ≤ m.length)
    (hk : k ≤ bytes.length) (hout : slice m 0 j = out.map some) :
    slice (splice m j (bytes.map some)) 0 (j + k) = (out ++ bytes.take k).map some := by
  have hlen : j + (bytes.map some).length ≤ m.length := by rwa [List.length_map]
  have hself := slice_splice_self hlen
  rw [List.length_map] at hself
  rw [slice_add, slice_splice_of_le hlen (Nat.zero_add j).le, hout, Nat.zero_add,
    slice_take hk, hself, List.map_append, List.map_take]

/-- Cells that have been written can be read. -/
theorem mapM_some (s : Str) : (s.map some).mapM id = some s := by
  induction s with
  | nil => rfl
  | cons ch s ih => simp [ih]

/-- The result is what was written at the front of the buffer. -/
theorem assign_eq (h : j ≤ m.length) (hout : slice m 0 j = out.map some) :
    assign m j = .ok out := by
  rw [assign, copyOut_of_le (by omega), hout, Option.bind_some, mapM_some]

/-- One byte is stored behind the output, and the output is assigned. -/
theorem assign_stored (byte : UInt8) (h : out.length < m.length)
    (hout : slice m 0 out.length = out.map some) :
    (store m out.length [byte] >>= fun m => assign m out.length) = .ok out := by
  have hinside : out.length + [byte].length ≤ m.length := h
  have hread := slice_store hinside (Nat.zero_le _) hout
  rw [Nat.add_zero, List.take_zero, List.append_nil] at hread
  rw [store_eq hinside]
  exact assign_eq (by rw [length_store hinside]; exact h.le) hread

end

/-! ### The loop -/

section

variable {size j : Nat} {ch : UInt8} {str out : Str} {result : Block UInt8}

/-- A character that is copied or written as `+`. -/
theorem encodeLoop_one (hescape : ¬Escapes ch) (hj : j < size) (hsize : result.length = size) :
    encodeLoop size (ch :: str) j result
      = encodeLoop size str (j + 1) (splice result j ((encodeByte ch).map some)) := by
  have hstore : ∀ c : UInt8, store result j [c] = .ok (splice result j ([c].map some)) :=
    fun c => store_eq (by simpa [hsize] using hj)
  have hspace : isAlnum 32 = false := by decide
  rw [encodeLoop, if_pos hj, encodeByte, if_neg hescape, hstore, hstore]
  by_cases hblank : ch = 32
  · subst hblank
    rw [hspace]
    rfl
  · rw [if_neg hblank, if_neg hblank]
    cases halnum : isAlnum ch with
    | true => rfl
    | false =>
      have hmark : isMark ch = true := by
        by_contra hmark
        exact hescape ⟨halnum, hblank, Bool.eq_false_iff.mpr hmark⟩
      rw [hmark]
      rfl

/-- A character that is escaped, with room for the terminator. -/
theorem encodeLoop_three (hescape : Escapes ch) (hj : j + 3 < size)
    (hsize : result.length = size) : encodeLoop size (ch :: str) j result
      = encodeLoop size str (j + 3) (splice result j ((encodeByte ch ++ [0]).map some)) := by
  have hstore : store result j (escaped ch ++ [0])
      = .ok (splice result j ((escaped ch ++ [0]).map some)) :=
    store_eq (by rw [hsize]; exact hj)
  obtain ⟨halnum, hblank, hmark⟩ := id hescape
  rw [encodeLoop, if_pos (by omega), halnum, hmark, if_neg hblank, encodeByte, if_pos hescape,
    hstore, if_pos hj]
  rfl

/-- An escape with no room for its three characters and one more ends the loop with nothing. -/
theorem encodeLoop_full (hescape : Escapes ch) (hj : j < size) (hfull : size ≤ j + 3) :
    encodeLoop size (ch :: str) j result = .ok none := by
  obtain ⟨halnum, hblank, hmark⟩ := hescape
  rw [encodeLoop, if_pos hj, halnum, hmark, if_neg hblank, if_neg (not_lt.mpr hfull)]
  rfl

/-- The first `j` cells hold the output so far, and three are left for each character. -/
structure Room (size : Nat) (str : Str) (j : Nat) (result : Block UInt8) (out : Str) : Prop where
  length : result.length = size
  room : j + 3 * str.length ≤ size
  written : slice result 0 j = out.map some

/-- One round leaves room for what is left. -/
theorem Room.next (h : Room size (ch :: str) j result out) {bytes : Str}
    (hbytes : encodeByte ch <+: bytes) (hfits : j + bytes.length ≤ size) :
    Room size str (j + (encodeByte ch).length) (splice result j (bytes.map some))
      (out ++ encodeByte ch) := by
  have hlen : j + bytes.length ≤ result.length := by rwa [h.length]
  have hle : (encodeByte ch).length ≤ 3 := by
    rw [length_encodeByte]
    split_ifs <;> omega
  have hroom := h.room
  rw [List.length_cons] at hroom
  refine ⟨(length_store hlen).trans h.length, by omega, ?_⟩
  rw [slice_store hlen hbytes.length_le h.written, ← List.prefix_iff_eq_take.mp hbytes]

/-- Where the encoding does not fill the block, all of it is written. -/
theorem encodeLoop_some (h : Room size str j result out) (hfits : j + (encoded str).length < size) :
    ∃ result', encodeLoop size str j result = .ok (some (result', j + (encoded str).length)) ∧
      result'.length = size ∧
      slice result' 0 (j + (encoded str).length) = (out ++ encoded str).map some := by
  induction str generalizing j result out with
  | nil =>
    refine ⟨result, rfl, h.length, ?_⟩
    rw [encoded, List.flatMap_nil, List.append_nil]
    exact h.written
  | cons ch str ih =>
    rw [encoded_cons, List.length_append, ← Nat.add_assoc] at hfits ⊢
    rw [← List.append_assoc]
    by_cases hescape : Escapes ch
    · have hthree : (encodeByte ch).length = 3 := by rw [length_encodeByte, if_pos hescape]
      rw [encodeLoop_three hescape (by omega) h.length, ← hthree]
      exact ih (h.next (List.prefix_append _ _) (by simp; omega)) hfits
    · have hone : (encodeByte ch).length = 1 := by rw [length_encodeByte, if_neg hescape]
      rw [encodeLoop_one hescape (by omega) h.length, ← hone]
      exact ih (h.next List.prefix_rfl (by omega)) hfits

/-- Where the encoding fills the block, the last character is refused. -/
theorem encodeLoop_none (h : Room size str j result out) (hj : j < size)
    (hfull : j + (encoded str).length = size) : encodeLoop size str j result = .ok none := by
  induction str generalizing j result out with
  | nil => exact absurd hfull hj.ne
  | cons ch str ih =>
    have hroom := h.room
    have hle := length_encoded_le str
    rw [encoded_cons, List.length_append] at hfull
    rw [List.length_cons] at hroom
    by_cases hescape : Escapes ch
    · have hthree : (encodeByte ch).length = 3 := by rw [length_encodeByte, if_pos hescape]
      -- All characters are escaped, so the last one ends at the end of the block.
      by_cases hlast : j + 3 < size
      · rw [encodeLoop_three hescape hlast h.length]
        exact ih (hthree ▸ h.next (List.prefix_append _ _) (by simp; omega)) hlast (by omega)
      · exact encodeLoop_full hescape hj (not_lt.mp hlast)
    · have hone : (encodeByte ch).length = 1 := by rw [length_encodeByte, if_neg hescape]
      omega

end

/-! ### `UrlEncode` -/

/-- What the cast leaves of a length. -/
theorem int32_cases (n : Nat) : (n % 2 ^ 32 < 2 ^ 31 ∧ int32 n = (n % 2 ^ 32 : Nat)) ∨
    (2 ^ 31 ≤ n % 2 ^ 32 ∧ int32 n < 0) := by
  unfold int32
  rw [Int.bmod_def]
  split_ifs <;> omega

/-- A length below 2 ^ 31 survives the cast. -/
theorem int32_of_lt {n : Nat} (h : n < 2 ^ 31) : int32 n = n := by
  rcases int32_cases n with ⟨-, heq⟩ | ⟨hge, -⟩
  · rw [heq, Nat.mod_eq_of_lt (by omega)]
  · omega

/-- A sum in the range of an `int` does not overflow. -/
theorem checked_of_fits {x : Int} (hlo : 0 ≤ x) (hhi : x < 2 ^ 31) : checked x = .ok x := by
  rw [checked, if_pos ⟨by omega, hhi⟩]

section

variable {content : Str} {m : Nat}

/-- `UrlEncode` on a length that is cut to `m`. -/
theorem urlEncode_eq (hm : int32 content.length = m) (hle : m ≤ content.length) (hpos : 0 < m)
    (hfits : 3 * m < 2 ^ 31) (malloc : Bool) : urlEncode malloc content
      = .ok (if malloc = true ∧ ∃ ch ∈ content.take m, ¬Escapes ch then
          some (encoded (content.take m)) else none) := by
  have hproduct : (m : Int) * 3 = ((3 * m : Nat) : Int) := by
    push_cast
    ring
  -- The product for the size of the buffer does not overflow.
  have hchecked : checked ((m : Int) * 3) = .ok ((3 * m : Nat) : Int) := by
    rw [hproduct]
    exact checked_of_fits (by omega) (by omega)
  have hpositive : ¬(m : Int) ≤ 0 ∧ ¬((3 * m : Nat) : Int) ≤ 0 := ⟨by omega, by omega⟩
  have hlen : (content.take m).length = m := List.length_take_of_le hle
  have hroom : Room (3 * m) (content.take m) 0 (alloc (3 * m)) [] :=
    ⟨length_alloc _, by omega, slice_zero _ _⟩
  have hfull := length_encoded_le (content.take m)
  rw [hlen] at hfull
  unfold urlEncode
  dsimp only
  rw [hm, hchecked]
  simp only [bind, Except.bind, pure, Except.pure, decide_eq_false hpositive.1,
    decide_eq_false hpositive.2, Bool.or_false, Int.toNat_natCast, ← length_encoded_lt_iff, hlen]
  cases malloc with
  | false => simp
  | true =>
    simp only [Bool.not_true, Bool.false_eq_true, if_false, true_and]
    -- There is a letter that needs no escape, so the buffer has room for the zero as well.
    by_cases hlt : (encoded (content.take m)).length < 3 * m
    · obtain ⟨result, hloop, hsize, hwritten⟩ := encodeLoop_some hroom (by rwa [Nat.zero_add])
      rw [Nat.zero_add] at hloop hwritten
      obtain ⟨result', hstore, hassign⟩ :=
        bind_eq_ok_iff.mp (assign_stored 48 (by rwa [hsize]) hwritten)
      rw [hloop, if_pos hlt]
      dsimp only
      rw [hstore]
      dsimp only
      rw [hassign]
    -- Every byte is escaped, and the last escape finds no room.
    · rw [encodeLoop_none hroom (by omega) (by omega), if_neg hlt]

/-- A length that is not positive as an `int` gives no text. -/
theorem urlEncode_nonpos (h : int32 content.length ≤ 0) (malloc : Bool) (out : Str) :
    urlEncode malloc content ≠ .ok (some out) := by
  unfold urlEncode
  dsimp only
  generalize int32 content.length = strSize at h ⊢
  cases checked (strSize * 3) with
  | error e => exact fun h => by cases h
  | ok resultSize =>
    simp only [decide_eq_true h, Bool.or_true, Bool.true_or, if_true]
    show (Except.ok none : Except Fault (Option Str)) ≠ _
    simp

/-- The size of the block does not fit an `int`. -/
theorem urlEncode_overflow (hlt : content.length % 2 ^ 32 < 2 ^ 31)
    (hlarge : 2 ^ 31 ≤ 3 * (content.length % 2 ^ 32)) (malloc : Bool) :
    urlEncode malloc content = .error .overflow := by
  have hcast : int32 content.length = (content.length % 2 ^ 32 : Nat) := by
    rcases int32_cases content.length with ⟨-, heq⟩ | ⟨hge, -⟩
    · exact heq
    · omega
  have hchecked : checked (int32 content.length * 3) = .error .overflow := by
    rw [checked, if_neg]
    omega
  unfold urlEncode
  dsimp only
  rw [hchecked]
  rfl

/-- Where the size of the block fits, `UrlEncode` returns. -/
theorem urlEncode_defined (hfits : 3 * (content.length % 2 ^ 32) < 2 ^ 31) (malloc : Bool) :
    ∃ r, urlEncode malloc content = .ok r := by
  have hmod := Nat.mod_le content.length (2 ^ 32)
  have hcast : int32 content.length = (content.length % 2 ^ 32 : Nat) := by
    rcases int32_cases content.length with ⟨-, heq⟩ | ⟨hge, -⟩
    · exact heq
    · omega
  rcases Nat.eq_zero_or_pos (content.length % 2 ^ 32) with hzero | hpos
  · -- No character is left, and `str_size <= 0` is refused.
    refine ⟨none, ?_⟩
    unfold urlEncode
    dsimp only
    rw [hcast, hzero]
    cases malloc <;> rfl
  · exact ⟨_, urlEncode_eq hcast hmod hpos hfits malloc⟩

/-- What it says of a string that `UrlEncode` returns `true` on it. -/
structure Returns (malloc : Bool) (content : Str) (m : Nat) : Prop where
  memory : malloc = true
  pos : 0 < m
  fits : 3 * m < 2 ^ 31
  plain : ∃ ch ∈ content.take m, ¬Escapes ch

/-- When the call returns a text, and which. -/
theorem urlEncode_eq_some_iff {malloc : Bool} {out : Str} :
    urlEncode malloc content = .ok (some out) ↔
      Returns malloc content (content.length % 2 ^ 32) ∧
        out = encoded (content.take (content.length % 2 ^ 32)) := by
  have hmod := Nat.mod_le content.length (2 ^ 32)
  -- Whether a text is returned is the condition, and which is its value.
  have hiff : ∀ {P : Prop} [Decidable P] {x : Str},
      (Except.ok (if P then some x else none) : Except Fault (Option Str)) = .ok (some out) ↔
        P ∧ out = x := by
    intro P _ x
    split_ifs with hP <;> simp [hP, eq_comm]
  rcases int32_cases content.length with ⟨hlt, heq⟩ | ⟨hge, hneg⟩
  · by_cases hpos : 0 < content.length % 2 ^ 32
    · by_cases hfits : 3 * (content.length % 2 ^ 32) < 2 ^ 31
      · rw [urlEncode_eq heq hmod hpos hfits, hiff]
        exact ⟨fun h => ⟨⟨h.1.1, hpos, hfits, h.1.2⟩, h.2⟩,
          fun h => ⟨⟨h.1.memory, h.1.plain⟩, h.2⟩⟩
      · refine iff_of_false ?_ fun h => hfits h.1.fits
        rw [urlEncode_overflow hlt (not_lt.mp hfits)]
        exact fun h => by cases h
    · exact iff_of_false (urlEncode_nonpos (by omega) malloc out) fun h => hpos h.1.pos
  · -- A negative length is refused.
    refine iff_of_false (urlEncode_nonpos hneg.le malloc out) fun h => ?_
    have hfits := h.1.fits
    omega

end

/-- The promised result is returned exactly if there is memory and not every character has to
be escaped. -/
theorem urlEncode_iff {s : Str} (hne : s ≠ []) (hshort : s.length < 2 ^ 29) (malloc : Bool) :
    urlEncode malloc s = .ok (some (encoded s)) ↔ malloc = true ∧ ∃ ch ∈ s, ¬Escapes ch := by
  have hpos := List.length_pos_of_ne_nil hne
  rw [urlEncode_eq (int32_of_lt (by omega)) le_rfl hpos (by omega), List.take_length]
  split_ifs with h
  · exact iff_of_true rfl h
  · exact iff_of_false (by simp) h

/-- `%a`. -/
theorem urlEncode_mixed : urlEncode true [37, 97] = .ok (some [37, 50, 53, 97]) :=
  (urlEncode_iff (by decide) (by decide) true).mpr ⟨rfl, 97, by decide, by decide⟩

/-- `%` alone is refused. -/
theorem not_urlEncode_percent : ¬∀ s : Str, s ≠ [] → s.length < 2 ^ 29 →
    urlEncode true s = .ok (some (encoded s)) := by
  intro h
  have hpercent := h [37] (by decide) (by decide)
  rw [urlEncode_eq (m := 1) (int32_of_lt (by decide)) le_rfl (by decide) (by decide), if_neg]
    at hpercent
  · cases hpercent
  · rintro ⟨-, ch, hch, hplain⟩
    obtain rfl : ch = 37 := by simpa using hch
    exact hplain (by decide)

end Mylib.Proofs.Base.Url
