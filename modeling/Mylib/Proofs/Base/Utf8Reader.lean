import Mylib.Proofs.Base.Unicode
import Mylib.Spec.Base.Utf8Reader

/-!
# `Mylib.Proofs.Base.Utf8Reader`: what one pass of the decoder consumes

The decoder over an index does what the decoder over the bytes left does, as long as no sum
overflows (`cbu8Next_eq`). From that, for one pass from the index `i`:

* `consumes_trail`: behind its first byte it takes trail bytes only. So every byte that is no
  trail byte is the first of a pass, wherever the passes before it stopped.
* `cbu8Next_char`: where a well-formed character starts, it takes that character.
* `char_of_cbu8Next`: a code point it returns is that of a well-formed character.
-/

set_option autoImplicit false

namespace Mylib.Proofs.Base.Utf8

open Mylib.Spec.Base
open StringConversions hiding converUnicode utf8ToWide
open Utf8Reader

/-! ### The bytes left -/

/-- The bytes of the first `len` from the index `i` on. -/
def rest (s : Str) (len i : Nat) : Str := (s.take len).drop i

section

variable {s : Str} {len i : Nat}

/-- The bytes from an index on, up to the length. -/
theorem length_rest (hlen : len ≤ s.length) : (rest s len i).length = len - i := by
  rw [rest, List.length_drop, List.length_take_of_le hlen]

/-- They are those of the text. -/
theorem getElem?_rest {k : Nat} (hk : i + k < len) :
    (rest s len i)[k]? = s[i + k]? := by
  rw [rest, List.getElem?_drop, List.getElem?_take, if_pos hk]

/-- As long as the index is below the length there is a byte. -/
theorem rest_cons (hlen : len ≤ s.length) (hi : i < len) :
    ∃ b, byteAt s i = .ok b ∧ s[i]? = some b ∧ rest s len i = b :: rest s len (i + 1) := by
  have htake : i < (s.take len).length := by
    rw [List.length_take_of_le hlen]
    exact hi
  have hget : s[i]? = some (s.take len)[i] := by
    rw [List.getElem_take, List.getElem?_eq_getElem]
  refine ⟨(s.take len)[i], ?_, hget, List.drop_eq_getElem_cons htake⟩
  rw [byteAt, hget]

/-- Behind the length there is none. -/
theorem rest_eq_nil (h : len ≤ i) : rest s len i = [] :=
  List.drop_eq_nil_of_le ((List.length_take_le len s).trans h)

/-- Dropping bytes moves the index. -/
theorem drop_rest (k : Nat) : (rest s len i).drop k = rest s len (i + k) :=
  List.drop_drop

/-! ### The decoder over an index -/

/-- The loop passes the continuation bytes, at most as many as it is told. -/
theorem skipTrail_eq (hlen : len ≤ s.length) (count : Nat) (hcount : i + count ≤ len) :
    skipTrail s count i
      = .ok (i + (((rest s len i).take count).takeWhile isTrail8).length) := by
  induction count generalizing i with
  | zero => simp [skipTrail]
  | succ count ih =>
    obtain ⟨b, hb, -, hrest⟩ := rest_cons (i := i) hlen (by omega)
    rw [skipTrail, hb, hrest, List.take_succ_cons]
    show (if isTrail8 b = true then skipTrail s count (i + 1) else .ok i) = _
    split_ifs with htrail
    · rw [ih (by omega), List.takeWhile_cons, if_pos htrail, List.length_cons]
      congr 1
      omega
    · rw [List.takeWhile_cons, if_neg htrail]
      rfl

/-- One continuation byte. -/
theorem trailBytes_one {t : UInt8} (ht : byteAt s i = .ok t) (c : Nat) (illegal : Bool) :
    trailBytes s 1 i c illegal
      = .ok (c * 64 + t.toNat % 64, i + 1, illegal || !isTrail8 t) := by
  rw [trailBytes, ht]
  rfl

/-- Two continuation bytes. -/
theorem trailBytes_two {t u : UInt8} (ht : byteAt s i = .ok t) (hu : byteAt s (i + 1) = .ok u)
    (c : Nat) (illegal : Bool) : trailBytes s 2 i c illegal
      = .ok ((c * 64 + t.toNat % 64) * 64 + u.toNat % 64, i + 2,
          (illegal || !isTrail8 t) || !isTrail8 u) := by
  rw [trailBytes, ht]
  exact trailBytes_one hu _ _

/-- Three continuation bytes, with the check for values above 0x10FFFF between them. -/
theorem trailBytes_three {t u v : UInt8} (ht : byteAt s i = .ok t) (hu : byteAt s (i + 1) = .ok u)
    (hv : byteAt s (i + 2) = .ok v) (c : Nat) : trailBytes s 3 i c false
      = if c * 64 + t.toNat % 64 < 0x110 then
          .ok (((c * 64 + t.toNat % 64) * 64 + u.toNat % 64) * 64 + v.toNat % 64, i + 3,
            (!isTrail8 t || !isTrail8 u) || !isTrail8 v)
        else .ok (c * 64 + t.toNat % 64, i + 1, true) := by
  rw [trailBytes, ht]
  show (if c * 64 + t.toNat % 64 < 0x110 then
    trailBytes s 2 (i + 1) (c * 64 + t.toNat % 64) (false || !isTrail8 t) else _) = _
  rw [trailBytes_two hu hv, Bool.false_or]
  rfl

/-- The `switch` puts the code point together, or sets `illegal`. -/
theorem trailBytes_eq (hlen : len ≤ s.length) {count : Nat} (hcount : i + count ≤ len) (c : Nat) :
    ∃ r, trailBytes s count i c false = .ok r ∧
      StringConversions.sequence c count (rest s len i) = (if r.2.2 then none else some r.1) ∧
      (r.2.2 = false → r.2.1 = i + count) := by
  -- The `switch` on the number of continuation bytes: it reads one, two or three.
  by_cases hone : count = 1
  · subst hone
    obtain ⟨t, ht, -, hrest⟩ := rest_cons (i := i) hlen (by omega)
    refine ⟨_, trailBytes_one ht c false, ?_, fun _ => rfl⟩
    rw [hrest]
    cases htrail : isTrail8 t <;> simp [StringConversions.sequence, htrail]
  by_cases htwo : count = 2
  · subst htwo
    obtain ⟨t, ht, -, hrest⟩ := rest_cons (i := i) hlen (by omega)
    obtain ⟨u, hu, -, hrest'⟩ := rest_cons (i := i + 1) hlen (by omega)
    refine ⟨_, trailBytes_two ht hu c false, ?_, fun _ => rfl⟩
    rw [hrest, hrest']
    cases htrail : isTrail8 t <;> cases hutrail : isTrail8 u <;>
      simp [StringConversions.sequence, htrail, hutrail]
  by_cases hthree : count = 3
  · subst hthree
    obtain ⟨t, ht, -, hrest⟩ := rest_cons (i := i) hlen (by omega)
    obtain ⟨u, hu, -, hrest'⟩ := rest_cons (i := i + 1) hlen (by omega)
    obtain ⟨v, hv, -, hrest''⟩ := rest_cons (i := i + 2) hlen (by omega)
    rw [hrest, hrest', hrest'', trailBytes_three ht hu hv c]
    split_ifs with hplane
    · refine ⟨_, rfl, ?_, fun _ => rfl⟩
      cases htrail : isTrail8 t <;> cases hutrail : isTrail8 u <;> cases hvtrail : isTrail8 v <;>
        simp [StringConversions.sequence, hplane, htrail, hutrail, hvtrail]
    · -- A code point above the last plane: the `switch` stops at the first trail byte.
      exact ⟨_, rfl, by simp [StringConversions.sequence, hplane], by simp⟩
  -- Any other number is illegal to both.
  · refine ⟨(c, i, true), ?_, ?_, by simp⟩
    · unfold trailBytes
      split <;> first | rfl | omega
    · unfold StringConversions.sequence
      split <;> first | rfl | omega

/-- Where the sum of index and length overflows, the call does. -/
theorem utf8NextCharSafeBody_overflow {b : UInt8} (h : 2 ^ 31 ≤ i + countTrailBytes b) :
    utf8NextCharSafeBody s i len b = .error .overflow := by
  unfold utf8NextCharSafeBody add32
  dsimp only
  rw [if_neg (by omega)]
  rfl

/-- Elsewhere the index-level function computes what the function over lists does. -/
theorem utf8NextCharSafeBody_eq (hlen : len ≤ s.length) (hi : i ≤ len) {b : UInt8}
    (hfits : i + countTrailBytes b < 2 ^ 31) : utf8NextCharSafeBody s i len b
      = .ok ((nextCharSafeBody b (rest s len i)).1, i + (nextCharSafeBody b (rest s len i)).2) := by
  unfold utf8NextCharSafeBody add32 nextCharSafeBody
  dsimp only
  rw [if_pos hfits, length_rest hlen]
  simp only [bind, Except.bind, pure, Except.pure]
  by_cases hstop : i + countTrailBytes b ≤ len
  · obtain ⟨⟨c, j, illegal⟩, hr, hseq, hindex⟩ :=
      trailBytes_eq hlen hstop (b.toNat % 2 ^ (6 - countTrailBytes b))
    rw [if_pos hstop, if_pos (by omega), hr, hseq, skipTrail_eq hlen _ hstop]
    cases illegal with
    | true => rfl
    | false =>
      -- The `switch` has left the index behind the sequence.
      obtain rfl : j = i + countTrailBytes b := hindex rfl
      cases hlegal : decide (c < minLegal (countTrailBytes b)) || isSurrogate c <;>
        simp only [Bool.false_or, hlegal, Bool.false_eq_true, if_true, if_false]
  · -- The text ends inside the sequence: what is left of it is skipped.
    have hskip := skipTrail_eq (i := i) hlen (len - i) (by omega)
    rw [List.take_of_length_le (length_rest hlen).le] at hskip
    rw [if_neg hstop, if_neg (by omega), hskip]

/-- The lead byte at `p` announces more trail bytes than an `int32` index can count. -/
def Overflows (s : Str) (p : Nat) : Prop :=
  ∃ b, s[p]? = some b ∧ isLead8 b = true ∧ 2 ^ 31 ≤ p + 1 + countTrailBytes b

/-- Six bytes before 2 ^ 31 and earlier nothing can overflow. -/
theorem not_overflows {p : Nat} (h : p + 6 < 2 ^ 31) : ¬Overflows s p := by
  rintro ⟨b, -, -, hlarge⟩
  have hcount : countTrailBytes b ≤ 5 := by
    unfold countTrailBytes
    dsimp only
    split_ifs <;> omega
  omega

/-- One pass over an index, or the overflow. -/
theorem cbu8Next_eq (hlen : len ≤ s.length) (hi : i < len) {b : UInt8} (hb : s[i]? = some b) :
    cbu8Next s i len
      = if isLead8 b = true ∧ 2 ^ 31 ≤ i + 1 + countTrailBytes b then .error .overflow
        else .ok ((next8 b (rest s len (i + 1))).1, i + 1 + (next8 b (rest s len (i + 1))).2) := by
  have hbyte : byteAt s i = .ok b := by rw [byteAt, hb]
  unfold cbu8Next next8
  rw [hbyte]
  simp only [bind, Except.bind, pure, Except.pure]
  by_cases hlead : isLead8 b = true
  · have hhigh : 0x80 ≤ b.toNat := by
      simp only [isLead8, Bool.and_eq_true, decide_eq_true_eq] at hlead
      omega
    rw [if_pos hhigh, if_pos hlead, if_pos hhigh, if_pos hlead]
    by_cases hover : 2 ^ 31 ≤ i + 1 + countTrailBytes b
    · rw [if_pos ⟨hlead, hover⟩, utf8NextCharSafeBody_overflow hover]
    · rw [if_neg fun h => hover h.2, utf8NextCharSafeBody_eq hlen hi (not_le.mp hover)]
  · have hno : ¬(isLead8 b = true ∧ 2 ^ 31 ≤ i + 1 + countTrailBytes b) := fun h => hlead h.1
    by_cases hhigh : 0x80 ≤ b.toNat
    · simp only [if_pos hhigh, if_neg hlead, if_neg hno, Nat.add_zero]
    · simp only [if_neg hhigh, if_neg hno, Nat.add_zero]

end

/-! ### What one pass consumes -/

/-- Every branch of the `switch` that succeeds has seen trail bytes only. -/
theorem trail_of_sequence {c count v : Nat} {bs : Str}
    (h : StringConversions.sequence c count bs = some v) :
    ∀ t ∈ bs.take count, isTrail8 t = true := by
  unfold StringConversions.sequence at h
  split at h
  · dsimp only at h
    split_ifs at h with htrail
    simp only [Bool.and_eq_true] at htrail
    simp [htrail]
  · split_ifs at h with htrail
    simp only [Bool.and_eq_true] at htrail
    simp [htrail]
  · split_ifs at h with htrail
    simp [htrail]
  · cases h

/-- Behind the first byte only continuation bytes are passed. -/
theorem nextCharSafeBody_trail (b : UInt8) (bs : Str) :
    (nextCharSafeBody b bs).2 ≤ bs.length ∧
      ∀ t ∈ bs.take (nextCharSafeBody b bs).2, isTrail8 t = true := by
  -- What `skipTrail` goes over.
  have hprefix : ∀ {ts : Str}, ts <+: bs →
      (ts.takeWhile isTrail8).length ≤ bs.length ∧
        ∀ t ∈ bs.take (ts.takeWhile isTrail8).length, isTrail8 t = true := by
    intro ts hts
    have htake := (List.takeWhile_prefix isTrail8).trans hts
    refine ⟨htake.length_le, fun t ht => ?_⟩
    rw [← List.prefix_iff_eq_take.mp htake] at ht
    exact List.mem_takeWhile_imp ht
  unfold nextCharSafeBody
  dsimp only
  split_ifs with hcount
  · cases hseq : StringConversions.sequence (b.toNat % 2 ^ (6 - countTrailBytes b))
      (countTrailBytes b) bs with
    | none => exact hprefix (List.take_prefix _ _)
    | some c =>
      dsimp only
      split_ifs
      · exact hprefix (List.take_prefix _ _)
      · exact ⟨hcount, trail_of_sequence hseq⟩
  · exact hprefix List.prefix_rfl

/-- The same for the macro around it. -/
theorem next8_trail (b : UInt8) (bs : Str) :
    (next8 b bs).2 ≤ bs.length ∧ ∀ t ∈ bs.take (next8 b bs).2, isTrail8 t = true := by
  have hnone : (0 : Nat) ≤ bs.length ∧ ∀ t ∈ bs.take 0, isTrail8 t = true := by simp
  unfold next8
  split_ifs
  · exact nextCharSafeBody_trail b bs
  · exact hnone
  · exact hnone

/-! ### What is decoded is well-formed -/

/-- A byte is determined by its code. -/
theorem ofNat_of_toNat {b : UInt8} {n : Nat} (h : b.toNat = n) : UInt8.ofNat n = b :=
  h ▸ UInt8.ofNat_toNat

/-- The code of a continuation byte, from its six bits. -/
theorem trail_toNat {t : UInt8} (h : isTrail8 t = true) : t.toNat = t.toNat % 64 + 0x80 := by
  rw [isTrail8, beq_iff_eq] at h
  omega

/-- The four kinds of first bytes that have continuation bytes, or none. -/
theorem countTrailBytes_cases (b : UInt8) :
    (countTrailBytes b = 1 ∧ 0xC0 ≤ b.toNat ∧ b.toNat < 0xE0) ∨
    (countTrailBytes b = 2 ∧ 0xE0 ≤ b.toNat ∧ b.toNat < 0xF0) ∨
    (countTrailBytes b = 3 ∧ 0xF0 ≤ b.toNat ∧ b.toNat < 0xF8) ∨
    countTrailBytes b = 0 ∨ 4 ≤ countTrailBytes b := by
  unfold countTrailBytes
  dsimp only
  split_ifs <;> omega

/-- A sequence of two bytes is what its value is written as. -/
theorem write_two {b : UInt8} {bs : Str} {v : Nat} (hlo : 0xC0 ≤ b.toNat) (hhi : b.toNat < 0xE0)
    (hseq : StringConversions.sequence (b.toNat % 2 ^ (6 - 1)) 1 bs = some v) (hmin : 0x80 ≤ v) :
    writeUnicodeCharacter8 v = b :: bs.take 1 := by
  cases bs with
  | nil => cases hseq
  | cons t bs =>
    simp only [StringConversions.sequence] at hseq
    split_ifs at hseq with ht
    rw [Option.some.injEq] at hseq
    have htrail := trail_toNat ht
    rw [writeUnicodeCharacter8, if_neg (by omega), if_pos (by omega),
      ofNat_of_toNat (b := b) (by omega), ofNat_of_toNat (b := t) (by omega)]
    rfl

/-- A sequence of three bytes is what its value is written as. -/
theorem write_three {b : UInt8} {bs : Str} {v : Nat} (hlo : 0xE0 ≤ b.toNat) (hhi : b.toNat < 0xF0)
    (hseq : StringConversions.sequence (b.toNat % 2 ^ (6 - 2)) 2 bs = some v) (hmin : 0x800 ≤ v) :
    writeUnicodeCharacter8 v = b :: bs.take 2 := by
  rcases bs with _ | ⟨t, _ | ⟨u, bs⟩⟩
  · cases hseq
  · cases hseq
  · simp only [StringConversions.sequence, Bool.and_eq_true] at hseq
    split_ifs at hseq with htrails
    rw [Option.some.injEq] at hseq
    have ht := trail_toNat htrails.1
    have hu := trail_toNat htrails.2
    rw [writeUnicodeCharacter8, if_neg (by omega), if_neg (by omega), if_pos (by omega),
      ofNat_of_toNat (b := b) (by omega), ofNat_of_toNat (b := t) (by omega),
      ofNat_of_toNat (b := u) (by omega)]
    rfl

/-- A sequence of four bytes is what its value is written as. -/
theorem write_four {b : UInt8} {bs : Str} {v : Nat} (hlo : 0xF0 ≤ b.toNat) (hhi : b.toNat < 0xF8)
    (hseq : StringConversions.sequence (b.toNat % 2 ^ (6 - 3)) 3 bs = some v) (hmin : 0x10000 ≤ v) :
    writeUnicodeCharacter8 v = b :: bs.take 3 := by
  rcases bs with _ | ⟨t, _ | ⟨u, _ | ⟨w, bs⟩⟩⟩
  · cases hseq
  · cases hseq
  · cases hseq
  · simp only [StringConversions.sequence, Bool.and_eq_true] at hseq
    split_ifs at hseq with htrails
    rw [Option.some.injEq] at hseq
    have ht := trail_toNat htrails.1.1.2
    have hu := trail_toNat htrails.1.2
    have hw := trail_toNat htrails.2
    rw [writeUnicodeCharacter8, if_neg (by omega), if_neg (by omega), if_neg (by omega),
      ofNat_of_toNat (b := b) (by omega), ofNat_of_toNat (b := t) (by omega),
      ofNat_of_toNat (b := u) (by omega), ofNat_of_toNat (b := w) (by omega)]
    rfl

/-- What `utf8_nextCharSafeBody` puts together is what `CBU8_APPEND_UNSAFE` takes apart. -/
theorem write_of_nextCharSafeBody {b : UInt8} {bs : Str} {v : Nat}
    (h : (nextCharSafeBody b bs).1 = some v) :
    writeUnicodeCharacter8 v = b :: bs.take (nextCharSafeBody b bs).2 := by
  unfold nextCharSafeBody at h ⊢
  dsimp only at h ⊢
  split_ifs at h ⊢ with hcount
  cases hseq : StringConversions.sequence (b.toNat % 2 ^ (6 - countTrailBytes b))
    (countTrailBytes b) bs with
  | none =>
    rw [hseq] at h
    cases h
  | some c =>
    rw [hseq] at h
    dsimp only at h ⊢
    split_ifs at h ⊢ with hlegal
    rw [Option.some.injEq] at h
    subst h
    -- No code point has two encodings: a longer one than needed is not legal.
    have hmin : minLegal (countTrailBytes b) ≤ c := by
      simp only [Bool.or_eq_true, decide_eq_true_eq, not_or, not_lt] at hlegal
      exact hlegal.1
    dsimp only
    rcases countTrailBytes_cases b with ⟨hk, hlo, hhi⟩ | ⟨hk, hlo, hhi⟩ | ⟨hk, hlo, hhi⟩ | hk
    · rw [hk] at hseq hmin ⊢
      exact write_two hlo hhi hseq hmin
    · rw [hk] at hseq hmin ⊢
      exact write_three hlo hhi hseq hmin
    · rw [hk] at hseq hmin ⊢
      exact write_four hlo hhi hseq hmin
    · -- Four and five trail bytes are counted, but no `case` decodes them.
      unfold StringConversions.sequence at hseq
      split at hseq <;> first | omega | cases hseq

/-- What is decoded as a valid character is its own UTF-8. -/
theorem write_of_next8 {b : UInt8} {bs : Str} {v : Nat} (h : (next8 b bs).1 = some v) :
    writeUnicodeCharacter8 v = b :: bs.take (next8 b bs).2 := by
  unfold next8 at h ⊢
  split_ifs at h ⊢ with hhigh hlead
  · exact write_of_nextCharSafeBody h
  · cases h
    rw [writeUnicodeCharacter8, if_pos (by omega), UInt8.ofNat_toNat]
    rfl

/-- A valid code point that is decoded is that of a well-formed character. -/
theorem char_of_next8 {b : UInt8} {bs : Str} {v : Nat} (h : (next8 b bs).1 = some v)
    (hvalid : isValidCodepoint v = true) :
    ∃ c : Char, c.toNat = v ∧ String.utf8EncodeChar c = b :: bs.take (next8 b bs).2 := by
  have hchar : v.isValidChar := by
    simp only [isValidCodepoint, Bool.or_eq_true, Bool.and_eq_true, decide_eq_true_eq] at hvalid
    simp only [Nat.isValidChar]
    omega
  refine ⟨Char.ofNatAux v hchar, rfl, ?_⟩
  rw [← writeUnicodeCharacter8_char]
  exact write_of_next8 h

/-! ### One pass from an index -/

/-- The character `c` stands at `p`. -/
def CharAt (s : Str) (p : Nat) (c : Char) : Prop := String.utf8EncodeChar c <+: s.drop p

/-- The index behind `c` at `p`. -/
def behind (p : Nat) (c : Char) : Nat := p + (String.utf8EncodeChar c).length

/-- A character's first byte is no continuation byte. -/
theorem utf8EncodeChar_first (c : Char) :
    ∃ b bs, String.utf8EncodeChar c = b :: bs ∧ isTrail8 b = false := by
  have hvalid := char_valid c
  have hfirst : ∀ {n : Nat}, (n < 0x80 ∨ 0xC0 ≤ n) → n < 256 →
      isTrail8 (UInt8.ofNat n) = false := by
    intro n hn hbyte
    rw [isTrail8, UInt8.toNat_ofNat', Nat.mod_eq_of_lt hbyte, beq_eq_false_iff_ne]
    omega
  rcases utf8EncodeChar_cases c with ⟨h, henc⟩ | ⟨hlo, hhi, henc⟩ | ⟨hlo, hhi, henc⟩ | ⟨hlo, henc⟩
  · exact ⟨_, _, henc, hfirst (by omega) (by omega)⟩
  · exact ⟨_, _, henc, hfirst (by omega) (by omega)⟩
  · exact ⟨_, _, henc, hfirst (by omega) (by omega)⟩
  · exact ⟨_, _, henc, hfirst (by omega) (by omega)⟩

/-- A character of one byte is ASCII. -/
theorem utf8EncodeChar_singleton {c : Char} {b : UInt8} (h : String.utf8EncodeChar c = [b]) :
    b.toNat < 0x80 := by
  rcases utf8EncodeChar_cases c with ⟨hle, henc⟩ | ⟨-, -, henc⟩ | ⟨-, -, henc⟩ | ⟨-, henc⟩
  · rw [henc, List.cons.injEq] at h
    rw [← h.1, UInt8.toNat_ofNat']
    omega
  · rw [henc] at h
    cases h
  · rw [henc] at h
    cases h
  · rw [henc] at h
    cases h

section

variable {s : Str} {len i p : Nat} {c : Char} {r : Option Nat × Nat}

/-- A character takes at least one byte. -/
theorem lt_behind (p : Nat) (c : Char) : p < behind p c := by
  obtain ⟨b, bs, henc, -⟩ := utf8EncodeChar_first c
  rw [behind, henc, List.length_cons]
  omega

/-- A character starts with a byte that is no trail byte. -/
theorem CharAt.first (h : CharAt s p c) : ∃ b, s[p]? = some b ∧ isTrail8 b = false := by
  obtain ⟨b, bs, henc, hb⟩ := utf8EncodeChar_first c
  obtain ⟨post, hpost⟩ := h
  rw [henc, List.cons_append] at hpost
  have hhead : (s.drop p)[0]? = some b := by rw [← hpost]; rfl
  rw [List.getElem?_drop, Nat.add_zero] at hhead
  exact ⟨b, hhead, hb⟩

/-- It ends inside of the text. -/
theorem CharAt.behind_le (h : CharAt s p c) : behind p c ≤ s.length := by
  have hle := h.length_le
  have hlt := lt_behind p c
  rw [List.length_drop] at hle
  unfold behind at hlt ⊢
  omega

/-- The lead byte of a character announces the rest of it. -/
theorem CharAt.count (h : CharAt s p c) {b : UInt8} (hb : s[p]? = some b)
    (hlead : isLead8 b = true) : behind p c = p + 1 + countTrailBytes b := by
  obtain ⟨b', bs, henc, hcount, -⟩ := utf8EncodeChar_lead c
  obtain ⟨post, hpost⟩ := h
  have hhead : (s.drop p)[0]? = some b' := by rw [← hpost, henc]; rfl
  rw [List.getElem?_drop, Nat.add_zero, hb, Option.some.injEq] at hhead
  subst hhead
  -- A character of one byte has no lead byte.
  have hne : bs ≠ [] := by
    rintro rfl
    have hsmall := utf8EncodeChar_singleton henc
    simp only [isLead8, Bool.and_eq_true, decide_eq_true_eq] at hlead
    omega
  rw [behind, henc, List.length_cons, (hcount hne).2.2]
  omega

/-- Reading a character that ends before 2 ^ 31 does not overflow. -/
theorem CharAt.not_overflows (h : CharAt s p c) (hend : behind p c < 2 ^ 31) :
    ¬Overflows s p := by
  rintro ⟨b, hb, hlead, hlarge⟩
  have hcount := h.count hb hlead
  omega

/-- What a pass that succeeds has read, over lists. -/
theorem cbu8Next_ok (hlen : len ≤ s.length) (hi : i < len) (h : cbu8Next s i len = .ok r) :
    ∃ b, s[i]? = some b ∧ ¬ Overflows s i ∧ rest s len i = b :: rest s len (i + 1) ∧
      r = ((next8 b (rest s len (i + 1))).1, i + 1 + (next8 b (rest s len (i + 1))).2) := by
  obtain ⟨b, -, hb, hrest⟩ := rest_cons hlen hi
  rw [cbu8Next_eq hlen hi hb] at h
  split_ifs at h with hover
  refine ⟨b, hb, ?_, hrest, (Except.ok.inj h).symm⟩
  rintro ⟨b', hb', hlead, hlarge⟩
  rw [hb, Option.some.injEq] at hb'
  subst hb'
  exact hover ⟨hlead, hlarge⟩

/-- Without an overflow a pass succeeds. -/
theorem exists_cbu8Next (hlen : len ≤ s.length) (hi : i < len) (h : ¬ Overflows s i) :
    ∃ r, cbu8Next s i len = .ok r := by
  obtain ⟨b, -, hb, -⟩ := rest_cons hlen hi
  rw [cbu8Next_eq hlen hi hb, if_neg fun hover => h ⟨b, hb, hover⟩]
  exact ⟨_, rfl⟩

/-- With one it fails. -/
theorem cbu8Next_overflow (hlen : len ≤ s.length) (hi : i < len) (h : Overflows s i) :
    cbu8Next s i len = .error .overflow := by
  obtain ⟨b, hb, hover⟩ := h
  rw [cbu8Next_eq hlen hi hb, if_pos hover]

/-- Behind its first byte, a pass takes trail bytes only. -/
theorem consumes_trail (hlen : len ≤ s.length) (hi : i < len) (h : cbu8Next s i len = .ok r) :
    i < r.2 ∧ r.2 ≤ len ∧ ∀ j, i < j → j < r.2 → ∃ t, s[j]? = some t ∧ isTrail8 t = true := by
  obtain ⟨b, -, -, -, rfl⟩ := cbu8Next_ok hlen hi h
  obtain ⟨hle, htrail⟩ := next8_trail b (rest s len (i + 1))
  rw [length_rest hlen] at hle
  refine ⟨by dsimp only; omega, by dsimp only; omega, fun j hj hjr => ?_⟩
  dsimp only at hjr
  have hlt : j < s.length := by omega
  refine ⟨s[j], List.getElem?_eq_getElem hlt, htrail _ (List.mem_of_getElem? (i := j - (i + 1)) ?_)⟩
  rw [List.getElem?_take, if_pos (by omega), getElem?_rest (by omega),
    ← List.getElem?_eq_getElem hlt]
  congr 1
  omega

/-- At a character the rest begins with its bytes. -/
theorem rest_char (hc : CharAt s i c) (hend : behind i c ≤ len) :
    rest s len i = String.utf8EncodeChar c ++ rest s len (behind i c) := by
  obtain ⟨post, hpost⟩ := hc
  have hle : (String.utf8EncodeChar c).length ≤ len - i := by
    unfold behind at hend
    omega
  rw [behind, ← drop_rest]
  simp only [rest, List.drop_take, ← hpost]
  rw [List.take_append, List.take_of_length_le hle, List.drop_left]

/-- Where a character starts, a pass takes it. -/
theorem cbu8Next_char (hlen : len ≤ s.length) (hi : i < len) (hc : CharAt s i c)
    (hend : behind i c ≤ len) (h : cbu8Next s i len = .ok r) :
    r = (some c.toNat, behind i c) := by
  obtain ⟨b, -, -, hrest, rfl⟩ := cbu8Next_ok hlen hi h
  obtain ⟨b', bs, henc, hread⟩ := readUnicodeCharacter8_char c (rest s len (behind i c))
  rw [rest_char hc hend, henc, List.cons_append, List.cons.injEq] at hrest
  obtain ⟨rfl, hbs⟩ := hrest
  rw [hbs] at hread
  have hfirst : (next8 b' (rest s len (i + 1))).1 = some c.toNat :=
    (Option.filter_eq_some_iff.mp (congrArg Prod.fst hread)).1
  have hsecond : (next8 b' (rest s len (i + 1))).2 = bs.length := congrArg Prod.snd hread
  rw [hfirst, hsecond, behind, henc, List.length_cons, Nat.add_right_comm, Nat.add_assoc]

/-- A valid code point is that of the character that starts there. -/
theorem char_of_cbu8Next (hlen : len ≤ s.length) (hi : i < len) (h : cbu8Next s i len = .ok r)
    {v : Nat} (hv : r.1 = some v) (hvalid : isValidCodepoint v = true) :
    ∃ c : Char, c.toNat = v ∧ CharAt s i c ∧ r.2 = behind i c := by
  obtain ⟨b, -, -, hrest, rfl⟩ := cbu8Next_ok hlen hi h
  obtain ⟨c, hc, henc⟩ := char_of_next8 hv hvalid
  have hle := (next8_trail b (rest s len (i + 1))).1
  refine ⟨c, hc, ?_, ?_⟩
  · -- The bytes of the pass lie in front of `len`, so they are bytes of the string.
    have hprefix : String.utf8EncodeChar c <+: rest s len i := by
      rw [henc, hrest]
      exact List.cons_prefix_cons.mpr ⟨rfl, List.take_prefix _ _⟩
    rw [rest, List.drop_take] at hprefix
    exact hprefix.trans (List.take_prefix _ _)
  · rw [behind, henc, List.length_cons, List.length_take_of_le hle]
    dsimp only
    omega

/-- No pass goes over a byte that is no trail byte. -/
theorem stop_le (hlen : len ≤ s.length) (hi : i < len) (h : cbu8Next s i len = .ok r) {b : UInt8}
    (hb : s[p]? = some b) (hfirst : isTrail8 b = false) (hip : i < p) : r.2 ≤ p := by
  by_contra hlt
  obtain ⟨t, ht, htrail⟩ := (consumes_trail hlen hi h).2.2 p hip (not_le.mp hlt)
  rw [hb, Option.some.injEq] at ht
  rw [← ht, hfirst] at htrail
  cases htrail

/-- No pass gets into a character that begins behind its start. -/
theorem stop_le_of_charAt (hlen : len ≤ s.length) (hi : i < len) (h : cbu8Next s i len = .ok r)
    (hc : CharAt s p c) (hip : i < p) : r.2 ≤ p := by
  obtain ⟨b, hb, hfirst⟩ := hc.first
  exact stop_le hlen hi h hb hfirst hip

/-- A first byte is no continuation byte. -/
theorem not_trail_of_lead {b : UInt8} (h : isLead8 b = true) : isTrail8 b = false := by
  simp only [isLead8, Bool.and_eq_true, decide_eq_true_eq] at h
  rw [isTrail8, beq_eq_false_iff_ne]
  omega

/-- No pass gets beyond a place at which the sum overflows, for a first byte stands there. -/
theorem stop_le_of_overflows (hlen : len ≤ s.length) (hi : i < len)
    (h : cbu8Next s i len = .ok r) (hover : Overflows s p) (hip : i < p) : r.2 ≤ p := by
  obtain ⟨b, hb, hlead, -⟩ := hover
  exact stop_le hlen hi h hb (not_trail_of_lead hlead) hip

/-- What holds behind the last pass, and in front of a pass if it holds behind it. -/
theorem pass_induction (s : Str) (len : Nat) {P : Nat → Prop} (done : ∀ i, len ≤ i → P i)
    (pass : ∀ i < len, (∀ r, cbu8Next s i len = .ok r → P r.2) → P i) (i : Nat) : P i := by
  induction hleft : len - i using Nat.strong_induction_on generalizing i with
  | _ left ih =>
    by_cases hi : i < len
    · refine pass i hi fun r hr => ih (len - r.2) ?_ r.2 rfl
      have hlt := lt_of_cbu8Next hr
      omega
    · exact done i (not_lt.mp hi)

end

end Mylib.Proofs.Base.Utf8
