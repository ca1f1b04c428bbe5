import Mylib.Spec.Algorithm.Tea

/-!
# `Mylib.Proofs.Algorithm.Hex`: the hex codec there and back

The encoder writes a group of two digits for each byte, with blanks between the groups
(`byteToHexString_eq`). The decoder splits at the blanks, so it meets the same groups as long
as none of them is empty or has a blank in it (`split_blankText`), and reads the byte of each
(`groupByte_group`). From there both round trips are about a single group.
-/

set_option autoImplicit false

namespace Mylib.Proofs.Algorithm.Hex

open Mylib.Spec.Algorithm
open Mylib.Spec.Algorithm.Hex

/-! ### Groups -/

/-- The two digits of a byte. -/
def group (t : UInt8) : Str := [intToHexChar (t.toNat / 16), intToHexChar (t.toNat % 16)]

/-- A digit in either case. -/
def isHexDigit (c : UInt8) : Bool :=
  (48 ≤ c.toNat && c.toNat ≤ 57) || (65 ≤ c.toNat && c.toNat ≤ 70) ||
    (97 ≤ c.toNat && c.toNat ≤ 102)

/-- Two digits. -/
def IsGroup (g : Str) : Prop := g.length = 2 ∧ ∀ c ∈ g, isHexDigit c

instance (g : Str) : Decidable (IsGroup g) := inferInstanceAs (Decidable (_ ∧ _))

/-- What the decoder needs of a group: it can find its ends. -/
def Solid (g : Str) : Prop := g ≠ [] ∧ 32 ∉ g

/-- The text of these groups. -/
def blankText (groups : List Str) : Str := [32].intercalate groups

/-- One group is written without a blank. -/
theorem blankText_singleton (g : Str) : blankText [g] = g := List.intercalate_singleton

/-- Between two groups stands one blank. -/
theorem blankText_cons (g next : Str) (groups : List Str) :
    blankText (g :: next :: groups) = g ++ 32 :: blankText (next :: groups) := by
  unfold blankText
  rw [List.intercalate_cons_cons, List.append_assoc]
  rfl

/-- A digit has a number below 16, which is written as the digit in upper case. -/
theorem hexCharToInt_digit {c : UInt8} (h : isHexDigit c) :
    hexCharToInt c < 16 ∧ intToHexChar (hexCharToInt c) = toUpper c ∧ c ≠ 32 := by
  have htable : ∀ n < 256, isHexDigit (UInt8.ofNat n) → hexCharToInt (UInt8.ofNat n) < 16 ∧
      intToHexChar (hexCharToInt (UInt8.ofNat n)) = toUpper (UInt8.ofNat n) ∧
      UInt8.ofNat n ≠ 32 := by decide +kernel
  have hc := htable c.toNat c.toNat_lt
  rw [UInt8.ofNat_toNat] at hc
  exact hc h

/-- The digits that the encoder writes. -/
theorem intToHexChar_digit {n : Nat} (h : n < 16) :
    hexCharToInt (intToHexChar n) = n ∧ isHexDigit (intToHexChar n) := by
  have htable : ∀ n < 16, hexCharToInt (intToHexChar n) = n ∧ isHexDigit (intToHexChar n) := by
    decide
  exact htable n h

/-- Two hexadecimal digits are what a byte is printed as. -/
theorem isGroup_group (t : UInt8) : IsGroup (group t) := by
  have ht := t.toNat_lt
  refine ⟨rfl, List.forall_mem_cons.mpr ⟨(intToHexChar_digit (by omega)).2, ?_⟩⟩
  exact List.forall_mem_singleton.mpr (intToHexChar_digit (by omega)).2

/-- No blank stands inside of a group, so splitting at blanks keeps it in one piece. -/
theorem IsGroup.solid {g : Str} (h : IsGroup g) : Solid g := by
  constructor
  · intro hnil
    rw [hnil] at h
    exact absurd h.1 (by decide)
  · intro hblank
    exact (hexCharToInt_digit (h.2 32 hblank)).2.2 rfl

/-- A printed byte is read back. -/
theorem groupByte_group (t : UInt8) : groupByte (group t) = some t := by
  have ht := t.toNat_lt
  show some (UInt8.ofNat (hexCharToInt (intToHexChar (t.toNat / 16)) * 16
    + hexCharToInt (intToHexChar (t.toNat % 16)))) = some t
  rw [(intToHexChar_digit (by omega)).1, (intToHexChar_digit (by omega)).1, Nat.div_add_mod',
    UInt8.ofNat_toNat]

/-- A group is read, and its byte is written in upper case. -/
theorem groupByte_isGroup {g : Str} (h : IsGroup g) :
    ∃ t, groupByte g = some t ∧ group t = g.map toUpper := by
  obtain ⟨a, b, rfl⟩ := List.length_eq_two.mp h.1
  obtain ⟨ha, haUpper, -⟩ := hexCharToInt_digit (h.2 a (by simp))
  obtain ⟨hb, hbUpper, -⟩ := hexCharToInt_digit (h.2 b (by simp))
  refine ⟨UInt8.ofNat (hexCharToInt a * 16 + hexCharToInt b), rfl, ?_⟩
  -- Both digits are below 16, so nothing is cut off.
  have hbyte : (UInt8.ofNat (hexCharToInt a * 16 + hexCharToInt b)).toNat
      = hexCharToInt a * 16 + hexCharToInt b := by
    rw [UInt8.toNat_ofNat']
    omega
  have hhigh : (hexCharToInt a * 16 + hexCharToInt b) / 16 = hexCharToInt a := by omega
  have hlow : (hexCharToInt a * 16 + hexCharToInt b) % 16 = hexCharToInt b := by omega
  rw [group, hbyte, hhigh, hlow, haUpper, hbUpper]
  rfl

/-! ### The encoder -/

/-- The separator stands behind every byte but the last. -/
theorem byteToHexLoop_eq {size i : Nat} {bytes : Str} (h : i + bytes.length = size) :
    byteToHexLoop size i bytes = blankText (bytes.map group) := by
  induction bytes generalizing i with
  | nil => rfl
  | cons t bytes ih =>
    rw [List.length_cons] at h
    rw [byteToHexLoop, ih (by omega)]
    cases bytes with
    | nil =>
      -- The last byte has no separator behind it.
      rw [if_neg (not_not.mpr (show i = size - 1 from by rw [← h]; rfl))]
      rfl
    | cons next bytes =>
      rw [List.length_cons] at h
      show _ = blankText (group t :: group next :: bytes.map group)
      rw [if_pos (by omega), blankText_cons]
      rfl

/-- The loop with its test for the last byte writes the groups with single blanks between them. -/
theorem byteToHexString_eq (bytes : Str) :
    byteToHexString bytes = blankText (bytes.map group) :=
  byteToHexLoop_eq (Nat.zero_add _)

/-! ### The decoder -/

/-- Characters before the next blank are collected. -/
theorem split_append {g : Str} (h : 32 ∉ g) (b str : Str) :
    split b (g ++ str) = split (b ++ g) str := by
  induction g generalizing b with
  | nil => rw [List.nil_append, List.append_nil]
  | cons c g ih =>
    have hc : c ≠ 32 := fun hc => h (hc ▸ List.mem_cons_self ..)
    rw [List.cons_append, split, if_neg hc, ih (fun hg => h (List.mem_cons_of_mem _ hg)),
      List.append_assoc]
    rfl

/-- The decoder finds the groups again; the last one has no blank behind it. -/
theorem split_blankText {groups : List Str} (h : ∀ g ∈ groups, Solid g) :
    split [] (blankText groups) = groups := by
  induction groups with
  | nil => rfl
  | cons g groups ih =>
    obtain ⟨hne, hblank⟩ := h g (List.mem_cons_self ..)
    have hrest := ih fun g hg => h g (List.mem_cons_of_mem _ hg)
    cases groups with
    | nil =>
      rw [blankText_singleton]
      -- What follows the last blank is the special case behind the loop.
      have hlast := split_append hblank [] []
      rw [List.append_nil, List.nil_append] at hlast
      rw [hlast, split, if_neg hne]
    | cons next groups =>
      rw [blankText_cons, split_append hblank]
      -- The blank ends the group, and the next one starts empty.
      show g :: split [] (blankText (next :: groups)) = _
      rw [hrest]

/-- Groups that are read one by one are read as the list of their bytes. -/
theorem mapM_groupByte {groups : List Str} {bytes : Str}
    (h : List.Forall₂ (fun g t => groupByte g = some t) groups bytes) :
    groups.mapM groupByte = some bytes := by
  induction h with
  | nil => rfl
  | cons hbyte _ ih =>
    rw [List.mapM_cons, hbyte, ih]
    rfl

/-- The bytes of the groups are written, and counted. -/
theorem hexStringToByte_eq {groups : List Str} {bytes : Str} (hsolid : ∀ g ∈ groups, Solid g)
    (h : List.Forall₂ (fun g t => groupByte g = some t) groups bytes) :
    hexStringToByte (blankText groups) = some (bytes.length, bytes) := by
  unfold hexStringToByte
  rw [split_blankText hsolid]
  dsimp only
  rw [mapM_groupByte h, ← h.length_eq]
  rfl

/-! ### The result -/

/-- Every array comes back from its text, its length included. -/
theorem hexStringToByte_byteToHexString (bytes : Str) :
    hexStringToByte (byteToHexString bytes) = some (bytes.length, bytes) := by
  rw [byteToHexString_eq]
  refine hexStringToByte_eq ?_ ?_
  · intro g hg
    obtain ⟨t, -, rfl⟩ := List.mem_map.mp hg
    exact (isGroup_group t).solid
  · rw [List.forall₂_map_left_iff]
    exact List.forall₂_same.mpr fun t _ => groupByte_group t

/-- Groups in either case, and the bytes that are written for them. -/
theorem exists_bytes {groups : List Str} (h : ∀ g ∈ groups, IsGroup g) :
    ∃ bytes, List.Forall₂ (fun g t => groupByte g = some t) groups bytes ∧
      bytes.map group = groups.map (List.map toUpper) := by
  induction groups with
  | nil => exact ⟨[], .nil, rfl⟩
  | cons g groups ih =>
    obtain ⟨t, hread, hwrite⟩ := groupByte_isGroup (h g (List.mem_cons_self ..))
    obtain ⟨bytes, hreads, hwrites⟩ := ih fun g hg => h g (List.mem_cons_of_mem _ hg)
    refine ⟨t :: bytes, .cons hread hreads, ?_⟩
    rw [List.map_cons, List.map_cons, hwrite, hwrites]

/-- A blank has no case. -/
theorem map_toUpper_blankText (groups : List Str) :
    (blankText groups).map toUpper = blankText (groups.map (List.map toUpper)) := by
  induction groups with
  | nil => rfl
  | cons g groups ih =>
    cases groups with
    | nil => rw [List.map_singleton, blankText_singleton, blankText_singleton]
    | cons next groups =>
      rw [List.map_cons, List.map_cons, blankText_cons, blankText_cons, List.map_append,
        List.map_cons, ih]
      rfl

/-- **Bytes and text come back**: every array of bytes from its text, and every list of two-digit
groups is read to bytes whose text has the same groups in lower case. -/
theorem hex_roundTrip (bytes : Str) {groups : List Str} (h : ∀ g ∈ groups, IsGroup g) :
    hexStringToByte (byteToHexString bytes) = some (bytes.length, bytes) ∧
      ∃ out, hexStringToByte (blankText groups) = some (groups.length, out) ∧
        byteToHexString out = (blankText groups).map toUpper := by
  obtain ⟨out, hread, hwrite⟩ := exists_bytes h
  refine ⟨hexStringToByte_byteToHexString bytes, out, ?_, ?_⟩
  · rw [hread.length_eq]
    exact hexStringToByte_eq (fun g hg => (h g hg).solid) hread
  · rw [byteToHexString_eq, hwrite, map_toUpper_blankText]

/-- The text `aF 07`. -/
theorem hex_roundTrip_two : (∀ g ∈ ([[97, 70], [48, 55]] : List Str), IsGroup g) ∧
    ∃ out, hexStringToByte (blankText [[97, 70], [48, 55]]) = some (2, out) ∧
      byteToHexString out = (blankText [[97, 70], [48, 55]]).map toUpper :=
  have hgroups : ∀ g ∈ ([[97, 70], [48, 55]] : List Str), IsGroup g := by decide +kernel
  ⟨hgroups, (hex_roundTrip [] hgroups).2⟩

end Mylib.Proofs.Algorithm.Hex
