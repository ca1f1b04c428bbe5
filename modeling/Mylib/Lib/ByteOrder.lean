import Mathlib

/-!
# `Mylib.Lib.ByteOrder`: words in memory

A word of `width` bytes as the bytes a little-endian machine stores, and back. The
conversion to network order is the reversal of these bytes, so it is its own inverse
(`swap_swap`).
-/

set_option autoImplicit false

namespace Mylib.Lib.ByteOrder

/-- The `width` low bytes of `n`, the lowest first. -/
def wordBytes : (width : Nat) → (n : Nat) → List UInt8
  | 0, _ => []
  | width + 1, n => UInt8.ofNat n :: wordBytes width (n / 256)

/-- The word these bytes store. -/
def bytesWord (bs : List UInt8) : Nat := Nat.ofDigits 256 (bs.map UInt8.toNat)

/-- The word with its bytes in the other order. -/
def swap (width n : Nat) : Nat := bytesWord (wordBytes width n).reverse

/-- A word has as many bytes as its width says. -/
@[simp]
theorem length_wordBytes (width n : Nat) : (wordBytes width n).length = width := by
  induction width generalizing n with
  | zero => rfl
  | succ width ih => rw [wordBytes, List.length_cons, ih]

/-- The first byte is the lowest one. -/
theorem bytesWord_cons (b : UInt8) (bs : List UInt8) :
    bytesWord (b :: bs) = b.toNat + 256 * bytesWord bs := by
  rw [bytesWord, List.map_cons, Nat.ofDigits_cons]
  rfl

/-- The value of some bytes is less than there are values of that many bytes. -/
theorem bytesWord_lt (bs : List UInt8) : bytesWord bs < 256 ^ bs.length := by
  induction bs with
  | nil => exact Nat.one_pos
  | cons b bs ih =>
    have hb : b.toNat < 256 := b.toNat_lt
    rw [bytesWord_cons, List.length_cons, pow_succ]
    omega

/-- What is read back from the bytes of a number is the number modulo the word size. -/
theorem bytesWord_wordBytes (width n : Nat) : bytesWord (wordBytes width n) = n % 256 ^ width := by
  induction width generalizing n with
  | zero => rw [pow_zero, Nat.mod_one]; rfl
  | succ width ih =>
    have hlow : (UInt8.ofNat n).toNat = n % 256 := UInt8.toNat_ofNat'
    rw [wordBytes, bytesWord_cons, ih, hlow, pow_succ', Nat.mod_mul]

/-- A wide word is stored as its low part and its high part. -/
theorem wordBytes_add (k l : Nat) {x : Nat} (y : Nat) (hx : x < 256 ^ k) :
    wordBytes (k + l) (x + 256 ^ k * y) = wordBytes k x ++ wordBytes l y := by
  induction k generalizing x with
  | zero =>
    obtain rfl : x = 0 := by simpa using hx
    simp [wordBytes]
  | succ k ih =>
    rw [pow_succ'] at hx
    have hdiv : (x + 256 ^ (k + 1) * y) / 256 = x / 256 + 256 ^ k * y := by
      rw [pow_succ', Nat.mul_assoc]
      omega
    have hbyte : UInt8.ofNat (x + 256 ^ (k + 1) * y) = UInt8.ofNat x := by
      apply UInt8.toNat_inj.mp
      rw [UInt8.toNat_ofNat', UInt8.toNat_ofNat', pow_succ', Nat.mul_assoc]
      omega
    rw [Nat.succ_add, wordBytes, wordBytes, hdiv, hbyte, ih (by omega), List.cons_append]

/-- Bytes that are read as a number and written again are the same bytes. -/
theorem wordBytes_bytesWord (bs : List UInt8) : wordBytes bs.length (bytesWord bs) = bs := by
  induction bs with
  | nil => rfl
  | cons b bs ih =>
    have hb : b.toNat < 256 := b.toNat_lt
    have hrest : (b.toNat + 256 * bytesWord bs) / 256 = bytesWord bs := by omega
    have hfirst : UInt8.ofNat (b.toNat + 256 * bytesWord bs) = b := by
      apply UInt8.toNat_inj.mp
      rw [UInt8.toNat_ofNat']
      omega
    rw [List.length_cons, bytesWord_cons, wordBytes, hrest, hfirst, ih]

/-- What does not fit a word does not show in its bytes. -/
theorem wordBytes_mod (width n : Nat) : wordBytes width (n % 256 ^ width) = wordBytes width n := by
  have h := wordBytes_bytesWord (wordBytes width n)
  rwa [length_wordBytes, bytesWord_wordBytes] at h

/-- The bytes of a swapped word are the bytes of the word, reversed. -/
theorem wordBytes_swap (width n : Nat) :
    wordBytes width (swap width n) = (wordBytes width n).reverse := by
  have h := wordBytes_bytesWord (wordBytes width n).reverse
  rw [List.length_reverse, length_wordBytes] at h
  exact h

/-- Swapping the bytes of a word twice changes nothing but what did not fit. -/
theorem swap_swap (width n : Nat) : swap width (swap width n) = n % 256 ^ width := by
  rw [swap, wordBytes_swap, List.reverse_reverse, bytesWord_wordBytes]

end Mylib.Lib.ByteOrder
