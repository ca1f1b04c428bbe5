import Mylib.Lib.ByteOrder

/-!
# `Mylib.Spec.Algorithm.AlgoTea`: the cipher of `base/algo`

`Encrypt` and `Decrypt` of `base/algo/tea.cc`, over a block of two words and over a buffer.
The loops over a block are the ones of `public/algorithm/tea.cc` as well, there over words of
another width, so they are written once for every width.

The host is little-endian and `malloc` does not fail. `none` is undefined behaviour: the `int`
that counts the words of a buffer overflows.
-/

set_option autoImplicit false

namespace Mylib.Spec.Algorithm

open Mylib.Lib.ByteOrder

/-- The bytes of a buffer. -/
abbrev Str := List UInt8

/-- Two words. -/
abbrev Block (w : Nat) := BitVec w × BitVec w

/-- The words of a key. -/
structure Key (w : Nat) where
  k0 : BitVec w
  k1 : BitVec w
  k2 : BitVec w
  k3 : BitVec w
  deriving DecidableEq, Repr

/-! ### The loops over a block -/

variable {w : Nat}

/-- What a round adds to one word, with `v` the other. -/
def term (ka kb sum v : BitVec w) : BitVec w :=
  ((v <<< 4) + ka) ^^^ (v + sum) ^^^ ((v >>> 5) + kb)

/-- `delta`. -/
def delta : BitVec w := BitVec.ofNat w 0x9e3779b9

/-- The loop of encryption. -/
def encryptLoop (k : Key w) : (n : Nat) → (sum : BitVec w) → Block w → Block w
  | 0, _, v => v
  | n + 1, sum, (v0, v1) =>
    let sum := sum + delta
    let v0 := v0 + term k.k0 k.k1 sum v1
    let v1 := v1 + term k.k2 k.k3 sum v0
    encryptLoop k n sum (v0, v1)

/-- The loop of decryption. -/
def decryptLoop (k : Key w) : (n : Nat) → (sum : BitVec w) → Block w → Block w
  | 0, _, v => v
  | n + 1, sum, (v0, v1) =>
    let v1 := v1 - term k.k2 k.k3 sum v0
    let v0 := v0 - term k.k0 k.k1 sum v1
    decryptLoop k n (sum - delta) (v0, v1)

namespace AlgoTea

/-- `Encrypt` of a block. -/
def encryptBlock (v : Block 32) (k : Key 32) : Block 32 := encryptLoop k 32 0 v

/-- `Decrypt` of a block. -/
def decryptBlock (v : Block 32) (k : Key 32) : Block 32 := decryptLoop k 32 0xC6EF3720 v

/-! ### Buffers -/

/-- `key`. -/
def key : Key 32 := ⟨0x04, 0x03, 0x02, 0x01⟩

/-- `algo_tea_data`: `d` are the `l` bytes that the pointer of this name leads to, `none` for
a null pointer. -/
structure AlgoTeaData where
  d : Option Str
  l : Nat
  length_d : ∀ bytes, d = some bytes → bytes.length = l

/-- A buffer with these bytes. -/
def AlgoTeaData.ofBytes (bytes : Str) : AlgoTeaData where
  d := some bytes
  l := bytes.length
  length_d _ h := (congrArg List.length (Option.some.inj h)).symm

/-- The word that four bytes store. -/
def word (bytes : Str) : BitVec 32 := BitVec.ofNat 32 (bytesWord bytes)

/-- The bytes of a word. -/
def bytes (v : BitVec 32) : Str := wordBytes 4 v.toNat

/-- The loop over the words of a buffer, from the word at `i` on. The length of the buffer is
a multiple of eight, so no byte is left behind the blocks. -/
def inBlocks (f : Block 32 → Block 32) : (i : Nat) → Str → Option Str
  | i, b0 :: b1 :: b2 :: b3 :: b4 :: b5 :: b6 :: b7 :: p =>
    let v := f (word [b0, b1, b2, b3], word [b4, b5, b6, b7])
    if i + 2 < 2 ^ 31 then (inBlocks f (i + 2) p).map (bytes v.1 ++ bytes v.2 ++ ·) else none
  | _, p => some p

/-- The buffer that `Encrypt` works on: one of a length that is no multiple of eight is copied
to a larger one full of zeros. -/
def padded (d : Str) : Str :=
  let l := d.length
  if l % 8 ≠ 0 then
    let newL := ((l - 1) / 8 + 1) * 8
    d ++ List.replicate (newL - l) 0
  else d

/-- `Encrypt` of a buffer: the result, and what `td` points to. -/
def encrypt (td : Option AlgoTeaData) : Option (Bool × Option AlgoTeaData) :=
  match td with
  | none => some (false, none)
  | some data =>
    match data.d with
    | none => some (false, some data)
    | some d => do
      let p ← inBlocks (encryptBlock · key) 0 (padded d)
      return (true, some (AlgoTeaData.ofBytes p))

/-- `Decrypt` of a buffer. -/
def decrypt (td : Option AlgoTeaData) : Option (Bool × Option AlgoTeaData) :=
  match td with
  | none => some (false, none)
  | some data =>
    match data.d with
    | none => some (false, some data)
    | some d =>
      if data.l % 8 ≠ 0 then some (false, some data)
      else do
        let p ← inBlocks (decryptBlock · key) 0 d
        return (true, some (AlgoTeaData.ofBytes p))

end AlgoTea

end Mylib.Spec.Algorithm
