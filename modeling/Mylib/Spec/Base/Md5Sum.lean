import Mylib.Lib.Memory

/-!
# `Mylib.Spec.Base.Md5Sum`: the MD5 digest

`public/basic/md5sum.cc`. `md5_init` leaves the 64 bytes of the buffer as they are, so they are
memory cells here and start uninitialised. `none` is undefined behaviour: a block read before it
is written, a `memcpy` that leaves its array or the data, or a `sprintf` that copies a text onto
itself, as `MD5Sum::Calculate` does to write the digest.

An `int` is an `Int32`, whose arithmetic wraps.
-/

set_option autoImplicit false

namespace Mylib.Spec.Base.Md5Sum

open Mylib.Lib.Memory

/-- The four words of `abcd`. -/
structure Registers where
  a : UInt32
  b : UInt32
  c : UInt32
  d : UInt32
  deriving DecidableEq, Repr

/-- `md5_state_t`. -/
structure Md5State where
  /-- `count[0]`, the low word of the message length in bits. -/
  count0 : UInt32
  /-- `count[1]`. -/
  count1 : UInt32
  abcd : Registers
  /-- `buf`. -/
  buf : Block UInt8

/-! ### `md5_process` -/

/-- `ROTATE_LEFT`. -/
def rotateLeft (x n : UInt32) : UInt32 := (x <<< n) ||| (x >>> (32 - n))

/-- The macro `F`. -/
def f (x y z : UInt32) : UInt32 := (x &&& y) ||| (~~~x &&& z)

/-- The macro `G`. -/
def g (x y z : UInt32) : UInt32 := (x &&& z) ||| (y &&& ~~~z)

/-- The macro `H`. -/
def h (x y z : UInt32) : UInt32 := x ^^^ y ^^^ z

/-- The macro `I`. -/
def i (x y z : UInt32) : UInt32 := y ^^^ (x ||| ~~~z)

/-- The macro `SET` with the function of the round: the new value of `a`. The operation is `k`,
`s` and `Ti`. -/
def set1 (fn : UInt32 → UInt32 → UInt32 → UInt32) (X : Nat → UInt32) (a b c d : UInt32)
    (op : Nat × UInt32 × UInt32) : UInt32 :=
  let (k, s, Ti) := op
  let t := a + fn b c d + X k + Ti
  rotateLeft t s + b

/-- The four `SET`s that every round repeats, each with the registers in another place. -/
def set4 (fn : UInt32 → UInt32 → UInt32 → UInt32) (X : Nat → UInt32) (abcd : Registers)
    (op₁ op₂ op₃ op₄ : Nat × UInt32 × UInt32) : Registers :=
  let ⟨a, b, c, d⟩ := abcd
  let a := set1 fn X a b c d op₁
  let d := set1 fn X d a b c op₂
  let c := set1 fn X c d a b op₃
  let b := set1 fn X b c d a op₄
  ⟨a, b, c, d⟩

/-- Round 1 of `md5_process`. -/
def round1 (X : Nat → UInt32) (abcd : Registers) : Registers :=
  let abcd := set4 f X abcd (0, 7, 0xd76aa478) (1, 12, 0xe8c7b756)
    (2, 17, 0x242070db) (3, 22, 0xc1bdceee)
  let abcd := set4 f X abcd (4, 7, 0xf57c0faf) (5, 12, 0x4787c62a)
    (6, 17, 0xa8304613) (7, 22, 0xfd469501)
  let abcd := set4 f X abcd (8, 7, 0x698098d8) (9, 12, 0x8b44f7af)
    (10, 17, 0xffff5bb1) (11, 22, 0x895cd7be)
  set4 f X abcd (12, 7, 0x6b901122) (13, 12, 0xfd987193)
    (14, 17, 0xa679438e) (15, 22, 0x49b40821)

/-- Round 2. -/
def round2 (X : Nat → UInt32) (abcd : Registers) : Registers :=
  let abcd := set4 g X abcd (1, 5, 0xf61e2562) (6, 9, 0xc040b340)
    (11, 14, 0x265e5a51) (0, 20, 0xe9b6c7aa)
  let abcd := set4 g X abcd (5, 5, 0xd62f105d) (10, 9, 0x02441453)
    (15, 14, 0xd8a1e681) (4, 20, 0xe7d3fbc8)
  let abcd := set4 g X abcd (9, 5, 0x21e1cde6) (14, 9, 0xc33707d6)
    (3, 14, 0xf4d50d87) (8, 20, 0x455a14ed)
  set4 g X abcd (13, 5, 0xa9e3e905) (2, 9, 0xfcefa3f8)
    (7, 14, 0x676f02d9) (12, 20, 0x8d2a4c8a)

/-- Round 3. -/
def round3 (X : Nat → UInt32) (abcd : Registers) : Registers :=
  let abcd := set4 h X abcd (5, 4, 0xfffa3942) (8, 11, 0x8771f681)
    (11, 16, 0x6d9d6122) (14, 23, 0xfde5380c)
  let abcd := set4 h X abcd (1, 4, 0xa4beea44) (4, 11, 0x4bdecfa9)
    (7, 16, 0xf6bb4b60) (10, 23, 0xbebfbc70)
  let abcd := set4 h X abcd (13, 4, 0x289b7ec6) (0, 11, 0xeaa127fa)
    (3, 16, 0xd4ef3085) (6, 23, 0x04881d05)
  set4 h X abcd (9, 4, 0xd9d4d039) (12, 11, 0xe6db99e5)
    (15, 16, 0x1fa27cf8) (2, 23, 0xc4ac5665)

/-- Round 4. -/
def round4 (X : Nat → UInt32) (abcd : Registers) : Registers :=
  let abcd := set4 i X abcd (0, 6, 0xf4292244) (7, 10, 0x432aff97)
    (14, 15, 0xab9423a7) (5, 21, 0xfc93a039)
  let abcd := set4 i X abcd (12, 6, 0x655b59c3) (3, 10, 0x8f0ccc92)
    (10, 15, 0xffeff47d) (1, 21, 0x85845dd1)
  let abcd := set4 i X abcd (8, 6, 0x6fa87e4f) (15, 10, 0xfe2ce6e0)
    (6, 15, 0xa3014314) (13, 21, 0x4e0811a1)
  set4 i X abcd (4, 6, 0xf7537e82) (11, 10, 0xbd3af235)
    (2, 15, 0x2ad7d2bb) (9, 21, 0xeb86d391)

/-- `X[i]`, put together from the bytes. -/
def word (data : List UInt8) (i : Nat) : UInt32 :=
  let xp (j : Nat) : UInt32 := (data.getD (4 * i + j) 0).toUInt32
  xp 0 + (xp 1 <<< 8) + (xp 2 <<< 16) + (xp 3 <<< 24)

/-- `md5_process` on the words of a block. -/
def process (abcd : Registers) (data : List UInt8) : Registers :=
  let ⟨a, b, c, d⟩ := round4 (word data) (round3 (word data) (round2 (word data)
    (round1 (word data) abcd)))
  ⟨abcd.a + a, abcd.b + b, abcd.c + c, abcd.d + d⟩

/-- `md5_process`, which reads the 64 bytes at `p`. -/
def md5Process (pms : Md5State) (memory : Block UInt8) (p : Nat) : Option Md5State := do
  let cells ← copyOut memory p 64
  let data ← cells.mapM id
  return { pms with abcd := process pms.abcd data }

/-! ### The message -/

/-- `md5_init`, on memory that holds no value yet. -/
def md5Init : Md5State where
  count0 := 0
  count1 := 0
  abcd := ⟨0x67452301, 0xefcdab89, 0x98badcfe, 0x10325476⟩
  buf := alloc 64

/-- `memcpy(pms->buf + offset, p, copy)`. -/
def copyBuf (pms : Md5State) (offset : Nat) (data : List UInt8) (p copy : Nat) :
    Option Md5State := do
  let cells ← copyOut (data.map some) p copy
  let buf ← copyIn pms.buf offset cells
  return { pms with buf }

/-- The full blocks from `p` on, and the final partial block. -/
def appendBlocks (pms : Md5State) (data : List UInt8) (p : Nat) (left : Int32) :
    Option Md5State :=
  if hleft : left ≥ 64 then do
    let pms ← md5Process pms (data.map some) p
    appendBlocks pms data (p + 64) (left - 64)
  else if left ≠ 0 then copyBuf pms 0 data p left.toUInt32.toNat
  else some pms
termination_by left.toInt.toNat
decreasing_by
  have hsub := Int32.toInt_sub_of_le left 64 (by decide) hleft
  have h64 : (64 : Int32).toInt = 64 := rfl
  have hle := Int32.le_iff_toInt_le.mp hleft
  omega

/-- `md5_append`. -/
def md5Append (pms : Md5State) (data : List UInt8) (nbytes : Int32) : Option Md5State :=
  let left := nbytes
  let offset : Int32 := ((pms.count0 >>> 3) &&& 63).toInt32
  let nbits : UInt32 := (nbytes <<< 3).toUInt32
  if nbytes ≤ 0 then some pms
  else
    -- The count of bits has two words; the high one gets the carry.
    let count1 := pms.count1 + (nbytes >>> 29).toUInt32
    let count0 := pms.count0 + nbits
    let count1 := if count0 < nbits then count1 + 1 else count1
    let pms := { pms with count0, count1 }
    if offset ≠ 0 then do
      -- What is in the buffer is filled up first, as far as the data goes.
      let copy : Int32 := if offset + nbytes > 64 then 64 - offset else nbytes
      let pms ← copyBuf pms offset.toUInt32.toNat data 0 copy.toUInt32.toNat
      if offset + copy < 64 then return pms
      let pms ← md5Process pms pms.buf 0
      appendBlocks pms data copy.toUInt32.toNat (left - copy)
    else appendBlocks pms data 0 left

/-- `pad`. -/
def pad : List UInt8 := 0x80 :: List.replicate 63 0

/-- A word at `i >> 2`, of which byte `i & 3` is taken. -/
def byteOf (words : List UInt32) (i : Nat) : UInt8 :=
  (words.getD (i >>> 2) 0 >>> UInt32.ofNat ((i &&& 3) <<< 3)).toUInt8

/-- `md5_finish`. -/
def md5Finish (pms : Md5State) : Option (List UInt8) := do
  let data := (List.range 8).map (byteOf [pms.count0, pms.count1])
  let pms ← md5Append pms pad ((((55 : UInt32) - (pms.count0 >>> 3)) &&& 63) + 1).toInt32
  let pms ← md5Append pms data 8
  return (List.range 16).map (byteOf [pms.abcd.a, pms.abcd.b, pms.abcd.c, pms.abcd.d])

/-! ### `MD5Sum` -/

/-- A digit of `%02x`. -/
def hexDigit (n : Nat) : UInt8 := UInt8.ofNat (if n < 10 then 48 + n else 87 + n)

/-- `sprintf(s, "%s%02x", s, byte)`. It copies the text in `s` to where that stands, which is
undefined as soon as there is a character to copy. -/
def sprintfHash (s : List UInt8) (byte : UInt8) : Option (List UInt8) :=
  if s = [] then some [hexDigit (byte.toNat / 16), hexDigit (byte.toNat % 16)] else none

/-- The local `digest` of `MD5Sum::Calculate`, whose length becomes an `int`. -/
def calculateDigest (source : List UInt8) : Option (List UInt8) := do
  let state ← md5Append md5Init source (Int32.ofNat source.length)
  md5Finish state

/-- `MD5Sum::Calculate`: `m_sHash`. -/
def calculate (source : List UInt8) : Option (List UInt8) := do
  let digest ← calculateDigest source
  digest.foldlM sprintfHash []

end Mylib.Spec.Base.Md5Sum
