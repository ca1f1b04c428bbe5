import Mylib.Spec.Base.Zip

/-!
# `Mylib.Proofs.Base.StoredBlocks`: zlib on what it cannot make smaller

Of such messages zlib makes stored blocks: a zero byte, the length, its complement, and the
bytes as they are. `storedZlib` makes nothing else. It is there to see that the assumptions on
zlib can be met (`storedManual`), and to run the code.

The decoder goes from byte to byte (`step`). `read` is what it makes of an input when there is
always room; with less room it writes the beginning, and the rest is what `read` makes of the
rest of the input (`inflate_read`).
-/

set_option autoImplicit false

namespace Mylib.Proofs.Base.StoredBlocks

open Mylib.Spec.Base (Str)
open Mylib.Spec.Base.Zip

/-! ### The decoder -/

/-- What the next byte is: of the header, of the head of a block, or one of `left + 1` bytes. -/
inductive Place where
  | method
  | flags (method : UInt8)
  | block
  | low
  | high (low : UInt8)
  | lowComplement (length : ℕ)
  | highComplement (length : ℕ) (low : UInt8)
  | copy (left : ℕ)
  deriving DecidableEq, Repr

/-- The place behind a byte, and the byte that is written. `none` where the byte is wrong. -/
def step : Place → UInt8 → Option (Place × Option UInt8)
  | .method, c => some (.flags c, none)
  | .flags method, c =>
    if (method.toNat * 256 + c.toNat) % 31 = 0 ∧ method.toNat % 16 = 8 then some (.block, none)
    else none
  | .block, c => if c = 0 then some (.low, none) else none
  | .low, c => some (.high c, none)
  | .high low, c => some (.lowComplement (low.toNat + 256 * c.toNat), none)
  | .lowComplement length, c => some (.highComplement length c, none)
  | .highComplement length low, c =>
    if low.toNat + 256 * c.toNat = 65535 - length then
      match length with
      | 0 => some (.block, none)
      | left + 1 => some (.copy left, none)
    else none
  | .copy 0, c => some (.block, some c)
  | .copy (left + 1), c => some (.copy left, some c)

def inflate : Place → Str → ℕ → Call Place
  | place, [], _ => { err := zOk, availIn := 0, out := [], next := place }
  | place, c :: input, room =>
    match step place c with
    | none => { err := -3, availIn := input.length, out := [], next := place }
    | some (next, none) => inflate next input room
    | some (next, some byte) =>
      match room with
      | 0 => { err := zOk, availIn := input.length + 1, out := [], next := place }
      | room + 1 =>
        let call := inflate next input room
        { call with out := byte :: call.out }

/-- What is made of an input, and the place behind it. -/
def read : Place → Str → Option (Str × Place)
  | place, [] => some ([], place)
  | place, c :: input => do
    let (next, byte) ← step place c
    let (out, last) ← read next input
    some (byte.toList ++ out, last)

/-- What is read in two pieces is read at once. -/
theorem read_append {place next last : Place} {input more out rest : Str}
    (h : read place input = some (out, next)) (hmore : read next more = some (rest, last)) :
    read place (input ++ more) = some (out ++ rest, last) := by
  induction input generalizing place out with
  | nil =>
    obtain ⟨rfl, rfl⟩ := Prod.mk.inj (Option.some.inj h)
    exact hmore
  | cons c input ih =>
    simp only [read, Option.bind_eq_bind, Option.bind_eq_some_iff, Option.some.injEq] at h
    obtain ⟨⟨next', byte⟩, hstep, ⟨out', last'⟩, hread, heq⟩ := h
    obtain ⟨rfl, rfl⟩ := Prod.mk.inj heq
    simp only [List.cons_append, read, hstep, ih hread, Option.bind_eq_bind, Option.bind_some,
      List.append_assoc]

/-- `inflate` in any room, against `read`. -/
theorem inflate_read {place last : Place} {input rest : Str}
    (h : read place input = some (rest, last)) (room : ℕ) :
    (inflate place input room).err = zOk ∧
    (inflate place input room).out = rest.take room ∧
    (inflate place input room).availIn ≤ input.length ∧
    ((inflate place input room).availIn = 0 ∧ rest.length ≤ room ∧
        (inflate place input room).next = last ∨
      (inflate place input room).availIn ≠ 0 ∧ room ≤ rest.length ∧
        read (inflate place input room).next
          (input.drop (input.length - (inflate place input room).availIn))
            = some (rest.drop room, last)) := by
  induction input generalizing place rest room with
  | nil =>
    obtain ⟨rfl, rfl⟩ := Prod.mk.inj (Option.some.inj h)
    exact ⟨rfl, List.take_nil.symm, le_rfl, .inl ⟨rfl, Nat.zero_le room, rfl⟩⟩
  | cons c input ih =>
    have hread := h
    simp only [read, Option.bind_eq_bind, Option.bind_eq_some_iff, Option.some.injEq] at h
    obtain ⟨⟨next, byte⟩, hstep, ⟨out, last'⟩, hnext, heq⟩ := h
    obtain ⟨rfl, rfl⟩ := Prod.mk.inj heq
    -- the input that is left does not see a byte in front of what was read
    have hdrop (n : ℕ) (hn : n ≤ input.length) :
        (c :: input).drop ((c :: input).length - n) = input.drop (input.length - n) := by
      rw [List.length_cons, show input.length + 1 - n = input.length - n + 1 by omega,
        List.drop_succ_cons]
    cases byte with
    | none =>
      -- A byte of a header or a head takes no room.
      have hinflate : inflate place (c :: input) room = inflate next input room := by
        rw [inflate, hstep]
      obtain ⟨herr, hout, hleft, hcases⟩ := ih hnext room
      rw [hinflate, hdrop _ hleft]
      exact ⟨herr, hout, hleft.trans (Nat.le_succ _), hcases⟩
    | some byte =>
      cases room with
      | zero =>
        -- No room for the byte: the decoder stays in front of it.
        have hinflate : inflate place (c :: input) 0
            = { err := zOk, availIn := input.length + 1, out := [], next := place } := by
          rw [inflate, hstep]
        rw [hinflate]
        refine ⟨rfl, rfl, le_rfl, .inr ⟨Nat.succ_ne_zero _, Nat.zero_le _, ?_⟩⟩
        rw [List.length_cons, Nat.sub_self]
        exact hread
      | succ room =>
        have hinflate : inflate place (c :: input) (room + 1)
            = { inflate next input room with out := byte :: (inflate next input room).out } := by
          rw [inflate, hstep]
        obtain ⟨herr, hout, hleft, hcases⟩ := ih hnext room
        rw [hinflate]
        dsimp only
        rw [hdrop _ hleft]
        refine ⟨herr, congrArg (byte :: ·) hout, hleft.trans (Nat.le_succ _), ?_⟩
        exact hcases.imp (fun ⟨hzero, hle, hlast⟩ => ⟨hzero, Nat.succ_le_succ hle, hlast⟩)
          fun ⟨hne, hle, hrest⟩ => ⟨hne, Nat.succ_le_succ hle, hrest⟩

/-! ### The encoder -/

/-- A length in two bytes, the low one first. -/
def littleEndian (n : ℕ) : Str := [UInt8.ofNat n, UInt8.ofNat (n / 256)]

/-- A stored block of at most 65535 bytes. -/
def block (bytes : Str) : Str :=
  [0] ++ littleEndian bytes.length ++ littleEndian (65535 - bytes.length) ++ bytes

/-- As many stored blocks as it takes. -/
def blocks (bytes : Str) : Str :=
  if bytes.length ≤ 65535 then block bytes
  else block (bytes.take 65535) ++ blocks (bytes.drop 65535)
termination_by bytes.length
decreasing_by
  rw [List.length_drop]
  omega

/-- The header once, the message in stored blocks, and the marker: an empty one. -/
def sync (started : Bool) (message : Str) : Str :=
  (if started then [] else [120, 218]) ++ blocks message ++ block []

def deflate (started : Bool) (message : Str) (room : ℕ) : Call Bool :=
  if (sync started message).length < room then
    { err := zOk, availIn := 0, out := sync started message, next := true }
  else { err := -5, availIn := message.length, out := [], next := started }

/-- zlib with stored blocks only. -/
def storedZlib : Zlib where
  Deflater := Bool
  Inflater := Place
  deflateInit := (zOk, false)
  deflate := deflate
  inflateInit := (zOk, .method)
  inflate := inflate

/-- Inside of a stored block bytes are copied. -/
theorem read_copy (bytes : Str) (c : UInt8) :
    read (.copy bytes.length) (bytes ++ [c]) = some (bytes ++ [c], .block) := by
  induction bytes with
  | nil => rfl
  | cons d bytes ih =>
    show (read (.copy bytes.length) (bytes ++ [c])).bind _ = _
    rw [ih]
    rfl

/-- The head of a block that is not empty. -/
theorem read_head {low high low' high' : UInt8} {n : ℕ}
    (hlength : low.toNat + 256 * high.toNat = n + 1)
    (hcomplement : low'.toNat + 256 * high'.toNat = 65535 - (n + 1)) :
    read .block [0, low, high, low', high'] = some ([], .copy n) := by
  simp [read, step, hlength, hcomplement]

/-- One stored block is read, as its length fits the sixteen bits of its header. -/
theorem read_block (bytes : Str) (h : bytes.length ≤ 65535) :
    read .block (block bytes) = some (bytes, .block) := by
  have hlow (n : ℕ) (hn : n ≤ 65535) :
      (UInt8.ofNat n).toNat + 256 * (UInt8.ofNat (n / 256)).toNat = n := by
    rw [UInt8.toNat_ofNat', UInt8.toNat_ofNat']
    omega
  rcases List.eq_nil_or_concat' bytes with rfl | ⟨front, c, rfl⟩
  · -- the empty block, which is the marker
    rfl
  · rw [List.length_append, List.length_singleton] at h
    have hhead := read_head (hlow _ h) (hlow (65535 - (front.length + 1)) (by omega))
    have hall := read_append hhead (read_copy front c)
    unfold block
    rw [List.length_append, List.length_singleton]
    exact hall

/-- So is a row of them. By strong induction on the number of bytes. -/
theorem read_blocks (bytes : Str) : read .block (blocks bytes) = some (bytes, .block) := by
  induction hn : bytes.length using Nat.strong_induction_on generalizing bytes with
  | _ n ih =>
    rw [blocks]
    split
    · exact read_block bytes ‹_›
    · have hfirst := read_block (bytes.take 65535) (List.length_take_le _ _)
      have hrest := ih (bytes.drop 65535).length (by rw [List.length_drop]; omega) _ rfl
      have hall := read_append hfirst hrest
      rwa [List.take_append_drop] at hall

/-- Where the decoder is between two messages. -/
def start (started : Bool) : Place := if started then .block else .method

/-- A flushed message is read, at the start of a stream or later. -/
theorem read_sync (started : Bool) (message : Str) :
    read (start started) (sync started message) = some (message, .block) := by
  have hheader : read (start started) (if started then [] else [120, 218])
      = some ([], .block) := by
    cases started <;> decide
  have hmarker := read_block [] (Nat.zero_le _)
  have hall := read_append (read_append hheader (read_blocks message)) hmarker
  rwa [List.nil_append, List.append_nil] at hall

/-- Its encoder and its decoder are as the manual says. -/
def storedManual : storedZlib.Manual where
  sync := sync
  after _ _ := true
  InStep started place := place = start started
  Owes place input rest started := read place input = some (rest, start started)
  deflateInit_ok := rfl
  inflateInit_ok := rfl
  inStep_init := rfl
  deflate_sync started message room _ hroom := if_pos hroom
  sync_ne_nil started message h := by
    have hmarker : block [] ≠ [] := List.cons_ne_nil _ _
    exact hmarker (List.append_eq_nil_iff.mp h).2
  owes_sync started place message hplace _ := by
    rw [hplace]
    exact read_sync started message
  inflate_owes place input rest started room howes _ := by
    obtain ⟨herr, hout, -, hcases⟩ := inflate_read howes room
    exact ⟨herr, hout, hcases⟩

end Mylib.Proofs.Base.StoredBlocks
