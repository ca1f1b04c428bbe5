import Mylib.Proofs.Protocol.PacketWrites
import Mylib.Spec.Protocol.RawCursor

/-!
# `Mylib.Proofs.Protocol.RawCursor`: which moves keep the cursor inside of the packet

`ReadData(size, n)` moves by `size` without a look at what is left, and `Forward` bounds the
way back but not the way on. `Admits` says which arguments are harmless where the cursor
stands; `keeps_iff` is the step, and `runKeeps_iff` follows a sequence of calls.

A move past the end is not noticed by the call that makes it. The length that is left is
negative from there on and the typed readers compare it as an unsigned number, so every one of
them reads behind the packet (`readWord_past`).
-/

set_option autoImplicit false

namespace Mylib.Proofs.Protocol.RawCursor

open Mylib.Spec.Protocol
open Mylib.Spec.Protocol.RawInPacket

variable {self : RawInPacket}

/-- The cursor is in range. -/
def InRange (self : RawInPacket) : Prop := 0 ≤ self.cursor ∧ self.cursor ≤ self.dataLen

instance (self : RawInPacket) : Decidable (InRange self) := inferInstanceAs (Decidable (_ ∧ _))

/-- `n` bytes of the packet can be read at the pointer, and no more. -/
def Readable (self : RawInPacket) : Option Int → Int → Prop
  | none, n => n = 0
  | some pointer, n => 0 ≤ pointer ∧ 0 ≤ n ∧ pointer + n = self.dataLen

/-- The `size` bytes from the pointer on lie inside of the packet. -/
def Skips (self : RawInPacket) : Option Int → Int → Prop
  | none, _ => True
  | some pointer, size => ∀ i, pointer ≤ i → i < pointer + size → 0 ≤ i ∧ i < self.dataLen

/-- What is promised of the result of a call. -/
def Honest (self : RawInPacket) : RawInPacket.Call → Result → RawInPacket → Prop
  | .readData size, .read pointer n, _ => Readable self pointer n ∧ Skips self pointer size
  | .readRest, .read pointer n, _ => Readable self pointer n
  | .forward _, .moved delta, next => delta = self.cursor - next.cursor
  | _, _, _ => False

/-- What is promised of one call. -/
def Keeps (call : RawInPacket.Call) (self : RawInPacket) : Prop :=
  InRange (call.run self).2 ∧ Honest self call (call.run self).1 (call.run self).2

/-- What is promised of a sequence of calls. -/
def RunKeeps : List RawInPacket.Call → RawInPacket → Prop
  | [], _ => True
  | call :: calls, self => Keeps call self ∧ RunKeeps calls (call.run self).2

/-- The arguments that are harmless. -/
def Admits : RawInPacket.Call → RawInPacket → Prop
  | .readData size, self =>
    self.cursor = self.dataLen ∨ (0 ≤ self.cursor + size ∧ self.cursor + size ≤ self.dataLen)
  | .readRest, _ => True
  | .forward delta, self => self.cursor - delta ≤ self.dataLen

/-- Every call is harmless where it is made. -/
def RunAdmits : List RawInPacket.Call → RawInPacket → Prop
  | [], _ => True
  | call :: calls, self => Admits call self ∧ RunAdmits calls (call.run self).2

/-! ### One call -/

/-- What remains, while the cursor is in range. -/
theorem remaining_eq (h : InRange self) : self.remaining = self.dataLen - self.cursor := by
  have hlen : self.dataLen < 2 ^ 31 := Int.ofNat_lt.mpr self.length_lt
  obtain ⟨hlow, hhigh⟩ := h
  exact int32_of_lt (by omega) (by omega)

/-- So much can be read at the cursor. -/
theorem readable_cursor (h : InRange self) : Readable self (some self.cursor) self.remaining := by
  rw [remaining_eq h]
  obtain ⟨hlow, hhigh⟩ := h
  show 0 ≤ self.cursor ∧ 0 ≤ self.dataLen - self.cursor ∧ _
  omega

/-- Reading data keeps the cursor in range exactly if the size it is asked for does. -/
theorem readData_keeps_iff (h : InRange self) (size : Int) :
    Keeps (.readData size) self ↔ Admits (.readData size) self := by
  have hremaining := remaining_eq h
  by_cases hend : self.remaining = 0
  · -- At the end of the packet nothing moves.
    have hrun : readData size self = (.read none self.remaining, self) := if_pos hend
    constructor
    · intro _
      exact .inl (by omega)
    · intro _
      show InRange (readData size self).2 ∧ Honest self (.readData size) (readData size self).1 _
      rw [hrun]
      exact ⟨h, hend, trivial⟩
  · have hrun : readData size self
        = (.read (some self.cursor) self.remaining, { self with cursor := self.cursor + size }) :=
      if_neg hend
    constructor
    · intro hkeeps
      -- The cursor is moved without a test, so where it stands afterwards decides.
      have hrange : InRange (readData size self).2 := hkeeps.1
      rw [hrun] at hrange
      exact .inr hrange
    · intro hadmits
      have hrange := hadmits.resolve_left (by omega)
      show InRange (readData size self).2 ∧ Honest self (.readData size) (readData size self).1 _
      rw [hrun]
      refine ⟨hrange, readable_cursor h, fun i hfirst hlast => ?_⟩
      have hlow := h.1
      omega

/-- Reading the rest always does. -/
theorem readRest_keeps (h : InRange self) : Keeps .readRest self := by
  show InRange (readRest self).2 ∧ Honest self .readRest (readRest self).1 _
  unfold readRest
  dsimp only
  split_ifs with hend
  · exact ⟨h, hend⟩
  · exact ⟨h, readable_cursor h⟩

/-- The way back is bounded by the code, so only a way on can be too long. -/
theorem forward_keeps_iff (h : InRange self) (delta : Int) :
    Keeps (.forward delta) self ↔ Admits (.forward delta) self := by
  have hlen : self.dataLen < 2 ^ 31 := Int.ofNat_lt.mpr self.length_lt
  obtain ⟨hlow, hhigh⟩ := h
  -- The test against the cursor is a minimum; a negative `delta` passes it.
  have hrun : forward delta self = (.moved (min delta self.cursor),
      { self with cursor := self.cursor - min delta self.cursor }) := by
    unfold forward
    rw [int32_of_lt hlow (by omega)]
    dsimp only
    split_ifs with hback
    · rw [min_eq_right hback.le]
    · rw [min_eq_left (not_lt.mp hback)]
  show InRange (forward delta self).2 ∧ Honest self (.forward delta) (forward delta self).1
    (forward delta self).2 ↔ _
  rw [hrun]
  show (0 ≤ self.cursor - min delta self.cursor ∧ self.cursor - min delta self.cursor
    ≤ self.dataLen) ∧ min delta self.cursor = self.cursor - (self.cursor - min delta self.cursor)
    ↔ self.cursor - delta ≤ self.dataLen
  omega

/-- One call, by its kind. -/
theorem keeps_iff (h : InRange self) (call : RawInPacket.Call) :
    Keeps call self ↔ Admits call self := by
  cases call with
  | readData size => exact readData_keeps_iff h size
  | readRest => exact iff_of_true (readRest_keeps h) trivial
  | forward delta => exact forward_keeps_iff h delta

/-! ### Sequences of calls -/

/-- **A run keeps its promises exactly if** every call of it is asked for what the packet has. By
induction on the calls. -/
theorem runKeeps_iff (h : InRange self) (calls : List RawInPacket.Call) :
    RunKeeps calls self ↔ RunAdmits calls self := by
  induction calls generalizing self with
  | nil => exact Iff.rfl
  | cons call calls ih =>
    -- Where the call keeps the cursor in range, the rest starts in range again.
    show Keeps call self ∧ RunKeeps calls (call.run self).2
      ↔ Admits call self ∧ RunAdmits calls (call.run self).2
    rw [keeps_iff h]
    exact and_congr_right fun hadmits => ih ((keeps_iff h call).mpr hadmits).1

/-- Four bytes, none of them read. -/
def fourBytes : RawInPacket where
  data := [1, 2, 3, 4]
  cursor := 0
  length_lt := by decide

/-- Three calls on four bytes. -/
theorem runKeeps_four : InRange fourBytes ∧
    RunKeeps [.readData 3, .forward 2, .readRest] fourBytes :=
  have h : InRange fourBytes := by decide
  ⟨h, (runKeeps_iff h _).mpr ⟨.inr (by decide), show (3 : Int) - 2 ≤ 4 by decide, trivial,
    trivial⟩⟩

/-- Five of four bytes are skipped. -/
theorem not_runKeeps_five : InRange fourBytes ∧ ¬ RunKeeps [.readData 5] fourBytes :=
  ⟨by decide, fun hkeeps => absurd hkeeps.1.1 (by decide)⟩

/-! ### Behind the end -/

/-- Where the cursor has left the packet, the readers of values leave it too. -/
theorem readWord_past (hpast : self.dataLen < self.cursor) (hcursor : self.cursor < 2 ^ 63)
    {size : Nat} (hpos : 0 < size) (hsize : size ≤ 8) : self.toPacket.readWord size = none := by
  have hlen : (0 : Int) ≤ self.dataLen := Int.natCast_nonneg _
  have hoffset : (self.cursor.toNat : Int) = self.cursor := Int.toNat_of_nonneg (by omega)
  -- The negative difference is a large `size_t`.
  have htest : size ≤ sizeT self.toPacket.remaining := by
    show size ≤ ((self.dataLen - (self.cursor.toNat : Int)) % 2 ^ 64).toNat
    omega
  have hbytes : ¬ self.toPacket.cursor + size ≤ self.toPacket.data.length := by
    have hdata : self.dataLen = self.data.length := rfl
    show ¬ self.cursor.toNat + size ≤ self.data.length
    omega
  unfold DataInPacket.readWord
  rw [if_pos htest, if_neg hbytes]

end Mylib.Proofs.Protocol.RawCursor
