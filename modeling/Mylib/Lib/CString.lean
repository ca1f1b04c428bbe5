import Mathlib

/-!
# `Mylib.Lib.CString`: pointers into a zero-terminated array

A pointer into an array that ends in a zero is the list of the elements between
it and the terminator. The terminator itself may be read and pointed at; what lies
behind it may not. Every read and every move is checked, so a function that
returns `.ok` has stayed inside the array.
-/

set_option autoImplicit false

namespace Mylib.Lib.CString

/-- Why a scan is cut short: a read or a move past the terminator, a read through
a null pointer, or a loop or a recursion that would not come to its end. -/
inductive Fault where
  | overrun
  | null
  | stall
  deriving DecidableEq, Repr

section

variable {α β : Type}

/-! ### The checked operations -/

/-- `*(p + i)`. -/
def deref [Zero α] : List α → Nat → Except Fault α
  | [], 0 => .ok 0
  | [], _ + 1 => .error .overrun
  | c :: _, 0 => .ok c
  | _ :: p, i + 1 => deref p i

/-- `p + k`. -/
def advance : List α → Nat → Except Fault (List α)
  | p, 0 => .ok p
  | [], _ + 1 => .error .overrun
  | _ :: p, k + 1 => advance p k

/-- The `n` elements from `p` on, all before the terminator. -/
def copy (p : List α) (n : Nat) : Except Fault (List α) :=
  if n ≤ p.length then .ok (p.take n) else .error .overrun

/-- `++p`, with the fact that less is left. -/
def next : (p : List α) → Except Fault { q : List α // q.length < p.length }
  | [] => .error .overrun
  | _ :: p => .ok ⟨p, Nat.lt_succ_self _⟩

/-- `*(p + i)`, with the fact that anything but the terminator lies before it. -/
def charAt [Zero α] : (p : List α) → (i : Nat) → Except Fault { c : α // c ≠ 0 → i < p.length }
  | [], 0 => .ok ⟨0, fun h => absurd rfl h⟩
  | [], _ + 1 => .error .overrun
  | c :: _, 0 => .ok ⟨c, fun _ => Nat.succ_pos _⟩
  | _ :: p, i + 1 =>
    match charAt p i with
    | .error e => .error e
    | .ok ⟨c, h⟩ => .ok ⟨c, fun hc => Nat.succ_lt_succ (h hc)⟩

/-! ### What they return -/

section

variable {ε : Type}

/-- A step that succeeds hands its value to the next one. -/
@[simp]
theorem ok_bind (a : α) (f : α → Except ε β) : (Except.ok a >>= f) = f a := rfl

/-- A fault ends the whole computation. -/
@[simp]
theorem error_bind (e : ε) (f : α → Except ε β) :
    ((Except.error e : Except ε α) >>= f) = .error e := rfl

/-- `return` in this monad is `.ok`. -/
@[simp]
theorem pure_eq_ok (a : α) : (pure a : Except ε α) = .ok a := rfl

/-- A computation in two parts returns when both do. -/
theorem bind_eq_ok_iff {x : Except ε α} {f : α → Except ε β} {b : β} :
    x >>= f = .ok b ↔ ∃ a, x = .ok a ∧ f a = .ok b := by
  cases x with
  | error e => simp
  | ok a => simp

end

/-- Behind a character there is always a place to move to. -/
@[simp]
theorem next_cons (c : α) (p : List α) : next (c :: p) = .ok ⟨p, Nat.lt_succ_self _⟩ := rfl

/-- At the end of the text the terminator is read. -/
@[simp]
theorem deref_nil [Zero α] : deref ([] : List α) 0 = .ok 0 := rfl

/-- The character at the pointer. -/
@[simp]
theorem deref_cons_zero [Zero α] (c : α) (p : List α) : deref (c :: p) 0 = .ok c := rfl

/-- Reading further behind is reading from the next place. -/
@[simp]
theorem deref_cons_succ [Zero α] (c : α) (p : List α) (i : Nat) :
    deref (c :: p) (i + 1) = deref p i := rfl

/-- At its own place a pointer can always be read: there is a character or the terminator. -/
theorem deref_zero [Zero α] (p : List α) : deref p 0 = .ok (p.headD 0) := by
  cases p <;> rfl

/-- Moving by nothing is defined everywhere. -/
@[simp]
theorem advance_zero (p : List α) : advance p 0 = .ok p := by
  cases p <;> rfl

/-- Moving further is moving on from the next place. -/
@[simp]
theorem advance_cons_succ (c : α) (p : List α) (k : Nat) :
    advance (c :: p) (k + 1) = advance p k := rfl

/-- Behind `q` the pointer reads what `r` reads. -/
@[simp]
theorem deref_append [Zero α] (q r : List α) (i : Nat) :
    deref (q ++ r) (q.length + i) = deref r i := by
  induction q with
  | nil => simp
  | cons c q ih =>
    rw [List.cons_append, List.length_cons, Nat.add_right_comm, deref_cons_succ, ih]

/-- Reading behind a text that is known reads the first character of the rest. -/
@[simp]
theorem deref_append_length [Zero α] (q r : List α) : deref (q ++ r) q.length = deref r 0 :=
  deref_append q r 0

/-- Moving by the length of a text that is known leads to the rest. -/
@[simp]
theorem advance_append_length (q r : List α) : advance (q ++ r) q.length = .ok r := by
  induction q with
  | nil => simp
  | cons c q ih => simpa using ih

/-- Copying the length of a text that is known copies just that text. -/
@[simp]
theorem copy_append_length (q r : List α) : copy (q ++ r) q.length = .ok q := by
  simp [copy]

/-- A `charAt` in front of a pure continuation is a `deref`. -/
theorem charAt_eq_deref [Zero α] (p : List α) (i : Nat) :
    (charAt p i).map Subtype.val = deref p i := by
  induction p generalizing i with
  | nil => cases i <;> rfl
  | cons c p ih =>
    cases i with
    | zero => rfl
    | succ i =>
      show (charAt (c :: p) (i + 1)).map Subtype.val = deref p i
      rw [← ih i, charAt]
      cases charAt p i <;> rfl

/-- What `charAt` returns where `deref` returns. -/
theorem charAt_of_deref [Zero α] {p : List α} {i : Nat} {c : α} (h : deref p i = .ok c) :
    ∃ hc, charAt p i = .ok ⟨c, hc⟩ := by
  rw [← charAt_eq_deref] at h
  cases hp : charAt p i with
  | error e => rw [hp] at h; cases h
  | ok r =>
    rw [hp] at h
    cases h
    exact ⟨r.2, rfl⟩

end

end Mylib.Lib.CString
