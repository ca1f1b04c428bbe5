import Mylib.Lib.Feistel
import Mylib.Spec.Algorithm.AlgoTea

/-!
# `Mylib.Proofs.Algorithm.TeaLoops`: the loops over a block as rounds

Both loops run the rounds of `Mylib.Lib.Feistel` with the running sum as the round key:
encryption forwards (`encryptLoop_eq`), decryption backwards, when it starts with the sum that
encryption ended with (`decryptLoop_eq`). So with that sum they undo each other, for words of
any width.
-/

set_option autoImplicit false

namespace Mylib.Proofs.Algorithm

open Mylib.Lib.Feistel
open Mylib.Spec.Algorithm

variable {w : Nat}

/-- The rounds of a key, with these sums. -/
def keyRounds (k : Key w) (sums : List (BitVec w)) : Equiv.Perm (Block w) :=
  rounds (term k.k0 k.k1) (term k.k2 k.k3) sums

/-- The encryption loop is a Feistel network over the sums of `delta`. -/
theorem encryptLoop_eq (k : Key w) (n : Nat) (sum : BitVec w) (v : Block w) :
    encryptLoop k n sum v = keyRounds k (sums delta sum n) v := by
  induction n generalizing sum v with
  | zero => rfl
  | succ n ih => exact ih _ _

/-- The decryption loop runs the same network backwards, given that it starts from the last sum. -/
theorem decryptLoop_eq (k : Key w) (n : Nat) (sum : BitVec w) (v : Block w) :
    decryptLoop k n (sum + n • delta) v = (keyRounds k (sums delta sum n)).symm v := by
  induction n generalizing v with
  | zero => rfl
  | succ n ih =>
    -- Counting down starts with the last of the sums, whose round is undone first.
    have hsum : sum + (n + 1) • delta - delta = sum + n • delta := by
      rw [succ_nsmul, ← add_assoc, add_sub_cancel_right]
    show decryptLoop k n (sum + (n + 1) • delta - delta) _ = _
    rw [hsum, ih, sums_succ]
    exact (rounds_concat_symm_apply _ _ _ _ v).symm

/-- Decryption that starts with the last sum of encryption undoes it. -/
theorem decryptLoop_encryptLoop (k : Key w) (n : Nat) (v : Block w) :
    decryptLoop k n (n • delta) (encryptLoop k n 0 v) = v := by
  have hdecrypt := decryptLoop_eq k n 0 (encryptLoop k n 0 v)
  rw [zero_add, encryptLoop_eq, Equiv.symm_apply_apply] at hdecrypt
  rw [encryptLoop_eq]
  exact hdecrypt

/-- Encrypting what was decrypted gives the block back. -/
theorem encryptLoop_decryptLoop (k : Key w) (n : Nat) (v : Block w) :
    encryptLoop k n 0 (decryptLoop k n (n • delta) v) = v := by
  have hdecrypt := decryptLoop_eq k n 0 v
  rw [zero_add] at hdecrypt
  rw [encryptLoop_eq, hdecrypt, Equiv.apply_symm_apply]

end Mylib.Proofs.Algorithm
