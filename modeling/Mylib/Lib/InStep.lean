import Mathlib

/-!
# `Mylib.Lib.InStep`: two computations in step

Two fallible computations are related when both fail alike or both return related
results. A computation that carries a state returns a value and its new state; two of
them go in step when the values are equal and the states stay related. The rules
below take such a proof through the binds of two programs of the same shape.
-/

set_option autoImplicit false

namespace Mylib.Lib.InStep

section

variable {ε α β γ δ σ τ : Type}

inductive Related (R : α → β → Prop) : Except ε α → Except ε β → Prop where
  | ok {a : α} {b : β} : R a b → Related R (.ok a) (.ok b)
  | error (e : ε) : Related R (.error e) (.error e)

/-- Equal values, and related states. -/
def Same (R : σ → τ → Prop) (x : α × σ) (y : α × τ) : Prop := x.1 = y.1 ∧ R x.2 y.2

variable {R : σ → τ → Prop} {S : γ → δ → Prop}

/-- Behind two related computations stand two related ones. -/
theorem Related.bind {Q : α → β → Prop} {x : Except ε α} {y : Except ε β} {f : α → Except ε γ}
    {g : β → Except ε δ} (h : Related Q x y) (hfg : ∀ a b, Q a b → Related S (f a) (g b)) :
    Related S (x >>= f) (y >>= g) := by
  cases h with
  | ok hab => exact hfg _ _ hab
  | error e => exact .error e

/-- The second computation goes on alone. -/
theorem Related.bindRight {Q : α → β → Prop} {T : α → δ → Prop} {x : Except ε α}
    {y : Except ε β} {g : β → Except ε δ} (h : Related Q x y)
    (hg : ∀ a b, Q a b → Related T (.ok a) (g b)) : Related T x (y >>= g) := by
  cases h with
  | ok hab => exact hg _ _ hab
  | error e => exact .error e

/-- Behind two computations in step. -/
theorem Related.bindSame {x : Except ε (α × σ)} {y : Except ε (α × τ)}
    {f : α × σ → Except ε γ} {g : α × τ → Except ε δ} (h : Related (Same R) x y)
    (hfg : ∀ a s t, R s t → Related S (f (a, s)) (g (a, t))) :
    Related S (x >>= f) (y >>= g) := by
  refine h.bind ?_
  rintro ⟨a, s⟩ ⟨b, t⟩ ⟨heq, hst⟩
  obtain rfl : a = b := heq
  exact hfg a s t hst

/-- Behind one computation of both. -/
theorem Related.bindEq (x : Except ε α) {f : α → Except ε γ} {g : α → Except ε δ}
    (hfg : ∀ a, Related S (f a) (g a)) : Related S (x >>= f) (x >>= g) := by
  cases x with
  | ok a => exact hfg a
  | error e => exact .error e

/-- Two returns in step. -/
theorem Related.same (a : α) {s : σ} {t : τ} (h : R s t) :
    Related (ε := ε) (Same R) (.ok (a, s)) (.ok (a, t)) := .ok ⟨rfl, h⟩

/-- What one of them returns the other returns. -/
theorem Related.of_ok {x : Except ε (α × σ)} {y : Except ε (α × τ)} {a : α} {s : σ}
    (h : Related (Same R) x y) (hx : x = .ok (a, s)) : ∃ t, y = .ok (a, t) ∧ R s t := by
  cases h with
  | @ok a' b' hab =>
    obtain ⟨b, t⟩ := b'
    cases hx
    obtain rfl : a = b := hab.1
    exact ⟨t, rfl, hab.2⟩
  | error e => cases hx

end

end Mylib.Lib.InStep
