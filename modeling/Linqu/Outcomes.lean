import Mathlib.Data.List.Basic

/-!
# Outcomes

`Ends` says what may be returned and which faults may occur. `Alike` relates
two computations that fail in the same way, or both return with related
results. Both go through `bind`, conditionals and loops, so programs are
treated part by part.
-/

set_option autoImplicit false

namespace Linqu.Outcomes

variable {ε α β γ δ ι : Type}

/-- A returned value satisfies `P`, a fault satisfies `E`. -/
inductive Ends (E : ε → Prop) (P : α → Prop) : Except ε α → Prop
  | ok {a : α} (h : P a) : Ends E P (.ok a)
  | error {e : ε} (h : E e) : Ends E P (.error e)

namespace Ends

variable {E : ε → Prop} {P : α → Prop} {Q : β → Prop}

theorem bind {x : Except ε α} {f : α → Except ε β} (h : Ends E P x)
    (hf : ∀ a, P a → Ends E Q (f a)) : Ends E Q (x >>= f) := by
  cases h with
  | ok h => exact hf _ h
  | error h => exact .error h

theorem map {x : Except ε α} {f : α → β} (h : Ends E P x) (hf : ∀ a, P a → Q (f a)) :
    Ends E Q (x.map f) := by
  cases h with
  | ok h => exact .ok (hf _ h)
  | error h => exact .error h

theorem mono {P' : α → Prop} {x : Except ε α} (h : Ends E P x) (hP : ∀ a, P a → P' a) :
    Ends E P' x := by
  cases h with
  | ok h => exact .ok (hP _ h)
  | error h => exact .error h

theorem foldlM {f : α → ι → Except ε α} (hstep : ∀ a i, P a → Ends E P (f a i)) (l : List ι)
    {a : α} (h : P a) : Ends E P (l.foldlM f a) := by
  induction l generalizing a with
  | nil => exact .ok h
  | cons i l ih =>
    rw [List.foldlM_cons]
    exact (hstep a i h).bind fun a' h' => ih h'

theorem of_ok {x : Except ε α} {a : α} (h : Ends E P x) (hx : x = .ok a) : P a := by
  cases h with
  | ok h => cases hx; exact h
  | error h => cases hx

theorem of_error {x : Except ε α} {e : ε} (h : Ends E P x) (hx : x = .error e) : E e := by
  cases h with
  | ok h => cases hx
  | error h => cases hx; exact h

/-- A statement about returned values only. -/
theorem of_returns {x : Except ε α} (h : ∀ a, x = .ok a → P a) : Ends (fun _ => True) P x := by
  cases x with
  | ok a => exact .ok (h a rfl)
  | error e => exact .error trivial

end Ends

inductive Alike (R : α → β → Prop) : Except ε α → Except ε β → Prop
  | ok {a : α} {b : β} (h : R a b) : Alike R (.ok a) (.ok b)
  | error (e : ε) : Alike R (.error e) (.error e)

namespace Alike

variable {R : α → β → Prop} {S : γ → δ → Prop}

theorem bind {x : Except ε α} {y : Except ε β} {f : α → Except ε γ} {g : β → Except ε δ}
    (h : Alike R x y) (hfg : ∀ a b, R a b → Alike S (f a) (g b)) :
    Alike S (x >>= f) (y >>= g) := by
  cases h with
  | ok h => exact hfg _ _ h
  | error e => exact .error e

/-- As `bind`, where the first computation is known to have returned. -/
theorem bind_of {x : Except ε α} {y : Except ε β} {f : α → Except ε γ} {g : β → Except ε δ}
    (h : Alike R x y) (hfg : ∀ a b, x = .ok a → y = .ok b → R a b → Alike S (f a) (g b)) :
    Alike S (x >>= f) (y >>= g) := by
  cases h with
  | ok h => exact hfg _ _ rfl rfl h
  | error e => exact .error e

theorem map {x : Except ε α} {y : Except ε β} {f : α → γ} {g : β → δ} (h : Alike R x y)
    (hfg : ∀ a b, R a b → S (f a) (g b)) : Alike S (x.map f) (y.map g) := by
  cases h with
  | ok h => exact .ok (hfg _ _ h)
  | error e => exact .error e

theorem mono {R' : α → β → Prop} {x : Except ε α} {y : Except ε β} (h : Alike R x y)
    (hR : ∀ a b, x = .ok a → y = .ok b → R a b → R' a b) : Alike R' x y := by
  cases h with
  | ok h => exact .ok (hR _ _ rfl rfl h)
  | error e => exact .error e

theorem foldlM {f : α → ι → Except ε α} {g : β → ι → Except ε β}
    (hstep : ∀ a b i, R a b → Alike R (f a i) (g b i)) (l : List ι) {a : α} {b : β} (h : R a b) :
    Alike R (l.foldlM f a) (l.foldlM g b) := by
  induction l generalizing a b with
  | nil => exact .ok h
  | cons i l ih =>
    rw [List.foldlM_cons, List.foldlM_cons]
    exact (hstep a b i h).bind fun a' b' h' => ih h'

theorem refl (x : Except ε α) : Alike Eq x x := by
  cases x with
  | ok a => exact .ok rfl
  | error e => exact .error e

theorem symm {x : Except ε α} {y : Except ε β} (h : Alike R x y) : Alike (fun b a => R a b) y x := by
  cases h with
  | ok h => exact .ok h
  | error e => exact .error e

theorem trans {T : β → γ → Prop} {U : α → γ → Prop} {x : Except ε α} {y : Except ε β}
    {z : Except ε γ} (h : Alike R x y) (h' : Alike T y z)
    (hU : ∀ a b c, R a b → T b c → U a c) : Alike U x z := by
  cases h with
  | ok h =>
    cases h' with
    | ok h' => exact .ok (hU _ _ _ h h')
  | error e =>
    cases h' with
    | error e => exact .error e

end Alike

theorem ite_rel {R : α → β → Prop} {c d : Prop} [Decidable c] [Decidable d] {a a' : α} {b b' : β}
    (hcd : c ↔ d) (h : c → R a b) (h' : ¬ c → R a' b') :
    R (if c then a else a') (if d then b else b') := by
  by_cases hc : c
  · rw [if_pos hc, if_pos (hcd.mp hc)]
    exact h hc
  · rw [if_neg hc, if_neg (mt hcd.mpr hc)]
    exact h' hc

theorem foldl_rel {R : α → β → Prop} {f : α → ι → α} {g : β → ι → β}
    (hstep : ∀ a b i, R a b → R (f a i) (g b i)) (l : List ι) {a : α} {b : β} (h : R a b) :
    R (l.foldl f a) (l.foldl g b) := by
  induction l generalizing a b with
  | nil => exact h
  | cons i l ih => exact ih (hstep a b i h)

end Linqu.Outcomes
