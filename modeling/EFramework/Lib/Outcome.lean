import Mathlib.Logic.Basic

/-! # Computations that stop for a reason

A computation returns a value or stops: a step is undefined, or a loop has not ended with its
fuel. What is written for every kind of `Stopping` outcome may be run without the reasons, in
`Option`, and with them, in `Except`; `toOption` forgets them. `Meets` is the partial
specification of a computation that may stop for some reasons and for no other ones.
-/

namespace EFramework.Lib

/-- Outcomes of computations that may stop. -/
class Stopping (M : Type → Type) where
  /-- The fuel of a loop is spent. -/
  spent {A : Type} : M A
  /-- A step that is undefined where it has no result. -/
  defined {A : Type} : Option A → M A

instance : Stopping Option where
  spent := none
  defined v := v

variable {E A B : Type}

theorem defined_option (v : Option A) : Stopping.defined v = v := rfl

theorem defined_bind (a : A) (f : A → Option B) : (Stopping.defined (some a) >>= f) = f a := rfl

/-- A missing value is the reason to stop. -/
def orStop (e : E) : Option A → Except E A
  | none => .error e
  | some a => .ok a

@[simp] theorem toOption_orStop (e : E) (v : Option A) : (orStop e v).toOption = v := by
  cases v <;> rfl

theorem toOption_bind {x : Except E A} {y : Option A} {f : A → Except E B} {g : A → Option B}
    (h : x.toOption = y) (hf : ∀ a, (f a).toOption = g a) :
    (x >>= f).toOption = y.bind g := by
  rw [← h]
  cases x with
  | error e => rfl
  | ok a => exact hf a

theorem toOption_orStop_bind (e : E) (v : Option A) {f : A → Except E B} {g : A → Option B}
    (hf : ∀ a, (f a).toOption = g a) : (orStop e v >>= f).toOption = v.bind g :=
  toOption_bind (toOption_orStop e v) hf

theorem toOption_ite {c : Prop} [Decidable c] {x x' : Except E A} {y y' : Option A}
    (h : x.toOption = y) (h' : x'.toOption = y') :
    (if c then x else x').toOption = if c then y else y' := by
  split
  · exact h
  · exact h'

/-! ## Specifications -/

/-- The computation returns a value with `Q`, or it stops for an allowed reason. -/
def Meets (allowed : E → Prop) (x : Except E A) (Q : A → Prop) : Prop :=
  match x with
  | .ok a => Q a
  | .error e => allowed e

namespace Meets

variable {allowed : E → Prop}

theorem ok {Q : A → Prop} {a : A} (h : Q a) : Meets allowed (.ok a) Q := h

theorem error {e : E} (h : allowed e) (Q : A → Prop) : Meets allowed (.error e) Q := h

theorem bind {x : Except E A} {f : A → Except E B} {P : A → Prop} {Q : B → Prop}
    (h : Meets allowed x P) (hf : ∀ a, P a → Meets allowed (f a) Q) :
    Meets allowed (x >>= f) Q := by
  cases x with
  | error e => exact h
  | ok a => exact hf a h

theorem orStop {e : E} (he : allowed e) (v : Option A) :
    Meets allowed (orStop e v) (fun a => v = some a) := by
  cases v with
  | none => exact he
  | some a => rfl

theorem value {e : E} (he : allowed e) {v : Option A} {f : A → Except E B} {Q : B → Prop}
    (hf : ∀ a, v = some a → Meets allowed (f a) Q) :
    Meets allowed (Lib.orStop e v >>= f) Q :=
  (orStop he v).bind hf

theorem mono {x : Except E A} {P Q : A → Prop} (h : Meets allowed x P) (hPQ : ∀ a, P a → Q a) :
    Meets allowed x Q := by
  cases x with
  | error e => exact h
  | ok a => exact hPQ a h

theorem ite {c : Prop} [Decidable c] {x y : Except E A} {Q : A → Prop}
    (h : c → Meets allowed x Q) (h' : ¬ c → Meets allowed y Q) :
    Meets allowed (if c then x else y) Q := by
  split
  next hc => exact h hc
  next hc => exact h' hc

end Meets

/-! ## More results -/

/-- `y` is `x`, unless `x` stops for a reason that `y` may not have. -/
def Extends (lost : E → Prop) (x y : Except E A) : Prop :=
  (∃ e, lost e ∧ x = .error e) ∨ x = y

namespace Extends

variable {lost : E → Prop}

theorem refl (x : Except E A) : Extends lost x x := .inr rfl

theorem error {e : E} (h : lost e) (y : Except E A) : Extends lost (.error e) y :=
  .inl ⟨e, h, rfl⟩

theorem bind {x y : Except E A} {f g : A → Except E B} (h : Extends lost x y)
    (hf : ∀ a, Extends lost (f a) (g a)) : Extends lost (x >>= f) (y >>= g) := by
  rcases h with ⟨e, he, rfl⟩ | rfl
  · exact .error he _
  · cases x with
    | error e => exact .refl _
    | ok a => exact hf a

theorem value {e : E} {v : Option A} {f g : A → Except E B}
    (hf : ∀ a, Extends lost (f a) (g a)) :
    Extends lost (orStop e v >>= f) (orStop e v >>= g) :=
  (refl (orStop e v)).bind hf

theorem ite {c : Prop} [Decidable c] {x x' y y' : Except E A} (h : Extends lost x y)
    (h' : Extends lost x' y') : Extends lost (if c then x else x') (if c then y else y') := by
  split
  · exact h
  · exact h'

end Extends

end EFramework.Lib
