import Mathlib.Logic.Basic

/-! # Refinement of partial computations

A computation on a state returns a value and a new state, or has no result. One computation
refines another when all of its results are results of the other one, with the same value and
in a related state. Where the first one has no result nothing is said. `Option.Rel` is the
relation where neither has a result, or both have.
-/

namespace EFramework.Lib

variable {S T A B : Type}

/-- Every result of `x` is one of `y`. -/
def Refines (R : S → T → Prop) (x : Option (A × S)) (y : Option (A × T)) : Prop :=
  ∀ a s, x = some (a, s) → ∃ t, y = some (a, t) ∧ R s t

namespace Refines

variable {R : S → T → Prop}

theorem none (y : Option (A × T)) : Refines R Option.none y := by
  intro a s h
  cases h

theorem pure {s : S} {t : T} (h : R s t) (a : A) : Refines R (some (a, s)) (some (a, t)) := by
  intro a' s' hs
  cases hs
  exact ⟨t, rfl, h⟩

theorem bind {x : Option (A × S)} {y : Option (A × T)} {f : A × S → Option (B × S)}
    {g : A × T → Option (B × T)} (h : Refines R x y)
    (hk : ∀ a s t, R s t → Refines R (f (a, s)) (g (a, t))) :
    Refines R (x.bind f) (y.bind g) := by
  intro b s' hs
  obtain ⟨⟨a, s⟩, hx, hf⟩ := Option.bind_eq_some_iff.mp hs
  obtain ⟨t, hy, hR⟩ := h a s hx
  obtain ⟨t', hg, hR'⟩ := hk a s t hR b s' hf
  exact ⟨t', by rw [hy, Option.bind_some, hg], hR'⟩

theorem value {v w : Option B} {f : B → Option (A × S)} {g : B → Option (A × T)}
    (h : ∀ b, v = some b → w = some b) (hk : ∀ b, Refines R (f b) (g b)) :
    Refines R (v.bind f) (w.bind g) := by
  intro a s hs
  obtain ⟨b, hv, hf⟩ := Option.bind_eq_some_iff.mp hs
  rw [h b hv, Option.bind_some]
  exact hk b a s hf

theorem ite {c : Prop} [Decidable c] {x x' : Option (A × S)} {y y' : Option (A × T)}
    (h : c → Refines R x y) (h' : ¬ c → Refines R x' y') :
    Refines R (if c then x else x') (if c then y else y') := by
  split
  next hc => exact h hc
  next hc => exact h' hc

end Refines

/-! ## Both or neither -/

variable {C D : Type} {R : C → D → Prop}

theorem rel_bind {S : A → B → Prop} {x : Option A} {y : Option B} {f : A → Option C}
    {g : B → Option D} (h : Option.Rel S x y) (hfg : ∀ a b, S a b → Option.Rel R (f a) (g b)) :
    Option.Rel R (x >>= f) (y >>= g) := by
  cases h with
  | none => exact .none
  | some h => exact hfg _ _ h

theorem rel_ite {p : Prop} [Decidable p] {x x' : Option C} {y y' : Option D}
    (hx : p → Option.Rel R x y) (hx' : ¬p → Option.Rel R x' y') :
    Option.Rel R (if p then x else x') (if p then y else y') := by
  split
  next hp => exact hx hp
  next hp => exact hx' hp

theorem rel_same (x : Option A) {f : A → Option C} {g : A → Option D}
    (hfg : ∀ a, Option.Rel R (f a) (g a)) : Option.Rel R (x >>= f) (x >>= g) := by
  cases x with
  | none => exact .none
  | some a => exact hfg a

end EFramework.Lib
