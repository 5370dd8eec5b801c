import EFramework.Lib.Run
import Mathlib.Logic.Relation

/-! # Simulations

A relation between the states of two systems is a simulation when each guarded step of
the first system is answered by guarded steps of the second one, which may be none. Then
whatever is true of all states that the second system reaches says something about each
state that the first one reaches.
-/

namespace EFramework.Lib

universe u v w x y z

variable {S : Type u} {A : Type v} {T : Type w} {B : Type x} {U : Type y} {C : Type z}

/-- Guarded steps lead from one state to the other. -/
def Steps (step : S → A → Option S) (guard : S → A → Prop) : S → S → Prop :=
  Relation.ReflTransGen (fun s s' => ∃ a, guard s a ∧ step s a = some s')

section Steps

variable {init : S → Prop} {step : S → A → Option S} {guard : S → A → Prop} {s s' : S} {a : A}

theorem Steps.refl (s : S) : Steps step guard s s := Relation.ReflTransGen.refl

theorem Steps.one (hg : guard s a) (hs : step s a = some s') : Steps step guard s s' :=
  Relation.ReflTransGen.single ⟨a, hg, hs⟩

theorem Steps.tail {s₁ : S} (h : Steps step guard s s₁) (hg : guard s₁ a)
    (hs : step s₁ a = some s') : Steps step guard s s' :=
  Relation.ReflTransGen.tail h ⟨a, hg, hs⟩

theorem Reachable.steps (h : Reachable init step guard s) (hs : Steps step guard s s') :
    Reachable init step guard s' := by
  induction hs with
  | refl => exact h
  | tail _ hstep ih =>
      obtain ⟨a, hg, hs⟩ := hstep
      exact ih.step hg hs

end Steps

variable {init₁ : S → Prop} {step₁ : S → A → Option S} {guard₁ : S → A → Prop}
  {init₂ : T → Prop} {step₂ : T → B → Option T} {guard₂ : T → B → Prop}
  {init₃ : U → Prop} {step₃ : U → C → Option U} {guard₃ : U → C → Prop}
  {R : S → T → Prop} {R' : T → U → Prop}

/-- Every guarded step of the first system is answered by steps of the second one, in states
that this one reaches. -/
structure Simulation (init₁ : S → Prop) (step₁ : S → A → Option S) (guard₁ : S → A → Prop)
    (init₂ : T → Prop) (step₂ : T → B → Option T) (guard₂ : T → B → Prop)
    (R : S → T → Prop) : Prop where
  init : ∀ {s}, init₁ s → ∃ t, init₂ t ∧ R s t
  step : ∀ {s s' a t}, Reachable init₂ step₂ guard₂ t → R s t → guard₁ s a →
    step₁ s a = some s' → ∃ t', Steps step₂ guard₂ t t' ∧ R s' t'

namespace Simulation

/-- A state that is reached stands for one that the other system reaches. -/
theorem reachable (h : Simulation init₁ step₁ guard₁ init₂ step₂ guard₂ R) {s : S}
    (hs : Reachable init₁ step₁ guard₁ s) : ∃ t, Reachable init₂ step₂ guard₂ t ∧ R s t := by
  induction hs with
  | init h₀ =>
      obtain ⟨t, ht, hR⟩ := h.init h₀
      exact ⟨t, .init ht, hR⟩
  | step _ hg hs ih =>
      obtain ⟨t, ht, hR⟩ := ih
      obtain ⟨t', hsteps, hR'⟩ := h.step ht hR hg hs
      exact ⟨t', ht.steps hsteps, hR'⟩

theorem steps (h : Simulation init₁ step₁ guard₁ init₂ step₂ guard₂ R) {s s' : S} {t : T}
    (ht : Reachable init₂ step₂ guard₂ t) (hR : R s t) (hs : Steps step₁ guard₁ s s') :
    ∃ t', Steps step₂ guard₂ t t' ∧ R s' t' := by
  induction hs with
  | refl => exact ⟨t, .refl t, hR⟩
  | tail _ hstep ih =>
      obtain ⟨t₁, hsteps, hR₁⟩ := ih
      obtain ⟨a, hg, hs⟩ := hstep
      obtain ⟨t', hsteps', hR'⟩ := h.step (ht.steps hsteps) hR₁ hg hs
      exact ⟨t', hsteps.trans hsteps', hR'⟩

/-- Simulations compose. -/
theorem trans (h : Simulation init₁ step₁ guard₁ init₂ step₂ guard₂ R)
    (h' : Simulation init₂ step₂ guard₂ init₃ step₃ guard₃ R') :
    Simulation init₁ step₁ guard₁ init₃ step₃ guard₃
      (fun s u => ∃ t, Reachable init₂ step₂ guard₂ t ∧ R s t ∧ R' t u) := by
  refine ⟨fun h₀ => ?_, fun hu hR hg hs => ?_⟩
  · obtain ⟨t, ht, hR⟩ := h.init h₀
    obtain ⟨u, hu, hR'⟩ := h'.init ht
    exact ⟨u, hu, t, .init ht, hR, hR'⟩
  · obtain ⟨t, ht, hR, hR'⟩ := hR
    obtain ⟨t', hsteps, ht'⟩ := h.step ht hR hg hs
    obtain ⟨u', hsteps', hu'⟩ := h'.steps hu hR' hsteps
    exact ⟨u', hsteps', t', ht.steps hsteps, ht', hu'⟩

end Simulation

end EFramework.Lib
