import Mathlib.Logic.Function.Basic

/-! # Runs of a transition system

A system is a partial step function over states and actions. A guard says which
actions its surroundings may take; an invariant is proved for one step and then
holds in every state that guarded steps reach.
-/

namespace EFramework.Lib

universe u v w

variable {S : Type u} {A : Type v}

/-- The states that guarded steps reach from an initial state. -/
inductive Reachable (init : S → Prop) (step : S → A → Option S) (guard : S → A → Prop) : S → Prop
  | init {s : S} : init s → Reachable init step guard s
  | step {s s' : S} {a : A} : Reachable init step guard s → guard s a → step s a = some s' →
      Reachable init step guard s'

/-- Initial states have the property, and guarded steps keep it. -/
structure Invariant (init : S → Prop) (step : S → A → Option S) (guard : S → A → Prop)
    (inv : S → Prop) : Prop where
  init : ∀ {s}, init s → inv s
  step : ∀ {s s' a}, inv s → guard s a → step s a = some s' → inv s'

variable {init : S → Prop} {step : S → A → Option S} {guard : S → A → Prop} {inv : S → Prop}

theorem Invariant.holds (h : Invariant init step guard inv) {s : S}
    (hs : Reachable init step guard s) : inv s := by
  induction hs with
  | init h₀ => exact h.init h₀
  | step _ hg he ih => exact h.step ih hg he

/-- Take the actions one after another, as long as the guard lets them through. -/
def run (step : S → A → Option S) (guard : S → A → Prop) [∀ s a, Decidable (guard s a)] :
    S → List A → Option S
  | s, [] => some s
  | s, a :: acts =>
      if guard s a then (step s a).bind (fun s => run step guard s acts) else none

theorem Reachable.run [∀ s a, Decidable (guard s a)] {acts : List A} {s s' : S}
    (hs : Reachable init step guard s) (h : Lib.run step guard s acts = some s') :
    Reachable init step guard s' := by
  induction acts generalizing s with
  | nil =>
      rw [Lib.run] at h
      cases h
      exact hs
  | cons a acts ih =>
      rw [Lib.run] at h
      split at h
      next hg =>
        obtain ⟨s₁, he, h₁⟩ := Option.bind_eq_some_iff.mp h
        exact ih (hs.step hg he) h₁
      next => cases h

/-! ## Segments of a run -/

/-- Each of the actions is let through in the state that it is taken in. -/
def Permits (step : S → A → Option S) (guard : S → A → Prop) : S → List A → Prop
  | _, [] => True
  | s, a :: acts => guard s a ∧ ∀ s' ∈ step s a, Permits step guard s' acts

instance decidablePermits [∀ s a, Decidable (guard s a)] :
    ∀ s acts, Decidable (Permits step guard s acts)
  | _, [] => isTrue trivial
  | s, a :: acts =>
      have (s' : S) : Decidable (Permits step guard s' acts) := decidablePermits s' acts
      inferInstanceAs (Decidable (guard s a ∧ ∀ s' ∈ step s a, Permits step guard s' acts))

theorem Permits.of_forall {acts : List A} (h : ∀ a ∈ acts, ∀ s, guard s a) (s : S) :
    Permits step guard s acts := by
  induction acts generalizing s with
  | nil => trivial
  | cons a acts ih =>
      exact ⟨h a List.mem_cons_self s,
        fun s' _ => ih (fun b hb => h b (List.mem_cons_of_mem a hb)) s'⟩

theorem Permits.and {guard' : S → A → Prop} {acts : List A} {s : S}
    (h : Permits step guard s acts) (h' : Permits step guard' s acts) :
    Permits step (fun s a => guard s a ∧ guard' s a) s acts := by
  induction acts generalizing s with
  | nil => trivial
  | cons a acts ih => exact ⟨⟨h.1, h'.1⟩, fun s' hs => ih (h.2 s' hs) (h'.2 s' hs)⟩

theorem Permits.keeps (inv : S → Prop) {acts : List A} {s s' : S}
    (hp : Permits step guard s acts)
    (hkeep : ∀ {s s' a}, inv s → guard s a → step s a = some s' → inv s') (h : inv s)
    (hr : acts.foldlM step s = some s') : inv s' := by
  induction acts generalizing s with
  | nil =>
      cases hr
      exact h
  | cons a acts ih =>
      rw [List.foldlM_cons] at hr
      obtain ⟨s₁, h₁, hr⟩ := Option.bind_eq_some_iff.mp hr
      exact ih (hp.2 s₁ h₁) (hkeep h hp.1 h₁) hr

/-! ## Records of a run -/

variable {E : Type w}

/-- The system together with a record of what its steps emit. -/
def logged (step : S → A → Option S) (emit : S → A → S → List E) (s : S × List E) (a : A) :
    Option (S × List E) :=
  (step s.1 a).map (fun s' => (s', s.2 ++ emit s.1 a s'))

theorem logged_eq_some {emit : S → A → S → List E} {s s' : S × List E} {a : A} :
    logged step emit s a = some s' ↔
      ∃ t, step s.1 a = some t ∧ s' = (t, s.2 ++ emit s.1 a t) := by
  unfold logged
  rw [Option.map_eq_some_iff]
  constructor <;> rintro ⟨t, h, rfl⟩ <;> exact ⟨t, h, rfl⟩

end EFramework.Lib
