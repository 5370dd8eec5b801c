import Mathlib.Logic.Function.Basic

/-! # Partial maps that undo each other

Two tables kept in step: one says what an index is for, the other which index a
thing has. Entering a pair in both, and taking it out of both, keeps them so.
-/

namespace EFramework.Lib

universe u v

variable {α : Type u} {β : Type v}

def Inverse (f : α → Option β) (g : β → Option α) : Prop := ∀ a b, f a = some b ↔ g b = some a

variable {f : α → Option β} {g : β → Option α} {a : α} {b : β}

theorem Inverse.empty : Inverse (fun _ : α => (none : Option β)) (fun _ => none) := by
  intro a b
  simp

variable [DecidableEq α] [DecidableEq β]

theorem Inverse.insert (h : Inverse f g) (ha : f a = none) (hb : g b = none) :
    Inverse (Function.update f a (some b)) (Function.update g b (some a)) := by
  intro a' b'
  rw [Function.update_apply, Function.update_apply]
  by_cases hea : a' = a <;> by_cases heb : b' = b
  · simp [hea, heb]
  · have : g b' ≠ some a := fun hg => by simp [(h a b').mpr hg] at ha
    simp only [hea, heb, if_true, if_false, this, iff_false, Option.some.injEq]
    exact fun h' => heb h'.symm
  · have : f a' ≠ some b := fun hf => by simp [(h a' b).mp hf] at hb
    simp only [hea, heb, if_true, if_false, this, false_iff, Option.some.injEq]
    exact fun h' => hea h'.symm
  · simp only [hea, heb, if_false]
    exact h a' b'

theorem Inverse.erase (h : Inverse f g) (hab : f a = some b) :
    Inverse (Function.update f a none) (Function.update g b none) := by
  intro a' b'
  rw [Function.update_apply, Function.update_apply]
  by_cases hea : a' = a <;> by_cases heb : b' = b
  · simp [hea, heb]
  · have : g b' ≠ some a := by
      intro hg
      rw [(h a b').mpr hg] at hab
      exact heb (Option.some.inj hab)
    simp [hea, heb, this]
  · have : f a' ≠ some b := by
      intro hf
      have hg := (h a b).mp hab
      rw [(h a' b).mp hf] at hg
      exact hea (Option.some.inj hg)
    simp [hea, heb, this]
  · simp only [hea, heb, if_false]
    exact h a' b'

end EFramework.Lib
