import Mathlib.Data.List.Nodup
import Mathlib.Logic.Function.Basic

/-! # Singly linked chains through a successor map

A chain is a finite list of nodes reached from a head pointer by a successor
map, closed by a nil pointer. The map is total and the list is a ghost, so a
chain is a statement about an array of links rather than a data structure.
Determinism of the map makes the list unique and duplicate free; the frame,
push and unlink rules say how pointwise updates of the map rethread it.
-/

namespace EFramework.Lib

variable {α : Type}

/-- `Chain nil next p l`: following `next` from `p` visits exactly `l` and then `nil`. -/
def Chain (nil : α) (next : α → α) : α → List α → Prop
  | p, [] => p = nil
  | p, i :: l => p = i ∧ i ≠ nil ∧ Chain nil next (next i) l

namespace Chain

variable {nil p : α} {next next' : α → α} {l l' : List α}

@[simp] theorem nil_iff : Chain nil next p [] ↔ p = nil := Iff.rfl

@[simp] theorem cons_iff {i : α} :
    Chain nil next p (i :: l) ↔ p = i ∧ i ≠ nil ∧ Chain nil next (next i) l := Iff.rfl

theorem unique (h : Chain nil next p l) (h' : Chain nil next p l') : l = l' := by
  induction l generalizing p l' with
  | nil =>
      cases l' with
      | nil => rfl
      | cons j l' => exact absurd (h'.1.symm.trans h) h'.2.1
  | cons i l ih =>
      cases l' with
      | nil => exact absurd (h.1.symm.trans h') h.2.1
      | cons j l' =>
          obtain ⟨rfl, _, ht⟩ := h
          obtain ⟨rfl, _, ht'⟩ := h'
          rw [ih ht ht']

theorem eq_nil_of_head (h : Chain nil next nil l) : l = [] :=
  unique h (by simp)

theorem exists_cons_of_head (h : Chain nil next p l) (hp : p ≠ nil) :
    ∃ t, l = p :: t ∧ Chain nil next (next p) t := by
  cases l with
  | nil => exact absurd h hp
  | cons i l =>
      obtain ⟨rfl, _, ht⟩ := h
      exact ⟨l, rfl, ht⟩

theorem suffix {l₁ l₂ : List α} {i : α} (h : Chain nil next p (l₁ ++ i :: l₂)) :
    Chain nil next i (i :: l₂) := by
  induction l₁ generalizing p with
  | nil => exact ⟨rfl, h.2⟩
  | cons j l₁ ih => exact ih h.2.2

/-- A revisited node would have two chains of different lengths. -/
theorem nodup (h : Chain nil next p l) : l.Nodup := by
  induction l generalizing p with
  | nil => exact List.nodup_nil
  | cons i l ih =>
      refine List.nodup_cons.mpr ⟨?_, ih h.2.2⟩
      intro hi
      obtain ⟨l₁, l₂, rfl⟩ := List.append_of_mem hi
      have hshort : Chain nil next i (i :: l₂) := suffix h.2.2
      have hlong : Chain nil next i (i :: (l₁ ++ i :: l₂)) := ⟨rfl, h.2⟩
      have hlen := congrArg List.length (unique hshort hlong)
      simp only [List.length_cons, List.length_append] at hlen
      omega

/-- Frame rule: links outside the chain do not matter. -/
theorem congr (h : Chain nil next p l) (heq : ∀ i ∈ l, next' i = next i) :
    Chain nil next' p l := by
  induction l generalizing p with
  | nil => exact h
  | cons i l ih =>
      obtain ⟨rfl, hnil, ht⟩ := h
      refine ⟨rfl, hnil, ?_⟩
      rw [heq p (by simp)]
      exact ih ht (fun j hj => heq j (by simp [hj]))

variable [DecidableEq α]

theorem update_of_not_mem (h : Chain nil next p l) {i q : α} (hi : i ∉ l) :
    Chain nil (Function.update next i q) p l :=
  h.congr (fun j hj => Function.update_of_ne (fun he : j = i => hi (he ▸ hj)) q next)

theorem push (h : Chain nil next p l) {i : α} (hi : i ∉ l) (hnil : i ≠ nil) :
    Chain nil (Function.update next i p) i (i :: l) := by
  refine ⟨rfl, hnil, ?_⟩
  rw [Function.update_self]
  exact h.update_of_not_mem hi

theorem unlink {l₁ l₂ : List α} {i j : α} (h : Chain nil next p (l₁ ++ j :: i :: l₂)) :
    Chain nil (Function.update next j (next i)) p (l₁ ++ j :: l₂) := by
  induction l₁ generalizing p with
  | nil =>
      have hj : j ∉ l₂ := fun hm => (List.nodup_cons.mp h.nodup).1 (by simp [hm])
      obtain ⟨rfl, hnil, _, _, ht⟩ := h
      refine ⟨rfl, hnil, ?_⟩
      rw [Function.update_self]
      exact ht.update_of_not_mem hj
  | cons k l₁ ih =>
      have hk : k ≠ j := fun he => (List.nodup_cons.mp h.nodup).1 (by simp [he])
      obtain ⟨rfl, hnil, ht⟩ := h
      refine ⟨rfl, hnil, ?_⟩
      rw [Function.update_of_ne hk]
      exact ih ht

end Chain

end EFramework.Lib
