import Mathlib.Algebra.Group.Nat.Defs
import EFramework.Lib.CInt

/-! # Positional notation

The digits of a number are read from the left, each behind the number that is already there. A
digit is whatever has a weight. Reading is linear in the weights, and it does not lower the
number, so a number that has left the range of its type does not come back to it.
-/

namespace EFramework.Lib

variable {α : Type}

/-- The number `n` with more digits behind it. -/
def positional (base : Nat) (weight : α → Nat) (n : Nat) (ds : List α) : Nat :=
  ds.foldl (fun n d => n * base + weight d) n

variable {base : Nat} {f g : α → Nat}

@[simp] theorem positional_nil (n : Nat) : positional base f n [] = n := rfl

@[simp] theorem positional_cons (n : Nat) (d : α) (ds : List α) :
    positional base f n (d :: ds) = positional base f (n * base + f d) ds := rfl

theorem positional_add (m n : Nat) (ds : List α) :
    positional base (fun d => f d + g d) (m + n) ds =
      positional base f m ds + positional base g n ds := by
  induction ds generalizing m n with
  | nil => rfl
  | cons d ds ih =>
      have hdigit : (m + n) * base + (f d + g d) = (m * base + f d) + (n * base + g d) := by
        rw [Nat.add_mul]
        omega
      simp only [positional_cons, hdigit, ih]

theorem le_positional (hbase : 0 < base) (n : Nat) (ds : List α) :
    n ≤ positional base f n ds := by
  induction ds generalizing n with
  | nil => exact Nat.le_refl n
  | cons d ds ih =>
      calc n ≤ n * base := Nat.le_mul_of_pos_right n hbase
        _ ≤ n * base + f d := Nat.le_add_right _ _
        _ ≤ positional base f n (d :: ds) := ih _

theorem positional_eq_zero (hbase : 0 < base) (ds : List α) :
    positional base f 0 ds = 0 ↔ ∀ d ∈ ds, f d = 0 := by
  induction ds with
  | nil => simp
  | cons d ds ih =>
      rw [positional_cons, Nat.zero_mul, Nat.zero_add, List.forall_mem_cons]
      constructor
      · intro h
        have hd : f d = 0 := Nat.le_zero.mp (h ▸ le_positional hbase (f d) ds)
        rw [hd] at h
        exact ⟨hd, ih.mp h⟩
      · rintro ⟨hd, hds⟩
        rw [hd]
        exact ih.mpr hds

/-- Steps that overflow where the number with the next digit is out of range, and no earlier. -/
theorem foldlM_positional {step : Int → α → Option Int} (hbase : 0 < base) {ds : List α}
    (hstep : ∀ (n : Nat), ∀ d ∈ ds, n < 2 ^ 63 →
      step n d = asLong ((n * base + f d : Nat) : Int)) {n : Nat} (hn : n < 2 ^ 63) :
    ds.foldlM step (n : Int) = asLong (positional base f n ds) := by
  induction ds generalizing n with
  | nil => exact (asLong_eq (by omega) (by omega)).symm
  | cons d ds ih =>
      rw [List.foldlM_cons, hstep n d List.mem_cons_self hn, positional_cons]
      by_cases hlt : n * base + f d < 2 ^ 63
      · rw [asLong_eq (by omega) (by omega), Option.bind_eq_bind, Option.bind_some]
        exact ih (fun n d hd => hstep n d (List.mem_cons_of_mem _ hd)) hlt
      · have hle := @le_positional _ _ f hbase (n * base + f d) ds
        rw [asLong_eq_none (by omega), asLong_eq_none (by omega)]
        rfl

end EFramework.Lib
