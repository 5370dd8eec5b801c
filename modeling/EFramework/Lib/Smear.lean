import Mathlib.Data.Nat.Size
import Mathlib.Data.Nat.Bitwise

/-! # Rounding up to a power of two by smearing bits

The usual cascade `n |= n >> 1; n |= n >> 2; n |= n >> 4; …` copies every set
bit into all lower positions. `Window w n m` says how far the copying has got:
bit `i` of `m` is set exactly when one of the bits `i, …, i + w - 1` of `n` is.
One step doubles the window; once it covers the word, `m + 1` is the least power
of two above `n`.
-/

namespace EFramework.Lib

/-- Bit `i` of `m` collects the `w` bits of `n` from `i` upwards. -/
def Window (w n m : Nat) : Prop :=
  ∀ i, m.testBit i = true ↔ ∃ j, i ≤ j ∧ j < i + w ∧ n.testBit j = true

theorem Window.one (n : Nat) : Window 1 n n := by
  intro i
  constructor
  · intro h
    exact ⟨i, Nat.le_refl i, by omega, h⟩
  · rintro ⟨j, hij, hji, hj⟩
    obtain rfl : j = i := by omega
    exact hj

/-- One step of the cascade doubles the window. -/
theorem Window.step {w n m : Nat} (h : Window w n m) :
    Window (2 * w) n (m ||| m >>> w) := by
  intro i
  simp only [Nat.testBit_or, Nat.testBit_shiftRight, Bool.or_eq_true, h i, h (w + i)]
  constructor
  · rintro (⟨j, hlo, hhi, hj⟩ | ⟨j, hlo, hhi, hj⟩)
    · exact ⟨j, hlo, by omega, hj⟩
    · exact ⟨j, by omega, by omega, hj⟩
  · rintro ⟨j, hlo, hhi, hj⟩
    by_cases hw : j < i + w
    · exact Or.inl ⟨j, hlo, hw, hj⟩
    · exact Or.inr ⟨j, by omega, by omega, hj⟩

/-- A window as wide as the word leaves a solid block of ones. -/
theorem Window.full {w n m : Nat} (h : Window w n m) (hn : n < 2 ^ w) :
    m = 2 ^ n.size - 1 := by
  apply Nat.eq_of_testBit_eq
  intro i
  rw [Nat.testBit_two_pow_sub_one, Bool.eq_iff_iff, h i, decide_eq_true_iff, Nat.lt_size]
  constructor
  · rintro ⟨j, hij, _, hj⟩
    exact Nat.le_trans (Nat.pow_le_pow_right (by decide) hij) (Nat.ge_two_pow_of_testBit hj)
  · intro hle
    obtain ⟨j, hij, hj⟩ := Nat.exists_ge_and_testBit_of_ge_two_pow hle
    refine ⟨j, hij, ?_, hj⟩
    have hjw : j < w := by
      have hlt : 2 ^ j < 2 ^ w := Nat.lt_of_le_of_lt (Nat.ge_two_pow_of_testBit hj) hn
      exact (Nat.pow_lt_pow_iff_right (by decide)).mp hlt
    omega

/-- The least power of two that is not below `n + 1`. -/
theorem size_pow_bounds (n : Nat) :
    n + 1 ≤ 2 ^ n.size ∧ ∀ k, n + 1 ≤ 2 ^ k → 2 ^ n.size ≤ 2 ^ k := by
  refine ⟨Nat.lt_size_self n, ?_⟩
  intro k hk
  exact Nat.pow_le_pow_right (by decide) (Nat.size_le.mpr hk)

end EFramework.Lib
