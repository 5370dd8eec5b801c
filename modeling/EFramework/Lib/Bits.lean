import Mathlib.Data.Nat.Bitwise
import Mathlib.Tactic.Common

/-! # Masks

Numbers as sets of bits: two masks meet when they have a bit in common. The words without
their low bits are the multiples of a power of two.
-/

namespace EFramework.Lib

/-- The bits of `a` that are not in `b`. -/
def clearBits (a b : Nat) : Nat := a ^^^ (a &&& b)

theorem testBit_clearBits (a b i : Nat) :
    (clearBits a b).testBit i = (a.testBit i && !b.testBit i) := by
  unfold clearBits
  rw [Nat.testBit_xor, Nat.testBit_and]
  cases a.testBit i <;> cases b.testBit i <;> rfl

theorem and_ne_zero {a b : Nat} : a &&& b ≠ 0 ↔ ∃ i, a.testBit i = true ∧ b.testBit i = true := by
  constructor
  · intro h
    by_contra hno
    apply h
    apply Nat.eq_of_testBit_eq
    intro i
    rw [Nat.testBit_and, Nat.zero_testBit, Bool.and_eq_false_iff]
    by_contra hc
    rw [not_or, Bool.not_eq_false, Bool.not_eq_false] at hc
    exact hno ⟨i, hc⟩
  · rintro ⟨i, ha, hb⟩ hz
    have hbit := congrArg (fun n => n.testBit i) hz
    simp [ha, hb] at hbit

theorem and_ne_zero_mono {a b a' b' : Nat} (h : a &&& b ≠ 0)
    (ha : ∀ i, a.testBit i = true → a'.testBit i = true)
    (hb : ∀ i, b.testBit i = true → b'.testBit i = true) : a' &&& b' ≠ 0 := by
  obtain ⟨i, hai, hbi⟩ := and_ne_zero.mp h
  exact and_ne_zero.mpr ⟨i, ha i hai, hb i hbi⟩

/-! ## Low bits -/

section LowBits

variable {w k : Nat}

theorem toNat_lowMask (hk : k < w) : (BitVec.twoPow w k - 1).toNat = 2 ^ k - 1 := by
  have hlt : 2 ^ k < 2 ^ w := Nat.pow_lt_pow_right (by decide) hk
  have hpos : 0 < 2 ^ k := Nat.two_pow_pos k
  have hone : (1 : BitVec w).toNat = 1 := by
    change (BitVec.ofNat w 1).toNat = 1
    rw [BitVec.toNat_ofNat, Nat.mod_eq_of_lt (by omega)]
  rw [BitVec.toNat_sub_of_le, BitVec.toNat_twoPow_of_lt hk, hone]
  rw [BitVec.le_def, BitVec.toNat_twoPow_of_lt hk, hone]
  exact hpos

/-- The low bits of a word are its remainder. -/
theorem toNat_and_lowMask (hk : k < w) (x : BitVec w) :
    (x &&& (BitVec.twoPow w k - 1)).toNat = x.toNat % 2 ^ k := by
  rw [BitVec.toNat_and, toNat_lowMask hk, Nat.and_two_pow_sub_one_eq_mod]

theorem toNat_and_not_lowMask (hk : k < w) (x : BitVec w) :
    (x &&& ~~~(BitVec.twoPow w k - 1)).toNat = x.toNat - x.toNat % 2 ^ k := by
  have hshift : x.toNat - x.toNat % 2 ^ k = (x.toNat >>> k) <<< k := by
    have := Nat.div_add_mod x.toNat (2 ^ k)
    rw [Nat.shiftRight_eq_div_pow, Nat.shiftLeft_eq, Nat.mul_comm]
    omega
  rw [hshift]
  apply Nat.eq_of_testBit_eq
  intro i
  rw [BitVec.testBit_toNat, BitVec.getLsbD_and, BitVec.getLsbD_not,
    ← BitVec.testBit_toNat (BitVec.twoPow w k - 1), toNat_lowMask hk, Nat.testBit_two_pow_sub_one,
    Nat.testBit_shiftLeft, Nat.testBit_shiftRight, ← BitVec.testBit_toNat x]
  by_cases hi : k ≤ i
  · have hlow : decide (i < k) = false := decide_eq_false (Nat.not_lt.mpr hi)
    rw [Nat.add_sub_cancel' hi, hlow, decide_eq_true hi]
    by_cases hw : i < w
    · simp [hw]
    · have hbit : x.toNat.testBit i = false := by
        rw [BitVec.testBit_toNat]
        exact BitVec.getLsbD_of_ge x i (Nat.not_lt.mp hw)
      simp [hbit]
  · have hlow : decide (i < k) = true := decide_eq_true (Nat.not_le.mp hi)
    rw [hlow]
    simp [hi]

end LowBits

end EFramework.Lib
