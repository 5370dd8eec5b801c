import Mathlib.Algebra.Ring.Int.Defs

/-! # Signed machine arithmetic

The value of an expression is a number in the range of its type, or there is none:
a signed overflow has no result.
-/

namespace EFramework.Lib

/-- The value of an expression of type `int`, with `none` for an overflow. -/
def asInt (n : Int) : Option Int := if -2 ^ 31 ≤ n ∧ n < 2 ^ 31 then some n else none

/-- The value of an expression of type `long`. -/
def asLong (n : Int) : Option Int := if -2 ^ 63 ≤ n ∧ n < 2 ^ 63 then some n else none

theorem asInt_eq {n : Int} (hlo : -2 ^ 31 ≤ n) (hhi : n < 2 ^ 31) : asInt n = some n :=
  if_pos ⟨hlo, hhi⟩

theorem asInt_eq_none {n : Int} (h : n < -2 ^ 31 ∨ 2 ^ 31 ≤ n) : asInt n = none :=
  if_neg (by omega)

theorem asLong_eq {n : Int} (hlo : -2 ^ 63 ≤ n) (hhi : n < 2 ^ 63) : asLong n = some n :=
  if_pos ⟨hlo, hhi⟩

theorem asLong_eq_none {n : Int} (h : 2 ^ 63 ≤ n) : asLong n = none :=
  if_neg (by omega)

end EFramework.Lib
