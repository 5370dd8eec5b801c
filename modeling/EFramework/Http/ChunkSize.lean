import EFramework.Http.Body
import EFramework.Lib.Positional

/-! # The sizes of chunks

`hexstr2int` subtracts the code of `'0'` from a letter as well. So each letter of a size stands
for more than its digit, and the size is too large by that at the letter's place.
-/

namespace EFramework

open Lib

def excess (c : UInt8) : Nat := if c ≤ 57 then 0 else if c ≤ 70 then 7 else 39

theorem toInt8_toInt {c : UInt8} (h : c < 128) : c.toInt8.toInt = c.toNat := by
  have hlt : 2 * c.toBitVec.toNat < 2 ^ 8 := by
    have hc := UInt8.lt_iff_toNat_lt.mp h
    simp only [UInt8.reduceToNat] at hc
    simpa using (by omega : 2 * c.toNat < 2 ^ 8)
  exact BitVec.toInt_eq_toNat_of_lt hlt

theorem hexDigit_excess {c : UInt8} {d : Nat} (h : hexDigit c = some d) :
    c < 128 ∧ c.toNat = 48 + (d + excess c) := by
  unfold hexDigit at h
  unfold excess
  simp only [UInt8.le_iff_toNat_le, UInt8.lt_iff_toNat_lt, UInt8.reduceToNat] at *
  split at h
  · cases h
    rw [if_pos (by omega)]
    omega
  · split at h
    · cases h
      rw [if_neg (by omega), if_pos (by omega)]
      omega
    · split at h
      · cases h
        rw [if_neg (by omega), if_neg (by omega)]
        omega
      · cases h

theorem digitStep_hexDigit {c : UInt8} {d : Nat} (h : hexDigit c = some d) (n : Nat) :
    digitStep 16 n c = asLong ((n * 16 + (d + excess c) : Nat) : Int) := by
  obtain ⟨hascii, hcode⟩ := hexDigit_excess h
  unfold digitStep
  rw [toInt8_toInt hascii]
  by_cases hlt : (n : Int) * 16 < 2 ^ 63
  · rw [asLong_eq (by omega) hlt, Option.bind_eq_bind, Option.bind_some]
    congr 1
    omega
  · rw [asLong_eq_none (Int.not_lt.mp hlt), asLong_eq_none (by omega)]
    rfl

/-- A number of hexadecimal digits has only such digits. -/
theorem foldlM_hexDigit {s : Bytes} {m n : Nat}
    (h : s.foldlM (fun n c => (hexDigit c).map (n * 16 + ·)) m = some n) :
    (∀ c ∈ s, hexDigit c = some ((hexDigit c).getD 0)) ∧
      n = positional 16 (fun c => (hexDigit c).getD 0) m s := by
  induction s generalizing m with
  | nil =>
      cases h
      exact ⟨fun c hc => absurd hc List.not_mem_nil, rfl⟩
  | cons c s ih =>
      rw [List.foldlM_cons] at h
      obtain ⟨k, hk, h⟩ := Option.bind_eq_some_iff.mp h
      obtain ⟨d, hd, rfl⟩ := Option.map_eq_some_iff.mp hk
      obtain ⟨hdigits, hn⟩ := ih h
      rw [positional_cons, List.forall_mem_cons, hd, Option.getD_some]
      exact ⟨⟨rfl, hdigits⟩, hn⟩

theorem hexstr2int_eq {s : Bytes} {n : Nat} (hs : s ≠ []) (h : hexValue s = some n)
    (rest : Bytes) :
    hexstr2int (s ++ rest) s.length = asLong ((n + positional 16 excess 0 s : Nat) : Int) := by
  obtain ⟨hdigits, hn⟩ := foldlM_hexDigit h
  have hfold := @foldlM_positional _ 16 (fun c => (hexDigit c).getD 0 + excess c) (digitStep 16)
    (by decide) s (fun n c hc _ => digitStep_hexDigit (hdigits c hc) n) 0 (by decide)
  obtain ⟨c, text, rfl⟩ := List.exists_cons_of_ne_nil hs
  have hsign : c ≠ 45 := by
    rintro rfl
    cases hdigits 45 List.mem_cons_self
  rw [hn, ← positional_add, ← hfold]
  unfold hexstr2int text2int
  simp only [List.cons_append, List.head?_cons, Option.bind_eq_bind, Option.bind_some, hsign,
    if_false, Int.toNat_natCast, List.drop_zero]
  rw [if_pos (by simp), ← List.cons_append, List.take_left' rfl]
  exact Option.bind_fun_some _

/-- A size is read right if and only if none of its digits is a letter. -/
theorem hexstr2int_size {s : Bytes} {n : Nat} (hs : s ≠ []) (h : hexValue s = some n)
    (hn : n < 2 ^ 63) (rest : Bytes) :
    hexstr2int (s ++ rest) s.length = some (n : Int) ↔ ∀ c ∈ s, c ≤ 57 := by
  have hexcess : (∀ c ∈ s, c ≤ 57) ↔ positional 16 excess 0 s = 0 := by
    rw [positional_eq_zero (by decide)]
    refine forall₂_congr (fun c _ => ?_)
    unfold excess
    split
    next hc => exact iff_of_true hc rfl
    next hc => exact iff_of_false hc (by split <;> decide)
  rw [hexstr2int_eq hs h, hexcess]
  constructor
  · intro hsame
    have hrange := (Option.ite_none_right_eq_some.mp hsame).2
    have hcast := Option.some.inj hrange
    omega
  · intro hzero
    rw [hzero]
    exact asLong_eq (by omega) (by omega)

/-- `"10"` is 16. -/
theorem hexstr2int_size_sixteen : hexstr2int [49, 48, 13, 10] 2 = some 16 :=
  (@hexstr2int_size [49, 48] 16 (by decide) (by decide) (by omega) [13, 10]).mpr (by simp)

/-- `"a"` is 49. -/
theorem hexstr2int_size_letter : hexstr2int [97] 1 = some 49 ∧
    ¬ ∀ (s : Bytes) (n : Nat), s ≠ [] → s.length ≤ 16 → hexValue s = some n → n < 2 ^ 63 →
      hexstr2int s s.length = some (n : Int) := by
  have hletter : hexstr2int [97] 1 = some 49 := by decide
  refine ⟨hletter, fun hall => ?_⟩
  have hten := hall [97] 10 (by decide) (by decide) (by decide) (by omega)
  rw [List.length_singleton, Nat.cast_one, hletter] at hten
  cases hten

end EFramework
