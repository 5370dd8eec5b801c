import EFramework.Redis.Decoding

/-! # Integer replies

The digit loop takes a minus sign for a digit, and adds the code of a character before it
subtracts 48. It returns the numbers that are not negative and not within 48 of `2 ^ 63`.
-/

namespace EFramework

open Lib

/-! ## The digit loop -/

theorem longStep_value {m k : Int} {d : Nat} (hd : d < 10)
    (h : longStep m (UInt8.ofNat (48 + d)) = some k) : k = m * 10 + d ∧ k + 48 < 2 ^ 63 := by
  unfold longStep asLong at h
  rw [digit_toInt hd] at h
  obtain ⟨a, ha, h⟩ := Option.bind_eq_some_iff.mp h
  obtain ⟨b, hb, h⟩ := Option.bind_eq_some_iff.mp h
  split at ha <;> cases ha
  split at hb <;> cases hb
  split at h <;> cases h
  omega

/-! ## The reply -/

def signedDecimal (n : Int) : Bytes :=
  if n < 0 then 45 :: decimal n.natAbs else decimal n.natAbs

def integerLine (n : Int) : Bytes := 58 :: (signedDecimal n ++ crlf)

theorem signedDecimal_text {n : Int} {c : UInt8} (h : c ∈ signedDecimal n) : c ≠ 0 ∧ c ≠ 13 := by
  have hdigit : ∀ c ∈ decimal n.natAbs, c ≠ 0 ∧ c ≠ 13 := by
    intro c hc
    have hle := (digit_mem hc).1
    constructor <;> rintro rfl <;> exact absurd hle (by decide)
  unfold signedDecimal at h
  split at h
  · rcases List.mem_cons.mp h with rfl | h
    · decide
    · exact hdigit c h
  · exact hdigit c h

/-- The digit loop on the text of a number. -/
theorem foldlM_signedDecimal {n : Int} :
    (signedDecimal n).foldlM longStep 0 = some n ↔ 0 ≤ n ∧ n + 48 < 2 ^ 63 := by
  have hpow := lt_pow_length_decimal n.natAbs
  constructor
  · intro h
    unfold signedDecimal at h
    split at h
    next hneg =>
      -- the sign counts as -3
      have hsign : longStep 0 45 = some (-3) := by decide
      rw [List.foldlM_cons, hsign, Option.bind_eq_bind, Option.bind_some] at h
      have hvalue := (foldlM_decimal_value (fun _ _ _ => longStep_value) h).1
      have hpow' : (n.natAbs : Int) < 10 ^ (decimal n.natAbs).length := by exact_mod_cast hpow
      omega
    next hpos =>
      exact ⟨Int.not_lt.mp hpos, (foldlM_decimal_value (fun _ _ _ => longStep_value) h).2⟩
  · rintro ⟨hpos, hlt⟩
    obtain ⟨k, rfl⟩ := Int.eq_ofNat_of_zero_le hpos
    rw [signedDecimal, if_neg (by omega), Int.natAbs_natCast,
      foldlM_decimal (longStep_addsDigit (by omega))]

def RepliesInteger (parse : Nat → Option (RedisReply × RedisConnection)) (con : RedisConnection)
    (n : Int) : Prop :=
  ∃ fuel con', parse fuel = some (.long n, con') ∧ con'.seek = con.seek + (integerLine n).length

variable {more : RedisConnection → Option (Int × RedisConnection)} {con : RedisConnection}
  {buf : Nat} {n : Int}

theorem parseLong_integerLine {rest : Bytes} (htext : con.text buf = integerLine n ++ rest)
    (hheap : con.heap.Willing) :
    RepliesInteger (fun fuel => parseLong more fuel buf con) con n ↔
      0 ≤ n ∧ n + 48 < 2 ^ 63 := by
  obtain ⟨con₁, hmalloc, h₁⟩ := con.malloc_willing hheap (show sizeofReply < 2 ^ 63 by decide)
  have htext₁ : con₁.text buf = (58 :: signedDecimal n) ++ (crlf ++ rest) := by
    rw [RedisConnection.text, h₁.buf, ← RedisConnection.text, htext, integerLine]
    simp
  have hcr : 13 ∉ signedDecimal n := fun h => (signedDecimal_text h).2 rfl
  have hmem : ∀ c ∈ 58 :: signedDecimal n, c ≠ 0 ∧ c ≠ 13 := by
    intro c hc
    rcases List.mem_cons.mp hc with rfl | hc
    · decide
    · exact signedDecimal_text hc
  have hfound := strstr_line (fun h => (hmem 0 h).1 rfl)
    (fun h => (hmem 13 (h.subset List.mem_cons_self)).2 rfl) rest
  rw [← htext₁] at hfound
  have hdigits : con₁.text (buf + 1) = signedDecimal n ++ 13 :: (10 :: rest) := by
    rw [con₁.text_add, htext₁]
    rfl
  have hlen : (integerLine n).length = (signedDecimal n).length + 1 + 2 := by
    simp [integerLine, crlf]
  have hrun : ∀ fuel, parseLong more (fuel + 1) buf con =
      ((signedDecimal n).foldlM longStep 0).map (fun m => (.long m,
        { con₁ with seek := con₁.seek + (integerLine n).length }.mark)) := by
    intro fuel
    unfold parseLong
    rw [hmalloc]
    dsimp only
    rw [if_pos rfl, awaitLine_of_found hfound, Option.bind_eq_bind, Option.bind_some]
    dsimp only
    rw [hdigits, scanDigits_line hcr, hlen]
    rcases (signedDecimal n).foldlM longStep 0 with _ | m <;> rfl
  rw [← foldlM_signedDecimal]
  constructor
  · rintro ⟨fuel, con', hparse, -⟩
    cases fuel with
    | zero =>
        unfold parseLong at hparse
        rw [hmalloc] at hparse
        cases hparse
    | succ fuel =>
        replace hparse := (hrun fuel).symm.trans hparse
        obtain ⟨m, hm, hrep⟩ := Option.map_eq_some_iff.mp hparse
        simp only [Prod.mk.injEq, RedisReply.long.injEq] at hrep
        rw [hm, hrep.1]
  · intro hn
    refine ⟨1, { con₁ with seek := con₁.seek + (integerLine n).length }.mark, (hrun 0).trans ?_, ?_⟩
    · rw [hn]
      rfl
    · change con₁.seek + _ = _
      rw [h₁.seek]
      rfl

/-- At the top level and in an array, a number comes back if it is not negative and the digit loop
does not overflow on it. -/
theorem redis_integer {rest : Bytes} (htext : con.text buf = integerLine n ++ rest)
    (hheap : con.heap.Willing) :
    (RepliesInteger (fun fuel => parseLong more fuel buf con) con n ↔
      0 ≤ n ∧ n + 48 < 2 ^ 63) ∧
    (RepliesInteger (fun fuel => parseElem more fuel (parseArray more fuel) 58 buf con) con n ↔
      0 ≤ n ∧ n + 48 < 2 ^ 63) ∧
    (buf = 0 → (RepliesInteger (fun fuel => parseReply more fuel con) con n ↔
      0 ≤ n ∧ n + 48 < 2 ^ 63)) := by
  refine ⟨parseLong_integerLine htext hheap, parseLong_integerLine htext hheap, ?_⟩
  rintro rfl
  have htype : con.buf[0]? = some 58 := RedisConnection.getElem?_of_text htext
  have hcall : ∀ fuel, parseReply more fuel con = parseLong more fuel 0 con := by
    intro fuel
    rw [parseReply, htype]
    rfl
  simp only [hcall]
  exact parseLong_integerLine htext hheap

/-- `":12"`. -/
theorem redis_integer_twelve :
    RepliesInteger (fun fuel => parseLong replyReadMore fuel 0
      ⟨[58, 49, 50, 13, 10, 0, 0, 0], 0, 5, [], ⟨[], 0, 0⟩, []⟩)
      ⟨[58, 49, 50, 13, 10, 0, 0, 0], 0, 5, [], ⟨[], 0, 0⟩, []⟩ 12 := by
  have htext : (⟨[58, 49, 50, 13, 10, 0, 0, 0], 0, 5, [], ⟨[], 0, 0⟩, []⟩ :
      RedisConnection).text 0 = integerLine 12 ++ [0, 0, 0] := by decide
  exact (redis_integer htext (fun ok hok => absurd hok List.not_mem_nil)).1.mpr
    ⟨by decide, by decide⟩

/-- `":-1"` is returned as -29. -/
theorem redis_integer_negative :
    (parseLong replyReadMore 1 0 ⟨[58, 45, 49, 13, 10, 0, 0, 0], 0, 5, [], ⟨[], 0, 0⟩, []⟩).map
      (fun r => (r.1, r.2.seek)) = some (.long (-29), 5) ∧
    ¬ RepliesInteger (fun fuel => parseLong replyReadMore fuel 0
      ⟨[58, 45, 49, 13, 10, 0, 0, 0], 0, 5, [], ⟨[], 0, 0⟩, []⟩)
      ⟨[58, 45, 49, 13, 10, 0, 0, 0], 0, 5, [], ⟨[], 0, 0⟩, []⟩ (-1) := by
  refine ⟨rfl, ?_⟩
  rintro ⟨fuel, con', hparse, -⟩
  cases fuel with
  | zero => cases hparse
  | succ fuel => cases hparse

end EFramework
