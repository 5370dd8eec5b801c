import EFramework.Redis.Model

/-! # Replies on the wire

The replies that a server makes of its values, and what the line search and the digit
loops of the parsers make of their encodings.
-/

namespace EFramework

open Lib

inductive RedisValue where
  | int (n : Nat)
  | bulk (s : Bytes)
  | null
  | arr (vs : List RedisValue)

inductive RedisMessage where
  | simple (s : Bytes)
  | value (v : RedisValue)

def decimal (n : Nat) : Bytes := (Nat.toDigits 10 n).map (fun c => UInt8.ofNat c.toNat)

/-- `$n\r\n`, or `*n\r\n`. -/
def header (type : UInt8) (n : Nat) : Bytes := type :: (decimal n ++ crlf)

mutual

def RedisValue.encode : RedisValue → Bytes
  | .int n => header 58 n
  | .bulk s => header 36 s.length ++ (s ++ crlf)
  | .null => [36, 45, 49, 13, 10]
  | .arr vs => header 42 vs.length ++ RedisValue.encodes vs

def RedisValue.encodes : List RedisValue → Bytes
  | [] => []
  | v :: vs => v.encode ++ RedisValue.encodes vs

end

def RedisMessage.encode : RedisMessage → Bytes
  | .simple s => 43 :: (s ++ crlf)
  | .value v => v.encode

mutual

def RedisValue.reply : RedisValue → RedisReply
  | .int n => .long n
  | .bulk s => .str s s.length
  | .null => .null
  | .arr vs => .arr vs.length (RedisValue.replies vs)

def RedisValue.replies : List RedisValue → List RedisReply
  | [] => []
  | v :: vs => v.reply :: RedisValue.replies vs

end

def RedisMessage.reply : RedisMessage → RedisReply
  | .simple s => .str s s.length
  | .value v => v.reply

mutual

/-- Numbers that the digit loop does not overflow on, and bulk strings without a NUL. -/
def RedisValue.Valid : RedisValue → Prop
  | .int n => n + 48 < 2 ^ 63
  | .bulk s => 0 ∉ s
  | .null => True
  | .arr vs => RedisValue.AllValid vs

def RedisValue.AllValid : List RedisValue → Prop
  | [] => True
  | v :: vs => v.Valid ∧ RedisValue.AllValid vs

end

def RedisMessage.Valid : RedisMessage → Prop
  | .simple s => 0 ∉ s ∧ ¬ crlf <:+: s
  | .value v => v.Valid

/-! ## Digits -/

theorem digitChar_byte {d : Nat} (h : d < 10) :
    UInt8.ofNat (Nat.digitChar d).toNat = UInt8.ofNat (48 + d) := by
  have hall : ∀ d < 10, UInt8.ofNat (Nat.digitChar d).toNat = UInt8.ofNat (48 + d) := by decide
  exact hall d h

theorem decimal_of_lt {n : Nat} (h : n < 10) : decimal n = [UInt8.ofNat (48 + n)] := by
  rw [decimal, Nat.toDigits_of_lt_base h, List.map_singleton, digitChar_byte h]

theorem decimal_of_le {n : Nat} (h : 10 ≤ n) :
    decimal n = decimal (n / 10) ++ [UInt8.ofNat (48 + n % 10)] := by
  rw [decimal, Nat.toDigits_of_base_le (by decide) h, List.map_append, List.map_singleton,
    digitChar_byte (Nat.mod_lt n (by decide))]
  rfl

theorem digit_mem {n : Nat} {c : UInt8} (h : c ∈ decimal n) : 48 ≤ c ∧ c ≤ 57 := by
  induction n using Nat.strongRecOn with
  | ind n ih =>
      have hdigit : ∀ d < 10, 48 ≤ UInt8.ofNat (48 + d) ∧ UInt8.ofNat (48 + d) ≤ 57 := by decide
      by_cases hn : n < 10
      · rw [decimal_of_lt hn, List.mem_singleton] at h
        rw [h]
        exact hdigit n hn
      · rw [decimal_of_le (Nat.not_lt.mp hn)] at h
        rcases List.mem_append.mp h with h | h
        · exact ih (n / 10) (by omega) h
        · rw [List.mem_singleton.mp h]
          exact hdigit (n % 10) (by omega)

theorem decimal_ne_nil (n : Nat) : decimal n ≠ [] := by
  intro h
  exact Nat.toDigits_ne_nil (List.map_eq_nil_iff.mp h)

theorem scanDigits_line {step : Int → UInt8 → Option Int} {l : Bytes} (hl : 13 ∉ l) (n : Int)
    (rest : Bytes) :
    scanDigits step (l ++ 13 :: rest) n = (l.foldlM step n).map (fun m => (m, l.length)) := by
  induction l generalizing n with
  | nil => rfl
  | cons c l ih =>
      rw [List.mem_cons, not_or] at hl
      rw [List.cons_append, scanDigits, if_neg (Ne.symm hl.1), List.foldlM_cons]
      rcases step n c with _ | m
      · rfl
      · simp only [Option.bind_eq_bind, Option.bind_some, ih hl.2]
        rcases l.foldlM step m with _ | k <;> rfl

def AddsDigit (step : Int → UInt8 → Option Int) (n : Nat) : Prop :=
  ∀ m d : Nat, d < 10 → m * 10 + d ≤ n → step m (UInt8.ofNat (48 + d)) = some ((m * 10 + d : Nat) : Int)

theorem foldlM_decimal {step : Int → UInt8 → Option Int} {n : Nat} (h : AddsDigit step n) :
    (decimal n).foldlM step 0 = some (n : Int) := by
  induction n using Nat.strongRecOn with
  | ind n ih =>
      by_cases hn : n < 10
      · have hstep := h 0 n hn (by omega)
        rw [Nat.zero_mul, Nat.zero_add, Nat.cast_zero] at hstep
        rw [decimal_of_lt hn, List.foldlM_cons, hstep]
        rfl
      · have hstep := h (n / 10) (n % 10) (by omega) (by omega)
        rw [decimal_of_le (Nat.not_lt.mp hn), List.foldlM_append,
          ih (n / 10) (by omega) (fun m d hd hle => h m d hd (by omega)), Option.bind_eq_bind,
          Option.bind_some, List.foldlM_cons, hstep, Nat.div_add_mod']
        rfl

theorem scanDigits_decimal {step : Int → UInt8 → Option Int} {n : Nat} (h : AddsDigit step n)
    (rest : Bytes) :
    scanDigits step (decimal n ++ 13 :: rest) 0 = some ((n : Int), (decimal n).length) := by
  have hcr : 13 ∉ decimal n := fun hmem => absurd (digit_mem hmem).1 (by decide)
  rw [scanDigits_line hcr, foldlM_decimal h]
  rfl

theorem lt_pow_length_decimal (n : Nat) : n < 10 ^ (decimal n).length := by
  induction n using Nat.strongRecOn with
  | ind n ih =>
      by_cases hn : n < 10
      · rw [decimal_of_lt hn]
        exact hn
      · have := ih (n / 10) (by omega)
        rw [decimal_of_le (Nat.not_lt.mp hn), List.length_append, List.length_singleton,
          Nat.pow_succ]
        omega

theorem foldlM_decimal_value {step : Int → UInt8 → Option Int} {bounded : Int → Prop}
    (hstep : ∀ (m k : Int) (d : Nat), d < 10 → step m (UInt8.ofNat (48 + d)) = some k →
      k = m * 10 + d ∧ bounded k)
    {n : Nat} {x y : Int} (h : (decimal n).foldlM step x = some y) :
    y = x * 10 ^ (decimal n).length + n ∧ bounded y := by
  induction n using Nat.strongRecOn generalizing y with
  | ind n ih =>
      by_cases hn : n < 10
      · rw [decimal_of_lt hn, List.foldlM_cons] at h
        obtain ⟨k, hk, hy⟩ := Option.bind_eq_some_iff.mp h
        obtain rfl := Option.some.inj hy
        rw [decimal_of_lt hn]
        exact hstep x k n hn hk
      · rw [decimal_of_le (Nat.not_lt.mp hn), List.foldlM_append] at h
        obtain ⟨m, hm, h⟩ := Option.bind_eq_some_iff.mp h
        rw [List.foldlM_cons] at h
        obtain ⟨k, hk, hy⟩ := Option.bind_eq_some_iff.mp h
        obtain rfl := Option.some.inj hy
        obtain ⟨hvalue, hbounded⟩ := hstep m k (n % 10) (Nat.mod_lt n (by decide)) hk
        have hprefix := (ih (n / 10) (by omega) hm).1
        refine ⟨?_, hbounded⟩
        rw [decimal_of_le (Nat.not_lt.mp hn), List.length_append, List.length_singleton, hvalue,
          hprefix, Int.pow_succ, Int.add_mul, Int.mul_assoc]
        omega

theorem digit_toInt {d : Nat} (h : d < 10) : (UInt8.ofNat (48 + d)).toInt8.toInt = 48 + d := by
  have hall : ∀ d < 10, (UInt8.ofNat (48 + d)).toInt8.toInt = 48 + (d : Int) := by decide
  exact hall d h

theorem longStep_addsDigit {n : Nat} (h : n + 48 < 2 ^ 63) : AddsDigit longStep n := by
  intro m d hd hle
  unfold longStep
  rw [digit_toInt hd, asLong_eq (by omega) (by omega), Option.bind_eq_bind, Option.bind_some,
    asLong_eq (by omega) (by omega), Option.bind_some, asLong_eq (by omega) (by omega)]
  congr 1
  omega

theorem lenStep_addsDigit {n : Nat} (h : n < 2 ^ 31) : AddsDigit lenStep n := by
  intro m d hd hle
  unfold lenStep
  rw [digit_toInt hd, asInt_eq (by omega) (by omega), Option.bind_eq_bind, Option.bind_some,
    asInt_eq (by omega) (by omega)]
  congr 1
  omega

theorem lenStep_value {m k : Int} {d : Nat} (hd : d < 10)
    (h : lenStep m (UInt8.ofNat (48 + d)) = some k) : k = m * 10 + d ∧ k < 2 ^ 31 := by
  unfold lenStep asInt at h
  rw [digit_toInt hd] at h
  obtain ⟨a, ha, h⟩ := Option.bind_eq_some_iff.mp h
  split at ha <;> cases ha
  split at h <;> cases h
  omega

theorem parseLen_digits {type : UInt8} (htype : type = 36 ∨ type = 42) (n : Nat) (rest : Bytes) :
    parseLen (header type n ++ rest) = (decimal n).foldlM lenStep 0 := by
  obtain ⟨c, l, hdecimal⟩ := List.exists_cons_of_ne_nil (decimal_ne_nil n)
  have hc : c ≠ 45 := by
    rintro rfl
    exact absurd (digit_mem (hdecimal ▸ List.mem_cons_self)).1 (by decide)
  have hcr : 13 ∉ decimal n := fun hmem => absurd (digit_mem hmem).1 (by decide)
  have htext : header type n ++ rest = type :: (decimal n ++ 13 :: 10 :: rest) := by
    simp [header, crlf]
  unfold parseLen
  rw [htext, List.drop_one, List.tail_cons, scanDigits_line hcr]
  generalize (decimal n).foldlM lenStep 0 = len
  rw [hdecimal]
  rcases htype with rfl | rfl <;> cases len <;> simp [hc]

theorem parseLen_header {type : UInt8} (htype : type = 36 ∨ type = 42) {n : Nat} (h : n < 2 ^ 31)
    (rest : Bytes) : parseLen (header type n ++ rest) = some (n : Int) := by
  rw [parseLen_digits htype, foldlM_decimal (lenStep_addsDigit h)]

/-- A length that is not an `int` is not computed. -/
theorem parseLen_header_none {type : UInt8} (htype : type = 36 ∨ type = 42) {n : Nat}
    (h : 2 ^ 31 ≤ n) (rest : Bytes) : parseLen (header type n ++ rest) = none := by
  rw [parseLen_digits htype, Option.eq_none_iff_forall_ne_some]
  intro len hlen
  obtain ⟨hvalue, hlt⟩ := foldlM_decimal_value (fun _ _ _ => lenStep_value) hlen
  omega

/-! ## Lines -/

theorem strstr_header {type : UInt8} (htype : type ≠ 0 ∧ type ≠ 13) (n : Nat) (rest : Bytes) :
    strstr (header type n ++ rest) crlf = some (some ((decimal n).length + 1)) := by
  have hmem : ∀ c ∈ type :: decimal n, c ≠ 0 ∧ c ≠ 13 := by
    intro c hc
    rcases List.mem_cons.mp hc with rfl | hc
    · exact htype
    · have h := (digit_mem hc).1
      constructor <;> rintro rfl <;> exact absurd h (by decide)
  have hnul : 0 ∉ type :: decimal n := fun h => (hmem 0 h).1 rfl
  have hcrlf : ¬ crlf <:+: type :: decimal n := fun h =>
    (hmem 13 (h.subset List.mem_cons_self)).2 rfl
  have hline := strstr_line hnul hcrlf rest
  rw [List.length_cons] at hline
  rw [← hline]
  simp [header]

end EFramework
