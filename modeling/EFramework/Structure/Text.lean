import EFramework.Lib.CInt
import EFramework.Lib.CString
import EFramework.Structure.Buffer

/-! # Text in blocks of memory

The functions of `string.h` and `basic.c` work on the text behind a position of a block;
reading or writing behind the end of the block is `none`.
-/

namespace EFramework

open Lib

/-! ## `string.h` -/

def toInt32 (n : Int) : Int := Int.bmod n (2 ^ 32)

theorem toInt32_eq {n : Nat} (h : n < 2 ^ 31) : toInt32 n = n :=
  Int.bmod_eq_of_le (by omega) (by omega)

theorem toInt32_wrap {n : Nat} (h₁ : 2 ^ 31 ≤ n) (h₂ : n < 2 ^ 32) :
    toInt32 n = (n : Int) - 2 ^ 32 := by
  rw [toInt32, Int.bmod_def]
  split <;> omega

def sizeT (n : Int) : Nat := (n % 2 ^ 64).toNat

theorem sizeT_natCast {n : Nat} (h : n < 2 ^ 64) : sizeT n = n := by
  unfold sizeT
  omega

def strstr (text : Bytes) (pat : Bytes) : Option (Option Nat) := CString.find 0 pat text

def storeAt (mem : Bytes) (off : Nat) (bs : Bytes) : Option Bytes :=
  if off + bs.length ≤ mem.length then some (writeAt mem off bs) else none

def strncpyBytes : Bytes → Nat → Option Bytes
  | _, 0 => some []
  | [], _ + 1 => none
  | c :: text, n + 1 =>
      if c = 0 then some (List.replicate (n + 1) 0) else (strncpyBytes text n).map (c :: ·)

/-- `strncpy(dst + off, text, n)`. -/
def strncpy (dst : Bytes) (off : Nat) (text : Bytes) (n : Nat) : Option Bytes := do
  storeAt dst off (← strncpyBytes text n)

def strcpy (mem : Bytes) (pos : Nat) (s : Bytes) : Option Bytes := storeAt mem pos (s ++ [0])

def strcat (mem : Bytes) (pos : Nat) (s : Bytes) : Option Bytes := do
  let text ← CString.content 0 (mem.drop pos)
  strcpy mem (pos + text.length) s

/-! ## Lines -/

theorem strstr_line {s : Bytes} (hnul : 0 ∉ s) (hcrlf : ¬ crlf <:+: s) (rest : Bytes) :
    strstr (s ++ (crlf ++ rest)) crlf = some (some s.length) := by
  induction s with
  | nil => exact CString.find_self 13 [10] rest
  | cons c s ih =>
      rw [List.mem_cons, not_or] at hnul
      have hnot : ¬ crlf <:+: s := fun h => hcrlf (h.trans (List.suffix_cons c s).isInfix)
      have hstart : CString.startsWith crlf (c :: (s ++ (crlf ++ rest))) = some false := by
        by_cases hc : c = 13
        · subst hc
          cases s with
          | nil => rfl
          | cons d s =>
              have hd : d ≠ 10 := by
                rintro rfl
                exact hcrlf ⟨[], s, rfl⟩
              simp [CString.startsWith, crlf, hd]
        · exact CString.startsWith_of_ne hc
      unfold strstr at ih ⊢
      rw [List.cons_append, CString.find, hstart]
      dsimp only
      rw [if_neg (Ne.symm hnul.1), ih hnul.2 hnot]
      rfl

theorem crlf_not_infix_of_not_mem {l : Bytes} (h : 13 ∉ l) : ¬ crlf <:+: l :=
  fun hin => h (hin.subset List.mem_cons_self)

theorem crlf_infix_cons {c : UInt8} (hc : c ≠ 13) {l : Bytes} :
    crlf <:+: c :: l ↔ crlf <:+: l := by
  rw [List.infix_cons_iff, crlf, List.cons_prefix_cons]
  simp [Ne.symm hc]

/-- No line break is added by bytes that do not end one. -/
theorem crlf_not_infix_append {a b : Bytes} (ha : ¬ crlf <:+: a) (hb : ¬ crlf <:+: b)
    (hhead : b.head? ≠ some 10) : ¬ crlf <:+: a ++ b := by
  rintro ⟨s, t, h⟩
  rw [List.append_assoc] at h
  rcases List.append_eq_append_iff.mp h with ⟨l, ha', hl⟩ | ⟨l, -, hl⟩
  · rcases l with _ | ⟨c, _ | ⟨d, l⟩⟩
    · exact hb ⟨[], t, hl⟩
    · simp only [crlf, List.cons_append, List.nil_append, List.cons.injEq] at hl
      exact hhead (by rw [← hl.2]; rfl)
    · simp only [crlf, List.cons_append, List.nil_append, List.cons.injEq] at hl
      refine ha ⟨s, l, ?_⟩
      rw [ha', ← hl.1, ← hl.2.1, List.append_assoc]
      rfl
  · exact hb ⟨l, t, by rw [hl, List.append_assoc]⟩

theorem exists_crlf {l : Bytes} (h : crlf <:+: l) :
    ∃ s t, l = s ++ (crlf ++ t) ∧ ¬ crlf <:+: s := by
  induction l with
  | nil => simp [crlf] at h
  | cons c l ih =>
      by_cases hpre : crlf <+: c :: l
      · obtain ⟨t, ht⟩ := hpre
        exact ⟨[], t, ht.symm, by simp [crlf]⟩
      · obtain ⟨s, t, rfl, hs⟩ := ih ((List.infix_cons_iff.mp h).resolve_left hpre)
        refine ⟨c :: s, t, rfl, fun hin => ?_⟩
        rcases List.infix_cons_iff.mp hin with hin | hin
        · exact hpre (hin.trans ⟨crlf ++ t, rfl⟩)
        · exact hs hin
theorem crlf_infix_map {f : UInt8 → UInt8} (hf : ∀ c, (f c = 13 ↔ c = 13) ∧ (f c = 10 ↔ c = 10))
    {l : Bytes} : crlf <:+: l.map f ↔ crlf <:+: l := by
  constructor
  · rintro ⟨s, t, h⟩
    rw [List.append_assoc, eq_comm, List.map_eq_append_iff] at h
    obtain ⟨l₁, l₂, rfl, -, h⟩ := h
    obtain ⟨l₃, l₄, rfl, h, -⟩ := List.map_eq_append_iff.mp h
    rcases l₃ with _ | ⟨c, _ | ⟨d, _ | ⟨e, l₃⟩⟩⟩ <;> simp [crlf, hf] at h
    obtain ⟨rfl, rfl⟩ := h
    exact ⟨l₁, l₄, List.append_assoc ..⟩
  · intro h
    have hcrlf : crlf.map f = crlf := by
      simp [crlf, (hf 13).1, (hf 10).2]
    rw [← hcrlf]
    exact h.map f

/-! ## What the copies leave -/

/-- A text with NULs behind its first NUL. -/
def padded : Bytes → Bytes
  | [] => []
  | c :: text => if c = 0 then List.replicate (text.length + 1) 0 else c :: padded text

theorem length_padded (text : Bytes) : (padded text).length = text.length := by
  induction text with
  | nil => rfl
  | cons c text ih =>
      rw [padded]
      split
      · exact List.length_replicate
      · rw [List.length_cons, ih, List.length_cons]

theorem strncpyBytes_length {text bytes : Bytes} {n : Nat}
    (h : strncpyBytes text n = some bytes) : bytes.length = n := by
  induction n generalizing text bytes with
  | zero =>
      rw [strncpyBytes] at h
      cases h
      rfl
  | succ n ih =>
      cases text with
      | nil => cases h
      | cons c text =>
          rw [strncpyBytes] at h
          split at h
          · cases h
            exact List.length_replicate
          · obtain ⟨bytes', hbytes, rfl⟩ := Option.map_eq_some_iff.mp h
            rw [List.length_cons, ih hbytes]

/-- What is stored for some text does not depend on what is behind it. -/
theorem strncpyBytes_append (text rest : Bytes) :
    strncpyBytes (text ++ rest) text.length = some (padded text) := by
  induction text with
  | nil => cases rest <;> rfl
  | cons c text ih =>
      rw [List.cons_append, List.length_cons, strncpyBytes, ih, padded]
      split <;> rfl

/-- A text is copied as it is if its NULs are the last bytes of it. -/
theorem padded_eq_self {text : Bytes} :
    padded text = text ↔ ∃ t n, 0 ∉ t ∧ text = t ++ List.replicate n 0 := by
  constructor
  · intro h
    induction text with
    | nil => exact ⟨[], 0, List.not_mem_nil, rfl⟩
    | cons c text ih =>
        rw [padded] at h
        split at h
        next => exact ⟨[], text.length + 1, List.not_mem_nil, h.symm⟩
        next hc =>
          obtain ⟨t, n, ht, htext⟩ := ih (List.cons.inj h).2
          refine ⟨c :: t, n, ?_, by rw [htext, List.cons_append]⟩
          rw [List.mem_cons, not_or]
          exact ⟨Ne.symm hc, ht⟩
  · rintro ⟨t, n, ht, rfl⟩
    induction t with
    | nil =>
        cases n with
        | zero => rfl
        | succ n =>
            rw [List.nil_append, List.replicate_succ, padded, if_pos rfl, List.length_replicate,
              List.replicate_succ]
    | cons c t ih =>
        rw [List.mem_cons, not_or] at ht
        rw [List.cons_append, padded, if_neg (Ne.symm ht.1), ih ht.2]

theorem padded_of_not_mem {text : Bytes} (h : 0 ∉ text) : padded text = text :=
  padded_eq_self.mpr ⟨text, 0, h, (List.append_nil text).symm⟩

theorem storeAt_start (bs mem : Bytes) : storeAt mem 0 bs =
    if bs.length ≤ mem.length then some (bs ++ mem.drop bs.length) else none := by
  unfold storeAt writeAt
  rw [Nat.zero_add, List.take_zero, List.nil_append]

theorem storeAt_length {mem mem' bs : Bytes} {off : Nat} (h : storeAt mem off bs = some mem') :
    mem'.length = mem.length := by
  unfold storeAt at h
  split at h
  · cases h
    exact writeAt_length ‹_›
  · cases h

theorem storeAt_append (t old bs rest : Bytes) (h : old.length = bs.length) :
    storeAt (t ++ (old ++ rest)) t.length bs = some (t ++ (bs ++ rest)) := by
  unfold storeAt
  rw [if_pos (by simp only [List.length_append]; omega), writeAt, List.take_left, ← h,
    ← List.drop_drop, List.drop_left, List.drop_left, List.append_assoc]

theorem storeAt_cons (t : Bytes) (b c : UInt8) (rest : Bytes) :
    storeAt (t ++ b :: rest) t.length [c] = some (t ++ c :: rest) :=
  storeAt_append t [b] [c] rest rfl

/-- A string and its NUL are stored if there is room for them. -/
theorem strcpy_append (t : Bytes) (b : UInt8) (rest s : Bytes) :
    strcpy (t ++ b :: rest) t.length s =
      if s.length ≤ rest.length then some ((t ++ s) ++ 0 :: rest.drop s.length) else none := by
  by_cases h : s.length ≤ rest.length
  · have hold : (b :: rest.take s.length).length = (s ++ [0]).length := by
      simp only [List.length_cons, List.length_append, List.length_take, List.length_nil]
      omega
    have hsplit : b :: rest = (b :: rest.take s.length) ++ rest.drop s.length := by
      rw [List.cons_append, List.take_append_drop]
    rw [if_pos h, strcpy, hsplit, storeAt_append _ _ _ _ hold]
    simp
  · rw [if_neg h, strcpy, storeAt, if_neg]
    simp only [List.length_append, List.length_cons, List.length_nil]
    omega

theorem strcat_append (t rest s : Bytes) :
    strcat (t ++ 0 :: rest) t.length s =
      if s.length ≤ rest.length then some ((t ++ s) ++ 0 :: rest.drop s.length) else none := by
  unfold strcat
  rw [List.drop_left, CString.content, if_pos rfl]
  exact strcpy_append t 0 rest s

theorem strcat_text {text : Bytes} (h : (0 : UInt8) ∉ text) (rest s : Bytes) :
    strcat (text ++ 0 :: rest) 0 s =
      if s.length ≤ rest.length then some ((text ++ s) ++ 0 :: rest.drop s.length) else none := by
  unfold strcat
  rw [List.drop_zero, CString.content_append h, CString.content, if_pos rfl, Option.map_some,
    List.append_nil, Option.bind_eq_bind, Option.bind_some, Nat.zero_add]
  exact strcpy_append text 0 rest s

theorem strcat_of_not_mem {mem : Bytes} (h : (0 : UInt8) ∉ mem) (s : Bytes) :
    strcat mem 0 s = none := by
  have hnone : CString.content 0 mem = none := by
    have := CString.content_append h []
    rwa [List.append_nil] at this
  unfold strcat
  rw [List.drop_zero, hnone]
  rfl

theorem strcat_length {mem mem' s : Bytes} {pos : Nat} (h : strcat mem pos s = some mem') :
    s.length < mem.length ∧ mem'.length = mem.length := by
  obtain ⟨text, -, h⟩ := Option.bind_eq_some_iff.mp h
  refine ⟨?_, storeAt_length h⟩
  unfold strcpy storeAt at h
  split at h
  · rw [List.length_append, List.length_singleton] at *
    omega
  · cases h

theorem content_append_nul {s : Bytes} (h : (0 : UInt8) ∉ s) :
    CString.content 0 (s ++ [0]) = some s := by
  rw [CString.content_append h, CString.content, if_pos rfl]
  simp

/-! ## `basic.c` -/

/-- `n * base + (*s - '0')`. -/
def digitStep (base n : Int) (c : UInt8) : Option Int := do
  let n ← asLong (n * base)
  asLong (n + (c.toInt8.toInt - 48))

/-- `str2int` and `hexstr2int`; the end is `len` behind `s`, or before it. -/
def text2int (base : Int) (s : Bytes) (len : Int) : Option Int := do
  let c ← s.head?
  let digits := (s.take len.toNat).drop (if c = 45 then 1 else 0)
  if len ≤ s.length then
    let n ← digits.foldlM (digitStep base) 0
    if c = 45 then asLong (-n) else pure n
  else none

def str2int : Bytes → Int → Option Int := text2int 10

def hexstr2int : Bytes → Int → Option Int := text2int 16

theorem text2int_of_nonpos (base : Int) (s : Bytes) {len : Int} (h : len ≤ 0) :
    text2int base s len = s.head?.map (fun _ => 0) := by
  unfold text2int
  cases s with
  | nil => rfl
  | cons c s =>
      have hzero : len.toNat = 0 := by omega
      have hle : len ≤ ((c :: s).length : Nat) := by omega
      simp only [List.head?_cons, Option.bind_eq_bind, Option.bind_some, hzero, List.take_zero,
        List.drop_nil, List.foldlM_nil, if_pos hle, Option.pure_def, Option.map_some]
      split <;> rfl

def toLower (c : UInt8) : UInt8 := if 65 ≤ c ∧ c ≤ 90 then 97 + (c - 65) else c

theorem toLower_eq_iff {c d : UInt8} (hd : d < 65) : toLower c = d ↔ c = d := by
  unfold toLower
  split
  next h =>
    have hsub := UInt8.toNat_sub_of_le c 65 h.1
    have hadd := UInt8.toNat_add 97 (c - 65)
    simp only [← UInt8.toNat_inj, UInt8.le_iff_toNat_le, UInt8.lt_iff_toNat_lt,
      UInt8.reduceToNat] at *
    omega
  next => rfl

theorem toLower_toLower (c : UInt8) : toLower (toLower c) = toLower c := by
  by_cases h : 65 ≤ c ∧ c ≤ 90
  · have hsub := UInt8.toNat_sub_of_le c 65 h.1
    have hadd := UInt8.toNat_add 97 (c - 65)
    rw [toLower, toLower, if_pos h, if_neg]
    simp only [UInt8.le_iff_toNat_le, UInt8.reduceToNat] at *
    omega
  · rw [toLower, toLower, if_neg h, if_neg h]

/-- The index is an `int`, which must not overflow. -/
def strtolower (mem : Bytes) (s len : Nat) : Option Bytes :=
  if len < 2 ^ 31 then storeAt mem s (((mem.drop s).take len).map toLower) else none

end EFramework
