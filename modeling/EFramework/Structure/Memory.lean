import EFramework.Lib.Smear

/-! # Allocation, strings and capacity rounding

The allocator is an oracle: a finite list of outcomes, one for each coming
`malloc` or `realloc`, after which requests succeed. Quantifying over the list
lets any pattern of allocations fail. Two counters record how many requests a
run has made and how many of them returned NULL, so that "nothing was allocated"
and "no allocation failed" can be said of a run.
-/

namespace EFramework

abbrev Bytes := List UInt8

/-- The allocator as a run of the program sees it. -/
structure Heap where
  outcomes : List Bool
  calls : Nat
  failures : Nat
deriving Repr, DecidableEq

namespace Heap

/-- One request, which can only succeed when it `fits`: does it return a block,
and the allocator after it. -/
def request (m : Heap) (fits : Bool) : Bool × Heap :=
  let ok := m.outcomes.headD true && fits
  (ok, ⟨m.outcomes.tail, m.calls + 1, m.failures + if ok then 0 else 1⟩)

def malloc (m : Heap) : Bool × Heap := m.request true

/-- `malloc` of a computed size, which may be 0. -/
def mallocOf (m : Heap) (size : Nat) : Bool × Heap := m.request (decide (size < 2 ^ 63))

/-- `malloc` or `realloc` of a computed size. No object is larger than
`PTRDIFF_MAX`, and `realloc` to size 0 releases the block and returns NULL. -/
def alloc (m : Heap) (size : Nat) : Bool × Heap :=
  m.request (decide (0 < size ∧ size < 2 ^ 63))

theorem mallocOf_eq_alloc {size : Nat} (h : 0 < size) (m : Heap) : m.mallocOf size = m.alloc size := by
  unfold mallocOf alloc
  simp only [h, true_and]

theorem request_failures (m : Heap) (fits : Bool) :
    (m.request fits).2.failures = m.failures + if (m.request fits).1 then 0 else 1 := rfl

theorem failures_le_request (m : Heap) (fits : Bool) :
    m.failures ≤ (m.request fits).2.failures := by
  rw [request_failures]
  omega

theorem request_ok {m : Heap} {fits : Bool}
    (h : (m.request fits).2.failures = m.failures) : (m.request fits).1 = true := by
  rw [request_failures] at h
  by_contra hne
  rw [if_neg hne] at h
  omega

theorem alloc_failures (m : Heap) (size : Nat) :
    (m.alloc size).2.failures = m.failures + if (m.alloc size).1 then 0 else 1 := rfl

theorem alloc_size {m : Heap} {size : Nat} (h : (m.alloc size).1 = true) :
    0 < size ∧ size < 2 ^ 63 := by
  simp only [alloc, request, Bool.and_eq_true, decide_eq_true_eq] at h
  exact h.2

def Willing (m : Heap) : Prop := ∀ ok ∈ m.outcomes, ok = true

structure Granted (m m' : Heap) : Prop where
  willing : m'.Willing
  failures : m'.failures = m.failures

theorem Willing.refl {m : Heap} (h : m.Willing) : m.Granted m := ⟨h, rfl⟩

theorem Granted.trans {m m' m'' : Heap} (h : m.Granted m') (h' : m'.Granted m'') :
    m.Granted m'' :=
  ⟨h'.willing, h'.failures.trans h.failures⟩

theorem Willing.request {m : Heap} (h : m.Willing) :
    (m.request true).1 = true ∧ m.Granted (m.request true).2 := by
  have hok : (m.request true).1 = true := by
    unfold Heap.request
    cases ho : m.outcomes with
    | nil => rfl
    | cons ok rest => simp [h ok (by simp [ho])]
  refine ⟨hok, fun ok hmem => h ok (List.mem_of_mem_tail hmem), ?_⟩
  rw [request_failures, if_pos hok]
  rfl

end Heap

def crlf : Bytes := [13, 10]

/-! ## `ef_string_t` -/

/-- The `len` bytes of an `ef_string_t`; the NUL stored behind them is not content. -/
structure EfString where
  str : Bytes
deriving Repr, DecidableEq

def EfString.len (s : EfString) : Nat := s.str.length

def strlen (sz : Bytes) : Nat := (sz.takeWhile (· ≠ 0)).length

theorem strlen_append_lt {a b : Bytes} : strlen (a ++ b) < a.length ↔ 0 ∈ a := by
  induction a with
  | nil => simp
  | cons x a ih =>
      by_cases hx : x = 0
      · simp [strlen, hx]
      · have hstep : strlen (x :: a ++ b) = strlen (a ++ b) + 1 := by
          simp [strlen, hx]
        rw [hstep, List.length_cons, Nat.add_lt_add_iff_right, ih]
        simp [Ne.symm hx]

/-- `sz` is the memory from the pointer on, `none` for a NULL pointer. A zero
`len` stands for the C string at `sz`. -/
def efStringNew (sz : Option Bytes) (len : Nat) (m : Heap) : Option EfString × Heap :=
  let (ok, m) := m.malloc
  if ok then
    let len := if len = 0 then (match sz with | some p => strlen p | none => 0) else len
    let (ok, m) := m.alloc (len + 1)
    if ok then (some ⟨(sz.getD []).take len⟩, m) else (none, m)
  else (none, m)

/-- The length a string made from the memory `p` gets. -/
def stringLen (p : Bytes) (len : Nat) : Nat := if len = 0 then strlen p else len

/-- A string with a NUL behind it has the length that is given. -/
theorem stringLen_append_nul (bs rest : Bytes) :
    stringLen (bs ++ 0 :: rest) bs.length = bs.length := by
  cases bs with
  | nil => rfl
  | cons c bs => exact if_neg (by simp)

/-- The string made, which needs a block of its own. -/
theorem efStringNew_eq_none_or (p : Bytes) (len : Nat) (m : Heap) :
    (efStringNew (some p) len m).1 = none ∨
      ((efStringNew (some p) len m).1 = some ⟨p.take (stringLen p len)⟩ ∧
        stringLen p len + 1 < 2 ^ 63) := by
  unfold efStringNew
  dsimp only
  rw [show (if len = 0 then strlen p else len) = stringLen p len from rfl]
  split
  · split
    next h => exact Or.inr ⟨rfl, (Heap.alloc_size h).2⟩
    next => exact Or.inl rfl
  · exact Or.inl rfl

/-- Without a failed allocation the string is made. -/
theorem efStringNew_failures (p : Bytes) (len : Nat) (m : Heap) :
    m.failures ≤ (efStringNew (some p) len m).2.failures ∧
      ((efStringNew (some p) len m).2.failures = m.failures →
        (efStringNew (some p) len m).1 = some ⟨p.take (stringLen p len)⟩) := by
  have h₁ := m.request_failures true
  have h₂ := (m.request true).2.alloc_failures (stringLen p len + 1)
  unfold efStringNew
  dsimp only [Heap.malloc]
  rw [show (if len = 0 then strlen p else len) = stringLen p len from rfl]
  generalize (m.request true).2.alloc (stringLen p len + 1) = r at h₂ ⊢
  cases hb₁ : (m.request true).1 <;> cases hb₂ : r.1 <;>
    simp only [hb₁, hb₂, Bool.false_eq_true, if_false, if_true] at h₁ h₂ ⊢ <;>
    exact ⟨by omega, fun he => by first | rfl | omega⟩

theorem efStringNew_granted {p : Bytes} {len : Nat} {m : Heap} (h : m.Willing)
    (hlen : stringLen p len + 1 < 2 ^ 63) : m.Granted (efStringNew (some p) len m).2 := by
  obtain ⟨hok₁, h₁⟩ := h.request
  obtain ⟨hok₂, h₂⟩ := h₁.willing.request
  have hfits : decide (0 < stringLen p len + 1 ∧ stringLen p len + 1 < 2 ^ 63) = true := by
    simp only [decide_eq_true_eq]
    omega
  unfold efStringNew
  dsimp only [Heap.malloc]
  rw [hok₁, if_pos rfl, show (if len = 0 then strlen p else len) = stringLen p len from rfl,
    Heap.alloc, hfits, hok₂]
  exact h₁.trans h₂

/-! ## `ef_resize` -/

/-- The or-shift cascade over a 64-bit `size_t`. -/
def smear64 (n : Nat) : Nat :=
  let n := n ||| n >>> 1
  let n := n ||| n >>> 2
  let n := n ||| n >>> 4
  let n := n ||| n >>> 8
  let n := n ||| n >>> 16
  n ||| n >>> 32

theorem smear64_eq {n : Nat} (hn : n < 2 ^ 64) : smear64 n = 2 ^ n.size - 1 :=
  (((((((Lib.Window.one n).step).step).step).step).step).step).full hn

/-- `size -= 1` and `size + 1` wrap around in `size_t`. -/
def efResize (size min : Nat) : Nat :=
  let size := if size < min then min else size
  (smear64 ((size + (2 ^ 64 - 1)) % 2 ^ 64) + 1) % 2 ^ 64

theorem efResize_eq {size min : Nat} (hpos : 1 ≤ max size min) (hle : max size min ≤ 2 ^ 63) :
    efResize size min = 2 ^ (max size min - 1).size := by
  have hmax : (if size < min then min else size) = max size min := by
    split <;> omega
  have hwrap : (max size min + (2 ^ 64 - 1)) % 2 ^ 64 = max size min - 1 := by omega
  have hsize : (max size min - 1).size ≤ 63 := by
    rw [Nat.size_le]
    omega
  have hpow : 2 ^ (max size min - 1).size ≤ 2 ^ 63 := Nat.pow_le_pow_right (by decide) hsize
  have hone := Nat.two_pow_pos (max size min - 1).size
  unfold efResize
  simp only [hmax, hwrap]
  rw [smear64_eq (by omega), Nat.sub_add_cancel hone, Nat.mod_eq_of_lt (by omega)]

/-- Above half the address space the rounded size wraps to zero. -/
theorem efResize_wrap {size : Nat} (hlo : 2 ^ 63 < size) (hhi : size < 2 ^ 64) :
    efResize size 0 = 0 := by
  have hwrap : (size + (2 ^ 64 - 1)) % 2 ^ 64 = size - 1 := by omega
  have hsize : (size - 1).size = 64 := by
    apply Nat.le_antisymm
    · rw [Nat.size_le]
      omega
    · have : 63 < (size - 1).size := by
        rw [Nat.lt_size]
        omega
      omega
  unfold efResize
  simp only [Nat.not_lt_zero, if_false, hwrap]
  rw [smear64_eq (by omega), hsize]
  rfl

/-- The result is the least power of two that is not below both numbers. It is a `size_t`, and the
addition at the end does not wrap around. -/
theorem ef_resize_least {size min : Nat} (hpos : 1 ≤ max size min)
    (hle : max size min ≤ 2 ^ 63) :
    (∃ k, efResize size min = 2 ^ k ∧ max size min ≤ 2 ^ k ∧
      ∀ j, max size min ≤ 2 ^ j → 2 ^ k ≤ 2 ^ j) ∧
      efResize size min = smear64 (max size min - 1) + 1 ∧ efResize size min < 2 ^ 64 := by
  obtain ⟨hge, hleast⟩ := Lib.size_pow_bounds (max size min - 1)
  rw [Nat.sub_add_cancel hpos] at hge hleast
  have hone := Nat.two_pow_pos (max size min - 1).size
  have hlt : 2 ^ (max size min - 1).size < 2 ^ 64 :=
    Nat.lt_of_le_of_lt (hleast 63 hle) (by decide)
  rw [efResize_eq hpos hle, smear64_eq (by omega), Nat.sub_add_cancel hone]
  exact ⟨⟨_, rfl, hge, hleast⟩, rfl, hlt⟩

/-- One more than a power of two. -/
theorem ef_resize_least_five : (∃ k, efResize 5 3 = 2 ^ k ∧ 5 ≤ 2 ^ k ∧
    ∀ j, 5 ≤ 2 ^ j → 2 ^ k ≤ 2 ^ j) ∧ efResize 5 3 = smear64 4 + 1 ∧ efResize 5 3 < 2 ^ 64 :=
  @ef_resize_least 5 3 (by decide) (by decide)

end EFramework
