import EFramework.Lib.Bits

/-! # Stacks that grow

A fiber gets an area of memory, of which the highest page can be used. When it comes
to an address below, the pages from there on are added, but not the lowest one of the
area, which is the guard.
-/

namespace EFramework.Fiber

open Lib

structure FiberStack where
  stackSize : BitVec 64
  stackArea : BitVec 64
  stackUpper : BitVec 64
  stackLower : BitVec 64
deriving Repr, DecidableEq

/-- Which addresses can be read and written. -/
abbrev Access := BitVec 64 → Bool

def covers (addr len x : BitVec 64) : Bool := decide (x - addr < len)

/-- `addr & ~(page_size - 1)`. -/
def pageDown (pageSize addr : BitVec 64) : BitVec 64 := addr &&& ~~~(pageSize - 1)

def roundSize (pageSize stackSize : BitVec 64) : BitVec 64 :=
  pageDown pageSize ((if stackSize = 0 then pageSize else stackSize) + pageSize - 1)

/-- `mprotect` with `PROT_READ | PROT_WRITE`, if the system does it (`ok`). It takes the start of a
page, and all pages that hold some of the `len` bytes. -/
def mprotect (pageSize : BitVec 64) (ok : Bool) (access : Access) (addr len : BitVec 64) :
    Int × Access :=
  if ok ∧ addr &&& (pageSize - 1) = 0 then
    (0, fun x => access x || covers addr (pageDown pageSize (len + pageSize - 1)) x)
  else (-1, access)

/-- `stack` is what `mmap` returns. -/
def efFiberCreate (pageSize : BitVec 64) (stack : Option (BitVec 64)) (ok : Bool)
    (access : Access) (stackSize headerSize : BitVec 64) : Option FiberStack × Access :=
  let stackSize := roundSize pageSize stackSize
  match stack with
  | none => (none, access)
  | some stack =>
      let access : Access := fun x => access x && !covers stack stackSize x
      let (ret, access) := mprotect pageSize ok access (stack + stackSize - pageSize) pageSize
      if ret < 0 then (none, access)
      else (some ⟨stackSize, stack, stack + stackSize - headerSize, stack + stackSize - pageSize⟩,
        access)

def efFiberExpandStack (pageSize : BitVec 64) (ok : Bool) (fiber : FiberStack) (access : Access)
    (addr : BitVec 64) : Int × FiberStack × Access :=
  let lower := pageDown pageSize addr
  if pageSize.sle (lower - fiber.stackArea) ∧ lower < fiber.stackLower then
    let (ret, access) := mprotect pageSize ok access lower (fiber.stackLower - lower)
    if 0 ≤ ret then (ret, { fiber with stackLower := lower }, access) else (ret, fiber, access)
  else (-1, fiber, access)

def expandAll (pageSize : BitVec 64) :
    List (BitVec 64 × Bool) → FiberStack × Access → FiberStack × Access
  | [], st => st
  | (addr, ok) :: calls, (fiber, access) =>
      expandAll pageSize calls (efFiberExpandStack pageSize ok fiber access addr).2

/-! ## Pages -/

section Pages

variable {k : Nat}

theorem toNat_pageSize (hk : k < 63) : (BitVec.twoPow 64 k).toNat = 2 ^ k ∧ 2 ^ k < 2 ^ 63 :=
  ⟨BitVec.toNat_twoPow_of_lt (by omega), Nat.pow_lt_pow_right (by decide) hk⟩

theorem toNat_pageDown (hk : k < 63) (addr : BitVec 64) :
    (pageDown (BitVec.twoPow 64 k) addr).toNat = addr.toNat - addr.toNat % 2 ^ k :=
  toNat_and_not_lowMask (by omega) addr

theorem pageDown_round (hk : k < 63) {len : BitVec 64} (hlen : 2 ^ k ∣ len.toNat)
    (hlt : len.toNat ≤ 2 ^ 63) :
    pageDown (BitVec.twoPow 64 k) (len + BitVec.twoPow 64 k - 1) = len := by
  obtain ⟨hsize, hbound⟩ := toNat_pageSize hk
  have hpos : 0 < 2 ^ k := Nat.two_pow_pos k
  have hsum : (len + BitVec.twoPow 64 k - 1).toNat = len.toNat + (2 ^ k - 1) := by
    bv_omega
  apply BitVec.eq_of_toNat_eq
  obtain ⟨n, hn⟩ := hlen
  rw [toNat_pageDown hk, hsum, hn, Nat.mul_add_mod, Nat.mod_eq_of_lt (by omega)]
  omega

theorem page_aligned (hk : k < 63) (addr : BitVec 64) :
    addr &&& (BitVec.twoPow 64 k - 1) = 0 ↔ 2 ^ k ∣ addr.toNat := by
  rw [Nat.dvd_iff_mod_eq_zero, ← toNat_and_lowMask (show k < 64 by omega), ← BitVec.toNat_inj]
  rfl

/-- A multiple of a page is below an address if it is below the page of the address. -/
theorem le_sub_mod_of_dvd {p a n : Nat} (hp : 0 < p) (ha : p ∣ a) : a ≤ n ↔ a ≤ n - n % p := by
  refine ⟨fun h => ?_, fun h => Nat.le_trans h (Nat.sub_le n (n % p))⟩
  obtain ⟨q, rfl⟩ := ha
  have hq : q ≤ n / p := by rwa [Nat.le_div_iff_mul_le hp, Nat.mul_comm]
  have hmul := Nat.mul_le_mul_left p hq
  have hdiv := Nat.div_add_mod n p
  omega

theorem expand_condition (hk : k < 63) {stack lower : BitVec 64} (hstack : 2 ^ k ∣ stack.toNat)
    (hlower : 2 ^ k ∣ lower.toNat) (hle : stack.toNat ≤ lower.toNat)
    (hhalf : lower.toNat < 2 ^ 63) (addr : BitVec 64) :
    ((BitVec.twoPow 64 k).sle (pageDown (BitVec.twoPow 64 k) addr - stack) = true ∧
      pageDown (BitVec.twoPow 64 k) addr < lower) ↔
    stack.toNat + 2 ^ k ≤ addr.toNat ∧ addr.toNat < lower.toNat := by
  obtain ⟨hsize, hbound⟩ := toNat_pageSize hk
  have hpos : 0 < 2 ^ k := Nat.two_pow_pos k
  have hdown := toNat_pageDown hk addr
  have hguard := le_sub_mod_of_dvd hpos (Nat.dvd_add hstack (Nat.dvd_refl _)) (n := addr.toNat)
  have hbelow := le_sub_mod_of_dvd hpos hlower (n := addr.toNat)
  generalize pageDown (BitVec.twoPow 64 k) addr = down at hdown ⊢
  rw [BitVec.sle_iff_toInt_le, BitVec.lt_def, BitVec.toInt_eq_toNat_cond,
    BitVec.toInt_eq_toNat_cond, hsize, BitVec.toNat_sub]
  have hdownlt := down.isLt
  have hstacklt := stack.isLt
  omega

end Pages

/-! ## The guard -/

/-- A stack in the area of `size` bytes from `stack` on: what can be used of the area is what is
above `stack_lower`, and this leaves out the lowest page. -/
structure Guarded (pageSize stack size : BitVec 64) (st : FiberStack × Access) : Prop where
  stackArea : st.1.stackArea = stack
  stackSize : st.1.stackSize = size
  aligned : pageSize.toNat ∣ st.1.stackLower.toNat
  guard : stack.toNat + pageSize.toNat ≤ st.1.stackLower.toNat
  room : st.1.stackLower.toNat < stack.toNat + size.toNat
  header : st.1.stackLower ≤ st.1.stackUpper
  access : ∀ x, stack.toNat ≤ x.toNat → x.toNat < stack.toNat + size.toNat →
    (st.2 x = true ↔ st.1.stackLower ≤ x)

/-- A call grows the stack if the address is between the guard and the stack and the system does
what it asks for. -/
structure Grows (pageSize stack : BitVec 64) (st : FiberStack × Access) (addr : BitVec 64)
    (ok : Bool) (r : Int × FiberStack × Access) : Prop where
  ret : 0 ≤ r.1 ↔ (stack.toNat + pageSize.toNat ≤ addr.toNat ∧ addr < st.1.stackLower) ∧ ok = true
  access : 0 ≤ r.1 → r.2.2 addr = true
  lower : r.2.1.stackLower ≤ st.1.stackLower

/-- An area that `mmap` has returned: whole pages, in the lower half of the addresses. -/
structure Mapped (pageSize stack size : BitVec 64) : Prop where
  aligned : pageSize.toNat ∣ stack.toNat
  half : stack.toNat + size.toNat ≤ 2 ^ 63

section Guard

variable {k : Nat} {stack size : BitVec 64} {fiber : FiberStack} {access : Access}

theorem covers_iff {lower upper x : BitVec 64} (h : lower ≤ upper) :
    covers lower (upper - lower) x = true ↔ lower ≤ x ∧ x < upper := by
  rw [covers, decide_eq_true_iff]
  bv_omega

/-- A call, case by case. -/
theorem efFiberExpandStack_eq (hk : k < 63) (hmap : Mapped (BitVec.twoPow 64 k) stack size)
    (h : Guarded (BitVec.twoPow 64 k) stack size (fiber, access)) (addr : BitVec 64) (ok : Bool) :
    efFiberExpandStack (BitVec.twoPow 64 k) ok fiber access addr =
      if (stack.toNat + 2 ^ k ≤ addr.toNat ∧ addr.toNat < fiber.stackLower.toNat) ∧ ok = true then
        (0, { fiber with stackLower := pageDown (BitVec.twoPow 64 k) addr },
          fun x => access x || covers (pageDown (BitVec.twoPow 64 k) addr)
            (fiber.stackLower - pageDown (BitVec.twoPow 64 k) addr) x)
      else (-1, fiber, access) := by
  obtain ⟨hsize, hbound⟩ := toNat_pageSize hk
  have hstack := hmap.aligned
  have hlower := h.aligned
  have hguard := h.guard
  have hroom := h.room
  have hhalf := hmap.half
  rw [hsize] at hstack hlower hguard
  dsimp only at hlower hguard hroom
  have hcond := expand_condition hk hstack hlower (by omega) (by omega) addr
  have hdown := toNat_pageDown hk addr
  have hdvd : 2 ^ k ∣ (pageDown (BitVec.twoPow 64 k) addr).toNat := by
    rw [hdown]
    exact Nat.dvd_sub_mod addr.toNat
  have harea : fiber.stackArea = stack := h.stackArea
  unfold efFiberExpandStack
  rw [harea]
  dsimp only
  by_cases hin : stack.toNat + 2 ^ k ≤ addr.toNat ∧ addr.toNat < fiber.stackLower.toNat
  · have hlen : (fiber.stackLower - pageDown (BitVec.twoPow 64 k) addr).toNat =
        fiber.stackLower.toNat - (pageDown (BitVec.twoPow 64 k) addr).toNat :=
      BitVec.toNat_sub_of_le (by rw [BitVec.le_def]; omega)
    have hround := pageDown_round hk
      (show 2 ^ k ∣ (fiber.stackLower - pageDown (BitVec.twoPow 64 k) addr).toNat by
        rw [hlen]
        exact Nat.dvd_sub hlower hdvd) (by omega)
    rw [if_pos (hcond.mpr hin)]
    unfold mprotect
    rw [(page_aligned hk _).mpr hdvd, hround]
    cases ok with
    | true => simp [hin]
    | false => simp
  · rw [if_neg (fun hc => hin (hcond.mp hc)), if_neg (fun hc => hin hc.1)]

theorem Guarded.expand (hk : k < 63) (hmap : Mapped (BitVec.twoPow 64 k) stack size)
    {st : FiberStack × Access} (h : Guarded (BitVec.twoPow 64 k) stack size st) (addr : BitVec 64)
    (ok : Bool) :
    Guarded (BitVec.twoPow 64 k) stack size
        (efFiberExpandStack (BitVec.twoPow 64 k) ok st.1 st.2 addr).2 ∧
      Grows (BitVec.twoPow 64 k) stack st addr ok
        (efFiberExpandStack (BitVec.twoPow 64 k) ok st.1 st.2 addr) := by
  obtain ⟨fiber, access⟩ := st
  obtain ⟨hsize, hbound⟩ := toNat_pageSize hk
  have hpos : 0 < 2 ^ k := Nat.two_pow_pos k
  have hdown := toNat_pageDown hk addr
  have hstack := hmap.aligned
  rw [hsize] at hstack
  have hroom := h.room
  dsimp only at hroom ⊢
  rw [efFiberExpandStack_eq hk hmap h]
  split
  next hin =>
    obtain ⟨⟨hguard, hbelow⟩, hok⟩ := hin
    have hfloor := (le_sub_mod_of_dvd hpos (Nat.dvd_add hstack (Nat.dvd_refl _))).mp hguard
    rw [← hdown] at hfloor
    have hle : pageDown (BitVec.twoPow 64 k) addr ≤ addr := by
      rw [BitVec.le_def]
      omega
    have hlower : pageDown (BitVec.twoPow 64 k) addr ≤ fiber.stackLower := by
      rw [BitVec.le_def]
      omega
    refine ⟨⟨h.stackArea, h.stackSize, ?_, ?_, ?_, ?_, ?_⟩, ⟨?_, ?_, hlower⟩⟩
    · rw [hsize, hdown]
      exact Nat.dvd_sub_mod addr.toNat
    · rw [hsize]
      exact hfloor
    · rw [BitVec.le_def] at hlower
      dsimp only
      omega
    · exact BitVec.le_trans hlower h.header
    · intro x hx hlt
      have hold := h.access x hx hlt
      dsimp only at hold ⊢
      rw [Bool.or_eq_true, hold, covers_iff hlower]
      bv_omega
    · rw [hsize]
      exact ⟨fun _ => ⟨⟨hguard, hbelow⟩, hok⟩, fun _ => Int.le_refl 0⟩
    · intro _
      dsimp only
      rw [Bool.or_eq_true, covers_iff hlower]
      exact Or.inr ⟨hle, hbelow⟩
  next hin =>
    have hret : ¬ (0 : Int) ≤ -1 := by decide
    refine ⟨h, ⟨?_, fun hpos => absurd hpos hret, BitVec.le_refl _⟩⟩
    rw [hsize]
    exact ⟨fun hpos => absurd hpos hret, fun hc => absurd hc hin⟩

theorem Guarded.expandAll (hk : k < 63) (hmap : Mapped (BitVec.twoPow 64 k) stack size)
    (calls : List (BitVec 64 × Bool)) {st : FiberStack × Access}
    (h : Guarded (BitVec.twoPow 64 k) stack size st) :
    Guarded (BitVec.twoPow 64 k) stack size (expandAll (BitVec.twoPow 64 k) calls st) := by
  induction calls generalizing st with
  | nil => exact h
  | cons call calls ih => exact ih (h.expand hk hmap call.1 call.2).1

theorem Guarded.create (hk : k < 63) {stackSize headerSize : BitVec 64}
    (hmap : Mapped (BitVec.twoPow 64 k) stack (roundSize (BitVec.twoPow 64 k) stackSize))
    (hpages : 2 * 2 ^ k ≤ (roundSize (BitVec.twoPow 64 k) stackSize).toNat)
    (hheader : headerSize.toNat ≤ 2 ^ k) {ok : Bool} {before : Access}
    (h : efFiberCreate (BitVec.twoPow 64 k) (some stack) ok before stackSize headerSize =
      (some fiber, access)) :
    Guarded (BitVec.twoPow 64 k) stack (roundSize (BitVec.twoPow 64 k) stackSize)
      (fiber, access) := by
  obtain ⟨hpage, hbound⟩ := toNat_pageSize hk
  have hpos : 0 < 2 ^ k := Nat.two_pow_pos k
  have hsize : 2 ^ k ∣ (roundSize (BitVec.twoPow 64 k) stackSize).toNat := by
    rw [roundSize, toNat_pageDown hk]
    exact Nat.dvd_sub_mod _
  have hstack := hmap.aligned
  have hhalf := hmap.half
  rw [hpage] at hstack
  unfold efFiberCreate at h
  generalize roundSize (BitVec.twoPow 64 k) stackSize = size at *
  have htop : (stack + size - BitVec.twoPow 64 k).toNat = stack.toNat + size.toNat - 2 ^ k := by
    bv_omega
  have hdvd : 2 ^ k ∣ (stack + size - BitVec.twoPow 64 k).toNat := by
    rw [htop]
    exact Nat.dvd_sub (Nat.dvd_add hstack hsize) (Nat.dvd_refl _)
  have hround := pageDown_round hk (show 2 ^ k ∣ (BitVec.twoPow 64 k).toNat by rw [hpage])
    (by omega)
  unfold mprotect at h
  dsimp only at h
  rw [(page_aligned hk _).mpr hdvd, hround] at h
  cases ok with
  | false => simp at h
  | true =>
      simp only [and_self, if_true, Int.lt_irrefl, if_false, Prod.mk.injEq,
        Option.some.injEq] at h
      obtain ⟨rfl, rfl⟩ := h
      refine ⟨rfl, rfl, ?_, ?_, ?_, ?_, ?_⟩
      · rw [hpage]
        exact hdvd
      · dsimp only
        omega
      · dsimp only
        omega
      · rw [BitVec.le_def, htop]
        bv_omega
      · intro x hx hlt
        have harea : covers stack size x = true := by
          rw [covers, decide_eq_true_iff]
          bv_omega
        have hpages : covers (stack + size - BitVec.twoPow 64 k) (BitVec.twoPow 64 k) x = true ↔
            stack + size - BitVec.twoPow 64 k ≤ x := by
          rw [covers, decide_eq_true_iff]
          bv_omega
        dsimp only
        rw [harea, Bool.not_true, Bool.and_false, Bool.false_or, hpages]

end Guard

/-- A stack keeps its guard through all calls of `ef_fiber_expand_stack`, and each call grows it
down to the address if it can. -/
theorem fiber_stack_guard {pageSize : BitVec 64} {k : Nat} (hk : k < 63)
    (hpage : pageSize = BitVec.twoPow 64 k) {stack stackSize headerSize : BitVec 64}
    (hmap : Mapped pageSize stack (roundSize pageSize stackSize))
    (hpages : 2 * pageSize.toNat ≤ (roundSize pageSize stackSize).toNat)
    (hheader : headerSize.toNat ≤ pageSize.toNat) {ok : Bool} {before access : Access}
    {fiber : FiberStack} (h : efFiberCreate pageSize (some stack) ok before stackSize headerSize =
      (some fiber, access)) (calls : List (BitVec 64 × Bool)) :
    Guarded pageSize stack (roundSize pageSize stackSize)
        (expandAll pageSize calls (fiber, access)) ∧
      ∀ addr ok, Grows pageSize stack (expandAll pageSize calls (fiber, access)) addr ok
        (efFiberExpandStack pageSize ok (expandAll pageSize calls (fiber, access)).1
          (expandAll pageSize calls (fiber, access)).2 addr) := by
  subst hpage
  rw [(toNat_pageSize hk).1] at hpages hheader
  have hrun := (Guarded.create hk hmap hpages hheader h).expandAll hk hmap calls
  exact ⟨hrun, fun addr ok => (hrun.expand hk hmap addr ok).2⟩

/-- A stack of three pages, grown by one page and then touched in its guard. -/
theorem fiber_stack_guard_three : ∃ fiber access,
    efFiberCreate 4096 (some 0x100000) true (fun _ => false) 10000 256 = (some fiber, access) ∧
      Guarded 4096 0x100000 (roundSize 4096 10000)
        (expandAll 4096 [(0x101808, true), (0x100ff8, true)] (fiber, access)) ∧
      (expandAll 4096 [(0x101808, true), (0x100ff8, true)] (fiber, access)).1.stackLower =
        0x101000 :=
  ⟨_, _, rfl, (@fiber_stack_guard 4096 12 (by decide) (by decide) 0x100000 10000 256
    ⟨by decide, by decide⟩ (by decide) (by decide) true (fun _ => false) _ _ rfl _).1, by decide⟩

end EFramework.Fiber
