import EFramework.Fiber.Stack
import EFramework.Runtime.Fiber

/-! # The stacks of a pool

Each coroutine lies at the upper end of an area of its own, below it its stack, and its
name is its address. Coroutines are created, resumed and deleted in any order, and run
into pages of their stacks that they have not got yet. The handler of `SIGSEGV` looks at
the current fiber only.
-/

namespace EFramework.Fiber

/-- The page size of the system, and what `ef_coroutine_create` passes to `ef_fiber_create`. -/
structure Sizes where
  pageSize : BitVec 64
  stackSize : BitVec 64
  headerSize : BitVec 64
deriving Repr, DecidableEq

namespace Sizes

def area (c : Sizes) : BitVec 64 := roundSize c.pageSize c.stackSize

/-- An area has a page beside its guard, and the coroutine lies in it. -/
structure Ok (c : Sizes) : Prop where
  page : ∃ k, k < 63 ∧ c.pageSize = BitVec.twoPow 64 k
  pages : 2 * c.pageSize.toNat ≤ c.area.toNat
  header_pos : 0 < c.headerSize.toNat
  header_le : c.headerSize.toNat ≤ c.pageSize.toNat

end Sizes

/-! ## Areas of memory -/

def InArea (stack size x : BitVec 64) : Prop :=
  stack.toNat ≤ x.toNat ∧ x.toNat < stack.toNat + size.toNat

/-- Two areas of `size` bytes have no address in common. -/
def Apart (size stack stack' : BitVec 64) : Prop :=
  stack.toNat + size.toNat ≤ stack'.toNat ∨ stack'.toNat + size.toNat ≤ stack.toNat

variable {pageSize stack stack' size x : BitVec 64} {fiber : FiberStack} {access access' : Access}

theorem covers_area (h : Mapped pageSize stack size) :
    covers stack size x = true ↔ InArea stack size x := by
  have hhalf := h.half
  rw [covers, decide_eq_true_iff, InArea]
  bv_omega

theorem Apart.symm (h : Apart size stack stack') : Apart size stack' stack := Or.symm h

theorem Apart.not_inArea (h : Apart size stack stack') (hx : InArea stack size x) :
    ¬ InArea stack' size x := by
  unfold Apart at h
  unfold InArea at hx ⊢
  omega

/-- Only the memory of its own area is of concern to a stack. -/
theorem Guarded.congr (h : Guarded pageSize stack size (fiber, access))
    (hsame : ∀ x, InArea stack size x → access' x = access x) :
    Guarded pageSize stack size (fiber, access') where
  stackArea := h.stackArea
  stackSize := h.stackSize
  aligned := h.aligned
  guard := h.guard
  room := h.room
  header := h.header
  access := fun x hx hlt => by
    rw [← h.access x hx hlt]
    exact (congrArg (· = true) (hsame x ⟨hx, hlt⟩)).to_iff

/-! ## Creating a stack -/

theorem toNat_top {len : BitVec 64} (hhalf : stack.toNat + size.toNat ≤ 2 ^ 63)
    (hle : len.toNat ≤ size.toNat) :
    (stack + size - len).toNat = stack.toNat + size.toNat - len.toNat := by
  bv_omega

variable {k : Nat} {stackSize : BitVec 64}

theorem efFiberCreate_cases (hk : k < 63)
    (hmap : Mapped (BitVec.twoPow 64 k) stack (roundSize (BitVec.twoPow 64 k) stackSize))
    (hpages : 2 * 2 ^ k ≤ (roundSize (BitVec.twoPow 64 k) stackSize).toNat) (ok : Bool)
    (access : Access) (headerSize : BitVec 64) :
    let size := roundSize (BitVec.twoPow 64 k) stackSize
    ∃ access', (∀ x, ¬ InArea stack size x → access' x = access x) ∧
      ((ok = false ∧ (∀ x, InArea stack size x → access' x = false) ∧
          efFiberCreate (BitVec.twoPow 64 k) (some stack) ok access stackSize headerSize =
            (none, access')) ∨
        (ok = true ∧
          efFiberCreate (BitVec.twoPow 64 k) (some stack) ok access stackSize headerSize =
            (some ⟨size, stack, stack + size - headerSize, stack + size - BitVec.twoPow 64 k⟩,
              access'))) := by
  obtain ⟨hpage, hbound⟩ := toNat_pageSize hk
  have hpos : 0 < 2 ^ k := Nat.two_pow_pos k
  have hsize : 2 ^ k ∣ (roundSize (BitVec.twoPow 64 k) stackSize).toNat := by
    rw [roundSize, toNat_pageDown hk]
    exact Nat.dvd_sub_mod _
  have hstack := hmap.aligned
  have hhalf := hmap.half
  rw [hpage] at hstack
  unfold efFiberCreate
  generalize roundSize (BitVec.twoPow 64 k) stackSize = size at *
  have htop : (stack + size - BitVec.twoPow 64 k).toNat = stack.toNat + size.toNat - 2 ^ k := by
    bv_omega
  have hdvd : 2 ^ k ∣ (stack + size - BitVec.twoPow 64 k).toNat := by
    rw [htop]
    exact Nat.dvd_sub (Nat.dvd_add hstack hsize) (Nat.dvd_refl _)
  have hround := pageDown_round hk (show 2 ^ k ∣ (BitVec.twoPow 64 k).toNat by rw [hpage])
    (by omega)
  unfold mprotect
  dsimp only
  rw [(page_aligned hk _).mpr hdvd, hround]
  cases ok with
  | false =>
      refine ⟨fun x => access x && !covers stack size x, fun x hx => ?_,
        Or.inl ⟨rfl, fun x hx => ?_, by simp⟩⟩
      · have hno : covers stack size x = false :=
          Bool.eq_false_iff.mpr (fun hc => hx ((covers_area hmap).mp hc))
        simp [hno]
      · simp [(covers_area hmap).mpr hx]
  | true =>
      refine ⟨fun x => access x && !covers stack size x ||
        covers (stack + size - BitVec.twoPow 64 k) (BitVec.twoPow 64 k) x, fun x hx => ?_,
        Or.inr ⟨rfl, by simp⟩⟩
      have hno : covers stack size x = false :=
        Bool.eq_false_iff.mpr (fun hc => hx ((covers_area hmap).mp hc))
      have hno' : covers (stack + size - BitVec.twoPow 64 k) (BitVec.twoPow 64 k) x = false := by
        rw [covers, decide_eq_false_iff_not]
        unfold InArea at hx
        bv_omega
      simp [hno, hno']

theorem Sizes.Ok.create {c : Sizes} (hc : c.Ok) (hmap : Mapped c.pageSize stack c.area)
    (ok : Bool) (access : Access) :
    ∃ access', (∀ x, ¬ InArea stack c.area x → access' x = access x) ∧
      ((ok = false ∧ (∀ x, InArea stack c.area x → access' x = false) ∧
          efFiberCreate c.pageSize (some stack) ok access c.stackSize c.headerSize =
            (none, access')) ∨
        (ok = true ∧ efFiberCreate c.pageSize (some stack) ok access c.stackSize c.headerSize =
            (some ⟨c.area, stack, stack + c.area - c.headerSize, stack + c.area - c.pageSize⟩,
              access'))) := by
  obtain ⟨k, hk, hpage⟩ := hc.page
  have hpages := hc.pages
  unfold Sizes.area at hmap hpages ⊢
  rw [hpage] at hmap hpages ⊢
  rw [(toNat_pageSize hk).1] at hpages
  exact efFiberCreate_cases hk hmap hpages ok access c.headerSize

theorem Sizes.Ok.guarded {c : Sizes} (hc : c.Ok) (hmap : Mapped c.pageSize stack c.area)
    {ok : Bool} {access' : Access} (h : efFiberCreate c.pageSize (some stack) ok access c.stackSize
      c.headerSize = (some fiber, access')) :
    Guarded c.pageSize stack c.area (fiber, access') := by
  obtain ⟨k, hk, hpage⟩ := hc.page
  have hpages := hc.pages
  have hheader := hc.header_le
  unfold Sizes.area at hmap hpages ⊢
  rw [hpage] at hmap hpages hheader h ⊢
  rw [(toNat_pageSize hk).1] at hpages hheader
  exact .create hk hmap hpages hheader h

/-- The address is on the stack of a fiber, in its pages that are not there yet. -/
def OnStack (c : Sizes) (fiber : FiberStack) (addr : BitVec 64) : Prop :=
  fiber.stackArea.toNat + c.pageSize.toNat ≤ addr.toNat ∧ addr.toNat < fiber.stackLower.toNat

instance (c : Sizes) (fiber : FiberStack) (addr : BitVec 64) : Decidable (OnStack c fiber addr) :=
  inferInstanceAs (Decidable (_ ∧ _))

theorem Sizes.Ok.expand {c : Sizes} (hc : c.Ok) (hmap : Mapped c.pageSize fiber.stackArea c.area)
    (h : Guarded c.pageSize fiber.stackArea c.area (fiber, access)) (addr : BitVec 64) (ok : Bool) :
    efFiberExpandStack c.pageSize ok fiber access addr =
      if OnStack c fiber addr ∧ ok = true then
        (0, { fiber with stackLower := pageDown c.pageSize addr },
          fun x => access x || covers (pageDown c.pageSize addr)
            (fiber.stackLower - pageDown c.pageSize addr) x)
      else (-1, fiber, access) := by
  obtain ⟨k, hk, hpage⟩ := hc.page
  have hon : OnStack c fiber addr ↔ fiber.stackArea.toNat + 2 ^ k ≤ addr.toNat ∧
      addr.toNat < fiber.stackLower.toNat := by
    unfold OnStack
    rw [hpage, (toNat_pageSize hk).1]
  rw [hpage] at hmap h ⊢
  simp only [hon]
  exact efFiberExpandStack_eq hk hmap h addr ok

/-! ## The pool -/

structure Areas where
  sched : Sched
  fiber : Nat → FiberStack
  access : Access

namespace Areas

/-- The fields of a fiber. Those of `thread_fiber` are never set in a runtime that begins as
zeros. -/
def fiberOf (s : Areas) : Option Nat → FiberStack
  | none => ⟨0, 0, 0, 0⟩
  | some co => s.fiber co

/-- `ef_coroutine_create`, with the answers of `mmap` and `mprotect`. -/
def create (c : Sizes) (s : Areas) (stack : Option (BitVec 64)) (ok : Bool) : Option Areas :=
  if 0 < s.sched.pool.freeCount ∨ s.sched.pool.limitMax ≤ s.sched.pool.fullCount then
    (s.sched.create none).map (fun sched => { s with sched := sched })
  else
    match efFiberCreate c.pageSize stack ok s.access c.stackSize c.headerSize with
    | (none, access) => some { s with access := access }
    | (some fiber, access) =>
        (s.sched.create (some fiber.stackUpper.toNat)).map (fun sched =>
          ⟨sched, Function.update s.fiber fiber.stackUpper.toNat fiber, access⟩)

def efFiberDelete (s : Areas) (co : Nat) : Areas :=
  { s with access := fun x =>
      s.access x && !covers (s.fiber co).stackArea (s.fiber co).stackSize x }

def shrink (s : Areas) (idle : Nat → Bool) (maxCount : Int) : Areas :=
  let pool := efCoroutinePoolShrink s.sched.pool idle maxCount
  { (s.sched.pool.fullList.filter (· ∉ pool.fullList)).foldl efFiberDelete s with
    sched := { s.sched with pool := pool } }

/-- The handler, with `none` for `raise(SIGABRT)`. -/
def efFiberSigsegvHandler (c : Sizes) (s : Areas) (addr : BitVec 64) (ok : Bool) :
    Option Areas :=
  let (ret, fiber, access) :=
    efFiberExpandStack c.pageSize ok (s.fiberOf s.sched.current) s.access addr
  if ret < 0 then none
  else some { s with
    fiber := s.sched.current.elim s.fiber (fun co => Function.update s.fiber co fiber)
    access := access }

inductive Act where
  | create (stack : Option (BitVec 64)) (ok : Bool)
  | resume (co : Nat)
  | yield
  | exit
  | shrink (idle : Nat → Bool) (maxCount : Int)
  /-- It comes to an address that it cannot use. -/
  | fault (addr : BitVec 64) (ok : Bool)

def step (c : Sizes) (s : Areas) : Act → Option Areas
  | .create stack ok => s.create c stack ok
  | .resume co => some { s with sched := s.sched.resumeCoroutine co }
  | .yield => s.sched.efFiberYield.map (fun sched => { s with sched := sched })
  | .exit => s.sched.efFiberExit.map (fun sched => { s with sched := sched })
  | .shrink idle maxCount => some (s.shrink idle maxCount)
  | .fault addr ok => s.efFiberSigsegvHandler c addr ok

/-- `mmap` returns an area of whole pages that nothing is mapped in; coroutines are resumed that
are in the pool and do not run. -/
def answers (c : Sizes) (s : Areas) : Act → Prop
  | .create (some stack) _ =>
      Mapped c.pageSize stack c.area ∧ (∀ x, InArea stack c.area x → s.access x = false) ∧
        ∀ co ∈ s.sched.pool.fullList, Apart c.area stack (s.fiber co).stackArea
  | .resume co => s.sched.resumesIdle (.resume co) = true
  | .fault addr _ => s.access addr = false
  | _ => True

/-! ## What the pool keeps -/

/-- The layout of the memory, with `base` for the memory outside the areas. -/
structure Laid (c : Sizes) (base : Access) (s : Areas) : Prop where
  sched : ∃ limitMax, Sched.Inv limitMax s.sched
  upper : ∀ co ∈ s.sched.pool.fullList, (s.fiber co).stackUpper.toNat = co ∧
    co + c.headerSize.toNat = (s.fiber co).stackArea.toNat + c.area.toNat
  mapped : ∀ co ∈ s.sched.pool.fullList, Mapped c.pageSize (s.fiber co).stackArea c.area
  guarded : ∀ co ∈ s.sched.pool.fullList,
    Guarded c.pageSize (s.fiber co).stackArea c.area (s.fiber co, s.access)
  apart : ∀ co ∈ s.sched.pool.fullList, ∀ co' ∈ s.sched.pool.fullList, co ≠ co' →
    Apart c.area (s.fiber co).stackArea (s.fiber co').stackArea
  unused : ∀ co ∈ s.sched.pool.fullList, ∀ x, InArea (s.fiber co).stackArea c.area x →
    base x = false
  outside : ∀ x, (∀ co ∈ s.sched.pool.fullList, ¬ InArea (s.fiber co).stackArea c.area x) →
    s.access x = base x

variable {c : Sizes} {base : Access} {s s' : Areas} {co : Nat}

theorem Laid.setSched (h : Laid c base s) {sched : Sched} {limitMax : Int}
    (hinv : Sched.Inv limitMax sched) (hfull : sched.pool.fullList = s.sched.pool.fullList) :
    Laid c base { s with sched := sched } := by
  refine ⟨⟨limitMax, hinv⟩, ?_, ?_, ?_, ?_, ?_, ?_⟩ <;> dsimp only <;> rw [hfull]
  · exact h.upper
  · exact h.mapped
  · exact h.guarded
  · exact h.apart
  · exact h.unused
  · exact h.outside

/-- The memory changes outside the areas of the pool, to what it was at first. -/
theorem Laid.setAccess (h : Laid c base s) {access : Access}
    (hsame : ∀ co ∈ s.sched.pool.fullList, ∀ x, InArea (s.fiber co).stackArea c.area x →
      access x = s.access x)
    (hout : ∀ x, (∀ co ∈ s.sched.pool.fullList, ¬ InArea (s.fiber co).stackArea c.area x) →
      access x = base x) : Laid c base { s with access := access } where
  sched := h.sched
  upper := h.upper
  mapped := h.mapped
  guarded := fun co hco => (h.guarded co hco).congr (hsame co hco)
  apart := h.apart
  unused := h.unused
  outside := hout

theorem Laid.inArea (h : Laid c base s) (hc : c.Ok) (hco : co ∈ s.sched.pool.fullList) :
    InArea (s.fiber co).stackArea c.area (s.fiber co).stackUpper := by
  obtain ⟨hupper, htop⟩ := h.upper co hco
  have hpos := hc.header_pos
  have hle := hc.header_le
  have hpages := hc.pages
  unfold InArea
  omega

theorem Laid.add (h : Laid c base s) {sched : Sched} {limitMax : Int}
    (hinv : Sched.Inv limitMax sched) (hfull : sched.pool.fullList = co :: s.sched.pool.fullList)
    (hnot : co ∉ s.sched.pool.fullList) {fiber : FiberStack} {access : Access}
    (hupper : fiber.stackUpper.toNat = co ∧
      co + c.headerSize.toNat = fiber.stackArea.toNat + c.area.toNat)
    (hmap : Mapped c.pageSize fiber.stackArea c.area)
    (hguard : Guarded c.pageSize fiber.stackArea c.area (fiber, access))
    (hapart : ∀ co' ∈ s.sched.pool.fullList,
      Apart c.area fiber.stackArea (s.fiber co').stackArea)
    (hsame : ∀ x, ¬ InArea fiber.stackArea c.area x → access x = s.access x)
    (hunused : ∀ x, InArea fiber.stackArea c.area x → s.access x = false) :
    Laid c base ⟨sched, Function.update s.fiber co fiber, access⟩ := by
  have hnew : Function.update s.fiber co fiber co = fiber := Function.update_self _ _ _
  have hold : ∀ co' ∈ s.sched.pool.fullList,
      Function.update s.fiber co fiber co' = s.fiber co' := fun co' hco' => by
    refine Function.update_of_ne ?_ _ _
    rintro rfl
    exact hnot hco'
  have hothers : ∀ co' ∈ s.sched.pool.fullList, ∀ x, InArea (s.fiber co').stackArea c.area x →
      ¬ InArea fiber.stackArea c.area x := fun co' hco' x hx => (hapart co' hco').symm.not_inArea hx
  have hcases : ∀ P : Nat → FiberStack → Prop, P co fiber →
      (∀ co' ∈ s.sched.pool.fullList, P co' (s.fiber co')) →
      ∀ co' ∈ sched.pool.fullList, P co' (Function.update s.fiber co fiber co') := by
    intro P hP hPs co' hco'
    rw [hfull] at hco'
    rcases List.mem_cons.mp hco' with rfl | hco'
    · rwa [hnew]
    · rw [hold co' hco']
      exact hPs co' hco'
  refine ⟨⟨limitMax, hinv⟩, ?_, ?_, ?_, ?_, ?_, ?_⟩
  · exact hcases (fun co f => f.stackUpper.toNat = co ∧
      co + c.headerSize.toNat = f.stackArea.toNat + c.area.toNat) hupper h.upper
  · exact hcases (fun _ f => Mapped c.pageSize f.stackArea c.area) hmap h.mapped
  · exact hcases (fun _ f => Guarded c.pageSize f.stackArea c.area (f, access)) hguard
      (fun co' hco' => (h.guarded co' hco').congr
        (fun x hx => hsame x (hothers co' hco' x hx)))
  · intro co₁ h₁ co₂ h₂ hne
    dsimp only at h₁ h₂ ⊢
    rw [hfull] at h₁ h₂
    rcases List.mem_cons.mp h₁ with he₁ | hm₁ <;> rcases List.mem_cons.mp h₂ with he₂ | hm₂
    · exact absurd (he₁.trans he₂.symm) hne
    · rw [he₁, hnew, hold co₂ hm₂]
      exact hapart co₂ hm₂
    · rw [he₂, hnew, hold co₁ hm₁]
      exact (hapart co₁ hm₁).symm
    · rw [hold co₁ hm₁, hold co₂ hm₂]
      exact h.apart co₁ hm₁ co₂ hm₂ hne
  · refine hcases (fun _ f => ∀ x, InArea f.stackArea c.area x → base x = false) (fun x hx => ?_)
      h.unused
    rw [← h.outside x (fun co' hco' => (hapart co' hco').not_inArea hx)]
    exact hunused x hx
  · intro x hx
    dsimp only at hx ⊢
    have hx' : ¬ InArea fiber.stackArea c.area x := by
      have := hx co (by rw [hfull]; exact List.mem_cons_self)
      rwa [hnew] at this
    refine (hsame x hx').trans (h.outside x (fun co' hco' => ?_))
    have := hx co' (by rw [hfull]; exact List.mem_cons_of_mem co hco')
    rwa [hold co' hco'] at this

/-! ## Creating and deleting -/

theorem create_fullList {sched sched' : Sched} {fresh : Option Nat}
    (hs : sched.create fresh = some sched') :
    ((0 < sched.pool.freeCount ∨ sched.pool.limitMax ≤ sched.pool.fullCount ∨ fresh = none) ∧
      sched'.pool.fullList = sched.pool.fullList) ∨
    ∃ co, fresh = some co ∧ co ∉ sched.pool.fullList ∧
      sched'.pool.fullList = co :: sched.pool.fullList := by
  obtain ⟨⟨out, pool⟩, hc, hs⟩ := Option.bind_eq_some_iff.mp hs
  have hpool : sched'.pool = pool := by
    cases out <;> cases hs <;> rfl
  rw [hpool]
  unfold efCoroutineCreate at hc
  split at hc
  next hpos =>
    split at hc
    · cases hc
    · cases hc
      exact Or.inl ⟨Or.inl hpos, rfl⟩
  next =>
    split at hc
    next hlimit =>
      cases hc
      exact Or.inl ⟨Or.inr (Or.inl hlimit), rfl⟩
    next =>
      split at hc
      · cases hc
        exact Or.inl ⟨Or.inr (Or.inr rfl), rfl⟩
      next co =>
        split at hc
        · cases hc
        next hnot =>
          cases hc
          exact Or.inr ⟨co, rfl, hnot, rfl⟩

/-- Creating succeeds, unless the free list is shorter than its count or the block is in use. -/
theorem exists_create {sched : Sched} {limitMax : Int} (h : Sched.Inv limitMax sched)
    {fresh : Option Nat} (hfresh : ∀ co ∈ fresh, co ∉ sched.pool.fullList) :
    ∃ sched', sched.create fresh = some sched' := by
  have hpool : ∃ r, efCoroutineCreate sched.pool fresh = some r := by
    unfold efCoroutineCreate
    split
    next hpos =>
      have hcount := h.pool.freeCount
      split
      next hnil => simp [hnil, hcount] at hpos
      next => exact ⟨_, rfl⟩
    next =>
      split
      · exact ⟨_, rfl⟩
      · split
        · exact ⟨_, rfl⟩
        next co => exact ⟨_, if_neg (hfresh co rfl)⟩
  obtain ⟨⟨out, pool⟩, hr⟩ := hpool
  unfold Sched.create
  rw [hr]
  cases out <;> exact ⟨_, rfl⟩

theorem Laid.createNew (h : Laid c base s) (hc : c.Ok) {stack : BitVec 64} {ok : Bool}
    (hmap : Mapped c.pageSize stack c.area)
    (hempty : ∀ x, InArea stack c.area x → s.access x = false)
    (hapart : ∀ co ∈ s.sched.pool.fullList, Apart c.area stack (s.fiber co).stackArea)
    (hnew : ¬ (0 < s.sched.pool.freeCount ∨ s.sched.pool.limitMax ≤ s.sched.pool.fullCount)) :
    ∃ s', s.create c (some stack) ok = some s' ∧ Laid c base s' := by
  obtain ⟨limitMax, hinv⟩ := h.sched
  have hpages := hc.pages
  have hheader := hc.header_le
  have hpos := hc.header_pos
  have htop := toNat_top hmap.half (show c.headerSize.toNat ≤ c.area.toNat by omega)
  have hnot : (stack + c.area - c.headerSize).toNat ∉ s.sched.pool.fullList := by
    intro hco
    have hin := h.inArea hc hco
    have hap := hapart _ hco
    have hup := (h.upper _ hco).1
    unfold InArea at hin
    unfold Apart at hap
    omega
  obtain ⟨access, hout, hcase⟩ := hc.create hmap ok s.access
  unfold Areas.create
  rw [if_neg hnew]
  rcases hcase with ⟨_, hin, he⟩ | ⟨_, he⟩
  · rw [he]
    refine ⟨_, rfl, h.setAccess (fun co hco x hx => ?_) (fun x hx => ?_)⟩
    · exact hout x ((hapart co hco).symm.not_inArea hx)
    · rw [← h.outside x hx]
      by_cases hxa : InArea stack c.area x
      · rw [hempty x hxa]
        exact hin x hxa
      · exact hout x hxa
  · obtain ⟨sched, hs⟩ := exists_create hinv
      (show ∀ co ∈ some (stack + c.area - c.headerSize).toNat, co ∉ s.sched.pool.fullList by
        simpa using hnot)
    rw [he]
    refine ⟨_, by dsimp only; rw [hs]; rfl, ?_⟩
    have hfull : sched.pool.fullList =
        (stack + c.area - c.headerSize).toNat :: s.sched.pool.fullList := by
      rcases create_fullList hs with ⟨hold, _⟩ | ⟨co, hco, _, hfull⟩
      · refine absurd ?_ hnew
        rcases hold with hold | hold | hold
        · exact Or.inl hold
        · exact Or.inr hold
        · cases hold
      · cases hco
        exact hfull
    exact h.add (hinv.create hs) hfull hnot ⟨rfl, by dsimp only; omega⟩ hmap (hc.guarded hmap he)
      hapart hout hempty

/-- The new coroutine is not one of the pool, so it is created. -/
theorem Laid.create (h : Laid c base s) (hc : c.Ok) {stack : Option (BitVec 64)} {ok : Bool}
    (ha : answers c s (.create stack ok)) : ∃ s', s.create c stack ok = some s' ∧
      Laid c base s' := by
  obtain ⟨limitMax, hinv⟩ := h.sched
  by_cases hold : 0 < s.sched.pool.freeCount ∨ s.sched.pool.limitMax ≤ s.sched.pool.fullCount
  · unfold Areas.create
    rw [if_pos hold]
    have hnone : ∀ co ∈ (none : Option Nat), co ∉ s.sched.pool.fullList := by simp
    obtain ⟨sched, hs⟩ := exists_create hinv hnone
    refine ⟨_, by rw [hs]; rfl, h.setSched (hinv.create hs) ?_⟩
    rcases create_fullList hs with ⟨_, hfull⟩ | ⟨_, hco, _⟩
    · exact hfull
    · cases hco
  · cases stack with
    | none => exact ⟨s, if_neg hold, h⟩
    | some stack =>
        obtain ⟨hmap, hempty, hapart⟩ := ha
        exact h.createNew hc hmap hempty hapart hold

theorem efFiberDelete_access (s : Areas) (cos : List Nat) (x : BitVec 64) :
    (cos.foldl efFiberDelete s).access x =
      (s.access x &&
        !cos.any (fun co => covers (s.fiber co).stackArea (s.fiber co).stackSize x)) := by
  induction cos generalizing s with
  | nil => simp
  | cons co cos ih =>
      rw [List.foldl_cons, ih]
      simp [efFiberDelete, Bool.and_assoc]

theorem efFiberDelete_fiber (s : Areas) (cos : List Nat) :
    (cos.foldl efFiberDelete s).fiber = s.fiber := by
  induction cos generalizing s with
  | nil => rfl
  | cons co cos ih => exact ih (s.efFiberDelete co)

/-- The areas of the coroutines that leave the pool are given back, and those of no others. -/
theorem Laid.shrink (h : Laid c base s) (idle : Nat → Bool) (maxCount : Int) :
    Laid c base (s.shrink idle maxCount) := by
  obtain ⟨limitMax, hinv⟩ := h.sched
  obtain ⟨hok, hshrunk⟩ := hinv.pool.shrink idle maxCount
  have hinv' : Sched.Inv limitMax
      { s.sched with pool := efCoroutinePoolShrink s.sched.pool idle maxCount } :=
    hinv.step (a := .shrink idle maxCount) rfl rfl
  unfold Areas.shrink
  generalize efCoroutinePoolShrink s.sched.pool idle maxCount = pool at hok hshrunk hinv' ⊢
  have hsub : ∀ co ∈ pool.fullList, co ∈ s.sched.pool.fullList := fun co hco =>
    (hok.full_live co hco).elim (fun hf => hinv.pool.free_full co (hshrunk.free co hf))
      (hinv.pool.live_full co)
  have hcovers : ∀ co ∈ s.sched.pool.fullList, ∀ x,
      covers (s.fiber co).stackArea (s.fiber co).stackSize x = true ↔
        InArea (s.fiber co).stackArea c.area x := fun co hco x => by
    rw [show (s.fiber co).stackSize = c.area from (h.guarded co hco).stackSize]
    exact covers_area (h.mapped co hco)
  refine ⟨⟨limitMax, hinv'⟩, ?_, ?_, ?_, ?_, ?_, ?_⟩ <;> dsimp only <;>
    rw [efFiberDelete_fiber]
  · exact fun co hco => h.upper co (hsub co hco)
  · exact fun co hco => h.mapped co (hsub co hco)
  · refine fun co hco => (h.guarded co (hsub co hco)).congr (fun x hx => ?_)
    have hno : ∀ co' ∈ s.sched.pool.fullList.filter (· ∉ pool.fullList),
        ¬ covers (s.fiber co').stackArea (s.fiber co').stackSize x = true := by
      intro co' hco'
      obtain ⟨hfull, hgone⟩ := List.mem_filter.mp hco'
      have hne : co ≠ co' := by
        rintro rfl
        exact of_decide_eq_true hgone hco
      rw [hcovers co' hfull]
      exact (h.apart co (hsub co hco) co' hfull hne).not_inArea hx
    rw [efFiberDelete_access, List.any_eq_false.mpr hno]
    exact Bool.and_true _
  · exact fun co hco co' hco' => h.apart co (hsub co hco) co' (hsub co' hco')
  · exact fun co hco => h.unused co (hsub co hco)
  · intro x hx
    rw [efFiberDelete_access]
    by_cases hin : ∃ co ∈ s.sched.pool.fullList, InArea (s.fiber co).stackArea c.area x
    · obtain ⟨co, hco, hxin⟩ := hin
      have hgone : co ∈ s.sched.pool.fullList.filter (· ∉ pool.fullList) :=
        List.mem_filter.mpr ⟨hco, decide_eq_true fun hkept => hx co hkept hxin⟩
      rw [h.unused co hco x hxin,
        List.any_eq_true.mpr ⟨co, hgone, (hcovers co hco x).mpr hxin⟩]
      exact Bool.and_false _
    · have hout : ∀ co ∈ s.sched.pool.fullList, ¬ InArea (s.fiber co).stackArea c.area x :=
        fun co hco hxin => hin ⟨co, hco, hxin⟩
      rw [h.outside x hout, List.any_eq_false.mpr fun co hco => ?_]
      · exact Bool.and_true _
      · have hfull := (List.mem_filter.mp hco).1
        rw [hcovers co hfull]
        exact hout co hfull

/-! ## Faults -/

def grown (c : Sizes) (s : Areas) (co : Nat) (addr : BitVec 64) : Areas :=
  let lower := pageDown c.pageSize addr
  { s with
    fiber := Function.update s.fiber co { s.fiber co with stackLower := lower }
    access := fun x => s.access x || covers lower ((s.fiber co).stackLower - lower) x }

theorem Laid.current (h : Laid c base s) (hcur : s.sched.current = some co) :
    co ∈ s.sched.pool.fullList := by
  obtain ⟨limitMax, hinv⟩ := h.sched
  exact hinv.pool.live_full co (hinv.inited_of_current hcur)

theorem handler_thread (c : Sizes) (hcur : s.sched.current = none) (addr : BitVec 64) (ok : Bool) :
    s.efFiberSigsegvHandler c addr ok = none := by
  unfold efFiberSigsegvHandler efFiberExpandStack
  rw [hcur]
  simp [fiberOf]

/-- The handler grows the stack of the current coroutine, or the program is aborted. -/
theorem Laid.handler_eq (h : Laid c base s) (hc : c.Ok) (hcur : s.sched.current = some co)
    (addr : BitVec 64) (ok : Bool) :
    s.efFiberSigsegvHandler c addr ok =
      if OnStack c (s.fiber co) addr ∧ ok = true then some (s.grown c co addr) else none := by
  have hco := h.current hcur
  have he := hc.expand (h.mapped co hco) (h.guarded co hco) addr ok
  unfold efFiberSigsegvHandler
  rw [hcur]
  unfold fiberOf
  dsimp only
  rw [he]
  split <;> rfl

theorem Laid.grown (h : Laid c base s) (hc : c.Ok) (hco : co ∈ s.sched.pool.fullList)
    {addr : BitVec 64} (hon : OnStack c (s.fiber co) addr) :
    Laid c base (s.grown c co addr) ∧ (s.grown c co addr).access addr = true ∧
      ∀ x, ¬ InArea (s.fiber co).stackArea c.area x →
        (s.grown c co addr).access x = s.access x := by
  obtain ⟨k, hk, hpage⟩ := hc.page
  have hmap := h.mapped co hco
  have hguard := h.guarded co hco
  have he := hc.expand hmap hguard addr true
  rw [if_pos ⟨hon, rfl⟩] at he
  have hgrows : Guarded c.pageSize (s.fiber co).stackArea c.area
      (efFiberExpandStack c.pageSize true (s.fiber co) s.access addr).2 ∧
      Grows c.pageSize (s.fiber co).stackArea (s.fiber co, s.access) addr true
        (efFiberExpandStack c.pageSize true (s.fiber co) s.access addr) := by
    rw [hpage] at hmap hguard ⊢
    exact hguard.expand hk hmap addr true
  rw [he] at hgrows
  obtain ⟨hnew, hgrow⟩ := hgrows
  have hroom := hguard.room
  have hfloor := hnew.guard
  dsimp only at hroom hfloor
  have hframe : ∀ x, ¬ InArea (s.fiber co).stackArea c.area x →
      (s.grown c co addr).access x = s.access x := by
    intro x hx
    have hno : covers (pageDown c.pageSize addr)
        ((s.fiber co).stackLower - pageDown c.pageSize addr) x = false := by
      refine Bool.eq_false_iff.mpr (fun hcov => hx ?_)
      have hin := (covers_iff hgrow.lower).mp hcov
      rw [BitVec.le_def, BitVec.lt_def] at hin
      dsimp only at hin
      unfold InArea
      omega
    unfold Areas.grown
    dsimp only
    rw [hno, Bool.or_false]
  have hself : (s.grown c co addr).fiber co =
      { s.fiber co with stackLower := pageDown c.pageSize addr } := Function.update_self _ _ _
  have hother : ∀ co', co' ≠ co → (s.grown c co addr).fiber co' = s.fiber co' :=
    fun co' hne => Function.update_of_ne hne _ _
  have harea : ∀ co', ((s.grown c co addr).fiber co').stackArea = (s.fiber co').stackArea ∧
      ((s.grown c co addr).fiber co').stackUpper = (s.fiber co').stackUpper := by
    intro co'
    by_cases hne : co' = co
    · rw [hne, hself]
      exact ⟨rfl, rfl⟩
    · rw [hother co' hne]
      exact ⟨rfl, rfl⟩
  refine ⟨⟨h.sched, fun co' hco' => ?_, fun co' hco' => ?_, fun co' hco' => ?_,
    fun co' hco' co'' hco'' => ?_, fun co' hco' => ?_, fun x hx => ?_⟩,
    hgrow.access (Int.le_refl 0),
    hframe⟩
  · rw [(harea co').1, (harea co').2]
    exact h.upper co' hco'
  · rw [(harea co').1]
    exact h.mapped co' hco'
  · rw [(harea co').1]
    by_cases hne : co' = co
    · rw [hne, hself]
      exact hnew
    · rw [hother co' hne]
      exact (h.guarded co' hco').congr
        (fun x hx => hframe x ((h.apart co' hco' co hco hne).not_inArea hx))
  · rw [(harea co').1, (harea co'').1]
    exact h.apart co' hco' co'' hco''
  · rw [(harea co').1]
    exact h.unused co' hco'
  · have hout : ∀ co' ∈ s.sched.pool.fullList, ¬ InArea (s.fiber co').stackArea c.area x := by
      intro co' hco'
      rw [← (harea co').1]
      exact hx co' hco'
    exact (hframe x (hout co hco)).trans (h.outside x hout)

/-! ## Runs -/

theorem resumed_fullList (sched : Sched) :
    sched.resumed.pool.fullList = sched.pool.fullList := by
  unfold Sched.resumed
  split
  · rfl
  · dsimp only
    split <;> rfl

theorem Laid.step (h : Laid c base s) (hc : c.Ok) {a : Act} (ha : answers c s a)
    (hs : s.step c a = some s') : Laid c base s' := by
  obtain ⟨limitMax, hinv⟩ := h.sched
  cases a with
  | create stack ok =>
      obtain ⟨s₁, hs₁, hlaid⟩ := h.create hc ha
      cases hs₁.symm.trans hs
      exact hlaid
  | resume co =>
      cases hs
      refine h.setSched (hinv.resume (of_decide_eq_true ha).2) ?_
      unfold Sched.resumeCoroutine Sched.efFiberResume
      cases s.sched.status co <;> rfl
  | yield =>
      obtain ⟨sched, hy, rfl⟩ := Option.map_eq_some_iff.mp hs
      refine h.setSched (hinv.yield hy) ?_
      obtain ⟨co, _, rfl⟩ := Option.map_eq_some_iff.mp hy
      exact resumed_fullList _
  | exit =>
      obtain ⟨sched, hy, rfl⟩ := Option.map_eq_some_iff.mp hs
      refine h.setSched (hinv.exit hy) ?_
      obtain ⟨co, _, rfl⟩ := Option.map_eq_some_iff.mp hy
      exact resumed_fullList _
  | shrink idle maxCount =>
      cases hs
      exact h.shrink idle maxCount
  | fault addr ok =>
      have hs : s.efFiberSigsegvHandler c addr ok = some s' := hs
      cases hcur : s.sched.current with
      | none =>
          rw [handler_thread c hcur] at hs
          cases hs
      | some co =>
          rw [h.handler_eq hc hcur] at hs
          split at hs
          next hon =>
            cases hs
            exact (h.grown hc (h.current hcur) hon.1).1
          next => cases hs

def Initial (limitMin limitMax : Int) (base : Access) (s : Areas) : Prop :=
  s.sched = Sched.init limitMin limitMax ∧ s.access = base

theorem laid_invariant (hc : c.Ok) (limitMin limitMax : Int) (base : Access) :
    Lib.Invariant (Initial limitMin limitMax base) (step c) (answers c) (Laid c base) where
  init := fun {s} h => by
    obtain ⟨hsched, hbase⟩ := h
    have hfull : s.sched.pool.fullList = [] := by
      rw [hsched]
      rfl
    refine ⟨⟨limitMax, hsched ▸ Sched.inv_init⟩, ?_, ?_, ?_, ?_, ?_, fun x _ => by rw [hbase]⟩ <;>
      simp [hfull]
  step := fun h ha hs => h.step hc ha hs

/-- However coroutines of a pool are created, resumed and deleted, each one in the pool has an area
of its own with its guard, no other memory is touched, and what is deleted cannot be used. A fault
is survived exactly when it is on the stack of the coroutine that runs, and adds pages of this
stack only. -/
theorem stacks_of_pool (hc : c.Ok) {limitMin limitMax : Int}
    (h : Lib.Reachable (Initial limitMin limitMax base) (step c) (answers c) s) :
    (∀ co ∈ s.sched.pool.fullList, (s.fiber co).stackUpper.toNat = co ∧
      Guarded c.pageSize (s.fiber co).stackArea c.area (s.fiber co, s.access)) ∧
    (∀ co ∈ s.sched.pool.fullList, ∀ co' ∈ s.sched.pool.fullList, co ≠ co' →
      Apart c.area (s.fiber co).stackArea (s.fiber co').stackArea) ∧
    (∀ x, (∀ co ∈ s.sched.pool.fullList, ¬ InArea (s.fiber co).stackArea c.area x) →
      s.access x = base x) ∧
    (∀ co, s.sched.status co = .inited ∨ s.sched.current = some co →
      co ∈ s.sched.pool.fullList) ∧
    (∀ stack ok, answers c s (.create stack ok) → ∃ s', s.create c stack ok = some s') ∧
    (∀ addr ok, (∃ s', s.efFiberSigsegvHandler c addr ok = some s') ↔
      ∃ co, s.sched.current = some co ∧ OnStack c (s.fiber co) addr ∧ ok = true) ∧
    ∀ addr ok s', s.efFiberSigsegvHandler c addr ok = some s' → s'.access addr = true ∧
      ∀ co, s.sched.current = some co → ∀ x, ¬ InArea (s.fiber co).stackArea c.area x →
        s'.access x = s.access x := by
  have hlaid := (laid_invariant hc limitMin limitMax base).holds h
  obtain ⟨limit, hinv⟩ := hlaid.sched
  have hhandler : ∀ addr ok s', s.efFiberSigsegvHandler c addr ok = some s' →
      ∃ co, s.sched.current = some co ∧ OnStack c (s.fiber co) addr ∧ ok = true ∧
        s' = s.grown c co addr := by
    intro addr ok s' hs
    cases hcur : s.sched.current with
    | none =>
        rw [handler_thread c hcur] at hs
        cases hs
    | some co =>
        rw [hlaid.handler_eq hc hcur] at hs
        split at hs
        next hon =>
          cases hs
          exact ⟨co, rfl, hon.1, hon.2, rfl⟩
        next => cases hs
  refine ⟨fun co hco => ⟨(hlaid.upper co hco).1, hlaid.guarded co hco⟩, hlaid.apart,
    hlaid.outside, fun co hco => ?_, fun stack ok ha => ?_, fun addr ok => ⟨?_, ?_⟩,
    fun addr ok s' hs => ?_⟩
  · exact hco.elim (hinv.pool.live_full co) hlaid.current
  · obtain ⟨s', hs, _⟩ := hlaid.create hc ha
    exact ⟨s', hs⟩
  · rintro ⟨s', hs⟩
    obtain ⟨co, hcur, hon, hok, _⟩ := hhandler addr ok s' hs
    exact ⟨co, hcur, hon, hok⟩
  · rintro ⟨co, hcur, hon, hok⟩
    exact ⟨_, by rw [hlaid.handler_eq hc hcur, if_pos ⟨hon, hok⟩]⟩
  · obtain ⟨co, hcur, hon, _, rfl⟩ := hhandler addr ok s' hs
    obtain ⟨_, haddr, hframe⟩ := hlaid.grown hc (hlaid.current hcur) hon
    refine ⟨haddr, fun co' hcur' => ?_⟩
    cases hcur.symm.trans hcur'
    exact hframe

def threePages : Sizes := ⟨4096, 10000, 256⟩

theorem threePages_ok : threePages.Ok :=
  ⟨⟨12, by decide, by decide⟩, by decide, by decide, by decide⟩

/-- A coroutine grows its stack by the page beside the guard. -/
theorem stacks_of_pool_grown : ∃ s : Areas,
    Lib.Reachable (Initial 0 10 fun _ => false) (step threePages) (answers threePages) s ∧
    s.access 0x101808 = true ∧
    Guarded 4096 (s.fiber 0x102f00).stackArea threePages.area (s.fiber 0x102f00, s.access) := by
  let s₀ : Areas := ⟨Sched.init 0 10, fun _ => ⟨0, 0, 0, 0⟩, fun _ => false⟩
  let s₁ := (step threePages s₀ (.create (some 0x100000) true)).get (by decide)
  let s₂ := (step threePages s₁ (.resume 0x102f00)).get (by decide)
  let s₃ := (step threePages s₂ (.fault 0x101808 true)).get (by decide)
  have ha₀ : answers threePages s₀ (.create (some 0x100000) true) :=
    ⟨⟨by decide, by decide⟩, fun _ _ => rfl, fun _ hco => absurd hco List.not_mem_nil⟩
  have ha₁ : s₁.sched.resumesIdle (.resume 0x102f00) = true := by decide
  have ha₂ : s₂.access 0x101808 = false := by decide
  have h₀ : Lib.Reachable (Initial 0 10 fun _ => false) (step threePages) (answers threePages) s₀ :=
    .init ⟨rfl, rfl⟩
  have h₁ : Lib.Reachable _ (step threePages) (answers threePages) s₁ :=
    h₀.step ha₀ (Option.some_get _).symm
  have h₂ : Lib.Reachable _ (step threePages) (answers threePages) s₂ :=
    h₁.step (a := .resume 0x102f00) ha₁ (Option.some_get _).symm
  have h₃ : Lib.Reachable _ (step threePages) (answers threePages) s₃ :=
    h₂.step (a := .fault 0x101808 true) ha₂ (Option.some_get _).symm
  obtain ⟨hstack, _⟩ := stacks_of_pool threePages_ok h₃
  exact ⟨s₃, h₃, by decide, (hstack 0x102f00 (by decide)).2⟩

end Areas

end EFramework.Fiber
