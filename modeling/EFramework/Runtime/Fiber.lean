import EFramework.Lib.Run
import EFramework.Runtime.Coroutine

/-! # Fibers under the pool, `fiber.c` and `coroutine.c`

Coroutines resume each other to any depth. A fiber that has called
`ef_coroutine_resume` is in that call until control comes back, which is when the
fiber that it has resumed yields or exits; only then does the call look whether its
coroutine has exited. So the pool depends on control coming back to the right call.
-/

namespace EFramework

inductive FiberStatus where
  | exited
  | inited
deriving Repr, DecidableEq

/-- The pool with the fields of its fibers that control depends on. The fiber of the thread is
`none`, the others are named as in the pool. -/
structure Sched where
  pool : CoroutinePool
  status : Nat → FiberStatus
  parent : Nat → Option Nat
  /-- `current_fiber`. -/
  current : Option Nat
  /-- The argument `co` of the call of `ef_coroutine_resume` that a fiber is in. -/
  resuming : Option Nat → Option Nat

namespace Sched

def init (limitMin limitMax : Int) : Sched where
  pool := efCoroutinePoolInit limitMin limitMax
  status := fun _ => .exited
  parent := fun _ => none
  current := none
  resuming := fun _ => none

def efFiberResume (s : Sched) (co : Nat) : Int × Sched :=
  match s.status co with
  | .exited => (-1, s)
  | .inited => (0, { s with parent := Function.update s.parent co s.current, current := some co })

/-- `ef_coroutine_resume`, up to the switch of control. -/
def resumeCoroutine (s : Sched) (co : Nat) : Sched :=
  let (res, s') := s.efFiberResume co
  if res < 0 then s else { s' with resuming := Function.update s'.resuming s.current (some co) }

/-- Control is back in the current fiber, behind `ef_fiber_resume`. -/
def resumed (s : Sched) : Sched :=
  match s.resuming s.current with
  | none => s
  | some co =>
      { s with
        resuming := Function.update s.resuming s.current none
        pool := if s.status co = .exited then efCoroutineExited s.pool co else s.pool }

def efFiberYield (s : Sched) : Option Sched :=
  s.current.map (fun co => resumed { s with current := s.parent co })

/-- `_ef_fiber_exit`, where a fiber goes when its procedure returns. -/
def efFiberExit (s : Sched) : Option Sched :=
  s.current.map (fun co => resumed
    { s with status := Function.update s.status co .exited, current := s.parent co })

def create (s : Sched) (fresh : Option Nat) : Option Sched := do
  let (out, pool) ← efCoroutineCreate s.pool fresh
  match out with
  | none => some { s with pool := pool }
  | some co => some { s with pool := pool, status := Function.update s.status co .inited }

inductive Act where
  | create (fresh : Option Nat)
  | resume (co : Nat)
  | yield
  | exit
  | shrink (idle : Nat → Bool) (maxCount : Int)

def step (s : Sched) : Act → Option Sched
  | .create fresh => s.create fresh
  | .resume co => some (s.resumeCoroutine co)
  | .yield => s.efFiberYield
  | .exit => s.efFiberExit
  | .shrink idle maxCount => some { s with pool := efCoroutinePoolShrink s.pool idle maxCount }

/-- Whether a coroutine runs, or waits for one that it has resumed. -/
def isRunning (s : Sched) (co : Nat) : Bool :=
  s.current = some co ∨ (s.resuming (some co)).isSome

/-- Only coroutines of the pool are resumed, and none that runs. -/
def resumesIdle (s : Sched) (a : Act) : Bool :=
  match a with
  | .resume co => co ∈ s.pool.fullList ∧ s.isRunning co = false
  | _ => true

/-! ## The fibers that run -/

def Inited (s : Sched) (co : Nat) : Prop := s.status co = .inited

/-- The coroutines from fiber `f` down to the thread, where each is resumed by the next and `f`
is in a call for `above`. -/
def Frames (s : Sched) : Option Nat → Option Nat → List Nat → Prop
  | above, f, [] => f = none ∧ s.resuming none = above
  | above, f, co :: stk =>
      f = some co ∧ s.Inited co ∧ s.resuming (some co) = above ∧ s.Frames (some co) (s.parent co) stk

variable {s s' : Sched} {above f : Option Nat} {stk : List Nat} {co : Nat}

theorem Frames.inited (h : s.Frames above f stk) : ∀ co ∈ stk, s.Inited co := by
  induction stk generalizing above f with
  | nil => exact fun co hco => absurd hco List.not_mem_nil
  | cons c stk ih =>
      obtain ⟨_, hi, _, hrest⟩ := h
      intro co hco
      rcases List.mem_cons.mp hco with rfl | hco
      · exact hi
      · exact ih hrest co hco

theorem Frames.isRunning (h : s.Frames above f stk) (hf : f = s.current ∨ above.isSome)
    (hco : co ∈ stk) : s.isRunning co = true := by
  unfold Sched.isRunning
  rw [decide_eq_true_eq]
  induction stk generalizing above f with
  | nil => exact absurd hco List.not_mem_nil
  | cons c stk ih =>
      obtain ⟨rfl, _, hr, hrest⟩ := h
      rcases List.mem_cons.mp hco with rfl | hco
      · rcases hf with hf | hf
        · exact Or.inl hf.symm
        · rw [hr]
          exact Or.inr hf
      · exact ih hrest (Or.inr rfl) hco

theorem Frames.congr (h : s.Frames above f stk) (hstatus : ∀ co ∈ stk, s'.status co = s.status co)
    (hparent : ∀ co ∈ stk, s'.parent co = s.parent co)
    (hresuming : ∀ co ∈ stk, s'.resuming (some co) = s.resuming (some co))
    (hthread : s'.resuming none = s.resuming none) : s'.Frames above f stk := by
  induction stk generalizing above f with
  | nil => exact ⟨h.1, hthread.trans h.2⟩
  | cons c stk ih =>
      obtain ⟨hf, hi, hr, hrest⟩ := h
      have hc : c ∈ c :: stk := List.mem_cons_self
      have htail : ∀ co ∈ stk, co ∈ c :: stk := fun co => List.mem_cons_of_mem c
      refine ⟨hf, (hstatus c hc).trans hi, (hresuming c hc).trans hr, ?_⟩
      rw [hparent c hc]
      exact ih hrest (fun co hco => hstatus co (htail co hco))
        (fun co hco => hparent co (htail co hco)) (fun co hco => hresuming co (htail co hco))

theorem Frames.setTop (h : s.Frames above f stk) (hnodup : stk.Nodup) (above' : Option Nat)
    (hstatus : ∀ co ∈ stk, s'.status co = s.status co)
    (hparent : ∀ co ∈ stk, s'.parent co = s.parent co)
    (hresuming : s'.resuming = Function.update s.resuming f above') :
    s'.Frames above' f stk := by
  cases stk with
  | nil =>
      obtain ⟨rfl, _⟩ := h
      refine ⟨rfl, ?_⟩
      rw [hresuming, Function.update_self]
  | cons c stk =>
      obtain ⟨rfl, hi, _, hrest⟩ := h
      have hc : c ∈ c :: stk := List.mem_cons_self
      obtain ⟨hnot, _⟩ := List.nodup_cons.mp hnodup
      refine ⟨rfl, (hstatus c hc).trans hi, ?_, ?_⟩
      · rw [hresuming, Function.update_self]
      · rw [hparent c hc]
        refine hrest.congr (fun co hco => hstatus co (List.mem_cons_of_mem c hco))
          (fun co hco => hparent co (List.mem_cons_of_mem c hco)) (fun co hco => ?_) ?_
        · rw [hresuming]
          refine Function.update_of_ne ?_ _ _
          rintro he
          rw [Option.some.inj he] at hco
          exact hnot hco
        · rw [hresuming]
          exact Function.update_of_ne (Option.some_ne_none c).symm _ _

/-! ## The invariant -/

structure Inv (limitMax : Int) (s : Sched) : Prop where
  pool : s.pool.Ok s.Inited
  limitMax : s.pool.limitMax = limitMax
  frames : ∃ stk, s.Frames none s.current stk ∧ stk.Nodup ∧
    ∀ co, co ∉ stk → s.resuming (some co) = none

variable {limitMin limitMax : Int}

theorem inv_init : Inv limitMax (init limitMin limitMax) where
  pool := CoroutinePool.ok_init _ _ (fun _ h => FiberStatus.noConfusion h)
  limitMax := rfl
  frames := ⟨[], ⟨rfl, rfl⟩, List.nodup_nil, fun _ _ => rfl⟩

theorem inited_update (s : Sched) (co : Nat) (status : FiberStatus) (c : Nat) :
    Function.update s.status co status c = .inited ↔
      (c = co ∧ status = .inited) ∨ (c ≠ co ∧ s.Inited c) := by
  unfold Inited
  by_cases he : c = co <;> simp [he]

theorem exited_of_not_inited (h : ¬ s.Inited co) : s.status co = .exited := by
  cases hst : s.status co with
  | exited => rfl
  | inited => exact absurd hst h

theorem Inv.exited_of_free (h : Inv limitMax s) (hf : co ∈ s.pool.freeList) :
    s.status co = .exited :=
  exited_of_not_inited (h.pool.not_live co hf)

theorem Inv.not_running (h : Inv limitMax s) (hnot : ¬ s.Inited co) : s.isRunning co = false := by
  obtain ⟨stk, hf, _, hout⟩ := h.frames
  have hco : co ∉ stk := fun hmem => hnot (hf.inited co hmem)
  have hcur : s.current ≠ some co := by
    cases stk with
    | nil =>
        rw [hf.1]
        exact (Option.some_ne_none co).symm
    | cons c stk =>
        rw [hf.1]
        intro he
        cases he
        exact hco List.mem_cons_self
  simp [isRunning, hcur, hout co hco]

theorem Inv.create (h : Inv limitMax s) {fresh : Option Nat} (hs : s.create fresh = some s') :
    Inv limitMax s' := by
  obtain ⟨⟨out, pool⟩, hc, hs⟩ := Option.bind_eq_some_iff.mp hs
  have hlimit := (efCoroutineCreate_limits hc).2.trans h.limitMax
  rcases h.pool.create hc with ⟨rfl, rfl, _⟩ | ⟨co, rfl, hnot, _, hok⟩
  · cases hs
    exact h
  · cases hs
    obtain ⟨stk, hf, hnodup, hout⟩ := h.frames
    refine ⟨hok.congr (fun c => (inited_update s co .inited c).trans ?_), hlimit, stk, ?_, hnodup,
      hout⟩
    · by_cases he : c = co <;> simp [he]
    · refine hf.congr (fun c hmem => Function.update_of_ne ?_ _ _) (fun _ _ => rfl)
        (fun _ _ => rfl) rfl
      rintro rfl
      exact hnot (hf.inited c hmem)

/-- Resuming a coroutine that has exited does nothing. -/
theorem resumeCoroutine_exited (h : s.status co = .exited) : s.resumeCoroutine co = s := by
  simp [resumeCoroutine, efFiberResume, h]

theorem resumeCoroutine_inited (h : s.status co = .inited) :
    s.resumeCoroutine co = { s with
      parent := Function.update s.parent co s.current
      current := some co
      resuming := Function.update s.resuming s.current (some co) } := by
  simp [resumeCoroutine, efFiberResume, h]

theorem Inv.resume (h : Inv limitMax s) (hidle : s.isRunning co = false) :
    Inv limitMax (s.resumeCoroutine co) := by
  cases hst : s.status co with
  | exited =>
      rw [resumeCoroutine_exited hst]
      exact h
  | inited =>
      rw [resumeCoroutine_inited hst]
      obtain ⟨stk, hf, hnodup, hout⟩ := h.frames
      have hnot : co ∉ stk := fun hco => by
        rw [hf.isRunning (Or.inl rfl) hco] at hidle
        cases hidle
      have hcur : s.current ≠ some co := fun hc => by
        unfold isRunning at hidle
        simp [hc] at hidle
      refine ⟨h.pool, h.limitMax, co :: stk, ⟨rfl, hst, ?_, ?_⟩, List.nodup_cons.mpr ⟨hnot, hnodup⟩,
        fun c hc => ?_⟩
      · exact (Function.update_of_ne hcur.symm _ _).trans (hout co hnot)
      · dsimp only
        rw [Function.update_self]
        refine hf.setTop hnodup (some co) (fun _ _ => rfl) (fun c hc => ?_) rfl
        refine Function.update_of_ne ?_ _ _
        rintro rfl
        exact hnot hc
      · obtain ⟨hne, hc⟩ := not_or.mp (fun h' => hc (List.mem_cons.mpr h'))
        refine (Function.update_of_ne ?_ _ _).trans (hout c hc)
        intro he
        cases stk with
        | nil =>
            rw [hf.1] at he
            cases he
        | cons c' stk =>
            rw [hf.1] at he
            cases he
            exact hc List.mem_cons_self

theorem Inv.back (h : Inv limitMax s) (hcur : s.current = some co) {status : Nat → FiberStatus}
    (hstatus : ∀ c, c ≠ co → status c = s.status c) :
    ∃ stk, (resumed { s with status := status, current := s.parent co }) =
        { s with
          status := status
          current := s.parent co
          resuming := Function.update s.resuming (s.parent co) none
          pool := if status co = .exited then efCoroutineExited s.pool co else s.pool } ∧
      Frames { s with
          status := status
          current := s.parent co
          resuming := Function.update s.resuming (s.parent co) none } none (s.parent co) stk ∧
      stk.Nodup ∧
      ∀ c, c ∉ stk → Function.update s.resuming (s.parent co) none (some c) = none := by
  obtain ⟨stk, hf, hnodup, hout⟩ := h.frames
  cases stk with
  | nil =>
      rw [hcur] at hf
      cases hf.1
  | cons c stk =>
      obtain ⟨hc, _, hr, hrest⟩ := hf
      rw [hcur] at hc
      cases hc
      obtain ⟨hnot, hnodup⟩ := List.nodup_cons.mp hnodup
      have hcall : s.resuming (s.parent co) = some co := by
        cases stk with
        | nil =>
            rw [hrest.1]
            exact hrest.2
        | cons c stk =>
            rw [hrest.1]
            exact hrest.2.2.1
      refine ⟨stk, ?_, ?_, hnodup, fun c hc => ?_⟩
      · unfold resumed
        simp only [hcall]
      · refine hrest.setTop hnodup none (fun c hc => hstatus c ?_) (fun _ _ => rfl) rfl
        rintro rfl
        exact hnot hc
      · by_cases he : some c = s.parent co
        · rw [he, Function.update_self]
        · rw [Function.update_of_ne he]
          by_cases hcc : c = co
          · rw [hcc]
            exact hr
          · exact hout c (fun h' => (List.mem_cons.mp h').elim hcc hc)

theorem Inv.inited_of_current (h : Inv limitMax s) (hcur : s.current = some co) :
    s.Inited co := by
  obtain ⟨stk, hf, _⟩ := h.frames
  cases stk with
  | nil =>
      rw [hcur] at hf
      cases hf.1
  | cons c stk =>
      have hc := hf.1
      rw [hcur] at hc
      cases hc
      exact hf.2.1

theorem Inv.yield (h : Inv limitMax s) (hs : s.efFiberYield = some s') : Inv limitMax s' := by
  obtain ⟨co, hcur, rfl⟩ := Option.map_eq_some_iff.mp hs
  have hi : s.status co = .inited := h.inited_of_current hcur
  obtain ⟨stk, he, hf, hnodup, hout⟩ := h.back hcur (fun _ _ => rfl)
  have hne : s.status co ≠ .exited := by
    rw [hi]
    exact FiberStatus.noConfusion
  rw [he, if_neg hne]
  exact ⟨h.pool, h.limitMax, stk, hf, hnodup, hout⟩

theorem Inv.exit (h : Inv limitMax s) (hs : s.efFiberExit = some s') : Inv limitMax s' := by
  obtain ⟨co, hcur, rfl⟩ := Option.map_eq_some_iff.mp hs
  obtain ⟨stk, he, hf, hnodup, hout⟩ := h.back hcur
    (fun c hc => Function.update_of_ne hc .exited s.status)
  rw [he, if_pos (Function.update_self _ _ _)]
  refine ⟨(h.pool.exited (h.inited_of_current hcur)).congr
      (fun c => (inited_update s co .exited c).trans ?_), h.limitMax, stk,
    hf.congr (fun _ _ => rfl) (fun _ _ => rfl) (fun _ _ => rfl) rfl, hnodup, hout⟩
  simp [and_comm]

theorem Inv.step (h : Inv limitMax s) {a : Act} (hidle : s.resumesIdle a = true)
    (hs : s.step a = some s') : Inv limitMax s' := by
  cases a with
  | create fresh => exact h.create hs
  | resume co =>
      cases hs
      exact h.resume (of_decide_eq_true hidle).2
  | yield => exact h.yield hs
  | exit => exact h.exit hs
  | shrink idle maxCount =>
      cases hs
      obtain ⟨hok, hshrunk⟩ := h.pool.shrink idle maxCount
      obtain ⟨stk, hf, hnodup, hout⟩ := h.frames
      exact ⟨hok, hshrunk.limitMax.trans h.limitMax, stk,
        hf.congr (fun _ _ => rfl) (fun _ _ => rfl) (fun _ _ => rfl) rfl, hnodup, hout⟩

/-! ## Runs -/

/-- The books of the pool are right in every state, a coroutine that is created is none that is
in use, and shrinking deletes none that has not exited. -/
theorem coroutine_pool_books (limitMin limitMax : Int) (hmax : 0 ≤ limitMax) {s : Sched}
    (h : Lib.Reachable (fun s => s = init limitMin limitMax) step
      (fun s a => s.resumesIdle a = true) s) :
    s.pool.fullCount = s.pool.fullList.length ∧ s.pool.freeCount = s.pool.freeList.length ∧
    s.pool.fullList.Nodup ∧ s.pool.freeList.Nodup ∧
    (∀ co, co ∈ s.pool.freeList ↔ co ∈ s.pool.fullList ∧ s.status co = .exited) ∧
    s.pool.freeCount ≤ s.pool.fullCount ∧ s.pool.fullCount ≤ limitMax ∧
    (∀ fresh co pool, efCoroutineCreate s.pool fresh = some (some co, pool) →
      co ∈ s.pool.fullList → s.status co = .exited ∧ s.isRunning co = false) ∧
    (∀ idle maxCount co, co ∈ s.pool.fullList →
      co ∉ (efCoroutinePoolShrink s.pool idle maxCount).fullList → s.status co = .exited) := by
  have hinv : Lib.Invariant (fun s => s = init limitMin limitMax) step
      (fun s a => s.resumesIdle a = true) (Inv limitMax) :=
    ⟨fun h₀ => by rw [h₀]; exact inv_init, fun h₀ hg hs => h₀.step hg hs⟩
  have hi := hinv.holds h
  have hlimit := hi.pool.limit (by rw [hi.limitMax]; exact hmax)
  rw [hi.limitMax] at hlimit
  refine ⟨hi.pool.fullCount, hi.pool.freeCount, hi.pool.full_nodup, hi.pool.nodup,
    fun co => ⟨fun hf => ⟨hi.pool.free_full co hf, hi.exited_of_free hf⟩, fun ⟨hfull, hx⟩ => ?_⟩,
    hi.pool.freeCount_le, hlimit, fun fresh co pool hc hfull => ?_,
    fun idle maxCount co hfull hdel => ?_⟩
  · refine (hi.pool.full_live co hfull).elim id (fun hl => ?_)
    rw [show s.status co = .inited from hl] at hx
    cases hx
  · rcases hi.pool.create hc with ⟨hco, _⟩ | ⟨co', hco, hnot, _⟩
    · cases hco
    cases hco
    exact ⟨exited_of_not_inited hnot, hi.not_running hnot⟩
  · rcases (hi.pool.shrink idle maxCount).2.deleted co hfull with hmem | hf
    · exact absurd hmem hdel
    · exact hi.exited_of_free hf

/-- Two coroutines, one started by the other, exit; one is resumed again, one deleted, and one
taken into use again. -/
def nested : List Act :=
  [.create (some 1000), .resume 1000, .create (some 1001), .resume 1001, .yield, .resume 1001,
    .exit, .resume 1001, .exit, .shrink (fun _ => true) 1, .create none]

theorem coroutine_pool_books_nested : ∃ s, Lib.run step (fun s a => s.resumesIdle a = true)
      (init 0 10) nested = some s ∧ s.pool.fullList = [1000] ∧ s.pool.fullCount = 1 ∧
    ∀ co, co ∈ s.pool.freeList ↔ co ∈ s.pool.fullList ∧ s.status co = .exited := by
  have hrun : (Lib.run step (fun s a => s.resumesIdle a = true) (init 0 10) nested).map
      (fun s => s.pool.fullList) = some [1000] := by decide
  obtain ⟨s, hr, hfull⟩ := Option.map_eq_some_iff.mp hrun
  have hinit : Lib.Reachable (fun s => s = init 0 10) step (fun s a => s.resumesIdle a = true)
      (init 0 10) := .init rfl
  obtain ⟨hcount, _, _, _, hfree, _⟩ := coroutine_pool_books 0 10 (by decide) (hinit.run hr)
  rw [hfull] at hcount
  exact ⟨s, hr, hfull, hcount, hfree⟩

end Sched

end EFramework
