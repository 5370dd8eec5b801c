import EFramework.Lib.Run
import EFramework.Runtime.Shrink

/-! # Runs of a pool

Coroutines are created, resumed and deleted in any order while the clock goes on.
Those that have exited stand in the free list, the last to exit first, so the ones
that a shrink finds at the end are the longest idle.
-/

namespace EFramework

/-! ## The pool -/

namespace CoroutinePool

variable {pool pool' : CoroutinePool} {live : Nat → Prop}

theorem Ok.own (h : pool.Ok live) :
    pool.Ok (fun co => co ∈ pool.fullList ∧ co ∉ pool.freeList) where
  fullCount := h.fullCount
  freeCount := h.freeCount
  full_nodup := h.full_nodup
  nodup := h.nodup
  free_full := h.free_full
  not_live := fun _ hco hl => hl.2 hco
  live_full := fun _ hl => hl.1
  full_live := fun co hco => by
    by_cases hfree : co ∈ pool.freeList
    · exact Or.inl hfree
    · exact Or.inr ⟨hco, hfree⟩
  limit := h.limit

theorem Ok.without (h : pool.Ok live) {cos : List Nat} (hcos : ∀ co ∈ cos, co ∈ pool.freeList)
    (hnodup : cos.Nodup) : (pool.without cos).Ok live := by
  induction cos generalizing pool with
  | nil => simpa [CoroutinePool.without] using h
  | cons co cos ih =>
      obtain ⟨hnot, hnodup⟩ := List.nodup_cons.mp hnodup
      rw [without_cons]
      apply ih (h.delete (hcos co List.mem_cons_self)) _ hnodup
      intro c hc
      have hne : c ≠ co := fun he => hnot (he ▸ hc)
      exact (List.mem_erase_of_ne hne).mpr (hcos c (List.mem_cons_of_mem co hc))

end CoroutinePool

/-- A coroutine is taken from the head of the free list. -/
theorem efCoroutineCreate_freeList {pool pool' : CoroutinePool} {fresh out : Option Nat}
    (h : efCoroutineCreate pool fresh = some (out, pool')) : pool'.freeList <:+ pool.freeList := by
  unfold efCoroutineCreate at h
  split at h
  · split at h
    · cases h
    next co rest hfree =>
      cases h
      rw [hfree]
      exact List.suffix_cons co rest
  · split at h
    · cases h
      exact List.suffix_rfl
    · split at h
      · cases h
        exact List.suffix_rfl
      · split at h
        · cases h
        · cases h
          exact List.suffix_rfl

structure PoolState where
  pool : CoroutinePool
  lastRunTime : Nat → Timeval
  /-- What `gettimeofday` has stored last. -/
  clock : Timeval

/-- A call, with what `ef_fiber_create` returns, whether the coroutine exits before it yields,
and what `gettimeofday` stores. -/
inductive PoolOp where
  | create (fresh : Option Nat)
  | resume (co : Nat) (exits : Bool) (tv : Timeval)
  | shrink (idleMillisecs maxCount : Int) (tv : Timeval)

namespace PoolState

def Initial (s : PoolState) : Prop :=
  ∃ limitMin limitMax, s.pool = efCoroutinePoolInit limitMin limitMax

def create (s : PoolState) (fresh : Option Nat) : Option PoolState :=
  (efCoroutineCreate s.pool fresh).map (fun r => { s with pool := r.2 })

/-- A coroutine that has exited already is not resumed; one that is deleted must not be. -/
def resume (s : PoolState) (co : Nat) (exits : Bool) (tv : Timeval) : Option PoolState :=
  if co ∈ s.pool.fullList then
    if co ∈ s.pool.freeList ∨ exits = false then some s
    else some ⟨efCoroutineExited s.pool co, Function.update s.lastRunTime co tv, tv⟩
  else none

def shrink (s : PoolState) (idleMillisecs maxCount : Int) (tv : Timeval) : Option PoolState :=
  (efCoroutinePoolShrinkAt s.pool s.lastRunTime tv idleMillisecs maxCount).map
    (fun r => { s with pool := r.2, clock := tv })

def step (s : PoolState) : PoolOp → Option PoolState
  | .create fresh => s.create fresh
  | .resume co exits tv => s.resume co exits tv
  | .shrink idleMillisecs maxCount tv => s.shrink idleMillisecs maxCount tv

def Forward (s : PoolState) : PoolOp → Prop
  | .create _ => True
  | .resume _ _ tv | .shrink _ _ tv => s.clock ≤ tv ∧ tv.OnClock

/-- The free list is in the order of the last runs, the most recent one first. -/
structure Ordered (s : PoolState) : Prop where
  ok : s.pool.Ok (fun co => co ∈ s.pool.fullList ∧ co ∉ s.pool.freeList)
  recent : s.pool.freeList.Pairwise (fun co co' => s.lastRunTime co' ≤ s.lastRunTime co)
  past : ∀ co ∈ s.pool.freeList, s.lastRunTime co ≤ s.clock
  onClock : ∀ co ∈ s.pool.freeList, (s.lastRunTime co).OnClock

variable {s s' : PoolState} {tv : Timeval}

theorem Ordered.sublist (h : s.Ordered) {pool : CoroutinePool} {live : Nat → Prop}
    (hok : pool.Ok live) (hsub : pool.freeList.Sublist s.pool.freeList)
    (hclock : s.clock ≤ tv) : Ordered { s with pool := pool, clock := tv } where
  ok := hok.own
  recent := h.recent.sublist hsub
  past := fun co hco => Int.le_trans (h.past co (hsub.subset hco)) hclock
  onClock := fun co hco => h.onClock co (hsub.subset hco)

theorem Ordered.init (hs : s.Initial) : s.Ordered := by
  obtain ⟨limitMin, limitMax, hpool⟩ := hs
  have hok := CoroutinePool.ok_init limitMin limitMax (fun _ => not_false)
  rw [← hpool] at hok
  refine ⟨hok.own, ?_, ?_, ?_⟩ <;> rw [hpool] <;> simp [efCoroutinePoolInit]

theorem Ordered.create (h : s.Ordered) {fresh : Option Nat} (he : s.create fresh = some s') :
    s'.Ordered := by
  obtain ⟨⟨out, pool'⟩, hcreate, rfl⟩ := Option.map_eq_some_iff.mp he
  have hsub := (efCoroutineCreate_freeList hcreate).sublist
  rcases h.ok.create hcreate with ⟨-, rfl, -⟩ | ⟨co, -, -, -, hok⟩
  · exact h.sublist h.ok hsub (Int.le_refl _)
  · exact h.sublist hok hsub (Int.le_refl _)

theorem Ordered.resume (h : s.Ordered) {co : Nat} {exits : Bool} (hclock : s.clock ≤ tv)
    (htv : tv.OnClock) (he : s.resume co exits tv = some s') : s'.Ordered := by
  unfold PoolState.resume at he
  split at he
  next hfull =>
    split at he
    · cases he
      exact h
    next hruns =>
      cases he
      have hnot : co ∉ s.pool.freeList := fun hco => hruns (Or.inl hco)
      have hold (c : Nat) (hc : c ∈ s.pool.freeList) :
          Function.update s.lastRunTime co tv c = s.lastRunTime c :=
        Function.update_of_ne (fun hco : c = co => hnot (hco ▸ hc)) _ _
      refine ⟨(h.ok.exited ⟨hfull, hnot⟩).own, List.pairwise_cons.mpr ⟨fun c hc => ?_, ?_⟩,
        fun c hc => ?_, fun c hc => ?_⟩
      · dsimp only
        rw [hold c hc, Function.update_self]
        exact Int.le_trans (h.past c hc) hclock
      · apply h.recent.imp_of_mem
        intro c c' hc hc' hle
        dsimp only
        rw [hold c hc, hold c' hc']
        exact hle
      · dsimp only
        rcases List.mem_cons.mp hc with rfl | hc
        · rw [Function.update_self]
          exact Int.le_refl _
        · rw [hold c hc]
          exact Int.le_trans (h.past c hc) hclock
      · dsimp only
        rcases List.mem_cons.mp hc with rfl | hc
        · rw [Function.update_self]
          exact htv
        · rw [hold c hc]
          exact h.onClock c hc
  next => cases he

/-- The loop deletes the end of the free list, up to the limit or to the first coroutine that has
not been idle for long enough. -/
theorem Ordered.loop (h : s.Ordered) (htv : tv.OnClock) (idleMillisecs : Int) (n : Nat) :
    ∃ keep gone, s.pool.freeList = keep ++ gone ∧
      gone.length = min n (s.pool.freeList.countP
        (fun co => expired tv (s.lastRunTime co) idleMillisecs = some true)) ∧
      shrinkFrom (fun co => expired tv (s.lastRunTime co) idleMillisecs) s.pool.freeList.reverse n
        0 s.pool = some ((gone.length : Int), s.pool.without gone.reverse) ∧
      s.pool.freeList.diff gone.reverse = keep ∧
      (∀ co ∈ gone, expired tv (s.lastRunTime co) idleMillisecs = some true) ∧
      (s.pool.without gone.reverse).Ok
        (fun co => co ∈ s.pool.fullList ∧ co ∉ s.pool.freeList) := by
  let p : Nat → Bool := fun co => expired tv (s.lastRunTime co) idleMillisecs = some true
  have htest : ∀ co ∈ s.pool.freeList.reverse,
      expired tv (s.lastRunTime co) idleMillisecs = some (p co) := by
    intro co hco
    have hlast := h.onClock co (List.mem_reverse.mp hco)
    simp [p, htv.expired_eq hlast]
  have hmono : s.pool.freeList.reverse.Pairwise (fun co co' => p co' = true → p co = true) := by
    rw [List.pairwise_reverse]
    apply h.recent.imp_of_mem
    intro co co' hco hco' hle hp
    exact decide_eq_true (expired_mono htv (h.onClock co hco) (h.onClock co' hco') hle
      (of_decide_eq_true hp))
  have hpre := take_takeWhile_prefixed p n s.pool.freeList.reverse
  have hsplit := diff_of_isPrefix_reverse h.ok.nodup hpre
  have hmem : ∀ co ∈ (s.pool.freeList.reverse.takeWhile p).take n, co ∈ s.pool.freeList :=
    fun co hco => List.mem_reverse.mp (hpre.subset hco)
  refine ⟨_, _, hsplit, ?_, ?_, ?_, fun co hco => ?_, ?_⟩
  · rw [List.length_reverse, List.length_take, length_takeWhile_eq_countP hmono,
      List.countP_reverse]
  · rw [shrinkFrom_eq htest, Int.zero_add, List.length_reverse, List.reverse_reverse]
  · rw [List.reverse_reverse]
  · have hco := List.mem_of_mem_take (List.mem_reverse.mp hco)
    have hp : p co = true := List.mem_takeWhile_imp hco
    exact of_decide_eq_true hp
  · rw [List.reverse_reverse]
    exact h.ok.without hmem (hpre.sublist.nodup (List.nodup_reverse.mpr h.ok.nodup))

theorem Ordered.shrink (h : s.Ordered) {idleMillisecs maxCount : Int} (hclock : s.clock ≤ tv)
    (htv : tv.OnClock) (he : s.shrink idleMillisecs maxCount tv = some s') : s'.Ordered := by
  obtain ⟨⟨freed, pool'⟩, hshrink, rfl⟩ := Option.map_eq_some_iff.mp he
  unfold efCoroutinePoolShrinkAt at hshrink
  split at hshrink
  · cases hshrink
    exact h.sublist h.ok (List.Sublist.refl _) hclock
  · obtain ⟨n, -, hloop⟩ := Option.bind_eq_some_iff.mp hshrink
    obtain ⟨keep, gone, hsplit, -, hloop', hkeep, -, hok⟩ :=
      h.loop htv idleMillisecs n.toNat
    rw [hloop'] at hloop
    cases hloop
    exact h.sublist hok (List.diff_sublist _ _) hclock

theorem ordered_invariant : Lib.Invariant Initial step Forward Ordered where
  init := Ordered.init
  step := by
    intro s s' op h hforward he
    cases op with
    | create fresh => exact h.create he
    | resume co exits tv => exact h.resume hforward.1 hforward.2 he
    | shrink idleMillisecs maxCount tv => exact h.shrink hforward.1 hforward.2 he

end PoolState

/-- In every run the free list is in the order of the last runs, and a shrink to a positive count
deletes its longest idle end, where `full_count - limit_min` is an `int`. -/
theorem pool_shrink {s : PoolState}
    (hs : Lib.Reachable PoolState.Initial PoolState.step PoolState.Forward s) :
    s.pool.freeList.Pairwise (fun co co' => s.lastRunTime co' ≤ s.lastRunTime co) ∧
    ∀ (tv : Timeval) (idleMillisecs maxCount : Int), s.clock ≤ tv → tv.OnClock → 0 < maxCount →
      s.pool.freeList = [] ∨ s.pool.fullCount - s.pool.limitMin < 2 ^ 31 →
      ∃ keep gone, s.pool.freeList = keep ++ gone ∧
        (gone.length : Int) = min (min maxCount (max 0 (s.pool.fullCount - s.pool.limitMin)))
          (s.pool.freeList.countP
            (fun co => expired tv (s.lastRunTime co) idleMillisecs = some true)) ∧
        efCoroutinePoolShrinkAt s.pool s.lastRunTime tv idleMillisecs maxCount =
          some ((gone.length : Int),
            { s.pool with
              freeCount := s.pool.freeCount - gone.length
              fullCount := s.pool.fullCount - gone.length
              freeList := keep
              fullList := s.pool.fullList.filter (fun co => co ∉ gone) }) ∧
        (∀ co ∈ keep, ∀ co' ∈ gone, s.lastRunTime co' ≤ s.lastRunTime co) ∧
        (∀ co ∈ gone, expired tv (s.lastRunTime co) idleMillisecs = some true) ∧
        ((∃ co ∈ keep, expired tv (s.lastRunTime co) idleMillisecs = some true) →
          (gone.length : Int) = min maxCount (max 0 (s.pool.fullCount - s.pool.limitMin))) ∧
        (s.pool.limitMin ≤ s.pool.fullCount →
          s.pool.limitMin ≤ s.pool.fullCount - gone.length) := by
  have h := PoolState.ordered_invariant.holds hs
  refine ⟨h.recent, fun tv idleMillisecs maxCount hclock htv hmax hfits => ?_⟩
  obtain ⟨keep, gone, hsplit, hlen, hloop, hkeep, hgone, -⟩ :=
    h.loop htv idleMillisecs
      (min maxCount (max 0 (s.pool.fullCount - s.pool.limitMin))).toNat
  refine ⟨keep, gone, hsplit, by omega, ?_, ?_, hgone, ?_, by omega⟩
  · have hcount := h.ok.freeCount
    have hlength := congrArg List.length hsplit
    rw [List.length_append] at hlength
    have hwithout : s.pool.without gone.reverse =
        { s.pool with
          freeCount := s.pool.freeCount - gone.length
          fullCount := s.pool.fullCount - gone.length
          freeList := keep
          fullList := s.pool.fullList.filter (fun co => co ∉ gone) } := by
      rw [CoroutinePool.without, hkeep, List.length_reverse, h.ok.full_nodup.sdiff_eq_filter]
      simp only [List.mem_reverse]
    rw [← hwithout]
    unfold efCoroutinePoolShrinkAt
    split
    next hstop =>
      have hnil : gone = [] := List.length_eq_zero_iff.mp (by omega)
      rw [hnil]
      simp [CoroutinePool.without]
    next hgo =>
      have hne : s.pool.freeList ≠ [] := by
        intro hnil
        rw [hnil] at hcount
        simp only [List.length_nil] at hcount
        omega
      have hmin : max 0 (s.pool.fullCount - s.pool.limitMin) =
          s.pool.fullCount - s.pool.limitMin := by omega
      rw [hmin] at hloop
      rw [countToFree_of_pos hmax (by omega) (hfits.resolve_left hne), Option.bind_eq_bind,
        Option.bind_some, hloop]
  · have hrecent := h.recent
    rw [hsplit] at hrecent
    exact (List.pairwise_append.mp hrecent).2.2
  · rintro ⟨co, hco, hexp⟩
    have hkeep : 0 < keep.countP
        (fun co => expired tv (s.lastRunTime co) idleMillisecs = some true) :=
      List.countP_pos_iff.mpr ⟨co, hco, by simpa using hexp⟩
    rw [hsplit, List.countP_append,
      List.countP_eq_length.mpr (fun co hco => decide_eq_true (hgone co hco))] at hlen
    omega

def PoolState.twoFree (limitMin : Int) : PoolState :=
  ⟨⟨limitMin, 4, [6, 5], [6, 5], 2, 2, 2⟩,
    Function.update (Function.update (fun _ => .ofSecs 0) 5 (.ofSecs 10)) 6 (.ofSecs 20),
    .ofSecs 20⟩

theorem PoolState.twoFree_reachable (limitMin : Int) :
    Lib.Reachable Initial step Forward (twoFree limitMin) := by
  have h₀ : Lib.Reachable Initial step Forward
      ⟨efCoroutinePoolInit limitMin 4, fun _ => .ofSecs 0, .ofSecs 0⟩ := .init ⟨limitMin, 4, rfl⟩
  have h₁ := h₀.step (a := PoolOp.create (some 5)) trivial rfl
  have h₂ := h₁.step (a := PoolOp.create (some 6)) trivial rfl
  have h₃ := h₂.step (a := PoolOp.resume 5 true (.ofSecs 10))
    ⟨show Timeval.ofSecs 0 ≤ .ofSecs 10 by decide, by decide, by decide⟩ rfl
  exact h₃.step (a := PoolOp.resume 6 true (.ofSecs 20))
    ⟨show Timeval.ofSecs 10 ≤ .ofSecs 20 by decide, by decide, by decide⟩ rfl

theorem pool_shrink_two : ∃ pool',
    efCoroutinePoolShrinkAt (PoolState.twoFree 0).pool (PoolState.twoFree 0).lastRunTime
      (.ofSecs 30) 5000 1 = some (1, pool') ∧ pool'.freeList = [6] := by
  obtain ⟨keep, gone, hsplit, hlen, he, -⟩ :=
    (pool_shrink (PoolState.twoFree_reachable 0)).2 (.ofSecs 30) 5000 1 (by decide)
      ⟨by decide, by decide⟩ (by decide) (Or.inr (by decide))
  have hone : gone.length = 1 := by
    have hmin : min (min (1 : Int) (max 0 (2 - 0))) (2 : Nat) = 1 := by decide
    exact_mod_cast hlen.trans hmin
  have hsplit : [6] ++ [5] = keep ++ gone := hsplit
  have hkeep : keep = [6] := (List.append_inj_left' hsplit hone.symm).symm
  rw [hone] at he
  exact ⟨_, he, hkeep⟩

/-- A `limit_min` that is too far below: the limit overflows although one coroutine is to go. -/
theorem pool_shrink_overflow : ∃ s,
    Lib.Reachable PoolState.Initial PoolState.step PoolState.Forward s ∧
      s.pool.freeList.countP (fun co => expired (.ofSecs 30) (s.lastRunTime co) 5000 = some true) =
        2 ∧
      efCoroutinePoolShrinkAt s.pool s.lastRunTime (.ofSecs 30) 5000 1 = none :=
  ⟨.twoFree (-2147483648), PoolState.twoFree_reachable _, by decide, by decide⟩

end EFramework
