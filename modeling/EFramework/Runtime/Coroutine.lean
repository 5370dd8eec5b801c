import Mathlib.Data.List.Nodup
import Mathlib.Data.List.Perm.Subperm
import Mathlib.Tactic.Common

/-! # The coroutine pool of `coroutine.c`

Coroutines are named by numbers, as the program names them by their addresses.
`ef_coroutine_resume` transfers control; here is only what it does to the pool
when the coroutine has exited.
-/

namespace EFramework

structure CoroutinePool where
  limitMin : Int
  limitMax : Int
  fullList : List Nat
  freeList : List Nat
  fullCount : Int
  freeCount : Int
  runCount : Nat
deriving Repr, DecidableEq

def efCoroutinePoolInit (limitMin limitMax : Int) : CoroutinePool :=
  { limitMin := limitMin, limitMax := limitMax, fullList := [], freeList := [], fullCount := 0
    freeCount := 0, runCount := 0 }

/-- `fresh` is what `ef_fiber_create` returns, a block outside the pool. The outer `none` is a
`free_count` beyond the free list. -/
def efCoroutineCreate (pool : CoroutinePool) (fresh : Option Nat) :
    Option (Option Nat × CoroutinePool) :=
  if 0 < pool.freeCount then
    match pool.freeList with
    | [] => none
    | co :: rest => some (some co, { pool with freeCount := pool.freeCount - 1, freeList := rest })
  else if pool.limitMax ≤ pool.fullCount then some (none, pool)
  else
    match fresh with
    | none => some (none, pool)
    | some co =>
        if co ∈ pool.fullList then none
        else some (some co,
          { pool with fullCount := pool.fullCount + 1, fullList := co :: pool.fullList })

theorem efCoroutineCreate_limits {pool pool' : CoroutinePool} {fresh out : Option Nat}
    (h : efCoroutineCreate pool fresh = some (out, pool')) :
    pool'.limitMin = pool.limitMin ∧ pool'.limitMax = pool.limitMax := by
  unfold efCoroutineCreate at h
  repeat' split at h
  all_goals first | cases h; exact ⟨rfl, rfl⟩ | cases h

/-- The end of `ef_coroutine_resume` for a coroutine that has exited. -/
def efCoroutineExited (pool : CoroutinePool) (co : Nat) : CoroutinePool :=
  { pool with
    freeList := co :: pool.freeList
    freeCount := pool.freeCount + 1
    runCount := pool.runCount + 1 }

/-- The loop of `ef_coroutine_pool_shrink` over the free list from its tail. -/
def shrinkLoop (idle : Nat → Bool) : List Nat → Nat → CoroutinePool → CoroutinePool
  | co :: rest, maxCount + 1, pool =>
      if idle co then
        shrinkLoop idle rest maxCount
          { pool with
            freeCount := pool.freeCount - 1
            fullCount := pool.fullCount - 1
            freeList := pool.freeList.erase co
            fullList := pool.fullList.erase co }
      else pool
  | _, _, pool => pool

/-- `idle` says of which coroutines the last run is long enough ago. With a clock, and with counts
that may overflow, this is `efCoroutinePoolShrinkAt`, which agrees where they do not. -/
def efCoroutinePoolShrink (pool : CoroutinePool) (idle : Nat → Bool) (maxCount : Int) :
    CoroutinePool :=
  if pool.freeCount ≤ 0 ∨ (0 < maxCount ∧ pool.fullCount ≤ pool.limitMin) then pool
  else
    let beyondMin := pool.fullCount - pool.limitMin
    let maxCount := if beyondMin < maxCount then beyondMin else maxCount
    shrinkLoop idle pool.freeList.reverse maxCount.natAbs pool

/-! ## What the pool keeps -/

namespace CoroutinePool

/-- The pool over the coroutines that are in use. -/
structure Ok (pool : CoroutinePool) (live : Nat → Prop) : Prop where
  fullCount : pool.fullCount = pool.fullList.length
  freeCount : pool.freeCount = pool.freeList.length
  full_nodup : pool.fullList.Nodup
  nodup : pool.freeList.Nodup
  free_full : ∀ co ∈ pool.freeList, co ∈ pool.fullList
  not_live : ∀ co ∈ pool.freeList, ¬ live co
  live_full : ∀ co, live co → co ∈ pool.fullList
  full_live : ∀ co ∈ pool.fullList, co ∈ pool.freeList ∨ live co
  limit : 0 ≤ pool.limitMax → pool.fullCount ≤ pool.limitMax

variable {pool pool' : CoroutinePool} {live : Nat → Prop} {co : Nat}

theorem Ok.congr (h : pool.Ok live) {live' : Nat → Prop} (hl : ∀ co, live' co ↔ live co) :
    pool.Ok live' := by
  have he : live' = live := funext fun co => propext (hl co)
  rw [he]
  exact h

theorem ok_init (limitMin limitMax : Int) (hl : ∀ co, ¬ live co) :
    (efCoroutinePoolInit limitMin limitMax).Ok live where
  fullCount := rfl
  freeCount := rfl
  full_nodup := List.nodup_nil
  nodup := List.nodup_nil
  free_full := fun _ h => absurd h List.not_mem_nil
  not_live := fun _ h => absurd h List.not_mem_nil
  live_full := fun co h => absurd h (hl co)
  full_live := fun _ h => absurd h List.not_mem_nil
  limit := id

theorem Ok.freeCount_le (h : pool.Ok live) : pool.freeCount ≤ pool.fullCount := by
  rw [h.freeCount, h.fullCount]
  exact_mod_cast (List.subperm_of_subset h.nodup h.free_full).length_le

theorem Ok.not_live_of_counts (h : pool.Ok live) (hcount : pool.freeCount = pool.fullCount)
    (co : Nat) : ¬ live co := by
  intro hl
  rw [h.freeCount, h.fullCount] at hcount
  have hperm := (List.subperm_of_subset h.nodup h.free_full).perm_of_length_le
    (by omega)
  exact h.not_live co (hperm.mem_iff.mpr (h.live_full co hl)) hl

/-- The free list without its head. -/
theorem Ok.take (h : pool.Ok live) {rest : List Nat} (hfree : pool.freeList = co :: rest) :
    ({ pool with freeCount := pool.freeCount - 1, freeList := rest } : CoroutinePool).Ok
      (fun c => c = co ∨ live c) := by
  have hnodup := h.nodup
  have hcount := h.freeCount
  rw [hfree] at hnodup hcount
  obtain ⟨hnot, hnodup⟩ := List.nodup_cons.mp hnodup
  have hmem : ∀ c ∈ rest, c ∈ pool.freeList := fun c hc => by
    rw [hfree]
    exact List.mem_cons_of_mem co hc
  have hco : co ∈ pool.freeList := by
    rw [hfree]
    exact List.mem_cons_self
  refine ⟨h.fullCount, ?_, h.full_nodup, hnodup, fun c hc => h.free_full c (hmem c hc), ?_, ?_,
    ?_, h.limit⟩
  · rw [hcount, List.length_cons]
    push_cast
    omega
  · rintro c hc (rfl | hl)
    · exact hnot hc
    · exact h.not_live c (hmem c hc) hl
  · rintro c (rfl | hl)
    · exact h.free_full c hco
    · exact h.live_full c hl
  · intro c hc
    rcases h.full_live c hc with hf | hl
    · rw [hfree] at hf
      rcases List.mem_cons.mp hf with rfl | hf
      · exact Or.inr (Or.inl rfl)
      · exact Or.inl hf
    · exact Or.inr (Or.inr hl)

theorem Ok.add (h : pool.Ok live) (hnot : co ∉ pool.fullList)
    (hlimit : pool.fullCount < pool.limitMax) :
    ({ pool with
      fullCount := pool.fullCount + 1, fullList := co :: pool.fullList } : CoroutinePool).Ok
      (fun c => c = co ∨ live c) := by
  refine ⟨?_, h.freeCount, List.nodup_cons.mpr ⟨hnot, h.full_nodup⟩, h.nodup,
    fun c hc => List.mem_cons_of_mem co (h.free_full c hc), ?_, ?_, ?_, fun _ => ?_⟩
  · simp only [List.length_cons, h.fullCount]
    push_cast
    rfl
  · rintro c hc (rfl | hl)
    · exact hnot (h.free_full c hc)
    · exact h.not_live c hc hl
  · rintro c (rfl | hl)
    · exact List.mem_cons_self
    · exact List.mem_cons_of_mem co (h.live_full c hl)
  · intro c hc
    rcases List.mem_cons.mp hc with rfl | hc
    · exact Or.inr (Or.inl rfl)
    · exact (h.full_live c hc).imp id Or.inr
  · exact hlimit

theorem Ok.create (h : pool.Ok live) {fresh : Option Nat} {out : Option Nat}
    (he : efCoroutineCreate pool fresh = some (out, pool')) :
    (out = none ∧ pool' = pool ∧ pool.freeCount ≤ 0 ∧
        (pool.limitMax ≤ pool.fullCount ∨ fresh = none)) ∨
      ∃ co, out = some co ∧ ¬ live co ∧ (co ∈ pool.freeList ∨ co ∉ pool.fullList) ∧
        pool'.Ok (fun c => c = co ∨ live c) := by
  unfold efCoroutineCreate at he
  split at he
  next hpos =>
    split at he
    · cases he
    next co rest hfree =>
      cases he
      have hco : co ∈ pool.freeList := by
        rw [hfree]
        exact List.mem_cons_self
      exact Or.inr ⟨co, rfl, h.not_live co hco, Or.inl hco, h.take hfree⟩
  next hpos =>
    have hfree : pool.freeCount ≤ 0 := Int.not_lt.mp hpos
    split at he
    next hlimit =>
      cases he
      exact Or.inl ⟨rfl, rfl, hfree, Or.inl hlimit⟩
    next hlimit =>
      split at he
      · cases he
        exact Or.inl ⟨rfl, rfl, hfree, Or.inr rfl⟩
      next co =>
        split at he
        · cases he
        next hnot =>
          cases he
          exact Or.inr ⟨co, rfl, fun hl => hnot (h.live_full co hl), Or.inr hnot,
            h.add hnot (Int.not_le.mp hlimit)⟩

theorem Ok.exited (h : pool.Ok live) (hco : live co) :
    (efCoroutineExited pool co).Ok (fun c => live c ∧ c ≠ co) := by
  refine ⟨h.fullCount, ?_, h.full_nodup, ?_, ?_, ?_, fun c hc => h.live_full c hc.1, ?_, h.limit⟩
  · simp only [efCoroutineExited, List.length_cons, h.freeCount]
    push_cast
    rfl
  · exact List.nodup_cons.mpr ⟨fun hmem => h.not_live co hmem hco, h.nodup⟩
  · intro c hc
    rcases List.mem_cons.mp hc with rfl | hc
    · exact h.live_full c hco
    · exact h.free_full c hc
  · rintro c hc ⟨hl, hne⟩
    rcases List.mem_cons.mp hc with rfl | hc
    · exact hne rfl
    · exact h.not_live c hc hl
  · intro c hc
    by_cases he : c = co
    · rw [he]
      exact Or.inl List.mem_cons_self
    · rcases h.full_live c hc with hf | hl
      · exact Or.inl (List.mem_cons_of_mem co hf)
      · exact Or.inr ⟨hl, he⟩

theorem Ok.delete (h : pool.Ok live) (hco : co ∈ pool.freeList) :
    ({ pool with
      freeCount := pool.freeCount - 1
      fullCount := pool.fullCount - 1
      freeList := pool.freeList.erase co
      fullList := pool.fullList.erase co } : CoroutinePool).Ok live := by
  have hpos := List.length_pos_of_mem hco
  have hpos' := List.length_pos_of_mem (h.free_full co hco)
  have hmem : ∀ c, c ≠ co → c ∈ pool.fullList → c ∈ pool.fullList.erase co :=
    fun c hne hc => (List.mem_erase_of_ne hne).mpr hc
  refine ⟨?_, ?_, h.full_nodup.erase co, h.nodup.erase co, ?_,
    fun c hc => h.not_live c (List.mem_of_mem_erase hc), ?_, ?_, fun hl => ?_⟩
  · simp only [List.length_erase_of_mem (h.free_full co hco), h.fullCount]
    omega
  · simp only [List.length_erase_of_mem hco, h.freeCount]
    omega
  · intro c hc
    obtain ⟨hne, hc⟩ := h.nodup.mem_erase_iff.mp hc
    exact hmem c hne (h.free_full c hc)
  · intro c hl
    refine hmem c ?_ (h.live_full c hl)
    rintro rfl
    exact h.not_live c hco hl
  · intro c hc
    obtain ⟨hne, hc⟩ := h.full_nodup.mem_erase_iff.mp hc
    exact (h.full_live c hc).imp (fun hf => (List.mem_erase_of_ne hne).mpr hf) id
  · have := h.limit hl
    dsimp only
    omega

structure Shrunk (pool pool' : CoroutinePool) : Prop where
  limitMin : pool'.limitMin = pool.limitMin
  limitMax : pool'.limitMax = pool.limitMax
  deleted : ∀ co ∈ pool.fullList, co ∈ pool'.fullList ∨ co ∈ pool.freeList
  free : ∀ co ∈ pool'.freeList, co ∈ pool.freeList

theorem Shrunk.refl (pool : CoroutinePool) : Shrunk pool pool :=
  ⟨rfl, rfl, fun _ h => Or.inl h, fun _ h => h⟩

theorem Ok.shrinkLoop (h : pool.Ok live) (idle : Nat → Bool) {cos : List Nat} (maxCount : Nat)
    (hcos : ∀ co ∈ cos, co ∈ pool.freeList) (hnodup : cos.Nodup) :
    (EFramework.shrinkLoop idle cos maxCount pool).Ok live ∧
      Shrunk pool (EFramework.shrinkLoop idle cos maxCount pool) := by
  induction cos generalizing pool maxCount with
  | nil => exact ⟨h, .refl pool⟩
  | cons co cos ih =>
      cases maxCount with
      | zero => exact ⟨h, .refl pool⟩
      | succ maxCount =>
          rw [EFramework.shrinkLoop]
          obtain ⟨hnot, hnodup⟩ := List.nodup_cons.mp hnodup
          have hco := hcos co List.mem_cons_self
          split
          · obtain ⟨hok, hs⟩ := ih (h.delete hco) maxCount (fun c hc => by
              have hne : c ≠ co := by
                rintro rfl
                exact hnot hc
              exact (List.mem_erase_of_ne hne).mpr (hcos c (List.mem_cons_of_mem co hc))) hnodup
            refine ⟨hok, hs.limitMin, hs.limitMax, fun c hc => ?_,
              fun c hc => List.mem_of_mem_erase (hs.free c hc)⟩
            by_cases he : c = co
            · rw [he]
              exact Or.inr hco
            · exact (hs.deleted c ((List.mem_erase_of_ne he).mpr hc)).imp id
                List.mem_of_mem_erase
          · exact ⟨h, .refl pool⟩

theorem Ok.shrink (h : pool.Ok live) (idle : Nat → Bool) (maxCount : Int) :
    (efCoroutinePoolShrink pool idle maxCount).Ok live ∧
      Shrunk pool (efCoroutinePoolShrink pool idle maxCount) := by
  unfold efCoroutinePoolShrink
  split
  · exact ⟨h, .refl pool⟩
  · exact h.shrinkLoop idle _ (fun co hco => List.mem_reverse.mp hco)
      (List.nodup_reverse.mpr h.nodup)

end CoroutinePool

end EFramework
