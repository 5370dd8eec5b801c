import EFramework.Lib.CInt
import EFramework.Runtime.Coroutine
import Mathlib.Data.List.TakeWhile

/-! # Shrinking the pool by the clock

`ef_coroutine_pool_shrink` with the `last_run_time` of the coroutines and what
`gettimeofday` stores. An `int` or `long` that overflows ends the program.
-/

namespace EFramework

open Lib (asInt asLong asInt_eq asInt_eq_none asLong_eq asLong_eq_none)

structure Timeval where
  tvSec : Int
  tvUsec : Int
  usec_nonneg : 0 ≤ tvUsec
  usec_lt : tvUsec < 1000000
deriving Repr, DecidableEq

namespace Timeval

def micros (tv : Timeval) : Int := tv.tvSec * 1000000 + tv.tvUsec

instance : LE Timeval := ⟨fun a b => a.micros ≤ b.micros⟩

instance (a b : Timeval) : Decidable (a ≤ b) := inferInstanceAs (Decidable (a.micros ≤ b.micros))

theorem le_def {a b : Timeval} : a ≤ b ↔ a.micros ≤ b.micros := Iff.rfl

/-- What `gettimeofday` stores is counted from the Epoch, and its milliseconds are a `long`. -/
structure OnClock (tv : Timeval) : Prop where
  nonneg : 0 ≤ tv.tvSec
  lt : tv.tvSec * 1000 < 2 ^ 63

end Timeval

/-! ## The function -/

/-- The test of the loop. The difference of the microseconds cannot overflow. -/
def expired (tv lastRunTime : Timeval) (idleMillisecs : Int) : Option Bool := do
  let secs ← asLong (tv.tvSec - lastRunTime.tvSec)
  let millisecs ← asLong (secs * 1000)
  some (decide (idleMillisecs < millisecs ∨
    (millisecs = idleMillisecs ∧ idleMillisecs.tmod 1000 ≤ tv.tvUsec - lastRunTime.tvUsec)))

def shrinkFrom (test : Nat → Option Bool) :
    List Nat → Nat → Int → CoroutinePool → Option (Int × CoroutinePool)
  | co :: rest, maxCount + 1, freeCount, pool => do
      if ← test co then
        shrinkFrom test rest maxCount (freeCount + 1)
          { pool with
            freeCount := pool.freeCount - 1
            fullCount := pool.fullCount - 1
            freeList := pool.freeList.erase co
            fullList := pool.fullList.erase co }
      else some (freeCount, pool)
  | _, _, freeCount, pool => some (freeCount, pool)

def countToFree (pool : CoroutinePool) (maxCount : Int) : Option Int := do
  let beyondMin ← asInt (pool.fullCount - pool.limitMin)
  let maxCount := if beyondMin < maxCount then beyondMin else maxCount
  if maxCount < 0 then asInt (-maxCount) else some maxCount

def efCoroutinePoolShrinkAt (pool : CoroutinePool) (lastRunTime : Nat → Timeval) (tv : Timeval)
    (idleMillisecs maxCount : Int) : Option (Int × CoroutinePool) :=
  if pool.freeCount ≤ 0 ∨ (0 < maxCount ∧ pool.fullCount ≤ pool.limitMin) then some (0, pool)
  else do
    let maxCount ← countToFree pool maxCount
    shrinkFrom (fun co => expired tv (lastRunTime co) idleMillisecs) pool.freeList.reverse
      maxCount.toNat 0 pool

/-! ## The idle test -/

section IdleTest

variable {tv lastRunTime : Timeval} {idleMillisecs : Int}

/-- The test where the milliseconds are a `long`. -/
theorem expired_eq (hlo : -2 ^ 63 ≤ (tv.tvSec - lastRunTime.tvSec) * 1000)
    (hhi : (tv.tvSec - lastRunTime.tvSec) * 1000 < 2 ^ 63) :
    expired tv lastRunTime idleMillisecs = some (decide
      (idleMillisecs < (tv.tvSec - lastRunTime.tvSec) * 1000 ∨
        ((tv.tvSec - lastRunTime.tvSec) * 1000 = idleMillisecs ∧
          idleMillisecs.tmod 1000 ≤ tv.tvUsec - lastRunTime.tvUsec))) := by
  unfold expired
  rw [asLong_eq (by omega) (by omega), Option.bind_eq_bind, Option.bind_some, asLong_eq hlo hhi,
    Option.bind_some]

theorem expired_eq_none (h : 2 ^ 63 ≤ (tv.tvSec - lastRunTime.tvSec) * 1000) :
    expired tv lastRunTime idleMillisecs = none := by
  unfold expired
  by_cases hs : tv.tvSec - lastRunTime.tvSec < 2 ^ 63
  · rw [asLong_eq (by omega) hs, Option.bind_eq_bind, Option.bind_some, asLong_eq_none h,
      Option.bind_none]
  · rw [asLong_eq_none (Int.not_lt.mp hs), Option.bind_eq_bind, Option.bind_none]

theorem secs_nonneg_of_le (h : lastRunTime ≤ tv) : 0 ≤ tv.tvSec - lastRunTime.tvSec := by
  have hm := Timeval.le_def.mp h
  have hlast := lastRunTime.usec_nonneg
  have hnow := tv.usec_lt
  unfold Timeval.micros at hm
  omega

theorem Timeval.OnClock.expired_eq (h : tv.OnClock) (hlast : lastRunTime.OnClock) :
    expired tv lastRunTime idleMillisecs = some (decide
      (idleMillisecs < (tv.tvSec - lastRunTime.tvSec) * 1000 ∨
        ((tv.tvSec - lastRunTime.tvSec) * 1000 = idleMillisecs ∧
          idleMillisecs.tmod 1000 ≤ tv.tvUsec - lastRunTime.tvUsec))) := by
  obtain ⟨hnow₀, hnow⟩ := h
  obtain ⟨hlast₀, hlast⟩ := hlast
  exact EFramework.expired_eq (by omega) (by omega)

/-- A coroutine that has run before one that is idle for long enough is so itself. -/
theorem expired_mono (h : tv.OnClock) {earlier : Timeval} (hlast : lastRunTime.OnClock)
    (hearlier : earlier.OnClock) (hle : earlier ≤ lastRunTime)
    (hexp : expired tv lastRunTime idleMillisecs = some true) :
    expired tv earlier idleMillisecs = some true := by
  rw [h.expired_eq hlast, Option.some.injEq, decide_eq_true_iff] at hexp
  rw [h.expired_eq hearlier, Option.some.injEq, decide_eq_true_iff]
  have hm := Timeval.le_def.mp hle
  have h₁ := earlier.usec_nonneg
  have h₂ := lastRunTime.usec_lt
  unfold Timeval.micros at hm
  omega

/-- Without a time to be idle, the test is whether the last run is over. -/
theorem expired_zero (h : tv.OnClock) (hlast : lastRunTime.OnClock) :
    expired tv lastRunTime 0 = some (decide (lastRunTime ≤ tv)) := by
  rw [h.expired_eq hlast, Option.some.injEq, decide_eq_decide, Timeval.le_def, Int.zero_tmod]
  have h₁ := lastRunTime.usec_nonneg
  have h₂ := lastRunTime.usec_lt
  have h₃ := tv.usec_nonneg
  have h₄ := tv.usec_lt
  unfold Timeval.micros
  omega

/-- The idle test agrees with the clock exactly where the milliseconds since the last run fit in
a `long`, and the setting is a whole number of seconds or the microseconds do not decide. -/
theorem idle_test (hle : lastRunTime ≤ tv) (hidle : 0 ≤ idleMillisecs) :
    expired tv lastRunTime idleMillisecs =
        some (decide (idleMillisecs * 1000 ≤ tv.micros - lastRunTime.micros)) ↔
      (tv.tvSec - lastRunTime.tvSec) * 1000 < 2 ^ 63 ∧
        (idleMillisecs % 1000 = 0 ∨
          (tv.tvSec - lastRunTime.tvSec = idleMillisecs / 1000 →
            tv.tvUsec - lastRunTime.tvUsec < idleMillisecs % 1000 * 1000) ∧
          (tv.tvSec - lastRunTime.tvSec = idleMillisecs / 1000 + 1 →
            idleMillisecs % 1000 * 1000 ≤ 1000000 + (tv.tvUsec - lastRunTime.tvUsec))) := by
  have hsecs := secs_nonneg_of_le hle
  by_cases hfits : (tv.tvSec - lastRunTime.tvSec) * 1000 < 2 ^ 63
  · rw [expired_eq (by omega) hfits, Option.some.injEq, decide_eq_decide,
      Int.tmod_eq_emod_of_nonneg hidle]
    have h₁ := lastRunTime.usec_nonneg
    have h₂ := lastRunTime.usec_lt
    have h₃ := tv.usec_nonneg
    have h₄ := tv.usec_lt
    unfold Timeval.micros
    omega
  · rw [expired_eq_none (Int.not_lt.mp hfits)]
    exact iff_of_false nofun (fun h => hfits h.1)

end IdleTest

def Timeval.ofSecs (n : Int) : Timeval := ⟨n, 0, by decide, by decide⟩

theorem idle_test_second :
    expired (.ofSecs 31) (.ofSecs 1) 30000 = some (decide ((30000 : Int) * 1000 ≤ 30000000)) :=
  (idle_test (by decide) (by decide)).mpr (by decide)

/-- A coroutine that has been idle for a microsecond is deleted as idle for half a second, and
one that has been idle for nearly two seconds is not deleted as idle for one and a half. -/
theorem idle_test_borrow :
    ∃ early late : Timeval, early ≤ .ofSecs 1 ∧ (Timeval.ofSecs 1).micros - early.micros = 1 ∧
      efCoroutinePoolShrinkAt ⟨0, 1, [5], [5], 1, 1, 1⟩ (fun _ => early) (.ofSecs 1) 500 1 =
        some (1, ⟨0, 1, [], [], 0, 0, 1⟩) ∧
      late.micros - (Timeval.ofSecs 0).micros = 1999999 ∧
      efCoroutinePoolShrinkAt ⟨0, 1, [5], [5], 1, 1, 1⟩ (fun _ => .ofSecs 0) late 1500 1 =
        some (0, ⟨0, 1, [5], [5], 1, 1, 1⟩) :=
  ⟨⟨0, 999999, by decide, by decide⟩, ⟨1, 999999, by decide, by decide⟩, by decide, by decide,
    by decide, by decide, by decide⟩

/-! ## What the loop deletes -/

def CoroutinePool.without (pool : CoroutinePool) (cos : List Nat) : CoroutinePool :=
  { pool with
    freeCount := pool.freeCount - cos.length
    fullCount := pool.fullCount - cos.length
    freeList := pool.freeList.diff cos
    fullList := pool.fullList.diff cos }

theorem CoroutinePool.without_cons (pool : CoroutinePool) (co : Nat) (cos : List Nat) :
    pool.without (co :: cos) =
      ({ pool with
        freeCount := pool.freeCount - 1
        fullCount := pool.fullCount - 1
        freeList := pool.freeList.erase co
        fullList := pool.fullList.erase co } : CoroutinePool).without cos := by
  simp only [CoroutinePool.without, List.length_cons, List.diff_cons, CoroutinePool.mk.injEq,
    true_and, and_true]
  push_cast
  omega

theorem shrinkFrom_eq {test : Nat → Option Bool} {p : Nat → Bool} {cos : List Nat}
    (htest : ∀ co ∈ cos, test co = some (p co)) (maxCount : Nat) (freeCount : Int)
    (pool : CoroutinePool) :
    shrinkFrom test cos maxCount freeCount pool =
      some (freeCount + ((cos.takeWhile p).take maxCount).length,
        pool.without ((cos.takeWhile p).take maxCount)) := by
  induction cos generalizing maxCount freeCount pool with
  | nil => simp [shrinkFrom, CoroutinePool.without]
  | cons co cos ih =>
      cases maxCount with
      | zero => simp [shrinkFrom, CoroutinePool.without]
      | succ maxCount =>
          rw [shrinkFrom, htest co List.mem_cons_self, Option.bind_eq_bind, Option.bind_some]
          cases hp : p co with
          | false => simp [hp, CoroutinePool.without]
          | true =>
              rw [if_pos rfl, ih (fun c hc => htest c (List.mem_cons_of_mem co hc)),
                List.takeWhile_cons_of_pos hp, List.take_succ_cons, CoroutinePool.without_cons,
                List.length_cons]
              push_cast
              rw [Int.add_assoc, Int.add_comm 1]

theorem countToFree_of_pos {pool : CoroutinePool} {maxCount : Int} (hmax : 0 < maxCount)
    (hbeyond : pool.limitMin < pool.fullCount) (hfits : pool.fullCount - pool.limitMin < 2 ^ 31) :
    countToFree pool maxCount = some (min maxCount (pool.fullCount - pool.limitMin)) := by
  unfold countToFree
  rw [asInt_eq (by omega) hfits, Option.bind_eq_bind, Option.bind_some, if_neg (by split <;> omega)]
  congr 1
  split <;> omega

theorem countToFree_of_neg {pool : CoroutinePool} {maxCount : Int} (hmax : maxCount < 0) :
    countToFree pool maxCount =
      if (-2 ^ 31 ≤ pool.fullCount - pool.limitMin ∧ pool.fullCount - pool.limitMin < 2 ^ 31) ∧
          -2 ^ 31 < min maxCount (pool.fullCount - pool.limitMin) then
        some (-min maxCount (pool.fullCount - pool.limitMin))
      else none := by
  unfold countToFree
  by_cases hfits : -2 ^ 31 ≤ pool.fullCount - pool.limitMin ∧
      pool.fullCount - pool.limitMin < 2 ^ 31
  · have hmin : (if pool.fullCount - pool.limitMin < maxCount then pool.fullCount - pool.limitMin
        else maxCount) = min maxCount (pool.fullCount - pool.limitMin) := by
      split <;> omega
    rw [asInt_eq hfits.1 hfits.2, Option.bind_eq_bind, Option.bind_some]
    dsimp only
    rw [hmin, if_pos (by omega)]
    by_cases hlt : -2 ^ 31 < min maxCount (pool.fullCount - pool.limitMin)
    · rw [if_pos ⟨hfits, hlt⟩, asInt_eq (by omega) (by omega)]
    · rw [if_neg (fun h => hlt h.2), asInt_eq_none (by omega)]
  · rw [if_neg (fun h => hfits h.1), asInt_eq_none (by omega), Option.bind_eq_bind,
      Option.bind_none]

/-- The free list loses what has been deleted from its end. -/
theorem diff_of_isPrefix_reverse {free gone : List Nat} (hnodup : free.Nodup)
    (hpre : gone <+: free.reverse) : free = free.diff gone ++ gone.reverse := by
  obtain ⟨rest, hrest⟩ := hpre
  have hfree : free = rest.reverse ++ gone.reverse := by
    rw [← List.reverse_append, hrest, List.reverse_reverse]
  rw [hfree] at hnodup ⊢
  have hkept : rest.reverse.filter (fun co => decide (co ∉ gone)) = rest.reverse := by
    rw [List.filter_eq_self]
    intro co hco
    have hnot := (List.nodup_append.mp hnodup).2.2 co hco
    exact decide_eq_true (fun hmem => hnot co (List.mem_reverse.mpr hmem) rfl)
  have hgone : gone.reverse.filter (fun co => decide (co ∉ gone)) = [] := by
    rw [List.filter_eq_nil_iff]
    intro co hco
    simpa using hco
  rw [hnodup.sdiff_eq_filter, List.filter_append, hkept, hgone, List.append_nil]

theorem take_takeWhile_prefixed (p : Nat → Bool) (n : Nat) (cos : List Nat) :
    (cos.takeWhile p).take n <+: cos :=
  (List.take_prefix n _).trans (List.takeWhile_prefix p)

/-- The coroutines that pass are counted from the end where those before them pass as well. -/
theorem length_takeWhile_eq_countP {p : Nat → Bool} {cos : List Nat}
    (h : cos.Pairwise (fun co co' => p co' = true → p co = true)) :
    (cos.takeWhile p).length = cos.countP p := by
  induction cos with
  | nil => rfl
  | cons co cos ih =>
      obtain ⟨hco, hcos⟩ := List.pairwise_cons.mp h
      cases hp : p co with
      | true =>
          rw [List.takeWhile_cons_of_pos hp, List.countP_cons_of_pos hp, List.length_cons, ih hcos]
      | false =>
          have hnone : cos.countP p = 0 := List.countP_eq_zero.mpr (fun c hc hpc => by
            rw [hco c hc hpc] at hp
            cases hp)
          rw [List.takeWhile_cons_of_neg (by simp [hp]), List.countP_cons_of_neg (by simp [hp]),
            hnone]
          rfl

/-- Where no test overflows, the loop does to the pool what it does with the outcomes of the
tests given. -/
theorem shrinkFrom_pool {test : Nat → Option Bool} {p : Nat → Bool} {cos : List Nat}
    (htest : ∀ co ∈ cos, test co = some (p co)) (maxCount : Nat) (freeCount : Int)
    (pool : CoroutinePool) :
    (shrinkFrom test cos maxCount freeCount pool).map Prod.snd =
      some (shrinkLoop p cos maxCount pool) := by
  induction cos generalizing maxCount freeCount pool with
  | nil => rfl
  | cons co cos ih =>
      cases maxCount with
      | zero => rfl
      | succ maxCount =>
          rw [shrinkFrom, shrinkLoop, htest co List.mem_cons_self, Option.bind_eq_bind,
            Option.bind_some]
          split
          · exact ih (fun c hc => htest c (List.mem_cons_of_mem co hc)) maxCount _ _
          · rfl

/-- The number to free is that of the runtime, where it does not overflow. -/
theorem countToFree_eq {pool : CoroutinePool} {maxCount n : Int}
    (h : countToFree pool maxCount = some n) :
    n.toNat = (if pool.fullCount - pool.limitMin < maxCount then pool.fullCount - pool.limitMin
      else maxCount).natAbs := by
  unfold countToFree at h
  obtain ⟨beyondMin, hbeyond, h⟩ := Option.bind_eq_some_iff.mp h
  rw [asInt, Option.ite_none_right_eq_some, Option.some.injEq] at hbeyond
  rw [hbeyond.2]
  dsimp only at h
  generalize (if beyondMin < maxCount then beyondMin else maxCount) = limit at h ⊢
  split at h
  · rw [asInt, Option.ite_none_right_eq_some, Option.some.injEq] at h
    omega
  · rw [Option.some.injEq] at h
    omega

/-- The pool is left as by the function over the outcomes of the tests. -/
theorem efCoroutinePoolShrinkAt_pool {pool pool' : CoroutinePool} {lastRunTime : Nat → Timeval}
    {tv : Timeval} {idleMillisecs maxCount freed : Int} {p : Nat → Bool}
    (htest : ∀ co ∈ pool.freeList, expired tv (lastRunTime co) idleMillisecs = some (p co))
    (h : efCoroutinePoolShrinkAt pool lastRunTime tv idleMillisecs maxCount = some (freed, pool')) :
    pool' = efCoroutinePoolShrink pool p maxCount := by
  unfold efCoroutinePoolShrinkAt at h
  unfold efCoroutinePoolShrink
  split at h
  next hstop =>
    rw [if_pos hstop]
    cases h
    rfl
  next hgo =>
    rw [if_neg hgo]
    obtain ⟨n, hn, hloop⟩ := Option.bind_eq_some_iff.mp h
    have hpool := shrinkFrom_pool (fun co hco => htest co (List.mem_reverse.mp hco)) n.toNat 0 pool
    rw [hloop, Option.map_some, Option.some.injEq, countToFree_eq hn] at hpool
    exact hpool

/-- The framework's shrink is this one, whatever the clock shows: the counts of a pool and the
numbers that the framework passes do not overflow. -/
theorem efCoroutinePoolShrinkAt_eq {pool : CoroutinePool} {lastRunTime : Nat → Timeval}
    {tv : Timeval} {idleMillisecs maxCount : Int} {p : Nat → Bool}
    (hfull : 0 ≤ pool.fullCount ∧ pool.fullCount < 2 ^ 31)
    (hmin : 0 ≤ pool.limitMin ∧ pool.limitMin < 2 ^ 31) (hmax : -2 ^ 31 < maxCount)
    (htest : ∀ co ∈ pool.freeList, expired tv (lastRunTime co) idleMillisecs = some (p co)) :
    ∃ freed, efCoroutinePoolShrinkAt pool lastRunTime tv idleMillisecs maxCount =
      some (freed, efCoroutinePoolShrink pool p maxCount) := by
  have hcount : ∃ n, countToFree pool maxCount = some n := by
    unfold countToFree
    rw [asInt_eq (by omega) (by omega), Option.bind_eq_bind, Option.bind_some]
    have hlimit : -2 ^ 31 < (if pool.fullCount - pool.limitMin < maxCount then
        pool.fullCount - pool.limitMin else maxCount) := by
      split <;> omega
    dsimp only
    generalize (if pool.fullCount - pool.limitMin < maxCount then
      pool.fullCount - pool.limitMin else maxCount) = limit at hlimit ⊢
    split
    · exact ⟨_, asInt_eq (by omega) (by omega)⟩
    · exact ⟨_, rfl⟩
  have hruns : ∃ out, efCoroutinePoolShrinkAt pool lastRunTime tv idleMillisecs maxCount =
      some out := by
    unfold efCoroutinePoolShrinkAt
    split
    · exact ⟨_, rfl⟩
    · obtain ⟨n, hn⟩ := hcount
      have hpool := shrinkFrom_pool (fun co hco => htest co (List.mem_reverse.mp hco)) n.toNat 0 pool
      obtain ⟨out, hout, _⟩ := Option.map_eq_some_iff.mp hpool
      exact ⟨out, by rw [hn]; exact hout⟩
  obtain ⟨⟨freed, pool'⟩, hruns⟩ := hruns
  exact ⟨freed, by rw [hruns, efCoroutinePoolShrinkAt_pool htest hruns]⟩

/-! ## Forced shrinks -/

/-- A negative count is honoured exactly where `full_count - limit_min` is no less, or no more
coroutines than that have run last before now at the end of the free list. -/
theorem forced_shrink {pool : CoroutinePool} {lastRunTime : Nat → Timeval} {tv : Timeval}
    {maxCount : Int} (hcount : pool.freeCount = pool.freeList.length)
    (hnodup : pool.freeList.Nodup) (hclock : tv.OnClock)
    (hlast : ∀ co ∈ pool.freeList, (lastRunTime co).OnClock) (hmax : maxCount < 0) :
    (∃ freed pool', efCoroutinePoolShrinkAt pool lastRunTime tv 0 maxCount = some (freed, pool') ∧
        freed = pool.freeList.length - pool'.freeList.length ∧ freed ≤ -maxCount ∧
        ((∀ co ∈ pool.freeList, lastRunTime co ≤ tv) → freed = min (-maxCount) pool.freeCount)) ↔
      pool.freeList = [] ∨
        ((-2 ^ 31 ≤ pool.fullCount - pool.limitMin ∧ pool.fullCount - pool.limitMin < 2 ^ 31) ∧
          -2 ^ 31 < min maxCount (pool.fullCount - pool.limitMin)) ∧
        (maxCount ≤ pool.fullCount - pool.limitMin ∨
          ((pool.freeList.reverse.takeWhile
            (fun co => decide (lastRunTime co ≤ tv))).length : Int) ≤ -maxCount) := by
  unfold efCoroutinePoolShrinkAt
  by_cases hnil : pool.freeList = []
  · have hzero : pool.freeCount = 0 := by
      rw [hcount, hnil]
      rfl
    rw [if_pos (Or.inl (by omega))]
    refine iff_of_true ⟨0, pool, rfl, ?_, ?_, fun _ => ?_⟩ (Or.inl hnil) <;> omega
  · have hpos : 0 < pool.freeList.length := List.length_pos_iff.mpr hnil
    rw [if_neg (by omega), countToFree_of_neg hmax, or_iff_right hnil]
    split
    next hfits =>
      rw [and_iff_right hfits, Option.bind_eq_bind, Option.bind_some,
        shrinkFrom_eq (fun co hco => expired_zero hclock (hlast co (List.mem_reverse.mp hco)))]
      generalize hgone : (pool.freeList.reverse.takeWhile _).take _ = gone
      have hpre : gone <+: pool.freeList.reverse := hgone ▸ take_takeWhile_prefixed _ _ _
      have hlen := congrArg List.length (diff_of_isPrefix_reverse hnodup hpre)
      have hall (h : ∀ co ∈ pool.freeList, lastRunTime co ≤ tv) :
          (pool.freeList.reverse.takeWhile (fun co => decide (lastRunTime co ≤ tv))).length =
            pool.freeList.length := by
        rw [List.takeWhile_eq_self_iff.mpr
          (fun co hco => decide_eq_true (h co (List.mem_reverse.mp hco))), List.length_reverse]
      have hgone := congrArg List.length hgone
      rw [List.length_take] at hgone
      rw [List.length_append, List.length_reverse] at hlen
      constructor
      · rintro ⟨freed, pool', he, hfreed, hle, -⟩
        rw [Option.some.injEq, Prod.mk.injEq] at he
        omega
      · intro hcond
        refine ⟨_, _, rfl, ?_, ?_, fun h => ?_⟩
        · dsimp only [CoroutinePool.without]
          omega
        · omega
        · have := hall h
          omega
    next hfits =>
      refine iff_of_false ?_ (fun h => hfits h.1)
      rintro ⟨freed, pool', he, -⟩
      cases he

theorem forced_shrink_all : ∃ freed pool',
    efCoroutinePoolShrinkAt ⟨0, 4, [7, 6, 5], [6, 5], 3, 2, 2⟩ (fun _ => .ofSecs 1) (.ofSecs 1) 0
      (-3) = some (freed, pool') ∧ freed = ([6, 5] : List Nat).length - pool'.freeList.length ∧
      freed ≤ 3 ∧ ((∀ co ∈ [6, 5], (fun _ => Timeval.ofSecs 1) co ≤ Timeval.ofSecs 1) →
        freed = min 3 2) :=
  (@forced_shrink ⟨0, 4, [7, 6, 5], [6, 5], 3, 2, 2⟩ (fun _ => .ofSecs 1) (.ofSecs 1) (-3) rfl
    (by decide) ⟨by decide, by decide⟩ (fun _ _ => ⟨by decide, by decide⟩) (by decide)).mpr
    (by decide)

/-- Two coroutines are deleted where at most one may be: none is kept beyond `limit_min`. -/
theorem forced_shrink_clamped :
    efCoroutinePoolShrinkAt ⟨4, 4, [6, 5], [6, 5], 2, 2, 2⟩ (fun _ => .ofSecs 1) (.ofSecs 1) 0
      (-1) = some (2, ⟨4, 4, [], [], 0, 0, 2⟩) := by
  decide

end EFramework
