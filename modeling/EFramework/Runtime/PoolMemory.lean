import EFramework.Lib.Simulation
import EFramework.Runtime.PoolRun
import EFramework.Structure.List

/-! # The pool in memory

In `coroutine.c` the full list and the free list of a pool are threaded through two
entries of each coroutine, and the block of a coroutine goes back to the system with both
of them. Every run over these entries is a run of the pool with two sequences.
-/

namespace EFramework

/-! ## The pool with its lists -/

/-- Where an entry lies: the two heads of a pool, and the two entries of a coroutine. -/
inductive PoolEntry where
  | fullList
  | freeList
  | full (co : Nat)
  | free (co : Nat)
deriving Repr, DecidableEq

/-- `ef_coroutine_pool_t` with the coroutines that it leads to. The blocks that are allocated are no
part of the program; a pointer to another block has no target. -/
structure PoolMemory where
  limitMin : Int
  limitMax : Int
  fullCount : Int
  freeCount : Int
  runCount : Nat
  entries : Entries PoolEntry
  lastRunTime : Nat → Timeval
  /-- The status of the fiber is `FIBER_STATUS_EXITED`. -/
  exited : Nat → Bool
  allocated : Nat → Bool
  clock : Timeval

namespace PoolMemory

def efCoroutinePoolInit (limitMin limitMax : Int) (m : PoolMemory) : PoolMemory :=
  { m with
    limitMin := limitMin
    limitMax := limitMax
    entries := efListInit (efListInit m.entries .fullList) .freeList
    fullCount := 0
    freeCount := 0
    runCount := 0 }

def efCoroutineCreate (m : PoolMemory) (fresh : Option Nat) : Option (Option Nat × PoolMemory) :=
  if 0 < m.freeCount then
    match efListRemoveAfter m.entries .freeList with
    | (some (.free co), entries) =>
        if m.allocated co then
          some (some co, { m with
            freeCount := m.freeCount - 1
            entries := entries
            exited := Function.update m.exited co false })
        else none
    | _ => none
  else if m.limitMax ≤ m.fullCount then some (none, m)
  else
    match fresh with
    | none => some (none, m)
    | some co =>
        if m.allocated co then none
        else
          some (some co, { m with
            fullCount := m.fullCount + 1
            entries := efListInsertAfter m.entries .fullList (.full co)
            exited := Function.update m.exited co false
            allocated := Function.update m.allocated co true })

/-- `ef_coroutine_resume`: whether the coroutine exits before it yields, and the time then. -/
def efCoroutineResume (m : PoolMemory) (co : Nat) (exits : Bool) (tv : Timeval) :
    Option PoolMemory :=
  if m.allocated co then
    if m.exited co ∨ exits = false then some m
    else
      some { m with
        exited := Function.update m.exited co true
        lastRunTime := Function.update m.lastRunTime co tv
        clock := tv
        entries := efListInsertAfter m.entries .freeList (.free co)
        freeCount := m.freeCount + 1
        runCount := m.runCount + 1 }
  else none

def delete (m : PoolMemory) (co : Nat) : PoolMemory :=
  { m with
    freeCount := m.freeCount - 1
    fullCount := m.fullCount - 1
    entries := efListRemove (efListRemove m.entries (.free co)) (.full co)
    allocated := Function.update m.allocated co false }

def shrinkLoop (tv : Timeval) (idleMillisecs : Int) :
    Nat → PoolEntry → Int → PoolMemory → Option (Int × PoolMemory)
  | _, .freeList, freeCount, m => some (freeCount, m)
  | 0, _, freeCount, m => some (freeCount, m)
  | maxCount + 1, .free co, freeCount, m => do
      if m.allocated co then
        let listTail := (m.entries (.free co)).prev
        if ← expired tv (m.lastRunTime co) idleMillisecs then
          shrinkLoop tv idleMillisecs maxCount listTail (freeCount + 1) (m.delete co)
        else some (freeCount, m)
      else none
  | _, _, _, _ => none

def countToFree (m : PoolMemory) (maxCount : Int) : Option Int := do
  let beyondMin ← Lib.asInt (m.fullCount - m.limitMin)
  let maxCount := if beyondMin < maxCount then beyondMin else maxCount
  if maxCount < 0 then Lib.asInt (-maxCount) else some maxCount

def efCoroutinePoolShrink (m : PoolMemory) (idleMillisecs maxCount : Int) (tv : Timeval) :
    Option (Int × PoolMemory) :=
  if m.freeCount ≤ 0 ∨ (0 < maxCount ∧ m.fullCount ≤ m.limitMin) then
    some (0, { m with clock := tv })
  else do
    let maxCount ← m.countToFree maxCount
    shrinkLoop tv idleMillisecs maxCount.toNat (m.entries .freeList).prev 0 { m with clock := tv }

def step (m : PoolMemory) : PoolOp → Option PoolMemory
  | .create fresh => (m.efCoroutineCreate fresh).map Prod.snd
  | .resume co exits tv => m.efCoroutineResume co exits tv
  | .shrink idleMillisecs maxCount tv =>
      (m.efCoroutinePoolShrink idleMillisecs maxCount tv).map Prod.snd

def Initial (m : PoolMemory) : Prop :=
  ∃ limitMin limitMax m₀, m = efCoroutinePoolInit limitMin limitMax m₀ ∧
    ∀ co, m₀.allocated co = false

/-- The clock does not go back. -/
def Forward (m : PoolMemory) : PoolOp → Prop
  | .create _ => True
  | .resume _ _ tv | .shrink _ _ tv => m.clock ≤ tv ∧ tv.OnClock

instance (m : PoolMemory) : ∀ op, Decidable (m.Forward op)
  | .create _ => isTrue trivial
  | .resume _ _ tv | .shrink _ _ tv =>
      decidable_of_iff (m.clock ≤ tv ∧ 0 ≤ tv.tvSec ∧ tv.tvSec * 1000 < 2 ^ 63)
        (and_congr_right fun _ => ⟨fun h => ⟨h.1, h.2⟩, fun h => ⟨h.nonneg, h.lt⟩⟩)

/-! ## What the memory stands for -/

def state (m : PoolMemory) (full free : List Nat) : PoolState where
  pool := ⟨m.limitMin, m.limitMax, full, free, m.fullCount, m.freeCount, m.runCount⟩
  lastRunTime := m.lastRunTime
  clock := m.clock

/-- The lists are in memory: all blocks in the one, and those that have exited in the other. -/
structure Holds (m : PoolMemory) (full free : List Nat) : Prop where
  fullList : IsList m.entries .fullList (full.map .full)
  freeList : IsList m.entries .freeList (free.map .free)
  allocated : ∀ co, m.allocated co = true ↔ co ∈ full
  exited : ∀ co ∈ full, (m.exited co = true ↔ co ∈ free)

def Stands (m : PoolMemory) (s : PoolState) : Prop :=
  ∃ full free, Holds m full free ∧ s = m.state full free

/-- A function of the program and the same function of the pool with two sequences have returned
the same, in states that stand for each other. -/
def Answers {α : Type} (lastRunTime : Nat → Timeval) (clock : Timeval) (r : α × PoolMemory)
    (r' : α × CoroutinePool) : Prop :=
  r.1 = r'.1 ∧ ∃ full free, Holds r.2 full free ∧ r'.2 = (r.2.state full free).pool ∧
    r.2.lastRunTime = lastRunTime ∧ r.2.clock = clock

variable {m m' : PoolMemory} {full free : List Nat} {co : Nat} {es es' : Entries PoolEntry}

theorem Answers.stands {α : Type} {s : PoolState} {clock : Timeval} {r : Option (α × PoolMemory)}
    {r' : Option (α × CoroutinePool)} (h : Option.Rel (Answers s.lastRunTime clock) r r') :
    Option.Rel Stands (r.map Prod.snd)
      (r'.map (fun r => { s with pool := r.2, clock := clock })) := by
  cases h with
  | none => exact .none
  | some h =>
      obtain ⟨_, full, free, hholds, hpool, hlast, hclock⟩ := h
      refine .some ⟨full, free, hholds, ?_⟩
      dsimp only
      rw [hpool, ← hlast, ← hclock]
      rfl

theorem mem_map_full {e : PoolEntry} (h : e ∈ PoolEntry.fullList :: full.map .full) :
    e = .fullList ∨ ∃ co ∈ full, e = .full co := by
  rcases List.mem_cons.mp h with rfl | h
  · exact Or.inl rfl
  · obtain ⟨co, hco, rfl⟩ := List.mem_map.mp h
    exact Or.inr ⟨co, hco, rfl⟩

theorem mem_map_free {e : PoolEntry} (h : e ∈ PoolEntry.freeList :: free.map .free) :
    e = .freeList ∨ ∃ co ∈ free, e = .free co := by
  rcases List.mem_cons.mp h with rfl | h
  · exact Or.inl rfl
  · obtain ⟨co, hco, rfl⟩ := List.mem_map.mp h
    exact Or.inr ⟨co, hco, rfl⟩

theorem full_injective : Function.Injective PoolEntry.full := fun _ _ h => PoolEntry.full.inj h

theorem free_injective : Function.Injective PoolEntry.free := fun _ _ h => PoolEntry.free.inj h

theorem free_of_does {l' added : List PoolEntry}
    (hd : Does es es' .fullList (full.map .full) l' added) (hadded : ∀ co, .free co ∉ added)
    (hhead : .freeList ∉ added) (h : IsList es .freeList (free.map .free)) :
    IsList es' .freeList (free.map .free) := by
  refine hd.other h (fun e he => ?_)
  rcases mem_map_free he with rfl | ⟨co, _, rfl⟩
  · exact ⟨by simp, hhead⟩
  · exact ⟨by simp, hadded co⟩

theorem full_of_does {l' added : List PoolEntry}
    (hd : Does es es' .freeList (free.map .free) l' added) (hadded : ∀ co, .full co ∉ added)
    (hhead : .fullList ∉ added) (h : IsList es .fullList (full.map .full)) :
    IsList es' .fullList (full.map .full) := by
  refine hd.other h (fun e he => ?_)
  rcases mem_map_full he with rfl | ⟨co, _, rfl⟩
  · exact ⟨by simp, hhead⟩
  · exact ⟨by simp, hadded co⟩

namespace Holds

theorem full_nodup (h : Holds m full free) : full.Nodup :=
  (List.nodup_cons.mp h.fullList.nodup).2.of_map

theorem free_nodup (h : Holds m full free) : free.Nodup :=
  (List.nodup_cons.mp h.freeList.nodup).2.of_map

/-! ## Operations on the lists -/

theorem addFull (h : Holds m full free) (hco : co ∉ full) (hsub : free ⊆ full) :
    Holds { m with
      fullCount := m.fullCount + 1
      entries := efListInsertAfter m.entries .fullList (.full co)
      exited := Function.update m.exited co false
      allocated := Function.update m.allocated co true } (co :: full) free := by
  have hnot : PoolEntry.full co ∉ .fullList :: full.map .full := by simpa using hco
  have hd := h.fullList.insertAfter_spec List.mem_cons_self hnot
  refine ⟨?_, free_of_does hd (by simp) (by simp) h.freeList, fun co' => ?_, fun co' hco' => ?_⟩
  · have hlist := hd.list
    rwa [putAfter, if_pos rfl] at hlist
  · by_cases he : co' = co
    · simp [he]
    · simp [he, h.allocated]
  · by_cases he : co' = co
    · subst he
      simpa using mt (@hsub co') hco
    · simpa [he] using h.exited co' ((List.mem_cons.mp hco').resolve_left he)

theorem addFree (h : Holds m full free) (hco : co ∉ free) (tv : Timeval) :
    Holds { m with
      exited := Function.update m.exited co true
      lastRunTime := Function.update m.lastRunTime co tv
      clock := tv
      entries := efListInsertAfter m.entries .freeList (.free co)
      freeCount := m.freeCount + 1
      runCount := m.runCount + 1 } full (co :: free) := by
  have hnot : PoolEntry.free co ∉ .freeList :: free.map .free := by simpa using hco
  have hd := h.freeList.insertAfter_spec List.mem_cons_self hnot
  refine ⟨full_of_does hd (by simp) (by simp) h.fullList, ?_, h.allocated, fun co' hco' => ?_⟩
  · have hlist := hd.list
    rwa [putAfter, if_pos rfl] at hlist
  · by_cases he : co' = co
    · simp [he]
    · simpa [he] using h.exited co' hco'

theorem takeFree (h : Holds m full (co :: free)) :
    (efListRemoveAfter m.entries .freeList).1 = some (.free co) ∧
    Holds { m with
      freeCount := m.freeCount - 1
      entries := (efListRemoveAfter m.entries .freeList).2
      exited := Function.update m.exited co false } full free := by
  obtain ⟨hret, hd⟩ := h.freeList.removeAfter_spec
  refine ⟨hret, full_of_does hd (by simp) (by simp) h.fullList, hd.list, h.allocated,
    fun co' hco' => ?_⟩
  have hnot := (List.nodup_cons.mp h.free_nodup).1
  by_cases he : co' = co
  · subst he
    simpa using hnot
  · simpa [he] using h.exited co' hco'

theorem deleted (h : Holds m full free) (hfull : co ∈ full) (hfree : co ∈ free) :
    Holds (m.delete co) (full.erase co) (free.erase co) := by
  have hd := h.freeList.remove_spec (List.mem_map_of_mem hfree)
  have hfree' := hd.list
  rw [← List.map_erase free_injective] at hfree'
  have hd' := (full_of_does hd (by simp) (by simp) h.fullList).remove_spec
    (List.mem_map_of_mem hfull)
  have hfull' := hd'.list
  rw [← List.map_erase full_injective] at hfull'
  refine ⟨hfull', free_of_does hd' (by simp) (by simp) hfree', fun co' => ?_, fun co' hco' => ?_⟩
  · rw [h.full_nodup.mem_erase_iff, ← h.allocated co']
    unfold delete
    by_cases he : co' = co
    · simp [he]
    · simp [he]
  · obtain ⟨hne, hco'⟩ := h.full_nodup.mem_erase_iff.mp hco'
    rw [List.mem_erase_of_ne hne]
    exact h.exited co' hco'

theorem prev_head (h : Holds m full free) :
    (m.entries .freeList).prev = Lib.lastFrom .freeList (free.map .free) := by
  have hprev := @IsList.prev_eq _ m.entries .freeList (free.map .free) []
    (by rw [List.append_nil]; exact h.freeList)
  simpa using hprev

/-- What stands before the end. -/
theorem prev_tail (h : Holds m full (free ++ [co])) :
    (m.entries (.free co)).prev = Lib.lastFrom .freeList (free.map .free) := by
  have hlist := h.freeList
  rw [List.map_append, List.map_singleton] at hlist
  exact hlist.member.1

/-! ## Steps -/

/-- The loop of a shrink deletes the same coroutines, from the end of the free list on. -/
theorem shrinkLoop (tv : Timeval) (idleMillisecs : Int) (maxCount : Nat) (h : Holds m full free)
    (hsub : free ⊆ full) (freed : Int) :
    Option.Rel (Answers m.lastRunTime m.clock)
      (m.shrinkLoop tv idleMillisecs maxCount (Lib.lastFrom .freeList (free.map .free)) freed)
      (shrinkFrom (fun co => expired tv (m.lastRunTime co) idleMillisecs) free.reverse maxCount
        freed (m.state full free).pool) := by
  induction maxCount generalizing m full free freed with
  | zero =>
      have hmem : PoolMemory.shrinkLoop tv idleMillisecs 0
          (Lib.lastFrom .freeList (free.map .free)) freed m = some (freed, m) := by
        unfold PoolMemory.shrinkLoop
        split <;> first | rfl | simp_all
      have hlist : shrinkFrom (fun co => expired tv (m.lastRunTime co) idleMillisecs) free.reverse 0
          freed (m.state full free).pool = some (freed, (m.state full free).pool) := by
        cases free.reverse <;> rfl
      rw [hmem, hlist]
      exact .some ⟨rfl, full, free, h, rfl, rfl, rfl⟩
  | succ maxCount ih =>
      rcases List.eq_nil_or_concat' free with rfl | ⟨front, co, rfl⟩
      · have hlist : shrinkFrom (fun co => expired tv (m.lastRunTime co) idleMillisecs) []
            (maxCount + 1) freed (m.state full []).pool =
              some (freed, (m.state full []).pool) := rfl
        have hmem : PoolMemory.shrinkLoop tv idleMillisecs (maxCount + 1) .freeList freed m =
            some (freed, m) := rfl
        rw [List.map_nil, Lib.lastFrom_nil, List.reverse_nil, hmem, hlist]
        exact .some ⟨rfl, full, [], h, rfl, rfl, rfl⟩
      have hco : co ∈ front ++ [co] := by simp
      have hfull := hsub hco
      have herase : (front ++ [co]).erase co = front := by
        have hnot : co ∉ front := fun hmem =>
          (List.nodup_append.mp h.free_nodup).2.2 co hmem co (by simp) rfl
        rw [List.erase_append_right _ hnot, List.erase_cons_head, List.append_nil]
      have hdel := h.deleted hfull hco
      rw [herase] at hdel
      have hsub' : front ⊆ full.erase co := by
        intro c hc
        have hne : c ≠ co := fun he =>
          (List.nodup_append.mp h.free_nodup).2.2 c hc co (by simp) he
        exact (List.mem_erase_of_ne hne).mpr (hsub (by simp [hc]))
      have hlast : Lib.lastFrom PoolEntry.freeList ((front ++ [co]).map .free) = .free co := by simp
      rw [hlast, List.reverse_append, List.reverse_singleton, List.singleton_append]
      unfold PoolMemory.shrinkLoop shrinkFrom
      rw [if_pos ((h.allocated co).mpr hfull), h.prev_tail]
      cases hexp : expired tv (m.lastRunTime co) idleMillisecs with
      | none => exact .none
      | some b =>
          cases b with
          | false => exact .some ⟨rfl, full, _, h, rfl, rfl, rfl⟩
          | true =>
              have hstep := ih hdel hsub' (freed + 1)
              have hpool : ((m.delete co).state (full.erase co) front).pool =
                  { (m.state full (front ++ [co])).pool with
                    freeCount := m.freeCount - 1
                    fullCount := m.fullCount - 1
                    freeList := (front ++ [co]).erase co
                    fullList := full.erase co } := by
                rw [herase]
                rfl
              rw [hpool] at hstep
              exact hstep

theorem create (h : Holds m full free) (hcount : m.freeCount = free.length) (hsub : free ⊆ full)
    (fresh : Option Nat) :
    Option.Rel (Answers m.lastRunTime m.clock)
      (m.efCoroutineCreate fresh)
      (EFramework.efCoroutineCreate (m.state full free).pool fresh) := by
  unfold PoolMemory.efCoroutineCreate EFramework.efCoroutineCreate
  by_cases hpos : 0 < m.freeCount
  · rw [if_pos hpos, if_pos (show 0 < (m.state full free).pool.freeCount from hpos)]
    cases free with
    | nil =>
        rw [hcount] at hpos
        exact absurd hpos (by simp)
    | cons co free =>
        obtain ⟨hret, hholds⟩ := h.takeFree
        have hco := (h.allocated co).mpr (hsub List.mem_cons_self)
        rw [show efListRemoveAfter m.entries .freeList =
          (some (.free co), (efListRemoveAfter m.entries .freeList).2) from Prod.ext hret rfl]
        dsimp only [state]
        rw [if_pos hco]
        exact .some ⟨rfl, full, free, hholds, rfl, rfl, rfl⟩
  rw [if_neg hpos, if_neg (show ¬ 0 < (m.state full free).pool.freeCount from hpos)]
  by_cases hlimit : m.limitMax ≤ m.fullCount
  · rw [if_pos hlimit, if_pos
      (show (m.state full free).pool.limitMax ≤ (m.state full free).pool.fullCount from hlimit)]
    exact .some ⟨rfl, full, free, h, rfl, rfl, rfl⟩
  rw [if_neg hlimit, if_neg
    (show ¬ (m.state full free).pool.limitMax ≤ (m.state full free).pool.fullCount from hlimit)]
  cases fresh with
  | none => exact .some ⟨rfl, full, free, h, rfl, rfl, rfl⟩
  | some co =>
      dsimp only
      by_cases hco : co ∈ full
      · rw [if_pos ((h.allocated co).mpr hco),
          if_pos (show co ∈ (m.state full free).pool.fullList from hco)]
        exact .none
      · rw [if_neg (fun ha => hco ((h.allocated co).mp ha)),
          if_neg (show co ∉ (m.state full free).pool.fullList from hco)]
        exact .some ⟨rfl, co :: full, free, h.addFull hco hsub, rfl, rfl, rfl⟩

theorem resume (h : Holds m full free) (co : Nat) (exits : Bool) (tv : Timeval) :
    Option.Rel Stands
      (m.efCoroutineResume co exits tv) ((m.state full free).resume co exits tv) := by
  unfold efCoroutineResume PoolState.resume
  by_cases hfull : co ∈ full
  · rw [if_pos ((h.allocated co).mpr hfull),
      if_pos (show co ∈ (m.state full free).pool.fullList from hfull)]
    by_cases hrun : co ∈ free ∨ exits = false
    · rw [if_pos (hrun.imp_left (h.exited co hfull).mpr),
        if_pos (show co ∈ (m.state full free).pool.freeList ∨ exits = false from hrun)]
      exact .some ⟨full, free, h, rfl⟩
    · rw [if_neg (fun he => hrun (he.imp_left (h.exited co hfull).mp)),
        if_neg (show ¬ (co ∈ (m.state full free).pool.freeList ∨ exits = false) from hrun)]
      exact .some ⟨full, co :: free, h.addFree (fun hco => hrun (Or.inl hco)) tv, rfl⟩
  · rw [if_neg (fun ha => hfull ((h.allocated co).mp ha)),
      if_neg (show co ∉ (m.state full free).pool.fullList from hfull)]
    exact .none

theorem shrink (h : Holds m full free) (hsub : free ⊆ full) (idleMillisecs maxCount : Int)
    (tv : Timeval) :
    Option.Rel (Answers m.lastRunTime tv)
      (m.efCoroutinePoolShrink idleMillisecs maxCount tv)
      (efCoroutinePoolShrinkAt (m.state full free).pool m.lastRunTime tv idleMillisecs
        maxCount) := by
  have hclock : Holds { m with clock := tv } full free :=
    ⟨h.fullList, h.freeList, h.allocated, h.exited⟩
  unfold efCoroutinePoolShrink efCoroutinePoolShrinkAt
  by_cases hstop : m.freeCount ≤ 0 ∨ (0 < maxCount ∧ m.fullCount ≤ m.limitMin)
  · rw [if_pos hstop]
    split
    · exact .some ⟨rfl, full, free, hclock, rfl, rfl, rfl⟩
    next hgo => exact absurd hstop hgo
  · rw [if_neg hstop]
    split
    next hstop' => exact absurd hstop' hstop
    have hcount : EFramework.countToFree (m.state full free).pool maxCount =
      m.countToFree maxCount := rfl
    rw [hcount]
    cases m.countToFree maxCount with
    | none => exact .none
    | some n =>
        have hloop := hclock.shrinkLoop tv idleMillisecs n.toNat hsub 0
        rw [← hclock.prev_head] at hloop
        exact hloop

theorem step (h : Holds m full free) (hs : (m.state full free).Ordered) (op : PoolOp) :
    Option.Rel Stands (m.step op) ((m.state full free).step op) := by
  have hsub : free ⊆ full := fun co hco => hs.ok.free_full co hco
  cases op with
  | create fresh =>
      exact Answers.stands (s := m.state full free) (h.create hs.ok.freeCount hsub fresh)
  | resume co exits tv => exact h.resume co exits tv
  | shrink idleMillisecs maxCount tv =>
      exact Answers.stands (s := m.state full free) (h.shrink hsub idleMillisecs maxCount tv)

end Holds

/-! ## Runs -/

theorem initial_holds {limitMin limitMax : Int} {m₀ : PoolMemory}
    (h : ∀ co, m₀.allocated co = false) :
    Holds (efCoroutinePoolInit limitMin limitMax m₀) [] [] where
  fullList := by
    refine (IsList.init m₀.entries PoolEntry.fullList).congr ?_ ?_ <;>
      simp [efCoroutinePoolInit, efListInit]
  freeList := .init _ _
  allocated := fun co => by simp [efCoroutinePoolInit, h co]
  exited := by simp

/-- The pool in memory does what the pool with two sequences does. -/
theorem simulation : Lib.Simulation Initial step Forward PoolState.Initial PoolState.step
    PoolState.Forward Stands where
  init := by
    rintro m ⟨limitMin, limitMax, m₀, rfl, hm₀⟩
    exact ⟨_, ⟨limitMin, limitMax, rfl⟩, [], [], initial_holds hm₀, rfl⟩
  step := by
    rintro m m' op s hreach ⟨full, free, hholds, rfl⟩ hforward he
    have hrel := hholds.step (PoolState.ordered_invariant.holds hreach) op
    rw [he] at hrel
    cases hs : (m.state full free).step op with
    | none =>
        rw [hs] at hrel
        cases hrel
    | some s' =>
        rw [hs] at hrel
        cases hrel with
        | some hstands =>
            refine ⟨s', .one ?_ hs, hstands⟩
            cases op <;> exact hforward

theorem none_iff {α β : Type} {R : α → β → Prop} {x : Option α} {y : Option β}
    (h : Option.Rel R x y) : x = none ↔ y = none := by
  cases h <;> simp

theorem Answers.fst {α : Type} {lastRunTime : Nat → Timeval} {clock : Timeval}
    {r : Option (α × PoolMemory)} {r' : Option (α × CoroutinePool)}
    (h : Option.Rel (Answers lastRunTime clock) r r') : r.map Prod.fst = r'.map Prod.fst := by
  cases h with
  | none => rfl
  | some h => exact congrArg some h.1

end PoolMemory

/-- Every run of the pool in memory is a run of the pool with two sequences, which are threaded
through the blocks: the one through all that are allocated, the other through those that have
exited. The functions return the same and stop at the same calls, so none follows a pointer into a
block that is deleted. -/
theorem pool_in_memory {m : PoolMemory}
    (h : Lib.Reachable PoolMemory.Initial PoolMemory.step PoolMemory.Forward m) :
    ∃ full free : List Nat,
      Lib.Reachable PoolState.Initial PoolState.step PoolState.Forward (m.state full free) ∧
      IsList m.entries .fullList (full.map .full) ∧ IsList m.entries .freeList (free.map .free) ∧
      (∀ co, co ∈ full ↔ m.allocated co = true) ∧
      (∀ co, co ∈ free ↔ m.allocated co = true ∧ m.exited co = true) ∧
      m.fullCount = full.length ∧ m.freeCount = free.length ∧
      (∀ fresh, (m.efCoroutineCreate fresh).map Prod.fst =
        (efCoroutineCreate (m.state full free).pool fresh).map Prod.fst) ∧
      (∀ idleMillisecs maxCount tv,
        (m.efCoroutinePoolShrink idleMillisecs maxCount tv).map Prod.fst =
          (efCoroutinePoolShrinkAt (m.state full free).pool m.lastRunTime tv idleMillisecs
            maxCount).map Prod.fst) ∧
      ∀ op, m.step op = none ↔ (m.state full free).step op = none := by
  obtain ⟨s, hreach, full, free, hholds, rfl⟩ := PoolMemory.simulation.reachable h
  have hs := PoolState.ordered_invariant.holds hreach
  have hsub : free ⊆ full := fun co hco => hs.ok.free_full co hco
  refine ⟨full, free, hreach, hholds.fullList, hholds.freeList,
    fun co => (hholds.allocated co).symm, fun co => ?_, hs.ok.fullCount, hs.ok.freeCount,
    fun fresh => PoolMemory.Answers.fst (hholds.create hs.ok.freeCount hsub fresh),
    fun idleMillisecs maxCount tv => ?_, fun op => PoolMemory.none_iff (hholds.step hs op)⟩
  · rw [hholds.allocated co]
    exact ⟨fun hco => ⟨hsub hco, (hholds.exited co (hsub hco)).mpr hco⟩,
      fun hco => (hholds.exited co hco.1).mp hco.2⟩
  · exact PoolMemory.Answers.fst (hholds.shrink hsub idleMillisecs maxCount tv)

/-- Memory that is all over the place. -/
def PoolMemory.blank : PoolMemory :=
  ⟨0, 0, 0, 0, 0, fun _ => ⟨.full 7, .free 7⟩, fun _ => .ofSecs 0, fun _ => true, fun _ => false,
    .ofSecs 0⟩

/-- Two coroutines are created and exit, one is created again, and the other is deleted. -/
def PoolMemory.reused : List PoolOp :=
  [.create (some 5), .create (some 6), .resume 5 true (.ofSecs 10), .resume 6 true (.ofSecs 20),
    .create none, .shrink 5000 (-1) (.ofSecs 30)]

/-- The one that is in use is left. -/
theorem pool_in_memory_reused : ∃ m, Lib.run PoolMemory.step PoolMemory.Forward
      (PoolMemory.blank.efCoroutinePoolInit 0 4) PoolMemory.reused = some m ∧
    (m.fullCount, m.allocated 5, m.allocated 6) = (1, false, true) ∧
    ∃ full free : List Nat, IsList m.entries .fullList (full.map .full) ∧
      IsList m.entries .freeList (free.map .free) ∧ m.fullCount = full.length ∧
      ∀ op, m.step op = none ↔ (m.state full free).step op = none := by
  have hrun : (Lib.run PoolMemory.step PoolMemory.Forward
      (PoolMemory.blank.efCoroutinePoolInit 0 4) PoolMemory.reused).map
        (fun m => (m.fullCount, m.allocated 5, m.allocated 6)) = some (1, false, true) := by decide
  obtain ⟨m, hr, hm⟩ := Option.map_eq_some_iff.mp hrun
  have h₀ : Lib.Reachable PoolMemory.Initial PoolMemory.step PoolMemory.Forward
      (PoolMemory.blank.efCoroutinePoolInit 0 4) := .init ⟨0, 4, _, rfl, fun _ => rfl⟩
  obtain ⟨full, free, _, hfull, hfree, _, _, hcount, _, _, _, hop⟩ := pool_in_memory (h₀.run hr)
  exact ⟨m, hr, hm, full, free, hfull, hfree, hcount, hop⟩

end EFramework
