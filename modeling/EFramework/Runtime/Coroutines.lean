import EFramework.Pollsys.Framework
import EFramework.Runtime.Fiber

/-! # The framework as a client of the coroutine pool

The loop runs on the fiber of the thread, and routines are coroutines that it creates
and resumes. What `coroutine.c` and `fiber.c` ask of their callers, that only
coroutines of the pool are resumed and none that runs, is what the framework does, as
events find routines that wait for them.
-/

namespace EFramework.Runtime

open Lib (Steps)

variable {P K : Type}

/-! ## States of the scheduler -/

/-- The thread is in a call of `ef_coroutine_resume` while a routine runs, and no coroutine is. -/
structure Schedules (rt : Runtime P) (s : Sched) : Prop where
  pool : s.pool = rt.coPool
  status : ∀ er, s.status er = .exited ↔ (rt.routines er).pc = .exited
  current : s.current = rt.current
  thread : s.resuming none = rt.current
  coroutine : ∀ er, s.resuming (some er) = none
  parent : ∀ er, rt.current = some er → s.parent er = none

/-- Every event that is left of the batch is for a routine that is alive. -/
def Finds (rt : Runtime P) : Prop :=
  ∀ e evts er, rt.current = none → rt.phase = .events (e :: evts) → e.ptr = .routine er →
    rt.Live er

/-- Steps of the scheduler that only resume coroutines of the pool that do not run. -/
abbrev SchedSteps : Sched → Sched → Prop := Steps Sched.step (fun s a => s.resumesIdle a = true)

variable {poll : EfPoll P K} {rt rt' : Runtime P} {s : Sched} {er : Nat} {a : Act K}

theorem Schedules.congr (h : Schedules rt s) (hpool : rt'.coPool = rt.coPool)
    (hroutines : ∀ er, (rt'.routines er).pc = .exited ↔ (rt.routines er).pc = .exited)
    (hcurrent : rt'.current = rt.current) : Schedules rt' s where
  pool := h.pool.trans hpool.symm
  status := fun er => (h.status er).trans (hroutines er).symm
  current := h.current.trans hcurrent.symm
  thread := h.thread.trans hcurrent.symm
  coroutine := h.coroutine
  parent := by
    rw [hcurrent]
    exact h.parent

theorem Schedules.of_withPoll {Q : Type} {q : Q} (h : Schedules (rt.withPoll q) s) :
    Schedules rt s :=
  ⟨h.pool, h.status, h.current, h.thread, h.coroutine, h.parent⟩

theorem Schedules.same (h : Schedules rt s) (hpool : rt'.coPool = rt.coPool)
    (hroutines : ∀ er, (rt'.routines er).pc = .exited ↔ (rt.routines er).pc = .exited)
    (hcurrent : rt'.current = rt.current) : ∃ s', SchedSteps s s' ∧ Schedules rt' s' :=
  ⟨s, .refl s, h.congr hpool hroutines hcurrent⟩

theorem Schedules.inited (h : Schedules rt s) (hl : rt.Live er) : s.status er = .inited := by
  cases hst : s.status er with
  | exited => exact absurd ((h.status er).mp hst) hl
  | inited => rfl

theorem Schedules.idle (h : Schedules rt s) (hcur : rt.current = none) (er : Nat) :
    s.isRunning er = false := by
  simp [Sched.isRunning, h.current, hcur, h.coroutine er]

theorem Schedules.call (h : Schedules rt s) (co : Option Nat) :
    Function.update s.resuming none co none = co ∧
      ∀ er, Function.update s.resuming none co (some er) = none :=
  ⟨Function.update_self none co s.resuming,
    fun er => (Function.update_of_ne (Option.some_ne_none er) _ _).trans (h.coroutine er)⟩

theorem Schedules.resume (h : Schedules rt s) (hcur : rt.current = none)
    (hinited : s.status er = .inited) (hfull : er ∈ rt.coPool.fullList)
    (hpool : rt'.coPool = rt.coPool)
    (hroutines : ∀ er, (rt'.routines er).pc = .exited ↔ (rt.routines er).pc = .exited)
    (hcurrent : rt'.current = some er) : ∃ s', SchedSteps s s' ∧ Schedules rt' s' := by
  have hs : s.step (.resume er) = some { s with
      parent := Function.update s.parent er none
      current := some er
      resuming := Function.update s.resuming none (some er) } := by
    have hc : s.current = none := h.current.trans hcur
    rw [Sched.step, Sched.resumeCoroutine_inited hinited, hc]
  have hg : s.resumesIdle (.resume er) = true := by
    simp [Sched.resumesIdle, h.pool, hfull, h.idle hcur er]
  refine ⟨_, .one hg hs, ⟨h.pool.trans hpool.symm,
    fun er => (h.status er).trans (hroutines er).symm, hcurrent.symm,
    (h.call (some er)).1.trans hcurrent.symm, (h.call (some er)).2, fun er' he => ?_⟩⟩
  cases hcurrent.symm.trans he
  exact Function.update_self _ _ _

theorem Schedules.yield (h : Schedules rt s) (hcur : rt.current = some er) (hl : rt.Live er)
    (hpool : rt'.coPool = rt.coPool)
    (hroutines : ∀ er, (rt'.routines er).pc = .exited ↔ (rt.routines er).pc = .exited)
    (hcurrent : rt'.current = none) : ∃ s', SchedSteps s s' ∧ Schedules rt' s' := by
  have hs : s.step .yield = some { s with
      current := none, resuming := Function.update s.resuming none none } := by
    have hne : s.status er ≠ .exited := by simp [h.inited hl]
    simp [Sched.step, Sched.efFiberYield, Sched.resumed, h.current, hcur, h.parent er hcur,
      h.thread, hne]
  refine ⟨_, .one rfl hs, ⟨h.pool.trans hpool.symm,
    fun er => (h.status er).trans (hroutines er).symm, hcurrent.symm,
    (h.call none).1.trans hcurrent.symm, (h.call none).2, fun er' he => ?_⟩⟩
  cases hcurrent.symm.trans he

theorem Schedules.exit (h : Schedules rt s) (hcur : rt.current = some er)
    (hpool : rt'.coPool = efCoroutineExited rt.coPool er)
    (hroutines : ∀ er', (rt'.routines er').pc = .exited ↔
      er' = er ∨ (rt.routines er').pc = .exited)
    (hcurrent : rt'.current = none) : ∃ s', SchedSteps s s' ∧ Schedules rt' s' := by
  have hs : s.step .exit = some { s with
      status := Function.update s.status er .exited
      current := none
      resuming := Function.update s.resuming none none
      pool := efCoroutineExited s.pool er } := by
    simp [Sched.step, Sched.efFiberExit, Sched.resumed, h.current, hcur, h.parent er hcur,
      h.thread]
  refine ⟨_, .one rfl hs, ⟨?_, fun er' => ?_, hcurrent.symm, (h.call none).1.trans hcurrent.symm,
    (h.call none).2, fun er' he => ?_⟩⟩
  · rw [hpool, ← h.pool]
  · rw [hroutines, ← h.status]
    by_cases he : er' = er <;> simp [he]
  · cases hcurrent.symm.trans he

theorem Schedules.create (h : Schedules rt s) {fresh : Option Nat} {pool : CoroutinePool}
    (hc : efCoroutineCreate rt.coPool fresh = some (some er, pool)) {routine : Routine}
    (hl : routine.pc ≠ .exited) :
    ∃ s', SchedSteps s s' ∧ s'.status er = .inited ∧
      Schedules { rt with
        coPool := pool, routines := Function.update rt.routines er routine } s' := by
  have hs : s.step (.create fresh) = some { s with
      pool := pool, status := Function.update s.status er .inited } := by
    simp [Sched.step, Sched.create, h.pool, hc]
  refine ⟨_, .one rfl hs, Function.update_self _ _ _, ⟨rfl, fun er' => ?_, h.current, h.thread,
    h.coroutine, h.parent⟩⟩
  by_cases he : er' = er
  · simp [he, hl]
  · simpa [he] using h.status er'

theorem Schedules.shrink (h : Schedules rt s) (idle : Nat → Bool) (maxCount : Int) :
    ∃ s', SchedSteps s s' ∧
      Schedules { rt with coPool := efCoroutinePoolShrink rt.coPool idle maxCount } s' := by
  refine ⟨{ s with pool := efCoroutinePoolShrink s.pool idle maxCount },
    .one (a := .shrink idle maxCount) rfl rfl, ⟨?_, h.status, h.current, h.thread, h.coroutine,
      h.parent⟩⟩
  rw [h.pool]

/-! ## Steps of the framework -/

theorem Schedules.moves (h : Schedules rt s) (hb : Base rt) (hcur : rt.current = some er)
    (hm : Moves rt er rt') : ∃ s', SchedSteps s s' ∧ Schedules rt' s' := by
  have hl := hb.live_of_current hcur
  obtain ⟨r, p, current, rfl, _, hne, hrun⟩ := hm
  have hroutines : ∀ er', (Function.update rt.routines er r er').pc = .exited ↔
      (rt.routines er').pc = .exited := fun er' => by
    by_cases he : er' = er
    · subst he
      simp [hne, show (rt.routines er').pc ≠ .exited from hl]
    · simp [he]
  rcases hrun with ⟨_, rfl⟩ | ⟨_, rfl⟩
  · exact h.same rfl hroutines rfl
  · exact h.yield hcur hl rfl hroutines rfl

theorem Schedules.routineStep (h : Schedules rt s) (hb : Base rt) (hcur : rt.current = some er)
    (hs : routineStep poll rt er a = some rt') : ∃ s', SchedSteps s s' ∧ Schedules rt' s' := by
  rcases routineStep_cases hs with hm | ⟨_, _, _, rfl⟩ | ⟨_, _, _, _, _, rfl⟩ | ⟨_, _, _, rfl⟩
  · exact h.moves hb hcur hm
  · exact h.same rfl (fun _ => Iff.rfl) rfl
  · exact h.same rfl (fun _ => Iff.rfl) rfl
  · refine h.exit hcur rfl (fun er' => ?_) rfl
    by_cases he : er' = er <;> simp [he]

theorem Schedules.event (h : Schedules rt s) (hb : Base rt) (hcur : rt.current = none)
    (hfind : Finds rt) (hs : rt.nextEvent = some rt') :
    ∃ s', SchedSteps s s' ∧ Schedules rt' s' := by
  rcases nextEvent_cases hs with ⟨_, rfl⟩ | ⟨_, _, _, _, _, rfl⟩ |
    ⟨e, evts, er, hp, hptr, ⟨hx, _⟩ | ⟨c, retval, hpc, rfl⟩⟩
  · exact h.same rfl (fun _ => Iff.rfl) rfl
  · exact h.same rfl (fun _ => Iff.rfl) rfl
  · exact absurd hx (hfind e evts er hcur hp hptr)
  · have hl := hfind e evts er hcur hp hptr
    refine h.resume hcur (h.inited hl) (hb.pool.live_full er hl) rfl (fun er' => ?_) rfl
    by_cases he : er' = er <;> simp [he, hpc]

theorem Schedules.queue (h : Schedules rt s) (hb : Base rt) (hcur : rt.current = none)
    {fresh : Option Nat} (hs : rt.nextQueued fresh = some rt') :
    ∃ s', SchedSteps s s' ∧ Schedules rt' s' := by
  rcases nextQueued_cases hs with ⟨_, rfl⟩ | ⟨id, lis, _, _, _, ⟨_, rfl⟩ |
    ⟨qf, qfs, pool, _, ⟨hc, rfl⟩ | ⟨er, hc, rfl⟩⟩⟩
  · exact h.same rfl (fun _ => Iff.rfl) rfl
  · exact h.same rfl (fun _ => Iff.rfl) rfl
  · rcases hb.pool.create hc with ⟨_, rfl, _⟩ | ⟨co, hco, _⟩
    · exact h.same rfl (fun _ => Iff.rfl) rfl
    · cases hco
  · obtain ⟨s₁, hsteps, hinited, hs₁⟩ :=
      h.create hc (show (Routine.mk qf.fd qf.fd (.user 0 0)).pc ≠ .exited by simp)
    have hfull : er ∈ pool.fullList := by
      rcases hb.pool.create hc with ⟨hco, _⟩ | ⟨co, hco, _, _, hok⟩
      · cases hco
      · cases hco
        exact hok.live_full er (Or.inl rfl)
    have hresumed : ∃ s', SchedSteps s₁ s' ∧ Schedules ({ rt with
        coPool := pool
        routines := Function.update rt.routines er ⟨qf.fd, qf.fd, .user 0 0⟩
        owner := Function.update rt.owner qf.fd (some (.routine er))
        current := some er
        phase := .started qf (id :: lis) } : Runtime P) s' :=
      hs₁.resume hcur hinited hfull rfl (fun _ => Iff.rfl) rfl
    obtain ⟨s₂, hsteps', hs₂⟩ := hresumed
    exact ⟨s₂, hsteps.trans hsteps', hs₂⟩

theorem Schedules.endRound (h : Schedules rt s) (idle : Nat → Bool) :
    ∃ s', SchedSteps s s' ∧ Schedules (rt.endRound idle) s' := by
  unfold Runtime.endRound
  split
  · obtain ⟨s', hsteps, hs'⟩ := h.shrink idle rt.countPerShrink
    exact ⟨s', hsteps, hs'.congr rfl (fun _ => Iff.rfl) rfl⟩
  · exact h.same rfl (fun _ => Iff.rfl) rfl

/-- At the end of a round the pool is shrunk up to two times. -/
theorem Schedules.exitQueue (h : Schedules rt s) {del idleStop idle : Nat → Bool}
    (hs : rt.exitQueue poll del idleStop idle = some rt') :
    ∃ s', SchedSteps s s' ∧ Schedules rt' s' := by
  obtain ⟨_, ⟨_, rfl⟩ | ⟨_, _, rfl⟩ | ⟨_, _, rfl⟩⟩ := exitQueue_cases hs
  · exact h.endRound idle
  · rw [closeListeners_eq]
    obtain ⟨s', hsteps, hs'⟩ := h.shrink idleStop (-rt.coPool.fullCount)
    exact ⟨s', hsteps, hs'.congr rfl (fun _ => Iff.rfl) rfl⟩
  · obtain ⟨s₁, hsteps, hs₁⟩ := h.shrink idleStop (-rt.coPool.freeCount)
    have hclosed : Schedules { closeListeners poll del rt with
        coPool := efCoroutinePoolShrink rt.coPool idleStop (-rt.coPool.freeCount) } s₁ :=
      hs₁.congr rfl (fun _ => by rw [closeListeners_eq]) (by rw [closeListeners_eq])
    obtain ⟨s₂, hsteps', hs₂⟩ := hclosed.endRound idle
    exact ⟨s₂, hsteps.trans hsteps', hs₂⟩

theorem Schedules.step (h : Schedules rt s) (hb : Base rt) (hfind : Finds rt)
    (hs : step poll rt a = some rt') : ∃ s', SchedSteps s s' ∧ Schedules rt' s' := by
  unfold Runtime.step at hs
  split at hs
  · cases hs
    exact h.same rfl (fun _ => Iff.rfl) rfl
  next hcur =>
    unfold loopStep at hs
    split at hs
    · rcases associateListener_cases hs with ⟨_, rfl⟩ | ⟨_, _, _, _, rfl⟩ |
        ⟨_, _, _, _, _, _, _, _, ⟨_, rfl⟩ | ⟨_, rfl⟩⟩ <;>
        exact h.same rfl (fun _ => Iff.rfl) rfl
    · obtain ⟨_, _, _, _, rfl⟩ := pollWait_cases hs
      exact h.same rfl (fun _ => Iff.rfl) rfl
    · obtain ⟨_, rfl | rfl⟩ := pollWaitFailed_cases hs <;>
        exact h.same rfl (fun _ => Iff.rfl) rfl
    · exact h.event hb hcur hfind hs
    · obtain ⟨_, _, _, rfl⟩ := acceptFailed_cases hs
      exact h.same rfl (fun _ => Iff.rfl) rfl
    · obtain ⟨_, _, _, _, _, _, _, rfl⟩ := acceptEnd_cases hs
      exact h.same rfl (fun _ => Iff.rfl) rfl
    · obtain ⟨_, _, _, _, _, _, _, _, ⟨_, rfl⟩ | ⟨_, _, rfl⟩ | ⟨_, _, _, _, rfl⟩⟩ :=
        acceptSocket_cases hs <;> exact h.same rfl (fun _ => Iff.rfl) rfl
    · exact h.queue hb hcur hs
    · obtain ⟨_, _, _, _, rfl⟩ := queuedStarted_cases hs
      exact h.same rfl (fun _ => Iff.rfl) rfl
    · exact h.exitQueue hs
    · cases hs
  next _ er _ hcur => exact h.routineStep hb hcur hs

theorem Schedules.initial {p : P} (h : Initial p rt) :
    ∃ s, (∃ limitMin limitMax, s = Sched.init limitMin limitMax) ∧ Schedules rt s := by
  obtain ⟨limitMin, limitMax, hpool⟩ := h.coPool
  refine ⟨Sched.init limitMin limitMax, ⟨limitMin, limitMax, rfl⟩, ⟨hpool.symm, fun er => ?_,
    h.current.symm, h.current.symm, fun _ => rfl, fun er he => ?_⟩⟩
  · exact iff_of_true rfl (h.routines er)
  · cases h.current.symm.trans he

/-! ## Runs -/

theorem Inv.finds {rt : Runtime Epoll} (h : Inv rt) : Finds rt := by
  intro e evts er hcur hp hptr hx
  have hmem : e ∈ rt.phase.evts := by
    rw [hp]
    exact List.mem_cons_self
  obtain ⟨c, retval, hpc, _⟩ := h.routes.waiting_of_event h.base hcur hmem hptr
  cases hpc.symm.trans hx

/-- Over `epoll.c` the framework is a run of the scheduler. -/
theorem schedules_epoll : Lib.Simulation (Listening fun _ => none) (Runtime.step efEpoll)
    (fun rt a => rt.usesOwn a = true)
    (fun s => ∃ limitMin limitMax, s = Sched.init limitMin limitMax) Sched.step
    (fun s a => s.resumesIdle a = true) (fun rt s => Inv rt ∧ Schedules rt s) where
  init := fun h => by
    obtain ⟨s, hs, hsched⟩ := Schedules.initial h.initial
    exact ⟨s, hs, inv_invariant.init h.initial, hsched⟩
  step := fun _ hR hown hs => by
    obtain ⟨hinv, hsched⟩ := hR
    obtain ⟨s', hsteps, hs'⟩ := hsched.step hinv.base hinv.finds hs
    exact ⟨s', hsteps, inv_invariant.step hinv hown hs, hs'⟩

/-- A state of the framework together with one that the scheduler reaches, such that what the
framework does next the scheduler does too. -/
structure Client (poll : EfPoll P K) (guard : Runtime P → Act K → Prop) (rt : Runtime P)
    (s : Sched) : Prop where
  reachable : Lib.Reachable (fun s => ∃ limitMin limitMax, s = Sched.init limitMin limitMax)
    Sched.step (fun s a => s.resumesIdle a = true) s
  schedules : Schedules rt s
  step : ∀ a rt', guard rt a → Runtime.step poll rt a = some rt' →
    ∃ s', SchedSteps s s' ∧ Schedules rt' s'

/-- Over both pollers the framework uses coroutines as `coroutine.c` asks for: whatever it does is
a run of the scheduler in which only coroutines of the pool are resumed, and none that runs. -/
theorem framework_over_fibers :
    (∀ {rt : Runtime Epoll}, Lib.Reachable (Listening fun _ => none) (Runtime.step efEpoll)
        (fun rt a => rt.usesOwn a = true) rt →
      ∃ s, Client efEpoll (fun rt a => rt.usesOwn a = true) rt s) ∧
    ∀ {rt : Runtime Pollsys.Ps}, Lib.Reachable Pollsys.Starts (Runtime.step Pollsys.efPollPs)
        Pollsys.Disciplined rt →
      ∃ s, Client Pollsys.efPollPs Pollsys.Disciplined rt s := by
  refine ⟨fun h => ?_, fun {rt} h => ?_⟩
  · obtain ⟨s, hreach, hinv, hsched⟩ := schedules_epoll.reachable h
    exact ⟨s, hreach, hsched, fun a rt' _ hs => hsched.step hinv.base hinv.finds hs⟩
  · obtain ⟨s, hreach, rt', _, hstands, hinv, hsched⟩ :=
      (Pollsys.simulation.trans schedules_epoll).reachable h
    rw [hstands.same] at hinv hsched
    obtain ⟨hrunning, hpool, hnodes, hids, hassociating, hstarting⟩ := hinv.base
    have hsched' := hsched.of_withPoll
    exact ⟨s, hreach, hsched', fun a rt' _ hs =>
      hsched'.step ⟨hrunning, hpool, hnodes, hids, hassociating, hstarting⟩ hinv.finds hs⟩

/-- One routine has exited in a batch and another one is resumed next. -/
theorem framework_over_fibers_batch : ∃ rt s, Lib.run (Runtime.step efEpoll)
      (fun rt a => rt.usesOwn a = true) (oneListener fun _ => none) batchOfTwo = some rt ∧
    Client efEpoll (fun rt a => rt.usesOwn a = true) rt s ∧
    (s.pool.fullList, s.pool.freeList) = ([1001, 1000], [1000]) := by
  have hrun : (Lib.run (Runtime.step efEpoll) (fun rt a => rt.usesOwn a = true)
      (oneListener fun _ => none) batchOfTwo).map
        (fun rt => (rt.coPool.fullList, rt.coPool.freeList)) =
      some ([1001, 1000], [1000]) := by decide
  obtain ⟨rt, hr, he⟩ := Option.map_eq_some_iff.mp hrun
  have hstart : Lib.Reachable (Listening fun _ => none) (Runtime.step efEpoll)
      (fun rt a => rt.usesOwn a = true) (oneListener fun _ => none) :=
    .init ⟨oneListener_initial fun _ => none, by decide⟩
  obtain ⟨s, hs⟩ := framework_over_fibers.1 (hstart.run hr)
  exact ⟨rt, s, hr, hs, by rw [hs.schedules.pool, he]⟩

end EFramework.Runtime
