import EFramework.Runtime.Queue

/-! # Leaving the loop

The stopping branch leaves the loop when all coroutines are free. It never looks at
the queues: that they are empty by then follows from the way the loop reaches
`exit_queue`, either past all queues or with a pool that is full and in use.
-/

namespace EFramework

namespace Note

def closedOf (id : Nat) : Note → Option Nat
  | .closed li fd => if li = id then some fd else none
  | _ => none

def freedOf (id : Nat) : Note → Option (List QueueFd)
  | .freed li qfs => if li = id then some qfs else none
  | _ => none

def starts (er : Nat) : Note → Bool
  | .run _ _ er' => er' == er
  | _ => false

def exits (er : Nat) : Note → Bool
  | .exited er' => er' == er
  | _ => false

end Note

namespace Runtime

variable {P K : Type}

/-- `ef_coroutine_create` fails at the limit only, with no free coroutine. Where nothing is queued
the address is not used. -/
def createsBelowLimit (rt : Runtime P) (a : Act K) : Bool :=
  match a with
  | .queue none => 0 < rt.coPool.freeCount ∨ rt.coPool.limitMax ≤ rt.coPool.fullCount
  | _ => true

variable {poll : EfPoll P K} {rt rt' : Runtime P} {log : List Note}

/-! ## Where the loop can leave -/

structure Leaves (rt : Runtime P) : Prop where
  limit : 1 ≤ rt.coPool.limitMax
  passed : ∀ lis, (rt.phase = .queue lis ∨ ∃ qf, rt.phase = .started qf lis) →
    ∀ li ∈ rt.listenList, li.id ∉ lis → li.fdList = []
  exit : rt.phase = .exitQueue → rt.current = none ∧ ((∀ li ∈ rt.listenList, li.fdList = []) ∨
    (rt.coPool.freeCount ≤ 0 ∧ rt.coPool.limitMax ≤ rt.coPool.fullCount))
  returned : rt.phase = .returned 0 → rt.listenList = [] ∧ ∀ er, ¬ rt.Live er

/-- Nothing is to be shown before the queues of a round. -/
theorem leaves_of_early (hlimit : 1 ≤ rt.coPool.limitMax) (hp : Early rt.phase) : Leaves rt where
  limit := hlimit
  passed := fun lis h => by
    rcases h with h | ⟨qf, h⟩ <;> rw [h] at hp <;> exact hp.elim
  exit := fun h => by
    rw [h] at hp
    exact hp.elim
  returned := fun h => by
    rw [h] at hp
    exact absurd hp (Int.lt_irrefl 0)

theorem Leaves.goes (h : Leaves rt) (hg : Goes rt rt') : Leaves rt' := by
  obtain ⟨p, phase, routines, current, rfl, _, hp | rfl, _⟩ := hg
  · exact leaves_of_early h.limit hp
  · refine ⟨h.limit, fun lis hp li hli hnot => ?_, fun hp => (by cases hp), fun hp => (by cases hp)⟩
    rcases hp with hp | ⟨qf, hp⟩ <;> cases hp
    exact absurd (List.mem_map_of_mem hli) hnot

theorem Leaves.accept (h : Leaves rt) {socket : Nat} {nonblock : Bool} {fresh : Option Nat}
    {ok : Bool} (hs : rt.acceptSocket poll socket nonblock fresh ok = some rt') : Leaves rt' := by
  obtain ⟨li, evts, info, fd, hp, _, _, _, hcase⟩ := acceptSocket_cases hs
  rcases hcase with ⟨_, rfl⟩ | ⟨_, _, rfl⟩ | ⟨node, rest, _, _, rfl⟩
  · exact leaves_of_early h.limit trivial
  · exact leaves_of_early h.limit trivial
  · refine leaves_of_early h.limit ?_
    dsimp only
    rw [hp]
    trivial

theorem Leaves.queue (h : Leaves rt) (hb : Base rt) (hcur : rt.current = none)
    {fresh : Option Nat} (hg : rt.createsBelowLimit (K := K) (.queue fresh) = true)
    (hs : rt.nextQueued fresh = some rt') : Leaves rt' := by
  rcases nextQueued_cases hs with ⟨hp, rfl⟩ | ⟨id, lis, info, hp, hinfo, hcase⟩
  · refine ⟨h.limit, fun lis hp => ?_, fun _ => ⟨hcur, Or.inl fun li hli => ?_⟩,
      fun hp => (by cases hp)⟩
    · rcases hp with hp | ⟨qf, hp⟩ <;> cases hp
    · exact h.passed [] (Or.inl hp) li hli List.not_mem_nil
  have hpassed := h.passed _ (Or.inl hp)
  rcases hcase with ⟨hqf, rfl⟩ | ⟨qf, qfs, pool, hqf, ⟨hc, rfl⟩ | ⟨er, hc, rfl⟩⟩
  · refine ⟨h.limit, fun lis' hp' li hli hnot => ?_, fun hp => (by cases hp),
      fun hp => (by cases hp)⟩
    rcases hp' with hp' | ⟨qf, hp'⟩ <;> cases hp'
    by_cases hid : li.id = id
    · obtain ⟨hmem, hid'⟩ := findListen_spec hinfo
      rw [List.inj_on_of_nodup_map hb.ids hli hmem (hid.trans hid'.symm)]
      exact hqf
    · exact hpassed li hli (fun hmem => (List.mem_cons.mp hmem).elim hid hnot)
  · rcases hb.pool.create hc with ⟨_, rfl, hfree, hfull⟩ | ⟨co, hco, _⟩
    · refine ⟨h.limit, fun lis hp => ?_, fun _ => ⟨hcur, Or.inr ⟨hfree, ?_⟩⟩,
        fun hp => (by cases hp)⟩
      · rcases hp with hp | ⟨qf, hp⟩ <;> cases hp
      · rcases hfull with hfull | rfl
        · exact hfull
        · rcases of_decide_eq_true hg with hpos | hfull
          · exact absurd hpos (Int.not_lt.mpr hfree)
          · exact hfull
    · cases hco
  · refine ⟨?_, fun lis' hp' => ?_, fun hp => (by cases hp), fun hp => (by cases hp)⟩
    · rw [(efCoroutineCreate_limits hc).2]
      exact h.limit
    · rcases hp' with hp' | ⟨qf, hp'⟩ <;> cases hp'
      exact hpassed

theorem Leaves.started (h : Leaves rt) (hs : rt.queuedStarted = some rt') : Leaves rt' := by
  obtain ⟨qf, id, lis, hp, rfl⟩ := queuedStarted_cases hs
  refine ⟨h.limit, fun lis' hp' li hli hnot => ?_, fun hp => (by cases hp),
    fun hp => (by cases hp)⟩
  rcases hp' with hp' | ⟨_, hp'⟩ <;> cases hp'
  obtain ⟨li', hmem, hid, _, ⟨he, _⟩ | ⟨_, rfl⟩⟩ := mem_setQueue rt id (fun qfs => qfs.erase qf) hli
  · exact absurd (hid.symm.trans he ▸ List.mem_cons_self) hnot
  · exact h.passed _ (Or.inr ⟨qf, hp⟩) _ hmem hnot

theorem Leaves.exitQueue (h : Leaves rt) (hb : Base rt) {del idleStop idle : Nat → Bool}
    (hs : rt.exitQueue poll del idleStop idle = some rt') : Leaves rt' := by
  have hshrink : ∀ (pool : CoroutinePool) (n : Int) (f : Nat → Bool), pool.Ok rt.Live →
      (efCoroutinePoolShrink pool f n).limitMax = pool.limitMax := fun pool n f hok =>
    (hok.shrink f n).2.limitMax
  obtain ⟨hp, ⟨_, rfl⟩ | ⟨_, hcount, rfl⟩ | ⟨_, _, rfl⟩⟩ := exitQueue_cases hs
  · refine leaves_of_early ?_ trivial
    unfold endRound
    dsimp only
    split
    · rw [hshrink _ _ _ hb.pool]
      exact h.limit
    · exact h.limit
  · refine ⟨?_, fun lis hp => ?_, fun hp => (by cases hp), fun _ => ⟨?_, ?_⟩⟩
    · dsimp only
      rw [hshrink _ _ _ hb.pool]
      exact h.limit
    · rcases hp with hp | ⟨qf, hp⟩ <;> cases hp
    · have hempty : ∀ li ∈ rt.listenList, li.fdList = [] := by
        rcases (h.exit hp).2 with hempty | ⟨hfree, hfull⟩
        · exact hempty
        · have := h.limit
          omega
      dsimp only
      rw [closeListeners_eq]
      refine List.eq_nil_iff_forall_not_mem.mpr (fun li hli => ?_)
      obtain ⟨li', hmem, hid, hq, ⟨_, _, hne⟩ | ⟨hnot, _⟩⟩ := mem_closedList hli
      · exact hne (hq ▸ hempty li' hmem)
      · exact hnot (hid ▸ List.mem_map_of_mem hmem)
    · intro er
      unfold Live
      rw [closeListeners_eq]
      exact hb.pool.not_live_of_counts hcount er
  · refine leaves_of_early ?_ trivial
    have hok := (hb.pool.shrink idleStop (-rt.coPool.freeCount)).1
    unfold endRound
    dsimp only
    split
    · rw [hshrink _ _ _ hok, hshrink _ _ _ hb.pool]
      exact h.limit
    · rw [hshrink _ _ _ hb.pool]
      exact h.limit

theorem Leaves.routineStep (h : Leaves rt) (hb : Base rt) {er : Nat} (hcur : rt.current = some er)
    {a : Act K} (hs : routineStep poll rt er a = some rt') : Leaves rt' := by
  obtain ⟨hl, _, hp⟩ := routineStep_lists hs
  have hlimit : rt'.coPool.limitMax = rt.coPool.limitMax := by
    rcases routineStep_cases hs with ⟨_, _, _, rfl, _⟩ | ⟨_, _, _, rfl⟩ | ⟨_, _, _, _, _, rfl⟩ |
      ⟨_, _, _, rfl⟩ <;> rfl
  refine ⟨hlimit ▸ h.limit, fun lis hp' => ?_, fun hp' => ?_, fun hp' => ?_⟩
  · rw [hp] at hp'
    rw [hl]
    exact h.passed lis hp'
  · rw [hp] at hp'
    have := (h.exit hp').1
    rw [hcur] at this
    cases this
  · rw [hp] at hp'
    exact absurd (hb.live_of_current hcur) ((h.returned hp').2 er)

theorem Leaves.step (h : Leaves rt) (hb : Base rt) {a : Act K}
    (hg : rt.createsBelowLimit a = true) (hs : step poll rt a = some rt') : Leaves rt' := by
  unfold Runtime.step at hs
  split at hs
  · cases hs
    exact ⟨h.limit, h.passed, h.exit, h.returned⟩
  next hcur =>
    rcases loopStep_cases hcur hs with ⟨hgoes, _⟩ | ⟨_, _, _, _, rfl, hs⟩ | ⟨_, rfl, hs⟩ |
      ⟨rfl, hs⟩ | ⟨_, _, _, rfl, hs⟩
    · exact h.goes hgoes
    · exact h.accept hs
    · exact h.queue hb hcur hg hs
    · exact h.started hs
    · exact h.exitQueue hb hs
  next hcur => exact h.routineStep hb hcur hs

/-! ## What is noted -/

def listenFd (rt : Runtime P) (id : Nat) : Option (Option Nat) :=
  (rt.findListen id).map ListenInfo.fd

theorem listenFd_congr (h : rt'.listenList = rt.listenList) (id : Nat) :
    rt'.listenFd id = rt.listenFd id := by
  unfold listenFd findListen
  rw [h]

theorem listenFd_setQueue (id : Nat) (f : List QueueFd → List QueueFd)
    (h : rt'.listenList = (rt.setQueue id f).listenList) (id' : Nat) :
    rt'.listenFd id' = rt.listenFd id' := by
  rw [listenFd_congr h]
  unfold listenFd
  rw [findListen_setQueue, Option.map_map]
  congr 1
  funext li
  simp only [Function.comp_apply]
  split <;> rfl

/-- What a step does to the routines and the listeners, next to what is noted of it. -/
inductive Noted (rt rt' : Runtime P) : List Note → Prop
  | lists {new : List Note} :
      (∀ n ∈ new, (∃ li fd, n = .queued li fd) ∨ ∃ node, n = .malloc node) →
      (∀ id, rt'.listenFd id = rt.listenFd id) → (∀ er, rt'.Live er ↔ rt.Live er) →
      Noted rt rt' new
  | run (id fd er : Nat) :
      (∀ id, rt'.listenFd id = rt.listenFd id) → ¬ rt.Live er →
      (∀ er', rt'.Live er' ↔ er' = er ∨ rt.Live er') → Noted rt rt' [.run id fd er]
  | exited (er : Nat) :
      (∀ id, rt'.listenFd id = rt.listenFd id) → rt.Live er →
      (∀ er', rt'.Live er' ↔ rt.Live er' ∧ er' ≠ er) → Noted rt rt' [.exited er]
  | closed :
      rt'.listenList = closedList (rt.listenList.map ListenInfo.id) rt.listenList →
      (∀ er, rt'.Live er ↔ rt.Live er) →
      Noted rt rt' (rt.listenList.flatMap (closing rt') ++ rt.freeFdList.map Note.free)

theorem Noted.nothing (hl : rt'.listenList = rt.listenList)
    (hlive : ∀ er, rt'.Live er ↔ rt.Live er) : Noted rt rt' [] :=
  .lists (fun _ hn => absurd hn List.not_mem_nil) (listenFd_congr hl) hlive

theorem noted_accept (hcur : rt.current = none) {socket : Nat} {nonblock : Bool}
    {fresh : Option Nat} {ok : Bool}
    (hs : rt.acceptSocket poll socket nonblock fresh ok = some rt') :
    Noted rt rt' (notes (K := K) rt (.accept socket nonblock fresh ok) rt') := by
  obtain ⟨li, evts, info, fd, hp, hinfo, _, _, hcase⟩ := acceptSocket_cases hs
  rcases hcase with ⟨rfl, rfl⟩ | ⟨rfl, ht, rfl⟩ | ⟨node, rest, rfl, ht, rfl⟩
  · simp only [notes, hcur]
    exact .nothing rfl (fun _ => Iff.rfl)
  · simp only [notes, hcur, hp, ht]
    exact .nothing rfl (fun _ => Iff.rfl)
  · simp only [notes, hcur, hp, ht]
    refine .lists (fun n hn => ?_) (listenFd_setQueue li (fun qfs => qfs ++ [⟨node, socket⟩]) rfl)
      (fun _ => Iff.rfl)
    split at hn
    · rcases List.mem_pair.mp hn with rfl | rfl
      · exact Or.inr ⟨_, rfl⟩
      · exact Or.inl ⟨_, _, rfl⟩
    · obtain rfl := List.mem_singleton.mp hn
      exact Or.inl ⟨_, _, rfl⟩

theorem noted_queue (hb : Base rt) (hcur : rt.current = none) {fresh : Option Nat}
    (hs : rt.nextQueued fresh = some rt') :
    Noted rt rt' (notes (K := K) rt (.queue fresh) rt') := by
  rcases nextQueued_cases hs with ⟨hp, rfl⟩ | ⟨id, lis, info, hp, hinfo, hcase⟩
  · simp only [notes, hcur]
    exact .nothing rfl (fun _ => Iff.rfl)
  rcases hcase with ⟨_, rfl⟩ | ⟨qf, qfs, pool, _, ⟨_, rfl⟩ | ⟨er, hc, rfl⟩⟩
  · simp only [notes, hcur]
    exact .nothing rfl (fun _ => Iff.rfl)
  · simp only [notes, hcur]
    exact .nothing rfl (fun _ => Iff.rfl)
  · rcases hb.pool.create hc with ⟨hco, _⟩ | ⟨co, hco, hnot, _⟩
    · cases hco
    cases hco
    simp only [notes, hcur]
    refine .run id qf.fd er (fun _ => rfl) hnot (fun er' => ?_)
    by_cases he : er' = er <;> simp [Live, he]

theorem noted_exitQueue (hcur : rt.current = none) {del idleStop idle : Nat → Bool}
    (hs : rt.exitQueue poll del idleStop idle = some rt') :
    Noted rt rt' (notes (K := K) rt (.exitQueue del idleStop idle) rt') := by
  obtain ⟨_, ⟨hst, rfl⟩ | ⟨hst, _, rfl⟩ | ⟨hst, _, rfl⟩⟩ := exitQueue_cases hs
  · simp only [notes, hcur, hst]
    exact .nothing rfl (fun _ => Iff.rfl)
  · simp only [notes, hcur, hst, if_true]
    exact .closed (by rw [closeListeners_eq]) (fun er => by unfold Live; rw [closeListeners_eq])
  · simp only [notes, hcur, hst, if_true]
    unfold endRound
    exact .closed (by rw [closeListeners_eq]) (fun er => by unfold Live; rw [closeListeners_eq])

theorem endProc_exits {er : Nat} {ok : Bool}
    (hs : routineStep poll rt er (.endProc ok) = some rt') : (rt'.routines er).pc = .exited := by
  cases hpc : (rt.routines er).pc <;>
    simp only [routineStep, hpc, reduceCtorEq, Option.some.injEq] at hs
  subst hs
  obtain ⟨p, hp⟩ := efRoutineClose_owner poll rt (rt.routines er).procFd ok
  unfold endProc
  rw [hp]
  simp [yields, setPc]

theorem noted_routineStep (hb : Base rt) {er : Nat} (hcur : rt.current = some er) {a : Act K}
    (hs : routineStep poll rt er a = some rt') : Noted rt rt' (notes rt a rt') := by
  have hlive := hb.live_of_current hcur
  have hupdate : ∀ r : Routine, r.pc ≠ .exited →
      ∀ er', (Function.update rt.routines er r er').pc ≠ .exited ↔ rt.Live er' := fun r hr er' => by
    by_cases he : er' = er
    · subst he
      simpa [hr] using hlive
    · simp [Live, he]
  by_cases hend : ∃ ok, a = .endProc ok
  · obtain ⟨ok, rfl⟩ := hend
    rcases routineStep_cases hs with ⟨r, _, _, rfl, _, hr, _⟩ | ⟨fd, ha, _⟩ |
      ⟨fd, _, _, _, ha, _⟩ | ⟨_, p, _, rfl⟩
    · have hx := endProc_exits hs
      dsimp only at hx
      rw [Function.update_self] at hx
      exact absurd hx hr
    · cases ha
    · cases ha
    · simp only [notes, hcur]
      refine .exited er (fun _ => rfl) hlive (fun er' => ?_)
      by_cases he : er' = er <;> simp [Live, he]
  · have hn : notes rt a rt' = [] := by
      unfold notes
      rw [hcur]
      cases a <;> first | rfl | exact (hend ⟨_, rfl⟩).elim
    rw [hn]
    rcases routineStep_cases hs with ⟨r, _, _, rfl, _, hr, _⟩ | ⟨_, _, _, rfl⟩ |
      ⟨_, _, _, _, _, rfl⟩ | ⟨ok, _, rfl, _⟩
    · exact .nothing rfl (hupdate r hr)
    · exact .nothing rfl (fun _ => Iff.rfl)
    · exact .nothing rfl (fun _ => Iff.rfl)
    · exact (hend ⟨ok, rfl⟩).elim

theorem noted_step (hb : Base rt) {a : Act K} (hs : step poll rt a = some rt') :
    Noted rt rt' (notes rt a rt') := by
  unfold Runtime.step at hs
  split at hs
  · cases hs
    have hn : notes (K := K) rt .stop { rt with stopping := true } = [] := by
      unfold notes
      cases hcur : rt.current <;> rfl
    rw [hn]
    exact .nothing rfl (fun _ => Iff.rfl)
  next hcur =>
    rcases loopStep_cases hcur hs with ⟨⟨_, _, _, _, rfl, _, _, hpc⟩, hn⟩ |
      ⟨_, _, _, _, rfl, hs⟩ | ⟨_, rfl, hs⟩ | ⟨rfl, hs⟩ | ⟨_, _, _, rfl, hs⟩
    · rw [hn]
      exact .nothing rfl (fun er => not_congr (hpc er))
    · exact noted_accept hcur hs
    · exact noted_queue hb hcur hs
    · obtain ⟨qf, id, lis, _, rfl⟩ := queuedStarted_cases hs
      simp only [notes, hcur]
      exact .lists (fun _ hn => absurd hn List.not_mem_nil)
        (listenFd_setQueue id (fun qfs => qfs.erase qf) rfl) (fun _ => Iff.rfl)
    · exact noted_exitQueue hcur hs
  next hcur => exact noted_routineStep hb hcur hs

/-! ## Routines that have been started -/

def Counts (rt : Runtime P) (log : List Note) : Prop :=
  ∀ er, (rt.Live er ∧ log.countP (Note.starts er) = log.countP (Note.exits er) + 1) ∨
    (¬ rt.Live er ∧ log.countP (Note.starts er) = log.countP (Note.exits er))

theorem Counts.keep (h : Counts rt log) {new : List Note}
    (hnew : ∀ n ∈ new, ∀ er, n.starts er = false ∧ n.exits er = false)
    (hl : ∀ er, rt'.Live er ↔ rt.Live er) : Counts rt' (log ++ new) := by
  intro er
  have hs : new.countP (Note.starts er) = 0 :=
    List.countP_eq_zero.mpr (fun n hn => by simp [(hnew n hn er).1])
  have he : new.countP (Note.exits er) = 0 :=
    List.countP_eq_zero.mpr (fun n hn => by simp [(hnew n hn er).2])
  rw [List.countP_append, List.countP_append, hs, he, hl er]
  exact h er

theorem Counts.step (h : Counts rt log) {new : List Note} (hn : Noted rt rt' new) :
    Counts rt' (log ++ new) := by
  cases hn with
  | lists hnew _ hlive =>
      refine h.keep (fun n hn er => ?_) hlive
      rcases hnew n hn with ⟨_, _, rfl⟩ | ⟨_, rfl⟩ <;> exact ⟨rfl, rfl⟩
  | run id fd er _ hnot hlive =>
      intro er'
      have hs : [Note.run id fd er].countP (Note.starts er') = if er = er' then 1 else 0 := by
        simp [List.countP_cons, Note.starts]
      have he : [Note.run id fd er].countP (Note.exits er') = 0 := rfl
      rw [List.countP_append, List.countP_append, hs, he, hlive er']
      by_cases heq : er = er'
      · subst heq
        rcases h er with ⟨hl, _⟩ | ⟨_, hc⟩
        · exact absurd hl hnot
        · exact Or.inl ⟨Or.inl rfl, by simp [hc]⟩
      · simpa [heq, Ne.symm heq] using h er'
  | exited er _ hl hlive =>
      intro er'
      have hs : [Note.exited er].countP (Note.starts er') = 0 := rfl
      have he : [Note.exited er].countP (Note.exits er') = if er = er' then 1 else 0 := by
        simp [List.countP_cons, Note.exits]
      rw [List.countP_append, List.countP_append, hs, he, hlive er']
      by_cases heq : er = er'
      · subst heq
        rcases h er with ⟨_, hc⟩ | ⟨hnot, _⟩
        · exact Or.inr ⟨fun hx => hx.2 rfl, by simp [hc]⟩
        · exact absurd hl hnot
      · simpa [heq, Ne.symm heq] using h er'
  | closed _ hlive =>
      refine h.keep (fun n hn er => ?_) hlive
      rcases List.mem_append.mp hn with hn | hn
      · obtain ⟨li, _, hn⟩ := List.mem_flatMap.mp hn
        rcases mem_closing hn with ⟨_, rfl⟩ | rfl <;> exact ⟨rfl, rfl⟩
      · obtain ⟨node, _, rfl⟩ := List.mem_map.mp hn
        exact ⟨rfl, rfl⟩

/-! ## Listeners that have been closed -/

structure Closes (lis : List ListenInfo) (rt : Runtime P) (log : List Note) : Prop where
  closed : ∀ li ∈ lis, log.filterMap (Note.closedOf li.id) ++ (rt.listenFd li.id).join.toList =
    li.fd.toList
  freed : ∀ li ∈ lis, log.filterMap (Note.freedOf li.id) =
    if rt.listenFd li.id = none then [[]] else []

variable {lis : List ListenInfo}

theorem Closes.keep (h : Closes lis rt log) {new : List Note}
    (hnew : ∀ n ∈ new, ∀ id, n.closedOf id = none ∧ n.freedOf id = none)
    (hfd : ∀ id, rt'.listenFd id = rt.listenFd id) : Closes lis rt' (log ++ new) where
  closed := fun li hli => by
    rw [List.filterMap_append, List.filterMap_eq_nil_iff.mpr (fun n hn => (hnew n hn li.id).1),
      List.append_nil, hfd]
    exact h.closed li hli
  freed := fun li hli => by
    rw [List.filterMap_append, List.filterMap_eq_nil_iff.mpr (fun n hn => (hnew n hn li.id).2),
      List.append_nil, hfd]
    exact h.freed li hli

theorem flatMap_find {α : Type} (hids : (lis.map ListenInfo.id).Nodup) (f : ListenInfo → List α)
    (id : Nat) : lis.flatMap (fun li => if li.id = id then f li else []) =
      match lis.find? (fun li => li.id == id) with
      | none => []
      | some li => f li := by
  induction lis with
  | nil => rfl
  | cons li lis ih =>
      obtain ⟨hnot, hids⟩ := List.nodup_cons.mp hids
      rw [List.flatMap_cons, List.find?_cons]
      by_cases he : li.id = id
      · subst he
        have hnil : lis.flatMap (fun l => if l.id = li.id then f l else []) = [] := by
          refine List.flatMap_eq_nil_iff.mpr (fun l hl => if_neg fun he => hnot ?_)
          exact he ▸ List.mem_map_of_mem hl
        rw [hnil, if_pos rfl, List.append_nil, beq_self_eq_true]
      · rw [if_neg he, List.nil_append, ih hids, beq_eq_false_iff_ne.mpr he]

theorem filterMap_closedOf (li : ListenInfo) (id : Nat) :
    (closing rt' li).filterMap (Note.closedOf id) = if li.id = id then li.fd.toList else [] := by
  unfold closing
  by_cases he : li.id = id <;> cases li.fd <;> by_cases hf : (rt'.findListen li.id).isNone <;>
    simp [Note.closedOf, List.filterMap_cons, he, hf]

theorem filterMap_freedOf (li : ListenInfo) (id : Nat) :
    (closing rt' li).filterMap (Note.freedOf id) =
      if li.id = id then if (rt'.findListen id).isNone then [li.fdList] else [] else [] := by
  unfold closing
  by_cases he : li.id = id
  · subst he
    cases li.fd <;> by_cases hf : (rt'.findListen li.id).isNone <;>
      simp [Note.freedOf, List.filterMap_cons, hf]
  · cases li.fd <;> by_cases hf : (rt'.findListen li.id).isNone <;>
      simp [Note.freedOf, List.filterMap_cons, he, hf]

/-- No descriptor is left to a listener that was closed. -/
theorem listenFd_closedList
    (hl : rt'.listenList = closedList (rt.listenList.map ListenInfo.id) rt.listenList) (id : Nat) :
    (rt'.listenFd id).join = none := by
  unfold listenFd
  cases hf : rt'.findListen id with
  | none => rfl
  | some li =>
      obtain ⟨hmem, _⟩ := findListen_spec hf
      obtain ⟨li', hmem', hid, _, ⟨_, hfd, _⟩ | ⟨hnot, _⟩⟩ := mem_closedList (hl ▸ hmem)
      · rw [Option.map_some, hfd]
        rfl
      · exact absurd (hid ▸ List.mem_map_of_mem hmem') hnot

theorem fdList_of_closedList (hids : (rt.listenList.map ListenInfo.id).Nodup)
    (hl : rt'.listenList = closedList (rt.listenList.map ListenInfo.id) rt.listenList) {id : Nat}
    {li : ListenInfo} (hf : rt.findListen id = some li) (hf' : rt'.findListen id = none) :
    li.fdList = [] := by
  have hq := queueOf_closedList hids hl id
  unfold queueOf at hq
  rw [hf, hf'] at hq
  exact hq.symm

theorem Closes.close (h : Closes lis rt log) (hids : (rt.listenList.map ListenInfo.id).Nodup)
    (hl : rt'.listenList = closedList (rt.listenList.map ListenInfo.id) rt.listenList) :
    Closes lis rt'
      (log ++ (rt.listenList.flatMap (closing rt') ++ rt.freeFdList.map Note.free)) := by
  have hfree : ∀ {α : Type} (f : Note → Option α), (∀ node, f (.free node) = none) →
      (rt.freeFdList.map Note.free).filterMap f = [] := fun f hf =>
    List.filterMap_eq_nil_iff.mpr (fun n hn => by
      obtain ⟨node, _, rfl⟩ := List.mem_map.mp hn
      exact hf node)
  have hgone : ∀ id, rt.findListen id = none → rt'.findListen id = none := fun id hf => by
    refine List.find?_eq_none.mpr (fun li hli => ?_)
    obtain ⟨li', hmem, hid, _⟩ := mem_closedList (hl ▸ hli)
    rw [← hid]
    exact List.find?_eq_none.mp hf li' hmem
  refine ⟨fun li hli => ?_, fun li hli => ?_⟩
  · have hold := h.closed li hli
    rw [List.filterMap_append, List.filterMap_append, List.filterMap_flatMap,
      hfree (Note.closedOf li.id) (fun _ => rfl), List.append_nil, listenFd_closedList hl]
    simp only [filterMap_closedOf]
    rw [flatMap_find hids (fun li => li.fd.toList)]
    unfold listenFd findListen at hold
    cases hf : rt.listenList.find? (fun l => l.id == li.id) <;> simpa [hf] using hold
  · have hold := h.freed li hli
    rw [List.filterMap_append, List.filterMap_append, List.filterMap_flatMap,
      hfree (Note.freedOf li.id) (fun _ => rfl), List.append_nil]
    simp only [filterMap_freedOf]
    rw [flatMap_find hids (fun l => if (rt'.findListen li.id).isNone then [l.fdList] else [])]
    unfold listenFd at hold ⊢
    change _ ++ (match rt.findListen li.id with | none => [] | some l => _) = _
    cases hf : rt.findListen li.id with
    | none => simpa [hf, hgone _ hf] using hold
    | some l =>
        cases hf' : rt'.findListen li.id with
        | none => simpa [hf, fdList_of_closedList hids hl hf hf'] using hold
        | some l' => simpa [hf] using hold

theorem Closes.step (h : Closes lis rt log) (hids : (rt.listenList.map ListenInfo.id).Nodup)
    {new : List Note} (hn : Noted rt rt' new) : Closes lis rt' (log ++ new) := by
  cases hn with
  | lists hnew hfd _ =>
      refine h.keep (fun n hn id => ?_) hfd
      rcases hnew n hn with ⟨_, _, rfl⟩ | ⟨_, rfl⟩ <;> exact ⟨rfl, rfl⟩
  | run id fd er hfd _ _ =>
      refine h.keep (fun n hn id => ?_) hfd
      obtain rfl := List.mem_singleton.mp hn
      exact ⟨rfl, rfl⟩
  | exited er hfd _ _ =>
      refine h.keep (fun n hn id => ?_) hfd
      obtain rfl := List.mem_singleton.mp hn
      exact ⟨rfl, rfl⟩
  | closed hl _ => exact h.close hids hl

theorem Closes.initial (hids : (rt.listenList.map ListenInfo.id).Nodup) :
    Closes rt.listenList rt [] := by
  have hfd : ∀ li ∈ rt.listenList, rt.listenFd li.id = some li.fd := fun li hli => by
    unfold listenFd
    rw [findListen_of_mem hids hli]
    rfl
  refine ⟨fun li hli => ?_, fun li hli => ?_⟩
  · rw [hfd li hli]
    rfl
  · rw [hfd li hli]
    rfl

/-! ## Runs -/

structure Books (lis : List ListenInfo) (s : Runtime P × List Note) : Prop where
  base : Base s.1
  queues : Queues s.1 s.2
  leaves : Leaves s.1
  counts : Counts s.1 s.2
  closes : Closes lis s.1 s.2

theorem Books.initial {p : P} (h : Initial p rt) (hlimit : 1 ≤ rt.coPool.limitMax) :
    Books rt.listenList (rt, []) where
  base := .initial h
  queues := .initial h
  leaves := leaves_of_early hlimit (by rw [h.phase]; trivial)
  counts := fun er => Or.inr ⟨fun hl => hl (h.routines er), rfl⟩
  closes := .initial h.ids

theorem Books.step {lis : List ListenInfo} {s s' : Runtime P × List Note} (h : Books lis s)
    {a : Act K} (hg : s.1.createsBelowLimit a = true)
    (hs : Lib.logged (step poll) notes s a = some s') : Books lis s' := by
  obtain ⟨t, ht, rfl⟩ := Lib.logged_eq_some.mp hs
  have hn := noted_step h.base ht
  exact ⟨h.base.step ht, h.queues.step h.base ht, h.leaves.step h.base hg ht, h.counts.step hn,
    h.closes.step h.base.ids hn⟩

/-- When the loop has left through the stopping branch, routines were started for all that was
queued and have exited, and each listener was closed once and freed once, with an empty list. -/
theorem stopped_gracefully (poll : EfPoll P K) (p : P) {rt₀ : Runtime P}
    (hlimit : 1 ≤ rt₀.coPool.limitMax) {s : Runtime P × List Note}
    (h : Lib.Reachable (fun s => Initial p s.1 ∧ s = (rt₀, [])) (Lib.logged (step poll) notes)
      (fun s a => s.1.createsBelowLimit a = true) s)
    (hret : s.1.phase = .returned 0) :
    (∀ id, s.2.filterMap (Note.queuedOn id) = s.2.filterMap (Note.runFrom id)) ∧
    (∀ er, (s.1.routines er).pc = .exited ∧
      s.2.countP (Note.starts er) = s.2.countP (Note.exits er)) ∧
    ∀ li ∈ rt₀.listenList, ∃ fd, li.fd = some fd ∧
      s.2.filterMap (Note.closedOf li.id) = [fd] ∧ s.2.filterMap (Note.freedOf li.id) = [[]] := by
  have hinv : Lib.Invariant (fun s => Initial p s.1 ∧ s = (rt₀, []))
      (Lib.logged (step poll) notes) (fun s a => s.1.createsBelowLimit a = true)
      (fun s => Books rt₀.listenList s ∧ ∀ li ∈ rt₀.listenList, ∃ fd, li.fd = some fd) := by
    refine ⟨fun h₀ => ?_, fun h₀ hg hs => ⟨h₀.1.step hg hs, h₀.2⟩⟩
    obtain ⟨hi, rfl⟩ := h₀
    exact ⟨.initial hi hlimit, fun li hli => (hi.listeners li hli).2.imp fun _ hfd => hfd.1⟩
  obtain ⟨hb, hfds⟩ := hinv.holds h
  obtain ⟨hnil, hlive⟩ := hb.leaves.returned hret
  have hgone : ∀ id, s.1.findListen id = none := fun id => by
    unfold findListen
    rw [hnil]
    rfl
  refine ⟨fun id => ?_, fun er => ⟨not_not.mp (hlive er), ?_⟩, fun li hli => ?_⟩
  · have haw : s.1.awaiting id = [] := by
      rw [awaiting_of_not_starting (not_starting hret (fun _ _ => Phase.noConfusion))]
      unfold queueOf
      rw [hgone]
      rfl
    rw [hb.queues.fifo id, haw, List.append_nil]
  · exact (hb.counts er).elim (fun hl => absurd hl.1 (hlive er)) And.right
  · obtain ⟨fd, hfd⟩ := hfds li hli
    have hnone : s.1.listenFd li.id = none := by
      unfold listenFd
      rw [hgone]
      rfl
    have hclosed := hb.closes.closed li hli
    have hfreed := hb.closes.freed li hli
    rw [hnone] at hclosed hfreed
    rw [hfd] at hclosed
    exact ⟨fd, hfd, by simpa using hclosed, by simpa using hfreed⟩

/-- The loop is stopped while a routine waits: the listener is closed in that round, and the loop
leaves in the next, when the routine has ended. -/
def stoppedWaiting : List (Act (List (Nat × Nat))) :=
  [.associate true, .associate true, .wait [(3, efPollin)], .event, .accept 5 true (some 50) true,
    .acceptFailed, .acceptEnd true, .event, .stop, .queue (some 1000), .transfer .read 5 true 0,
    .started, .queue (some 1001), .queue (some 1001),
    .exitQueue (fun _ => true) (fun _ => false) (fun _ => false), .wait [(5, efPollin)], .event,
    .wake 0, .transferred 0 0, .dissociate true, .endProc true, .event, .queue (some 1001),
    .exitQueue (fun _ => true) (fun _ => false) (fun _ => false)]

theorem stopped_gracefully_waiting : ∃ s, Lib.run (Lib.logged (step efEpoll) notes)
      (fun s a => s.1.createsBelowLimit a = true) (oneListener fun _ => none, [])
      stoppedWaiting = some s ∧
    s.1.phase = .returned 0 ∧
    s.2 = [.malloc 50, .queued 100 5, .run 100 5 1000, .closed 100 3, .freed 100 [], .free 50,
      .exited 1000] ∧
    s.2.countP (Note.starts 1000) = s.2.countP (Note.exits 1000) ∧
    s.2.filterMap (Note.closedOf 100) = [3] ∧ s.2.filterMap (Note.freedOf 100) = [[]] := by
  have hrun : (Lib.run (Lib.logged (step efEpoll) notes)
      (fun s a => s.1.createsBelowLimit a = true) (oneListener fun _ => none, [])
      stoppedWaiting).map (fun s => (s.1.phase, s.2)) =
      some (.returned 0, [.malloc 50, .queued 100 5, .run 100 5 1000, .closed 100 3,
        .freed 100 [], .free 50, .exited 1000]) := by decide
  obtain ⟨s, hr, he⟩ := Option.map_eq_some_iff.mp hrun
  obtain ⟨hret, hlog⟩ := Prod.mk.inj he
  have hinit : Lib.Reachable (fun s : Runtime Epoll × List Note => Initial (fun _ => none) s.1 ∧
      s = (oneListener fun _ => none, [])) (Lib.logged (step efEpoll) notes)
      (fun s a => s.1.createsBelowLimit a = true) (oneListener fun _ => none, []) :=
    .init ⟨oneListener_initial _, rfl⟩
  obtain ⟨_, hcount, hclosed⟩ := stopped_gracefully efEpoll (fun _ => none) (by decide)
    (hinit.run hr) hret
  obtain ⟨fd, hfd, hc, hf⟩ := hclosed ⟨100, some 3, []⟩ List.mem_cons_self
  cases hfd
  exact ⟨s, hr, hret, hlog, (hcount 1000).2, hc, hf⟩

end Runtime

end EFramework
