import EFramework.Runtime.Steps

/-! # What holds over any poller

The places of the routines agree with the thread, the pool holds the routines that
are alive, and the queue nodes are each in one place. None of this depends on what
the poller reports or on what the routines do.
-/

namespace EFramework.Runtime

variable {P K : Type}

def callFd (rt : Runtime P) (er : Nat) : Option Nat := (rt.routines er).pc.call.map Call.fd

def Live (rt : Runtime P) (er : Nat) : Prop := (rt.routines er).pc ≠ .exited

/-- A routine is being started for the queued descriptor. -/
def Starting (rt : Runtime P) (qf : QueueFd) : Prop := ∃ lis, rt.phase = .started qf lis

structure Base (rt : Runtime P) : Prop where
  running : ∀ er, (rt.routines er).pc.Running ↔ rt.current = some er
  pool : rt.coPool.Ok rt.Live
  nodes : rt.nodes.Nodup
  ids : (rt.listenList.map ListenInfo.id).Nodup
  associating : ∀ rest, rt.phase = .associate rest → ∀ li ∈ rest, li ∈ rt.listenList
  starting : ∀ qf lis, rt.phase = .started qf lis →
    ∃ li rest qfs, lis = li.id :: rest ∧ li ∈ rt.listenList ∧ li.fdList = qf :: qfs

variable {poll : EfPoll P K} {rt rt' : Runtime P} {er fd : Nat}

theorem Base.live_of_current (h : Base rt) (hcur : rt.current = some er) : rt.Live er :=
  ((h.running er).mpr hcur).ne_exited

theorem Base.not_running (h : Base rt) (hcur : rt.current = none) (er : Nat) :
    ¬ (rt.routines er).pc.Running := by
  intro hr
  have := (h.running er).mp hr
  rw [hcur] at this
  cases this

theorem not_starting {phase : Phase} (hp : rt.phase = phase)
    (hne : ∀ qf lis, phase ≠ .started qf lis) (qf : QueueFd) : ¬ rt.Starting qf := by
  rintro ⟨lis, hs⟩
  exact hne qf lis (hp.symm.trans hs)

/-! ## Listeners and their queues -/

/-- A change of one queue, seen in the list of the listeners. -/
theorem setQueue_split (hids : (rt.listenList.map ListenInfo.id).Nodup) {li : ListenInfo}
    (hli : li ∈ rt.listenList) :
    ∃ lis₁ lis₂, rt.listenList = lis₁ ++ li :: lis₂ ∧ ∀ f : List QueueFd → List QueueFd,
      (rt.setQueue li.id f).listenList = lis₁ ++ { li with fdList := f li.fdList } :: lis₂ := by
  obtain ⟨lis₁, lis₂, he⟩ := List.append_of_mem hli
  refine ⟨lis₁, lis₂, he, fun f => ?_⟩
  rw [he] at hids
  simp only [List.map_append, List.map_cons, List.nodup_append, List.nodup_cons] at hids
  obtain ⟨_, ⟨hnot, _⟩, hdisj⟩ := hids
  have h₁ : ∀ l ∈ lis₁, l.id ≠ li.id := fun l hl =>
    hdisj _ (List.mem_map_of_mem hl) _ List.mem_cons_self
  have h₂ : ∀ l ∈ lis₂, l.id ≠ li.id := fun l hl he =>
    hnot (he ▸ List.mem_map_of_mem hl)
  have hmap : ∀ ls : List ListenInfo, (∀ l ∈ ls, l.id ≠ li.id) →
      ls.map (fun l => if l.id = li.id then { l with fdList := f l.fdList } else l) = ls :=
    fun ls h => (List.map_congr_left (fun l hl => if_neg (h l hl))).trans (List.map_id' ls)
  unfold setQueue
  rw [he, List.map_append, List.map_cons, if_pos rfl, hmap lis₁ h₁, hmap lis₂ h₂]

theorem setQueue_ids (rt : Runtime P) (id : Nat) (f : List QueueFd → List QueueFd) :
    (rt.setQueue id f).listenList.map ListenInfo.id = rt.listenList.map ListenInfo.id := by
  unfold setQueue
  rw [List.map_map]
  refine List.map_congr_left (fun li _ => ?_)
  simp only [Function.comp_apply]
  split <;> rfl

theorem mem_setQueue (rt : Runtime P) (id : Nat) (f : List QueueFd → List QueueFd)
    {li : ListenInfo} (h : li ∈ (rt.setQueue id f).listenList) :
    ∃ li' ∈ rt.listenList, li'.id = li.id ∧ li'.fd = li.fd ∧
      ((li'.id = id ∧ li.fdList = f li'.fdList) ∨ (li'.id ≠ id ∧ li' = li)) := by
  obtain ⟨li', hmem, rfl⟩ := List.mem_map.mp h
  refine ⟨li', hmem, ?_⟩
  split
  next hid => exact ⟨rfl, rfl, Or.inl ⟨hid, rfl⟩⟩
  next hid => exact ⟨rfl, rfl, Or.inr ⟨hid, rfl⟩⟩

theorem setQueue_append_nodes (hids : (rt.listenList.map ListenInfo.id).Nodup) {li : ListenInfo}
    (hli : li ∈ rt.listenList) (qf : QueueFd) :
    ((rt.setQueue li.id (fun qfs => qfs ++ [qf])).listenList.flatMap
        (fun l => l.fdList.map QueueFd.node)).Perm
      (qf.node :: rt.listenList.flatMap (fun l => l.fdList.map QueueFd.node)) := by
  obtain ⟨lis₁, lis₂, he, hf⟩ := setQueue_split hids hli
  rw [hf, he]
  simp only [List.flatMap_append, List.flatMap_cons, List.map_append, List.map_cons, List.map_nil,
    List.append_assoc, List.singleton_append]
  rw [← List.append_assoc, ← List.append_assoc]
  exact List.perm_middle

/-- Taking the first descriptor out of a queue removes its node. -/
theorem setQueue_erase_nodes (hids : (rt.listenList.map ListenInfo.id).Nodup) {li : ListenInfo}
    (hli : li ∈ rt.listenList) {qf : QueueFd} {qfs : List QueueFd} (hqf : li.fdList = qf :: qfs) :
    (rt.listenList.flatMap (fun l => l.fdList.map QueueFd.node)).Perm
      (qf.node :: (rt.setQueue li.id (fun qfs => qfs.erase qf)).listenList.flatMap
        (fun l => l.fdList.map QueueFd.node)) := by
  obtain ⟨lis₁, lis₂, he, hf⟩ := setQueue_split hids hli
  rw [hf, he]
  simp only [List.flatMap_append, List.flatMap_cons, hqf, List.erase_cons_head, List.map_cons,
    List.cons_append]
  exact List.perm_middle

theorem Base.eq_of_node (h : Base rt) {li li' : ListenInfo} {qf qf' : QueueFd}
    (hli : li ∈ rt.listenList) (hqf : qf ∈ li.fdList) (hli' : li' ∈ rt.listenList)
    (hqf' : qf' ∈ li'.fdList) (he : qf.node = qf'.node) : qf = qf' := by
  have hnodup := (List.nodup_append.mp h.nodes).1
  rw [← List.map_flatMap] at hnodup
  exact List.inj_on_of_nodup_map hnodup (List.mem_flatMap.mpr ⟨li, hli, hqf⟩)
    (List.mem_flatMap.mpr ⟨li', hli', hqf'⟩) he

/-! ## The queue of one listener -/

def queueOf (rt : Runtime P) (id : Nat) : List QueueFd :=
  match rt.findListen id with
  | none => []
  | some li => li.fdList

theorem queueOf_of_find {id : Nat} {li : ListenInfo} (h : rt.findListen id = some li) :
    rt.queueOf id = li.fdList := by
  unfold queueOf
  rw [h]

theorem findListen_of_mem (hids : (rt.listenList.map ListenInfo.id).Nodup) {li : ListenInfo}
    (hli : li ∈ rt.listenList) : rt.findListen li.id = some li := by
  cases hf : rt.findListen li.id with
  | none =>
      have := List.find?_eq_none.mp hf li hli
      simp at this
  | some li' =>
      obtain ⟨hmem, hid⟩ := findListen_spec hf
      rw [List.inj_on_of_nodup_map hids hmem hli hid]

theorem findListen_setQueue (rt : Runtime P) (id : Nat) (f : List QueueFd → List QueueFd)
    (id' : Nat) :
    (rt.setQueue id f).findListen id' = (rt.findListen id').map
      (fun li => if li.id = id then { li with fdList := f li.fdList } else li) := by
  unfold findListen setQueue
  dsimp only
  rw [List.find?_map]
  congr 2
  funext li
  simp only [Function.comp_apply]
  split <;> rfl

theorem queueOf_setQueue_self {id : Nat} {li : ListenInfo} (h : rt.findListen id = some li)
    (f : List QueueFd → List QueueFd) : (rt.setQueue id f).queueOf id = f (rt.queueOf id) := by
  unfold queueOf
  rw [findListen_setQueue, h, Option.map_some, if_pos (findListen_spec h).2]

theorem queueOf_setQueue_of_ne {id id' : Nat} (hne : id' ≠ id) (f : List QueueFd → List QueueFd) :
    (rt.setQueue id f).queueOf id' = rt.queueOf id' := by
  unfold queueOf
  rw [findListen_setQueue]
  cases hf : rt.findListen id' with
  | none => rfl
  | some li =>
      rw [Option.map_some, if_neg]
      rw [(findListen_spec hf).2]
      exact hne

/-! ## Changes that keep the invariant -/

theorem Base.setPhase (h : Base rt) (phase : Phase)
    (hrest : ∀ rest, phase = .associate rest → ∀ li ∈ rest, li ∈ rt.listenList)
    (hnew : ∀ qf lis, phase ≠ .started qf lis) : Base { rt with phase := phase } where
  running := h.running
  pool := h.pool
  nodes := h.nodes
  ids := h.ids
  associating := hrest
  starting := fun qf lis hs => absurd hs (hnew qf lis)

theorem Base.setPoll (h : Base rt) (p : P) (stopping : Bool) (owner : Nat → Option Owner) :
    Base { rt with p := p, stopping := stopping, owner := owner } :=
  ⟨h.running, h.pool, h.nodes, h.ids, h.associating, h.starting⟩

theorem Base.setPool (h : Base rt) {coPool : CoroutinePool} (hpool : coPool.Ok rt.Live) :
    Base { rt with coPool := coPool } :=
  ⟨h.running, hpool, h.nodes, h.ids, h.associating, h.starting⟩

theorem Base.setRoutine (h : Base rt) (er : Nat) (r : Routine) (current : Option Nat)
    (coPool : CoroutinePool) (hcur : ∀ er', rt.current = some er' → er' = er)
    (hrun : (r.pc.Running ∧ current = some er) ∨ (¬ r.pc.Running ∧ current = none))
    (hpool : coPool.Ok (fun er' => (Function.update rt.routines er r er').pc ≠ .exited)) :
    Base { rt with
      routines := Function.update rt.routines er r, current := current, coPool := coPool } := by
  refine ⟨fun er' => ?_, hpool, h.nodes, h.ids, h.associating, h.starting⟩
  by_cases he : er' = er
  · subst he
    rcases hrun with ⟨hr, rfl⟩ | ⟨hr, rfl⟩ <;> simp [hr]
  · have hno : ¬ (rt.routines er').pc.Running :=
      fun hr => he (hcur er' ((h.running er').mp hr))
    rcases hrun with ⟨_, rfl⟩ | ⟨_, rfl⟩ <;> simp [he, hno, Ne.symm he]

theorem Base.pool_update (h : Base rt) (hlive : rt.Live er) {r : Routine} (hr : r.pc ≠ .exited) :
    rt.coPool.Ok (fun er' => (Function.update rt.routines er r er').pc ≠ .exited) := by
  refine h.pool.congr (fun er' => ?_)
  by_cases he : er' = er
  · subst he
    simpa [hr] using hlive
  · simp [Live, he]

theorem Base.moves (h : Base rt) (hcur : rt.current = some er) (hm : Moves rt er rt') :
    Base rt' := by
  obtain ⟨r, p, current, rfl, _, hlive, hrun⟩ := hm
  rw [hcur] at hrun
  refine (h.setRoutine er r current rt.coPool (fun er' he => ?_) hrun
    (h.pool_update (h.live_of_current hcur) hlive)).setPoll p rt.stopping rt.owner
  rw [hcur] at he
  exact (Option.some.inj he).symm

theorem Base.ended (h : Base rt) (hcur : rt.current = some er) :
    Base { rt with
      routines := Function.update rt.routines er { rt.routines er with pc := .exited }
      current := none
      coPool := efCoroutineExited rt.coPool er } := by
  refine h.setRoutine er _ none _ (fun er' he => ?_) (Or.inr ⟨id, rfl⟩)
    ((h.pool.exited (h.live_of_current hcur)).congr (fun er' => ?_))
  · rw [hcur] at he
    exact (Option.some.inj he).symm
  · by_cases he : er' = er <;> simp [he, Live]

/-! ## Steps -/

theorem Base.routineStep (h : Base rt) (hcur : rt.current = some er) {a : Act K}
    (hs : routineStep poll rt er a = some rt') : Base rt' := by
  rcases routineStep_cases hs with hm | ⟨fd, _, _, rfl⟩ | ⟨fd, _, _, p, _, rfl⟩ | ⟨_, p, _, rfl⟩
  · exact h.moves hcur hm
  · exact h.setPoll rt.p rt.stopping _
  · exact h.setPoll p rt.stopping _
  · exact (h.ended hcur).setPoll p rt.stopping _

theorem Base.acceptSocket (h : Base rt) {socket : Nat} {nonblock : Bool} {fresh : Option Nat}
    {ok : Bool} (hs : rt.acceptSocket poll socket nonblock fresh ok = some rt') : Base rt' := by
  obtain ⟨li, evts, info, fd, hp, hinfo, _, _, hcase⟩ := acceptSocket_cases hs
  rcases hcase with ⟨_, rfl⟩ | ⟨_, _, rfl⟩ | ⟨node, rest, _, ht, rfl⟩
  · exact (h.setPhase (.events evts) (fun _ he => by cases he)
      (fun _ _ he => by cases he)).setPoll _ rt.stopping _
  · exact (h.setPhase (.events evts) (fun _ he => by cases he)
      (fun _ _ he => by cases he)).setPoll _ rt.stopping rt.owner
  · obtain ⟨hmem, rfl⟩ := findListen_spec hinfo
    refine ⟨h.running, h.pool, ?_, ?_, ?_, ?_⟩
    · have hperm := (setQueue_append_nodes h.ids hmem ⟨node, socket⟩).append_right rest
      refine hperm.nodup_iff.mpr ?_
      have hnodes := h.nodes
      rcases takeNode_cases ht with ⟨hc, _⟩ | ⟨node', rest', hn, hrt, hfree⟩
      · cases hc
      cases hn
      have hrest : rest = rest' := congrArg Runtime.freeFdList hrt
      subst hrest
      rcases hfree with hfree | ⟨hfree, rfl, _, hnot⟩
      · unfold Runtime.nodes at hnodes
        rw [hfree] at hnodes
        exact List.perm_middle.nodup_iff.mp hnodes
      · rw [List.append_nil]
        unfold Runtime.nodes at hnodes hnot
        rw [hfree, List.append_nil] at hnodes hnot
        exact List.nodup_cons.mpr ⟨hnot, hnodes⟩
    · dsimp only
      rw [setQueue_ids]
      exact h.ids
    · intro rest' he
      cases hp.symm.trans he
    · intro qf lis he
      cases hp.symm.trans he

theorem Base.nextQueued (h : Base rt) (hcur : rt.current = none) {fresh : Option Nat}
    (hs : rt.nextQueued fresh = some rt') : Base rt' := by
  rcases nextQueued_cases hs with ⟨_, rfl⟩ | ⟨id, lis, info, _, hinfo, hcase⟩
  · exact h.setPhase _ (fun _ he => by cases he) (fun _ _ he => by cases he)
  rcases hcase with ⟨_, rfl⟩ | ⟨qf, qfs, pool, hqf, ⟨hc, rfl⟩ | ⟨er, hc, rfl⟩⟩
  · exact h.setPhase _ (fun _ he => by cases he) (fun _ _ he => by cases he)
  · rcases h.pool.create hc with ⟨_, rfl, _⟩ | ⟨co, hco, _⟩
    · exact h.setPhase _ (fun _ he => by cases he) (fun _ _ he => by cases he)
    · cases hco
  · rcases h.pool.create hc with ⟨hco, _⟩ | ⟨co, hco, _, _, hok⟩
    · cases hco
    cases hco
    obtain ⟨hmem, rfl⟩ := findListen_spec hinfo
    have hb := h.setRoutine er ⟨qf.fd, qf.fd, .user 0 0⟩ (some er) pool
      (fun er' he => by rw [hcur] at he; cases he) (Or.inl ⟨trivial, rfl⟩)
      (hok.congr (fun c => by by_cases he : c = er <;> simp [he, Live]))
    refine ⟨hb.running, hb.pool, hb.nodes, hb.ids, fun rest he => (by cases he),
      fun qf' lis' he => ?_⟩
    cases he
    exact ⟨info, lis, qfs, rfl, hmem, hqf⟩

theorem Base.queuedStarted (h : Base rt) (hs : rt.queuedStarted = some rt') : Base rt' := by
  obtain ⟨qf, id, lis, hp, rfl⟩ := queuedStarted_cases hs
  obtain ⟨li, rest, qfs, he, hmem, hqf⟩ := h.starting qf _ hp
  cases he
  refine ⟨h.running, h.pool, ?_, ?_, fun _ he => (by cases he), fun _ _ he => (by cases he)⟩
  · have hperm := (setQueue_erase_nodes h.ids hmem hqf).append_right rt.freeFdList
    exact List.perm_middle.nodup_iff.mpr (hperm.nodup_iff.mp h.nodes)
  · dsimp only
    rw [setQueue_ids]
    exact h.ids

theorem Base.closeListeners (h : Base rt) (hp : rt.phase = .exitQueue) (poll : EfPoll P K)
    (del : Nat → Bool) : Base (closeListeners poll del rt) := by
  rw [closeListeners_eq]
  refine ⟨h.running, h.pool, ?_, (closedList_ids _ _).nodup h.ids, ?_, ?_⟩
  · unfold Runtime.nodes
    rw [closedList_nodes, List.append_nil]
    exact (List.sublist_append_left _ _).nodup h.nodes
  · intro rest he
    cases hp.symm.trans he
  · intro qf lis he
    cases hp.symm.trans he

theorem Base.endRound (h : Base rt) (idle : Nat → Bool) : Base (rt.endRound idle) := by
  have hpool : CoroutinePool.Ok (if 0 < rt.coPool.freeCount ∧
      rt.coPool.limitMin < rt.coPool.fullCount then
        efCoroutinePoolShrink rt.coPool idle rt.countPerShrink else rt.coPool) rt.Live := by
    split
    · exact (h.pool.shrink idle _).1
    · exact h.pool
  exact (h.setPool hpool).setPhase _ (fun _ he => by cases he) (fun _ _ he => by cases he)

theorem closeListeners_coPool (poll : EfPoll P K) (del : Nat → Bool) (rt : Runtime P) :
    (Runtime.closeListeners poll del rt).coPool = rt.coPool := by
  rw [closeListeners_eq]

theorem Base.exitQueue (h : Base rt) {del idleStop idle : Nat → Bool}
    (hs : rt.exitQueue poll del idleStop idle = some rt') : Base rt' := by
  obtain ⟨hp, ⟨_, rfl⟩ | hcase⟩ := exitQueue_cases hs
  · exact h.endRound idle
  have hb := h.closeListeners hp poll del
  have hpool : ∀ n, (efCoroutinePoolShrink rt.coPool idleStop n).Ok
      (Runtime.closeListeners poll del rt).Live := fun n => by
    rw [← closeListeners_coPool poll del rt]
    exact (hb.pool.shrink idleStop n).1
  rcases hcase with ⟨_, _, rfl⟩ | ⟨_, _, rfl⟩
  · exact (hb.setPool (hpool _)).setPhase _ (fun _ he => by cases he) (fun _ _ he => by cases he)
  · exact (hb.setPool (hpool _)).endRound idle

theorem Base.step (h : Base rt) {a : Act K} (hs : step poll rt a = some rt') : Base rt' := by
  unfold Runtime.step at hs
  split at hs
  · cases hs
    exact h.setPoll rt.p true rt.owner
  next hcur =>
    unfold loopStep at hs
    split at hs
    · rcases associateListener_cases hs with ⟨hp, rfl⟩ | ⟨li, rest, _, _, rfl⟩ |
        ⟨li, rest, fd, ret, p, hp, _, _, ⟨_, rfl⟩ | ⟨_, rfl⟩⟩
      · exact h.setPhase _ (fun _ he => by cases he) (fun _ _ he => by cases he)
      · exact h.setPhase _ (fun _ he => by cases he) (fun _ _ he => by cases he)
      · exact (h.setPhase (.returned ret) (fun _ he => by cases he)
          (fun _ _ he => by cases he)).setPoll p rt.stopping rt.owner
      · refine (h.setPhase (.associate rest) (fun _ he => ?_)
          (fun _ _ he => by cases he)).setPoll p rt.stopping rt.owner
        cases he
        exact fun l hl => h.associating _ hp l (List.mem_cons_of_mem li hl)
    · obtain ⟨_, evts, p, _, rfl⟩ := pollWait_cases hs
      exact (h.setPhase (.events evts) (fun _ he => by cases he)
        (fun _ _ he => by cases he)).setPoll p rt.stopping rt.owner
    · obtain ⟨_, rfl | rfl⟩ := pollWaitFailed_cases hs
      · exact h.setPhase _ (fun _ he => by cases he) (fun _ _ he => by cases he)
      · exact h.setPhase _ (fun _ he => by cases he) (fun _ _ he => by cases he)
    · rcases nextEvent_cases hs with ⟨_, rfl⟩ | ⟨e, evts, li, _, _, rfl⟩ |
        ⟨e, evts, er, _, _, ⟨_, rfl⟩ | ⟨c, retval, hpc, rfl⟩⟩
      · exact h.setPhase _ (fun _ he => by cases he) (fun _ _ he => by cases he)
      · exact h.setPhase _ (fun _ he => by cases he) (fun _ _ he => by cases he)
      · exact h.setPhase _ (fun _ he => by cases he) (fun _ _ he => by cases he)
      · have hlive : rt.Live er := fun he => by rw [hpc] at he; cases he
        have hb := h.setPhase (.events evts) (fun _ he => by cases he)
          (fun _ _ he => by cases he)
        exact hb.setRoutine er { rt.routines er with pc := .woken c retval e.events } (some er) rt.coPool
          (fun er' he => by rw [show _ = rt.current from rfl, hcur] at he; cases he)
          (Or.inl ⟨trivial, rfl⟩) (h.pool_update hlive Pc.noConfusion)
    · obtain ⟨li, evts, _, rfl⟩ := acceptFailed_cases hs
      exact h.setPhase _ (fun _ he => by cases he) (fun _ _ he => by cases he)
    · obtain ⟨li, evts, info, fd, _, _, _, rfl⟩ := acceptEnd_cases hs
      exact (h.setPhase (.events evts) (fun _ he => by cases he)
        (fun _ _ he => by cases he)).setPoll _ rt.stopping rt.owner
    · exact h.acceptSocket hs
    · exact h.nextQueued hcur hs
    · exact h.queuedStarted hs
    · exact h.exitQueue hs
    · cases hs
  next er hcur => exact h.routineStep hcur hs

theorem Base.initial {p : P} (h : Initial p rt) : Base rt where
  running := fun er => by
    rw [h.routines er, h.current]
    exact ⟨fun he => he.elim, fun he => by cases he⟩
  pool := by
    obtain ⟨limitMin, limitMax, he⟩ := h.coPool
    rw [he]
    exact CoroutinePool.ok_init _ _ (fun er hl => hl (h.routines er))
  nodes := by
    have hempty : ∀ li ∈ rt.listenList, li.fdList.map QueueFd.node = [] := fun li hli => by
      rw [(h.listeners li hli).1, List.map_nil]
    unfold Runtime.nodes
    rw [h.freeFdList, List.append_nil, List.flatMap_eq_nil_iff.mpr hempty]
    exact List.nodup_nil
  ids := h.ids
  associating := fun rest hp li hli => by
    rw [h.phase] at hp
    cases hp
    exact hli
  starting := fun qf lis hp => by
    rw [h.phase] at hp
    cases hp

end EFramework.Runtime
