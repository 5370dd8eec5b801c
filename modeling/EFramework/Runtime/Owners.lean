import EFramework.Runtime.Base
import EFramework.Lib.Run

/-! # Who owns the descriptors

`ef_proc` closes the descriptor it was started with when its procedure returns,
closed or not. That is right as long as the number has not been given out again:
a routine that outlives its descriptor may find another's under the number.
-/

namespace EFramework.Runtime

variable {P K : Type}

def closesOwn (rt : Runtime P) (a : Act K) : Bool :=
  match rt.current, a with
  | some er, .close fd _ _ => rt.owner fd = some (.routine er)
  | _, _ => true

/-- The kernel gives out the lowest number that is free. -/
def opensLowest (rt : Runtime P) (a : Act K) : Bool :=
  match a with
  | .accept fd _ _ _ | .socket fd => (List.range fd).all rt.isOpen
  | _ => true

def isFresh (rt : Runtime P) (fd : Nat) : Bool :=
  rt.coPool.fullList.all (fun er => rt.current = some er ∨ (rt.routines er).pc = .exited ∨
    (rt.routines er).procFd ≠ fd)

/-- No number is given out that is the one of the accepted descriptor of another routine that is
still alive. -/
def opensFresh (rt : Runtime P) (a : Act K) : Bool :=
  match a with
  | .accept fd _ _ _ | .socket fd => rt.isFresh fd
  | _ => true

/-- Whenever the procedure of a routine may return, `ef_proc` closes a descriptor of the routine
or none. -/
def EndsOwn (rt : Runtime P) : Prop :=
  ∀ er retval errno, rt.current = some er → (rt.routines er).pc = .user retval errno →
    rt.owner (rt.routines er).procFd = none ∨
      rt.owner (rt.routines er).procFd = some (.routine er)

/-- What may be open under the numbers that the program holds. -/
structure Owners (rt : Runtime P) : Prop where
  proc : ∀ er, rt.Live er → rt.owner (rt.routines er).procFd = none ∨
    rt.owner (rt.routines er).procFd = some (.routine er)
  queued : ∀ li ∈ rt.listenList, ∀ qf ∈ li.fdList, ¬ rt.Starting qf →
    rt.owner qf.fd = some (.queued qf.node)
  listener : ∀ li ∈ rt.listenList, ∀ fd, li.fd = some fd → rt.owner fd = some .listener

variable {poll : EfPoll P K} {rt rt' : Runtime P} {er fd : Nat}

theorem Base.procFd_ne (hb : Base rt) (hf : rt.isFresh fd = true) (hl : rt.Live er)
    (hcur : rt.current ≠ some er) : (rt.routines er).procFd ≠ fd := by
  have h := of_decide_eq_true (List.all_eq_true.mp hf er (hb.pool.live_full er hl))
  rcases h with hc | hx | hne
  · exact absurd hc hcur
  · exact absurd hx hl
  · exact hne

theorem closesOwn_of_usesOwn {a : Act K} (h : rt.usesOwn a = true) :
    rt.closesOwn a = true := by
  cases a with
  | close fd wrapped ok =>
      cases hcur : rt.current with
      | none => simp [closesOwn, hcur]
      | some er =>
          simp only [usesOwn, hcur, decide_eq_true_eq] at h
          simp only [closesOwn, hcur, decide_eq_true_eq]
          exact h.1
  | _ => simp [closesOwn]

/-! ## Changes that keep the invariant -/

theorem Owners.setPhase (h : Owners rt) (hold : ∀ qf, ¬ rt.Starting qf) (p : P) (phase : Phase) :
    Owners { rt with p := p, phase := phase } :=
  ⟨h.proc, fun li hli qf hqf _ => h.queued li hli qf hqf (hold qf), h.listener⟩

theorem Owners.setPool (h : Owners rt) (coPool : CoroutinePool) :
    Owners { rt with coPool := coPool } :=
  ⟨h.proc, h.queued, h.listener⟩

theorem Owners.setOwner (h : Owners rt) {o : Option Owner}
    (hold : rt.owner fd = none ∨ ∃ er, rt.owner fd = some (.routine er))
    (hproc : ∀ er, rt.Live er → (rt.routines er).procFd = fd → o = none ∨ o = some (.routine er))
    (p : P) : Owners { rt with p := p, owner := Function.update rt.owner fd o } := by
  have hne : ∀ {fd' : Nat} {o' : Owner}, rt.owner fd' = some o' → (∀ er, o' ≠ .routine er) →
      Function.update rt.owner fd o fd' = some o' := by
    intro fd' o' ho' hro
    rw [Function.update_of_ne, ho']
    rintro rfl
    rcases hold with hold | ⟨er, hold⟩
    · rw [hold] at ho'
      cases ho'
    · rw [hold] at ho'
      cases ho'
      exact hro er rfl
  refine ⟨fun er hl => ?_, fun li hli qf hqf hs => hne (h.queued li hli qf hqf hs) (fun _ => ?_),
    fun li hli fd' hfd => hne (h.listener li hli fd' hfd) (fun _ => ?_)⟩
  · dsimp only
    by_cases he : (rt.routines er).procFd = fd
    · rw [he, Function.update_self]
      exact hproc er hl he
    · rw [Function.update_of_ne he]
      exact h.proc er hl
  · exact Owner.noConfusion
  · exact Owner.noConfusion

theorem Owners.setRoutine (h : Owners rt) {r : Routine} (hproc : r.procFd = (rt.routines er).procFd)
    (hlive : r.pc ≠ .exited → rt.Live er) (p : P) (current : Option Nat)
    (coPool : CoroutinePool) :
    Owners { rt with
      p := p, routines := Function.update rt.routines er r, current := current
      coPool := coPool } := by
  refine ⟨fun er' hl => ?_, h.queued, h.listener⟩
  by_cases he : er' = er
  · subst he
    have hl' := h.proc er' (hlive (by simpa [Live] using hl))
    simpa [hproc] using hl'
  · have hl' := h.proc er' (by simpa [Live, he] using hl)
    simpa [he] using hl'

theorem Owners.routineStep (h : Owners rt) (hb : Base rt) (hcur : rt.current = some er) {a : Act K}
    (hclose : rt.closesOwn a = true) (hopen : rt.opensFresh a = true)
    (hs : routineStep poll rt er a = some rt') : Owners rt' := by
  have hlive := hb.live_of_current hcur
  rcases routineStep_cases hs with ⟨r, p, current, rfl, hproc, _, _⟩ | ⟨fd, rfl, ho, rfl⟩ |
    ⟨fd, _, _, p, rfl, rfl⟩ | ⟨_, p, _, rfl⟩
  · exact h.setRoutine hproc (fun _ => hlive) p current rt.coPool
  · refine h.setOwner (Or.inl ho) (fun er' hl he => Or.inr ?_) rt.p
    by_contra hne
    refine hb.procFd_ne hopen hl ?_ he
    rw [hcur]
    exact fun hc => hne (by rw [Option.some.inj hc])
  · unfold closesOwn at hclose
    rw [hcur] at hclose
    exact h.setOwner (Or.inr ⟨er, of_decide_eq_true hclose⟩) (fun _ _ _ => Or.inl rfl) p
  · exact (h.setOwner (o := none) ((h.proc er hlive).imp id (fun ho => ⟨er, ho⟩))
      (fun _ _ _ => Or.inl rfl) p).setRoutine (r := { rt.routines er with pc := .exited }) rfl
      (fun hx => absurd rfl hx) p none _

/-! ## Steps -/

theorem Owners.acceptSocket (h : Owners rt) (hb : Base rt) (hcur : rt.current = none)
    {socket : Nat} {nonblock : Bool} {fresh : Option Nat} {ok : Bool}
    (hopen : rt.isFresh socket = true)
    (hs : rt.acceptSocket poll socket nonblock fresh ok = some rt') : Owners rt' := by
  obtain ⟨li, evts, info, fd, hp, hinfo, _, ho, hcase⟩ := acceptSocket_cases hs
  have hold : ∀ qf, ¬ rt.Starting qf := not_starting hp (fun _ _ => Phase.noConfusion)
  have hne : ∀ er, rt.Live er → (rt.routines er).procFd ≠ socket := fun er hl =>
    hb.procFd_ne hopen hl (by rw [hcur]; exact (Option.some_ne_none er).symm)
  rcases hcase with ⟨_, rfl⟩ | ⟨_, _, rfl⟩ | ⟨node, rest, _, _, rfl⟩
  · exact (h.setPhase hold rt.p (.events evts)).setOwner (Or.inl ho)
      (fun er hl he => absurd he (hne er hl)) _
  · exact h.setPhase hold _ _
  · have h' := h.setOwner (o := some (.queued node)) (Or.inl ho)
      (fun er hl he => absurd he (hne er hl)) rt.p
    refine ⟨h'.proc, fun li' hli' qf hqf hstart => ?_, fun li' hli' fd' hfd => ?_⟩
    · obtain ⟨li₀, hli₀, _, _, ⟨_, hq⟩ | ⟨_, rfl⟩⟩ :=
          mem_setQueue rt li (fun qfs => qfs ++ [⟨node, socket⟩]) hli'
      · rw [hq] at hqf
        rcases List.mem_append.mp hqf with hqf | hqf
        · exact h'.queued li₀ hli₀ qf hqf hstart
        · obtain rfl := List.mem_singleton.mp hqf
          exact Function.update_self _ _ _
      · exact h'.queued _ hli₀ qf hqf hstart
    · obtain ⟨li₀, hli₀, _, hfd₀, _⟩ := mem_setQueue rt li (fun qfs => qfs ++ [⟨node, socket⟩]) hli'
      exact h'.listener li₀ hli₀ fd' (hfd₀.trans hfd)

theorem Owners.nextQueued (h : Owners rt) (hb : Base rt) {fresh : Option Nat}
    (hs : rt.nextQueued fresh = some rt') : Owners rt' := by
  rcases nextQueued_cases hs with ⟨hp, rfl⟩ | ⟨id, lis, info, hp, hinfo, hcase⟩
  · exact h.setPhase (not_starting hp (fun _ _ => Phase.noConfusion)) rt.p _
  have hold : ∀ qf, ¬ rt.Starting qf := not_starting hp (fun _ _ => Phase.noConfusion)
  rcases hcase with ⟨_, rfl⟩ | ⟨qf, qfs, pool, hqf, ⟨_, rfl⟩ | ⟨er, hc, rfl⟩⟩
  · exact h.setPhase hold rt.p _
  · exact (h.setPool pool).setPhase hold rt.p _
  · rcases hb.pool.create hc with ⟨hco, _⟩ | ⟨co, hco, hnot, _⟩
    · cases hco
    cases hco
    have hmem := (findListen_spec hinfo).1
    have hqf' : qf ∈ info.fdList := by
      rw [hqf]
      exact List.mem_cons_self
    have ho := h.queued info hmem qf hqf' (hold qf)
    have hne : ∀ fd' o', rt.owner fd' = some o' → o' ≠ .queued qf.node → fd' ≠ qf.fd := by
      rintro fd' o' ho' hno rfl
      rw [ho] at ho'
      exact hno (Option.some.inj ho').symm
    refine ⟨fun er' hl => ?_, fun li hli qf' hmem' hstart => ?_, fun li hli fd' hfd => ?_⟩
    · by_cases he : er' = er
      · subst he
        simp
      · have hl' : rt.Live er' := by simpa [Live, he] using hl
        have hfd : (rt.routines er').procFd ≠ qf.fd := by
          intro hfd
          have hp' := h.proc er' hl'
          rw [hfd, ho] at hp'
          rcases hp' with hp' | hp' <;> cases hp'
        simpa [he, hfd] using h.proc er' hl'
    · have ho' := h.queued li hli qf' hmem' (hold qf')
      refine (Function.update_of_ne (hne _ _ ho' ?_) _ _).trans ho'
      intro hn
      refine hstart ⟨id :: lis, ?_⟩
      rw [hb.eq_of_node hli hmem' hmem hqf' (Owner.queued.inj hn)]
    · have ho' := h.listener li hli fd' hfd
      exact (Function.update_of_ne (hne _ _ ho' Owner.noConfusion) _ _).trans ho'

theorem Owners.queuedStarted (h : Owners rt) (hb' : Base rt') (hs : rt.queuedStarted = some rt') :
    Owners rt' := by
  obtain ⟨qf, id, lis, hp, rfl⟩ := queuedStarted_cases hs
  refine ⟨h.proc, fun li hli qf' hqf' _ => ?_, fun li hli fd hfd => ?_⟩
  · have hne : qf' ≠ qf := by
      rintro rfl
      have hdisj := (List.nodup_append.mp hb'.nodes).2.2
      exact hdisj _ (List.mem_flatMap.mpr ⟨li, hli, List.mem_map_of_mem hqf'⟩) _
        List.mem_cons_self rfl
    have hstart : ¬ rt.Starting qf' := by
      rintro ⟨lis', hs'⟩
      rw [hp] at hs'
      cases hs'
      exact hne rfl
    obtain ⟨li₀, hli₀, _, _, ⟨_, hq⟩ | ⟨_, rfl⟩⟩ := mem_setQueue rt id (fun qfs => qfs.erase qf) hli
    · rw [hq] at hqf'
      exact h.queued li₀ hli₀ qf' (List.mem_of_mem_erase hqf') hstart
    · exact h.queued _ hli₀ qf' hqf' hstart
  · obtain ⟨li₀, hli₀, _, hfd₀, _⟩ := mem_setQueue rt id (fun qfs => qfs.erase qf) hli
    exact h.listener li₀ hli₀ fd (hfd₀.trans hfd)

theorem Owners.closeListeners (h : Owners rt) (hold : ∀ qf, ¬ rt.Starting qf)
    (poll : EfPoll P K) (del : Nat → Bool) : Owners (closeListeners poll del rt) := by
  have howner : ∀ fd o, rt.owner fd = some o → o ≠ .listener →
      ((rt.listenList.filterMap ListenInfo.fd).foldl (closeFd poll del) (rt.p, rt.owner)).2 fd =
        some o := by
    intro fd o ho hne
    have hmem : fd ∉ rt.listenList.filterMap ListenInfo.fd := by
      intro hmem
      obtain ⟨li, hli, hfd⟩ := List.mem_filterMap.mp hmem
      rw [h.listener li hli fd hfd] at ho
      exact hne (Option.some.inj ho).symm
    rw [foldl_closeFd_owner, if_neg hmem]
    exact ho
  rw [closeListeners_eq]
  refine ⟨fun er hl => ?_, fun li hli qf hqf _ => ?_, fun li hli fd hfd => ?_⟩
  · rcases h.proc er hl with ho | ho
    · refine Or.inl ?_
      dsimp only
      rw [foldl_closeFd_owner]
      split
      · rfl
      · exact ho
    · exact Or.inr (howner _ _ ho Owner.noConfusion)
  · obtain ⟨li', hli', _, hq, _⟩ := mem_closedList hli
    rw [← hq] at hqf
    exact howner _ _ (h.queued li' hli' qf hqf (hold qf)) Owner.noConfusion
  · obtain ⟨li', hli', hid, _, ⟨_, hnone, _⟩ | ⟨hnot, _⟩⟩ := mem_closedList hli
    · rw [hfd] at hnone
      cases hnone
    · rw [← hid] at hnot
      exact absurd (List.mem_map_of_mem hli') hnot

theorem Owners.exitQueue (h : Owners rt) {del idleStop idle : Nat → Bool}
    (hs : rt.exitQueue poll del idleStop idle = some rt') : Owners rt' := by
  obtain ⟨hp, hcase⟩ := exitQueue_cases hs
  have hold : ∀ qf, ¬ rt.Starting qf := not_starting hp (fun _ _ => Phase.noConfusion)
  have hold' : ∀ qf, ¬ (Runtime.closeListeners poll del rt).Starting qf := by
    rw [closeListeners_eq]
    exact hold
  have h' := h.closeListeners hold poll del
  rcases hcase with ⟨_, rfl⟩ | ⟨_, _, rfl⟩ | ⟨_, _, rfl⟩
  · exact (h.setPhase hold rt.p .wait).setPool _
  · generalize Runtime.closeListeners poll del rt = rt₁ at h' hold' ⊢
    exact (h'.setPhase hold' rt₁.p (.returned 0)).setPool _
  · generalize Runtime.closeListeners poll del rt = rt₁ at h' hold' ⊢
    exact (h'.setPhase hold' rt₁.p .wait).setPool _

theorem Owners.step (h : Owners rt) (hb : Base rt) {a : Act K}
    (hguard : rt.closesOwn a = true ∧ rt.opensFresh a = true) (hs : step poll rt a = some rt') :
    Owners rt' := by
  have hb' := hb.step hs
  unfold Runtime.step at hs
  split at hs
  · cases hs
    exact ⟨h.proc, h.queued, h.listener⟩
  next hcur =>
    unfold loopStep at hs
    split at hs
    · rcases associateListener_cases hs with ⟨hp, rfl⟩ | ⟨li, rest, hp, _, rfl⟩ |
        ⟨li, rest, fd, ret, p, hp, _, _, ⟨_, rfl⟩ | ⟨_, rfl⟩⟩
      all_goals exact h.setPhase (not_starting hp (fun _ _ => Phase.noConfusion)) _ _
    · obtain ⟨hp, evts, p, _, rfl⟩ := pollWait_cases hs
      exact h.setPhase (not_starting hp (fun _ _ => Phase.noConfusion)) _ _
    · obtain ⟨hp, rfl | rfl⟩ := pollWaitFailed_cases hs
      all_goals exact h.setPhase (not_starting hp (fun _ _ => Phase.noConfusion)) rt.p _
    · rcases nextEvent_cases hs with ⟨hp, rfl⟩ | ⟨e, evts, li, hp, _, rfl⟩ |
        ⟨e, evts, er, hp, _, ⟨_, rfl⟩ | ⟨c, retval, hpc, rfl⟩⟩
      · exact h.setPhase (not_starting hp (fun _ _ => Phase.noConfusion)) rt.p _
      · exact h.setPhase (not_starting hp (fun _ _ => Phase.noConfusion)) rt.p _
      · exact h.setPhase (not_starting hp (fun _ _ => Phase.noConfusion)) rt.p _
      · have h₁ := h.setPhase (not_starting hp (fun _ _ => Phase.noConfusion)) rt.p (.events evts)
        exact h₁.setRoutine (r := { rt.routines er with pc := .woken c retval e.events }) rfl
          (fun _ hx => by rw [show _ = (rt.routines er).pc from rfl, hpc] at hx; cases hx) rt.p
          (some er) rt.coPool
    · obtain ⟨li, evts, hp, rfl⟩ := acceptFailed_cases hs
      exact h.setPhase (not_starting hp (fun _ _ => Phase.noConfusion)) rt.p _
    · obtain ⟨li, evts, info, fd, hp, _, _, rfl⟩ := acceptEnd_cases hs
      exact h.setPhase (not_starting hp (fun _ _ => Phase.noConfusion)) _ _
    · exact h.acceptSocket hb hcur hguard.2 hs
    · exact h.nextQueued hb hs
    · exact h.queuedStarted hb' hs
    · exact h.exitQueue hs
    · cases hs
  next er hcur => exact h.routineStep hb hcur hguard.1 hguard.2 hs

theorem Owners.initial {p : P} (h : Initial p rt) : Owners rt where
  proc := fun er hl => absurd (h.routines er) hl
  queued := fun li hli qf hqf _ => by
    rw [(h.listeners li hli).1] at hqf
    exact absurd hqf List.not_mem_nil
  listener := fun li hli fd hfd => by
    obtain ⟨_, fd', hfd', ho⟩ := h.listeners li hli
    rw [hfd] at hfd'
    cases hfd'
    exact ho

/-- As long as no number is given out that a live routine was started with, `ef_proc` closes
descriptors of its own routine only. -/
theorem ef_proc_closes_own (poll : EfPoll P K) (p : P) {rt : Runtime P}
    (h : Lib.Reachable (Initial p) (step poll)
      (fun rt a => rt.closesOwn a = true ∧ rt.opensFresh a = true) rt) : EndsOwn rt := by
  have hinv : Lib.Invariant (Initial p) (step poll)
      (fun rt a => rt.closesOwn a = true ∧ rt.opensFresh a = true)
      (fun rt => Base rt ∧ Owners rt) :=
    ⟨fun h₀ => ⟨.initial h₀, .initial h₀⟩,
      fun h₀ hg hs => ⟨h₀.1.step hs, h₀.2.step h₀.1 hg hs⟩⟩
  obtain ⟨hb, ho⟩ := hinv.holds h
  exact fun er _ _ hcur _ => ho.proc er (hb.live_of_current hcur)

/-- Routine 1000 opens a descriptor of its own, closes the accepted one and waits. Routine 1001
is then started with the number that was closed, and routine 1000 goes on. -/
def outlived : List (Act (List (Nat × Nat))) :=
  [.associate true, .associate true, .wait [(3, efPollin)], .event, .accept 5 true (some 50) true,
    .acceptFailed, .acceptEnd true, .event, .queue (some 1000), .socket 6, .close 5 false true,
    .transfer .read 6 true 0, .started, .queue none, .queue none,
    .exitQueue (fun _ => true) (fun _ => false) (fun _ => false), .wait [(3, efPollin)], .event,
    .accept 5 true none true, .acceptFailed, .acceptEnd true, .event, .queue (some 1001),
    .transfer .read 5 true 0, .started, .queue none, .queue none,
    .exitQueue (fun _ => true) (fun _ => false) (fun _ => false), .wait [(6, efPollin)], .event,
    .wake 0, .transferred 0 0, .dissociate true]

/-- The routine may return right after it has closed its descriptor. -/
theorem ef_proc_closes_own_early : ∃ rt, Lib.run (step efEpoll)
    (fun rt a => rt.closesOwn a = true ∧ rt.opensFresh a = true)
    (oneListener fun _ => none) (outlived.take 11) = some rt ∧ EndsOwn rt := by
  obtain ⟨rt, hr⟩ := Option.isSome_iff_exists.mp (show (Lib.run (step efEpoll)
    (fun rt a => rt.closesOwn a = true ∧ rt.opensFresh a = true)
    (oneListener fun _ => none) (outlived.take 11)).isSome = true by decide)
  exact ⟨rt, hr, ef_proc_closes_own efEpoll (fun _ => none)
    ((Lib.Reachable.init (oneListener_initial fun _ => none)).run hr)⟩

/-- `ef_proc` may close the descriptor of another routine. -/
theorem ef_proc_closes_other : ¬ ∀ rt, Lib.Reachable (Initial fun _ => none) (step efEpoll)
    (fun rt a => rt.closesOwn a = true ∧ rt.opensLowest a = true) rt → EndsOwn rt := by
  intro h
  have hrun : (Lib.run (step efEpoll)
      (fun rt a => rt.closesOwn a = true ∧ rt.opensLowest a = true)
      (oneListener fun _ => none) outlived).map (fun rt => (rt.current, rt.routines 1000, rt.owner 5)) =
        some (some 1000, ⟨6, 5, .user 0 0⟩, some (.routine 1001)) := by decide
  obtain ⟨rt, hr, he⟩ := Option.map_eq_some_iff.mp hrun
  have hreach := (Lib.Reachable.init (oneListener_initial fun _ => none)).run hr
  simp only [Prod.mk.injEq] at he
  obtain ⟨hcur, hrt, ho⟩ := he
  have hends := h rt hreach 1000 0 0 hcur (by rw [hrt])
  rw [hrt, ho] at hends
  rcases hends with hends | hends <;> cases hends

end EFramework.Runtime
