import EFramework.Runtime.Calls
import EFramework.Runtime.Owners

/-! # Routines that keep to their own descriptors

A routine that uses and closes descriptors of its own only owns the one that it was
started with for as long as it lives, and the one that it is in a wrapper on. No
call of anyone else is about either, over any poller.
-/

namespace EFramework

def Call.interest : Call → Nat
  | .transfer w _ => w.transfer.interest
  | .connect _ => efPollout

/-- A call after which something else is awaited on `fd`. -/
def PollCall.touches {K : Type} (fd : Nat) : PollCall K → Bool
  | .associate fd' _ _ _ _ | .dissociate fd' _ _ | .routineClose fd' _ => fd' = fd
  | _ => false

namespace Runtime

variable {P K : Type}

structure Uses (rt : Runtime P) : Prop where
  owners : Owners rt
  proc : ∀ er, rt.Live er → rt.owner (rt.routines er).procFd = some (.routine er)
  call : ∀ er c, (rt.routines er).pc.call = some c → rt.owner c.fd = some (.routine er)

variable {poll : EfPoll P K} {rt rt' : Runtime P} {er fd : Nat} {a : Act K}

/-! ## Calls of the wrappers -/

theorem routineStep_call {c : Call} (hs : routineStep poll rt er a = some rt')
    (hc : (rt'.routines er).pc.call = some c) :
    ((rt.routines er).pc.call = some c ∧
      ∀ fd, ∀ c' ∈ rt.routineCalls er a, c'.touches fd = false) ∨
    ∃ ok, rt.routineCalls er a = [.associate c.fd c.interest (.routine er) false ok] ∧
      0 ≤ (poll.associate rt.p c.fd c.interest (.routine er) false ok).1 ∧
      ((∃ w ok' errno, a = .transfer w c.fd ok' errno) ∨ ∃ answer, a = .connect c.fd answer) := by
  have hset : ∀ r : Routine, Function.update rt.routines er r er = r :=
    fun r => Function.update_self _ _ _
  unfold routineStep at hs
  unfold routineCalls
  split at hs
  next w fd ok errno hpc =>
    cases hs
    obtain ⟨r, hr⟩ : ∃ r, poll.associate rt.p fd w.transfer.interest (.routine er) false
        (ok && rt.isOpen fd) = r := ⟨_, rfl⟩
    obtain ⟨pc, current, he, hcase⟩ := startTransfer_spec hr errno
    subst hr
    rw [he] at hc
    have hc := (congrArg (fun r => r.pc.call) (hset _)).symm.trans hc
    rw [hpc]
    rcases hcase with ⟨_, rfl, _⟩ | ⟨hret, rfl, _⟩ | ⟨hret, rfl, _⟩
    · cases hc
    · cases hc
      exact Or.inr ⟨_, rfl, Int.le_of_lt hret, Or.inl ⟨w, ok, errno, rfl⟩⟩
    · cases hc
      exact Or.inr ⟨_, rfl, Int.le_of_eq hret.symm, Or.inl ⟨w, ok, errno, rfl⟩⟩
  next fd answer hpc =>
    cases hs
    rw [hpc]
    cases answer with
    | failed errno => simp [startConnect, setPc, Pc.call] at hc
    | connected retval errno => simp [startConnect, setPc, Pc.call] at hc
    | inProgress ok errno =>
        obtain ⟨r, hr⟩ : ∃ r, poll.associate rt.p fd efPollout (.routine er) false
            (ok && rt.isOpen fd) = r := ⟨_, rfl⟩
        obtain ⟨pc, current, he, hcase⟩ := startConnect_spec hr errno
        subst hr
        rw [he] at hc
        have hc := (congrArg (fun r => r.pc.call) (hset _)).symm.trans hc
        rcases hcase with ⟨_, rfl, _⟩ | ⟨hret, rfl, _⟩
        · cases hc
        · cases hc
          exact Or.inr ⟨_, rfl, hret, Or.inr ⟨.inProgress ok errno, rfl⟩⟩
  next fd hpc =>
    split at hs
    · cases hs
    · cases hs
      dsimp only at hc
      rw [hpc] at hc
      cases hc
  next fd wrapped ok hpc =>
    have hsame : rt'.routines = rt.routines := by
      cases hs
      split
      · obtain ⟨p, he⟩ := efRoutineClose_owner poll rt fd ok
        rw [he]
      · obtain ⟨p, he⟩ := close_owner poll rt fd
        rw [he]
    rw [hsame, hpc] at hc
    cases hc
  next ok hpc =>
    cases hs
    simp [endProc, yields, setPc, Pc.call] at hc
  next c' retval events error hpc =>
    cases hs
    have hc := (congrArg (fun r => r.pc.call) (hset _)).symm.trans hc
    have hcall := (afterYield_call c' retval events error).1
    cases hcall.symm.trans hc
    rw [hpc]
    exact Or.inl ⟨rfl, fun _ _ hmem => absurd hmem List.not_mem_nil⟩
  next c' retval errno hpc =>
    cases hs
    have hc := (congrArg (fun r => r.pc.call) (hset _)).symm.trans hc
    have hcall := (afterTransfer_call c' retval errno).1
    cases hcall.symm.trans hc
    rw [hpc]
    exact Or.inl ⟨rfl, fun _ _ hmem => absurd hmem List.not_mem_nil⟩
  next c' retval hpc =>
    cases hs
    have hc := (congrArg (fun r => r.pc.call) (hset _)).symm.trans hc
    cases hc
    rw [hpc]
    refine Or.inl ⟨rfl, fun fd c'' hmem => ?_⟩
    obtain rfl := List.mem_singleton.mp hmem
    rfl
  next c' retval errno ok hpc =>
    cases hs
    have hc := (congrArg (fun r => r.pc.call) (hset _)).symm.trans hc
    cases hc
  next => cases hs

/-- Only the running routine begins a call, and its other steps leave what is awaited alone. -/
theorem step_call {c : Call} (hs : step poll rt a = some rt')
    (hc : (rt'.routines er).pc.call = some c) :
    ((rt.routines er).pc.call = some c ∧
      (rt.current = some er → ∀ fd, ∀ c' ∈ rt.calls a, c'.touches fd = false)) ∨
    (rt.current = some er ∧ ∃ ok,
      rt.calls a = [.associate c.fd c.interest (.routine er) false ok] ∧
      0 ≤ (poll.associate rt.p c.fd c.interest (.routine er) false ok).1 ∧
      ((∃ w ok' errno, a = .transfer w c.fd ok' errno) ∨ ∃ answer, a = .connect c.fd answer)) := by
  unfold Runtime.step at hs
  split at hs
  · cases hs
    exact Or.inl ⟨hc, fun _ _ _ hmem => absurd hmem List.not_mem_nil⟩
  next hcur =>
    refine Or.inl ⟨?_, fun hcur' => by cases hcur.symm.trans hcur'⟩
    rcases loopStep_routines hs er with he | ⟨c', retval, events, hpc, he⟩ | ⟨_, he, _⟩
    · rwa [he] at hc
    · rw [he] at hc
      rw [hpc]
      exact hc
    · rw [he] at hc
      cases hc
  next _ er' hstop hcur =>
    rw [hcur]
    by_cases he : er' = er
    · subst he
      rw [calls_of_routine hstop hcur]
      exact (routineStep_call hs hc).imp (fun h => ⟨h.1, fun _ => h.2⟩) (fun h => ⟨rfl, h⟩)
    · refine Or.inl ⟨?_, fun hcur' => absurd (Option.some.inj hcur') he⟩
      have hsame : rt'.routines er = rt.routines er := by
        rcases routineStep_cases hs with ⟨_, _, _, rfl, _⟩ | ⟨_, _, _, rfl⟩ | ⟨_, _, _, _, _, rfl⟩ |
          ⟨_, _, _, rfl⟩
        · exact Function.update_of_ne (Ne.symm he) _ _
        · rfl
        · rfl
        · exact Function.update_of_ne (Ne.symm he) _ _
      rwa [hsame] at hc

/-! ## Whom a call is for -/

/-- The loop changes what is awaited on the descriptors of listeners only, and goes on awaiting
connections until it closes them. -/
theorem loopCalls_touch (hb : Base rt) {c : PollCall K} (hc : c ∈ rt.loopCalls a)
    (ht : c.touches fd = true) :
    fd ∈ rt.listenFds ∧ ((∃ ptr fired ok, c = .associate fd efPollin ptr fired ok) ∨
      (rt.stopping = true ∧ ∃ del idleStop idle, a = .exitQueue del idleStop idle)) := by
  unfold loopCalls at hc
  split at hc
  · split at hc
    next li rest hp =>
      obtain ⟨fd', hfd, rfl⟩ := List.mem_map.mp hc
      obtain rfl : fd' = fd := of_decide_eq_true ht
      refine ⟨List.mem_filterMap.mpr ⟨li, ?_, Option.mem_toList.mp hfd⟩, Or.inl ⟨_, _, _, rfl⟩⟩
      exact hb.associating _ hp li List.mem_cons_self
    · cases hc
  · obtain rfl := List.mem_singleton.mp hc
    cases ht
  · split at hc
    next li evts hp =>
      obtain ⟨fd', hfd, hc⟩ := List.mem_flatMap.mp hc
      have hmem := listenerFd_mem (Option.mem_toList.mp hfd)
      rcases List.mem_pair.mp hc with rfl | rfl
      · cases ht
      · obtain rfl : fd' = fd := of_decide_eq_true ht
        exact ⟨hmem, Or.inl ⟨_, _, _, rfl⟩⟩
    · cases hc
  · split at hc
    next li evts hp =>
      obtain ⟨fd', hfd, hc⟩ := List.mem_flatMap.mp hc
      have hmem := listenerFd_mem (Option.mem_toList.mp hfd)
      have hassoc : ∀ ok, c = .associate fd' efPollin (.listen li) true ok →
          fd ∈ rt.listenFds ∧ ∃ ptr fired ok, c = .associate fd efPollin ptr fired ok := by
        rintro ok rfl
        obtain rfl : fd' = fd := of_decide_eq_true ht
        exact ⟨hmem, _, _, _, rfl⟩
      unfold acceptCalls at hc
      split at hc
      · split at hc
        · simp only [List.mem_cons, List.not_mem_nil, or_false] at hc
          rcases hc with rfl | rfl | hc
          · cases ht
          · cases ht
          · exact (hassoc _ hc).imp_right Or.inl
        · obtain rfl := List.mem_singleton.mp hc
          cases ht
      · rcases List.mem_pair.mp hc with rfl | hc
        · cases ht
        · exact (hassoc _ hc).imp_right Or.inl
    · cases hc
  · obtain ⟨fd', _, rfl⟩ := List.mem_map.mp hc
    cases ht
  next del idleStop idle =>
    split at hc
    next hst =>
      obtain ⟨fd', hfd, hc⟩ := List.mem_flatMap.mp hc
      rcases List.mem_pair.mp hc with rfl | rfl
      · obtain rfl : fd' = fd := of_decide_eq_true ht
        exact ⟨hfd, Or.inr ⟨hst, del, idleStop, idle, rfl⟩⟩
      · cases ht
    · cases hc
  · cases hc

theorem routineCalls_touch (h : Uses rt) (hb : Base rt) (hcur : rt.current = some er)
    (hu : rt.usesOwn a = true) {c : PollCall K} (hc : c ∈ rt.routineCalls er a)
    (ht : c.touches fd = true) : rt.owner fd = some (.routine er) := by
  unfold usesOwn at hu
  rw [hcur] at hu
  unfold routineCalls at hc
  split at hc
  next w fd' ok _ _ =>
    obtain rfl := List.mem_singleton.mp hc
    obtain rfl : fd' = fd := of_decide_eq_true ht
    exact of_decide_eq_true hu
  next fd' ok _ _ =>
    obtain rfl := List.mem_singleton.mp hc
    obtain rfl : fd' = fd := of_decide_eq_true ht
    exact of_decide_eq_true hu
  · obtain rfl := List.mem_singleton.mp hc
    cases ht
  next fd' wrapped ok _ =>
    obtain rfl := List.mem_singleton.mp hc
    split at ht
    · obtain rfl : fd' = fd := of_decide_eq_true ht
      exact (of_decide_eq_true hu).1
    · cases ht
  · obtain rfl := List.mem_singleton.mp hc
    obtain rfl : (rt.routines er).procFd = fd := of_decide_eq_true ht
    exact h.proc er (hb.live_of_current hcur)
  · obtain rfl := List.mem_singleton.mp hc
    cases ht
  next c' retval errno ok hpc =>
    obtain rfl := List.mem_singleton.mp hc
    obtain rfl : c'.fd = fd := of_decide_eq_true ht
    exact h.call er c' (by rw [hpc]; rfl)
  · cases hc

theorem Uses.listener (h : Uses rt) (hfd : fd ∈ rt.listenFds) : rt.owner fd = some .listener := by
  obtain ⟨li, hli, hfd⟩ := List.mem_filterMap.mp hfd
  exact h.owners.listener li hli fd hfd

/-- What is awaited on a descriptor of a routine is up to this routine. -/
theorem Uses.calls_touch (h : Uses rt) (hb : Base rt) (hu : rt.usesOwn a = true)
    {c : PollCall K} (hc : c ∈ rt.calls a) (ht : c.touches fd = true)
    (ho : rt.owner fd = some (.routine er)) : rt.current = some er := by
  unfold calls at hc
  split at hc
  · cases hc
  next hcur =>
    have hl := h.listener (loopCalls_touch hb hc ht).1
    cases ho.symm.trans hl
  next er' _ hcur =>
    cases ho.symm.trans (routineCalls_touch h hb hcur hu hc ht)
    exact hcur

/-! ## Steps -/

/-- A number that is closed is no live routine's. -/
theorem Uses.isFresh (h : Uses rt) (ho : rt.owner fd = none) : rt.isFresh fd = true := by
  refine List.all_eq_true.mpr (fun er _ => decide_eq_true ?_)
  by_cases hl : (rt.routines er).pc = .exited
  · exact Or.inr (Or.inl hl)
  · refine Or.inr (Or.inr ?_)
    rintro rfl
    cases ho.symm.trans (h.proc er hl)

theorem Uses.opensFresh (h : Uses rt) (hs : step poll rt a = some rt') :
    rt.opensFresh a = true := by
  cases a with
  | accept fd nonblock fresh ok => exact h.isFresh (accept_closed hs)
  | socket fd => exact h.isFresh (socket_closed hs)
  | _ => rfl

theorem routineStep_close {wrapped ok : Bool}
    (hs : routineStep poll rt er (.close fd wrapped ok) = some rt') :
    (rt.routines er).pc.call = none := by
  cases hpc : (rt.routines er).pc <;> first | rfl | simp [routineStep, hpc] at hs

/-- A routine keeps its descriptors, but for those that it closes itself in its procedure. -/
theorem Uses.step_owner (h : Uses rt) (hb : Base rt) (hu : rt.usesOwn a = true)
    (hs : step poll rt a = some rt') (ho : rt.owner fd = some (.routine er)) :
    rt'.owner fd = some (.routine er) ∨
      (rt.current = some er ∧ (rt'.routines er).pc.call = none ∧
        (rt'.Live er → (rt'.routines er).procFd ≠ fd)) := by
  have hclosed : ∀ {fd' : Nat} {o : Option Owner}, rt.owner fd' = none →
      Function.update rt.owner fd' o fd = some (.routine er) := by
    intro fd' o hn
    refine (Function.update_of_ne ?_ _ _).trans ho
    rintro rfl
    cases hn.symm.trans ho
  unfold Runtime.step at hs
  split at hs
  · cases hs
    exact Or.inl ho
  next hcur =>
    refine Or.inl ?_
    unfold loopStep at hs
    split at hs
    · rcases associateListener_cases hs with ⟨_, rfl⟩ | ⟨_, _, _, _, rfl⟩ |
        ⟨_, _, _, _, _, _, _, _, ⟨_, rfl⟩ | ⟨_, rfl⟩⟩ <;> exact ho
    · obtain ⟨_, _, _, _, rfl⟩ := pollWait_cases hs
      exact ho
    · obtain ⟨_, rfl | rfl⟩ := pollWaitFailed_cases hs <;> exact ho
    · rcases nextEvent_cases hs with ⟨_, rfl⟩ | ⟨_, _, _, _, _, rfl⟩ |
        ⟨_, _, _, _, _, ⟨_, rfl⟩ | ⟨_, _, _, rfl⟩⟩ <;> exact ho
    · obtain ⟨_, _, _, rfl⟩ := acceptFailed_cases hs
      exact ho
    · obtain ⟨_, _, _, _, _, _, _, rfl⟩ := acceptEnd_cases hs
      exact ho
    · obtain ⟨_, _, _, _, _, _, _, hn, ⟨_, rfl⟩ | ⟨_, _, rfl⟩ | ⟨_, _, _, _, rfl⟩⟩ :=
        acceptSocket_cases hs
      · exact hclosed hn
      · exact ho
      · exact hclosed hn
    · rcases nextQueued_cases hs with ⟨_, rfl⟩ | ⟨_, _, info, hp, hinfo, ⟨_, rfl⟩ |
        ⟨qf, _, _, hqf, ⟨_, rfl⟩ | ⟨_, _, rfl⟩⟩⟩
      · exact ho
      · exact ho
      · exact ho
      · refine (Function.update_of_ne ?_ _ _).trans ho
        rintro rfl
        have hq := h.owners.queued info (findListen_spec hinfo).1 qf
          (by rw [hqf]; exact List.mem_cons_self)
          (not_starting hp (fun _ _ => Phase.noConfusion) qf)
        cases ho.symm.trans hq
    · obtain ⟨_, _, _, _, rfl⟩ := queuedStarted_cases hs
      exact ho
    · have hkept : ∀ del, (closeListeners poll del rt).owner fd = some (.routine er) := by
        intro del
        rw [closeListeners_eq]
        dsimp only
        rw [foldl_closeFd_owner, if_neg]
        · exact ho
        · exact fun hmem => by cases ho.symm.trans (h.listener hmem)
      obtain ⟨_, ⟨_, rfl⟩ | ⟨_, _, rfl⟩ | ⟨_, _, rfl⟩⟩ := exitQueue_cases hs
      · exact ho
      · exact hkept _
      · exact hkept _
    · cases hs
  next _ er' _ hcur =>
    rcases routineStep_cases hs with ⟨_, _, _, rfl, _⟩ | ⟨_, _, hn, rfl⟩ |
      ⟨fd', _, _, _, rfl, rfl⟩ | ⟨_, _, rfl, rfl⟩
    · exact Or.inl ho
    · exact Or.inl (hclosed hn)
    · by_cases he : fd = fd'
      · subst he
        unfold usesOwn at hu
        rw [hcur] at hu
        obtain ⟨ho', hne⟩ := of_decide_eq_true hu
        cases ho.symm.trans ho'
        have hnone := routineStep_close hs
        exact Or.inr ⟨hcur, hnone, fun _ => Ne.symm hne⟩
      · exact Or.inl ((Function.update_of_ne he _ _).trans ho)
    · by_cases he : fd = (rt.routines er').procFd
      · cases ho.symm.trans (he ▸ h.proc er' (hb.live_of_current hcur))
        refine Or.inr ⟨hcur, ?_, fun hl => ?_⟩
        · simp [Pc.call]
        · simp [Live] at hl
      · exact Or.inl ((Function.update_of_ne he _ _).trans ho)

theorem step_proc (hb : Base rt) (hs : step poll rt a = some rt') (hl : rt'.Live er) :
    (rt.Live er ∧ (rt'.routines er).procFd = (rt.routines er).procFd) ∨
      rt'.owner (rt'.routines er).procFd = some (.routine er) := by
  have hsame : rt'.routines er = rt.routines er →
      rt.Live er ∧ (rt'.routines er).procFd = (rt.routines er).procFd := fun he =>
    ⟨fun hx => hl (he ▸ hx), congrArg Routine.procFd he⟩
  unfold Runtime.step at hs
  split at hs
  · cases hs
    exact Or.inl ⟨hl, rfl⟩
  next hcur =>
    rcases loopStep_routines hs er with he | ⟨_, _, _, hpc, he⟩ | ⟨fd, he, ho⟩
    · exact Or.inl (hsame he)
    · refine Or.inl ⟨fun hx => ?_, by rw [he]⟩
      cases hpc.symm.trans hx
    · rw [he]
      exact Or.inr ho
  next _ er' _ hcur =>
    rcases routineStep_cases hs with ⟨r, _, _, rfl, hproc, _, _⟩ | ⟨_, _, _, rfl⟩ |
      ⟨_, _, _, _, _, rfl⟩ | ⟨_, _, _, rfl⟩
    · by_cases he : er = er'
      · subst he
        have hr := Function.update_self er r rt.routines
        exact Or.inl ⟨hb.live_of_current hcur, (congrArg Routine.procFd hr).trans hproc⟩
      · exact Or.inl (hsame (Function.update_of_ne he _ _))
    · exact Or.inl ⟨hl, rfl⟩
    · exact Or.inl ⟨hl, rfl⟩
    · by_cases he : er = er'
      · subst he
        simp [Live] at hl
      · exact Or.inl (hsame (Function.update_of_ne he _ _))

theorem Uses.step (h : Uses rt) (hb : Base rt) (hu : rt.usesOwn a = true)
    (hs : Runtime.step poll rt a = some rt') : Uses rt' := by
  have howners := h.owners.step hb ⟨closesOwn_of_usesOwn hu, h.opensFresh hs⟩ hs
  refine ⟨howners, fun er hl => ?_, fun er c hc => ?_⟩
  · rcases step_proc hb hs hl with ⟨hl', he⟩ | ho
    · rw [he]
      rcases h.step_owner hb hu hs (h.proc er hl') with ho | ⟨_, _, hne⟩
      · exact ho
      · exact absurd he (hne hl)
    · exact ho
  · have ho : rt.owner c.fd = some (.routine er) := by
      rcases step_call hs hc with ⟨hc', _⟩ | ⟨hcur, _, _, _, hact⟩
      · exact h.call er c hc'
      · unfold usesOwn at hu
        rw [hcur] at hu
        rcases hact with ⟨w, ok, errno, rfl⟩ | ⟨answer, rfl⟩
        · exact of_decide_eq_true hu
        · exact of_decide_eq_true hu
    rcases h.step_owner hb hu hs ho with ho' | ⟨_, hnone, _⟩
    · exact ho'
    · cases hnone.symm.trans hc

theorem Uses.setPoll (h : Uses rt) (p : P) : Uses { rt with p := p } where
  owners := ⟨h.owners.proc, h.owners.queued, h.owners.listener⟩
  proc := h.proc
  call := h.call

theorem Uses.initial {p : P} (h : Initial p rt) : Uses rt where
  owners := .initial h
  proc := fun er hl => absurd (h.routines er) hl
  call := fun er c hc => by
    rw [h.routines er] at hc
    cases hc

end Runtime

end EFramework
