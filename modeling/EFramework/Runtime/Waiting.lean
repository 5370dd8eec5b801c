import EFramework.Runtime.Invariant
import EFramework.Runtime.Usage

/-! # Batches, and the routines that wait

A routine that waits goes on when the loop comes to an event for it, whatever the
poller is. A wrapper begins with a successful `associate` and ends with a
`dissociate`, and the loop changes neither.
-/

namespace EFramework.Runtime

variable {P K : Type} {poll : EfPoll P K} {rt rt' : Runtime P} {er fd : Nat} {a : Act K}

/-! ## The batch -/

theorem loopStep_batch (hs : loopStep poll rt a = some rt') :
    (∃ report, a = .wait report ∧ rt.pollWait poll report = some rt') ∨
    (a = .event ∧ rt.nextEvent = some rt') ∨
    ((∀ report, a ≠ .wait report) ∧ a ≠ .event ∧ rt'.phase.evts = rt.phase.evts) := by
  unfold loopStep at hs
  split at hs
  · refine Or.inr (Or.inr ⟨by simp, by simp, ?_⟩)
    rcases associateListener_cases hs with ⟨hp, rfl⟩ | ⟨_, _, hp, _, rfl⟩ |
      ⟨_, _, _, _, _, hp, _, _, ⟨_, rfl⟩ | ⟨_, rfl⟩⟩ <;> simp [hp, Phase.evts]
  next report => exact Or.inl ⟨report, rfl, hs⟩
  · refine Or.inr (Or.inr ⟨by simp, by simp, ?_⟩)
    obtain ⟨hp, rfl | rfl⟩ := pollWaitFailed_cases hs <;> simp [hp, Phase.evts]
  · exact Or.inr (Or.inl ⟨rfl, hs⟩)
  · refine Or.inr (Or.inr ⟨by simp, by simp, ?_⟩)
    obtain ⟨_, _, hp, rfl⟩ := acceptFailed_cases hs
    simp [hp, Phase.evts]
  · refine Or.inr (Or.inr ⟨by simp, by simp, ?_⟩)
    obtain ⟨_, _, _, _, hp, _, _, rfl⟩ := acceptEnd_cases hs
    simp [hp, Phase.evts]
  · refine Or.inr (Or.inr ⟨by simp, by simp, ?_⟩)
    obtain ⟨_, _, _, _, hp, _, _, _, ⟨_, rfl⟩ | ⟨_, _, rfl⟩ | ⟨_, _, _, _, rfl⟩⟩ :=
      acceptSocket_cases hs <;> simp [hp, Phase.evts]
  · refine Or.inr (Or.inr ⟨by simp, by simp, ?_⟩)
    rcases nextQueued_cases hs with ⟨hp, rfl⟩ | ⟨_, _, _, hp, _, ⟨_, rfl⟩ |
      ⟨_, _, _, _, ⟨_, rfl⟩ | ⟨_, _, rfl⟩⟩⟩ <;> simp [hp, Phase.evts]
  · refine Or.inr (Or.inr ⟨by simp, by simp, ?_⟩)
    obtain ⟨_, _, _, hp, rfl⟩ := queuedStarted_cases hs
    simp [hp, Phase.evts]
  · refine Or.inr (Or.inr ⟨by simp, by simp, ?_⟩)
    obtain ⟨hp, ⟨_, rfl⟩ | ⟨_, _, rfl⟩ | ⟨_, _, rfl⟩⟩ := exitQueue_cases hs <;>
      simp [hp, Phase.evts, endRound, closeListeners_eq]
  · cases hs

theorem step_batch (hs : step poll rt a = some rt') :
    (rt.current = none ∧ ∃ report, a = .wait report ∧ rt.pollWait poll report = some rt') ∨
    (rt.current = none ∧ a = .event ∧ rt.nextEvent = some rt') ∨
    ((rt.current = none → (∀ report, a ≠ .wait report) ∧ a ≠ .event) ∧
      rt'.phase.evts = rt.phase.evts) := by
  unfold Runtime.step at hs
  split at hs
  · cases hs
    exact Or.inr (Or.inr ⟨fun _ => ⟨by simp, by simp⟩, rfl⟩)
  next hcur =>
    rcases loopStep_batch hs with h | h | ⟨hw, he, h⟩
    · exact Or.inl ⟨hcur, h⟩
    · exact Or.inr (Or.inl ⟨hcur, h⟩)
    · exact Or.inr (Or.inr ⟨fun _ => ⟨hw, he⟩, h⟩)
  next _ er _ hcur =>
    refine Or.inr (Or.inr ⟨fun hc => absurd (hcur.symm.trans hc) (Option.some_ne_none er), ?_⟩)
    rcases routineStep_cases hs with ⟨_, _, _, rfl, _⟩ | ⟨_, _, _, rfl⟩ | ⟨_, _, _, _, _, rfl⟩ |
      ⟨_, _, _, rfl⟩ <;> rfl

/-- Coming to the next event takes it out of the batch, if there is one. -/
theorem nextEvent_tail (hs : rt.nextEvent = some rt') :
    (rt.phase = .events [] ∧ rt'.phase.evts = []) ∨
      ∃ e, rt.phase = .events (e :: rt'.phase.evts) := by
  rcases nextEvent_cases hs with ⟨hp, rfl⟩ | ⟨e, _, _, hp, _, rfl⟩ |
    ⟨e, _, _, hp, _, ⟨_, rfl⟩ | ⟨_, _, _, rfl⟩⟩
  · exact Or.inl ⟨hp, rfl⟩
  · exact Or.inr ⟨e, hp⟩
  · exact Or.inr ⟨e, hp⟩
  · exact Or.inr ⟨e, hp⟩

/-! ## Routines that wait -/

/-- The loop leaves a routine that lives where it is, unless it resumes it for the next event. -/
theorem loopStep_live (hb : Base rt) (hs : loopStep poll rt a = some rt') (hlive : rt.Live er) :
    rt'.routines er = rt.routines er ∨
      ∃ e evts c retval, a = .event ∧ rt.phase = .events (e :: evts) ∧ e.ptr = .routine er ∧
        (rt.routines er).pc = .waiting c retval ∧
        rt'.routines er = { rt.routines er with pc := .woken c retval e.events } := by
  unfold loopStep at hs
  split at hs
  · rcases associateListener_cases hs with ⟨_, rfl⟩ | ⟨_, _, _, _, rfl⟩ |
      ⟨_, _, _, _, _, _, _, _, ⟨_, rfl⟩ | ⟨_, rfl⟩⟩ <;> exact Or.inl rfl
  · obtain ⟨_, _, _, _, rfl⟩ := pollWait_cases hs
    exact Or.inl rfl
  · obtain ⟨_, rfl | rfl⟩ := pollWaitFailed_cases hs <;> exact Or.inl rfl
  · rcases nextEvent_cases hs with ⟨_, rfl⟩ | ⟨_, _, _, _, _, rfl⟩ |
      ⟨e, evts, er', hp, hptr, ⟨_, rfl⟩ | ⟨c, retval, hpc, rfl⟩⟩
    · exact Or.inl rfl
    · exact Or.inl rfl
    · exact Or.inl rfl
    · by_cases he : er = er'
      · subst he
        exact Or.inr ⟨e, evts, c, retval, rfl, hp, hptr, hpc, Function.update_self _ _ _⟩
      · exact Or.inl (Function.update_of_ne he _ _)
  · obtain ⟨_, _, _, rfl⟩ := acceptFailed_cases hs
    exact Or.inl rfl
  · obtain ⟨_, _, _, _, _, _, _, rfl⟩ := acceptEnd_cases hs
    exact Or.inl rfl
  · obtain ⟨_, _, _, _, _, _, _, _, ⟨_, rfl⟩ | ⟨_, _, rfl⟩ | ⟨_, _, _, _, rfl⟩⟩ :=
      acceptSocket_cases hs <;> exact Or.inl rfl
  · rcases nextQueued_cases hs with ⟨_, rfl⟩ | ⟨_, _, _, _, _, ⟨_, rfl⟩ |
      ⟨_, _, _, _, ⟨_, rfl⟩ | ⟨er', hc, rfl⟩⟩⟩
    · exact Or.inl rfl
    · exact Or.inl rfl
    · exact Or.inl rfl
    · -- A new routine has not lived.
      rcases hb.pool.create hc with ⟨hco, _⟩ | ⟨co, hco, hnot, _⟩
      · cases hco
      cases hco
      refine Or.inl (Function.update_of_ne ?_ _ _)
      rintro rfl
      exact hnot hlive
  · obtain ⟨_, _, _, _, rfl⟩ := queuedStarted_cases hs
    exact Or.inl rfl
  · obtain ⟨_, ⟨_, rfl⟩ | ⟨_, _, rfl⟩ | ⟨_, _, rfl⟩⟩ := exitQueue_cases hs
    · exact Or.inl rfl
    · simp [closeListeners_eq]
    · simp [closeListeners_eq, endRound]
  · cases hs

theorem routineStep_other (hs : routineStep poll rt er a = some rt') {er' : Nat} (hne : er' ≠ er) :
    rt'.routines er' = rt.routines er' := by
  rcases routineStep_cases hs with ⟨_, _, _, rfl, _⟩ | ⟨_, _, _, rfl⟩ | ⟨_, _, _, _, _, rfl⟩ |
    ⟨_, _, _, rfl⟩
  · exact Function.update_of_ne hne _ _
  · rfl
  · rfl
  · exact Function.update_of_ne hne _ _

/-- A routine that waits goes on when an event for it comes up, and not before. -/
theorem step_waiting (hb : Base rt) (hs : step poll rt a = some rt') {c : Call} {retval : Int}
    (hpc : (rt.routines er).pc = .waiting c retval) :
    rt'.routines er = rt.routines er ∨ (rt.current = none ∧ a = .event ∧
      ∃ e evts, rt.phase = .events (e :: evts) ∧ e.ptr = .routine er) := by
  unfold Runtime.step at hs
  split at hs
  · cases hs
    exact Or.inl rfl
  next hcur =>
    refine (loopStep_live hb hs (by simp [Live, hpc])).imp_right ?_
    rintro ⟨e, evts, _, _, ha, hp, hptr, _⟩
    exact ⟨hcur, ha, e, evts, hp, hptr⟩
  next _ er' _ hcur =>
    refine Or.inl (routineStep_other hs ?_)
    rintro rfl
    have hrun := (hb.running er).mpr hcur
    rw [hpc] at hrun
    exact hrun

/-- An event for a routine that waits resumes it, over any poller. -/
theorem step_event (poll : EfPoll P K) (hcur : rt.current = none) {e : Event}
    {evts : List Event} (hp : rt.phase = .events (e :: evts)) (hptr : e.ptr = .routine er)
    {c : Call} {retval : Int} (hpc : (rt.routines er).pc = .waiting c retval) :
    ∃ rt', step poll rt .event = some rt' ∧ rt'.current = some er ∧
      (rt'.routines er).pc = .woken c retval e.events := by
  refine ⟨{ ({ rt with phase := .events evts } : Runtime P).setPc er
    (.woken c retval e.events) with current := some er }, ?_, rfl, by simp [setPc]⟩
  simp only [Runtime.step, hcur, Runtime.loopStep, nextEvent, hp, hptr, efCoroutineResume, hpc]

/-! ## Wrappers -/

theorem routineStep_endCall {c : Call} (hs : routineStep poll rt er a = some rt')
    (hc : (rt.routines er).pc.call = some c) :
    (rt'.routines er).pc.call = some c ∨
      ∃ ok, rt.routineCalls er a = [.dissociate c.fd true ok] := by
  have hset : ∀ r : Routine, Function.update rt.routines er r er = r :=
    fun r => Function.update_self _ _ _
  unfold routineStep at hs
  split at hs
  next hpc => simp [hpc, Pc.call] at hc
  next hpc => simp [hpc, Pc.call] at hc
  next hpc => simp [hpc, Pc.call] at hc
  next hpc => simp [hpc, Pc.call] at hc
  next hpc => simp [hpc, Pc.call] at hc
  next c' retval events error hpc =>
    cases hs
    rw [hpc] at hc
    cases hc
    exact Or.inl ((congrArg (fun r => r.pc.call) (hset _)).trans
      (afterYield_call c retval events error).1)
  next c' retval errno hpc =>
    cases hs
    rw [hpc] at hc
    cases hc
    exact Or.inl ((congrArg (fun r => r.pc.call) (hset _)).trans
      (afterTransfer_call c retval errno).1)
  next c' retval hpc =>
    cases hs
    rw [hpc] at hc
    cases hc
    exact Or.inl (congrArg (fun r => r.pc.call) (hset _))
  next c' retval errno ok hpc =>
    rw [hpc] at hc
    cases hc
    refine Or.inr ⟨ok, ?_⟩
    unfold routineCalls
    rw [hpc]
  next => cases hs

theorem step_endCall (hb : Base rt) (hs : step poll rt a = some rt') {c : Call}
    (hc : (rt.routines er).pc.call = some c) :
    (rt'.routines er).pc.call = some c ∨
      (rt.current = some er ∧ ∃ ok, rt.calls a = [.dissociate c.fd true ok]) := by
  unfold Runtime.step at hs
  split at hs
  · cases hs
    exact Or.inl hc
  next hcur =>
    have hlive : rt.Live er := fun hx => by
      rw [hx] at hc
      cases hc
    rcases loopStep_live hb hs hlive with he | ⟨e, _, c', retval, _, _, _, hpc, he⟩
    · exact Or.inl (he ▸ hc)
    · rw [hpc] at hc
      cases hc
      rw [he]
      exact Or.inl rfl
  next _ er' hstop hcur =>
    by_cases hne : er = er'
    · subst hne
      rw [calls_of_routine hstop hcur]
      exact (routineStep_endCall hs hc).imp_right (fun h => ⟨hcur, h⟩)
    · rw [routineStep_other hs hne]
      exact Or.inl hc

theorem loopCalls_cases {c : PollCall K} (hmem : c ∈ rt.loopCalls a) :
    (∃ report, a = .wait report ∧ c = .wait report) ∨
    (∃ fd li fired ok, c = .associate fd efPollin (.listen li) fired ok) ∨
    ((∀ report, c ≠ .wait report) ∧ ∀ fd events ptr fired ok,
      c ≠ .associate fd events ptr fired ok) := by
  unfold loopCalls at hmem
  split at hmem
  · split at hmem
    · obtain ⟨_, _, rfl⟩ := List.mem_map.mp hmem
      exact Or.inr (Or.inl ⟨_, _, _, _, rfl⟩)
    · cases hmem
  next report =>
    obtain rfl := List.mem_singleton.mp hmem
    exact Or.inl ⟨report, rfl, rfl⟩
  · split at hmem
    · obtain ⟨_, _, hc⟩ := List.mem_flatMap.mp hmem
      rcases List.mem_pair.mp hc with rfl | rfl
      · exact Or.inr (Or.inr ⟨by simp, by simp⟩)
      · exact Or.inr (Or.inl ⟨_, _, _, _, rfl⟩)
    · cases hmem
  · split at hmem
    · obtain ⟨_, _, hc⟩ := List.mem_flatMap.mp hmem
      unfold acceptCalls at hc
      split at hc
      · split at hc
        · simp only [List.mem_cons, List.not_mem_nil, or_false] at hc
          rcases hc with rfl | rfl | rfl
          · exact Or.inr (Or.inr ⟨by simp, by simp⟩)
          · exact Or.inr (Or.inr ⟨by simp, by simp⟩)
          · exact Or.inr (Or.inl ⟨_, _, _, _, rfl⟩)
        · obtain rfl := List.mem_singleton.mp hc
          exact Or.inr (Or.inr ⟨by simp, by simp⟩)
      · rcases List.mem_pair.mp hc with rfl | rfl
        · exact Or.inr (Or.inr ⟨by simp, by simp⟩)
        · exact Or.inr (Or.inl ⟨_, _, _, _, rfl⟩)
    · cases hmem
  · obtain ⟨_, _, rfl⟩ := List.mem_map.mp hmem
    exact Or.inr (Or.inr ⟨by simp, by simp⟩)
  · split at hmem
    · obtain ⟨_, _, hc⟩ := List.mem_flatMap.mp hmem
      rcases List.mem_pair.mp hc with rfl | rfl <;> exact Or.inr (Or.inr ⟨by simp, by simp⟩)
    · cases hmem
  · cases hmem

theorem calls_wait {report : K} (hmem : PollCall.wait report ∈ rt.calls a) :
    rt.current = none ∧ a = .wait report := by
  unfold calls at hmem
  split at hmem
  · cases hmem
  next hcur =>
    rcases loopCalls_cases hmem with ⟨_, rfl, he⟩ | ⟨_, _, _, _, he⟩ | ⟨hno, _⟩
    · cases he
      exact ⟨hcur, rfl⟩
    · cases he
    · exact absurd rfl (hno report)
  next er _ hcur =>
    unfold routineCalls at hmem
    split at hmem <;> simp at hmem
    split at hmem <;> cases hmem

theorem routineStep_associates {er' events : Nat} {fired ok : Bool}
    (hs : routineStep poll rt er a = some rt')
    (hmem : PollCall.associate fd events (.routine er') fired ok ∈ rt.routineCalls er a) :
    rt.routineCalls er a = [.associate fd events (.routine er) fired ok] ∧
      ((poll.associate rt.p fd events (.routine er) fired ok).1 < 0 ∨
        ∃ c, (rt'.routines er).pc.call = some c ∧ c.fd = fd) := by
  have hset : ∀ r : Routine, Function.update rt.routines er r er = r :=
    fun r => Function.update_self _ _ _
  unfold routineCalls at hmem ⊢
  split at hmem
  next w fd' ok' errno hpc =>
    cases List.mem_singleton.mp hmem
    refine ⟨rfl, ?_⟩
    have hs : startTransfer poll rt er w fd ok' errno = rt' := by
      simpa [routineStep, hpc] using hs
    obtain ⟨r, hr⟩ : ∃ r, poll.associate rt.p fd w.transfer.interest (.routine er) false
        (ok' && rt.isOpen fd) = r := ⟨_, rfl⟩
    obtain ⟨pc, current, he, hcase⟩ := startTransfer_spec hr errno
    rw [hr, ← hs, he]
    dsimp only
    rw [hset]
    rcases hcase with ⟨hneg, _⟩ | ⟨_, rfl, _⟩ | ⟨_, rfl, _⟩
    · exact Or.inl hneg
    · exact Or.inr ⟨_, rfl, rfl⟩
    · exact Or.inr ⟨_, rfl, rfl⟩
  next fd' ok' errno hpc =>
    cases List.mem_singleton.mp hmem
    refine ⟨rfl, ?_⟩
    have hs : startConnect poll rt er fd (.inProgress ok' errno) = rt' := by
      simpa [routineStep, hpc] using hs
    obtain ⟨r, hr⟩ : ∃ r, poll.associate rt.p fd efPollout (.routine er) false
        (ok' && rt.isOpen fd) = r := ⟨_, rfl⟩
    obtain ⟨pc, current, he, hcase⟩ := startConnect_spec hr errno
    rw [hr, ← hs, he]
    dsimp only
    rw [hset]
    rcases hcase with ⟨hneg, _⟩ | ⟨_, rfl, _⟩
    · exact Or.inl hneg
    · exact Or.inr ⟨_, rfl, rfl⟩
  · cases List.mem_singleton.mp hmem
  · have he := List.mem_singleton.mp hmem
    split at he <;> cases he
  · cases List.mem_singleton.mp hmem
  · cases List.mem_singleton.mp hmem
  · cases List.mem_singleton.mp hmem
  · cases hmem

theorem step_associates {events : Nat} {fired ok : Bool} (hs : step poll rt a = some rt')
    (hmem : PollCall.associate fd events (.routine er) fired ok ∈ rt.calls a) :
    rt.calls a = [.associate fd events (.routine er) fired ok] ∧
      ((poll.associate rt.p fd events (.routine er) fired ok).1 < 0 ∨
        ∃ c, (rt'.routines er).pc.call = some c ∧ c.fd = fd) := by
  unfold Runtime.step at hs
  split at hs
  · exact absurd hmem List.not_mem_nil
  next hstop hcur =>
    rw [calls_of_loop hstop hcur] at hmem
    rcases loopCalls_cases hmem with ⟨_, _, he⟩ | ⟨_, _, _, _, he⟩ | ⟨_, hno⟩
    · cases he
    · cases he
    · exact absurd rfl (hno _ _ _ _ _)
  next _ er' hstop hcur =>
    rw [calls_of_routine hstop hcur] at hmem ⊢
    obtain ⟨hcalls, h⟩ := routineStep_associates hs hmem
    rw [hcalls] at hmem ⊢
    cases List.mem_singleton.mp hmem
    exact ⟨rfl, h⟩

end EFramework.Runtime
