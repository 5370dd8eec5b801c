import EFramework.Runtime.Invariant

/-! # Event routing over `epoll.c`

Each step of the loop and of a routine keeps the invariant, as long as routines use
and close only descriptors of their own and leave the accepted one to `ef_proc`.
So an event of a batch always finds the routine that waits for it.
-/

namespace EFramework

open Lib (Inverse)

/-! ## The epoll set -/

theorem epollAdd_cases (ep : Epoll) (fd events : Nat) (ptr : PollPtr) (ok : Bool) :
    epollAdd ep fd events ptr ok = (-1, ep) ∨
      (ep fd = none ∧
        epollAdd ep fd events ptr ok = (0, Function.update ep fd (some (events, ptr)))) := by
  unfold epollAdd
  split
  next h => exact Or.inr ⟨h.2, rfl⟩
  next => exact Or.inl rfl

theorem epollDel_snd (ep : Epoll) (fd : Nat) :
    (epollDel ep fd).2 = Function.update ep fd none := by
  unfold epollDel
  split
  next h => exact (Function.update_eq_self_iff.mpr h.symm).symm
  next => rfl

theorem mapM_events {ep : Epoll} {report : List (Nat × Nat)} {evts : List Event}
    (h : report.mapM (fun r => (ep r.1).map (fun e => Event.mk r.2 e.2 r.1)) = some evts) :
    evts.map Event.fd = report.map Prod.fst ∧
      ∀ e ∈ evts, ∃ events, ep e.fd = some (events, e.ptr) := by
  induction report generalizing evts with
  | nil =>
      rw [List.mapM_nil] at h
      cases h
      exact ⟨rfl, fun e he => absurd he List.not_mem_nil⟩
  | cons r report ih =>
      rw [List.mapM_cons] at h
      obtain ⟨e, he, h⟩ := Option.bind_eq_some_iff.mp h
      obtain ⟨rest, hrest, h⟩ := Option.bind_eq_some_iff.mp h
      obtain ⟨entry, hentry, rfl⟩ := Option.map_eq_some_iff.mp he
      cases h
      obtain ⟨hfds, hptr⟩ := ih hrest
      refine ⟨by rw [List.map_cons, List.map_cons, hfds], fun e he => ?_⟩
      rcases List.mem_cons.mp he with rfl | he
      · exact ⟨entry.1, hentry⟩
      · exact hptr e he

theorem efEpollWait_spec {ep ep' : Epoll} {report : List (Nat × Nat)} {evts : List Event}
    (h : efEpollWait ep report = some (evts, ep')) :
    ep' = ep ∧ (evts.map Event.fd).Nodup ∧ ∀ e ∈ evts, ∃ events, ep e.fd = some (events, e.ptr) := by
  unfold efEpollWait at h
  split at h
  next hr =>
    obtain ⟨evts', hm, he⟩ := Option.bind_eq_some_iff.mp h
    cases he
    obtain ⟨hfds, hptr⟩ := mapM_events hm
    refine ⟨rfl, ?_, hptr⟩
    rw [hfds]
    exact hr.1
  next => cases h

namespace Runtime

variable {rt : Runtime Epoll} {er fd : Nat}

/-! ## Steps of a routine -/

theorem callFd_of_user {retval : Int} {errno : Nat}
    (hpc : (rt.routines er).pc = .user retval errno) : rt.callFd er = none := by
  unfold callFd
  rw [hpc]
  rfl

theorem callFd_of_call {c : Call} (hcall : (rt.routines er).pc.call = some c) :
    rt.callFd er = some c.fd := by
  unfold callFd
  rw [hcall]
  rfl

theorem Routes.setPc (h : Routes rt) (hb : Base rt) (hcur : rt.current = some er) {c : Call}
    (hcall : (rt.routines er).pc.call = some c) {pc : Pc} (hpc : pc.call = some c)
    {current : Option Nat} (hcur' : current = some er ∨ current = none) :
    Routes { rt.setPc er pc with current := current } := by
  have hfd := callFd_of_call hcall
  refine h.setCurrent hb hcur _ _ _ rfl ?_ ?_ (fun _ _ _ he => he) (fun _ _ _ hr => hr) hcur'
  · dsimp only
    rw [hpc, Option.map_some, ← hfd, Function.update_eq_self]
    exact h.inverse
  · rintro c' hc'
    rw [hpc] at hc'
    cases hc'
    exact ⟨h.pollFd er c.fd hfd, h.owned _ _ (.call hfd)⟩

theorem Routes.toUser (h : Routes rt) (hb : Base rt) (hcur : rt.current = some er)
    (hcall : rt.callFd er = none) (fd : Nat) (retval : Int) (errno : Nat) :
    Routes { rt with
      routines := Function.update rt.routines er
        ⟨fd, (rt.routines er).procFd, .user retval errno⟩ } := by
  refine h.setCurrent hb hcur _ rt.p rt.current rfl ?_ ?_ (fun _ _ _ he => he)
    (fun _ _ _ hr => hr) (Or.inl hcur)
  · dsimp only [Pc.call, Option.map_none]
    rw [← hcall, Function.update_eq_self]
    exact h.inverse
  · exact fun c hc => by cases hc

theorem Routes.associated (h : Routes rt) (hb : Base rt) (hcur : rt.current = some er)
    (hcall : rt.callFd er = none) {c : Call} (hown : rt.owner c.fd = some (.routine er))
    (hp : rt.p c.fd = none) (events : Nat) (retval : Int) :
    Routes { rt with
      p := Function.update rt.p c.fd (some (events, .routine er))
      routines := Function.update rt.routines er
        ⟨c.fd, (rt.routines er).procFd, .waiting c retval⟩
      current := none } := by
  have hr : rt.p.route c.fd = none := by
    unfold Epoll.route
    rw [hp]
    rfl
  refine h.setCurrent hb hcur _ _ _ rfl ?_ ?_ ?_ ?_ (Or.inr rfl)
  · rw [Epoll.route_update]
    exact h.inverse.insert hr hcall
  · rintro c' hc
    cases hc
    exact ⟨rfl, hown⟩
  · intro fd events' li he
    by_cases hfd : fd = c.fd
    · rw [hfd, Function.update_self] at he
      cases he
    · rwa [Function.update_of_ne hfd] at he
  · intro fd er' _ hr'
    have hfd : fd ≠ c.fd := by
      rintro rfl
      rw [hr] at hr'
      cases hr'
    rw [Epoll.route_update, Function.update_of_ne hfd]
    exact hr'

theorem Routes.dissociated (h : Routes rt) (hb : Base rt) (hcur : rt.current = some er) {c : Call}
    (hcall : (rt.routines er).pc.call = some c) (retval : Int) (errno : Nat) :
    Routes { rt.setPc er (.user retval errno) with p := Function.update rt.p c.fd none } := by
  have hr := (h.inverse c.fd er).mpr (callFd_of_call hcall)
  refine h.setCurrent hb hcur _ _ rt.current rfl ?_ ?_ ?_ ?_ (Or.inl hcur)
  · rw [Epoll.route_update]
    exact h.inverse.erase hr
  · exact fun c' hc => by cases hc
  · intro fd events li he
    by_cases hf : fd = c.fd
    · rw [hf, Function.update_self] at he
      cases he
    · rwa [Function.update_of_ne hf] at he
  · intro fd er' hne hr'
    have hf : fd ≠ c.fd := by
      rintro rfl
      rw [hr] at hr'
      exact hne (Option.some.inj hr').symm
    rw [Epoll.route_update, Function.update_of_ne hf]
    exact hr'

/-- `associate` fails, or the descriptor was not in the set. -/
theorem startTransfer_cases (rt : Runtime Epoll) (er : Nat) (w : Wrapper) (fd : Nat) (ok : Bool)
    (errno : Nat) :
    (startTransfer efEpoll rt er w fd ok errno = { rt with
      routines := Function.update rt.routines er
        ⟨fd, (rt.routines er).procFd, .user (-1) errno⟩ }) ∨
    (rt.p fd = none ∧ startTransfer efEpoll rt er w fd ok errno = { rt with
      p := Function.update rt.p fd (some (w.transfer.interest, .routine er))
      routines := Function.update rt.routines er
        ⟨fd, (rt.routines er).procFd, .waiting (.transfer w fd) 0⟩
      current := none }) := by
  rcases epollAdd_cases rt.p fd w.transfer.interest (.routine er) (ok && rt.isOpen fd) with
    ha | ⟨hp, ha⟩
  all_goals
    change efEpoll.associate rt.p fd w.transfer.interest (.routine er) false
      (ok && rt.isOpen fd) = _ at ha
    obtain ⟨pc, current, he, hpc⟩ := startTransfer_spec ha errno
  · refine Or.inl ?_
    rcases hpc with ⟨_, rfl, rfl⟩ | ⟨hpos, _⟩ | ⟨hzero, _⟩
    · exact he
    · exact absurd hpos (by simp)
    · exact absurd hzero (by simp)
  · refine Or.inr ⟨hp, ?_⟩
    rcases hpc with ⟨hneg, _⟩ | ⟨hpos, _⟩ | ⟨_, rfl, rfl⟩
    · exact absurd hneg (by simp)
    · exact absurd hpos (by simp)
    · exact he

theorem startConnect_cases (rt : Runtime Epoll) (er fd : Nat) (answer : ConnectAnswer) :
    (∃ retval errno, startConnect efEpoll rt er fd answer = { rt with
      routines := Function.update rt.routines er
        ⟨fd, (rt.routines er).procFd, .user retval errno⟩ }) ∨
    (rt.p fd = none ∧ startConnect efEpoll rt er fd answer = { rt with
      p := Function.update rt.p fd (some (efPollout, .routine er))
      routines := Function.update rt.routines er
        ⟨fd, (rt.routines er).procFd, .waiting (.connect fd) 0⟩
      current := none }) := by
  cases answer with
  | failed errno => exact Or.inl ⟨-1, errno, by simp [startConnect, setPc]⟩
  | connected retval errno => exact Or.inl ⟨retval, errno, by simp [startConnect, setPc]⟩
  | inProgress ok errno =>
      rcases epollAdd_cases rt.p fd efPollout (.routine er) (ok && rt.isOpen fd) with
        ha | ⟨hp, ha⟩
      all_goals
        change efEpoll.associate rt.p fd efPollout (.routine er) false (ok && rt.isOpen fd) = _
          at ha
        obtain ⟨pc, current, he, hpc⟩ := startConnect_spec ha errno
      · refine Or.inl ⟨-1, errno, ?_⟩
        rcases hpc with ⟨_, rfl, rfl⟩ | ⟨hpos, _⟩
        · exact he
        · exact absurd hpos (by simp)
      · refine Or.inr ⟨hp, ?_⟩
        rcases hpc with ⟨hneg, _⟩ | ⟨_, rfl, rfl⟩
        · exact absurd hneg (by simp)
        · exact he

theorem close_eq (hp : rt.p fd = none) :
    close efEpoll rt fd = { rt with owner := Function.update rt.owner fd none } := by
  unfold close isOpen
  split
  · have hdel : efEpoll.closed rt.p fd = rt.p := Function.update_eq_self_iff.mpr hp.symm
    rw [hdel]
  next h =>
    have ho : rt.owner fd = none := by simpa using h
    rw [Function.update_eq_self_iff.mpr ho.symm]

theorem efRoutineClose_eq (hp : rt.p fd = none) (ok : Bool) :
    efRoutineClose efEpoll rt fd ok = { rt with owner := Function.update rt.owner fd none } := by
  have hdel : (efEpoll.dissociate rt.p fd false true ok).2 = rt.p :=
    (epollDel_snd rt.p fd).trans (Function.update_eq_self_iff.mpr hp.symm)
  unfold efRoutineClose
  rw [hdel]
  exact close_eq hp

theorem Routes.ended (h : Routes rt) (hb : Base rt) (hcur : rt.current = some er)
    (hcall : rt.callFd er = none) (ok : Bool) : Routes (endProc efEpoll rt er ok) := by
  have hown := h.owned _ _ (.proc (hb.live_of_current hcur))
  have h₁ := h.setRoutine er { rt.routines er with pc := .exited } rt.p none
    (h.batch_ne_current hcur) (fun he => absurd rfl he)
    (by
      dsimp only [Pc.call, Option.map_none]
      rw [← hcall, Function.update_eq_self]
      exact h.inverse)
    (fun c hc => by cases hc) (fun _ _ _ he => he) (fun _ _ _ hr => hr) (Or.inr rfl)
  have h₂ := h₁.setOwner (rt.routines er).procFd
    (h₁.no_claims_of_owner er hown (by simp [callFd, Pc.call])
      (fun hl => absurd (by simp) hl)) none
  unfold endProc
  rw [efRoutineClose_eq (h.entry_of_owner hown hcall)]
  exact h₂.advance rfl rfl rfl rfl (List.suffix_refl _)

theorem Routes.closed (h : Routes rt) (hcall : rt.callFd er = none)
    (hown : rt.owner fd = some (.routine er)) (hproc : fd ≠ (rt.routines er).procFd)
    (wrapped ok : Bool) :
    Routes (if wrapped then efRoutineClose efEpoll rt fd ok else close efEpoll rt fd) := by
  have hp := h.entry_of_owner hown hcall
  have h₁ := h.setOwner fd (h.no_claims_of_owner er hown hcall (fun _ => hproc.symm)) none
  split
  · rw [efRoutineClose_eq hp]
    exact h₁
  · rw [close_eq hp]
    exact h₁

theorem Routes.routineStep (h : Routes rt) (hb : Base rt) (hcur : rt.current = some er)
    {a : Act (List (Nat × Nat))} (hown : rt.usesOwn a = true) {rt' : Runtime Epoll}
    (hs : routineStep efEpoll rt er a = some rt') : Routes rt' := by
  unfold Runtime.routineStep at hs
  unfold usesOwn at hown
  rw [hcur] at hown
  split at hs
  next w fd ok errno hpc =>
    cases hs
    have hcall := callFd_of_user hpc
    rcases startTransfer_cases rt er w fd ok errno with he | ⟨hp, he⟩
    · rw [he]
      exact h.toUser hb hcur hcall fd (-1) errno
    · rw [he]
      exact h.associated hb hcur hcall (c := .transfer w fd) (of_decide_eq_true hown) hp _ 0
  next fd answer hpc =>
    cases hs
    have hcall := callFd_of_user hpc
    rcases startConnect_cases rt er fd answer with ⟨retval, errno, he⟩ | ⟨hp, he⟩
    · rw [he]
      exact h.toUser hb hcur hcall fd retval errno
    · rw [he]
      exact h.associated hb hcur hcall (c := .connect fd) (of_decide_eq_true hown) hp _ 0
  next fd hpc =>
    split at hs
    · cases hs
    next ho =>
      cases hs
      exact h.setOwner fd (h.no_claims (by simpa [isOpen] using ho)) _
  next fd wrapped ok hpc =>
    cases hs
    obtain ⟨ho, hproc⟩ := of_decide_eq_true hown
    exact h.closed (callFd_of_user hpc) ho hproc wrapped ok
  next ok hpc =>
    cases hs
    exact h.ended hb hcur (callFd_of_user hpc) ok
  next c retval events error hpc =>
    cases hs
    exact h.setPc hb hcur (c := c) (by rw [hpc]; rfl) (afterYield_call c retval events error).1
      (Or.inl hcur)
  next c retval errno hpc =>
    cases hs
    exact h.setPc hb hcur (c := c) (by rw [hpc]; rfl) (afterTransfer_call c retval errno).1
      (Or.inl hcur)
  next c retval hpc =>
    cases hs
    exact h.setPc hb hcur (c := c) (by rw [hpc]; rfl) rfl (Or.inr rfl)
  next c retval errno ok hpc =>
    cases hs
    have hdel : (efEpoll.dissociate rt.p c.fd true false ok).2 = Function.update rt.p c.fd none :=
      epollDel_snd rt.p c.fd
    rw [hdel]
    exact h.dissociated hb hcur (by rw [hpc]; rfl) retval errno
  next => cases hs

/-! ## Steps of the loop -/

theorem Routes.addListener (h : Routes rt) (hp : rt.p fd = none)
    (ho : rt.owner fd = some .listener) (events li : Nat) :
    Routes { rt with p := Function.update rt.p fd (some (events, .listen li)) } := by
  have hr : rt.p.route fd = none := by
    unfold Epoll.route
    rw [hp]
    rfl
  have hroute : Epoll.route (Function.update rt.p fd (some (events, .listen li))) = rt.p.route := by
    rw [Epoll.route_update]
    exact Function.update_eq_self_iff.mpr hr.symm
  refine ⟨?_, h.pollFd, ?_, h.batch_nodup, ?_⟩
  · dsimp only
    rw [hroute]
    exact h.inverse
  · rintro fd' o (hc | hl | he)
    · exact h.owned fd' _ (.call hc)
    · exact h.owned _ _ (.proc hl)
    · by_cases hf : fd' = fd
      · rw [hf]
        exact ho
      · dsimp only at he
        rw [Function.update_of_ne hf] at he
        exact h.owned fd' _ (.entry he)
  · dsimp only
    rw [hroute]
    exact h.batch_route

theorem Routes.newBatch (h : Routes rt) (hcur : rt.current = none) {evts : List Event}
    (hnodup : (evts.map Event.fd).Nodup)
    (hptr : ∀ e ∈ evts, ∃ events, rt.p e.fd = some (events, e.ptr)) :
    Routes { rt with phase := .events evts } where
  inverse := h.inverse
  pollFd := h.pollFd
  owned := by
    rintro fd o (hc | hl | he)
    · exact h.owned fd _ (.call hc)
    · exact h.owned _ _ (.proc hl)
    · exact h.owned fd _ (.entry he)
  batch_nodup := hnodup
  batch_route := by
    intro e he er her
    obtain ⟨events, hentry⟩ := hptr e he
    rw [her] at hentry
    refine ⟨Epoll.route_eq_some.mpr ⟨events, hentry⟩, ?_⟩
    rw [show _ = rt.current from rfl, hcur]
    exact (Option.some_ne_none er).symm

/-- The routine that an event is for waits for the descriptor of the event. -/
theorem Routes.waiting_of_event (h : Routes rt) (hb : Base rt) (hcur : rt.current = none)
    {e : Event} (he : e ∈ rt.phase.evts) (hptr : e.ptr = .routine er) :
    ∃ c retval, (rt.routines er).pc = .waiting c retval ∧ c.fd = e.fd := by
  have hcall := (h.inverse _ _).mp (h.batch_route e he er hptr).1
  have hnr := hb.not_running hcur er
  unfold callFd at hcall
  obtain ⟨c, hc, hfd⟩ := Option.map_eq_some_iff.mp hcall
  cases hpc : (rt.routines er).pc with
  | waiting c' retval =>
      rw [hpc] at hc
      cases hc
      exact ⟨c, retval, rfl, hfd⟩
  | user retval errno => rw [hpc] at hnr; exact absurd trivial hnr
  | woken c' retval events => rw [hpc] at hnr; exact absurd trivial hnr
  | ready c' => rw [hpc] at hnr; exact absurd trivial hnr
  | again c' retval => rw [hpc] at hnr; exact absurd trivial hnr
  | done c' retval errno => rw [hpc] at hnr; exact absurd trivial hnr
  | exited => rw [hpc] at hc; cases hc

theorem Routes.resumed (h : Routes rt) {e : Event} {evts : List Event}
    (hp : rt.phase = .events (e :: evts)) (hptr : e.ptr = .routine er) {c : Call} {retval : Int}
    (hpc : (rt.routines er).pc = .waiting c retval) :
    Routes { rt with
      phase := .events evts
      routines := Function.update rt.routines er
        { rt.routines er with pc := .woken c retval e.events }
      current := some er } := by
  have hevts : rt.phase.evts = e :: evts := by
    rw [hp]
    rfl
  have hfd : rt.callFd er = some c.fd := callFd_of_call (by rw [hpc]; rfl)
  have h₁ : Routes { rt with phase := .events evts } :=
    h.advance rfl rfl rfl rfl (by rw [hevts]; exact List.suffix_cons e evts)
  refine h₁.setRoutine er { rt.routines er with pc := .woken c retval e.events } rt.p (some er)
    ?_ ?_ ?_ ?_ (fun _ _ _ he => he) (fun _ _ _ hr => hr) (Or.inl rfl)
  · -- A descriptor fires once in a batch, and the routine is associated with one only.
    intro e' he' hptr'
    have hnodup := h.batch_nodup
    rw [hevts, List.map_cons, List.nodup_cons] at hnodup
    have hr := (h.batch_route e (by rw [hevts]; exact List.mem_cons_self) er hptr).1
    have hr' := (h.batch_route e' (by rw [hevts]; exact List.mem_cons_of_mem e he') er hptr').1
    have hsame : e'.fd = e.fd := by
      have h₂ := (h.inverse _ _).mp hr'
      rw [(h.inverse _ _).mp hr] at h₂
      exact (Option.some.inj h₂).symm
    rw [← hsame] at hnodup
    exact hnodup.1 (List.mem_map_of_mem he')
  · refine fun _ => h.owned _ _ (.proc ?_)
    intro hx
    rw [hpc] at hx
    cases hx
  · dsimp only [Pc.call, Option.map_some]
    rw [← hfd]
    exact (Function.update_eq_self er rt.callFd).symm ▸ h.inverse
  · rintro c' hc
    cases hc
    exact ⟨h.pollFd er c.fd hfd, h.owned _ _ (.call hfd)⟩

theorem Routes.acceptSocket (h : Routes rt) {socket : Nat} {nonblock : Bool}
    {fresh : Option Nat} {ok : Bool} {rt' : Runtime Epoll}
    (hs : rt.acceptSocket efEpoll socket nonblock fresh ok = some rt') : Routes rt' := by
  obtain ⟨li, evts, info, fd, hp, _, _, ho, hcase⟩ := acceptSocket_cases hs
  have hevts : evts <:+ rt.phase.evts := by
    rw [hp]
    exact List.suffix_refl _
  have hno := h.no_claims ho
  rcases hcase with ⟨_, rfl⟩ | ⟨_, _, rfl⟩ | ⟨node, rest, _, _, rfl⟩
  · exact (h.setOwner _ hno _).advance rfl rfl rfl rfl hevts
  · refine h.advance ?_ rfl rfl rfl hevts
    exact Function.update_eq_self_iff.mpr (h.entry_of_closed ho).symm
  · exact (h.setOwner _ hno _).advance rfl rfl rfl rfl (List.suffix_refl _)

theorem Routes.nextQueued (h : Routes rt) (hb : Base rt) (ho : Owners rt) {fresh : Option Nat}
    {rt' : Runtime Epoll} (hs : rt.nextQueued fresh = some rt') : Routes rt' := by
  rcases nextQueued_cases hs with ⟨_, rfl⟩ | ⟨id, lis, info, hp, hinfo, hcase⟩
  · exact h.advance rfl rfl rfl rfl (List.nil_suffix)
  rcases hcase with ⟨_, rfl⟩ | ⟨qf, qfs, pool, hqf, ⟨_, rfl⟩ | ⟨er, hc, rfl⟩⟩
  · exact h.advance rfl rfl rfl rfl (List.nil_suffix)
  · exact h.advance rfl rfl rfl rfl (List.nil_suffix)
  rcases hb.pool.create hc with ⟨hco, _⟩ | ⟨co, hco, hnot, _⟩
  · cases hco
  cases hco
  have hcall : rt.callFd er = none := by
    have hx : (rt.routines er).pc = .exited := not_not.mp hnot
    unfold callFd
    rw [hx]
    rfl
  have hqo : rt.owner qf.fd = some (.queued qf.node) :=
    ho.queued info (findListen_spec hinfo).1 qf (by rw [hqf]; exact List.mem_cons_self)
      (not_starting hp (fun _ _ => Phase.noConfusion) qf)
  have hno : ∀ o, ¬ Claims rt qf.fd o := by
    intro o hcl
    have ho' := h.owned _ _ hcl
    rw [hqo] at ho'
    exact hcl.ne_queued qf.node (Option.some.inj ho').symm
  have h₁ := h.setOwner _ hno (some (.routine er))
  have h₂ := h₁.setRoutine er ⟨qf.fd, qf.fd, .user 0 0⟩ rt.p (some er) ?_
    (fun _ => Function.update_self _ _ _) ?_ (fun c hcl => by cases hcl)
    (fun _ _ _ he => he) (fun _ _ _ hr => hr) (Or.inl rfl)
  · exact h₂.advance rfl rfl rfl rfl (List.nil_suffix)
  · rw [show _ = rt.phase from rfl, hp]
    exact fun e he => absurd he List.not_mem_nil
  · dsimp only [Pc.call, Option.map_none]
    rw [← hcall]
    exact (Function.update_eq_self er rt.callFd).symm ▸ h.inverse

theorem foldl_closeFd_epoll (del : Nat → Bool) (fds : List Nat)
    (s : Epoll × (Nat → Option Owner)) (fd : Nat) :
    (fds.foldl (closeFd efEpoll del) s).1 fd = if fd ∈ fds then none else s.1 fd := by
  induction fds generalizing s with
  | nil => rfl
  | cons fd' fds ih =>
      have hone : (closeFd efEpoll del s fd').1 = Function.update s.1 fd' none := by
        have hdel : (efEpoll.dissociate s.1 fd' false false (del fd')).2 =
            Function.update s.1 fd' none := epollDel_snd s.1 fd'
        unfold closeFd
        rw [hdel]
        dsimp only
        split
        · exact Function.update_idem _ _ _
        · rfl
      rw [List.foldl_cons, ih, hone]
      by_cases hmem : fd ∈ fds <;> by_cases he : fd = fd' <;> simp [hmem, he]

theorem Routes.closeListeners (h : Routes rt) (ho : Owners rt) (hevts : rt.phase.evts = [])
    (del : Nat → Bool) : Routes (closeListeners efEpoll del rt) := by
  rw [closeListeners_eq]
  have hlisten : ∀ fd, fd ∈ rt.listenList.filterMap ListenInfo.fd →
      rt.owner fd = some .listener := by
    intro fd hmem
    obtain ⟨li, hli, hfd⟩ := List.mem_filterMap.mp hmem
    exact ho.listener li hli fd hfd
  have hroute : Epoll.route ((rt.listenList.filterMap ListenInfo.fd).foldl (closeFd efEpoll del)
      (rt.p, rt.owner)).1 = rt.p.route := by
    funext fd
    unfold Epoll.route
    rw [foldl_closeFd_epoll]
    split
    next hmem =>
      -- What a listener owns is associated with no routine.
      have hnone : rt.p.route fd = none := by
        by_contra hne
        obtain ⟨er, her⟩ := Option.ne_none_iff_exists'.mp hne
        have hcl := h.owned fd _ (.call ((h.inverse fd er).mp her))
        rw [hlisten fd hmem] at hcl
        cases hcl
      exact hnone.symm
    · rfl
  refine ⟨?_, h.pollFd, ?_, h.batch_nodup, ?_⟩
  · dsimp only
    rw [hroute]
    exact h.inverse
  · have howner : ∀ fd er, rt.owner fd = some (.routine er) →
        ((rt.listenList.filterMap ListenInfo.fd).foldl (closeFd efEpoll del)
          (rt.p, rt.owner)).2 fd = some (.routine er) := by
      intro fd er hfd
      rw [foldl_closeFd_owner, if_neg]
      · exact hfd
      · intro hmem
        rw [hlisten fd hmem] at hfd
        cases hfd
    rintro fd o (hc | hl | he)
    · exact howner _ _ (h.owned fd _ (.call hc))
    · exact howner _ _ (h.owned _ _ (.proc hl))
    · dsimp only at he ⊢
      rw [foldl_closeFd_epoll] at he
      rw [foldl_closeFd_owner]
      split at he
      · cases he
      next hmem =>
        rw [if_neg hmem]
        exact h.owned fd _ (.entry he)
  · rw [show _ = rt.phase.evts from rfl, hevts]
    exact fun e he => absurd he List.not_mem_nil

theorem Routes.exitQueue (h : Routes rt) (ho : Owners rt) {del idleStop idle : Nat → Bool}
    {rt' : Runtime Epoll} (hs : rt.exitQueue efEpoll del idleStop idle = some rt') :
    Routes rt' := by
  obtain ⟨hp, hcase⟩ := exitQueue_cases hs
  have h' := h.closeListeners ho (by rw [hp]; rfl) del
  rcases hcase with ⟨_, rfl⟩ | ⟨_, _, rfl⟩ | ⟨_, _, rfl⟩
  · exact h.advance rfl rfl rfl rfl (List.nil_suffix)
  · exact h'.advance rfl rfl rfl rfl (List.nil_suffix)
  · exact h'.advance rfl rfl rfl rfl (List.nil_suffix)

theorem Routes.step (h : Routes rt) (hb : Base rt) (ho : Owners rt)
    {a : Act (List (Nat × Nat))} (hown : rt.usesOwn a = true) {rt' : Runtime Epoll}
    (hs : step efEpoll rt a = some rt') : Routes rt' := by
  unfold Runtime.step at hs
  split at hs
  · cases hs
    exact h.advance rfl rfl rfl rfl (List.suffix_refl _)
  next hcur =>
    unfold loopStep at hs
    split at hs
    · rcases associateListener_cases hs with ⟨_, rfl⟩ | ⟨li, rest, _, _, rfl⟩ |
        ⟨li, rest, fd, ret, p, hp, hfd, ha, hcase⟩
      · exact h.advance rfl rfl rfl rfl (List.nil_suffix)
      · exact h.advance rfl rfl rfl rfl (List.nil_suffix)
      · have hown' := ho.listener li (hb.associating _ hp li List.mem_cons_self) fd hfd
        have h₁ : Routes { rt with p := p } := by
          rcases epollAdd_cases rt.p fd efPollin (.listen li.id) _ with he | ⟨hnone, he⟩
          · cases ha.symm.trans he
            exact h
          · cases ha.symm.trans he
            exact h.addListener hnone hown' _ _
        rcases hcase with ⟨_, rfl⟩ | ⟨_, rfl⟩
        · exact h₁.advance rfl rfl rfl rfl (List.nil_suffix)
        · exact h₁.advance rfl rfl rfl rfl (List.nil_suffix)
    · obtain ⟨_, evts, p, hw, rfl⟩ := pollWait_cases hs
      obtain ⟨rfl, hnodup, hptr⟩ := efEpollWait_spec hw
      exact h.newBatch hcur hnodup hptr
    · obtain ⟨_, rfl | rfl⟩ := pollWaitFailed_cases hs
      · exact h.advance rfl rfl rfl rfl (List.nil_suffix)
      · exact h.advance rfl rfl rfl rfl (List.nil_suffix)
    · rcases nextEvent_cases hs with ⟨_, rfl⟩ | ⟨e, evts, li, hp, _, rfl⟩ |
        ⟨e, evts, er, hp, hptr, ⟨_, rfl⟩ | ⟨c, retval, hpc, rfl⟩⟩
      · exact h.advance rfl rfl rfl rfl (List.nil_suffix)
      · exact h.advance rfl rfl rfl rfl (by rw [hp]; exact List.suffix_cons e evts)
      · exact h.advance rfl rfl rfl rfl (by rw [hp]; exact List.suffix_cons e evts)
      · exact h.resumed hp hptr hpc
    · obtain ⟨li, evts, hp, rfl⟩ := acceptFailed_cases hs
      exact h.advance rfl rfl rfl rfl (by rw [hp]; exact List.suffix_refl _)
    · obtain ⟨li, evts, info, fd, hp, _, _, rfl⟩ := acceptEnd_cases hs
      exact h.advance rfl rfl rfl rfl (by rw [hp]; exact List.suffix_refl _)
    · exact h.acceptSocket hs
    · exact h.nextQueued hb ho hs
    · obtain ⟨qf, id, lis, _, rfl⟩ := queuedStarted_cases hs
      exact h.advance rfl rfl rfl rfl (List.nil_suffix)
    · exact h.exitQueue ho hs
    · cases hs
  next er hcur => exact h.routineStep hb hcur hown hs

theorem Routes.initial (h : Initial (fun _ => none) rt) : Routes rt := by
  have hcall : rt.callFd = fun _ => none := by
    funext er
    unfold callFd
    rw [h.routines er]
    rfl
  refine ⟨?_, fun er fd hc => ?_, ?_, ?_, ?_⟩
  · rw [h.p, hcall]
    exact Inverse.empty
  · rw [hcall] at hc
    cases hc
  · rintro fd o (hc | hl | he)
    · rw [hcall] at hc
      cases hc
    · exact absurd (h.routines _) hl
    · rw [h.p] at he
      cases he
  · rw [h.phase]
    exact List.nodup_nil
  · rw [h.phase]
    exact fun e he => absurd he List.not_mem_nil

/-! ## Runs -/

theorem Routes.opensFresh (h : Routes rt) {K : Type} {poll : EfPoll Epoll K} {a : Act K}
    {rt' : Runtime Epoll} (hs : Runtime.step poll rt a = some rt') : rt.opensFresh a = true := by
  cases a with
  | accept fd nonblock fresh ok => exact h.isFresh (accept_closed hs)
  | socket fd => exact h.isFresh (socket_closed hs)
  | _ => rfl

structure Inv (rt : Runtime Epoll) : Prop where
  base : Base rt
  owners : Owners rt
  routes : Routes rt

theorem inv_invariant : Lib.Invariant (Initial fun _ => none) (step efEpoll)
    (fun rt a => rt.usesOwn a = true) Inv where
  init := fun h => ⟨.initial h, .initial h, .initial h⟩
  step := fun h hown hs => ⟨h.base.step hs,
    h.owners.step h.base ⟨closesOwn_of_usesOwn hown, h.routes.opensFresh hs⟩ hs,
    h.routes.step h.base h.owners hown hs⟩

theorem Routes.entry_iff (h : Routes rt) (er fd : Nat) :
    (∃ events, rt.p fd = some (events, .routine er)) ↔ rt.callFd er = some fd :=
  Epoll.route_eq_some.symm.trans (h.inverse fd er)

theorem Inv.callFd_of_free (h : Inv rt) {er : Nat}
    (hf : (rt.routines er).pc = .exited ∨ er ∈ rt.coPool.freeList) : rt.callFd er = none := by
  have hx : (rt.routines er).pc = .exited :=
    hf.elim id (fun hmem => not_not.mp (h.base.pool.not_live er hmem))
  unfold callFd
  rw [hx]
  rfl

/-- Over `epoll.c`, each suspended routine has its own descriptor in the set and no other, a
routine that has exited has none, and every event of a batch resumes a routine that waits for
the descriptor that fired. -/
theorem event_routing {rt : Runtime Epoll}
    (h : Lib.Reachable (Initial fun _ => none) (step efEpoll)
      (fun rt a => rt.usesOwn a = true) rt) :
    (∀ er c retval, (rt.routines er).pc = .waiting c retval →
      (rt.routines er).fd = c.fd ∧
        ∀ fd, (∃ events, rt.p fd = some (events, .routine er)) ↔ fd = (rt.routines er).fd) ∧
    (∀ er, (rt.routines er).pc = .exited ∨ er ∈ rt.coPool.freeList →
      ∀ fd events, rt.p fd ≠ some (events, .routine er)) ∧
    (∀ e evts er, rt.current = none → rt.phase = .events (e :: evts) → e.ptr = .routine er →
      ∃ c retval rt', (rt.routines er).pc = .waiting c retval ∧ c.fd = e.fd ∧
        (rt.routines er).fd = e.fd ∧ step efEpoll rt .event = some rt' ∧
        rt'.current = some er ∧ (rt'.routines er).pc = .woken c retval e.events) := by
  have hinv := inv_invariant.holds h
  have hpoll := hinv.routes.pollFd
  refine ⟨fun er c retval hpc => ?_, fun er hf fd events he => ?_, fun e evts er hcur hp hptr => ?_⟩
  · have hcall : rt.callFd er = some c.fd := callFd_of_call (by rw [hpc]; rfl)
    have hfd := hpoll er c.fd hcall
    refine ⟨hfd, fun fd => (hinv.routes.entry_iff er fd).trans ?_⟩
    rw [hcall, hfd, Option.some.injEq]
    exact eq_comm
  · have hcall := (hinv.routes.entry_iff er fd).mp ⟨events, he⟩
    rw [hinv.callFd_of_free hf] at hcall
    cases hcall
  · have hmem : e ∈ rt.phase.evts := by
      rw [hp]
      exact List.mem_cons_self
    obtain ⟨c, retval, hpc, hfd⟩ := hinv.routes.waiting_of_event hinv.base hcur hmem hptr
    have hcall : rt.callFd er = some c.fd := callFd_of_call (by rw [hpc]; rfl)
    have hstep : step efEpoll rt .event = some
        { ({ rt with phase := .events evts } : Runtime Epoll).setPc er
            (.woken c retval e.events) with current := some er } := by
      simp only [step, hcur, loopStep, nextEvent, hp, hptr, efCoroutineResume, hpc]
    exact ⟨c, retval, _, hpc, hfd, (hpoll er c.fd hcall).trans hfd, hstep, rfl, by simp [setPc]⟩

def batchOfTwo : List (Act (List (Nat × Nat))) :=
  [.associate true, .associate true, .wait [(3, efPollin)], .event, .accept 5 true (some 50) true,
    .accept 6 true (some 51) true, .acceptFailed, .acceptEnd true, .event, .queue (some 1000),
    .transfer .read 5 true 0, .started, .queue (some 1001), .transfer .read 6 true 0, .started,
    .queue none, .queue none, .exitQueue (fun _ => true) (fun _ => false) (fun _ => false),
    .wait [(5, efPollin), (6, efPollin)], .event, .wake 0, .transferred 0 0, .dissociate true,
    .endProc true]

/-- The second event of the batch resumes the routine that waits for it. -/
theorem event_routing_batch : ∃ rt rt', Lib.run (step efEpoll) (fun rt a => rt.usesOwn a = true)
      (oneListener fun _ => none) batchOfTwo = some rt ∧ step efEpoll rt .event = some rt' ∧
    rt'.current = some 1001 ∧ (rt.routines 1001).fd = 6 ∧ (rt.routines 1000).pc = .exited := by
  have hrun : (Lib.run (step efEpoll) (fun rt a => rt.usesOwn a = true)
      (oneListener fun _ => none) batchOfTwo).map
        (fun rt => (rt.current, rt.phase, (rt.routines 1000).pc)) =
      some (none, .events [⟨efPollin, .routine 1001, 6⟩], .exited) := by decide
  obtain ⟨rt, hr, he⟩ := Option.map_eq_some_iff.mp hrun
  simp only [Prod.mk.injEq] at he
  obtain ⟨hcur, hp, hx⟩ := he
  obtain ⟨_, _, hevent⟩ :=
    event_routing ((Lib.Reachable.init (oneListener_initial fun _ => none)).run hr)
  obtain ⟨_, _, rt', _, _, hfd, hs, hcur', _⟩ := hevent _ _ 1001 hcur hp rfl
  exact ⟨rt, rt', hr, hs, hcur', hfd, hx⟩

end Runtime

end EFramework
