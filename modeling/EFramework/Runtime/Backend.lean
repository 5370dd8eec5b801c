import EFramework.Lib.Simulation
import EFramework.Runtime.Queue
import EFramework.Runtime.Routing
import Mathlib.Algebra.Group.Nat.Defs

/-! # One poller in the place of another

The framework reads of a poller what `associate` returns and which events `wait` gives.
A poller that answers these as another one does, in related states, can take its place:
each step of the framework over the first poller is the same step over the second one.

The two need to agree only where the framework calls them, so `associate` is compared
for a descriptor that is not in the set, and the closing of one that is not either.
-/

namespace EFramework

variable {P Q K L : Type}

namespace Runtime

/-- What `poll` answers in a state is an answer of `poll'` in a related one. `Free` says of a
descriptor that it is not in the set of `poll'`, and `D` that there may be room for it. -/
structure Mimics (poll : EfPoll P K) (poll' : EfPoll Q L) (R : P → Q → Prop)
    (Free : Q → Nat → Prop) (D : Nat → Prop) : Prop where
  associate : ∀ {p q fd} {events : Nat}, R p q → Free q fd → D fd → events < 2 ^ 15 → ∀ ptr ok,
    ∃ ok', (poll'.associate q fd events ptr false ok').1 =
        (poll.associate p fd events ptr false ok).1 ∧
      R (poll.associate p fd events ptr false ok).2 (poll'.associate q fd events ptr false ok').2
  reassociate : ∀ {p q}, R p q → ∀ fd events ptr ok,
    R (poll.associate p fd events ptr true ok).2 (poll'.associate q fd events ptr true ok).2
  dissociate : ∀ {p q}, R p q → ∀ fd fired onclose ok,
    R (poll.dissociate p fd fired onclose ok).2 (poll'.dissociate q fd fired onclose ok).2 ∧
      Free (poll'.dissociate q fd fired onclose ok).2 fd
  unset : ∀ {p q}, R p q → ∀ fd events,
    R (poll.unset p fd events).2 (poll'.unset q fd events).2
  wait : ∀ {p q report evts p'}, R p q → poll.wait p report = some (evts, p') →
    ∃ report' q', poll'.wait q report' = some (evts, q') ∧ R p' q'
  closed : ∀ {p q fd}, R p q → Free q fd → R (poll.closed p fd) (poll'.closed q fd)

def withPoll (rt : Runtime P) (q : Q) : Runtime Q where
  p := q
  stopping := rt.stopping
  countPerShrink := rt.countPerShrink
  coPool := rt.coPool
  listenList := rt.listenList
  freeFdList := rt.freeFdList
  routines := rt.routines
  current := rt.current
  phase := rt.phase
  owner := rt.owner

/-- The descriptors that the next step may associate or close are not in the set, and are open. -/
structure Settled (Free : Q → Nat → Prop) (D : Nat → Prop) (rt : Runtime P) (q : Q) : Prop where
  room : ∀ fd, rt.isOpen fd = true → D fd
  closed : ∀ fd, rt.owner fd = none → Free q fd
  listener : ∀ li rest fd, rt.phase = .associate (li :: rest) → li.fd = some fd →
    Free q fd ∧ rt.isOpen fd = true
  own : ∀ er retval errno fd, rt.current = some er → (rt.routines er).pc = .user retval errno →
    rt.owner fd = some (.routine er) → Free q fd

variable {poll : EfPoll P K} {poll' : EfPoll Q L} {R : P → Q → Prop} {Free : Q → Nat → Prop}
  {D : Nat → Prop} {rt rt' : Runtime P} {q : Q}

def Copies (poll' : EfPoll Q L) (R : P → Q → Prop) (rt : Runtime P) (q : Q)
    (rt' : Runtime P) : Prop :=
  ∃ (a : Act L) (q' : Q), (rt.withPoll q).usesOwn a = true ∧
    step poll' (rt.withPoll q) a = some (rt'.withPoll q') ∧ R rt'.p q'

/-! ## Closing -/

theorem Mimics.close (h : Mimics poll poll' R Free D) (hR : R rt.p q) {fd : Nat}
    (hfree : Free q fd) :
    ∃ q', Runtime.close poll' (rt.withPoll q) fd = (Runtime.close poll rt fd).withPoll q' ∧
      R (Runtime.close poll rt fd).p q' := by
  have hopen : (rt.withPoll q).isOpen fd = rt.isOpen fd := rfl
  unfold Runtime.close
  rw [hopen]
  split
  · exact ⟨_, rfl, h.closed hR hfree⟩
  · exact ⟨q, rfl, hR⟩

theorem Mimics.routineClose (h : Mimics poll poll' R Free D) (hR : R rt.p q) (fd : Nat)
    (ok : Bool) :
    ∃ q', efRoutineClose poll' (rt.withPoll q) fd ok =
        (efRoutineClose poll rt fd ok).withPoll q' ∧ R (efRoutineClose poll rt fd ok).p q' := by
  obtain ⟨hR', hfree⟩ := h.dissociate hR fd false true ok
  have hcall : R ({ rt with p := (poll.dissociate rt.p fd false true ok).2 } : Runtime P).p _ := hR'
  exact h.close hcall hfree

theorem Mimics.closeFds (h : Mimics poll poll' R Free D) (del : Nat → Bool) (fds : List Nat) {p : P}
    (hR : R p q) (owner : Nat → Option Owner) :
    R (fds.foldl (closeFd poll del) (p, owner)).1 (fds.foldl (closeFd poll' del) (q, owner)).1 ∧
      (fds.foldl (closeFd poll' del) (q, owner)).2 =
        (fds.foldl (closeFd poll del) (p, owner)).2 := by
  induction fds generalizing p q owner with
  | nil => exact ⟨hR, rfl⟩
  | cons fd fds ih =>
      obtain ⟨hR', hfree⟩ := h.dissociate hR fd false false (del fd)
      simp only [List.foldl_cons, closeFd]
      split
      · exact ih (h.closed hR' hfree) _
      · exact ih hR' _

theorem Mimics.closeListeners (h : Mimics poll poll' R Free D) (hR : R rt.p q) (del : Nat → Bool) :
    ∃ q', Runtime.closeListeners poll' del (rt.withPoll q) =
        (Runtime.closeListeners poll del rt).withPoll q' ∧
      R (Runtime.closeListeners poll del rt).p q' := by
  obtain ⟨hR', howner⟩ :=
    h.closeFds del (rt.listenList.filterMap ListenInfo.fd) hR rt.owner
  rw [closeListeners_eq, closeListeners_eq]
  refine ⟨_, ?_, hR'⟩
  simp only [withPoll, howner]

/-! ## The loop -/

theorem usesOwn_of_loop (hcur : rt.current = none) (a : Act K) : rt.usesOwn a = true := by
  simp [usesOwn, hcur]

theorem copies_loop (hcur : rt.current = none) {a : Act L} {q' : Q}
    (hs : loopStep poll' (rt.withPoll q) a = some (rt'.withPoll q')) (hR : R rt'.p q') :
    Copies poll' R rt q rt' := by
  have hcur' : (rt.withPoll q).current = none := hcur
  refine ⟨a, q', usesOwn_of_loop hcur' a, ?_, hR⟩
  cases a with
  | stop => cases hs
  | _ => simpa only [step, hcur'] using hs

theorem Mimics.associateListener (h : Mimics poll poll' R Free D) (hset : Settled Free D rt q)
    (hR : R rt.p q) {ok : Bool} (hs : rt.associateListener poll ok = some rt') :
    ∃ ok' q', (rt.withPoll q).associateListener poll' ok' = some (rt'.withPoll q') ∧
      R rt'.p q' := by
  rcases associateListener_cases hs with ⟨hp, rfl⟩ | ⟨li, rest, hp, hfd, rfl⟩ |
    ⟨li, rest, fd, ret, p, hp, hfd, hcall, hcase⟩
  · exact ⟨true, q, by simp [Runtime.associateListener, withPoll, hp], hR⟩
  · exact ⟨true, q, by simp [Runtime.associateListener, withPoll, hp, hfd], hR⟩
  · obtain ⟨hfree, hopen⟩ := hset.listener li rest fd hp hfd
    obtain ⟨ok', hret, hR'⟩ :=
      h.associate hR hfree (hset.room fd hopen) (by decide : efPollin < 2 ^ 15) (.listen li.id)
        (ok && rt.isOpen fd)
    have hopen' : (rt.withPoll q).isOpen fd = true := hopen
    have hp' : (rt.withPoll q).phase = .associate (li :: rest) := hp
    rw [hcall] at hret hR'
    refine ⟨ok', (poll'.associate q fd efPollin (.listen li.id) false ok').2, ?_, ?_⟩
    · simp only [Runtime.associateListener, hp', hfd, hopen', Bool.and_true]
      rcases hcase with ⟨hneg, rfl⟩ | ⟨hpos, rfl⟩
      · rw [show (rt.withPoll q).p = q from rfl, hret, if_pos hneg]
        rfl
      · rw [show (rt.withPoll q).p = q from rfl, hret, if_neg (Int.not_lt.mpr hpos)]
        rfl
    · rcases hcase with ⟨_, rfl⟩ | ⟨_, rfl⟩ <;> exact hR'

theorem Mimics.pollWait (h : Mimics poll poll' R Free D) (hR : R rt.p q) {report : K}
    (hs : rt.pollWait poll report = some rt') :
    ∃ report' q', (rt.withPoll q).pollWait poll' report' = some (rt'.withPoll q') ∧
      R rt'.p q' := by
  obtain ⟨hp, evts, p, hwait, rfl⟩ := pollWait_cases hs
  obtain ⟨report', q', hwait', hR'⟩ := h.wait hR hwait
  exact ⟨report', q', by simp [Runtime.pollWait, withPoll, hp, hwait'], hR'⟩

theorem Mimics.acceptEnd (h : Mimics poll poll' R Free D) (hR : R rt.p q) {ok : Bool}
    (hs : rt.acceptEnd poll ok = some rt') :
    ∃ q', (rt.withPoll q).acceptEnd poll' ok = some (rt'.withPoll q') ∧ R rt'.p q' := by
  obtain ⟨li, evts, info, fd, hp, hinfo, hfd, rfl⟩ := acceptEnd_cases hs
  have hinfo' : (rt.withPoll q).findListen li = some info := hinfo
  have hp' : (rt.withPoll q).phase = .acceptEnd li evts := hp
  refine ⟨_, ?_, h.reassociate (h.unset hR fd efPollin) fd efPollin (.listen li) ok⟩
  unfold Runtime.acceptEnd
  rw [hp']
  simp only [hinfo', hfd, Option.bind_eq_bind, Option.bind_some]
  rfl

theorem takeNode_withPoll (rt : Runtime P) (q : Q) (fresh : Option Nat) :
    (rt.withPoll q).takeNode fresh = (rt.takeNode fresh).map (fun r => (r.1, r.2.withPoll q)) := by
  have hnodes : (rt.withPoll q).nodes = rt.nodes := rfl
  have hfree : (rt.withPoll q).freeFdList = rt.freeFdList := rfl
  unfold takeNode
  rw [hnodes, hfree]
  split
  next => rfl
  next =>
    cases fresh with
    | none => rfl
    | some node => by_cases hn : node ∈ rt.nodes <;> simp [hn]

theorem Mimics.acceptSocket (h : Mimics poll poll' R Free D) (hset : Settled Free D rt q)
    (hR : R rt.p q) {socket : Nat} {nonblock : Bool} {fresh : Option Nat} {ok : Bool}
    (hs : rt.acceptSocket poll socket nonblock fresh ok = some rt') :
    ∃ q', (rt.withPoll q).acceptSocket poll' socket nonblock fresh ok = some (rt'.withPoll q') ∧
      R rt'.p q' := by
  obtain ⟨li, evts, info, fd, hp, hinfo, hfd, hnone, hcase⟩ := acceptSocket_cases hs
  have hinfo' : (rt.withPoll q).findListen li = some info := hinfo
  have hp' : (rt.withPoll q).phase = .accept li evts := hp
  have hclosed : (rt.withPoll q).isOpen socket = false := by
    simp [isOpen, withPoll, hnone]
  have hnode (owner : Nat → Option Owner) :
      ({ rt.withPoll q with owner := owner } : Runtime Q).takeNode fresh =
        (rt.takeNode fresh).map (fun r => (r.1, { r.2.withPoll q with owner := owner })) := by
    rw [takeNode_owner, takeNode_withPoll, Option.map_map]
    rfl
  unfold Runtime.acceptSocket
  split
  next li' evts' hp'' =>
    cases hp'.symm.trans hp''
    simp only [hinfo', hfd, hclosed, Option.bind_eq_bind, Option.bind_some, Bool.false_eq_true,
      if_false]
    rcases hcase with ⟨rfl, rfl⟩ | ⟨rfl, ht, rfl⟩ | ⟨node, rest, rfl, ht, rfl⟩
    · exact ⟨_, rfl, h.reassociate hR fd efPollin (.listen li) ok⟩
    · have hupd : Function.update (Function.update rt.owner socket (some Owner.other)) socket
          none = rt.owner := by
        rw [Function.update_idem, Function.update_eq_self_iff]
        exact hnone.symm
      refine ⟨_, ?_, h.reassociate (h.closed hR (hset.closed socket hnone)) fd efPollin
        (.listen li) ok⟩
      rw [if_pos rfl, hnode, ht]
      simp [Runtime.reassociate, Runtime.close, isOpen, withPoll, hupd]
    · refine ⟨q, ?_, hR⟩
      rw [if_pos rfl, hnode, ht]
      simp [setQueue, withPoll]
  next hno => exact absurd hp' (hno li evts)

theorem Mimics.exitQueue (h : Mimics poll poll' R Free D) (hR : R rt.p q)
    {del idleStop idle : Nat → Bool} (hs : rt.exitQueue poll del idleStop idle = some rt') :
    ∃ q', (rt.withPoll q).exitQueue poll' del idleStop idle = some (rt'.withPoll q') ∧
      R rt'.p q' := by
  obtain ⟨q', hclose, hR'⟩ := h.closeListeners hR del
  have hpool : (Runtime.closeListeners poll del rt).coPool = rt.coPool := by
    rw [closeListeners_eq]
  obtain ⟨hp, hcase⟩ := exitQueue_cases hs
  have hp' : (rt.withPoll q).phase = .exitQueue := hp
  unfold Runtime.exitQueue
  rw [hp', hclose]
  rcases hcase with ⟨hst, rfl⟩ | ⟨hst, hcount, rfl⟩ | ⟨hst, hcount, rfl⟩
  · exact ⟨q, by simp [withPoll, hst, endRound], hR⟩
  · exact ⟨q', by simp [withPoll, hst, hpool, hcount], hR'⟩
  · exact ⟨q', by simp [withPoll, hst, hpool, hcount, endRound], hR'⟩

theorem pollWaitFailed_withPoll {errno : Nat} (hs : rt.pollWaitFailed errno = some rt') (q : Q) :
    (rt.withPoll q).pollWaitFailed errno = some (rt'.withPoll q) ∧ rt'.p = rt.p := by
  have hp := (pollWaitFailed_cases hs).1
  simp only [pollWaitFailed, hp, Option.some.injEq] at hs
  subst hs
  exact ⟨by simp [pollWaitFailed, withPoll, hp], rfl⟩

theorem nextEvent_withPoll (hs : rt.nextEvent = some rt') (q : Q) :
    (rt.withPoll q).nextEvent = some (rt'.withPoll q) ∧ rt'.p = rt.p := by
  rcases nextEvent_cases hs with ⟨hp, rfl⟩ | ⟨e, evts, li, hp, hptr, rfl⟩ |
    ⟨e, evts, er, hp, hptr, ⟨hpc, rfl⟩ | ⟨c, retval, hpc, rfl⟩⟩
  · exact ⟨by simp [nextEvent, withPoll, hp], rfl⟩
  · exact ⟨by simp [nextEvent, withPoll, hp, hptr], rfl⟩
  · exact ⟨by simp [nextEvent, efCoroutineResume, withPoll, hp, hptr, hpc], rfl⟩
  · exact ⟨by simp [nextEvent, efCoroutineResume, setPc, withPoll, hp, hptr, hpc], rfl⟩

theorem nextQueued_withPoll {fresh : Option Nat} (hs : rt.nextQueued fresh = some rt') (q : Q) :
    (rt.withPoll q).nextQueued fresh = some (rt'.withPoll q) ∧ rt'.p = rt.p := by
  rcases nextQueued_cases hs with ⟨hp, rfl⟩ | ⟨id, lis, info, hp, hinfo, hcase⟩
  · exact ⟨by simp [nextQueued, withPoll, hp], rfl⟩
  · have hinfo' : (rt.withPoll q).findListen id = some info := hinfo
    have hp' : (rt.withPoll q).phase = .queue (id :: lis) := hp
    unfold nextQueued
    rw [hp']
    simp only [hinfo', Option.bind_eq_bind, Option.bind_some]
    rcases hcase with ⟨hq, rfl⟩ | ⟨qf, qfs, pool, hq, ⟨hc, rfl⟩ | ⟨er, hc, rfl⟩⟩
    · exact ⟨by simp [hq, withPoll], rfl⟩
    · exact ⟨by simp [hq, efRoutineRun, withPoll, hc], rfl⟩
    · exact ⟨by simp [hq, efRoutineRun, withPoll, hc], rfl⟩

theorem queuedStarted_withPoll (hs : rt.queuedStarted = some rt') (q : Q) :
    (rt.withPoll q).queuedStarted = some (rt'.withPoll q) ∧ rt'.p = rt.p := by
  obtain ⟨qf, id, lis, hp, rfl⟩ := queuedStarted_cases hs
  exact ⟨by simp [queuedStarted, setQueue, withPoll, hp], rfl⟩

theorem Mimics.loopStep (h : Mimics poll poll' R Free D) (hset : Settled Free D rt q)
    (hR : R rt.p q)
    {a : Act K} (hs : loopStep poll rt a = some rt') :
    ∃ a' q', Runtime.loopStep poll' (rt.withPoll q) a' = some (rt'.withPoll q') ∧
      R rt'.p q' := by
  cases a with
  | associate ok =>
      obtain ⟨ok', q', hs', hR'⟩ := h.associateListener hset hR hs
      exact ⟨.associate ok', q', hs', hR'⟩
  | wait report =>
      obtain ⟨report', q', hs', hR'⟩ := h.pollWait hR hs
      exact ⟨.wait report', q', hs', hR'⟩
  | waitFailed errno =>
      obtain ⟨hs', hp⟩ := pollWaitFailed_withPoll hs q
      exact ⟨.waitFailed errno, q, hs', hp ▸ hR⟩
  | event =>
      obtain ⟨hs', hp⟩ := nextEvent_withPoll hs q
      exact ⟨.event, q, hs', hp ▸ hR⟩
  | acceptFailed =>
      obtain ⟨li, evts, hp, rfl⟩ := acceptFailed_cases hs
      exact ⟨.acceptFailed, q, by
        simp [Runtime.loopStep, acceptFailed, withPoll, hp], hR⟩
  | acceptEnd ok =>
      obtain ⟨q', hs', hR'⟩ := h.acceptEnd hR hs
      exact ⟨.acceptEnd ok, q', hs', hR'⟩
  | accept socket nonblock fresh ok =>
      obtain ⟨q', hs', hR'⟩ := h.acceptSocket hset hR hs
      exact ⟨.accept socket nonblock fresh ok, q', hs', hR'⟩
  | queue fresh =>
      obtain ⟨hs', hp⟩ := nextQueued_withPoll hs q
      exact ⟨.queue fresh, q, hs', hp ▸ hR⟩
  | started =>
      obtain ⟨hs', hp⟩ := queuedStarted_withPoll hs q
      exact ⟨.started, q, hs', hp ▸ hR⟩
  | exitQueue del idleStop idle =>
      obtain ⟨q', hs', hR'⟩ := h.exitQueue hR hs
      exact ⟨.exitQueue del idleStop idle, q', hs', hR'⟩
  | _ => cases hs

/-! ## Routines -/

/-- What a wrapper does with the answer of `associate` depends on the answer only. -/
theorem Mimics.startTransfer (h : Mimics poll poll' R Free D) (hR : R rt.p q) {fd : Nat}
    (hfree : Free q fd) (hroom : D fd) (hopen : rt.isOpen fd = true) (er : Nat) (w : Wrapper)
    (ok : Bool) (errno : Nat) :
    ∃ ok' q', Runtime.startTransfer poll' (rt.withPoll q) er w fd ok' errno =
        (Runtime.startTransfer poll rt er w fd ok errno).withPoll q' ∧
      R (Runtime.startTransfer poll rt er w fd ok errno).p q' := by
  have hevents : w.transfer.interest < 2 ^ 15 := by cases w <;> decide
  obtain ⟨ok', hret, hR'⟩ := h.associate hR hfree hroom hevents (.routine er) ok
  have hcall : poll.associate rt.p fd w.transfer.interest (.routine er) false
      (ok && rt.isOpen fd) = poll.associate rt.p fd w.transfer.interest (.routine er) false ok := by
    rw [hopen, Bool.and_true]
  have hcall' : poll'.associate (rt.withPoll q).p fd w.transfer.interest (.routine er) false
      (ok' && (rt.withPoll q).isOpen fd) =
        poll'.associate q fd w.transfer.interest (.routine er) false ok' := by
    rw [show (rt.withPoll q).isOpen fd = true from hopen, Bool.and_true]
    rfl
  obtain ⟨pc, current, he, hcase⟩ := startTransfer_spec hcall errno
  obtain ⟨pc', current', he', hcase'⟩ := startTransfer_spec hcall' errno
  rw [hret] at hcase'
  have hsame : pc' = pc ∧ current' = current := by
    rcases hcase with ⟨_, rfl, rfl⟩ | ⟨_, rfl, rfl⟩ | ⟨_, rfl, rfl⟩ <;>
      rcases hcase' with ⟨_, rfl, rfl⟩ | ⟨_, rfl, rfl⟩ | ⟨_, rfl, rfl⟩ <;>
      first | exact ⟨rfl, rfl⟩ | omega
  obtain ⟨rfl, rfl⟩ := hsame
  rw [he]
  exact ⟨ok', _, he', hR'⟩

theorem Mimics.startConnect (h : Mimics poll poll' R Free D) (hR : R rt.p q) {fd : Nat}
    (hfree : Free q fd) (hroom : D fd) (hopen : rt.isOpen fd = true) (er : Nat)
    (answer : ConnectAnswer) :
    ∃ answer' q', Runtime.startConnect poll' (rt.withPoll q) er fd answer' =
        (Runtime.startConnect poll rt er fd answer).withPoll q' ∧
      R (Runtime.startConnect poll rt er fd answer).p q' := by
  cases answer with
  | failed errno => exact ⟨.failed errno, q, rfl, hR⟩
  | connected retval errno => exact ⟨.connected retval errno, q, rfl, hR⟩
  | inProgress ok errno =>
      obtain ⟨ok', hret, hR'⟩ :=
        h.associate hR hfree hroom (by decide : efPollout < 2 ^ 15) (.routine er) ok
      have hcall : poll.associate rt.p fd efPollout (.routine er) false (ok && rt.isOpen fd) =
          poll.associate rt.p fd efPollout (.routine er) false ok := by
        rw [hopen, Bool.and_true]
      have hcall' : poll'.associate (rt.withPoll q).p fd efPollout (.routine er) false
          (ok' && (rt.withPoll q).isOpen fd) =
            poll'.associate q fd efPollout (.routine er) false ok' := by
        rw [show (rt.withPoll q).isOpen fd = true from hopen, Bool.and_true]
        rfl
      obtain ⟨pc, current, he, hcase⟩ := startConnect_spec hcall errno
      obtain ⟨pc', current', he', hcase'⟩ := startConnect_spec hcall' errno
      rw [hret] at hcase'
      have hsame : pc' = pc ∧ current' = current := by
        rcases hcase with ⟨_, rfl, rfl⟩ | ⟨_, rfl, rfl⟩ <;>
          rcases hcase' with ⟨_, rfl, rfl⟩ | ⟨_, rfl, rfl⟩ <;>
          first | exact ⟨rfl, rfl⟩ | omega
      obtain ⟨rfl, rfl⟩ := hsame
      rw [he]
      exact ⟨.inProgress ok' errno, _, he', hR'⟩

theorem Settled.uses (hset : Settled Free D rt q) {er : Nat} (hcur : rt.current = some er)
    {retval : Int} {errno : Nat} (hpc : (rt.routines er).pc = .user retval errno) {fd : Nat}
    (ho : rt.owner fd = some (.routine er)) : Free q fd ∧ rt.isOpen fd = true :=
  ⟨hset.own er retval errno fd hcur hpc ho, by simp [isOpen, ho]⟩

theorem Mimics.endProc (h : Mimics poll poll' R Free D) (hR : R rt.p q) (er : Nat) (ok : Bool) :
    ∃ q', Runtime.endProc poll' (rt.withPoll q) er ok =
        (Runtime.endProc poll rt er ok).withPoll q' ∧ R (Runtime.endProc poll rt er ok).p q' := by
  obtain ⟨q', hclose, hR'⟩ := h.routineClose hR (rt.routines er).procFd ok
  refine ⟨q', ?_, hR'⟩
  have hproc : ((rt.withPoll q).routines er).procFd = (rt.routines er).procFd := rfl
  unfold Runtime.endProc
  rw [hproc, hclose]
  rfl

theorem Mimics.routineStep (h : Mimics poll poll' R Free D) (hset : Settled Free D rt q)
    (hR : R rt.p q)
    {er : Nat} (hcur : rt.current = some er) {a : Act K} (hown : rt.usesOwn a = true)
    (hs : routineStep poll rt er a = some rt') :
    ∃ a' q', a' ≠ .stop ∧ (rt.withPoll q).usesOwn a' = true ∧
      Runtime.routineStep poll' (rt.withPoll q) er a' = some (rt'.withPoll q') ∧ R rt'.p q' := by
  have hcur' : (rt.withPoll q).current = some er := hcur
  have hpcs : ((rt.withPoll q).routines er).pc = (rt.routines er).pc := rfl
  unfold Runtime.routineStep at hs
  split at hs
  next w fd ok errno hpc =>
    cases hs
    unfold usesOwn at hown
    rw [hcur] at hown
    have ho : rt.owner fd = some (.routine er) := of_decide_eq_true hown
    obtain ⟨hfree, hopen⟩ := hset.uses hcur hpc ho
    obtain ⟨ok', q', hcall, hR'⟩ :=
      h.startTransfer hR hfree (hset.room fd hopen) hopen er w ok errno
    refine ⟨.transfer w fd ok' errno, q', by simp, ?_, ?_, hR'⟩
    · unfold usesOwn
      rw [hcur']
      exact decide_eq_true ho
    · simp [Runtime.routineStep, hpcs, hpc, hcall]
  next fd answer hpc =>
    cases hs
    unfold usesOwn at hown
    rw [hcur] at hown
    have ho : rt.owner fd = some (.routine er) := of_decide_eq_true hown
    obtain ⟨hfree, hopen⟩ := hset.uses hcur hpc ho
    obtain ⟨answer', q', hcall, hR'⟩ := h.startConnect hR hfree (hset.room fd hopen) hopen er answer
    refine ⟨.connect fd answer', q', by simp, ?_, ?_, hR'⟩
    · unfold usesOwn
      rw [hcur']
      exact decide_eq_true ho
    · simp [Runtime.routineStep, hpcs, hpc, hcall]
  next fd hpc =>
    split at hs
    · cases hs
    next hopen =>
      cases hs
      have hopen' : (rt.withPoll q).isOpen fd = false :=
        show rt.isOpen fd = false by simpa using hopen
      refine ⟨.socket fd, q, by simp, by simp [usesOwn, hcur'], ?_, hR⟩
      simp only [Runtime.routineStep, hpcs, hpc, hopen', Bool.false_eq_true, if_false]
      rfl
  next fd wrapped ok hpc =>
    cases hs
    unfold usesOwn at hown
    rw [hcur] at hown
    have ho := of_decide_eq_true hown
    obtain ⟨hfree, _⟩ := hset.uses hcur hpc ho.1
    refine ⟨.close fd wrapped ok, ?_⟩
    cases wrapped with
    | true =>
        obtain ⟨q', hcall, hR'⟩ := h.routineClose hR fd ok
        refine ⟨q', by simp, ?_, ?_, hR'⟩
        · unfold usesOwn
          rw [hcur']
          exact decide_eq_true ho
        · simp [Runtime.routineStep, hpcs, hpc, hcall]
    | false =>
        obtain ⟨q', hcall, hR'⟩ := h.close hR hfree
        refine ⟨q', by simp, ?_, ?_, hR'⟩
        · unfold usesOwn
          rw [hcur']
          exact decide_eq_true ho
        · simp [Runtime.routineStep, hpcs, hpc, hcall]
  next ok hpc =>
    cases hs
    obtain ⟨q', hcall, hR'⟩ := h.endProc hR er ok
    refine ⟨.endProc ok, q', by simp, by simp [usesOwn, hcur'], ?_, hR'⟩
    simp [Runtime.routineStep, hpcs, hpc, hcall]
  next c retval events error hpc =>
    cases hs
    refine ⟨.wake error, q, by simp, by simp [usesOwn, hcur'], ?_, hR⟩
    simp only [Runtime.routineStep, hpcs, hpc]
    rfl
  next c retval errno hpc =>
    cases hs
    refine ⟨.transferred retval errno, q, by simp, by simp [usesOwn, hcur'], ?_, hR⟩
    simp only [Runtime.routineStep, hpcs, hpc]
    rfl
  next c retval hpc =>
    cases hs
    refine ⟨.unset, _, by simp, by simp [usesOwn, hcur'], ?_, h.unset hR _ _⟩
    simp only [Runtime.routineStep, hpcs, hpc]
    rfl
  next c retval errno ok hpc =>
    cases hs
    refine ⟨.dissociate ok, _, by simp, by simp [usesOwn, hcur'], ?_,
      (h.dissociate hR c.fd true false ok).1⟩
    simp only [Runtime.routineStep, hpcs, hpc]
    rfl
  next => cases hs

/-! ## Runs -/

/-- A step over the one poller is the same step over the other one. -/
theorem Mimics.step (h : Mimics poll poll' R Free D) (hset : Settled Free D rt q) (hR : R rt.p q)
    {a : Act K} (hown : rt.usesOwn a = true) (hs : step poll rt a = some rt') :
    Copies poll' R rt q rt' := by
  unfold Runtime.step at hs
  split at hs
  · cases hs
    refine ⟨.stop, q, ?_, rfl, hR⟩
    unfold usesOwn
    split <;> first | rfl | contradiction
  next hcur =>
    obtain ⟨a', q', hs', hR'⟩ := h.loopStep hset hR hs
    exact copies_loop hcur hs' hR'
  next _ er _ hcur =>
    obtain ⟨a', q', hne, hown', hs', hR'⟩ := h.routineStep hset hR hcur hown hs
    have hcur' : (rt.withPoll q).current = some er := hcur
    refine ⟨a', q', hown', ?_, hR'⟩
    cases a' with
    | stop => exact absurd rfl hne
    | _ => simpa only [Runtime.step, hcur'] using hs'

/-! ## Numbers that are given out -/

def Act.opens : Act K → Option Nat
  | .accept fd _ _ _ | .socket fd => some fd
  | _ => none

/-- What is open behind a step has been open, or is given out by it. -/
theorem Owners.step_opened (h : Owners rt) {a : Act K} (hs : Runtime.step poll rt a = some rt')
    {fd : Nat} (ho : rt'.isOpen fd = true) : rt.isOpen fd = true ∨ a.opens = some fd := by
  have hupdate : ∀ {fd' : Nat} {o : Option Owner},
      (Function.update rt.owner fd' o fd).isSome = true → fd ≠ fd' → rt.isOpen fd = true := by
    intro fd' o ho hne
    rwa [Function.update_of_ne hne] at ho
  unfold Runtime.step at hs
  split at hs
  · cases hs
    exact Or.inl ho
  next hcur =>
    rcases loopStep_cases hcur hs with ⟨⟨_, _, _, _, rfl, _⟩, _⟩ |
      ⟨socket, nonblock, fresh, ok, rfl, hs⟩ | ⟨fresh, rfl, hs⟩ | ⟨rfl, hs⟩ |
      ⟨del, idleStop, idle, rfl, hs⟩
    · exact Or.inl ho
    · by_cases he : fd = socket
      · exact Or.inr (congrArg some he.symm)
      · obtain ⟨_, _, _, _, _, _, _, _, ⟨_, rfl⟩ | ⟨_, _, rfl⟩ | ⟨_, _, _, _, rfl⟩⟩ :=
          acceptSocket_cases hs
        · exact Or.inl (hupdate ho he)
        · exact Or.inl ho
        · exact Or.inl (hupdate ho he)
    · rcases nextQueued_cases hs with ⟨_, rfl⟩ | ⟨id, lis, info, hp, hinfo, ⟨_, rfl⟩ |
        ⟨qf, qfs, pool, hqf, ⟨_, rfl⟩ | ⟨er, _, rfl⟩⟩⟩
      · exact Or.inl ho
      · exact Or.inl ho
      · exact Or.inl ho
      · by_cases he : fd = qf.fd
        · have hq := h.queued info (findListen_spec hinfo).1 qf
            (by rw [hqf]; exact List.mem_cons_self)
            (not_starting hp (fun _ _ => Phase.noConfusion) qf)
          subst he
          exact Or.inl (by simp [isOpen, hq])
        · exact Or.inl (hupdate ho he)
    · obtain ⟨_, _, _, _, rfl⟩ := queuedStarted_cases hs
      exact Or.inl ho
    · have hclosed : (Runtime.closeListeners poll del rt).isOpen fd = true →
          rt.isOpen fd = true := by
        unfold isOpen
        rw [closeListeners_eq]
        dsimp only
        rw [foldl_closeFd_owner]
        split
        · intro hno
          cases hno
        · exact id
      obtain ⟨_, ⟨_, rfl⟩ | ⟨_, _, rfl⟩ | ⟨_, _, rfl⟩⟩ := exitQueue_cases hs
      · exact Or.inl ho
      · exact Or.inl (hclosed ho)
      · exact Or.inl (hclosed ho)
  next _ er _ hcur =>
    rcases routineStep_cases hs with ⟨_, _, _, rfl, _⟩ | ⟨fd', rfl, _, rfl⟩ |
      ⟨fd', _, _, _, rfl, rfl⟩ | ⟨_, _, rfl, rfl⟩
    · exact Or.inl ho
    · by_cases he : fd = fd'
      · exact Or.inr (congrArg some he.symm)
      · exact Or.inl (hupdate ho he)
    · by_cases he : fd = fd'
      · simp [isOpen, he] at ho
      · exact Or.inl (hupdate ho he)
    · by_cases he : fd = (rt.routines er).procFd
      · simp [isOpen, he] at ho
      · exact Or.inl (hupdate ho he)

/-! ## Over `epoll.c` -/

/-- The listeners that are still to be associated have descriptors of their own, which are not
in the set. -/
def Unlistened (rt : Runtime Epoll) : Prop :=
  ∀ rest, rt.phase = .associate rest → rt.current = none ∧
    (rest.filterMap ListenInfo.fd).Nodup ∧ ∀ fd ∈ rest.filterMap ListenInfo.fd, rt.p fd = none

theorem Unlistened.associated {rt rt' : Runtime Epoll} (h : Unlistened rt) {ok : Bool}
    (hs : rt.associateListener efEpoll ok = some rt') : Unlistened rt' := by
  intro rest hp
  rcases associateListener_cases hs with ⟨_, rfl⟩ | ⟨_, _, _, _, rfl⟩ |
    ⟨li, rest', fd, ret, p, hp', hfd, hcall, ⟨_, rfl⟩ | ⟨_, rfl⟩⟩
  · cases hp
  · cases hp
  · cases hp
  · cases hp
    obtain ⟨hcur, hnodup, hentry⟩ := h _ hp'
    rw [List.filterMap_cons_some hfd] at hnodup hentry
    obtain ⟨hnot, hnodup⟩ := List.nodup_cons.mp hnodup
    refine ⟨hcur, hnodup, fun fd' hfd' => ?_⟩
    have hold := hentry fd' (List.mem_cons_of_mem fd hfd')
    have hp₂ : p = (epollAdd rt.p fd efPollin (.listen li.id) (ok && rt.isOpen fd)).2 :=
      congrArg Prod.snd hcall.symm
    rcases epollAdd_cases rt.p fd efPollin (.listen li.id) (ok && rt.isOpen fd) with he | ⟨_, he⟩
    · rw [hp₂, he]
      exact hold
    · rw [hp₂, he]
      refine (Function.update_of_ne ?_ _ _).trans hold
      rintro rfl
      exact hnot hfd'

theorem Unlistened.step {rt rt' : Runtime Epoll} (h : Unlistened rt)
    {a : Act (List (Nat × Nat))} (hs : Runtime.step efEpoll rt a = some rt') :
    Unlistened rt' := by
  unfold Runtime.step at hs
  split at hs
  · cases hs
    exact h
  next hcur =>
    have hother : ∀ {rt' : Runtime Epoll}, (∀ rest, rt'.phase ≠ .associate rest) →
        Unlistened rt' := fun hno rest hp => absurd hp (hno rest)
    unfold Runtime.loopStep at hs
    split at hs
    · exact h.associated hs
    · obtain ⟨_, _, _, _, rfl⟩ := pollWait_cases hs
      exact hother (fun _ => by simp)
    · obtain ⟨_, rfl | rfl⟩ := pollWaitFailed_cases hs <;> exact hother (fun _ => by simp)
    · rcases nextEvent_cases hs with ⟨_, rfl⟩ | ⟨_, _, _, _, _, rfl⟩ |
        ⟨_, _, _, _, _, ⟨_, rfl⟩ | ⟨_, _, _, rfl⟩⟩ <;> exact hother (fun _ => by simp)
    · obtain ⟨_, _, _, rfl⟩ := acceptFailed_cases hs
      exact hother (fun _ => by simp)
    · obtain ⟨_, _, _, _, _, _, _, rfl⟩ := acceptEnd_cases hs
      exact hother (fun _ => by simp)
    · obtain ⟨_, _, _, _, hp, _, _, _, ⟨_, rfl⟩ | ⟨_, _, rfl⟩ | ⟨_, _, _, _, rfl⟩⟩ :=
        acceptSocket_cases hs <;> exact hother (fun _ => by simp [hp])
    · rcases nextQueued_cases hs with ⟨_, rfl⟩ | ⟨_, _, _, _, _, ⟨_, rfl⟩ |
        ⟨_, _, _, _, ⟨_, rfl⟩ | ⟨_, _, rfl⟩⟩⟩ <;> exact hother (fun _ => by simp)
    · obtain ⟨_, _, _, _, rfl⟩ := queuedStarted_cases hs
      exact hother (fun _ => by simp)
    · obtain ⟨_, ⟨_, rfl⟩ | ⟨_, _, rfl⟩ | ⟨_, _, rfl⟩⟩ := exitQueue_cases hs <;>
        exact hother (fun _ => by simp [endRound])
    · cases hs
  next _ er _ hcur =>
    intro rest hp
    have hsame : rt'.phase = rt.phase := by
      rcases routineStep_cases hs with ⟨_, _, _, rfl, _⟩ | ⟨_, _, _, rfl⟩ | ⟨_, _, _, _, _, rfl⟩ |
        ⟨_, _, _, rfl⟩ <;> rfl
    cases hcur.symm.trans (h rest (hsame ▸ hp)).1

/-- The states of the framework over `epoll.c` in which another poller can take its place. -/
structure Replaceable (rt : Runtime Epoll) : Prop where
  inv : Inv rt
  unlistened : Unlistened rt

/-- `ef_init` and calls of `ef_add_listen`, for descriptors of their own. -/
structure Listening {P : Type} (p : P) (rt : Runtime P) : Prop where
  initial : Initial p rt
  nodup : (rt.listenList.filterMap ListenInfo.fd).Nodup

theorem replaceable_invariant : Lib.Invariant (Listening fun _ => none) (Runtime.step efEpoll)
    (fun rt a => rt.usesOwn a = true) Replaceable where
  init := fun h => by
    refine ⟨inv_invariant.init h.initial, fun rest hp => ⟨h.initial.current, ?_, fun fd _ => ?_⟩⟩
    · cases h.initial.phase.symm.trans hp
      exact h.nodup
    · rw [h.initial.p]
  step := fun h hown hs => ⟨inv_invariant.step h.inv hown hs, h.unlistened.step hs⟩

theorem Replaceable.settled {rt : Runtime P} {q : Epoll} (h : Replaceable (rt.withPoll q))
    {D : Nat → Prop} (hroom : ∀ fd, rt.isOpen fd = true → D fd) :
    Settled (fun q fd => q fd = none) D rt q where
  room := hroom
  closed := fun fd ho => h.inv.routes.entry_of_closed ho
  listener := fun li rest fd hp hfd => by
    obtain ⟨_, _, hentry⟩ := h.unlistened (li :: rest) hp
    have hmem := h.inv.base.associating _ hp li List.mem_cons_self
    have ho := h.inv.owners.listener li hmem fd hfd
    refine ⟨hentry fd (by simp [hfd]), ?_⟩
    exact Option.isSome_iff_exists.mpr ⟨_, ho⟩
  own := fun er retval errno fd hcur hpc ho => by
    have hcall : (rt.withPoll q).callFd er = none := callFd_of_user hpc
    exact h.inv.routes.entry_of_owner ho hcall

/-! ## Who is told -/

variable {rt : Runtime Epoll} {er fd : Nat}

/-- A routine that waits has its descriptor in the set, and no other. -/
theorem Inv.entry_of_waiting (h : Inv rt) {c : Call} {retval : Int}
    (hpc : (rt.routines er).pc = .waiting c retval) :
    (rt.routines er).fd = c.fd ∧
      ∀ fd, (∃ events, rt.p fd = some (events, .routine er)) ↔ fd = c.fd := by
  have hcall : rt.callFd er = some c.fd := callFd_of_call (by rw [hpc]; rfl)
  refine ⟨h.routes.pollFd er c.fd hcall, fun fd => (h.routes.entry_iff er fd).trans ?_⟩
  rw [hcall, Option.some.injEq]
  exact eq_comm

theorem Inv.entry_of_free (h : Inv rt)
    (hf : (rt.routines er).pc = .exited ∨ er ∈ rt.coPool.freeList) (fd events : Nat) :
    rt.p fd ≠ some (events, .routine er) := by
  intro he
  cases (h.callFd_of_free hf).symm.trans ((h.routes.entry_iff er fd).mp ⟨events, he⟩)

end Runtime

end EFramework
