import EFramework.Lib.Run
import EFramework.Runtime.Base

/-! # What a step asks of the poller

Seen from the poller a step of the program is a few calls, between which descriptors
are opened and closed. Whatever every call keeps, each in a state that it is made in,
a step of the program keeps.
-/

namespace EFramework

/-! ## Calls -/

/-- What the poller and the kernel are asked, one thing after another. -/
inductive PollCall (K : Type) where
  | associate (fd events : Nat) (ptr : PollPtr) (fired ok : Bool)
  /-- Without `onclose`. -/
  | dissociate (fd : Nat) (fired ok : Bool)
  | unset (fd events : Nat)
  | wait (report : K)
  /-- A number is given out. -/
  | opened (fd : Nat)
  /-- `close` itself. -/
  | close (fd : Nat)
  /-- `dissociate` with `onclose`, and `close` behind it. -/
  | routineClose (fd : Nat) (ok : Bool)

namespace PollCall

variable {P K : Type}

def closed (poll : EfPoll P K) (s : P × (Nat → Bool)) (fd : Nat) : P × (Nat → Bool) :=
  if s.2 fd then (poll.closed s.1 fd, Function.update s.2 fd false) else s

theorem closed_snd (poll : EfPoll P K) (s : P × (Nat → Bool)) (fd : Nat) :
    (closed poll s fd).2 = Function.update s.2 fd false := by
  unfold closed
  split
  · rfl
  next hopen => exact (Function.update_eq_self_iff.mpr (by simpa using hopen)).symm

def step (poll : EfPoll P K) (s : P × (Nat → Bool)) : PollCall K → Option (P × (Nat → Bool))
  | .associate fd events ptr fired ok =>
      some ((poll.associate s.1 fd events ptr fired ok).2, s.2)
  | .dissociate fd fired ok => some ((poll.dissociate s.1 fd fired false ok).2, s.2)
  | .unset fd events => some ((poll.unset s.1 fd events).2, s.2)
  | .wait report => (poll.wait s.1 report).map (fun r => (r.2, s.2))
  | .opened fd => some (s.1, Function.update s.2 fd true)
  | .close fd => some (closed poll s fd)
  | .routineClose fd ok => some (closed poll ((poll.dissociate s.1 fd false true ok).2, s.2) fd)

/-- The kernel does not add a descriptor that is closed. -/
def addsOpen (s : P × (Nat → Bool)) : PollCall K → Bool
  | .associate fd _ _ _ ok => !ok || s.2 fd
  | _ => true

def isUnset : PollCall K → Bool
  | .unset _ _ => true
  | _ => false

end PollCall

namespace Runtime

variable {P K : Type}

def listenerFd (rt : Runtime P) (li : Nat) : Option Nat := (rt.findListen li).bind ListenInfo.fd

def listenFds (rt : Runtime P) : List Nat := rt.listenList.filterMap ListenInfo.fd

/-- The descriptor that `ef_routine_run` is about to start a routine for. -/
def startedFd (rt : Runtime P) (fresh : Option Nat) : Option Nat :=
  match rt.phase with
  | .queue (id :: _) => do
      let qf ← (rt.queueOf id).head?
      let (co, _) ← efCoroutineCreate rt.coPool fresh
      co.map (fun _ => qf.fd)
  | _ => none

def acceptCalls (rt : Runtime P) (li fd socket : Nat) (nonblock : Bool) (fresh : Option Nat)
    (ok : Bool) : List (PollCall K) :=
  if nonblock then
    match rt.takeNode fresh with
    | some (none, _) =>
        [.opened socket, .close socket, .associate fd efPollin (.listen li) true ok]
    | _ => [.opened socket]
  else [.opened socket, .associate fd efPollin (.listen li) true ok]

def loopCalls (rt : Runtime P) : Act K → List (PollCall K)
  | .associate ok =>
      match rt.phase with
      | .associate (li :: _) =>
          li.fd.toList.map (fun fd =>
            .associate fd efPollin (.listen li.id) false (ok && rt.isOpen fd))
      | _ => []
  | .wait report => [.wait report]
  | .acceptEnd ok =>
      match rt.phase with
      | .acceptEnd li _ =>
          (rt.listenerFd li).toList.flatMap (fun fd =>
            [.unset fd efPollin, .associate fd efPollin (.listen li) true ok])
      | _ => []
  | .accept socket nonblock fresh ok =>
      match rt.phase with
      | .accept li _ =>
          (rt.listenerFd li).toList.flatMap (fun fd =>
            rt.acceptCalls li fd socket nonblock fresh ok)
      | _ => []
  | .queue fresh => (rt.startedFd fresh).toList.map .opened
  | .exitQueue del _ _ =>
      if rt.stopping then
        rt.listenFds.flatMap (fun fd => [.dissociate fd false (del fd), .close fd])
      else []
  | _ => []

def routineCalls (rt : Runtime P) (er : Nat) (a : Act K) : List (PollCall K) :=
  match (rt.routines er).pc, a with
  | .user _ _, .transfer w fd ok _ =>
      [.associate fd w.transfer.interest (.routine er) false (ok && rt.isOpen fd)]
  | .user _ _, .connect fd (.inProgress ok _) =>
      [.associate fd efPollout (.routine er) false (ok && rt.isOpen fd)]
  | .user _ _, .socket fd => [.opened fd]
  | .user _ _, .close fd wrapped ok => [if wrapped then .routineClose fd ok else .close fd]
  | .user _ _, .endProc ok => [.routineClose (rt.routines er).procFd ok]
  | .again c _, .unset => [.unset c.fd c.unsetEvents]
  | .done c _ _, .dissociate ok => [.dissociate c.fd true ok]
  | _, _ => []

def calls (rt : Runtime P) (a : Act K) : List (PollCall K) :=
  match a, rt.current with
  | .stop, _ => []
  | a, none => rt.loopCalls a
  | a, some er => rt.routineCalls er a

variable {poll : EfPoll P K} {rt rt' : Runtime P} {er : Nat} {a : Act K}

theorem calls_of_loop (hstop : a ≠ .stop) (hcur : rt.current = none) :
    rt.calls a = rt.loopCalls a := by
  unfold calls
  rw [hcur]
  cases a with
  | stop => exact absurd rfl hstop
  | _ => rfl

theorem calls_of_routine (hstop : a ≠ .stop) (hcur : rt.current = some er) :
    rt.calls a = rt.routineCalls er a := by
  unfold calls
  rw [hcur]
  cases a with
  | stop => exact absurd rfl hstop
  | _ => rfl

/-! ## The loop -/

def polled (rt : Runtime P) : P × (Nat → Bool) := (rt.p, rt.isOpen)

theorem isOpen_update (owner : Nat → Option Owner) (fd : Nat) (o : Option Owner) :
    (fun fd' => (Function.update owner fd o fd').isSome) =
      Function.update (fun fd' => (owner fd').isSome) fd o.isSome := by
  funext fd'
  by_cases he : fd' = fd
  · subst he
    rw [Function.update_self, Function.update_self]
  · rw [Function.update_of_ne he, Function.update_of_ne he]

theorem polled_close (poll : EfPoll P K) (rt : Runtime P) (fd : Nat) :
    (close poll rt fd).polled = PollCall.closed poll rt.polled fd := by
  unfold close PollCall.closed polled
  dsimp only
  split
  · exact congrArg (Prod.mk _) (isOpen_update rt.owner fd none)
  · rfl

theorem polled_closeFd (poll : EfPoll P K) (del : Nat → Bool) (fds : List Nat) (p : P)
    (owner : Nat → Option Owner) :
    (fds.flatMap (fun fd => [.dissociate fd false (del fd), .close fd])).foldlM
        (PollCall.step poll) (p, fun fd => (owner fd).isSome) =
      some ((fds.foldl (closeFd poll del) (p, owner)).1,
        fun fd => ((fds.foldl (closeFd poll del) (p, owner)).2 fd).isSome) := by
  induction fds generalizing p owner with
  | nil => rfl
  | cons fd fds ih =>
      have hone : PollCall.closed poll ((poll.dissociate p fd false false (del fd)).2,
          fun fd => (owner fd).isSome) fd =
            ((closeFd poll del (p, owner) fd).1,
              fun fd' => ((closeFd poll del (p, owner) fd).2 fd').isSome) := by
        unfold PollCall.closed closeFd
        dsimp only
        split
        · exact congrArg (Prod.mk _) (isOpen_update owner fd none).symm
        · rfl
      rw [List.flatMap_cons, List.foldlM_append, List.foldl_cons]
      simp only [List.foldlM_cons, List.foldlM_nil, PollCall.step, Option.bind_eq_bind,
        Option.bind_some, Option.pure_def]
      rw [hone]
      exact ih _ _

theorem associateListener_calls {ok : Bool} (hs : rt.associateListener poll ok = some rt') :
    (rt.loopCalls (.associate ok)).foldlM (PollCall.step poll) rt.polled = some rt'.polled := by
  unfold loopCalls
  dsimp only
  rcases associateListener_cases hs with ⟨hp, rfl⟩ | ⟨li, rest, hp, hfd, rfl⟩ |
    ⟨li, rest, fd, ret, p, hp, hfd, ha, hcase⟩
  · rw [hp]
    rfl
  · rw [hp]
    dsimp only
    rw [hfd]
    rfl
  · have hp' : rt'.polled = (p, rt.isOpen) := by
      rcases hcase with ⟨_, rfl⟩ | ⟨_, rfl⟩ <;> rfl
    rw [hp, hp']
    dsimp only
    rw [hfd]
    unfold polled
    simp [PollCall.step, ha]

theorem acceptEnd_calls {ok : Bool} (hs : rt.acceptEnd poll ok = some rt') :
    (rt.loopCalls (.acceptEnd ok)).foldlM (PollCall.step poll) rt.polled = some rt'.polled := by
  obtain ⟨li, evts, info, fd, hp, hinfo, hfd, rfl⟩ := acceptEnd_cases hs
  unfold loopCalls listenerFd
  dsimp only
  rw [hp]
  dsimp only
  rw [hinfo, Option.bind_some, hfd]
  rfl

theorem acceptSocket_calls {socket : Nat} {nonblock : Bool} {fresh : Option Nat} {ok : Bool}
    (hs : rt.acceptSocket poll socket nonblock fresh ok = some rt') :
    (rt.loopCalls (.accept socket nonblock fresh ok)).foldlM (PollCall.step poll) rt.polled =
      some rt'.polled := by
  obtain ⟨li, evts, info, fd, hp, hinfo, hfd, ho, hcase⟩ := acceptSocket_cases hs
  have hcalls : rt.loopCalls (K := K) (.accept socket nonblock fresh ok) =
      rt.acceptCalls li fd socket nonblock fresh ok := by
    unfold loopCalls listenerFd
    dsimp only
    rw [hp]
    dsimp only
    rw [hinfo, Option.bind_some, hfd]
    exact List.append_nil _
  have hopened : ∀ o : Owner, (fun fd' => (Function.update rt.owner socket (some o) fd').isSome) =
      Function.update rt.isOpen socket true := fun o => isOpen_update rt.owner socket (some o)
  rw [hcalls]
  unfold acceptCalls
  rcases hcase with ⟨rfl, rfl⟩ | ⟨rfl, ht, rfl⟩ | ⟨node, rest, rfl, ht, rfl⟩
  · exact congrArg (fun op => some (_, op)) (hopened .other).symm
  · have hclosed : Function.update (Function.update rt.isOpen socket true) socket false =
        rt.isOpen := by
      rw [Function.update_idem, Function.update_eq_self_iff]
      unfold isOpen
      rw [ho]
      rfl
    rw [if_pos rfl, ht]
    simp [PollCall.step, PollCall.closed, polled, hclosed]
    rfl
  · rw [if_pos rfl, ht]
    exact congrArg (fun op => some (_, op)) (hopened (.queued node)).symm

theorem nextQueued_calls {fresh : Option Nat} (hs : rt.nextQueued fresh = some rt') :
    (rt.loopCalls (.queue fresh)).foldlM (PollCall.step poll) rt.polled = some rt'.polled := by
  unfold loopCalls startedFd
  dsimp only
  rcases nextQueued_cases hs with ⟨hp, rfl⟩ | ⟨id, lis, info, hp, hinfo, hcase⟩
  · rw [hp]
    rfl
  rw [hp]
  dsimp only
  rw [queueOf_of_find hinfo]
  rcases hcase with ⟨hqf, rfl⟩ | ⟨qf, qfs, pool, hqf, ⟨hc, rfl⟩ | ⟨er, hc, rfl⟩⟩
  · rw [hqf]
    rfl
  · rw [hqf, hc]
    rfl
  · rw [hqf, hc]
    exact congrArg (fun op => some (rt.p, op))
      (isOpen_update rt.owner qf.fd (some (.routine er))).symm

theorem exitQueue_calls {del idleStop idle : Nat → Bool}
    (hs : rt.exitQueue poll del idleStop idle = some rt') :
    (rt.loopCalls (.exitQueue del idleStop idle)).foldlM (PollCall.step poll) rt.polled =
      some rt'.polled := by
  have hclosed := polled_closeFd poll del rt.listenFds rt.p rt.owner
  have heq : (closeListeners poll del rt).polled =
      ((rt.listenFds.foldl (closeFd poll del) (rt.p, rt.owner)).1,
        fun fd => ((rt.listenFds.foldl (closeFd poll del) (rt.p, rt.owner)).2 fd).isSome) := by
    rw [closeListeners_eq]
    rfl
  unfold loopCalls
  dsimp only
  obtain ⟨_, ⟨hst, rfl⟩ | ⟨hst, _, rfl⟩ | ⟨hst, _, rfl⟩⟩ := exitQueue_cases hs
  · rw [hst]
    rfl
  · rw [if_pos hst]
    exact hclosed.trans (congrArg some heq.symm)
  · rw [if_pos hst]
    exact hclosed.trans (congrArg some heq.symm)

theorem loopStep_calls (hs : loopStep poll rt a = some rt') :
    (rt.loopCalls a).foldlM (PollCall.step poll) rt.polled = some rt'.polled := by
  unfold loopStep at hs
  split at hs
  · exact associateListener_calls hs
  · obtain ⟨_, evts, p, hw, rfl⟩ := pollWait_cases hs
    unfold loopCalls polled
    simp [PollCall.step, hw]
    rfl
  · obtain ⟨_, rfl | rfl⟩ := pollWaitFailed_cases hs <;> rfl
  · rcases nextEvent_cases hs with ⟨_, rfl⟩ | ⟨_, _, _, _, _, rfl⟩ |
      ⟨_, _, _, _, _, ⟨_, rfl⟩ | ⟨_, _, _, rfl⟩⟩ <;> rfl
  · obtain ⟨_, _, _, rfl⟩ := acceptFailed_cases hs
    rfl
  · exact acceptEnd_calls hs
  · exact acceptSocket_calls hs
  · exact nextQueued_calls hs
  · obtain ⟨_, _, _, _, rfl⟩ := queuedStarted_cases hs
    rfl
  · exact exitQueue_calls hs
  · cases hs

/-! ## Routines -/

theorem startTransfer_calls (poll : EfPoll P K) (rt : Runtime P) (er : Nat) (w : Wrapper)
    (fd : Nat) (ok : Bool) (errno : Nat) :
    (startTransfer poll rt er w fd ok errno).polled =
      ((poll.associate rt.p fd w.transfer.interest (.routine er) false (ok && rt.isOpen fd)).2,
        rt.isOpen) := by
  obtain ⟨r, hr⟩ : ∃ r, poll.associate rt.p fd w.transfer.interest (.routine er) false
      (ok && rt.isOpen fd) = r := ⟨_, rfl⟩
  obtain ⟨pc, current, he, _⟩ := startTransfer_spec hr errno
  rw [he, hr]
  rfl

theorem startConnect_calls (poll : EfPoll P K) (rt : Runtime P) (er fd : Nat) (ok : Bool)
    (errno : Nat) :
    (startConnect poll rt er fd (.inProgress ok errno)).polled =
      ((poll.associate rt.p fd efPollout (.routine er) false (ok && rt.isOpen fd)).2,
        rt.isOpen) := by
  obtain ⟨r, hr⟩ : ∃ r, poll.associate rt.p fd efPollout (.routine er) false
      (ok && rt.isOpen fd) = r := ⟨_, rfl⟩
  obtain ⟨pc, current, he, _⟩ := startConnect_spec hr errno
  rw [he, hr]
  rfl

theorem polled_routineClose (poll : EfPoll P K) (rt : Runtime P) (fd : Nat) (ok : Bool) :
    (efRoutineClose poll rt fd ok).polled =
      PollCall.closed poll ((poll.dissociate rt.p fd false true ok).2, rt.isOpen) fd :=
  polled_close poll _ fd

theorem routineStep_calls (hs : routineStep poll rt er a = some rt') :
    (rt.routineCalls er a).foldlM (PollCall.step poll) rt.polled = some rt'.polled := by
  unfold routineStep at hs
  unfold routineCalls
  split at hs
  next w fd ok errno hpc =>
    cases hs
    rw [hpc, startTransfer_calls]
    rfl
  next fd answer hpc =>
    cases hs
    rw [hpc]
    cases answer with
    | failed errno => rfl
    | connected retval errno => rfl
    | inProgress ok errno =>
        rw [startConnect_calls]
        rfl
  next fd hpc =>
    rw [hpc]
    split at hs
    · cases hs
    · cases hs
      exact congrArg (fun op => some (rt.p, op))
        (isOpen_update rt.owner fd (some (.routine er))).symm
  next fd wrapped ok hpc =>
    cases hs
    rw [hpc]
    cases wrapped with
    | true => exact congrArg some (polled_routineClose poll rt fd ok).symm
    | false => exact congrArg some (polled_close poll rt fd).symm
  next ok hpc =>
    cases hs
    rw [hpc]
    exact congrArg some (polled_routineClose poll rt (rt.routines er).procFd ok).symm
  next c retval events error hpc =>
    cases hs
    rw [hpc]
    rfl
  next c retval errno hpc =>
    cases hs
    rw [hpc]
    rfl
  next c retval hpc =>
    cases hs
    rw [hpc]
    rfl
  next c retval errno ok hpc =>
    cases hs
    rw [hpc]
    rfl
  next => cases hs

/-! ## Steps -/

/-- A step leaves what its calls make of the poller and the open descriptors. -/
theorem step_calls (hs : step poll rt a = some rt') :
    (rt.calls a).foldlM (PollCall.step poll) rt.polled = some rt'.polled := by
  unfold Runtime.step at hs
  split at hs
  · cases hs
    unfold calls
    rfl
  next hstop hcur =>
    rw [calls_of_loop hstop hcur]
    exact loopStep_calls hs
  next er hstop hcur =>
    rw [calls_of_routine hstop hcur]
    exact routineStep_calls hs

/-- The descriptor that the loop is accepting on. -/
def accepting (rt : Runtime P) : Option Nat :=
  match rt.phase with
  | .accept li _ | .acceptEnd li _ => rt.listenerFd li
  | _ => none

/-- Behind an `accept` the program does not look whether the listener is open, but the kernel
does. -/
def addsOpen (rt : Runtime P) : Act K → Bool
  | .accept _ _ _ ok | .acceptEnd ok => rt.accepting.all (fun fd => !ok || rt.isOpen fd)
  | _ => true

def AddsOpen (poll : EfPoll P K) (s : P × (Nat → Bool)) (cs : List (PollCall K)) : Prop :=
  Lib.Permits (PollCall.step poll) (fun s c => c.addsOpen s = true) s cs

theorem addsOpen_accept {li fd socket : Nat} {nonblock : Bool} {fresh : Option Nat} {ok : Bool}
    (ho : rt.owner socket = none) (hok : (!ok || rt.isOpen fd) = true) :
    AddsOpen poll rt.polled (rt.acceptCalls li fd socket nonblock fresh ok) := by
  have hopened : (!ok || Function.update rt.isOpen socket true fd) = true := by
    by_cases he : fd = socket
    · rw [he, Function.update_self, Bool.or_true]
    · rw [Function.update_of_ne he]
      exact hok
  unfold acceptCalls
  split
  · split
    · refine ⟨rfl, fun s₁ h₁ => ⟨rfl, fun s₂ h₂ => ⟨?_, fun _ _ => trivial⟩⟩⟩
      cases h₁
      cases h₂
      have hne : rt.isOpen fd = true → fd ≠ socket := by
        rintro hfd rfl
        unfold isOpen at hfd
        rw [ho] at hfd
        cases hfd
      unfold PollCall.addsOpen
      rw [PollCall.closed_snd]
      change (!ok || Function.update (Function.update rt.isOpen socket true) socket false fd) = true
      cases hfd : rt.isOpen fd with
      | false =>
          rw [hfd, Bool.or_false] at hok
          rw [hok, Bool.true_or]
      | true =>
          rw [Function.update_of_ne (hne hfd), Function.update_of_ne (hne hfd), hfd, Bool.or_true]
    · exact ⟨rfl, fun _ _ => trivial⟩
  · refine ⟨rfl, fun s₁ h₁ => ⟨?_, fun _ _ => trivial⟩⟩
    cases h₁
    exact hopened

theorem addsOpen_loopCalls (hg : rt.addsOpen a = true) (hs : loopStep poll rt a = some rt') :
    AddsOpen poll rt.polled (rt.loopCalls a) := by
  cases a with
  | associate ok =>
      unfold loopCalls
      dsimp only
      split
      next li rest hp =>
        cases li.fd with
        | none => trivial
        | some fd =>
            refine ⟨?_, fun _ _ => trivial⟩
            change (!(ok && rt.isOpen fd) || rt.isOpen fd) = true
            cases rt.isOpen fd <;> simp
      · trivial
  | wait report => exact ⟨rfl, fun _ _ => trivial⟩
  | acceptEnd ok =>
      unfold loopCalls
      dsimp only
      split
      next li evts hp =>
        unfold addsOpen accepting at hg
        dsimp only at hg
        rw [hp] at hg
        dsimp only at hg
        cases hfd : rt.listenerFd li with
        | none => trivial
        | some fd =>
            rw [hfd] at hg
            refine ⟨rfl, fun s₁ h₁ => ⟨?_, fun _ _ => trivial⟩⟩
            cases h₁
            exact hg
      · trivial
  | accept socket nonblock fresh ok =>
      obtain ⟨li, evts, info, fd, hp, hinfo, hfd, ho, _⟩ := acceptSocket_cases hs
      have hlisten : rt.listenerFd li = some fd := by
        unfold listenerFd
        rw [hinfo]
        exact hfd
      unfold addsOpen accepting at hg
      unfold loopCalls
      dsimp only at hg ⊢
      rw [hp] at hg ⊢
      dsimp only at hg ⊢
      rw [hlisten] at hg ⊢
      have hcalls : AddsOpen poll rt.polled (rt.acceptCalls li fd socket nonblock fresh ok) :=
        addsOpen_accept ho hg
      simpa using hcalls
  | queue fresh =>
      refine .of_forall (fun c hc s => ?_) _
      obtain ⟨fd, _, rfl⟩ := List.mem_map.mp hc
      rfl
  | exitQueue del idleStop idle =>
      unfold loopCalls
      dsimp only
      split
      · refine .of_forall (fun c hc s => ?_) _
        obtain ⟨fd, _, hc⟩ := List.mem_flatMap.mp hc
        rcases List.mem_pair.mp hc with rfl | rfl <;> rfl
      · trivial
  | _ => trivial

theorem addsOpen_routineCalls (rt : Runtime P) (er : Nat) (a : Act K) :
    AddsOpen poll rt.polled (rt.routineCalls er a) := by
  have hone : ∀ (fd events : Nat) (ok : Bool), AddsOpen poll rt.polled
      [.associate fd events (.routine er) false (ok && rt.isOpen fd)] := by
    intro fd events ok
    refine ⟨?_, fun _ _ => trivial⟩
    change (!(ok && rt.isOpen fd) || rt.isOpen fd) = true
    cases rt.isOpen fd <;> simp
  unfold routineCalls
  split
  · exact hone _ _ _
  · exact hone _ _ _
  · exact ⟨rfl, fun _ _ => trivial⟩
  · refine ⟨?_, fun _ _ => trivial⟩
    split <;> rfl
  · exact ⟨rfl, fun _ _ => trivial⟩
  · exact ⟨rfl, fun _ _ => trivial⟩
  · exact ⟨rfl, fun _ _ => trivial⟩
  · trivial

theorem addsOpen_calls (hg : rt.addsOpen a = true) (hs : step poll rt a = some rt') :
    AddsOpen poll rt.polled (rt.calls a) := by
  unfold Runtime.step at hs
  split at hs
  · trivial
  next hstop hcur =>
    rw [calls_of_loop hstop hcur]
    exact addsOpen_loopCalls hg hs
  next _ er hstop hcur =>
    rw [calls_of_routine hstop hcur]
    exact addsOpen_routineCalls rt _ _

/-! ## Listeners -/

theorem listenerFd_mem {li fd : Nat} (h : rt.listenerFd li = some fd) : fd ∈ rt.listenFds := by
  obtain ⟨info, hinfo, hfd⟩ := Option.bind_eq_some_iff.mp h
  exact List.mem_filterMap.mpr ⟨info, (findListen_spec hinfo).1, hfd⟩

theorem listenFds_setQueue (rt : Runtime P) (id : Nat) (f : List QueueFd → List QueueFd) :
    (rt.setQueue id f).listenFds = rt.listenFds := by
  unfold listenFds setQueue
  rw [List.filterMap_map]
  refine List.filterMap_congr (fun li _ => ?_)
  simp only [Function.comp_apply]
  split <;> rfl

theorem listenFds_closeListeners (poll : EfPoll P K) (del : Nat → Bool) (rt : Runtime P) :
    (closeListeners poll del rt).listenFds = [] ∧
      ∀ fd ∈ rt.listenFds, (closeListeners poll del rt).isOpen fd = false := by
  rw [closeListeners_eq]
  refine ⟨List.filterMap_eq_nil_iff.mpr (fun li hli => ?_), fun fd hfd => ?_⟩
  · obtain ⟨li', hli', hid, _, ⟨_, hfd, _⟩ | ⟨hnot, _⟩⟩ := mem_closedList hli
    · exact hfd
    · exact absurd (hid ▸ List.mem_map_of_mem hli') hnot
  · unfold isOpen
    dsimp only
    rw [foldl_closeFd_owner]
    exact congrArg Option.isSome (if_pos hfd)

theorem exitQueue_listenFds (hst : rt.stopping = true) {del idleStop idle : Nat → Bool}
    (hs : rt.exitQueue poll del idleStop idle = some rt') : rt'.listenFds = [] := by
  obtain ⟨_, ⟨hno, _⟩ | ⟨_, _, rfl⟩ | ⟨_, _, rfl⟩⟩ := exitQueue_cases hs
  · cases hst.symm.trans hno
  · exact (listenFds_closeListeners poll _ rt).1
  · exact (listenFds_closeListeners poll _ rt).1

/-- A step leaves the listeners, or closes all of them. -/
theorem step_listenFds (hs : step poll rt a = some rt') :
    rt'.listenFds = rt.listenFds ∨
      (rt'.listenFds = [] ∧ ∀ fd ∈ rt.listenFds, rt'.isOpen fd = false) := by
  unfold Runtime.step at hs
  split at hs
  · cases hs
    exact Or.inl rfl
  next hcur =>
    unfold loopStep at hs
    split at hs
    · rcases associateListener_cases hs with ⟨_, rfl⟩ | ⟨_, _, _, _, rfl⟩ |
        ⟨_, _, _, _, _, _, _, _, ⟨_, rfl⟩ | ⟨_, rfl⟩⟩ <;> exact Or.inl rfl
    · obtain ⟨_, _, _, _, rfl⟩ := pollWait_cases hs
      exact Or.inl rfl
    · obtain ⟨_, rfl | rfl⟩ := pollWaitFailed_cases hs <;> exact Or.inl rfl
    · rcases nextEvent_cases hs with ⟨_, rfl⟩ | ⟨_, _, _, _, _, rfl⟩ |
        ⟨_, _, _, _, _, ⟨_, rfl⟩ | ⟨_, _, _, rfl⟩⟩ <;> exact Or.inl rfl
    · obtain ⟨_, _, _, rfl⟩ := acceptFailed_cases hs
      exact Or.inl rfl
    · obtain ⟨_, _, _, _, _, _, _, rfl⟩ := acceptEnd_cases hs
      exact Or.inl rfl
    next socket _ _ _ _ =>
      obtain ⟨li, _, _, _, _, _, _, _, ⟨_, rfl⟩ | ⟨_, _, rfl⟩ | ⟨node, _, _, _, rfl⟩⟩ :=
        acceptSocket_cases hs
      · exact Or.inl rfl
      · exact Or.inl rfl
      · exact Or.inl (listenFds_setQueue rt li (fun qfs => qfs ++ [QueueFd.mk node socket]))
    · rcases nextQueued_cases hs with ⟨_, rfl⟩ | ⟨_, _, _, _, _, ⟨_, rfl⟩ |
        ⟨_, _, _, _, ⟨_, rfl⟩ | ⟨_, _, rfl⟩⟩⟩ <;> exact Or.inl rfl
    · obtain ⟨qf, id, _, _, rfl⟩ := queuedStarted_cases hs
      exact Or.inl (listenFds_setQueue rt id (fun qfs => qfs.erase qf))
    · obtain ⟨_, ⟨_, rfl⟩ | ⟨_, _, rfl⟩ | ⟨_, _, rfl⟩⟩ := exitQueue_cases hs
      · exact Or.inl rfl
      · exact Or.inr (listenFds_closeListeners poll _ rt)
      · exact Or.inr (listenFds_closeListeners poll _ rt)
    · cases hs
  next =>
    refine Or.inl ?_
    rcases routineStep_cases hs with ⟨_, _, _, rfl, _⟩ | ⟨_, _, _, rfl⟩ | ⟨_, _, _, _, _, rfl⟩ |
      ⟨_, _, _, rfl⟩ <;> rfl

/-! ## Before an `unset` -/

theorem permits_unset {guard : P × (Nat → Bool) → PollCall K → Prop} (rt : Runtime P) (a : Act K)
    (hother : ∀ s c, c.isUnset = false → guard s c)
    (hagain : ∀ er c retval, (rt.routines er).pc = .again c retval →
      guard rt.polled (.unset c.fd c.unsetEvents))
    (haccept : ∀ li evts fd, rt.phase = .acceptEnd li evts → rt.listenerFd li = some fd →
      guard rt.polled (.unset fd efPollin)) :
    Lib.Permits (PollCall.step poll) guard rt.polled (rt.calls a) := by
  have hone : ∀ s c, c.isUnset = false → Lib.Permits (PollCall.step poll) guard s [c] :=
    fun s c hc => ⟨hother s c hc, fun _ _ => trivial⟩
  unfold calls
  split
  · trivial
  · unfold loopCalls
    split
    · split
      next li _ _ =>
        refine .of_forall (fun c hc s => hother s c ?_) _
        obtain ⟨fd, _, rfl⟩ := List.mem_map.mp hc
        rfl
      · trivial
    · exact hone _ _ rfl
    · split
      next li evts hp =>
        cases hfd : rt.listenerFd li with
        | none => trivial
        | some fd =>
            exact ⟨haccept li evts fd hp hfd, fun s _ => hone s _ rfl⟩
      · trivial
    · split
      · refine .of_forall (fun c hc s => hother s c ?_) _
        obtain ⟨fd, _, hc⟩ := List.mem_flatMap.mp hc
        unfold acceptCalls at hc
        split at hc
        · split at hc
          · simp only [List.mem_cons, List.not_mem_nil, or_false] at hc
            rcases hc with rfl | rfl | rfl <;> rfl
          · obtain rfl := List.mem_singleton.mp hc
            rfl
        · rcases List.mem_pair.mp hc with rfl | rfl <;> rfl
      · trivial
    · refine .of_forall (fun c hc s => hother s c ?_) _
      obtain ⟨fd, _, rfl⟩ := List.mem_map.mp hc
      rfl
    · split
      · refine .of_forall (fun c hc s => hother s c ?_) _
        obtain ⟨fd, _, hc⟩ := List.mem_flatMap.mp hc
        rcases List.mem_pair.mp hc with rfl | rfl <;> rfl
      · trivial
    · trivial
  next er _ _ =>
    unfold routineCalls
    split
    · exact hone _ _ rfl
    · exact hone _ _ rfl
    · exact hone _ _ rfl
    · refine hone _ _ ?_
      split <;> rfl
    · exact hone _ _ rfl
    next c retval hpc _ => exact ⟨hagain er c retval hpc, fun _ _ => trivial⟩
    · exact hone _ _ rfl
    · trivial

theorem loopStep_routines (hs : loopStep poll rt a = some rt') (er : Nat) :
    rt'.routines er = rt.routines er ∨
      (∃ c retval events, (rt.routines er).pc = .waiting c retval ∧
        rt'.routines er = { rt.routines er with pc := .woken c retval events }) ∨
      ∃ fd, rt'.routines er = ⟨fd, fd, .user 0 0⟩ ∧ rt'.owner fd = some (.routine er) := by
  unfold loopStep at hs
  split at hs
  · rcases associateListener_cases hs with ⟨_, rfl⟩ | ⟨_, _, _, _, rfl⟩ |
      ⟨_, _, _, _, _, _, _, _, ⟨_, rfl⟩ | ⟨_, rfl⟩⟩ <;> exact Or.inl rfl
  · obtain ⟨_, _, _, _, rfl⟩ := pollWait_cases hs
    exact Or.inl rfl
  · obtain ⟨_, rfl | rfl⟩ := pollWaitFailed_cases hs <;> exact Or.inl rfl
  · rcases nextEvent_cases hs with ⟨_, rfl⟩ | ⟨_, _, _, _, _, rfl⟩ |
      ⟨e, _, er', _, _, ⟨_, rfl⟩ | ⟨c, retval, hpc, rfl⟩⟩
    · exact Or.inl rfl
    · exact Or.inl rfl
    · exact Or.inl rfl
    · by_cases he : er = er'
      · subst he
        exact Or.inr (Or.inl ⟨c, retval, e.events, hpc,
          Function.update_self _ _ _⟩)
      · exact Or.inl (Function.update_of_ne he _ _)
  · obtain ⟨_, _, _, rfl⟩ := acceptFailed_cases hs
    exact Or.inl rfl
  · obtain ⟨_, _, _, _, _, _, _, rfl⟩ := acceptEnd_cases hs
    exact Or.inl rfl
  · obtain ⟨_, _, _, _, _, _, _, _, ⟨_, rfl⟩ | ⟨_, _, rfl⟩ | ⟨_, _, _, _, rfl⟩⟩ :=
      acceptSocket_cases hs <;> exact Or.inl rfl
  · rcases nextQueued_cases hs with ⟨_, rfl⟩ | ⟨_, _, _, _, _, ⟨_, rfl⟩ |
      ⟨qf, _, _, _, ⟨_, rfl⟩ | ⟨er', _, rfl⟩⟩⟩
    · exact Or.inl rfl
    · exact Or.inl rfl
    · exact Or.inl rfl
    · by_cases he : er = er'
      · subst he
        exact Or.inr (Or.inr ⟨qf.fd, Function.update_self _ _ _, Function.update_self _ _ _⟩)
      · exact Or.inl (Function.update_of_ne he _ _)
  · obtain ⟨_, _, _, _, rfl⟩ := queuedStarted_cases hs
    exact Or.inl rfl
  · have hclose : ∀ del, (closeListeners poll del rt).routines = rt.routines := fun del => by
      rw [closeListeners_eq]
    obtain ⟨_, ⟨_, rfl⟩ | ⟨_, _, rfl⟩ | ⟨_, _, rfl⟩⟩ := exitQueue_cases hs
    · exact Or.inl rfl
    · exact Or.inl (congrFun (hclose _) er)
    · exact Or.inl (congrFun (hclose _) er)
  · cases hs

theorem routineStep_current (hs : routineStep poll rt er a = some rt') :
    rt'.current = rt.current ∨ rt'.current = none := by
  rcases routineStep_cases hs with ⟨_, _, _, rfl, _, _, ⟨_, hc⟩ | ⟨_, hc⟩⟩ | ⟨_, _, _, rfl⟩ |
    ⟨_, _, _, _, _, rfl⟩ | ⟨_, _, _, rfl⟩
  · exact Or.inl hc
  · exact Or.inr hc
  · exact Or.inl rfl
  · exact Or.inl rfl
  · exact Or.inr rfl

theorem routineStep_again {c : Call} {retval : Int} (hs : routineStep poll rt er a = some rt')
    (hpc : (rt'.routines er).pc = .again c retval) :
    rt'.polled = rt.polled ∧ (rt.routines er).pc = .ready c ∧ retval < 0 ∧
      a = .transferred retval eagain := by
  have hset : ∀ r : Routine, Function.update rt.routines er r er = r :=
    fun r => Function.update_self _ _ _
  unfold routineStep at hs
  split at hs
  next w fd ok errno _ =>
    cases hs
    obtain ⟨r, hr⟩ : ∃ r, poll.associate rt.p fd w.transfer.interest (.routine er) false
        (ok && rt.isOpen fd) = r := ⟨_, rfl⟩
    obtain ⟨pc, current, he, hcase⟩ := startTransfer_spec hr errno
    rw [he] at hpc
    rcases hcase with ⟨_, rfl, _⟩ | ⟨_, rfl, _⟩ | ⟨_, rfl, _⟩ <;>
      cases (congrArg Routine.pc (hset _)).symm.trans hpc
  next fd answer _ =>
    cases hs
    cases answer with
    | failed errno => simp [startConnect, setPc] at hpc
    | connected retval errno => simp [startConnect, setPc] at hpc
    | inProgress ok errno =>
        obtain ⟨r, hr⟩ : ∃ r, poll.associate rt.p fd efPollout (.routine er) false
            (ok && rt.isOpen fd) = r := ⟨_, rfl⟩
        obtain ⟨pc, current, he, hcase⟩ := startConnect_spec hr errno
        rw [he] at hpc
        rcases hcase with ⟨_, rfl, _⟩ | ⟨_, rfl, _⟩ <;>
          cases (congrArg Routine.pc (hset _)).symm.trans hpc
  next fd hu =>
    split at hs
    · cases hs
    · cases hs
      cases hu.symm.trans hpc
  next fd wrapped ok hu =>
    have hsame : rt'.routines = rt.routines := by
      cases hs
      split
      · obtain ⟨p, he⟩ := efRoutineClose_owner poll rt fd ok
        rw [he]
      · obtain ⟨p, he⟩ := close_owner poll rt fd
        rw [he]
    rw [hsame] at hpc
    cases hu.symm.trans hpc
  next ok _ =>
    cases hs
    simp [endProc, yields, setPc] at hpc
  next c' retval' events error _ =>
    cases hs
    have hpc := (congrArg Routine.pc (hset _)).symm.trans hpc
    dsimp only at hpc
    unfold afterYield at hpc
    split at hpc
    all_goals
      split at hpc
      · cases hpc
      · split at hpc <;> cases hpc
  next c' retval' errno hr =>
    cases hs
    have hpc := (congrArg Routine.pc (hset _)).symm.trans hpc
    dsimp only at hpc
    unfold afterTransfer at hpc
    split at hpc
    next hblock =>
      cases hpc
      obtain ⟨hneg, rfl⟩ := hblock
      exact ⟨rfl, hr, hneg, rfl⟩
    · split at hpc <;> cases hpc
  next c' retval' _ =>
    cases hs
    cases (congrArg Routine.pc (hset _)).symm.trans hpc
  next c' retval' errno ok _ =>
    cases hs
    cases (congrArg Routine.pc (hset _)).symm.trans hpc
  next => cases hs

/-- A routine comes to its `unset` by a transfer that would block, and nothing is called before
it goes on. -/
theorem step_again (hb : Base rt) {c : Call} {retval : Int} (hs : step poll rt a = some rt')
    (hpc : (rt'.routines er).pc = .again c retval) :
    rt'.polled = rt.polled ∧ ((rt.routines er).pc = .again c retval ∨
      (rt.current = some er ∧ (rt.routines er).pc = .ready c ∧ retval < 0 ∧
        a = .transferred retval eagain)) := by
  have hrun : (rt'.routines er).pc.Running := by
    rw [hpc]
    trivial
  have hcur' := ((hb.step hs).running er).mp hrun
  unfold Runtime.step at hs
  split at hs
  · cases hs
    exact ⟨rfl, Or.inl hpc⟩
  next hcur =>
    rcases loopStep_routines hs er with he | ⟨_, _, _, _, he⟩ | ⟨_, he, _⟩
    · rw [he] at hrun
      exact absurd hrun (hb.not_running hcur er)
    · rw [he] at hpc
      cases hpc
    · rw [he] at hpc
      cases hpc
  next _ er' _ hcur =>
    have he : er' = er := by
      rcases routineStep_current hs with he | he
      · rw [he, hcur] at hcur'
        exact Option.some.inj hcur'
      · rw [he] at hcur'
        cases hcur'
    subst he
    obtain ⟨hp, hr, hneg, ha⟩ := routineStep_again hs hpc
    exact ⟨hp, Or.inr ⟨hcur, hr, hneg, ha⟩⟩

theorem step_acceptEnd {li : Nat} {evts : List Event} (hs : step poll rt a = some rt')
    (hp : rt'.phase = .acceptEnd li evts) :
    (rt.phase = .acceptEnd li evts ∧ (rt.current ≠ none ∨
      (rt'.current = none ∧ rt'.polled = rt.polled ∧ rt'.listenList = rt.listenList))) ∨
    (rt.current = none ∧ a = .acceptFailed ∧ rt.phase = .accept li evts ∧
      rt' = { rt with phase := .acceptEnd li evts }) := by
  unfold Runtime.step at hs
  split at hs
  · cases hs
    by_cases hcur : rt.current = none
    · exact Or.inl ⟨hp, Or.inr ⟨hcur, rfl, rfl⟩⟩
    · exact Or.inl ⟨hp, Or.inl hcur⟩
  next hcur =>
    unfold loopStep at hs
    split at hs
    · rcases associateListener_cases hs with ⟨_, rfl⟩ | ⟨_, _, _, _, rfl⟩ |
        ⟨_, _, _, _, _, _, _, _, ⟨_, rfl⟩ | ⟨_, rfl⟩⟩ <;> cases hp
    · obtain ⟨_, _, _, _, rfl⟩ := pollWait_cases hs
      cases hp
    · obtain ⟨_, rfl | rfl⟩ := pollWaitFailed_cases hs <;> cases hp
    · rcases nextEvent_cases hs with ⟨_, rfl⟩ | ⟨_, _, _, _, _, rfl⟩ |
        ⟨_, _, _, _, _, ⟨_, rfl⟩ | ⟨_, _, _, rfl⟩⟩ <;> cases hp
    · obtain ⟨_, _, hacc, rfl⟩ := acceptFailed_cases hs
      cases hp
      exact Or.inr ⟨hcur, rfl, hacc, rfl⟩
    · obtain ⟨_, _, _, _, _, _, _, rfl⟩ := acceptEnd_cases hs
      cases hp
    · obtain ⟨_, _, _, _, hacc, _, _, _, ⟨_, rfl⟩ | ⟨_, _, rfl⟩ | ⟨_, _, _, _, rfl⟩⟩ :=
        acceptSocket_cases hs
      · cases hp
      · cases hp
      · cases hacc.symm.trans hp
    · rcases nextQueued_cases hs with ⟨_, rfl⟩ | ⟨_, _, _, _, _, ⟨_, rfl⟩ |
        ⟨_, _, _, _, ⟨_, rfl⟩ | ⟨_, _, rfl⟩⟩⟩ <;> cases hp
    · obtain ⟨_, _, _, _, rfl⟩ := queuedStarted_cases hs
      cases hp
    · obtain ⟨_, ⟨_, rfl⟩ | ⟨_, _, rfl⟩ | ⟨_, _, rfl⟩⟩ := exitQueue_cases hs <;> cases hp
    · cases hs
  next er' _ hcur =>
    have hphase : rt'.phase = rt.phase := by
      rcases routineStep_cases hs with ⟨_, _, _, rfl, _⟩ | ⟨_, _, _, rfl⟩ | ⟨_, _, _, _, _, rfl⟩ |
        ⟨_, _, _, rfl⟩ <;> rfl
    refine Or.inl ⟨hphase.symm.trans hp, Or.inl ?_⟩
    rw [hcur]
    exact Option.some_ne_none _

end Runtime

end EFramework
