import EFramework.Runtime.Coroutine
import EFramework.Runtime.Poll

/-! # The event loop of `framework.c`

One thread runs either the loop or the routine it has resumed last, so a state is
the memory of the runtime, the place where the loop is, and for each routine the
place where it is in one of the wrappers. Each action is a piece of code without
a switch of control, together with the answers of the kernel that it gets.

What a routine does between two calls is up to it. The map `owner` of the open
descriptors is not part of the program: it says who has made or accepted each.
-/

namespace EFramework

/-! ## Wrappers -/

/-- What tells the wrappers of the transfers apart: the events awaited, those taken for
an error, those taken for readiness, and those unset when the transfer would block. -/
structure Transfer where
  interest : Nat
  failed : Nat
  ready : Nat
  unset : Nat
deriving Repr, DecidableEq

def efRoutineRead : Transfer :=
  ⟨efPollin, efPollerr, efPollin ||| efPollhup, efPollin ||| efPollhup⟩

def efRoutineWrite : Transfer :=
  ⟨efPollout, efPollerr ||| efPollhup, efPollout, efPollout⟩

def efRoutineRecv : Transfer :=
  ⟨efPollin, efPollerr, efPollin ||| efPollhup, efPollin ||| efPollhup⟩

def efRoutineSend : Transfer :=
  ⟨efPollout, efPollerr ||| efPollhup, efPollout, efPollout⟩

inductive Wrapper where
  | read
  | write
  | recv
  | send
deriving Repr, DecidableEq

def Wrapper.transfer : Wrapper → Transfer
  | .read => efRoutineRead
  | .write => efRoutineWrite
  | .recv => efRoutineRecv
  | .send => efRoutineSend

inductive Call where
  | transfer (w : Wrapper) (fd : Nat)
  | connect (fd : Nat)
deriving Repr, DecidableEq

def Call.fd : Call → Nat
  | .transfer _ fd | .connect fd => fd

/-- The events unset when a transfer would block; `connect` unsets none. -/
def Call.unsetEvents : Call → Nat
  | .transfer w _ => w.transfer.unset
  | .connect _ => 0

/-- Where a routine is. The number with a call is `retval`. -/
inductive Pc where
  /-- In its procedure, with what the last call returned and `errno`. -/
  | user (retval : Int) (errno : Nat)
  /-- In `ef_fiber_yield`. -/
  | waiting (c : Call) (retval : Int)
  /-- Resumed with `events`. -/
  | woken (c : Call) (retval : Int) (events : Nat)
  /-- At the label `ready`. -/
  | ready (c : Call)
  /-- The transfer would block. -/
  | again (c : Call) (retval : Int)
  /-- Before the call of `dissociate`. -/
  | done (c : Call) (retval : Int) (errno : Nat)
  | exited
deriving Repr, DecidableEq

/-- `ef_routine_t`: `poll_data.fd`, and the local `fd` of `ef_proc`. -/
structure Routine where
  fd : Nat
  procFd : Nat
  pc : Pc
deriving Repr, DecidableEq

/-! ## The runtime -/

structure QueueFd where
  node : Nat
  fd : Nat
deriving Repr, DecidableEq

/-- `ef_listen_info_t`, with `none` for a closed descriptor -1. -/
structure ListenInfo where
  id : Nat
  fd : Option Nat
  fdList : List QueueFd
deriving Repr, DecidableEq

inductive Owner where
  | listener
  | queued (node : Nat)
  | routine (er : Nat)
  | other
deriving Repr, DecidableEq

inductive Phase where
  /-- Associating the listeners. -/
  | associate (rest : List ListenInfo)
  | wait
  /-- Before the next event of a batch. -/
  | events (evts : List Event)
  /-- Accepting on a listener. -/
  | accept (li : Nat) (evts : List Event)
  /-- Behind an `accept` that has failed. -/
  | acceptEnd (li : Nat) (evts : List Event)
  /-- At the queue of the first of the listeners left. -/
  | queue (lis : List Nat)
  /-- In `ef_routine_run` for a queued descriptor. -/
  | started (qf : QueueFd) (lis : List Nat)
  | exitQueue
  | returned (ret : Int)
deriving Repr, DecidableEq

structure Runtime (P : Type) where
  p : P
  stopping : Bool
  countPerShrink : Int
  coPool : CoroutinePool
  listenList : List ListenInfo
  freeFdList : List Nat
  routines : Nat → Routine
  /-- The routine that runs, if it is not the loop. -/
  current : Option Nat
  phase : Phase
  owner : Nat → Option Owner

namespace Runtime

variable {P K : Type}

def setPc (rt : Runtime P) (er : Nat) (pc : Pc) : Runtime P :=
  { rt with routines := Function.update rt.routines er { rt.routines er with pc := pc } }

def yields (rt : Runtime P) (er : Nat) (pc : Pc) : Runtime P :=
  { rt.setPc er pc with current := none }

def isOpen (rt : Runtime P) (fd : Nat) : Bool := (rt.owner fd).isSome

/-- `close`, which does nothing for a descriptor that is not open. -/
def close (poll : EfPoll P K) (rt : Runtime P) (fd : Nat) : Runtime P :=
  if rt.isOpen fd then
    { rt with owner := Function.update rt.owner fd none, p := poll.closed rt.p fd }
  else rt

def efRoutineClose (poll : EfPoll P K) (rt : Runtime P) (fd : Nat) (ok : Bool) : Runtime P :=
  close poll { rt with p := (poll.dissociate rt.p fd false true ok).2 } fd

def nodes (rt : Runtime P) : List Nat :=
  rt.listenList.flatMap (fun li => li.fdList.map QueueFd.node) ++ rt.freeFdList

def findListen (rt : Runtime P) (id : Nat) : Option ListenInfo :=
  rt.listenList.find? (fun li => li.id == id)

def setQueue (rt : Runtime P) (id : Nat) (f : List QueueFd → List QueueFd) : Runtime P :=
  { rt with
    listenList := rt.listenList.map
      (fun li => if li.id = id then { li with fdList := f li.fdList } else li) }

/-! ## The loop -/

/-- The first loop of `ef_run_loop`. -/
def associateListener (poll : EfPoll P K) (rt : Runtime P) (ok : Bool) : Option (Runtime P) :=
  match rt.phase with
  | .associate [] => some { rt with phase := .wait }
  | .associate (li :: rest) =>
      match li.fd with
      | none => some { rt with phase := .returned (-1) }
      | some fd =>
          let (ret, p) := poll.associate rt.p fd efPollin (.listen li.id) false (ok && rt.isOpen fd)
          some { rt with p := p, phase := if ret < 0 then .returned ret else .associate rest }
  | _ => none

def pollWait (poll : EfPoll P K) (rt : Runtime P) (report : K) : Option (Runtime P) :=
  match rt.phase with
  | .wait => (poll.wait rt.p report).map (fun r => { rt with p := r.2, phase := .events r.1 })
  | _ => none

def pollWaitFailed (rt : Runtime P) (errno : Nat) : Option (Runtime P) :=
  match rt.phase with
  | .wait => some { rt with phase := if errno = eintr then .events [] else .returned (-1) }
  | _ => none

/-- Up to the switch of control. A coroutine that runs is never resumed. -/
def efCoroutineResume (rt : Runtime P) (er : Nat) (toYield : Nat) : Option (Runtime P) :=
  match (rt.routines er).pc with
  | .waiting c retval => some { rt.setPc er (.woken c retval toYield) with current := some er }
  | .exited => some rt
  | _ => none

/-- The `for` loop over a batch. -/
def nextEvent (rt : Runtime P) : Option (Runtime P) :=
  match rt.phase with
  | .events [] => some { rt with phase := .queue (rt.listenList.map ListenInfo.id) }
  | .events (e :: evts) =>
      match e.ptr with
      | .listen li => some { rt with phase := .accept li evts }
      | .routine er => efCoroutineResume { rt with phase := .events evts } er e.events
  | _ => none

def reassociate (poll : EfPoll P K) (rt : Runtime P) (li fd : Nat) (evts : List Event) (ok : Bool) :
    Runtime P :=
  { rt with
    p := (poll.associate rt.p fd efPollin (.listen li) true ok).2
    phase := .events evts }

def acceptFailed (rt : Runtime P) : Option (Runtime P) :=
  match rt.phase with
  | .accept li evts => some { rt with phase := .acceptEnd li evts }
  | _ => none

def acceptEnd (poll : EfPoll P K) (rt : Runtime P) (ok : Bool) : Option (Runtime P) :=
  match rt.phase with
  | .acceptEnd li evts => do
      let info ← rt.findListen li
      let fd ← info.fd
      let p := (poll.unset rt.p fd efPollin).2
      some (reassociate poll { rt with p := p } li fd evts ok)
  | _ => none

/-- The node that `ef_queue_fd` takes. The outer `none` is a block that is in use. -/
def takeNode (rt : Runtime P) (fresh : Option Nat) : Option (Option Nat × Runtime P) :=
  match rt.freeFdList with
  | node :: rest => some (some node, { rt with freeFdList := rest })
  | [] =>
      match fresh with
      | none => some (none, rt)
      | some node => if node ∈ rt.nodes then none else some (some node, rt)

/-- A successful `accept` and `ef_queue_fd`: whether the socket is or becomes non-blocking, and
what `malloc` returns. -/
def acceptSocket (poll : EfPoll P K) (rt : Runtime P) (socket : Nat) (nonblock : Bool)
    (fresh : Option Nat) (ok : Bool) : Option (Runtime P) :=
  match rt.phase with
  | .accept li evts => do
      let info ← rt.findListen li
      let fd ← info.fd
      if rt.isOpen socket then none
      else
        let rt := { rt with owner := Function.update rt.owner socket (some .other) }
        if nonblock then do
          let (node, rt) ← rt.takeNode fresh
          match node with
          | none => some (reassociate poll (close poll rt socket) li fd evts ok)
          | some node =>
              some { rt.setQueue li (fun qfs => qfs ++ [⟨node, socket⟩]) with
                owner := Function.update rt.owner socket (some (.queued node)) }
        else some (reassociate poll rt li fd evts ok)
  | _ => none

/-- `ef_routine_run`, up to the switch of control to the new routine. -/
def efRoutineRun (rt : Runtime P) (qf : QueueFd) (lis : List Nat) (fresh : Option Nat) :
    Option (Runtime P) := do
  let (co, pool) ← efCoroutineCreate rt.coPool fresh
  match co with
  | none => some { rt with coPool := pool, phase := .exitQueue }
  | some er =>
      some { rt with
        coPool := pool
        routines := Function.update rt.routines er ⟨qf.fd, qf.fd, .user 0 0⟩
        owner := Function.update rt.owner qf.fd (some (.routine er))
        current := some er
        phase := .started qf lis }

/-- The loops over the listeners and their queues. -/
def nextQueued (rt : Runtime P) (fresh : Option Nat) : Option (Runtime P) :=
  match rt.phase with
  | .queue [] => some { rt with phase := .exitQueue }
  | .queue (id :: lis) => do
      let info ← rt.findListen id
      match info.fdList with
      | [] => some { rt with phase := .queue lis }
      | qf :: _ => rt.efRoutineRun qf (id :: lis) fresh
  | _ => none

def queuedStarted (rt : Runtime P) : Option (Runtime P) :=
  match rt.phase with
  | .started qf (id :: lis) =>
      some { rt.setQueue id (fun qfs => qfs.erase qf) with
        freeFdList := qf.node :: rt.freeFdList
        phase := .queue (id :: lis) }
  | _ => none

/-- Close a listener, and free it when its queue is empty. -/
def closeListener (poll : EfPoll P K) (del : Nat → Bool) (rt : Runtime P) (li : ListenInfo) :
    Runtime P :=
  let rt :=
    match li.fd with
    | none => rt
    | some fd => close poll { rt with p := (poll.dissociate rt.p fd false false (del fd)).2 } fd
  { rt with
    listenList := rt.listenList.filterMap (fun l =>
      if l.id = li.id then if l.fdList = [] then none else some { l with fd := none } else some l) }

def closeListeners (poll : EfPoll P K) (del : Nat → Bool) (rt : Runtime P) : Runtime P :=
  { rt.listenList.foldl (closeListener poll del) rt with freeFdList := [] }

/-- The end of a round of `ef_run_loop` that goes on. -/
def endRound (rt : Runtime P) (idle : Nat → Bool) : Runtime P :=
  { rt with
    coPool :=
      if 0 < rt.coPool.freeCount ∧ rt.coPool.limitMin < rt.coPool.fullCount then
        efCoroutinePoolShrink rt.coPool idle rt.countPerShrink
      else rt.coPool
    phase := .wait }

/-- The code from `exit_queue` on. Two shrinks may look at the clock. -/
def exitQueue (poll : EfPoll P K) (rt : Runtime P) (del idleStop idle : Nat → Bool) :
    Option (Runtime P) :=
  match rt.phase with
  | .exitQueue =>
      if rt.stopping then
        let rt := closeListeners poll del rt
        let pool := rt.coPool
        if pool.freeCount = pool.fullCount then
          some { rt with
            coPool := efCoroutinePoolShrink pool idleStop (-pool.fullCount), phase := .returned 0 }
        else
          some (endRound
            { rt with coPool := efCoroutinePoolShrink pool idleStop (-pool.freeCount) } idle)
      else some (rt.endRound idle)
  | _ => none

/-! ## Routines -/

/-- The head of the four transfers, up to `ready` or the first yield. -/
def startTransfer (poll : EfPoll P K) (rt : Runtime P) (er : Nat) (w : Wrapper) (fd : Nat)
    (ok : Bool) (errno : Nat) : Runtime P :=
  let rt := { rt with routines := Function.update rt.routines er { rt.routines er with fd := fd } }
  let (retval, p) :=
    poll.associate rt.p fd w.transfer.interest (.routine er) false (ok && rt.isOpen fd)
  if retval < 0 then { rt.setPc er (.user retval errno) with p := p }
  else if 0 < retval then { rt.setPc er (.ready (.transfer w fd)) with p := p }
  else { rt.yields er (.waiting (.transfer w fd) retval) with p := p }

inductive ConnectAnswer where
  | failed (errno : Nat)
  | connected (retval : Int) (errno : Nat)
  | inProgress (ok : Bool) (errno : Nat)
deriving Repr, DecidableEq

def startConnect (poll : EfPoll P K) (rt : Runtime P) (er fd : Nat) (answer : ConnectAnswer) :
    Runtime P :=
  let rt := { rt with routines := Function.update rt.routines er { rt.routines er with fd := fd } }
  match answer with
  | .failed errno => rt.setPc er (.user (-1) errno)
  | .connected retval errno => rt.setPc er (.user retval errno)
  | .inProgress ok errno =>
      let (retval, p) := poll.associate rt.p fd efPollout (.routine er) false (ok && rt.isOpen fd)
      if retval < 0 then { rt.setPc er (.user retval errno) with p := p }
      else { rt.yields er (.waiting (.connect fd) retval) with p := p }

/-- The tests of `events` behind a yield. For `connect`, `error` is what `SO_ERROR` says. -/
def afterYield (c : Call) (retval : Int) (events : Nat) (error : Nat) : Pc :=
  match c with
  | .transfer w _ =>
      if events &&& w.transfer.failed ≠ 0 then .done c (-1) ebadf
      else if events &&& w.transfer.ready ≠ 0 then .ready c
      else .done c retval 0
  | .connect _ =>
      if events &&& (efPollerr ||| efPollhup) ≠ 0 then .done c (-1) ebadf
      else if events &&& efPollout ≠ 0 then .done c retval error
      else .done c retval 0

def afterTransfer (c : Call) (retval : Int) (errno : Nat) : Pc :=
  if retval < 0 ∧ errno = eagain then .again c retval
  else if retval < 0 then .done c retval errno
  else .done c retval 0

/-- The end of `ef_proc`, and of `ef_coroutine_resume` behind it. -/
def endProc (poll : EfPoll P K) (rt : Runtime P) (er : Nat) (ok : Bool) : Runtime P :=
  let rt := (efRoutineClose poll rt (rt.routines er).procFd ok).yields er .exited
  { rt with coPool := efCoroutineExited rt.coPool er }

/-! ## Steps -/

/-- A piece of the program with the answers it gets. The arguments `ok` and `del` are those of
the poller, `fresh` is an address, and `idle` says which coroutines are idle for long enough. -/
inductive Act (K : Type) where
  /-- The signal handler. -/
  | stop
  | associate (ok : Bool)
  | wait (report : K)
  | waitFailed (errno : Nat)
  | event
  | acceptFailed
  | acceptEnd (ok : Bool)
  | accept (socket : Nat) (nonblock : Bool) (fresh : Option Nat) (ok : Bool)
  | queue (fresh : Option Nat)
  | started
  | exitQueue (del idleStop idle : Nat → Bool)
  | transfer (w : Wrapper) (fd : Nat) (ok : Bool) (errno : Nat)
  | connect (fd : Nat) (answer : ConnectAnswer)
  | wake (error : Nat)
  | transferred (retval : Int) (errno : Nat)
  | unset
  | dissociate (ok : Bool)
  /-- A routine opens a descriptor of its own. -/
  | socket (fd : Nat)
  /-- `ef_routine_close`, or `close` itself. -/
  | close (fd : Nat) (wrapped ok : Bool)
  | endProc (ok : Bool)

def loopStep (poll : EfPoll P K) (rt : Runtime P) : Act K → Option (Runtime P)
  | .associate ok => rt.associateListener poll ok
  | .wait report => rt.pollWait poll report
  | .waitFailed errno => rt.pollWaitFailed errno
  | .event => rt.nextEvent
  | .acceptFailed => rt.acceptFailed
  | .acceptEnd ok => rt.acceptEnd poll ok
  | .accept socket nonblock fresh ok => rt.acceptSocket poll socket nonblock fresh ok
  | .queue fresh => rt.nextQueued fresh
  | .started => rt.queuedStarted
  | .exitQueue del idleStop idle => rt.exitQueue poll del idleStop idle
  | _ => none

/-- In its procedure a routine may do anything; in a wrapper there is one way on. -/
def routineStep (poll : EfPoll P K) (rt : Runtime P) (er : Nat) (a : Act K) : Option (Runtime P) :=
  match (rt.routines er).pc, a with
  | .user _ _, .transfer w fd ok errno => some (startTransfer poll rt er w fd ok errno)
  | .user _ _, .connect fd answer => some (startConnect poll rt er fd answer)
  | .user _ _, .socket fd =>
      if rt.isOpen fd then none
      else some { rt with owner := Function.update rt.owner fd (some (.routine er)) }
  | .user _ _, .close fd wrapped ok =>
      some (if wrapped then efRoutineClose poll rt fd ok else close poll rt fd)
  | .user _ _, .endProc ok => some (endProc poll rt er ok)
  | .woken c retval events, .wake error => some (rt.setPc er (afterYield c retval events error))
  | .ready c, .transferred retval errno => some (rt.setPc er (afterTransfer c retval errno))
  | .again c retval, .unset =>
      some { rt.yields er (.waiting c retval) with p := (poll.unset rt.p c.fd c.unsetEvents).2 }
  | .done c retval errno, .dissociate ok =>
      some { rt.setPc er (.user retval errno) with
        p := (poll.dissociate rt.p c.fd true false ok).2 }
  | _, _ => none

def step (poll : EfPoll P K) (rt : Runtime P) (a : Act K) : Option (Runtime P) :=
  match a, rt.current with
  | .stop, _ => some { rt with stopping := true }
  | a, none => loopStep poll rt a
  | a, some er => routineStep poll rt er a

/-- The routine that runs uses and closes descriptors of its own only, and leaves the accepted
one to `ef_proc`. -/
def usesOwn (rt : Runtime P) (a : Act K) : Bool :=
  match rt.current, a with
  | some er, .transfer _ fd _ _ => rt.owner fd = some (.routine er)
  | some er, .connect fd _ => rt.owner fd = some (.routine er)
  | some er, .close fd _ _ => rt.owner fd = some (.routine er) ∧ fd ≠ (rt.routines er).procFd
  | _, _ => true

/-- `ef_init` and calls of `ef_add_listen` over the poller `p` have led here. -/
structure Initial (p : P) (rt : Runtime P) : Prop where
  p : rt.p = p
  coPool : ∃ limitMin limitMax, rt.coPool = efCoroutinePoolInit limitMin limitMax
  freeFdList : rt.freeFdList = []
  listeners : ∀ li ∈ rt.listenList,
    li.fdList = [] ∧ ∃ fd, li.fd = some fd ∧ rt.owner fd = some .listener
  ids : (rt.listenList.map ListenInfo.id).Nodup
  routines : ∀ er, (rt.routines er).pc = .exited
  current : rt.current = none
  phase : rt.phase = .associate rt.listenList

/-- One listener on descriptor 3, with the poller on descriptor 4. -/
def oneListener (p : P) : Runtime P where
  p := p
  stopping := false
  countPerShrink := 16
  coPool := efCoroutinePoolInit 256 512
  listenList := [⟨100, some 3, []⟩]
  freeFdList := []
  routines := fun _ => ⟨0, 0, .exited⟩
  current := none
  phase := .associate [⟨100, some 3, []⟩]
  owner := fun fd => if fd = 3 then some .listener else if fd ≤ 4 then some .other else none

theorem oneListener_initial (p : P) : Initial p (oneListener p) where
  p := rfl
  coPool := ⟨256, 512, rfl⟩
  freeFdList := rfl
  listeners := fun li hli => by
    obtain rfl := List.mem_singleton.mp hli
    exact ⟨rfl, 3, rfl, rfl⟩
  ids := List.nodup_singleton 100
  routines := fun _ => rfl
  current := rfl
  phase := rfl

end Runtime

end EFramework
