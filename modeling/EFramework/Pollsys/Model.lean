import EFramework.Epollet.Model

/-! # The backend `poll.c`

The registered descriptors stand in `pfds`, which is what `poll` is given, and
`index` says where. Who is to be told is kept with the index.

The answers of `realloc` and of the kernel are arguments.
-/

namespace EFramework.Pollsys

open EFramework.Epollet (doubled)

/-- `pollfd_t`, with fields of type `short` as integers. -/
structure PollFd where
  fd : Nat
  events : Int
  revents : Int
deriving Repr, DecidableEq

/-- `ef_pollsys_t`: `index[fd].idx`, `pfds` and `nfds` are those of `Slots`, and `ptrs` is
`index[fd].ptr`, with `none` for -1. -/
structure EfPollsys extends Lib.Slots Nat PollFd where
  cap : Nat
  ptrs : Nat → Option PollPtr

structure PollEvent where
  events : Int
  ptr : Option PollPtr
deriving Repr, DecidableEq

/-- The conversion of an `int` to `short`. -/
def short (n : Int) : Int := n.bmod (2 ^ 16)

/-! ## Growing the arrays -/

structure Realloc where
  index : Bool
  pfds : Bool
deriving Repr, DecidableEq

/-- The index stays grown where `pfds` cannot be. -/
def efPollExpand (ep : EfPollsys) (fd : Nat) (mem : Realloc) : Int × EfPollsys :=
  if fd < ep.cap then (0, ep)
  else
    let cap := doubled fd (fd + 1) ep.cap
    if mem.index then
      let ep' := { ep with
        index := fun fd => if ep.cap ≤ fd ∧ fd < cap then -1 else ep.index fd
        ptrs := fun fd => if ep.cap ≤ fd ∧ fd < cap then none else ep.ptrs fd }
      if mem.pfds then (0, { ep' with cap := cap }) else (-1, ep')
    else (-1, ep)

/-! ## The functions of the poller -/

/-- The part of `ef_poll_associate` behind the test of `cap`. -/
def register (ep : EfPollsys) (fd : Nat) (events : Int) (ptr : PollPtr) : EfPollsys :=
  let idx := ep.index fd
  let slots :=
    if idx < 0 then
      ep.toSlots.push PollFd.fd { ep.items ep.used with fd := fd, events := short events }
    else ep.toSlots.set idx { ep.items idx with fd := fd, events := short events }
  { ep with toSlots := slots, ptrs := Function.update ep.ptrs fd (some ptr) }

def makeRoom (ep : EfPollsys) (fd : Nat) (mem : Realloc) : Int × EfPollsys :=
  if ep.cap ≤ fd then efPollExpand ep fd mem else (0, ep)

def efPollAssociate (ep : EfPollsys) (fd : Nat) (events : Int) (ptr : PollPtr) (fired : Bool)
    (mem : Realloc) : Int × EfPollsys :=
  if fired then (0, ep)
  else
    let (ret, ep) := makeRoom ep fd mem
    if ret < 0 then (-1, ep) else (0, register ep fd events ptr)

def efPollDissociate (ep : EfPollsys) (fd : Nat) (_fired _onclose : Bool) : Int × EfPollsys :=
  if ep.cap ≤ fd then (0, ep)
  else
    let idx := ep.index fd
    if idx < 0 then (0, ep)
    else (0, { ep with toSlots := (ep.toSlots.unlink fd).close PollFd.fd idx })

def efPollUnset (ep : EfPollsys) (_fd : Nat) (_events : Int) : Int × EfPollsys := (0, ep)

/-- What `poll` answers: an error, or the `revents` of each slot. -/
inductive PollAnswer where
  | failed
  | revents (revents : Int → Int)

def polled (ep : EfPollsys) (revents : Int → Int) : EfPollsys :=
  { ep with
    items := fun i =>
      if 0 ≤ i ∧ i < ep.used then { ep.items i with revents := revents i } else ep.items i }

/-- What `poll` returns: the number of slots with `revents`. -/
def pollRet (ep : EfPollsys) : Nat :=
  ((List.range ep.used.toNat).filter (fun i : Nat => (ep.items i).revents ≠ 0)).length

def event (ep : EfPollsys) (idx : Int) : PollEvent :=
  ⟨(ep.items idx).revents, ep.ptrs (ep.items idx).fd⟩

/-- The loop of `ef_poll_wait`, with `rest` slots to go. -/
def events (ep : EfPollsys) (count : Int) : Nat → Nat → Int → List PollEvent
  | 0, _, _ => []
  | rest + 1, idx, cnt =>
      if cnt < count then
        if (ep.items idx).revents ≠ 0 then event ep idx :: events ep count rest (idx + 1) (cnt + 1)
        else events ep count rest (idx + 1) cnt
      else []

/-- What is returned comes with the events. -/
def efPollWait (ep : EfPollsys) (count : Int) (answer : PollAnswer) :
    Int × List PollEvent × EfPollsys :=
  match answer with
  | .failed => (-1, [], ep)
  | .revents revents =>
      let ep := polled ep revents
      let ret := pollRet ep
      if ret = 0 then (0, [], ep)
      else
        let count := if ret < count then (ret : Int) else count
        let evts := events ep count ep.used.toNat 0 0
        (evts.length, evts, ep)

/-- What the arrays hold besides is up to `malloc`; `ok` says whether all calls succeed. -/
def efPollCreate (cap : Int) (index : Nat → Int) (ptrs : Nat → Option PollPtr)
    (pfds : Int → PollFd) (ok : Bool) : Option EfPollsys :=
  let cap := if cap < 128 then 128 else cap
  if ok then
    some { index := fun fd => if fd < cap.toNat then -1 else index fd
           ptrs := fun fd => if fd < cap.toNat then none else ptrs fd
           items := pfds, used := 0, cap := cap.toNat }
  else none

end EFramework.Pollsys
