import EFramework.Lib.Run

/-! # The poll interface of `poll.h`

`ef_poll_t` is a table of functions over the state of a poller. What the kernel
answers is an argument of each of them.
-/

namespace EFramework

def efPollin : Nat := 0x001
def efPollout : Nat := 0x004
def efPollerr : Nat := 0x008
def efPollhup : Nat := 0x010

def eintr : Nat := 4
def ebadf : Nat := 9
def eagain : Nat := 11

/-- What a `ptr` points at: the poll data of a listener or of a routine, which
`FD_TYPE_LISTEN` and `FD_TYPE_RWC` tell apart. -/
inductive PollPtr where
  | listen (li : Nat)
  | routine (er : Nat)
deriving Repr, DecidableEq

/-- `ef_event_t`. The program does not see the descriptor that fired. -/
structure Event where
  events : Nat
  ptr : PollPtr
  fd : Nat
deriving Repr, DecidableEq

/-- `ef_poll_t` for pollers in `P`, with reports of the kernel in `K`. -/
structure EfPoll (P K : Type) where
  /-- `fd`, `events`, `ptr`, `fired`, and whether the kernel would add `fd`. -/
  associate : P → Nat → Nat → PollPtr → Bool → Bool → Int × P
  /-- `fd`, `fired`, `onclose`, and whether the kernel would delete `fd`. -/
  dissociate : P → Nat → Bool → Bool → Bool → Int × P
  /-- `fd` and `events`. -/
  unset : P → Nat → Nat → Int × P
  /-- `none` for what the kernel cannot report. -/
  wait : P → K → Option (List Event × P)
  /-- The kernel's set after a descriptor is closed. -/
  closed : P → Nat → P

/-! ## The backend `epoll.c` -/

/-- The epoll set, as a map from descriptors to `(events, ptr)`. -/
abbrev Epoll := Nat → Option (Nat × PollPtr)

def epollAdd (ep : Epoll) (fd events : Nat) (ptr : PollPtr) (ok : Bool) : Int × Epoll :=
  if ok ∧ ep fd = none then (0, Function.update ep fd (some (events, ptr))) else (-1, ep)

def epollDel (ep : Epoll) (fd : Nat) : Int × Epoll :=
  if ep fd = none then (-1, ep) else (0, Function.update ep fd none)

def efEpollAssociate (ep : Epoll) (fd events : Nat) (ptr : PollPtr) (fired ok : Bool) :
    Int × Epoll :=
  if fired then (0, ep) else epollAdd ep fd events ptr ok

def efEpollDissociate (ep : Epoll) (fd : Nat) (_fired _onclose _ok : Bool) : Int × Epoll :=
  epollDel ep fd

def efEpollUnset (ep : Epoll) (_fd _events : Nat) : Int × Epoll := (0, ep)

/-- The kernel reports up to 1024 descriptors of its set, each once, with any events. -/
def efEpollWait (ep : Epoll) (report : List (Nat × Nat)) : Option (List Event × Epoll) :=
  if (report.map Prod.fst).Nodup ∧ report.length ≤ 1024 then do
    let evts ← report.mapM (fun r => (ep r.1).map (fun e => Event.mk r.2 e.2 r.1))
    pure (evts, ep)
  else none

def efEpoll : EfPoll Epoll (List (Nat × Nat)) where
  associate := efEpollAssociate
  dissociate := efEpollDissociate
  unset := efEpollUnset
  wait := efEpollWait
  closed ep fd := Function.update ep fd none

end EFramework
