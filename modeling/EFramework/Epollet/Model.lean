import EFramework.Lib.Bits
import EFramework.Lib.Run
import EFramework.Lib.Slots
import EFramework.Runtime.Poll

/-! # The backend `epollet.c`

Descriptors are registered with the kernel once, edge-triggered, and stay so when
they are dissociated. What has fired is cached in an item for each descriptor, and
the items that are to be reported are kept in front, up to `fill`.

The answers of `realloc` and of the kernel are arguments.
-/

namespace EFramework.Epollet

structure EfEpollItem where
  fd : Nat
  waiting : Nat
  fired : Nat
  ptr : PollPtr
deriving Repr, DecidableEq

/-- The expression `(pi->waiting | EPOLLERR | EPOLLHUP) & pi->fired`. -/
def EfEpollItem.mask (item : EfEpollItem) : Nat :=
  (item.waiting ||| efPollerr ||| efPollhup) &&& item.fired

/-- The statement `pi->fired &= (~events)`. -/
def EfEpollItem.unset (item : EfEpollItem) (events : Nat) : EfEpollItem :=
  { item with fired := Lib.clearBits item.fired events }

/-- The statement `pi->fired |= events`. -/
def EfEpollItem.fire (item : EfEpollItem) (events : Nat) : EfEpollItem :=
  { item with fired := item.fired ||| events }

/-- `ef_epoll_t`: the arrays `index` and `items`, and `used`, are those of `Slots`. -/
structure EfEpoll extends Lib.Slots Nat EfEpollItem where
  cap : Nat
  fill : Int

/-! ## Growing the arrays -/

/-- Which of the three `realloc` succeed. -/
structure Realloc where
  index : Bool
  items : Bool
  events : Bool
deriving Repr, DecidableEq

/-- The loop `while (cap <= fd) cap <<= 1`, which takes fewer than `fd` rounds. -/
def doubled (fd : Nat) : Nat → Nat → Nat
  | 0, cap => cap
  | rounds + 1, cap => if cap ≤ fd then doubled fd rounds (cap <<< 1) else cap

/-- Where an array cannot be grown, those before it stay grown. -/
def efEpollExpand (ep : EfEpoll) (fd : Nat) (mem : Realloc) : Int × EfEpoll :=
  if fd < ep.cap then (0, ep)
  else
    let cap := doubled fd (fd + 1) ep.cap
    if mem.index then
      let ep' := { ep with
        index := fun fd => if ep.cap ≤ fd ∧ fd < cap then -1 else ep.index fd }
      if mem.items then
        if mem.events then (0, { ep' with cap := cap }) else (-1, ep')
      else (-1, ep')
    else (-1, ep)

/-! ## The front of the items -/

/-- Move an item to the filled area, if it is not in it. -/
def moveToFilled (ep : EfEpoll) (idx : Int) : EfEpoll :=
  let slots :=
    if ep.fill < idx then ep.toSlots.swap EfEpollItem.fd idx ep.fill else ep.toSlots
  { ep with toSlots := slots, fill := if ep.fill ≤ idx then ep.fill + 1 else ep.fill }

/-- Remove an item from the filled area, if it is in it. -/
def removeFromFilled (ep : EfEpoll) (idx : Int) : EfEpoll :=
  if idx < ep.fill then
    let fill := ep.fill - 1
    let slots := if idx < fill then ep.toSlots.swap EfEpollItem.fd idx fill else ep.toSlots
    { ep with toSlots := slots, fill := fill }
  else ep

def setItem (ep : EfEpoll) (idx : Int) (item : EfEpollItem) : EfEpoll :=
  { ep with toSlots := ep.toSlots.set idx item }

/-! ## The functions of the poller -/

def associated (ep : EfEpoll) (idx : Int) : Int × EfEpoll :=
  if (ep.items idx).mask ≠ 0 then (1, moveToFilled ep idx) else (0, ep)

/-- The part of `ef_epoll_associate` behind the test of `cap`. A new descriptor counts as
writable. -/
def register (ep : EfEpoll) (fd events : Nat) (ptr : PollPtr) (ok : Bool) : Int × EfEpoll :=
  let idx := ep.index fd
  if idx < 0 then
    let idx := ep.used
    let ep := { ep with toSlots := ep.toSlots.push EfEpollItem.fd ⟨fd, events, efPollout, ptr⟩ }
    if ok then associated ep idx else (-1, ep)
  else associated (setItem ep idx { ep.items idx with waiting := events, ptr := ptr }) idx

/-- Here `ok` is the answer to `EPOLL_CTL_ADD`. -/
def efEpollAssociate (ep : EfEpoll) (fd events : Nat) (ptr : PollPtr) (mem : Realloc)
    (ok : Bool) : Int × EfEpoll :=
  let (ret, ep) := if ep.cap ≤ fd then efEpollExpand ep fd mem else (0, ep)
  if ret < 0 then (-1, ep) else register ep fd events ptr ok

def removeItem (ep : EfEpoll) (fd : Nat) (idx : Int) : EfEpoll :=
  let slots := ep.toSlots.unlink fd
  let fill := if idx < ep.fill then ep.fill - 1 else ep.fill
  -- the hole goes to the end of the filled area, and from there to the end of the items
  let (slots, idx) :=
    if idx < fill then (slots.move EfEpollItem.fd fill idx, fill) else (slots, idx)
  { ep with toSlots := slots.close EfEpollItem.fd idx, fill := fill }

/-- Here `ok` is the answer to `EPOLL_CTL_DEL`. -/
def efEpollDissociate (ep : EfEpoll) (fd : Nat) (onclose ok : Bool) : Int × EfEpoll :=
  if ep.cap ≤ fd then (0, ep)
  else
    let idx := ep.index fd
    if idx < 0 then (0, ep)
    else if onclose then (if ok then 0 else -1, removeItem ep fd idx)
    else (0, removeFromFilled (setItem ep idx { ep.items idx with waiting := 0 }) idx)

def efEpollUnset (ep : EfEpoll) (fd events : Nat) : EfEpoll :=
  if ep.cap ≤ fd then ep
  else
    let idx := ep.index fd
    if idx < 0 then ep
    else
      let item := (ep.items idx).unset events
      let ep := setItem ep idx item
      if idx < ep.fill ∧ item.mask = 0 then removeFromFilled ep idx else ep

/-- One round of the loop of `ef_epoll_wait` over what the kernel reports. There is `none` for a
descriptor without an item. -/
def fire (ep : EfEpoll) (report : Nat × Nat) : Option EfEpoll :=
  if report.1 < ep.cap ∧ 0 ≤ ep.index report.1 then
    let idx := ep.index report.1
    let item := (ep.items idx).fire report.2
    let ep := setItem ep idx item
    some (if item.mask ≠ 0 then moveToFilled ep idx else ep)
  else none

def event (item : EfEpollItem) : Event := ⟨item.mask, item.ptr, item.fd⟩

/-- The kernel is asked only when the filled area is empty, and reports at most `cap` of its
descriptors with what has fired. -/
def asked (ep : EfEpoll) (report : List (Nat × Nat)) : Option EfEpoll :=
  if ep.fill = 0 then if report.length ≤ ep.cap then report.foldlM fire ep else none
  else some ep

def reported (ep : EfEpoll) (count : Nat) : List Event :=
  let count := if ep.fill < count then ep.fill.toNat else count
  (List.range count).map (fun idx : Nat => event (ep.items idx))

def efEpollWait (ep : EfEpoll) (report : List (Nat × Nat)) (count : Nat) :
    Option (List Event × EfEpoll) :=
  (asked ep report).map (fun ep => (reported ep count, ep))

/-- What the arrays hold besides is up to `malloc`; `ok` says whether all calls succeed. -/
def efEpollCreate (cap : Int) (index : Nat → Int) (items : Int → EfEpollItem) (ok : Bool) :
    Option EfEpoll :=
  let cap := if cap < 128 then 128 else cap
  if ok then
    some { index := fun fd => if fd < cap.toNat then -1 else index fd, items := items, used := 0
           cap := cap.toNat, fill := 0 }
  else none

end EFramework.Epollet
