import EFramework.Lib.Run

/-! # Fibers, `fiber.c`

A fiber that is not running is in `ef_fiber_internal_swap`, called by
`ef_fiber_resume` or by `ef_fiber_yield`, or it has just been initialised. Its
`stack_ptr` says where it goes on. Which fiber really runs is one thing, and what
`current_fiber` says is another: the C functions look at `current_fiber`, and
`_ef_fiber_exit` looks at the stack that it is on.

Fibers are named by `α`, and `none` is `thread_fiber`.
-/

namespace EFramework.Fiber

universe u

variable {α : Type u}

/-! ## Contexts -/

inductive Point (α : Type u) where
  /-- At `fiber_proc`, with `none` for a `param` that is the fiber itself. -/
  | entry (proc : Nat) (param : Option Nat)
  /-- In `ef_fiber_resume`, which may have been given a `retval`. -/
  | resume (target : α) (retval : Bool)
  /-- In `ef_fiber_yield`. -/
  | yield
deriving Repr, DecidableEq

/-- What a `stack_ptr` points at: a frame on the stack of its owner. -/
structure Context (α : Type u) where
  owner : Option α
  point : Point α
deriving Repr, DecidableEq

def fiberStatusExited : Int := 0
def fiberStatusInited : Int := 1

def errorFiberExited : Int := -1
def errorFiberNotInited : Int := -2

/-- The fields of the fibers and of `ef_fiber_sched_t`. -/
structure FiberSched (α : Type u) where
  currentFiber : Option α
  status : α → Int
  parent : α → Option α
  stackPtr : Option α → Context α
  /-- The fiber whose stack is in use. -/
  running : Option α

inductive Outcome (α : Type u) where
  | inited
  /-- The procedure of a fiber begins. -/
  | entered (fiber : Option α) (proc : Nat) (param : Option Nat)
  /-- `ef_fiber_resume` for `of` returns in `fiber`, with what it puts into `*retval`. -/
  | resumed (fiber : Option α) (of : α) (err : Int) (retval : Option Int)
  /-- `ef_fiber_yield` returns in `fiber`. -/
  | yielded (fiber : Option α) (value : Int)
deriving Repr, DecidableEq

/-- A fiber goes on, with what `ef_fiber_internal_swap` returns in it. -/
def Context.goOn (ctx : Context α) (value : Int) : Outcome α :=
  match ctx.point with
  | .entry proc param => .entered ctx.owner proc param
  | .resume target retval => .resumed ctx.owner target 0 (if retval then some value else none)
  | .yield => .yielded ctx.owner value

/-! ## The functions -/

variable [DecidableEq α]

namespace FiberSched

/-- `ef_fiber_internal_swap`, with `new_sp` of the fiber `target` and `old_sp_ptr` of the fiber
`old`. The frame is saved on the stack in use. -/
def swap (s : FiberSched α) (target old : Option α) (point : Point α) (value : Int) :
    Outcome α × FiberSched α :=
  ((s.stackPtr target).goOn value,
    { s with
      stackPtr := Function.update s.stackPtr old ⟨s.running, point⟩
      running := (s.stackPtr target).owner })

def efFiberInit (s : FiberSched α) (fiber : α) (proc param : Nat) : FiberSched α :=
  { s with
    status := Function.update s.status fiber fiberStatusInited
    stackPtr := Function.update s.stackPtr (some fiber)
      ⟨some fiber, .entry proc (if param ≠ 0 then some param else none)⟩ }

def efFiberResume (s : FiberSched α) (target : α) (sndval : Int) (retval : Bool) :
    Outcome α × FiberSched α :=
  if s.status target ≠ fiberStatusInited then
    if s.status target = fiberStatusExited then (.resumed s.running target errorFiberExited none, s)
    else (.resumed s.running target errorFiberNotInited none, s)
  else
    let current := s.currentFiber
    { s with
      parent := Function.update s.parent target current
      currentFiber := some target }.swap (some target) current (.resume target retval) sndval

/-- The fiber of the thread has no parent to yield to. -/
def efFiberYield (s : FiberSched α) (sndval : Int) : Option (Outcome α × FiberSched α) :=
  s.currentFiber.map (fun current =>
    { s with currentFiber := s.parent current }.swap (s.parent current) (some current) .yield sndval)

/-- `_ef_fiber_exit`, to which the procedure of the running fiber returns. -/
def efFiberExit (s : FiberSched α) (ret : Int) : Option (Outcome α × FiberSched α) :=
  s.running.map (fun fiber =>
    ((s.stackPtr (s.parent fiber)).goOn ret,
      { s with
        status := Function.update s.status fiber fiberStatusExited
        currentFiber := s.parent fiber
        running := (s.stackPtr (s.parent fiber)).owner }))

end FiberSched

/-! ## Steps -/

inductive Act (α : Type u) where
  | init (fiber : α) (proc param : Nat)
  | resume (target : α) (sndval : Int) (retval : Bool)
  | yield (sndval : Int)
  | exit (ret : Int)
deriving Repr, DecidableEq

def step (s : FiberSched α) : Act α → Option (Outcome α × FiberSched α)
  | .init fiber proc param => some (.inited, s.efFiberInit fiber proc param)
  | .resume target sndval retval => some (s.efFiberResume target sndval retval)
  | .yield sndval => s.efFiberYield sndval
  | .exit ret => s.efFiberExit ret

inductive Life where
  | unborn
  | fresh
  /-- Resumed, and since then neither suspended nor exited. -/
  | active
  | suspended
  | exited
deriving Repr, DecidableEq

/-- The lives of the fibers, and whose resume has activated each last and whether it has asked
for a value. -/
structure History (α : Type u) where
  life : α → Life
  resumer : α → Option α × Bool

namespace History

def set (h : History α) (fiber : α) (life : Life) : History α :=
  { h with life := Function.update h.life fiber life }

def step (h : History α) (running : Option α) : Act α → History α
  | .init fiber _ _ => h.set fiber .fresh
  | .resume target _ retval =>
      if h.life target = .exited then h
      else { h.set target .active with resumer := Function.update h.resumer target (running, retval) }
  | .yield _ => running.elim h (h.set · .suspended)
  | .exit _ => running.elim h (h.set · .exited)

end History

def stepBoth (t : FiberSched α × History α) (a : Act α) : Option (FiberSched α × History α) :=
  (step t.1 a).map (fun r => (r.2, t.2.step t.1.running a))

/-- Fibers that are fresh, suspended or exited are resumed only, no fiber is initialised while it
runs or resumes another, and the thread neither yields nor exits. -/
def disciplined (t : FiberSched α × History α) : Act α → Bool
  | .init fiber _ _ => t.2.life fiber ≠ .active
  | .resume target _ _ =>
      t.2.life target = .fresh ∨ t.2.life target = .suspended ∨ t.2.life target = .exited
  | .yield _ | .exit _ => t.1.running.isSome

/-- `ef_fiber_init_sched` has led here. What is in the memory of the fibers is arbitrary. -/
def Initial (t : FiberSched α × History α) : Prop :=
  t.1.currentFiber = none ∧ t.1.running = none ∧ ∀ fiber, t.2.life fiber = .unborn

end EFramework.Fiber
