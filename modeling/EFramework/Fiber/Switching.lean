import EFramework.Fiber.Layout
import EFramework.Lib.Run

/-! # Fibers on a machine

The functions of `fiber.c` up to the places where they call into `amd64/fiber.s`, and
the runs of a machine on which fibers switch. Of what is not running it is remembered
where it stands: at its procedure, or in a call of `ef_fiber_internal_swap`.
-/

namespace EFramework.Fiber.Amd64

open Lib (Instr Mem area)

universe u

variable {α : Type u}

/-! ## Calls -/

def call (c : Machine) (rdi rsi rdx : BitVec 64) : Machine :=
  { c with
    regs := Function.update (Function.update (Function.update c.regs .rdi rdi) .rsi rsi) .rdx rdx }

def efFiberInit (alu : Instr Reg 64 → Machine → BitVec 64) (exitAddr : BitVec 64) (c : Machine)
    (fiber proc param : BitVec 64) : Machine :=
  let c := run alu (call c fiber proc (if param ≠ 0 then param else fiber))
    (efFiberInternalInit exitAddr)
  { c with mem := c.mem.store (field fiber fiberStackPtrOffset) (c.regs .rax) }

/-- `ef_fiber_resume` for an initialised fiber, at its call of `ef_fiber_internal_swap`. -/
def efFiberResume (c : Machine) (rt target sndval : BitVec 64) : Machine :=
  let current := c.mem.load (field rt schedCurrentFiberOffset)
  let mem := c.mem.store (field target fiberParentOffset) current
  let mem := mem.store (field rt schedCurrentFiberOffset) target
  call { c with mem := mem } (mem.load (field target fiberStackPtrOffset))
    (field current fiberStackPtrOffset) sndval

def efFiberYield (c : Machine) (rt sndval : BitVec 64) : Machine :=
  let current := c.mem.load (field rt schedCurrentFiberOffset)
  let mem := c.mem.store (field rt schedCurrentFiberOffset)
    (c.mem.load (field current fiberParentOffset))
  call { c with mem := mem }
    (mem.load (field (mem.load (field current fiberParentOffset)) fiberStackPtrOffset))
    (field current fiberStackPtrOffset) sndval

/-! ## Runs -/

inductive Stage where
  /-- It has exited, or has never been initialised. -/
  | idle
  | fresh (proc param : BitVec 64)
  | running
  /-- In `ef_fiber_internal_swap`, with the machine as it was when this was called. -/
  | waiting (call : Machine)

structure World (α : Type u) where
  cpu : Machine
  running : Option α
  stage : Option α → Stage

inductive Act (α : Type u) where
  /-- The code of the running fiber does something. -/
  | user (cpu : Machine)
  | init (fiber : α) (proc param : BitVec 64)
  | resume (target : α) (sndval : BitVec 64)
  /-- `target` is the parent. -/
  | yield (target : Option α) (sndval : BitVec 64)
  /-- The procedure of the running fiber returns. -/
  | exit (target : Option α)

variable [DecidableEq α]

def World.swap (alu : Instr Reg 64 → Machine → BitVec 64) (w : World α) (call : Machine)
    (target : Option α) : World α :=
  { cpu := run alu call efFiberInternalSwap
    running := target
    stage := Function.update (Function.update w.stage w.running (.waiting call)) target .running }

def step (l : Layout α) (alu : Instr Reg 64 → Machine → BitVec 64) (exitAddr : BitVec 64)
    (w : World α) : Act α → Option (World α)
  | .user cpu => some { w with cpu := cpu }
  | .init fiber proc param =>
      let header := l.header (some fiber)
      some { w with
        cpu := efFiberInit alu exitAddr w.cpu header proc param
        stage := Function.update w.stage (some fiber)
          (.fresh proc (if param ≠ 0 then param else header)) }
  | .resume target sndval =>
      let header := l.header (some target)
      if w.cpu.mem.load (field header fiberStatusOffset) ≠ fiberStatusInited then some w
      else some (w.swap alu (efFiberResume w.cpu l.sched header sndval) (some target))
  | .yield target sndval => some (w.swap alu (efFiberYield w.cpu l.sched sndval) target)
  | .exit target =>
      some {
        cpu := run alu w.cpu (.ret :: efFiberExit)
        running := target
        stage := Function.update (Function.update w.stage w.running .idle) target .running }

def Stage.Ready : Stage → Prop
  | .fresh _ _ | .waiting _ => True
  | .idle | .running => False

/-- There is room for the frame, below the address to return to. -/
def Nested (l : Layout α) (w : World α) : Prop :=
  area (w.cpu.regs .rsp - 104) 112 ⊆ l.own w.running

/-- The code of a fiber writes where it may. It switches to fibers that can go on, and its
procedure returns with the stack that it was entered with. -/
def Allowed (l : Layout α) (w : World α) : Act α → Prop
  | .user cpu => Set.EqOn cpu.mem w.cpu.mem (l.own w.running ∪ l.reservedᶜ)ᶜ
  | .init fiber _ _ => w.running ≠ some fiber
  | .resume target _ =>
      w.cpu.mem.load (field (l.header (some target)) fiberStatusOffset) = fiberStatusInited →
        (w.stage (some target)).Ready ∧ Nested l w
  | .yield target _ =>
      w.cpu.mem.load (field (l.header w.running) fiberParentOffset) = l.header target ∧
        (w.stage target).Ready ∧ Nested l w
  | .exit target =>
      w.cpu.mem.load (field (l.header w.running) fiberParentOffset) = l.header target ∧
        (w.stage target).Ready ∧
        ∃ f, w.running = some f ∧ w.cpu.regs .rsp = l.upper f - 16

/-- The thread runs, and the headers are as `ef_fiber_create` has left them. -/
structure Initial (l : Layout α) (w : World α) : Prop where
  running : w.running = none
  current : w.cpu.mem.load (field l.sched schedCurrentFiberOffset) = l.header none
  stage : ∀ f, w.stage f = if f = none then .running else .idle
  upper : ∀ f, w.cpu.mem.load (field (l.header (some f)) fiberStackUpperOffset) = l.upper f
  sched : ∀ f, w.cpu.mem.load (field (l.header (some f)) fiberSchedOffset) = l.sched

end EFramework.Fiber.Amd64
