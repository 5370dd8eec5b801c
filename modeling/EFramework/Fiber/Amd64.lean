import EFramework.Lib.StackMachine

/-! # The switch of `amd64/fiber.s`

The code as it stands in the file, one instruction after another, and what it does
to the registers and the memory. What a fiber saves in `ef_fiber_internal_swap` is
popped in the opposite order, by whoever comes to `_ef_fiber_restore`.
-/

namespace EFramework.Fiber.Amd64

open Lib (Cpu Instr Loc area)

inductive Reg where
  | rax
  | rbx
  | rcx
  | rdx
  | rsi
  | rdi
  | rbp
  | rsp
  | r8
  | r9
  | r10
  | r11
  | r12
  | r13
  | r14
  | r15
deriving Repr, DecidableEq

abbrev Machine := Cpu Reg 64

/-! ## The code -/

def fiberStackUpperOffset : Int := 16
def fiberStackPtrOffset : Int := 32
def fiberStatusOffset : Int := 40
def fiberParentOffset : Int := 48
def fiberSchedOffset : Int := 56

def schedCurrentFiberOffset : Int := 0

def field (a : BitVec 64) (offset : Int) : BitVec 64 := a + BitVec.ofInt 64 offset

def fiberStatusExited : BitVec 64 := 0
def fiberStatusInited : BitVec 64 := 1

def efFiberRestore : List (Instr Reg 64) :=
  [.pop .flags, .pop (.reg .r15), .pop (.reg .r14), .pop (.reg .r13), .pop (.reg .r12),
    .pop (.reg .r11), .pop (.reg .r10), .pop (.reg .r9), .pop (.reg .r8), .pop (.reg .rdi),
    .pop (.reg .rsi), .pop (.reg .rbp), .pop (.reg .rbx), .ret]

/-- The code runs on into `_ef_fiber_restore`. -/
def efFiberInternalSwap : List (Instr Reg 64) :=
  [.mov .rdx .rax, .push (.reg .rbx), .push (.reg .rbp), .push (.reg .rsi), .push (.reg .rdi),
    .push (.reg .r8), .push (.reg .r9), .push (.reg .r10), .push (.reg .r11), .push (.reg .r12),
    .push (.reg .r13), .push (.reg .r14), .push (.reg .r15), .push .flags,
    .store .rsp 0 .rsi, .mov .rdi .rsp] ++ efFiberRestore

/-- The code ends with a jump to `_ef_fiber_restore`. -/
def efFiberExit : List (Instr Reg 64) :=
  [.pop (.reg .rdx), .imm fiberStatusExited .rcx, .store .rcx fiberStatusOffset .rdx,
    .load fiberParentOffset .rdx .rcx, .load fiberSchedOffset .rdx .rdx,
    .store .rcx schedCurrentFiberOffset .rdx, .load fiberStackPtrOffset .rcx .rsp] ++
    efFiberRestore

/-- The address of `_ef_fiber_exit` is up to the linker. -/
def efFiberInternalInit (exitAddr : BitVec 64) : List (Instr Reg 64) :=
  [.imm fiberStatusInited .rax, .store .rax fiberStatusOffset .rdi, .mov .rdi .rcx,
    .load fiberStackUpperOffset .rdi .rdi, .store .rcx (-8) .rdi, .imm exitAddr .rax,
    .store .rax (-16) .rdi, .store .rsi (-24) .rdi, .xor .rax .rax, .store .rax (-32) .rdi,
    .store .rdi (-40) .rdi, .store .rax (-48) .rdi, .store .rdx (-56) .rdi,
    .store .rax (-64) .rdi, .store .rax (-72) .rdi, .store .rax (-80) .rdi,
    .store .rax (-88) .rdi, .store .rax (-96) .rdi, .store .rax (-104) .rdi,
    .store .rax (-112) .rdi, .store .rax (-120) .rdi, .store .rax (-128) .rdi,
    .mov .rdi .rax, .sub 128 .rax, .ret]

/-! ## What the code does -/

variable (alu : Instr Reg 64 → Machine → BitVec 64)

def run (c : Machine) (code : List (Instr Reg 64)) : Machine := c.execs .rsp alu code

/-- What a frame holds, in the order in which it is popped. -/
def saved : List (Loc Reg) :=
  [.flags, .reg .r15, .reg .r14, .reg .r13, .reg .r12, .reg .r11, .reg .r10, .reg .r9, .reg .r8,
    .reg .rdi, .reg .rsi, .reg .rbp, .reg .rbx]

variable {c : Machine}

/-- A frame is popped, and control goes to the address above it. -/
theorem restore_spec {f : Loc Reg → BitVec 64} {ra : BitVec 64}
    (h : c.mem.Holds (c.regs .rsp) (saved.map f ++ [ra])) :
    (run alu c efFiberRestore).mem = c.mem ∧ (run alu c efFiberRestore).ip = ra ∧
      (run alu c efFiberRestore).regs .rsp = c.regs .rsp + 112 ∧
      (∀ l ∈ saved, (run alu c efFiberRestore).get l = f l) ∧
      ∀ r, .reg r ∉ saved → r ≠ .rsp → (run alu c efFiberRestore).regs r = c.regs r := by
  obtain ⟨hmem, hip, hsp, hin, hout⟩ :=
    Lib.Cpu.execs_pop_ret Reg.rsp alu c saved f (by decide) h
  exact ⟨hmem, hip, hsp, hin, fun r hr hne => hout (.reg r) hr (fun he => hne (Loc.reg.inj he))⟩

/-! ## Switching -/

theorem efFiberInternalSwap_eq : efFiberInternalSwap =
    [.mov .rdx .rax] ++ (saved.reverse.map .push ++
      ([.store .rsp 0 .rsi, .mov .rdi .rsp] ++ efFiberRestore)) := rfl

/-- What `ef_fiber_internal_swap` leaves in the memory. -/
def frameSaved (c : Machine) : Lib.Mem 64 :=
  (c.mem.pushes (c.regs .rsp) (saved.reverse.map c.get)).store (c.regs .rsi) (c.regs .rsp - 104)

def swapped (c : Machine) : Machine :=
  { c with
    regs := Function.update (Function.update c.regs .rax (c.regs .rdx)) .rsp (c.regs .rdi)
    mem := frameSaved c }

theorem run_swap (c : Machine) :
    run alu c efFiberInternalSwap = run alu (swapped c) efFiberRestore := by
  have hget : saved.reverse.map (c.setReg .rax (c.regs .rdx)).get = saved.reverse.map c.get :=
    List.map_congr_left fun l hl =>
      c.get_setReg_of_ne (by rintro rfl; exact absurd hl (by decide)) _
  have hmov : Lib.Cpu.execs Reg.rsp alu c [.mov .rdx .rax] = c.setReg .rax (c.regs .rdx) := rfl
  have hlen : BitVec.ofNat 64 (64 / 8 * saved.reverse.length) = 104 := by decide
  unfold run
  rw [efFiberInternalSwap_eq, Lib.Cpu.execs_append, Lib.Cpu.execs_append, hmov,
    Lib.Cpu.execs_push Reg.rsp alu _ saved.reverse (by decide), hget, hlen, Lib.Cpu.execs_append]
  congr 1
  refine Lib.Cpu.ext ?_ rfl rfl ?_
  · exact Function.update_idem (β := fun _ => BitVec 64) _ _ _
  · have hdisp : c.regs .rsi + BitVec.ofInt 64 0 = c.regs .rsi := BitVec.add_zero _
    exact congrArg (fun a => Lib.Mem.store _ a (c.regs .rsp - 104)) hdisp

def exited (c : Machine) : Machine :=
  let fiber := c.mem.load (c.regs .rsp)
  let mem := c.mem.store (field fiber fiberStatusOffset) fiberStatusExited
  let parent := mem.load (field fiber fiberParentOffset)
  let sched := mem.load (field fiber fiberSchedOffset)
  let mem := mem.store (field sched schedCurrentFiberOffset) parent
  { c with
    regs := Function.update (Function.update (Function.update c.regs .rdx sched) .rcx parent) .rsp
      (mem.load (field parent fiberStackPtrOffset))
    mem := mem }

theorem regs_exit (regs : Reg → BitVec 64) (fiber status parent sched sp sp' : BitVec 64) :
    Function.update (Function.update (Function.update (Function.update (Function.update
      (Function.update regs .rsp sp) .rdx fiber) .rcx status) .rcx parent) .rdx sched) .rsp sp' =
      Function.update (Function.update (Function.update regs .rdx sched) .rcx parent) .rsp sp' := by
  funext r
  cases r <;> rfl

theorem run_exit (c : Machine) :
    run alu c efFiberExit = run alu (exited c) efFiberRestore := by
  unfold run efFiberExit
  refine Lib.Cpu.execs_append_of ?_ efFiberRestore
  simp only [Lib.Cpu.execs, List.foldl_cons, List.foldl_nil, Lib.Cpu.exec, Lib.Cpu.set,
    Lib.Cpu.setReg, Function.update_apply, reduceCtorEq, if_true, if_false]
  exact Lib.Cpu.ext (regs_exit _ _ _ _ _ _ _) rfl rfl rfl

theorem run_ret_exit (c : Machine) : run alu c (.ret :: efFiberExit) =
    run alu (exited (run alu c [.ret])) efFiberRestore := by
  rw [← run_exit]
  exact Lib.Cpu.execs_append c [.ret] efFiberExit

theorem ret_spec (c : Machine) : (run alu c [.ret]).mem = c.mem ∧
    (run alu c [.ret]).ip = c.mem.load (c.regs .rsp) ∧
    (run alu c [.ret]).regs .rsp = c.regs .rsp + 8 ∧
    (run alu c [.ret]).regs .rax = c.regs .rax :=
  ⟨rfl, rfl, rfl, rfl⟩

theorem exited_spec {fiber parent sched : BitVec 64} (hf : c.mem.load (c.regs .rsp) = fiber)
    (hp : (c.mem.store (field fiber fiberStatusOffset) fiberStatusExited).load
      (field fiber fiberParentOffset) = parent)
    (hs : (c.mem.store (field fiber fiberStatusOffset) fiberStatusExited).load
      (field fiber fiberSchedOffset) = sched) :
    (exited c).mem = (c.mem.store (field fiber fiberStatusOffset) fiberStatusExited).store
        (field sched schedCurrentFiberOffset) parent ∧
      (exited c).regs .rsp = (exited c).mem.load (field parent fiberStackPtrOffset) ∧
      (exited c).regs .rax = c.regs .rax := by
  subst hf hp hs
  exact ⟨rfl, rfl, rfl⟩

/-! ## Initialising -/

def initialFrame (exitAddr fiber proc param upper : BitVec 64) : List (BitVec 64) :=
  [fiber, exitAddr, proc, 0, upper, 0, param, 0, 0, 0, 0, 0, 0, 0, 0, 0]

theorem init_spec (exitAddr : BitVec 64) {fiber proc param upper : BitVec 64}
    (hdi : c.regs .rdi = fiber) (hsi : c.regs .rsi = proc) (hdx : c.regs .rdx = param)
    (hu : (c.mem.store (field fiber fiberStatusOffset) fiberStatusInited).load
      (field fiber fiberStackUpperOffset) = upper) :
    (run alu c (efFiberInternalInit exitAddr)).mem =
        (c.mem.store (field fiber fiberStatusOffset) fiberStatusInited).pushes upper
          (initialFrame exitAddr fiber proc param upper) ∧
      (run alu c (efFiberInternalInit exitAddr)).regs .rax = upper - 128 := by
  subst hdi hsi hdx hu
  unfold run efFiberInternalInit
  simp only [Lib.Cpu.execs, List.foldl_cons, List.foldl_nil, Lib.Cpu.exec,
    Lib.Cpu.setReg, Function.update_apply, reduceCtorEq, if_true, if_false]
  unfold field
  generalize c.mem.store (c.regs .rdi + BitVec.ofInt 64 fiberStatusOffset) fiberStatusInited = m
  generalize m.load (c.regs .rdi + BitVec.ofInt 64 fiberStackUpperOffset) = upper
  refine ⟨?_, rfl⟩
  simp only [initialFrame, Lib.Mem.pushes, BitVec.xor_self, BitVec.sub_eq_add_neg, BitVec.add_assoc,
    BitVec.reduceAdd, BitVec.reduceNeg, BitVec.reduceOfInt, Nat.reduceDiv, BitVec.ofNat_eq_ofNat]

end EFramework.Fiber.Amd64
