import EFramework.Lib.StackMachine

/-! # Leaving a fiber, `i386/fiber.s`

Arguments are on the stack here, so the first frame has the argument of the procedure
between the two words for `_ef_fiber_exit`. The procedure returns to `_ef_fiber_exit`
with the stack pointer at its argument, and this is what is popped as the fiber.
-/

namespace EFramework.Fiber.I386

open Lib (Cpu Instr Loc Mem area)

inductive Reg where
  | eax
  | ebx
  | ecx
  | edx
  | esi
  | edi
  | ebp
  | esp
deriving Repr, DecidableEq

abbrev Machine := Cpu Reg 32

/-! ## The code -/

def fiberStackUpperOffset : Int := 8
def fiberStackPtrOffset : Int := 16
def fiberStatusOffset : Int := 20
def fiberParentOffset : Int := 24
def fiberSchedOffset : Int := 28

def schedCurrentFiberOffset : Int := 0

def field (a : BitVec 32) (offset : Int) : BitVec 32 := a + BitVec.ofInt 32 offset

def fiberStatusExited : BitVec 32 := 0
def fiberStatusInited : BitVec 32 := 1

def efFiberRestore : List (Instr Reg 32) :=
  [.pop .flags, .pop (.reg .edi), .pop (.reg .esi), .pop (.reg .ebp), .pop (.reg .ebx),
    .pop (.reg .ecx), .pop (.reg .edx), .ret]

/-- The code ends with a jump to `_ef_fiber_restore`. -/
def efFiberExit : List (Instr Reg 32) :=
  [.pop (.reg .edx), .imm fiberStatusExited .ecx, .store .ecx fiberStatusOffset .edx,
    .load fiberParentOffset .edx .ecx, .load fiberSchedOffset .edx .edx,
    .store .ecx schedCurrentFiberOffset .edx, .load fiberStackPtrOffset .ecx .esp] ++
    efFiberRestore

/-- The address of `_ef_fiber_exit` is up to the linker. -/
def efFiberInternalInit (exitAddr : BitVec 32) : List (Instr Reg 32) :=
  [.push (.reg .ebp), .mov .esp .ebp, .push (.reg .edx), .push (.reg .ecx), .load 8 .ebp .edx,
    .imm fiberStatusInited .eax, .store .eax fiberStatusOffset .edx, .mov .edx .ecx,
    .load fiberStackUpperOffset .edx .edx, .store .ecx (-4) .edx, .load 16 .ebp .eax,
    .store .eax (-8) .edx, .imm exitAddr .eax, .store .eax (-12) .edx, .load 12 .ebp .eax,
    .store .eax (-16) .edx, .xor .eax .eax, .store .eax (-20) .edx, .store .eax (-24) .edx,
    .store .eax (-28) .edx, .store .edx (-32) .edx, .store .eax (-36) .edx,
    .store .eax (-40) .edx, .store .eax (-44) .edx, .mov .edx .eax, .sub 44 .eax,
    .pop (.reg .ecx), .pop (.reg .edx), .mov .ebp .esp, .pop (.reg .ebp), .ret]

/-! ## What the code does -/

variable (alu : Instr Reg 32 → Machine → BitVec 32)

def run (c : Machine) (code : List (Instr Reg 32)) : Machine := c.execs .esp alu code

def saved : List (Loc Reg) :=
  [.flags, .reg .edi, .reg .esi, .reg .ebp, .reg .ebx, .reg .ecx, .reg .edx]

variable {c : Machine}

theorem restore_spec {f : Loc Reg → BitVec 32} {ra : BitVec 32}
    (h : c.mem.Holds (c.regs .esp) (saved.map f ++ [ra])) :
    (run alu c efFiberRestore).mem = c.mem ∧ (run alu c efFiberRestore).ip = ra ∧
      (run alu c efFiberRestore).regs .esp = c.regs .esp + 32 ∧
      (∀ l ∈ saved, (run alu c efFiberRestore).get l = f l) ∧
      ∀ r, .reg r ∉ saved → r ≠ .esp → (run alu c efFiberRestore).regs r = c.regs r := by
  obtain ⟨hmem, hip, hsp, hin, hout⟩ :=
    Lib.Cpu.execs_pop_ret Reg.esp alu c saved f (by decide) h
  exact ⟨hmem, hip, hsp, hin, fun r hr hne => hout (.reg r) hr (fun he => hne (Loc.reg.inj he))⟩

theorem restore_mem (c : Machine) : (run alu c efFiberRestore).mem = c.mem := rfl

/-! ## Leaving -/

/-- `_ef_fiber_exit` up to its jump, with what it takes for the fiber. -/
def exited (c : Machine) (fiber : BitVec 32) : Machine :=
  let mem := c.mem.store (field fiber fiberStatusOffset) fiberStatusExited
  let parent := mem.load (field fiber fiberParentOffset)
  let sched := mem.load (field fiber fiberSchedOffset)
  let mem := mem.store (field sched schedCurrentFiberOffset) parent
  { c with
    regs := Function.update (Function.update (Function.update c.regs .edx sched) .ecx parent) .esp
      (mem.load (field parent fiberStackPtrOffset))
    mem := mem }

theorem regs_exit (regs : Reg → BitVec 32) (fiber status parent sched sp sp' : BitVec 32) :
    Function.update (Function.update (Function.update (Function.update (Function.update
      (Function.update regs .esp sp) .edx fiber) .ecx status) .ecx parent) .edx sched) .esp sp' =
      Function.update (Function.update (Function.update regs .edx sched) .ecx parent) .esp sp' := by
  funext r
  cases r <;> rfl

theorem run_exit (c : Machine) : run alu c efFiberExit =
    run alu (exited c (c.mem.load (c.regs .esp))) efFiberRestore := by
  unfold run efFiberExit
  refine Lib.Cpu.execs_append_of ?_ efFiberRestore
  simp only [Lib.Cpu.execs, List.foldl_cons, List.foldl_nil, Lib.Cpu.exec, Lib.Cpu.set,
    Lib.Cpu.setReg, Function.update_apply, reduceCtorEq, if_true, if_false]
  exact Lib.Cpu.ext (regs_exit _ _ _ _ _ _ _) rfl rfl rfl

/-- Two words are written, both for what is taken for the fiber. -/
theorem writes_exit (c : Machine) (fiber : BitVec 32) (hf : c.mem.load (c.regs .esp) = fiber) :
    Lib.Cpu.allWrites .esp alu c efFiberExit =
      [(field fiber fiberStatusOffset, fiberStatusExited),
        (field ((c.mem.store (field fiber fiberStatusOffset) fiberStatusExited).load
            (field fiber fiberSchedOffset)) schedCurrentFiberOffset,
          (c.mem.store (field fiber fiberStatusOffset) fiberStatusExited).load
            (field fiber fiberParentOffset))] := by
  have hrest : ∀ c, Lib.Cpu.allWrites .esp alu c efFiberRestore = [] := fun _ => rfl
  subst hf
  unfold efFiberExit field
  rw [Lib.Cpu.allWrites_append, hrest]
  simp only [Lib.Cpu.allWrites, Lib.Cpu.writes, Lib.Cpu.exec, Lib.Cpu.set, Lib.Cpu.setReg,
    Function.update_apply, reduceCtorEq, if_true, if_false, List.nil_append, List.append_nil,
    List.singleton_append]

theorem ret_spec (c : Machine) : (run alu c [.ret]).mem = c.mem ∧
    (run alu c [.ret]).ip = c.mem.load (c.regs .esp) ∧
    (run alu c [.ret]).regs .esp = c.regs .esp + 4 ∧
    (run alu c [.ret]).regs .eax = c.regs .eax :=
  ⟨rfl, rfl, rfl, rfl⟩

theorem run_ret_exit (c : Machine) : run alu c (.ret :: efFiberExit) = run alu
    (exited (run alu c [.ret]) (c.mem.load (c.regs .esp + 4))) efFiberRestore := by
  obtain ⟨hmem, _, hsp, _⟩ := ret_spec alu c
  have hexit := run_exit alu (run alu c [.ret])
  rw [hmem, hsp] at hexit
  rw [← hexit]
  exact Lib.Cpu.execs_append c [.ret] efFiberExit

/-- `fiber` is what is above the address that the procedure returns to. -/
theorem writes_ret_exit (c : Machine) {fiber : BitVec 32}
    (hf : c.mem.load (c.regs .esp + 4) = fiber) :
    Lib.Cpu.allWrites .esp alu c (.ret :: efFiberExit) =
      [(field fiber fiberStatusOffset, fiberStatusExited),
        (field ((c.mem.store (field fiber fiberStatusOffset) fiberStatusExited).load
            (field fiber fiberSchedOffset)) schedCurrentFiberOffset,
          (c.mem.store (field fiber fiberStatusOffset) fiberStatusExited).load
            (field fiber fiberParentOffset))] := by
  obtain ⟨hmem, _, hsp, _⟩ := ret_spec alu c
  have hwrites := writes_exit alu (run alu c [.ret]) fiber (by rw [hmem, hsp, hf])
  rw [hmem] at hwrites
  rw [← hwrites]
  exact Lib.Cpu.allWrites_append c [.ret] efFiberExit

/-! ## Initialising -/

def initialFrame (exitAddr fiber proc param upper : BitVec 32) : List (BitVec 32) :=
  [fiber, param, exitAddr, proc, 0, 0, 0, upper, 0, 0, 0]

/-- The arguments are read while the frame is written. -/
theorem init_spec (exitAddr : BitVec 32) {base fiber proc param upper : BitVec 32}
    {m m₁ m₂ m₃ : Mem 32} (hb : c.regs .esp - 4 = base)
    (hm : m = c.mem.pushes (c.regs .esp) [c.regs .ebp, c.regs .edx, c.regs .ecx])
    (hfiber : m.load (field base 8) = fiber)
    (hm₁ : m₁ = m.store (field fiber fiberStatusOffset) fiberStatusInited)
    (hupper : m₁.load (field fiber fiberStackUpperOffset) = upper)
    (hm₂ : m₂ = m₁.store (field upper (-4)) fiber) (hparam : m₂.load (field base 16) = param)
    (hm₃ : m₃ = (m₂.store (field upper (-8)) param).store (field upper (-12)) exitAddr)
    (hproc : m₃.load (field base 12) = proc) :
    (run alu c (efFiberInternalInit exitAddr)).mem =
        m₁.pushes upper (initialFrame exitAddr fiber proc param upper) ∧
      (run alu c (efFiberInternalInit exitAddr)).regs .eax = upper - 44 := by
  have hb : c.regs .esp - BitVec.ofNat 32 (32 / 8) = base := hb
  unfold run efFiberInternalInit
  simp only [Lib.Cpu.execs, List.foldl_cons, List.foldl_nil, Lib.Cpu.exec, Lib.Cpu.set, Lib.Cpu.get,
    Lib.Cpu.setReg, Function.update_apply, reduceCtorEq, if_true, if_false]
  simp only [Mem.pushes, hb] at hm
  unfold field at hfiber hm₁ hupper hm₂ hparam hm₃ hproc
  simp only [hb, ← hm, hfiber, ← hm₁, hupper, ← hm₂, hparam, ← hm₃, hproc]
  refine ⟨?_, trivial⟩
  subst hm₃ hm₂
  simp only [initialFrame, Mem.pushes, BitVec.xor_self, BitVec.sub_eq_add_neg, BitVec.add_assoc,
    BitVec.reduceAdd, BitVec.reduceNeg, BitVec.reduceOfInt, Nat.reduceDiv, BitVec.ofNat_eq_ofNat]

/-- `ef_fiber_init` calls `ef_fiber_internal_init`, with its arguments on the stack. -/
structure InitCall (c : Machine) (fiber proc param upper : BitVec 32) : Prop where
  arg₁ : c.mem.load (c.regs .esp + 4) = fiber
  arg₂ : c.mem.load (c.regs .esp + 8) = proc
  arg₃ : c.mem.load (c.regs .esp + 12) = if param ≠ 0 then param else fiber
  stackUpper : c.mem.load (field fiber fiberStackUpperOffset) = upper
  argsHeader : Disjoint (area (c.regs .esp - 12) 28) (area fiber 32)
  argsStack : Disjoint (area (c.regs .esp - 12) 28) (area (upper - 44) 44)
  headerStack : Disjoint (area fiber 32) (area (upper - 44) 44)

def firstRegs (upper : BitVec 32) : Loc Reg → BitVec 32
  | .reg .ebp => upper
  | _ => 0

theorem words : 32 / 8 ≤ 2 ^ 32 := by decide

theorem load_store_of_subset {m : Mem 32} {a b v : BitVec 32} {s t : Set (BitVec 32)}
    (h : Disjoint s t) (ha : area a 4 ⊆ s) (hb : area b 4 ⊆ t) : (m.store b v).load a = m.load a :=
  Mem.load_store_of_disjoint words (h.mono ha hb) v

theorem InitCall.frame {fiber proc param upper : BitVec 32} (h : InitCall c fiber proc param upper)
    (exitAddr : BitVec 32) :
    (run alu c (efFiberInternalInit exitAddr)).regs .eax = upper - 44 ∧
      (run alu c (efFiberInternalInit exitAddr)).mem.Holds (upper - 44)
        (saved.map (firstRegs upper) ++ [proc] ++
          [exitAddr, if param ≠ 0 then param else fiber, fiber]) := by
  obtain ⟨harg₁, harg₂, harg₃, hupper, hheader, hstack, _⟩ := h
  generalize (if param ≠ 0 then param else fiber) = param' at harg₃ ⊢
  have hpush := (Mem.pushes_spec c.mem (c.regs .esp) [c.regs .ebp, c.regs .edx, c.regs .ecx] words
    (by decide) (show 12 ≤ 2 ^ 32 by decide)).2
  change Set.EqOn _ _ (area (c.regs .esp - 12) 12)ᶜ at hpush
  -- The arguments are above what is pushed, and nothing is written to them.
  have hbase : ∀ k : Nat, field (c.regs .esp - 4) (k + 4 : Nat) = c.regs .esp + BitVec.ofNat 32 k := by
    intro k
    unfold field
    rw [BitVec.ofInt_natCast]
    bv_omega
  have hargs : ∀ k, 4 ≤ k → k ≤ 12 → area (c.regs .esp + BitVec.ofNat 32 k) 4 ⊆
      area (c.regs .esp - 12) 28 := by
    intro k hk hk'
    have he : c.regs .esp + BitVec.ofNat 32 k = c.regs .esp - 12 + BitVec.ofNat 32 (12 + k) := by
      bv_omega
    rw [he]
    exact Lib.area_subset _ (by omega)
  have hslot : ∀ k : Nat, 4 ≤ k → k ≤ 44 → area (field upper (-k)) 4 ⊆ area (upper - 44) 44 := by
    intro k hk hk'
    have he : field upper (-k) = upper - 44 + BitVec.ofNat 32 (44 - k) := by
      unfold field
      rw [BitVec.ofInt_neg, BitVec.ofInt_natCast]
      bv_omega
    rw [he]
    exact Lib.area_subset _ (by omega)
  have hstatus : area (field fiber fiberStatusOffset) 4 ⊆ area fiber 32 :=
    Lib.area_subset fiber (show 20 + 4 ≤ 32 by decide)
  have hfield : area (field fiber fiberStackUpperOffset) 4 ⊆ area fiber 32 :=
    Lib.area_subset fiber (show 8 + 4 ≤ 32 by decide)
  have hcells : Disjoint (area (field fiber fiberStackUpperOffset) 4)
      (area (field fiber fiberStatusOffset) 4) :=
    Lib.disjoint_area fiber (show 8 + 4 ≤ 20 by decide) (by decide)
  generalize hm : c.mem.pushes (c.regs .esp) [c.regs .ebp, c.regs .edx, c.regs .ecx] = m at hpush
  have hpushed : ∀ k, 4 ≤ k → k ≤ 12 →
      m.load (c.regs .esp + BitVec.ofNat 32 k) = c.mem.load (c.regs .esp + BitVec.ofNat 32 k) := by
    intro k hk hk'
    have he : c.regs .esp + BitVec.ofNat 32 k = c.regs .esp - 12 + BitVec.ofNat 32 (12 + k) := by
      bv_omega
    have hdisj := Lib.disjoint_area (c.regs .esp - 12) (show 0 + 12 ≤ 12 + k by omega)
      (show 12 + k + 4 ≤ 2 ^ 32 by omega)
    rw [BitVec.add_zero, ← he] at hdisj
    exact Mem.load_congr words (hpush.mono (Set.disjoint_right.mp hdisj))
  have hkept : m.load (field fiber fiberStackUpperOffset) = upper := by
    rw [← hupper]
    have hdisj : Disjoint (area (c.regs .esp - 12) 12) (area fiber 32) :=
      hheader.mono_left (Lib.area_mono _ (by decide))
    exact Mem.load_congr words (hpush.mono
      (Set.disjoint_right.mp (hdisj.mono_right hfield)))
  have hs₄ : area (field upper (-4)) 4 ⊆ area (upper - 44) 44 := hslot 4 (by decide) (by decide)
  have hs₈ : area (field upper (-8)) 4 ⊆ area (upper - 44) 44 := hslot 8 (by decide) (by decide)
  have hs₁₂ : area (field upper (-12)) 4 ⊆ area (upper - 44) 44 := hslot 12 (by decide) (by decide)
  have ha₈ := hargs 8 (by decide) (by decide)
  have ha₁₂ := hargs 12 (by decide) (by decide)
  have hb₈ : field (c.regs .esp - 4) 8 = c.regs .esp + BitVec.ofNat 32 4 := hbase 4
  have hb₁₂ : field (c.regs .esp - 4) 12 = c.regs .esp + BitVec.ofNat 32 8 := hbase 8
  have hb₁₆ : field (c.regs .esp - 4) 16 = c.regs .esp + BitVec.ofNat 32 12 := hbase 12
  have hfirst : m.load (field (c.regs .esp - 4) 8) = fiber := by
    rw [hb₈, hpushed 4 (by decide) (by decide)]
    exact harg₁
  have hthird : ((m.store (field fiber fiberStatusOffset) fiberStatusInited).store
      (field upper (-4)) fiber).load (field (c.regs .esp - 4) 16) = param' := by
    rw [hb₁₆, load_store_of_subset hstack ha₁₂ hs₄, load_store_of_subset hheader ha₁₂ hstatus,
      hpushed 12 (by decide) (by decide)]
    exact harg₃
  have hsecond : ((((m.store (field fiber fiberStatusOffset) fiberStatusInited).store
      (field upper (-4)) fiber).store (field upper (-8)) param').store
      (field upper (-12)) exitAddr).load (field (c.regs .esp - 4) 12) = proc := by
    rw [hb₁₂, load_store_of_subset hstack ha₈ hs₁₂, load_store_of_subset hstack ha₈ hs₈,
      load_store_of_subset hstack ha₈ hs₄, load_store_of_subset hheader ha₈ hstatus,
      hpushed 8 (by decide) (by decide)]
    exact harg₂
  obtain ⟨hmem, hax⟩ := init_spec alu exitAddr rfl hm.symm hfirst rfl
    ((Mem.load_store_of_disjoint words hcells _).trans hkept) rfl hthird rfl hsecond
  refine ⟨hax, ?_⟩
  rw [hmem]
  exact (Mem.pushes_spec _ upper (initialFrame exitAddr fiber proc param' upper) words (by decide)
    (show 44 ≤ 2 ^ 32 by decide)).1

/-! ## From the first switch to the exit -/

structure Returned (exitAddr : BitVec 32) (c c' : Machine) : Prop where
  balanced : c'.regs .esp = c.regs .esp
  retAddr : c'.mem.load (c.regs .esp) = exitAddr

/-- The fiber is marked, its parent becomes the current fiber, and nothing else is written. The
parent goes on from its frame, with what the procedure has returned. -/
structure Leaves (exitAddr fiber : BitVec 32) (c : Machine) : Prop where
  enters : (run alu c [.ret]).ip = exitAddr
  marks : Lib.Cpu.allWrites .esp alu c (.ret :: efFiberExit) =
    [(field fiber fiberStatusOffset, fiberStatusExited),
      (field (c.mem.load (field fiber fiberSchedOffset)) schedCurrentFiberOffset,
        c.mem.load (field fiber fiberParentOffset))]
  goesOn : ∀ f ra, (run alu c (.ret :: efFiberExit)).mem.Holds
      ((run alu c (.ret :: efFiberExit)).mem.load
        (field (c.mem.load (field fiber fiberParentOffset)) fiberStackPtrOffset))
      (saved.map f ++ [ra]) →
    (run alu c (.ret :: efFiberExit)).ip = ra ∧
      (∀ l ∈ saved, (run alu c (.ret :: efFiberExit)).get l = f l) ∧
      (run alu c (.ret :: efFiberExit)).regs .eax = c.regs .eax

theorem enters_spec {fiber proc param upper exitAddr : BitVec 32} {c₀ : Machine}
    (h : InitCall c₀ fiber proc param upper)
    (hsp : c.regs .esp = (run alu c₀ (efFiberInternalInit exitAddr)).regs .eax)
    (hframe : Set.EqOn (run alu c₀ (efFiberInternalInit exitAddr)).mem c.mem
      (area (upper - 44) 44)) :
    (run alu c efFiberRestore).ip = proc ∧
      (run alu c efFiberRestore).mem.load ((run alu c efFiberRestore).regs .esp) = exitAddr ∧
      (run alu c efFiberRestore).mem.load ((run alu c efFiberRestore).regs .esp + 4) =
        if param ≠ 0 then param else fiber := by
  obtain ⟨hax, hholds⟩ := h.frame alu exitAddr
  rw [hax] at hsp
  have hlen : ∀ v, 32 / 8 * (saved.map v ++ [proc] ++ [exitAddr, if param ≠ 0 then param else fiber,
      fiber]).length = 44 := fun v => by
    rw [List.length_append, List.length_append, List.length_map]
    rfl
  have hlen' : ∀ v, 32 / 8 * (saved.map v ++ [proc]).length = 32 := fun v => by
    rw [List.length_append, List.length_map]
    rfl
  have hall := hholds.congr words (hlen _ ▸ hframe)
  obtain ⟨hfirst, hexit, hparam, _⟩ := Mem.Holds.append.mp hall
  rw [hlen'] at hexit hparam
  rw [← hsp] at hfirst hexit hparam
  obtain ⟨hmem, hip, htop, _⟩ := restore_spec alu hfirst
  refine ⟨hip, ?_, ?_⟩
  · rw [hmem, htop]
    exact hexit
  · rw [hmem, htop]
    exact hparam

theorem load_field (m : Mem 32) (fiber : BitVec 32) :
    (m.store (field fiber fiberStatusOffset) fiberStatusExited).load (field fiber fiberParentOffset) =
        m.load (field fiber fiberParentOffset) ∧
      (m.store (field fiber fiberStatusOffset) fiberStatusExited).load (field fiber fiberSchedOffset) =
        m.load (field fiber fiberSchedOffset) :=
  ⟨Mem.load_store_of_disjoint words
      (Lib.disjoint_area fiber (show 20 + 4 ≤ 24 by decide) (by decide)).symm _,
    Mem.load_store_of_disjoint words
      (Lib.disjoint_area fiber (show 20 + 4 ≤ 28 by decide) (by decide)).symm _⟩

theorem leaves_iff {fiber exitAddr : BitVec 32} (hret : c.mem.load (c.regs .esp) = exitAddr) :
    Leaves alu exitAddr fiber c ↔ c.mem.load (c.regs .esp + 4) = fiber := by
  constructor
  · intro h
    have hmarks := h.marks
    rw [writes_ret_exit alu c rfl] at hmarks
    have hstatus := congrArg Prod.fst (List.cons.inj hmarks).1
    exact add_right_cancel hstatus
  · intro hf
    obtain ⟨hparent, hsched⟩ := load_field c.mem fiber
    obtain ⟨hmem, hip, hsp, hax⟩ := ret_spec alu c
    refine ⟨hip.trans hret, ?_, fun f ra hholds => ?_⟩
    · rw [writes_ret_exit alu c hf, hparent, hsched]
    · have hstack : (exited (run alu c [.ret]) fiber).regs .esp =
          (exited (run alu c [.ret]) fiber).mem.load (field ((c.mem.store
            (field fiber fiberStatusOffset) fiberStatusExited).load
            (field fiber fiberParentOffset)) fiberStackPtrOffset) := by
        rw [← hmem]
        rfl
      have heax : (exited (run alu c [.ret]) fiber).regs .eax = (run alu c [.ret]).regs .eax := rfl
      rw [hparent] at hstack
      rw [run_ret_exit, hf] at hholds ⊢
      rw [restore_mem, ← hstack] at hholds
      obtain ⟨_, hip, _, hin, hout⟩ := restore_spec alu hholds
      exact ⟨hip, hin, (hout .eax (by decide) (by decide)).trans (heax.trans hax)⟩

/-- The procedure of a fiber is entered with its parameter. When it returns, the fiber is left as
it should be if and only if the fiber is what is in the place of its argument. -/
theorem frame_leaves {fiber proc param upper exitAddr : BitVec 32} {c₀ : Machine}
    (h : InitCall c₀ fiber proc param upper)
    (hsp : c.regs .esp = (run alu c₀ (efFiberInternalInit exitAddr)).regs .eax)
    (hframe : Set.EqOn (run alu c₀ (efFiberInternalInit exitAddr)).mem c.mem
      (area (upper - 44) 44)) :
    ((run alu c efFiberRestore).ip = proc ∧
      (run alu c efFiberRestore).mem.load ((run alu c efFiberRestore).regs .esp) = exitAddr ∧
      (run alu c efFiberRestore).mem.load ((run alu c efFiberRestore).regs .esp + 4) =
        if param ≠ 0 then param else fiber) ∧
    ∀ c', Returned exitAddr (run alu c efFiberRestore) c' →
      (Leaves alu exitAddr fiber c' ↔ c'.mem.load (c'.regs .esp + 4) = fiber) ∧
      (c'.mem.load (c'.regs .esp + 4) =
          (run alu c efFiberRestore).mem.load ((run alu c efFiberRestore).regs .esp + 4) →
        (Leaves alu exitAddr fiber c' ↔ param = 0 ∨ param = fiber)) := by
  have henters := enters_spec alu h hsp hframe
  refine ⟨henters, fun c' hc' => ?_⟩
  have hret : c'.mem.load (c'.regs .esp) = exitAddr := by
    rw [hc'.balanced]
    exact hc'.retAddr
  have hleaves : Leaves alu exitAddr fiber c' ↔ _ := leaves_iff alu hret
  refine ⟨hleaves, fun hkept => hleaves.trans ?_⟩
  rw [hkept, henters.2.2]
  by_cases hp : param = 0
  · rw [if_neg (not_not.mpr hp)]
    exact iff_of_true rfl (Or.inl hp)
  · rw [if_pos hp]
    exact (or_iff_right hp).symm

def initCall (param : BitVec 32) : Machine where
  regs r := if r = .esp then 0x8000 else 0
  flags := 0
  ip := 0
  mem :=
    let m : Mem 32 := Mem.store (fun _ => 0) 0x3008 0x3000
    let m := (m.store 0x3018 0x5000).store 0x301c 0x6000
    ((m.store 0x8004 0x3000).store 0x8008 0x400).store 0x800c (if param ≠ 0 then param else 0x3000)

def flagsKept : Instr Reg 32 → Machine → BitVec 32 := fun _ c => c.flags

def switched (param : BitVec 32) : Machine :=
  let c := run flagsKept (initCall param) (efFiberInternalInit 0x500)
  { c with regs := Function.update c.regs .esp (c.regs .eax) }

def returned (param : BitVec 32) : Machine :=
  let c := run flagsKept (switched param) efFiberRestore
  { c with regs := Function.update c.regs .eax 9 }

theorem frame_leaves_null : Leaves flagsKept 0x500 0x3000 (returned 0) := by
  have hcall : InitCall (initCall 0) 0x3000 0x400 0 0x3000 :=
    ⟨by decide +kernel, by decide +kernel, by decide +kernel, by decide +kernel,
      (Lib.disjoint_area_of_le (by decide) (by decide)).symm,
      (Lib.disjoint_area_of_le (by decide) (by decide)).symm,
      (Lib.disjoint_area_of_le (by decide) (by decide)).symm⟩
  have hret : Returned 0x500 (run flagsKept (switched 0) efFiberRestore) (returned 0) :=
    ⟨by decide +kernel, by decide +kernel⟩
  have hsp : (switched 0).regs .esp =
      (run flagsKept (initCall 0) (efFiberInternalInit 0x500)).regs .eax := by decide +kernel
  obtain ⟨_, hkept⟩ := (frame_leaves flagsKept hcall hsp (fun _ _ => rfl)).2 _ hret
  exact (hkept (by decide +kernel)).mpr (Or.inl rfl)

/-- With a parameter, this is what is marked. -/
theorem frame_leaves_not : ¬ ∀ (c₀ c c' : Machine) (fiber proc param upper exitAddr : BitVec 32),
    InitCall c₀ fiber proc param upper →
    c.regs .esp = (run flagsKept c₀ (efFiberInternalInit exitAddr)).regs .eax →
    Set.EqOn (run flagsKept c₀ (efFiberInternalInit exitAddr)).mem c.mem (area (upper - 44) 44) →
    Returned exitAddr (run flagsKept c efFiberRestore) c' → Leaves flagsKept exitAddr fiber c' := by
  intro h
  have hcall : InitCall (initCall 0x7000) 0x3000 0x400 0x7000 0x3000 :=
    ⟨by decide +kernel, by decide +kernel, by decide +kernel, by decide +kernel,
      (Lib.disjoint_area_of_le (by decide) (by decide)).symm,
      (Lib.disjoint_area_of_le (by decide) (by decide)).symm,
      (Lib.disjoint_area_of_le (by decide) (by decide)).symm⟩
  have hret : Returned 0x500 (run flagsKept (switched 0x7000) efFiberRestore) (returned 0x7000) :=
    ⟨by decide +kernel, by decide +kernel⟩
  have hsp : (switched 0x7000).regs .esp =
      (run flagsKept (initCall 0x7000) (efFiberInternalInit 0x500)).regs .eax := by decide +kernel
  have hleaves := h _ _ _ _ _ _ _ _ hcall hsp (fun _ _ => rfl) hret
  have hslot := (leaves_iff flagsKept (c := returned 0x7000) (by decide +kernel)).mp hleaves
  exact absurd hslot (by decide +kernel)

end EFramework.Fiber.I386
