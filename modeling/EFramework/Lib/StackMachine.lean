import EFramework.Lib.ByteMemory
import Mathlib.Logic.Function.Basic

/-! # A machine with a stack

Registers, flags and a memory of bytes, with the instructions that context switches
are made of. One register is the stack pointer. What has been pushed is in memory in
the opposite order, and popping it in this order brings it back.
-/

namespace EFramework.Lib

universe u

@[ext]
structure Cpu (R : Type u) (w : Nat) where
  regs : R → BitVec w
  flags : BitVec w
  /-- Where control is. -/
  ip : BitVec w
  mem : Mem w

inductive Loc (R : Type u) where
  | reg (r : R)
  | flags
deriving Repr, DecidableEq

inductive Instr (R : Type u) (w : Nat) where
  | mov (src dst : R)
  | imm (v : BitVec w) (dst : R)
  /-- The operands are `disp(base)` and a register. -/
  | load (disp : Int) (base dst : R)
  | store (src : R) (disp : Int) (base : R)
  | push (l : Loc R)
  | pop (l : Loc R)
  | xor (src dst : R)
  | sub (v : BitVec w) (dst : R)
  | ret
deriving Repr, DecidableEq

namespace Cpu

variable {R : Type u} [DecidableEq R] {w : Nat}

def get (c : Cpu R w) : Loc R → BitVec w
  | .reg r => c.regs r
  | .flags => c.flags

def setReg (c : Cpu R w) (r : R) (v : BitVec w) : Cpu R w :=
  { c with regs := Function.update c.regs r v }

def set (c : Cpu R w) (l : Loc R) (v : BitVec w) : Cpu R w :=
  match l with
  | .reg r => c.setReg r v
  | .flags => { c with flags := v }

/-- One instruction. The stack pointer is `sp`, and `alu` says what arithmetic makes of the
flags. -/
def exec (sp : R) (alu : Instr R w → Cpu R w → BitVec w) (c : Cpu R w) (i : Instr R w) :
    Cpu R w :=
  match i with
  | .mov src dst => c.setReg dst (c.regs src)
  | .imm v dst => c.setReg dst v
  | .load disp base dst => c.setReg dst (c.mem.load (c.regs base + BitVec.ofInt w disp))
  | .store src disp base =>
      { c with mem := c.mem.store (c.regs base + BitVec.ofInt w disp) (c.regs src) }
  | .push l =>
      let a := c.regs sp - BitVec.ofNat w (w / 8)
      { c.setReg sp a with mem := c.mem.store a (c.get l) }
  | .pop l =>
      (c.setReg sp (c.regs sp + BitVec.ofNat w (w / 8))).set l (c.mem.load (c.regs sp))
  | .xor src dst =>
      { c.setReg dst (c.regs dst ^^^ c.regs src) with flags := alu i c }
  | .sub v dst => { c.setReg dst (c.regs dst - v) with flags := alu i c }
  | .ret =>
      { c.setReg sp (c.regs sp + BitVec.ofNat w (w / 8)) with ip := c.mem.load (c.regs sp) }

def execs (sp : R) (alu : Instr R w → Cpu R w → BitVec w) (c : Cpu R w) (code : List (Instr R w)) :
    Cpu R w :=
  code.foldl (exec sp alu) c

def writes (sp : R) (c : Cpu R w) : Instr R w → List (BitVec w × BitVec w)
  | .store src disp base => [(c.regs base + BitVec.ofInt w disp, c.regs src)]
  | .push l => [(c.regs sp - BitVec.ofNat w (w / 8), c.get l)]
  | .mov _ _ | .imm _ _ | .load _ _ _ | .pop _ | .xor _ _ | .sub _ _ | .ret => []

def allWrites (sp : R) (alu : Instr R w → Cpu R w → BitVec w) :
    Cpu R w → List (Instr R w) → List (BitVec w × BitVec w)
  | _, [] => []
  | c, i :: code => c.writes sp i ++ allWrites sp alu (c.exec sp alu i) code

variable {sp : R} {alu : Instr R w → Cpu R w → BitVec w} {c : Cpu R w} {ls : List (Loc R)}

theorem execs_append (c : Cpu R w) (code code' : List (Instr R w)) :
    c.execs sp alu (code ++ code') = (c.execs sp alu code).execs sp alu code' :=
  List.foldl_append

theorem execs_append_of {c' : Cpu R w} {code : List (Instr R w)} (h : c.execs sp alu code = c')
    (code' : List (Instr R w)) : c.execs sp alu (code ++ code') = c'.execs sp alu code' := by
  rw [execs_append, h]

theorem execs_cons (c : Cpu R w) (i : Instr R w) (code : List (Instr R w)) :
    c.execs sp alu (i :: code) = (c.exec sp alu i).execs sp alu code := rfl

theorem allWrites_append (c : Cpu R w) (code code' : List (Instr R w)) :
    allWrites sp alu c (code ++ code') =
      allWrites sp alu c code ++ allWrites sp alu (c.execs sp alu code) code' := by
  induction code generalizing c with
  | nil => rfl
  | cons i code ih => rw [List.cons_append, allWrites, allWrites, ih, List.append_assoc, execs_cons]

theorem get_setReg_of_ne (c : Cpu R w) {r : R} {l : Loc R} (h : l ≠ .reg r) (v : BitVec w) :
    (c.setReg r v).get l = c.get l := by
  cases l with
  | reg r' => exact Function.update_of_ne (fun he => h (congrArg Loc.reg he)) _ _
  | flags => rfl

theorem get_set_self (c : Cpu R w) (l : Loc R) (v : BitVec w) : (c.set l v).get l = v := by
  cases l with
  | reg r => exact Function.update_self _ _ _
  | flags => rfl

theorem get_set_of_ne (c : Cpu R w) {l l' : Loc R} (h : l' ≠ l) (v : BitVec w) :
    (c.set l v).get l' = c.get l' := by
  cases l with
  | reg r => exact c.get_setReg_of_ne h v
  | flags =>
      cases l' with
      | reg r => rfl
      | flags => exact absurd rfl h

theorem set_mem (c : Cpu R w) (l : Loc R) (v : BitVec w) : (c.set l v).mem = c.mem := by
  cases l <;> rfl

theorem set_ip (c : Cpu R w) (l : Loc R) (v : BitVec w) : (c.set l v).ip = c.ip := by
  cases l <;> rfl

/-! ## Pushing -/

theorem execs_push (sp : R) (alu : Instr R w → Cpu R w → BitVec w) (c : Cpu R w)
    (ls : List (Loc R)) (hsp : .reg sp ∉ ls) :
    c.execs sp alu (ls.map .push) =
      { c.setReg sp (c.regs sp - BitVec.ofNat w (w / 8 * ls.length)) with
        mem := c.mem.pushes (c.regs sp) (ls.map c.get) } := by
  induction ls generalizing c with
  | nil =>
      have hsame : c.regs sp - BitVec.ofNat w (w / 8 * 0) = c.regs sp := by simp
      rw [List.length_nil, hsame]
      unfold setReg
      rw [Function.update_eq_self]
      rfl
  | cons l ls ih =>
      obtain ⟨hl, hls⟩ := not_or.mp (fun hc => hsp (List.mem_cons.mpr hc))
      have htop : (c.exec sp alu (.push l)).regs sp = c.regs sp - BitVec.ofNat w (w / 8) :=
        Function.update_self _ _ _
      have hget : ls.map (c.exec sp alu (.push l)).get = ls.map c.get :=
        List.map_congr_left (fun l' hl' => c.get_setReg_of_ne (fun hc => hls (hc ▸ hl')) _)
      have hnext : c.regs sp - BitVec.ofNat w (w / 8) - BitVec.ofNat w (w / 8 * ls.length) =
          c.regs sp - BitVec.ofNat w (w / 8 * (l :: ls).length) := by
        rw [sub_sub, ← BitVec.ofNat_add, List.length_cons, Nat.mul_succ, Nat.add_comm]
      rw [List.map_cons, execs_cons, ih _ hls, htop, hget, hnext]
      unfold exec setReg
      dsimp only
      rw [Function.update_idem]
      rfl

/-! ## Popping -/

/-- What the stack holds comes back. -/
theorem execs_pop (sp : R) (alu : Instr R w → Cpu R w → BitVec w) (c : Cpu R w)
    (ls : List (Loc R)) (f : Loc R → BitVec w) (hsp : .reg sp ∉ ls)
    (h : c.mem.Holds (c.regs sp) (ls.map f)) :
    (c.execs sp alu (ls.map .pop)).mem = c.mem ∧ (c.execs sp alu (ls.map .pop)).ip = c.ip ∧
      (c.execs sp alu (ls.map .pop)).regs sp =
        c.regs sp + BitVec.ofNat w (w / 8 * ls.length) ∧
      (∀ l ∈ ls, (c.execs sp alu (ls.map .pop)).get l = f l) ∧
      ∀ l, l ∉ ls → l ≠ .reg sp → (c.execs sp alu (ls.map .pop)).get l = c.get l := by
  induction ls generalizing c with
  | nil =>
      refine ⟨rfl, rfl, ?_, fun l hl => absurd hl List.not_mem_nil, fun _ _ _ => rfl⟩
      simp [execs]
  | cons l ls ih =>
      obtain ⟨hl, hls⟩ := not_or.mp (fun hc => hsp (List.mem_cons.mpr hc))
      obtain ⟨hv, hvs⟩ := h
      have hmem : (c.exec sp alu (.pop l)).mem = c.mem := set_mem _ _ _
      have hip : (c.exec sp alu (.pop l)).ip = c.ip := set_ip _ _ _
      have htop : (c.exec sp alu (.pop l)).regs sp = c.regs sp + BitVec.ofNat w (w / 8) := by
        refine (get_set_of_ne _ (show Loc.reg sp ≠ l from hl) _).trans ?_
        exact Function.update_self _ _ _
      obtain ⟨hmem', hip', hsp', hin, hout⟩ := ih (c.exec sp alu (.pop l)) hls
        (by rw [hmem, htop]; exact hvs)
      rw [List.map_cons, execs_cons]
      refine ⟨hmem'.trans hmem, hip'.trans hip, ?_, fun l' hl' => ?_, fun l' hl' hne => ?_⟩
      · rw [hsp', htop, add_assoc, ← BitVec.ofNat_add, List.length_cons, Nat.mul_succ,
          Nat.add_comm]
      · by_cases hagain : l' ∈ ls
        · exact hin l' hagain
        · obtain rfl := (List.mem_cons.mp hl').resolve_right hagain
          rw [hout l' hagain (Ne.symm hl)]
          exact (get_set_self _ _ _).trans hv
      · obtain ⟨hne', hnot⟩ := not_or.mp (fun hc => hl' (List.mem_cons.mpr hc))
        rw [hout l' hnot hne]
        exact (get_set_of_ne _ hne' _).trans (get_setReg_of_ne _ hne _)

theorem execs_pop_ret (sp : R) (alu : Instr R w → Cpu R w → BitVec w) (c : Cpu R w)
    (ls : List (Loc R)) (f : Loc R → BitVec w) {ra : BitVec w} (hsp : .reg sp ∉ ls)
    (h : c.mem.Holds (c.regs sp) (ls.map f ++ [ra])) :
    (c.execs sp alu (ls.map .pop ++ [.ret])).mem = c.mem ∧
      (c.execs sp alu (ls.map .pop ++ [.ret])).ip = ra ∧
      (c.execs sp alu (ls.map .pop ++ [.ret])).regs sp =
        c.regs sp + BitVec.ofNat w (w / 8 * (ls.length + 1)) ∧
      (∀ l ∈ ls, (c.execs sp alu (ls.map .pop ++ [.ret])).get l = f l) ∧
      ∀ l, l ∉ ls → l ≠ .reg sp →
        (c.execs sp alu (ls.map .pop ++ [.ret])).get l = c.get l := by
  obtain ⟨hholds, hra, _⟩ := Mem.Holds.append.mp h
  obtain ⟨hmem, _, htop, hin, hout⟩ := execs_pop sp alu c ls f hsp hholds
  have hret : ∀ l, l ≠ .reg sp →
      (c.execs sp alu (ls.map .pop ++ [.ret])).get l = (c.execs sp alu (ls.map .pop)).get l := by
    intro l hl
    rw [execs_append]
    exact get_setReg_of_ne _ hl _
  refine ⟨?_, ?_, ?_, fun l hl => ?_, fun l hl hne => ?_⟩
  · rw [execs_append, ← hmem]
    rfl
  · rw [execs_append]
    change (c.execs sp alu (ls.map .pop)).mem.load ((c.execs sp alu (ls.map .pop)).regs sp) = ra
    rw [hmem, htop, ← hra, List.length_map]
  · rw [execs_append]
    refine (Function.update_self _ _ _).trans ?_
    rw [htop, add_assoc, ← BitVec.ofNat_add, Nat.mul_succ]
  · rw [hret l (by rintro rfl; exact hsp hl), hin l hl]
  · rw [hret l hne, hout l hl hne]

end Cpu

end EFramework.Lib
