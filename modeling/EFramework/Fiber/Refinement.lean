import EFramework.Fiber.Discipline
import EFramework.Fiber.Transparent
import EFramework.Lib.Simulation

/-! # The machine refines the fibers

The code that runs on the machine minds its own memory, and it resumes only what is
fresh, suspended or exited. What the headers of the fibers and the frames on their stacks
say is then what the fields of the fibers say, and no switch goes astray: it never needs
to be assumed that a fiber can go on, or which one is the parent.
-/

namespace EFramework.Fiber.Amd64

open Lib (Instr Mem area)

universe u

variable {α : Type u}

/-! ## The code of the fibers -/

inductive Code (α : Type u) where
  | user (cpu : Machine)
  | init (fiber : α) (proc param : BitVec 64)
  | resume (target : α) (sndval : BitVec 64) (retval : Bool)
  | yield (sndval : BitVec 64)
  | exit

def resumerOf (h : History α) (running : Option α) : Option α :=
  running.bind (fun f => (h.resumer f).1)

/-- The step of the machine, where a yield and an exit are expected to go back. -/
def Code.act (h : History α) (running : Option α) : Code α → Act α
  | .user cpu => .user cpu
  | .init fiber proc param => .init fiber proc param
  | .resume target sndval _ => .resume target sndval
  | .yield sndval => .yield (resumerOf h running) sndval
  | .exit => .exit (resumerOf h running)

/-- The call that it is, if it is one. A procedure leaves its value in `rax`. -/
def Code.call (rax : BitVec 64) : Code α → Option (Fiber.Act α)
  | .user _ => none
  | .init fiber proc param => some (.init fiber proc.toNat param.toNat)
  | .resume target sndval retval => some (.resume target sndval.toInt retval)
  | .yield sndval => some (.yield sndval.toInt)
  | .exit => some (.exit rax.toInt)

/-- Only what the code itself sees to: where it writes, which fibers it resumes and initialises,
the room on its stack, and the stack that its procedure returns with. -/
def Behaved (l : Layout α) (t : World α × History α) : Code α → Prop
  | .user cpu => Set.EqOn cpu.mem t.1.cpu.mem (l.own t.1.running ∪ l.reservedᶜ)ᶜ
  | .init fiber _ _ => t.2.life fiber ≠ .active
  | .resume target _ _ =>
      (t.2.life target = .fresh ∨ t.2.life target = .suspended ∨ t.2.life target = .exited) ∧
        Nested l t.1
  | .yield _ => t.1.running ≠ none ∧ Nested l t.1
  | .exit => ∃ f, t.1.running = some f ∧ t.1.cpu.regs .rsp = l.upper f - 16

def Started (l : Layout α) (t : World α × History α) : Prop :=
  Initial l t.1 ∧ ∀ f, t.2.life f = .unborn

/-- The context of a fiber, as a frame. -/
def Stands (l : Layout α) (f : Option α) : Point α → Stage → Prop
  | .entry proc param, st =>
      st = .fresh (BitVec.ofNat 64 proc) (param.elim (l.header f) (BitVec.ofNat 64))
  | .resume target _, st =>
      ∃ c sndval, st = .waiting (efFiberResume c l.sched (l.header (some target)) sndval)
  | .yield, st => ∃ c sndval, st = .waiting (efFiberYield c l.sched sndval)

/-- The thread, and the fibers that have a context when they do not run. -/
def Alive (h : History α) (f : Option α) : Prop :=
  ∀ g, f = some g → h.life g ≠ .unborn ∧ h.life g ≠ .exited

/-- What the machine is, next to the fields of the fibers. -/
structure Embodies (l : Layout α) (exitAddr : BitVec 64) (t : World α × History α)
    (u : FiberSched α × History α) : Prop where
  history : u.2 = t.2
  machine : Inv l exitAddr t.1
  running : u.1.running = t.1.running
  parent : ∀ f, t.2.life f = .active →
    t.1.cpu.mem.load (field (l.header (some f)) fiberParentOffset) = l.header (u.1.parent f)
  status : ∀ f, t.2.life f ≠ .unborn →
    t.1.cpu.mem.load (field (l.header (some f)) fiberStatusOffset) =
      BitVec.ofInt 64 (u.1.status f)
  stands : ∀ f, f ≠ t.1.running → Alive t.2 f →
    Stands l f (u.1.stackPtr f).point (t.1.stage f)

section Steps

variable [DecidableEq α]

def stepCode (l : Layout α) (alu : Instr Reg 64 → Machine → BitVec 64) (exitAddr : BitVec 64)
    (t : World α × History α) (a : Code α) : Option (World α × History α) :=
  (step l alu exitAddr t.1 (a.act t.2 t.1.running)).map (fun w =>
    (w, (a.call (t.1.cpu.regs .rax)).elim t.2 (t.2.step t.1.running)))

end Steps

variable {l : Layout α} {exitAddr : BitVec 64} {alu : Instr Reg 64 → Machine → BitVec 64}
  {m m' : Mem 64} {c : Machine} {w w' : World α} {h : History α} {s s' : FiberSched α}
  {t t' : World α × History α} {u : FiberSched α × History α} {f : α} {g r : Option α} {i : Nat}

theorem resumerOf_running (hf : r = some f) : resumerOf h r = (h.resumer f).1 := by
  subst hf
  rfl

/-! ## What is in the headers -/

theorem load_kept {out : Set (BitVec 64)} (he : Set.EqOn m m' outᶜ)
    (hd : Disjoint (l.cell g i) out) :
    m'.load (l.header g + BitVec.ofNat 64 i) = m.load (l.header g + BitVec.ofNat 64 i) :=
  load_cell (he.mono fun _ hx => Set.disjoint_left.mp hd hx)

theorem user_load (he : Set.EqOn c.mem m (l.own r ∪ l.reservedᶜ)ᶜ) (hi : i + 8 ≤ 64) :
    c.mem.load (l.header g + BitVec.ofNat 64 i) = m.load (l.header g + BitVec.ofNat 64 i) := by
  refine load_kept he.symm (Set.disjoint_union_right.mpr ⟨?_, ?_⟩)
  · exact ((l.stack_cell r g hi).mono_left (l.own_subset r)).symm
  · exact Set.disjoint_left.mpr fun x hx hc => hc (Or.inl ⟨g, Or.inr (Layout.cell_subset g hi hx)⟩)

theorem restore_mem (alu : Instr Reg 64 → Machine → BitVec 64) (c : Machine) :
    (run alu c efFiberRestore).mem = c.mem := rfl

theorem init_load (hi : Fields l c.mem f) (proc param : BitVec 64) (hj : i + 8 ≤ 64)
    (hord : g ≠ some f ∨ 48 ≤ i) :
    (efFiberInit alu exitAddr c (l.header (some f)) proc param).mem.load
        (l.header g + BitVec.ofNat 64 i) = c.mem.load (l.header g + BitVec.ofNat 64 i) := by
  refine load_kept (init_frame exitAddr alu hi proc param).1 ?_
  refine Set.disjoint_union_right.mpr ⟨Set.disjoint_union_right.mpr ⟨?_, ?_⟩, ?_⟩
  · by_cases hg : g = some f
    · subst hg
      exact (l.cell_disjoint _ (hord.resolve_left (not_not.mpr rfl)) hj).symm
    · exact Layout.cells_disjoint hg hj (by decide)
  · by_cases hg : g = some f
    · subst hg
      have := hord.resolve_left (not_not.mpr rfl)
      exact (l.cell_disjoint _ (by omega) hj).symm
    · exact Layout.cells_disjoint hg hj (by decide)
  · exact ((l.stack_cell (some f) g hj).mono_left (l.room f)).symm

variable (alu exitAddr) in
theorem init_status (hi : Fields l c.mem f) (proc param : BitVec 64) :
    (efFiberInit alu exitAddr c (l.header (some f)) proc param).mem.load
      (field (l.header (some f)) fiberStatusOffset) = fiberStatusInited := by
  have hkept : Set.EqOn c.mem (c.mem.store (field (l.header (some f)) fiberStatusOffset)
      fiberStatusInited) (l.cell (some f) 40)ᶜ := (Mem.eqOn_store _ _ _).symm
  have hupper := (load_kept hkept (l.cell_disjoint (some f) (show 16 + 8 ≤ 40 by decide)
    (by decide))).trans hi.1
  have hsp : Disjoint (l.cell (some f) 40) (l.cell (some f) 32) :=
    (l.cell_disjoint (some f) (show 32 + 8 ≤ 40 by decide) (by decide)).symm
  unfold efFiberInit
  generalize (if param ≠ 0 then param else l.header (some f)) = param'
  dsimp only
  obtain ⟨hmem, -⟩ := init_spec alu exitAddr
    (show (call c (l.header (some f)) proc param').regs .rdi = l.header (some f) from rfl)
    (show (call c (l.header (some f)) proc param').regs .rsi = proc from rfl)
    (show (call c (l.header (some f)) proc param').regs .rdx = param' from rfl) hupper
  have hpushed := (Mem.pushes_spec (c.mem.store (field (l.header (some f)) fiberStatusOffset)
    fiberStatusInited) (l.upper f) (initialFrame exitAddr (l.header (some f)) proc param'
    (l.upper f)) words (by decide) (show 128 ≤ 2 ^ 64 by decide)).2
  have hroom : Disjoint (l.cell (some f) 40) (area (l.upper f - 128) 128) :=
    ((l.stack_cell (some f) (some f) (by decide)).mono_left (l.room f)).symm
  rw [hmem]
  refine (Mem.load_store_of_disjoint words hsp _).trans ?_
  exact (load_kept hpushed.symm hroom).trans (Mem.load_store_self _ _ _ words (by decide))

theorem resume_load (sndval : BitVec 64) (hi : i + 8 ≤ 64) (hord : g ≠ some f ∨ i + 8 ≤ 48) :
    (efFiberResume c l.sched (l.header (some f)) sndval).mem.load
        (l.header g + BitVec.ofNat 64 i) = c.mem.load (l.header g + BitVec.ofNat 64 i) := by
  have hd : Disjoint (l.cell g i) (l.cell (some f) 48) := by
    by_cases hg : g = some f
    · subst hg
      exact l.cell_disjoint _ (hord.resolve_left (not_not.mpr rfl)) (by decide)
    · exact Layout.cells_disjoint hg hi (by decide)
  have hsched : Disjoint (l.cell g i) (area (field l.sched schedCurrentFiberOffset) 8) := by
    rw [field_sched]
    exact Layout.cell_sched g hi
  exact (Mem.load_store_of_disjoint words hsched _).trans (Mem.load_store_of_disjoint words hd _)

theorem resume_parent (c : Machine) (l : Layout α) (f : α) (sndval : BitVec 64) :
    (efFiberResume c l.sched (l.header (some f)) sndval).mem.load
        (field (l.header (some f)) fiberParentOffset) =
      c.mem.load (field l.sched schedCurrentFiberOffset) := by
  have hsched : Disjoint (l.cell (some f) 48) (area (field l.sched schedCurrentFiberOffset) 8) := by
    rw [field_sched]
    exact Layout.cell_sched (some f) (by decide)
  exact (Mem.load_store_of_disjoint words hsched _).trans
    (Mem.load_store_self _ _ _ words (by decide))

theorem yield_load (c : Machine) (l : Layout α) (g : Option α) (sndval : BitVec 64)
    (hi : i + 8 ≤ 64) :
    (efFiberYield c l.sched sndval).mem.load (l.header g + BitVec.ofNat 64 i) =
      c.mem.load (l.header g + BitVec.ofNat 64 i) := by
  have hsched : Disjoint (l.cell g i) (area (field l.sched schedCurrentFiberOffset) 8) := by
    rw [field_sched]
    exact Layout.cell_sched g hi
  exact Mem.load_store_of_disjoint words hsched _

theorem swap_load [DecidableEq α]
    (hsi : c.regs .rsi = field (l.header w.running) fiberStackPtrOffset)
    (hown : area (c.regs .rsp - 104) 112 ⊆ l.own w.running) (hi : 40 ≤ i) (hi' : i + 8 ≤ 64) :
    (w.swap alu c r).cpu.mem.load (l.header g + BitVec.ofNat 64 i) =
      c.mem.load (l.header g + BitVec.ofNat 64 i) := by
  have hmem : (w.swap alu c r).cpu.mem = (swapped c).mem :=
    (congrArg Lib.Cpu.mem (run_swap alu c)).trans (restore_mem alu _)
  have hframe : Disjoint (l.cell g i) (area (c.regs .rsp - 104) 104) := by
    refine ((l.stack_cell w.running g hi').mono_left ?_).symm
    exact (Lib.area_mono _ (by decide)).trans (hown.trans (l.own_subset _))
  have hptr : Disjoint (l.cell g i) (l.cell w.running 32) := by
    by_cases hg : g = w.running
    · subst hg
      exact (l.cell_disjoint _ (by omega) hi').symm
    · exact Layout.cells_disjoint hg hi' (by decide)
  rw [hmem]
  exact load_kept (swapped_spec hsi hown).1 (Set.disjoint_union_right.mpr ⟨hframe, hptr⟩)

variable (alu) in
theorem exit_load (hslots : Slots l exitAddr c.mem (some f)) (hsp : c.regs .rsp = l.upper f - 16)
    (hfields : Fields l c.mem f)
    (hparent : c.mem.load (field (l.header (some f)) fiberParentOffset) = l.header r)
    (hi : i + 8 ≤ 64) (hord : g ≠ some f ∨ 48 ≤ i) :
    (run alu c (.ret :: efFiberExit)).mem.load (l.header g + BitVec.ofNat 64 i) =
      c.mem.load (l.header g + BitVec.ofNat 64 i) := by
  obtain ⟨hmem, -, htop, -⟩ := ret_spec alu c
  have hbehind : (run alu c [.ret]).mem.load ((run alu c [.ret]).regs .rsp) =
      l.header (some f) := by
    rw [hmem, htop, hsp]
    exact hslots.2.1
  have hkept := (exit_spec hbehind (hmem ▸ hfields) (hmem ▸ hparent)).1
  rw [run_ret_exit, restore_mem]
  refine load_kept (hmem ▸ hkept) (Set.disjoint_union_right.mpr ⟨?_, Layout.cell_sched g hi⟩)
  by_cases hg : g = some f
  · subst hg
    exact (l.cell_disjoint _ (hord.resolve_left (not_not.mpr rfl)) hi).symm
  · exact Layout.cells_disjoint hg hi (by decide)

/-! ## Where a switch leads -/

theorem Stands.ready {point : Point α} {st : Stage} (hst : Stands l g point st) : st.Ready := by
  cases point with
  | entry proc param =>
      obtain rfl := hst
      trivial
  | resume target retval =>
      obtain ⟨c, sndval, rfl⟩ := hst
      trivial
  | yield =>
      obtain ⟨c, sndval, rfl⟩ := hst
      trivial

theorem Stands.init (l : Layout α) (f : α) (proc param : BitVec 64) :
    Stands l (some f) (.entry proc.toNat (if param.toNat ≠ 0 then some param.toNat else none))
      (.fresh proc (if param ≠ 0 then param else l.header (some f))) := by
  have hiff : param.toNat ≠ 0 ↔ param ≠ 0 := (BitVec.toNat_inj (y := 0)).not
  unfold Stands
  dsimp only
  rw [BitVec.ofNat_toNat, BitVec.setWidth_eq]
  by_cases hp : param ≠ 0
  · rw [if_pos hp, if_pos (hiff.mpr hp), Option.elim_some, BitVec.ofNat_toNat, BitVec.setWidth_eq]
  · rw [if_neg hp, if_neg (fun hc => hp (hiff.mp hc)), Option.elim_none]

theorem Alive.of_life {life : Life} (hf : h.life f = life) (hb : life ≠ .unborn)
    (hx : life ≠ .exited) : Alive h (some f) := by
  intro g hg
  obtain rfl := Option.some.inj hg
  exact hf ▸ ⟨hb, hx⟩

theorem Embodies.target (hR : Embodies l exitAddr (w, h) (s, h)) (hi : Fiber.Inv (s, h))
    (hf : h.life f = .fresh ∨ h.life f = .suspended) :
    some f ≠ w.running ∧ Stands l (some f) (s.stackPtr (some f)).point (w.stage (some f)) := by
  have hne : some f ≠ w.running := by
    intro he
    have hactive : h.life f = .active :=
      hi.current_active (hi.running.symm.trans (hR.running.trans he.symm))
    rw [hactive] at hf
    rcases hf with hf | hf <;> cases hf
  refine ⟨hne, hR.stands (some f) hne ?_⟩
  rcases hf with hf | hf <;> exact Alive.of_life hf (by decide) (by decide)

/-- The running fiber goes back to the resume that has activated it. -/
theorem Embodies.back (hR : Embodies l exitAddr (w, h) (s, h)) (hi : Fiber.Inv (s, h))
    (hf : w.running = some f) :
    s.parent f = (h.resumer f).1 ∧
      w.cpu.mem.load (field (l.header w.running) fiberParentOffset) =
        l.header (h.resumer f).1 ∧
      (h.resumer f).1 ≠ w.running ∧
      ∃ c sndval, w.stage (h.resumer f).1 =
        .waiting (efFiberResume c l.sched (l.header (some f)) sndval) := by
  have hc : s.currentFiber = some f := hi.running.symm.trans (hR.running.trans hf)
  have hactive : h.life f = .active := hi.current_active hc
  have hparent : s.parent f = (h.resumer f).1 := (hi.fits f).resumer hactive
  have hwaits : s.stackPtr (s.parent f) = ⟨s.parent f, .resume f (h.resumer f).2⟩ :=
    (hi.fits f).waits hactive
  have hne : s.parent f ≠ w.running := by
    rw [← hR.running]
    exact fun he => hi.parent_ne hactive (he.trans hi.running)
  have halive : Alive h (s.parent f) := fun g hg => by
    have hg : h.life g = .active := hi.parent_active hactive hg
    rw [hg]
    exact ⟨by decide, by decide⟩
  have hstands := hR.stands (s.parent f) hne halive
  dsimp only at hstands
  rw [hwaits] at hstands
  rw [← hparent]
  refine ⟨rfl, ?_, hne, hstands⟩
  rw [hf]
  exact hR.parent f hactive

/-! ## One step of both -/

variable [DecidableEq α]

theorem Embodies.user (hR : Embodies l exitAddr (w, h) (s, h))
    (he : Set.EqOn c.mem w.cpu.mem (l.own w.running ∪ l.reservedᶜ)ᶜ) :
    Embodies l exitAddr ({ w with cpu := c }, h) (s, h) where
  history := rfl
  machine := hR.machine.user he
  running := hR.running
  parent f hf := (user_load he (show 48 + 8 ≤ 64 by decide)).trans (hR.parent f hf)
  status f hf := (user_load he (show 40 + 8 ≤ 64 by decide)).trans (hR.status f hf)
  stands := hR.stands

theorem Alive.of_set {life : Life} (hg : Alive (h.set f life) g) (hne : g ≠ some f) :
    Alive h g := by
  rintro g' rfl
  have hlife : (h.set f life).life g' = h.life g' :=
    Function.update_of_ne (fun he : g' = f => hne (congrArg some he)) _ _
  exact hlife ▸ hg g' rfl

variable (alu) in
theorem Embodies.init (hR : Embodies l exitAddr (w, h) (s, h)) (hi : Fiber.Inv (s, h))
    (hf : h.life f ≠ .active) (proc param : BitVec 64) :
    Embodies l exitAddr
      ({ w with
        cpu := efFiberInit alu exitAddr w.cpu (l.header (some f)) proc param
        stage := Function.update w.stage (some f)
          (.fresh proc (if param ≠ 0 then param else l.header (some f))) }, h.set f .fresh)
      (s.efFiberInit f proc.toNat param.toNat, h.set f .fresh) := by
  have hne : w.running ≠ some f := fun he =>
    hf (hi.current_active (hi.running.symm.trans (hR.running.trans he)))
  have hfields := hR.machine.fields f
  have hself : (h.set f .fresh).life f = .fresh := Function.update_self _ _ _
  have hother : ∀ g, g ≠ f → (h.set f .fresh).life g = h.life g :=
    fun g hg => Function.update_of_ne hg _ _
  refine ⟨rfl, hR.machine.init hne proc param, hR.running, fun g hg => ?_, fun g hg => ?_,
    fun g hg ha => ?_⟩
  · have hgf : g ≠ f := by
      rintro rfl
      cases hself.symm.trans hg
    rw [show (h.set f .fresh).life g = h.life g from hother g hgf] at hg
    exact (init_load hfields proc param (by decide) (Or.inr (le_refl 48))).trans (hR.parent g hg)
  · by_cases hgf : g = f
    · subst hgf
      have hstatus : (s.efFiberInit g proc.toNat param.toNat).status g = Fiber.fiberStatusInited :=
        Function.update_self _ _ _
      rw [hstatus]
      exact init_status exitAddr alu hfields proc param
    · have hstatus : (s.efFiberInit f proc.toNat param.toNat).status g = s.status g :=
        Function.update_of_ne hgf _ _
      rw [show (h.set f .fresh).life g = h.life g from hother g hgf] at hg
      rw [hstatus]
      have hsome : some g ≠ some f := fun he => hgf (Option.some.inj he)
      exact (init_load hfields proc param (show 40 + 8 ≤ 64 by decide) (Or.inl hsome)).trans
        (hR.status g hg)
  · by_cases hgf : g = some f
    · subst hgf
      have hptr : (s.efFiberInit f proc.toNat param.toNat).stackPtr (some f) = ⟨some f,
          .entry proc.toNat (if param.toNat ≠ 0 then some param.toNat else none)⟩ :=
        Function.update_self _ _ _
      dsimp only
      rw [hptr, Function.update_self]
      exact Stands.init l f proc param
    · have hptr : (s.efFiberInit f proc.toNat param.toNat).stackPtr g = s.stackPtr g :=
        Function.update_of_ne hgf _ _
      dsimp only
      rw [hptr, Function.update_of_ne hgf]
      exact hR.stands g hg (ha.of_set hgf)

theorem Embodies.swap {h' : History α} (point : Point α) (hR : Embodies l exitAddr (w, h) (s, h))
    (hinv : Inv l exitAddr (w.swap alu c r)) (hrunning : s'.running = r)
    (hparent : ∀ f, h'.life f = .active →
      c.mem.load (field (l.header (some f)) fiberParentOffset) = l.header (s'.parent f))
    (hstatus : ∀ f, h'.life f ≠ .unborn →
      c.mem.load (field (l.header (some f)) fiberStatusOffset) = BitVec.ofInt 64 (s'.status f))
    (hptr : s'.stackPtr = Function.update s.stackPtr w.running ⟨w.running, point⟩)
    (hpoint : Stands l w.running point (.waiting c))
    (halive : ∀ g, g ≠ r → g ≠ w.running → Alive h' g → Alive h g)
    (hsi : c.regs .rsi = field (l.header w.running) fiberStackPtrOffset)
    (hown : area (c.regs .rsp - 104) 112 ⊆ l.own w.running) :
    Embodies l exitAddr (w.swap alu c r, h') (s', h') := by
  refine ⟨rfl, hinv, hrunning, fun g hg => ?_, fun g hg => ?_, fun g hg ha => ?_⟩
  · exact (swap_load hsi hown (show 40 ≤ 48 by decide) (by decide)).trans (hparent g hg)
  · exact (swap_load hsi hown (show 40 ≤ 40 by decide) (by decide)).trans (hstatus g hg)
  · have hgr : g ≠ r := hg
    have hstage : (w.swap alu c r).stage g =
        Function.update w.stage w.running (.waiting c) g := Function.update_of_ne hgr _ _
    dsimp only
    rw [hstage, hptr]
    by_cases hgw : g = w.running
    · subst hgw
      rw [Function.update_self, Function.update_self]
      exact hpoint
    · rw [Function.update_of_ne hgw, Function.update_of_ne hgw]
      exact hR.stands g hgw (halive g hgr hgw ha)

theorem Embodies.resume (hR : Embodies l exitAddr (w, h) (s, h)) (hi : Fiber.Inv (s, h))
    (hf : h.life f = .fresh ∨ h.life f = .suspended) (hown : Nested l w) (sndval : BitVec 64)
    (retval : Bool) :
    Embodies l exitAddr
      (w.swap alu (efFiberResume w.cpu l.sched (l.header (some f)) sndval) (some f),
        { h.set f .active with resumer := Function.update h.resumer f (w.running, retval) })
      (activated s f retval,
        { h.set f .active with resumer := Function.update h.resumer f (w.running, retval) }) := by
  have hother : ∀ g, g ≠ f → (h.set f .active).life g = h.life g :=
    fun g hg => Function.update_of_ne hg _ _
  have hrunning : s.running = w.running := hR.running
  obtain ⟨hne, hstands⟩ := hR.target hi hf
  refine hR.swap (.resume f retval) (hR.machine.resume hstands.ready hown).1 rfl
    (fun g hg => ?_) (fun g hg => ?_) ?_ ⟨_, _, rfl⟩ (fun g hgf _ ha => ha.of_set hgf)
    (congrArg (field · fiberStackPtrOffset) hR.machine.current) hown
  · by_cases hgf : g = f
    · subst hgf
      have hp : (activated s g retval).parent g = s.running := Function.update_self _ _ _
      rw [hp, hrunning, resume_parent]
      exact hR.machine.current
    · have hp : (activated s f retval).parent g = s.parent g := Function.update_of_ne hgf _ _
      have hsome : some g ≠ some f := fun he => hgf (Option.some.inj he)
      rw [hp]
      refine (resume_load sndval (show 48 + 8 ≤ 64 by decide) (Or.inl hsome)).trans ?_
      exact hR.parent g ((hother g hgf).symm.trans hg)
  · refine (resume_load sndval (show 40 + 8 ≤ 64 by decide) (Or.inr (le_refl 48))).trans ?_
    refine hR.status g ?_
    by_cases hgf : g = f
    · subst hgf
      rcases hf with hf | hf <;> rw [show (w, h).2.life g = _ from hf] <;> decide
    · exact (hother g hgf) ▸ hg
  · exact hrunning ▸ rfl

theorem efFiberYield_fields {o : Outcome α} {v : Int} (hc : s.currentFiber = some f)
    (hs : s.efFiberYield v = some (o, s')) :
    s'.parent = s.parent ∧ s'.status = s.status ∧
      s'.stackPtr = Function.update s.stackPtr (some f) ⟨s.running, .yield⟩ := by
  unfold FiberSched.efFiberYield FiberSched.swap at hs
  rw [hc] at hs
  cases hs
  exact ⟨rfl, rfl, rfl⟩

theorem efFiberExit_fields {o : Outcome α} {v : Int} (hr : s.running = some f)
    (hs : s.efFiberExit v = some (o, s')) :
    s'.parent = s.parent ∧ s'.status = Function.update s.status f Fiber.fiberStatusExited ∧
      s'.stackPtr = s.stackPtr := by
  unfold FiberSched.efFiberExit at hs
  rw [hr] at hs
  cases hs
  exact ⟨rfl, rfl, rfl⟩

variable (alu) in
theorem Embodies.yield (hR : Embodies l exitAddr (w, h) (s, h)) (hi : Fiber.Inv (s, h))
    (hf : w.running = some f) (hown : Nested l w) (sndval : BitVec 64) :
    ∃ u, stepBoth (s, h) (.yield sndval.toInt) = some u ∧
      Embodies l exitAddr (w.swap alu (efFiberYield w.cpu l.sched sndval) (h.resumer f).1,
        h.set f .suspended) u := by
  have hrunning : s.running = some f := hR.running.trans hf
  have hc : s.currentFiber = some f := hi.running.symm.trans hrunning
  have hactive : h.life f = .active := hi.current_active hc
  have hother : ∀ g, g ≠ f → (h.set f .suspended).life g = h.life g :=
    fun g hg => Function.update_of_ne hg _ _
  obtain ⟨hparent, hload, -, call, v, hstage⟩ := hR.back hi hf
  have hready : (w.stage (h.resumer f).1).Ready := hstage ▸ trivial
  obtain ⟨s', hs, hback, -⟩ := hi.yield hc sndval.toInt
  obtain ⟨hp, hst, hptr⟩ := efFiberYield_fields hc hs
  have hstep : h.step s.running (.yield sndval.toInt) = h.set f .suspended := by
    rw [hrunning]
    rfl
  refine ⟨(s', h.set f .suspended), ?_, ?_⟩
  · unfold stepBoth Fiber.step
    dsimp only
    rw [hs, hstep]
    rfl
  refine hR.swap .yield (hR.machine.yield hload hready hown).1 hback
    (fun g hg => ?_) (fun g hg => ?_) ?_ ⟨_, _, rfl⟩ (fun g _ hgw ha => ha.of_set (hf ▸ hgw))
    (congrArg (field · fiberStackPtrOffset) hR.machine.current) hown
  · have hgf : g ≠ f := by
      rintro rfl
      have hself : (h.set g .suspended).life g = .suspended := Function.update_self _ _ _
      cases hself.symm.trans hg
    rw [hp]
    refine (yield_load w.cpu l (some g) sndval (show 48 + 8 ≤ 64 by decide)).trans ?_
    exact hR.parent g ((hother g hgf).symm.trans hg)
  · rw [hst]
    refine (yield_load w.cpu l (some g) sndval (show 40 + 8 ≤ 64 by decide)).trans ?_
    refine hR.status g ?_
    by_cases hgf : g = f
    · rw [hgf, show (w, h).2.life f = _ from hactive]
      decide
    · exact (hother g hgf) ▸ hg
  · rw [hptr, hrunning, hf]

variable (alu) in
theorem Embodies.exit (hR : Embodies l exitAddr (w, h) (s, h)) (hi : Fiber.Inv (s, h))
    (hf : w.running = some f) (hsp : w.cpu.regs .rsp = l.upper f - 16) (ret : Int) :
    ∃ u, stepBoth (s, h) (.exit ret) = some u ∧
      Embodies l exitAddr (⟨run alu w.cpu (.ret :: efFiberExit), (h.resumer f).1,
        Function.update (Function.update w.stage w.running .idle) (h.resumer f).1 .running⟩,
        h.set f .exited) u := by
  have hrunning : s.running = some f := hR.running.trans hf
  have hc : s.currentFiber = some f := hi.running.symm.trans hrunning
  have hself : (h.set f .exited).life f = .exited := Function.update_self _ _ _
  have hother : ∀ g, g ≠ f → (h.set f .exited).life g = h.life g :=
    fun g hg => Function.update_of_ne hg _ _
  obtain ⟨hparent, hload, -, call, v, hstage⟩ := hR.back hi hf
  have hready : (w.stage (h.resumer f).1).Ready := hstage ▸ trivial
  obtain ⟨s', hs, hback, -⟩ := hi.exit hc ret
  obtain ⟨hp, hst, hptr⟩ := efFiberExit_fields hrunning hs
  have hstep : h.step s.running (.exit ret) = h.set f .exited := by
    rw [hrunning]
    rfl
  obtain ⟨hinv, -, -, hstatus⟩ := hR.machine.exit alu hf hload hready hsp
  have hslots := hR.machine.slots_running
  have hfields := hR.machine.fields f
  dsimp only at hslots hfields
  rw [hf] at hslots hload
  have hkept : ∀ {g i}, i + 8 ≤ 64 → (g ≠ some f ∨ 48 ≤ i) →
      (run alu w.cpu (.ret :: efFiberExit)).mem.load (l.header g + BitVec.ofNat 64 i) =
        w.cpu.mem.load (l.header g + BitVec.ofNat 64 i) :=
    exit_load alu hslots hsp hfields hload
  refine ⟨(s', h.set f .exited), ?_, rfl, hinv, hback, fun g hg => ?_, fun g hg => ?_,
    fun g hg ha => ?_⟩
  · unfold stepBoth Fiber.step
    dsimp only
    rw [hs, hstep]
    rfl
  · have hgf : g ≠ f := by
      rintro rfl
      cases hself.symm.trans hg
    dsimp only
    rw [hp]
    exact (hkept (show 48 + 8 ≤ 64 by decide) (Or.inr (le_refl 48))).trans
      (hR.parent g ((hother g hgf).symm.trans hg))
  · dsimp only
    rw [hst]
    by_cases hgf : g = f
    · subst hgf
      rw [Function.update_self]
      exact hstatus
    · rw [Function.update_of_ne hgf]
      have hsome : some g ≠ some f := fun he => hgf (Option.some.inj he)
      exact (hkept (show 40 + 8 ≤ 64 by decide) (Or.inl hsome)).trans
        (hR.status g ((hother g hgf) ▸ hg))
  · have hgf : g ≠ some f := by
      rintro rfl
      exact (ha f rfl).2 hself
    have hgr : g ≠ (h.resumer f).1 := hg
    dsimp only
    rw [hptr, hf, Function.update_of_ne hgr, Function.update_of_ne hgf]
    exact hR.stands g (hf ▸ hgf) (ha.of_set hgf)

/-! ## Runs -/

omit [DecidableEq α] in
theorem Started.embodies (h₀ : Started l t) :
    ∃ u, Fiber.Initial u ∧ Embodies l exitAddr t u := by
  obtain ⟨hinit, hlife⟩ := h₀
  refine ⟨(⟨none, fun _ => 0, fun _ => none, fun _ => ⟨none, .yield⟩, none⟩, t.2),
    ⟨rfl, rfl, hlife⟩, rfl, hinit.inv, hinit.running.symm, fun f hf => ?_, fun f hf => ?_,
    fun f hf ha => ?_⟩
  · cases (hlife f).symm.trans hf
  · exact absurd (hlife f) hf
  · cases f with
    | none => exact absurd hinit.running.symm hf
    | some f => exact absurd (hlife f) (ha f rfl).1

omit [DecidableEq α] in
theorem Embodies.allowed (hR : Embodies l exitAddr t u) (hi : Fiber.Inv u) {a : Code α}
    (hg : Behaved l t a) : Allowed l t.1 (a.act t.2 t.1.running) := by
  obtain ⟨w, h⟩ := t
  obtain ⟨s, h'⟩ := u
  obtain rfl : h' = h := hR.history
  cases a with
  | user c => exact hg
  | init f proc param =>
      intro he
      exact hg (hi.current_active (hi.running.symm.trans (hR.running.trans he)))
  | resume f sndval retval =>
      intro hinited
      obtain ⟨hf | hf | hf, hown⟩ := hg
      · exact ⟨(hR.target hi (Or.inl hf)).2.ready, hown⟩
      · exact ⟨(hR.target hi (Or.inr hf)).2.ready, hown⟩
      · have hf : h'.life f = .exited := hf
        have hstatus := hR.status f (by rw [show (w, h').2.life f = _ from hf]; decide)
        dsimp only at hstatus
        rw [show s.status f = Fiber.fiberStatusExited from (hi.fits f).exited hf] at hstatus
        exact absurd (hinited.symm.trans hstatus) (by decide)
  | yield sndval =>
      obtain ⟨hne, hown⟩ := hg
      obtain ⟨f, hf⟩ := Option.ne_none_iff_exists'.mp hne
      obtain ⟨-, hload, -, call, v, hstage⟩ := hR.back hi hf
      change Allowed l w (.yield (resumerOf h' w.running) sndval)
      rw [resumerOf_running hf]
      exact ⟨hload, hstage ▸ trivial, hown⟩
  | exit =>
      obtain ⟨f, hf, hsp⟩ := hg
      obtain ⟨-, hload, -, call, v, hstage⟩ := hR.back hi hf
      change Allowed l w (.exit (resumerOf h' w.running))
      rw [resumerOf_running hf]
      exact ⟨hload, hstage ▸ trivial, f, hf, hsp⟩

theorem Embodies.resume_exited (hR : Embodies l exitAddr (w, h) (s, h)) (hi : Fiber.Inv (s, h))
    (hf : h.life f = .exited) (sndval : BitVec 64) :
    step l alu exitAddr w (.resume f sndval) = some w := by
  have hstatus := hR.status f (by rw [show (w, h).2.life f = _ from hf]; decide)
  dsimp only at hstatus
  rw [show s.status f = Fiber.fiberStatusExited from (hi.fits f).exited hf] at hstatus
  unfold step
  dsimp only
  rw [hstatus, if_pos (by decide)]

theorem Embodies.resume_step (hR : Embodies l exitAddr (w, h) (s, h)) (hi : Fiber.Inv (s, h))
    (hf : h.life f = .fresh ∨ h.life f = .suspended) (sndval : BitVec 64) :
    step l alu exitAddr w (.resume f sndval) =
      some (w.swap alu (efFiberResume w.cpu l.sched (l.header (some f)) sndval) (some f)) := by
  have hborn : h.life f ≠ .unborn := by rcases hf with hf | hf <;> rw [hf] <;> decide
  have hinited : s.status f = Fiber.fiberStatusInited := (hi.fits f).inited (hf.imp_right Or.inr)
  have hstatus := hR.status f hborn
  dsimp only at hstatus
  rw [hinited] at hstatus
  unfold step
  dsimp only
  rw [hstatus, if_neg (by decide)]

/-- One step of the code is none of the fibers, or it is one. -/
theorem Embodies.step (hR : Embodies l exitAddr t u) (hi : Fiber.Inv u) {a : Code α}
    (hg : Behaved l t a) (hs : stepCode l alu exitAddr t a = some t') :
    ∃ u', Lib.Steps stepBoth (fun u a => disciplined u a = true) u u' ∧
      Embodies l exitAddr t' u' := by
  obtain ⟨w, h⟩ := t
  obtain ⟨s, h'⟩ := u
  obtain rfl : h' = h := hR.history
  obtain ⟨w', hstep, rfl⟩ := Option.map_eq_some_iff.mp hs
  cases a with
  | user c =>
      cases hstep
      exact ⟨_, .refl _, hR.user hg⟩
  | init f proc param =>
      cases hstep
      have hf : h'.life f ≠ .active := hg
      exact ⟨_, .one (a := .init f proc.toNat param.toNat) (decide_eq_true hf) rfl,
        hR.init alu hi hf proc param⟩
  | resume f sndval retval =>
      obtain ⟨hlife, hown⟩ := hg
      have hrunning : s.running = w.running := hR.running
      have hguard : disciplined (s, h') (.resume f sndval.toInt retval) = true :=
        decide_eq_true hlife
      by_cases hx : h'.life f = .exited
      · have hw' : w' = w := Option.some.inj (hstep.symm.trans (hR.resume_exited hi hx sndval))
        have hsame : h'.step w.running (.resume f sndval.toInt retval) = h' := if_pos hx
        refine ⟨_, .refl _, ?_⟩
        change Embodies l exitAddr (w', h'.step w.running (.resume f sndval.toInt retval)) _
        rw [hsame, hw']
        exact hR
      · have hto : h'.life f = .fresh ∨ h'.life f = .suspended :=
          hlife.imp_right (fun hc => hc.resolve_right hx)
        obtain rfl := Option.some.inj (hstep.symm.trans (hR.resume_step hi hto sndval))
        have hnext : h'.step w.running (.resume f sndval.toInt retval) = { h'.set f .active with
            resumer := Function.update h'.resumer f (w.running, retval) } := if_neg hx
        have hboth : stepBoth (s, h') (.resume f sndval.toInt retval) =
            some (activated s f retval, { h'.set f .active with
              resumer := Function.update h'.resumer f (w.running, retval) }) := by
          unfold stepBoth Fiber.step
          dsimp only
          rw [hi.resume_eq hto, hrunning, hnext]
          rfl
        refine ⟨_, .one hguard hboth, ?_⟩
        change Embodies l exitAddr (_, h'.step w.running (.resume f sndval.toInt retval)) _
        rw [hnext]
        exact hR.resume hi hto hown sndval retval
  | yield sndval =>
      obtain ⟨hne, hown⟩ := hg
      obtain ⟨f, hf⟩ := Option.ne_none_iff_exists'.mp hne
      have hf : w.running = some f := hf
      obtain ⟨u', hboth, hR'⟩ := hR.yield alu hi hf hown sndval
      have hguard : disciplined (s, h') (.yield sndval.toInt) = true :=
        congrArg Option.isSome (hR.running.trans hf)
      have hnext : h'.step w.running (.yield sndval.toInt) = h'.set f .suspended := by
        rw [hf]
        rfl
      refine ⟨u', .one hguard hboth, ?_⟩
      cases hstep
      change Embodies l exitAddr (w.swap alu _ (resumerOf h' w.running),
        h'.step w.running (.yield sndval.toInt)) u'
      rw [hnext, resumerOf_running hf]
      exact hR'
  | exit =>
      obtain ⟨f, hf, hsp⟩ := hg
      have hf : w.running = some f := hf
      obtain ⟨u', hboth, hR'⟩ := hR.exit alu hi hf hsp (w.cpu.regs .rax).toInt
      have hguard : disciplined (s, h') (.exit (w.cpu.regs .rax).toInt) = true :=
        congrArg Option.isSome (hR.running.trans hf)
      have hnext : h'.step w.running (.exit (w.cpu.regs .rax).toInt) = h'.set f .exited := by
        rw [hf]
        rfl
      refine ⟨u', .one hguard hboth, ?_⟩
      cases hstep
      change Embodies l exitAddr (⟨_, resumerOf h' w.running, Function.update
        (Function.update w.stage w.running .idle) (resumerOf h' w.running) .running⟩,
        h'.step w.running (.exit (w.cpu.regs .rax).toInt)) u'
      rw [hnext, resumerOf_running hf]
      exact hR'

theorem fibers_inv
    (hu : Lib.Reachable Fiber.Initial stepBoth (fun u a => disciplined u a = true) u) :
    Fiber.Inv u :=
  Lib.Invariant.holds ⟨fun h₀ => h₀.inv, fun h₀ hg hs => h₀.step hg hs⟩ hu

theorem code_simulation (l : Layout α) (alu : Instr Reg 64 → Machine → BitVec 64)
    (exitAddr : BitVec 64) :
    Lib.Simulation (Started l) (stepCode l alu exitAddr) (Behaved l) Fiber.Initial stepBoth
      (fun u a => disciplined u a = true) (Embodies l exitAddr) where
  init h₀ := h₀.embodies
  step hu hR hg hs := hR.step (fibers_inv hu) hg hs

/-- A run of the code is a run of the machine in which every switch is allowed. -/
theorem allowed_run (hr : Lib.Reachable (Started l) (stepCode l alu exitAddr) (Behaved l) t) :
    Lib.Reachable (Initial l) (Amd64.step l alu exitAddr) (Allowed l) t.1 := by
  induction hr with
  | init h₀ => exact .init h₀.1
  | step hr hg hs ih =>
      obtain ⟨u, hu, hR⟩ := (code_simulation l alu exitAddr).reachable hr
      obtain ⟨w, hstep, rfl⟩ := Option.map_eq_some_iff.mp hs
      exact ih.step (hR.allowed (fibers_inv hu) hg) hstep

/-- Whatever the code does, as long as it minds its own memory and resumes only what is fresh,
suspended or exited: the machine does what the fibers do. No switch needs anything else. Who is
resumed goes on in the yield that it has called, with the value; who yields or exits goes back to
the resume that has activated it last, and there the value is found, with the registers and the
stack pointer as they were. -/
theorem machine_refines_fibers (l : Layout α) (alu : Instr Reg 64 → Machine → BitVec 64)
    (exitAddr : BitVec 64) :
    Lib.Simulation (Started l) (stepCode l alu exitAddr) (Behaved l) Fiber.Initial stepBoth
      (fun u a => disciplined u a = true) (Embodies l exitAddr) ∧
    ∀ w h, Lib.Reachable (Started l) (stepCode l alu exitAddr) (Behaved l) (w, h) →
      Lib.Reachable (Initial l) (Amd64.step l alu exitAddr) (Allowed l) w ∧
      (∀ a, Behaved l (w, h) a → Allowed l w (a.act h w.running)) ∧
      (∀ f sndval, h.life f = .suspended → Nested l w → ∃ w' c v,
        Amd64.step l alu exitAddr w (.resume f sndval) = some w' ∧ w'.running = some f ∧
        w.stage (some f) = .waiting (efFiberYield c l.sched v) ∧
        GoesOn l (some f) w'.cpu sndval (w.stage (some f))) ∧
      (∀ f sndval, h.life f = .exited →
        Amd64.step l alu exitAddr w (.resume f sndval) = some w) ∧
      ∀ f, w.running = some f → ∃ c v,
        w.stage (h.resumer f).1 = .waiting (efFiberResume c l.sched (l.header (some f)) v) ∧
        (∀ sndval, Nested l w → ∃ w',
          Amd64.step l alu exitAddr w (.yield (h.resumer f).1 sndval) = some w' ∧
          w'.running = (h.resumer f).1 ∧
          GoesOn l (h.resumer f).1 w'.cpu sndval (w.stage (h.resumer f).1)) ∧
        (w.cpu.regs .rsp = l.upper f - 16 → ∃ w',
          Amd64.step l alu exitAddr w (.exit (h.resumer f).1) = some w' ∧
          w'.running = (h.resumer f).1 ∧
          GoesOn l (h.resumer f).1 w'.cpu (w.cpu.regs .rax) (w.stage (h.resumer f).1)) := by
  refine ⟨code_simulation l alu exitAddr, fun w h hr => ?_⟩
  obtain ⟨⟨s, h'⟩, hu, hR⟩ := (code_simulation l alu exitAddr).reachable hr
  obtain rfl : h' = h := hR.history
  have hi : Fiber.Inv (s, h') := fibers_inv hu
  refine ⟨allowed_run hr, fun a hg => hR.allowed hi hg, fun f sndval hf hown => ?_,
    fun f sndval hf => hR.resume_exited hi hf sndval, fun f hf => ?_⟩
  · obtain ⟨-, hstands⟩ := hR.target hi (Or.inr hf)
    have hready := hstands.ready
    have hctx : s.stackPtr (some f) = ⟨some f, .yield⟩ := (hi.fits f).suspended hf
    rw [hctx] at hstands
    obtain ⟨c, v, hstage⟩ := hstands
    exact ⟨_, c, v, hR.resume_step hi (Or.inr hf) sndval, rfl, hstage,
      (hR.machine.resume hready hown).2⟩
  · obtain ⟨-, hload, -, c, v, hstage⟩ := hR.back hi hf
    have hready : (w.stage (h'.resumer f).1).Ready := hstage ▸ trivial
    refine ⟨c, v, hstage, fun sndval hown => ?_, fun hsp => ?_⟩
    · exact ⟨_, rfl, rfl, (hR.machine.yield hload hready hown).2⟩
    · exact ⟨_, rfl, rfl, (hR.machine.exit alu hf hload hready hsp).2.1⟩

theorem stepCode_next (t : World Unit × History Unit) (a : Code Unit) :
    stepCode oneFiber flagsKept 0x500 t a = some (next t.1 (a.act t.2 t.1.running),
      (a.call (t.1.cpu.regs .rax)).elim t.2 (t.2.step t.1.running)) := by
  unfold stepCode
  rw [step_next]
  rfl

def unborn : History Unit := ⟨fun _ => .unborn, fun _ => (none, false)⟩

def yieldedOnce : History Unit :=
  ((unborn.step none (.init () 0x400 7)).step none (.resume () 0 true)).step (some ()) (.yield 9)

theorem yieldedOnce_reachable : Lib.Reachable (Started oneFiber)
    (stepCode oneFiber flagsKept 0x500) (Behaved oneFiber) (yielded, yieldedOnce) := by
  have hstarted : Started oneFiber (started, unborn) :=
    ⟨⟨rfl, by decide +kernel, fun _ => rfl, by decide +kernel, by decide +kernel⟩, fun _ => rfl⟩
  have hfresh := (Lib.Reachable.init hstarted).step
    (show Behaved oneFiber _ (.init () 0x400 7) from by rintro ⟨⟩) (stepCode_next _ _)
  have hthread : Nested oneFiber (next started (.init () 0x400 7)) :=
    nested_thread (i := 1952) rfl (by decide +kernel) (by decide)
  have hentered := hfresh.step (show Behaved oneFiber _ (.resume () 0 true) from
    ⟨Or.inl rfl, hthread⟩) (stepCode_next _ _)
  have hused := hentered.step (show Behaved oneFiber _ (.user { entered.cpu with
    regs := Function.update (Function.update entered.cpu.regs .rsp 0x2800) .rbx 42 }) from
    fun _ _ => rfl) (stepCode_next _ _)
  have hframe : area (0x2798 : BitVec 64) 112 ⊆ area 0x2000 4096 :=
    Lib.area_subset (a := 0x2000) (i := 1944) (by decide)
  have hslots : Disjoint (area (0x2798 : BitVec 64) 112) (area 0x2ff0 16) :=
    Lib.disjoint_area_of_le (by decide) (by decide)
  exact hused.step (a := .yield 9) ⟨by rintro ⟨⟩, Set.subset_sdiff.mpr ⟨hframe, hslots⟩⟩
    (stepCode_next _ _)

theorem machine_refines_fibers_resumed : ∃ w' c v,
    Amd64.step oneFiber flagsKept 0x500 yielded (.resume () 11) = some w' ∧
      yielded.stage (some ()) = .waiting (efFiberYield c oneFiber.sched v) ∧
      GoesOn oneFiber (some ()) w'.cpu 11 (.waiting (efFiberYield c oneFiber.sched v)) := by
  have hthread : Nested oneFiber yielded :=
    nested_thread (i := 1960) rfl (by decide +kernel) (by decide)
  obtain ⟨w', c, v, hs, -, hstage, hgoes⟩ := ((machine_refines_fibers oneFiber flagsKept 0x500).2
    yielded yieldedOnce yieldedOnce_reachable).2.2.1 () 11 rfl hthread
  exact ⟨w', c, v, hs, hstage, hstage ▸ hgoes⟩

end EFramework.Fiber.Amd64
