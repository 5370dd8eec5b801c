import EFramework.Fiber.Switching

/-! # Switches are transparent

The frame of a fiber that is not running stays as it is, since nobody else may write
there, and its `stack_ptr` says where it is. So the fiber goes on with the registers
and the stack pointer that it had.
-/

namespace EFramework.Fiber.Amd64

open Lib (Instr Loc Mem area)

universe u

variable {α : Type u} (l : Layout α) (exitAddr : BitVec 64)

/-! ## What is in the memory -/

def Fields (m : Mem 64) (f : α) : Prop :=
  m.load (field (l.header (some f)) fiberStackUpperOffset) = l.upper f ∧
    m.load (field (l.header (some f)) fiberSchedOffset) = l.sched

def Slots (m : Mem 64) : Option α → Prop
  | none => True
  | some f => m.Holds (l.upper f - 16) [exitAddr, l.header (some f)]

def firstRegs (upper param : BitVec 64) : Loc Reg → BitVec 64
  | .reg .rdi => param
  | .reg .rbp => upper
  | _ => 0

def Frame (m : Mem 64) (f : Option α) : Stage → Prop
  | .fresh proc param => ∃ g, f = some g ∧
      m.load (field (l.header f) fiberStackPtrOffset) = l.upper g - 128 ∧
      m.Holds (l.upper g - 128) (saved.map (firstRegs (l.upper g) param) ++ [proc])
  | .waiting c =>
      m.load (field (l.header f) fiberStackPtrOffset) = c.regs .rsp - 104 ∧
      m.Holds (c.regs .rsp - 104) (saved.map c.get ++ [c.mem.load (c.regs .rsp)]) ∧
      area (c.regs .rsp - 104) 112 ⊆ l.own f
  | .idle | .running => True

structure Fits (m : Mem 64) (f : Option α) (st : Stage) : Prop where
  slots : st ≠ .idle → Slots l exitAddr m f
  frame : Frame l m f st

structure Inv (w : World α) : Prop where
  current : w.cpu.mem.load (field l.sched schedCurrentFiberOffset) = l.header w.running
  running : ∀ f, w.stage f = .running ↔ f = w.running
  fields : ∀ f, Fields l w.cpu.mem f
  fits : ∀ f, Fits l exitAddr w.cpu.mem f (w.stage f)

variable {l} {exitAddr} {m m' : Mem 64} {f g : Option α} {st : Stage}

/-! ## What does not change it -/

theorem words : 64 / 8 ≤ 2 ^ 64 := by decide

theorem frame_length {v : Loc Reg → BitVec 64} {ra : BitVec 64} :
    64 / 8 * (saved.map v ++ [ra]).length = 112 := by
  rw [List.length_append, List.length_map]
  rfl

theorem load_cell (he : Set.EqOn m m' (l.cell f i)) :
    m'.load (l.header f + BitVec.ofNat 64 i) = m.load (l.header f + BitVec.ofNat 64 i) :=
  (Mem.load_congr words he).symm

theorem field_sched (l : Layout α) : field l.sched schedCurrentFiberOffset = l.sched :=
  BitVec.add_zero _

theorem load_sched (he : Set.EqOn m m' (area l.sched 8)) :
    m'.load (field l.sched schedCurrentFiberOffset) =
      m.load (field l.sched schedCurrentFiberOffset) := by
  rw [field_sched]
  exact (Mem.load_congr words he).symm

theorem Fields.congr {f : α} (h : Fields l m f) (hu : Set.EqOn m m' (l.cell (some f) 16))
    (hs : Set.EqOn m m' (l.cell (some f) 56)) : Fields l m' f :=
  ⟨(load_cell hu).trans h.1, (load_cell hs).trans h.2⟩

theorem Slots.congr (h : Slots l exitAddr m f) (he : Set.EqOn m m' (l.exitSlots f)) :
    Slots l exitAddr m' f := by
  cases f with
  | none => trivial
  | some f => exact Mem.Holds.congr words h he

theorem Frame.congr (h : Frame l m f st) (hp : Set.EqOn m m' (l.cell f 32))
    (he : Set.EqOn m m' (l.stack f)) : Frame l m' f st := by
  cases st with
  | fresh proc param =>
      obtain ⟨g, rfl, hptr, hholds⟩ := h
      refine ⟨g, rfl, (load_cell hp).trans hptr, hholds.congr words (he.mono ?_)⟩
      exact Set.Subset.trans (Lib.area_mono _ (frame_length ▸ by decide)) (l.room g)
  | waiting c =>
      obtain ⟨hptr, hholds, hown⟩ := h
      refine ⟨(load_cell hp).trans hptr, hholds.congr words (he.mono ?_), hown⟩
      rw [frame_length]
      exact Set.Subset.trans hown (l.own_subset f)
  | idle => trivial
  | running => trivial

theorem Fits.congr (h : Fits l exitAddr m f st) (hp : Set.EqOn m m' (l.cell f 32))
    (he : Set.EqOn m m' (l.stack f)) : Fits l exitAddr m' f st :=
  ⟨fun hst => (h.slots hst).congr (he.mono (l.exitSlots_subset f)), h.frame.congr hp he⟩

variable (exitAddr) in
/-- Neither the status nor the parent of a fiber nor `current_fiber` is looked at here. -/
theorem kept_of_header {i : Nat} (hi : 40 ≤ i) (hi' : i ≤ 48)
    (he : Set.EqOn m m' (l.cell g i ∪ area l.sched 8)ᶜ) :
    (∀ f, Fields l m f → Fields l m' f) ∧
      ∀ f st, Fits l exitAddr m f st → Fits l exitAddr m' f st := by
  have hmono : ∀ {s}, Disjoint s (l.cell g i) → Disjoint s (area l.sched 8) → Set.EqOn m m' s :=
    fun h₁ h₂ =>
      he.mono fun x hx => not_or.mpr ⟨Set.disjoint_left.mp h₁ hx, Set.disjoint_left.mp h₂ hx⟩
  have hcell : ∀ f j, j + 8 ≤ 64 → (j + 8 ≤ 40 ∨ 56 ≤ j) → Set.EqOn m m' (l.cell f j) := by
    intro f j hj hord
    refine hmono ?_ (Layout.cell_sched f hj)
    by_cases hfg : f = g
    · subst hfg
      rcases hord with h | h
      · exact l.cell_disjoint f (by omega) (by omega)
      · exact (l.cell_disjoint f (by omega) (by omega)).symm
    · exact Layout.cells_disjoint hfg hj (by omega)
  refine ⟨fun f hf => hf.congr (hcell _ _ (by decide) (by decide)) (hcell _ _ (by decide) (by decide)),
    fun f st hf => hf.congr (hcell _ _ (by decide) (by decide)) (hmono ?_ (l.stackSched f))⟩
  exact l.stack_cell f g (by omega)

/-! ## Going on -/

variable (l) in
/-- A fiber goes on where it stands. -/
def GoesOn (f : Option α) (c : Machine) (rax : BitVec 64) : Stage → Prop
  | .fresh proc param =>
      c.ip = proc ∧ c.regs .rdi = param ∧ ∃ g, f = some g ∧ c.regs .rsp = l.upper g - 16
  | .waiting c₀ =>
      c.ip = c₀.mem.load (c₀.regs .rsp) ∧ c.regs .rax = rax ∧
        c.regs .rsp = c₀.regs .rsp + 8 ∧ ∀ loc ∈ saved, c.get loc = c₀.get loc
  | .idle | .running => False

variable {alu : Instr Reg 64 → Machine → BitVec 64} {c : Machine} {w w' : World α}

variable (alu) in
/-- From `_ef_fiber_restore` on, with the `stack_ptr` of the fiber. -/
theorem Frame.goesOn (h : Frame l c.mem f st) (hst : st.Ready)
    (hsp : c.regs .rsp = c.mem.load (field (l.header f) fiberStackPtrOffset)) :
    (run alu c efFiberRestore).mem = c.mem ∧
      GoesOn l f (run alu c efFiberRestore) (c.regs .rax) st := by
  cases st with
  | fresh proc param =>
      obtain ⟨g, rfl, hptr, hholds⟩ := h
      rw [← hptr, ← hsp] at hholds
      obtain ⟨hmem, hip, htop, hin, _⟩ := restore_spec alu hholds
      refine ⟨hmem, hip, hin (.reg .rdi) (by decide), g, rfl, ?_⟩
      rw [htop, hsp, hptr]
      bv_omega
  | waiting c₀ =>
      obtain ⟨hptr, hholds, _⟩ := h
      rw [← hptr, ← hsp] at hholds
      obtain ⟨hmem, hip, htop, hin, hout⟩ := restore_spec alu hholds
      refine ⟨hmem, hip, hout .rax (by decide) (by decide), ?_, hin⟩
      rw [htop, hsp, hptr]
      bv_omega
  | idle => exact hst.elim
  | running => exact hst.elim

/-! ## Saving a frame -/

/-- The frame is below the address to return to, and the `stack_ptr` says where. -/
theorem swapped_spec (hsi : c.regs .rsi = field (l.header f) fiberStackPtrOffset)
    (hown : area (c.regs .rsp - 104) 112 ⊆ l.own f) :
    Set.EqOn c.mem (swapped c).mem (area (c.regs .rsp - 104) 104 ∪ l.cell f 32)ᶜ ∧
      Frame l (swapped c).mem f (.waiting c) := by
  have hlen : 64 / 8 * (saved.reverse.map c.get).length = 104 := by
    rw [List.length_map]
    rfl
  have hrev : (saved.reverse.map c.get).reverse = saved.map c.get := by
    rw [← List.map_reverse, List.reverse_reverse]
  have hstack : area (c.regs .rsp - 104) 112 ⊆ l.stack f := hown.trans (l.own_subset f)
  have hcell : Disjoint (area (c.regs .rsp - 104) 112) (l.cell f 32) :=
    (l.stack_cell f f (by decide)).mono_left hstack
  obtain ⟨hholds, hsame⟩ := Mem.pushes_spec c.mem (c.regs .rsp) (saved.reverse.map c.get) words
    (by decide) (by rw [hlen]; decide)
  rw [hlen, hrev] at hholds
  rw [hlen] at hsame
  have hmem : (swapped c).mem = (c.mem.pushes (c.regs .rsp) (saved.reverse.map c.get)).store
      (c.regs .rsi) (c.regs .rsp - 104) := rfl
  generalize c.mem.pushes (c.regs .rsp) (saved.reverse.map c.get) = m at hholds hsame hmem
  have hstore : Set.EqOn m (swapped c).mem (l.cell f 32)ᶜ := by
    rw [hmem, hsi]
    exact (Mem.eqOn_store _ _ _).symm
  have hframe : Set.EqOn m (swapped c).mem (area (c.regs .rsp - 104) 112) :=
    hstore.mono (Set.disjoint_left.mp hcell)
  have hkept : Set.EqOn c.mem (swapped c).mem (area (c.regs .rsp - 104) 104 ∪ l.cell f 32)ᶜ := by
    intro x hx
    obtain ⟨hx₁, hx₂⟩ := not_or.mp hx
    exact (hsame hx₁).symm.trans (hstore hx₂)
  refine ⟨hkept, ?_, Mem.Holds.append.mpr ⟨?_, ?_, trivial⟩, hown⟩
  · rw [hmem, hsi]
    exact Mem.load_store_self _ _ _ words (by decide)
  · refine hholds.congr words (hframe.mono (Lib.area_mono _ ?_))
    rw [List.length_map]
    decide
  · have htop : c.regs .rsp - 104 + BitVec.ofNat 64 104 = c.regs .rsp := by bv_omega
    rw [show 64 / 8 * (saved.map c.get).length = 104 by rw [List.length_map]; rfl, htop]
    have hra := Lib.area_subset (c.regs .rsp - 104) (show 104 + 8 ≤ 112 by decide)
    have habove := Lib.disjoint_area (c.regs .rsp - 104) (show 0 + 104 ≤ 104 by decide)
      (show 104 + 8 ≤ 2 ^ 64 by decide)
    rw [htop] at hra habove
    rw [BitVec.add_zero] at habove
    refine (Mem.load_congr words (hkept.mono fun x hx => ?_)).symm
    exact not_or.mpr ⟨Set.disjoint_right.mp habove hx, Set.disjoint_left.mp hcell (hra hx)⟩

/-! ## Switching -/

theorem Stage.Ready.ne_idle (h : st.Ready) : st ≠ .idle := by
  rintro rfl
  exact h

/-- What the code of `ef_fiber_internal_swap` writes is in the stack of the fiber that calls it
and in its header. -/
theorem swapped_kept (hne : g ≠ f) (hsi : c.regs .rsi = field (l.header f) fiberStackPtrOffset)
    (hown : area (c.regs .rsp - 104) 112 ⊆ l.own f) :
    Set.EqOn c.mem (swapped c).mem (l.stack g) ∧ Set.EqOn c.mem (swapped c).mem (l.cell g 32) ∧
      Set.EqOn c.mem (swapped c).mem (l.exitSlots f) ∧
      Set.EqOn c.mem (swapped c).mem (area l.sched 8) ∧
      ∀ g i, i + 8 ≤ 64 → (i + 8 ≤ 32 ∨ 40 ≤ i) →
        Set.EqOn c.mem (swapped c).mem (l.cell g i) := by
  have hkept := (swapped_spec hsi hown).1
  have hframe : area (c.regs .rsp - 104) 104 ⊆ l.own f := (Lib.area_mono _ (by decide)).trans hown
  have hstack := hframe.trans (l.own_subset f)
  have hmono : ∀ {s}, Disjoint s (area (c.regs .rsp - 104) 104) → Disjoint s (l.cell f 32) →
      Set.EqOn c.mem (swapped c).mem s := fun h₁ h₂ =>
    hkept.mono fun x hx => not_or.mpr ⟨Set.disjoint_left.mp h₁ hx, Set.disjoint_left.mp h₂ hx⟩
  refine ⟨hmono ?_ ?_, hmono ?_ ?_, hmono ?_ ?_, hmono ?_ ?_, fun g i hi hord => hmono ?_ ?_⟩
  · exact (l.stackStack g f hne).mono_right hstack
  · exact l.stack_cell g f (by decide)
  · exact ((l.stack_cell f g (by decide)).mono_left hstack).symm
  · exact Layout.cells_disjoint hne (by decide) (by decide)
  · exact Set.disjoint_right.mpr fun x hx => (hframe hx).2
  · exact (l.stack_cell f f (by decide)).mono_left (l.exitSlots_subset f)
  · exact ((l.stackSched f).mono_left hstack).symm
  · exact (Layout.cell_sched f (by decide)).symm
  · exact ((l.stack_cell f g hi).mono_left hstack).symm
  · by_cases hfg : g = f
    · subst hfg
      rcases hord with h | h
      · exact l.cell_disjoint g h (by decide)
      · exact (l.cell_disjoint g h hi).symm
    · exact Layout.cells_disjoint hfg hi (by decide)

variable [DecidableEq α]

theorem running_iff {stage : Option α → Stage} {r : Option α}
    (hrun : ∀ f, stage f = .running ↔ f = r) (hst : st ≠ .running) (f : Option α) :
    Function.update (Function.update stage r st) g .running f = .running ↔ f = g := by
  rw [Function.update_apply, Function.update_apply]
  split
  · exact iff_of_true rfl ‹_›
  · refine iff_of_false ?_ ‹_›
    split
    · exact hst
    · rwa [hrun f]

theorem fits_update {stage : Option α → Stage} {r : Option α} (hslots : Slots l exitAddr m g)
    (hr : Fits l exitAddr m r st) (h : ∀ f, f ≠ g → f ≠ r → Fits l exitAddr m f (stage f))
    (f : Option α) :
    Fits l exitAddr m f (Function.update (Function.update stage r st) g .running f) := by
  by_cases hfg : f = g
  · subst hfg
    rw [Function.update_self]
    exact ⟨fun _ => hslots, trivial⟩
  · rw [Function.update_of_ne hfg]
    by_cases hfr : f = r
    · subst hfr
      rwa [Function.update_self]
    · rw [Function.update_of_ne hfr]
      exact h f hfg hfr

/-- A switch to a fiber that can go on, with the sched set for it. -/
theorem swap_spec (hcur : c.mem.load (field l.sched schedCurrentFiberOffset) = l.header g)
    (hrun : ∀ f, w.stage f = .running ↔ f = w.running) (hfields : ∀ f, Fields l c.mem f)
    (hfits : ∀ f, Fits l exitAddr c.mem f (w.stage f)) (hready : (w.stage g).Ready)
    (hown : area (c.regs .rsp - 104) 112 ⊆ l.own w.running)
    (hdi : c.regs .rdi = c.mem.load (field (l.header g) fiberStackPtrOffset))
    (hsi : c.regs .rsi = field (l.header w.running) fiberStackPtrOffset) :
    Inv l exitAddr (w.swap alu c g) ∧
      GoesOn l g (w.swap alu c g).cpu (c.regs .rdx) (w.stage g) := by
  have hne : g ≠ w.running := by
    rintro rfl
    rw [(hrun _).mpr rfl] at hready
    exact hready
  obtain ⟨_, hframe⟩ := swapped_spec hsi hown
  obtain ⟨hstack, hptr, hslots, hsched, hcells⟩ := swapped_kept hne hsi hown
  have hsp : (swapped c).regs .rsp =
      (swapped c).mem.load (field (l.header g) fiberStackPtrOffset) := hdi.trans (load_cell hptr).symm
  obtain ⟨hmem, hgoes⟩ := ((hfits g).frame.congr hptr hstack).goesOn alu hready hsp
  have hcpu : (w.swap alu c g).cpu.mem = (swapped c).mem := by rw [← hmem, ← run_swap alu c]; rfl
  have hrunning : w.stage w.running = .running := (hrun _).mpr rfl
  refine ⟨⟨?_, running_iff hrun (by rintro ⟨⟩), fun f => ?_, ?_⟩, ?_⟩
  · rw [hcpu]
    exact (load_sched hsched).trans hcur
  · rw [hcpu]
    exact (hfields f).congr (hcells _ _ (by decide) (by decide)) (hcells _ _ (by decide) (by decide))
  · rw [hcpu]
    refine fits_update (((hfits g).slots hready.ne_idle).congr (hstack.mono (l.exitSlots_subset g)))
      ⟨fun _ => ?_, hframe⟩ (fun f _ hfr => ?_)
    · exact ((hfits _).slots (by rw [hrunning]; rintro ⟨⟩)).congr hslots
    · obtain ⟨hstack, hptr, _⟩ := swapped_kept hfr hsi hown
      exact (hfits f).congr hptr hstack
  · rw [← run_swap alu c] at hgoes
    exact hgoes

/-! ## One step -/

omit [DecidableEq α] in
theorem Inv.slots_running (hi : Inv l exitAddr w) :
    Slots l exitAddr w.cpu.mem w.running := by
  refine (hi.fits w.running).slots ?_
  rw [(hi.running w.running).mpr rfl]
  rintro ⟨⟩

theorem Inv.resume (hi : Inv l exitAddr w) {f : α} {sndval : BitVec 64}
    (hready : (w.stage (some f)).Ready) (hown : Nested l w) :
    let c := efFiberResume w.cpu l.sched (l.header (some f)) sndval
    Inv l exitAddr (w.swap alu c (some f)) ∧
      GoesOn l (some f) (w.swap alu c (some f)).cpu sndval (w.stage (some f)) := by
  intro c
  have hmem : c.mem = (w.cpu.mem.store (field (l.header (some f)) fiberParentOffset)
      (w.cpu.mem.load (field l.sched schedCurrentFiberOffset))).store
      (field l.sched schedCurrentFiberOffset) (l.header (some f)) := rfl
  have hkept : Set.EqOn w.cpu.mem c.mem (l.cell (some f) 48 ∪ area l.sched 8)ᶜ := by
    rw [hmem, field_sched]
    intro x hx
    obtain ⟨hx₁, hx₂⟩ := not_or.mp hx
    exact ((Mem.eqOn_store _ _ _ hx₂).trans (Mem.eqOn_store _ _ _ hx₁)).symm
  obtain ⟨hfields, hfits⟩ := kept_of_header exitAddr (by decide) (by decide) hkept
  refine swap_spec ?_ hi.running (fun g => hfields g (hi.fields g))
    (fun g => hfits g _ (hi.fits g)) hready hown rfl ?_
  · rw [hmem]
    exact Mem.load_store_self _ _ _ words (by decide)
  · exact congrArg (field · fiberStackPtrOffset) hi.current

theorem Inv.yield (hi : Inv l exitAddr w) {sndval : BitVec 64}
    (hparent : w.cpu.mem.load (field (l.header w.running) fiberParentOffset) = l.header g)
    (hready : (w.stage g).Ready) (hown : Nested l w) :
    let c := efFiberYield w.cpu l.sched sndval
    Inv l exitAddr (w.swap alu c g) ∧ GoesOn l g (w.swap alu c g).cpu sndval (w.stage g) := by
  intro c
  have hmem : c.mem = w.cpu.mem.store (field l.sched schedCurrentFiberOffset)
      (w.cpu.mem.load (field (w.cpu.mem.load (field l.sched schedCurrentFiberOffset))
        fiberParentOffset)) := rfl
  rw [hi.current, hparent, field_sched] at hmem
  have hstore : Set.EqOn w.cpu.mem c.mem (area l.sched 8)ᶜ := by
    rw [hmem]
    exact (Mem.eqOn_store _ _ _).symm
  have hkept : Set.EqOn w.cpu.mem c.mem (l.cell w.running 48 ∪ area l.sched 8)ᶜ :=
    hstore.mono fun x hx hc => hx (Or.inr hc)
  obtain ⟨hfields, hfits⟩ := kept_of_header exitAddr (by decide) (by decide) hkept
  have hstill : c.mem.load (field (l.header w.running) fiberParentOffset) = l.header g :=
    (load_cell (hstore.mono (Set.disjoint_left.mp (Layout.cell_sched _ (by decide))))).trans hparent
  refine swap_spec ?_ hi.running (fun f => hfields f (hi.fields f))
    (fun f => hfits f _ (hi.fits f)) hready hown ?_ ?_
  · rw [hmem, field_sched]
    exact Mem.load_store_self _ _ _ words (by decide)
  · have hdi : c.regs .rdi = c.mem.load (field (c.mem.load (field (w.cpu.mem.load
        (field l.sched schedCurrentFiberOffset)) fiberParentOffset)) fiberStackPtrOffset) := rfl
    rw [hdi, hi.current, hstill]
  · exact congrArg (field · fiberStackPtrOffset) hi.current

omit [DecidableEq α] in
/-- The status and `current_fiber` are written, and the stack is that of the parent. -/
theorem exit_spec {f : α} (hfiber : c.mem.load (c.regs .rsp) = l.header (some f))
    (hfield : Fields l c.mem f)
    (hparent : c.mem.load (field (l.header (some f)) fiberParentOffset) = l.header g) :
    Set.EqOn c.mem (exited c).mem (l.cell (some f) 40 ∪ area l.sched 8)ᶜ ∧
      (exited c).regs .rsp = (exited c).mem.load (field (l.header g) fiberStackPtrOffset) ∧
      (exited c).regs .rax = c.regs .rax ∧
      (exited c).mem.load (field l.sched schedCurrentFiberOffset) = l.header g ∧
      (exited c).mem.load (field (l.header (some f)) fiberStatusOffset) = fiberStatusExited := by
  have hstatus : Set.EqOn c.mem (c.mem.store (field (l.header (some f)) fiberStatusOffset)
      fiberStatusExited) (l.cell (some f) 40)ᶜ := (Mem.eqOn_store _ _ _).symm
  have hcell : ∀ i, 48 ≤ i → i + 8 ≤ 64 → Set.EqOn c.mem (c.mem.store
      (field (l.header (some f)) fiberStatusOffset) fiberStatusExited) (l.cell (some f) i) :=
    fun i hi hi' => hstatus.mono (Set.disjoint_right.mp (Layout.cell_disjoint _ (by omega) hi'))
  obtain ⟨hmem, hsp, hrax⟩ := exited_spec hfiber
    ((load_cell (hcell 48 (by decide) (by decide))).trans hparent)
    ((load_cell (hcell 56 (by decide) (by decide))).trans hfield.2)
  rw [field_sched] at hmem ⊢
  generalize exited c = c' at hmem hsp hrax
  refine ⟨?_, hsp, hrax, ?_, ?_⟩
  · rw [hmem]
    intro x hx
    obtain ⟨hx₁, hx₂⟩ := not_or.mp hx
    exact (hstatus hx₁).trans (Mem.eqOn_store _ _ _ hx₂).symm
  · rw [hmem]
    exact Mem.load_store_self _ _ _ words (by decide)
  · have hdisj : Disjoint (l.cell (some f) 40) (area l.sched 8) :=
      Layout.cell_sched (some f) (by decide)
    rw [hmem]
    exact (Mem.load_store_of_disjoint words hdisj _).trans
      (Mem.load_store_self _ _ _ words (by decide))

variable (alu) in
/-- The procedure returns to `_ef_fiber_exit`, which finds its fiber behind this. -/
theorem Inv.exit (hi : Inv l exitAddr w) {f : α} (hf : w.running = some f)
    (hparent : w.cpu.mem.load (field (l.header w.running) fiberParentOffset) = l.header g)
    (hready : (w.stage g).Ready) (hsp : w.cpu.regs .rsp = l.upper f - 16) :
    let c := run alu w.cpu (.ret :: efFiberExit)
    Inv l exitAddr ⟨c, g, Function.update (Function.update w.stage w.running .idle) g .running⟩ ∧
      GoesOn l g c (w.cpu.regs .rax) (w.stage g) ∧ (run alu w.cpu [.ret]).ip = exitAddr ∧
      c.mem.load (field (l.header (some f)) fiberStatusOffset) = fiberStatusExited := by
  intro c
  have hcode : c = run alu (exited (run alu w.cpu [.ret])) efFiberRestore := run_ret_exit alu _
  clear_value c
  have hslots := hi.slots_running
  rw [hf] at hparent hslots
  obtain ⟨hexit, hfiber, _⟩ := hslots
  rw [← hsp] at hexit hfiber
  obtain ⟨hmem, hip, htop, hrax⟩ := ret_spec alu w.cpu
  generalize run alu w.cpu [.ret] = c₁ at hcode hmem hip htop hrax ⊢
  have hbehind : c₁.mem.load (c₁.regs .rsp) = l.header (some f) := by
    rw [hmem, htop]
    exact hfiber
  rw [← hmem] at hparent
  obtain ⟨hkept, hsp', hrax', hcurrent, hstatus⟩ := exit_spec hbehind (hmem ▸ hi.fields f) hparent
  rw [hmem] at hkept
  obtain ⟨hfields, hfits⟩ := kept_of_header exitAddr (by decide) (by decide) hkept
  obtain ⟨hmem', hgoes⟩ := (hfits g _ (hi.fits g)).frame.goesOn alu hready hsp'
  rw [← hcode] at hmem' hgoes
  rw [hrax', hrax] at hgoes
  have hother : ∀ f, f ≠ g → f ≠ w.running → Fits l exitAddr c.mem f (w.stage f) := fun f _ _ => by
    rw [hmem']
    exact hfits f _ (hi.fits f)
  refine ⟨⟨?_, running_iff hi.running (by rintro ⟨⟩), fun f => ?_, fits_update ?_ ?_ hother⟩, hgoes,
    hip.trans hexit, ?_⟩
  · change c.mem.load _ = _
    rw [hmem']
    exact hcurrent
  · change Fields l c.mem f
    rw [hmem']
    exact hfields f (hi.fields f)
  · change Slots l exitAddr c.mem g
    rw [hmem']
    exact (hfits g _ (hi.fits g)).slots hready.ne_idle
  · exact ⟨fun hst => absurd rfl hst, trivial⟩
  · rw [hmem']
    exact hstatus

theorem Inv.user (hi : Inv l exitAddr w)
    (h : Set.EqOn c.mem w.cpu.mem (l.own w.running ∪ l.reservedᶜ)ᶜ) :
    Inv l exitAddr { w with cpu := c } := by
  have hmono : ∀ {s}, s ⊆ l.reserved → Disjoint s (l.own w.running) →
      Set.EqOn w.cpu.mem c.mem s := fun hs hd => h.symm.mono fun x hx =>
    not_or.mpr ⟨Set.disjoint_left.mp hd hx, fun hc => hc (hs hx)⟩
  have hcell : ∀ f j, j + 8 ≤ 64 → Set.EqOn w.cpu.mem c.mem (l.cell f j) := fun f j hj => by
    refine hmono (fun x hx => Or.inl ⟨f, Or.inr (Layout.cell_subset f hj hx)⟩) ?_
    exact ((l.stack_cell w.running f hj).mono_left (l.own_subset _)).symm
  refine ⟨?_, hi.running, fun f => ?_, fun f => ?_⟩
  · refine (load_sched (hmono (fun x hx => Or.inr hx) ?_)).trans hi.current
    exact ((l.stackSched w.running).mono_left (l.own_subset _)).symm
  · exact (hi.fields f).congr (hcell _ _ (by decide)) (hcell _ _ (by decide))
  · have hstack : l.stack f ⊆ l.reserved := fun x hx => Or.inl ⟨f, Or.inl hx⟩
    by_cases hf : f = w.running
    · subst hf
      have hrun := (hi.running w.running).mpr rfl
      refine ⟨fun _ => hi.slots_running.congr (hmono ((l.exitSlots_subset _).trans hstack) ?_), ?_⟩
      · exact Set.disjoint_right.mpr fun x hx => hx.2
      · change Frame l c.mem w.running (w.stage w.running)
        rw [hrun]
        trivial
    · refine (hi.fits f).congr (hcell _ _ (by decide)) (hmono hstack ?_)
      exact (l.stackStack f w.running hf).mono_right (l.own_subset _)

variable (alu exitAddr) in
omit [DecidableEq α] in
theorem init_frame {f : α} (hfield : Fields l c.mem f) (proc param : BitVec 64) :
    Set.EqOn c.mem (efFiberInit alu exitAddr c (l.header (some f)) proc param).mem
        (l.cell (some f) 40 ∪ l.cell (some f) 32 ∪ area (l.upper f - 128) 128)ᶜ ∧
      Fits l exitAddr (efFiberInit alu exitAddr c (l.header (some f)) proc param).mem (some f)
        (.fresh proc (if param ≠ 0 then param else l.header (some f))) := by
  unfold efFiberInit
  generalize (if param ≠ 0 then param else l.header (some f)) = param'
  dsimp only
  have hstatus : Set.EqOn c.mem (c.mem.store (field (l.header (some f)) fiberStatusOffset)
      fiberStatusInited) (l.cell (some f) 40)ᶜ := (Mem.eqOn_store _ _ _).symm
  have hupper := (load_cell (hstatus.mono (Set.disjoint_left.mp
    (Layout.cell_disjoint (some f) (show 16 + 8 ≤ 40 by decide) (by decide))))).trans hfield.1
  have hcall : (call c (l.header (some f)) proc param').mem = c.mem := rfl
  have hdi : (call c (l.header (some f)) proc param').regs .rdi = l.header (some f) := rfl
  have hsi : (call c (l.header (some f)) proc param').regs .rsi = proc := rfl
  have hdx : (call c (l.header (some f)) proc param').regs .rdx = param' := rfl
  obtain ⟨hmem, hrax⟩ := init_spec alu exitAddr hdi hsi hdx hupper
  rw [hcall] at hmem
  rw [hmem, hrax]
  have hframe : (initialFrame exitAddr (l.header (some f)) proc param' (l.upper f)).reverse =
      (saved.map (firstRegs (l.upper f) param') ++ [proc]) ++ [exitAddr, l.header (some f)] := rfl
  obtain ⟨hholds, hpushed⟩ := Mem.pushes_spec
    (c.mem.store (field (l.header (some f)) fiberStatusOffset) fiberStatusInited) (l.upper f)
    (initialFrame exitAddr (l.header (some f)) proc param' (l.upper f)) words (by decide)
    (show 128 ≤ 2 ^ 64 by decide)
  rw [show 64 / 8 * (initialFrame exitAddr (l.header (some f)) proc param' (l.upper f)).length = 128
    from rfl, show BitVec.ofNat 64 128 = 128 from rfl] at hholds hpushed
  rw [hframe] at hholds
  generalize (c.mem.store (field (l.header (some f)) fiberStatusOffset) fiberStatusInited).pushes
    (l.upper f) (initialFrame exitAddr (l.header (some f)) proc param' (l.upper f)) = m
    at hholds hpushed ⊢
  have hptr : Set.EqOn m (m.store (field (l.header (some f)) fiberStackPtrOffset)
      (l.upper f - 128)) (l.cell (some f) 32)ᶜ := (Mem.eqOn_store _ _ _).symm
  have hroom : Set.EqOn m (m.store (field (l.header (some f)) fiberStackPtrOffset)
      (l.upper f - 128)) (area (l.upper f - 128) 128) := hptr.mono (Set.disjoint_left.mp
    ((l.stack_cell (some f) (some f) (show 32 + 8 ≤ 64 by decide)).mono_left (l.room f)))
  have hlen : 64 / 8 * (saved.map (firstRegs (l.upper f) param') ++ [proc] ++
      [exitAddr, l.header (some f)]).length = 128 := by
    rw [List.length_append, Nat.mul_add, frame_length]
    rfl
  have hup : l.upper f - 128 + BitVec.ofNat 64 112 = l.upper f - 16 := by bv_omega
  have hall := hholds.congr words (hlen ▸ hroom)
  obtain ⟨hfirst, hslots⟩ := Mem.Holds.append.mp hall
  rw [frame_length] at hslots
  have hslots := hup ▸ hslots
  refine ⟨fun x hx => ?_, fun _ => hslots, f, rfl, ?_, hfirst⟩
  · obtain ⟨hx, hx₃⟩ := not_or.mp hx
    obtain ⟨hx₁, hx₂⟩ := not_or.mp hx
    exact (hstatus hx₁).trans ((hpushed hx₃).symm.trans (hptr hx₂))
  · exact Mem.load_store_self _ _ _ words (by decide)

theorem Inv.init (hi : Inv l exitAddr w) {f : α} (hf : w.running ≠ some f)
    (proc param : BitVec 64) :
    Inv l exitAddr { w with
      cpu := efFiberInit alu exitAddr w.cpu (l.header (some f)) proc param
      stage := Function.update w.stage (some f)
        (.fresh proc (if param ≠ 0 then param else l.header (some f))) } := by
  obtain ⟨hkept, hfits⟩ := init_frame exitAddr alu (hi.fields f) proc param
  generalize efFiberInit alu exitAddr w.cpu (l.header (some f)) proc param = c at hkept hfits ⊢
  generalize (if param ≠ 0 then param else l.header (some f)) = param' at hfits ⊢
  have hmono : ∀ {s}, Disjoint s (l.cell (some f) 40) → Disjoint s (l.cell (some f) 32) →
      Disjoint s (l.stack (some f)) → Set.EqOn w.cpu.mem c.mem s := fun h₁ h₂ h₃ =>
    hkept.mono fun x hx => not_or.mpr ⟨not_or.mpr ⟨Set.disjoint_left.mp h₁ hx,
      Set.disjoint_left.mp h₂ hx⟩, fun hc => Set.disjoint_left.mp h₃ hx (l.room f hc)⟩
  have hcell : ∀ g j, j + 8 ≤ 64 → (j + 8 ≤ 32 ∨ 48 ≤ j ∨ g ≠ some f) →
      Set.EqOn w.cpu.mem c.mem (l.cell g j) := by
    intro g j hj hord
    by_cases hg : g = some f
    · subst hg
      have hord := hord.imp_right fun h => h.resolve_right fun h => h rfl
      refine hmono ?_ ?_ (l.stack_cell _ _ hj).symm <;> rcases hord with h | h
      · exact l.cell_disjoint _ (by omega) (by omega)
      · exact (l.cell_disjoint _ (by omega) (by omega)).symm
      · exact l.cell_disjoint _ (by omega) (by omega)
      · exact (l.cell_disjoint _ (by omega) (by omega)).symm
    · exact hmono (Layout.cells_disjoint hg hj (by decide))
        (Layout.cells_disjoint hg hj (by decide)) (l.stack_cell _ _ hj).symm
  refine ⟨?_, fun g => ?_, fun g => ?_, fun g => ?_⟩
  · refine (load_sched (hmono ?_ ?_ (l.stackSched _).symm)).trans hi.current
    · exact (Layout.cell_sched _ (by decide)).symm
    · exact (Layout.cell_sched _ (by decide)).symm
  · change Function.update w.stage (some f) (.fresh proc param') g = .running ↔ g = w.running
    by_cases hg : g = some f
    · subst hg
      rw [Function.update_self]
      exact iff_of_false (by rintro ⟨⟩) (Ne.symm hf)
    · rw [Function.update_of_ne hg]
      exact hi.running g
  · exact (hi.fields g).congr (hcell _ _ (by decide) (Or.inl (by decide)))
      (hcell _ _ (by decide) (Or.inr (Or.inl (by decide))))
  · change Fits l exitAddr c.mem g (Function.update w.stage (some f) (.fresh proc param') g)
    by_cases hg : g = some f
    · subst hg
      rwa [Function.update_self]
    · rw [Function.update_of_ne hg]
      refine (hi.fits g).congr (hcell _ _ (by decide) (Or.inr (Or.inr hg))) (hmono ?_ ?_ ?_)
      · exact l.stack_cell g _ (by decide)
      · exact l.stack_cell g _ (by decide)
      · exact l.stackStack g _ hg

/-! ## Runs -/

omit [DecidableEq α] in
theorem Initial.inv (h : Initial l w) : Inv l exitAddr w := by
  refine ⟨?_, fun f => ?_, fun f => ⟨h.upper f, h.sched f⟩, fun f => ?_⟩
  · rw [h.current, h.running]
  · rw [h.stage, h.running]
    split
    · exact iff_of_true rfl ‹_›
    · exact iff_of_false (by rintro ⟨⟩) ‹_›
  · rw [h.stage]
    cases f with
    | none => exact ⟨fun _ => trivial, trivial⟩
    | some f => exact ⟨fun hne => absurd rfl hne, trivial⟩

theorem Inv.step (hi : Inv l exitAddr w) {a : Act α} (hg : Allowed l w a)
    (hs : step l alu exitAddr w a = some w') : Inv l exitAddr w' := by
  cases a with
  | user c =>
      cases hs
      exact hi.user hg
  | init f proc param =>
      cases hs
      exact hi.init hg proc param
  | resume f sndval =>
      unfold Amd64.step at hs
      dsimp only at hs
      split at hs
      · cases hs
        exact hi
      · rename_i hinited
        obtain ⟨hready, hown⟩ := hg (not_not.mp hinited)
        cases hs
        exact (hi.resume hready hown).1
  | yield g sndval =>
      obtain ⟨hparent, hready, hown⟩ := hg
      cases hs
      exact (hi.yield hparent hready hown).1
  | exit g =>
      obtain ⟨hparent, hready, f, hf, hsp⟩ := hg
      cases hs
      exact (hi.exit alu hf hparent hready hsp).1

/-- A fiber that is resumed, or that another one yields or exits to, goes on with the registers
and the stack pointer that it has called `ef_fiber_internal_swap` with, and finds the value in
`rax`; or it enters its procedure. A procedure that returns marks its own fiber. -/
theorem switches_transparent (l : Layout α) (alu : Instr Reg 64 → Machine → BitVec 64)
    (exitAddr : BitVec 64) {w : World α}
    (hr : Lib.Reachable (Initial l) (step l alu exitAddr) (Allowed l) w) :
    (∀ f sndval, Allowed l w (.resume f sndval) →
      w.cpu.mem.load (field (l.header (some f)) fiberStatusOffset) = fiberStatusInited →
      ∃ w', step l alu exitAddr w (.resume f sndval) = some w' ∧ w'.running = some f ∧
        GoesOn l (some f) w'.cpu sndval (w.stage (some f))) ∧
    (∀ g sndval, Allowed l w (.yield g sndval) →
      ∃ w', step l alu exitAddr w (.yield g sndval) = some w' ∧ w'.running = g ∧
        GoesOn l g w'.cpu sndval (w.stage g)) ∧
    ∀ f g, w.running = some f → Allowed l w (.exit g) →
      (run alu w.cpu [.ret]).ip = exitAddr ∧
      ∃ w', step l alu exitAddr w (.exit g) = some w' ∧ w'.running = g ∧
        GoesOn l g w'.cpu (w.cpu.regs .rax) (w.stage g) ∧
        w'.cpu.mem.load (field (l.header (some f)) fiberStatusOffset) = fiberStatusExited ∧
        w'.cpu.mem.load (field l.sched schedCurrentFiberOffset) =
          w.cpu.mem.load (field (l.header (some f)) fiberParentOffset) := by
  have hi : Inv l exitAddr w :=
    Lib.Invariant.holds ⟨fun h₀ => h₀.inv, fun h₀ hg hs => h₀.step hg hs⟩ hr
  refine ⟨fun f sndval hg hinited => ?_, fun g sndval hg => ?_, fun f g hf hg => ?_⟩
  · obtain ⟨hready, hown⟩ := hg hinited
    have hstep : step l alu exitAddr w (.resume f sndval) = some (w.swap alu
        (efFiberResume w.cpu l.sched (l.header (some f)) sndval) (some f)) := by
      unfold step
      dsimp only
      rw [if_neg (not_not.mpr hinited)]
    exact ⟨_, hstep, rfl, (hi.resume hready hown).2⟩
  · obtain ⟨hparent, hready, hown⟩ := hg
    exact ⟨_, rfl, rfl, (hi.yield hparent hready hown).2⟩
  · obtain ⟨hparent, hready, f', hf', hsp⟩ := hg
    obtain rfl : f = f' := Option.some.inj (hf.symm.trans hf')
    obtain ⟨hinv, hgoes, hip, hstatus⟩ := hi.exit alu hf hparent hready hsp
    rw [hf] at hparent
    exact ⟨hip, _, rfl, rfl, hgoes, hstatus, hinv.current.trans hparent.symm⟩

/-- One fiber, the thread, and their stacks of 4096 bytes. -/
def oneFiber : Layout Unit where
  sched := 0x1000
  header f := f.elim 0x1008 fun _ => 0x3000
  upper _ := 0x3000
  stack f := f.elim (area 0x8000 4096) fun _ => area 0x2000 4096
  room _ := Lib.area_subset (a := (0x2000 : BitVec 64)) (i := 3968) (by decide)
  stackStack
    | none, none, hne | some (), some (), hne => absurd rfl hne
    | none, some (), _ => (Lib.disjoint_area_of_le (by decide) (by decide)).symm
    | some (), none, _ => Lib.disjoint_area_of_le (by decide) (by decide)
  headerHeader
    | none, none, hne | some (), some (), hne => absurd rfl hne
    | none, some (), _ => Lib.disjoint_area_of_le (by decide) (by decide)
    | some (), none, _ => (Lib.disjoint_area_of_le (by decide) (by decide)).symm
  stackHeader
    | none, none | none, some () | some (), none =>
        (Lib.disjoint_area_of_le (by decide) (by decide)).symm
    | some (), some () => Lib.disjoint_area_of_le (by decide) (by decide)
  stackSched
    | none | some () => (Lib.disjoint_area_of_le (by decide) (by decide)).symm
  headerSched
    | none | some () => (Lib.disjoint_area_of_le (by decide) (by decide)).symm

def started : World Unit where
  cpu := {
    regs := fun r => if r = .rsp then 0x8800 else 0
    flags := 0
    ip := 0
    mem := Mem.store (Mem.store (Mem.store (fun _ => 0) 0x1000 0x1008) 0x3010 0x3000)
      0x3038 0x1000 }
  running := none
  stage f := if f = none then .running else .idle

def flagsKept : Instr Reg 64 → Machine → BitVec 64 := fun _ c => c.flags

def next (w : World Unit) (a : Act Unit) : World Unit :=
  (step oneFiber flagsKept 0x500 w a).getD w

def entered : World Unit := next (next started (.init () 0x400 7)) (.resume () 0)

def yielded : World Unit :=
  let w := next entered (.user { entered.cpu with
    regs := Function.update (Function.update entered.cpu.regs .rsp 0x2800) .rbx 42 })
  next w (.yield none 9)

theorem step_next (w : World Unit) (a : Act Unit) :
    step oneFiber flagsKept 0x500 w a = some (next w a) := by
  cases a with
  | resume f sndval =>
      unfold next step
      dsimp only
      split <;> rfl
  | user c => rfl
  | init f proc param => rfl
  | yield g sndval => rfl
  | exit g => rfl

theorem nested_thread {w : World Unit} (hrun : w.running = none) {i : Nat}
    (hsp : w.cpu.regs .rsp - 104 = 0x8000 + BitVec.ofNat 64 i) (hi : i + 112 ≤ 4096) :
    Nested oneFiber w := by
  unfold Nested
  rw [hrun, hsp]
  exact Set.subset_sdiff.mpr ⟨Lib.area_subset _ hi, Set.disjoint_empty _⟩

theorem yielded_reachable :
    Lib.Reachable (Initial oneFiber) (step oneFiber flagsKept 0x500) (Allowed oneFiber) yielded := by
  have hinit : Initial oneFiber started :=
    ⟨rfl, by decide +kernel, fun _ => rfl, by decide +kernel, by decide +kernel⟩
  have hfresh := (Lib.Reachable.init hinit).step
    (show Allowed oneFiber started (.init () 0x400 7) by rintro ⟨⟩) (step_next _ _)
  have hthread : Nested oneFiber (next started (.init () 0x400 7)) :=
    nested_thread (i := 1952) rfl (by decide +kernel) (by decide)
  have hentered := hfresh.step (show Allowed oneFiber _ (.resume () 0) from
    fun _ => ⟨trivial, hthread⟩) (step_next _ _)
  have hused := hentered.step (show Allowed oneFiber _ (.user { entered.cpu with
    regs := Function.update (Function.update entered.cpu.regs .rsp 0x2800) .rbx 42 }) from
    fun _ _ => rfl) (step_next _ _)
  refine hused.step (a := .yield none 9) ⟨by decide +kernel, trivial, ?_⟩ (step_next _ _)
  have hframe : area (0x2798 : BitVec 64) 112 ⊆ area 0x2000 4096 :=
    Lib.area_subset (a := 0x2000) (i := 1944) (by decide)
  have hslots : Disjoint (area (0x2798 : BitVec 64) 112) (area 0x2ff0 16) :=
    Lib.disjoint_area_of_le (by decide) (by decide)
  exact Set.subset_sdiff.mpr ⟨hframe, hslots⟩

theorem switches_transparent_resumed : ∃ w',
    step oneFiber flagsKept 0x500 yielded (.resume () 11) = some w' ∧ w'.running = some () ∧
      w'.cpu.regs .rax = 11 ∧ w'.cpu.regs .rsp = 0x2808 ∧ w'.cpu.regs .rbx = 42 := by
  have hthread : Nested oneFiber yielded :=
    nested_thread (i := 1960) rfl (by decide +kernel) (by decide)
  obtain ⟨w', hs, hrun, hip, hrax, hsp, hregs⟩ :=
    (switches_transparent oneFiber flagsKept 0x500 yielded_reachable).1 () 11
      (fun _ => ⟨trivial, hthread⟩) (by decide +kernel)
  exact ⟨w', hs, hrun, hrax, hsp, hregs (.reg .rbx) (by decide)⟩

end EFramework.Fiber.Amd64
