import EFramework.Fiber.Amd64

/-! # Stacks and headers in one memory

The sched, the headers of the fibers and their stacks do not overlap. What a fiber
writes is in its stack below the two words that `ef_fiber_internal_init` has put at
its upper end for `_ef_fiber_exit`, or it is outside of all that.
-/

namespace EFramework.Fiber.Amd64

open Lib (Mem area)

universe u

/-- Where everything is. `none` is `thread_fiber`, whose header is a part of the sched. -/
structure Layout (α : Type u) where
  sched : BitVec 64
  header : Option α → BitVec 64
  upper : α → BitVec 64
  stack : Option α → Set (BitVec 64)
  room : ∀ f, area (upper f - 128) 128 ⊆ stack (some f)
  stackStack : ∀ f g, f ≠ g → Disjoint (stack f) (stack g)
  headerHeader : ∀ f g, f ≠ g → Disjoint (area (header f) 64) (area (header g) 64)
  stackHeader : ∀ f g, Disjoint (stack f) (area (header g) 64)
  stackSched : ∀ f, Disjoint (stack f) (area sched 8)
  headerSched : ∀ f, Disjoint (area (header f) 64) (area sched 8)

namespace Layout

variable {α : Type u} (l : Layout α)

def exitSlots : Option α → Set (BitVec 64)
  | none => ∅
  | some f => area (l.upper f - 16) 16

def own (f : Option α) : Set (BitVec 64) := l.stack f \ l.exitSlots f

def reserved : Set (BitVec 64) :=
  {x | (∃ f, x ∈ l.stack f ∨ x ∈ area (l.header f) 64) ∨ x ∈ area l.sched 8}

def cell (f : Option α) (offset : Nat) : Set (BitVec 64) :=
  area (l.header f + BitVec.ofNat 64 offset) 8

variable {l} {f g : Option α} {i j : Nat}

theorem own_subset (f : Option α) : l.own f ⊆ l.stack f := Set.sdiff_subset

theorem cell_subset (f : Option α) (h : i + 8 ≤ 64) : l.cell f i ⊆ area (l.header f) 64 :=
  Lib.area_subset _ h

theorem cell_disjoint (f : Option α) (h : i + 8 ≤ j) (hj : j + 8 ≤ 64) :
    Disjoint (l.cell f i) (l.cell f j) :=
  Lib.disjoint_area _ h (by omega)

theorem cells_disjoint (hne : f ≠ g) (hi : i + 8 ≤ 64) (hj : j + 8 ≤ 64) :
    Disjoint (l.cell f i) (l.cell g j) :=
  (l.headerHeader f g hne).mono (cell_subset f hi) (cell_subset g hj)

theorem cell_sched (f : Option α) (hi : i + 8 ≤ 64) : Disjoint (l.cell f i) (area l.sched 8) :=
  (l.headerSched f).mono_left (cell_subset f hi)

theorem stack_cell (f g : Option α) (hj : j + 8 ≤ 64) : Disjoint (l.stack f) (l.cell g j) :=
  (l.stackHeader f g).mono_right (cell_subset g hj)

theorem exitSlots_subset (f : Option α) : l.exitSlots f ⊆ l.stack f := by
  cases f with
  | none => exact Set.empty_subset _
  | some f =>
      refine Set.Subset.trans ?_ (l.room f)
      have hup : l.upper f - 16 = l.upper f - 128 + BitVec.ofNat 64 112 := by bv_omega
      change area (l.upper f - 16) 16 ⊆ _
      rw [hup]
      exact Lib.area_subset _ (by decide)

end Layout

end EFramework.Fiber.Amd64
