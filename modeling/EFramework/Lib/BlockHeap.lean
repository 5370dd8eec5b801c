import Mathlib.Logic.Function.Basic

/-! # A heap of blocks

A block has an address, and is allocated and given back as a whole. Addresses are handed
out one after another, so what has been given back is never handed out again, and every
use of it is seen. Giving back what is not there is undefined, and the null address is
never handed out.
-/

namespace EFramework.Lib

universe u

structure BlockHeap (B : Type u) where
  blocks : Nat → Option B
  /-- The address that is handed out next. -/
  next : Nat

namespace BlockHeap

variable {B : Type u}

def alloc (h : BlockHeap B) (b : B) : BlockHeap B :=
  ⟨Function.update h.blocks h.next (some b), h.next + 1⟩

def store (h : BlockHeap B) (p : Nat) (b : B) : BlockHeap B :=
  { h with blocks := Function.update h.blocks p (some b) }

def free (h : BlockHeap B) (p : Nat) : Option (BlockHeap B) :=
  if p = 0 then some h
  else if (h.blocks p).isSome then some { h with blocks := Function.update h.blocks p none }
  else none

def without (h : BlockHeap B) (ps : List Nat) : BlockHeap B :=
  { h with blocks := fun q => if q ∈ ps then none else h.blocks q }

/-- Only addresses that have been handed out are in use. -/
structure Sound (h : BlockHeap B) : Prop where
  null : h.blocks 0 = none
  pos : 0 < h.next
  beyond : ∀ q, h.next ≤ q → h.blocks q = none

/-- Blocks have been allocated, and those that were there are as they were. -/
structure Grown (h h' : BlockHeap B) : Prop where
  next : h.next ≤ h'.next
  kept : ∀ q, q < h.next → h'.blocks q = h.blocks q
  beyond : ∀ q, h'.next ≤ q → h'.blocks q = none

variable {h h' h'' : BlockHeap B} {p q : Nat} {ps qs : List Nat} {b : B}

/-! ## Giving back -/

theorem without_nil (h : BlockHeap B) : h.without [] = h := by
  unfold without
  simp

theorem without_append (h : BlockHeap B) (ps qs : List Nat) :
    h.without (ps ++ qs) = (h.without ps).without qs := by
  unfold without
  congr 1
  funext q
  by_cases hp : q ∈ ps <;> by_cases hq : q ∈ qs <;> simp [hp, hq]

theorem blocks_without (hq : q ∉ ps) : (h.without ps).blocks q = h.blocks q := if_neg hq

theorem without_mem (hq : q ∈ ps) : (h.without ps).blocks q = none := if_pos hq

theorem free_block (hnull : h.blocks 0 = none) (hp : h.blocks p = some b) :
    h.free p = some (h.without [p]) := by
  have hne : p ≠ 0 := by
    rintro rfl
    cases hnull.symm.trans hp
  unfold free without
  rw [if_neg hne, hp, Option.isSome_some, if_pos rfl]
  congr 2
  funext q
  by_cases hq : q = p <;> simp [hq]

theorem free_next (ps : List Nat) (hnull : h.blocks 0 = none) (hp : h.blocks p = some b)
    (hnot : p ∉ ps) :
    (h.without ps).free p = some (h.without (ps ++ [p])) := by
  have hnull' : (h.without ps).blocks 0 = none := by
    by_cases hm : 0 ∈ ps
    · exact without_mem hm
    · exact (blocks_without hm).trans hnull
  rw [free_block hnull' ((blocks_without hnot).trans hp), without_append]

/-! ## Growing -/

theorem Sound.grown (hs : h.Sound) : h.Grown h := ⟨Nat.le_refl _, fun _ _ => rfl, hs.beyond⟩

theorem Sound.of_grown (hs : h.Sound) (hg : h.Grown h') : h'.Sound :=
  ⟨(hg.kept 0 hs.pos).trans hs.null, Nat.lt_of_lt_of_le hs.pos hg.next, hg.beyond⟩

theorem Grown.trans (hg : h.Grown h') (hg' : h'.Grown h'') : h.Grown h'' where
  next := Nat.le_trans hg.next hg'.next
  kept q hq := (hg'.kept q (Nat.lt_of_lt_of_le hq hg.next)).trans (hg.kept q hq)
  beyond := hg'.beyond

theorem Grown.lt_next (hg : h.Grown h') (hq : h'.blocks q ≠ none) : q < h'.next :=
  Nat.not_le.mp (fun hle => hq (hg.beyond q hle))

theorem Grown.alloc (hg : h.Grown h') (b : B) : h.Grown (h'.alloc b) where
  next := Nat.le_trans hg.next (Nat.le_succ _)
  kept q hq := (Function.update_of_ne (Nat.ne_of_lt (Nat.lt_of_lt_of_le hq hg.next)) _ _).trans
    (hg.kept q hq)
  beyond q hq := (Function.update_of_ne (Nat.ne_of_gt hq) _ _).trans
    (hg.beyond q (Nat.le_trans (Nat.le_succ _) hq))

theorem Grown.store (hg : h.Grown h') (hp : h.next ≤ p) (hp' : p < h'.next) (b : B) :
    h.Grown (h'.store p b) where
  next := hg.next
  kept q hq := (Function.update_of_ne (Nat.ne_of_lt (Nat.lt_of_lt_of_le hq hp)) _ _).trans
    (hg.kept q hq)
  beyond q hq := (Function.update_of_ne (Nat.ne_of_gt (Nat.lt_of_lt_of_le hp' hq)) _ _).trans
    (hg.beyond q hq)

theorem Grown.without (hg : h.Grown h') (hps : ∀ p ∈ ps, h.next ≤ p) :
    h.Grown (h'.without ps) where
  next := hg.next
  kept q hq := (blocks_without (fun hm => absurd (hps q hm) (Nat.not_le.mpr hq))).trans
    (hg.kept q hq)
  beyond q hq := by
    by_cases hm : q ∈ ps
    · exact without_mem hm
    · exact (blocks_without hm).trans (hg.beyond q hq)

end BlockHeap

end EFramework.Lib
