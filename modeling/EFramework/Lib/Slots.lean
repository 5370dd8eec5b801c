import Mathlib.Data.Finset.Card
import Mathlib.Data.Int.Order.Basic
import Mathlib.Logic.Equiv.Basic

/-! # A table of items with an index

Items stand in the slots from 0 up, and `index` says in which slot the item of a key
is; it is negative for a key without one. Exchanging two items, appending one, and
moving one into a slot that has become free keep the two tables in step, and each
changes the item of no other key.

`D` holds of the keys that the index is defined for.
-/

namespace EFramework.Lib

universe u v

structure Slots (α : Type u) (β : Type v) where
  index : α → Int
  items : Int → β
  used : Int

namespace Slots

variable {α : Type u} {β : Type v} [DecidableEq α] (key : β → α)

def swap (s : Slots α β) (i j : Int) : Slots α β :=
  { s with
    index := Function.update (Function.update s.index (key (s.items j)) i) (key (s.items i)) j
    items := Function.update (Function.update s.items j (s.items i)) i (s.items j) }

def move (s : Slots α β) (src dst : Int) : Slots α β :=
  { s with
    index := Function.update s.index (key (s.items src)) dst
    items := Function.update s.items dst (s.items src) }

def push (s : Slots α β) (b : β) : Slots α β where
  index := Function.update s.index (key b) s.used
  items := Function.update s.items s.used b
  used := s.used + 1

def set (s : Slots α β) (i : Int) (b : β) : Slots α β :=
  { s with items := Function.update s.items i b }

def unlink (s : Slots α β) (a : α) : Slots α β :=
  { s with index := Function.update s.index a (-1) }

/-- Give up the last slot, whose item moves into the slot that is free. -/
def close (s : Slots α β) (hole : Int) : Slots α β :=
  let used := s.used - 1
  let s := if hole < used then s.move key used hole else s
  { s with used := used }

/-- The slots and the index undo each other, but for the slot `hole`. There is none when it
is -1. -/
structure Ok (D : α → Prop) (s : Slots α β) (hole : Int) : Prop where
  used_nonneg : 0 ≤ s.used
  hole_lt : hole < s.used
  slot : ∀ i, 0 ≤ i → i < s.used → i ≠ hole →
    D (key (s.items i)) ∧ s.index (key (s.items i)) = i
  item : ∀ a, D a → 0 ≤ s.index a →
    s.index a < s.used ∧ s.index a ≠ hole ∧ key (s.items (s.index a)) = a

def find (D : α → Prop) [DecidablePred D] (s : Slots α β) (a : α) : Option β :=
  if D a ∧ 0 ≤ s.index a then some (s.items (s.index a)) else none

variable {key} {D : α → Prop} {s : Slots α β} {i j : Int} {a : α} {b : β} {hole : Int}

omit [DecidableEq α] in
theorem find_of [DecidablePred D] (ha : D a) (hi : 0 ≤ s.index a) :
    s.find D a = some (s.items (s.index a)) := if_pos ⟨ha, hi⟩

omit [DecidableEq α] in
theorem find_none [DecidablePred D] (h : D a → s.index a < 0) : s.find D a = none :=
  if_neg (fun hc => Int.not_lt.mpr hc.2 (h hc.1))

omit [DecidableEq α] in
theorem find_isSome [DecidablePred D] : (s.find D a).isSome = true ↔ D a ∧ 0 ≤ s.index a := by
  unfold find
  split
  next h => exact ⟨fun _ => h, fun _ => rfl⟩
  next h => exact ⟨fun hc => absurd hc Bool.false_ne_true, fun hc => absurd hc h⟩

/-! ## Exchanging two items -/

theorem swap_items (s : Slots α β) (i j k : Int) :
    (s.swap key i j).items k = s.items (Equiv.swap i j k) := by
  unfold swap
  dsimp only
  rw [Equiv.swap_apply_def, Function.update_apply, Function.update_apply]
  split
  · rfl
  · split <;> rfl

/-- The keys of two items exchange their slots. -/
theorem Ok.swap_index (h : Ok key D s (-1)) (hi : 0 ≤ i) (hi' : i < s.used) (hj : 0 ≤ j)
    (hj' : j < s.used) (a : α) (ha : D a) :
    (s.swap key i j).index a = Equiv.swap i j (s.index a) := by
  have hki := (h.slot i hi hi' (by omega)).2
  have hkj := (h.slot j hj hj' (by omega)).2
  unfold swap
  dsimp only
  rw [Equiv.swap_apply_def, Function.update_apply, Function.update_apply]
  by_cases hai : a = key (s.items i)
  · rw [if_pos hai, hai, hki, if_pos rfl]
  · have hne : s.index a ≠ i := fun he => by
      have hk := (h.item a ha (by omega)).2.2
      rw [he] at hk
      exact hai hk.symm
    rw [if_neg hai, if_neg hne]
    by_cases haj : a = key (s.items j)
    · rw [if_pos haj, haj, hkj, if_pos rfl]
    · have hne : s.index a ≠ j := fun he => by
        have hk := (h.item a ha (by omega)).2.2
        rw [he] at hk
        exact haj hk.symm
      rw [if_neg haj, if_neg hne]

omit [DecidableEq α] in
theorem swap_range (hi : 0 ≤ i) (hi' : i < s.used) (hj : 0 ≤ j) (hj' : j < s.used) (k : Int) :
    (0 ≤ Equiv.swap i j k ↔ 0 ≤ k) ∧ (Equiv.swap i j k < s.used ↔ k < s.used) := by
  rw [Equiv.swap_apply_def]
  split
  · omega
  · split <;> omega

theorem Ok.swap (h : Ok key D s (-1)) (hi : 0 ≤ i) (hi' : i < s.used) (hj : 0 ≤ j)
    (hj' : j < s.used) : Ok key D (s.swap key i j) (-1) := by
  have hidx := h.swap_index hi hi' hj hj'
  have hrange := swap_range hi hi' hj hj'
  refine ⟨h.used_nonneg, h.hole_lt, fun k hk hk' _ => ?_, fun a ha hk => ?_⟩
  · have hslot := h.slot _ ((hrange k).1.mpr hk) ((hrange k).2.mpr hk')
      (by have := (hrange k).1.mpr hk; omega)
    rw [swap_items, hidx _ hslot.1, hslot.2, Equiv.swap_apply_self]
    exact ⟨hslot.1, rfl⟩
  · rw [hidx a ha] at hk ⊢
    have hkey := h.item a ha ((hrange _).1.mp hk)
    rw [swap_items, Equiv.swap_apply_self]
    exact ⟨(hrange _).2.mpr hkey.1, by omega, hkey.2.2⟩

theorem Ok.find_swap [DecidablePred D] (h : Ok key D s (-1)) (hi : 0 ≤ i) (hi' : i < s.used)
    (hj : 0 ≤ j) (hj' : j < s.used) : (s.swap key i j).find D = s.find D := by
  have hidx := h.swap_index hi hi' hj hj'
  have hrange := fun k => (swap_range hi hi' hj hj' k).1
  funext a
  by_cases hc : D a ∧ 0 ≤ s.index a
  · have hi : 0 ≤ (s.swap key i j).index a := by
      rw [hidx a hc.1]
      exact (hrange _).mpr hc.2
    rw [find_of hc.1 hi, find_of hc.1 hc.2, hidx a hc.1, swap_items, Equiv.swap_apply_self]
  · rw [find_none (fun ha => Int.not_le.mp fun hi => hc ⟨ha, hi⟩), find_none fun ha => ?_]
    rw [hidx a ha]
    exact Int.not_le.mp fun hi => hc ⟨ha, (hrange _).mp hi⟩

/-! ## Changing and appending an item -/

omit [DecidableEq α] in
theorem Ok.set (h : Ok key D s (-1)) (ha : D a) (hi : 0 ≤ s.index a) (hb : key b = a) :
    Ok key D (s.set (s.index a) b) (-1) := by
  have hitem : ∀ i, key ((s.set (s.index a) b).items i) = key (s.items i) := fun i => by
    unfold Slots.set
    dsimp only
    rw [Function.update_apply]
    split
    next he => rw [hb, he, (h.item a ha hi).2.2]
    next => rfl
  refine ⟨h.used_nonneg, h.hole_lt, fun i hi hi' hne => ?_, fun a' ha' hi => ?_⟩
  · rw [hitem]
    exact h.slot i hi hi' hne
  · rw [hitem]
    exact h.item a' ha' hi

theorem Ok.find_set [DecidablePred D] (h : Ok key D s (-1)) (ha : D a) (hi : 0 ≤ s.index a) :
    (s.set (s.index a) b).find D = Function.update (s.find D) a (some b) := by
  have hidx : ∀ a', (s.set (s.index a) b).index a' = s.index a' := fun _ => rfl
  funext a'
  by_cases he : a' = a
  · subst he
    rw [Function.update_self, find_of ha ((hidx a').symm ▸ hi), hidx]
    simp only [Slots.set, Function.update_self]
  · rw [Function.update_of_ne he]
    by_cases hc : D a' ∧ 0 ≤ s.index a'
    · have hne : s.index a' ≠ s.index a := fun heq => by
        have hk := (h.item a' hc.1 hc.2).2.2
        rw [heq, (h.item a ha hi).2.2] at hk
        exact he hk.symm
      rw [find_of hc.1 ((hidx a').symm ▸ hc.2), find_of hc.1 hc.2, hidx]
      simp only [Slots.set, Function.update_of_ne hne]
    · have hnone : D a' → s.index a' < 0 := fun ha => Int.not_le.mp fun hi => hc ⟨ha, hi⟩
      rw [find_none ((hidx a').symm ▸ hnone), find_none hnone]

theorem Ok.push (h : Ok key D s (-1)) (hb : D (key b)) (hi : s.index (key b) < 0) :
    Ok key D (s.push key b) (-1) := by
  have hused := h.used_nonneg
  have hne : ∀ i, 0 ≤ i → i < s.used → key (s.items i) ≠ key b := fun i h₀ h₁ he => by
    have := (h.slot i h₀ h₁ (by omega)).2
    rw [he] at this
    omega
  refine ⟨by simp only [Slots.push]; omega, by simp only [Slots.push]; omega,
    fun i h₀ h₁ _ => ?_, fun a ha h₀ => ?_⟩
  · simp only [Slots.push] at h₁ ⊢
    by_cases he : i = s.used
    · subst he
      rw [Function.update_self, Function.update_self]
      exact ⟨hb, rfl⟩
    · have hslot := h.slot i h₀ (by omega) (by omega)
      rw [Function.update_of_ne he, Function.update_of_ne (hne i h₀ (by omega))]
      exact hslot
  · simp only [Slots.push] at h₀ ⊢
    by_cases he : a = key b
    · subst he
      rw [Function.update_self, Function.update_self]
      exact ⟨by omega, by omega, rfl⟩
    · rw [Function.update_of_ne he] at h₀ ⊢
      have hitem := h.item a ha h₀
      rw [Function.update_of_ne (by omega)]
      exact ⟨by omega, hitem.2⟩

theorem Ok.find_push [DecidablePred D] (h : Ok key D s (-1)) (hb : D (key b)) :
    (s.push key b).find D = Function.update (s.find D) (key b) (some b) := by
  have hidx : ∀ a, a ≠ key b → (s.push key b).index a = s.index a := fun a he =>
    Function.update_of_ne he _ _
  funext a
  by_cases he : a = key b
  · subst he
    have hidx : (s.push key b).index (key b) = s.used := Function.update_self _ _ _
    rw [Function.update_self, find_of hb (by rw [hidx]; exact h.used_nonneg), hidx]
    simp only [Slots.push, Function.update_self]
  · rw [Function.update_of_ne he]
    by_cases hc : D a ∧ 0 ≤ s.index a
    · have := (h.item a hc.1 hc.2).1
      rw [find_of hc.1 (by rw [hidx a he]; exact hc.2), find_of hc.1 hc.2, hidx a he]
      simp only [Slots.push]
      rw [Function.update_of_ne (by omega)]
    · have hnone : D a → s.index a < 0 := fun ha => Int.not_le.mp fun hi => hc ⟨ha, hi⟩
      rw [find_none hnone, find_none (fun ha => by rw [hidx a he]; exact hnone ha)]

/-! ## Taking an item out -/

/-- The slot of a key that is unlinked becomes free. -/
theorem Ok.unlink (h : Ok key D s (-1)) (ha : D a) (hi : 0 ≤ s.index a) :
    Ok key D (s.unlink a) (s.index a) := by
  have hitem := h.item a ha hi
  refine ⟨h.used_nonneg, hitem.1, fun i h₀ h₁ hne => ?_, fun a' ha' h₀ => ?_⟩
  · have hslot := h.slot i h₀ h₁ (by omega)
    have hk : key (s.items i) ≠ a := fun he => by
      rw [he] at hslot
      exact hne hslot.2.symm
    simp only [Slots.unlink]
    rw [Function.update_of_ne hk]
    exact hslot
  · simp only [Slots.unlink] at h₀ ⊢
    by_cases he : a' = a
    · subst he
      rw [Function.update_self] at h₀
      omega
    · rw [Function.update_of_ne he] at h₀ ⊢
      have hitem' := h.item a' ha' h₀
      refine ⟨hitem'.1, fun heq => he ?_, hitem'.2.2⟩
      rw [← hitem'.2.2, heq, hitem.2.2]

theorem find_unlink [DecidablePred D] (s : Slots α β) (a : α) :
    (s.unlink a).find D = Function.update (s.find D) a none := by
  funext a'
  unfold find Slots.unlink
  by_cases he : a' = a <;> simp [he]

/-- An item moves into the free slot, and its slot becomes free. -/
theorem Ok.move (h : Ok key D s hole) (hi : 0 ≤ i) (hi' : i < s.used) (hne : i ≠ hole)
    (hh : 0 ≤ hole) : Ok key D (s.move key i hole) i := by
  have hslot := h.slot i hi hi' hne
  have hlt := h.hole_lt
  refine ⟨h.used_nonneg, hi', fun k h₀ h₁ hk => ?_, fun a ha h₀ => ?_⟩
  · simp only [Slots.move]
    by_cases he : k = hole
    · subst he
      rw [Function.update_self, Function.update_self]
      exact ⟨hslot.1, rfl⟩
    · have hslot' := h.slot k h₀ h₁ he
      have hkey : key (s.items k) ≠ key (s.items i) := fun heq => by
        rw [heq, hslot.2] at hslot'
        exact hk hslot'.2.symm
      rw [Function.update_of_ne he, Function.update_of_ne hkey]
      exact hslot'
  · simp only [Slots.move] at h₀ ⊢
    by_cases he : a = key (s.items i)
    · subst he
      rw [Function.update_self, Function.update_self]
      exact ⟨hlt, hne.symm, rfl⟩
    · rw [Function.update_of_ne he] at h₀ ⊢
      have hitem := h.item a ha h₀
      have hai : s.index a ≠ i := fun heq => by
        have hk := hitem.2.2
        rw [heq] at hk
        exact he hk.symm
      rw [Function.update_of_ne hitem.2.1]
      exact ⟨hitem.1, hai, hitem.2.2⟩

theorem Ok.move_index (h : Ok key D s hole) (hi : 0 ≤ i) (hi' : i < s.used) (hne : i ≠ hole)
    (a : α) (ha : D a) :
    (s.move key i hole).index a = if s.index a = i then hole else s.index a := by
  have hslot := h.slot i hi hi' hne
  simp only [Slots.move]
  rw [Function.update_apply]
  by_cases he : a = key (s.items i)
  · rw [if_pos he, he, hslot.2, if_pos rfl]
  · have hai : s.index a ≠ i := fun heq => by
      have hk := (h.item a ha (by omega)).2.2
      rw [heq] at hk
      exact he hk.symm
    rw [if_neg he, if_neg hai]

theorem Ok.find_move [DecidablePred D] (h : Ok key D s hole) (hi : 0 ≤ i) (hi' : i < s.used)
    (hne : i ≠ hole) (hh : 0 ≤ hole) : (s.move key i hole).find D = s.find D := by
  have hidx := h.move_index hi hi' hne
  funext a
  by_cases hc : D a ∧ 0 ≤ s.index a
  · have hpos : 0 ≤ (s.move key i hole).index a := by
      rw [hidx a hc.1]
      split
      · exact hh
      · exact hc.2
    rw [find_of hc.1 hpos, find_of hc.1 hc.2, hidx a hc.1]
    simp only [Slots.move]
    split
    next he => rw [he, Function.update_self]
    next => rw [Function.update_of_ne (h.item a hc.1 hc.2).2.1]
  · have hnone : D a → s.index a < 0 := fun ha => Int.not_le.mp fun hi => hc ⟨ha, hi⟩
    rw [find_none hnone, find_none fun ha => ?_]
    rw [hidx a ha, if_neg (fun he => by have := hnone ha; omega)]
    exact hnone ha

theorem Ok.close (h : Ok key D s hole) (hh : 0 ≤ hole) : Ok key D (s.close key hole) (-1) := by
  have hlt := h.hole_lt
  unfold Slots.close
  dsimp only
  by_cases hmove : hole < s.used - 1
  · rw [if_pos hmove]
    have hm := h.move (i := s.used - 1) (by omega) (by omega) (by omega) hh
    refine ⟨by dsimp only; omega, by dsimp only; omega, fun i h₀ h₁ _ => ?_, fun a ha h₀ => ?_⟩
    · dsimp only at h₁
      exact hm.slot i h₀ (by change i < s.used; omega) (by omega)
    · obtain ⟨h₁, hne, hkey⟩ := hm.item a ha h₀
      refine ⟨?_, by dsimp only at h₀ ⊢; omega, hkey⟩
      change (s.move key (s.used - 1) hole).index a < s.used at h₁
      change (s.move key (s.used - 1) hole).index a < s.used - 1
      omega
  · rw [if_neg hmove]
    refine ⟨by dsimp only; omega, by dsimp only; omega, fun i h₀ h₁ _ => ?_, fun a ha h₀ => ?_⟩
    · dsimp only at h₁ ⊢
      exact h.slot i h₀ (by omega) (by omega)
    · have hitem := h.item a ha h₀
      exact ⟨by dsimp only; omega, by dsimp only at h₀ ⊢; omega, hitem.2.2⟩

theorem Ok.close_index (h : Ok key D s hole) (hh : 0 ≤ hole) (a : α) (ha : D a) :
    (s.close key hole).index a = if s.index a = s.used - 1 then hole else s.index a := by
  have hlt := h.hole_lt
  unfold Slots.close
  dsimp only
  by_cases hmove : hole < s.used - 1
  · rw [if_pos hmove]
    exact h.move_index (by omega) (by omega) (by omega) a ha
  · rw [if_neg hmove, if_neg fun he => ?_]
    have := (h.item a ha (by omega)).2.1
    omega

theorem Ok.close_index_lt (h : Ok key D s hole) (hh : 0 ≤ hole) (hi : i ≤ hole) {a : α}
    (ha : D a) : (0 ≤ (s.close key hole).index a ∧ (s.close key hole).index a < i) ↔
      0 ≤ s.index a ∧ s.index a < i := by
  have hlt := h.hole_lt
  rw [h.close_index hh a ha]
  split <;> omega

theorem Ok.find_close [DecidablePred D] (h : Ok key D s hole) (hh : 0 ≤ hole) :
    (s.close key hole).find D = s.find D := by
  have hlt := h.hole_lt
  unfold Slots.close
  dsimp only
  by_cases hmove : hole < s.used - 1
  · rw [if_pos hmove]
    exact h.find_move (i := s.used - 1) (by omega) (by omega) (by omega) hh
  · rw [if_neg hmove]
    rfl

/-! ## The keys in use -/

variable (key) in
/-- The keys of the items, slot by slot. -/
def keys (s : Slots α β) : List α := (List.range s.used.toNat).map (fun i : Nat => key (s.items i))

omit [DecidableEq α] in
theorem Ok.key_slot (h : Ok key D s (-1)) {i : Nat} (hi : i < s.used.toNat) :
    D (key (s.items i)) ∧ s.index (key (s.items i)) = i :=
  h.slot i (by omega) (by omega) (by omega)

omit [DecidableEq α] in
theorem Ok.key_inj (h : Ok key D s (-1)) {i j : Nat} (hi : i < s.used.toNat)
    (hj : j < s.used.toNat) (he : key (s.items i) = key (s.items j)) : i = j := by
  have hij : s.index (key (s.items (i : Int))) = s.index (key (s.items (j : Int))) :=
    congrArg s.index he
  rw [(h.key_slot hi).2, (h.key_slot hj).2] at hij
  exact_mod_cast hij

omit [DecidableEq α] in
theorem Ok.keys_nodup (h : Ok key D s (-1)) : (s.keys key).Nodup :=
  List.Nodup.map_on (fun _ hi _ hj he => h.key_inj (List.mem_range.mp hi) (List.mem_range.mp hj) he)
    List.nodup_range

omit [DecidableEq α] in
theorem Ok.mem_keys (h : Ok key D s (-1)) {a : α} :
    a ∈ s.keys key ↔ D a ∧ 0 ≤ s.index a := by
  constructor
  · intro ha
    obtain ⟨i, hi, rfl⟩ := List.mem_map.mp ha
    have hslot := h.key_slot (List.mem_range.mp hi)
    exact ⟨hslot.1, by rw [hslot.2]; omega⟩
  · rintro ⟨ha, hi⟩
    obtain ⟨hlt, _, hkey⟩ := h.item a ha hi
    refine List.mem_map.mpr ⟨(s.index a).toNat, List.mem_range.mpr (by omega), ?_⟩
    rw [Int.toNat_of_nonneg hi, hkey]

omit [DecidableEq α] in
theorem Ok.used_le (h : Ok key D s (-1)) (keys : Finset α) (hkeys : ∀ a, D a → a ∈ keys) :
    s.used ≤ keys.card := by
  have hle := Finset.card_le_card_of_injOn (s := Finset.range s.used.toNat)
    (fun i : Nat => key (s.items i))
    (fun i hi => hkeys _ (h.key_slot (Finset.mem_range.mp hi)).1)
    (fun i hi j hj he => h.key_inj (Finset.mem_range.mp hi) (Finset.mem_range.mp hj) he)
  rw [Finset.card_range] at hle
  omega

omit [DecidableEq α] in
theorem Ok.extend {D' : α → Prop} {index : α → Int} (h : Ok key D s (-1))
    (hD : ∀ a, D a → D' a) (hold : ∀ a, D a → index a = s.index a)
    (hnew : ∀ a, D' a → ¬ D a → index a < 0) : Ok key D' { s with index := index } (-1) := by
  refine ⟨h.used_nonneg, h.hole_lt, fun i h₀ h₁ hne => ?_, fun a ha h₀ => ?_⟩
  · have hslot := h.slot i h₀ h₁ hne
    exact ⟨hD _ hslot.1, (hold _ hslot.1).trans hslot.2⟩
  · dsimp only at h₀ ⊢
    by_cases hd : D a
    · rw [hold a hd] at h₀ ⊢
      exact h.item a hd h₀
    · exact absurd h₀ (Int.not_le.mpr (hnew a ha hd))

end Slots

end EFramework.Lib
