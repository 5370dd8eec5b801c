import EFramework.Structure.Text

/-! # Vectors of `structure/vector.c`

A vector is modelled by its items below `len`, its capacity in items, and the size
in bytes of the block behind `ptr`. The items are kept by value, also those that
the code stores behind the end of the block.
-/

namespace EFramework

variable {α : Type}

structure EfVector (α : Type) where
  /-- The bytes behind `ptr`, `none` for NULL. -/
  block : Option Nat
  cap : Nat
  items : List α
deriving Repr, DecidableEq

def vectorGrowSize : Nat := 8

def efVectorNew (α : Type) (cap : Nat) (m : Heap) : Option (EfVector α) × Heap :=
  let (ok, m) := m.malloc
  if ok then
    let cap := if cap ≠ 0 then efResize cap vectorGrowSize else cap
    if cap ≠ 0 then
      let size := cap * 8 % 2 ^ 64
      let (ok, m) := m.mallocOf size
      if ok then (some ⟨some size, cap, []⟩, m) else (none, m)
    else (some ⟨none, 0, []⟩, m)
  else (none, m)

/-- The index of the new item as an `int`, or -1. Where the capacity has room the item is
stored without a look at `ptr`, and a store through NULL is `none`. -/
def efVectorAppend (vec : EfVector α) (ptr : α) (m : Heap) : Option (Int × EfVector α × Heap) :=
  let idx := toInt32 vec.items.length
  if vec.items.length < vec.cap then
    if vec.block = none then none
    else some (idx, { vec with items := vec.items ++ [ptr] }, m)
  else
    let vec := { vec with cap := (vec.cap + vectorGrowSize) % 2 ^ 64 }
    let (ok, m) := if vec.block.isSome then m.alloc vec.cap else m.mallocOf vec.cap
    some (if ok then (idx, { vec with block := some vec.cap, items := vec.items ++ [ptr] }, m)
      else (-1, vec, m))

/-- `ef_vector_free` that keeps the vector itself. -/
def efVectorClear (_ : EfVector α) : EfVector α := ⟨none, 0, []⟩

/-- Where the capacity has room there is a block. An append that was refused leaves a vector
without one. -/
def EfVector.Backed (vec : EfVector α) : Prop := vec.items.length < vec.cap → vec.block ≠ none

instance (vec : EfVector α) : Decidable vec.Backed :=
  decidable_of_iff (vec.items.length < vec.cap → vec.block.isSome = true) (by
    simp only [EfVector.Backed, Option.isSome_iff_ne_none])

theorem efVectorAppend_of_room {vec : EfVector α} (h : vec.items.length < vec.cap)
    (hb : vec.block ≠ none) (ptr : α) (m : Heap) : efVectorAppend vec ptr m =
      some (toInt32 vec.items.length, { vec with items := vec.items ++ [ptr] }, m) := by
  unfold efVectorAppend
  dsimp only
  rw [if_pos h, if_neg hb]

/-- An append comes to an end exactly when it does not store through NULL. -/
theorem efVectorAppend_eq_none {vec : EfVector α} {ptr : α} {m : Heap} :
    efVectorAppend vec ptr m = none ↔ ¬ vec.Backed := by
  unfold efVectorAppend EfVector.Backed
  dsimp only
  by_cases h : vec.items.length < vec.cap
  · by_cases hb : vec.block = none <;> simp [h, hb]
  · rw [if_neg h]
    exact ⟨fun habs => absurd habs (Option.some_ne_none _),
      fun hno => absurd (fun hroom => absurd hroom h) hno⟩

theorem efVectorAppend_items {vec vec' : EfVector α} {ptr : α} {m m' : Heap} {idx : Int}
    (h : efVectorAppend vec ptr m = some (idx, vec', m')) {x : α} (hx : x ∈ vec'.items) :
    x ∈ vec.items ∨ x = ptr := by
  have hadded : ∀ {l : List α}, x ∈ l ++ [ptr] → x ∈ l ∨ x = ptr := fun hx =>
    (List.mem_append.mp hx).imp id List.mem_singleton.mp
  unfold efVectorAppend at h
  dsimp only at h
  split at h
  · split at h
    · cases h
    · simp only [Option.some.injEq, Prod.mk.injEq] at h
      obtain ⟨-, rfl, -⟩ := h
      exact hadded hx
  · rw [Option.some.injEq] at h
    generalize (if vec.block.isSome then m.alloc ((vec.cap + vectorGrowSize) % 2 ^ 64)
      else m.mallocOf ((vec.cap + vectorGrowSize) % 2 ^ 64)) = r at h
    split at h <;> rw [Prod.mk.injEq, Prod.mk.injEq] at h <;> obtain ⟨-, rfl, -⟩ := h
    · exact hadded hx
    · exact Or.inl hx

theorem efVectorNew_zero (m : Heap) :
    efVectorNew α 0 m =
      if m.malloc.1 then (some ⟨none, 0, []⟩, m.malloc.2) else (none, m.malloc.2) := rfl

/-- The first append to a vector without storage. -/
theorem efVectorAppend_clear (vec : EfVector α) (ptr : α) (m : Heap) :
    efVectorAppend (efVectorClear vec) ptr m =
      some (if (m.mallocOf vectorGrowSize).1 then
        (0, ⟨some vectorGrowSize, vectorGrowSize, [ptr]⟩, (m.mallocOf vectorGrowSize).2)
      else (-1, ⟨none, vectorGrowSize, []⟩, (m.mallocOf vectorGrowSize).2)) := by
  have hgrown : (0 + vectorGrowSize) % 2 ^ 64 = vectorGrowSize := by decide
  have hidx : toInt32 ((0 : Nat) : Int) = (0 : Nat) := toInt32_eq (Nat.two_pow_pos 31)
  unfold efVectorAppend efVectorClear
  dsimp only
  rw [if_neg (by simp), hgrown, List.length_nil, hidx]
  simp only [Option.isSome_none, Bool.false_eq_true, if_false]
  rfl

/-- An append is refused, with the items as they were, or adds its item to a vector that has
a block now. It is refused only for want of memory. -/
theorem efVectorAppend_cases {vec vec' : EfVector α} {ptr : α} {m m' : Heap} {idx : Int}
    (h : efVectorAppend vec ptr m = some (idx, vec', m')) :
    ((idx = -1 ∧ vec'.items = vec.items ∧ m'.failures ≠ m.failures) ∨
      (vec'.items = vec.items ++ [ptr] ∧ vec'.block ≠ none)) ∧ m.failures ≤ m'.failures := by
  unfold efVectorAppend at h
  dsimp only at h
  split at h
  · split at h
    · cases h
    next hb =>
      simp only [Option.some.injEq, Prod.mk.injEq] at h
      obtain ⟨-, rfl, rfl⟩ := h
      exact ⟨Or.inr ⟨rfl, hb⟩, Nat.le_refl _⟩
  · have hrequest : ∃ fits, (if vec.block.isSome then m.alloc ((vec.cap + vectorGrowSize) % 2 ^ 64)
        else m.mallocOf ((vec.cap + vectorGrowSize) % 2 ^ 64)) = m.request fits := by
      split <;> exact ⟨_, rfl⟩
    obtain ⟨fits, hfits⟩ := hrequest
    have hfail := m.request_failures fits
    rw [hfits, Option.some.injEq] at h
    generalize m.request fits = r at hfail h
    obtain ⟨ok, m₁⟩ := r
    split at h <;> rw [Prod.mk.injEq, Prod.mk.injEq] at h <;> obtain ⟨rfl, rfl, rfl⟩ := h
    next hok =>
      rw [if_pos hok] at hfail
      exact ⟨Or.inr ⟨rfl, Option.some_ne_none _⟩, Nat.le_of_eq hfail.symm⟩
    next hok =>
      rw [if_neg hok] at hfail
      refine ⟨Or.inl ⟨rfl, rfl, ?_⟩, ?_⟩ <;> dsimp only at hfail ⊢ <;> omega

/-! ## Storage -/

/-- The block behind `ptr` has room for the capacity, and the capacity for the items. -/
structure EfVector.Stored (vec : EfVector α) : Prop where
  null : vec.block = none → vec.cap = 0
  room : ∀ size, vec.block = some size → vec.cap * 8 ≤ size
  len_le : vec.items.length ≤ vec.cap

/-- What a call of `ef_vector_append` promises: -1 and nothing has changed, or the old
length and one more item, whose slot is inside the block. -/
structure AppendLaw (vec : EfVector α) (ptr : α) (ret : Int) (vec' : EfVector α) : Prop where
  refused : ret = -1 → vec' = vec
  added : ret ≠ -1 → ret = vec.items.length ∧ vec'.items = vec.items ++ [ptr]
  inside : ret ≠ -1 → ∃ size, vec'.block = some size ∧ (vec.items.length + 1) * 8 ≤ size

inductive VectorOp (α : Type) where
  | append (ptr : α)
  /-- `ef_vector_free(vec, 0)`. -/
  | free
deriving Repr, DecidableEq

/-- The storage is right in every state of a run, and every append keeps its promise. -/
def VectorLaw : EfVector α → Heap → List (VectorOp α) → Prop
  | vec, _, [] => vec.Stored
  | vec, m, .append ptr :: ops =>
      vec.Stored ∧ ∃ out, efVectorAppend vec ptr m = some out ∧
        AppendLaw vec ptr out.1 out.2.1 ∧ VectorLaw out.2.1 out.2.2 ops
  | vec, m, .free :: ops => vec.Stored ∧ VectorLaw (efVectorClear vec) m ops

def AppendsFit : Nat → List (VectorOp α) → Prop
  | _, [] => True
  | room, .append _ :: ops => 0 < room ∧ AppendsFit (room - 1) ops
  | _, .free :: ops => AppendsFit 0 ops

instance AppendsFit.decidable : ∀ (room : Nat) (ops : List (VectorOp α)),
    Decidable (AppendsFit room ops)
  | _, [] => isTrue trivial
  | room, .append _ :: ops =>
      have := AppendsFit.decidable (room - 1) ops
      inferInstanceAs (Decidable (0 < room ∧ _))
  | _, .free :: ops => AppendsFit.decidable 0 ops

namespace EfVector

variable {vec : EfVector α}

theorem Stored.clear (vec : EfVector α) : (efVectorClear vec).Stored := by
  refine ⟨fun _ => rfl, ?_, Nat.le_refl _⟩
  rintro size ⟨⟩

theorem Stored.backed (h : vec.Stored) : vec.Backed := by
  intro hroom hb
  have hcap := h.null hb
  omega

/-- Without growing, an append keeps its promise as long as the length is an `int`. -/
theorem Stored.append (h : vec.Stored) (hroom : vec.items.length < vec.cap)
    (hint : vec.items.length < 2 ^ 31) (ptr : α) (m : Heap) :
    efVectorAppend vec ptr m =
        some ((vec.items.length : Int), { vec with items := vec.items ++ [ptr] }, m) ∧
      AppendLaw vec ptr vec.items.length { vec with items := vec.items ++ [ptr] } ∧
      ({ vec with items := vec.items ++ [ptr] } : EfVector α).Stored := by
  obtain ⟨size, hsize⟩ := Option.ne_none_iff_exists'.mp (h.backed hroom)
  have hbytes := h.room size hsize
  refine ⟨?_, ⟨fun hret => by omega, fun _ => ⟨rfl, rfl⟩, fun _ => ⟨size, hsize, by omega⟩⟩,
    h.null, h.room, ?_⟩
  · rw [efVectorAppend_of_room hroom (h.backed hroom), toInt32_eq hint]
  · rw [List.length_append]
    exact hroom

/-- A length that is no `int` is not what is returned, nor is it -1 for nothing. -/
theorem not_appendLaw_long (hint : 2 ^ 31 ≤ vec.items.length) (ptr : α) :
    ¬ AppendLaw vec ptr (toInt32 vec.items.length) { vec with items := vec.items ++ [ptr] } := by
  intro hlaw
  by_cases hret : toInt32 vec.items.length = -1
  · have hitems := congrArg (List.length ∘ EfVector.items) (hlaw.refused hret)
    dsimp only [Function.comp_apply] at hitems
    rw [List.length_append, List.length_singleton] at hitems
    omega
  · have hwrap : toInt32 vec.items.length < 2 ^ 31 := Int.bmod_lt (by decide)
    rw [(hlaw.added hret).1] at hwrap
    omega

/-- A vector that grows asks for a capacity in bytes: the block is too small if it gets
one, and the capacity has changed if it does not. -/
theorem not_appendLaw_grow (hfull : vec.items.length = vec.cap) (hcap : vec.cap < 2 ^ 63)
    {ptr : α} {m : Heap} {out : Int × EfVector α × Heap}
    (he : efVectorAppend vec ptr m = some out) (hlaw : AppendLaw vec ptr out.1 out.2.1)
    (hst : out.2.1.Stored) : False := by
  have hgrown : (vec.cap + vectorGrowSize) % 2 ^ 64 = vec.cap + 8 :=
    Nat.mod_eq_of_lt (by unfold vectorGrowSize; omega)
  unfold efVectorAppend at he
  dsimp only at he
  rw [if_neg (by omega), hgrown, Option.some.injEq] at he
  generalize (if vec.block.isSome then m.alloc (vec.cap + 8) else m.mallocOf (vec.cap + 8)) = r
    at he
  obtain ⟨ok, m'⟩ := r
  subst he
  cases ok with
  | true =>
      have hsize : (vec.cap + 8) * 8 ≤ vec.cap + 8 := hst.room (vec.cap + 8) rfl
      omega
  | false =>
      have hcaps : vec.cap + 8 = vec.cap := congrArg EfVector.cap (hlaw.refused rfl)
      omega

end EfVector

theorem VectorLaw.stored {vec : EfVector α} {m : Heap} {ops : List (VectorOp α)}
    (h : VectorLaw vec m ops) : vec.Stored := by
  cases ops with
  | nil => exact h
  | cons op ops =>
      cases op with
      | append ptr => exact h.1
      | free => exact h.1

/-- From a vector that is stored, a run keeps the law exactly when its appends fit
into the slots that are left. -/
theorem EfVector.Stored.law_iff {vec : EfVector α} (h : vec.Stored) (hcap : vec.cap < 2 ^ 63)
    (m : Heap) (ops : List (VectorOp α)) :
    VectorLaw vec m ops ↔ AppendsFit (min vec.cap (2 ^ 31) - vec.items.length) ops := by
  induction ops generalizing vec m with
  | nil => exact ⟨fun _ => trivial, fun _ => h⟩
  | cons op ops ih =>
      cases op with
      | append ptr =>
          by_cases hroom : vec.items.length < vec.cap ∧ vec.items.length < 2 ^ 31
          · obtain ⟨he, hlaw, hst⟩ := h.append hroom.1 hroom.2 ptr m
            have hrest := ih hst hcap m
            rw [List.length_append, List.length_singleton, ← Nat.sub_sub] at hrest
            rw [VectorLaw, he, AppendsFit]
            constructor
            · rintro ⟨_, _, hout, _, hr⟩
              obtain rfl := Option.some.inj hout
              exact ⟨by omega, hrest.mp hr⟩
            · rintro ⟨_, hr⟩
              exact ⟨h, _, rfl, hlaw, hrest.mpr hr⟩
          · constructor
            · rintro ⟨_, out, he, hlaw, hrest⟩
              have hle := h.len_le
              by_cases hfull : vec.items.length < vec.cap
              · have hlong : 2 ^ 31 ≤ vec.items.length := by omega
                rw [efVectorAppend_of_room hfull (h.backed hfull)] at he
                obtain rfl := Option.some.inj he
                dsimp only at hlaw
                exact absurd hlaw (EfVector.not_appendLaw_long hlong ptr)
              · exact (EfVector.not_appendLaw_grow (by omega) hcap he hlaw hrest.stored).elim
            · rintro ⟨hpos, _⟩
              omega
      | free =>
          have hzero : (efVectorClear vec).cap < 2 ^ 63 := by
            change 0 < 2 ^ 63
            decide
          rw [VectorLaw, AppendsFit, ih (.clear vec) hzero]
          exact ⟨fun hr => hr.2, fun hr => ⟨h, hr⟩⟩

/-! ## New vectors -/

def newRoom (cap : Nat) : Nat := if cap ≠ 0 then efResize cap vectorGrowSize else 0

theorem efVectorNew_eq_some {cap : Nat} {m m' : Heap} {vec : EfVector α}
    (h : efVectorNew α cap m = (some vec, m')) :
    vec = ⟨none, 0, []⟩ ∧ newRoom cap = 0 ∨
      vec = ⟨some (newRoom cap * 8 % 2 ^ 64), newRoom cap, []⟩ ∧ newRoom cap ≠ 0 ∧
        newRoom cap * 8 % 2 ^ 64 < 2 ^ 63 := by
  have hroom : (if cap ≠ 0 then efResize cap vectorGrowSize else cap) = newRoom cap := by
    unfold newRoom
    by_cases hz : cap = 0 <;> simp [hz]
  unfold efVectorNew at h
  dsimp only at h
  rw [hroom] at h
  split at h
  · split at h
    next hne =>
      split at h
      next hok =>
        cases h
        simp only [Heap.mallocOf, Heap.request, Bool.and_eq_true, decide_eq_true_eq] at hok
        exact Or.inr ⟨rfl, hne, hok.2⟩
      next => cases h
    next hz =>
      cases h
      exact Or.inl ⟨rfl, not_not.mp hz⟩
  · cases h

/-- Up to `2 ^ 60` the size of the block is computed without overflow; above `2 ^ 63`
no block is asked for. -/
theorem newRoom_cases {cap : Nat} (hcap : cap < 2 ^ 64) :
    (cap ≤ 2 ^ 60 ∧ newRoom cap ≤ 2 ^ 60) ∨
      (2 ^ 60 < cap ∧ cap ≤ 2 ^ 63 ∧ newRoom cap ≠ 0 ∧ newRoom cap * 8 % 2 ^ 64 = 0) ∨
      (2 ^ 63 < cap ∧ newRoom cap = 0) := by
  unfold newRoom vectorGrowSize
  by_cases hz : cap = 0
  · exact Or.inl ⟨by omega, by simp [hz]⟩
  rw [if_pos hz]
  by_cases hwrap : 2 ^ 63 < cap
  · refine Or.inr (Or.inr ⟨hwrap, ?_⟩)
    have h := efResize_wrap hwrap hcap
    unfold efResize at h ⊢
    rw [if_neg (by omega)] at h ⊢
    exact h
  · rw [efResize_eq (by omega) (by omega)]
    have hlow := (Lib.size_pow_bounds (max cap 8 - 1)).1
    have hhigh := (Lib.size_pow_bounds (max cap 8 - 1)).2
    by_cases h60 : cap ≤ 2 ^ 60
    · exact Or.inl ⟨h60, hhigh 60 (by omega)⟩
    · have hsize : 60 < (max cap 8 - 1).size := Nat.lt_size.mpr (by omega)
      have hbytes : 2 ^ (max cap 8 - 1).size * 8 = 2 ^ ((max cap 8 - 1).size + 3) :=
        (Nat.pow_add 2 _ 3).symm
      refine Or.inr (Or.inl ⟨by omega, by omega, by omega, ?_⟩)
      rw [hbytes]
      exact Nat.mod_eq_zero_of_dvd (Nat.pow_dvd_pow 2 (by omega))

/-- The storage of a vector is right in every state, and every append keeps its promise,
exactly when `ef_vector_new` computes the size of its block without overflow and no
append has to grow the block, or to return an index that is no `int`. -/
theorem vector_storage {cap : Nat} (hcap : cap < 2 ^ 64) {m m' : Heap} {vec : EfVector α}
    (hnew : efVectorNew α cap m = (some vec, m')) (ops : List (VectorOp α)) :
    VectorLaw vec m' ops ↔
      (cap ≤ 2 ^ 60 ∨ 2 ^ 63 < cap) ∧ AppendsFit (min (newRoom cap) (2 ^ 31)) ops := by
  rcases efVectorNew_eq_some hnew with ⟨rfl, hz⟩ | ⟨rfl, hne, hfits⟩
  · have hst : (⟨none, 0, []⟩ : EfVector α).Stored := .clear ⟨none, 0, []⟩
    have hover : cap ≤ 2 ^ 60 ∨ 2 ^ 63 < cap := by
      rcases newRoom_cases hcap with h | h | h
      · exact Or.inl h.1
      · exact absurd hz h.2.2.1
      · exact Or.inr h.1
    rw [hst.law_iff (by dsimp only; decide), hz]
    exact ⟨fun h => ⟨hover, h⟩, And.right⟩
  · rcases newRoom_cases hcap with ⟨hle, hroom⟩ | ⟨hlo, hhi, _, hsize⟩ | ⟨_, hz⟩
    · have hsize : newRoom cap * 8 % 2 ^ 64 = newRoom cap * 8 := Nat.mod_eq_of_lt (by omega)
      have hst : (⟨some (newRoom cap * 8 % 2 ^ 64), newRoom cap, []⟩ : EfVector α).Stored := by
        refine ⟨fun hb => (by cases hb), ?_, Nat.zero_le _⟩
        rintro size ⟨⟩
        exact Nat.le_of_eq hsize.symm
      rw [hst.law_iff (show newRoom cap < 2 ^ 63 by omega)]
      exact ⟨fun h => ⟨Or.inl hle, h⟩, And.right⟩
    · constructor
      · intro hlaw
        have hsmall := hlaw.stored.room _ rfl
        dsimp only at hsmall
        omega
      · rintro ⟨hno, _⟩
        omega
    · exact absurd hz hne

/-- Five slots asked for, eight made, one of them used. -/
theorem vector_storage_five :
    VectorLaw (⟨some 64, 8, []⟩ : EfVector Nat) ⟨[], 2, 0⟩ [.append 7, .free] :=
  (vector_storage (by decide)
    (show efVectorNew Nat 5 ⟨[], 0, 0⟩ = (some ⟨some 64, 8, []⟩, ⟨[], 2, 0⟩) by
      decide +kernel) _).mpr (by decide +kernel)

/-- An empty vector grows to eight slots in a block of eight bytes, and the second
append stores behind it. -/
theorem vector_storage_grown :
    efVectorNew Nat 0 ⟨[], 0, 0⟩ = (some ⟨none, 0, []⟩, ⟨[], 1, 0⟩) ∧
      efVectorAppend (⟨none, 0, []⟩ : EfVector Nat) 7 ⟨[], 1, 0⟩ =
        some (0, ⟨some 8, 8, [7]⟩, ⟨[], 2, 0⟩) ∧
      efVectorAppend (⟨some 8, 8, [7]⟩ : EfVector Nat) 9 ⟨[], 2, 0⟩ =
        some (1, ⟨some 8, 8, [7, 9]⟩, ⟨[], 2, 0⟩) ∧
      ¬ VectorLaw (⟨none, 0, []⟩ : EfVector Nat) ⟨[], 1, 0⟩ [.append 7, .append 9] := by
  refine ⟨by decide, by decide, by decide, fun hlaw => ?_⟩
  obtain ⟨_, _, ⟨⟩, _, hlaw⟩ := hlaw
  have hsmall := hlaw.stored.room 8 rfl
  exact absurd hsmall (by decide)

end EFramework
