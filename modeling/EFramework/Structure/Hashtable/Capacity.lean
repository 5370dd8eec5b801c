import EFramework.Lib.Run
import EFramework.Structure.Hashtable.Refinement

/-! # Capacities over the whole range of `uint32_t`

Above `2 ^ 31` the rounding of `hash_recap` wraps to 0. A new table takes that
capacity; a resize takes it only when nothing is in the table, because it is
compared with `used`. Everything else keeps the geometry, whatever the keys and
the allocator do.
-/

namespace EFramework

open Lib

variable {V : Type}

theorem hashRecap_wrap {cap : Nat} (hlo : 2 ^ 31 < cap) (hhi : cap < 2 ^ 32) :
    hashRecap cap = 0 := by
  have hsize : (cap - 1).size = 32 := by
    have hle : (cap - 1).size ≤ 32 := Nat.size_le.mpr (by omega)
    have hlt : 31 < (cap - 1).size := Nat.lt_size.mpr (by omega)
    omega
  unfold hashRecap hashTableInitCap
  rw [if_neg (by omega), smear32_eq (by omega), hsize]
  rfl

/-- A capacity that answers a request for `min` buckets. -/
structure RightCap (cap min : Nat) : Prop where
  pow : ∃ k, cap = 2 ^ k
  init_le : 8 ≤ cap
  min_le : min ≤ cap

theorem hashRecap_right {cap : Nat} (hcap : cap ≤ 2 ^ 31) : RightCap (hashRecap cap) cap := by
  obtain ⟨k, hlo, _, hk, hle⟩ := hashRecap_spec hcap
  have h8 : 2 ^ 3 ≤ 2 ^ k := Nat.pow_le_pow_right (by decide) hlo
  rw [hk]
  exact ⟨⟨k, rfl⟩, h8, hle⟩

namespace Hashtable

variable {ht ht' : Hashtable V}

/-- Every offset computed from a hash is that of one of the words allocated in
front of the buckets. -/
def Addressable (ht : Hashtable V) : Prop :=
  ∀ h : UInt64, -(ht.slots.length : Int) ≤ ht.hashOffset h ∧ ht.hashOffset h < 0

theorem Geometry.addressable (g : ht.Geometry) : ht.Addressable := by
  intro h
  have hlt := g.slotOf_lt h
  rw [g.hashOffset_eq, g.slots_length]
  omega

theorem Geometry.right (g : ht.Geometry) : RightCap ht.cap 0 := by
  obtain ⟨k, _, _, hk⟩ := g.pow
  exact ⟨⟨k, hk⟩, g.cap_bounds.1, Nat.zero_le _⟩

/-! ## Steps that keep the shape -/

structure SameShape (ht ht' : Hashtable V) : Prop where
  cap : ht'.cap = ht.cap
  sizemask : ht'.sizemask = ht.sizemask
  slots_length : ht'.slots.length = ht.slots.length
  data_length : ht'.arrData.length = ht.arrData.length

theorem SameShape.refl (ht : Hashtable V) : SameShape ht ht := ⟨rfl, rfl, rfl, rfl⟩

theorem SameShape.trans {ht'' : Hashtable V} (h : SameShape ht ht') (h' : SameShape ht' ht'') :
    SameShape ht ht'' :=
  ⟨h'.cap.trans h.cap, h'.sizemask.trans h.sizemask, h'.slots_length.trans h.slots_length,
    h'.data_length.trans h.data_length⟩

theorem Geometry.shape (g : ht.Geometry) (h : SameShape ht ht') : ht'.Geometry :=
  ⟨by rw [h.cap]; exact g.pow, by rw [h.sizemask, h.cap]; exact g.mask,
    by rw [h.slots_length, h.cap]; exact g.slots_length,
    by rw [h.data_length, h.cap]; exact g.data_length⟩

theorem SameShape.setBucket (ht : Hashtable V) (i : Nat) (pb : Bucket V) :
    SameShape ht (ht.setBucket i pb) :=
  ⟨rfl, rfl, rfl, List.length_set⟩

theorem SameShape.linkBucket (ht : Hashtable V) (i : Nat) (h : UInt64) (key : Option EfString)
    (val : Option V) : SameShape ht (ht.linkBucket i h key val) :=
  ⟨rfl, rfl, List.length_set, List.length_set⟩

theorem SameShape.setRef (ht : Hashtable V) (index : Nat) (r : IndexRef) :
    SameShape ht (ht.setRef index r) := by
  obtain ⟨hcap, hmask, _, _, _, _, hslots, hdata⟩ := setRef_fields ht index r
  exact ⟨hcap, hmask, hslots, hdata⟩

theorem SameShape.freeBucket (ht : Hashtable V) (i : Nat) (w : World V) :
    SameShape ht (efHashtableFreeBucket ht i w).1 := by
  unfold efHashtableFreeBucket
  dsimp only
  split
  · exact ⟨rfl, rfl, rfl, List.length_set⟩
  · exact .refl ht

theorem SameShape.removeLoop {h : UInt64} {key : Bytes} {len fuel pb : Nat} {w w' : World V}
    {pidx : IndexRef} (he : removeLoop ht h key len w fuel pidx pb = some (ht', w')) :
    SameShape ht ht' := by
  induction fuel generalizing pidx pb with
  | zero => cases he
  | succ fuel ih =>
      rw [EFramework.removeLoop] at he
      split at he
      · have he₁ : (efHashtableFreeBucket (ht.setRef (ht.bucket pb).next pidx) pb w).1 = ht' :=
          congrArg Prod.fst (Option.some.inj he)
        rw [← he₁]
        exact (SameShape.setRef ht _ pidx).trans (.freeBucket _ pb w)
      · split at he
        · cases he
          exact .refl ht
        · exact ih he

theorem SameShape.remove {key : Bytes} {len : Nat} {w w' : World V}
    (he : efHashtableRemoveKey ht key len w = some (ht', w')) : SameShape ht ht' := by
  unfold efHashtableRemoveKey at he
  dsimp only at he
  split at he
  · cases he
    exact .refl ht
  · exact .removeLoop he

theorem SameShape.fillBucket (ht : Hashtable V) (pb : Nat) (key : Bytes) (klen : Nat)
    (val : Option V) (m : Heap) : SameShape ht (fillBucket ht pb key klen val m).2.1 := by
  unfold EFramework.fillBucket
  split
  · exact ⟨rfl, rfl, rfl, List.length_set⟩
  · exact ⟨rfl, rfl, List.length_set, List.length_set⟩

theorem SameShape.rehash (pbs : List (Bucket V)) (st : Hashtable V × Nat) :
    SameShape st.1 (pbs.foldl rehashBucket st).1 := by
  induction pbs generalizing st with
  | nil => exact .refl st.1
  | cons pb pbs ih =>
      have hstep : SameShape st.1 (rehashBucket st pb).1 := by
        unfold rehashBucket
        split
        · exact .linkBucket st.1 st.2 pb.h pb.key pb.val
        · exact .refl st.1
      rw [List.foldl_cons]
      exact hstep.trans (ih _)

/-! ## Steps that change the capacity -/

theorem Geometry.alloc {cap : Nat} (hcap : cap ≤ 2 ^ 31) (hc : ht.cap = hashRecap cap)
    (hmask : ht.sizemask = hashSizemask ht.cap) (hs : ht.slots.length = ht.cap)
    (hd : ht.arrData.length = ht.cap) : ht.Geometry := by
  obtain ⟨k, hlo, hhi, hk, _⟩ := hashRecap_spec hcap
  exact ⟨⟨k, hlo, hhi, hc.trans hk⟩, hmask, hs, hd⟩

theorem new_geometry {cap : Nat} (hcap : cap ≤ 2 ^ 31) {valDtor : Bool} {m m' : Heap}
    (he : efHashtableNew V cap valDtor m = (some ht, m')) :
    ht.Geometry ∧ ht.cap = hashRecap cap := by
  have hwf := (new_spec hcap valDtor m he).1
  refine ⟨hwf.geometry, ?_⟩
  unfold efHashtableNew at he
  dsimp only at he
  split at he
  · cases he
  · split at he
    · cases he
      rfl
    · cases he

theorem resize_cases {cap : Nat} {m m' : Heap} {ret : Int}
    (he : efHashtableResize ht cap m = (ret, ht', m')) :
    (ret = -1 ∧ ht' = ht) ∨
      (ret = 0 ∧ ht'.cap = hashRecap cap ∧ ht.used ≤ ht'.cap ∧
        ht'.sizemask = hashSizemask ht'.cap ∧ ht'.slots.length = ht'.cap ∧
        ht'.arrData.length = ht'.cap) := by
  unfold efHashtableResize at he
  dsimp only at he
  split at he
  next =>
    cases he
    exact Or.inl ⟨rfl, rfl⟩
  next hroom =>
    split at he
    next =>
      cases he
      exact Or.inl ⟨rfl, rfl⟩
    next slots newbks m₁ halloc =>
      have hlen : slots.length = hashRecap cap ∧ newbks.length = hashRecap cap := by
        unfold allocHashData at halloc
        dsimp only at halloc
        split at halloc
        · cases halloc
          exact ⟨List.length_replicate, List.length_replicate⟩
        · cases halloc
      set fresh : Hashtable V :=
        { ht with
          cap := hashRecap cap, sizemask := hashSizemask (hashRecap cap), next := ht.used
          removed := nil32, slots := slots, arrData := newbks }
      have hsh := SameShape.rehash (ht.arrData.take ht.cap) (fresh, 0)
      cases he
      refine Or.inr ⟨rfl, hsh.cap, ?_, ?_, ?_, ?_⟩
      · rw [hsh.cap]
        exact Nat.le_of_not_lt hroom
      · rw [hsh.sizemask, hsh.cap]
      · rw [hsh.slots_length, hsh.cap]
        exact hlen.1
      · rw [hsh.data_length, hsh.cap]
        exact hlen.2

theorem Geometry.resize (g : ht.Geometry) {cap : Nat} (hcap : cap ≤ 2 ^ 31) {m m' : Heap}
    {ret : Int} (he : efHashtableResize ht cap m = (ret, ht', m')) : ht'.Geometry := by
  rcases resize_cases he with ⟨_, rfl⟩ | ⟨_, hc, _, hmask, hs, hd⟩
  · exact g
  · exact .alloc hcap hc hmask hs hd

/-- A capacity that wraps to 0 is refused as soon as the table holds something. -/
theorem resize_wrap {cap : Nat} (hlo : 2 ^ 31 < cap) (hhi : cap < 2 ^ 32) (hused : ht.used ≠ 0)
    (m : Heap) : efHashtableResize ht cap m = (-1, ht, m) := by
  unfold efHashtableResize
  rw [hashRecap_wrap hlo hhi, if_pos (Nat.pos_of_ne_zero hused)]

theorem Geometry.double_le (g : ht.Geometry) : ht.cap <<< 1 % 2 ^ 32 ≤ 2 ^ 31 := by
  obtain ⟨k, _, hhi, hk⟩ := g.pow
  rw [Nat.shiftLeft_eq, hk, Nat.pow_one, ← Nat.pow_succ]
  by_cases h31 : k = 31
  · rw [h31]
    decide
  · exact Nat.le_trans (Nat.mod_le _ _) (Nat.pow_le_pow_right (by decide) (by omega))

theorem Geometry.allocBucket (g : ht.Geometry) {fuel : Nat} {m m' : Heap} {pb : Option Nat}
    (he : allocBucket fuel ht m = some (pb, ht', m')) : ht'.Geometry := by
  induction fuel generalizing ht m with
  | zero => cases he
  | succ fuel ih =>
      rw [EFramework.allocBucket] at he
      split at he
      · cases he
        exact g.shape ⟨rfl, rfl, rfl, rfl⟩
      · split at he
        · cases he
          exact g.shape ⟨rfl, rfl, rfl, rfl⟩
        · generalize hr : efHashtableResize ht (ht.cap <<< 1 % 2 ^ 32) m = r at he
          obtain ⟨ret, ht₁, m₁⟩ := r
          have g₁ : ht₁.Geometry := g.resize g.double_le hr
          dsimp only at he
          split at he
          · exact ih g₁ he
          · cases he
            exact g₁

theorem Geometry.set (g : ht.Geometry) {key : Bytes} {klen : Nat} {val : Option V}
    {w w' : World V} {pb : Option Nat}
    (he : efHashtableSetKeyValue ht key klen val w = some (pb, ht', w')) : ht'.Geometry := by
  unfold efHashtableSetKeyValue at he
  split at he
  · cases he
  · cases he
    exact g.shape (.setBucket ht _ _)
  · split at he
    · cases he
    next hresv =>
      cases he
      exact g.allocBucket hresv
    next ht₁ m₁ hresv =>
      have g₁ := g.allocBucket hresv
      cases he
      exact g₁.shape (.fillBucket ht₁ _ key klen val m₁)

end Hashtable

/-! ## Whole runs -/

abbrev HashState (V : Type) := Hashtable V × World V

namespace HashState

def New (s : HashState V) : Prop :=
  ∃ cap valDtor m m', cap ≤ 2 ^ 31 ∧ efHashtableNew V cap valDtor m = (some s.1, m') ∧
    s.2 = ⟨m', []⟩

def step (s : HashState V) (op : HashOp V) : Option (HashState V) :=
  (op.exec s.1 s.2).map Prod.snd

/-- A resize beyond `2 ^ 31` is not called on an empty table. -/
def CapGuard (s : HashState V) : HashOp V → Prop
  | .resize cap => cap < 2 ^ 32 ∧ (cap ≤ 2 ^ 31 ∨ s.1.used ≠ 0)
  | _ => True

end HashState

theorem Hashtable.Geometry.exec {ht ht' : Hashtable V} (g : ht.Geometry) {w w' : World V}
    {op : HashOp V} (hg : HashState.CapGuard (ht, w) op) {r : HashRet}
    (he : op.exec ht w = some (r, ht', w')) : ht'.Geometry := by
  cases op with
  | set key klen val =>
      obtain ⟨⟨pb, ht₁, w₁⟩, hs, he⟩ := Option.bind_eq_some_iff.mp he
      cases he
      exact g.set hs
  | remove key klen =>
      obtain ⟨⟨ht₁, w₁⟩, hs, he⟩ := Option.bind_eq_some_iff.mp he
      cases he
      exact g.shape (.remove hs)
  | find key klen =>
      obtain ⟨pb, _, he⟩ := Option.bind_eq_some_iff.mp he
      cases he
      exact g
  | resize cap =>
      obtain ⟨hhi, hlo⟩ := hg
      generalize hr : efHashtableResize ht cap w.heap = out at he
      obtain ⟨ret, ht₁, m₁⟩ := out
      rw [HashOp.exec, hr] at he
      cases he
      by_cases hcap : cap ≤ 2 ^ 31
      · exact g.resize hcap hr
      · rw [Hashtable.resize_wrap (by omega) hhi (hlo.resolve_left hcap)] at hr
        cases hr
        exact g

theorem HashState.geometry_invariant :
    Invariant (S := HashState V) New step CapGuard (fun s => s.1.Geometry) where
  init := by
    rintro s ⟨cap, valDtor, m, m', hcap, he, _⟩
    exact (Hashtable.new_geometry hcap he).1
  step := by
    rintro s s' op g hg he
    obtain ⟨⟨r, ht', w'⟩, hexec, rfl⟩ := Option.map_eq_some_iff.mp he
    exact g.exec hg hexec

/-! ## What is promised of a capacity -/

/-- `ef_hashtable_new(cap)` returns NULL or a table that can be used. -/
def NewSound (V : Type) (cap : Nat) : Prop :=
  ∀ valDtor m ht m', efHashtableNew V cap valDtor m = (some ht, m') →
    RightCap ht.cap cap ∧ ht.Addressable

/-- `ef_hashtable_resize(ht, cap)` refuses, or leaves a table that can be used. -/
def ResizeSound (ht : Hashtable V) (cap : Nat) : Prop :=
  ∀ m ret ht' m', efHashtableResize ht cap m = (ret, ht', m') →
    (ret = -1 ∧ ht' = ht) ∨
      (ret = 0 ∧ RightCap ht'.cap cap ∧ ht.used ≤ ht'.cap ∧ ht'.Addressable)

theorem newSound_iff {cap : Nat} (hcap : cap < 2 ^ 32) : NewSound V cap ↔ cap ≤ 2 ^ 31 := by
  constructor
  · intro h
    by_contra hgt
    have hnew : efHashtableNew V cap false ⟨[], 0, 0⟩ =
        (some ⟨0, hashSizemask 0, 0, 0, nil32, false, [], []⟩, ⟨[], 2, 0⟩) := by
      unfold efHashtableNew
      rw [hashRecap_wrap (by omega) hcap]
      rfl
    have h8 := (h _ _ _ _ hnew).1.init_le
    dsimp only at h8
    omega
  · intro hle valDtor m ht m' he
    obtain ⟨g, hc⟩ := Hashtable.new_geometry hle he
    rw [hc]
    exact ⟨hashRecap_right hle, g.addressable⟩

theorem Hashtable.resizeSound_iff {ht : Hashtable V} {cap : Nat} (hcap : cap < 2 ^ 32) :
    ResizeSound ht cap ↔ cap ≤ 2 ^ 31 ∨ ht.used ≠ 0 := by
  constructor
  · intro h
    by_contra hno
    obtain ⟨hgt, hused⟩ := not_or.mp hno
    have hused : ht.used = 0 := not_not.mp hused
    generalize hr : efHashtableResize ht cap ⟨[], 0, 0⟩ = out
    obtain ⟨ret, ht', m'⟩ := out
    rcases h _ _ _ _ hr with ⟨hret, _⟩ | ⟨_, hright, _⟩
    · unfold efHashtableResize at hr
      rw [hashRecap_wrap (by omega) hcap, hused] at hr
      cases hr
      exact absurd hret (by decide)
    · rcases resize_cases hr with ⟨hret, _⟩ | ⟨_, hc, _⟩
      · unfold efHashtableResize at hr
        rw [hashRecap_wrap (by omega) hcap, hused] at hr
        cases hr
        exact absurd hret (by decide)
      · have h8 := hright.init_le
        rw [hc, hashRecap_wrap (by omega) hcap] at h8
        omega
  · intro h m ret ht' m' he
    by_cases hle : cap ≤ 2 ^ 31
    · rcases resize_cases he with hno | ⟨hret, hc, hroom, hmask, hs, hd⟩
      · exact Or.inl hno
      · have g : ht'.Geometry := .alloc hle hc hmask hs hd
        refine Or.inr ⟨hret, ?_, hroom, g.addressable⟩
        rw [hc]
        exact hashRecap_right hle
    · rw [Hashtable.resize_wrap (by omega) hcap (h.resolve_left hle)] at he
      cases he
      exact Or.inl ⟨rfl, rfl⟩

/-- `ef_hashtable_new` is sound up to `2 ^ 31` and not beyond. In every run that
starts there and calls no resize beyond it on an empty table, the table can be
used in every state; a resize is sound up to `2 ^ 31` and as long as something is
in the table; and the doubling of a full table is always sound. -/
theorem hashtable_capacity {s : HashState V}
    (hs : Reachable HashState.New HashState.step HashState.CapGuard s) :
    (∀ cap < 2 ^ 32, NewSound V cap ↔ cap ≤ 2 ^ 31) ∧
      RightCap s.1.cap 0 ∧ s.1.Addressable ∧
      (∀ cap < 2 ^ 32, ResizeSound s.1 cap ↔ cap ≤ 2 ^ 31 ∨ s.1.used ≠ 0) ∧
      ResizeSound s.1 (s.1.cap <<< 1 % 2 ^ 32) ∧
      ∀ key klen val w pb ht' w', efHashtableSetKeyValue s.1 key klen val w = some (pb, ht', w') →
        RightCap ht'.cap 0 ∧ ht'.Addressable := by
  have g : s.1.Geometry := HashState.geometry_invariant.holds hs
  have hdouble := g.double_le
  refine ⟨fun cap => newSound_iff, g.right, g.addressable, fun cap => Hashtable.resizeSound_iff,
    (Hashtable.resizeSound_iff (by omega)).mpr (Or.inl hdouble), ?_⟩
  intro key klen val w pb ht' w' he
  have g' : ht'.Geometry := g.set he
  exact ⟨g'.right, g'.addressable⟩

theorem hashtable_capacity_eight :
    ¬ ResizeSound (Hashtable.smallest Nat false) (2 ^ 32 - 1) := by
  have hs : Reachable HashState.New HashState.step HashState.CapGuard
      ((Hashtable.smallest Nat false, ⟨⟨[], 2, 0⟩, []⟩) : HashState Nat) :=
    .init ⟨8, false, ⟨[], 0, 0⟩, ⟨[], 2, 0⟩, by decide, Hashtable.new_smallest Nat false, rfl⟩
  have h := ((hashtable_capacity hs).2.2.2.1 (2 ^ 32 - 1) (by decide)).not
  exact h.mpr (by decide)

/-- One bucket more than `2 ^ 31`: the table has no buckets and no slots, and every
offset is outside of it. -/
theorem hashtable_capacity_beyond :
    (∃ ht m', efHashtableNew Nat (2 ^ 31 + 1) false ⟨[], 0, 0⟩ = (some ht, m') ∧ ht.cap = 0 ∧
      ht.slots = [] ∧ ¬ ht.Addressable) ∧
    ¬ ∀ cap < 2 ^ 32, NewSound Nat cap := by
  constructor
  · refine ⟨⟨0, hashSizemask 0, 0, 0, nil32, false, [], []⟩, ⟨[], 2, 0⟩, ?_, rfl, rfl, ?_⟩
    · unfold efHashtableNew
      rw [hashRecap_wrap (by decide) (by decide)]
      rfl
    · intro ha
      have h := ha 0
      rw [List.length_nil] at h
      omega
  · intro h
    have h31 := (newSound_iff (by decide)).mp (h (2 ^ 31 + 1) (by decide))
    omega

end EFramework
