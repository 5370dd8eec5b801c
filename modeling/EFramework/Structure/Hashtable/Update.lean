import EFramework.Structure.Hashtable.Lookup

/-! # Removing, growing and setting

One specification for each mutating operation: what it returns, that the
invariant survives, and how the represented map changes. The rehashing copy of
`ef_hashtable_resize` carries its own loop invariant.
-/

namespace EFramework

open Lib

variable {V : Type}

namespace Hashtable

variable {ht : Hashtable V}

/-! ## Releasing an unlinked bucket -/

/-- `ht₁` is `ht` with some links of live buckets, or a slot, redirected. -/
structure Relinked (ht ht₁ : Hashtable V) : Prop where
  cap : ht₁.cap = ht.cap
  sizemask : ht₁.sizemask = ht.sizemask
  used : ht₁.used = ht.used
  next : ht₁.next = ht.next
  removed : ht₁.removed = ht.removed
  valDtor : ht₁.valDtor = ht.valDtor
  slots_length : ht₁.slots.length = ht.slots.length
  data_length : ht₁.arrData.length = ht.arrData.length
  bucket : ∀ k, ht₁.bucket k = { ht.bucket k with next := ht₁.nextOf k }
  dead_link : ∀ k, ¬ (ht.bucket k).Live → ht₁.nextOf k = ht.nextOf k

theorem Relinked.live_iff {ht₁ : Hashtable V} (r : Relinked ht ht₁) (k : Nat) :
    (ht₁.bucket k).Live ↔ (ht.bucket k).Live := by
  rw [r.bucket k]
  exact Iff.rfl

theorem Linked.relinked_unlink (hl : ht.Linked) (g : ht.Geometry) {h : UInt64}
    {l₁ l₂ : List Nat} {i : Nat}
    (hc : Chain nil32 ht.nextOf (ht.slotHead (ht.slotOf h)) (l₁ ++ i :: l₂))
    (hmem : ∀ k, k ∈ l₁ ++ i :: l₂ ↔
      (ht.bucket k).Live ∧ ht.slotOf (ht.bucket k).h = ht.slotOf h) :
    Relinked ht (ht.setRef (ht.nextOf i) (refAfter (ht.hashOffset h) l₁)) := by
  obtain ⟨hcap, hmask, hused, hnext, hremoved, hdtor, hslots, hdata⟩ :=
    setRef_fields ht (ht.nextOf i) (refAfter (ht.hashOffset h) l₁)
  have hbucket := (hl.unlink g hc hmem).2
  refine ⟨hcap, hmask, hused, hnext, hremoved, hdtor, hslots, hdata,
    fun k => (hbucket k).1, fun k hk => (hbucket k).2 ?_⟩
  intro hmem₁
  exact hk ((hmem k).mp (by simp [hmem₁])).1

/-- `ht₂` is `ht₁` with the bucket `i` dead and in front of the removed ones. -/
structure Released (ht ht₁ ht₂ : Hashtable V) (i : Nat) : Prop where
  cap : ht₂.cap = ht.cap
  sizemask : ht₂.sizemask = ht.sizemask
  used : ht₂.used = ht.used - 1
  next : ht₂.next = ht.next
  removed : ht₂.removed = i
  valDtor : ht₂.valDtor = ht.valDtor
  slots_length : ht₂.slots.length = ht.slots.length
  data_length : ht₂.arrData.length = ht.arrData.length
  slotHead : ht₂.slotHead = ht₁.slotHead
  link : ht₂.nextOf = Function.update ht₁.nextOf i ht.removed
  live : ∀ k, (ht₂.bucket k).Live ↔ (ht.bucket k).Live ∧ k ≠ i
  key : (ht₂.bucket i).key = none
  same : ∀ k, k ≠ i → (ht₂.bucket k).h = (ht.bucket k).h ∧
    (ht₂.bucket k).key = (ht.bucket k).key ∧ (ht₂.bucket k).val = (ht.bucket k).val

theorem Relinked.freeBucket {ht₁ : Hashtable V} (r : Relinked ht ht₁) {i : Nat}
    (hi : (ht.bucket i).Live) (w : World V) :
    Released ht ht₁ (efHashtableFreeBucket ht₁ i w).1 i ∧
      (efHashtableFreeBucket ht₁ i w).2 = w.destroy ht.valDtor (ht.bucket i).val := by
  have hlt : i < ht₁.arrData.length := by rw [r.data_length]; exact lt_of_live hi
  have hi₁ : (ht₁.bucket i).Live := (r.live_iff i).mpr hi
  have hval : (ht₁.bucket i).val = (ht.bucket i).val := by rw [r.bucket]
  unfold efHashtableFreeBucket
  simp only [if_pos hi₁, hval, r.valDtor, r.removed, r.used]
  set dead : Bucket V := ⟨0, none, if ht.valDtor = true then none else (ht.bucket i).val, ht.removed⟩
    with hdead
  have hdeadLive : ¬ dead.Live := by simp [hdead, Bucket.Live]
  have hb := bucket_setBucket hlt dead
  refine ⟨⟨r.cap, r.sizemask, rfl, r.next, rfl, r.valDtor, r.slots_length, ?_, rfl,
    nextOf_setBucket hlt dead, fun k => ?_, ?_, fun k hk => ?_⟩, trivial⟩
  · simpa [setBucket] using r.data_length
  · change ((ht₁.setBucket i dead).bucket k).Live ↔ _
    rw [hb]
    by_cases hk : k = i
    · simp [hk, hdeadLive]
    · simp [hk, r.live_iff]
  · change ((ht₁.setBucket i dead).bucket i).key = none
    rw [hb, if_pos rfl]
  · change ((ht₁.setBucket i dead).bucket k).h = _ ∧ ((ht₁.setBucket i dead).bucket k).key = _ ∧
      ((ht₁.setBucket i dead).bucket k).val = _
    rw [hb, if_neg hk, r.bucket]
    exact ⟨rfl, rfl, rfl⟩

namespace Released

variable {ht₁ ht₂ : Hashtable V} {i : Nat}

theorem slotOf (f : Released ht ht₁ ht₂ i) : ht₂.slotOf = ht.slotOf := by
  funext h
  rw [Hashtable.slotOf, f.cap]
  rfl

theorem geometry (f : Released ht ht₁ ht₂ i) (g : ht.Geometry) : ht₂.Geometry := by
  refine ⟨?_, ?_, ?_, ?_⟩ <;> rw [f.cap]
  · exact g.pow
  · exact f.sizemask.trans g.mask
  · exact f.slots_length.trans g.slots_length
  · exact f.data_length.trans g.data_length

theorem linked (f : Released ht ht₁ ht₂ i) (hl : ht.Linked)
    (hchain : ∀ t < ht.cap, ∃ l, Chain nil32 ht₁.nextOf (ht₁.slotHead t) l ∧
      ∀ k, k ∈ l ↔ ((ht.bucket k).Live ∧ ht.slotOf (ht.bucket k).h = t) ∧ k ≠ i) :
    ht₂.Linked := by
  refine ⟨?_, ?_, ?_⟩
  · intro t ht'
    obtain ⟨l, hc, hm⟩ := hchain t (by rw [← f.cap]; exact ht')
    refine ⟨l, ?_, ?_⟩
    · rw [f.link, f.slotHead]
      exact hc.update_of_not_mem (fun hil => ((hm i).mp hil).2 rfl)
    · intro k
      rw [hm, f.live, f.slotOf]
      by_cases hk : k = i
      · simp [hk]
      · simp [hk, (f.same k hk).1]
  · intro k hk
    obtain ⟨hkl, hki⟩ := (f.live k).mp hk
    rw [(f.same k hki).1, (f.same k hki).2.1]
    exact hl.live_key k hkl
  · intro j k hj hk
    obtain ⟨hjl, hji⟩ := (f.live j).mp hj
    obtain ⟨hkl, hki⟩ := (f.live k).mp hk
    rw [(f.same j hji).2.1, (f.same k hki).2.1]
    exact hl.key_inj j k hjl hkl

theorem removed_chain (f : Released ht ht₁ ht₂ i) (wf : ht.Wf) (r : Relinked ht ht₁)
    (hi : (ht.bucket i).Live) :
    ∃ l, Chain nil32 ht₂.nextOf ht₂.removed l ∧
      (∀ k, k ∈ l ↔ k < ht₂.next ∧ ¬ (ht₂.bucket k).Live) ∧ ht₂.used + l.length = ht₂.next := by
  obtain ⟨l, hc, hm, hlen⟩ := wf.removed_chain
  have hcapi : i < ht.cap := by
    rw [← wf.geometry.data_length]
    exact lt_of_live hi
  have hil : i ∉ l := fun h => ((hm i).mp h).2 hi
  rw [f.link, f.removed, f.next, f.used]
  refine ⟨i :: l, ?_, ?_, ?_⟩
  · refine Chain.push ?_ hil (wf.geometry.index_ne_nil hcapi)
    exact hc.congr (fun k hk => r.dead_link k ((hm k).mp hk).2)
  · intro k
    rw [List.mem_cons, hm, f.live]
    have hin : i < ht.next := Nat.lt_of_not_le (fun hle => wf.fresh i hle hi)
    by_cases hk : k = i
    · simp [hk, hin]
    · simp [hk]
  · have hpos : 0 < ht.used := by
      rw [wf.used_eq]
      exact Finset.card_pos.mpr ⟨i, wf.mem_liveSet.mpr hi⟩
    rw [List.length_cons]
    omega

theorem maps (f : Released ht ht₁ ht₂ i) (hl : ht.Linked) (hi : (ht.bucket i).Live) (k : Bytes)
    (v : Option V) : ht₂.Maps k v ↔ (ht.bucket i).key ≠ some ⟨k⟩ ∧ ht.Maps k v := by
  constructor
  · rintro ⟨j, hj, hjk, hjv⟩
    obtain ⟨hjl, hji⟩ := (f.live j).mp hj
    rw [(f.same j hji).2.1] at hjk
    rw [(f.same j hji).2.2] at hjv
    refine ⟨?_, j, hjl, hjk, hjv⟩
    intro hik
    exact hji (hl.key_inj j i hjl hi (hjk.trans hik.symm))
  · rintro ⟨hne, j, hj, hjk, hjv⟩
    have hji : j ≠ i := by
      rintro rfl
      exact hne hjk
    exact ⟨j, (f.live j).mpr ⟨hj, hji⟩, (f.same j hji).2.1.trans hjk, (f.same j hji).2.2.trans hjv⟩

end Released

theorem Wf.freeBucket {ht₁ : Hashtable V} (wf : ht.Wf) (r : Relinked ht ht₁) {i : Nat}
    (hi : (ht.bucket i).Live)
    (hchain : ∀ t < ht.cap, ∃ l, Chain nil32 ht₁.nextOf (ht₁.slotHead t) l ∧
      ∀ k, k ∈ l ↔ ((ht.bucket k).Live ∧ ht.slotOf (ht.bucket k).h = t) ∧ k ≠ i)
    (w : World V) :
    (efHashtableFreeBucket ht₁ i w).1.Wf ∧
      (efHashtableFreeBucket ht₁ i w).1.valDtor = ht.valDtor ∧
      (efHashtableFreeBucket ht₁ i w).2 = w.destroy ht.valDtor (ht.bucket i).val ∧
      ∀ k v, (efHashtableFreeBucket ht₁ i w).1.Maps k v ↔
        (ht.bucket i).key ≠ some ⟨k⟩ ∧ ht.Maps k v := by
  obtain ⟨f, hw⟩ := r.freeBucket hi w
  refine ⟨⟨f.geometry wf.geometry, f.linked wf.linked hchain, f.removed_chain wf r hi, ?_, ?_⟩,
    f.valDtor, hw, f.maps wf.linked hi⟩
  · rw [f.next, f.cap]
    exact wf.next_le
  · intro k hk hkl
    rw [f.next] at hk
    exact wf.fresh k hk ((f.live k).mp hkl).1

/-- A key that is not found leaves everything as it was; else its bucket is taken off its chain
and released. -/
theorem Wf.removeKey_cases (wf : ht.Wf) {key : Bytes} {len : Nat} (hlen : len ≤ key.length)
    (w : World V) :
    (efHashtableRemoveKey ht key len w = some (ht, w) ∧
        ∀ i, (ht.bucket i).Live → (ht.bucket i).key ≠ some ⟨key.take len⟩) ∨
      ∃ ht₁ i, Relinked ht ht₁ ∧ (ht.bucket i).Live ∧ (ht.bucket i).key = some ⟨key.take len⟩ ∧
        (∀ t < ht.cap, ∃ l, Chain nil32 ht₁.nextOf (ht₁.slotHead t) l ∧
          ∀ k, k ∈ l ↔ ((ht.bucket k).Live ∧ ht.slotOf (ht.bucket k).h = t) ∧ k ≠ i) ∧
        efHashtableRemoveKey ht key len w = some (efHashtableFreeBucket ht₁ i w) := by
  have g := wf.geometry
  obtain ⟨l, hc, hmem⟩ := wf.linked.chain _ (g.slotOf_lt (hashFunc key len))
  have hlive : ∀ i ∈ l, (ht.bucket i).Live := fun i hi => ((hmem i).mp hi).1
  have hin : ∀ i, (ht.bucket i).Live → (ht.bucket i).key = some ⟨key.take len⟩ → i ∈ l := by
    intro i hi hk
    refine (hmem i).mpr ⟨hi, ?_⟩
    obtain ⟨s, hs, hh, _⟩ := wf.linked.live_key i hi
    rw [hs, Option.some.injEq] at hk
    rw [hh, hk, EfString.len, hashFunc_take]
  have habsent : (∀ i ∈ l, (ht.bucket i).matches (hashFunc key len) key len = false) →
      ∀ i, (ht.bucket i).Live → (ht.bucket i).key ≠ some ⟨key.take len⟩ := by
    intro hall i hi hk
    have hm := (wf.linked.matches_iff hi hlen).mpr hk
    rw [hall i (hin i hi hk)] at hm
    exact absurd hm (by decide)
  unfold efHashtableRemoveKey
  simp only [g.hashEntry_eq]
  by_cases hp : ht.slotHead (ht.slotOf (hashFunc key len)) = nil32
  · rw [hp] at hc
    obtain rfl := hc.eq_nil_of_head
    exact Or.inl ⟨by simp [hp], habsent (by simp)⟩
  · rw [if_neg hp]
    rcases removeLoop_eq (h := hashFunc key len) [] hc hp (g.chain_length_le hc hlive) with
      ⟨he, hall⟩ | ⟨l₁, i, l₂, rfl, hm, he⟩
    · exact Or.inl ⟨he, habsent hall⟩
    · have hi := hlive i (by simp)
      rw [List.nil_append] at he
      exact Or.inr ⟨_, i, wf.linked.relinked_unlink g hc hmem, hi,
        (wf.linked.matches_iff hi hlen).mp hm, (wf.linked.unlink g hc hmem).1, he⟩

/-- `ef_hashtable_remove_key`: the key is gone, its value has been destroyed. -/
theorem Wf.remove_spec (wf : ht.Wf) {key : Bytes} {len : Nat} (hlen : len ≤ key.length)
    (w : World V) :
    ∃ ht' w', efHashtableRemoveKey ht key len w = some (ht', w') ∧ ht'.Wf ∧
      ht'.valDtor = ht.valDtor ∧ (∀ k v, ht'.Maps k v ↔ k ≠ key.take len ∧ ht.Maps k v) ∧
      (∀ v, ht.Maps (key.take len) v → w' = w.destroy ht.valDtor v) ∧
      ((∀ v, ¬ ht.Maps (key.take len) v) → w' = w) := by
  rcases wf.removeKey_cases hlen w with ⟨he, habsent⟩ | ⟨ht₁, i, r, hi, hik, hchain, he⟩
  · have hno : ∀ v, ¬ ht.Maps (key.take len) v := fun v ⟨i, hi, hik, _⟩ => habsent i hi hik
    refine ⟨ht, w, he, wf, rfl, ?_, fun v hv => absurd hv (hno v), fun _ => rfl⟩
    intro k v
    refine ⟨fun hkv => ⟨?_, hkv⟩, fun h => h.2⟩
    rintro rfl
    exact hno v hkv
  · obtain ⟨hwf, hdtor, hw, hmaps⟩ := wf.freeBucket r hi hchain w
    generalize efHashtableFreeBucket ht₁ i w = st at he hwf hdtor hw hmaps
    obtain ⟨ht', w'⟩ := st
    refine ⟨ht', w', he, hwf, hdtor, ?_, ?_, ?_⟩
    · intro k v
      rw [hmaps, hik]
      simp [eq_comm]
    · intro v hv
      rw [wf.linked.maps_unique hv ⟨i, hi, hik, rfl⟩]
      exact hw
    · intro hno
      exact absurd ⟨i, hi, hik, rfl⟩ (hno _)

theorem Wf.remove_bucket (wf : ht.Wf) {key : Bytes} {len : Nat} (hlen : len ≤ key.length)
    {i : Nat} (hi : (ht.bucket i).Live) (hik : (ht.bucket i).key = some ⟨key.take len⟩)
    {w w' : World V} {ht' : Hashtable V} (he : efHashtableRemoveKey ht key len w = some (ht', w')) :
    ht'.used = ht.used - 1 ∧ (ht'.bucket i).key = none := by
  rcases wf.removeKey_cases hlen w with ⟨_, habsent⟩ | ⟨ht₁, j, r, hj, hjk, _, he'⟩
  · exact absurd hik (habsent i hi)
  · obtain rfl := wf.linked.key_inj i j hi hj (hik.trans hjk.symm)
    have f := (r.freeBucket hi w).1
    rw [← Option.some.inj (he.symm.trans he')] at f
    exact ⟨f.used, f.key⟩

end Hashtable

end EFramework
