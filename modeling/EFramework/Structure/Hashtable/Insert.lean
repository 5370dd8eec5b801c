import EFramework.Structure.Hashtable.Resize

/-! # Allocating and filling a bucket

Between label `alloc_bucket` and the end of `ef_hashtable_set_key_value` one
bucket belongs to neither account: it is below `next`, not live, and on no
chain. `Reserved` is the invariant of that stretch.
-/

namespace EFramework

open Lib

variable {V : Type}

namespace Hashtable

variable {ht ht' : Hashtable V} {pb : Nat}

/-- The dead bucket `pb` has been set aside. -/
structure Spare (ht : Hashtable V) (pb : Nat) : Prop where
  geometry : ht.Geometry
  chain : ht.Chained
  key_ne_none : ∀ i, (ht.bucket i).Live → (ht.bucket i).key ≠ none
  removed_chain : ∃ l, Chain nil32 ht.nextOf ht.removed l ∧
    (∀ i, i ∈ l ↔ (i < ht.next ∧ ¬ (ht.bucket i).Live) ∧ i ≠ pb) ∧
      ht.used + l.length + 1 = ht.next
  next_le : ht.next ≤ ht.cap
  fresh : ∀ i, ht.next ≤ i → ¬ (ht.bucket i).Live
  pb_lt : pb < ht.next
  pb_dead : ¬ (ht.bucket pb).Live

/-- `&ht->arrData[ht->next++]`. -/
theorem Threaded.spare_next (th : ht.Threaded) (hroom : ht.next < ht.cap) :
    Spare { ht with next := ht.next + 1 } ht.next := by
  obtain ⟨l, hc, hm, hlen⟩ := th.removed_chain
  have hdead := th.fresh ht.next (Nat.le_refl _)
  refine ⟨⟨th.geometry.pow, th.geometry.mask, th.geometry.slots_length, th.geometry.data_length⟩,
    th.chain, th.key_ne_none, ⟨l, hc, ?_, ?_⟩, hroom, ?_, Nat.lt_succ_self _, hdead⟩
  · intro i
    rw [hm]
    change _ ↔ (i < ht.next + 1 ∧ ¬ (ht.bucket i).Live) ∧ i ≠ ht.next
    constructor
    · rintro ⟨hi, hd⟩
      exact ⟨⟨by omega, hd⟩, by omega⟩
    · rintro ⟨⟨hi, hd⟩, hne⟩
      exact ⟨by omega, hd⟩
  · change ht.used + l.length + 1 = ht.next + 1
    omega
  · intro i hi
    change ht.next + 1 ≤ i at hi
    exact th.fresh i (by omega)

/-- `&ht->arrData[ht->removed]`. -/
theorem Threaded.spare_removed (th : ht.Threaded) (hne : ht.removed ≠ nil32) :
    Spare { ht with removed := (ht.bucket ht.removed).next } ht.removed := by
  obtain ⟨l, hc, hm, hlen⟩ := th.removed_chain
  obtain ⟨t, rfl, hct⟩ := hc.exists_cons_of_head hne
  have hhead := (hm ht.removed).mp (by simp)
  refine ⟨⟨th.geometry.pow, th.geometry.mask, th.geometry.slots_length, th.geometry.data_length⟩,
    th.chain, th.key_ne_none, ⟨t, hct, ?_, ?_⟩, th.next_le, th.fresh, hhead.1, hhead.2⟩
  · intro i
    have hnd := (List.nodup_cons.mp hc.nodup).1
    have hmi := hm i
    change i ∈ t ↔ (i < ht.next ∧ ¬ (ht.bucket i).Live) ∧ i ≠ ht.removed
    rw [← hmi, List.mem_cons]
    constructor
    · exact fun hi => ⟨Or.inr hi, fun he => hnd (he ▸ hi)⟩
    · rintro ⟨he | hi, hni⟩
      · exact absurd he hni
      · exact hi
  · change ht.used + t.length + 1 = ht.next
    rw [← hlen, List.length_cons]
    omega

/-- `ht'` is `ht`, possibly grown, with the dead bucket `pb` set aside. -/
structure Reserved (ht ht' : Hashtable V) (pb : Nat) : Prop where
  spare : Spare ht' pb
  linked : ht'.Linked
  valDtor : ht'.valDtor = ht.valDtor
  used : ht'.used = ht.used
  maps_iff : ∀ k v, ht'.Maps k v ↔ ht.Maps k v

/-- The same, whatever the keys are. -/
structure SetAside (ht ht' : Hashtable V) (pb : Nat) : Prop where
  spare : Spare ht' pb
  valDtor : ht'.valDtor = ht.valDtor
  used : ht'.used = ht.used
  holds_iff : ∀ h k v, ht'.Holds h k v ↔ ht.Holds h k v
  linked : ht.Wf → ht'.Linked

theorem SetAside.reserved (sa : SetAside ht ht' pb) (wf : ht.Wf) : Reserved ht ht' pb :=
  ⟨sa.spare, sa.linked wf, sa.valDtor, sa.used, fun k v => by
    simp only [maps_iff_holds, sa.holds_iff]⟩

theorem Threaded.setAside_next (th : ht.Threaded) (hroom : ht.next < ht.cap) :
    SetAside ht { ht with next := ht.next + 1 } ht.next :=
  ⟨th.spare_next hroom, rfl, rfl, fun _ _ _ => Iff.rfl,
    fun wf => ⟨wf.linked.chain, wf.linked.live_key, wf.linked.key_inj⟩⟩

theorem Threaded.setAside_removed (th : ht.Threaded) (hne : ht.removed ≠ nil32) :
    SetAside ht { ht with removed := (ht.bucket ht.removed).next } ht.removed :=
  ⟨th.spare_removed hne, rfl, rfl, fun _ _ _ => Iff.rfl,
    fun wf => ⟨wf.linked.chain, wf.linked.live_key, wf.linked.key_inj⟩⟩

/-- A table with no bucket to hand out is completely full, and doubling it is
refused only when the capacity has reached `2 ^ 31` or no block can be had. -/
theorem Threaded.grow_spec (th : ht.Threaded) (hfull : ¬ ht.next < ht.cap)
    (hnone : ht.removed = nil32) (m : Heap) :
    ∃ ret ht₁ m₁, efHashtableResize ht (ht.cap <<< 1 % 2 ^ 32) m = (ret, ht₁, m₁) ∧
      ((ret = -1 ∧ ht₁ = ht) ∨
        (ret = 0 ∧ Grown ht ht₁ (ht.cap <<< 1 % 2 ^ 32) ∧ ht₁.next < ht₁.cap)) ∧
      m.failures ≤ m₁.failures ∧
      (m₁.failures = m.failures → ht.used < 2 ^ 31 → ret = 0) := by
  obtain ⟨l, hc, _, hlen⟩ := th.removed_chain
  rw [hnone] at hc
  obtain rfl := hc.eq_nil_of_head
  have hused : ht.used = ht.cap := by
    have := th.next_le
    simp only [List.length_nil] at hlen
    omega
  obtain ⟨k, hlo, hhi, hk⟩ := th.geometry.pow
  have hshift : ht.cap <<< 1 = 2 ^ (k + 1) := by
    rw [hk, Nat.shiftLeft_eq, Nat.pow_one, ← Nat.pow_succ]
  rw [hshift]
  by_cases hk30 : k ≤ 30
  · have hle : 2 ^ (k + 1) ≤ 2 ^ 31 := Nat.pow_le_pow_right (by decide) (by omega)
    have hrecap : hashRecap (2 ^ (k + 1)) = 2 ^ (k + 1) := hashRecap_pow (by omega) (by omega)
    have hdouble : ht.cap < 2 ^ (k + 1) := by
      rw [hk]
      exact Nat.pow_lt_pow_right (by decide) (by omega)
    rw [Nat.mod_eq_of_lt (by omega)]
    obtain ⟨ret, ht₁, m₁, he, hcases, hle, hok⟩ := th.resize_spec hle m
    refine ⟨ret, ht₁, m₁, he, hcases.imp id (fun ⟨hret, g⟩ => ⟨hret, g, ?_⟩), hle,
      fun hm _ => hok hm (by omega)⟩
    rw [g.next, g.cap]
    omega
  · -- the doubled capacity wraps to zero, which is smaller than the table
    obtain rfl : k = 31 := by omega
    have hrecap : hashRecap (2 ^ (31 + 1) % 2 ^ 32) = 8 := rfl
    refine ⟨-1, ht, m, ?_, Or.inl ⟨rfl, rfl⟩, Nat.le_refl _, fun _ h => by omega⟩
    unfold efHashtableResize
    rw [hrecap, if_pos (by omega)]

/-- The code at `alloc_bucket` comes to an end after at most one jump back. -/
theorem Threaded.allocBucket_spec (th : ht.Threaded) (m : Heap) :
    ∃ r ht₁ m₁, allocBucket 2 ht m = some (r, ht₁, m₁) ∧
      ((r = none ∧ ht₁ = ht) ∨ ∃ pb, r = some pb ∧ SetAside ht ht₁ pb) ∧
      m.failures ≤ m₁.failures ∧
      (m₁.failures = m.failures → ht.used < 2 ^ 31 → r ≠ none) := by
  rw [allocBucket]
  by_cases hroom : ht.next < ht.cap
  · rw [if_pos hroom]
    exact ⟨_, _, _, rfl, Or.inr ⟨_, rfl, th.setAside_next hroom⟩, Nat.le_refl _,
      fun _ _ => by simp⟩
  · rw [if_neg hroom]
    by_cases hrem : ht.removed = nil32
    · rw [if_neg (by simpa using hrem)]
      obtain ⟨ret, ht₁, m₁, he, hcases, hle, hok⟩ := th.grow_spec hroom hrem m
      rw [he]
      rcases hcases with ⟨rfl, rfl⟩ | ⟨rfl, g, hnext⟩
      · refine ⟨none, ht₁, m₁, rfl, Or.inl ⟨rfl, rfl⟩, hle, fun hm hu => ?_⟩
        exact absurd (hok hm hu) (by decide)
      · have sa := g.threaded.setAside_next hnext
        refine ⟨some ht₁.next, { ht₁ with next := ht₁.next + 1 }, m₁,
          by simp [allocBucket, hnext], Or.inr ⟨_, rfl, ?_⟩, hle, fun _ _ => by simp⟩
        exact ⟨sa.spare, sa.valDtor.trans g.valDtor, sa.used.trans g.used,
          fun h k v => (sa.holds_iff h k v).trans (g.holds_iff h k v),
          fun wf => sa.linked (g.resized wf).wf⟩
    · rw [if_pos hrem]
      exact ⟨_, _, _, rfl, Or.inr ⟨_, rfl, th.setAside_removed hrem⟩, Nat.le_refl _,
        fun _ _ => by simp⟩

theorem Wf.allocBucket_spec (wf : ht.Wf) (m : Heap) :
    ∃ r ht₁ m₁, allocBucket 2 ht m = some (r, ht₁, m₁) ∧
      ((r = none ∧ ht₁ = ht) ∨ ∃ pb, r = some pb ∧ Reserved ht ht₁ pb) ∧
      m.failures ≤ m₁.failures ∧
      (m₁.failures = m.failures → ht.used < 2 ^ 31 → r ≠ none) := by
  obtain ⟨r, ht₁, m₁, he, hcases, hrest⟩ := wf.threaded.allocBucket_spec m
  exact ⟨r, ht₁, m₁, he, hcases.imp id (fun ⟨pb, hr, sa⟩ => ⟨pb, hr, sa.reserved wf⟩), hrest⟩

/-! ## Filling the reserved bucket -/

section Spare

/-- The table with `pb` on the `removed` chain. -/
def givenBack (ht : Hashtable V) (pb : Nat) : Hashtable V :=
  { ht.setBucket pb { ht.bucket pb with key := none, next := ht.removed } with removed := pb }

theorem Spare.lt_cap (sp : Spare ht pb) : pb < ht.cap := Nat.lt_of_lt_of_le sp.pb_lt sp.next_le

theorem Spare.bucket_givenBack (sp : Spare ht pb) :
    (ht.givenBack pb).nextOf = Function.update ht.nextOf pb ht.removed ∧
      ∀ i, (ht.givenBack pb).bucket i =
        { ht.bucket i with next := (ht.givenBack pb).nextOf i } := by
  have hlt : pb < ht.arrData.length := by rw [sp.geometry.data_length]; exact sp.lt_cap
  have hkey : (ht.bucket pb).key = none := (not_not.mp sp.pb_dead).2
  have hnext : (ht.givenBack pb).nextOf = Function.update ht.nextOf pb ht.removed :=
    nextOf_setBucket hlt _
  refine ⟨hnext, fun i => ?_⟩
  rw [hnext, Function.update_apply]
  change (ht.setBucket pb _).bucket i = _
  rw [bucket_setBucket hlt]
  by_cases hi : i = pb
  · simp [hi, hkey]
  · simp [hi, nextOf]

theorem Spare.giveBack (sp : Spare ht pb) : (ht.givenBack pb).Threaded := by
  obtain ⟨hnext, hb⟩ := sp.bucket_givenBack
  have hlive : ∀ k, ((ht.givenBack pb).bucket k).Live ↔ (ht.bucket k).Live := by
    intro k
    rw [hb]
    exact Iff.rfl
  refine ⟨?_, ?_, ?_, ?_, sp.next_le, ?_⟩
  · refine ⟨sp.geometry.pow, sp.geometry.mask, sp.geometry.slots_length, ?_⟩
    simpa [givenBack, setBucket] using sp.geometry.data_length
  · intro s hs
    obtain ⟨l, hc, hm⟩ := sp.chain s hs
    refine ⟨l, ?_, ?_⟩
    · rw [hnext]
      exact hc.update_of_not_mem (fun h => sp.pb_dead ((hm pb).mp h).1)
    · intro i
      rw [hb]
      exact hm i
  · intro i hi
    rw [hb]
    exact sp.key_ne_none i ((hlive i).mp hi)
  · obtain ⟨l, hc, hm, hlen⟩ := sp.removed_chain
    have hpl : pb ∉ l := fun h => ((hm pb).mp h).2 rfl
    refine ⟨pb :: l, ?_, ?_, ?_⟩
    · rw [hnext]
      exact hc.push hpl (sp.geometry.index_ne_nil sp.lt_cap)
    · intro i
      rw [List.mem_cons, hm, hlive]
      change _ ↔ i < ht.next ∧ _
      by_cases hi : i = pb
      · simp [hi, sp.pb_lt, sp.pb_dead]
      · simp [hi]
    · change ht.used + (l.length + 1) = ht.next
      omega
  · intro i hi hl
    exact sp.fresh i hi ((hlive i).mp hl)

theorem Spare.holds_givenBack (sp : Spare ht pb) (h : UInt64) (k : Option EfString)
    (v : Option V) : (ht.givenBack pb).Holds h k v ↔ ht.Holds h k v := by
  obtain ⟨-, hb⟩ := sp.bucket_givenBack
  unfold Holds
  simp only [hb]
  exact Iff.rfl

/-- The table with `pb` at the front of a chain. -/
def filled (ht : Hashtable V) (pb : Nat) (h : UInt64) (s : EfString) (val : Option V) :
    Hashtable V :=
  ({ ht with used := ht.used + 1 } : Hashtable V).linkBucket pb h (some s) val

variable {s : EfString} {h : UInt64} {val : Option V}

theorem Spare.bucket_filled (sp : Spare ht pb) (h : UInt64) (s : EfString) (val : Option V)
    (i : Nat) :
    (ht.filled pb h s val).bucket i =
      if i = pb then ⟨h, some s, val, ht.slotHead (ht.slotOf h)⟩ else ht.bucket i := by
  have g₁ : ({ ht with used := ht.used + 1 } : Hashtable V).Geometry :=
    ⟨sp.geometry.pow, sp.geometry.mask, sp.geometry.slots_length, sp.geometry.data_length⟩
  exact g₁.bucket_linkBucket sp.lt_cap h (some s) val i

theorem Spare.live_filled (sp : Spare ht pb) (i : Nat) :
    ((ht.filled pb h s val).bucket i).Live ↔ (ht.bucket i).Live ∨ i = pb := by
  rw [sp.bucket_filled]
  by_cases hi : i = pb
  · simp [hi, Bucket.Live]
  · simp [hi]

theorem Spare.fill (sp : Spare ht pb) (h : UInt64) (s : EfString) (val : Option V) :
    (ht.filled pb h s val).Threaded := by
  have g₁ : ({ ht with used := ht.used + 1 } : Hashtable V).Geometry :=
    ⟨sp.geometry.pow, sp.geometry.mask, sp.geometry.slots_length, sp.geometry.data_length⟩
  have hc₁ : ({ ht with used := ht.used + 1 } : Hashtable V).Chained := sp.chain
  refine ⟨g₁.linkBucket _ _, hc₁.linkBucket g₁ sp.lt_cap sp.pb_dead h, ?_, ?_, sp.next_le, ?_⟩
  · intro i hi
    have hold := (sp.live_filled i).mp hi
    rw [sp.bucket_filled]
    by_cases hip : i = pb
    · simp [hip]
    · rw [if_neg hip]
      exact sp.key_ne_none i (hold.resolve_right hip)
  · obtain ⟨l, hc, hm, hlen⟩ := sp.removed_chain
    refine ⟨l, ?_, ?_, ?_⟩
    · refine hc.congr (fun i hi => ?_)
      have hne := ((hm i).mp hi).2
      rw [nextOf, sp.bucket_filled, if_neg hne]
      rfl
    · intro i
      rw [hm, sp.live_filled]
      change _ ↔ i < ht.next ∧ _
      tauto
    · change ht.used + 1 + l.length = ht.next
      omega
  · intro i hi hl
    change ht.next ≤ i at hi
    rcases (sp.live_filled i).mp hl with hl | hl
    · exact sp.fresh i hi hl
    · have := sp.pb_lt
      omega

theorem Spare.holds_filled (sp : Spare ht pb) (h' : UInt64) (k : Option EfString)
    (v : Option V) : (ht.filled pb h s val).Holds h' k v ↔
      (h' = h ∧ k = some s ∧ v = val) ∨ ht.Holds h' k v := by
  have hb := sp.bucket_filled h s val
  constructor
  · rintro ⟨i, hi, hh, hk, hv⟩
    rw [hb] at hi hh hk hv
    by_cases hip : i = pb
    · rw [if_pos hip] at hh hk hv
      exact Or.inl ⟨hh.symm, hk.symm, hv.symm⟩
    · rw [if_neg hip] at hi hh hk hv
      exact Or.inr ⟨i, hi, hh, hk, hv⟩
  · rintro (⟨rfl, rfl, rfl⟩ | ⟨i, hi, hh, hk, hv⟩)
    · refine ⟨pb, ?_, ?_, ?_, ?_⟩ <;> rw [hb, if_pos rfl]
      simp [Bucket.Live]
    · have hne : i ≠ pb := fun he => sp.pb_dead (he ▸ hi)
      refine ⟨i, ?_, ?_, ?_, ?_⟩ <;> rw [hb, if_neg hne] <;> assumption

end Spare

theorem Reserved.giveBack (r : Reserved ht ht' pb) :
    (ht'.givenBack pb).Wf ∧ ∀ k v, (ht'.givenBack pb).Maps k v ↔ ht.Maps k v := by
  have th := r.spare.giveBack
  obtain ⟨-, hb⟩ := r.spare.bucket_givenBack
  have hlive : ∀ k, ((ht'.givenBack pb).bucket k).Live ↔ (ht'.bucket k).Live := by
    intro k
    rw [hb]
    exact Iff.rfl
  refine ⟨⟨th.geometry, ⟨th.chain, ?_, ?_⟩, th.removed_chain, th.next_le, th.fresh⟩, ?_⟩
  · intro i hi
    rw [hb]
    exact r.linked.live_key i ((hlive i).mp hi)
  · intro i j hi hj
    rw [hb, hb]
    exact r.linked.key_inj i j ((hlive i).mp hi) ((hlive j).mp hj)
  · intro k v
    rw [← r.maps_iff]
    simp only [maps_iff_holds, r.spare.holds_givenBack]

theorem Reserved.fill (r : Reserved ht ht' pb) {s : EfString} (hnew : ∀ v, ¬ ht.Maps s.str v)
    (hs : s.len < 2 ^ 63) (val : Option V) :
    (ht'.filled pb (hashFunc s.str s.len) s val).Wf ∧
      (∀ k v, (ht'.filled pb (hashFunc s.str s.len) s val).Maps k v ↔
        (k = s.str ∧ v = val) ∨ ht.Maps k v) ∧
      ((ht'.filled pb (hashFunc s.str s.len) s val).bucket pb).Live ∧
      ((ht'.filled pb (hashFunc s.str s.len) s val).bucket pb).key = some s ∧
      ((ht'.filled pb (hashFunc s.str s.len) s val).bucket pb).val = val := by
  have th := r.spare.fill (hashFunc s.str s.len) s val
  set ht₁ : Hashtable V := { ht' with used := ht'.used + 1 } with hht₁
  have g₁ : ht₁.Geometry := ⟨r.spare.geometry.pow, r.spare.geometry.mask,
    r.spare.geometry.slots_length, r.spare.geometry.data_length⟩
  have hl₁ : ht₁.Linked := ⟨r.linked.chain, r.linked.live_key, r.linked.key_inj⟩
  have hnew₁ : ∀ v, ¬ ht₁.Maps s.str v := fun v hv => hnew v ((r.maps_iff _ _).mp hv)
  have hl := hl₁.linkBucket g₁ r.spare.lt_cap r.spare.pb_dead hnew₁ hs val
  have hb := r.spare.bucket_filled (hashFunc s.str s.len) s val
  refine ⟨⟨th.geometry, hl, th.removed_chain, th.next_le, th.fresh⟩, ?_, ?_, ?_, ?_⟩
  · intro k v
    rw [← r.maps_iff]
    exact maps_linkBucket g₁ r.spare.lt_cap r.spare.pb_dead k v
  · exact (r.spare.live_filled pb).mpr (Or.inr rfl)
  · rw [hb, if_pos rfl]
  · rw [hb, if_pos rfl]

/-! ## `ef_hashtable_set_key_value` -/

/-- A set that returned bucket `i`. -/
structure Stored (ht ht' : Hashtable V) (k : Bytes) (x : Option V) (i : Nat) : Prop where
  live : (ht'.bucket i).Live
  key : (ht'.bucket i).key = some ⟨k⟩
  val : (ht'.bucket i).val = x
  maps_iff : ∀ k' v, ht'.Maps k' v ↔ (k' = k ∧ v = x) ∨ (k' ≠ k ∧ ht.Maps k' v)

theorem bucket_overwrite {i : Nat} (hi : (ht.bucket i).Live) (val : Option V) (j : Nat) :
    (ht.setBucket i { ht.bucket i with val := val }).bucket j = { ht.bucket j with
      val := if j = i then val else (ht.bucket j).val } := by
  rw [bucket_setBucket (lt_of_live hi)]
  by_cases hj : j = i <;> simp [hj]

theorem Threaded.overwrite (th : ht.Threaded) {i : Nat} (hi : (ht.bucket i).Live)
    (val : Option V) : (ht.setBucket i { ht.bucket i with val := val }).Threaded := by
  have hb := bucket_overwrite hi val
  set ht₁ := ht.setBucket i { ht.bucket i with val := val } with hht₁
  have hlive : ∀ j, (ht₁.bucket j).Live ↔ (ht.bucket j).Live := by
    intro j
    rw [hb]
    exact Iff.rfl
  have hnext : ht₁.nextOf = ht.nextOf := by
    funext j
    rw [nextOf, hb]
    rfl
  refine ⟨?_, ?_, ?_, ?_, th.next_le, ?_⟩
  · refine ⟨th.geometry.pow, th.geometry.mask, th.geometry.slots_length, ?_⟩
    simpa [hht₁, setBucket] using th.geometry.data_length
  · intro s hs
    obtain ⟨l, hc, hm⟩ := th.chain s hs
    refine ⟨l, by rw [hnext]; exact hc, fun j => ?_⟩
    rw [hb]
    exact hm j
  · intro j hj
    rw [hb]
    exact th.key_ne_none j ((hlive j).mp hj)
  · obtain ⟨l, hc, hm, hlen⟩ := th.removed_chain
    refine ⟨l, by rw [hnext]; exact hc, fun j => ?_, hlen⟩
    rw [hm, hlive]
    exact Iff.rfl
  · intro j hj hl
    exact th.fresh j hj ((hlive j).mp hl)

theorem Wf.overwrite (wf : ht.Wf) {i : Nat} (hi : (ht.bucket i).Live) {k : Bytes}
    (hk : (ht.bucket i).key = some ⟨k⟩) (val : Option V) :
    (ht.setBucket i { ht.bucket i with val := val }).Wf ∧
      Stored ht (ht.setBucket i { ht.bucket i with val := val }) k val i := by
  have th := wf.threaded.overwrite hi val
  have hb := bucket_overwrite hi val
  set ht₁ := ht.setBucket i { ht.bucket i with val := val } with hht₁
  have hlive : ∀ j, (ht₁.bucket j).Live ↔ (ht.bucket j).Live := by
    intro j
    rw [hb]
    exact Iff.rfl
  refine ⟨⟨th.geometry, ⟨th.chain, ?_, ?_⟩, th.removed_chain, th.next_le, th.fresh⟩, ?_, ?_, ?_, ?_⟩
  · intro j hj
    rw [hb]
    exact wf.linked.live_key j ((hlive j).mp hj)
  · intro j j' hj hj'
    rw [hb, hb]
    exact wf.linked.key_inj j j' ((hlive j).mp hj) ((hlive j').mp hj')
  · exact (hlive i).mpr hi
  · rw [hb]
    exact hk
  · rw [hb]
    exact if_pos rfl
  · intro k' v
    constructor
    · rintro ⟨j, hj, hjk, hjv⟩
      rw [hb] at hjk hjv
      have hj := (hlive j).mp hj
      by_cases hji : j = i
      · rw [hji, hk, Option.some.injEq, EfString.mk.injEq] at hjk
        exact Or.inl ⟨hjk.symm, by simpa [hji] using hjv.symm⟩
      · refine Or.inr ⟨?_, j, hj, hjk, by simpa [hji] using hjv⟩
        rintro rfl
        exact hji (wf.linked.key_inj j i hj hi (hjk.trans hk.symm))
    · rintro (⟨rfl, rfl⟩ | ⟨hne, j, hj, hjk, hjv⟩)
      · refine ⟨i, (hlive i).mpr hi, ?_, ?_⟩
        · rw [hb]
          exact hk
        · rw [hb]
          exact if_pos rfl
      · have hji : j ≠ i := by
          rintro rfl
          rw [hk, Option.some.injEq, EfString.mk.injEq] at hjk
          exact hne hjk.symm
        refine ⟨j, (hlive j).mpr hj, ?_, ?_⟩
        · rw [hb]
          exact hjk
        · rw [hb]
          simpa [hji] using hjv

theorem Wf.set_bound (wf : ht.Wf) {key : Bytes} {klen i : Nat} (hlen : klen ≤ key.length)
    (hi : (ht.bucket i).Live) (hik : (ht.bucket i).key = some ⟨key.take klen⟩) (val : Option V)
    (w : World V) :
    efHashtableSetKeyValue ht key klen val w =
      some (some i, ht.setBucket i { ht.bucket i with val := val },
        w.destroy ht.valDtor (ht.bucket i).val) := by
  obtain ⟨r, hr, hfound⟩ := wf.linked.find_spec wf.geometry hlen
  obtain rfl := (hfound i).mpr ⟨hi, hik⟩
  unfold efHashtableSetKeyValue
  rw [hr]

theorem Wf.set_unbound (wf : ht.Wf) {key : Bytes} {klen : Nat} (hlen : klen ≤ key.length)
    (hno : ∀ v, ¬ ht.Maps (key.take klen) v) (val : Option V) (w : World V) :
    ∃ r ht₁ m₁, allocBucket 2 ht w.heap = some (r, ht₁, m₁) ∧
      ((r = none ∧ ht₁ = ht ∧ efHashtableSetKeyValue ht key klen val w =
          some (none, ht₁, { w with heap := m₁ })) ∨
        ∃ pb, r = some pb ∧ Reserved ht ht₁ pb ∧ efHashtableSetKeyValue ht key klen val w =
          some ((fillBucket ht₁ pb key klen val m₁).1, (fillBucket ht₁ pb key klen val m₁).2.1,
            { w with heap := (fillBucket ht₁ pb key klen val m₁).2.2 })) ∧
      w.heap.failures ≤ m₁.failures ∧
      (m₁.failures = w.heap.failures → ht.used < 2 ^ 31 → r ≠ none) := by
  obtain ⟨r, hr, hfound⟩ := wf.linked.find_spec wf.geometry hlen
  obtain ⟨pb, ht₁, m₁, ha, hcases, hle, hok⟩ := wf.allocBucket_spec w.heap
  have hnone : r = none := by
    cases r with
    | none => rfl
    | some i =>
        obtain ⟨hi, hik⟩ := (hfound i).mp rfl
        exact absurd ⟨i, hi, hik, rfl⟩ (hno _)
  refine ⟨pb, ht₁, m₁, ha, ?_, hle, hok⟩
  unfold efHashtableSetKeyValue
  rw [hr, hnone]
  dsimp only
  rw [ha]
  rcases hcases with ⟨rfl, rfl⟩ | ⟨i, rfl, hres⟩
  · exact Or.inl ⟨rfl, rfl, rfl⟩
  · exact Or.inr ⟨i, rfl, hres, rfl⟩

theorem Reserved.fill_spec (r : Reserved ht ht' pb) {key : Bytes} {klen : Nat}
    (hstr : stringLen key klen = klen) (habsent : ∀ v, ¬ ht.Maps (key.take klen) v)
    (val : Option V) (m : Heap) :
    ∃ filled ht₁ m₁, fillBucket ht' pb key klen val m = (filled, ht₁, m₁) ∧ ht₁.Wf ∧
      ht₁.valDtor = ht.valDtor ∧
      (filled = none ∧ (∀ k v, ht₁.Maps k v ↔ ht.Maps k v) ∨
        filled = some pb ∧ Stored ht ht₁ (key.take klen) val pb) ∧
      m.failures ≤ m₁.failures ∧ (m₁.failures = m.failures → filled ≠ none) := by
  have hnew := efStringNew_eq_none_or key klen m
  obtain ⟨hle, hok⟩ := efStringNew_failures key klen m
  unfold fillBucket
  rw [hstr] at hnew hok
  generalize efStringNew (some key) klen m = out at hnew hle hok
  obtain ⟨s, m₁⟩ := out
  rcases hnew with rfl | ⟨rfl, hbound⟩
  · obtain ⟨hwf, hmaps⟩ := r.giveBack
    exact ⟨none, _, m₁, rfl, hwf, r.valDtor, Or.inl ⟨rfl, hmaps⟩, hle,
      fun h => absurd (hok h) (by simp)⟩
  · have hh : hashFunc key klen =
        hashFunc (EfString.mk (key.take klen)).str (EfString.mk (key.take klen)).len :=
      (hashFunc_take key klen).symm
    obtain ⟨hwf, hmaps, hlive, hk, hv⟩ := r.fill (s := ⟨key.take klen⟩) habsent
      (Nat.lt_of_le_of_lt (by simp [EfString.len]) (Nat.lt_of_succ_lt hbound)) val
    rw [hh]
    refine ⟨some pb, _, m₁, rfl, hwf, r.valDtor, Or.inr ⟨rfl, hlive, hk, hv, fun k' v => ?_⟩, hle,
      fun _ => by simp⟩
    refine (hmaps k' v).trans ?_
    constructor
    · rintro (h | h)
      · exact Or.inl h
      · refine Or.inr ⟨?_, h⟩
        rintro rfl
        exact habsent v h
    · rintro (h | ⟨_, h⟩)
      · exact Or.inl h
      · exact Or.inr h

/-- `ef_hashtable_set_key_value` returns. It yields NULL only for a key that is not
in the table, and then the map has not changed. A key of length 0 has a NUL at its place. -/
theorem Wf.set_string_spec (wf : ht.Wf) {key : Bytes} {klen : Nat}
    (hstr : stringLen key klen = klen) (hlen : klen ≤ key.length) (val : Option V) (w : World V) :
    ∃ r ht' w', efHashtableSetKeyValue ht key klen val w = some (r, ht', w') ∧ ht'.Wf ∧
      ht'.valDtor = ht.valDtor ∧
      ((r = none ∧ (∀ v, ¬ ht.Maps (key.take klen) v) ∧ (∀ k v, ht'.Maps k v ↔ ht.Maps k v) ∧
          w'.destroyed = w.destroyed) ∨
        ∃ i, r = some i ∧ Stored ht ht' (key.take klen) val i ∧
          (∀ v, ht.Maps (key.take klen) v →
            w'.destroyed = (w.destroy ht.valDtor v).destroyed) ∧
          ((∀ v, ¬ ht.Maps (key.take klen) v) → w'.destroyed = w.destroyed)) ∧
      w.heap.failures ≤ w'.heap.failures ∧
      (w'.heap.failures = w.heap.failures →
        ht.used < 2 ^ 31 ∨ (∃ v, ht.Maps (key.take klen) v) → r ≠ none) := by
  by_cases hbound : ∃ v, ht.Maps (key.take klen) v
  · obtain ⟨_, i, hi, hik, _⟩ := hbound
    obtain ⟨hwf, hst⟩ := wf.overwrite hi hik val
    refine ⟨some i, _, _, wf.set_bound hlen hi hik val w, hwf, rfl, Or.inr ⟨i, rfl, hst, ?_, ?_⟩,
      ?_, fun _ _ => by simp⟩
    · intro v hv
      rw [wf.linked.maps_unique hv ⟨i, hi, hik, rfl⟩]
    · intro hno
      exact absurd ⟨i, hi, hik, rfl⟩ (hno _)
    · rw [World.heap_destroy]
  · have habsent := not_exists.mp hbound
    obtain ⟨r, ht₁, m₁, _, hcases, hle, hok⟩ := wf.set_unbound hlen habsent val w
    rcases hcases with ⟨rfl, rfl, he⟩ | ⟨pb, rfl, hres, he⟩
    · refine ⟨none, ht₁, _, he, wf, rfl, Or.inl ⟨rfl, habsent, fun _ _ => Iff.rfl, rfl⟩, hle, ?_⟩
      rintro hm (hu | hv)
      · exact hok hm hu
      · exact absurd hv hbound
    · obtain ⟨filled, ht₂, m₂, hfill, hwf, hdtor, hout, hle₂, hok₂⟩ :=
        hres.fill_spec hstr habsent val m₁
      rw [hfill] at he
      refine ⟨filled, ht₂, _, he, hwf, hdtor, ?_, Nat.le_trans hle hle₂, ?_⟩
      · rcases hout with ⟨rfl, hmaps⟩ | ⟨rfl, hst⟩
        · exact Or.inl ⟨rfl, habsent, hmaps, rfl⟩
        · exact Or.inr ⟨pb, rfl, hst, fun v hv => absurd hv (habsent v), fun _ => rfl⟩
      · intro hm _
        exact hok₂ (by dsimp only at hm hle₂ ⊢; omega)

theorem Wf.set_spec (wf : ht.Wf) {key : Bytes} {klen : Nat} (hpos : 0 < klen)
    (hlen : klen ≤ key.length) (val : Option V) (w : World V) :
    ∃ r ht' w', efHashtableSetKeyValue ht key klen val w = some (r, ht', w') ∧ ht'.Wf ∧
      ht'.valDtor = ht.valDtor ∧
      ((r = none ∧ (∀ v, ¬ ht.Maps (key.take klen) v) ∧ (∀ k v, ht'.Maps k v ↔ ht.Maps k v) ∧
          w'.destroyed = w.destroyed) ∨
        ∃ i, r = some i ∧ Stored ht ht' (key.take klen) val i ∧
          (∀ v, ht.Maps (key.take klen) v →
            w'.destroyed = (w.destroy ht.valDtor v).destroyed) ∧
          ((∀ v, ¬ ht.Maps (key.take klen) v) → w'.destroyed = w.destroyed)) ∧
      w.heap.failures ≤ w'.heap.failures ∧
      (w'.heap.failures = w.heap.failures →
        ht.used < 2 ^ 31 ∨ (∃ v, ht.Maps (key.take klen) v) → r ≠ none) :=
  wf.set_string_spec (if_neg (by omega)) hlen val w

/-! ## Where the value is put -/

/-- There is a bucket to reserve only below `2 ^ 31`. -/
theorem Reserved.used_lt (r : Reserved ht ht' pb) : ht.used < 2 ^ 31 := by
  obtain ⟨l, _, _, hlen⟩ := r.spare.removed_chain
  have hused := r.used
  have hle := r.spare.next_le
  have hcap := r.spare.geometry.cap_bounds.2
  omega

theorem Reserved.of_fill {i : Nat} (r : Reserved ht ht' pb) {key : Bytes} {klen : Nat}
    {val : Option V} {m : Heap} (hi : (fillBucket ht' pb key klen val m).1 = some i) :
    ((fillBucket ht' pb key klen val m).2.1.bucket i).Live ∧
      ((fillBucket ht' pb key klen val m).2.1.bucket i).key =
        some ⟨key.take (stringLen key klen)⟩ ∧
      ((fillBucket ht' pb key klen val m).2.1.bucket i).val = val := by
  have hstr := efStringNew_eq_none_or key klen m
  unfold fillBucket at hi ⊢
  generalize efStringNew (some key) klen m = out at hi hstr ⊢
  obtain ⟨s, m₂⟩ := out
  rcases hstr with rfl | ⟨rfl, _⟩
  · cases hi
  · cases hi
    have hb := r.spare.bucket_filled (hashFunc key klen) ⟨key.take (stringLen key klen)⟩ val
      pb
    rw [if_pos rfl] at hb
    change ((ht'.filled _ _ _ _).bucket _).Live ∧ ((ht'.filled _ _ _ _).bucket _).key = _ ∧
      ((ht'.filled _ _ _ _).bucket _).val = _
    rw [hb]
    exact ⟨by simp [Bucket.Live], rfl, rfl⟩

theorem Reserved.of_refused (r : Reserved ht ht' pb) {key : Bytes} {klen : Nat} {val : Option V}
    {m : Heap} (hnone : (fillBucket ht' pb key klen val m).1 = none) :
    (fillBucket ht' pb key klen val m).2.1.Wf ∧
      ∀ k v, (fillBucket ht' pb key klen val m).2.1.Maps k v ↔ ht.Maps k v := by
  unfold fillBucket at hnone ⊢
  generalize efStringNew (some key) klen m = out at hnone ⊢
  obtain ⟨_ | s, m₂⟩ := out
  · exact r.giveBack
  · cases hnone

/-- The name a value is put under: the key if it is bound, else the string at the pointer. -/
def putName (ht : Hashtable V) (key : Bytes) (klen : Nat) : Bytes :=
  if efHashtableFindKey ht key klen = some none then key.take (stringLen key klen)
  else key.take klen

/-- A set returns. It is refused and the map has not changed, or the value is there. -/
theorem Wf.set_outcome (wf : ht.Wf) {key : Bytes} {klen : Nat} (hlen : klen ≤ key.length)
    (val : Option V) (w : World V) :
    ∃ r ht' w', efHashtableSetKeyValue ht key klen val w = some (r, ht', w') ∧
      (r = none ∧ ht'.Wf ∧ (∀ k v, ht'.Maps k v ↔ ht.Maps k v) ∨
        ∃ i, r = some i ∧ ht'.Maps (ht.putName key klen) val ∧ (ht'.bucket i).val = val) := by
  obtain ⟨found, hfind, hfound⟩ := wf.linked.find_spec wf.geometry hlen
  cases found with
  | some i =>
      obtain ⟨hi, hik⟩ := (hfound i).mp rfl
      have hst := (wf.overwrite hi hik val).2
      refine ⟨_, _, _, wf.set_bound hlen hi hik val w, Or.inr ⟨i, rfl, ?_, hst.val⟩⟩
      rw [putName, hfind, if_neg (by simp)]
      exact ⟨i, hst.live, hst.key, hst.val⟩
  | none =>
      have hno : ∀ v, ¬ ht.Maps (key.take klen) v := by
        rintro v ⟨i, hi, hik, _⟩
        exact absurd ((hfound i).mpr ⟨hi, hik⟩) (by simp)
      obtain ⟨_, ht₁, m₁, _, hcases, _⟩ := wf.set_unbound hlen hno val w
      rcases hcases with ⟨_, rfl, he⟩ | ⟨pb, _, hres, he⟩
      · exact ⟨_, _, _, he, Or.inl ⟨rfl, wf, fun _ _ => Iff.rfl⟩⟩
      · refine ⟨_, _, _, he, ?_⟩
        cases hr : (fillBucket ht₁ pb key klen val m₁).1 with
        | none => exact Or.inl ⟨rfl, hres.of_refused hr⟩
        | some i =>
            obtain ⟨hlive, hkey, hval⟩ := hres.of_fill hr
            refine Or.inr ⟨i, rfl, ?_, hval⟩
            rw [putName, if_pos hfind]
            exact ⟨i, hlive, hkey, hval⟩

/-! ## Tables that nothing has been removed from -/

theorem new_removed {cap : Nat} {valDtor : Bool} {m m' : Heap}
    (he : efHashtableNew V cap valDtor m = (some ht, m')) : ht.removed = nil32 := by
  unfold efHashtableNew at he
  dsimp only at he
  split at he
  · cases he
  · split at he
    · cases he
      rfl
    · cases he

theorem rehash_removed (pbs : List (Bucket V)) (st : Hashtable V × Nat) :
    (pbs.foldl rehashBucket st).1.removed = st.1.removed := by
  induction pbs generalizing st with
  | nil => rfl
  | cons pb pbs ih =>
      rw [List.foldl_cons, ih]
      unfold rehashBucket
      split <;> rfl

theorem resize_removed {cap : Nat} {m m' : Heap} (h : ht.removed = nil32) {ret : Int}
    (he : efHashtableResize ht cap m = (ret, ht', m')) : ht'.removed = nil32 := by
  unfold efHashtableResize at he
  dsimp only at he
  split at he
  · cases he
    exact h
  · split at he
    · cases he
      exact h
    · cases he
      rw [rehash_removed]

theorem allocBucket_removed {fuel : Nat} {m m' : Heap} {pb : Option Nat}
    (h : ht.removed = nil32) (he : allocBucket fuel ht m = some (pb, ht', m')) :
    ht'.removed = nil32 := by
  induction fuel generalizing ht m with
  | zero => cases he
  | succ fuel ih =>
      rw [allocBucket, if_neg (not_not.mpr h)] at he
      split at he
      · cases he
        exact h
      · generalize hr : efHashtableResize ht (ht.cap <<< 1 % 2 ^ 32) m = r at he
        obtain ⟨ret, ht₁, m₁⟩ := r
        have h₁ := resize_removed h hr
        dsimp only at he
        split at he
        · exact ih h₁ he
        · cases he
          exact h₁

theorem set_removed {key : Bytes} {klen i : Nat} {val : Option V} {w w' : World V}
    (h : ht.removed = nil32)
    (he : efHashtableSetKeyValue ht key klen val w = some (some i, ht', w')) :
    ht'.removed = nil32 := by
  unfold efHashtableSetKeyValue at he
  split at he
  · cases he
  · cases he
    exact h
  · split at he
    · cases he
    · cases he
    next ht₁ m₁ halloc =>
      have h₁ := allocBucket_removed h halloc
      unfold fillBucket at he
      generalize efStringNew (some key) klen m₁ = r at he
      obtain ⟨_ | s, m₂⟩ := r
      · cases he
      · cases he
        exact h₁

/-- Their first bucket is in use, if any is. -/
theorem Wf.first_live (wf : ht.Wf) (h : ht.removed = nil32) (hused : 0 < ht.used) :
    (ht.bucket 0).Live := by
  obtain ⟨l, hc, hm, hlen⟩ := wf.removed_chain
  rw [h] at hc
  obtain rfl := hc.eq_nil_of_head
  by_contra hdead
  rw [List.length_nil] at hlen
  exact absurd ((hm 0).mpr ⟨by omega, hdead⟩) List.not_mem_nil

end Hashtable

/-! ## A willing allocator -/

theorem efHashtableResize_granted (ht : Hashtable V) (cap : Nat) {m : Heap} (h : m.Willing) :
    m.Granted (efHashtableResize ht cap m).2.2 := by
  obtain ⟨hok, h₁⟩ := h.request
  unfold efHashtableResize allocHashData
  dsimp only [Heap.malloc]
  rw [hok, if_pos rfl]
  split
  · exact h.refl
  · exact h₁

theorem allocBucket_granted {fuel : Nat} {ht ht' : Hashtable V} {m m' : Heap} {pb : Option Nat}
    (h : m.Willing) (he : allocBucket fuel ht m = some (pb, ht', m')) : m.Granted m' := by
  induction fuel generalizing ht m with
  | zero => cases he
  | succ fuel ih =>
      rw [allocBucket] at he
      split at he
      · cases he
        exact h.refl
      split at he
      · cases he
        exact h.refl
      have hresize := efHashtableResize_granted ht (ht.cap <<< 1 % 2 ^ 32) h
      generalize efHashtableResize ht (ht.cap <<< 1 % 2 ^ 32) m = r at he hresize
      dsimp only at he
      split at he
      · exact hresize.trans (ih hresize.willing he)
      · cases he
        exact hresize

theorem efHashtableSetKeyValue_granted {ht ht' : Hashtable V} {key : Bytes} {klen : Nat}
    {val : Option V} {w w' : World V} {pb : Option Nat} (h : w.heap.Willing)
    (hlen : stringLen key klen + 1 < 2 ^ 63)
    (he : efHashtableSetKeyValue ht key klen val w = some (pb, ht', w')) :
    w.heap.Granted w'.heap := by
  unfold efHashtableSetKeyValue at he
  split at he
  · cases he
  · cases he
    rw [World.heap_destroy]
    exact h.refl
  · split at he
    · cases he
    next ha =>
      cases he
      exact allocBucket_granted h ha
    next pb' ht₁ m₁ ha =>
      have h₁ := allocBucket_granted h ha
      have h₂ := efStringNew_granted h₁.willing hlen
      unfold fillBucket at he
      generalize efStringNew (some key) klen m₁ = r at he h₂
      obtain ⟨_ | s, m₂⟩ := r <;> cases he <;> exact h₁.trans h₂

end EFramework
