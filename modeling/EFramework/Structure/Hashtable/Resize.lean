import EFramework.Structure.Hashtable.Update

/-! # Creating and rehashing tables

The copy loop of `ef_hashtable_resize` fills the new buckets from the front, one
for each live bucket of the old array. Its invariant says exactly that: the live
buckets of the new table are those below `newptr`, and they hold the keys and
values of the live old buckets seen so far.
-/

namespace EFramework

open Lib

variable {V : Type}

theorem smear32_eq {n : Nat} (hn : n < 2 ^ 32) : smear32 n = 2 ^ n.size - 1 :=
  ((((((Window.one n).step).step).step).step).step).full hn

/-- Up to `2 ^ 31` the rounded capacity is the least power of two that is at least
8 and not below the request. -/
theorem hashRecap_spec {cap : Nat} (hcap : cap ≤ 2 ^ 31) :
    ∃ k, 3 ≤ k ∧ k ≤ 31 ∧ hashRecap cap = 2 ^ k ∧ cap ≤ 2 ^ k := by
  unfold hashRecap hashTableInitCap
  by_cases h8 : cap ≤ 8
  · exact ⟨3, by omega, by omega, by simp [h8], by omega⟩
  · have hlt : cap - 1 < 2 ^ 31 := by omega
    have hsize : (cap - 1).size ≤ 31 := Nat.size_le.mpr hlt
    have hlow : 3 ≤ (cap - 1).size := by
      have : 2 < (cap - 1).size := Nat.lt_size.mpr (by omega)
      omega
    have hpow : 2 ^ (cap - 1).size ≤ 2 ^ 31 := Nat.pow_le_pow_right (by decide) hsize
    have hone := Nat.two_pow_pos (cap - 1).size
    refine ⟨(cap - 1).size, hlow, hsize, ?_, ?_⟩
    · rw [if_neg h8, smear32_eq (by omega), Nat.sub_add_cancel hone, Nat.mod_eq_of_lt (by omega)]
    · have := (size_pow_bounds (cap - 1)).1
      omega

theorem hashRecap_pow {k : Nat} (hlo : 3 ≤ k) (hhi : k ≤ 31) : hashRecap (2 ^ k) = 2 ^ k := by
  have h8 : 2 ^ 3 ≤ 2 ^ k := Nat.pow_le_pow_right (by decide) hlo
  have hpow : 2 ^ k ≤ 2 ^ 31 := Nat.pow_le_pow_right (by decide) hhi
  unfold hashRecap hashTableInitCap
  by_cases he : 2 ^ k ≤ 8
  · rw [if_pos he]
    omega
  · have hmin := (size_pow_bounds (2 ^ k - 1)).2 k (by omega)
    have hmax := (size_pow_bounds (2 ^ k - 1)).1
    have heq : 2 ^ Nat.size (2 ^ k - 1) = 2 ^ k := by omega
    rw [if_neg he, smear32_eq (by omega), heq]
    omega

namespace Hashtable

variable {ht : Hashtable V}

/-! ## Empty tables -/

def Blank (ht : Hashtable V) : Prop :=
  ht.slots = List.replicate ht.cap nil32 ∧
    ht.arrData = List.replicate ht.cap (Bucket.zero V)

theorem Blank.bucket (hb : ht.Blank) (i : Nat) : ht.bucket i = Bucket.zero V := by
  simp only [Hashtable.bucket, hb.2, List.getD_eq_getElem?_getD, List.getElem?_replicate]
  split <;> rfl

theorem Blank.not_live (hb : ht.Blank) (i : Nat) : ¬ (ht.bucket i).Live := by
  rw [hb.bucket]
  exact zero_not_live

theorem Blank.geometry (hb : ht.Blank) (hpow : ∃ k, 3 ≤ k ∧ k ≤ 31 ∧ ht.cap = 2 ^ k)
    (hmask : ht.sizemask = hashSizemask ht.cap) : ht.Geometry :=
  ⟨hpow, hmask, by simp [hb.1], by simp [hb.2]⟩

theorem Blank.chained (hb : ht.Blank) : ht.Chained := by
  intro s hs
  refine ⟨[], ?_, fun i => by simp [hb.not_live i]⟩
  simp [slotHead, hb.1, List.getD_eq_getElem?_getD, hs]

theorem Blank.linked (hb : ht.Blank) : ht.Linked :=
  ⟨hb.chained, fun i hi => absurd hi (hb.not_live i), fun i _ hi => absurd hi (hb.not_live i)⟩

theorem new_spec {cap : Nat} (hcap : cap ≤ 2 ^ 31) (valDtor : Bool) (m : Heap) {m' : Heap}
    (hnew : efHashtableNew V cap valDtor m = (some ht, m')) :
    ht.Wf ∧ ht.valDtor = valDtor ∧ ht.used = 0 ∧ ∀ k v, ¬ ht.Maps k v := by
  obtain ⟨k, hlo, hhi, hk, _⟩ := hashRecap_spec hcap
  simp only [efHashtableNew, allocHashData] at hnew
  split at hnew
  next => simp at hnew
  next slots bks m₁ halloc =>
    split at halloc
    next =>
      simp only [Prod.mk.injEq, Option.some.injEq] at halloc
      obtain ⟨⟨rfl, rfl⟩, rfl⟩ := halloc
      split at hnew
      next =>
        simp only [Prod.mk.injEq, Option.some.injEq] at hnew
        obtain ⟨rfl, _⟩ := hnew
        set ht : Hashtable V := ⟨hashRecap cap, hashSizemask (hashRecap cap), 0, 0, nil32, valDtor,
          List.replicate (hashRecap cap) nil32, List.replicate (hashRecap cap) (Bucket.zero V)⟩
        have hb : ht.Blank := ⟨rfl, rfl⟩
        refine ⟨⟨hb.geometry ⟨k, hlo, hhi, hk⟩ rfl, hb.linked, ?_, Nat.zero_le _,
          fun i _ => hb.not_live i⟩, rfl, rfl, ?_⟩
        · exact ⟨[], rfl, fun i => by simp [ht], rfl⟩
        · rintro k v ⟨i, hi, _⟩
          exact hb.not_live i hi
      next => simp at hnew
    next => simp at halloc

def smallest (V : Type) (valDtor : Bool) : Hashtable V :=
  ⟨8, hashSizemask 8, 0, 0, nil32, valDtor, List.replicate 8 nil32,
    List.replicate 8 (Bucket.zero V)⟩

theorem new_smallest (V : Type) (valDtor : Bool) :
    efHashtableNew V 8 valDtor ⟨[], 0, 0⟩ = (some (smallest V valDtor), ⟨[], 2, 0⟩) := rfl

theorem smallest_wf (V : Type) (valDtor : Bool) : (smallest V valDtor).Wf :=
  (new_spec (by decide) valDtor ⟨[], 0, 0⟩ (new_smallest V valDtor)).1

/-! ## The copy loop -/

def liveBelow (ht : Hashtable V) (n : Nat) : Finset Nat :=
  (Finset.range n).filter (fun i => (ht.bucket i).Live)

theorem liveBelow_succ (ht : Hashtable V) (n : Nat) :
    (ht.liveBelow (n + 1)).card =
      (ht.liveBelow n).card + if (ht.bucket n).Live then 1 else 0 := by
  unfold liveBelow
  rw [Finset.range_add_one, Finset.filter_insert]
  split
  · rw [Finset.card_insert_of_notMem (by simp)]
  · rfl

theorem Threaded.liveBelow_card_le (th : ht.Threaded) (n : Nat) :
    (ht.liveBelow n).card ≤ ht.used := by
  rw [th.used_eq]
  apply Finset.card_le_card
  intro i hi
  exact th.mem_liveSet.mpr (Finset.mem_filter.mp hi).2

def Holds (ht : Hashtable V) (h : UInt64) (key : Option EfString) (val : Option V) : Prop :=
  ∃ i, (ht.bucket i).Live ∧ (ht.bucket i).h = h ∧ (ht.bucket i).key = key ∧ (ht.bucket i).val = val

theorem maps_iff_holds {k : Bytes} {v : Option V} :
    ht.Maps k v ↔ ∃ h, ht.Holds h (some ⟨k⟩) v := by
  constructor
  · rintro ⟨i, hi, hk, hv⟩
    exact ⟨_, i, hi, rfl, hk, hv⟩
  · rintro ⟨_, i, hi, -, hk, hv⟩
    exact ⟨i, hi, hk, hv⟩

/-- State of the copy loop after the first `n` old buckets of `ht`. -/
structure Copied (ht fresh : Hashtable V) (n : Nat) (st : Hashtable V × Nat) : Prop where
  cap : st.1.cap = fresh.cap
  used : st.1.used = fresh.used
  next : st.1.next = fresh.next
  removed : st.1.removed = fresh.removed
  valDtor : st.1.valDtor = fresh.valDtor
  geometry : st.1.Geometry
  chain : st.1.Chained
  count : st.2 = (ht.liveBelow n).card
  live_iff : ∀ i, (st.1.bucket i).Live ↔ i < st.2
  holds_iff : ∀ h k v, st.1.Holds h k v ↔ ∃ i < n, (ht.bucket i).Live ∧ (ht.bucket i).h = h ∧
    (ht.bucket i).key = k ∧ (ht.bucket i).val = v

namespace Copied

variable {fresh : Hashtable V} {n : Nat} {st : Hashtable V × Nat}

theorem holds_succ (inv : Copied ht fresh n st) (h : UInt64) (k : Option EfString)
    (v : Option V) :
    (∃ i < n + 1, (ht.bucket i).Live ∧ (ht.bucket i).h = h ∧ (ht.bucket i).key = k ∧
        (ht.bucket i).val = v) ↔
      ((ht.bucket n).Live ∧ (ht.bucket n).h = h ∧ (ht.bucket n).key = k ∧
        (ht.bucket n).val = v) ∨ st.1.Holds h k v := by
  rw [inv.holds_iff]
  constructor
  · rintro ⟨i, hi, hb⟩
    by_cases hin : i = n
    · exact Or.inl (hin ▸ hb)
    · exact Or.inr ⟨i, by omega, hb⟩
  · rintro (hb | ⟨i, hi, hb⟩)
    · exact ⟨n, by omega, hb⟩
    · exact ⟨i, by omega, hb⟩

theorem lt_cap (inv : Copied ht fresh n st) (th : ht.Threaded) (hroom : ht.used ≤ fresh.cap)
    (hlive : (ht.bucket n).Live) : st.2 < st.1.cap := by
  have hcount := inv.count
  have hsucc := ht.liveBelow_succ n
  rw [if_pos hlive] at hsucc
  have hcard := th.liveBelow_card_le (n + 1)
  rw [inv.cap]
  omega

theorem live (inv : Copied ht fresh n st) (th : ht.Threaded) (hroom : ht.used ≤ fresh.cap)
    (hlive : (ht.bucket n).Live) {s : EfString} (hs : (ht.bucket n).key = some s) :
    Copied ht fresh (n + 1) (rehashBucket st (ht.bucket n)) := by
  have hcap := inv.lt_cap th hroom hlive
  obtain ⟨t, newptr⟩ := st
  have hcount := inv.count
  have hsucc := ht.liveBelow_succ n
  rw [if_pos hlive] at hsucc
  have hdead : ¬ (t.bucket newptr).Live := by simp [inv.live_iff]
  have hb := inv.geometry.bucket_linkBucket hcap (ht.bucket n).h (some s) (ht.bucket n).val
  unfold rehashBucket
  rw [if_pos hlive, hs]
  refine ⟨inv.cap, inv.used, inv.next, inv.removed, inv.valDtor, inv.geometry.linkBucket _ _,
    inv.chain.linkBucket inv.geometry hcap hdead _, by omega, ?_, ?_⟩
  · intro i
    dsimp only at hb ⊢
    rw [hb]
    by_cases hi : i = newptr
    · simp [hi, Bucket.Live]
    · have hlive_iff := inv.live_iff i
      dsimp only at hlive_iff
      rw [if_neg hi, hlive_iff]
      omega
  · intro h k v
    rw [inv.holds_succ]
    constructor
    · rintro ⟨i, hi, hh, hk, hv⟩
      dsimp only at hb hi hh hk hv
      rw [hb] at hi hh hk hv
      by_cases hin : i = newptr
      · rw [if_pos hin] at hh hk hv
        exact Or.inl ⟨hlive, hh, hs.trans hk, hv⟩
      · rw [if_neg hin] at hi hh hk hv
        exact Or.inr ⟨i, hi, hh, hk, hv⟩
    · rintro (⟨-, hh, hk, hv⟩ | ⟨i, hi, hh, hk, hv⟩)
      · refine ⟨newptr, ?_, ?_, ?_, ?_⟩ <;> dsimp only at hb ⊢ <;> rw [hb, if_pos rfl]
        · simp [Bucket.Live]
        · exact hh
        · exact hs.symm.trans hk
        · exact hv
      · have hne : i ≠ newptr := fun he => hdead (he ▸ hi)
        refine ⟨i, ?_, ?_, ?_, ?_⟩ <;> dsimp only at hb ⊢ <;> rw [hb, if_neg hne] <;> assumption

theorem dead (inv : Copied ht fresh n st) (hdead : ¬ (ht.bucket n).Live) :
    Copied ht fresh (n + 1) (rehashBucket st (ht.bucket n)) := by
  unfold rehashBucket
  rw [if_neg hdead]
  refine ⟨inv.cap, inv.used, inv.next, inv.removed, inv.valDtor, inv.geometry, inv.chain,
    ?_, inv.live_iff, ?_⟩
  · rw [ht.liveBelow_succ, if_neg hdead]
    exact inv.count
  · intro h k v
    rw [inv.holds_succ]
    simp [hdead]

end Copied

theorem Threaded.copy (th : ht.Threaded) {fresh : Hashtable V} (hb : fresh.Blank)
    (hg : fresh.Geometry) (hroom : ht.used ≤ fresh.cap) (n : Nat) (hn : n ≤ ht.arrData.length) :
    Copied ht fresh n ((ht.arrData.take n).foldl rehashBucket (fresh, 0)) := by
  induction n with
  | zero =>
      refine ⟨rfl, rfl, rfl, rfl, rfl, hg, hb.chained, by simp [liveBelow], ?_, ?_⟩
      · intro i
        simpa using hb.not_live i
      · intro h k v
        constructor
        · rintro ⟨i, hi, _⟩
          exact absurd hi (hb.not_live i)
        · rintro ⟨i, hi, _⟩
          omega
  | succ n ih =>
      have hlt : n < ht.arrData.length := by omega
      have hbucket : ht.arrData[n] = ht.bucket n := by
        simp [bucket, List.getD_eq_getElem?_getD, hlt]
      rw [List.take_succ_eq_append_getElem hlt, List.foldl_append, List.foldl_cons, List.foldl_nil,
        hbucket]
      by_cases hlive : (ht.bucket n).Live
      · obtain ⟨s, hs⟩ := Option.ne_none_iff_exists'.mp (th.key_ne_none n hlive)
        exact (ih (by omega)).live th hroom hlive hs
      · exact (ih (by omega)).dead hlive

theorem Copied.holds {fresh : Hashtable V} {st : Hashtable V × Nat}
    (inv : Copied ht fresh ht.cap st) (g : ht.Geometry) (h : UInt64) (k : Option EfString)
    (v : Option V) : st.1.Holds h k v ↔ ht.Holds h k v := by
  rw [inv.holds_iff]
  constructor
  · rintro ⟨i, _, hb⟩
    exact ⟨i, hb⟩
  · rintro ⟨i, hi, hb⟩
    exact ⟨i, g.data_length ▸ lt_of_live hi, hi, hb⟩

theorem Copied.linked_live {fresh : Hashtable V} {n : Nat} {st : Hashtable V × Nat}
    (inv : Copied ht fresh n st) (hl : st.1.Linked) (wf : ht.Wf) (hroom : ht.used ≤ fresh.cap)
    (hlive : (ht.bucket n).Live) : (rehashBucket st (ht.bucket n)).1.Linked := by
  have hcap := inv.lt_cap wf.threaded hroom hlive
  have hdead : ¬ (st.1.bucket st.2).Live := by simp [inv.live_iff]
  obtain ⟨s, hs, hh, hbound⟩ := wf.linked.live_key n hlive
  have hnew : ∀ v, ¬ st.1.Maps s.str v := by
    intro v hv
    obtain ⟨h, hv⟩ := maps_iff_holds.mp hv
    obtain ⟨i, hi, hil, -, hik, -⟩ := (inv.holds_iff _ _ _).mp hv
    have := wf.linked.key_inj i n hil hlive (hik.trans hs.symm)
    omega
  unfold rehashBucket
  rw [if_pos hlive, hs, hh]
  exact hl.linkBucket inv.geometry hcap hdead hnew hbound _

theorem Wf.rehash_linked (wf : ht.Wf) {fresh : Hashtable V} (hb : fresh.Blank)
    (hg : fresh.Geometry) (hroom : ht.used ≤ fresh.cap) (n : Nat) (hn : n ≤ ht.arrData.length) :
    ((ht.arrData.take n).foldl rehashBucket (fresh, 0)).1.Linked := by
  induction n with
  | zero => exact hb.linked
  | succ n ih =>
      have hlt : n < ht.arrData.length := by omega
      have hbucket : ht.arrData[n] = ht.bucket n := by
        simp [bucket, List.getD_eq_getElem?_getD, hlt]
      have inv := wf.threaded.copy hb hg hroom n (by omega)
      rw [List.take_succ_eq_append_getElem hlt, List.foldl_append, List.foldl_cons, List.foldl_nil,
        hbucket]
      by_cases hlive : (ht.bucket n).Live
      · exact inv.linked_live (ih (by omega)) wf hroom hlive
      · unfold rehashBucket
        rw [if_neg hlive]
        exact ih (by omega)

/-! ## `ef_hashtable_resize` -/

/-- A resize that returns 0, whatever the keys are. -/
structure Grown (ht ht' : Hashtable V) (cap : Nat) : Prop where
  threaded : ht'.Threaded
  cap : ht'.cap = hashRecap cap
  used : ht'.used = ht.used
  next : ht'.next = ht.used
  valDtor : ht'.valDtor = ht.valDtor
  holds_iff : ∀ h k v, ht'.Holds h k v ↔ ht.Holds h k v
  linked : ht.Wf → ht'.Linked

/-- `ef_hashtable_resize` refuses and leaves the table alone, or rehashes it. The
refusal has only two causes. -/
theorem Threaded.resize_spec (th : ht.Threaded) {cap : Nat} (hcap : cap ≤ 2 ^ 31) (m : Heap) :
    ∃ ret ht' m', efHashtableResize ht cap m = (ret, ht', m') ∧
      ((ret = -1 ∧ ht' = ht) ∨ (ret = 0 ∧ Grown ht ht' cap)) ∧
      m.failures ≤ m'.failures ∧
      (m'.failures = m.failures → ht.used ≤ hashRecap cap → ret = 0) := by
  obtain ⟨k, hlo, hhi, hk, _⟩ := hashRecap_spec hcap
  unfold efHashtableResize
  by_cases hsmall : hashRecap cap < ht.used
  · exact ⟨-1, ht, m, by simp [hsmall], Or.inl ⟨rfl, rfl⟩, Nat.le_refl _, fun _ h => by omega⟩
  · simp only [hsmall, if_false, allocHashData]
    cases hok : m.malloc.1 with
    | false =>
        refine ⟨-1, ht, m.malloc.2, by simp, Or.inl ⟨rfl, rfl⟩, m.failures_le_request true,
          fun hm => ?_⟩
        rw [Heap.malloc, Heap.request_ok hm] at hok
        exact absurd hok (by decide)
    | true =>
        simp only [if_true]
        set fresh : Hashtable V :=
          { ht with
            cap := hashRecap cap, sizemask := hashSizemask (hashRecap cap), next := ht.used
            removed := nil32, slots := List.replicate (hashRecap cap) nil32
            arrData := List.replicate (hashRecap cap) (Bucket.zero V) } with hfresh
        have hb : fresh.Blank := ⟨rfl, rfl⟩
        have hg : fresh.Geometry := hb.geometry ⟨k, hlo, hhi, hk⟩ rfl
        have hroom : ht.used ≤ fresh.cap := show ht.used ≤ hashRecap cap by omega
        have hlen := Nat.le_of_eq th.geometry.data_length.symm
        have inv := th.copy hb hg hroom ht.cap hlen
        have hlinked := fun wf : ht.Wf => wf.rehash_linked hb hg hroom ht.cap hlen
        generalize (ht.arrData.take ht.cap).foldl rehashBucket (fresh, 0) = st at inv hlinked
        have hcount : st.2 = ht.used := by
          rw [inv.count, th.used_eq]
          congr 1
          ext i
          simp only [liveBelow, Finset.mem_filter, Finset.mem_range, th.mem_liveSet]
          exact ⟨fun h => h.2, fun h => ⟨th.geometry.data_length ▸ lt_of_live h, h⟩⟩
        refine ⟨0, st.1, m.malloc.2, rfl, Or.inr ⟨rfl, ?_⟩, m.failures_le_request true,
          fun _ _ => rfl⟩
        have hnext : st.1.next = ht.used := inv.next
        have hused : st.1.used = ht.used := inv.used
        refine ⟨⟨inv.geometry, inv.chain, ?_, ⟨[], inv.removed, ?_, ?_⟩, ?_, ?_⟩, inv.cap, hused,
          hnext, inv.valDtor, inv.holds th.geometry, hlinked⟩
        · intro i hi
          obtain ⟨j, _, hj, _, hk, _⟩ := (inv.holds_iff _ _ _).mp ⟨i, hi, rfl, rfl, rfl⟩
          rw [← hk]
          exact th.key_ne_none j hj
        · intro i
          simp [inv.live_iff, hnext, hcount]
        · simp [hnext, hused]
        · rw [hnext, inv.cap]
          exact Nat.le_of_not_lt hsmall
        · intro i hi
          rw [inv.live_iff]
          omega

structure Resized (ht ht' : Hashtable V) (cap : Nat) : Prop where
  wf : ht'.Wf
  cap : ht'.cap = hashRecap cap
  used : ht'.used = ht.used
  next : ht'.next = ht.used
  valDtor : ht'.valDtor = ht.valDtor
  maps_iff : ∀ k v, ht'.Maps k v ↔ ht.Maps k v

theorem Grown.resized {ht' : Hashtable V} {cap : Nat} (g : Grown ht ht' cap) (wf : ht.Wf) :
    Resized ht ht' cap where
  wf := ⟨g.threaded.geometry, g.linked wf, g.threaded.removed_chain, g.threaded.next_le,
    g.threaded.fresh⟩
  cap := g.cap
  used := g.used
  next := g.next
  valDtor := g.valDtor
  maps_iff k v := by simp only [maps_iff_holds, g.holds_iff]

theorem Wf.resize_spec (wf : ht.Wf) {cap : Nat} (hcap : cap ≤ 2 ^ 31) (m : Heap) :
    ∃ ret ht' m', efHashtableResize ht cap m = (ret, ht', m') ∧
      ((ret = -1 ∧ ht' = ht) ∨ (ret = 0 ∧ Resized ht ht' cap)) ∧
      m.failures ≤ m'.failures ∧
      (m'.failures = m.failures → ht.used ≤ hashRecap cap → ret = 0) := by
  obtain ⟨ret, ht', m', he, hcases, hle, hok⟩ :=
    wf.threaded.resize_spec hcap m
  exact ⟨ret, ht', m', he, hcases.imp id (fun ⟨h, g⟩ => ⟨h, g.resized wf⟩), hle, hok⟩

end Hashtable

end EFramework
