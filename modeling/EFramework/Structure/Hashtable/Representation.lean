import EFramework.Lib.Chain
import EFramework.Structure.Hashtable.Model
import Mathlib.Data.Set.Card

/-! # Representation invariant of the hash table

`Geometry` fixes the capacity and the two array lengths, `Linked` says that the
collision chain of every slot lists exactly the live buckets hashing to it, and
`Wf` adds the account of the buckets handed out so far: below `next` a bucket is
either live or on the `removed` chain.
-/

namespace EFramework

open Lib

variable {V : Type}

/-! ## Hash values -/

theorem hashFunc_take (key : Bytes) (len : Nat) :
    hashFunc (key.take len) (key.take len).length = hashFunc key len := by
  simp only [hashFunc, List.take_length]

theorem hashSizemask_pow {k : Nat} (hk : k ≤ 31) : hashSizemask (2 ^ k) = 2 ^ 32 - 2 ^ k := by
  have hlo := Nat.two_pow_pos k
  have hhi : 2 ^ k ≤ 2 ^ 31 := Nat.pow_le_pow_right (by decide) hk
  exact Nat.mod_eq_of_lt (by omega)

theorem or_mask_eq {k x : Nat} (hk : k ≤ 32) (hx : x < 2 ^ 32) :
    x ||| (2 ^ 32 - 2 ^ k) = 2 ^ 32 - 2 ^ k + x % 2 ^ k := by
  have hmask : 2 ^ 32 - 2 ^ k = 2 ^ k * (2 ^ (32 - k) - 1) := by
    rw [Nat.mul_sub, ← Nat.pow_add, Nat.mul_one, Nat.add_sub_cancel' hk]
  have hlow : x % 2 ^ k < 2 ^ k := Nat.mod_lt _ (Nat.two_pow_pos k)
  rw [hmask]
  apply Nat.eq_of_testBit_eq
  intro i
  rw [Nat.testBit_two_pow_mul_add _ hlow, Nat.testBit_or, Nat.testBit_two_pow_mul]
  by_cases hi : i < k
  · simp [hi, Nat.not_le.mpr hi]
  · have hik : k ≤ i := Nat.le_of_not_lt hi
    simp only [hi, if_false, hik, decide_true, Bool.true_and, Nat.testBit_two_pow_sub_one]
    by_cases h32 : i < 32
    · simp [show i - k < 32 - k by omega]
    · have hxi : x.testBit i = false :=
        Nat.testBit_lt_two_pow (Nat.lt_of_lt_of_le hx (Nat.pow_le_pow_right (by decide) (by omega)))
      simp [hxi]

namespace Hashtable

/-! ## Geometry -/

structure Geometry (ht : Hashtable V) : Prop where
  pow : ∃ k, 3 ≤ k ∧ k ≤ 31 ∧ ht.cap = 2 ^ k
  mask : ht.sizemask = hashSizemask ht.cap
  slots_length : ht.slots.length = ht.cap
  data_length : ht.arrData.length = ht.cap

theorem Geometry.cap_bounds {ht : Hashtable V} (g : ht.Geometry) :
    8 ≤ ht.cap ∧ ht.cap ≤ 2 ^ 31 := by
  obtain ⟨k, hlo, hhi, hcap⟩ := g.pow
  rw [hcap]
  exact ⟨Nat.pow_le_pow_right (show 0 < 2 by decide) hlo,
    Nat.pow_le_pow_right (show 0 < 2 by decide) hhi⟩

def slotOf (ht : Hashtable V) (h : UInt64) : Nat := h.toNat % ht.cap

theorem Geometry.slotOf_lt {ht : Hashtable V} (g : ht.Geometry) (h : UInt64) :
    ht.slotOf h < ht.cap :=
  Nat.mod_lt _ (by have := g.cap_bounds; omega)

theorem Geometry.hashOffset_eq {ht : Hashtable V} (g : ht.Geometry) (h : UInt64) :
    ht.hashOffset h = (ht.slotOf h : Int) - ht.cap := by
  obtain ⟨k, hlo, hhi, hcap⟩ := g.pow
  have hpos := Nat.two_pow_pos k
  have hle : 2 ^ k ≤ 2 ^ 31 := Nat.pow_le_pow_right (by decide) hhi
  have hbits : (h.toNat % 2 ^ 32) ||| ht.sizemask = 2 ^ 32 - 2 ^ k + h.toNat % 2 ^ k := by
    rw [g.mask, hcap, hashSizemask_pow hhi, or_mask_eq (by omega) (Nat.mod_lt _ (by decide)),
      Nat.mod_mod_of_dvd _ (Nat.pow_dvd_pow 2 (by omega))]
  unfold hashOffset slotOf
  rw [hbits, if_neg (by omega), hcap]
  omega

theorem Geometry.slotPos_hashOffset {ht : Hashtable V} (g : ht.Geometry) (h : UInt64) :
    ht.slotPos (ht.hashOffset h) = ht.slotOf h := by
  unfold slotPos
  rw [g.hashOffset_eq]
  omega

/-! ## Reading and writing buckets and slots -/

def nextOf (ht : Hashtable V) (i : Nat) : Nat := (ht.bucket i).next

def slotHead (ht : Hashtable V) (s : Nat) : Nat := ht.slots.getD s nil32

theorem bucket_of_le {ht : Hashtable V} {i : Nat} (hi : ht.arrData.length ≤ i) :
    ht.bucket i = Bucket.zero V := by
  simp [bucket, List.getD_eq_getElem?_getD, hi]

theorem zero_not_live : ¬ (Bucket.zero V).Live := by simp [Bucket.Live, Bucket.zero]

theorem lt_of_live {ht : Hashtable V} {i : Nat} (h : (ht.bucket i).Live) :
    i < ht.arrData.length := by
  by_contra hi
  rw [bucket_of_le (by omega)] at h
  exact zero_not_live h

theorem bucket_setBucket {ht : Hashtable V} {i : Nat} (hi : i < ht.arrData.length)
    (pb : Bucket V) (j : Nat) :
    (ht.setBucket i pb).bucket j = if j = i then pb else ht.bucket j := by
  simp only [bucket, setBucket, List.getD_eq_getElem?_getD, List.getElem?_set, hi, if_true]
  by_cases hj : j = i
  · simp [hj]
  · simp [hj, Ne.symm hj]

theorem nextOf_setBucket {ht : Hashtable V} {i : Nat} (hi : i < ht.arrData.length)
    (pb : Bucket V) :
    (ht.setBucket i pb).nextOf = Function.update ht.nextOf i pb.next := by
  funext j
  simp only [nextOf, bucket_setBucket hi, Function.update_apply]
  split <;> rfl

theorem slotHead_set {ht : Hashtable V} {s : Nat} (hs : s < ht.slots.length) (index t : Nat) :
    ({ ht with slots := ht.slots.set s index } : Hashtable V).slotHead t =
      if t = s then index else ht.slotHead t := by
  simp only [slotHead, List.getD_eq_getElem?_getD, List.getElem?_set, hs, if_true]
  by_cases ht : t = s
  · simp [ht]
  · simp [ht, Ne.symm ht]

theorem Geometry.hashEntry_eq {ht : Hashtable V} (g : ht.Geometry) (h : UInt64) :
    ht.hashEntry (ht.hashOffset h) = ht.slotHead (ht.slotOf h) := by
  simp [hashEntry, slotHead, g.slotPos_hashOffset]

/-- A slot write through the offset of a hash, over any version of the table
with the same capacity and mask. -/
theorem Geometry.setHashEntry_eq {ht ht' : Hashtable V} (g : ht.Geometry) (h : UInt64)
    (hcap : ht'.cap = ht.cap) (index : Nat) :
    ht'.setHashEntry (ht.hashOffset h) index =
      { ht' with slots := ht'.slots.set (ht.slotOf h) index } := by
  have hpos := g.slotPos_hashOffset h
  unfold setHashEntry
  unfold slotPos at hpos ⊢
  rw [hcap, hpos]

/-! ## The linked part of the invariant -/

/-- Every collision chain lists the live buckets of its slot. -/
def Chained (ht : Hashtable V) : Prop :=
  ∀ s < ht.cap, ∃ l, Chain nil32 ht.nextOf (ht.slotHead s) l ∧
    ∀ i, i ∈ l ↔ (ht.bucket i).Live ∧ ht.slotOf (ht.bucket i).h = s

structure Linked (ht : Hashtable V) : Prop where
  chain : ht.Chained
  live_key : ∀ i, (ht.bucket i).Live →
    ∃ s, (ht.bucket i).key = some s ∧ (ht.bucket i).h = hashFunc s.str s.len ∧ s.len < 2 ^ 63
  key_inj : ∀ i j, (ht.bucket i).Live → (ht.bucket j).Live →
    (ht.bucket i).key = (ht.bucket j).key → i = j

/-- `Maps k v`: some live bucket holds key `k` and value `v`. -/
def Maps (ht : Hashtable V) (k : Bytes) (v : Option V) : Prop :=
  ∃ i, (ht.bucket i).Live ∧ (ht.bucket i).key = some ⟨k⟩ ∧ (ht.bucket i).val = v

theorem Linked.maps_unique {ht : Hashtable V} (hl : ht.Linked) {k : Bytes} {v v' : Option V}
    (h : ht.Maps k v) (h' : ht.Maps k v') : v = v' := by
  obtain ⟨i, hi, hik, hiv⟩ := h
  obtain ⟨j, hj, hjk, hjv⟩ := h'
  have hij : i = j := hl.key_inj i j hi hj (hik.trans hjk.symm)
  rw [← hiv, ← hjv, hij]

theorem Geometry.index_ne_nil {ht : Hashtable V} (g : ht.Geometry) {i : Nat} (hi : i < ht.cap) :
    i ≠ nil32 := by
  have := g.cap_bounds
  unfold nil32
  omega

section LinkBucket

variable {ht : Hashtable V} {i : Nat} {s : EfString} {val : Option V}

theorem Geometry.bucket_linkBucket (g : ht.Geometry) (hi : i < ht.cap) (h : UInt64)
    (key : Option EfString) (val : Option V) (j : Nat) :
    (ht.linkBucket i h key val).bucket j =
      if j = i then ⟨h, key, val, ht.slotHead (ht.slotOf h)⟩ else ht.bucket j := by
  have hlen : i < ht.arrData.length := by rw [g.data_length]; exact hi
  have hb := bucket_setBucket hlen ⟨h, key, val, ht.slotHead (ht.slotOf h)⟩ j
  rw [← g.hashEntry_eq] at hb ⊢
  exact hb

theorem Geometry.linkBucket (g : ht.Geometry) (h : UInt64) (key : Option EfString) :
    (ht.linkBucket i h key val).Geometry := by
  refine ⟨g.pow, g.mask, ?_, ?_⟩
  · simpa [Hashtable.linkBucket, setHashEntry, setBucket] using g.slots_length
  · simpa [Hashtable.linkBucket, setHashEntry, setBucket] using g.data_length

theorem Chained.linkBucket (hc : ht.Chained) (g : ht.Geometry) (hi : i < ht.cap)
    (hdead : ¬ (ht.bucket i).Live) (h : UInt64) : (ht.linkBucket i h (some s) val).Chained := by
  have hb := g.bucket_linkBucket hi h (some s) val
  have hlive : (⟨h, some s, val, ht.slotHead (ht.slotOf h)⟩ : Bucket V).Live := by
    simp [Bucket.Live]
  have hslot : (ht.linkBucket i h (some s) val).slotOf = ht.slotOf := rfl
  have hnext : (ht.linkBucket i h (some s) val).nextOf =
      Function.update ht.nextOf i (ht.slotHead (ht.slotOf h)) := by
    funext j
    simp only [nextOf, hb, Function.update_apply]
    split <;> rfl
  have hhead : ∀ t, (ht.linkBucket i h (some s) val).slotHead t =
      if t = ht.slotOf h then i else ht.slotHead t := by
    intro t
    have hlt : ht.slotOf h < ht.slots.length := by
      rw [g.slots_length]
      exact g.slotOf_lt _
    rw [← slotHead_set hlt]
    simp only [Hashtable.linkBucket,
      g.setHashEntry_eq _ (show (ht.setBucket i _).cap = ht.cap from rfl)]
    rfl
  intro t hlt
  obtain ⟨l, hchain, hmem⟩ := hc t hlt
  have hil : i ∉ l := fun h => hdead ((hmem i).mp h).1
  by_cases hts : t = ht.slotOf h
  · refine ⟨i :: l, ?_, ?_⟩
    · rw [hnext, hhead, if_pos hts, ← hts]
      exact hchain.push hil (g.index_ne_nil hi)
    · intro j
      rw [List.mem_cons, hb, hslot, hmem j]
      by_cases hj : j = i
      · simp [hj, hlive, hts]
      · simp [hj]
  · refine ⟨l, ?_, ?_⟩
    · rw [hnext, hhead, if_neg hts]
      exact hchain.update_of_not_mem hil
    · intro j
      rw [hb, hslot, hmem j]
      by_cases hj : j = i
      · simp only [hj, if_true, hlive, true_and, hdead, false_and, false_iff]
        exact fun h => hts h.symm
      · simp [hj]

/-- Filling a bucket that is not live with a new key keeps the table linked. -/
theorem Linked.linkBucket (hl : ht.Linked) (g : ht.Geometry) (hi : i < ht.cap)
    (hdead : ¬ (ht.bucket i).Live) (hnew : ∀ v, ¬ ht.Maps s.str v) (hs : s.len < 2 ^ 63)
    (val : Option V) :
    (ht.linkBucket i (hashFunc s.str s.len) (some s) val).Linked := by
  have hb := g.bucket_linkBucket hi (hashFunc s.str s.len) (some s) val
  refine ⟨hl.chain.linkBucket g hi hdead _, ?_, ?_⟩
  · intro j hj
    rw [hb] at hj ⊢
    by_cases hji : j = i
    · exact ⟨s, by simp [hji], by simp [hji], hs⟩
    · rw [if_neg hji] at hj ⊢
      exact hl.live_key j hj
  · have hother : ∀ j, (ht.bucket j).Live → (ht.bucket j).key ≠ some s :=
      fun j hj hk => hnew _ ⟨j, hj, hk, rfl⟩
    intro j k hj hk
    rw [hb] at hj
    rw [hb] at hk
    rw [hb, hb]
    by_cases hji : j = i <;> by_cases hki : k = i
    · intro _
      rw [hji, hki]
    · rw [if_neg hki] at hk
      simpa [hji, hki] using fun he : some s = _ => absurd he.symm (hother k hk)
    · rw [if_neg hji] at hj
      simpa [hji, hki] using hother j hj
    · rw [if_neg hji] at hj
      rw [if_neg hki] at hk
      simpa [hji, hki] using hl.key_inj j k hj hk

theorem maps_linkBucket (g : ht.Geometry) (hi : i < ht.cap) (hdead : ¬ (ht.bucket i).Live)
    (k : Bytes) (v : Option V) :
    (ht.linkBucket i (hashFunc s.str s.len) (some s) val).Maps k v ↔
      (k = s.str ∧ v = val) ∨ ht.Maps k v := by
  have hb := g.bucket_linkBucket hi (hashFunc s.str s.len) (some s) val
  constructor
  · rintro ⟨j, hj, hk, hv⟩
    rw [hb] at hj hk hv
    by_cases hji : j = i
    · simp only [hji, if_true, Option.some.injEq] at hk hv
      exact Or.inl ⟨by rw [hk], hv.symm⟩
    · rw [if_neg hji] at hj hk hv
      exact Or.inr ⟨j, hj, hk, hv⟩
  · rintro (⟨rfl, rfl⟩ | ⟨j, hj, hk, hv⟩)
    · refine ⟨i, ?_, ?_, ?_⟩ <;> rw [hb, if_pos rfl]
      simp [Bucket.Live]
    · have hji : j ≠ i := fun h => hdead (h ▸ hj)
      refine ⟨j, ?_, ?_, ?_⟩ <;> rw [hb, if_neg hji] <;> assumption

end LinkBucket

/-! ## The whole invariant -/

structure Wf (ht : Hashtable V) : Prop where
  geometry : ht.Geometry
  linked : ht.Linked
  /-- The `removed` chain lists the dead buckets below `next`, and accounts for
  the difference between `next` and `used`. -/
  removed_chain : ∃ l, Chain nil32 ht.nextOf ht.removed l ∧
    (∀ i, i ∈ l ↔ i < ht.next ∧ ¬ (ht.bucket i).Live) ∧ ht.used + l.length = ht.next
  next_le : ht.next ≤ ht.cap
  fresh : ∀ i, ht.next ≤ i → ¬ (ht.bucket i).Live

/-- What is left of the invariant when the keys of the buckets may be any. -/
structure Threaded (ht : Hashtable V) : Prop where
  geometry : ht.Geometry
  chain : ht.Chained
  key_ne_none : ∀ i, (ht.bucket i).Live → (ht.bucket i).key ≠ none
  removed_chain : ∃ l, Chain nil32 ht.nextOf ht.removed l ∧
    (∀ i, i ∈ l ↔ i < ht.next ∧ ¬ (ht.bucket i).Live) ∧ ht.used + l.length = ht.next
  next_le : ht.next ≤ ht.cap
  fresh : ∀ i, ht.next ≤ i → ¬ (ht.bucket i).Live

theorem Linked.key_ne_none {ht : Hashtable V} (hl : ht.Linked) (i : Nat)
    (hi : (ht.bucket i).Live) : (ht.bucket i).key ≠ none := by
  obtain ⟨s, hs, _⟩ := hl.live_key i hi
  simp [hs]

theorem Wf.threaded {ht : Hashtable V} (wf : ht.Wf) : ht.Threaded :=
  ⟨wf.geometry, wf.linked.chain, wf.linked.key_ne_none, wf.removed_chain, wf.next_le, wf.fresh⟩

def Represents (ht : Hashtable V) (m : Bytes → Option (Option V)) : Prop :=
  ∀ k v, m k = some v ↔ ht.Maps k v

def liveSet (ht : Hashtable V) : Finset Nat :=
  (Finset.range ht.next).filter (fun i => (ht.bucket i).Live)

theorem Threaded.mem_liveSet {ht : Hashtable V} (th : ht.Threaded) {i : Nat} :
    i ∈ ht.liveSet ↔ (ht.bucket i).Live := by
  simp only [liveSet, Finset.mem_filter, Finset.mem_range, and_iff_right_iff_imp]
  intro h
  by_contra hn
  exact th.fresh i (by omega) h

theorem Wf.mem_liveSet {ht : Hashtable V} (wf : ht.Wf) {i : Nat} :
    i ∈ ht.liveSet ↔ (ht.bucket i).Live := wf.threaded.mem_liveSet

/-- `used` counts the live buckets. -/
theorem Threaded.used_eq {ht : Hashtable V} (th : ht.Threaded) : ht.used = ht.liveSet.card := by
  obtain ⟨l, hchain, hmem, hlen⟩ := th.removed_chain
  have hdead : ((Finset.range ht.next).filter (fun i => ¬ (ht.bucket i).Live)).card = l.length := by
    rw [← List.toFinset_card_of_nodup hchain.nodup]
    congr 1
    ext i
    simp [hmem]
  have hsum := Finset.card_filter_add_card_filter_not (s := Finset.range ht.next)
    (fun i => (ht.bucket i).Live)
  rw [hdead, Finset.card_range] at hsum
  unfold liveSet
  omega

theorem Wf.used_eq {ht : Hashtable V} (wf : ht.Wf) : ht.used = ht.liveSet.card :=
  wf.threaded.used_eq

theorem Wf.used_le {ht : Hashtable V} (wf : ht.Wf) : ht.used ≤ ht.next := by
  obtain ⟨l, _, _, hlen⟩ := wf.removed_chain
  omega

theorem Wf.keys_eq {ht : Hashtable V} (wf : ht.Wf) :
    {k | ∃ v, ht.Maps k v} =
      ((ht.liveSet.image (fun i => ((ht.bucket i).key.getD ⟨[]⟩).str) : Finset Bytes) : Set Bytes) := by
  ext k
  simp only [Set.mem_ofPred_eq, Finset.coe_image, Set.mem_image, Finset.mem_coe, wf.mem_liveSet]
  constructor
  · rintro ⟨v, i, hi, hik, _⟩
    exact ⟨i, hi, by simp [hik]⟩
  · rintro ⟨i, hi, rfl⟩
    obtain ⟨s, hs, _⟩ := wf.linked.live_key i hi
    exact ⟨_, i, hi, by simp [hs], rfl⟩

theorem Wf.used_eq_keys {ht : Hashtable V} (wf : ht.Wf) :
    ht.used = {k | ∃ v, ht.Maps k v}.ncard := by
  have hinj : Set.InjOn (fun i => ((ht.bucket i).key.getD ⟨[]⟩).str) (ht.liveSet : Set Nat) := by
    intro i hi j hj hij
    have hi := wf.mem_liveSet.mp hi
    have hj := wf.mem_liveSet.mp hj
    obtain ⟨s, hs, _⟩ := wf.linked.live_key i hi
    obtain ⟨t, ht', _⟩ := wf.linked.live_key j hj
    simp only [hs, ht', Option.getD_some] at hij
    exact wf.linked.key_inj i j hi hj (by rw [hs, ht', show s = t from by cases s; cases t; simp_all])
  rw [wf.keys_eq, Set.ncard_coe_finset, Finset.card_image_of_injOn hinj, wf.used_eq]

theorem Wf.finite_keys {ht : Hashtable V} (wf : ht.Wf) : {k | ∃ v, ht.Maps k v}.Finite := by
  rw [wf.keys_eq]
  exact Finset.finite_toSet _

theorem Wf.used_eq_ncard {ht : Hashtable V} (wf : ht.Wf) {m : Bytes → Option (Option V)}
    (hm : ht.Represents m) : ht.used = {k | m k ≠ none}.ncard := by
  rw [wf.used_eq_keys]
  congr 1
  ext k
  rw [Set.mem_ofPred_eq, Set.mem_ofPred_eq, Option.ne_none_iff_exists']
  exact exists_congr fun v => (hm k v).symm

theorem Wf.used_le_pow {ht : Hashtable V} (wf : ht.Wf) : ht.used ≤ 2 ^ 31 := by
  have h₁ := wf.used_le
  have h₂ := wf.next_le
  have h₃ := wf.geometry.cap_bounds
  omega

end Hashtable

end EFramework
