import EFramework.Structure.Hashtable.Capacity

/-! # The empty key

`hash_func` and the comparison take a length of 0 literally, `ef_string_new` reads
it as "up to the next NUL". A key of length 0 is therefore stored as what follows
its pointer, and a bucket filled in this way is found under no key at all. Where a
NUL follows, or the empty key is bound already, the two readings agree.
-/

namespace EFramework

open Lib

variable {V : Type}

namespace Hashtable

variable {ht ht' : Hashtable V} {i : Nat}

/-! ## The law -/

/-- After a set of the empty key that was not refused: the key in the table has
length 0, it is found with the value, it is overwritten in place, and it is removed. -/
structure EmptyKeyBound (ht : Hashtable V) (val : Option V) (i : Nat) : Prop where
  key : (ht.bucket i).key = some ⟨[]⟩
  val : (ht.bucket i).val = val
  find : ∀ key, efHashtableFindKey ht key 0 = some (some i)
  overwrite : ∀ key val w, ∃ ht' w', efHashtableSetKeyValue ht key 0 val w = some (some i, ht', w') ∧
    ht'.used = ht.used ∧ efHashtableFindKey ht' key 0 = some (some i) ∧ (ht'.bucket i).val = val
  remove : ∀ key w, ∃ ht' w', efHashtableRemoveKey ht key 0 w = some (ht', w') ∧
    efHashtableFindKey ht' key 0 = some none

/-- Setting the empty key through `key` binds it. The set is refused only when the
table is full or an allocation fails. -/
def EmptyKeyLaw (ht : Hashtable V) (key : Bytes) : Prop :=
  ∀ val w, ∃ r ht' w', efHashtableSetKeyValue ht key 0 val w = some (r, ht', w') ∧
    (w'.heap.failures = w.heap.failures → ht.used < 2 ^ 31 → r ≠ none) ∧
    ∀ i, r = some i → EmptyKeyBound ht' val i

theorem Wf.find_bound (wf : ht.Wf) {key : Bytes} {klen i : Nat} (hlen : klen ≤ key.length)
    (hi : (ht.bucket i).Live) (hik : (ht.bucket i).key = some ⟨key.take klen⟩) :
    efHashtableFindKey ht key klen = some (some i) := by
  obtain ⟨r, hr, hfound⟩ := wf.linked.find_spec wf.geometry hlen
  rw [hr, (hfound i).mpr ⟨hi, hik⟩]

theorem Wf.emptyKeyBound (wf : ht.Wf) {i : Nat} (hi : (ht.bucket i).Live)
    (hik : (ht.bucket i).key = some ⟨[]⟩) : EmptyKeyBound ht (ht.bucket i).val i := by
  refine ⟨hik, rfl, fun key => wf.find_bound (Nat.zero_le _) hi hik, ?_, ?_⟩
  · intro key val w
    obtain ⟨wf', hst⟩ := wf.overwrite hi hik val
    exact ⟨_, _, wf.set_bound (Nat.zero_le _) hi hik val w, rfl,
      wf'.find_bound (Nat.zero_le _) hst.live hst.key, hst.val⟩
  · intro key w
    obtain ⟨ht', w', he, wf', _, hmaps, _⟩ := wf.remove_spec (Nat.zero_le key.length) w
    obtain ⟨r, hr, hfound⟩ := wf'.linked.find_spec wf'.geometry (Nat.zero_le key.length)
    refine ⟨ht', w', he, ?_⟩
    cases r with
    | none => exact hr
    | some j =>
        obtain ⟨hj, hjk⟩ := (hfound j).mp rfl
        exact absurd rfl ((hmaps _ _).mp ⟨j, hj, hjk, rfl⟩).1

/-- The sets of the empty key that the law allows for. -/
def EmptyKeyFits (ht : Hashtable V) (key : Bytes) : Prop :=
  strlen key = 0 ∨ (∃ v, ht.Maps [] v) ∨ 2 ^ 31 ≤ ht.used ∨ 2 ^ 63 ≤ strlen key + 1

theorem stringLen_zero (key : Bytes) : stringLen key 0 = strlen key := if_pos rfl

theorem fillBucket_huge (ht : Hashtable V) (pb : Nat) {key : Bytes}
    (hhuge : 2 ^ 63 ≤ strlen key + 1) (val : Option V) (m : Heap) :
    (fillBucket ht pb key 0 val m).1 = none ∧
      m.failures < (fillBucket ht pb key 0 val m).2.2.failures := by
  have hnone : (efStringNew (some key) 0 m).1 = none := by
    rcases efStringNew_eq_none_or key 0 m with hnone | ⟨_, hlt⟩
    · exact hnone
    · rw [stringLen_zero] at hlt
      omega
  obtain ⟨hle, hok⟩ := efStringNew_failures key 0 m
  unfold fillBucket
  generalize efStringNew (some key) 0 m = out at hnone hle hok
  obtain ⟨s, m₂⟩ := out
  obtain rfl : s = none := hnone
  refine ⟨rfl, Nat.lt_of_le_of_ne hle (fun he => ?_)⟩
  exact absurd (hok he.symm) (by simp)

theorem Wf.emptyKeyLaw (wf : ht.Wf) {key : Bytes} (h : EmptyKeyFits ht key) :
    EmptyKeyLaw ht key := by
  intro val w
  by_cases hb : ∃ v, ht.Maps [] v
  · obtain ⟨v, i, hi, hik, hv⟩ := hb
    obtain ⟨wf', hst⟩ := wf.overwrite hi hik val
    refine ⟨_, _, _, wf.set_bound (Nat.zero_le _) hi hik val w, fun _ _ => by simp, ?_⟩
    rintro _ ⟨⟩
    have hbound := wf'.emptyKeyBound hst.live hst.key
    rw [hst.val] at hbound
    exact hbound
  have hno : ∀ v, ¬ ht.Maps [] v := fun v hv => hb ⟨v, hv⟩
  rcases h with hnul | hbound | hfull | hhuge
  · -- the copy stops at once, and so is the empty string
    obtain ⟨r, ht', w', he, wf', _, hcases, _, hok⟩ :=
      wf.set_string_spec ((stringLen_zero key).trans hnul) (Nat.zero_le _) val w
    refine ⟨r, ht', w', he, fun hm hu => hok hm (Or.inl hu), ?_⟩
    rintro i rfl
    rcases hcases with ⟨habs, _⟩ | ⟨j, hj, hst, _⟩
    · cases habs
    · cases hj
      have hbound := wf'.emptyKeyBound hst.live hst.key
      rw [hst.val] at hbound
      exact hbound
  · exact absurd hbound hb
  · obtain ⟨r, ht₁, m₁, _, hcases, _⟩ := wf.set_unbound (Nat.zero_le key.length) hno val w
    rcases hcases with ⟨_, _, he⟩ | ⟨pb, _, hres, _⟩
    · exact ⟨none, ht₁, _, he, fun _ hu => by omega, fun i hi => by cases hi⟩
    · have hlt := hres.used_lt
      omega
  · obtain ⟨r, ht₁, m₁, _, hcases, hle, hok⟩ := wf.set_unbound (Nat.zero_le key.length) hno val w
    rcases hcases with ⟨hr, _, he⟩ | ⟨pb, _, hres, he⟩
    · exact ⟨none, ht₁, _, he, fun hm hu _ => hok hm hu hr, fun i hi => by cases hi⟩
    · obtain ⟨hnone, hfail⟩ := fillBucket_huge ht₁ pb hhuge val m₁
      rw [hnone] at he
      exact ⟨none, _, _, he, fun hm => by dsimp only at hm; omega, fun i hi => by cases hi⟩

theorem Wf.emptyKey_lost (wf : ht.Wf) {key : Bytes} (h : ¬ EmptyKeyFits ht key) :
    ¬ EmptyKeyLaw ht key := by
  obtain ⟨hnul, hno, hroom, hshort⟩ : strlen key ≠ 0 ∧ (¬ ∃ v, ht.Maps [] v) ∧
      ¬ 2 ^ 31 ≤ ht.used ∧ ¬ 2 ^ 63 ≤ strlen key + 1 := by
    simpa only [EmptyKeyFits, not_or] using h
  intro hlaw
  have hw : (⟨[], 0, 0⟩ : Heap).Willing := fun ok hok => absurd hok List.not_mem_nil
  obtain ⟨r, ht', w', he, hok, hbound⟩ := hlaw none ⟨⟨[], 0, 0⟩, []⟩
  have hgranted := efHashtableSetKeyValue_granted hw (by rw [stringLen_zero]; omega) he
  obtain ⟨i, rfl⟩ := Option.ne_none_iff_exists'.mp (hok hgranted.failures (by omega))
  obtain ⟨_, ht₁, m₁, _, hcases, _⟩ := wf.set_unbound (Nat.zero_le key.length)
    (fun v hv => hno ⟨v, hv⟩) none ⟨⟨[], 0, 0⟩, []⟩
  rcases hcases with ⟨_, _, hset⟩ | ⟨pb, _, hres, hset⟩
  · rw [hset] at he
    cases he
  · rw [hset, Option.some.injEq, Prod.mk.injEq, Prod.mk.injEq] at he
    obtain ⟨hi, rfl, _⟩ := he
    have hkey := (hbound i rfl).key
    rw [(hres.of_fill hi).2.1, Option.some.injEq, EfString.mk.injEq, stringLen_zero] at hkey
    have hlen : strlen key ≤ key.length := (List.takeWhile_sublist _).length_le
    have hzero := congrArg List.length hkey
    rw [List.length_take, List.length_nil] at hzero
    omega

/-! ## Beside other keys -/

def BindsEmpty (ht : Hashtable V) : Prop := ∃ v, ht.Holds (hashFunc [] 0) (some ⟨[]⟩) v

theorem hashFunc_zero (key : Bytes) : hashFunc key 0 = hashFunc [] 0 := rfl

theorem matches_zero (pb : Bucket V) (key : Bytes) :
    pb.matches (hashFunc key 0) key 0 = true ↔ pb.h = hashFunc [] 0 ∧ pb.key = some ⟨[]⟩ := by
  rw [hashFunc_zero]
  cases hk : pb.key with
  | none => simp [Bucket.matches, hk]
  | some s =>
      obtain ⟨str⟩ := s
      simp [Bucket.matches, hk, EfString.len]

theorem Threaded.find_returns (th : ht.Threaded) (key : Bytes) (klen : Nat) :
    ∃ r, efHashtableFindKey ht key klen = some r ∧
      (∀ i, r = some i → (ht.bucket i).Live ∧
        (ht.bucket i).matches (hashFunc key klen) key klen = true) ∧
      (r = none → ∀ i, (ht.bucket i).Live → (ht.bucket i).h = hashFunc key klen →
        (ht.bucket i).matches (hashFunc key klen) key klen = false) := by
  obtain ⟨l, hc, hmem⟩ := th.chain _ (th.geometry.slotOf_lt (hashFunc key klen))
  have hlive : ∀ i ∈ l, (ht.bucket i).Live := fun i hi => ((hmem i).mp hi).1
  refine ⟨l.find? (fun i => (ht.bucket i).matches (hashFunc key klen) key klen), ?_, ?_, ?_⟩
  · unfold efHashtableFindKey
    simp only [th.geometry.hashEntry_eq]
    by_cases hp : ht.slotHead (ht.slotOf (hashFunc key klen)) = nil32
    · rw [hp] at hc
      simp [hp, hc.eq_nil_of_head]
    · rw [if_neg hp]
      exact findLoop_eq hc hp (th.geometry.chain_length_le hc hlive)
  · intro i hi
    have hm := List.find?_some hi
    exact ⟨hlive i (List.mem_of_find?_eq_some hi), hm⟩
  · intro hnone i hi hh
    have hil := (hmem i).mpr ⟨hi, by rw [hh]⟩
    simpa using List.find?_eq_none.mp hnone i hil

theorem Threaded.find_empty (th : ht.Threaded) (key : Bytes) :
    ∃ r, efHashtableFindKey ht key 0 = some r ∧ (r ≠ none ↔ ht.BindsEmpty) := by
  obtain ⟨r, he, hsome, hnone⟩ := th.find_returns key 0
  refine ⟨r, he, ?_⟩
  constructor
  · intro hr
    obtain ⟨i, hi⟩ := Option.ne_none_iff_exists'.mp hr
    obtain ⟨hlive, hm⟩ := hsome i hi
    obtain ⟨hh, hk⟩ := (matches_zero _ key).mp hm
    exact ⟨_, i, hlive, hh, hk, rfl⟩
  · rintro ⟨v, i, hlive, hh, hk, -⟩ hr
    have hno := hnone hr i hlive hh
    rw [(matches_zero _ key).mpr ⟨hh, hk⟩] at hno
    cases hno

theorem bindsEmpty_overwrite (hi : (ht.bucket i).Live) (val : Option V) :
    (ht.setBucket i { ht.bucket i with val := val }).BindsEmpty ↔ ht.BindsEmpty := by
  have hb := bucket_overwrite hi val
  constructor
  · rintro ⟨v, j, hj, hh, hk, -⟩
    rw [hb] at hj hh hk
    exact ⟨_, j, hj, hh, hk, rfl⟩
  · rintro ⟨v, j, hj, hh, hk, -⟩
    refine ⟨_, j, ?_, ?_, ?_, rfl⟩ <;> rw [hb]
    · exact hj
    · exact hh
    · exact hk

theorem fillBucket_none {pb klen : Nat} {key : Bytes} {val : Option V} {m : Heap}
    (h : (efStringNew (some key) klen m).1 = none) : fillBucket ht pb key klen val m =
      (none, ht.givenBack pb, (efStringNew (some key) klen m).2) := by
  unfold fillBucket
  generalize efStringNew (some key) klen m = out at h
  obtain ⟨s, m₂⟩ := out
  obtain rfl : s = none := h
  rfl

theorem fillBucket_some (ht : Hashtable V) (pb : Nat) {klen : Nat} {key : Bytes} (val : Option V)
    {m : Heap} {s : EfString} (h : (efStringNew (some key) klen m).1 = some s) :
    fillBucket ht pb key klen val m =
      (some pb, ht.filled pb (hashFunc key klen) s val, (efStringNew (some key) klen m).2) := by
  unfold fillBucket
  generalize efStringNew (some key) klen m = out at h
  obtain ⟨s', m₂⟩ := out
  obtain rfl : s' = some s := h
  rfl

theorem take_stringLen_eq_nil {key : Bytes} {klen : Nat} (hlen : klen ≤ key.length) :
    key.take (stringLen key klen) = [] ↔ klen = 0 ∧ strlen key = 0 := by
  have hle : strlen key ≤ key.length := (List.takeWhile_sublist _).length_le
  rw [← List.length_eq_zero_iff, List.length_take, stringLen]
  split <;> omega

/-- What a set does to the table: `bound` and `unbound` say when it binds the empty key. -/
structure SetKeeps (ht ht' : Hashtable V) (key : Bytes) (klen : Nat) (r : Option Nat) : Prop where
  threaded : ht'.Threaded
  used_le : ht'.used ≤ ht.used + 1
  keeps : ht.BindsEmpty → ht'.BindsEmpty
  bound : r ≠ none → klen = 0 → strlen key = 0 → ht'.BindsEmpty
  unbound : klen ≤ key.length → ht'.BindsEmpty → ht.BindsEmpty ∨ (klen = 0 ∧ strlen key = 0)

theorem SetAside.fillBucket_spec {pb : Nat} (sa : SetAside ht ht' pb) (key : Bytes) (klen : Nat)
    (val : Option V) (m : Heap) :
    SetKeeps ht (fillBucket ht' pb key klen val m).2.1 key klen
      (fillBucket ht' pb key klen val m).1 := by
  have hiff : ∀ v, ht'.Holds (hashFunc [] 0) (some ⟨[]⟩) v ↔ ht.Holds (hashFunc [] 0) (some ⟨[]⟩) v :=
    sa.holds_iff _ _
  rcases efStringNew_eq_none_or key klen m with hs | ⟨hs, -⟩
  · rw [fillBucket_none hs]
    have hb : (ht'.givenBack pb).BindsEmpty ↔ ht.BindsEmpty :=
      exists_congr (fun v => (sa.spare.holds_givenBack _ _ v).trans (hiff v))
    exact ⟨sa.spare.giveBack, Nat.le_succ_of_le sa.used.le, hb.mpr, fun h => absurd rfl h,
      fun _ h => Or.inl (hb.mp h)⟩
  · rw [fillBucket_some _ _ _ hs]
    have hb : ∀ v, (ht'.filled pb (hashFunc key klen) ⟨key.take (stringLen key klen)⟩ val).Holds
        (hashFunc [] 0) (some ⟨[]⟩) v ↔ (hashFunc [] 0 = hashFunc key klen ∧
          some ⟨[]⟩ = some (⟨key.take (stringLen key klen)⟩ : EfString) ∧ v = val) ∨
            ht.Holds (hashFunc [] 0) (some ⟨[]⟩) v :=
      fun v => (sa.spare.holds_filled _ _ v).trans (or_congr Iff.rfl (hiff v))
    refine ⟨sa.spare.fill _ _ _, Nat.succ_le_succ sa.used.le, ?_, ?_, ?_⟩
    · rintro ⟨v, hv⟩
      exact ⟨v, (hb v).mpr (Or.inr hv)⟩
    · rintro - rfl hz
      refine ⟨val, (hb val).mpr (Or.inl ⟨rfl, ?_, rfl⟩)⟩
      rw [stringLen_zero, hz, List.take_zero]
    · rintro hlen ⟨v, hv⟩
      rcases (hb v).mp hv with ⟨-, hk, -⟩ | hv
      · rw [Option.some.injEq, EfString.mk.injEq] at hk
        exact Or.inr ((take_stringLen_eq_nil hlen).mp hk.symm)
      · exact Or.inl ⟨v, hv⟩

theorem Threaded.set_spec (th : ht.Threaded) (key : Bytes) (klen : Nat) (val : Option V)
    (w : World V) :
    ∃ r ht' w', efHashtableSetKeyValue ht key klen val w = some (r, ht', w') ∧
      SetKeeps ht ht' key klen r := by
  obtain ⟨found, hfind, hfound, -⟩ := th.find_returns key klen
  unfold efHashtableSetKeyValue
  rw [hfind]
  cases found with
  | some i =>
      obtain ⟨hi, hm⟩ := hfound i rfl
      have hb := bindsEmpty_overwrite hi val
      refine ⟨_, _, _, rfl, th.overwrite hi val, Nat.le_succ _, hb.mpr, ?_, fun _ h => Or.inl (hb.mp h)⟩
      rintro - rfl -
      obtain ⟨hh, hk⟩ := (matches_zero _ key).mp hm
      exact hb.mpr ⟨_, i, hi, hh, hk, rfl⟩
  | none =>
      obtain ⟨pb, ht₁, m₁, ha, hcases, -⟩ := th.allocBucket_spec w.heap
      dsimp only
      rw [ha]
      rcases hcases with ⟨rfl, rfl⟩ | ⟨pb, rfl, sa⟩
      · exact ⟨none, _, _, rfl, th, Nat.le_succ _, id, fun h => absurd rfl h, fun _ => Or.inl⟩
      · exact ⟨_, _, _, rfl, sa.fillBucket_spec key klen val m₁⟩

/-! ## Steering the allocator -/

theorem efHashtableResize_first {cap : Nat} {m m₁ : Heap} {ht₁ : Hashtable V}
    (h : efHashtableResize ht cap m = (0, ht₁, m₁)) (os : List Bool) (c f : Nat) :
    efHashtableResize ht cap ⟨true :: os, c, f⟩ = (0, ht₁, ⟨os, c + 1, f⟩) := by
  unfold efHashtableResize allocHashData Heap.malloc at h ⊢
  dsimp only at h ⊢
  split at h
  · cases h
  next hcap =>
    rw [if_neg hcap]
    cases hok : (m.request true).1
    · rw [hok] at h
      cases h
    · rw [hok] at h
      cases h
      rfl

theorem efStringNew_first {key : Bytes} {klen : Nat} (hlen : stringLen key klen + 1 < 2 ^ 63)
    (os : List Bool) (c f : Nat) : efStringNew (some key) klen ⟨true :: true :: os, c, f⟩ =
      (some ⟨key.take (stringLen key klen)⟩, ⟨os, c + 2, f⟩) := by
  have hfits : decide (0 < stringLen key klen + 1 ∧ stringLen key klen + 1 < 2 ^ 63) = true :=
    decide_eq_true ⟨Nat.zero_lt_succ _, hlen⟩
  unfold efStringNew
  dsimp only
  rw [show (if klen = 0 then strlen key else klen) = stringLen key klen from rfl, Heap.alloc, hfits]
  rfl

/-- A bucket can be had, whatever the allocator does afterwards. -/
theorem Threaded.allocBucket_first (th : ht.Threaded) (hu : ht.used < 2 ^ 31) :
    ∃ pre pb ht₁, ∀ os c f, ∃ c', allocBucket 2 ht ⟨pre ++ os, c, f⟩ =
      some (some pb, ht₁, ⟨os, c', f⟩) := by
  by_cases hroom : ht.next < ht.cap
  · exact ⟨[], _, _, fun os c f => ⟨c, by rw [allocBucket, if_pos hroom]; rfl⟩⟩
  by_cases hrem : ht.removed = nil32
  · obtain ⟨ret, ht₁, m₁, he, hcases, -, hok⟩ := th.grow_spec hroom hrem ⟨[], 0, 0⟩
    have hwilling : (⟨[], 0, 0⟩ : Heap).Willing := fun ok hok => absurd hok List.not_mem_nil
    have hgranted := efHashtableResize_granted ht (ht.cap <<< 1 % 2 ^ 32) hwilling
    rw [he] at hgranted
    obtain rfl := hok hgranted.failures hu
    obtain ⟨habs, -⟩ | ⟨-, -, hnext⟩ := hcases
    · exact absurd habs (by decide)
    refine ⟨[true], ht₁.next, { ht₁ with next := ht₁.next + 1 }, fun os c f => ⟨c + 1, ?_⟩⟩
    rw [allocBucket, if_neg hroom, if_neg (by simpa using hrem), List.singleton_append,
      efHashtableResize_first he]
    dsimp only
    rw [if_pos rfl, allocBucket, if_pos hnext]
  · exact ⟨[], _, _, fun os c f =>
      ⟨c, by rw [allocBucket, if_neg hroom, if_pos hrem]; rfl⟩⟩

/-- A table with room can be made to bind a key, whatever the allocator does afterwards. -/
theorem Threaded.set_first (th : ht.Threaded) (hu : ht.used < 2 ^ 31) {key : Bytes} {klen : Nat}
    (hlen : (klen = 0 ∧ ht.BindsEmpty) ∨ stringLen key klen + 1 < 2 ^ 63) (val : Option V) :
    ∃ pre pb ht', ∀ os c f d, ∃ c' d', efHashtableSetKeyValue ht key klen val
      ⟨⟨pre ++ os, c, f⟩, d⟩ = some (some pb, ht', ⟨⟨os, c', f⟩, d'⟩) := by
  obtain ⟨found, hfind, -⟩ := th.find_returns key klen
  cases found with
  | some i =>
      refine ⟨[], i, ht.setBucket i { ht.bucket i with val := val }, fun os c f d => ?_⟩
      unfold efHashtableSetKeyValue
      rw [hfind]
      refine ⟨c, ((⟨⟨os, c, f⟩, d⟩ : World V).destroy ht.valDtor (ht.bucket i).val).destroyed, ?_⟩
      have hheap := (⟨⟨os, c, f⟩, d⟩ : World V).heap_destroy ht.valDtor (ht.bucket i).val
      dsimp only at hheap ⊢
      rw [List.nil_append]
      generalize (⟨⟨os, c, f⟩, d⟩ : World V).destroy ht.valDtor (ht.bucket i).val = w at hheap ⊢
      rw [← hheap]
  | none =>
      have hlen : stringLen key klen + 1 < 2 ^ 63 := by
        refine hlen.resolve_left ?_
        rintro ⟨rfl, hb⟩
        obtain ⟨r, hr, hiff⟩ := th.find_empty key
        rw [hfind] at hr
        cases hr
        exact hiff.mpr hb rfl
      obtain ⟨pre, pb, ht₁, ha⟩ := th.allocBucket_first hu
      refine ⟨pre ++ [true, true], pb, ht₁.filled pb (hashFunc key klen)
        ⟨key.take (stringLen key klen)⟩ val, fun os c f d => ?_⟩
      obtain ⟨c', ha⟩ := ha (true :: true :: os) c f
      have hs := efStringNew_first hlen os c' f
      have hfill := fillBucket_some ht₁ pb val (congrArg Prod.fst hs)
      rw [hs] at hfill
      unfold efHashtableSetKeyValue
      rw [hfind, List.append_assoc]
      dsimp only
      rw [List.cons_append, List.cons_append, List.nil_append, ha]
      dsimp only
      rw [hfill]
      exact ⟨_, _, rfl⟩

end Hashtable

/-! ## Whole runs -/

namespace HashState

/-- A key argument is memory of at least the length passed with it. A set of the
empty key points at a NUL, unless the empty key is bound. -/
def KeyGuard (s : HashState V) : HashOp V → Prop
  | .set key klen _ => klen ≤ key.length ∧
      (stringLen key klen = klen ∨ ∃ v, s.1.Maps (key.take klen) v)
  | .remove key klen | .find key klen => klen ≤ key.length
  | .resize cap => CapGuard s (.resize cap)

theorem wf_invariant : Invariant (S := HashState V) New step KeyGuard (fun s => s.1.Wf) where
  init := by
    rintro s ⟨cap, valDtor, m, m', hcap, he, _⟩
    exact (Hashtable.new_spec hcap valDtor m he).1
  step := by
    rintro s s' op wf hg he
    obtain ⟨⟨r, ht', w'⟩, hexec, rfl⟩ := Option.map_eq_some_iff.mp he
    cases op with
    | set key klen val =>
        obtain ⟨⟨pb, ht₁, w₁⟩, hs, he⟩ := Option.bind_eq_some_iff.mp hexec
        cases he
        rcases hg.2 with hstr | ⟨v, i, hi, hik, _⟩
        · obtain ⟨_, _, _, he', wf', _⟩ := wf.set_string_spec hstr hg.1 val s.2
          rw [he'] at hs
          cases hs
          exact wf'
        · rw [wf.set_bound hg.1 hi hik] at hs
          cases hs
          exact (wf.overwrite hi hik val).1
    | remove key klen =>
        obtain ⟨⟨ht₁, w₁⟩, hs, he⟩ := Option.bind_eq_some_iff.mp hexec
        cases he
        obtain ⟨_, _, he', wf', _⟩ := wf.remove_spec hg s.2
        rw [he'] at hs
        cases hs
        exact wf'
    | find key klen =>
        obtain ⟨pb, _, he⟩ := Option.bind_eq_some_iff.mp hexec
        cases he
        exact wf
    | resize cap =>
        obtain ⟨hhi, hlo⟩ := hg
        by_cases hcap : cap ≤ 2 ^ 31
        · obtain ⟨ret, ht₁, m₁, hr, hcases, _⟩ := wf.resize_spec hcap s.2.heap
          rw [HashOp.exec, hr] at hexec
          cases hexec
          rcases hcases with ⟨_, rfl⟩ | ⟨_, r⟩
          · exact wf
          · exact r.wf
        · rw [HashOp.exec, Hashtable.resize_wrap (by omega) hhi (hlo.resolve_left hcap)] at hexec
          cases hexec
          exact wf

end HashState

/-- In every run whose sets of the empty key point at a NUL, or overwrite: setting the
empty key through `key` binds it exactly when a NUL is there, when the empty key is
bound, or when no set can succeed. -/
theorem hashtable_empty_key {s : HashState V}
    (hs : Reachable HashState.New HashState.step HashState.KeyGuard s) (key : Bytes) :
    Hashtable.EmptyKeyLaw s.1 key ↔ Hashtable.EmptyKeyFits s.1 key := by
  have wf : s.1.Wf := HashState.wf_invariant.holds hs
  constructor
  · intro hlaw
    by_contra hno
    exact wf.emptyKey_lost hno hlaw
  · exact wf.emptyKeyLaw

/-- A new table, and a pointer at an empty C string. -/
theorem hashtable_empty_key_nul :
    Hashtable.EmptyKeyLaw (Hashtable.smallest Nat false) [0, 97] := by
  have hs : Reachable HashState.New HashState.step HashState.KeyGuard
      ((Hashtable.smallest Nat false, ⟨⟨[], 2, 0⟩, []⟩) : HashState Nat) :=
    .init ⟨8, false, ⟨[], 0, 0⟩, ⟨[], 2, 0⟩, by decide, Hashtable.new_smallest Nat false, rfl⟩
  exact (hashtable_empty_key hs [0, 97]).mpr (Or.inl (by decide))

/-- A new table, and a pointer at the letters `ab`: they become the key, and the
empty key is not found. -/
theorem hashtable_empty_key_letters :
    (∃ ht' w', efHashtableSetKeyValue (Hashtable.smallest Nat false) [97, 98, 0] 0 (some 5)
        ⟨⟨[], 2, 0⟩, []⟩ = some (some 0, ht', w') ∧
      (ht'.bucket 0).key = some ⟨[97, 98]⟩ ∧
      efHashtableFindKey ht' [97, 98, 0] 0 = some none) ∧
    ¬ Hashtable.EmptyKeyLaw (Hashtable.smallest Nat false) [97, 98, 0] := by
  have hset : ∃ ht' w', efHashtableSetKeyValue (Hashtable.smallest Nat false) [97, 98, 0] 0
        (some 5) ⟨⟨[], 2, 0⟩, []⟩ = some (some 0, ht', w') ∧
      (ht'.bucket 0).key = some ⟨[97, 98]⟩ ∧
      efHashtableFindKey ht' [97, 98, 0] 0 = some none := by
    refine ⟨_, _, rfl, ?_, ?_⟩ <;> decide +kernel
  refine ⟨hset, fun hlaw => ?_⟩
  obtain ⟨ht', w', he, hkey, _⟩ := hset
  obtain ⟨r, ht₁, w₁, he₁, _, hbound⟩ := hlaw (some 5) ⟨⟨[], 2, 0⟩, []⟩
  rw [he] at he₁
  cases he₁
  have h₀ := (hbound 0 rfl).key
  rw [hkey] at h₀
  cases h₀

end EFramework
