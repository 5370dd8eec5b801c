import EFramework.Structure.Hashtable.Representation

/-! # Walking a collision chain

`ef_hashtable_find_key` and `ef_hashtable_remove_key` walk the chain of the slot
of their key. On a linked table the walk ends within `cap` steps, and the bucket
it stops at is the only live one holding the key.
-/

namespace EFramework

open Lib

variable {V : Type}

namespace Hashtable

variable {ht : Hashtable V}

/-- A chain of live buckets fits the fuel of the walks. -/
theorem Geometry.chain_length_le (g : ht.Geometry) {p : Nat} {l : List Nat}
    (hc : Chain nil32 ht.nextOf p l) (hlive : ∀ i ∈ l, (ht.bucket i).Live) :
    l.length ≤ ht.cap := by
  rw [← List.toFinset_card_of_nodup hc.nodup, ← Finset.card_range ht.cap]
  apply Finset.card_le_card
  intro i hi
  rw [Finset.mem_range, ← g.data_length]
  exact lt_of_live (hlive i (List.mem_toFinset.mp hi))

/-- For a live bucket the comparison decides equality of keys. -/
theorem Linked.matches_iff (hl : ht.Linked) {i : Nat} (hi : (ht.bucket i).Live) {key : Bytes}
    {len : Nat} (hlen : len ≤ key.length) :
    (ht.bucket i).matches (hashFunc key len) key len = true ↔
      (ht.bucket i).key = some ⟨key.take len⟩ := by
  obtain ⟨s, hs, hh, _⟩ := hl.live_key i hi
  obtain ⟨str⟩ := s
  simp only [Bucket.matches, hs, hh, EfString.len, Bool.and_eq_true, beq_iff_eq,
    Option.some.injEq, EfString.mk.injEq]
  constructor
  · rintro ⟨_, hn, hstr⟩
    rw [← hstr, ← hn, List.take_length]
  · rintro rfl
    have hn : (key.take len).length = len := by simpa using hlen
    exact ⟨hashFunc_take key len, hn, by rw [List.take_take, Nat.min_self]⟩

/-! ## Finding -/

theorem findLoop_eq {h : UInt64} {key : Bytes} {len fuel p : Nat} {l : List Nat}
    (hc : Chain nil32 ht.nextOf p l) (hp : p ≠ nil32) (hf : l.length ≤ fuel) :
    findLoop ht h key len fuel p =
      some (l.find? (fun i => (ht.bucket i).matches h key len)) := by
  induction fuel generalizing p l with
  | zero =>
      obtain ⟨t, rfl, _⟩ := hc.exists_cons_of_head hp
      simp at hf
  | succ fuel ih =>
      obtain ⟨t, rfl, ht'⟩ := hc.exists_cons_of_head hp
      rw [findLoop, List.find?_cons]
      cases hm : (ht.bucket p).matches h key len with
      | true => simp
      | false =>
          by_cases hn : (ht.bucket p).next = nil32
          · have hnil : t = [] := Chain.eq_nil_of_head (by rw [nextOf, hn] at ht'; exact ht')
            simp [hn, hnil]
          · simpa [hn, nextOf] using ih ht' hn (by simpa using hf)

theorem Linked.find_spec (hl : ht.Linked) (g : ht.Geometry) {key : Bytes} {len : Nat}
    (hlen : len ≤ key.length) :
    ∃ r, efHashtableFindKey ht key len = some r ∧
      ∀ i, r = some i ↔ (ht.bucket i).Live ∧ (ht.bucket i).key = some ⟨key.take len⟩ := by
  obtain ⟨l, hc, hmem⟩ := hl.chain _ (g.slotOf_lt (hashFunc key len))
  have hlive : ∀ i ∈ l, (ht.bucket i).Live := fun i hi => ((hmem i).mp hi).1
  have hkey : ∀ i, (ht.bucket i).Live → (ht.bucket i).key = some ⟨key.take len⟩ → i ∈ l := by
    intro i hi hk
    refine (hmem i).mpr ⟨hi, ?_⟩
    obtain ⟨s, hs, hh, _⟩ := hl.live_key i hi
    rw [hs, Option.some.injEq] at hk
    rw [hh, hk, EfString.len, hashFunc_take]
  refine ⟨l.find? (fun i => (ht.bucket i).matches (hashFunc key len) key len), ?_, ?_⟩
  · unfold efHashtableFindKey
    simp only [g.hashEntry_eq]
    by_cases hp : ht.slotHead (ht.slotOf (hashFunc key len)) = nil32
    · rw [hp] at hc
      simp [hp, hc.eq_nil_of_head]
    · rw [if_neg hp]
      exact findLoop_eq hc hp (g.chain_length_le hc hlive)
  · intro i
    constructor
    · intro hi
      have hil := List.mem_of_find?_eq_some hi
      have hm := List.find?_some hi
      exact ⟨hlive i hil, (hl.matches_iff (hlive i hil) hlen).mp hm⟩
    · rintro ⟨hi, hk⟩
      have hsome : (l.find? (fun i => (ht.bucket i).matches (hashFunc key len) key len)).isSome := by
        rw [List.find?_isSome]
        exact ⟨i, hkey i hi hk, (hl.matches_iff hi hlen).mpr hk⟩
      obtain ⟨j, hj⟩ := Option.isSome_iff_exists.mp hsome
      have hjl := List.mem_of_find?_eq_some hj
      have hjm := List.find?_some hj
      have hjk := (hl.matches_iff (hlive j hjl) hlen).mp hjm
      rw [hj, hl.key_inj j i (hlive j hjl) hi (hjk.trans hk.symm)]

/-! ## Unlinking -/

def refAfter (offset : Int) (passed : List Nat) : IndexRef :=
  match passed.getLast? with
  | none => .slot offset
  | some j => .link j

theorem refAfter_append (offset : Int) (passed : List Nat) (j : Nat) :
    refAfter offset (passed ++ [j]) = .link j := by
  simp [refAfter]

/-- The walk of `ef_hashtable_remove_key` either finds no bucket of the key or
unlinks one, through the reference that precedes it in the chain. -/
theorem removeLoop_eq {h : UInt64} {key : Bytes} {len fuel p : Nat} {w : World V}
    {offset : Int} {l : List Nat} (passed : List Nat) (hc : Chain nil32 ht.nextOf p l) (hp : p ≠ nil32)
    (hf : l.length ≤ fuel) :
    (removeLoop ht h key len w fuel (refAfter offset passed) p = some (ht, w) ∧
      ∀ i ∈ l, (ht.bucket i).matches h key len = false) ∨
    ∃ l₁ i l₂, l = l₁ ++ i :: l₂ ∧ (ht.bucket i).matches h key len = true ∧
      removeLoop ht h key len w fuel (refAfter offset passed) p =
        some (efHashtableFreeBucket
          (ht.setRef (ht.nextOf i) (refAfter offset (passed ++ l₁))) i w) := by
  induction fuel generalizing p l passed with
  | zero =>
      obtain ⟨t, rfl, _⟩ := hc.exists_cons_of_head hp
      simp at hf
  | succ fuel ih =>
      obtain ⟨t, rfl, ht'⟩ := hc.exists_cons_of_head hp
      rw [removeLoop]
      cases hm : (ht.bucket p).matches h key len with
      | true => exact Or.inr ⟨[], p, t, rfl, hm, by simp [nextOf]⟩
      | false =>
          by_cases hn : (ht.bucket p).next = nil32
          · have hnil : t = [] := Chain.eq_nil_of_head (by rw [nextOf, hn] at ht'; exact ht')
            exact Or.inl ⟨by simp [hn], by simp [hnil, hm]⟩
          · have hrec := ih (passed ++ [p]) ht' hn (by simpa using hf)
            rw [refAfter_append] at hrec
            simp only [Bool.false_eq_true, if_false, hn]
            rcases hrec with ⟨he, hall⟩ | ⟨l₁, i, l₂, rfl, hi, he⟩
            · refine Or.inl ⟨he, ?_⟩
              intro i hi
              rcases List.mem_cons.mp hi with rfl | hi
              · exact hm
              · exact hall i hi
            · exact Or.inr ⟨p :: l₁, i, l₂, rfl, hi, by simpa [nextOf] using he⟩

theorem setRef_fields (ht : Hashtable V) (index : Nat) (r : IndexRef) :
    (ht.setRef index r).cap = ht.cap ∧ (ht.setRef index r).sizemask = ht.sizemask ∧
      (ht.setRef index r).used = ht.used ∧ (ht.setRef index r).next = ht.next ∧
      (ht.setRef index r).removed = ht.removed ∧ (ht.setRef index r).valDtor = ht.valDtor ∧
      (ht.setRef index r).slots.length = ht.slots.length ∧
      (ht.setRef index r).arrData.length = ht.arrData.length := by
  cases r <;> simp [setRef, setHashEntry, setBucket]

/-- After the unlinking store every chain lists what it listed before, less the
unlinked bucket, and no bucket has changed anything but its link. -/
theorem Linked.unlink (hl : ht.Linked) (g : ht.Geometry) {h : UInt64} {l₁ l₂ : List Nat} {i : Nat}
    (hc : Chain nil32 ht.nextOf (ht.slotHead (ht.slotOf h)) (l₁ ++ i :: l₂))
    (hmem : ∀ k, k ∈ l₁ ++ i :: l₂ ↔ (ht.bucket k).Live ∧ ht.slotOf (ht.bucket k).h = ht.slotOf h) :
    (∀ t < ht.cap, ∃ l,
      Chain nil32 (ht.setRef (ht.nextOf i) (refAfter (ht.hashOffset h) l₁)).nextOf
        ((ht.setRef (ht.nextOf i) (refAfter (ht.hashOffset h) l₁)).slotHead t) l ∧
      ∀ k, k ∈ l ↔ ((ht.bucket k).Live ∧ ht.slotOf (ht.bucket k).h = t) ∧ k ≠ i) ∧
    ∀ k, (ht.setRef (ht.nextOf i) (refAfter (ht.hashOffset h) l₁)).bucket k =
        { ht.bucket k with
          next := (ht.setRef (ht.nextOf i) (refAfter (ht.hashOffset h) l₁)).nextOf k } ∧
      (k ∉ l₁ → (ht.setRef (ht.nextOf i) (refAfter (ht.hashOffset h) l₁)).nextOf k =
        ht.nextOf k) := by
  have hi := (hmem i).mp (by simp)
  -- a chain of another slot has no bucket of `l₁`, and does not have `i` either
  have hother : ∀ t < ht.cap, t ≠ ht.slotOf h → ∃ l, Chain nil32 ht.nextOf (ht.slotHead t) l ∧
      (∀ k ∈ l, k ∉ l₁) ∧
      ∀ k, k ∈ l ↔ ((ht.bucket k).Live ∧ ht.slotOf (ht.bucket k).h = t) ∧ k ≠ i := by
    intro t hlt hne
    obtain ⟨l, hchain, hm⟩ := hl.chain t hlt
    refine ⟨l, hchain, ?_, ?_⟩
    · intro k hk hk₁
      have := ((hmem k).mp (by simp [hk₁])).2
      exact hne (((hm k).mp hk).2.symm.trans this)
    · intro k
      rw [hm k]
      refine ⟨fun hk => ⟨hk, ?_⟩, fun hk => hk.1⟩
      rintro rfl
      exact hne (hk.2.symm.trans hi.2)
  have hrest : ∀ k, k ∈ l₁ ++ l₂ ↔
      ((ht.bucket k).Live ∧ ht.slotOf (ht.bucket k).h = ht.slotOf h) ∧ k ≠ i := by
    intro k
    have hnd := hc.nodup
    rw [List.nodup_middle, List.nodup_cons] at hnd
    rw [← hmem k]
    constructor
    · intro hk
      refine ⟨?_, fun he => hnd.1 (he ▸ hk)⟩
      rcases List.mem_append.mp hk with hk | hk <;> simp [hk]
    · rintro ⟨hk, hne⟩
      simpa [hne] using hk
  cases hlast : l₁.getLast? with
  | none =>
      obtain rfl : l₁ = [] := List.getLast?_eq_none_iff.mp hlast
      have hlt : ht.slotOf h < ht.slots.length := by
        rw [g.slots_length]
        exact g.slotOf_lt h
      have href : ht.setRef (ht.nextOf i) (refAfter (ht.hashOffset h) []) =
          { ht with slots := ht.slots.set (ht.slotOf h) (ht.nextOf i) } :=
        g.setHashEntry_eq h rfl _
      rw [href]
      refine ⟨?_, fun k => ⟨rfl, fun _ => rfl⟩⟩
      intro t ht'
      rw [slotHead_set hlt]
      by_cases hts : t = ht.slotOf h
      · subst hts
        rw [if_pos rfl]
        exact ⟨l₂, hc.2.2, by simpa using hrest⟩
      · rw [if_neg hts]
        obtain ⟨l, hchain, _, hm⟩ := hother t ht' hts
        exact ⟨l, hchain, hm⟩
  | some j =>
      obtain ⟨l₀, rfl⟩ := List.getLast?_eq_some_iff.mp hlast
      have hj : j < ht.arrData.length := lt_of_live ((hmem j).mp (by simp)).1
      have href : ht.setRef (ht.nextOf i) (refAfter (ht.hashOffset h) (l₀ ++ [j])) =
          ht.setBucket j { ht.bucket j with next := ht.nextOf i } := by
        rw [refAfter_append]
        rfl
      have hnext := nextOf_setBucket hj { ht.bucket j with next := ht.nextOf i }
      rw [href]
      refine ⟨?_, ?_⟩
      · intro t ht'
        change ∃ l, Chain nil32 _ (ht.slotHead t) l ∧ _
        rw [hnext]
        by_cases hts : t = ht.slotOf h
        · subst hts
          refine ⟨l₀ ++ j :: l₂, ?_, by simpa using hrest⟩
          exact Chain.unlink (by simpa using hc)
        · obtain ⟨l, hchain, hnot, hm⟩ := hother t ht' hts
          exact ⟨l, hchain.update_of_not_mem (fun hjl => hnot j hjl (by simp)), hm⟩
      · intro k
        rw [hnext, bucket_setBucket hj, Function.update_apply]
        by_cases hk : k = j
        · simp [hk]
        · simp [hk, nextOf]

end Hashtable

end EFramework
