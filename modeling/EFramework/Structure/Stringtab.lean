import EFramework.Structure.Hashtable.Refinement

/-! # String tables of `structure/stringtab.c`

A string table maps byte strings to strings. A value may be NULL, which
`ef_stringtab_find` cannot tell from an absent key.
-/

namespace EFramework

abbrev Stringtab := Hashtable EfString

def efStringtabNew (cap : Nat) (m : Heap) : Option Stringtab × Heap :=
  efHashtableNew EfString cap true m

def efStringtabFind (tb : Stringtab) (key : Bytes) (len : Nat) : Option (Option EfString) := do
  let pb ← efHashtableFindKey tb key len
  pure (pb.bind (fun pb => (tb.bucket pb).val))

/-- The inner `none` is `ef_string_free` of a NULL pointer, which dereferences it. -/
def efStringtabSet (tb : Stringtab) (key : Bytes) (klen : Nat) (val : Option Bytes) (vlen : Nat)
    (w : World EfString) : Option (Option (Option EfString × Stringtab) × World EfString) :=
  let (str, m) :=
    match val with
    | some p => efStringNew (some p) vlen w.heap
    | none => (none, w.heap)
  if str = none ∧ val ≠ none then some (some (none, tb), { w with heap := m })
  else
    match efHashtableSetKeyValue tb key klen str { w with heap := m } with
    | none => none
    | some (none, tb, w) => some (if str = none then none else some (none, tb), w)
    | some (some pb, tb, w) => some (some ((tb.bucket pb).val, tb), w)

/-! ## A willing allocator -/

theorem efStringtabSet_granted {tb : Stringtab} {key : Bytes} {klen : Nat} {val : Option Bytes}
    {vlen : Nat} {w w' : World EfString} {out : Option (Option EfString × Stringtab)}
    (h : w.heap.Willing) (hkey : stringLen key klen < 2 ^ 62)
    (hval : ∀ p, val = some p → stringLen p vlen < 2 ^ 62)
    (he : efStringtabSet tb key klen val vlen w = some (out, w')) : w.heap.Granted w'.heap := by
  have hstr : w.heap.Granted (match val with
      | some p => efStringNew (some p) vlen w.heap
      | none => (none, w.heap)).2 := by
    cases val with
    | none => exact h.refl
    | some p => exact efStringNew_granted h (by have := hval p rfl; omega)
  unfold efStringtabSet at he
  generalize (match val with
      | some p => efStringNew (some p) vlen w.heap
      | none => (none, w.heap)) = r at he hstr
  obtain ⟨str, m⟩ := r
  dsimp only at he hstr
  split at he
  · cases he
    exact hstr
  · split at he
    · cases he
    next hset =>
      cases he
      exact hstr.trans (efHashtableSetKeyValue_granted
        (w := { w with heap := m }) hstr.willing (by omega) hset)
    next hset =>
      cases he
      exact hstr.trans (efHashtableSetKeyValue_granted
        (w := { w with heap := m }) hstr.willing (by omega) hset)

namespace Stringtab

variable {tb : Stringtab} {m : KeyMap EfString}

theorem new_spec (m : Heap) :
    m.failures ≤ (efStringtabNew 0 m).2.failures ∧
      ((efStringtabNew 0 m).2.failures = m.failures → (efStringtabNew 0 m).1.isSome) ∧
      ∀ tb, (efStringtabNew 0 m).1 = some tb →
        Hashtable.Wf tb ∧ Hashtable.Represents tb (fun _ => none) := by
  have h₁ := m.request_failures true
  have h₂ := (m.request true).2.request_failures true
  refine ⟨?_, ?_, fun tb htb => ?_⟩
  · unfold efStringtabNew efHashtableNew allocHashData
    dsimp only [Heap.malloc]
    cases hb₁ : (m.request true).1 <;> cases hb₂ : ((m.request true).2.request true).1 <;>
      simp only [hb₁, hb₂, Bool.false_eq_true, if_false, if_true] at h₁ h₂ ⊢ <;> omega
  · unfold efStringtabNew efHashtableNew allocHashData
    dsimp only [Heap.malloc]
    cases hb₁ : (m.request true).1 <;> cases hb₂ : ((m.request true).2.request true).1 <;>
      simp only [hb₁, hb₂, Bool.false_eq_true, if_false, if_true] at h₁ h₂ ⊢ <;> intro he
    · omega
    · omega
    · omega
    · rfl
  · obtain ⟨wf, _, hm⟩ := Hashtable.new_represents (Nat.zero_le _)
      (show efHashtableNew EfString 0 true m = (some tb, (efStringtabNew 0 m).2) from
        Prod.ext htb rfl)
    exact ⟨wf, hm⟩

def storedValue (value : Bytes) : Option EfString := if value = [] then none else some ⟨value⟩

/-- The three outcomes of `ef_stringtab_set`: the value is stored, the key is refused
(for want of memory, or by a full table), or a NULL value of a refused key is freed. -/
theorem set_spec (wf : Hashtable.Wf tb) (hm : Hashtable.Represents tb m) {key value : Bytes}
    {klen : Nat} (hpos : 0 < klen) (hlen : klen ≤ key.length) (mem : Bytes)
    (hmem : mem.take value.length = value) (w : World EfString) :
    ∃ out w', efStringtabSet tb key klen (if value.length ≠ 0 then some mem else none) value.length
        w = some (out, w') ∧ w.heap.failures ≤ w'.heap.failures ∧
      ((∃ ret tb', out = some (ret, tb') ∧ Hashtable.Wf tb' ∧
          Hashtable.Represents tb'
            (Function.update m (key.take klen) (some (storedValue value)))) ∨
        (∃ ret, ∃ tb' : Stringtab, out = some (ret, tb') ∧ Hashtable.Wf tb' ∧
          Hashtable.Represents tb' m ∧ (w'.heap.failures = w.heap.failures →
            m (key.take klen) = none ∧ 2 ^ 31 ≤ tb.used ∧ value ≠ [])) ∨
        (out = none ∧ value = [] ∧ (w'.heap.failures = w.heap.failures →
            m (key.take klen) = none ∧ 2 ^ 31 ≤ tb.used))) := by
  have hset := fun str m' => wf.set_spec hpos hlen (str : Option EfString) { w with heap := m' }
  have habsent : (∀ v, ¬ tb.Maps (key.take klen) v) → m (key.take klen) = none := by
    intro h
    rcases hm.cases (key.take klen) with ⟨h', _⟩ | ⟨v, _, hv⟩
    · exact h'
    · exact absurd hv (h v)
  by_cases hv : value = []
  · -- a NULL value needs no memory of its own
    subst hv
    obtain ⟨r, tb', w', he, wf', _, hcase, hle, hok⟩ := hset none w.heap
    unfold efStringtabSet
    simp only [List.length_nil, ne_eq, not_true_eq_false, if_false, and_false]
    rw [he]
    rcases hcase with ⟨rfl, hno, hmaps, _⟩ | ⟨i, rfl, hst, _⟩
    · refine ⟨none, w', by simp, hle, Or.inr (Or.inr ⟨rfl, trivial, fun h => ⟨habsent hno, ?_⟩⟩)⟩
      by_contra hlt
      exact hok h (Or.inl (by omega)) rfl
    · exact ⟨_, w', rfl, hle, Or.inl ⟨_, tb', rfl, wf', hm.bind hst.maps_iff⟩⟩
  · have hne : value.length ≠ 0 := by simpa using hv
    have hstr := efStringNew_eq_none_or mem value.length w.heap
    obtain ⟨hle₁, hok₁⟩ := efStringNew_failures mem value.length w.heap
    rw [show stringLen mem value.length = value.length from if_neg hne, hmem] at hstr hok₁
    unfold efStringtabSet
    simp only [ne_eq, hne, not_false_eq_true, if_true]
    generalize efStringNew (some mem) value.length w.heap = out at hstr hle₁ hok₁ ⊢
    obtain ⟨str, m₁⟩ := out
    rcases hstr with rfl | ⟨rfl, _⟩
    · exact ⟨_, _, rfl, hle₁, Or.inr (Or.inl ⟨none, tb, rfl, wf, hm,
        fun h => absurd (hok₁ h) (by simp)⟩)⟩
    · obtain ⟨r, tb', w', he, wf', _, hcase, hle, hok⟩ := hset (some ⟨value⟩) m₁
      dsimp only at hle₁ he hle hok ⊢
      rw [he]
      rcases hcase with ⟨rfl, hno, hmaps, _⟩ | ⟨i, rfl, hst, _⟩
      · refine ⟨_, w', by simp, by omega, Or.inr (Or.inl ⟨none, tb', rfl, wf', hm.same hmaps,
          fun h => ⟨habsent hno, ?_, hv⟩⟩)⟩
        by_contra hlt
        exact hok (by omega) (Or.inl (by omega)) rfl
      · refine ⟨some ((tb'.bucket i).val, tb'), w', by simp, by omega,
          Or.inl ⟨_, tb', rfl, wf', ?_⟩⟩
        rw [storedValue, if_neg hv]
        exact hm.bind hst.maps_iff

end Stringtab

/-! ## The keys of a table -/

structure Keeps (tbl : Stringtab) (m : KeyMap EfString) (kept : Finset Bytes) : Prop where
  wf : Hashtable.Wf tbl
  represents : Hashtable.Represents tbl m
  keys : ∀ k, m k ≠ none ↔ k ∈ kept

theorem Keeps.used_eq {tbl : Stringtab} {m : KeyMap EfString} {kept : Finset Bytes}
    (h : Keeps tbl m kept) : tbl.used = kept.card := by
  have hset : {k | m k ≠ none} = (kept : Set Bytes) := by
    ext k
    exact h.keys k
  rw [h.wf.used_eq_ncard h.represents, hset, Set.ncard_coe_finset]

theorem Keeps.card_le {tbl : Stringtab} {m : KeyMap EfString} {kept : Finset Bytes}
    (h : Keeps tbl m kept) : kept.card ≤ 2 ^ 31 := by
  rw [← h.used_eq]
  exact h.wf.used_le_pow

theorem Keeps.stored {tbl tbl' : Stringtab} {m : KeyMap EfString} {kept : Finset Bytes}
    (h : Keeps tbl m kept) {key : Bytes} {val : Option EfString} (wf' : Hashtable.Wf tbl')
    (hm' : Hashtable.Represents tbl' (Function.update m key (some val))) :
    Keeps tbl' (Function.update m key (some val)) (insert key kept) := by
  refine ⟨wf', hm', fun k => ?_⟩
  rw [Finset.mem_insert, ← h.keys, Function.update_apply]
  by_cases hk : k = key <;> simp [hk]

theorem Keeps.not_mem {tbl : Stringtab} {m : KeyMap EfString} {kept : Finset Bytes}
    (h : Keeps tbl m kept) {key : Bytes} (habsent : m key = none) : key ∉ kept :=
  fun hin => (h.keys key).mpr hin habsent

theorem Keeps.set_string {tbl : Stringtab} {m : KeyMap EfString} {kept : Finset Bytes}
    (h : Keeps tbl m kept) {key : Bytes} {klen : Nat} (hkey : stringLen key klen = klen)
    (hlen : klen ≤ key.length) (val : Bytes) (vlen : Nat) (w : World EfString) :
    ∃ ret tbl' w', efStringtabSet tbl key klen (some val) vlen w = some (some (ret, tbl'), w') ∧
      w.heap.failures ≤ w'.heap.failures ∧
      (ret ≠ none ∧ Keeps tbl' (Function.update m (key.take klen)
            (some (some ⟨val.take (stringLen val vlen)⟩))) (insert (key.take klen) kept) ∧
          (tbl.removed = nil32 → tbl'.removed = nil32) ∨
        ret = none ∧ Keeps tbl' m kept ∧ (w'.heap.failures = w.heap.failures →
          key.take klen ∉ kept ∧ 2 ^ 31 ≤ kept.card)) := by
  have hstr := efStringNew_eq_none_or val vlen w.heap
  obtain ⟨hle₁, hok₁⟩ := efStringNew_failures val vlen w.heap
  unfold efStringtabSet
  dsimp only
  generalize efStringNew (some val) vlen w.heap = out at hstr hle₁ hok₁ ⊢
  obtain ⟨str, m₁⟩ := out
  dsimp only at hle₁ hok₁ ⊢
  rcases hstr with rfl | ⟨rfl, _⟩
  · rw [if_pos ⟨rfl, by simp⟩]
    exact ⟨none, tbl, _, rfl, hle₁, Or.inr ⟨rfl, h, fun hf => absurd (hok₁ hf) (by simp)⟩⟩
  · obtain ⟨r, tbl', w', he, wf', _, hcase, hle, hok⟩ := h.wf.set_string_spec hkey hlen
      (some (⟨val.take (stringLen val vlen)⟩ : EfString)) { w with heap := m₁ }
    rw [if_neg (by simp), he]
    dsimp only at hle hok
    rcases hcase with ⟨rfl, hno, hmaps, _⟩ | ⟨i, rfl, hst, _⟩
    · refine ⟨none, tbl', w', by simp, by omega, Or.inr ⟨rfl,
        ⟨wf', h.represents.same hmaps, h.keys⟩, fun hf => ⟨fun hin => ?_, ?_⟩⟩⟩
      · rcases h.represents.cases (key.take klen) with ⟨hnone, _⟩ | ⟨v, _, hv⟩
        · exact (h.keys _).mpr hin hnone
        · exact hno v hv
      · rw [← h.used_eq]
        by_contra hlt
        exact hok (by omega) (Or.inl (by omega)) rfl
    · refine ⟨_, tbl', w', rfl, by omega, Or.inl ⟨by simp [hst.val],
        h.stored wf' (h.represents.bind hst.maps_iff),
        fun hr => Hashtable.set_removed hr he⟩⟩

end EFramework
