import EFramework.Structure.Headertab
import EFramework.Structure.Stringtab

/-! # What a refused setter leaves behind

`ef_headertab_set` empties a vector before the append that may be refused, and
`ef_stringtab_set` of a NULL value frees that value when the key is refused. The
other paths undo nothing because they have changed nothing.
-/

namespace EFramework

open Hashtable

/-! ## Header tables -/

/-- The names are mapped to the same strings; capacities and blocks may differ. -/
def SameValues (tb tb' : Headertab) : Prop :=
  ∀ k l, (∃ v, tb'.Maps k v ∧ v.map EfVector.items = l) ↔
    ∃ v, tb.Maps k v ∧ v.map EfVector.items = l

theorem SameValues.of_maps {tb tb' : Headertab} (h : ∀ k v, tb'.Maps k v ↔ tb.Maps k v) :
    SameValues tb tb' := by
  intro k l
  constructor <;> rintro ⟨v, hv, hl⟩
  · exact ⟨v, (h k v).mp hv, hl⟩
  · exact ⟨v, (h k v).mpr hv, hl⟩

/-- A call has no fault, and either the name is mapped to `items` or the call returns
NULL and every name is mapped to what it was. -/
def HeaderAtomic (tb : Headertab) (name : Bytes) (items : List EfString)
    (out : Option (Option EfString × Headertab × World (EfVector EfString))) : Prop :=
  ∃ ret tb' w', out = some (ret, tb', w') ∧
    ((∃ vec, tb'.Maps name (some vec) ∧ vec.items = items) ∨ ret = none ∧ SameValues tb tb')

def headerItems (tb : Headertab) (key : Bytes) (klen : Nat) : List EfString :=
  match efHeadertabFind tb key klen with
  | some (some (_, vec)) => vec.items
  | _ => []

section

variable {tb : Headertab} {key : Bytes} {klen : Nat}

theorem headertabInsert_atomic (wf : Hashtable.Wf tb) (hlen : klen ≤ key.length) (str : EfString)
    (w : World (EfVector EfString)) :
    HeaderAtomic tb (tb.putName key klen) [str] (headertabInsert tb key klen str w) := by
  obtain ⟨m₁, _, _, ⟨he, _⟩ | ⟨vec, hitems, _, he⟩⟩ := headertabInsert_eq tb key klen str w
  · exact ⟨none, tb, _, he, Or.inr ⟨rfl, .of_maps fun _ _ => Iff.rfl⟩⟩
  · obtain ⟨r, tb', w', hset, hcases⟩ := wf.set_outcome hlen (some vec) { w with heap := m₁ }
    rw [he, hset]
    rcases hcases with ⟨rfl, _, hmaps⟩ | ⟨i, rfl, hmaps, _⟩
    · exact ⟨none, tb', w', rfl, Or.inr ⟨rfl, .of_maps hmaps⟩⟩
    · exact ⟨_, tb', w', rfl, Or.inl ⟨vec, hmaps, hitems⟩⟩

/-- A name that is found is in a live bucket, and goes by its own key. -/
theorem efHeadertabFind_bound (wf : Hashtable.Wf tb) (hlen : klen ≤ key.length) {pb : Nat}
    {vec : EfVector EfString} (h : efHeadertabFind tb key klen = some (some (pb, vec))) :
    (tb.bucket pb).Live ∧ (tb.bucket pb).key = some ⟨key.take klen⟩ ∧
      (tb.bucket pb).val = some vec ∧ tb.putName key klen = key.take klen := by
  rcases wf.headertabFind_cases hlen with ⟨he, _⟩ | ⟨pb', vec', he, hlive, hkey, hval, hname⟩
  · rw [he] at h
    cases h
  · rw [he] at h
    cases h
    exact ⟨hlive, hkey, hval, hname⟩

/-- The vector of a bound name is replaced by what the append makes of it. -/
theorem headertabPut_bound {prepare : EfVector EfString → EfVector EfString} {pb vlen : Nat}
    {vec : EfVector EfString} {val : Bytes} {str : EfString} {w : World (EfVector EfString)}
    {m : Heap} (hstr : efStringNew (some val) vlen w.heap = (some str, m))
    (hfind : efHeadertabFind tb key klen = some (some (pb, vec))) :
    headertabPut prepare tb key klen val vlen w =
      (efVectorAppend (prepare vec) str m).map (fun out =>
        (if out.1 < 0 then none else some str,
          tb.setBucket pb { tb.bucket pb with val := some out.2.1 }, { w with heap := out.2.2 })) := by
  unfold headertabPut
  rw [hstr]
  dsimp only
  rw [hfind]
  dsimp only
  cases efVectorAppend (prepare vec) str m <;> rfl

/-- If the append to the vector comes to an end, and the items of the vector survive the
preparation, the call is atomic. -/
theorem headertabPut_atomic (wf : Hashtable.Wf tb) (hlen : klen ≤ key.length)
    (prepare : EfVector EfString → EfVector EfString) (keep : List EfString → List EfString)
    (hprep : ∀ vec, (prepare vec).items = keep vec.items) (hempty : keep [] = [])
    (val : Bytes) (vlen : Nat) (w : World (EfVector EfString))
    (hkeep : ∀ str m, efStringNew (some val) vlen w.heap = (some str, m) →
      ∀ pb vec, efHeadertabFind tb key klen = some (some (pb, vec)) →
        ∃ idx vec' m', efVectorAppend (prepare vec) str m = some (idx, vec', m') ∧
          (keep vec.items = vec.items ∨ vec'.items = keep vec.items ++ [str])) :
    HeaderAtomic tb (tb.putName key klen)
      (keep (headerItems tb key klen) ++ [⟨val.take (stringLen val vlen)⟩])
      (headertabPut prepare tb key klen val vlen w) := by
  have hstr := efStringNew_eq_none_or val vlen w.heap
  generalize hnew : efStringNew (some val) vlen w.heap = out at hstr
  obtain ⟨str, m⟩ := out
  rcases hstr with rfl | ⟨rfl, _⟩
  · unfold headertabPut
    rw [hnew]
    exact ⟨_, _, _, rfl, Or.inr ⟨rfl, .of_maps fun _ _ => Iff.rfl⟩⟩
  obtain ⟨found, hfind, _⟩ := wf.linked.find_spec wf.geometry hlen
  have hret : ∃ r, efHeadertabFind tb key klen = some r := by
    unfold efHeadertabFind
    rw [hfind]
    cases found with
    | none => exact ⟨_, rfl⟩
    | some pb =>
        dsimp only
        split <;> exact ⟨_, rfl⟩
  obtain ⟨_ | ⟨pb, vec⟩, hr⟩ := hret
  · unfold headertabPut headerItems
    rw [hnew]
    dsimp only
    rw [hr]
    dsimp only
    rw [hempty]
    exact headertabInsert_atomic wf hlen _ _
  · obtain ⟨hlive, hkey, hval, hname⟩ := efHeadertabFind_bound wf hlen hr
    obtain ⟨idx, vec', m', happend, hkept⟩ := hkeep _ m hnew pb vec hr
    have hst := (wf.overwrite hlive hkey (some vec')).2
    rw [headertabPut_bound hnew hr, hname, headerItems, hr, happend]
    refine ⟨_, _, _, rfl, ?_⟩
    rcases (efVectorAppend_cases happend).1 with ⟨hidx, hitems, _⟩ | ⟨hitems, _⟩
    · rw [hprep] at hitems
      rcases hkept with hsame | hadded
      · refine Or.inr ⟨if_pos (by dsimp only; omega), fun k l => ?_⟩
        rw [hsame] at hitems
        have hown : tb.Maps (key.take klen) (some vec) := ⟨pb, hlive, hkey, hval⟩
        constructor
        · rintro ⟨v, hv, rfl⟩
          rcases (hst.maps_iff k v).mp hv with ⟨rfl, rfl⟩ | ⟨_, hold⟩
          · exact ⟨some vec, hown, congrArg some hitems.symm⟩
          · exact ⟨v, hold, rfl⟩
        · rintro ⟨v, hv, rfl⟩
          by_cases hk : k = key.take klen
          · subst hk
            rw [wf.linked.maps_unique hv hown]
            exact ⟨_, (hst.maps_iff _ _).mpr (Or.inl ⟨rfl, rfl⟩), congrArg some hitems⟩
          · exact ⟨v, (hst.maps_iff k v).mpr (Or.inr ⟨hk, hv⟩), rfl⟩
      · exact Or.inl ⟨_, (hst.maps_iff _ _).mpr (Or.inl ⟨rfl, rfl⟩), hadded⟩
    · rw [hprep] at hitems
      exact Or.inl ⟨_, (hst.maps_iff _ _).mpr (Or.inl ⟨rfl, rfl⟩), hitems⟩

/-- The name has values, the string for the new one is made, and the vector, emptied by
then, gets no block. -/
def SetLoses (tb : Headertab) (key : Bytes) (klen : Nat) (val : Bytes) (vlen : Nat) (m : Heap) :
    Prop :=
  ∃ pb vec str m', efHeadertabFind tb key klen = some (some (pb, vec)) ∧ vec.items ≠ [] ∧
    efStringNew (some val) vlen m = (some str, m') ∧ (m'.mallocOf vectorGrowSize).1 = false

theorem efHeadertabSet_atomic_iff (wf : Hashtable.Wf tb) (hlen : klen ≤ key.length) (val : Bytes)
    (vlen : Nat) (w : World (EfVector EfString)) :
    HeaderAtomic tb (tb.putName key klen) [⟨val.take (stringLen val vlen)⟩]
        (efHeadertabSet tb key klen val vlen w) ↔
      ¬ SetLoses tb key klen val vlen w.heap := by
  constructor
  · rintro ⟨ret, tb', w', he, hcases⟩ ⟨pb, vec, str, m, hr, hne, hnew, hfail⟩
    obtain ⟨hlive, hkey, hval, hname⟩ := efHeadertabFind_bound wf hlen hr
    have hown : tb.Maps (key.take klen) (some vec) := ⟨pb, hlive, hkey, hval⟩
    rw [efHeadertabSet, headertabPut_bound hnew hr, efVectorAppend_clear, hfail] at he
    cases he
    obtain ⟨wf', hst⟩ := wf.overwrite hlive hkey (some ⟨none, vectorGrowSize, []⟩)
    have hnow := (hst.maps_iff (key.take klen) _).mpr (Or.inl ⟨rfl, rfl⟩)
    rcases hcases with ⟨vec', hmaps, hitems⟩ | ⟨_, hsame⟩
    · rw [hname] at hmaps
      cases wf'.linked.maps_unique hmaps hnow
      cases hitems
    · obtain ⟨v, hv, hl⟩ := (hsame (key.take klen) (some vec.items)).mpr ⟨_, hown, rfl⟩
      rw [wf'.linked.maps_unique hv hnow, Option.map_some, Option.some.injEq] at hl
      exact hne hl.symm
  · intro hno
    refine headertabPut_atomic wf hlen efVectorClear (fun _ => []) (fun _ => rfl) rfl val vlen w ?_
    intro str m hnew pb vec hr
    refine ⟨_, _, _, efVectorAppend_clear vec str m, ?_⟩
    by_cases hne : vec.items = []
    · exact Or.inl hne.symm
    · refine Or.inr ?_
      cases hok : (m.mallocOf vectorGrowSize).1 with
      | true => rfl
      | false => exact absurd ⟨pb, vec, str, m, hr, hne, hnew, hok⟩ hno

/-- The string for the new value is made, and the vector of the name has lost its block. -/
def AddStoresNull (tb : Headertab) (key : Bytes) (klen : Nat) (val : Bytes) (vlen : Nat) (m : Heap) :
    Prop :=
  ∃ pb vec str m', efHeadertabFind tb key klen = some (some (pb, vec)) ∧ ¬ vec.Backed ∧
    efStringNew (some val) vlen m = (some str, m')

theorem efHeadertabAdd_atomic_iff (wf : Hashtable.Wf tb) (hlen : klen ≤ key.length) (val : Bytes)
    (vlen : Nat) (w : World (EfVector EfString)) :
    HeaderAtomic tb (tb.putName key klen)
        (headerItems tb key klen ++ [⟨val.take (stringLen val vlen)⟩])
        (efHeadertabAdd tb key klen val vlen w) ↔
      ¬ AddStoresNull tb key klen val vlen w.heap := by
  constructor
  · rintro ⟨ret, tb', w', he, -⟩ ⟨pb, vec, str, m, hr, hlost, hnew⟩
    have hnone : efVectorAppend (id vec) str m = none := efVectorAppend_eq_none.mpr hlost
    rw [efHeadertabAdd, headertabPut_bound hnew hr, hnone] at he
    cases he
  · intro hno
    refine headertabPut_atomic wf hlen id id (fun _ => rfl) rfl val vlen w ?_
    intro str m hnew pb vec hr
    obtain ⟨⟨idx, vec', m'⟩, happend⟩ := Option.ne_none_iff_exists'.mp
      (fun hnone => hno ⟨pb, vec, str, m, hr, efVectorAppend_eq_none.mp hnone, hnew⟩)
    exact ⟨idx, vec', m', happend, Or.inl rfl⟩

end

/-! ## String tables -/

/-- A call frees no NULL pointer, and either the name is mapped to the value or the call
returns NULL and the map is what it was. -/
def StringAtomic (tb : Stringtab) (name : Bytes) (v : Option EfString)
    (out : Option (Option (Option EfString × Stringtab) × World EfString)) : Prop :=
  ∃ ret tb' w', out = some (some (ret, tb'), w') ∧
    (tb'.Maps name v ∨ ret = none ∧ ∀ k v, tb'.Maps k v ↔ tb.Maps k v)

/-- The key is bound, or there is a bucket for it and it can be copied. -/
def NameFits {V : Type} (ht : Hashtable V) (key : Bytes) (klen : Nat) (m : Heap) : Prop :=
  efHashtableFindKey ht key klen ≠ some none ∨
    ∃ pb ht' m', allocBucket 2 ht m = some (some pb, ht', m') ∧
      (efStringNew (some key) klen m').1 ≠ none

section

variable {tb : Stringtab} {key : Bytes} {klen : Nat}

theorem efStringtabSet_atomic (wf : Hashtable.Wf tb) (hlen : klen ≤ key.length) (val : Bytes)
    (vlen : Nat) (w : World EfString) :
    StringAtomic tb (tb.putName key klen) (some ⟨val.take (stringLen val vlen)⟩)
      (efStringtabSet tb key klen (some val) vlen w) := by
  have hstr := efStringNew_eq_none_or val vlen w.heap
  unfold efStringtabSet
  dsimp only
  generalize efStringNew (some val) vlen w.heap = out at hstr
  obtain ⟨str, m⟩ := out
  rcases hstr with rfl | ⟨rfl, _⟩
  · rw [if_pos ⟨rfl, by simp⟩]
    exact ⟨none, tb, _, rfl, Or.inr ⟨rfl, fun _ _ => Iff.rfl⟩⟩
  obtain ⟨r, tb', w', he, hcases⟩ := wf.set_outcome hlen
    (some (⟨val.take (stringLen val vlen)⟩ : EfString)) { w with heap := m }
  rw [if_neg (by simp), he]
  rcases hcases with ⟨rfl, _, hmaps⟩ | ⟨i, rfl, hmaps, _⟩
  · exact ⟨none, tb', w', by simp, Or.inr ⟨rfl, hmaps⟩⟩
  · exact ⟨_, tb', w', rfl, Or.inl hmaps⟩

theorem set_refused_iff {V : Type} {ht : Hashtable V} (wf : ht.Wf) (hlen : klen ≤ key.length)
    (val : Option V) (w : World V) :
    (∃ ht' w', efHashtableSetKeyValue ht key klen val w = some (none, ht', w')) ↔
      ¬ NameFits ht key klen w.heap := by
  obtain ⟨found, hfind, hfound⟩ := wf.linked.find_spec wf.geometry hlen
  unfold NameFits
  rw [hfind]
  cases found with
  | some i =>
      obtain ⟨hi, hik⟩ := (hfound i).mp rfl
      rw [wf.set_bound hlen hi hik]
      simp
  | none =>
      have hno : ∀ v, ¬ ht.Maps (key.take klen) v := by
        rintro v ⟨i, hi, hik, _⟩
        exact absurd ((hfound i).mpr ⟨hi, hik⟩) (by simp)
      obtain ⟨r, ht₁, m₁, ha, hcases, _⟩ := wf.set_unbound hlen hno val w
      rcases hcases with ⟨rfl, _, he⟩ | ⟨pb, rfl, hres, he⟩
      · rw [he, ha]
        simp
      · rw [he, ha]
        unfold fillBucket
        cases hs : efStringNew (some key) klen m₁ with
        | mk s m₂ => cases s <;> simp [hs]

/-- The NULL value of a refused name is what `ef_string_free` is given. -/
theorem efStringtabSet_null_atomic_iff (wf : Hashtable.Wf tb) (hlen : klen ≤ key.length)
    (vlen : Nat) (w : World EfString) :
    StringAtomic tb (tb.putName key klen) none (efStringtabSet tb key klen none vlen w) ↔
      NameFits tb key klen w.heap := by
  obtain ⟨r, tb', w', he, hcases⟩ := wf.set_outcome hlen none w
  have hrefused := set_refused_iff wf hlen none w
  unfold efStringtabSet
  dsimp only
  rw [if_neg (by simp), he]
  rcases hcases with ⟨rfl, _, _⟩ | ⟨i, rfl, hmaps, _⟩
  · constructor
    · rintro ⟨_, _, _, hout, _⟩
      cases hout
    · intro hfits
      exact absurd hfits (hrefused.mp ⟨tb', w', he⟩)
  · constructor
    · intro _
      by_contra hno
      obtain ⟨_, _, he'⟩ := hrefused.mpr hno
      rw [he] at he'
      cases he'
    · intro _
      exact ⟨_, tb', w', rfl, Or.inl hmaps⟩

end

/-! ## The setters together -/

/-- `ef_stringtab_set` of a value is atomic for every pattern of failures, and that of NULL
exactly when the name fits. `ef_headertab_set` is atomic unless it empties a vector whose append
is then refused, and `ef_headertab_add` unless the vector has lost its block in that way. -/
theorem setters_atomic {tb : Headertab} (wf : Hashtable.Wf tb) {st : Stringtab}
    (wfs : Hashtable.Wf st) {key : Bytes} {klen : Nat} (hlen : klen ≤ key.length) (val : Bytes)
    (vlen : Nat) (w : World (EfVector EfString)) (ws : World EfString) :
    (HeaderAtomic tb (tb.putName key klen) [⟨val.take (stringLen val vlen)⟩]
        (efHeadertabSet tb key klen val vlen w) ↔ ¬ SetLoses tb key klen val vlen w.heap) ∧
      (HeaderAtomic tb (tb.putName key klen)
          (headerItems tb key klen ++ [⟨val.take (stringLen val vlen)⟩])
          (efHeadertabAdd tb key klen val vlen w) ↔ ¬ AddStoresNull tb key klen val vlen w.heap) ∧
      StringAtomic st (st.putName key klen) (some ⟨val.take (stringLen val vlen)⟩)
        (efStringtabSet st key klen (some val) vlen ws) ∧
      (StringAtomic st (st.putName key klen) none (efStringtabSet st key klen none vlen ws) ↔
        NameFits st key klen ws.heap) :=
  ⟨efHeadertabSet_atomic_iff wf hlen val vlen w, efHeadertabAdd_atomic_iff wf hlen val vlen w,
    efStringtabSet_atomic wfs hlen val vlen ws, efStringtabSet_null_atomic_iff wfs hlen vlen ws⟩

/-- Two new tables, and a name that is not in them. -/
theorem setters_atomic_new :
    HeaderAtomic (smallest _ true) [97] [⟨[120]⟩]
      (efHeadertabAdd (smallest _ true) [97] 1 [120] 1
        ⟨⟨[true, true, true, false], 0, 0⟩, []⟩) :=
  (@setters_atomic _ (smallest_wf _ true) _ (smallest_wf _ true) [97] 1 (by decide) [120] 1
    ⟨⟨[true, true, true, false], 0, 0⟩, []⟩ ⟨⟨[], 0, 0⟩, []⟩).2.1.mpr (by
      rintro ⟨_, _, _, _, hfind, _⟩
      cases hfind)

/-- A header set twice, the second time without memory for the vector: its value is gone, and an
add to what is left stores through NULL. A NULL string set without memory for its name: NULL is
freed. -/
theorem setters_atomic_refused :
    (∃ tb : Headertab, Hashtable.Wf tb ∧
      efHeadertabFind tb [97] 1 = some (some (0, ⟨some 8, 8, [⟨[120]⟩]⟩)) ∧
      (∃ tb' w', efHeadertabSet tb [97] 1 [121] 1 ⟨⟨[true, true, false], 0, 0⟩, []⟩ =
          some (none, tb', w') ∧
        efHeadertabFind tb' [97] 1 = some (some (0, ⟨none, 8, []⟩)) ∧
        efHeadertabAdd tb' [97] 1 [121] 1 ⟨⟨[], 0, 0⟩, []⟩ = none) ∧
      ¬ HeaderAtomic tb (tb.putName [97] 1) [⟨[121]⟩]
        (efHeadertabSet tb [97] 1 [121] 1 ⟨⟨[true, true, false], 0, 0⟩, []⟩)) ∧
    (∃ w', efStringtabSet (smallest _ true) [97] 1 none 0 ⟨⟨[false], 0, 0⟩, []⟩ =
      some (none, w')) ∧
    ¬ StringAtomic (smallest _ true) [97] none
      (efStringtabSet (smallest _ true) [97] 1 none 0 ⟨⟨[false], 0, 0⟩, []⟩) := by
  refine ⟨?_, ⟨_, rfl⟩, ?_⟩
  · obtain ⟨r, tb, w, he, hfind, tb', w', he', hfind'⟩ : ∃ r tb w,
        efHeadertabSet (smallest _ true) [97] 1 [120] 1 ⟨⟨[], 0, 0⟩, []⟩ = some (r, tb, w) ∧
        efHeadertabFind tb [97] 1 = some (some (0, ⟨some 8, 8, [⟨[120]⟩]⟩)) ∧
        ∃ tb' w', efHeadertabSet tb [97] 1 [121] 1 ⟨⟨[true, true, false], 0, 0⟩, []⟩ =
            some (none, tb', w') ∧
          efHeadertabFind tb' [97] 1 = some (some (0, ⟨none, 8, []⟩)) ∧
          efHeadertabAdd tb' [97] 1 [121] 1 ⟨⟨[], 0, 0⟩, []⟩ = none :=
      ⟨_, _, _, rfl, by decide +kernel, _, _, rfl, by decide +kernel, by decide +kernel⟩
    have hnew : Headertab.Wf (smallest _ true) :=
      (efHeadertabNew_wf (show 8 ≤ 2 ^ 31 by decide) (new_smallest _ true)).1
    have wf : Hashtable.Wf tb := by
      have hvalid : HeaderOp.Valid (.set [97] 1 [120] 1) := ⟨by decide, by decide⟩
      rcases hnew.exec_spec hvalid ⟨⟨[], 0, 0⟩, []⟩ with ⟨_, _, _, hput, hfilled⟩ | ⟨hput, _⟩ <;>
        rw [HeaderOp.exec, he] at hput <;> cases hput
      exact hfilled.wf.table
    refine ⟨tb, wf, hfind, ⟨tb', w', he', hfind'⟩, fun hat => ?_⟩
    exact (efHeadertabSet_atomic_iff wf (by decide) [121] 1 _).mp hat
      ⟨0, _, ⟨[121]⟩, ⟨[false], 2, 0⟩, hfind, by simp, rfl, rfl⟩
  · rintro ⟨_, _, _, hout, _⟩
    cases hout

end EFramework
