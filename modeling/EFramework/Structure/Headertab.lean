import EFramework.Structure.Hashtable.Insert
import EFramework.Structure.Vector

/-! # Header tables of `structure/headertab.c`

A header table maps names to vectors of strings. The table keeps the vectors
themselves, so changing the vector found under a name changes the value of its
bucket.
-/

namespace EFramework

/-! ## Header tables -/

abbrev Headertab := Hashtable (EfVector EfString)

def efHeadertabNew (cap : Nat) (m : Heap) : Option Headertab × Heap :=
  efHashtableNew (EfVector EfString) cap true m

def efHeadertabFind (tb : Headertab) (key : Bytes) (len : Nat) :
    Option (Option (Nat × EfVector EfString)) :=
  match efHashtableFindKey tb key len with
  | none => none
  | some none => some none
  | some (some pb) =>
      match (tb.bucket pb).val with
      | none => some none
      | some vec => some (some (pb, vec))

/-- The last lines of `ef_headertab_set` and `ef_headertab_add`: a new vector for a
name that has none. -/
def headertabInsert (tb : Headertab) (key : Bytes) (klen : Nat) (str : EfString)
    (w : World (EfVector EfString)) :
    Option (Option EfString × Headertab × World (EfVector EfString)) :=
  match efVectorNew EfString 0 w.heap with
  | (none, m) => some (none, tb, { w with heap := m })
  | (some vec, m) =>
      match efVectorAppend vec str m with
      | none => none
      | some (idx, vec, m) =>
          if idx < 0 then some (none, tb, { w with heap := m })
          else
            match efHashtableSetKeyValue tb key klen (some vec) { w with heap := m } with
            | none => none
            | some (pb, tb, w) => some (if pb.isSome then some str else none, tb, w)

/-- What the two functions share; they differ in what they do first to a vector
that is already there. -/
def headertabPut (prepare : EfVector EfString → EfVector EfString) (tb : Headertab)
    (key : Bytes) (klen : Nat) (val : Bytes) (vlen : Nat) (w : World (EfVector EfString)) :
    Option (Option EfString × Headertab × World (EfVector EfString)) :=
  match efStringNew (some val) vlen w.heap with
  | (none, m) => some (none, tb, { w with heap := m })
  | (some str, m) =>
      match efHeadertabFind tb key klen with
      | none => none
      | some (some (pb, vec)) =>
          match efVectorAppend (prepare vec) str m with
          | none => none
          | some (idx, vec, m) =>
              some (if idx < 0 then none else some str,
                tb.setBucket pb { tb.bucket pb with val := some vec }, { w with heap := m })
      | some none => headertabInsert tb key klen str { w with heap := m }

def efHeadertabSet (tb : Headertab) (key : Bytes) (klen : Nat) (val : Bytes) (vlen : Nat)
    (w : World (EfVector EfString)) :
    Option (Option EfString × Headertab × World (EfVector EfString)) :=
  headertabPut efVectorClear tb key klen val vlen w

def efHeadertabAdd (tb : Headertab) (key : Bytes) (klen : Nat) (val : Bytes) (vlen : Nat)
    (w : World (EfVector EfString)) :
    Option (Option EfString × Headertab × World (EfVector EfString)) :=
  headertabPut id tb key klen val vlen w

/-- A name without a vector: its vector is refused for want of memory, or the table is
asked to store one that holds the string. -/
theorem headertabInsert_eq (tb : Headertab) (key : Bytes) (klen : Nat) (str : EfString)
    (w : World (EfVector EfString)) :
    ∃ m₁ : Heap, w.heap.failures ≤ m₁.failures ∧ (w.heap.Willing → w.heap.Granted m₁) ∧
      ((headertabInsert tb key klen str w = some (none, tb, { w with heap := m₁ }) ∧
          m₁.failures ≠ w.heap.failures) ∨
        ∃ vec, vec.items = [str] ∧ vec.Backed ∧ headertabInsert tb key klen str w =
          (efHashtableSetKeyValue tb key klen (some vec) { w with heap := m₁ }).map
            (fun out => (if out.1.isSome then some str else none, out.2))) := by
  have hfail₁ := w.heap.request_failures true
  have hgranted₁ := fun h : w.heap.Willing => h.request
  rcases hr₁ : w.heap.request true with ⟨ok₁, m₁⟩
  rw [hr₁] at hfail₁ hgranted₁
  have hnew := @efVectorNew_zero EfString w.heap
  rw [Heap.malloc, hr₁] at hnew
  unfold headertabInsert
  rw [hnew]
  cases ok₁ with
  | false =>
      have hmore : m₁.failures = w.heap.failures + 1 := hfail₁
      exact ⟨m₁, by omega, fun h => absurd (hgranted₁ h).1 (by simp), Or.inl ⟨rfl, by omega⟩⟩
  | true =>
      have hsame : m₁.failures = w.heap.failures := hfail₁
      have hfail₂ := m₁.request_failures true
      have hgranted₂ := fun h : m₁.Willing => h.request
      rcases hr₂ : m₁.request true with ⟨ok₂, m₂⟩
      rw [hr₂] at hfail₂ hgranted₂
      have hmalloc : m₁.mallocOf vectorGrowSize = (ok₂, m₂) := hr₂
      have happend := efVectorAppend_clear (⟨none, 0, []⟩ : EfVector EfString) str m₁
      rw [hmalloc] at happend
      change efVectorAppend ⟨none, 0, []⟩ str m₁ = _ at happend
      rw [if_pos rfl]
      dsimp only
      rw [happend]
      cases ok₂ with
      | false =>
          have hmore : m₂.failures = m₁.failures + 1 := hfail₂
          refine ⟨m₂, by omega, fun h => ?_, Or.inl ⟨rfl, by omega⟩⟩
          exact absurd (hgranted₂ (hgranted₁ h).2.willing).1 (by simp)
      | true =>
          have hsame₂ : m₂.failures = m₁.failures := hfail₂
          refine ⟨m₂, by omega,
            fun h => (hgranted₁ h).2.trans (hgranted₂ (hgranted₁ h).2.willing).2,
            Or.inr ⟨⟨some vectorGrowSize, vectorGrowSize, [str]⟩, rfl,
              fun _ => Option.some_ne_none _, ?_⟩⟩
          rw [if_pos rfl]
          dsimp only
          rw [if_neg (by decide)]
          cases efHashtableSetKeyValue tb key klen
            (some ⟨some vectorGrowSize, vectorGrowSize, [str]⟩) { w with heap := m₂ } <;> rfl

theorem Hashtable.Wf.headertabFind_cases {tb : Headertab} (wf : Hashtable.Wf tb) {key : Bytes}
    {klen : Nat} (hlen : klen ≤ key.length) :
    (efHeadertabFind tb key klen = some none ∧ ∀ vec, ¬ tb.Maps (key.take klen) (some vec)) ∨
      ∃ pb vec, efHeadertabFind tb key klen = some (some (pb, vec)) ∧ (tb.bucket pb).Live ∧
        (tb.bucket pb).key = some ⟨key.take klen⟩ ∧ (tb.bucket pb).val = some vec ∧
        tb.putName key klen = key.take klen := by
  obtain ⟨found, hfind, hfound⟩ := wf.linked.find_spec wf.geometry hlen
  unfold efHeadertabFind
  rw [hfind]
  cases found with
  | none =>
      refine Or.inl ⟨rfl, ?_⟩
      rintro vec ⟨i, hi, hik, _⟩
      exact absurd ((hfound i).mpr ⟨hi, hik⟩) (by simp)
  | some pb =>
      obtain ⟨hlive, hkey⟩ := (hfound pb).mp rfl
      dsimp only
      cases hval : (tb.bucket pb).val with
      | none =>
          refine Or.inl ⟨rfl, fun vec hv => ?_⟩
          have hnull := wf.linked.maps_unique hv ⟨pb, hlive, hkey, hval⟩
          cases hnull
      | some vec =>
          refine Or.inr ⟨pb, vec, rfl, hlive, hkey, hval, ?_⟩
          rw [Hashtable.putName, hfind, if_neg (by simp)]

/-! ## Filling keeps the table well formed -/

/-- A well-formed table whose values are strings that fit into memory. -/
structure Headertab.Wf (tb : Headertab) : Prop where
  table : Hashtable.Wf tb
  values : ∀ k vec, tb.Maps k (some vec) → ∀ s ∈ vec.items, s.len < 2 ^ 63

def Headertab.Backed (tb : Headertab) : Prop := ∀ k vec, tb.Maps k (some vec) → vec.Backed

namespace Headertab

variable {tb : Headertab}

/-- A table that maps names to `vec` or to what `tb` maps them to. -/
theorem Wf.of_maps {tb' : Headertab} (wf : tb.Wf) (htable : Hashtable.Wf tb')
    {vec : EfVector EfString} (hvec : ∀ s ∈ vec.items, s.len < 2 ^ 63)
    (hmaps : ∀ k v, tb'.Maps k v → v = some vec ∨ tb.Maps k v) : Headertab.Wf tb' := by
  refine ⟨htable, ?_⟩
  intro k vec' h s hs
  rcases hmaps k (some vec') h with hv | hold
  · rw [Option.some.inj hv] at hs
    exact hvec s hs
  · exact wf.values k vec' hold s hs

theorem Backed.of_maps {tb' : Headertab} (hb : tb.Backed) {vec : EfVector EfString}
    (hvec : vec.Backed) (hmaps : ∀ k v, tb'.Maps k v → v = some vec ∨ tb.Maps k v) :
    tb'.Backed := by
  intro k vec' h
  rcases hmaps k (some vec') h with hv | hold
  · rw [Option.some.inj hv]
    exact hvec
  · exact hb k vec' hold

/-- A call that came to an end. Vectors lose their blocks only when an allocation fails. -/
structure Filled (tb tb' : Headertab) (w w' : World (EfVector EfString)) : Prop where
  wf : Headertab.Wf tb'
  failures_le : w.heap.failures ≤ w'.heap.failures
  backed : w'.heap.failures = w.heap.failures → tb.Backed → tb'.Backed

variable {key : Bytes} {klen : Nat}

theorem Wf.insert_spec (wf : tb.Wf) (hpos : 0 < klen) (hlen : klen ≤ key.length)
    {str : EfString} (hstr : str.len < 2 ^ 63) (w : World (EfVector EfString)) :
    ∃ r tb' w', headertabInsert tb key klen str w = some (r, tb', w') ∧ Filled tb tb' w w' := by
  obtain ⟨m₁, hle₁, -, ⟨he, -⟩ | ⟨vec, hitems, hbacked, he⟩⟩ := headertabInsert_eq tb key klen str w
  · exact ⟨_, _, _, he, wf, hle₁, fun _ hb => hb⟩
  have hvec : ∀ s ∈ vec.items, s.len < 2 ^ 63 := by
    intro s hs
    rw [hitems] at hs
    rw [List.mem_singleton.mp hs]
    exact hstr
  obtain ⟨r, tb', w', hset, hwf, _, hcase, hle, _⟩ := wf.table.set_spec hpos hlen (some vec)
    { w with heap := m₁ }
  have hmaps : ∀ k v, tb'.Maps k v → v = some vec ∨ tb.Maps k v := by
    intro k v h
    rcases hcase with ⟨_, _, hmaps, _⟩ | ⟨i, _, hst, _⟩
    · exact Or.inr ((hmaps k v).mp h)
    · exact ((hst.maps_iff k v).mp h).imp And.right And.right
  rw [he, hset]
  exact ⟨_, _, _, rfl, wf.of_maps hwf hvec hmaps, Nat.le_trans hle₁ hle,
    fun _ hb => hb.of_maps hbacked hmaps⟩

/-- What a call makes of a well-formed table. It comes to an end, unless it stores through the
NULL pointer of the vector that it finds. -/
theorem Wf.put_spec (wf : tb.Wf) {prepare : EfVector EfString → EfVector EfString}
    (hprep : ∀ vec, ∀ s ∈ (prepare vec).items, s ∈ vec.items) (hpos : 0 < klen)
    (hlen : klen ≤ key.length) (val : Bytes) (vlen : Nat) (w : World (EfVector EfString)) :
    (∃ r tb' w', headertabPut prepare tb key klen val vlen w = some (r, tb', w') ∧
        Filled tb tb' w w') ∨
      (headertabPut prepare tb key klen val vlen w = none ∧
        ∃ k vec, tb.Maps k (some vec) ∧ ¬ (prepare vec).Backed) := by
  have hstr := efStringNew_eq_none_or val vlen w.heap
  have hle₁ := (efStringNew_failures val vlen w.heap).1
  unfold headertabPut
  generalize efStringNew (some val) vlen w.heap = out at hstr hle₁ ⊢
  obtain ⟨str, m⟩ := out
  rcases hstr with rfl | ⟨rfl, hbound⟩
  · exact Or.inl ⟨_, _, _, rfl, wf, hle₁, fun _ hb => hb⟩
  have hslen : (⟨val.take (stringLen val vlen)⟩ : EfString).len < 2 ^ 63 :=
    Nat.lt_of_le_of_lt (by simp [EfString.len]) hbound
  generalize (⟨val.take (stringLen val vlen)⟩ : EfString) = str at hslen ⊢
  dsimp only
  rcases wf.table.headertabFind_cases hlen with ⟨he, _⟩ | ⟨pb, vec, he, hlive, hkey, hval, -⟩
  · obtain ⟨r, tb', w', hi, hfilled⟩ :=
      wf.insert_spec hpos hlen hslen { w with heap := m }
    rw [he]
    exact Or.inl ⟨r, tb', w', hi, hfilled.wf, Nat.le_trans hle₁ hfilled.failures_le,
      fun hf => hfilled.backed (Nat.le_antisymm (Nat.le_trans (Nat.le_of_eq hf) hle₁)
        hfilled.failures_le)⟩
  have hown : tb.Maps (key.take klen) (some vec) := ⟨pb, hlive, hkey, hval⟩
  rw [he]
  dsimp only
  cases happend : efVectorAppend (prepare vec) str m with
  | none => exact Or.inr ⟨rfl, _, vec, hown, efVectorAppend_eq_none.mp happend⟩
  | some out =>
      obtain ⟨idx, vec', m₁⟩ := out
      obtain ⟨hcases, hle₂⟩ := efVectorAppend_cases happend
      obtain ⟨hwf, hst⟩ := wf.table.overwrite hlive hkey (some vec')
      have hmaps := fun k v h => ((hst.maps_iff k v).mp h).imp And.right And.right
      refine Or.inl ⟨_, _, _, rfl, wf.of_maps hwf (fun s hs => ?_) hmaps,
        Nat.le_trans hle₁ hle₂, fun hf hb => hb.of_maps (fun _ => ?_) hmaps⟩
      · rcases efVectorAppend_items happend hs with h | rfl
        · exact wf.values _ vec hown s (hprep vec s h)
        · exact hslen
      · rcases hcases with ⟨_, _, hne⟩ | ⟨_, hblock⟩
        · exact absurd (Nat.le_antisymm (Nat.le_trans (Nat.le_of_eq hf) hle₁) hle₂) hne
        · exact hblock

end Headertab

/-! ## Runs -/

inductive HeaderOp where
  | set (key : Bytes) (klen : Nat) (val : Bytes) (vlen : Nat)
  | add (key : Bytes) (klen : Nat) (val : Bytes) (vlen : Nat)
deriving Repr, DecidableEq

namespace HeaderOp

def Valid : HeaderOp → Prop
  | set key klen _ _ | add key klen _ _ => 0 < klen ∧ klen ≤ key.length

def exec (tb : Headertab) (w : World (EfVector EfString)) :
    HeaderOp → Option (Option EfString × Headertab × World (EfVector EfString))
  | set key klen val vlen => efHeadertabSet tb key klen val vlen w
  | add key klen val vlen => efHeadertabAdd tb key klen val vlen w

end HeaderOp

def headerRun : List HeaderOp → Headertab → World (EfVector EfString) →
    Option (Headertab × World (EfVector EfString))
  | [], tb, w => some (tb, w)
  | op :: ops, tb, w => do
      let (_, tb, w) ← op.exec tb w
      headerRun ops tb w

theorem Headertab.Wf.exec_spec {tb : Headertab} (wf : tb.Wf) {op : HeaderOp} (hv : op.Valid)
    (w : World (EfVector EfString)) :
    (∃ r tb' w', op.exec tb w = some (r, tb', w') ∧ Headertab.Filled tb tb' w w') ∨
      (op.exec tb w = none ∧ ¬ tb.Backed) := by
  cases op with
  | set key klen val vlen =>
      have hprep : ∀ vec, ∀ s ∈ (efVectorClear vec : EfVector EfString).items, s ∈ vec.items :=
        fun vec s hs => absurd hs List.not_mem_nil
      refine (wf.put_spec hprep hv.1 hv.2 val vlen w).imp id ?_
      rintro ⟨_, k, vec, _, hno⟩
      exact absurd (fun hroom => absurd hroom (Nat.lt_irrefl 0)) hno
  | add key klen val vlen =>
      refine (wf.put_spec (fun _ _ h => h) hv.1 hv.2 val vlen w).imp id ?_
      rintro ⟨he, k, vec, hmaps, hno⟩
      exact ⟨he, fun hb => hno (hb k vec hmaps)⟩

/-- No allocation fails in a run. -/
def FillGranted (ops : List HeaderOp) (tb : Headertab) (w : World (EfVector EfString)) : Prop :=
  ∀ pre tb₁ w₁, pre <+: ops → headerRun pre tb w = some (tb₁, w₁) →
    w₁.heap.failures = w.heap.failures

theorem headerRun_cons {op : HeaderOp} {ops : List HeaderOp} {tb tb₁ : Headertab}
    {w w₁ : World (EfVector EfString)} {r : Option EfString}
    (h : op.exec tb w = some (r, tb₁, w₁)) : headerRun (op :: ops) tb w = headerRun ops tb₁ w₁ := by
  rw [headerRun, h]
  rfl

/-- A run that comes to an end keeps the table well formed. It does come to an end when no
allocation fails. -/
theorem Headertab.Wf.run_spec {tb : Headertab} (wf : tb.Wf) {ops : List HeaderOp}
    (hops : ∀ op ∈ ops, op.Valid) (w : World (EfVector EfString)) :
    (∀ tb' w', headerRun ops tb w = some (tb', w') → Headertab.Wf tb') ∧
      (tb.Backed → FillGranted ops tb w → ∃ tb' w', headerRun ops tb w = some (tb', w')) := by
  induction ops generalizing tb w with
  | nil =>
      refine ⟨fun tb' w' h => ?_, fun _ _ => ⟨tb, w, rfl⟩⟩
      cases h
      exact wf
  | cons op ops ih =>
      rcases wf.exec_spec (hops op List.mem_cons_self) w with ⟨r, tb₁, w₁, he, hfilled⟩ | ⟨he, hno⟩
      · obtain ⟨hwf, hruns⟩ := ih hfilled.wf (fun op' h => hops op' (List.mem_cons_of_mem op h)) w₁
        rw [headerRun_cons he]
        refine ⟨hwf, fun hb hgranted => ?_⟩
        have hone : w₁.heap.failures = w.heap.failures :=
          hgranted [op] tb₁ w₁ (List.prefix_append [op] ops) (headerRun_cons he)
        refine hruns (hfilled.backed hone hb) (fun pre tb₂ w₂ hpre hrun => ?_)
        rw [hone]
        exact hgranted (op :: pre) tb₂ w₂ (List.prefix_cons_inj op |>.mpr hpre)
          ((headerRun_cons he).trans hrun)
      · refine ⟨fun tb' w' h => ?_, fun hb => absurd hb hno⟩
        rw [headerRun, he] at h
        cases h

theorem efHeadertabNew_wf {cap : Nat} (hcap : cap ≤ 2 ^ 31) {m m' : Heap} {tb : Headertab}
    (h : efHeadertabNew cap m = (some tb, m')) : Headertab.Wf tb ∧ tb.Backed := by
  obtain ⟨wf, _, _, hno⟩ := Hashtable.new_spec hcap true m h
  exact ⟨⟨wf, fun k vec hk => absurd hk (hno k _)⟩, fun k vec hk => absurd hk (hno k _)⟩

end EFramework
