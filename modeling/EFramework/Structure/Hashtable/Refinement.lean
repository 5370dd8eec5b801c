import EFramework.Structure.Hashtable.Insert

/-! # Runs of the hash table and the map they compute

A run is any finite sequence of calls on one table, threaded through one
allocator. The abstract state is a finite map from byte strings to pointers that
is updated from the call and its return value alone; the values displaced from
it are the ones the run hands to the destructor.
-/

namespace EFramework

variable {V : Type}

/-- Key arguments are the memory from the pointer on, with the length passed. -/
inductive HashOp (V : Type) where
  | set (key : Bytes) (klen : Nat) (val : Option V)
  | remove (key : Bytes) (klen : Nat)
  | find (key : Bytes) (klen : Nat)
  | resize (cap : Nat)
deriving Repr, DecidableEq

inductive HashRet where
  | bucket (pb : Option Nat)
  | int (ret : Int)
deriving Repr, DecidableEq

namespace HashOp

/-- Keys of length at least 1, capacities up to `2 ^ 31`. -/
def Valid : HashOp V → Prop
  | set key klen _ | remove key klen | find key klen => 0 < klen ∧ klen ≤ key.length
  | resize cap => cap ≤ 2 ^ 31

def exec (op : HashOp V) (ht : Hashtable V) (w : World V) :
    Option (HashRet × Hashtable V × World V) :=
  match op with
  | set key klen val => do
      let (pb, ht, w) ← efHashtableSetKeyValue ht key klen val w
      pure (.bucket pb, ht, w)
  | remove key klen => do
      let (ht, w) ← efHashtableRemoveKey ht key klen w
      pure (.int 0, ht, w)
  | find key klen => do
      let pb ← efHashtableFindKey ht key klen
      pure (.bucket pb, ht, w)
  | resize cap =>
      let (ret, ht, m) := efHashtableResize ht cap w.heap
      some (.int ret, ht, { w with heap := m })

end HashOp

abbrev HashCall (V : Type) := HashOp V × HashRet

def hashRun : List (HashOp V) → Hashtable V → World V →
    Option (List (HashCall V) × Hashtable V × World V)
  | [], ht, w => some ([], ht, w)
  | op :: ops, ht, w => do
      let (r, ht, w) ← op.exec ht w
      let (calls, ht, w) ← hashRun ops ht w
      pure ((op, r) :: calls, ht, w)

/-! ## The abstract map -/

abbrev KeyMap (V : Type) := Bytes → Option (Option V)

namespace HashCall

/-- A successful set binds its key, a remove unbinds it, and every other call, a
refused set or resize included, leaves the map alone. -/
def apply (m : KeyMap V) : HashCall V → KeyMap V
  | (.set key klen val, .bucket (some _)) => Function.update m (key.take klen) (some val)
  | (.remove key klen, _) => Function.update m (key.take klen) none
  | _ => m

/-- The value pointers a call takes out of the map, when they are to be destroyed. -/
def displaced (valDtor : Bool) (m : KeyMap V) : HashCall V → List V
  | (.set key klen _, .bucket (some _)) | (.remove key klen, _) =>
      if valDtor then (m (key.take klen)).join.toList else []
  | _ => []

end HashCall

def mapOf (calls : List (HashCall V)) : KeyMap V := calls.foldl HashCall.apply (fun _ => none)

def displacedAll (valDtor : Bool) : KeyMap V → List (HashCall V) → List V
  | _, [] => []
  | m, call :: calls => call.displaced valDtor m ++ displacedAll valDtor (call.apply m) calls

/-! ## One call -/

theorem World.destroyed_destroy (w : World V) (valDtor : Bool) (v : Option V) :
    (w.destroy valDtor v).destroyed = w.destroyed ++ if valDtor then v.toList else [] := by
  cases v with
  | none => simp [World.destroy]
  | some v => cases valDtor <;> simp [World.destroy]

namespace Hashtable

variable {ht ht' : Hashtable V} {m : KeyMap V}

theorem Represents.cases (hm : ht.Represents m) (k : Bytes) :
    (m k = none ∧ ∀ v, ¬ ht.Maps k v) ∨ ∃ v, m k = some v ∧ ht.Maps k v := by
  cases hk : m k with
  | none =>
      refine Or.inl ⟨rfl, fun v hv => ?_⟩
      rw [(hm k v).mpr hv] at hk
      simp at hk
  | some v => exact Or.inr ⟨v, rfl, (hm k v).mp hk⟩

theorem Represents.bind (hm : ht.Represents m) {k : Bytes} {x : Option V}
    (h : ∀ k' v, ht'.Maps k' v ↔ (k' = k ∧ v = x) ∨ (k' ≠ k ∧ ht.Maps k' v)) :
    ht'.Represents (Function.update m k (some x)) := by
  intro k' v
  rw [h, Function.update_apply]
  by_cases hk : k' = k
  · simp [hk, eq_comm]
  · simp [hk, hm k' v]

theorem Represents.unbind (hm : ht.Represents m) {k : Bytes}
    (h : ∀ k' v, ht'.Maps k' v ↔ k' ≠ k ∧ ht.Maps k' v) :
    ht'.Represents (Function.update m k none) := by
  intro k' v
  rw [h, Function.update_apply]
  by_cases hk : k' = k
  · simp [hk]
  · simp [hk, hm k' v]

theorem Represents.same (hm : ht.Represents m) (h : ∀ k v, ht'.Maps k v ↔ ht.Maps k v) :
    ht'.Represents m :=
  fun k v => (hm k v).trans (h k v).symm

/-- `ef_hashtable_find_key` reads the map. -/
theorem Wf.find_represents (wf : ht.Wf) (hm : ht.Represents m) {key : Bytes} {klen : Nat}
    (hlen : klen ≤ key.length) :
    (m (key.take klen) = none ∧ efHashtableFindKey ht key klen = some none) ∨
      ∃ v i, m (key.take klen) = some v ∧ efHashtableFindKey ht key klen = some (some i) ∧
        (ht.bucket i).key = some ⟨key.take klen⟩ ∧ (ht.bucket i).val = v := by
  obtain ⟨r, hr, hfound⟩ := wf.linked.find_spec wf.geometry hlen
  rcases hm.cases (key.take klen) with ⟨hk, hno⟩ | ⟨v, hk, i, hi, hik, hiv⟩
  · refine Or.inl ⟨hk, ?_⟩
    cases r with
    | none => exact hr
    | some i =>
        obtain ⟨hi, hik⟩ := (hfound i).mp rfl
        exact absurd ⟨i, hi, hik, rfl⟩ (hno _)
  · refine Or.inr ⟨v, i, hk, ?_, hik, hiv⟩
    rw [hr, (hfound i).mpr ⟨hi, hik⟩]

/-- Every valid call returns, keeps the invariant, and acts on the map as `apply` says. -/
theorem Wf.exec_spec (wf : ht.Wf) (hm : ht.Represents m) {op : HashOp V} (hv : op.Valid)
    (w : World V) :
    ∃ r ht' w', op.exec ht w = some (r, ht', w') ∧ ht'.Wf ∧ ht'.valDtor = ht.valDtor ∧
      ht'.Represents (HashCall.apply m (op, r)) ∧
      w'.destroyed = w.destroyed ++ HashCall.displaced ht.valDtor m (op, r) := by
  cases op with
  | set key klen val =>
      obtain ⟨r, ht', w', he, hwf, hdtor, hcases, _, _⟩ := wf.set_spec hv.1 hv.2 val w
      refine ⟨.bucket r, ht', w', by simp [HashOp.exec, he], hwf, hdtor, ?_⟩
      rcases hcases with ⟨rfl, _, hmaps, hw⟩ | ⟨i, rfl, hst, hold, hno⟩
      · exact ⟨hm.same hmaps, by simpa [HashCall.displaced] using hw⟩
      · refine ⟨hm.bind hst.maps_iff, ?_⟩
        rcases hm.cases (key.take klen) with ⟨hk, habsent⟩ | ⟨v, hk, hmap⟩
        · simp [HashCall.displaced, hk, hno habsent]
        · simp [HashCall.displaced, hk, hold v hmap, World.destroyed_destroy]
  | remove key klen =>
      obtain ⟨ht', w', he, hwf, hdtor, hmaps, hold, hno⟩ := wf.remove_spec hv.2 w
      refine ⟨.int 0, ht', w', by simp [HashOp.exec, he], hwf, hdtor, hm.unbind hmaps, ?_⟩
      rcases hm.cases (key.take klen) with ⟨hk, habsent⟩ | ⟨v, hk, hmap⟩
      · simp [HashCall.displaced, hk, hno habsent]
      · simp [HashCall.displaced, hk, hold v hmap, World.destroyed_destroy]
  | find key klen =>
      obtain ⟨r, hr, _⟩ := wf.linked.find_spec wf.geometry hv.2
      exact ⟨.bucket r, ht, w, by simp [HashOp.exec, hr], wf, rfl, hm,
        by simp [HashCall.displaced]⟩
  | resize cap =>
      obtain ⟨ret, ht', m', he, hcases, _, _⟩ := wf.resize_spec hv w.heap
      refine ⟨.int ret, ht', { w with heap := m' }, by simp [HashOp.exec, he], ?_⟩
      rcases hcases with ⟨rfl, rfl⟩ | ⟨rfl, r⟩
      · exact ⟨wf, rfl, hm, by simp [HashCall.displaced]⟩
      · exact ⟨r.wf, r.valDtor, hm.same r.maps_iff, by simp [HashCall.displaced]⟩

/-! ## Whole runs -/

theorem Wf.run_spec {ops : List (HashOp V)} (wf : ht.Wf) (hm : ht.Represents m)
    (hv : ∀ op ∈ ops, op.Valid) (w : World V) :
    ∃ calls ht' w', hashRun ops ht w = some (calls, ht', w') ∧ calls.map Prod.fst = ops ∧
      ht'.Wf ∧ ht'.valDtor = ht.valDtor ∧ ht'.Represents (calls.foldl HashCall.apply m) ∧
      w'.destroyed = w.destroyed ++ displacedAll ht.valDtor m calls := by
  induction ops generalizing ht m w with
  | nil => exact ⟨[], ht, w, rfl, rfl, wf, rfl, hm, by simp [displacedAll]⟩
  | cons op ops ih =>
      obtain ⟨r, ht₁, w₁, he, wf₁, hdtor₁, hm₁, hw₁⟩ := wf.exec_spec hm (hv op (by simp)) w
      obtain ⟨calls, ht₂, w₂, hrun, hops, wf₂, hdtor₂, hm₂, hw₂⟩ :=
        ih wf₁ hm₁ (fun o ho => hv o (by simp [ho])) w₁
      refine ⟨(op, r) :: calls, ht₂, w₂, by simp [hashRun, he, hrun], by simp [hops], wf₂,
        hdtor₂.trans hdtor₁, hm₂, ?_⟩
      rw [hw₂, hw₁, hdtor₁, displacedAll, List.append_assoc]

end Hashtable

theorem Hashtable.new_represents {ht : Hashtable V} {cap : Nat} (hcap : cap ≤ 2 ^ 31)
    {valDtor : Bool} {m m' : Heap} (hnew : efHashtableNew V cap valDtor m = (some ht, m')) :
    ht.Wf ∧ ht.valDtor = valDtor ∧ ht.Represents (fun _ => none) := by
  obtain ⟨wf, hdtor, _, hno⟩ := Hashtable.new_spec hcap valDtor m hnew
  exact ⟨wf, hdtor, fun k v => ⟨fun h => by simp at h, fun h => absurd h (hno k v)⟩⟩

/-- Whatever allocations fail, a table refines the finite map its calls describe:
the run returns, `find_key` answers from the map, `used` counts its keys, and the
representation is well formed. -/
theorem hashtable_refines_map {cap : Nat} (hcap : cap ≤ 2 ^ 31) {valDtor : Bool} {m m' : Heap}
    {ht : Hashtable V} (hnew : efHashtableNew V cap valDtor m = (some ht, m'))
    {ops : List (HashOp V)} (hops : ∀ op ∈ ops, op.Valid) :
    ∃ calls ht' w', hashRun ops ht ⟨m', []⟩ = some (calls, ht', w') ∧ calls.map Prod.fst = ops ∧
      (∀ key klen, 0 < klen → klen ≤ key.length →
        (mapOf calls (key.take klen) = none ∧ efHashtableFindKey ht' key klen = some none) ∨
        ∃ v i, mapOf calls (key.take klen) = some v ∧
          efHashtableFindKey ht' key klen = some (some i) ∧
          (ht'.bucket i).key = some ⟨key.take klen⟩ ∧ (ht'.bucket i).val = v) ∧
      ht'.used = {k | mapOf calls k ≠ none}.ncard ∧ ht'.Wf := by
  obtain ⟨wf, _, hm⟩ := Hashtable.new_represents hcap hnew
  obtain ⟨calls, ht', w', hrun, hcalls, wf', _, hm', _⟩ := wf.run_spec hm hops ⟨m', []⟩
  exact ⟨calls, ht', w', hrun, hcalls, fun key klen _ hlen => wf'.find_represents hm' hlen,
    wf'.used_eq_ncard hm', wf'⟩

/-- Two keys on one chain, of which the first is removed, and seven more keys: the last one
makes the table grow. -/
theorem hashtable_refines_map_grown :
    ∃ calls ht' w', hashRun ([.set [97] 1 (some 5), .set [105] 1 (some 6), .remove [97] 1] ++
        [98, 99, 100, 101, 102, 103, 104, 106].map (fun c => .set [c] 1 (some 7)))
        (Hashtable.smallest Nat false) ⟨⟨[], 2, 0⟩, []⟩ = some (calls, ht', w') ∧
      ht'.used = {k | mapOf calls k ≠ none}.ncard ∧ ht'.Wf ∧ ht'.cap = 16 ∧ ht'.used = 9 ∧
      ∃ i, efHashtableFindKey ht' [105] 1 = some (some i) ∧ (ht'.bucket i).val = some 6 := by
  have hops : ∀ op ∈ [HashOp.set [97] 1 (some 5), .set [105] 1 (some 6), .remove [97] 1] ++
      [98, 99, 100, 101, 102, 103, 104, 106].map (fun c => HashOp.set [c] 1 (some 7)),
      op.Valid := by
    simp [HashOp.Valid]
  obtain ⟨calls, ht', w', hrun, _, _, hused, hwf⟩ := hashtable_refines_map
    (show 8 ≤ 2 ^ 31 by decide) (Hashtable.new_smallest Nat false) hops
  have hfinal := congrArg (Option.map (fun r => (r.2.1.cap, r.2.1.used,
    (efHashtableFindKey r.2.1 [105] 1).map (Option.map (fun i => (r.2.1.bucket i).val))))) hrun
  have hcomputed : _ = some (16, 9, some (some (some 6))) := hfinal.symm.trans (by decide +kernel)
  rw [Option.map_some, Option.some.injEq, Prod.mk.injEq, Prod.mk.injEq] at hcomputed
  obtain ⟨hcap, hnine, hfind⟩ := hcomputed
  obtain ⟨r, hr, hval⟩ := Option.map_eq_some_iff.mp hfind
  obtain ⟨i, rfl, hi⟩ := Option.map_eq_some_iff.mp hval
  exact ⟨calls, ht', w', hrun, hused, hwf, hcap, hnine, i, hr, hi⟩

end EFramework
