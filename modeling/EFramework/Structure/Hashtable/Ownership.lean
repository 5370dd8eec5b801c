import EFramework.Structure.Hashtable.Refinement

/-! # Ownership of stored values

A run keeps two books: the value pointers stored by successful sets, and the
pointers handed to the destructor. When all pointers handed in are distinct,
every stored pointer is either in the map, under one key, or destroyed, and never
both. `ef_hashtable_free` moves the rest of the map to the destroyed side.
-/

namespace EFramework

variable {V : Type}

def HashOp.handed : HashOp V → Option V
  | .set _ _ val => val
  | _ => none

namespace HashCall

def stored : HashCall V → Option V
  | (.set _ _ val, .bucket (some _)) => val
  | _ => none

def refused : HashCall V → Option V
  | (.set _ _ val, .bucket none) => val
  | _ => none

theorem stored_or_refused (call : HashCall V) :
    (call.stored = call.1.handed ∧ call.refused = none) ∨
      (call.stored = none ∧ (call.refused = call.1.handed ∨ call.refused = none)) := by
  obtain ⟨op, ret⟩ := call
  cases op <;> rcases ret with (_ | _) | _ <;> simp [stored, refused, HashOp.handed]

theorem books_of_distinct {calls : List (HashCall V)}
    (h : (calls.filterMap (fun c => c.1.handed)).Nodup) :
    (calls.filterMap stored).Nodup ∧
      (∀ v ∈ calls.filterMap stored, v ∈ calls.filterMap (fun c => c.1.handed)) ∧
      (∀ v ∈ calls.filterMap refused, v ∈ calls.filterMap (fun c => c.1.handed)) ∧
      ∀ v ∈ calls.filterMap refused, v ∉ calls.filterMap stored := by
  induction calls with
  | nil => simp
  | cons call calls ih =>
      have hcons : ∀ f : HashCall V → Option V,
          (call :: calls).filterMap f = (f call).toList ++ calls.filterMap f := by
        intro f
        cases hf : f call <;> simp [hf]
      rw [hcons] at h
      obtain ⟨hhead, htail, hdisj⟩ := List.nodup_append.mp h
      obtain ⟨hnodup, hsub, hsub', hne⟩ := ih htail
      simp only [hcons, List.mem_append]
      rcases call.stored_or_refused with ⟨hs, hr⟩ | ⟨hs, hr | hr⟩
      · rw [hs, hr]
        refine ⟨List.nodup_append.mpr ⟨hhead, hnodup, fun v hv w hw => hdisj v hv w (hsub w hw)⟩,
          fun v hv => hv.imp_right (hsub v), fun v hv => Or.inr (hsub' v (by simpa using hv)), ?_⟩
        rintro v (hv | hv) (hv' | hv')
        · simp at hv
        · simp at hv
        · exact hdisj v hv' v (hsub' v hv) rfl
        · exact hne v hv hv'
      · rw [hs, hr]
        refine ⟨by simpa using hnodup, fun v hv => Or.inr (hsub v (by simpa using hv)),
          fun v hv => hv.imp_right (hsub' v), ?_⟩
        rintro v (hv | hv) (hv' | hv')
        · simp at hv'
        · exact hdisj v hv v (hsub v hv') rfl
        · simp at hv'
        · exact hne v hv hv'
      · rw [hs, hr]
        exact ⟨by simpa using hnodup, fun v hv => Or.inr (hsub v (by simpa using hv)),
          fun v hv => Or.inr (hsub' v (by simpa using hv)), by simpa using hne⟩

end HashCall

/-! ## The two books -/

structure Owned (m : KeyMap V) (destroyed stored : List V) : Prop where
  once : destroyed.Nodup
  account : ∀ v, v ∈ stored ↔ v ∈ destroyed ∨ ∃ k, m k = some (some v)
  dead : ∀ v ∈ destroyed, ∀ k, m k ≠ some (some v)
  one_key : ∀ k k' v, m k = some (some v) → m k' = some (some v) → k = k'

theorem Owned.start : Owned (fun _ : Bytes => (none : Option (Option V))) [] [] :=
  ⟨List.nodup_nil, by simp, by simp, by simp⟩

section Rebind

variable {m : KeyMap V} {destroyed stored : List V}

theorem Owned.rebind (o : Owned m destroyed stored) (k : Bytes) (x : Option (Option V))
    (hnew : ∀ v, x = some (some v) → v ∉ stored) :
    Owned (Function.update m k x) (destroyed ++ (m k).join.toList)
      (stored ++ x.join.toList) := by
  have hjoin : ∀ (y : Option (Option V)) v, v ∈ y.join.toList ↔ y = some (some v) := by
    intro y v
    rcases y with _ | _ | y <;> simp [eq_comm]
  have hat : ∀ k' v, Function.update m k x k' = some (some v) ↔
      (k' = k ∧ x = some (some v)) ∨ (k' ≠ k ∧ m k' = some (some v)) := by
    intro k' v
    rw [Function.update_apply]
    by_cases hk : k' = k <;> simp [hk]
  refine ⟨?_, ?_, ?_, ?_⟩
  · rw [List.nodup_append]
    refine ⟨o.once, ?_, ?_⟩
    · cases (m k).join <;> simp
    · rintro v hv _ hw rfl
      exact o.dead v hv k ((hjoin _ _).mp hw)
  · intro v
    simp only [List.mem_append, hjoin, o.account, hat]
    constructor
    · rintro ((h | ⟨k', h⟩) | h)
      · exact Or.inl (Or.inl h)
      · by_cases hk : k' = k
        · exact Or.inl (Or.inr (hk ▸ h))
        · exact Or.inr ⟨k', Or.inr ⟨hk, h⟩⟩
      · exact Or.inr ⟨k, Or.inl ⟨rfl, h⟩⟩
    · rintro ((h | h) | ⟨k', ⟨_, h⟩ | ⟨_, h⟩⟩)
      · exact Or.inl (Or.inl h)
      · exact Or.inl (Or.inr ⟨k, h⟩)
      · exact Or.inr h
      · exact Or.inl (Or.inr ⟨k', h⟩)
  · intro v hv k' hk'
    simp only [List.mem_append, hjoin] at hv
    rcases (hat k' v).mp hk' with ⟨_, hx⟩ | ⟨hne, hmk⟩
    · refine hnew v hx ((o.account v).mpr ?_)
      rcases hv with hv | hv
      · exact Or.inl hv
      · exact Or.inr ⟨k, hv⟩
    · rcases hv with hv | hv
      · exact o.dead v hv k' hmk
      · exact hne (o.one_key k' k v hmk hv)
  · intro k₁ k₂ v h₁ h₂
    rcases (hat k₁ v).mp h₁ with ⟨rfl, hx⟩ | ⟨_, hm₁⟩ <;>
      rcases (hat k₂ v).mp h₂ with ⟨rfl, hx'⟩ | ⟨_, hm₂⟩
    · rfl
    · exact absurd ((o.account v).mpr (Or.inr ⟨k₂, hm₂⟩)) (hnew v hx)
    · exact absurd ((o.account v).mpr (Or.inr ⟨k₁, hm₁⟩)) (hnew v hx')
    · exact o.one_key k₁ k₂ v hm₁ hm₂

/-- One call keeps the books, provided a pointer it stores is new. -/
theorem Owned.call (o : Owned m destroyed stored) (call : HashCall V)
    (hnew : ∀ v, call.stored = some v → v ∉ stored) :
    Owned (call.apply m) (destroyed ++ call.displaced true m)
      (stored ++ call.stored.toList) := by
  have hsame : Owned m (destroyed ++ []) (stored ++ []) := by simpa using o
  obtain ⟨op, ret⟩ := call
  cases op with
  | set key klen val =>
      rcases ret with (_ | pb) | ret
      · exact hsame
      · have h := o.rebind (key.take klen) (some val)
          (fun v hv => hnew v (by simpa [HashCall.stored] using hv))
        simpa [HashCall.apply, HashCall.displaced, HashCall.stored] using h
      · exact hsame
  | remove key klen =>
      have h := o.rebind (key.take klen) none (by simp)
      simpa [HashCall.apply, HashCall.displaced, HashCall.stored] using h
  | find key klen => exact hsame
  | resize cap => exact hsame

theorem Owned.calls (o : Owned m destroyed stored) (calls : List (HashCall V))
    (hnew : ∀ v ∈ calls.filterMap HashCall.stored, v ∉ stored)
    (hnodup : (calls.filterMap HashCall.stored).Nodup) :
    Owned (calls.foldl HashCall.apply m) (destroyed ++ displacedAll true m calls)
      (stored ++ calls.filterMap HashCall.stored) := by
  induction calls generalizing m destroyed stored with
  | nil => simpa [displacedAll] using o
  | cons call calls ih =>
      have hcons : (call :: calls).filterMap HashCall.stored =
          call.stored.toList ++ calls.filterMap HashCall.stored := by
        cases h : call.stored <;> simp [h]
      rw [hcons] at hnew hnodup ⊢
      have hstep := o.call call (fun v hv => hnew v (by simp [hv]))
      have hrest := ih hstep (fun v hv => ?_) (List.nodup_append.mp hnodup).2.1
      · rw [List.foldl_cons, displacedAll, ← List.append_assoc, ← List.append_assoc]
        exact hrest
      · rw [List.mem_append]
        rintro (h | h)
        · exact hnew v (by simp [hv]) h
        · exact (List.nodup_append.mp hnodup).2.2 v h v hv rfl

end Rebind

/-! ## The final sweep -/

namespace Hashtable

variable {ht : Hashtable V}

def sweptBelow (ht : Hashtable V) (n : Nat) : List V :=
  (List.range n).flatMap
    (fun i => if (ht.bucket i).Live ∧ ht.valDtor then (ht.bucket i).val.toList else [])

theorem freeBucket_frame (ht : Hashtable V) (i : Nat) (w : World V) :
    (efHashtableFreeBucket ht i w).1.valDtor = ht.valDtor ∧
      (∀ j, j ≠ i → (efHashtableFreeBucket ht i w).1.bucket j = ht.bucket j) ∧
      (efHashtableFreeBucket ht i w).2.destroyed = w.destroyed ++
        if (ht.bucket i).Live ∧ ht.valDtor then (ht.bucket i).val.toList else [] := by
  unfold efHashtableFreeBucket
  by_cases hi : (ht.bucket i).Live
  · have hlt := lt_of_live hi
    simp only [hi, if_true, true_and]
    refine ⟨rfl, ?_, World.destroyed_destroy w ht.valDtor (ht.bucket i).val⟩
    intro j hj
    have hb := bucket_setBucket hlt
      ⟨0, none, if ht.valDtor = true then none else (ht.bucket i).val, ht.removed⟩ j
    rw [if_neg hj] at hb
    exact hb
  · simp [hi]

/-- The sweep destroys the value of every live bucket, in bucket order. -/
theorem free_destroyed (ht : Hashtable V) (w : World V) :
    (efHashtableFree ht w).destroyed = w.destroyed ++ ht.sweptBelow ht.cap := by
  have hloop : ∀ n, ((List.range n).foldl
        (fun st idx => efHashtableFreeBucket st.1 idx st.2) (ht, w)).1.valDtor = ht.valDtor ∧
      (∀ j, n ≤ j → ((List.range n).foldl
        (fun st idx => efHashtableFreeBucket st.1 idx st.2) (ht, w)).1.bucket j = ht.bucket j) ∧
      ((List.range n).foldl
        (fun st idx => efHashtableFreeBucket st.1 idx st.2) (ht, w)).2.destroyed =
          w.destroyed ++ ht.sweptBelow n := by
    intro n
    induction n with
    | zero => simp [sweptBelow]
    | succ n ih =>
        obtain ⟨hdtor, hbucket, hdest⟩ := ih
        rw [List.range_succ, List.foldl_append, List.foldl_cons, List.foldl_nil]
        generalize (List.range n).foldl
          (fun st idx => efHashtableFreeBucket st.1 idx st.2) (ht, w) = st at hdtor hbucket hdest
        obtain ⟨fdtor, fbucket, fdest⟩ := freeBucket_frame st.1 n st.2
        refine ⟨fdtor.trans hdtor, ?_, ?_⟩
        · intro j hj
          rw [fbucket j (by omega), hbucket j (by omega)]
        · rw [fdest, hdest, hbucket n (Nat.le_refl n), hdtor, List.append_assoc]
          simp [sweptBelow, List.range_succ]
  exact (hloop ht.cap).2.2

theorem Wf.mem_sweptBelow (wf : ht.Wf) (hdtor : ht.valDtor = true) {m : KeyMap V}
    (hm : ht.Represents m) (v : V) :
    v ∈ ht.sweptBelow ht.cap ↔ ∃ k, m k = some (some v) := by
  simp only [sweptBelow, List.mem_flatMap, List.mem_range, hdtor, and_true]
  constructor
  · rintro ⟨i, _, hv⟩
    split at hv
    next hi =>
      obtain ⟨s, hs, _⟩ := wf.linked.live_key i hi
      exact ⟨s.str, (hm _ _).mpr ⟨i, hi, hs, by simpa using hv⟩⟩
    next => simp at hv
  · rintro ⟨k, hk⟩
    obtain ⟨i, hi, _, hiv⟩ := (hm _ _).mp hk
    refine ⟨i, ?_, by simp [hi, hiv]⟩
    rw [← wf.geometry.data_length]
    exact lt_of_live hi

theorem Wf.sweptBelow_nodup (wf : ht.Wf) {m : KeyMap V} (hm : ht.Represents m)
    (hone : ∀ k k' v, m k = some (some v) → m k' = some (some v) → k = k') (n : Nat) :
    (ht.sweptBelow n).Nodup := by
  have hkey : ∀ i v,
      v ∈ (if (ht.bucket i).Live ∧ ht.valDtor then (ht.bucket i).val.toList else []) →
      (ht.bucket i).Live ∧ ∃ k, (ht.bucket i).key = some ⟨k⟩ ∧ m k = some (some v) := by
    intro i v hv
    split at hv
    next hi =>
      obtain ⟨s, hs, _⟩ := wf.linked.live_key i hi.1
      exact ⟨hi.1, s.str, hs, (hm _ _).mpr ⟨i, hi.1, hs, by simpa using hv⟩⟩
    next => simp at hv
  rw [sweptBelow, List.nodup_flatMap]
  refine ⟨?_, ?_⟩
  · intro i _
    split
    · cases (ht.bucket i).val <;> simp
    · exact List.nodup_nil
  · refine List.nodup_range.imp ?_
    intro i j hij v hi hj
    obtain ⟨hil, k, hik, hmk⟩ := hkey i v hi
    obtain ⟨hjl, k', hjk, hmk'⟩ := hkey j v hj
    have hkk := hone k k' v hmk hmk'
    exact hij (wf.linked.key_inj i j hil hjl (by rw [hik, hjk, hkk]))

end Hashtable

/-! ## The whole life of a table -/

/-- With a destructor and distinct value pointers, a table destroys every stored
pointer exactly once between `ef_hashtable_new` and `ef_hashtable_free`, none
while a live bucket holds it, and none whose set returned NULL. The calls are
any, so the part about live buckets holds after every call of a longer run. -/
theorem hashtable_destroys_once {cap : Nat} (hcap : cap ≤ 2 ^ 31) {m m' : Heap}
    {ht : Hashtable V} (hnew : efHashtableNew V cap true m = (some ht, m'))
    {ops : List (HashOp V)} (hops : ∀ op ∈ ops, op.Valid)
    (hdistinct : (ops.filterMap HashOp.handed).Nodup) :
    ∃ calls ht' w', hashRun ops ht ⟨m', []⟩ = some (calls, ht', w') ∧ calls.map Prod.fst = ops ∧
      (∀ v ∈ w'.destroyed, ∀ i, (ht'.bucket i).Live → (ht'.bucket i).val ≠ some v) ∧
      (efHashtableFree ht' w').destroyed.Nodup ∧
      (∀ v, v ∈ (efHashtableFree ht' w').destroyed ↔ v ∈ calls.filterMap HashCall.stored) ∧
      ∀ v ∈ calls.filterMap HashCall.refused, v ∉ (efHashtableFree ht' w').destroyed := by
  obtain ⟨wf, hdtor, hm⟩ := Hashtable.new_represents hcap hnew
  obtain ⟨calls, ht', w', hrun, hcalls, wf', hdtor', hm', hw'⟩ := wf.run_spec hm hops ⟨m', []⟩
  rw [hdtor] at hw' hdtor'
  have hhanded : ops.filterMap HashOp.handed = calls.filterMap (fun c => c.1.handed) := by
    rw [← hcalls, List.filterMap_map]
    rfl
  rw [hhanded] at hdistinct
  obtain ⟨hnodup, _, _, hrefused⟩ := HashCall.books_of_distinct hdistinct
  have o := Owned.start.calls calls (by simp) hnodup
  simp only [List.nil_append] at o
  rw [List.nil_append] at hw'
  rw [← hw'] at o
  have hmem : ∀ v, v ∈ (efHashtableFree ht' w').destroyed ↔
      v ∈ calls.filterMap HashCall.stored := by
    intro v
    rw [Hashtable.free_destroyed, List.mem_append, wf'.mem_sweptBelow hdtor' hm', o.account]
  refine ⟨calls, ht', w', hrun, hcalls, ?_, ?_, hmem, ?_⟩
  · intro v hv i hi hval
    obtain ⟨s, hs, _⟩ := wf'.linked.live_key i hi
    exact o.dead v hv s.str ((hm' _ _).mpr ⟨i, hi, hs, hval⟩)
  · rw [Hashtable.free_destroyed, List.nodup_append]
    refine ⟨o.once, wf'.sweptBelow_nodup hm' o.one_key _, ?_⟩
    rintro v hv _ hw rfl
    obtain ⟨k, hk⟩ := (wf'.mem_sweptBelow hdtor' hm' v).mp hw
    exact o.dead v hv k hk
  · intro v hv hd
    exact hrefused v hv ((hmem v).mp hd)

/-- An overwritten, a removed and a remaining value, and one that is refused. -/
theorem hashtable_destroys_once_mixed :
    ∃ calls ht' w', hashRun
        [.set [97] 1 (some 5), .set [97] 1 (some 6), .remove [97] 1, .set [98] 1 (some 7),
          .set [99] 1 (some 8)]
        ⟨8, hashSizemask 8, 0, 0, nil32, true, List.replicate 8 nil32,
          List.replicate 8 (Bucket.zero Nat)⟩ ⟨⟨[true, true, true, true, false], 2, 0⟩, []⟩ =
          some (calls, ht', w') ∧
      (efHashtableFree ht' w').destroyed.Nodup ∧
      ∀ v, v ∈ (efHashtableFree ht' w').destroyed ↔ v ∈ calls.filterMap HashCall.stored := by
  have hnew : efHashtableNew Nat 8 true
        ⟨[true, true, true, true, true, true, false], 0, 0⟩ =
      (some ⟨8, hashSizemask 8, 0, 0, nil32, true, List.replicate 8 nil32,
        List.replicate 8 (Bucket.zero Nat)⟩, ⟨[true, true, true, true, false], 2, 0⟩) := rfl
  have hops : ∀ op ∈ [HashOp.set [97] 1 (some 5), .set [97] 1 (some 6), .remove [97] 1,
      .set [98] 1 (some 7), .set [99] 1 (some 8)], op.Valid := by
    simp [HashOp.Valid]
  obtain ⟨calls, ht', w', hrun, _, _, hnodup, hmem, _⟩ :=
    hashtable_destroys_once (show 8 ≤ 2 ^ 31 by decide) hnew hops (by decide)
  exact ⟨calls, ht', w', hrun, hnodup, hmem⟩

end EFramework
