import EFramework.Structure.Headertab
import EFramework.Structure.Hashtable.Refinement

/-! # Header tables as multimaps

The abstract state of a header table is the list of values of every name. A set
replaces the list, an add extends it and a remove clears it. Without failing
allocations a table stands for this map for as long as it is not full: `2 ^ 31`
names with values are the most it can hold.
-/

namespace EFramework

/-! ## The abstract map -/

abbrev HeaderMap := Bytes → List Bytes

def HeaderMap.names (m : HeaderMap) : Set Bytes := {k | m k ≠ []}

inductive MultimapCall where
  | put (op : HeaderOp)
  /-- `ef_headertab_remove`, which is `ef_hashtable_remove_key`. -/
  | remove (key : Bytes) (klen : Nat)
deriving Repr, DecidableEq

def HeaderOp.ValueFits : HeaderOp → Prop
  | set _ _ val vlen | add _ _ val vlen => 0 < vlen ∧ vlen ≤ val.length

namespace MultimapCall

def Valid : MultimapCall → Prop
  | put op => op.Valid ∧ op.ValueFits
  | remove key klen => 0 < klen ∧ klen ≤ key.length

def exec (s : Headertab × World (EfVector EfString)) :
    MultimapCall → Option (Headertab × World (EfVector EfString))
  | put op => (op.exec s.1 s.2).map Prod.snd
  | remove key klen => efHashtableRemoveKey s.1 key klen s.2

def apply (m : HeaderMap) : MultimapCall → HeaderMap
  | put (.set key klen val vlen) => Function.update m (key.take klen) [val.take vlen]
  | put (.add key klen val vlen) =>
      Function.update m (key.take klen) (m (key.take klen) ++ [val.take vlen])
  | remove key klen => Function.update m (key.take klen) []

def run (calls : List MultimapCall) (s : Headertab × World (EfVector EfString)) :
    Option (Headertab × World (EfVector EfString)) :=
  calls.foldlM exec s

theorem run_append (calls calls' : List MultimapCall) (s : Headertab × World (EfVector EfString)) :
    run (calls ++ calls') s = (run calls s).bind (run calls') := by
  rw [run, List.foldlM_append]
  rfl

/-- The values that a sequence of calls gives to the names. -/
def valuesOf (calls : List MultimapCall) : HeaderMap := calls.foldl apply (fun _ => [])

end MultimapCall

/-- `ef_headertab_find` answers from the map. -/
def FindsValues (tb : Headertab) (m : HeaderMap) : Prop :=
  ∀ key klen, klen ≤ key.length →
    (m (key.take klen) = [] ∧ efHeadertabFind tb key klen = some none) ∨
      (m (key.take klen) ≠ [] ∧ ∃ pb vec, efHeadertabFind tb key klen = some (some (pb, vec)) ∧
        vec.items.map EfString.str = m (key.take klen))

/-! ## What a table holds -/

/-- The names with values are those in the table, with a vector of the values. -/
structure Holds (tb : Headertab) (m : HeaderMap) : Prop where
  names : ∀ k, m k ≠ [] ↔ ∃ v, tb.Maps k v
  items : ∀ k v, tb.Maps k v → ∃ vec, v = some vec ∧ vec.items = (m k).map EfString.mk

def Rebinds (tb tb' : Headertab) (k : Bytes) (items : List EfString) : Prop :=
  ∃ vec, vec.items = items ∧
    ∀ k' v, tb'.Maps k' v ↔ (k' = k ∧ v = some vec) ∨ (k' ≠ k ∧ tb.Maps k' v)

section

variable {tb tb' : Headertab} {m : HeaderMap} {key : Bytes} {klen : Nat}

theorem Holds.same (h : Holds tb m) (hmaps : ∀ k v, tb'.Maps k v ↔ tb.Maps k v) : Holds tb' m :=
  ⟨fun k => (h.names k).trans (exists_congr fun v => (hmaps k v).symm),
    fun k v hv => h.items k v ((hmaps k v).mp hv)⟩

theorem Holds.rebind (h : Holds tb m) {k : Bytes} {l : List Bytes} (hl : l ≠ [])
    (hr : Rebinds tb tb' k (l.map EfString.mk)) : Holds tb' (Function.update m k l) := by
  obtain ⟨vec, hvec, hmaps⟩ := hr
  refine ⟨fun k' => ?_, fun k' v hv => ?_⟩
  · by_cases hk : k' = k
    · subst hk
      rw [Function.update_self]
      exact ⟨fun _ => ⟨some vec, (hmaps _ _).mpr (Or.inl ⟨rfl, rfl⟩)⟩, fun _ => hl⟩
    · rw [Function.update_of_ne hk, h.names]
      refine exists_congr fun v => ?_
      rw [hmaps]
      simp [hk]
  · rcases (hmaps k' v).mp hv with ⟨rfl, rfl⟩ | ⟨hk, hold⟩
    · exact ⟨vec, rfl, by rw [hvec, Function.update_self]⟩
    · rw [Function.update_of_ne hk]
      exact h.items k' v hold

theorem Holds.unbind (h : Holds tb m) {k : Bytes}
    (hmaps : ∀ k' v, tb'.Maps k' v ↔ k' ≠ k ∧ tb.Maps k' v) :
    Holds tb' (Function.update m k []) := by
  refine ⟨fun k' => ?_, fun k' v hv => ?_⟩
  · by_cases hk : k' = k
    · subst hk
      rw [Function.update_self]
      refine ⟨fun hne => absurd rfl hne, ?_⟩
      rintro ⟨v, hv⟩
      exact absurd rfl ((hmaps _ v).mp hv).1
    · rw [Function.update_of_ne hk, h.names]
      refine exists_congr fun v => ?_
      rw [hmaps]
      simp [hk]
  · obtain ⟨hk, hold⟩ := (hmaps k' v).mp hv
    rw [Function.update_of_ne hk]
    exact h.items k' v hold

theorem Holds.used_eq (h : Holds tb m) (wf : Hashtable.Wf tb) : tb.used = m.names.ncard := by
  rw [wf.used_eq_keys]
  congr 1
  ext k
  exact (h.names k).symm

theorem Holds.finds (h : Holds tb m) (wf : Hashtable.Wf tb) : FindsValues tb m := by
  intro key klen hlen
  rcases wf.headertabFind_cases hlen with ⟨he, hno⟩ | ⟨pb, vec, he, hlive, hkey, hval, -⟩
  · refine Or.inl ⟨?_, he⟩
    by_contra hne
    obtain ⟨v, hv⟩ := (h.names _).mp hne
    obtain ⟨vec, rfl, _⟩ := h.items _ v hv
    exact hno vec hv
  · have hmap : tb.Maps (key.take klen) (some vec) := ⟨pb, hlive, hkey, hval⟩
    obtain ⟨vec', hvec, hitems⟩ := h.items _ _ hmap
    cases hvec
    refine Or.inr ⟨(h.names _).mpr ⟨_, hmap⟩, pb, vec, he, ?_⟩
    rw [hitems, List.map_map]
    exact List.map_id _

theorem FindsValues.names_subset (h : FindsValues tb m) (wf : Hashtable.Wf tb) :
    m.names ⊆ {k | ∃ v, tb.Maps k v} := by
  intro k hk
  rcases wf.headertabFind_cases (Nat.le_refl k.length) with
    ⟨he, _⟩ | ⟨pb, vec, _, hlive, hkey, hval, -⟩
  · rcases h k k.length (Nat.le_refl _) with ⟨hnone, _⟩ | ⟨_, _, _, he', _⟩
    · rw [List.take_length] at hnone
      exact absurd hnone hk
    · rw [he] at he'
      cases he'
  · rw [List.take_length] at hkey
    exact ⟨_, pb, hlive, hkey, hval⟩

theorem FindsValues.ncard_le (h : FindsValues tb m) (wf : Hashtable.Wf tb) :
    m.names.ncard ≤ 2 ^ 31 := by
  have hle := Set.ncard_le_ncard (h.names_subset wf) wf.finite_keys
  rw [← wf.used_eq_keys] at hle
  exact Nat.le_trans hle wf.used_le_pow

/-! ## One call -/

theorem Holds.overfull (h : Holds tb m) (wf : Hashtable.Wf tb) (hfull : 2 ^ 31 ≤ tb.used)
    {k : Bytes} (habsent : ∀ v, ¬ tb.Maps k v) {l : List Bytes} (hl : l ≠ []) :
    2 ^ 31 < (HeaderMap.names (Function.update m k l)).ncard := by
  have hnames : HeaderMap.names (Function.update m k l) = insert k m.names := by
    ext k'
    by_cases hk : k' = k
    · simp [HeaderMap.names, hk, hl]
    · simp [HeaderMap.names, hk]
  have hfinite : m.names.Finite := by
    have hkeys : m.names = {k | ∃ v, tb.Maps k v} := Set.ext h.names
    rw [hkeys]
    exact wf.finite_keys
  have hnot : k ∉ m.names := by
    intro hk
    obtain ⟨v, hv⟩ := (h.names k).mp hk
    exact habsent v hv
  rw [hnames, Set.ncard_insert_of_notMem hnot hfinite, ← h.used_eq wf]
  omega

theorem headertabInsert_step (wf : Hashtable.Wf tb) (hpos : 0 < klen) (hlen : klen ≤ key.length)
    (str : EfString) (w : World (EfVector EfString)) :
    ∃ r tb' w', headertabInsert tb key klen str w = some (r, tb', w') ∧ Hashtable.Wf tb' ∧
      w.heap.failures ≤ w'.heap.failures ∧
      (w'.heap.failures = w.heap.failures → (tb.Backed → tb'.Backed) ∧ ∀ m, Holds tb m →
        Holds tb' (Function.update m (key.take klen) [str.str]) ∨
          2 ^ 31 < (HeaderMap.names (Function.update m (key.take klen) [str.str])).ncard) := by
  obtain ⟨m₁, hle₁, _, ⟨he, hne⟩ | ⟨vec, hitems, hbacked, he⟩⟩ := headertabInsert_eq tb key klen str w
  · exact ⟨none, tb, _, he, wf, hle₁, fun hf => absurd hf hne⟩
  obtain ⟨r, tb', w', hset, wf', _, hcases, hle, hok⟩ :=
    wf.set_spec hpos hlen (some vec) { w with heap := m₁ }
  dsimp only at hle hok
  rw [he, hset]
  refine ⟨_, tb', w', rfl, wf', Nat.le_trans hle₁ hle, fun hf => ?_⟩
  rcases hcases with ⟨rfl, habsent, hmaps, _⟩ | ⟨i, rfl, hst, _⟩
  · refine ⟨fun hb => hb.of_maps hbacked (fun k v h => Or.inr ((hmaps k v).mp h)), fun m h =>
      Or.inr (h.overfull wf ?_ habsent (by simp))⟩
    by_contra hlt
    exact hok (by omega) (Or.inl (by omega)) rfl
  · exact ⟨fun hb => hb.of_maps hbacked
        (fun k v h => ((hst.maps_iff k v).mp h).imp And.right And.right),
      fun m h => Or.inl (h.rebind (by simp) ⟨vec, hitems, hst.maps_iff⟩)⟩

/-- `keep` is what the preparation of a vector does to the values in it. -/
theorem headertabPut_step (wf : Hashtable.Wf tb) (hb : tb.Backed) (hpos : 0 < klen)
    (hlen : klen ≤ key.length) (prepare : EfVector EfString → EfVector EfString)
    (keep : List Bytes → List Bytes) (hback : ∀ vec, vec.Backed → (prepare vec).Backed)
    (hprep : ∀ vec l, vec.items = l.map EfString.mk →
      (prepare vec).items = (keep l).map EfString.mk) (hkeep : keep [] = [])
    (val : Bytes) {vlen : Nat} (hvpos : 0 < vlen) (w : World (EfVector EfString)) :
    ∃ r tb' w', headertabPut prepare tb key klen val vlen w = some (r, tb', w') ∧
      Hashtable.Wf tb' ∧ w.heap.failures ≤ w'.heap.failures ∧
      (w'.heap.failures = w.heap.failures → tb'.Backed ∧ ∀ m, Holds tb m →
        Holds tb' (Function.update m (key.take klen)
            (keep (m (key.take klen)) ++ [val.take vlen])) ∨
          2 ^ 31 < (HeaderMap.names (Function.update m (key.take klen)
            (keep (m (key.take klen)) ++ [val.take vlen]))).ncard) := by
  have hstr := efStringNew_eq_none_or val vlen w.heap
  obtain ⟨hle₁, hok₁⟩ := efStringNew_failures val vlen w.heap
  rw [show stringLen val vlen = vlen from if_neg (by omega)] at hstr hok₁
  unfold headertabPut
  generalize efStringNew (some val) vlen w.heap = out at hstr hle₁ hok₁ ⊢
  obtain ⟨str, m₁⟩ := out
  rcases hstr with rfl | ⟨rfl, _⟩
  · exact ⟨none, tb, _, rfl, wf, hle₁, fun hf => absurd (hok₁ hf) (by simp)⟩
  dsimp only at hle₁ hok₁ ⊢
  rcases wf.headertabFind_cases hlen with ⟨he, hno⟩ | ⟨pb, vec, he, hlive, hkey, hval, -⟩
  · obtain ⟨r, tb', w', hi, wf', hle, hstep⟩ :=
      headertabInsert_step wf hpos hlen ⟨val.take vlen⟩ { w with heap := m₁ }
    rw [he]
    refine ⟨r, tb', w', hi, wf', Nat.le_trans hle₁ hle, fun hf => ?_⟩
    have hsame : w'.heap.failures = m₁.failures := by
      dsimp only at hle
      omega
    obtain ⟨hbacked, hholds⟩ := hstep hsame
    refine ⟨hbacked hb, fun m h => ?_⟩
    have hnone : m (key.take klen) = [] := by
      by_contra hne
      obtain ⟨v, hv⟩ := (h.names _).mp hne
      obtain ⟨vec, rfl, _⟩ := h.items _ v hv
      exact hno vec hv
    rw [hnone, hkeep]
    exact hholds m h
  · have hown : tb.Maps (key.take klen) (some vec) := ⟨pb, hlive, hkey, hval⟩
    obtain ⟨⟨idx, vec', m₂⟩, happend⟩ := Option.ne_none_iff_exists'.mp (fun hnone =>
      efVectorAppend_eq_none.mp hnone (hback vec (hb _ vec hown)) :
        efVectorAppend (prepare vec) ⟨val.take vlen⟩ m₁ ≠ none)
    obtain ⟨hcases, hle⟩ := efVectorAppend_cases happend
    obtain ⟨wf', hst⟩ := wf.overwrite hlive hkey (some vec')
    rw [he]
    dsimp only
    rw [happend]
    refine ⟨_, _, _, rfl, wf', Nat.le_trans hle₁ hle, fun hf => ?_⟩
    rcases hcases with ⟨_, _, hne⟩ | ⟨hadded, hblock⟩
    · exact absurd (Nat.le_antisymm (Nat.le_trans (Nat.le_of_eq hf) hle₁) hle) hne
    refine ⟨hb.of_maps (fun _ => hblock)
      (fun k v h => ((hst.maps_iff k v).mp h).imp And.right And.right), fun m h => Or.inl ?_⟩
    obtain ⟨_, hvec, hitems⟩ := h.items _ _ hown
    cases hvec
    refine h.rebind (by simp) ⟨vec', ?_, hst.maps_iff⟩
    rw [hadded, hprep vec _ hitems, List.map_append]
    rfl

/-- A call returns and keeps the table well formed. A table that holds a map holds it
with the call applied, if no allocation fails and the names are not too many. -/
theorem MultimapCall.exec_step (wf : Hashtable.Wf tb) (hb : tb.Backed) {call : MultimapCall}
    (hv : call.Valid) (w : World (EfVector EfString)) :
    ∃ tb' w', call.exec (tb, w) = some (tb', w') ∧ Hashtable.Wf tb' ∧
      w.heap.failures ≤ w'.heap.failures ∧
      (w'.heap.failures = w.heap.failures → tb'.Backed ∧ ∀ m, Holds tb m →
        Holds tb' (call.apply m) ∨ 2 ^ 31 < (HeaderMap.names (call.apply m)).ncard) := by
  cases call with
  | put op =>
      cases op with
      | set key klen val vlen =>
          obtain ⟨⟨hpos, hlen⟩, hvpos, _⟩ := hv
          obtain ⟨r, tb', w', he, hrest⟩ := headertabPut_step wf hb hpos hlen efVectorClear
            (fun _ => []) (fun _ _ hroom => absurd hroom (Nat.lt_irrefl 0)) (fun _ _ _ => rfl) rfl
            val hvpos w
          exact ⟨tb', w', congrArg (Option.map Prod.snd) he, hrest⟩
      | add key klen val vlen =>
          obtain ⟨⟨hpos, hlen⟩, hvpos, _⟩ := hv
          obtain ⟨r, tb', w', he, hrest⟩ := headertabPut_step wf hb hpos hlen
            id id (fun _ h => h) (fun _ _ h => h) rfl val hvpos w
          exact ⟨tb', w', congrArg (Option.map Prod.snd) he, hrest⟩
  | remove key klen =>
      obtain ⟨tb', w', he, wf', _, hmaps, hsome, hnone⟩ := wf.remove_spec hv.2 w
      have hheap : w'.heap = w.heap := by
        by_cases hb : ∃ v, tb.Maps (key.take klen) v
        · obtain ⟨v, hv⟩ := hb
          rw [hsome v hv, World.heap_destroy]
        · rw [hnone fun v hv => hb ⟨v, hv⟩]
      refine ⟨tb', w', he, wf', Nat.le_of_eq (by rw [hheap]), fun _ => ⟨?_, fun m h => Or.inl ?_⟩⟩
      · exact fun k vec h => hb k vec ((hmaps k _).mp h).2
      · exact h.unbind hmaps

/-! ## Whole runs -/

def MultimapCall.Granted (calls : List MultimapCall)
    (s : Headertab × World (EfVector EfString)) : Prop :=
  ∀ pre s', pre <+: calls → MultimapCall.run pre s = some s' →
    s'.2.heap.failures = s.2.heap.failures

theorem MultimapCall.run_cons {call : MultimapCall} {calls : List MultimapCall}
    {s s' : Headertab × World (EfVector EfString)} (h : call.exec s = some s') :
    MultimapCall.run (call :: calls) s = MultimapCall.run calls s' := by
  rw [MultimapCall.run, List.foldlM_cons, h]
  rfl

theorem MultimapCall.Granted.of_prefix {calls pre : List MultimapCall}
    {s : Headertab × World (EfVector EfString)} (h : MultimapCall.Granted calls s)
    (hpre : pre <+: calls) : MultimapCall.Granted pre s :=
  fun pre' s' hp hrun => h pre' s' (hp.trans hpre) hrun

theorem MultimapCall.run_spec (wf : Hashtable.Wf tb) (hb : tb.Backed) {calls : List MultimapCall}
    (hv : ∀ call ∈ calls, call.Valid) {w : World (EfVector EfString)}
    (hgranted : MultimapCall.Granted calls (tb, w)) :
    ∃ tb' w', MultimapCall.run calls (tb, w) = some (tb', w') ∧ Hashtable.Wf tb' ∧
      ∀ m, Holds tb m →
        (∀ pre, pre <+: calls → (HeaderMap.names (pre.foldl apply m)).ncard ≤ 2 ^ 31) →
        Holds tb' (calls.foldl apply m) := by
  induction calls generalizing tb w with
  | nil => exact ⟨tb, w, rfl, wf, fun m h _ => h⟩
  | cons call calls ih =>
      obtain ⟨tb₁, w₁, he₁, wf₁, _, hstep⟩ := exec_step wf hb (hv call List.mem_cons_self) w
      have hone : w₁.heap.failures = w.heap.failures :=
        hgranted [call] (tb₁, w₁) (List.prefix_append [call] calls) (run_cons he₁)
      obtain ⟨hb₁, hholds⟩ := hstep hone
      have hgranted₁ : MultimapCall.Granted calls (tb₁, w₁) := fun pre s' hpre hrun =>
        (hgranted (call :: pre) s' (List.prefix_cons_inj call |>.mpr hpre)
          ((run_cons he₁).trans hrun)).trans hone.symm
      obtain ⟨tb', w', he', wf', hrun⟩ :=
        ih wf₁ hb₁ (fun c hc => hv c (List.mem_cons_of_mem call hc)) hgranted₁
      refine ⟨tb', w', (run_cons he₁).trans he', wf', fun m h hpre => ?_⟩
      have hfits : ∀ pre, pre <+: calls →
          (HeaderMap.names (pre.foldl apply (call.apply m))).ncard ≤ 2 ^ 31 :=
        fun pre hp => hpre (call :: pre) (List.prefix_cons_inj call |>.mpr hp)
      have hfirst := hfits [] List.nil_prefix
      rcases hholds m h with h₁ | hover
      · exact hrun _ h₁ hfits
      · rw [List.foldl_nil] at hfirst
        omega

theorem efHeadertabNew_holds {cap : Nat} (hcap : cap ≤ 2 ^ 31) {m m' : Heap}
    (hnew : efHeadertabNew cap m = (some tb, m')) :
    Hashtable.Wf tb ∧ Holds tb (fun _ => []) := by
  obtain ⟨wf, _, _, hno⟩ := Hashtable.new_spec hcap true m hnew
  refine ⟨wf, fun k => ⟨fun h => absurd rfl h, ?_⟩, fun k v hv => absurd hv (hno k v)⟩
  rintro ⟨v, hv⟩
  exact absurd hv (hno k v)

/-- A run without failing allocations returns, and answers every lookup from the map of its
calls, after each of them, exactly when it never gives values to more than `2 ^ 31` names. -/
theorem headertab_multimap {cap : Nat} (hcap : cap ≤ 2 ^ 31) {m m' : Heap}
    (hnew : efHeadertabNew cap m = (some tb, m')) {calls : List MultimapCall}
    (hv : ∀ call ∈ calls, call.Valid) (hgranted : MultimapCall.Granted calls (tb, ⟨m', []⟩)) :
    (∃ s, MultimapCall.run calls (tb, ⟨m', []⟩) = some s) ∧
      ((∀ pre, pre <+: calls → ∃ tb₁ w₁, MultimapCall.run pre (tb, ⟨m', []⟩) = some (tb₁, w₁) ∧
          FindsValues tb₁ (MultimapCall.valuesOf pre)) ↔
        ∀ pre, pre <+: calls → (MultimapCall.valuesOf pre).names.ncard ≤ 2 ^ 31) := by
  obtain ⟨wf, hempty⟩ := efHeadertabNew_holds hcap hnew
  have hb := (efHeadertabNew_wf hcap hnew).2
  have hruns := fun pre (hpre : pre <+: calls) => MultimapCall.run_spec wf hb
    (fun call hc => hv call (hpre.subset hc)) (hgranted.of_prefix hpre)
  refine ⟨?_, fun hall pre hpre => ?_, fun hall pre hpre => ?_⟩
  · obtain ⟨tb', w', hrun, _⟩ := hruns calls (List.prefix_refl _)
    exact ⟨_, hrun⟩
  · obtain ⟨tb₁, w₁, he₁, wf₁, _⟩ := hruns pre hpre
    obtain ⟨tb₂, w₂, he₂, hfinds⟩ := hall pre hpre
    rw [he₁] at he₂
    cases he₂
    exact hfinds.ncard_le wf₁
  · obtain ⟨tb₁, w₁, he₁, wf₁, hholds⟩ := hruns pre hpre
    exact ⟨tb₁, w₁, he₁, (hholds _ hempty fun pre' hp => hall pre' (hp.trans hpre)).finds wf₁⟩

theorem MultimapCall.names_apply (call : MultimapCall) (m : HeaderMap) :
    ∃ k, (HeaderMap.names (call.apply m)) ⊆ insert k m.names := by
  have hupdate : ∀ k l, HeaderMap.names (Function.update m k l) ⊆ insert k m.names := by
    intro k l k' hk'
    by_cases hk : k' = k
    · exact Or.inl hk
    · rw [HeaderMap.names, Set.mem_ofPred_eq, Function.update_of_ne hk] at hk'
      exact Or.inr hk'
  cases call with
  | put op => cases op <;> exact ⟨_, hupdate _ _⟩
  | remove key klen => exact ⟨_, hupdate _ _⟩

theorem MultimapCall.ncard_valuesOf_le (calls : List MultimapCall) :
    (valuesOf calls).names.Finite ∧ (valuesOf calls).names.ncard ≤ calls.length := by
  induction calls using List.reverseRecOn with
  | nil =>
      have hnone : (valuesOf []).names = ∅ := Set.eq_empty_of_forall_notMem fun k hk => hk rfl
      rw [hnone]
      exact ⟨Set.finite_empty, by simp⟩
  | append_singleton calls call ih =>
      obtain ⟨k, hk⟩ := names_apply call (valuesOf calls)
      have happend : valuesOf (calls ++ [call]) = call.apply (valuesOf calls) := by
        simp [valuesOf]
      have hfinite := ih.1.insert k
      rw [happend, List.length_append, List.length_singleton]
      refine ⟨hfinite.subset hk, ?_⟩
      exact (Set.ncard_le_ncard hk hfinite).trans
        ((Set.ncard_insert_le k _).trans (Nat.add_le_add_right ih.2 1))

/-- A name with two values, and one that is removed. -/
theorem headertab_multimap_two :
    ∃ tb' w', MultimapCall.run [.put (.set [97] 1 [120] 1), .put (.add [97] 1 [121, 0] 2),
        .put (.add [98] 1 [120] 1), .remove [98] 1]
        (Hashtable.smallest _ true, ⟨⟨[], 2, 0⟩, []⟩) = some (tb', w') ∧
      FindsValues tb' (MultimapCall.valuesOf [.put (.set [97] 1 [120] 1),
        .put (.add [97] 1 [121, 0] 2), .put (.add [98] 1 [120] 1), .remove [98] 1]) := by
  have hv : ∀ call ∈ [MultimapCall.put (.set [97] 1 [120] 1), .put (.add [97] 1 [121, 0] 2),
      .put (.add [98] 1 [120] 1), .remove [98] 1], call.Valid := by
    simp [MultimapCall.Valid, HeaderOp.Valid, HeaderOp.ValueFits]
  have hall : ∀ pre ∈ [MultimapCall.put (.set [97] 1 [120] 1), .put (.add [97] 1 [121, 0] 2),
      .put (.add [98] 1 [120] 1), .remove [98] 1].inits,
      (MultimapCall.run pre (Hashtable.smallest _ true, ⟨⟨[], 2, 0⟩, []⟩)).all
        (fun s => s.2.heap.failures = 0) = true := by decide +kernel
  obtain ⟨_, hiff⟩ := headertab_multimap (show 8 ≤ 2 ^ 31 by decide)
    (Hashtable.new_smallest _ true) hv (fun pre s hpre hrun => by
      have hzero := hall pre ((List.mem_inits _ _).mpr hpre)
      rw [hrun] at hzero
      exact of_decide_eq_true hzero)
  obtain ⟨tb₁, w₁, he₁, hfinds⟩ := hiff.mpr (fun pre hpre => by
    have hle := hpre.length_le
    have hlen := (MultimapCall.ncard_valuesOf_le pre).2
    simp only [List.length_cons, List.length_nil] at hle
    omega) _ (List.prefix_refl _)
  exact ⟨tb₁, w₁, he₁, hfinds⟩

/-! ## A full table -/

/-- The name with the number `n`: its four bytes. -/
def numberName (n : Nat) : Bytes :=
  [UInt8.ofNat (n / 2 ^ 24), UInt8.ofNat (n / 2 ^ 16), UInt8.ofNat (n / 2 ^ 8), UInt8.ofNat n]

theorem numberName_inj {i j : Nat} (hi : i < 2 ^ 32) (hj : j < 2 ^ 32)
    (h : numberName i = numberName j) : i = j := by
  have hval : ∀ a b : Nat, UInt8.ofNat a = UInt8.ofNat b → a % 256 = b % 256 := by
    intro a b h
    simpa only [UInt8.toNat_ofNat'] using congrArg UInt8.toNat h
  simp only [numberName, List.cons.injEq, and_true] at h
  obtain ⟨h₃, h₂, h₁, h₀⟩ := h
  have h₃ := hval _ _ h₃
  have h₂ := hval _ _ h₂
  have h₁ := hval _ _ h₁
  have h₀ := hval _ _ h₀
  omega

def manyNames (n : Nat) : List MultimapCall :=
  (List.range n).map (fun i => .put (.add (numberName i) 4 [120] 1))

theorem manyNames_succ (n : Nat) :
    manyNames (n + 1) = manyNames n ++ [.put (.add (numberName n) 4 [120] 1)] := by
  simp [manyNames, List.range_succ]

theorem manyNames_valid (n : Nat) : ∀ call ∈ manyNames n, call.Valid := by
  intro call hcall
  obtain ⟨i, _, rfl⟩ := List.mem_map.mp hcall
  exact ⟨⟨Nat.succ_pos 3, Nat.le_refl 4⟩, Nat.one_pos, by simp⟩

theorem manyNames_values {n : Nat} (hn : n ≤ 2 ^ 32) {i : Nat} (hi : i < n) :
    MultimapCall.valuesOf (manyNames n) (numberName i) ≠ [] := by
  induction n with
  | zero => omega
  | succ n ih =>
      have htake : (numberName n).take 4 = numberName n := rfl
      rw [MultimapCall.valuesOf, manyNames_succ, List.foldl_append, List.foldl_cons, List.foldl_nil,
        MultimapCall.apply, htake]
      by_cases hin : i = n
      · rw [hin, Function.update_self]
        simp
      · rw [Function.update_of_ne fun h => hin (numberName_inj (by omega) (by omega) h)]
        exact ih (by omega) (by omega)

theorem efHeadertabAdd_new (wf : Hashtable.Wf tb) (n : Nat)
    (hno : ∀ v, ¬ tb.Maps (numberName n) v) {w : World (EfVector EfString)} (hw : w.heap.Willing) :
    ∃ r tb' w', efHeadertabAdd tb (numberName n) 4 [120] 1 w = some (r, tb', w') ∧
      Hashtable.Wf tb' ∧ w.heap.Granted w'.heap ∧
      ∀ k v, tb'.Maps k v → k = numberName n ∨ tb.Maps k v := by
  have htake : (numberName n).take 4 = numberName n := rfl
  have hlen : 4 ≤ (numberName n).length := Nat.le_refl 4
  have hstring := @efStringNew_granted [120] 1 w.heap hw (by decide)
  have hmade := (efStringNew_failures [120] 1 w.heap).2 hstring.failures
  have hfind : efHeadertabFind tb (numberName n) 4 = some none := by
    rcases wf.headertabFind_cases hlen with ⟨he, _⟩ | ⟨pb, vec, _, hlive, hkey, hval, -⟩
    · exact he
    · rw [htake] at hkey
      exact absurd ⟨pb, hlive, hkey, hval⟩ (hno _)
  unfold efHeadertabAdd headertabPut
  generalize efStringNew (some [120]) 1 w.heap = out at hstring hmade ⊢
  obtain ⟨str, m₁⟩ := out
  obtain rfl := hmade
  dsimp only at hstring ⊢
  rw [hfind]
  obtain ⟨m₂, _, hvector, ⟨_, hne⟩ | ⟨vec, _, _, he⟩⟩ :=
    headertabInsert_eq tb (numberName n) 4 ⟨[120].take (stringLen [120] 1)⟩ { w with heap := m₁ }
  · exact absurd (hvector hstring.willing).failures hne
  have hw₂ := hvector hstring.willing
  obtain ⟨r, tb', w', hset, wf', _, hcases, _⟩ :=
    wf.set_spec (Nat.succ_pos 3) hlen (some vec) { w with heap := m₂ }
  have hshort : stringLen (numberName n) 4 + 1 < 2 ^ 63 := show 4 + 1 < 2 ^ 63 by decide
  have htable := efHashtableSetKeyValue_granted (w := { w with heap := m₂ }) hw₂.willing hshort hset
  dsimp only
  rw [he, hset]
  refine ⟨_, tb', w', rfl, wf', hstring.trans (hw₂.trans htable), fun k v hkv => ?_⟩
  rw [htake] at hcases
  rcases hcases with ⟨_, _, hmaps, _⟩ | ⟨i, _, hst, _⟩
  · exact Or.inr ((hmaps k v).mp hkv)
  · exact ((hst.maps_iff k v).mp hkv).imp And.left And.right

theorem manyNames_run {n : Nat} (hn : n ≤ 2 ^ 32) :
    ∃ tb w, MultimapCall.run (manyNames n) (Hashtable.smallest _ true, ⟨⟨[], 2, 0⟩, []⟩) =
        some (tb, w) ∧ Hashtable.Wf tb ∧ Heap.Granted ⟨[], 2, 0⟩ w.heap ∧
      ∀ i, n ≤ i → i < 2 ^ 32 → ∀ v, ¬ tb.Maps (numberName i) v := by
  induction n with
  | zero =>
      obtain ⟨wf, _, _, hno⟩ := Hashtable.new_spec (show 8 ≤ 2 ^ 31 by decide) true ⟨[], 0, 0⟩
        (Hashtable.new_smallest (EfVector EfString) true)
      have hw : (⟨[], 2, 0⟩ : Heap).Willing := fun ok hok => absurd hok List.not_mem_nil
      exact ⟨_, _, rfl, wf, hw.refl, fun i _ _ v => hno _ v⟩
  | succ n ih =>
      obtain ⟨tb, w, he, wf, hgranted, hno⟩ := ih (by omega)
      obtain ⟨r, tb', w', hadd, wf', hgranted', hmaps⟩ :=
        efHeadertabAdd_new wf n (hno n (Nat.le_refl n) (by omega)) hgranted.willing
      refine ⟨tb', w', ?_, wf', hgranted.trans hgranted', fun i hi hlt v hv => ?_⟩
      · rw [manyNames_succ, MultimapCall.run_append, he, Option.bind_some, MultimapCall.run,
          List.foldlM_cons]
        exact congrArg (fun out => out.map Prod.snd >>= pure) hadd
      · rcases hmaps _ v hv with heq | hold
        · have := numberName_inj hlt (by omega) heq
          omega
        · exact hno i (by omega) hlt v hold

/-- A run without failing allocations that gives values to too many names: the table does
not answer for all of them. -/
theorem manyNames_not_finds {n : Nat} (hlo : 2 ^ 31 < n) (hn : n ≤ 2 ^ 32) :
    ∃ tb w, MultimapCall.run (manyNames n) (Hashtable.smallest _ true, ⟨⟨[], 2, 0⟩, []⟩) =
        some (tb, w) ∧ w.heap.failures = 0 ∧
      ¬ FindsValues tb (MultimapCall.valuesOf (manyNames n)) := by
  obtain ⟨tb, w, he, wf, hgranted, _⟩ := manyNames_run hn
  refine ⟨tb, w, he, hgranted.failures, fun hfinds => ?_⟩
  have hsub : (((Finset.range n).image numberName : Finset Bytes) : Set Bytes) ⊆
      {k | ∃ v, tb.Maps k v} := by
    intro k hk
    obtain ⟨i, hi, rfl⟩ := Finset.mem_image.mp (Finset.mem_coe.mp hk)
    exact hfinds.names_subset wf (manyNames_values hn (Finset.mem_range.mp hi))
  have hinj : Set.InjOn numberName (Finset.range n) := by
    intro i hi j hj h
    rw [Finset.coe_range, Set.mem_Iio] at hi hj
    exact numberName_inj (by omega) (by omega) h
  have hle := Set.ncard_le_ncard hsub wf.finite_keys
  rw [Set.ncard_coe_finset, Finset.card_image_of_injOn hinj,
    Finset.card_range, ← wf.used_eq_keys] at hle
  have hmax := wf.used_le_pow
  omega

theorem headertab_multimap_full : ∃ calls : List MultimapCall, (∀ call ∈ calls, call.Valid) ∧
    ∃ tb w, MultimapCall.run calls (Hashtable.smallest _ true, ⟨⟨[], 2, 0⟩, []⟩) = some (tb, w) ∧
      w.heap.failures = 0 ∧ ¬ FindsValues tb (MultimapCall.valuesOf calls) :=
  ⟨manyNames (2 ^ 31 + 1), manyNames_valid _, manyNames_not_finds (by decide) (by decide)⟩

end

end EFramework
