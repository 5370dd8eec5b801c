import EFramework.Structure.Hashtable.EmptyKey
import EFramework.FastCGI.Params

/-! # Where `fcgi_parse_params` reads

The loop looks at the end of the block once for each pair, so a pair that is cut off, or
whose lengths are too large, is read beyond it. What is read of a name depends on the
table: one of length zero is a C string for `ef_string_new`, which sees it only when the
table does not hold the empty key.
-/

namespace EFramework

/-! ## The bytes read -/

structure Extent where
  start : Nat
  count : Nat
deriving Repr, DecidableEq

/-- All the bytes are below `len`. -/
def Extent.Within (e : Extent) (len : Nat) : Prop :=
  ∀ i, e.start ≤ i → i < e.start + e.count → i < len

theorem Extent.within_iff {e : Extent} {len : Nat} :
    e.Within len ↔ e.count = 0 ∨ e.start + e.count ≤ len := by
  constructor
  · intro h
    by_cases hz : e.count = 0
    · exact Or.inl hz
    · have := h (e.start + e.count - 1) (by omega) (by omega)
      exact Or.inr (by omega)
  · intro h i hi hlt
    omega

def lengthExtent (mem : Bytes) (pos : Nat) : Extent :=
  ⟨pos, if 128 ≤ (mem.getD pos 0).toNat then 4 else 1⟩

def stringExtents (mem : Bytes) (pos len : Nat) (m : Heap) : List Extent :=
  let (ok, m) := m.malloc
  if ok then
    let n := stringLen (mem.drop pos) len
    let (ok, _) := m.alloc (n + 1)
    -- `strlen` reads the NUL as well, `memcpy` does not
    (if len = 0 then [⟨pos, n + 1⟩] else []) ++ (if ok then [⟨pos, n⟩] else [])
  else []

/-- The reads of `ef_hashtable_set_key_value`: `hash_func`, and `memcmp` within the same
bytes, then the copy of a key that was not found. -/
def keyExtents (mem : Bytes) (tbl : Stringtab) (pos klen : Nat) (m : Heap) : List Extent :=
  ⟨pos, klen⟩ ::
    match efHashtableFindKey tbl (mem.drop pos) klen with
    | some none =>
        match allocBucket 2 tbl m with
        | some (some _, _, m) => stringExtents mem pos klen m
        | _ => []
    | _ => []

def setExtents (mem : Bytes) (tbl : Stringtab) (name nameLen value valueLen : Nat) (m : Heap) :
    List Extent :=
  if valueLen = 0 then keyExtents mem tbl name nameLen m
  else
    stringExtents mem value valueLen m ++
      match efStringNew (some (mem.drop value)) valueLen m with
      | (none, _) => []
      | (some _, m) => keyExtents mem tbl name nameLen m

/-- The reads of one round: two lengths, then those of the set. -/
def paramExtents (mem : Bytes) (pos : Nat) (tbl : Stringtab) (m : Heap) : List Extent :=
  lengthExtent mem pos ::
    match lengthAt mem pos with
    | none => []
    | some (nameLen, pos) =>
        lengthExtent mem pos ::
          match lengthAt mem pos with
          | none => []
          | some (valueLen, pos) => setExtents mem tbl pos nameLen (pos + nameLen) valueLen m

/-- The reads of the loop, up to the first one that memory has nothing for. -/
def paramsExtents (mem : Bytes) (len : Nat) :
    Nat → Nat → Stringtab → World EfString → List Extent
  | 0, _, _, _ => []
  | fuel + 1, pos, tbl, w =>
      if pos < len then
        paramExtents mem pos tbl w.heap ++
          match paramAt mem pos with
          | none => []
          | some (name, nameLen, value, valueLen, pos) =>
              match efStringtabSet tbl name nameLen
                  (if valueLen ≠ 0 then some value else none) valueLen w with
              | some (some (_, tbl), w) => paramsExtents mem len fuel pos tbl w
              | _ => []
      else []

def fcgiParamsExtents (mem : Bytes) (len : Nat) (tbl : Stringtab) (w : World EfString) :
    List Extent :=
  paramsExtents mem len (len + 1) 0 tbl w

/-- With the table `tbl`, whatever the allocator does, no byte behind the block is read. -/
def StaysInside (data behind : Bytes) (tbl : Stringtab) : Prop :=
  ∀ w, ∀ e ∈ fcgiParamsExtents (data ++ behind) data.length tbl w, e.Within data.length

/-- The block is a sequence of pairs, and a pair without a name has a NUL behind it unless
the empty key is bound. It is `bound` at first, or by a pair of two empty strings that has
a NUL right behind it. -/
inductive Contained : Prop → Bytes → Prop
  | nil {bound : Prop} : Contained bound []
  | cons {bound : Prop} (p : Param) (rest : Bytes) : p.Fits →
      (p.name = [] → bound ∨ 0 ∈ p.value ++ rest) →
      Contained (bound ∨ (p.name = [] ∧ p.value = [] ∧ rest.head? = some 0)) rest →
      Contained bound (p.encode ++ rest)

/-! ## Lengths -/

theorem length_encodeLength_pos (long : Bool) (n : Nat) : 0 < (encodeLength long n).length := by
  cases long <;> exact Nat.zero_lt_succ _

theorem getD_of_drop {mem rest : Bytes} {pos : Nat} {b : UInt8} (h : mem.drop pos = b :: rest) :
    mem.getD pos 0 = b := by
  have hget : mem[pos]? = some b := by
    have := congrArg (fun l : Bytes => l[0]?) h
    simpa using this
  rw [List.getD_eq_getElem?_getD, hget]
  rfl

theorem lengthExtent_encode {mem rest : Bytes} {pos n : Nat} {long : Bool}
    (hn : n < if long then 2 ^ 31 else 128) (h : mem.drop pos = encodeLength long n ++ rest) :
    lengthExtent mem pos = ⟨pos, (encodeLength long n).length⟩ := by
  unfold lengthExtent
  cases long with
  | false =>
      rw [if_neg Bool.false_ne_true] at hn
      have hfirst : mem.drop pos = UInt8.ofNat n :: rest := h
      rw [getD_of_drop hfirst, UInt8.toNat_ofNat', if_neg (by omega)]
      rfl
  | true =>
      rw [if_pos rfl] at hn
      rw [getD_of_drop (b := UInt8.ofNat (128 + n / 2 ^ 24)) h, UInt8.toNat_ofNat',
        if_pos (by omega)]
      rfl

theorem exists_encodeLength {mem : Bytes} {pos : Nat}
    (h : (lengthExtent mem pos).Within mem.length) : ∃ long n rest,
    (n < if long then 2 ^ 31 else 128) ∧ mem.drop pos = encodeLength long n ++ rest := by
  rw [Extent.within_iff] at h
  unfold lengthExtent at h
  dsimp only at h
  have hpos : pos < mem.length := by
    split at h <;> omega
  have h₀ : mem.drop pos = mem[pos] :: mem.drop (pos + 1) := List.drop_eq_getElem_cons hpos
  rw [getD_of_drop h₀] at h
  split at h
  next hlong =>
    have hlen : pos + 4 ≤ mem.length := by omega
    have h₁ : mem.drop (pos + 1) = mem[pos + 1] :: mem.drop (pos + 2) :=
      List.drop_eq_getElem_cons (by omega)
    have h₂ : mem.drop (pos + 2) = mem[pos + 2] :: mem.drop (pos + 3) :=
      List.drop_eq_getElem_cons (by omega)
    have h₃ : mem.drop (pos + 3) = mem[pos + 3] :: mem.drop (pos + 4) :=
      List.drop_eq_getElem_cons (by omega)
    have hb₀ := mem[pos].toNat_lt
    have hb₁ := mem[pos + 1].toNat_lt
    have hb₂ := mem[pos + 2].toNat_lt
    have hb₃ := mem[pos + 3].toNat_lt
    refine ⟨true, ((mem[pos].toNat - 128) * 2 ^ 24 + mem[pos + 1].toNat * 2 ^ 16 +
      mem[pos + 2].toNat * 2 ^ 8 + mem[pos + 3].toNat), mem.drop (pos + 4), ?_, ?_⟩
    · rw [if_pos rfl]
      omega
    · rw [h₀, h₁, h₂, h₃]
      simp only [encodeLength, if_true, List.cons_append, List.nil_append, List.cons.injEq,
        and_true]
      refine ⟨?_, ?_, ?_, ?_⟩ <;> apply UInt8.toNat_inj.mp <;> rw [UInt8.toNat_ofNat'] <;> omega
  next hshort =>
    refine ⟨false, mem[pos].toNat, mem.drop (pos + 1), ?_, ?_⟩
    · rw [if_neg Bool.false_ne_true]
      omega
    · rw [h₀]
      simp [encodeLength]

/-! ## Pairs -/

def Param.bodyAt (p : Param) (pos : Nat) : Nat :=
  pos + (encodeLength p.longName p.name.length).length +
    (encodeLength p.longValue p.value.length).length

theorem Param.bodyAt_add (p : Param) (pos : Nat) :
    p.bodyAt pos + p.name.length + p.value.length = pos + p.encode.length := by
  simp only [Param.bodyAt, Param.encode, List.length_append]
  omega

theorem Param.Fits.paramExtents_encode {p : Param} (hp : p.Fits) {mem rest : Bytes} {pos : Nat}
    (h : mem.drop pos = p.encode ++ rest) (tbl : Stringtab) (m : Heap) :
    paramExtents mem pos tbl m =
        ⟨pos, (encodeLength p.longName p.name.length).length⟩ ::
          ⟨pos + (encodeLength p.longName p.name.length).length,
            (encodeLength p.longValue p.value.length).length⟩ ::
          setExtents mem tbl (p.bodyAt pos) p.name.length (p.bodyAt pos + p.name.length)
            p.value.length m ∧
      mem.drop (p.bodyAt pos) = p.name ++ (p.value ++ rest) := by
  rw [Param.encode, List.append_assoc, List.append_assoc, List.append_assoc] at h
  have h₁ : mem.drop (pos + (encodeLength p.longName p.name.length).length) =
      encodeLength p.longValue p.value.length ++ (p.name ++ (p.value ++ rest)) := by
    rw [← List.drop_drop, h, List.drop_left]
  have h₂ : mem.drop (p.bodyAt pos) = p.name ++ (p.value ++ rest) := by
    rw [Param.bodyAt, ← List.drop_drop, h₁, List.drop_left]
  refine ⟨?_, h₂⟩
  unfold paramExtents
  simp only [lengthAt_encode hp.name_lt h, lengthExtent_encode hp.name_lt h,
    lengthAt_encode hp.value_lt h₁, lengthExtent_encode hp.value_lt h₁]
  rfl

/-! ## Blocks that contain their pairs -/

section Within

variable {mem : Bytes} {tbl : Stringtab} {m : Heap} {n : Nat}

theorem stringExtents_within {pos len : Nat}
    (h : pos + stringLen (mem.drop pos) len + (if len = 0 then 1 else 0) ≤ n) :
    ∀ e ∈ stringExtents mem pos len m, e.Within n := by
  intro e he
  unfold stringExtents at he
  dsimp only at he
  split at he
  · rw [List.mem_append] at he
    rcases he with he | he
    · split at he
      next hz =>
        rw [if_pos hz] at h
        obtain rfl := List.mem_singleton.mp he
        exact Extent.within_iff.mpr (Or.inr (by dsimp only; omega))
      next => cases he
    · split at he
      · obtain rfl := List.mem_singleton.mp he
        exact Extent.within_iff.mpr (Or.inr (by dsimp only; omega))
      · cases he
  · cases he

theorem keyExtents_within (th : tbl.Threaded) {pos klen : Nat} (hlen : pos + klen ≤ n)
    (hstr : klen = 0 → tbl.BindsEmpty ∨ pos + strlen (mem.drop pos) < n) :
    ∀ e ∈ keyExtents mem tbl pos klen m, e.Within n := by
  intro e he
  rcases List.mem_cons.mp he with rfl | he
  · exact Extent.within_iff.mpr (Or.inr hlen)
  split at he
  next hfind =>
    split at he
    · refine stringExtents_within ?_ e he
      unfold stringLen
      split
      next hz =>
        subst hz
        obtain ⟨r, hr, hiff⟩ := th.find_empty (mem.drop pos)
        rw [hr] at hfind
        obtain rfl := Option.some.inj hfind
        have hno : ¬ tbl.BindsEmpty := fun hb => hiff.mpr hb rfl
        have := (hstr rfl).resolve_left hno
        omega
      next => omega
    · cases he
  next => cases he

theorem setExtents_within (th : tbl.Threaded) {name nameLen valueLen : Nat}
    (hlen : name + nameLen + valueLen ≤ n)
    (hstr : nameLen = 0 → tbl.BindsEmpty ∨ name + strlen (mem.drop name) < n) :
    ∀ e ∈ setExtents mem tbl name nameLen (name + nameLen) valueLen m, e.Within n := by
  intro e he
  unfold setExtents at he
  split at he
  · exact keyExtents_within th (by omega) hstr e he
  next hz =>
    rcases List.mem_append.mp he with he | he
    · refine stringExtents_within ?_ e he
      unfold stringLen
      rw [if_neg hz, if_neg hz]
      omega
    · split at he
      · cases he
      · exact keyExtents_within th (by omega) hstr e he

end Within

theorem Param.Fits.within {p : Param} (hp : p.Fits) {data behind rest : Bytes} {pos : Nat}
    (hpos : pos ≤ data.length) (h : data.drop pos = p.encode ++ rest) {tbl : Stringtab}
    (th : Hashtable.Threaded tbl)
    (hnul : p.name = [] → Hashtable.BindsEmpty tbl ∨ 0 ∈ p.value ++ rest) (m : Heap) :
    ∀ e ∈ paramExtents (data ++ behind) pos tbl m, e.Within data.length := by
  have hlen : pos + p.encode.length + rest.length = data.length := by
    have := congrArg List.length h
    rw [List.length_drop, List.length_append] at this
    omega
  have hmem : (data ++ behind).drop pos = p.encode ++ (rest ++ behind) := by
    rw [List.drop_append_of_le_length hpos, h, List.append_assoc]
  obtain ⟨hextents, hbody⟩ := hp.paramExtents_encode hmem tbl m
  have hadd := p.bodyAt_add pos
  have hstr : p.name.length = 0 → Hashtable.BindsEmpty tbl ∨
      p.bodyAt pos + strlen ((data ++ behind).drop (p.bodyAt pos)) < data.length := by
    intro hz
    have hnil := List.eq_nil_of_length_eq_zero hz
    refine (hnul hnil).imp id (fun hnul => ?_)
    have hlt := strlen_append_lt (b := behind).mpr hnul
    rw [hnil, List.nil_append, ← List.append_assoc] at hbody
    rw [List.length_append] at hlt
    rw [hbody]
    omega
  intro e he
  rw [hextents] at he
  rcases List.mem_cons.mp he with rfl | he
  · exact Extent.within_iff.mpr (Or.inr (by unfold Param.bodyAt at hadd; dsimp only; omega))
  rcases List.mem_cons.mp he with rfl | he
  · exact Extent.within_iff.mpr (Or.inr (by unfold Param.bodyAt at hadd; dsimp only; omega))
  · exact setExtents_within th (by omega) hstr e he

theorem efStringtabSet_null (tbl : Stringtab) (name : Bytes) (nameLen valueLen : Nat)
    (w : World EfString) : efStringtabSet tbl name nameLen none valueLen w =
      (efHashtableSetKeyValue tbl name nameLen none w).map (fun r =>
        (r.1.map (fun pb => ((r.2.1.bucket pb).val, r.2.1)), r.2.2)) := by
  unfold efStringtabSet
  dsimp only
  rw [if_neg (fun h => h.2 rfl)]
  rcases efHashtableSetKeyValue tbl name nameLen none w with _ | ⟨_ | pb, tb, w'⟩ <;> rfl

/-- A set that returns keeps the empty key. With a NULL value it binds the key, or it does
not return. -/
theorem efStringtabSet_keeps {tbl tbl' : Stringtab} (th : Hashtable.Threaded tbl) {name : Bytes}
    {nameLen valueLen : Nat} {value : Option Bytes} {w w' : World EfString}
    {ret : Option EfString}
    (h : efStringtabSet tbl name nameLen value valueLen w = some (some (ret, tbl'), w')) :
    Hashtable.Threaded tbl' ∧ (Hashtable.BindsEmpty tbl → Hashtable.BindsEmpty tbl') ∧
      (value = none → nameLen = 0 → strlen name = 0 → Hashtable.BindsEmpty tbl') := by
  cases value with
  | none =>
      obtain ⟨r, tbl₁, w₁, hset, hk⟩ := th.set_spec name nameLen none w
      rw [efStringtabSet_null, hset] at h
      cases r with
      | none => cases h
      | some pb =>
          cases h
          exact ⟨hk.threaded, hk.keeps, fun _ => hk.bound (Option.some_ne_none pb)⟩
  | some p =>
      refine (?_ : _ ∧ _).imp id (fun hkeeps => ⟨hkeeps, fun hv => by cases hv⟩)
      unfold efStringtabSet at h
      dsimp only at h
      generalize efStringNew (some p) valueLen w.heap = out at h
      split at h
      · cases h
        exact ⟨th, id⟩
      · obtain ⟨r, tbl₁, w₁, hset, hk⟩ := th.set_spec name nameLen out.1 { w with heap := out.2 }
        rw [hset] at h
        cases r with
        | none =>
            dsimp only at h
            split at h
            · cases h
            · cases h
              exact ⟨hk.threaded, hk.keeps⟩
        | some pb =>
            cases h
            exact ⟨hk.threaded, hk.keeps⟩

theorem Contained.within {bound : Prop} {d : Bytes} (hd : Contained bound d) {data : Bytes}
    (behind : Bytes) (fuel : Nat) {pos : Nat} (hpos : pos ≤ data.length) (h : data.drop pos = d)
    {tbl : Stringtab} (th : Hashtable.Threaded tbl) (hb : bound → Hashtable.BindsEmpty tbl)
    (w : World EfString) :
    ∀ e ∈ paramsExtents (data ++ behind) data.length fuel pos tbl w, e.Within data.length := by
  induction hd generalizing fuel pos tbl w with
  | nil =>
      have hge := List.drop_eq_nil_iff.mp h
      cases fuel with
      | zero => simp [paramsExtents]
      | succ fuel => simp [paramsExtents, Nat.not_lt.mpr hge]
  | cons p rest hp hnul _ ih =>
      cases fuel with
      | zero => simp [paramsExtents]
      | succ fuel =>
          have hmem : (data ++ behind).drop pos = p.encode ++ (rest ++ behind) := by
            rw [List.drop_append_of_le_length hpos, h, List.append_assoc]
          have hat := hp.paramAt_encode hmem
          have hlen := congrArg List.length h
          rw [List.length_drop, List.length_append] at hlen
          have hone := p.length_encode_pos
          intro e he
          rw [paramsExtents, if_pos (by omega), hat] at he
          rcases List.mem_append.mp he with he | he
          · exact hp.within hpos h th (fun hn => (hnul hn).imp hb id) w.heap e he
          · dsimp only at he
            split at he
            next ret tbl' w' hset =>
              obtain ⟨th', hkeeps, hbinds⟩ := efStringtabSet_keeps th hset
              refine ih fuel (by omega) ?_ th' ?_ w' e he
              · rw [← List.drop_drop, h, List.drop_left]
              · rintro (hbound | ⟨hn, hv, hhead⟩)
                · exact hkeeps (hb hbound)
                · refine hbinds (by simp [hv]) (by simp [hn]) ?_
                  obtain ⟨t, rfl⟩ : ∃ t, rest = 0 :: t := by
                    cases rest with
                    | nil => cases hhead
                    | cons x t =>
                        cases hhead
                        exact ⟨t, rfl⟩
                  rw [hn, hv]
                  rfl
            next => cases he

/-! ## Blocks that do not

Where the value of a pair is not empty the allocator refuses it, so that the name is not
looked at. From the pair on that is cut off it grants everything, and so all is read. -/

section Granted

variable {mem : Bytes} {tbl : Stringtab} {m : Heap}

theorem stringExtents_granted (mem : Bytes) (hm : m.Willing) (pos : Nat) {len : Nat}
    (hlen : len + 1 < 2 ^ 63) :
    ⟨pos, if len = 0 then strlen (mem.drop pos) + 1 else len⟩ ∈ stringExtents mem pos len m := by
  obtain ⟨hok, hm₁⟩ := hm.request
  unfold stringExtents
  dsimp only [Heap.malloc]
  rw [hok, if_pos rfl]
  by_cases hz : len = 0
  · rw [if_pos hz, if_pos hz]
    refine List.mem_append_left _ (List.mem_singleton.mpr ?_)
    rw [stringLen, if_pos hz]
  · have hn : stringLen (mem.drop pos) len = len := if_neg hz
    have hfits : decide (0 < len + 1 ∧ len + 1 < 2 ^ 63) = true :=
      decide_eq_true ⟨Nat.zero_lt_succ _, hlen⟩
    rw [if_neg hz, if_neg hz, hn, Heap.alloc, hfits, hm₁.willing.request.1, if_pos rfl]
    exact List.mem_singleton.mpr rfl

theorem keyExtents_granted (th : Hashtable.Threaded tbl) (hu : tbl.used < 2 ^ 31)
    (hno : ¬ Hashtable.BindsEmpty tbl) (hm : m.Willing) (pos : Nat) :
    ⟨pos, strlen (mem.drop pos) + 1⟩ ∈ keyExtents mem tbl pos 0 m := by
  obtain ⟨r, hr, hiff⟩ := th.find_empty (mem.drop pos)
  obtain rfl : r = none := not_not.mp (fun hne => hno (hiff.mp hne))
  obtain ⟨pb, ht₁, m₁, ha, -, -, hok⟩ := th.allocBucket_spec m
  have hgranted := allocBucket_granted hm ha
  obtain ⟨pb, rfl⟩ := Option.ne_none_iff_exists'.mp (hok hgranted.failures hu)
  unfold keyExtents
  rw [hr]
  dsimp only
  rw [ha]
  exact List.mem_cons_of_mem _ (stringExtents_granted mem hgranted.willing pos (by decide))

theorem setExtents_granted (mem : Bytes) (tbl : Stringtab) (hm : m.Willing)
    (name nameLen value : Nat) {valueLen : Nat}
    (hlen : valueLen + 1 < 2 ^ 63) : ∃ m', m'.Willing ∧
      (∀ e ∈ keyExtents mem tbl name nameLen m',
        e ∈ setExtents mem tbl name nameLen value valueLen m) ∧
      (valueLen ≠ 0 → ⟨value, valueLen⟩ ∈ setExtents mem tbl name nameLen value valueLen m) := by
  unfold setExtents
  by_cases hz : valueLen = 0
  · rw [if_pos hz]
    exact ⟨m, hm, fun e he => he, fun h => absurd hz h⟩
  · have hstr : stringLen (mem.drop value) valueLen + 1 < 2 ^ 63 := by
      rw [stringLen, if_neg hz]
      exact hlen
    have hgranted := efStringNew_granted hm hstr
    have hsome := (efStringNew_failures (mem.drop value) valueLen m).2 hgranted.failures
    have hmem := stringExtents_granted mem hm value hlen
    rw [if_neg hz] at hmem ⊢
    generalize efStringNew (some (mem.drop value)) valueLen m = out at hgranted hsome
    obtain ⟨str, m'⟩ := out
    obtain rfl : str = some _ := hsome
    exact ⟨m', hgranted.willing, fun e he => List.mem_append_right _ he,
      fun _ => List.mem_append_left _ hmem⟩

end Granted

/-- When everything is granted, a round whose reads stay in the block reads a pair. -/
theorem exists_param {data behind : Bytes} {pos : Nat} (hpos : pos ≤ data.length)
    {tbl : Stringtab} (th : Hashtable.Threaded tbl) (hu : tbl.used < 2 ^ 31) {m : Heap}
    (hm : m.Willing) (h : ∀ e ∈ paramExtents (data ++ behind) pos tbl m, e.Within data.length) :
    ∃ p : Param, ∃ rest, p.Fits ∧
      (p.name = [] → Hashtable.BindsEmpty tbl ∨ 0 ∈ p.value ++ rest) ∧
      data.drop pos = p.encode ++ rest := by
  have hle : data.length ≤ (data ++ behind).length := by
    rw [List.length_append]
    omega
  have hall : ∀ {e : Extent}, e.Within data.length → e.Within (data ++ behind).length :=
    fun he i hi hlt => Nat.lt_of_lt_of_le (he i hi hlt) hle
  have hdrop : ∀ {i}, i ≤ data.length → (data ++ behind).drop i = data.drop i ++ behind :=
    fun hi => List.drop_append_of_le_length hi
  -- the two lengths
  have he₁ := h (lengthExtent (data ++ behind) pos) (by simp [paramExtents])
  obtain ⟨long₁, n₁, rest₁, hn₁, hat₁⟩ := exists_encodeLength (hall he₁)
  have hread₁ := lengthAt_encode hn₁ hat₁
  rw [lengthExtent_encode hn₁ hat₁, Extent.within_iff] at he₁
  set pos₁ := pos + (encodeLength long₁ n₁).length with hpos₁
  have he₂ := h (lengthExtent (data ++ behind) pos₁) (by simp [paramExtents, hread₁])
  obtain ⟨long₂, n₂, rest₂, hn₂, hat₂⟩ := exists_encodeLength (hall he₂)
  have hread₂ := lengthAt_encode hn₂ hat₂
  rw [lengthExtent_encode hn₂ hat₂, Extent.within_iff] at he₂
  set pos₂ := pos₁ + (encodeLength long₂ n₂).length with hpos₂
  -- the name and the value
  have hset : ∀ e ∈ setExtents (data ++ behind) tbl pos₂ n₁ (pos₂ + n₁) n₂ m,
      e.Within data.length := fun e he => h e (by simp [paramExtents, hread₁, hread₂, he])
  have hsmall : n₂ < 2 ^ 31 := Nat.lt_of_lt_of_le hn₂ (by split <;> decide)
  obtain ⟨m', hm', hkey, hvalue⟩ := setExtents_granted (data ++ behind) tbl hm
    pos₂ n₁ (pos₂ + n₁) (show n₂ + 1 < 2 ^ 63 by omega)
  have he₃ := hset _ (hkey _ List.mem_cons_self)
  have he₄ := fun hz => Extent.within_iff.mp (hset _ (hvalue hz))
  rw [Extent.within_iff] at he₃
  have hk₁ := length_encodeLength_pos long₁ n₁
  have hk₂ := length_encodeLength_pos long₂ n₂
  dsimp only at he₁ he₂ he₃ he₄
  have hend : pos₂ + n₁ + n₂ ≤ data.length := by
    by_cases hz : n₂ = 0
    · omega
    · have := he₄ hz
      omega
  have hlen₁ : ((data.drop pos₂).take n₁).length = n₁ := by
    rw [List.length_take, List.length_drop]
    omega
  have hlen₂ : ((data.drop (pos₂ + n₁)).take n₂).length = n₂ := by
    rw [List.length_take, List.length_drop]
    omega
  have hbody : data.drop pos₂ = (data.drop pos₂).take n₁ ++ ((data.drop (pos₂ + n₁)).take n₂ ++
      data.drop (pos₂ + n₁ + n₂)) := by
    rw [← List.drop_drop (i := n₂), List.take_append_drop, ← List.drop_drop (i := n₁),
      List.take_append_drop]
  generalize (data.drop pos₂).take n₁ = name at hlen₁ hbody
  generalize (data.drop (pos₂ + n₁)).take n₂ = value at hlen₂ hbody
  have hrest₁ : rest₁ = encodeLength long₂ n₂ ++ rest₂ := by
    rw [← hat₂, hpos₁, ← List.drop_drop, hat₁, List.drop_left]
  have hrest₂ : rest₂ = data.drop pos₂ ++ behind := by
    rw [← hdrop (show pos₂ ≤ data.length by omega), hpos₂, ← List.drop_drop, hat₂, List.drop_left]
  refine ⟨⟨name, value, long₁, long₂⟩, data.drop (pos₂ + n₁ + n₂), ⟨?_, ?_⟩, ?_, ?_⟩
  · exact hlen₁.symm ▸ hn₁
  · exact hlen₂.symm ▸ hn₂
  · -- the search for a NUL ends in the block, if there is one
    intro hnil
    by_cases hbinds : Hashtable.BindsEmpty tbl
    · exact Or.inl hbinds
    dsimp only at hnil ⊢
    obtain rfl : n₁ = 0 := by
      rw [← hlen₁]
      exact List.length_eq_zero_iff.mpr hnil
    have hnul := hset _ (hkey _ (keyExtents_granted th hu hbinds hm' pos₂))
    rw [Extent.within_iff, hdrop (by omega)] at hnul
    dsimp only at hnul
    rw [hnil, List.nil_append] at hbody
    rw [← hbody]
    refine Or.inr ((strlen_append_lt (b := behind)).mp ?_)
    rw [List.length_drop]
    omega
  · apply (List.append_left_inj behind).mp
    rw [← hdrop hpos, hat₁, hrest₁, hrest₂, hbody, Param.encode]
    simp only [hlen₁, hlen₂, List.append_assoc]

theorem efStringtabSet_refused (tbl : Stringtab) (name value : Bytes) (nameLen valueLen : Nat)
    (os : List Bool) (c f : Nat) (d : List EfString) :
    efStringtabSet tbl name nameLen (some value) valueLen ⟨⟨false :: os, c, f⟩, d⟩ =
      some (some (none, tbl), ⟨⟨os, c + 1, f + 1⟩, d⟩) := rfl

theorem strlen_eq_zero {bs behind : Bytes} (hnul : 0 ∈ bs) :
    strlen (bs ++ behind) = 0 ↔ bs.head? = some 0 := by
  cases bs with
  | nil => cases hnul
  | cons x bs => by_cases hx : x = 0 <;> simp [strlen, hx]

section Null

variable {p : Param} {rest behind : Bytes} {bound : Prop} {tbl tbl' : Stringtab}

theorem Param.Fits.name_bound_or_short (hp : p.Fits) (hshort : rest.length + 1 < 2 ^ 63)
    (hb : bound ↔ Hashtable.BindsEmpty tbl) (hnul : p.name = [] → bound ∨ 0 ∈ rest)
    (behind : Bytes) :
    (p.name.length = 0 ∧ Hashtable.BindsEmpty tbl) ∨
      stringLen (p.name ++ (rest ++ behind)) p.name.length + 1 < 2 ^ 63 := by
  have hname : p.name.length < 2 ^ 31 := Nat.lt_of_lt_of_le hp.name_lt (by split <;> decide)
  unfold stringLen
  split
  next hz =>
    have hn := List.eq_nil_of_length_eq_zero hz
    refine (hnul hn).imp (fun h => ⟨hz, hb.mp h⟩) (fun h => ?_)
    have := strlen_append_lt (b := behind).mpr h
    rw [hn, List.nil_append]
    omega
  next => exact Or.inr (by omega)

theorem Param.bound_iff (hv : p.value = []) {pb : Nat}
    (hk : Hashtable.SetKeeps tbl tbl' (p.name ++ (rest ++ behind)) p.name.length (some pb))
    (hb : bound ↔ Hashtable.BindsEmpty tbl) (hnul : p.name = [] → bound ∨ 0 ∈ rest) :
    (bound ∨ (p.name = [] ∧ p.value = [] ∧ rest.head? = some 0)) ↔
      Hashtable.BindsEmpty tbl' := by
  constructor
  · rintro (h | ⟨hn, -, hhead⟩)
    · exact hk.keeps (hb.mp h)
    · refine hk.bound (Option.some_ne_none pb) (List.length_eq_zero_iff.mpr hn) ?_
      rw [hn]
      exact (strlen_eq_zero (List.mem_of_mem_head? hhead)).mpr hhead
  · intro h
    have hle : p.name.length ≤ (p.name ++ (rest ++ behind)).length := by
      rw [List.length_append]
      omega
    rcases hk.unbound hle h with h | ⟨hz, hs⟩
    · exact Or.inl (hb.mpr h)
    · have hn := List.eq_nil_of_length_eq_zero hz
      rw [hn] at hs
      exact (hnul hn).imp id (fun h => ⟨hn, hv, (strlen_eq_zero h).mp hs⟩)

end Null

/-- A block that does not contain its pairs is left by some pattern of allocations, if the
table has room for a name with every two bytes. -/
theorem exists_outside {data : Bytes} (behind : Bytes) (fuel : Nat) {pos : Nat}
    (hpos : pos ≤ data.length) (hfuel : data.length - pos < fuel) {tbl : Stringtab}
    (th : Hashtable.Threaded tbl) {bound : Prop} (hb : bound ↔ Hashtable.BindsEmpty tbl)
    (hroom : 2 * tbl.used + (data.length - pos) ≤ 2 ^ 32)
    (hno : ¬ Contained bound (data.drop pos)) : ∃ os, ∀ c f d,
    ∃ e ∈ paramsExtents (data ++ behind) data.length fuel pos tbl ⟨⟨os, c, f⟩, d⟩,
      ¬ e.Within data.length := by
  induction fuel generalizing pos tbl bound with
  | zero => omega
  | succ fuel ih =>
      have hlt : pos < data.length := by
        by_contra hge
        rw [List.drop_eq_nil_iff.mpr (Nat.not_lt.mp hge)] at hno
        exact hno .nil
      by_cases hpair : ∃ p : Param, ∃ rest, p.Fits ∧ (p.name = [] → bound ∨ 0 ∈ p.value ++ rest) ∧
          data.drop pos = p.encode ++ rest
      · obtain ⟨p, rest, hp, hnul, hdata⟩ := hpair
        have hmem : (data ++ behind).drop pos = p.encode ++ (rest ++ behind) := by
          rw [List.drop_append_of_le_length hpos, hdata, List.append_assoc]
        have hat := hp.paramAt_encode hmem
        have hlen := congrArg List.length hdata
        rw [List.length_drop, List.length_append] at hlen
        have htwo := p.two_le_length_encode
        have hno' : ¬ Contained (bound ∨ (p.name = [] ∧ p.value = [] ∧ rest.head? = some 0))
            (data.drop (pos + p.encode.length)) := by
          rw [← List.drop_drop, hdata, List.drop_left]
          exact fun hrest => hno (hdata ▸ .cons p rest hp hnul hrest)
        have hnext := fun {tbl'} (th' : Hashtable.Threaded tbl') hb' hroom' =>
          ih (show pos + p.encode.length ≤ data.length by omega) (by omega) th' hb' hroom' hno'
        by_cases hv : p.value = []
        · -- the name is bound to NULL
          rw [hv, List.nil_append] at hat hnul
          obtain ⟨pre, pb, tbl', hset⟩ := th.set_first (by omega)
            (hp.name_bound_or_short (by omega) hb hnul behind) none
          obtain ⟨r, tbl₁, w₁, hset₁, hk⟩ := th.set_spec (p.name ++ (rest ++ behind))
            p.name.length none ⟨⟨pre ++ [], 0, 0⟩, []⟩
          obtain ⟨c₁, d₁, hset₂⟩ := hset [] 0 0 []
          rw [hset₂] at hset₁
          cases hset₁
          obtain ⟨os, hos⟩ := hnext hk.threaded (p.bound_iff hv hk hb hnul)
            (by have := hk.used_le; omega)
          refine ⟨pre ++ os, fun c f d => ?_⟩
          obtain ⟨c', d', hset⟩ := hset os c f d
          obtain ⟨e, he, hout⟩ := hos c' f d'
          refine ⟨e, ?_, hout⟩
          rw [paramsExtents, if_pos hlt, hat]
          refine List.mem_append_right _ ?_
          dsimp only
          rw [if_neg (by simp), efStringtabSet_null, hset]
          exact he
        · -- the value is refused
          have hb' : (bound ∨ (p.name = [] ∧ p.value = [] ∧ rest.head? = some 0)) ↔
              Hashtable.BindsEmpty tbl := by
            rw [← hb]
            exact or_iff_left (fun h => hv h.2.1)
          obtain ⟨os, hos⟩ := hnext th hb' (by omega)
          refine ⟨false :: os, fun c f d => ?_⟩
          obtain ⟨e, he, hout⟩ := hos (c + 1) (f + 1) d
          refine ⟨e, ?_, hout⟩
          rw [paramsExtents, if_pos hlt, hat]
          refine List.mem_append_right _ ?_
          dsimp only
          rw [if_pos (by simp [hv]), efStringtabSet_refused]
          exact he
      · -- the pair that is cut off
        refine ⟨[], fun c f d => ?_⟩
        by_contra hall
        have hin : ∀ e ∈ paramExtents (data ++ behind) pos tbl ⟨[], c, f⟩, e.Within data.length := by
          intro e he
          by_contra hout
          refine hall ⟨e, ?_, hout⟩
          rw [paramsExtents, if_pos hlt]
          exact List.mem_append_left _ he
        obtain ⟨p, rest, hp, hnul, hdata⟩ := exists_param hpos th (by omega)
          (fun ok hok => absurd hok List.not_mem_nil) hin
        exact hpair ⟨p, rest, hp, fun hn => (hnul hn).imp hb.mpr id, hdata⟩

/-- Every read of a call stays in the block, whatever the allocator does, if the block contains
its pairs, and only then if the table has room for a name with every two bytes. -/
theorem fcgi_parse_params_in_bounds (data behind : Bytes) {tbl : Stringtab}
    (th : Hashtable.Threaded tbl) :
    (Contained (Hashtable.BindsEmpty tbl) data → StaysInside data behind tbl) ∧
      (2 * tbl.used + data.length ≤ 2 ^ 32 → StaysInside data behind tbl →
        Contained (Hashtable.BindsEmpty tbl) data) := by
  constructor
  · intro h w
    exact h.within behind _ (Nat.zero_le _) rfl th id w
  · intro hroom hin
    by_contra hno
    obtain ⟨os, hos⟩ := exists_outside behind (data.length + 1) (Nat.zero_le _) (by omega) th
      Iff.rfl (by omega) hno
    obtain ⟨e, he, hout⟩ := hos 0 0 []
    exact hout (hin _ e he)

/-- Two pairs without a name in a new table. The NUL behind the lengths of the first one is the
name length of the second, whose name is bound when it is read. -/
theorem fcgi_parse_params_in_bounds_bound :
    StaysInside [0, 0, 0, 1, 65] [66] (Hashtable.smallest EfString true) :=
  (fcgi_parse_params_in_bounds _ [66] (Hashtable.smallest_wf EfString true).threaded).1
    (.cons ⟨[], [], false, false⟩ [0, 1, 65] ⟨by decide, by decide⟩ (fun _ => Or.inr (by decide))
      (.cons ⟨[], [65], false, false⟩ [] ⟨by decide, by decide⟩
        (fun _ => Or.inl (Or.inr ⟨rfl, rfl, rfl⟩)) .nil))

/-- A block of one byte is read beyond its end. -/
theorem fcgi_parse_params_in_bounds_cut :
    ¬ ∀ (data behind : Bytes) (tbl : Stringtab), Hashtable.Threaded tbl →
      StaysInside data behind tbl := by
  intro h
  have hin := h [1] [] _ (Hashtable.smallest_wf EfString true).threaded ⟨⟨[], 0, 0⟩, []⟩ ⟨1, 1⟩
    (by simp [fcgiParamsExtents, paramsExtents, paramExtents, lengthAt, lengthExtent])
  exact absurd (hin 1 (Nat.le_refl 1) (by decide)) (by decide)

end EFramework
