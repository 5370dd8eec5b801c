import EFramework.FastCGI.Params

/-! # The cursor of `fcgi_parse_params`

Behind a list of encoded pairs the cursor stands at their end, and the table holds them
unless they have more names than it has room for.
-/

namespace EFramework

/-! ## The cursor -/

def paramsEnd (mem : Bytes) (len : Nat) : Nat → Nat → Option Nat
  | 0, _ => none
  | fuel + 1, pos =>
      if pos < len then do
        let (_, _, _, _, pos) ← paramAt mem pos
        paramsEnd mem len fuel pos
      else some pos

/-- A parser that returns has taken its cursor past the last pair. -/
theorem parseParamsLoop_end {mem : Bytes} {len fuel pos : Nat} {tbl tbl' : Stringtab}
    {w w' : World EfString}
    (h : parseParamsLoop mem len fuel pos tbl w = some (some tbl', w')) :
    ∃ stop, paramsEnd mem len fuel pos = some stop ∧ len ≤ stop := by
  induction fuel generalizing pos tbl w with
  | zero => cases h
  | succ fuel ih =>
      rw [parseParamsLoop] at h
      rw [paramsEnd]
      split at h
      next hlt =>
        rw [if_pos hlt]
        split at h
        next => cases h
        next name nameLen value valueLen pos' hat =>
          rw [hat]
          obtain ⟨⟨set, w₁⟩, _, hnext⟩ := Option.bind_eq_some_iff.mp h
          cases set with
          | none => cases hnext
          | some r => exact ih hnext
      next hge =>
        rw [if_neg hge]
        exact ⟨pos, rfl, Nat.not_lt.mp hge⟩

/-- Behind a list of pairs the cursor stands at their end. -/
theorem paramsEnd_encode {mem : Bytes} {len : Nat} (ps : List Param) (fuel pos : Nat)
    (rest : Bytes) (hps : ∀ p ∈ ps, p.Fits)
    (hmem : mem.drop pos = ps.flatMap Param.encode ++ rest)
    (hlen : len = pos + (ps.flatMap Param.encode).length) (hfuel : ps.length < fuel) :
    paramsEnd mem len fuel pos = some len := by
  induction ps generalizing fuel pos with
  | nil =>
      obtain ⟨fuel, rfl⟩ := Nat.exists_eq_add_of_le' (show 1 ≤ fuel by omega)
      rw [List.flatMap_nil, List.length_nil, Nat.add_zero] at hlen
      rw [paramsEnd, if_neg (by omega), hlen]
  | cons p ps ih =>
      obtain ⟨fuel, rfl⟩ := Nat.exists_eq_add_of_le' (show 1 ≤ fuel by omega)
      have hp := hps p (by simp)
      rw [List.flatMap_cons, List.append_assoc] at hmem
      rw [List.flatMap_cons, List.length_append] at hlen
      rw [List.length_cons] at hfuel
      have hpos := p.length_encode_pos
      have hat := hp.paramAt_encode hmem
      rw [paramsEnd, if_pos (by omega), hat]
      refine ih fuel _ (fun q hq => hps q (List.mem_cons_of_mem p hq)) ?_ (by omega) (by omega)
      rw [← List.drop_drop, hmem, List.drop_left]

/-! ## The round trip -/

/-- The call reads the pairs back and stops behind the last one. -/
def ReadsBack (ps : List Param) (mem : Bytes) (out : Option Stringtab) : Prop :=
  paramsEnd mem (ps.flatMap Param.encode).length
      ((ps.flatMap Param.encode).length + 1) 0 = some (ps.flatMap Param.encode).length ∧
    ∃ tbl, out = some tbl ∧ Hashtable.Wf tbl ∧ Hashtable.Represents tbl (Param.map ps)

/-- The encoding of a list of pairs is read back into an empty table if and only if the
list has no more names than the table can hold. -/
theorem fcgi_parse_params_round_trip {ps : List Param} (hps : ∀ p ∈ ps, p.Valid)
    {tbl : Stringtab} (wf : Hashtable.Wf tbl) (hempty : Hashtable.Represents tbl (fun _ => none))
    (behind : Bytes) (w : World EfString) :
    ∃ out w', fcgiParseParams tbl (ps.flatMap Param.encode ++ behind)
        (ps.flatMap Param.encode).length w = some (out, w') ∧
      (w'.heap.failures = w.heap.failures →
        (ReadsBack ps (ps.flatMap Param.encode ++ behind) out ↔
          (Param.names ps).card ≤ 2 ^ 31)) := by
  have hle := Param.length_le_length_encode ps
  have hk : Keeps tbl (fun _ => none) ∅ := ⟨wf, hempty, by simp⟩
  have hmem : (ps.flatMap Param.encode ++ behind).drop 0 = ps.flatMap Param.encode ++ behind := rfl
  obtain ⟨out, w', he, _, hout⟩ := parseParamsLoop_spec ps ((ps.flatMap Param.encode).length + 1) 0
    behind tbl _ ∅ w hps hmem (Nat.zero_add _).symm (by omega) hk
  refine ⟨out, w', he, fun hf => ?_⟩
  constructor
  · rintro ⟨_, tbl', _, wf', hm⟩
    exact Param.names_card_le wf' hm
  · intro hcard
    obtain ⟨tbl', rfl, wf', hm⟩ := (hout hf).2 (Param.freesNull_eq_false hcard)
    rw [Finset.empty_union] at hm
    refine ⟨?_, tbl', rfl, wf', hm hcard⟩
    exact paramsEnd_encode ps _ 0 behind (fun p hp => (hps p hp).fits) rfl (by omega) (by omega)

/-- Two values for one name, the second one empty, and a name with a NUL. -/
theorem fcgi_parse_params_round_trip_twice :
    ∃ tbl m out w', efStringtabNew 0 ⟨[], 0, 0⟩ = (some tbl, m) ∧
      fcgiParseParams tbl [1, 1, 65, 66, 0x80, 0, 0, 2, 1, 0, 67, 68, 1, 0, 65] 15 ⟨m, []⟩ =
        some (out, w') ∧
      ReadsBack [⟨[65], [66], false, false⟩, ⟨[0, 67], [68], true, false⟩,
        ⟨[65], [], false, false⟩] [1, 1, 65, 66, 0x80, 0, 0, 2, 1, 0, 67, 68, 1, 0, 65] out := by
  have hnew : efStringtabNew 0 ⟨[], 0, 0⟩ = (some ⟨8, hashSizemask 8, 0, 0, nil32, true,
      List.replicate 8 nil32, List.replicate 8 (Bucket.zero _)⟩, ⟨[], 2, 0⟩) := rfl
  obtain ⟨wf, hempty⟩ := (Stringtab.new_spec ⟨[], 0, 0⟩).2.2 _ (congrArg Prod.fst hnew)
  have hps : ∀ p ∈ [(⟨[65], [66], false, false⟩ : Param), ⟨[0, 67], [68], true, false⟩,
      ⟨[65], [], false, false⟩], p.Valid := by
    intro p hp
    simp only [List.mem_cons, List.not_mem_nil, or_false] at hp
    rcases hp with rfl | rfl | rfl <;> exact ⟨by decide, by decide, by decide⟩
  obtain ⟨out, w', he, hout⟩ := fcgi_parse_params_round_trip hps wf hempty [] ⟨⟨[], 2, 0⟩, []⟩
  have hfail : (fcgiParseParams ⟨8, hashSizemask 8, 0, 0, nil32, true, List.replicate 8 nil32,
      List.replicate 8 (Bucket.zero _)⟩ [1, 1, 65, 66, 0x80, 0, 0, 2, 1, 0, 67, 68, 1, 0, 65] 15
      ⟨⟨[], 2, 0⟩, []⟩).map (fun r => r.2.heap.failures) = some 0 := by decide +kernel
  refine ⟨_, _, out, w', hnew, he, (hout ?_).mpr (by decide)⟩
  have hrun := congrArg (Option.map (fun r : Option Stringtab × World EfString =>
    r.2.heap.failures)) he
  exact Option.some.inj (hrun.symm.trans hfail)

/-! ## Too many names -/

/-- A pair for each number below `n`, with the number as its name. -/
def Param.numbered (n : Nat) : List Param :=
  (List.range n).map (fun i => ⟨encodeLength true i, [1], false, false⟩)

theorem encodeLength_inj {m n : Nat} (hm : m < 2 ^ 32) (hn : n < 2 ^ 32)
    (h : encodeLength true m = encodeLength true n) : m = n := by
  simp only [encodeLength, if_true, List.cons.injEq, and_true] at h
  obtain ⟨h₃, h₂, h₁, h₀⟩ := h
  have hval : ∀ i j : Nat, UInt8.ofNat i = UInt8.ofNat j → i % 256 = j % 256 := by
    intro i j h
    simpa only [UInt8.toNat_ofNat'] using congrArg UInt8.toNat h
  have h₃ := hval _ _ h₃
  have h₂ := hval _ _ h₂
  have h₁ := hval _ _ h₁
  have h₀ := hval _ _ h₀
  omega

namespace Param

theorem numbered_valid (n : Nat) : ∀ p ∈ numbered n, p.Valid := by
  intro p hp
  obtain ⟨i, _, rfl⟩ := List.mem_map.mp hp
  exact ⟨List.cons_ne_nil _ _, show 4 < 128 by decide, show 1 < 128 by decide⟩

theorem names_numbered {n : Nat} (hn : n ≤ 2 ^ 32) : (names (numbered n)).card = n := by
  have hnames : (numbered n).map name = (List.range n).map (encodeLength true) := by
    rw [numbered, List.map_map]
    rfl
  have hnodup : ((List.range n).map (encodeLength true)).Nodup := by
    refine List.Nodup.map_on ?_ List.nodup_range
    intro i hi j hj h
    have hi := List.mem_range.mp hi
    have hj := List.mem_range.mp hj
    exact encodeLength_inj (by omega) (by omega) h
  rw [names, hnames, List.toFinset_card_of_nodup hnodup, List.length_map, List.length_range]

theorem length_encode_numbered (n : Nat) : ((numbered n).flatMap encode).length = 7 * n := by
  have hlen : ∀ ns : List Nat, ((ns.map (fun i => (⟨encodeLength true i, [1], false, false⟩ :
      Param))).flatMap encode).length = 7 * ns.length := by
    intro ns
    induction ns with
    | nil => rfl
    | cons i ns ih =>
        rw [List.map_cons, List.flatMap_cons, List.length_append, ih, List.length_cons]
        change 7 + _ = _
        omega
  rw [numbered, hlen, List.length_range]

end Param

theorem paramAt_le {mem name value : Bytes} {pos nameLen valueLen pos' : Nat}
    (h : paramAt mem pos = some (name, nameLen, value, valueLen, pos')) :
    stringLen name nameLen ≤ mem.length ∧ stringLen value valueLen ≤ mem.length := by
  have hstr : ∀ n k, stringLen (mem.drop n) k ≤ max k mem.length := by
    intro n k
    unfold stringLen strlen
    have h₁ := (List.takeWhile_prefix (l := mem.drop n) (· ≠ 0)).length_le
    rw [List.length_drop] at h₁
    split <;> omega
  obtain ⟨⟨n₁, p₁⟩, _, h⟩ := Option.bind_eq_some_iff.mp h
  obtain ⟨⟨n₂, p₂⟩, _, h⟩ := Option.bind_eq_some_iff.mp h
  have h₁ := hstr p₂ n₁
  have h₂ := hstr (p₂ + n₁) n₂
  dsimp only at h
  split at h
  next hle =>
    cases h
    omega
  next => cases h

theorem parseParamsLoop_granted {mem : Bytes} (hmem : mem.length < 2 ^ 62) {len fuel pos : Nat}
    {tbl : Stringtab} {w w' : World EfString} {out : Option Stringtab} (hw : w.heap.Willing)
    (h : parseParamsLoop mem len fuel pos tbl w = some (out, w')) : w.heap.Granted w'.heap := by
  induction fuel generalizing pos tbl w with
  | zero => cases h
  | succ fuel ih =>
      rw [parseParamsLoop] at h
      split at h
      next =>
        split at h
        next =>
          cases h
          exact hw.refl
        next name nameLen value valueLen pos' hat =>
          obtain ⟨hkey, hval⟩ := paramAt_le hat
          obtain ⟨⟨set, w₁⟩, hset, hnext⟩ := Option.bind_eq_some_iff.mp h
          have h₁ : w.heap.Granted w₁.heap := by
            refine efStringtabSet_granted hw (Nat.lt_of_le_of_lt hkey hmem) ?_ hset
            intro p hp
            split at hp
            · cases hp
              exact Nat.lt_of_le_of_lt hval hmem
            · cases hp
          cases set with
          | none =>
              cases hnext
              exact h₁
          | some r => exact h₁.trans (ih h₁.willing hnext)
      next =>
        cases h
        exact hw.refl

/-- The last of too many names is left out, though every allocation succeeds. -/
theorem fcgi_parse_params_round_trip_many :
    (∀ p ∈ Param.numbered (2 ^ 31 + 1), p.Valid) ∧ ∃ tbl m out w',
      efStringtabNew 0 ⟨[], 0, 0⟩ = (some tbl, m) ∧
      fcgiParseParams tbl ((Param.numbered (2 ^ 31 + 1)).flatMap Param.encode)
        ((Param.numbered (2 ^ 31 + 1)).flatMap Param.encode).length ⟨m, []⟩ = some (out, w') ∧
      w'.heap.failures = 0 ∧ ¬ ReadsBack (Param.numbered (2 ^ 31 + 1))
        ((Param.numbered (2 ^ 31 + 1)).flatMap Param.encode) out := by
  have hnew : efStringtabNew 0 ⟨[], 0, 0⟩ = (some ⟨8, hashSizemask 8, 0, 0, nil32, true,
      List.replicate 8 nil32, List.replicate 8 (Bucket.zero _)⟩, ⟨[], 2, 0⟩) := rfl
  obtain ⟨wf, hempty⟩ := (Stringtab.new_spec ⟨[], 0, 0⟩).2.2 _ (congrArg Prod.fst hnew)
  have hvalid := Param.numbered_valid (2 ^ 31 + 1)
  have hnames := Param.names_numbered (show 2 ^ 31 + 1 ≤ 2 ^ 32 by omega)
  have hlen := Param.length_encode_numbered (2 ^ 31 + 1)
  generalize Param.numbered (2 ^ 31 + 1) = ps at hvalid hnames hlen ⊢
  have hk : Keeps _ (fun _ => none) ∅ := ⟨wf, hempty, by simp⟩
  have hle := Param.length_le_length_encode ps
  have hmem : (ps.flatMap Param.encode).drop 0 = ps.flatMap Param.encode ++ [] := by
    rw [List.drop_zero, List.append_nil]
  obtain ⟨out, w', he, _, _⟩ := parseParamsLoop_spec ps ((ps.flatMap Param.encode).length + 1) 0
    [] _ _ ∅ ⟨⟨[], 2, 0⟩, []⟩ hvalid hmem (Nat.zero_add _).symm (by omega) hk
  have hgranted := parseParamsLoop_granted (by omega) (by intro ok hok; cases hok) he
  refine ⟨hvalid, _, _, out, w', hnew, he, hgranted.failures, ?_⟩
  rintro ⟨_, tbl', _, wf', hm⟩
  have hcard := Param.names_card_le wf' hm
  omega

end EFramework
