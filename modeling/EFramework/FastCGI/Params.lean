import EFramework.FastCGI.Protocol

/-! # Name-value pairs

`fcgi_parse_params` walks over a block of memory and sets one string for each pair.
A length below 128 may take one byte, and any length four. Names are distinct keys
of a table that holds at most `2 ^ 31` of them, so a later name may be refused;
refusing a name whose value is empty frees a NULL string.
-/

namespace EFramework

/-! ## The parser -/

/-- A length at `pos` and the position behind it. Reading past the block is `none`. -/
def lengthAt (mem : Bytes) (pos : Nat) : Option (Nat × Nat) := do
  let b₃ ← mem[pos]?
  if 128 ≤ b₃.toNat then
    let b₂ ← mem[pos + 1]?
    let b₁ ← mem[pos + 2]?
    let b₀ ← mem[pos + 3]?
    pure ((b₃.toNat &&& 0x7f) <<< 24 ||| b₂.toNat <<< 16 ||| b₁.toNat <<< 8 ||| b₀.toNat, pos + 4)
  else pure (b₃.toNat, pos + 1)

/-- One round of the loop up to `ef_stringtab_set`: the name, its length, the value,
its length, and the new position. -/
def paramAt (mem : Bytes) (pos : Nat) : Option (Bytes × Nat × Bytes × Nat × Nat) := do
  let (nameLen, pos) ← lengthAt mem pos
  let (valueLen, pos) ← lengthAt mem pos
  let name := mem.drop pos
  let value := mem.drop (pos + nameLen)
  let pos := pos + nameLen + valueLen
  if pos ≤ mem.length then pure (name, nameLen, value, valueLen, pos) else none

/-- The inner `none` is a read past the block or the release of a NULL string. -/
def parseParamsLoop (mem : Bytes) (len : Nat) :
    Nat → Nat → Stringtab → World EfString → Option (Option Stringtab × World EfString)
  | 0, _, _, _ => none
  | fuel + 1, pos, tbl, w =>
      if pos < len then
        match paramAt mem pos with
        | none => some (none, w)
        | some (name, nameLen, value, valueLen, pos) => do
            let (set, w) ← efStringtabSet tbl name nameLen
              (if valueLen ≠ 0 then some value else none) valueLen w
            match set with
            | none => pure (none, w)
            | some (_, tbl) => parseParamsLoop mem len fuel pos tbl w
      else some (some tbl, w)

/-- The return value is always 0. Each round goes on by two bytes or more. -/
def fcgiParseParams (tbl : Stringtab) (mem : Bytes) (len : Nat) (w : World EfString) :
    Option (Option Stringtab × World EfString) :=
  parseParamsLoop mem len (len + 1) 0 tbl w

/-! ## The encoding -/

structure Param where
  name : Bytes
  value : Bytes
  /-- Whether the lengths are written with four bytes. -/
  longName : Bool
  longValue : Bool
deriving Repr, DecidableEq

def encodeLength (long : Bool) (n : Nat) : Bytes :=
  if long then
    [UInt8.ofNat (128 + n / 2 ^ 24), UInt8.ofNat (n / 2 ^ 16), UInt8.ofNat (n / 2 ^ 8), UInt8.ofNat n]
  else [UInt8.ofNat n]

namespace Param

structure Valid (p : Param) : Prop where
  name_ne : p.name ≠ []
  name_lt : p.name.length < if p.longName then 2 ^ 31 else 128
  value_lt : p.value.length < if p.longValue then 2 ^ 31 else 128

structure Fits (p : Param) : Prop where
  name_lt : p.name.length < if p.longName then 2 ^ 31 else 128
  value_lt : p.value.length < if p.longValue then 2 ^ 31 else 128

theorem Valid.fits {p : Param} (hp : p.Valid) : p.Fits := ⟨hp.name_lt, hp.value_lt⟩

def encode (p : Param) : Bytes :=
  encodeLength p.longName p.name.length ++ (encodeLength p.longValue p.value.length ++
    (p.name ++ p.value))

theorem two_le_length_encode (p : Param) : 2 ≤ p.encode.length := by
  have hpos : ∀ long n, 0 < (encodeLength long n).length := by
    intro long n
    cases long <;> exact Nat.zero_lt_succ _
  have h₁ := hpos p.longName p.name.length
  have h₂ := hpos p.longValue p.value.length
  rw [encode, List.length_append, List.length_append]
  omega

theorem length_encode_pos (p : Param) : 0 < p.encode.length :=
  Nat.lt_of_lt_of_le Nat.zero_lt_two p.two_le_length_encode

theorem length_le_length_encode (ps : List Param) :
    ps.length ≤ (ps.flatMap encode).length := by
  induction ps with
  | nil => exact Nat.zero_le _
  | cons p ps ih =>
      have := p.length_encode_pos
      rw [List.flatMap_cons, List.length_append, List.length_cons]
      omega

/-- The map a list of pairs stands for: the last value of a name, NULL when empty. -/
def mapFrom (m : KeyMap EfString) (ps : List Param) : KeyMap EfString :=
  ps.foldl (fun m p => Function.update m p.name (some (Stringtab.storedValue p.value))) m

def map (ps : List Param) : KeyMap EfString := mapFrom (fun _ => none) ps

def names (ps : List Param) : Finset Bytes := (ps.map name).toFinset

/-- A pair with an empty value comes for a name that a table with the names `kept`
refuses. -/
def freesNull (kept : Finset Bytes) : List Param → Bool
  | [] => false
  | p :: ps =>
      if p.name ∈ kept then freesNull kept ps
      else if kept.card < 2 ^ 31 then freesNull (insert p.name kept) ps
      else p.value.isEmpty || freesNull kept ps

end Param

/-! ## Reading one pair -/

/-- Four bytes put together by shifts. -/
theorem shift_or_eq (a b c d : Nat) (hb : b < 256) (hc : c < 256) (hd : d < 256) :
    a <<< 24 ||| b <<< 16 ||| c <<< 8 ||| d = a * 2 ^ 24 + b * 2 ^ 16 + c * 2 ^ 8 + d := by
  have h₁ : a <<< 24 ||| b <<< 16 = (a * 2 ^ 8 + b) <<< 16 := by
    rw [show a <<< 24 = (a <<< 8) <<< 16 by rw [← Nat.shiftLeft_add], ← Nat.shiftLeft_or_distrib,
      ← Nat.shiftLeft_add_eq_or_of_lt (show b < 2 ^ 8 by omega)]
    simp only [Nat.shiftLeft_eq]
  have h₂ : (a * 2 ^ 8 + b) <<< 16 ||| c <<< 8 = ((a * 2 ^ 8 + b) * 2 ^ 8 + c) <<< 8 := by
    rw [show (a * 2 ^ 8 + b) <<< 16 = ((a * 2 ^ 8 + b) <<< 8) <<< 8 by rw [← Nat.shiftLeft_add],
      ← Nat.shiftLeft_or_distrib, ← Nat.shiftLeft_add_eq_or_of_lt (show c < 2 ^ 8 by omega)]
    simp only [Nat.shiftLeft_eq]
  rw [h₁, h₂, ← Nat.shiftLeft_add_eq_or_of_lt (show d < 2 ^ 8 by omega), Nat.shiftLeft_eq]
  omega

theorem lengthAt_encode {mem rest : Bytes} {pos n : Nat} {long : Bool}
    (hn : n < if long then 2 ^ 31 else 128) (h : mem.drop pos = encodeLength long n ++ rest) :
    lengthAt mem pos = some (n, pos + (encodeLength long n).length) := by
  have hget : ∀ i, mem[pos + i]? = (encodeLength long n ++ rest)[i]? := by
    intro i
    rw [← h, List.getElem?_drop]
  have h₀ := hget 0
  rw [Nat.add_zero] at h₀
  unfold lengthAt
  cases long with
  | false =>
      simp only [Bool.false_eq_true, if_false] at hn
      have hb : (UInt8.ofNat n).toNat = n := by
        rw [UInt8.toNat_ofNat']
        omega
      simp [h₀, encodeLength, hb, show ¬ 128 ≤ n by omega]
  | true =>
      simp only [if_true] at hn
      have hb₃ : (UInt8.ofNat (128 + n / 2 ^ 24)).toNat = 128 + n / 2 ^ 24 := by
        rw [UInt8.toNat_ofNat']
        omega
      have hmask : (128 + n / 2 ^ 24) &&& 0x7f = n / 2 ^ 24 := by
        rw [show 0x7f = 2 ^ 7 - 1 from rfl, Nat.and_two_pow_sub_one_eq_mod]
        omega
      have h256 : ∀ k, (UInt8.ofNat k).toNat = k % 256 := fun k => UInt8.toNat_ofNat'
      have hvalue := shift_or_eq (n / 2 ^ 24) (n / 2 ^ 16 % 256) (n / 2 ^ 8 % 256) (n % 256)
        (by omega) (by omega) (by omega)
      rw [h₀, hget 1, hget 2, hget 3]
      simp only [encodeLength, if_true, List.cons_append, List.getElem?_cons_zero,
        List.getElem?_cons_succ, Option.bind_eq_bind, Option.bind_some, hb₃]
      rw [if_pos (by omega), hmask]
      simp only [h256, hvalue, Option.pure_def, List.length_cons, List.length_nil]
      congr 2
      omega

theorem Param.Fits.paramAt_encode {p : Param} (hp : p.Fits) {mem rest : Bytes} {pos : Nat}
    (h : mem.drop pos = p.encode ++ rest) :
    paramAt mem pos = some (p.name ++ (p.value ++ rest), p.name.length, p.value ++ rest,
      p.value.length, pos + p.encode.length) := by
  set n₁ := (encodeLength p.longName p.name.length).length with hn₁
  set n₂ := (encodeLength p.longValue p.value.length).length with hn₂
  have hdrop₁ : mem.drop (pos + n₁) =
      encodeLength p.longValue p.value.length ++ (p.name ++ (p.value ++ rest)) := by
    rw [← List.drop_drop, h, Param.encode, List.append_assoc, hn₁, List.drop_left]
    simp
  have hdrop₂ : mem.drop (pos + n₁ + n₂) = p.name ++ (p.value ++ rest) := by
    rw [← List.drop_drop, hdrop₁, hn₂, List.drop_left]
  have hdrop₃ : mem.drop (pos + n₁ + n₂ + p.name.length) = p.value ++ rest := by
    rw [← List.drop_drop, hdrop₂, List.drop_left]
  have h₁ : lengthAt mem pos = some (p.name.length, pos + n₁) := by
    rw [Param.encode, List.append_assoc] at h
    exact lengthAt_encode hp.name_lt h
  have h₂ : lengthAt mem (pos + n₁) = some (p.value.length, pos + n₁ + n₂) :=
    lengthAt_encode hp.value_lt hdrop₁
  have hlen : p.encode.length = n₁ + n₂ + p.name.length + p.value.length := by
    simp only [Param.encode, List.length_append]
    omega
  have hmem : pos + p.encode.length ≤ mem.length := by
    have hl := congrArg List.length h
    have hpos : 0 < n₁ := by
      rw [hn₁, encodeLength]
      split <;> simp
    rw [List.length_drop, List.length_append] at hl
    omega
  unfold paramAt
  simp only [h₁, h₂, Option.bind_eq_bind, Option.bind_some]
  rw [if_pos (by omega), hdrop₂, hdrop₃, show pos + n₁ + n₂ + p.name.length + p.value.length =
    pos + p.encode.length by omega]
  rfl

/-! ## Reading a list of pairs -/

namespace Param

theorem names_cons (p : Param) (ps : List Param) :
    names (p :: ps) = insert p.name (names ps) := by
  simp [names]

/-- A name that there is room for, or that is there already. -/
theorem freesNull_stored {kept : Finset Bytes} {p : Param} {ps : List Param}
    (h : (insert p.name kept).card ≤ 2 ^ 31) :
    freesNull kept (p :: ps) = freesNull (insert p.name kept) ps := by
  rw [freesNull]
  by_cases hin : p.name ∈ kept
  · rw [if_pos hin, Finset.insert_eq_of_mem hin]
  · rw [Finset.card_insert_of_notMem hin] at h
    rw [if_neg hin, if_pos (by omega)]

theorem freesNull_refused {kept : Finset Bytes} {p : Param} {ps : List Param}
    (hin : p.name ∉ kept) (hcard : 2 ^ 31 ≤ kept.card) :
    freesNull kept (p :: ps) = (p.value.isEmpty || freesNull kept ps) := by
  rw [freesNull, if_neg hin, if_neg (Nat.not_lt.mpr hcard)]

theorem mapFrom_ne_none {m : KeyMap EfString} {ps : List Param} {k : Bytes} :
    mapFrom m ps k ≠ none ↔ m k ≠ none ∨ k ∈ names ps := by
  induction ps generalizing m with
  | nil => simp [mapFrom, names]
  | cons p ps ih =>
      have hstep : mapFrom m (p :: ps) =
          mapFrom (Function.update m p.name (some (Stringtab.storedValue p.value))) ps := rfl
      rw [hstep, ih, names_cons, Finset.mem_insert, Function.update_apply]
      by_cases hk : k = p.name <;> simp [hk]

end Param

/-- The parser reads the pairs back. Without a failed allocation it fails only when
it frees a NULL string, and its table holds all pairs unless there are too many names. -/
theorem parseParamsLoop_spec {mem : Bytes} {len : Nat} (ps : List Param) (fuel pos : Nat)
    (rest : Bytes) (tbl : Stringtab) (m : KeyMap EfString) (kept : Finset Bytes)
    (w : World EfString) (hps : ∀ p ∈ ps, p.Valid)
    (hmem : mem.drop pos = ps.flatMap Param.encode ++ rest)
    (hlen : len = pos + (ps.flatMap Param.encode).length) (hfuel : ps.length < fuel)
    (hk : Keeps tbl m kept) :
    ∃ out w', parseParamsLoop mem len fuel pos tbl w = some (out, w') ∧
      w.heap.failures ≤ w'.heap.failures ∧
      (w'.heap.failures = w.heap.failures →
        (Param.freesNull kept ps = true → out = none) ∧
        (Param.freesNull kept ps = false → ∃ tbl', out = some tbl' ∧ Hashtable.Wf tbl' ∧
          ((kept ∪ Param.names ps).card ≤ 2 ^ 31 →
            Hashtable.Represents tbl' (Param.mapFrom m ps)))) := by
  induction ps generalizing fuel pos tbl m kept w with
  | nil =>
      obtain ⟨fuel, rfl⟩ := Nat.exists_eq_add_of_le' (show 1 ≤ fuel by omega)
      rw [parseParamsLoop, if_neg (by rw [hlen]; simp)]
      exact ⟨_, w, rfl, Nat.le_refl _, fun _ =>
        ⟨fun h => by simp [Param.freesNull] at h, fun _ => ⟨tbl, rfl, hk.wf, fun _ => hk.represents⟩⟩⟩
  | cons p ps ih =>
      obtain ⟨fuel, rfl⟩ := Nat.exists_eq_add_of_le' (show 1 ≤ fuel by omega)
      have hp := hps p (by simp)
      rw [List.flatMap_cons, List.append_assoc] at hmem
      rw [List.flatMap_cons, List.length_append] at hlen
      rw [List.length_cons] at hfuel
      have hpos := p.length_encode_pos
      have hparam := hp.fits.paramAt_encode hmem
      have hname : (p.name ++ (p.value ++ (ps.flatMap Param.encode ++ rest))).take p.name.length =
          p.name := List.take_left
      have hvalue : (p.value ++ (ps.flatMap Param.encode ++ rest)).take p.value.length =
          p.value := List.take_left
      have hnamelen : p.name.length ≤
          (p.name ++ (p.value ++ (ps.flatMap Param.encode ++ rest))).length := by
        rw [List.length_append]
        omega
      generalize p.name ++ (p.value ++ (ps.flatMap Param.encode ++ rest)) = name
        at hparam hname hnamelen
      generalize p.value ++ (ps.flatMap Param.encode ++ rest) = value at hparam hvalue
      obtain ⟨out, w₁, hset, hle₁, hcase⟩ := Stringtab.set_spec hk.wf hk.represents
        (List.length_pos_iff.mpr hp.name_ne) hnamelen value hvalue w
      rw [hname] at hcase
      rw [parseParamsLoop, if_pos (by omega), hparam]
      dsimp only
      rw [hset]
      simp only [Option.bind_eq_bind, Option.bind_some]
      have hmem' : mem.drop (pos + p.encode.length) = ps.flatMap Param.encode ++ rest := by
        rw [← List.drop_drop, hmem, List.drop_left]
      have hps' := fun q hq => hps q (List.mem_cons_of_mem p hq)
      rcases hcase with ⟨ret, tb', rfl, wf', hm'⟩ | ⟨ret, tb', rfl, wf', hm', hfull⟩ | ⟨rfl, hv, hfull⟩
      · -- the pair is stored
        have hk' := hk.stored wf' hm'
        obtain ⟨out, w', he, hle, hout⟩ := ih fuel (pos + p.encode.length) tb' _ _ w₁ hps' hmem'
          (by omega) (by omega) hk'
        refine ⟨out, w', he, by omega, fun h => ?_⟩
        rw [Param.freesNull_stored hk'.card_le, Param.names_cons, Finset.union_insert,
          ← Finset.insert_union]
        exact hout (by omega)
      · -- the pair is refused, and left out
        obtain ⟨out, w', he, hle, hout⟩ := ih fuel (pos + p.encode.length) tb' m kept w₁ hps' hmem'
          (by omega) (by omega) ⟨wf', hm', hk.keys⟩
        refine ⟨out, w', he, by omega, fun h => ?_⟩
        obtain ⟨habsent, hused, hvne⟩ := hfull (by omega)
        rw [hk.used_eq] at hused
        have hin := hk.not_mem habsent
        have hfrees : Param.freesNull kept (p :: ps) = Param.freesNull kept ps := by
          rw [Param.freesNull_refused hin (by omega)]
          simp [hvne]
        rw [hfrees]
        obtain ⟨hcrash, hgood⟩ := hout (by omega)
        refine ⟨hcrash, fun hf => ?_⟩
        obtain ⟨tbl', rfl, wf'', _⟩ := hgood hf
        refine ⟨tbl', rfl, wf'', fun hcard => ?_⟩
        have hlt := Finset.card_lt_card (Finset.ssubset_insert hin)
        have hsub : insert p.name kept ⊆ kept ∪ Param.names (p :: ps) := by
          rw [Param.names_cons]
          intro k hk'
          rcases Finset.mem_insert.mp hk' with rfl | hk'
          · exact Finset.mem_union_right _ (Finset.mem_insert_self _ _)
          · exact Finset.mem_union_left _ hk'
        have := Finset.card_le_card hsub
        omega
      · -- a NULL string is freed
        refine ⟨none, w₁, rfl, hle₁, fun h => ⟨fun _ => rfl, fun hf => ?_⟩⟩
        obtain ⟨habsent, hused⟩ := hfull h
        rw [hk.used_eq] at hused
        have hin := hk.not_mem habsent
        rw [Param.freesNull_refused hin (by omega), hv] at hf
        simp at hf

/-! ## Room for names -/

/-- A table holds no more names than it has room for. -/
theorem Param.names_card_le {tb : Stringtab} (wf : Hashtable.Wf tb) {ps : List Param}
    (hm : Hashtable.Represents tb (Param.map ps)) : (Param.names ps).card ≤ 2 ^ 31 :=
  Keeps.card_le ⟨wf, hm, fun k => by simp [Param.map, Param.mapFrom_ne_none]⟩

theorem Param.freesNull_of_card {kept : Finset Bytes} {ps : List Param}
    (h : (kept ∪ Param.names ps).card ≤ 2 ^ 31) : Param.freesNull kept ps = false := by
  induction ps generalizing kept with
  | nil => rfl
  | cons p ps ih =>
      rw [Param.names_cons, Finset.union_insert, ← Finset.insert_union] at h
      have hsub := Finset.card_le_card
        (Finset.subset_union_left : insert p.name kept ⊆ insert p.name kept ∪ Param.names ps)
      rw [Param.freesNull_stored (Nat.le_trans hsub h)]
      exact ih h

/-- A NULL string is freed only when there are more names than a table has room for. -/
theorem Param.freesNull_eq_false {ps : List Param} (h : (Param.names ps).card ≤ 2 ^ 31) :
    Param.freesNull ∅ ps = false :=
  Param.freesNull_of_card (by rwa [Finset.empty_union])

end EFramework
