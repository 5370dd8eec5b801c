import EFramework.Http.Response

/-! # Parsing a header block

`http_parse_resp_header` reads one line and writes NULs into it. What it leaves behind
is never read again, so every call starts on text that is as it came. The length of a line
is returned as an `int`, and the table takes `2 ^ 31` names.
-/

namespace EFramework

open Lib

/-! ## The parser -/

structure HeaderCall where
  ret : Int
  status : RespStatus
  mem : Bytes
  headers : Stringtab
  world : World EfString
deriving Repr, DecidableEq

/-- `start` is a position in `mem`. The result of `ef_stringtab_set` is not looked at. -/
def httpParseRespHeader (status : RespStatus) (mem : Bytes) (start : Nat) (headers : Stringtab)
    (w : World EfString) : Option HeaderCall := do
  let text := mem.drop start
  if ← CString.startsWith crlf text then pure ⟨2, .body, mem, headers, w⟩
  else
    match ← strstr text crlf with
    | none => pure ⟨-1, status, mem, headers, w⟩
    | some len =>
        let stop := start + len
        match ← strstr text colon with
        | none => pure ⟨toInt32 len, status, mem, headers, w⟩
        | some off =>
            let pos := start + off
            let header := start + (← CString.skip 32 text)
            let mem := mem.set pos 0
            let val := pos + 1 + (← CString.skip 32 (mem.drop (pos + 1)))
            let mem := mem.set stop 0
            let mem ← strtolower mem header (strlen (mem.drop header))
            let (set, w) ← efStringtabSet headers (mem.drop header) (pos - header)
              (some (mem.drop val)) (sizeSub stop val) w
            let (_, headers) ← set
            pure ⟨toInt32 (len + 2), status, mem, headers, w⟩

structure HeaderWalk where
  status : RespStatus
  mem : Bytes
  start : Nat
  headers : Stringtab
  world : World EfString
deriving Repr, DecidableEq

def HeaderWalk.step (st : HeaderWalk) : Option HeaderWalk := do
  let call ← httpParseRespHeader st.status st.mem st.start st.headers st.world
  if 0 ≤ st.start + call.ret then
    pure ⟨call.status, call.mem, (st.start + call.ret).toNat, call.headers, call.world⟩
  else none

def HeaderWalk.run : Nat → HeaderWalk → Option (Nat × HeaderWalk)
  | 0, _ => none
  | fuel + 1, st =>
      if st.status = .header then do
        let st ← st.step
        let (calls, st) ← run fuel st
        pure (calls + 1, st)
      else some (0, st)

/-! ## Header blocks -/

structure HeaderField where
  name : Bytes
  /-- The number of spaces before the value. -/
  spaces : Nat
  value : Bytes
deriving Repr, DecidableEq

namespace HeaderField

structure Valid (h : HeaderField) : Prop where
  name_text : ∀ c ∈ h.name, c ≠ 58 ∧ c ≠ 13 ∧ c ≠ 10 ∧ c ≠ 0
  name_head : ∀ c ∈ h.name.head?, c ≠ 32
  value_text : ∀ c ∈ h.value, c ≠ 13 ∧ c ≠ 10 ∧ c ≠ 0
  value_head : ∀ c ∈ h.value.head?, c ≠ 32

def key (h : HeaderField) : Bytes := h.name.map toLower

def line (h : HeaderField) : Bytes :=
  h.name ++ 58 :: (List.replicate h.spaces 32 ++ (h.value ++ crlf))

def parsed (h : HeaderField) : Bytes :=
  h.key ++ 0 :: (List.replicate h.spaces 32 ++ (h.value ++ [0, 10]))

/-- The map a list of headers stands for: the last value of a name. -/
def mapFrom (m : KeyMap EfString) (hs : List HeaderField) : KeyMap EfString :=
  hs.foldl (fun m h => Function.update m h.key (some (some ⟨h.value⟩))) m

def map (hs : List HeaderField) : KeyMap EfString := mapFrom (fun _ => none) hs

def keys (hs : List HeaderField) : Finset Bytes := (hs.map key).toFinset

theorem length_line (h : HeaderField) :
    h.line.length = h.name.length + (h.spaces + h.value.length) + 3 := by
  simp only [line, crlf, List.length_append, List.length_cons, List.length_replicate,
    List.length_nil]
  omega

theorem length_parsed (h : HeaderField) : h.parsed.length = h.line.length := by
  simp [line, parsed, key, crlf]

theorem length_flatMap_parsed (hs : List HeaderField) :
    (hs.flatMap parsed).length = (hs.flatMap line).length := by
  rw [List.length_flatMap, List.length_flatMap]
  simp only [length_parsed]

/-- There are not more headers than bytes, nor is one of them longer than all. -/
theorem length_le_flatMap_line (hs : List HeaderField) :
    hs.length ≤ (hs.flatMap line).length ∧ ∀ h ∈ hs, h.line.length ≤ (hs.flatMap line).length := by
  induction hs with
  | nil => exact ⟨Nat.le_refl _, fun h hh => absurd hh List.not_mem_nil⟩
  | cons h hs ih =>
      have hlen := h.length_line
      rw [List.flatMap_cons, List.length_append, List.length_cons]
      refine ⟨by omega, fun g hg => ?_⟩
      rcases List.mem_cons.mp hg with rfl | hg
      · omega
      · have := ih.2 g hg
        omega

end HeaderField

/-! ## One line -/

theorem set_append_cons (l r : Bytes) (a b : UInt8) :
    (l ++ a :: r).set l.length b = l ++ b :: r := by
  rw [List.set_append_right _ _ (Nat.le_refl _), Nat.sub_self, List.set_cons_zero]

theorem strlen_append_nul {bs : Bytes} (h : ∀ c ∈ bs, c ≠ 0) (rest : Bytes) :
    strlen (bs ++ 0 :: rest) = bs.length := by
  rw [strlen, List.takeWhile_append_of_pos (by simpa using h)]
  simp

theorem strtolower_append {pre bs : Bytes} (h : bs.length < 2 ^ 31) (rest : Bytes) :
    strtolower (pre ++ (bs ++ rest)) pre.length bs.length =
      some (pre ++ (bs.map toLower ++ rest)) := by
  unfold strtolower storeAt
  rw [List.drop_left, List.take_left, List.length_map, if_pos h, if_pos (by simp), writeAt,
    List.take_left, List.length_map, ← List.drop_drop, List.drop_left, List.drop_left,
    List.append_assoc]

namespace HeaderField

variable {h : HeaderField}

def head (h : HeaderField) : Bytes := h.name ++ 58 :: (List.replicate h.spaces 32 ++ h.value)

theorem line_eq (h : HeaderField) (rest : Bytes) : h.line ++ rest = h.head ++ (crlf ++ rest) := by
  simp [line, head]

theorem length_head (h : HeaderField) :
    h.head.length = h.name.length + (h.spaces + h.value.length) + 1 := by
  simp only [head, List.length_append, List.length_cons, List.length_replicate]
  omega

theorem Valid.head_text (hv : h.Valid) : ∀ c ∈ h.head, c ≠ 0 ∧ c ≠ 13 := by
  intro c hc
  rcases List.mem_append.mp hc with hc | hc
  · exact ⟨(hv.name_text c hc).2.2.2, (hv.name_text c hc).2.1⟩
  · rcases List.mem_cons.mp hc with rfl | hc
    · decide
    · rcases List.mem_append.mp hc with hc | hc
      · rw [List.eq_of_mem_replicate hc]
        decide
      · exact ⟨(hv.value_text c hc).2.2, (hv.value_text c hc).1⟩

/-- A line starts with neither CR nor a space. -/
theorem Valid.exists_cons (hv : h.Valid) (rest : Bytes) :
    ∃ c tail, h.line ++ rest = c :: tail ∧ c ≠ 13 ∧ c ≠ 32 := by
  unfold line
  cases hn : h.name with
  | nil => exact ⟨58, _, rfl, by decide, by decide⟩
  | cons c name =>
      have hmem : c ∈ h.name := by simp [hn]
      exact ⟨c, _, rfl, (hv.name_text c hmem).2.1, hv.name_head c (by simp [hn])⟩

theorem Valid.skip_value (hv : h.Valid) (rest : Bytes) :
    CString.skip 32 (h.value ++ (crlf ++ rest)) = some 0 := by
  cases hn : h.value with
  | nil => exact CString.skip_of_ne (by decide)
  | cons c value => exact CString.skip_of_ne (hv.value_head c (by simp [hn]))

/-! ### What a call finds in a line -/

theorem Valid.startsWith_line (hv : h.Valid) (rest : Bytes) :
    CString.startsWith crlf (h.line ++ rest) = some false := by
  obtain ⟨c, tail, hcons, hcr, _⟩ := hv.exists_cons rest
  rw [hcons]
  exact CString.startsWith_of_ne hcr

theorem Valid.skip_line (hv : h.Valid) (rest : Bytes) :
    CString.skip 32 (h.line ++ rest) = some 0 := by
  obtain ⟨c, tail, hcons, _, hspace⟩ := hv.exists_cons rest
  rw [hcons]
  exact CString.skip_of_ne hspace

theorem Valid.strstr_crlf (hv : h.Valid) (rest : Bytes) :
    strstr (h.line ++ rest) crlf = some (some h.head.length) := by
  rw [strstr, line_eq, crlf, CString.find_append hv.head_text, CString.find_self]
  simp

theorem Valid.strstr_colon (hv : h.Valid) (rest : Bytes) :
    strstr (h.line ++ rest) colon = some (some h.name.length) := by
  have hname : ∀ c ∈ h.name, c ≠ 0 ∧ c ≠ 58 :=
    fun c hc => ⟨(hv.name_text c hc).2.2.2, (hv.name_text c hc).1⟩
  have hself : CString.find 0 [58] (58 :: (List.replicate h.spaces 32 ++
      (h.value ++ (crlf ++ rest)))) = some (some 0) := CString.find_self 58 [] _
  rw [strstr, colon, line, List.append_assoc, CString.find_append hname]
  simp only [List.cons_append, List.append_assoc]
  rw [hself]
  simp

/-! ### What a call makes of a line -/

def behind (h : HeaderField) (rest : Bytes) : Bytes :=
  0 :: (List.replicate h.spaces 32 ++ (h.value ++ 0 :: 10 :: rest))

theorem parsed_append (h : HeaderField) (rest : Bytes) :
    h.parsed ++ rest = h.key ++ h.behind rest := by
  simp [parsed, behind]

theorem set_colon (h : HeaderField) (pre rest : Bytes) :
    (pre ++ (h.line ++ rest)).set (pre.length + h.name.length) 0 =
      (pre ++ h.name) ++ 0 :: (List.replicate h.spaces 32 ++ (h.value ++ (crlf ++ rest))) := by
  have hsplit : pre ++ (h.line ++ rest) = (pre ++ h.name) ++ 58 :: (List.replicate h.spaces 32 ++
      (h.value ++ (crlf ++ rest))) := by
    simp [line]
  rw [hsplit, ← List.length_append]
  exact set_append_cons _ _ _ _

theorem set_stop (h : HeaderField) (pre rest : Bytes) :
    ((pre ++ h.name) ++ 0 :: (List.replicate h.spaces 32 ++ (h.value ++ (crlf ++ rest)))).set
      (pre.length + h.head.length) 0 = pre ++ (h.name ++ h.behind rest) := by
  have hsplit : (pre ++ h.name) ++ 0 :: (List.replicate h.spaces 32 ++
      (h.value ++ (crlf ++ rest))) =
      (pre ++ (h.name ++ 0 :: (List.replicate h.spaces 32 ++ h.value))) ++ 13 :: 10 :: rest := by
    simp [crlf]
  have hplace : pre.length + h.head.length =
      (pre ++ (h.name ++ 0 :: (List.replicate h.spaces 32 ++ h.value))).length := by
    rw [length_head]
    simp
    omega
  rw [hsplit, hplace, set_append_cons]
  simp [behind]

theorem Valid.strlen_name (hv : h.Valid) (rest : Bytes) :
    strlen (h.name ++ h.behind rest) = h.name.length :=
  strlen_append_nul (fun c hc => (hv.name_text c hc).2.2.2) _

theorem Valid.parse_spec (hv : h.Valid) (hname : h.name.length < 2 ^ 31)
    (hline : h.line.length < 2 ^ 64) (status : RespStatus) (pre rest : Bytes)
    {headers : Stringtab} {m : KeyMap EfString} {kept : Finset Bytes}
    (hk : Keeps headers m kept) (w : World EfString) :
    ∃ headers' w', httpParseRespHeader status (pre ++ (h.line ++ rest)) pre.length headers w =
        some ⟨toInt32 h.line.length, status, pre ++ (h.parsed ++ rest), headers', w'⟩ ∧
      w.heap.failures ≤ w'.heap.failures ∧
      (w.heap.Willing → h.line.length < 2 ^ 62 → w.heap.Granted w'.heap) ∧
      (Keeps headers' (Function.update m h.key (some (some ⟨h.value⟩))) (insert h.key kept) ∨
        Keeps headers' m kept ∧ (w'.heap.failures = w.heap.failures →
          h.key ∉ kept ∧ 2 ^ 31 ≤ kept.card)) := by
  have hlen := h.length_line
  have hhead := h.length_head
  have hgap : CString.skip 32 (((pre ++ h.name) ++ 0 :: (List.replicate h.spaces 32 ++
      (h.value ++ (crlf ++ rest)))).drop (pre.length + h.name.length + 1)) = some h.spaces := by
    rw [← List.length_append, ← List.drop_drop, List.drop_left, List.drop_succ_cons,
      List.drop_zero, CString.skip_append, hv.skip_value]
    simp
  have hlower : strtolower (pre ++ (h.name ++ h.behind rest)) pre.length h.name.length =
      some (pre ++ (h.key ++ h.behind rest)) :=
    strtolower_append hname _
  have hkeylen : h.key.length = h.name.length := List.length_map _
  have hkey : stringLen (h.key ++ h.behind rest) h.name.length = h.name.length := by
    rw [behind, ← hkeylen]
    exact stringLen_append_nul _ _
  have hval : (pre ++ (h.key ++ h.behind rest)).drop (pre.length + h.name.length + 1 + h.spaces) =
      h.value ++ 0 :: 10 :: rest := by
    have hsplit : pre ++ (h.key ++ h.behind rest) =
        (pre ++ (h.key ++ 0 :: List.replicate h.spaces 32)) ++ (h.value ++ 0 :: 10 :: rest) := by
      simp [behind]
    rw [hsplit]
    refine List.drop_left' ?_
    simp only [List.length_append, List.length_cons, List.length_replicate]
    omega
  obtain ⟨ret, headers', w', hset, hle, hcase⟩ := hk.set_string hkey
    (by rw [List.length_append]; omega) (h.value ++ 0 :: 10 :: rest) h.value.length w
  have hgranted : w.heap.Willing → h.line.length < 2 ^ 62 → w.heap.Granted w'.heap := by
    intro hwilling hsmall
    refine efStringtabSet_granted hwilling (by omega) (fun p hp => ?_) hset
    obtain rfl := Option.some.inj hp
    rw [stringLen_append_nul]
    omega
  rw [stringLen_append_nul, List.take_left, ← hkeylen, List.take_left] at hcase
  refine ⟨headers', w', ?_, hle, hgranted, hcase.imp (fun h => h.2.1) And.right⟩
  have hsize : sizeSub (pre.length + h.head.length)
      (pre.length + h.name.length + 1 + h.spaces) = h.value.length := by
    unfold sizeSub
    omega
  have hret : ((h.head.length : Int) + 2) = (h.line.length : Nat) := by omega
  unfold httpParseRespHeader
  rw [parsed_append, List.drop_left]
  simp only [hv.startsWith_line, hv.strstr_crlf, hv.strstr_colon, hv.skip_line, hv.strlen_name,
    h.set_colon, h.set_stop, Option.bind_eq_bind, Option.bind_some, Bool.false_eq_true, if_false,
    Nat.add_zero, hgap, List.drop_left, hlower, hval, hsize, Nat.add_sub_cancel_left, hset, hret,
    Option.pure_def]

end HeaderField

/-! ## A header block -/

theorem httpParseRespHeader_end (status : RespStatus) (pre rest : Bytes) (headers : Stringtab)
    (w : World EfString) :
    httpParseRespHeader status (pre ++ (crlf ++ rest)) pre.length headers w =
      some ⟨2, .body, pre ++ (crlf ++ rest), headers, w⟩ := by
  unfold httpParseRespHeader
  rw [List.drop_left]
  simp only [CString.startsWith_append, Option.bind_eq_bind, Option.bind_some, if_true,
    Option.pure_def]

namespace HeaderField

theorem mapFrom_ne_none {m : KeyMap EfString} {hs : List HeaderField} {k : Bytes} :
    mapFrom m hs k ≠ none ↔ m k ≠ none ∨ k ∈ keys hs := by
  induction hs generalizing m with
  | nil => simp [mapFrom, keys]
  | cons h hs ih =>
      have hstep : mapFrom m (h :: hs) =
          mapFrom (Function.update m h.key (some (some ⟨h.value⟩))) hs := rfl
      have hkeys : keys (h :: hs) = insert h.key (keys hs) := by
        simp [keys]
      rw [hstep, ih, hkeys, Finset.mem_insert, Function.update_apply]
      by_cases hk : k = h.key <;> simp [hk]

/-- A table holds no more names than it has room for. -/
theorem keys_card_le {tb : Stringtab} (wf : Hashtable.Wf tb) {hs : List HeaderField}
    (hm : Hashtable.Represents tb (map hs)) : (keys hs).card ≤ 2 ^ 31 :=
  Keeps.card_le ⟨wf, hm, fun k => by simp [map, mapFrom_ne_none]⟩

end HeaderField

namespace HeaderWalk

variable {headers : Stringtab} {m : KeyMap EfString} {kept : Finset Bytes}

/-- A number of calls that lead from one point of a walk to another, none of them backwards. -/
inductive Advances : Nat → HeaderWalk → HeaderWalk → Prop where
  | refl (st : HeaderWalk) : Advances 0 st st
  | call {calls : Nat} {st st' : HeaderWalk} {call : HeaderCall} (hstatus : st.status = .header)
      (he : httpParseRespHeader st.status st.mem st.start st.headers st.world = some call)
      (hret : 0 ≤ call.ret)
      (hrest : Advances calls ⟨call.status, call.mem, (st.start + call.ret).toNat, call.headers,
        call.world⟩ st') : Advances (calls + 1) st st'

theorem Advances.trans {n k : Nat} {a b c : HeaderWalk} (h : Advances n a b)
    (h' : Advances k b c) : Advances (n + k) a c := by
  induction h with
  | refl st => rwa [Nat.zero_add]
  | call hstatus he hret _ ih =>
      rw [Nat.add_right_comm]
      exact .call hstatus he hret (ih h')

theorem Advances.run_eq {n : Nat} {st st' : HeaderWalk} (h : Advances n st st')
    (hend : st'.status ≠ .header) {fuel : Nat} (hfuel : n < fuel) :
    run fuel st = some (n, st') := by
  induction h generalizing fuel with
  | refl st =>
      obtain ⟨fuel, rfl⟩ := Nat.exists_eq_add_of_le' hfuel
      rw [run, if_neg hend]
  | call hstatus he hret _ ih =>
      obtain ⟨fuel, rfl⟩ := Nat.exists_eq_add_of_le' (show 1 ≤ fuel by omega)
      rw [run, if_pos hstatus]
      unfold step
      simp only [he, Option.bind_eq_bind, Option.bind_some]
      rw [if_pos (by omega), Option.pure_def, Option.bind_some,
        ih hend (Nat.lt_of_succ_lt_succ hfuel)]
      rfl

theorem advances_lines {hs : List HeaderField} (hv : ∀ h ∈ hs, h.Valid)
    (hshort : ∀ h ∈ hs, h.line.length < 2 ^ 31) (pre rest : Bytes) (hk : Keeps headers m kept)
    (w : World EfString) :
    ∃ headers' w', Advances hs.length
        ⟨.header, pre ++ (hs.flatMap HeaderField.line ++ rest), pre.length, headers, w⟩
        ⟨.header, (pre ++ hs.flatMap HeaderField.parsed) ++ rest,
          (pre ++ hs.flatMap HeaderField.parsed).length, headers', w'⟩ ∧
      w.heap.failures ≤ w'.heap.failures ∧ (w.heap.Willing → w.heap.Granted w'.heap) ∧
      Hashtable.Wf headers' ∧
      (w'.heap.failures = w.heap.failures → (kept ∪ HeaderField.keys hs).card ≤ 2 ^ 31 →
        Hashtable.Represents headers' (HeaderField.mapFrom m hs)) := by
  induction hs generalizing pre headers m kept w with
  | nil =>
      rw [List.flatMap_nil, List.nil_append, List.flatMap_nil, List.append_nil]
      exact ⟨headers, w, .refl _, Nat.le_refl _, fun h => h.refl, hk.wf, fun _ _ => hk.represents⟩
  | cons h hs ih =>
      have hkeys : HeaderField.keys (h :: hs) = insert h.key (HeaderField.keys hs) := by
        simp [HeaderField.keys]
      have hline := hshort h List.mem_cons_self
      have hname : h.name.length < 2 ^ 31 := by
        rw [h.length_line] at hline
        omega
      obtain ⟨headers₁, w₁, hcall, hle₁, hgranted₁, hcase⟩ := (hv h List.mem_cons_self).parse_spec
        hname (by omega) .header pre (hs.flatMap HeaderField.line ++ rest) hk w
      rw [toInt32_eq hline] at hcall
      have hrest := fun {m' kept'} (hk' : Keeps headers₁ m' kept') =>
        ih (fun h' hh => hv h' (List.mem_cons_of_mem h hh))
          (fun h' hh => hshort h' (List.mem_cons_of_mem h hh)) (pre ++ h.parsed) hk' w₁
      have hgranted := fun (hw : w.heap.Willing) => hgranted₁ hw (by omega)
      have hplace : ((pre.length : Int) + (h.line.length : Nat)).toNat =
          (pre ++ h.parsed).length := by
        rw [List.length_append, h.length_parsed]
        omega
      -- the call for this line comes before the others
      have hfirst : ∀ {st'}, Advances hs.length ⟨.header, (pre ++ h.parsed) ++
          (hs.flatMap HeaderField.line ++ rest), (pre ++ h.parsed).length, headers₁, w₁⟩ st' →
          Advances (hs.length + 1) ⟨.header, pre ++ ((h :: hs).flatMap HeaderField.line ++ rest),
            pre.length, headers, w⟩ st' := by
        intro st' hst
        refine .call rfl (by rw [List.flatMap_cons, List.append_assoc]; exact hcall)
          (Int.natCast_nonneg _) ?_
        dsimp only
        rwa [hplace, ← List.append_assoc]
      have hpieces : pre ++ (h :: hs).flatMap HeaderField.parsed =
          (pre ++ h.parsed) ++ hs.flatMap HeaderField.parsed := by
        simp
      rw [hpieces]
      rcases hcase with hk' | ⟨hk', hfull⟩
      · obtain ⟨headers', w', hst, hle, hgr, wf', hm⟩ := hrest hk'
        refine ⟨headers', w', hfirst hst, by omega,
          fun hw => (hgranted hw).trans (hgr (hgranted hw).willing), wf', fun hf hcard => ?_⟩
        refine hm (by omega) ?_
        rwa [hkeys, Finset.union_insert, ← Finset.insert_union] at hcard
      · obtain ⟨headers', w', hst, hle, hgr, wf', _⟩ := hrest hk'
        refine ⟨headers', w', hfirst hst, by omega,
          fun hw => (hgranted hw).trans (hgr (hgranted hw).willing), wf', fun hf hcard => ?_⟩
        -- a name was refused, so there are too many
        obtain ⟨hin, hused⟩ := hfull (by omega)
        have hsub : insert h.key kept ⊆ kept ∪ HeaderField.keys (h :: hs) := by
          rw [hkeys, Finset.union_insert]
          exact Finset.insert_subset_insert _ Finset.subset_union_left
        have hle := Finset.card_le_card hsub
        rw [Finset.card_insert_of_notMem hin] at hle
        omega

/-- The lines of headers and the end of the block. -/
theorem advances_block {hs : List HeaderField} (hv : ∀ h ∈ hs, h.Valid)
    (hshort : ∀ h ∈ hs, h.line.length < 2 ^ 31) (pre behind : Bytes) (hk : Keeps headers m kept)
    (w : World EfString) :
    ∃ headers' w', Advances (hs.length + 1) ⟨.header,
        pre ++ (hs.flatMap HeaderField.line ++ (crlf ++ behind)), pre.length, headers, w⟩
        ⟨.body, pre ++ (hs.flatMap HeaderField.parsed ++ (crlf ++ behind)),
          pre.length + (hs.flatMap HeaderField.line ++ crlf).length, headers', w'⟩ ∧
      w.heap.failures ≤ w'.heap.failures ∧ (w.heap.Willing → w.heap.Granted w'.heap) ∧
      Hashtable.Wf headers' ∧
      (w'.heap.failures = w.heap.failures → (kept ∪ HeaderField.keys hs).card ≤ 2 ^ 31 →
        Hashtable.Represents headers' (HeaderField.mapFrom m hs)) := by
  obtain ⟨headers', w', hlines, hrest⟩ := advances_lines hv hshort pre (crlf ++ behind) hk w
  refine ⟨headers', w', hlines.trans (.call rfl (httpParseRespHeader_end _ _ _ _ _)
    (show (0 : Int) ≤ 2 by decide) ?_),
    hrest⟩
  have hparsed := HeaderField.length_flatMap_parsed hs
  have hcrlf : crlf.length = 2 := rfl
  have hplace : (((pre ++ hs.flatMap HeaderField.parsed).length : Int) + 2).toNat =
      pre.length + (hs.flatMap HeaderField.line ++ crlf).length := by
    rw [List.length_append, List.length_append, hparsed, hcrlf]
    omega
  dsimp only
  rw [hplace, List.append_assoc]
  exact .refl _

theorem run_of_neg {st : HeaderWalk} (hstatus : st.status = .header) {call : HeaderCall}
    (he : httpParseRespHeader st.status st.mem st.start st.headers st.world = some call)
    (hneg : st.start + call.ret < 0) (fuel : Nat) : run fuel st = none := by
  cases fuel with
  | zero => rfl
  | succ fuel =>
      rw [run, if_pos hstatus]
      unfold step
      simp only [he, Option.bind_eq_bind, Option.bind_some, if_neg (Int.not_le.mpr hneg),
        Option.bind_none]

/-- All headers are read, by one call each, and one more call finds the end of the block. -/
def ParsesBack (hs : List HeaderField) (out : Option (Nat × HeaderWalk)) : Prop :=
  ∃ st, out = some (hs.length + 1, st) ∧ st.status = .body ∧
    st.start = (hs.flatMap HeaderField.line ++ crlf).length ∧ Hashtable.Wf st.headers ∧
    Hashtable.Represents st.headers (HeaderField.map hs)

end HeaderWalk

/-- A header block whose lines fit an `int` is read back into an empty table if and only if it
has no more names than the table can hold. -/
theorem http_parse_resp_header_block {hs : List HeaderField} (hv : ∀ h ∈ hs, h.Valid)
    (hshort : ∀ h ∈ hs, h.line.length < 2 ^ 31) {tbl : Stringtab} (wf : Hashtable.Wf tbl)
    (hempty : Hashtable.Represents tbl (fun _ => none)) (body behind : Bytes)
    (w : World EfString) :
    ∃ calls st, HeaderWalk.run (hs.length + 2) ⟨.header,
        hs.flatMap HeaderField.line ++ (crlf ++ (body ++ 0 :: behind)), 0, tbl, w⟩ =
          some (calls, st) ∧
      (st.world.heap.failures = w.heap.failures →
        (HeaderWalk.ParsesBack hs (some (calls, st)) ↔ (HeaderField.keys hs).card ≤ 2 ^ 31)) := by
  have hk : Keeps tbl (fun _ => none) ∅ := ⟨wf, hempty, by simp⟩
  obtain ⟨headers', w', hst, _, _, wf', hm⟩ :=
    HeaderWalk.advances_block hv hshort [] (body ++ 0 :: behind) hk w
  refine ⟨_, _, hst.run_eq (by simp) (Nat.lt_succ_self _), fun hf => ⟨?_, fun hcard => ?_⟩⟩
  · rintro ⟨st, hst, _, _, wf'', hm'⟩
    exact HeaderField.keys_card_le wf'' hm'
  · rw [Finset.empty_union] at hm
    exact ⟨_, rfl, rfl, Nat.zero_add _, wf', hm hf hcard⟩

/-- Two values for one name, the second one empty, a value with a colon, and a body. -/
theorem http_parse_resp_header_block_twice :
    ∃ tbl m st, efStringtabNew 0 ⟨[], 0, 0⟩ = (some tbl, m) ∧
      HeaderWalk.ParsesBack [⟨[65], 1, [66]⟩, ⟨[67], 0, [58, 68]⟩, ⟨[97], 2, []⟩] (some (4, st)) ∧
      HeaderWalk.run 5 ⟨.header, [65, 58, 32, 66, 13, 10, 67, 58, 58, 68, 13, 10, 97, 58, 32, 32,
        13, 10, 13, 10, 69, 13, 10, 0], 0, tbl, ⟨m, []⟩⟩ = some (4, st) := by
  have hnew : efStringtabNew 0 ⟨[], 0, 0⟩ = (some ⟨8, hashSizemask 8, 0, 0, nil32, true,
      List.replicate 8 nil32, List.replicate 8 (Bucket.zero _)⟩, ⟨[], 2, 0⟩) := rfl
  obtain ⟨wf, hempty⟩ := (Stringtab.new_spec ⟨[], 0, 0⟩).2.2 _ (congrArg Prod.fst hnew)
  have hv : ∀ h ∈ [(⟨[65], 1, [66]⟩ : HeaderField), ⟨[67], 0, [58, 68]⟩, ⟨[97], 2, []⟩],
      h.Valid ∧ h.line.length < 2 ^ 31 := by
    intro h hh
    simp only [List.mem_cons, List.not_mem_nil, or_false] at hh
    rcases hh with rfl | rfl | rfl <;>
      exact ⟨⟨by simp, by simp, by simp, by simp⟩, by decide⟩
  obtain ⟨calls, st, hrun, hiff⟩ := http_parse_resp_header_block (fun h hh => (hv h hh).1)
    (fun h hh => (hv h hh).2) wf hempty [69, 13, 10] [] ⟨⟨[], 2, 0⟩, []⟩
  have hfail : (HeaderWalk.run 5 ⟨.header, [65, 58, 32, 66, 13, 10, 67, 58, 58, 68, 13, 10, 97, 58,
      32, 32, 13, 10, 13, 10, 69, 13, 10, 0], 0, ⟨8, hashSizemask 8, 0, 0, nil32, true,
      List.replicate 8 nil32, List.replicate 8 (Bucket.zero _)⟩, ⟨⟨[], 2, 0⟩, []⟩⟩).map
        (fun r => (r.1, r.2.world.heap.failures)) = some (4, 0) := by decide +kernel
  have hout := congrArg (Option.map (fun r : Nat × HeaderWalk =>
    (r.1, r.2.world.heap.failures))) hrun
  obtain ⟨rfl, hzero⟩ := Prod.mk.inj (Option.some.inj (hout.symm.trans hfail))
  exact ⟨_, _, st, hnew, (hiff hzero).mpr (by decide), hrun⟩

def HeaderField.long (n : Nat) : HeaderField := ⟨[97], 0, List.replicate n 98⟩

theorem HeaderField.long_valid (n : Nat) : (long n).Valid := by
  have hvalue : ∀ c ∈ (long n).value, c = 98 := fun c hc => List.eq_of_mem_replicate hc
  refine ⟨by simp [long], by simp [long], fun c hc => ?_, fun c hc => ?_⟩
  · rw [hvalue c hc]
    decide
  · rw [hvalue c (List.mem_of_mem_head? hc)]
    decide

/-- The length of a line of `2 ^ 31` bytes comes back as a negative number. -/
theorem http_parse_resp_header_block_long :
    (HeaderField.long (2 ^ 31 - 4)).Valid ∧ ∃ tbl m call,
      efStringtabNew 0 ⟨[], 0, 0⟩ = (some tbl, m) ∧
      httpParseRespHeader .header ((HeaderField.long (2 ^ 31 - 4)).line ++ (crlf ++ [0])) 0 tbl
        ⟨m, []⟩ = some call ∧ call.world.heap.failures = 0 ∧ call.ret = -2 ^ 31 ∧
      ∀ fuel, ¬ HeaderWalk.ParsesBack [HeaderField.long (2 ^ 31 - 4)] (HeaderWalk.run fuel
        ⟨.header, (HeaderField.long (2 ^ 31 - 4)).line ++ (crlf ++ [0]), 0, tbl, ⟨m, []⟩⟩) := by
  have hnew : efStringtabNew 0 ⟨[], 0, 0⟩ = (some ⟨8, hashSizemask 8, 0, 0, nil32, true,
      List.replicate 8 nil32, List.replicate 8 (Bucket.zero _)⟩, ⟨[], 2, 0⟩) := rfl
  obtain ⟨wf, hempty⟩ := (Stringtab.new_spec ⟨[], 0, 0⟩).2.2 _ (congrArg Prod.fst hnew)
  have hk : Keeps _ (fun _ => none) ∅ := ⟨wf, hempty, by simp⟩
  have hv := HeaderField.long_valid (2 ^ 31 - 4)
  have hname : (HeaderField.long (2 ^ 31 - 4)).name.length = 1 := rfl
  have hlen : (HeaderField.long (2 ^ 31 - 4)).line.length = 2 ^ 31 := by
    have hspaces : (HeaderField.long (2 ^ 31 - 4)).spaces = 0 := rfl
    have hvalue : (HeaderField.long (2 ^ 31 - 4)).value.length = 2 ^ 31 - 4 :=
      List.length_replicate
    rw [HeaderField.length_line, hname, hspaces, hvalue]
    omega
  generalize HeaderField.long (2 ^ 31 - 4) = h at hv hname hlen ⊢
  obtain ⟨headers', w', he, _, hgranted, _⟩ := hv.parse_spec (by omega) (by omega) .header []
    (crlf ++ [0]) hk ⟨⟨[], 2, 0⟩, []⟩
  have hfailures := (hgranted (by intro ok hok; cases hok) (by omega)).failures
  have hret : toInt32 h.line.length = -2 ^ 31 := by
    rw [hlen, toInt32_wrap (Nat.le_refl _) (by omega)]
    omega
  rw [hret] at he
  refine ⟨hv, _, _, _, hnew, he, hfailures, rfl, fun fuel => ?_⟩
  have hback : ((0 : Nat) : Int) + -2 ^ 31 < 0 := by decide
  rintro ⟨st, hrun, _⟩
  rw [HeaderWalk.run_of_neg rfl he hback] at hrun
  cases hrun

end EFramework
