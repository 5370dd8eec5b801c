import EFramework.Http.Header

/-! # Header lines without a colon

The search for a colon does not end with the line. Without a colon in all of the text the line
is left at its CRLF, which is then taken for the end of the block. With a colon in a later line
the NULs are stored in two lines, and no call can find the end of the later one.
-/

namespace EFramework

open Lib

theorem toInt32_le {n : Int} (h : 0 ≤ n) : toInt32 n ≤ n := by
  rw [toInt32, Int.bmod_def]
  split <;> omega

theorem toInt32_le_sub {n : Int} (h : 2 ^ 31 ≤ n) : toInt32 n ≤ n - 2 ^ 32 := by
  rw [toInt32, Int.bmod_def]
  split <;> omega

theorem strtolower_some {pre bs rest mem : Bytes}
    (h : strtolower (pre ++ (bs ++ rest)) pre.length bs.length = some mem) :
    mem = pre ++ (bs.map toLower ++ rest) := by
  have hshort : bs.length < 2 ^ 31 := by
    by_contra hlong
    rw [strtolower, if_neg hlong] at h
    cases h
  exact Option.some.inj (h.symm.trans (strtolower_append hshort rest))

/-! ## One call -/

section Call

variable {status : RespStatus} {mem : Bytes} {start : Nat} {headers : Stringtab}
  {w : World EfString} {call : HeaderCall}

/-- The text that a call leaves, if there is a colon. -/
theorem httpParseRespHeader_colon {len off k : Nat} (hlen : 0 < len)
    (hstop : strstr (mem.drop start) crlf = some (some len))
    (hpos : strstr (mem.drop start) colon = some (some off))
    (hskip : CString.skip 32 (mem.drop start) = some k)
    (he : httpParseRespHeader status mem start headers w = some call) :
    call.ret = toInt32 (len + 2) ∧ call.status = status ∧
      strtolower ((mem.set (start + off) 0).set (start + len) 0) (start + k)
        (strlen (((mem.set (start + off) 0).set (start + len) 0).drop (start + k))) =
          some call.mem := by
  have hline : CString.startsWith crlf (mem.drop start) = some false :=
    CString.startsWith_of_find hstop (by simp [Nat.ne_of_gt hlen])
  unfold httpParseRespHeader at he
  simp only [hline, hstop, hpos, hskip, Option.bind_eq_bind, Option.bind_some, Bool.false_eq_true,
    if_false] at he
  obtain ⟨gap, -, he⟩ := Option.bind_eq_some_iff.mp he
  obtain ⟨lowered, hlower, he⟩ := Option.bind_eq_some_iff.mp he
  obtain ⟨⟨set, w'⟩, -, he⟩ := Option.bind_eq_some_iff.mp he
  obtain ⟨⟨ret, headers'⟩, -, he⟩ := Option.bind_eq_some_iff.mp he
  obtain rfl := Option.some.inj he
  refine ⟨?_, rfl, hlower⟩
  dsimp only

/-- Text that has no line break in front of its NUL is not changed. -/
theorem httpParseRespHeader_nul {text rest : Bytes} (htext : mem.drop start = text ++ 0 :: rest)
    (hcrlf : ¬ crlf <:+: text) (status : RespStatus) (headers : Stringtab) (w : World EfString) :
    httpParseRespHeader status mem start headers w = some ⟨-1, status, mem, headers, w⟩ := by
  have hstop : strstr (mem.drop start) crlf = some none := by
    rw [htext]
    exact CString.find_append_nul (by decide) hcrlf rest
  have hline : CString.startsWith crlf (mem.drop start) = some false :=
    CString.startsWith_of_find hstop (by simp)
  unfold httpParseRespHeader
  simp only [hline, hstop, Option.bind_eq_bind, Option.bind_some, Bool.false_eq_true, if_false,
    Option.pure_def]

/-- Without a colon nothing is changed, and the line is left at its CRLF. -/
theorem httpParseRespHeader_no_colon {len : Nat} (hlen : 0 < len)
    (hstop : strstr (mem.drop start) crlf = some (some len))
    (hpos : strstr (mem.drop start) colon = some none) (status : RespStatus)
    (headers : Stringtab) (w : World EfString) :
    httpParseRespHeader status mem start headers w =
      some ⟨toInt32 len, status, mem, headers, w⟩ := by
  have hline : CString.startsWith crlf (mem.drop start) = some false :=
    CString.startsWith_of_find hstop (by simp [Nat.ne_of_gt hlen])
  unfold httpParseRespHeader
  simp only [hline, hstop, hpos, Option.bind_eq_bind, Option.bind_some, Bool.false_eq_true,
    if_false, Option.pure_def]

theorem HeaderField.Valid.parse_some {h : HeaderField} (hv : h.Valid) {pre rest : Bytes}
    (he : httpParseRespHeader status (pre ++ (h.line ++ rest)) pre.length headers w = some call) :
    call.ret = toInt32 h.line.length ∧ call.status = status ∧
      call.mem = pre ++ (h.parsed ++ rest) := by
  have htext : (pre ++ (h.line ++ rest)).drop pre.length = h.line ++ rest := List.drop_left
  have hhead := h.length_head
  have hret : ((h.head.length : Int) + 2) = (h.line.length : Nat) := by
    rw [h.length_line]
    omega
  have hstop := hv.strstr_crlf rest
  have hpos := hv.strstr_colon rest
  have hskip := hv.skip_line rest
  rw [← htext] at hstop hpos hskip
  obtain ⟨hcall, hstatus, hmem⟩ := httpParseRespHeader_colon (by omega) hstop hpos hskip he
  rw [Nat.add_zero, h.set_colon, h.set_stop, List.drop_left, hv.strlen_name] at hmem
  rw [hret] at hcall
  refine ⟨hcall, hstatus, ?_⟩
  rw [strtolower_some hmem, h.parsed_append]
  rfl

end Call

def HeaderField.cut (h : HeaderField) : Bytes :=
  h.key ++ 0 :: (List.replicate h.spaces 32 ++ h.value)

theorem HeaderField.parsed_eq (h : HeaderField) : h.parsed = h.cut ++ [0, 10] := by
  simp [parsed, cut]

theorem HeaderField.Valid.cut_line {h : HeaderField} (hv : h.Valid) : ¬ crlf <:+: h.cut := by
  refine crlf_not_infix_of_not_mem ?_
  simp only [cut, key, List.mem_append, List.mem_cons, List.mem_map, List.mem_replicate, not_or]
  refine ⟨?_, by decide, fun h => absurd h.2 (by decide), fun h => (hv.value_text _ h).1 rfl⟩
  rintro ⟨c, hc, h13⟩
  exact (hv.name_text c hc).2.1 ((toLower_eq_iff (by decide)).mp h13)

/-! ## Header lines -/

inductive HeaderLine where
  | field (f : HeaderField)
  | bad (text : Bytes)
deriving Repr, DecidableEq

namespace HeaderLine

def text : HeaderLine → Bytes
  | field f => f.line
  | bad text => text ++ crlf

def fields (ls : List HeaderLine) : List HeaderField :=
  ls.filterMap (fun l => match l with
    | field f => some f
    | bad _ => none)

structure BadText (b : Bytes) : Prop where
  ne_nil : b ≠ []
  text : 0 ∉ b ∧ 58 ∉ b
  line : ¬ crlf <:+: b

def Valid : HeaderLine → Prop
  | field f => f.Valid
  | bad text => BadText text

theorem Valid.nul_not_mem {l : HeaderLine} (hv : l.Valid) : 0 ∉ l.text := by
  cases l with
  | field f =>
      rw [text, ← List.append_nil f.line, HeaderField.line_eq, List.append_nil, List.mem_append,
        not_or]
      exact ⟨fun h => (HeaderField.Valid.head_text hv 0 h).1 rfl, by decide⟩
  | bad b =>
      rw [text, List.mem_append, not_or]
      exact ⟨(BadText.text hv).1, by decide⟩

end HeaderLine

theorem HeaderLine.BadText.parse_some {status : RespStatus} {headers : Stringtab}
    {w : World EfString} {call : HeaderCall} {b : Bytes} (hb : BadText b) {pre z rest : Bytes}
    (hz : 0 ∉ z ∧ 58 ∉ z)
    (he : httpParseRespHeader status (pre ++ (b ++ (crlf ++ (z ++ 58 :: rest)))) pre.length headers
      w = some call) :
    call.ret = toInt32 (b.length + 2) ∧ call.status = status ∧
      ∃ b', b'.length = b.length ∧ ¬ crlf <:+: b' ∧
        call.mem = pre ++ (b' ++ 0 :: 10 :: (z ++ 0 :: rest)) := by
  have htext : (pre ++ (b ++ (crlf ++ (z ++ 58 :: rest)))).drop pre.length =
      b ++ (crlf ++ (z ++ 58 :: rest)) := List.drop_left
  have hpos : strstr (b ++ (crlf ++ (z ++ 58 :: rest))) colon =
      some (some (b ++ (crlf ++ z)).length) := by
    have hfree : ∀ c ∈ b ++ (crlf ++ z), c ≠ 0 ∧ c ≠ 58 := by
      have hnul : 0 ∉ b ++ (crlf ++ z) := by
        simp [crlf, hb.text.1, hz.1]
      have hcolon : 58 ∉ b ++ (crlf ++ z) := by
        simp [crlf, hb.text.2, hz.2]
      exact fun c hc => ⟨fun h => hnul (h ▸ hc), fun h => hcolon (h ▸ hc)⟩
    have hself : CString.find 0 [58] (58 :: rest) = some (some 0) := CString.find_self 58 [] rest
    have hsplit : b ++ (crlf ++ (z ++ 58 :: rest)) = (b ++ (crlf ++ z)) ++ 58 :: rest := by simp
    rw [hsplit, strstr, colon, CString.find_append hfree, hself]
    simp
  obtain ⟨k, hk, hskip⟩ := CString.skip_le (show (13 : UInt8) ≠ 32 by decide) b
    (10 :: (z ++ 58 :: rest))
  have hskip : CString.skip 32 (b ++ (crlf ++ (z ++ 58 :: rest))) = some k := hskip
  have hstop := strstr_line hb.text.1 hb.line (z ++ 58 :: rest)
  rw [← htext] at hstop hpos hskip
  obtain ⟨hret, hstatus, hmem⟩ :=
    httpParseRespHeader_colon (List.length_pos_iff.mpr hb.ne_nil) hstop hpos hskip he
  -- the text without its colon, then without its CR
  have hset₁ : (pre ++ (b ++ (crlf ++ (z ++ 58 :: rest)))).set
      (pre.length + (b ++ (crlf ++ z)).length) 0 =
        (pre ++ b) ++ 13 :: (10 :: (z ++ 0 :: rest)) := by
    have hsplit : pre ++ (b ++ (crlf ++ (z ++ 58 :: rest))) =
        (pre ++ (b ++ (crlf ++ z))) ++ 58 :: rest := by simp
    rw [hsplit, ← List.length_append, set_append_cons]
    simp [crlf]
  rw [hset₁, ← List.length_append, set_append_cons] at hmem
  have hcut : (pre ++ b) ++ 0 :: (10 :: (z ++ 0 :: rest)) =
      (pre ++ b.take k) ++ (b.drop k ++ 0 :: (10 :: (z ++ 0 :: rest))) := by
    rw [← List.append_assoc, List.append_assoc pre (b.take k), List.take_append_drop]
  have hplace : pre.length + k = (pre ++ b.take k).length := by
    rw [List.length_append, List.length_take, Nat.min_eq_left hk]
  rw [hcut, hplace, List.drop_left,
    strlen_append_nul (fun c hc h => hb.text.1 (List.mem_of_mem_drop (h ▸ hc)))] at hmem
  refine ⟨hret, hstatus, b.take k ++ (b.drop k).map toLower, ?_, ?_, ?_⟩
  · rw [List.length_append, List.length_map, ← List.length_append, List.take_append_drop]
  · have hlower : ∀ c, (toLower c = 13 ↔ c = 13) ∧ (toLower c = 10 ↔ c = 10) :=
      fun c => ⟨toLower_eq_iff (by decide), toLower_eq_iff (by decide)⟩
    have hsame : (b.take k ++ (b.drop k).map toLower).map toLower = b.map toLower := by
      have htwice : toLower ∘ toLower = toLower := funext toLower_toLower
      rw [List.map_append, List.map_map, htwice, ← List.map_append, List.take_append_drop]
    rw [← crlf_infix_map hlower, hsame, crlf_infix_map hlower]
    exact hb.line
  · rw [strtolower_some hmem, List.append_assoc, List.append_assoc]

/-! ## Walks that do not get on -/

namespace HeaderWalk

variable {mem : Bytes} {start c fuel calls : Nat} {headers : Stringtab} {w : World EfString}
  {st : HeaderWalk}

theorem run_header (hrun : run fuel ⟨.header, mem, start, headers, w⟩ = some (calls, st)) :
    ∃ n call calls', fuel = n + 1 ∧
      httpParseRespHeader .header mem start headers w = some call ∧
      run n ⟨call.status, call.mem, (start + call.ret).toNat, call.headers, call.world⟩ =
        some (calls', st) := by
  cases fuel with
  | zero => cases hrun
  | succ n =>
      rw [run, if_pos rfl] at hrun
      obtain ⟨next, hstep, hrun⟩ := Option.bind_eq_some_iff.mp hrun
      obtain ⟨⟨calls', last⟩, hrest, hlast⟩ := Option.bind_eq_some_iff.mp hrun
      cases hlast
      unfold step at hstep
      obtain ⟨call, he, hstep⟩ := Option.bind_eq_some_iff.mp hstep
      split at hstep
      · cases hstep
        exact ⟨n, call, calls', rfl, he, hrest⟩
      · cases hstep

theorem run_of_ne {st' : HeaderWalk} (hstatus : st.status ≠ .header)
    (hrun : run fuel st = some (calls, st')) : st' = st := by
  cases fuel with
  | zero => cases hrun
  | succ n =>
      rw [run, if_neg hstatus] at hrun
      cases hrun
      rfl

/-- No call from a position up to `c` changes the text or goes on to a header behind `c`. -/
def Confined (mem : Bytes) (c : Nat) : Prop :=
  ∀ s ≤ c, ∀ headers w, ∃ status ret,
    httpParseRespHeader .header mem s headers w = some ⟨ret, status, mem, headers, w⟩ ∧
    (status = .header ∧ s + ret ≤ c ∨ status ≠ .header ∧ s + ret ≤ c + 2)

theorem Confined.run_le (hc : Confined mem c) (hstart : start ≤ c)
    (hrun : run fuel ⟨.header, mem, start, headers, w⟩ = some (calls, st)) : st.start ≤ c + 2 := by
  induction fuel generalizing start calls with
  | zero => cases hrun
  | succ fuel ih =>
      obtain ⟨n, call, calls', hfuel, he, hrest⟩ := run_header hrun
      obtain rfl := Nat.succ.inj hfuel
      obtain ⟨status, ret, he', hcase⟩ := hc start hstart headers w
      obtain rfl := Option.some.inj (he'.symm.trans he)
      rcases hcase with ⟨rfl, hle⟩ | ⟨hstatus, hle⟩
      · exact ih (by dsimp only; omega) hrest
      · rw [run_of_ne hstatus hrest]
        dsimp only
        omega

theorem confined_of_nul {text rest : Bytes} (hcrlf : ¬ crlf <:+: text) :
    Confined (text ++ 0 :: rest) text.length := by
  intro s hs headers w
  have htext : (text ++ 0 :: rest).drop s = text.drop s ++ 0 :: rest :=
    List.drop_append_of_le_length hs
  refine ⟨_, _, httpParseRespHeader_nul htext (fun h => hcrlf (h.trans ?_)) _ headers w,
    .inl ⟨rfl, by omega⟩⟩
  exact (List.drop_suffix s text).isInfix

theorem confined_of_line {pre x z rest : Bytes} (hpre : ¬ crlf <:+: pre)
    (hnul : pre = [] ∨ ∃ a, pre = a ++ [0]) (hx : 0 ∉ x ∧ 58 ∉ x) (hline : ¬ crlf <:+: x)
    (hz : 58 ∉ z) :
    Confined (pre ++ (x ++ (crlf ++ (z ++ 0 :: rest)))) (pre.length + x.length) := by
  intro s hs headers w
  by_cases hlt : s < pre.length
  · rcases hnul with rfl | ⟨a, rfl⟩
    · exact absurd hlt (Nat.not_lt_zero s)
    · rw [List.length_append, List.length_singleton] at hlt
      have htext : (a ++ [0] ++ (x ++ (crlf ++ (z ++ 0 :: rest)))).drop s =
          a.drop s ++ 0 :: (x ++ (crlf ++ (z ++ 0 :: rest))) := by
        rw [List.append_assoc, List.drop_append_of_le_length (by omega)]
        rfl
      refine ⟨_, _, httpParseRespHeader_nul htext (fun h => hpre (h.trans ?_)) _ headers w,
        .inl ⟨rfl, by omega⟩⟩
      exact (List.drop_suffix s a).isInfix.trans (List.prefix_append a [0]).isInfix
  · obtain ⟨j, rfl⟩ := Nat.exists_eq_add_of_le (Nat.le_of_not_lt hlt)
    have hj : j ≤ x.length := by omega
    have htext : (pre ++ (x ++ (crlf ++ (z ++ 0 :: rest)))).drop (pre.length + j) =
        x.drop j ++ (crlf ++ (z ++ 0 :: rest)) := by
      rw [← List.drop_drop, List.drop_left, List.drop_append_of_le_length hj]
    have hmem := fun (c : UInt8) (h : c ∈ x.drop j) => List.mem_of_mem_drop h
    have hstop : strstr (x.drop j ++ (crlf ++ (z ++ 0 :: rest))) crlf =
        some (some (x.drop j).length) :=
      strstr_line (fun h => hx.1 (hmem 0 h))
        (fun h => hline (h.trans (List.drop_suffix j x).isInfix)) _
    have hpos : strstr (x.drop j ++ (crlf ++ (z ++ 0 :: rest))) colon = some none := by
      have hfree : ¬ colon <:+: x.drop j ++ (crlf ++ z) := by
        intro h
        have hcolon := h.subset (List.mem_cons_self (a := 58))
        simp only [List.mem_append, crlf] at hcolon
        rcases hcolon with hcolon | hcolon | hcolon
        · exact hx.2 (hmem 58 hcolon)
        · exact absurd hcolon (by decide)
        · exact hz hcolon
      have hsplit : x.drop j ++ (crlf ++ (z ++ 0 :: rest)) =
          (x.drop j ++ (crlf ++ z)) ++ 0 :: rest := by simp
      rw [hsplit]
      exact CString.find_append_nul (by decide) hfree rest
    rw [← htext] at hstop hpos
    rcases Nat.lt_or_eq_of_le hj with hlt | rfl
    · have hlen : 0 < (x.drop j).length := by
        rw [List.length_drop]
        omega
      have hle := toInt32_le (Int.natCast_nonneg (x.drop j).length)
      refine ⟨_, _, httpParseRespHeader_no_colon hlen hstop hpos _ headers w, .inl ⟨rfl, ?_⟩⟩
      rw [List.length_drop] at hle ⊢
      omega
    · -- at the line break
      have he := httpParseRespHeader_end .header (pre ++ x) (z ++ 0 :: rest) headers w
      rw [List.append_assoc, List.length_append] at he
      exact ⟨_, _, he, .inr ⟨by decide, by omega⟩⟩

/-! ## A line without a colon -/

structure Processed (pre : Bytes) : Prop where
  line : ¬ crlf <:+: pre
  ending : pre = [] ∨ ∃ a, pre = a ++ [0, 10]

theorem processed_nil : Processed [] := ⟨by decide, .inl rfl⟩

theorem Processed.append {pre b : Bytes} (hp : Processed pre) (hb : ¬ crlf <:+: b) :
    ¬ crlf <:+: pre ++ b := by
  rcases hp.ending with rfl | ⟨a, rfl⟩
  · exact hb
  · have ha : ¬ crlf <:+: a := fun h => hp.line (h.trans (List.prefix_append a [0, 10]).isInfix)
    rw [List.append_assoc]
    refine crlf_not_infix_append ha (fun h => hb ?_) (by simp)
    exact (crlf_infix_cons (by decide)).mp ((crlf_infix_cons (by decide)).mp h)

theorem Processed.parsed {pre : Bytes} (hp : Processed pre) {h : HeaderField} (hv : h.Valid) :
    Processed (pre ++ h.parsed) := by
  have hline : ¬ crlf <:+: h.cut ++ [0, 10] :=
    crlf_not_infix_append hv.cut_line (by decide) (by decide)
  rw [h.parsed_eq]
  exact ⟨hp.append hline, .inr ⟨pre ++ h.cut, (List.append_assoc _ _ _).symm⟩⟩

theorem Processed.confined_nul {pre text : Bytes} (hp : Processed pre) (hcrlf : ¬ crlf <:+: text)
    (rest : Bytes) : Confined (pre ++ (text ++ 0 :: rest)) (pre.length + text.length) := by
  rw [← List.append_assoc, ← List.length_append]
  exact confined_of_nul (hp.append hcrlf)

theorem Processed.confined_line {pre b z : Bytes} (hp : Processed pre) (hb : 0 ∉ b ∧ 58 ∉ b)
    (hline : ¬ crlf <:+: b) (hz : 58 ∉ z) (rest : Bytes) :
    Confined (pre ++ (b ++ (crlf ++ (z ++ 0 :: rest)))) (pre.length + b.length) := by
  rcases hp.ending with rfl | ⟨a, rfl⟩
  · exact confined_of_line hp.line (.inl rfl) hb hline hz
  · -- the LF behind the last NUL is read with the line
    have ha : ¬ crlf <:+: a ++ [0] := fun h => hp.line (h.trans ⟨[], [10], by simp⟩)
    have hlf : ¬ crlf <:+: 10 :: b := fun h => hline ((crlf_infix_cons (by decide)).mp h)
    have hc : Confined (a ++ [0] ++ (10 :: b ++ (crlf ++ (z ++ 0 :: rest))))
        ((a ++ [0]).length + (10 :: b).length) :=
      confined_of_line ha (.inr ⟨a, rfl⟩) (by simp [hb]) hlf hz
    have hsplit : a ++ [0] ++ (10 :: b ++ (crlf ++ (z ++ 0 :: rest))) =
        a ++ [0, 10] ++ (b ++ (crlf ++ (z ++ 0 :: rest))) := by simp
    have hplace : (a ++ [0]).length + (10 :: b).length = (a ++ [0, 10]).length + b.length := by
      simp only [List.length_append, List.length_cons, List.length_nil]
      omega
    rwa [hsplit, hplace] at hc

/-- With a colon behind the line, no call gets to the end of the line of the colon. -/
theorem run_colon {pre b z rest : Bytes} (hp : Processed pre) (hb : HeaderLine.BadText b)
    (hz : 0 ∉ z ∧ 58 ∉ z)
    (hrun : run fuel ⟨.header, pre ++ (b ++ (crlf ++ (z ++ 58 :: rest))), pre.length, headers, w⟩ =
      some (calls, st)) : st.start ≤ pre.length + b.length + z.length + 4 := by
  obtain ⟨n, call, calls', -, he, hrest⟩ := run_header hrun
  obtain ⟨hret, hstatus, b', hlen, hline, hmem⟩ := hb.parse_some hz he
  have hle := toInt32_le (show 0 ≤ (b.length : Int) + 2 by omega)
  have hsplit : pre ++ (b' ++ 0 :: 10 :: (z ++ 0 :: rest)) =
      (pre ++ b' ++ [0, 10]) ++ (z ++ 0 :: rest) := by simp
  have hlength : (pre ++ b' ++ [0, 10]).length = pre.length + b.length + 2 := by
    rw [List.length_append, List.length_append, hlen]
    rfl
  have hp' : Processed (pre ++ b' ++ [0, 10]) :=
    ⟨crlf_not_infix_append (hp.append hline) (by decide) (by decide), .inr ⟨_, rfl⟩⟩
  rw [hstatus, hmem, hsplit] at hrest
  by_cases hcrlf : crlf <:+: z
  · -- there is another line in front of the line of the colon
    obtain ⟨x, t, rfl, hx⟩ := exists_crlf hcrlf
    simp only [List.mem_append, not_or] at hz
    have hlines : x ++ (crlf ++ t) ++ 0 :: rest = x ++ (crlf ++ (t ++ 0 :: rest)) := by simp
    rw [hlines] at hrest
    have hc := hp'.confined_line ⟨hz.1.1, hz.2.1⟩ hx hz.2.2.2 rest
    have hbound := hc.run_le (by omega) hrest
    rw [List.length_append, List.length_append]
    omega
  · have hbound := (hp'.confined_nul hcrlf rest).run_le (by omega) hrest
    omega

/-- The end of a block is not reached if a line of it has no colon. -/
theorem run_lt {ls : List HeaderLine} (hv : ∀ l ∈ ls, l.Valid) (hbad : ∃ b, .bad b ∈ ls)
    {pre : Bytes} (hp : Processed pre) (behind : Bytes)
    (hrun : run fuel ⟨.header, pre ++ (ls.flatMap HeaderLine.text ++ (crlf ++ 0 :: behind)),
      pre.length, headers, w⟩ = some (calls, st)) :
    st.start < pre.length + (ls.flatMap HeaderLine.text ++ crlf).length := by
  induction ls generalizing pre fuel headers w calls with
  | nil =>
      obtain ⟨b, hb⟩ := hbad
      cases hb
  | cons l ls ih =>
      have hvls : ∀ l ∈ ls, l.Valid := fun l hl => hv l (List.mem_cons_of_mem _ hl)
      have hvl := hv l List.mem_cons_self
      rw [List.flatMap_cons, List.append_assoc] at hrun
      rw [List.flatMap_cons, List.append_assoc, List.length_append]
      cases l with
      | field f =>
          obtain ⟨n, call, calls', -, he, hrest⟩ := run_header hrun
          obtain ⟨hret, hstatus, hmem⟩ := HeaderField.Valid.parse_some hvl he
          rw [hret, hstatus, hmem] at hrest
          have hplen := f.length_parsed
          by_cases hshort : f.line.length < 2 ^ 31
          · have hplace : ((pre.length : Int) + toInt32 f.line.length).toNat =
                (pre ++ f.parsed).length := by
              rw [toInt32_eq hshort, List.length_append, hplen]
              omega
            rw [hplace, ← List.append_assoc] at hrest
            have hlater : ∃ b, .bad b ∈ ls := by
              obtain ⟨b, hb⟩ := hbad
              exact ⟨b, (List.mem_cons.mp hb).resolve_left (by simp)⟩
            have hlt := ih hvls hlater (hp.parsed hvl) hrest
            rw [List.length_append, hplen] at hlt
            exact (Nat.add_assoc _ _ _ ▸ hlt :)
          · -- the next call is in front of the NUL that ends the line
            have hback := toInt32_le_sub (n := f.line.length) (by omega)
            have hcut : f.cut.length + 2 = f.line.length := by
              rw [← hplen, f.parsed_eq]
              simp
            have hsplit := List.append_assoc f.cut [0, 10]
              (ls.flatMap HeaderLine.text ++ (crlf ++ 0 :: behind))
            rw [f.parsed_eq, hsplit] at hrest
            have hc := hp.confined_nul (HeaderField.Valid.cut_line hvl)
              ([10] ++ (ls.flatMap HeaderLine.text ++ (crlf ++ 0 :: behind)))
            have hbound := hc.run_le (by omega) hrest
            have hend : crlf.length = 2 := rfl
            rw [HeaderLine.text, List.length_append]
            omega
      | bad b =>
          have hnul : 0 ∉ ls.flatMap HeaderLine.text := by
            rw [List.mem_flatMap]
            rintro ⟨l, hl, h⟩
            exact (hvls l hl).nul_not_mem h
          have hlen : (HeaderLine.bad b).text.length = b.length + 2 := List.length_append
          rw [HeaderLine.text, List.append_assoc] at hrun
          rw [hlen, List.length_append]
          by_cases hcolon : 58 ∈ ls.flatMap HeaderLine.text
          · obtain ⟨z, rest, hz, hfree⟩ := List.eq_append_cons_of_mem hcolon
            rw [hz] at hnul hrun ⊢
            have hsplit : z ++ 58 :: rest ++ (crlf ++ 0 :: behind) =
                z ++ 58 :: (rest ++ (crlf ++ 0 :: behind)) := by simp
            rw [hsplit] at hrun
            have hbound := run_colon hp hvl ⟨fun h => hnul (List.mem_append_left _ h), hfree⟩ hrun
            simp only [List.length_append, List.length_cons, crlf, List.length_nil]
            omega
          · have hc := hp.confined_line (HeaderLine.BadText.text hvl) (HeaderLine.BadText.line hvl)
              (z := ls.flatMap HeaderLine.text ++ crlf) (by simp [hcolon, crlf]) behind
            rw [List.append_assoc] at hc
            have hbound := hc.run_le (by omega) hrun
            simp only [crlf, List.length_cons, List.length_nil]
            omega

/-- The block is read to its end, and its headers are all that is stored. -/
def SkipsBadLines (ls : List HeaderLine) (out : Option (Nat × HeaderWalk)) : Prop :=
  ∃ calls st, out = some (calls, st) ∧ st.status = .body ∧
    st.start = (ls.flatMap HeaderLine.text ++ crlf).length ∧
    Hashtable.Represents st.headers (HeaderField.map (HeaderLine.fields ls))

end HeaderWalk

/-- A header block with a line without a colon is not read to its end, whatever its other lines
are. -/
theorem http_parse_resp_header_malformed {ls : List HeaderLine} (hv : ∀ l ∈ ls, l.Valid)
    (hbad : ∃ b, .bad b ∈ ls) (tbl : Stringtab) (behind : Bytes) (w : World EfString)
    (fuel : Nat) :
    ¬ HeaderWalk.SkipsBadLines ls (HeaderWalk.run fuel
      ⟨.header, ls.flatMap HeaderLine.text ++ (crlf ++ 0 :: behind), 0, tbl, w⟩) := by
  rintro ⟨calls, st, hrun, -, hend, -⟩
  have hlt := HeaderWalk.run_lt hv hbad HeaderWalk.processed_nil behind hrun
  rw [hend, List.length_nil, Nat.zero_add] at hlt
  exact Nat.lt_irrefl _ hlt

/-- `"A"` and then `"B:c"`. -/
theorem http_parse_resp_header_malformed_colon :
    ¬ HeaderWalk.SkipsBadLines [.bad [65], .field ⟨[66], 0, [99]⟩] (HeaderWalk.run 9 ⟨.header,
      [65, 13, 10, 66, 58, 99, 13, 10, 13, 10, 0], 0, ⟨8, hashSizemask 8, 0, 0, nil32, true,
        List.replicate 8 nil32, List.replicate 8 (Bucket.zero _)⟩, ⟨⟨[], 2, 0⟩, []⟩⟩) := by
  refine http_parse_resp_header_malformed (fun l hl => ?_) ⟨[65], List.mem_cons_self⟩ _ [] _ 9
  simp only [List.mem_cons, List.not_mem_nil, or_false] at hl
  rcases hl with rfl | rfl
  · exact ⟨by decide, by decide, by decide⟩
  · exact ⟨by simp, by simp, by simp, by simp⟩

/-- The CRLF of the only line, `"A"`, is the end of the block. -/
theorem http_parse_resp_header_malformed_last :
    ∃ tbl w st, HeaderWalk.run 3 ⟨.header, [65, 13, 10, 13, 10, 0], 0, tbl, w⟩ = some (2, st) ∧
      st.status = .body ∧ st.start = 3 ∧
      ∀ fuel, ¬ HeaderWalk.SkipsBadLines [.bad [65]] (HeaderWalk.run fuel
        ⟨.header, [65, 13, 10, 13, 10, 0], 0, tbl, w⟩) := by
  have hv : ∀ l ∈ [HeaderLine.bad [65]], l.Valid := by
    intro l hl
    obtain rfl := List.mem_singleton.mp hl
    exact ⟨by decide, by decide, by decide⟩
  refine ⟨⟨8, hashSizemask 8, 0, 0, nil32, true, List.replicate 8 nil32,
    List.replicate 8 (Bucket.zero _)⟩, ⟨⟨[], 2, 0⟩, []⟩, _, rfl, rfl, rfl, fun fuel => ?_⟩
  rintro ⟨calls, st, hrun, -, hend, -⟩
  have hlt := HeaderWalk.run_lt hv ⟨[65], List.mem_cons_self⟩ HeaderWalk.processed_nil []
    hrun
  rw [hend, List.length_nil, Nat.zero_add] at hlt
  exact Nat.lt_irrefl _ hlt

end EFramework
