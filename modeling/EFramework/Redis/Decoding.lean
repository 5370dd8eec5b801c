import EFramework.Redis.Encoding

/-! # Parsing a reply that has been received

A parser at the start of an encoding that lies before `end` returns the value and
goes on behind it, whatever is in the buffer besides. Nothing more is read.
-/

namespace EFramework

open Lib

/-- Every call of a parser has left `seek` in the received bytes. -/
def RedisConnection.Within (con : RedisConnection) : Prop := ∀ m ∈ con.marks, m.1 ≤ m.2

structure Parses (con con' : RedisConnection) (len : Nat) : Prop where
  buf : con'.buf = con.buf
  stop : con'.stop = con.stop
  src : con'.src = con.src
  seek : con'.seek = con.seek + len
  heap : con'.heap.Willing
  within : con.Within → con'.Within

namespace Parses

variable {con con' con'' : RedisConnection} {m n : Nat}

theorem refl (h : con.heap.Willing) : Parses con con 0 := ⟨rfl, rfl, rfl, rfl, h, id⟩

theorem trans (h : Parses con con' m) (h' : Parses con' con'' n) {k : Nat} (hk : m + n = k) :
    Parses con con'' k where
  buf := h'.buf.trans h.buf
  stop := h'.stop.trans h.stop
  src := h'.src.trans h.src
  seek := by rw [h'.seek, h.seek, Nat.add_assoc, hk]
  heap := h'.heap
  within := fun hw => h'.within (h.within hw)

theorem mark (h : Parses con con' n) (hle : con.seek + n ≤ con.stop) :
    Parses con con'.mark n where
  buf := h.buf
  stop := h.stop
  src := h.src
  seek := h.seek
  heap := h.heap
  within := by
    intro hw m hm
    rcases List.mem_append.mp hm with hm | hm
    · exact h.within hw m hm
    · rw [List.mem_singleton.mp hm, h.seek, h.stop]
      exact hle

theorem skip (h : con.heap.Willing) (n : Nat) :
    Parses con { con with seek := con.seek + n } n := ⟨rfl, rfl, rfl, rfl, h, id⟩

end Parses

section Parsers

variable {more : RedisConnection → Option (Int × RedisConnection)} {con : RedisConnection}
  {fuel buf : Nat}

theorem RedisConnection.malloc_willing (h : con.heap.Willing) {size : Nat} (hsize : size < 2 ^ 63) :
    ∃ con', con.malloc size = (true, con') ∧ Parses con con' 0 := by
  obtain ⟨hok, hgranted⟩ := h.request
  have hfits : decide (size < 2 ^ 63) = true := decide_eq_true hsize
  refine ⟨{ con with heap := (con.heap.request true).2 }, ?_, rfl, rfl, rfl, rfl,
    hgranted.willing, id⟩
  simp only [RedisConnection.malloc, Heap.mallocOf, hfits, hok]

theorem RedisConnection.pending_eq (hle : con.seek ≤ con.stop) (hlt : con.stop < 2 ^ 63) :
    con.pending = con.stop - con.seek := by
  unfold RedisConnection.pending sizeT
  omega

theorem RedisConnection.text_add (con : RedisConnection) (buf n : Nat) :
    con.text (buf + n) = (con.text buf).drop n := by
  rw [RedisConnection.text, RedisConnection.text, List.drop_drop]

theorem RedisConnection.text_behind {front rest : Bytes} (h : con.text buf = front ++ rest) :
    con.text (buf + front.length) = rest := by
  rw [con.text_add, h, List.drop_left]

theorem awaitLine_of_found {k : Nat} (h : strstr (con.text buf) crlf = some (some k)) :
    awaitLine more (fuel + 1) buf con = some (some (buf, k), con) := by
  rw [awaitLine, h]
  rfl

theorem strncpyBytes_of_not_mem {s : Bytes} (h : 0 ∉ s) (rest : Bytes) :
    strncpyBytes (s ++ rest) s.length = some s := by
  rw [strncpyBytes_append, padded_of_not_mem h]

theorem parseLong_eq {n : Nat} (hn : n + 48 < 2 ^ 63) {rest : Bytes}
    (htext : con.text buf = header 58 n ++ rest) (hheap : con.heap.Willing)
    (hstop : con.seek + (header 58 n).length ≤ con.stop) :
    ∃ con', parseLong more (fuel + 1) buf con = some (.long n, con') ∧
      Parses con con' (header 58 n).length := by
  obtain ⟨con₁, hmalloc, h₁⟩ := con.malloc_willing hheap (show sizeofReply < 2 ^ 63 by decide)
  have htext₁ : con₁.text buf = header 58 n ++ rest := by
    rw [RedisConnection.text, h₁.buf]
    exact htext
  have hfound := strstr_header (show (58 : UInt8) ≠ 0 ∧ (58 : UInt8) ≠ 13 by decide) n rest
  rw [← htext₁] at hfound
  have hdigits : con₁.text (buf + 1) = decimal n ++ 13 :: (10 :: rest) := by
    rw [con₁.text_add, htext₁]
    simp [header, crlf]
  have hlen : (header 58 n).length = (decimal n).length + 1 + 2 := by
    simp [header, crlf]
  have hskip := Parses.skip h₁.heap (header 58 n).length
  refine ⟨_, ?_, (h₁.trans hskip (Nat.zero_add _)).mark hstop⟩
  unfold parseLong
  rw [hmalloc]
  dsimp only
  rw [if_pos rfl, awaitLine_of_found hfound, Option.bind_eq_bind, Option.bind_some]
  dsimp only
  rw [hdigits, scanDigits_decimal (longStep_addsDigit hn), hlen]
  rfl

theorem parseString_eq {s rest : Bytes} (hnul : 0 ∉ s) (htext : con.text buf = s ++ rest)
    (hheap : con.heap.Willing) (hstop : con.seek + (s.length + 2) ≤ con.stop)
    (hlt : con.stop < 2 ^ 31) :
    ∃ con', parseString more fuel buf s.length con = some (.str s s.length, con') ∧
      Parses con con' (s.length + 2) := by
  have hsize : sizeofReply < 2 ^ 63 := by decide
  obtain ⟨con₁, hmalloc₁, h₁⟩ := con.malloc_willing hheap hsize
  obtain ⟨con₂, hmalloc₂, h₂⟩ := con₁.malloc_willing h₁.heap hsize
  obtain ⟨con₃, hmalloc₃, h₃⟩ := con₂.malloc_willing h₂.heap (show s.length < 2 ^ 63 by omega)
  have h := (h₁.trans h₂ rfl).trans h₃ rfl
  have hpending : ¬ con₃.pending < s.length := by
    rw [con₃.pending_eq (by rw [h.seek, h.stop]; omega) (by rw [h.stop]; omega), h.seek, h.stop]
    omega
  have htext₃ : con₃.text buf = s ++ rest := by
    rw [RedisConnection.text, h.buf]
    exact htext
  have hnull : s.length ≠ sizeT (-1) := by
    have hmax : sizeT (-1) = 2 ^ 64 - 1 := by decide
    omega
  have hskip := Parses.skip h.heap (s.length + 2)
  refine ⟨_, ?_, (h.trans hskip (Nat.zero_add _)).mark hstop⟩
  unfold parseString
  rw [hmalloc₁]
  dsimp only
  rw [if_pos rfl, if_neg hnull, hmalloc₂]
  dsimp only
  rw [if_pos rfl, hmalloc₃]
  dsimp only
  rw [if_pos rfl, if_neg hpending, htext₃, strncpyBytes_of_not_mem hnul,
    toInt32_eq (show s.length < 2 ^ 31 by omega)]
  rfl

theorem parseBulkString_eq {s rest : Bytes} (hnul : 0 ∉ s)
    (htext : con.text buf = header 36 s.length ++ (s ++ rest)) (hheap : con.heap.Willing)
    (hstop : con.seek + (header 36 s.length ++ (s ++ crlf)).length ≤ con.stop)
    (hlt : con.stop < 2 ^ 31) :
    ∃ con', parseBulkString more (fuel + 1) buf con = some (.str s s.length, con') ∧
      Parses con con' (header 36 s.length ++ (s ++ crlf)).length := by
  have hfound := strstr_header (show (36 : UInt8) ≠ 0 ∧ (36 : UInt8) ≠ 13 by decide) s.length
    (s ++ rest)
  rw [← htext] at hfound
  have hhead : (header 36 s.length).length = (decimal s.length).length + 1 + 2 := by
    simp [header, crlf]
  rw [List.length_append, List.length_append, hhead, show crlf.length = 2 from rfl] at hstop ⊢
  have hskip := @Parses.skip con hheap ((decimal s.length).length + 1 + 2)
  have hbehind := RedisConnection.text_behind htext
  rw [hhead] at hbehind
  obtain ⟨con', hparse, h⟩ := @parseString_eq more
    { con with seek := con.seek + ((decimal s.length).length + 1 + 2) } (fuel + 1)
    (buf + ((decimal s.length).length + 1) + 2) s rest hnul hbehind hheap (by dsimp only; omega)
    hlt
  refine ⟨_, ?_, (hskip.trans h rfl).mark hstop⟩
  unfold parseBulkString
  rw [awaitLine_of_found hfound, Option.bind_eq_bind, Option.bind_some]
  dsimp only
  rw [htext, parseLen_header (Or.inl rfl) (by omega), defined_bind,
    sizeT_natCast (by omega), hparse]
  rfl

theorem parseBulkString_null {rest : Bytes}
    (htext : con.text buf = RedisValue.null.encode ++ rest) (hheap : con.heap.Willing)
    (hstop : con.seek + RedisValue.null.encode.length ≤ con.stop) :
    ∃ con', parseBulkString more (fuel + 1) buf con = some (.null, con') ∧
      Parses con con' RedisValue.null.encode.length := by
  have hlen : RedisValue.null.encode.length = 5 := rfl
  have hfound : strstr (con.text buf) crlf = some (some 3) := by
    rw [htext]
    exact @strstr_line [36, 45, 49] (by decide) (by decide) rest
  have hparse : parseLen (con.text buf) = some (-1) := by
    rw [htext]
    rfl
  have hskip := @Parses.skip con hheap 5
  obtain ⟨con₁, hmalloc, h₁⟩ := RedisConnection.malloc_willing hskip.heap
    (show sizeofReply < 2 ^ 63 by decide)
  rw [hlen] at hstop ⊢
  have h := (hskip.trans h₁ rfl).mark hstop
  refine ⟨_, ?_, h.mark hstop⟩
  unfold parseBulkString
  rw [awaitLine_of_found hfound, Option.bind_eq_bind, Option.bind_some]
  dsimp only
  rw [hparse, defined_bind, parseString, hmalloc]
  rfl

theorem parseSingleString_eq {s rest : Bytes} (hvalid : 0 ∉ s ∧ ¬ crlf <:+: s)
    (htext : con.text buf = 43 :: (s ++ (crlf ++ rest))) (hheap : con.heap.Willing)
    (hstop : con.seek + (s.length + 3) ≤ con.stop) (hlt : con.stop < 2 ^ 31) :
    ∃ con', parseSingleString more (fuel + 1) buf con = some (.str s s.length, con') ∧
      Parses con con' (s.length + 3) := by
  have hskip := @Parses.skip con hheap 1
  have hbehind : con.text (buf + 1) = s ++ (crlf ++ rest) :=
    @RedisConnection.text_behind _ _ [43] _ htext
  have hfound := strstr_line hvalid.1 hvalid.2 rest
  rw [← hbehind] at hfound
  obtain ⟨con', hparse, h⟩ := @parseString_eq more { con with seek := con.seek + 1 } (fuel + 1)
    (buf + 1) s (crlf ++ rest) hvalid.1 hbehind hheap (by dsimp only; omega) hlt
  refine ⟨_, ?_, (hskip.trans h (by omega)).mark hstop⟩
  unfold parseSingleString
  rw [@awaitLine_of_found _ { con with seek := con.seek + 1 } _ _ _ hfound, Option.bind_eq_bind,
    Option.bind_some]
  dsimp only
  rw [hparse]
  rfl

/-! ## Arrays -/

variable (more fuel) in
def RedisValue.parser : RedisValue → Nat → RedisConnection → Option (RedisReply × RedisConnection)
  | .int _ => parseLong more fuel
  | .bulk _ | .null => parseBulkString more fuel
  | .arr _ => parseArray more fuel

theorem RedisValue.parser_of_type (v : RedisValue)
    (more : RedisConnection → Option (Int × RedisConnection)) (fuel : Nat) :
    ∃ c l, v.encode = c :: l ∧ (c = 36 ∨ c = 58 ∨ c = 42) ∧
      parseElem more fuel (parseArray more fuel) c = v.parser more fuel := by
  cases v with
  | int n => exact ⟨58, _, rfl, Or.inr (Or.inl rfl), rfl⟩
  | bulk s => exact ⟨36, _, rfl, Or.inl rfl, rfl⟩
  | null => exact ⟨36, _, rfl, Or.inl rfl, rfl⟩
  | arr vs => exact ⟨42, _, rfl, Or.inr (Or.inr rfl), rfl⟩

def RedisValue.Decodes (more : RedisConnection → Option (Int × RedisConnection)) (fuel : Nat)
    (v : RedisValue) : Prop :=
  ∀ (con : RedisConnection) (buf : Nat) (rest : Bytes), con.text buf = v.encode ++ rest →
    con.seek = buf → con.heap.Willing → buf + v.encode.length ≤ con.stop → con.stop < 2 ^ 31 →
    ∃ con', v.parser more fuel buf con = some (v.reply, con') ∧ Parses con con' v.encode.length

theorem RedisConnection.getElem?_of_text {c : UInt8} {l : Bytes} (h : con.text buf = c :: l) :
    con.buf[buf]? = some c := by
  have hdrop : (con.buf.drop buf)[0]? = some c := by
    rw [show con.buf.drop buf = c :: l from h]
    rfl
  rw [List.getElem?_drop, Nat.add_zero] at hdrop
  exact hdrop

theorem RedisConnection.type_at {v : RedisValue} {front rest : Bytes} (hne : front ≠ [])
    (hfront : front <+: v.encode) (htext : con.text buf = front ++ rest)
    (more : RedisConnection → Option (Int × RedisConnection)) (fuel : Nat) :
    ∃ c, con.buf[buf]? = some c ∧ (c = 36 ∨ c = 58 ∨ c = 42) ∧
      parseElem more fuel (parseArray more fuel) c = v.parser more fuel := by
  obtain ⟨c, l, hencode, htype, hparser⟩ := v.parser_of_type more fuel
  cases front with
  | nil => exact absurd rfl hne
  | cons d front =>
      rw [hencode] at hfront
      rw [← (List.cons_prefix_cons.mp hfront).1] at htype hparser
      exact ⟨d, RedisConnection.getElem?_of_text htext, htype, hparser⟩

theorem parseElems_cons {v : RedisValue} {rep : RedisReply} {con' : RedisConnection}
    {front rest : Bytes} (hne : front ≠ []) (hfront : front <+: v.encode)
    (htext : con.text buf = front ++ rest)
    (hparse : v.parser more fuel buf con = some (rep, con')) (num : Nat) :
    parseElems more fuel (parseArray more fuel) (num + 1) buf con =
      (parseElems more fuel (parseArray more fuel) num con'.seek con').map
        (fun r => (rep :: r.1, r.2)) := by
  obtain ⟨c, hc, htype, hparser⟩ := RedisConnection.type_at hne hfront htext more fuel
  rw [parseElems, hc, defined_bind, if_pos htype, hparser, hparse,
    Option.bind_eq_bind, Option.bind_some]
  dsimp only
  rcases parseElems more fuel (parseArray more fuel) num con'.seek con' with _ | ⟨reps, con''⟩ <;>
    rfl

theorem RedisValue.encode_ne_nil (v : RedisValue) : v.encode ≠ [] := by
  obtain ⟨c, l, hencode, -⟩ := v.parser_of_type replyReadMore 0
  rw [hencode]
  exact List.cons_ne_nil c l

theorem parseElems_eq {vs : List RedisValue} (hvs : ∀ v ∈ vs, v.Decodes more fuel) {rest : Bytes}
    (htext : con.text buf = RedisValue.encodes vs ++ rest) (hseek : con.seek = buf)
    (hheap : con.heap.Willing) (hstop : buf + (RedisValue.encodes vs).length ≤ con.stop)
    (hlt : con.stop < 2 ^ 31) :
    ∃ con', parseElems more fuel (parseArray more fuel) vs.length buf con =
        some (RedisValue.replies vs, con') ∧ Parses con con' (RedisValue.encodes vs).length := by
  induction vs generalizing con buf with
  | nil => exact ⟨con, rfl, .refl hheap⟩
  | cons v vs ih =>
      rw [RedisValue.encodes, List.append_assoc] at htext
      rw [RedisValue.encodes, List.length_append] at hstop ⊢
      obtain ⟨con₁, hparse, h₁⟩ := hvs v List.mem_cons_self con buf _ htext hseek hheap (by omega)
        hlt
      have hseek₁ : con₁.seek = buf + v.encode.length := by rw [h₁.seek, hseek]
      have htext₁ : con₁.text con₁.seek = RedisValue.encodes vs ++ rest := by
        rw [RedisConnection.text, h₁.buf, hseek₁]
        exact RedisConnection.text_behind htext
      obtain ⟨con', helems, h⟩ := ih (fun w hw => hvs w (List.mem_cons_of_mem v hw)) htext₁ rfl
        h₁.heap (by rw [hseek₁, h₁.stop]; omega) (by rw [h₁.stop]; exact hlt)
      refine ⟨con', ?_, h₁.trans h rfl⟩
      rw [List.length_cons, parseElems_cons v.encode_ne_nil (List.prefix_refl _) htext hparse,
        helems]
      rfl

theorem RedisValue.length_le_encodes (vs : List RedisValue) :
    vs.length ≤ (RedisValue.encodes vs).length := by
  induction vs with
  | nil => exact Nat.le_refl 0
  | cons v vs ih =>
      have hpos := List.length_pos_iff.mpr v.encode_ne_nil
      rw [RedisValue.encodes, List.length_cons, List.length_append]
      omega

/-- The header of an array has been received; the elements are parsed behind it. -/
theorem parseArray_header {n : Nat} (hn : n < 2 ^ 31) {rest : Bytes}
    (htext : con.text buf = header 42 n ++ rest) (hheap : con.heap.Willing) :
    ∃ con', Parses con con' (header 42 n).length ∧
      parseArray more (fuel + 1) buf con =
        returning ((parseElems more fuel (parseArray more fuel) n
          (buf + (header 42 n).length) con').map (fun r => (.arr n r.1, r.2))) := by
  have hhead : (header 42 n).length = (decimal n).length + 1 + 2 := by
    simp [header, crlf]
  have hfound := strstr_header (show (42 : UInt8) ≠ 0 ∧ (42 : UInt8) ≠ 13 by decide) n rest
  have hlen := parseLen_header (Or.inr rfl : (42 : UInt8) = 36 ∨ (42 : UInt8) = 42) hn rest
  rw [← htext] at hfound hlen
  obtain ⟨con₁, hmalloc₁, h₁⟩ := con.malloc_willing hheap (show sizeofReply < 2 ^ 63 by decide)
  have hskip := @Parses.skip con₁ h₁.heap ((decimal n).length + 1 + 2)
  obtain ⟨con₂, hmalloc₂, h₂⟩ := RedisConnection.malloc_willing hskip.heap
    (show sizeofReply < 2 ^ 63 by decide)
  obtain ⟨con₃, hmalloc₃, h₃⟩ := con₂.malloc_willing h₂.heap
    (show sizeT ((sizeT n : Int) * 8) < 2 ^ 63 by
      rw [sizeT_natCast (show n < 2 ^ 64 by omega)]
      unfold sizeT
      omega)
  have htext₁ : con₁.text buf = con.text buf := by
    rw [RedisConnection.text, h₁.buf]
    rfl
  refine ⟨con₃, h₁.trans (hskip.trans (h₂.trans h₃ rfl) rfl) (by omega), ?_⟩
  unfold parseArray
  rw [hmalloc₁]
  dsimp only
  rw [if_pos rfl, htext₁, hfound, defined_bind]
  dsimp only
  rw [hlen, defined_bind, hmalloc₂]
  dsimp only
  rw [if_pos rfl, if_neg (by omega), hmalloc₃]
  dsimp only
  rw [if_pos rfl, Int.toNat_natCast, sizeT_natCast (by omega), hhead]
  rcases parseElems more fuel (parseArray more fuel) n (buf + ((decimal n).length + 1) + 2) con₃
    with _ | ⟨reps, con'⟩ <;> rfl

theorem parseArray_eq {vs : List RedisValue} (hvs : ∀ v ∈ vs, v.Decodes more fuel) {rest : Bytes}
    (htext : con.text buf = (RedisValue.arr vs).encode ++ rest) (hseek : con.seek = buf)
    (hheap : con.heap.Willing) (hstop : buf + (RedisValue.arr vs).encode.length ≤ con.stop)
    (hlt : con.stop < 2 ^ 31) :
    ∃ con', parseArray more (fuel + 1) buf con = some ((RedisValue.arr vs).reply, con') ∧
      Parses con con' (RedisValue.arr vs).encode.length := by
  have hcount := RedisValue.length_le_encodes vs
  rw [RedisValue.encode, List.append_assoc] at htext
  rw [RedisValue.encode, List.length_append] at hstop ⊢
  obtain ⟨con₁, h₁, he⟩ := @parseArray_header more con fuel buf vs.length (by omega) _ htext hheap
  have htext₁ : con₁.text (buf + (header 42 vs.length).length) =
      RedisValue.encodes vs ++ rest := by
    rw [RedisConnection.text, h₁.buf]
    exact RedisConnection.text_behind htext
  obtain ⟨con', helems, h'⟩ := parseElems_eq hvs htext₁ (by rw [h₁.seek, hseek]) h₁.heap
    (by rw [h₁.stop]; omega) (by rw [h₁.stop]; exact hlt)
  refine ⟨_, ?_, (h₁.trans h' rfl).mark (by omega)⟩
  rw [he, helems]
  rfl

/-! ## Values and messages -/

mutual

theorem RedisValue.decodes (more : RedisConnection → Option (Int × RedisConnection)) :
    (v : RedisValue) → v.Valid → ∀ fuel, v.encode.length ≤ fuel → v.Decodes more fuel
  | .int n, hvalid, fuel, hfuel => by
      intro con buf rest htext hseek hheap hstop hlt
      obtain ⟨fuel, rfl⟩ := Nat.exists_eq_add_of_le' (show 1 ≤ fuel by
        rw [RedisValue.encode, header, List.length_cons] at hfuel
        omega)
      exact parseLong_eq hvalid htext hheap (by rw [hseek]; exact hstop)
  | .bulk s, hvalid, fuel, hfuel => by
      intro con buf rest htext hseek hheap hstop hlt
      obtain ⟨fuel, rfl⟩ := Nat.exists_eq_add_of_le' (show 1 ≤ fuel by
        rw [RedisValue.encode, header, List.cons_append, List.length_cons] at hfuel
        omega)
      rw [RedisValue.encode, List.append_assoc, List.append_assoc] at htext
      exact parseBulkString_eq hvalid htext hheap (by rw [hseek]; exact hstop) hlt
  | .null, _, fuel, hfuel => by
      intro con buf rest htext hseek hheap hstop hlt
      obtain ⟨fuel, rfl⟩ := Nat.exists_eq_add_of_le' (show 1 ≤ fuel by
        have hlen : RedisValue.null.encode.length = 5 := rfl
        omega)
      exact parseBulkString_null htext hheap (by rw [hseek]; exact hstop)
  | .arr vs, hvalid, fuel, hfuel => by
      intro con buf rest htext hseek hheap hstop hlt
      obtain ⟨fuel, rfl⟩ := Nat.exists_eq_add_of_le' (show 1 ≤ fuel by
        rw [RedisValue.encode, header, List.cons_append, List.length_cons] at hfuel
        omega)
      have hvs := RedisValue.allDecode more vs hvalid fuel (by
        rw [RedisValue.encode, header, List.cons_append, List.length_cons,
          List.length_append] at hfuel
        omega)
      exact parseArray_eq hvs htext hseek hheap hstop hlt

theorem RedisValue.allDecode (more : RedisConnection → Option (Int × RedisConnection)) :
    (vs : List RedisValue) → RedisValue.AllValid vs → ∀ fuel,
      (RedisValue.encodes vs).length ≤ fuel → ∀ v ∈ vs, v.Decodes more fuel
  | [], _, _, _ => nofun
  | v :: vs, hvalid, fuel, hfuel => by
      rw [RedisValue.encodes, List.length_append] at hfuel
      intro w hw
      rcases List.mem_cons.mp hw with hv | hw
      · rw [hv]
        exact RedisValue.decodes more v hvalid.1 fuel (by omega)
      · exact RedisValue.allDecode more vs hvalid.2 fuel (by omega) w hw

end

/-- The `switch` on the type of a value leads to its parser. -/
theorem parseReply_value {v : RedisValue} {front rest : Bytes} (hne : front ≠ [])
    (hfront : front <+: v.encode) (htext : con.text 0 = front ++ rest) :
    parseReply more fuel con = v.parser more fuel 0 con := by
  obtain ⟨c, hc, htype, hparser⟩ := RedisConnection.type_at hne hfront htext more fuel
  rw [parseReply, hc, defined_bind, ← hparser]
  rcases htype with rfl | rfl | rfl <;> rfl

theorem parseReply_message {m : RedisMessage} (hm : m.Valid) (hfuel : m.encode.length ≤ fuel)
    {rest : Bytes} (htext : con.text 0 = m.encode ++ rest) (hseek : con.seek = 0)
    (hheap : con.heap.Willing) (hstop : m.encode.length ≤ con.stop) (hlt : con.stop < 2 ^ 31) :
    ∃ con', parseReply more fuel con = some (m.reply, con') ∧
      Parses con con' m.encode.length := by
  cases m with
  | value v =>
      rw [parseReply_value v.encode_ne_nil (List.prefix_refl _) htext]
      exact v.decodes more hm fuel hfuel con 0 rest htext hseek hheap
        (by rw [Nat.zero_add]; exact hstop) hlt
  | simple s =>
      have hlen : (RedisMessage.simple s).encode.length = s.length + 3 := by
        simp [RedisMessage.encode, crlf]
      rw [hlen] at hfuel hstop ⊢
      obtain ⟨fuel, rfl⟩ := Nat.exists_eq_add_of_le' (show 1 ≤ fuel by omega)
      rw [RedisMessage.encode, List.cons_append, List.append_assoc] at htext
      rw [parseReply, RedisConnection.getElem?_of_text htext]
      exact parseSingleString_eq hm htext hheap (by rw [hseek]; omega) hlt

end Parsers

/-! ## One read -/

theorem efWrapRead_ofList {bytes : Bytes} (hne : bytes ≠ []) {count : Nat}
    (hle : bytes.length ≤ count) (src : Source) :
    efWrapRead count (Segments.ofList bytes ++ src) = ((bytes.length : Int), 0, bytes, src) := by
  cases bytes with
  | nil => exact absurd rfl hne
  | cons x xs =>
      simp only [Segments.ofList, List.singleton_append, efWrapRead, List.take_of_length_le hle,
        List.drop_of_length_le hle, List.nil_append]

theorem RedisMessage.encode_ne_nil (m : RedisMessage) : m.encode ≠ [] := by
  cases m with
  | simple s => exact List.cons_ne_nil _ _
  | value v => exact v.encode_ne_nil

/-- What a call does that finds a message in its first read, with the bytes behind it. -/
theorem efRedisReadReply_message {m : RedisMessage} (hm : m.Valid) {con : RedisConnection}
    {src : Source} (hsrc : con.src = Segments.ofList m.encode ++ src)
    (hfits : m.encode.length ≤ min con.buf.length maxTransfer) (hheap : con.heap.Willing)
    {fuel : Nat} (hfuel : m.encode.length ≤ fuel) :
    ∃ con', efRedisReadReply fuel con = some (m.reply, con') ∧ con'.seek = m.encode.length ∧
      con'.buf.length = con.buf.length ∧ con'.src = src ∧ con'.heap.Willing ∧
      (con.Within → con'.Within) := by
  have hmax : m.encode.length < 2 ^ 31 := by
    have : maxTransfer < 2 ^ 31 := by decide
    omega
  have hread := efWrapRead_ofList m.encode_ne_nil hfits src
  rw [← hsrc] at hread
  have hbuf : writeAt con.buf 0 m.encode = m.encode ++ con.buf.drop m.encode.length := by
    simp [writeAt]
  have hlength : (writeAt con.buf 0 m.encode).length = con.buf.length :=
    writeAt_length (by omega)
  obtain ⟨con', hparse, h⟩ := @parseReply_message replyReadMore
    { con with
      buf := writeAt con.buf 0 m.encode, seek := 0, stop := m.encode.length, src := src }
    fuel m hm hfuel _ hbuf rfl hheap (Nat.le_refl _) hmax
  refine ⟨con', ?_, ?_, ?_, h.src, h.heap, h.within⟩
  · unfold efRedisReadReply readReply
    rw [hread]
    dsimp only
    rw [if_neg (by omega), hparse]
  · rw [h.seek, Nat.zero_add]
  · rw [h.buf]
    exact hlength

/-- A reply that one read delivers is decoded to the value that the server has encoded, and `seek`
is behind it. -/
theorem redis_decoding {m : RedisMessage} (hm : m.Valid) {con : RedisConnection} {src : Source}
    (hsrc : con.src = Segments.ofList m.encode ++ src)
    (hfits : m.encode.length ≤ min con.buf.length maxTransfer) (hheap : con.heap.Willing)
    {fuel : Nat} (hfuel : m.encode.length ≤ fuel) :
    ∃ con', efRedisReadReply fuel con = some (m.reply, con') ∧ con'.seek = m.encode.length := by
  obtain ⟨con', he, hseek, -⟩ := efRedisReadReply_message hm hsrc hfits hheap hfuel
  exact ⟨con', he, hseek⟩

/-- An array of a string with a line break, a null and an array of a number, in a buffer of 64
bytes. -/
theorem redis_decoding_nested : ∃ con',
    efRedisReadReply 40 ⟨List.replicate 64 0, 0, 0, Segments.ofList
        (RedisValue.arr [.bulk [97, 13, 10, 98], .null, .arr [.int 42]]).encode,
      ⟨[], 0, 0⟩, []⟩ =
      some (.arr 3 [.str [97, 13, 10, 98] 4, .null, .arr 1 [.long 42]], con') ∧
      con'.seek = 28 :=
  @redis_decoding (.value (.arr [.bulk [97, 13, 10, 98], .null, .arr [.int 42]]))
    ⟨(by decide : (0 : UInt8) ∉ [97, 13, 10, 98]), trivial,
      ⟨(by decide : 42 + 48 < 2 ^ 63), trivial⟩, trivial⟩ _ []
    (List.append_nil _).symm (by decide) (fun _ h => absurd h List.not_mem_nil) _ (by decide)

end EFramework
