import EFramework.Redis.Decoding

/-! # Replies from a stream

A call starts with a read and drops what the last one has left in the buffer. A line is
searched in all of the buffer, and the line break behind a string that is read in parts is
left. So the replies come out as they went in if no read holds parts of two of them, and
if the only cuts are in the data of a string with which a reply ends.
-/

namespace EFramework

open Lib

/-! ## Deliveries -/

/-- `ef_redis_read_reply`, called `n` times. -/
def readReplies (fuel : Nat) :
    Nat → RedisConnection → Option (List RedisReply × RedisConnection)
  | 0, con => some ([], con)
  | n + 1, con => do
      let (rep, con) ← efRedisReadReply fuel con
      let (reps, con) ← readReplies fuel n con
      some (rep :: reps, con)

/-- An encoding ends with the data of a bulk string and CRLF; the rest is before the data. -/
inductive RedisValue.EndsIn (s : Bytes) : RedisValue → Bytes → Prop where
  | bulk : EndsIn s (.bulk s) (header 36 s.length)
  | arr (vs : List RedisValue) {v : RedisValue} {front : Bytes} (h : EndsIn s v front) :
      EndsIn s (.arr (vs ++ [v]))
        (header 42 (vs ++ [v]).length ++ (RedisValue.encodes vs ++ front))

/-- A reply that is cut in its last data: the first read holds some of it, each of the others a
part, and the last one also what follows the data. -/
structure Cut where
  front : Bytes
  start : Bytes
  parts : List Bytes
  last : Bytes

namespace Cut

def rest (c : Cut) : Bytes := c.parts.flatten ++ c.last

def data (c : Cut) : Bytes := c.start ++ c.rest

def reads (c : Cut) (tail : Bytes) : Source :=
  c.parts.flatMap Segments.ofList ++ Segments.ofList (c.last ++ tail)

/-- The reads have at most `cap` bytes and at least one. -/
structure Fits (c : Cut) (cap : Nat) (tail : Bytes) : Prop where
  first : (c.front ++ c.start).length ≤ cap
  parts : ∀ p ∈ c.parts, p ≠ [] ∧ p.length ≤ cap
  last : c.last ≠ []
  tail : (c.last ++ tail).length ≤ cap
  data : c.data.length < 2 ^ 31

end Cut

/-- The stream is the replies in reads of at most `cap` bytes, and each reply has a read of its own
or is cut in its last data. After the last reply its CRLF may be cut. -/
inductive Delivers (cap : Nat) : List RedisMessage → Source → Prop where
  | nil : Delivers cap [] []
  | whole {m : RedisMessage} {ms : List RedisMessage} {src : Source} (hm : m.Valid)
      (hfits : m.encode.length ≤ cap) (h : Delivers cap ms src) :
      Delivers cap (m :: ms) (Segments.ofList m.encode ++ src)
  | cut {v : RedisValue} {ms : List RedisMessage} {src : Source} (hv : v.Valid) (c : Cut)
      (hends : v.EndsIn c.data c.front) (hfits : c.Fits cap crlf) (h : Delivers cap ms src) :
      Delivers cap (.value v :: ms)
        (Segments.ofList (c.front ++ c.start) ++ (c.reads crlf ++ src))
  | last {v : RedisValue} {src : Source} (hv : v.Valid) (c : Cut)
      (hends : v.EndsIn c.data c.front) {tail : Bytes} (htail : tail ++ src.payload = crlf)
      (hfits : c.Fits cap tail) :
      Delivers cap [.value v] (Segments.ofList (c.front ++ c.start) ++ (c.reads tail ++ src))

theorem RedisValue.encodes_append (vs ws : List RedisValue) :
    RedisValue.encodes (vs ++ ws) = RedisValue.encodes vs ++ RedisValue.encodes ws := by
  induction vs with
  | nil => rfl
  | cons v vs ih => rw [List.cons_append, RedisValue.encodes, ih, RedisValue.encodes,
      List.append_assoc]

theorem RedisValue.EndsIn.encode_eq {s front : Bytes} {v : RedisValue} (h : v.EndsIn s front) :
    v.encode = front ++ (s ++ crlf) := by
  induction h with
  | bulk => rfl
  | arr vs h ih =>
      rw [RedisValue.encode, RedisValue.encodes_append, RedisValue.encodes, ih]
      simp [RedisValue.encodes]

theorem Cut.payload_reads (c : Cut) (tail : Bytes) (src : Source) :
    Segments.payload (c.reads tail ++ src) = c.rest ++ (tail ++ src.payload) := by
  rw [Cut.reads, List.append_assoc, Segments.payload_flatMap_ofList_append,
    Segments.payload_ofList_append, Cut.rest]
  simp

/-- The reads hold the encodings of the replies. -/
theorem Delivers.payload_eq {cap : Nat} {ms : List RedisMessage} {src : Source}
    (h : Delivers cap ms src) : src.payload = ms.flatMap RedisMessage.encode := by
  induction h with
  | nil => rfl
  | whole hm hfits h ih =>
      rw [Segments.payload_ofList_append, ih, List.flatMap_cons]
  | cut hv c hends hfits h ih =>
      rw [Segments.payload_ofList_append, c.payload_reads, ih, List.flatMap_cons,
        RedisMessage.encode, hends.encode_eq, Cut.data]
      simp
  | last hv c hends htail hfits =>
      rw [Segments.payload_ofList_append, c.payload_reads, htail, List.flatMap_cons,
        RedisMessage.encode, hends.encode_eq, Cut.data]
      simp

/-! ## Strings in parts -/

/-- What a call does to a connection that is left with the stream `src`. -/
structure Consumes (con con' : RedisConnection) (src : Source) : Prop where
  src : con'.src = src
  room : con'.buf.length = con.buf.length
  heap : con'.heap.Willing
  seek : con'.seek ≤ con'.stop
  within : con.Within → con'.Within

namespace Consumes

variable {con con' con'' : RedisConnection} {src : Source} {n : Nat}

theorem mark (h : Consumes con con' src) : Consumes con con'.mark src where
  src := h.src
  room := h.room
  heap := h.heap
  seek := h.seek
  within := by
    intro hw m hm
    rcases List.mem_append.mp hm with hm | hm
    · exact h.within hw m hm
    · rw [List.mem_singleton.mp hm]
      exact h.seek

theorem of_parses (h : Parses con con' n) (h' : Consumes con' con'' src) :
    Consumes con con'' src where
  src := h'.src
  room := by rw [h'.room, h.buf]
  heap := h'.heap
  seek := h'.seek
  within := fun hw => h'.within (h.within hw)

end Consumes

theorem replyReadMore_empty {con : RedisConnection} (hempty : con.seek = con.stop) {bytes : Bytes}
    {src : Source} (hsrc : con.src = Segments.ofList bytes ++ src) (hne : bytes ≠ [])
    (hle : bytes.length ≤ min con.buf.length maxTransfer) :
    replyReadMore con = some (0, { con with
      buf := writeAt con.buf 0 bytes, seek := 0, stop := bytes.length, src := src }) := by
  have hpending : con.pending = 0 := by
    rw [RedisConnection.pending, hempty, Int.sub_self]
    rfl
  have hread := efWrapRead_ofList hne hle src
  rw [← hsrc] at hread
  unfold replyReadMore
  rw [movePending, hpending, if_pos rfl, Option.bind_eq_bind, Option.bind_some, Nat.sub_zero, hread]
  dsimp only
  rw [if_neg (by omega), Nat.zero_add]

theorem text_writeAt (mem bytes : Bytes) :
    (writeAt mem 0 bytes).drop 0 = bytes ++ mem.drop bytes.length := by
  simp [writeAt]

/-- One round of the loop of `parse_string`: all that was read is data, or the data ends in it. -/
theorem copyRest_round {strlen : Nat} {content bytes : Bytes} {src : Source} {con : RedisConnection}
    (hempty : con.seek = con.stop) (hsrc : con.src = Segments.ofList bytes ++ src)
    (hne : bytes ≠ []) (hle : bytes.length ≤ min con.buf.length maxTransfer)
    (hlt : content.length < strlen) (fuel : Nat) :
    copyRest replyReadMore strlen (fuel + 1) content con =
      let con' := { con with
        buf := writeAt con.buf 0 bytes, seek := bytes.length, stop := bytes.length, src := src }
      if bytes.length + content.length < strlen then
        copyRest replyReadMore strlen fuel (content ++ padded bytes) con'
      else
        some (some (content ++ padded (bytes.take (strlen - content.length))),
          { con' with seek := strlen - content.length }) := by
  have hmax : maxTransfer < 2 ^ 31 := by decide
  have hpending : RedisConnection.pending { con with
      buf := writeAt con.buf 0 bytes, seek := 0, stop := bytes.length, src := src } =
      bytes.length := by
    rw [RedisConnection.pending_eq (Nat.zero_le _) (by dsimp only; omega)]
    rfl
  have hcopy : ∀ n, n ≤ bytes.length →
      strncpyBytes ((writeAt con.buf 0 bytes).drop 0) n = some (padded (bytes.take n)) := by
    intro n hn
    have hwritten := strncpyBytes_append (bytes.take n)
      (bytes.drop n ++ con.buf.drop bytes.length)
    rwa [List.length_take, Nat.min_eq_left hn, ← List.append_assoc, List.take_append_drop,
      ← text_writeAt] at hwritten
  rw [copyRest, if_pos hlt, replyReadMore_empty hempty hsrc hne hle, Option.bind_eq_bind,
    Option.bind_some]
  dsimp only
  rw [if_neg (by omega), hpending]
  split
  next hmore =>
    have hall := hcopy bytes.length (Nat.le_refl _)
    rw [List.take_length] at hall
    rw [RedisConnection.text, hall]
    rfl
  next hmore =>
    rw [RedisConnection.text, hcopy _ (by omega), Nat.zero_add]
    rfl

/-- The loop of `parse_string` on the parts of a string. -/
theorem copyRest_parts {strlen fuel : Nat} {parts : List Bytes} {last tail content : Bytes}
    {src : Source} {con : RedisConnection} (hempty : con.seek = con.stop)
    (hsrc : con.src = parts.flatMap Segments.ofList ++ (Segments.ofList (last ++ tail) ++ src))
    (hparts : ∀ p ∈ parts, p ≠ [] ∧ p.length ≤ min con.buf.length maxTransfer)
    (hlast : last ≠ []) (htail : (last ++ tail).length ≤ min con.buf.length maxTransfer)
    (hnul : 0 ∉ parts.flatten ++ last) (hheap : con.heap.Willing)
    (hlen : content.length + (parts.flatten ++ last).length = strlen)
    (hfuel : parts.length < fuel) :
    ∃ con', copyRest replyReadMore strlen fuel content con =
        some (some (content ++ (parts.flatten ++ last)), con') ∧ Consumes con con' src := by
  have hpos := List.length_pos_iff.mpr hlast
  induction parts generalizing con content fuel with
  | nil =>
      obtain ⟨fuel, rfl⟩ := Nat.exists_eq_add_of_le' hfuel
      rw [List.flatMap_nil, List.nil_append] at hsrc
      rw [List.flatten_nil, List.nil_append] at hlen hnul ⊢
      have hdata : (last ++ tail).take (strlen - content.length) = last := by
        rw [show strlen - content.length = last.length by omega, List.take_left]
      have hround := copyRest_round hempty hsrc (by simp [hlast]) htail
        (show content.length < strlen by omega) fuel
      rw [List.length_append] at htail
      rw [hdata, padded_of_not_mem hnul, if_neg (by rw [List.length_append]; omega)] at hround
      refine ⟨_, hround, rfl, ?_, hheap, ?_, id⟩
      · exact writeAt_length (by rw [List.length_append]; omega)
      · dsimp only
        rw [List.length_append]
        omega
  | cons p parts ih =>
      obtain ⟨fuel, rfl⟩ := Nat.exists_eq_add_of_lt hfuel
      obtain ⟨hp, hple⟩ := hparts p List.mem_cons_self
      rw [List.flatMap_cons, List.append_assoc] at hsrc
      rw [List.flatten_cons, List.append_assoc] at hlen hnul ⊢
      rw [List.length_append, List.length_append] at hlen
      rw [List.mem_append, not_or] at hnul
      have hround := copyRest_round hempty hsrc hp hple (show content.length < strlen by omega)
        ((p :: parts).length + fuel)
      rw [padded_of_not_mem hnul.1, if_pos (by omega)] at hround
      have hroom : (writeAt con.buf 0 p).length = con.buf.length := writeAt_length (by omega)
      obtain ⟨con', he, h⟩ := @ih ((p :: parts).length + fuel) (content ++ p)
        { con with
          buf := writeAt con.buf 0 p, seek := p.length, stop := p.length
          src := parts.flatMap Segments.ofList ++ (Segments.ofList (last ++ tail) ++ src) }
        rfl rfl (by rw [hroom]; exact fun q hq => hparts q (List.mem_cons_of_mem p hq))
        (by rw [hroom]; exact htail) hnul.2 hheap
        (by rw [List.length_append, List.length_append]; omega)
        (by rw [List.length_cons]; omega)
      rw [List.append_assoc] at he
      refine ⟨con', ?_, h.src, by rw [h.room, hroom], h.heap, h.seek, h.within⟩
      rw [← he, ← hround]

theorem length_le_flatten {parts : List Bytes} (h : ∀ p ∈ parts, p ≠ []) :
    parts.length ≤ parts.flatten.length := by
  induction parts with
  | nil => exact Nat.le_refl 0
  | cons p parts ih =>
      have hp := List.length_pos_iff.mpr (h p List.mem_cons_self)
      have hparts := ih (fun q hq => h q (List.mem_cons_of_mem p hq))
      rw [List.flatten_cons, List.length_append, List.length_cons]
      omega

theorem parseString_cut {c : Cut} {cap : Nat} {tail stale : Bytes} {src : Source}
    {con : RedisConnection} {fuel buf : Nat} (hfits : c.Fits cap tail)
    (hcap : cap = min con.buf.length maxTransfer) (hnul : 0 ∉ c.data)
    (htext : con.text buf = c.start ++ stale) (hstop : con.stop = con.seek + c.start.length)
    (hsrc : con.src = c.reads tail ++ src) (hheap : con.heap.Willing)
    (hlt : con.stop < 2 ^ 31) (hfuel : c.data.length ≤ fuel) :
    ∃ con', parseString replyReadMore fuel buf c.data.length con =
        some (.str c.data c.data.length, con') ∧ Consumes con con' src := by
  have hsize : sizeofReply < 2 ^ 63 := by decide
  have hdata := hfits.data
  have hpos := List.length_pos_iff.mpr hfits.last
  have hlen : c.data.length = c.start.length + (c.parts.flatten.length + c.last.length) := by
    rw [Cut.data, Cut.rest, List.length_append, List.length_append]
  obtain ⟨con₁, hmalloc₁, h₁⟩ := con.malloc_willing hheap hsize
  obtain ⟨con₂, hmalloc₂, h₂⟩ := con₁.malloc_willing h₁.heap hsize
  obtain ⟨con₃, hmalloc₃, h₃⟩ := con₂.malloc_willing h₂.heap
    (show c.data.length < 2 ^ 63 by omega)
  have h := (h₁.trans h₂ rfl).trans h₃ rfl
  have hpending : con₃.pending = c.start.length := by
    rw [con₃.pending_eq (by rw [h.seek, h.stop]; omega) (by rw [h.stop]; omega), h.seek, h.stop]
    omega
  have htext₃ : con₃.text buf = c.start ++ stale := by
    rw [RedisConnection.text, h.buf]
    exact htext
  have hnull : c.data.length ≠ sizeT (-1) := by
    have hmax : sizeT (-1) = 2 ^ 64 - 1 := by decide
    omega
  rw [Cut.data, List.mem_append, not_or] at hnul
  have hcopied := strncpyBytes_of_not_mem hnul.1 stale
  obtain ⟨con', hloop, h'⟩ := @copyRest_parts c.data.length fuel c.parts c.last tail c.start src
    { con₃ with seek := con₃.seek + c.start.length }
    (by dsimp only; rw [h.seek, h.stop, hstop, Nat.add_zero])
    (by dsimp only; rw [h.src, hsrc, Cut.reads, List.append_assoc])
    (by dsimp only; rw [h.buf, ← hcap]; exact hfits.parts) hfits.last
    (by dsimp only; rw [h.buf, ← hcap]; exact hfits.tail) hnul.2 h.heap
    (by rw [hlen, List.length_append])
    (by
      have hparts := length_le_flatten (fun p hp => (hfits.parts p hp).1)
      omega)
  refine ⟨_, ?_, (Consumes.of_parses h ⟨h'.src, h'.room, h'.heap, h'.seek, h'.within⟩).mark⟩
  unfold parseString
  rw [hmalloc₁]
  dsimp only
  rw [if_pos rfl, if_neg hnull, hmalloc₂]
  dsimp only
  rw [if_pos rfl, hmalloc₃]
  dsimp only
  rw [if_pos rfl, hpending, if_pos (by omega), htext₃, hcopied, Lib.defined_bind,
    hloop, toInt32_eq hdata]
  rfl

theorem parseBulkString_cut {c : Cut} {cap : Nat} {tail stale : Bytes} {src : Source}
    {con : RedisConnection} {fuel buf : Nat} (hfits : c.Fits cap tail)
    (hcap : cap = min con.buf.length maxTransfer) (hnul : 0 ∉ c.data)
    (htext : con.text buf = header 36 c.data.length ++ (c.start ++ stale))
    (hstop : con.stop = con.seek + (header 36 c.data.length ++ c.start).length)
    (hsrc : con.src = c.reads tail ++ src) (hheap : con.heap.Willing)
    (hlt : con.stop < 2 ^ 31) (hfuel : c.data.length ≤ fuel) :
    ∃ con', parseBulkString replyReadMore (fuel + 1) buf con =
        some (.str c.data c.data.length, con') ∧ Consumes con con' src := by
  have hfound := strstr_header (show (36 : UInt8) ≠ 0 ∧ (36 : UInt8) ≠ 13 by decide) c.data.length
    (c.start ++ stale)
  rw [← htext] at hfound
  have hhead : (header 36 c.data.length).length = (decimal c.data.length).length + 1 + 2 := by
    simp [header, crlf]
  rw [List.length_append, hhead] at hstop
  have hskip := @Parses.skip con hheap ((decimal c.data.length).length + 1 + 2)
  have hbehind := RedisConnection.text_behind htext
  rw [hhead] at hbehind
  obtain ⟨con', hparse, h⟩ := @parseString_cut c cap tail stale src
    { con with seek := con.seek + ((decimal c.data.length).length + 1 + 2) } (fuel + 1)
    (buf + ((decimal c.data.length).length + 1) + 2) hfits hcap hnul hbehind
    (by dsimp only; omega) hsrc hheap hlt (by omega)
  refine ⟨_, ?_, (Consumes.of_parses hskip h).mark⟩
  unfold parseBulkString
  rw [awaitLine_of_found hfound, Option.bind_eq_bind, Option.bind_some]
  dsimp only
  have hdata := hfits.data
  rw [htext, parseLen_header (Or.inl rfl) hdata, defined_bind,
    sizeT_natCast (by omega), hparse]
  rfl

/-! ## Replies in parts -/

/-- The elements of an array before the last one are parsed as they are, and the last one reads
on. -/
theorem parseElems_cut {fuel : Nat} {vs : List RedisValue}
    (hvs : ∀ v ∈ vs, v.Decodes replyReadMore fuel) {v : RedisValue} {front rest : Bytes}
    (hne : front ≠ []) (hfront : front <+: v.encode) {src : Source} {con : RedisConnection}
    {buf : Nat}
    (hv : ∀ con₁, Parses con con₁ (RedisValue.encodes vs).length → ∃ con',
      v.parser replyReadMore fuel con₁.seek con₁ = some (v.reply, con') ∧ Consumes con₁ con' src)
    (htext : con.text buf = RedisValue.encodes vs ++ (front ++ rest)) (hseek : con.seek = buf)
    (hheap : con.heap.Willing) (hstop : buf + (RedisValue.encodes vs).length ≤ con.stop)
    (hlt : con.stop < 2 ^ 31) :
    ∃ con', parseElems replyReadMore fuel (parseArray replyReadMore fuel) (vs ++ [v]).length buf
        con = some (RedisValue.replies (vs ++ [v]), con') ∧ Consumes con con' src := by
  induction vs generalizing con buf with
  | nil =>
      obtain ⟨con', hparse, h⟩ := hv con (.refl hheap)
      rw [hseek] at hparse
      refine ⟨con', ?_, h⟩
      rw [List.nil_append, List.length_singleton, parseElems_cons hne hfront htext hparse]
      rfl
  | cons w vs ih =>
      rw [RedisValue.encodes, List.append_assoc] at htext
      rw [RedisValue.encodes, List.length_append] at hstop hv
      obtain ⟨con₁, hparse, h₁⟩ := hvs w List.mem_cons_self con buf _ htext hseek hheap (by omega)
        hlt
      have hseek₁ : con₁.seek = buf + w.encode.length := by rw [h₁.seek, hseek]
      have htext₁ : con₁.text con₁.seek = RedisValue.encodes vs ++ (front ++ rest) := by
        rw [RedisConnection.text, h₁.buf, hseek₁]
        exact RedisConnection.text_behind htext
      obtain ⟨con', helems, h⟩ := ih (fun u hu => hvs u (List.mem_cons_of_mem w hu))
        (fun con₂ h₂ => hv con₂ (h₁.trans h₂ rfl)) htext₁ rfl h₁.heap
        (by rw [hseek₁, h₁.stop]; omega) (by rw [h₁.stop]; exact hlt)
      refine ⟨con', ?_, .of_parses h₁ h⟩
      rw [List.cons_append, List.length_cons,
        parseElems_cons w.encode_ne_nil (List.prefix_refl _) htext hparse, helems]
      rfl

theorem RedisValue.allValid_append {vs ws : List RedisValue} :
    RedisValue.AllValid (vs ++ ws) ↔ RedisValue.AllValid vs ∧ RedisValue.AllValid ws := by
  induction vs with
  | nil => exact (and_iff_right trivial).symm
  | cons v vs ih =>
      rw [List.cons_append, RedisValue.AllValid, ih, RedisValue.AllValid, and_assoc]

theorem RedisValue.EndsIn.front_ne_nil {s front : Bytes} {v : RedisValue} (h : v.EndsIn s front) :
    front ≠ [] := by
  cases h <;> exact List.cons_ne_nil _ _

theorem RedisValue.EndsIn.front_prefix {s front : Bytes} {v : RedisValue}
    (h : v.EndsIn s front) : front <+: v.encode :=
  ⟨s ++ crlf, h.encode_eq.symm⟩

/-- A value whose first part is in the buffer is parsed as if it had come as a whole. -/
theorem RedisValue.EndsIn.decodes {c : Cut} {cap : Nat} {tail : Bytes} (hfits : c.Fits cap tail)
    {v : RedisValue} {front : Bytes} (h : v.EndsIn c.data front) (hv : v.Valid) {fuel : Nat}
    (hfuel : v.encode.length ≤ fuel) {con : RedisConnection} {buf : Nat} {stale : Bytes}
    {src : Source} (hcap : cap = min con.buf.length maxTransfer)
    (htext : con.text buf = front ++ (c.start ++ stale)) (hseek : con.seek = buf)
    (hstop : con.stop = buf + (front ++ c.start).length) (hsrc : con.src = c.reads tail ++ src)
    (hheap : con.heap.Willing) (hlt : con.stop < 2 ^ 31) :
    ∃ con', v.parser replyReadMore fuel buf con = some (v.reply, con') ∧
      Consumes con con' src := by
  generalize hs : c.data = s at h
  induction h generalizing fuel con buf with
  | bulk =>
      subst hs
      obtain ⟨fuel, rfl⟩ := Nat.exists_eq_add_of_le' (show 1 ≤ fuel by
        rw [RedisValue.encode, header, List.cons_append, List.length_cons] at hfuel
        omega)
      have hle : c.data.length ≤ fuel := by
        rw [RedisValue.encode, header, List.cons_append, List.length_cons, List.length_append,
          @List.length_append _ c.data] at hfuel
        omega
      exact parseBulkString_cut hfits hcap hv htext (by rw [hstop, hseek]) hsrc hheap hlt hle
  | @arr vs v front h ih =>
      obtain ⟨hvs, hv, -⟩ := RedisValue.allValid_append.mp hv
      have hcount := RedisValue.length_le_encodes vs
      have hnum : (vs ++ [v]).length = vs.length + 1 := List.length_append
      have hhead : 1 ≤ (header 42 (vs.length + 1)).length := by
        rw [header, List.length_cons]
        omega
      rw [RedisValue.encode, hnum, List.length_append, RedisValue.encodes_append,
        List.length_append, RedisValue.encodes, RedisValue.encodes, List.append_nil] at hfuel
      obtain ⟨fuel, rfl⟩ := Nat.exists_eq_add_of_le' (show 1 ≤ fuel by omega)
      rw [hnum, List.append_assoc, List.append_assoc] at htext
      rw [hnum, List.append_assoc, List.append_assoc, List.length_append,
        List.length_append] at hstop
      obtain ⟨con₁, h₁, he⟩ := @parseArray_header replyReadMore con fuel buf (vs.length + 1)
        (by omega) _ htext hheap
      have htext₁ : con₁.text (buf + (header 42 (vs.length + 1)).length) =
          RedisValue.encodes vs ++ (front ++ (c.start ++ stale)) := by
        rw [RedisConnection.text, h₁.buf]
        exact RedisConnection.text_behind htext
      obtain ⟨con', helems, h'⟩ := @parseElems_cut fuel vs
        (RedisValue.allDecode replyReadMore vs hvs fuel (by omega)) v front (c.start ++ stale)
        h.front_ne_nil h.front_prefix src con₁ (buf + (header 42 (vs.length + 1)).length)
        (by
          intro con₂ h₂
          have hseek₂ : con₂.seek = buf + (header 42 (vs.length + 1)).length +
              (RedisValue.encodes vs).length := by
            rw [h₂.seek, h₁.seek, hseek]
          refine ih hv (show v.encode.length ≤ fuel by omega) ?_ ?_ rfl ?_ ?_ h₂.heap ?_
          · rw [h₂.buf, h₁.buf, hcap]
          · rw [RedisConnection.text, h₂.buf, hseek₂]
            exact RedisConnection.text_behind htext₁
          · rw [h₂.stop, h₁.stop, hstop, hseek₂]
            omega
          · rw [h₂.src, h₁.src, hsrc]
          · rw [h₂.stop, h₁.stop]
            exact hlt)
        htext₁ (by rw [h₁.seek, hseek]) h₁.heap (by rw [h₁.stop]; omega)
        (by rw [h₁.stop]; exact hlt)
      rw [hnum] at helems
      refine ⟨_, ?_, (Consumes.of_parses h₁ h').mark⟩
      rw [RedisValue.parser, he, helems, RedisValue.reply, hnum]
      rfl

theorem efRedisReadReply_cut {c : Cut} {cap : Nat} {tail : Bytes} (hfits : c.Fits cap tail)
    {v : RedisValue} (hends : v.EndsIn c.data c.front) (hv : v.Valid) {fuel : Nat}
    (hfuel : v.encode.length ≤ fuel) {con : RedisConnection} {src : Source}
    (hcap : cap = min con.buf.length maxTransfer)
    (hsrc : con.src = Segments.ofList (c.front ++ c.start) ++ (c.reads tail ++ src))
    (hheap : con.heap.Willing) :
    ∃ con', efRedisReadReply fuel con = some (v.reply, con') ∧ Consumes con con' src := by
  have hmax : maxTransfer < 2 ^ 31 := by decide
  have hfirst := hfits.first
  have hread := efWrapRead_ofList
    (List.append_ne_nil_of_left_ne_nil hends.front_ne_nil c.start) (hcap ▸ hfirst)
    (c.reads tail ++ src)
  rw [← hsrc] at hread
  have hroom : (writeAt con.buf 0 (c.front ++ c.start)).length = con.buf.length :=
    writeAt_length (by omega)
  have htext := text_writeAt con.buf (c.front ++ c.start)
  rw [List.append_assoc c.front] at htext
  generalize hcon : ({ con with
      buf := writeAt con.buf 0 (c.front ++ c.start), seek := 0
      stop := (c.front ++ c.start).length, src := c.reads tail ++ src } : RedisConnection) =
    con₁
  have hbuf : con₁.buf.length = con.buf.length := by
    rw [← hcon]
    exact hroom
  have htext₁ : con₁.text 0 =
      c.front ++ (c.start ++ con.buf.drop (c.front ++ c.start).length) := by
    rw [← hcon]
    exact htext
  obtain ⟨con', hparse, h⟩ := @RedisValue.EndsIn.decodes c cap tail hfits v c.front hends hv fuel
    hfuel con₁ 0 _ src (by rw [hbuf, hcap]) htext₁ (by rw [← hcon])
    (by rw [← hcon, Nat.zero_add]) (by rw [← hcon]) (by rw [← hcon]; exact hheap)
    (by rw [← hcon]; dsimp only; omega)
  refine ⟨con', ?_, h.src, by rw [h.room, hbuf], h.heap, h.seek, fun hw => h.within ?_⟩
  · unfold efRedisReadReply readReply
    rw [hread]
    dsimp only
    rw [if_neg (by omega), hcon,
      parseReply_value hends.front_ne_nil hends.front_prefix htext₁]
    exact hparse
  · rw [← hcon]
    exact hw

/-! ## A stream of replies -/

/-- The replies of a stream come out in order, and every parser returns within the received
bytes. -/
theorem redis_stream {ms : List RedisMessage} {con : RedisConnection}
    (hsrc : Delivers (min con.buf.length maxTransfer) ms con.src) (hheap : con.heap.Willing)
    {fuel : Nat} (hfuel : ∀ m ∈ ms, m.encode.length ≤ fuel) :
    ∃ con', readReplies fuel ms.length con = some (ms.map RedisMessage.reply, con') ∧
      (con.Within → con'.Within) := by
  generalize hcap : min con.buf.length maxTransfer = cap at hsrc
  generalize hs : con.src = src at hsrc
  induction hsrc generalizing con with
  | nil => exact ⟨con, rfl, id⟩
  | @whole m ms src hm hfits h ih =>
      obtain ⟨con₁, he, -, hroom, hsrc₁, hheap₁, hwithin⟩ := efRedisReadReply_message hm hs
        (by rw [hcap]; exact hfits) hheap (hfuel m List.mem_cons_self)
      obtain ⟨con', hrest, hwithin'⟩ := ih hheap₁
        (fun m' hm' => hfuel m' (List.mem_cons_of_mem m hm')) (by rw [hroom, hcap]) hsrc₁
      refine ⟨con', ?_, fun hw => hwithin' (hwithin hw)⟩
      rw [List.length_cons, readReplies, he, Option.bind_eq_bind, Option.bind_some]
      dsimp only
      rw [hrest]
      rfl
  | @cut v ms src hv c hends hfits h ih =>
      obtain ⟨con₁, he, h₁⟩ := efRedisReadReply_cut hfits hends hv
        (hfuel (.value v) List.mem_cons_self) hcap.symm hs hheap
      obtain ⟨con', hrest, hwithin'⟩ := ih h₁.heap
        (fun m' hm' => hfuel m' (List.mem_cons_of_mem _ hm')) (by rw [h₁.room, hcap]) h₁.src
      refine ⟨con', ?_, fun hw => hwithin' (h₁.within hw)⟩
      rw [List.length_cons, readReplies, he, Option.bind_eq_bind, Option.bind_some]
      dsimp only
      rw [hrest]
      rfl
  | @last v src hv c hends tail htail hfits =>
      obtain ⟨con₁, he, h₁⟩ := efRedisReadReply_cut hfits hends hv
        (hfuel (.value v) List.mem_cons_self) hcap.symm hs hheap
      refine ⟨con₁, ?_, h₁.within⟩
      rw [List.length_singleton, readReplies, he]
      rfl

/-- A number in a read of its own, and an array whose last string comes in two reads. -/
theorem redis_stream_two : ∃ con',
    readReplies 30 2 ⟨List.replicate 32 0, 0, 0,
        [.data 58 [55, 13, 10], .data 42 [49, 13, 10, 36, 51, 13, 10, 97],
          .data 98 [99, 13, 10]], ⟨[], 0, 0⟩, []⟩ =
      some ([.long 7, .arr 1 [.str [97, 98, 99] 3]], con') ∧ con'.Within := by
  have hcut : (RedisValue.arr ([] ++ [RedisValue.bulk [97, 98, 99]])).EndsIn [97, 98, 99]
      [42, 49, 13, 10, 36, 51, 13, 10] := .arr [] .bulk
  have hvalid : (RedisValue.arr ([] ++ [RedisValue.bulk [97, 98, 99]])).Valid :=
    ⟨(by decide : (0 : UInt8) ∉ [97, 98, 99]), trivial⟩
  have hdelivers : Delivers 32
      [.value (.int 7), .value (.arr ([] ++ [RedisValue.bulk [97, 98, 99]]))]
      [.data 58 [55, 13, 10], .data 42 [49, 13, 10, 36, 51, 13, 10, 97],
        .data 98 [99, 13, 10]] :=
    @Delivers.whole 32 (.value (.int 7)) _ _ (by decide : 7 + 48 < 2 ^ 63) (by decide)
      (@Delivers.cut 32 (.arr ([] ++ [RedisValue.bulk [97, 98, 99]])) [] []
        hvalid
        ⟨[42, 49, 13, 10, 36, 51, 13, 10], [97], [], [98, 99]⟩ hcut
        ⟨by decide, nofun, by decide, by decide, by decide⟩ .nil)
  obtain ⟨con', he, hwithin⟩ := @redis_stream
    [.value (.int 7), .value (.arr ([] ++ [RedisValue.bulk [97, 98, 99]]))]
    ⟨List.replicate 32 0, 0, 0, [.data 58 [55, 13, 10], .data 42 [49, 13, 10, 36, 51, 13, 10, 97],
        .data 98 [99, 13, 10]], ⟨[], 0, 0⟩, []⟩ hdelivers
    (fun _ h => absurd h List.not_mem_nil) 30 (by decide)
  exact ⟨con', he, hwithin (fun _ h => absurd h List.not_mem_nil)⟩

/-- Two numbers in one read: the second one is dropped. -/
theorem redis_stream_coalesced : ¬ ∃ fuel con',
    readReplies fuel 2 ⟨List.replicate 16 0, 0, 0, [.data 58 [49, 13, 10, 58, 50, 13, 10]],
        ⟨[], 0, 0⟩, []⟩ = some ([.long 1, .long 2], con') := by
  rintro ⟨fuel, con', he⟩
  cases fuel with
  | zero => cases he
  | succ fuel => cases he

end EFramework
