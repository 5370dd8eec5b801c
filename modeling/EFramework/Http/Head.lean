import EFramework.Http.Header

/-! # Parsing a response head

The head is read into a local block of 1024 bytes, by reads that may store 4096. The
status line has to come with the first read. A header line that is not complete is moved
to the start of the block, and more is read behind it; the end of the text is then taken
from the old end, so that what was moved away counts twice. The block is not cleared, and
nothing marks the end of the text in it.
-/

namespace EFramework

open Lib

/-! ## The code -/

def space : Bytes := [32]

/-- The status is taken from no digits at all. -/
def httpParseRespLine (resp : CurlResponse) (mem : Bytes) : Option (Int × CurlResponse) := do
  match ← strstr mem crlf with
  | none => pure (-1, resp)
  | some stop =>
      match ← strstr mem space with
      | none => pure (-1, resp)
      | some off =>
          let pos := off + (← CString.skip 32 (mem.drop off))
          let status ← str2int (mem.drop pos) 0
          pure (toInt32 (stop + 2), { resp with status := status % 2 ^ 16 })

/-- `start` and `stop`, which is `end`, are positions in the local block. -/
structure HeadState where
  resp : CurlResponse
  mem : Bytes
  start : Nat
  stop : Int
  src : Source
  world : World EfString
deriving Repr, DecidableEq

/-- The loop over the headers. A tail of negative length is a `strncpy` of nearly `2 ^ 64` bytes. -/
def headLoop : Nat → HeadState → Option HeadState
  | 0, _ => none
  | fuel + 1, st =>
      if st.resp.respStatus = .header then do
        let call ← httpParseRespHeader .header st.mem st.start st.resp.headers st.world
        let resp := { st.resp with respStatus := call.status, headers := call.headers }
        if call.ret < 0 then
          let tail := st.stop - st.start
          if tail < 0 then none
          else
            let mem ← strncpy call.mem 0 (call.mem.drop st.start) tail.toNat
            match efWrapRead (maxRespBufsize - tail.toNat) st.src with
            | (r, _, bytes, src) =>
                let mem ← storeAt mem tail.toNat bytes
                headLoop fuel ⟨resp, mem, 0, st.stop + r, src, call.world⟩
        else
          headLoop fuel ⟨resp, call.mem, (st.start + call.ret).toNat, st.stop, st.src, call.world⟩
      else some st

def bufferBody (st : HeadState) : Option (Int × CurlResponse × Source × World EfString) := do
  let len := st.stop - st.start
  if 0 < len then
    let buf ← strncpy st.resp.buf 0 (st.mem.drop st.start) len.toNat
    let resp := { st.resp with buf := buf, contentReceived := len, bufend := len.toNat }
    pure (0, resp, st.src, st.world)
  else pure (0, st.resp, st.src, st.world)

/-- `mem` is the local block. -/
def httpParseRespHeaders (fuel : Nat) (resp : CurlResponse) (mem : Bytes) (src : Source)
    (w : World EfString) : Option (Int × CurlResponse × Source × World EfString) := do
  match efWrapRead maxRespBufsize src with
  | (r, _, bytes, src) =>
      if r < 0 then pure (r, resp, src, w)
      else
        let mem ← storeAt mem 0 bytes
        let (res, resp) ← httpParseRespLine resp mem
        if res < 0 then pure (res, resp, src, w)
        else
          let st ← headLoop fuel
            ⟨{ resp with respStatus := .header }, mem, res.toNat, r, src, w⟩
          bufferBody st

/-! ## Response heads -/

structure ResponseHead where
  /-- The status line without its end. -/
  line : Bytes
  fields : List HeaderField
deriving Repr, DecidableEq

namespace ResponseHead

structure Valid (h : ResponseHead) : Prop where
  line_text : ∀ c ∈ h.line, c ≠ 0 ∧ c ≠ 13 ∧ c ≠ 10
  space_mem : 32 ∈ h.line
  fields : ∀ f ∈ h.fields, f.Valid

def status (h : ResponseHead) : Bytes := h.line ++ crlf

def block (h : ResponseHead) : Bytes := h.fields.flatMap HeaderField.line ++ crlf

def bytes (h : ResponseHead) : Bytes := h.status ++ h.block

theorem length_status (h : ResponseHead) : h.status.length = h.line.length + 2 := by
  rw [status, List.length_append]
  rfl

end ResponseHead

structure CurlResponse.Fresh (resp : CurlResponse) : Prop where
  wf : Hashtable.Wf resp.headers
  empty : Hashtable.Represents resp.headers (fun _ => none)
  bufend : resp.bufend = 0
  length_buf : resp.buf.length = maxRespBufsize

/-! ## The status line -/

theorem httpParseRespLine_eq {line : Bytes} (hnul : 0 ∉ line) (hcrlf : ¬ crlf <:+: line)
    (hspace : 32 ∈ line) (resp : CurlResponse) (rest : Bytes) :
    httpParseRespLine resp (line ++ (crlf ++ rest)) =
      some (toInt32 (line.length + 2), { resp with status := 0 }) := by
  have hstop := strstr_line hnul hcrlf rest
  -- the first space, and the first byte behind the spaces
  obtain ⟨pre, post, rfl, hpre⟩ := List.eq_append_cons_of_mem hspace
  have hoff : strstr (pre ++ 32 :: post ++ (crlf ++ rest)) space = some (some pre.length) := by
    have htext : ∀ c ∈ pre, c ≠ 0 ∧ c ≠ 32 := by
      intro c hc
      refine ⟨?_, fun hc32 => hpre (hc32 ▸ hc)⟩
      rintro rfl
      exact hnul (List.mem_append_left _ hc)
    have hself : CString.find 0 [32] (32 :: (post ++ (crlf ++ rest))) = some (some 0) :=
      CString.find_self 32 [] _
    rw [strstr, space, List.append_assoc, CString.find_append htext, List.cons_append, hself]
    simp
  have htext : (pre ++ 32 :: post ++ (crlf ++ rest)).drop pre.length =
      (32 :: post) ++ 13 :: (10 :: rest) := by
    rw [List.append_assoc, List.drop_left]
    rfl
  obtain ⟨k, hk, hskip⟩ := CString.skip_le (show (13 : UInt8) ≠ 32 by decide) (32 :: post)
    (10 :: rest)
  rw [← htext] at hskip
  have hstatus : str2int ((pre ++ 32 :: post ++ (crlf ++ rest)).drop (pre.length + k)) 0 =
      some 0 := by
    rw [str2int, text2int_of_nonpos _ _ (Int.le_refl 0), ← List.drop_drop, htext]
    cases hd : ((32 :: post) ++ 13 :: (10 :: rest)).drop k with
    | nil =>
        have hlen := List.drop_eq_nil_iff.mp hd
        simp only [List.length_append, List.length_cons] at hlen hk
        omega
    | cons c tail => rfl
  unfold httpParseRespLine
  simp only [hstop, hoff, hskip, hstatus, Option.bind_eq_bind, Option.bind_some, Option.pure_def]
  rfl

namespace ResponseHead

variable {h : ResponseHead}

theorem Valid.parse_line (hv : h.Valid) (hshort : h.status.length < 2 ^ 31) (resp : CurlResponse)
    (rest : Bytes) : httpParseRespLine resp (h.status ++ rest) =
      some ((h.status.length : Int), { resp with status := 0 }) := by
  have hret : toInt32 ((h.line.length : Int) + 2) = (h.status.length : Int) := by
    rw [← toInt32_eq hshort, h.length_status]
    rfl
  rw [status, List.append_assoc, httpParseRespLine_eq (fun hc => (hv.line_text 0 hc).1 rfl)
    (fun hc => (hv.line_text 13 (hc.subset List.mem_cons_self)).2.1 rfl) hv.space_mem, hret]
  rfl

end ResponseHead

/-! ## The loop over the headers -/

namespace HeadState

/-- The loop at a point of a walk over the header block. -/
def walking (resp : CurlResponse) (stop : Int) (src : Source) (st : HeaderWalk) : HeadState :=
  ⟨{ resp with respStatus := st.status, headers := st.headers }, st.mem, st.start, stop, src,
    st.world⟩

variable {resp : CurlResponse} {stop : Int} {src : Source}

theorem headLoop_advances {n : Nat} {st st' : HeaderWalk} (h : HeaderWalk.Advances n st st')
    (fuel : Nat) : headLoop fuel (walking resp stop src st) =
      if fuel < n then none else headLoop (fuel - n) (walking resp stop src st') := by
  induction h generalizing fuel with
  | refl st => rw [if_neg (Nat.not_lt_zero fuel), Nat.sub_zero]
  | call hstatus he hret _ ih =>
      cases fuel with
      | zero => rw [if_pos (Nat.succ_pos _), headLoop]
      | succ fuel =>
          rw [hstatus] at he
          unfold walking at ih ⊢
          rw [headLoop, if_pos hstatus]
          simp only [he, Option.bind_eq_bind, Option.bind_some]
          rw [if_neg (Int.not_lt.mpr hret)]
          simp only [Nat.succ_lt_succ_iff, Nat.succ_sub_succ_eq_sub]
          exact ih fuel

/-- Behind a call that leaves the block the loop does not come to an end. -/
theorem headLoop_advances_none {n : Nat} {st st' : HeaderWalk} (h : HeaderWalk.Advances n st st')
    (hstatus : st'.status = .header)
    (he : httpParseRespHeader .header st'.mem st'.start st'.headers st'.world = none) (fuel : Nat) :
    headLoop fuel (walking resp stop src st) = none := by
  rw [headLoop_advances h]
  split
  next => rfl
  next =>
    cases fuel - n with
    | zero => rfl
    | succ fuel =>
        unfold walking
        rw [headLoop, if_pos hstatus, he]
        rfl

end HeadState

/-- Text without LF and NUL has neither the end of a line nor its own. -/
theorem httpParseRespHeader_of_not_mem {mem : Bytes} {start : Nat}
    (hnul : (0 : UInt8) ∉ mem.drop start) (hlf : (10 : UInt8) ∉ mem.drop start)
    (headers : Stringtab) (w : World EfString) :
    httpParseRespHeader .header mem start headers w = none := by
  have hmem : (10 : UInt8) ∈ crlf := by decide
  have hstart := CString.startsWith_of_not_mem hmem hlf
  unfold httpParseRespHeader
  dsimp only
  rw [strstr, CString.find_of_not_mem hnul hmem hlf]
  rcases hs : CString.startsWith crlf (mem.drop start) with _ | _ | _
  · rfl
  · rfl
  · exact absurd hs hstart

/-! ## Cuts -/

/-- What is cut off before the end of a line has no LF. -/
theorem not_mem_of_cut {p q t : Bytes} (ht : (10 : UInt8) ∉ t) (h : p ++ q = t ++ crlf)
    (hq : q ≠ []) : (10 : UInt8) ∉ p := by
  obtain ⟨q', c, rfl⟩ := (List.eq_nil_or_concat' q).resolve_left hq
  have hsplit : (p ++ q') ++ [c] = (t ++ [13]) ++ [10] := by
    rw [List.append_assoc, h, List.append_assoc]
    rfl
  have hp := (List.append_inj' hsplit rfl).1
  intro hmem
  have hin : (10 : UInt8) ∈ t ++ [13] := by
    rw [← hp]
    exact List.mem_append_left _ hmem
  rcases List.mem_append.mp hin with hin | hin
  · exact ht hin
  · simp at hin

theorem HeaderField.Valid.line_text {f : HeaderField} (hv : f.Valid) :
    (0 : UInt8) ∉ f.line ∧ (10 : UInt8) ∉ f.head := by
  have hspaces : ∀ c ∈ List.replicate f.spaces (32 : UInt8), c ≠ 0 ∧ c ≠ 10 := by
    intro c hc
    rw [List.eq_of_mem_replicate hc]
    decide
  constructor
  · have hline := f.line_eq []
    rw [List.append_nil, List.append_nil] at hline
    rw [hline, List.mem_append, not_or]
    exact ⟨fun h => (hv.head_text _ h).1 rfl, by decide⟩
  · unfold head
    rw [List.mem_append, List.mem_cons, List.mem_append]
    rintro (h | h | h | h)
    · exact (hv.name_text _ h).2.2.1 rfl
    · cases h
    · exact (hspaces _ h).2 rfl
    · exact (hv.value_text _ h).2.1 rfl

theorem block_cut {hs : List HeaderField} (hv : ∀ f ∈ hs, f.Valid) {p q : Bytes}
    (h : p ++ q = hs.flatMap HeaderField.line ++ crlf) (hq : q ≠ []) :
    ∃ (whole : List HeaderField) (tail : Bytes), p = whole.flatMap HeaderField.line ++ tail ∧
      (∀ f ∈ whole, f ∈ hs) ∧ (0 : UInt8) ∉ tail ∧ (10 : UInt8) ∉ tail := by
  induction hs generalizing p with
  | nil =>
      refine ⟨[], p, rfl, fun f hf => hf, fun hmem => ?_, not_mem_of_cut List.not_mem_nil h hq⟩
      have hin : (0 : UInt8) ∈ p ++ q := List.mem_append_left _ hmem
      rw [h] at hin
      exact absurd hin (by decide)
  | cons f hs ih =>
      obtain ⟨hnul, hlf⟩ := (hv f List.mem_cons_self).line_text
      have hline := f.line_eq []
      rw [List.append_nil, List.append_nil] at hline
      rw [List.flatMap_cons, List.append_assoc] at h
      rcases List.append_eq_append_iff.mp h with ⟨r, hr, hrest⟩ | ⟨r, rfl, hr⟩
      · -- the cut is in the first line, or behind it
        by_cases hne : r = []
        · subst hne
          rw [List.append_nil] at hr
          exact ⟨[f], [], by rw [← hr]; simp, by simp, List.not_mem_nil, List.not_mem_nil⟩
        · refine ⟨[], p, rfl, by simp, fun hmem => hnul ?_,
            not_mem_of_cut hlf (hr.symm.trans hline) hne⟩
          rw [hr]
          exact List.mem_append_left _ hmem
      · obtain ⟨whole, tail, rfl, hin, htail⟩ :=
          ih (fun g hg => hv g (List.mem_cons_of_mem f hg)) hr.symm
        refine ⟨f :: whole, tail, by simp, fun g hg => ?_, htail⟩
        rcases List.mem_cons.mp hg with rfl | hg
        · exact List.mem_cons_self
        · exact List.mem_cons_of_mem f (hin g hg)

/-! ## The first read -/

section FirstRead

variable {h : ResponseHead} {resp : CurlResponse} {w : World EfString} {x : UInt8} {xs : Bytes}
  {src : Source}

/-- What is done with the bytes of the first read. -/
theorem httpParseRespHeaders_data (hlen : (x :: xs).length ≤ maxRespBufsize) (fuel : Nat)
    (resp : CurlResponse) {mem : Bytes} (hmem : mem.length = maxHeaderBufsize) (w : World EfString) :
    httpParseRespHeaders fuel resp mem (.data x xs :: src) w =
      if (x :: xs).length ≤ maxHeaderBufsize then
        (httpParseRespLine resp ((x :: xs) ++ mem.drop (x :: xs).length)).bind (fun r =>
          if r.1 < 0 then some (r.1, r.2, src, w)
          else (headLoop fuel ⟨{ r.2 with respStatus := .header },
            (x :: xs) ++ mem.drop (x :: xs).length, r.1.toNat, (x :: xs).length, src, w⟩).bind
              bufferBody)
      else none := by
  have hread : efWrapRead maxRespBufsize (.data x xs :: src) =
      (((x :: xs).length : Int), 0, x :: xs, src) := by
    unfold efWrapRead
    dsimp only
    rw [List.take_of_length_le hlen, List.drop_of_length_le hlen]
    rfl
  unfold httpParseRespHeaders
  rw [hread]
  dsimp only
  rw [if_neg (by omega), storeAt_start, hmem]
  split <;> rfl

theorem ResponseHead.Valid.first_read (hv : h.Valid) {block : Bytes}
    (hread : x :: xs = h.status ++ block) (hlen : (x :: xs).length ≤ maxHeaderBufsize) (fuel : Nat)
    (resp : CurlResponse) {mem : Bytes} (hmem : mem.length = maxHeaderBufsize) (w : World EfString) :
    httpParseRespHeaders fuel resp mem (.data x xs :: src) w =
      (headLoop fuel (.walking { resp with status := 0 } (x :: xs).length src ⟨.header,
        h.status ++ (block ++ mem.drop (x :: xs).length), h.status.length, resp.headers, w⟩)).bind
          bufferBody := by
  have hshort : h.status.length ≤ maxHeaderBufsize := by
    rw [hread, List.length_append] at hlen
    omega
  have hmax : maxHeaderBufsize < maxRespBufsize := by decide
  have hint : maxHeaderBufsize < 2 ^ 31 := by decide
  rw [httpParseRespHeaders_data (by omega) fuel resp hmem, if_pos hlen]
  generalize mem.drop (x :: xs).length = behind
  generalize hcount : (x :: xs).length = count
  rw [hread, List.append_assoc, hv.parse_line (by omega), Option.bind_some, if_neg (by omega),
    Int.toNat_natCast]
  rfl

theorem ResponseHead.Valid.first_read_whole (hv : h.Valid) {part : Bytes}
    (hread : x :: xs = h.bytes ++ part) (hlen : (x :: xs).length ≤ maxHeaderBufsize)
    {resp : CurlResponse} (hresp : resp.Fresh) {mem : Bytes}
    (hmem : mem.length = maxHeaderBufsize) {w : World EfString} (hw : w.heap.Willing) :
    ∃ resp' w', (∀ fuel, httpParseRespHeaders fuel resp mem (.data x xs :: src) w =
        if fuel ≤ h.fields.length + 1 then none else some (0, resp', src, w')) ∧
      Hashtable.Represents resp'.headers (HeaderField.map h.fields) ∧
      resp'.bufend = part.length ∧
      strncpyBytes part part.length = some (resp'.buf.take part.length) := by
  have hparts : (x :: xs).length = h.status.length + (h.block.length + part.length) := by
    rw [hread, bytes, List.append_assoc, List.length_append, List.length_append]
  have hmax : maxHeaderBufsize < 2 ^ 31 := by decide
  have hbuf : maxHeaderBufsize ≤ maxRespBufsize := by decide
  have hblock : h.block.length = (h.fields.flatMap HeaderField.line).length + 2 := by
    rw [block, List.length_append]
    rfl
  have hparsed := HeaderField.length_flatMap_parsed h.fields
  obtain ⟨hcount, hlines⟩ := HeaderField.length_le_flatMap_line h.fields
  have hk : Keeps resp.headers (fun _ => none) ∅ := ⟨hresp.wf, hresp.empty, by simp⟩
  obtain ⟨headers', w', hst, _, hgranted, _, hm⟩ := HeaderWalk.advances_block hv.fields
    (fun f hf => by have := hlines f hf; omega) h.status
    (part ++ mem.drop (x :: xs).length) hk w
  have hcard : (∅ ∪ HeaderField.keys h.fields).card ≤ 2 ^ 31 := by
    have hle := List.toFinset_card_le (h.fields.map HeaderField.key)
    rw [List.length_map] at hle
    rw [Finset.empty_union]
    unfold HeaderField.keys
    omega
  -- the loop is over behind the head
  have htext : (h.block ++ part) ++ mem.drop (x :: xs).length =
      h.fields.flatMap HeaderField.line ++ (crlf ++ (part ++ mem.drop (x :: xs).length)) := by
    simp [block]
  have hrun : ∀ fuel, httpParseRespHeaders fuel resp mem (.data x xs :: src) w =
      if fuel ≤ h.fields.length + 1 then none else bufferBody (.walking { resp with status := 0 }
        (x :: xs).length src ⟨.body, h.status ++ (h.fields.flatMap HeaderField.parsed ++
          (crlf ++ (part ++ mem.drop (x :: xs).length))), h.status.length + h.block.length, headers',
            w'⟩) := by
    intro fuel
    rw [hv.first_read (by rw [hread, bytes, List.append_assoc]) hlen fuel resp hmem, htext,
      HeadState.headLoop_advances hst]
    by_cases hfuel : fuel ≤ h.fields.length + 1
    · rw [if_pos hfuel]
      by_cases hlt : fuel < h.fields.length + 1
      · rw [if_pos hlt]
        rfl
      · rw [if_neg hlt, show fuel - (h.fields.length + 1) = 0 by omega]
        rfl
    · obtain ⟨k, hk⟩ := Nat.exists_eq_add_of_le' (show 1 ≤ fuel - (h.fields.length + 1) by omega)
      rw [if_neg hfuel, if_neg (by omega), hk, headLoop, if_neg (by simp [HeadState.walking])]
      rfl
  -- what is buffered
  have hdrop : (h.status ++ (h.fields.flatMap HeaderField.parsed ++
      (crlf ++ (part ++ mem.drop (x :: xs).length)))).drop (h.status.length + h.block.length) =
      part ++ mem.drop (x :: xs).length := by
    have hsplit : h.status ++ (h.fields.flatMap HeaderField.parsed ++
        (crlf ++ (part ++ mem.drop (x :: xs).length))) =
        (h.status ++ (h.fields.flatMap HeaderField.parsed ++ crlf)) ++
          (part ++ mem.drop (x :: xs).length) := by
      simp
    rw [hsplit]
    refine List.drop_left' ?_
    rw [List.length_append, List.length_append, hparsed, hblock]
    rfl
  have hlenpart : (((x :: xs).length : Nat) : Int) -
      ((h.status.length + h.block.length : Nat) : Int) = (part.length : Nat) := by
    omega
  have hcopy := strncpyBytes_append part
  have hbs := length_padded part
  generalize padded part = bs at hcopy hbs
  have hmap := hm (hgranted hw).failures hcard
  unfold bufferBody HeadState.walking at hrun
  dsimp only at hrun
  rw [hlenpart, hdrop] at hrun
  by_cases hpart : 0 < part.length
  · have hstore : strncpy resp.buf 0 (part ++ mem.drop (x :: xs).length) part.length =
        some (bs ++ resp.buf.drop part.length) := by
      unfold strncpy
      rw [hcopy]
      change storeAt resp.buf 0 bs = _
      rw [storeAt_start, if_pos (by rw [hbs, hresp.length_buf]; omega), hbs]
    rw [if_pos (by omega), Int.toNat_natCast, hstore] at hrun
    refine ⟨_, w', hrun, hmap, rfl, ?_⟩
    have hself := hcopy []
    rw [List.append_nil] at hself
    rw [hself, ← hbs, List.take_left]
  · rw [if_neg (by omega)] at hrun
    have hnil : part = [] := List.eq_nil_of_length_eq_zero (by omega)
    subst hnil
    refine ⟨_, w', hrun, hmap, hresp.bufend, rfl⟩

/-- A first read that the block does not hold. -/
theorem first_read_long (hlen : maxHeaderBufsize < (x :: xs).length) (fuel : Nat)
    (resp : CurlResponse) {mem : Bytes} (hmem : mem.length = maxHeaderBufsize) (w : World EfString) :
    httpParseRespHeaders fuel resp mem (.data x xs :: src) w = none := by
  have hmax : maxHeaderBufsize < maxRespBufsize := by decide
  have hstore : storeAt mem 0 ((x :: xs).take maxRespBufsize) = none := by
    rw [storeAt_start, if_neg]
    rw [List.length_take, hmem]
    omega
  unfold httpParseRespHeaders efWrapRead
  dsimp only
  rw [if_neg (by omega), hstore]
  rfl

def filler : Bytes := List.replicate maxHeaderBufsize 1

theorem length_filler : filler.length = maxHeaderBufsize := List.length_replicate

theorem filler_drop (n : Nat) : (0 : UInt8) ∉ filler.drop n ∧ (10 : UInt8) ∉ filler.drop n := by
  unfold filler
  rw [List.drop_replicate]
  constructor <;>
  · rw [List.mem_replicate]
    rintro ⟨_, h⟩
    cases h

theorem ResponseHead.Valid.first_read_cut (hv : h.Valid) {missing : Bytes}
    (hread : (x :: xs) ++ missing = h.bytes) (hmissing : missing ≠ [])
    (hlen : (x :: xs).length ≤ maxHeaderBufsize) (hresp : resp.Fresh) (fuel : Nat) :
    httpParseRespHeaders fuel resp filler (.data x xs :: src) w = none := by
  obtain ⟨hnul, hlf⟩ := filler_drop (x :: xs).length
  have hmax : maxHeaderBufsize < maxRespBufsize := by decide
  have hint : maxHeaderBufsize < 2 ^ 31 := by decide
  -- in the header block
  have hblock : ∀ part, x :: xs = h.status ++ part → h.block = part ++ missing →
      httpParseRespHeaders fuel resp filler (.data x xs :: src) w = none := by
    intro part hpart hrest
    obtain ⟨whole, tail, rfl, hwhole, hnul', hlf'⟩ := block_cut hv.fields hrest.symm hmissing
    have hk : Keeps resp.headers (fun _ => none) ∅ := ⟨hresp.wf, hresp.empty, by simp⟩
    have hshort : ∀ f ∈ whole, f.line.length < 2 ^ 31 := by
      intro f hf
      have hle := (HeaderField.length_le_flatMap_line whole).2 f hf
      rw [hpart, List.length_append, List.length_append] at hlen
      omega
    obtain ⟨headers', w', hst, _⟩ := HeaderWalk.advances_lines (fun f hf => hv.fields f (hwhole f hf))
      hshort h.status (tail ++ filler.drop (x :: xs).length) hk w
    rw [hv.first_read hpart hlen fuel resp length_filler, List.append_assoc,
      HeadState.headLoop_advances_none hst rfl]
    · rfl
    · refine httpParseRespHeader_of_not_mem ?_ ?_ _ _
      · rw [List.drop_left, List.mem_append, not_or]
        exact ⟨hnul', hnul⟩
      · rw [List.drop_left, List.mem_append, not_or]
        exact ⟨hlf', hlf⟩
  rcases List.append_eq_append_iff.mp hread with ⟨rest, hrest, _⟩ | ⟨part, hpart, hrest⟩
  · by_cases hne : rest = []
    · subst hne
      rw [List.append_nil] at hrest
      refine hblock [] (by rw [List.append_nil, hrest]) ?_
      rw [bytes, hrest] at hread
      exact (List.append_cancel_left hread).symm
    · -- in the status line
      have htext : (10 : UInt8) ∉ h.line := fun hc => (hv.line_text _ hc).2.2 rfl
      have hstatus : (0 : UInt8) ∉ h.status := by
        rw [status, List.mem_append, not_or]
        exact ⟨fun hc => (hv.line_text _ hc).1 rfl, by decide⟩
      have hnul' : (0 : UInt8) ∉ (x :: xs) ++ filler.drop (x :: xs).length := by
        rw [List.mem_append, not_or]
        refine ⟨fun hc => hstatus ?_, hnul⟩
        rw [hrest]
        exact List.mem_append_left _ hc
      have hlf' : (10 : UInt8) ∉ (x :: xs) ++ filler.drop (x :: xs).length := by
        rw [List.mem_append, not_or]
        exact ⟨not_mem_of_cut htext hrest.symm hne, hlf⟩
      rw [httpParseRespHeaders_data (by omega) fuel resp length_filler, if_pos hlen]
      unfold httpParseRespLine
      rw [strstr, CString.find_of_not_mem hnul' (show (10 : UInt8) ∈ crlf by decide) hlf']
      rfl
  · exact hblock part hpart hrest

end FirstRead

/-! ## Packet boundaries -/

/-- Whatever the local block holds, the call returns an error, or sets the headers of the head
and buffers the body as it came, without leaving a block. -/
def ParsesHead (h : ResponseHead) (body : Bytes) (src : Source) : Prop :=
  ∀ (mem : Bytes) (resp : CurlResponse) (w : World EfString), mem.length = maxHeaderBufsize →
    resp.Fresh → w.heap.Willing → ∃ fuel ret resp' src' w',
      httpParseRespHeaders fuel resp mem src w = some (ret, resp', src', w') ∧
      (ret < 0 ∨ ret = 0 ∧ Hashtable.Represents resp'.headers (HeaderField.map h.fields) ∧
        resp'.bufend = body.length ∧
        strncpyBytes body body.length = some (resp'.buf.take body.length))

theorem exists_fresh : ∃ resp : CurlResponse, resp.Fresh := by
  have hnew : efStringtabNew 0 ⟨[], 0, 0⟩ = (some ⟨8, hashSizemask 8, 0, 0, nil32, true,
      List.replicate 8 nil32, List.replicate 8 (Bucket.zero _)⟩, ⟨[], 2, 0⟩) := rfl
  obtain ⟨wf, hempty⟩ := (Stringtab.new_spec ⟨[], 0, 0⟩).2.2 _ (congrArg Prod.fst hnew)
  exact ⟨⟨0, .init, 0, 0, 0, 0, 0, _, List.replicate maxRespBufsize 0⟩, wf, hempty, rfl,
    List.length_replicate⟩

/-- A head and what comes of the body are parsed if they arrive in one read that fits the block,
and not if they are cut, or longer. -/
theorem http_parse_resp_headers_cuts {h : ResponseHead} (hv : h.Valid) (body : Bytes)
    {src : Source} (hreads : Lib.Segments.Clean (fun _ => false) src)
    (hsrc : Lib.Segments.payload src = h.bytes ++ body) :
    ParsesHead h body src ↔ src = Lib.Segments.ofList (h.bytes ++ body) ∧
      (h.bytes ++ body).length ≤ maxHeaderBufsize := by
  constructor
  · intro hparses
    obtain ⟨resp, hresp⟩ := exists_fresh
    have hw : (⟨⟨[], 0, 0⟩, []⟩ : World EfString).heap.Willing :=
      fun ok hok => absurd hok List.not_mem_nil
    obtain ⟨fuel, ret, resp', src', w', hrun, hout⟩ := hparses filler resp ⟨⟨[], 0, 0⟩, []⟩
      length_filler hresp hw
    rcases src with _ | ⟨⟨x, xs⟩ | e, src⟩
    · -- a head is not empty
      have hlen := congrArg List.length hsrc
      rw [ResponseHead.bytes, List.length_append, List.length_append, h.length_status,
        Lib.Segments.payload_nil, List.length_nil] at hlen
      omega
    · rw [Lib.Segments.payload_cons] at hsrc
      have hlen : (x :: xs).length ≤ maxHeaderBufsize := by
        by_contra hlong
        rw [first_read_long (Nat.lt_of_not_le hlong) fuel resp length_filler] at hrun
        cases hrun
      -- the read holds the head, and `part` of the body
      obtain ⟨part, hpart, hbody⟩ : ∃ part, x :: xs = h.bytes ++ part ∧
          body = part ++ Lib.Segments.payload src := by
        rcases List.append_eq_append_iff.mp hsrc with ⟨missing, hcut, hrest⟩ | ⟨part, hpart, hrest⟩
        · by_cases hmissing : missing = []
          · subst hmissing
            rw [List.append_nil] at hcut
            rw [List.nil_append] at hrest
            exact ⟨[], by rw [List.append_nil, hcut]; rfl, by rw [List.nil_append, hrest]⟩
          · rw [hv.first_read_cut hcut.symm hmissing hlen hresp] at hrun
            cases hrun
        · exact ⟨part, hpart, hrest⟩
      obtain ⟨resp₁, w₁, hcall, _, hbufend, _⟩ := hv.first_read_whole hpart hlen hresp
        length_filler hw
      rw [hcall] at hrun
      split at hrun
      · cases hrun
      · simp only [Option.some.injEq, Prod.mk.injEq] at hrun
        obtain ⟨rfl, rfl, _, _⟩ := hrun
        rcases hout with hneg | ⟨_, _, hend, _⟩
        · exact absurd hneg (by decide)
        · have hnil : Lib.Segments.payload src = [] := by
            refine List.eq_nil_of_length_eq_zero ?_
            rw [hbufend, hbody, List.length_append] at hend
            omega
          have hsrc' : src = [] := by
            rcases src with _ | ⟨⟨y, ys⟩ | e, src⟩
            · rfl
            · rw [Lib.Segments.payload_cons] at hnil
              cases hnil
            · exact absurd (hreads e (by simp)) (by simp)
          subst hsrc'
          rw [hnil, List.append_nil] at hbody
          rw [hbody, ← hpart]
          exact ⟨rfl, hlen⟩
    · exact absurd (hreads e List.mem_cons_self) (by simp)
  · rintro ⟨hone, hlen⟩ mem resp w hmem hresp hw
    cases hbytes : h.bytes ++ body with
    | nil =>
        have hlen' := congrArg List.length hbytes
        rw [ResponseHead.bytes, List.length_append, List.length_append, h.length_status,
          List.length_nil] at hlen'
        omega
    | cons x xs =>
        rw [hbytes] at hone hlen
        rw [hone]
        have hwhole := fun src : Source => @ResponseHead.Valid.first_read_whole h x xs src hv body
          hbytes.symm hlen resp hresp mem hmem w hw
        obtain ⟨resp', w', hcall, hheaders, hbufend, hbuf⟩ := hwhole []
        refine ⟨h.fields.length + 2, 0, resp', [], w', ?_, Or.inr ⟨rfl, hheaders, hbufend, hbuf⟩⟩
        have hrun := hcall (h.fields.length + 2)
        rwa [if_neg (by omega)] at hrun

/-- `"H 2"`, `"A:b"` and a body in one read. -/
theorem http_parse_resp_headers_cuts_one :
    ParsesHead ⟨[72, 32, 50], [⟨[65], 0, [98]⟩]⟩ [69]
      [.data 72 [32, 50, 13, 10, 65, 58, 98, 13, 10, 13, 10, 69]] :=
  (http_parse_resp_headers_cuts ⟨by simp, by simp, fun f hf => by
    obtain rfl := List.mem_singleton.mp hf
    exact ⟨by simp, by simp, by simp, by simp⟩⟩ [69] (by
      intro e he
      simp at he) rfl).mpr ⟨rfl, by decide⟩

/-- The same head and body in two reads, cut before the blank line: in a block of zeros the body
is taken to have 11 bytes, and in another one its end is not found. -/
theorem http_parse_resp_headers_cuts_two :
    (∃ resp : CurlResponse, resp.Fresh ∧
      (httpParseRespHeaders 5 resp (List.replicate maxHeaderBufsize 0)
        [.data 72 [32, 50, 13, 10, 65, 58, 98, 13, 10], .data 13 [10, 69]]
        ⟨⟨[], 0, 0⟩, []⟩).map (fun r => (r.1, r.2.1.bufend)) = some (0, 11)) ∧
    ¬ ParsesHead ⟨[72, 32, 50], [⟨[65], 0, [98]⟩]⟩ [69]
      [.data 72 [32, 50, 13, 10, 65, 58, 98, 13, 10], .data 13 [10, 69]] := by
  have hnew : efStringtabNew 0 ⟨[], 0, 0⟩ = (some ⟨8, hashSizemask 8, 0, 0, nil32, true,
      List.replicate 8 nil32, List.replicate 8 (Bucket.zero _)⟩, ⟨[], 2, 0⟩) := rfl
  obtain ⟨wf, hempty⟩ := (Stringtab.new_spec ⟨[], 0, 0⟩).2.2 _ (congrArg Prod.fst hnew)
  have hresp : (⟨0, .init, 0, 0, 0, 0, 0, ⟨8, hashSizemask 8, 0, 0, nil32, true,
      List.replicate 8 nil32, List.replicate 8 (Bucket.zero _)⟩,
      List.replicate maxRespBufsize 0⟩ : CurlResponse).Fresh :=
    ⟨wf, hempty, rfl, List.length_replicate⟩
  refine ⟨⟨_, hresp, by decide +kernel⟩, fun h => ?_⟩
  obtain ⟨fuel, ret, resp', src', w', hrun, _⟩ := h filler _ ⟨⟨[], 0, 0⟩, []⟩ length_filler hresp
    (fun ok hok => absurd hok List.not_mem_nil)
  have hv : (⟨[72, 32, 50], [⟨[65], 0, [98]⟩]⟩ : ResponseHead).Valid := by
    refine ⟨by simp, by simp, fun f hf => ?_⟩
    obtain rfl := List.mem_singleton.mp hf
    exact ⟨by simp, by simp, by simp, by simp⟩
  have hcut : (72 :: [32, 50, 13, 10, 65, 58, 98, 13, 10] : Bytes) ++ [13, 10] =
      (⟨[72, 32, 50], [⟨[65], 0, [98]⟩]⟩ : ResponseHead).bytes := rfl
  rw [hv.first_read_cut hcut (by simp) (by decide) hresp] at hrun
  cases hrun

end EFramework
