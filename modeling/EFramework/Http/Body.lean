import EFramework.Http.Response

/-! # Reading the body of a response

`ef_curl_read_response` hands out what the response has buffered and what it reads from
the descriptor, or decodes chunks. It looks at the value of `transfer-encoding` before it
knows that there is one. The decoder moves its start behind the CRLF of a size line and
takes the size from there.
-/

namespace EFramework

open Lib

/-! ## The code -/

/-- The search for the end of a size line. The position is missing when a read fails. -/
def sizeLine : Nat → CurlResponse → Int → Source → Option (Option Nat × CurlResponse × Source)
  | 0, _, _, _ => none
  | fuel + 1, resp, buflen, src => do
      match ← strstr (resp.buf.drop resp.bufsend) crlf with
      | some off => pure (some (resp.bufsend + off), resp, src)
      | none =>
          match efWrapRead (maxRespBufsize - buflen).toNat src with
          | (r, _, bytes, src) =>
              if r < 0 then pure (none, resp, src)
              else
                let buf ← storeAt resp.buf resp.bufend bytes
                let resp := { resp with buf := buf, bufend := resp.bufend + bytes.length }
                sizeLine fuel resp (resp.bufend - resp.bufsend) src

/-- What the decoder works on: the response, the caller's buffer with the bytes stored in it so
far, and the descriptor. -/
structure ChunkState where
  resp : CurlResponse
  buf : Bytes
  sendlen : Nat
  src : Source
deriving Repr, DecidableEq

/-- From the search for the size line on. The result is missing for `goto again`. -/
def nextChunk (fuel : Nat) (st : ChunkState) (buflen : Int) : Option (Option Int × ChunkState) := do
  let (pos, resp, src) ← sizeLine fuel st.resp buflen st.src
  let st := { st with resp := resp, src := src }
  match pos with
  | none => pure (some st.sendlen, st)
  | some pos =>
      let start := pos + 2
      let chunklen := toInt32 (← hexstr2int (resp.buf.drop start) (pos - start))
      if chunklen = 0 then
        pure (some st.sendlen, { st with resp := { resp with bufsend := start, respStatus := .done } })
      else pure (none, { st with resp := { resp with bufsend := start, chunkRemain := chunklen } })

/-- The code at label `again` up to the next jump to it. A negative number is a large one where
it is compared with a `size_t`. -/
def chunkStep (len fuel : Nat) (st : ChunkState) : Option (Option Int × ChunkState) := do
  let resp := st.resp
  let buflen : Int := resp.bufend - resp.bufsend
  let text := resp.buf.drop resp.bufsend
  if 0 < resp.chunkRemain then
    if buflen < resp.chunkRemain then
      if buflen < 0 ∨ (len : Int) < buflen then
        let buf ← strncpy st.buf st.sendlen text len
        let resp := { resp with
          bufsend := resp.bufsend + len, chunkRemain := resp.chunkRemain - len }
        pure (some (toInt32 len), { st with resp := resp, buf := buf })
      else
        let sendlen := buflen.toNat
        let buf ← strncpy st.buf sendlen text sendlen
        let resp := { resp with chunkRemain := resp.chunkRemain - sendlen }
        match efWrapRead maxRespBufsize st.src with
        | (r, _, bytes, src) =>
            if r < 0 then pure (some sendlen, ⟨resp, buf, sendlen, src⟩)
            else
              let block ← storeAt resp.buf resp.bufsend bytes
              let resp := { resp with buf := block, bufsend := 0, bufend := bytes.length }
              pure (none, ⟨resp, buf, sendlen, src⟩)
    else if (len : Int) < resp.chunkRemain + st.sendlen then
      let count := sizeSub len st.sendlen
      let buf ← strncpy st.buf st.sendlen text count
      let resp := { resp with chunkRemain := resp.chunkRemain - count }
      pure (some (toInt32 len), { st with resp := resp, buf := buf, sendlen := len })
    else
      let count := resp.chunkRemain.toNat
      let buf ← strncpy st.buf st.sendlen text count
      let sendlen := st.sendlen + count
      let resp := { resp with bufsend := resp.bufsend + count, chunkRemain := 0 }
      let buflen : Int := resp.bufend - resp.bufsend
      if buflen < 2 then
        match efWrapRead maxRespBufsize st.src with
        | (r, _, bytes, src) =>
            if r < 0 then pure (some sendlen, ⟨resp, buf, sendlen, src⟩)
            else
              let block ← storeAt resp.buf 0 bytes
              let resp := { resp with
                buf := block, bufsend := (2 - buflen).toNat, bufend := bytes.length }
              nextChunk fuel ⟨resp, buf, sendlen, src⟩ buflen
      else
        nextChunk fuel ⟨{ resp with bufsend := resp.bufsend + 2 }, buf, sendlen, st.src⟩ buflen
  else nextChunk fuel st buflen

/-- The number of jumps to `again`, and of the rounds of each search, is below the fuel. -/
def httpParseRespChunked (len : Nat) : Nat → ChunkState → Option (Int × ChunkState)
  | 0, _ => none
  | fuel + 1, st => do
      match ← chunkStep len fuel st with
      | (some ret, st) => pure (ret, st)
      | (none, st) => httpParseRespChunked len fuel st

def transferEncoding : Bytes :=
  [116, 114, 97, 110, 115, 102, 101, 114, 45, 101, 110, 99, 111, 100, 105, 110, 103]

def chunked : Bytes := [99, 104, 117, 110, 107, 101, 100]

def readPlain (len : Nat) (st : ChunkState) : Option (Int × ChunkState) := do
  let resp := st.resp
  let buflen : Int := resp.bufend - resp.bufsend
  if buflen < 0 ∨ (len : Int) < buflen then
    let buf ← strncpy st.buf 0 resp.buf len
    pure (toInt32 len, { st with resp := { resp with bufsend := resp.bufsend + len }, buf := buf })
  else
    let sendlen := buflen.toNat
    let buf ← strncpy st.buf 0 resp.buf sendlen
    let resp := if 0 < buflen then { resp with bufsend := 0, bufend := 0 } else resp
    if resp.respStatus = .done then pure (sendlen, ⟨resp, buf, sendlen, st.src⟩)
    else
      match efWrapRead len st.src with
      | (r, _, bytes, src) =>
          if r < 0 then pure (sendlen, ⟨resp, buf, sendlen, src⟩)
          else
            let buf ← storeAt buf sendlen bytes
            let received := resp.contentReceived + r
            let resp := { resp with
              contentReceived := received
              respStatus := if received = resp.contentLength then .done else resp.respStatus }
            pure (sendlen + r, ⟨resp, buf, sendlen + bytes.length, src⟩)

/-- `buf` is the caller's buffer. The string that `ef_stringtab_find` returns is changed in the
table, and NULL when there is none. -/
def efCurlReadResponse (fuel : Nat) (resp : CurlResponse) (buf : Bytes) (len : Nat)
    (src : Source) : Option (Int × ChunkState) := do
  let found ← efHashtableFindKey resp.headers transferEncoding transferEncoding.length
  let pb ← found
  let v ← (resp.headers.bucket pb).val
  let str ← strtolower v.str 0 v.len
  let headers := resp.headers.setBucket pb { resp.headers.bucket pb with val := some ⟨str⟩ }
  let st : ChunkState := ⟨{ resp with headers := headers }, buf, 0, src⟩
  let text ← CString.content 0 (str ++ [0])
  if text = chunked then
    if resp.respStatus = .done then pure (0, st) else httpParseRespChunked len fuel st
  else readPlain len st

/-! ## Successive calls -/

structure BodyCall where
  len : Nat
  ret : Int
  stored : Bytes
deriving Repr, DecidableEq

def bodyCalls (fuel : Nat) :
    Nat → (Nat → Bytes) → CurlResponse → Source → Option (List BodyCall)
  | 0, _, _, _ => none
  | calls + 1, bufs, resp, src => do
      let (ret, st) ← efCurlReadResponse fuel resp (bufs 0) (bufs 0).length src
      if ret = 0 then pure []
      else
        let rest ← bodyCalls fuel calls (fun i => bufs (i + 1)) st.resp st.src
        pure (⟨(bufs 0).length, ret, st.buf⟩ :: rest)

/-- The calls come to an end, and have stored the body. -/
def DeliversBody (bufs : Nat → Bytes) (resp : CurlResponse) (src : Source) (body : Bytes) : Prop :=
  ∃ fuel calls trace, bodyCalls fuel calls bufs resp src = some trace ∧
    trace.flatMap (fun c => c.stored.take c.ret.toNat) = body ∧ ∀ c ∈ trace, c.ret ≤ c.len

/-! ## Plain bodies -/

/-- Without the field every call stops at the NULL it has found. -/
theorem efCurlReadResponse_plain {resp : CurlResponse} (wf : Hashtable.Wf resp.headers)
    {m : KeyMap EfString} (hm : Hashtable.Represents resp.headers m)
    (hno : m transferEncoding = none) (fuel : Nat) (buf : Bytes) (len : Nat) (src : Source) :
    efCurlReadResponse fuel resp buf len src = none := by
  have hfind : efHashtableFindKey resp.headers transferEncoding transferEncoding.length =
      some none := by
    rcases wf.find_represents hm (Nat.le_refl transferEncoding.length) with ⟨_, h⟩ | ⟨v, i, h, _⟩
    · exact h
    · rw [List.take_length, hno] at h
      cases h
  unfold efCurlReadResponse
  rw [hfind]
  rfl

/-- No plain body is delivered: the first call already does not return. -/
theorem curl_read_response_plain {resp : CurlResponse} (wf : Hashtable.Wf resp.headers)
    {m : KeyMap EfString} (hm : Hashtable.Represents resp.headers m)
    (hno : m transferEncoding = none) (body : Bytes) (bufs : Nat → Bytes) (src : Source) :
    ¬ DeliversBody bufs resp src body := by
  rintro ⟨fuel, calls, trace, hrun, _⟩
  cases calls with
  | zero => cases hrun
  | succ calls =>
      rw [bodyCalls, efCurlReadResponse_plain wf hm hno] at hrun
      cases hrun

/-- A response without headers that still has to read its body. -/
theorem curl_read_response_plain_unread :
    ¬ DeliversBody (fun _ => [0, 0]) ⟨200, .body, 0, 0, 0, 0, 0, ⟨8, hashSizemask 8, 0, 0, nil32,
        true, List.replicate 8 nil32, List.replicate 8 (Bucket.zero _)⟩,
        List.replicate 4096 0⟩ [.data 65 []] [65] := by
  have hnew : efStringtabNew 0 ⟨[], 0, 0⟩ = (some ⟨8, hashSizemask 8, 0, 0, nil32, true,
      List.replicate 8 nil32, List.replicate 8 (Bucket.zero _)⟩, ⟨[], 2, 0⟩) := rfl
  obtain ⟨wf, hempty⟩ := (Stringtab.new_spec ⟨[], 0, 0⟩).2.2 _ (congrArg Prod.fst hnew)
  exact @curl_read_response_plain ⟨200, .body, 0, 0, 0, 0, 0, _, _⟩ wf _ hempty rfl _ _ _

/-- A byte that is buffered is not delivered either: the call does not return. -/
theorem curl_read_response_plain_buffered :
    (∀ fuel, efCurlReadResponse fuel ⟨200, .body, 0, 1, 1, 0, 0, ⟨8, hashSizemask 8, 0, 0, nil32,
        true, List.replicate 8 nil32, List.replicate 8 (Bucket.zero _)⟩,
        65 :: List.replicate 4095 0⟩ [0, 0] 2 [] = none) ∧
      ¬ DeliversBody (fun _ => [0, 0]) ⟨200, .body, 0, 1, 1, 0, 0, ⟨8, hashSizemask 8, 0, 0, nil32,
        true, List.replicate 8 nil32, List.replicate 8 (Bucket.zero _)⟩,
        65 :: List.replicate 4095 0⟩ [] [65] := by
  have hfind : efHashtableFindKey (⟨8, hashSizemask 8, 0, 0, nil32, true,
      List.replicate 8 nil32, List.replicate 8 (Bucket.zero _)⟩ : Stringtab) transferEncoding
      transferEncoding.length = some none := by
    decide +kernel
  have hcall : ∀ fuel, efCurlReadResponse fuel ⟨200, .body, 0, 1, 1, 0, 0, ⟨8, hashSizemask 8, 0,
      0, nil32, true, List.replicate 8 nil32, List.replicate 8 (Bucket.zero _)⟩,
      65 :: List.replicate 4095 0⟩ [0, 0] 2 [] = none := by
    intro fuel
    unfold efCurlReadResponse
    rw [hfind]
    rfl
  refine ⟨hcall, ?_⟩
  rintro ⟨fuel, calls, trace, hrun, _⟩
  cases calls with
  | zero => cases hrun
  | succ calls =>
      rw [bodyCalls, show ([0, 0] : Bytes).length = 2 from rfl, hcall] at hrun
      cases hrun

/-! ## Chunked bodies -/

def hexDigit (c : UInt8) : Option Nat :=
  if 48 ≤ c ∧ c ≤ 57 then some (c.toNat - 48)
  else if 65 ≤ c ∧ c ≤ 70 then some (c.toNat - 55)
  else if 97 ≤ c ∧ c ≤ 102 then some (c.toNat - 87)
  else none

def hexValue (digits : Bytes) : Option Nat :=
  digits.foldlM (fun n c => (hexDigit c).map (n * 16 + ·)) 0

structure Chunk where
  size : Bytes
  data : Bytes
deriving Repr, DecidableEq

namespace Chunk

structure Valid (c : Chunk) : Prop where
  size_ne : c.size ≠ []
  size_eq : hexValue c.size = some c.data.length
  data_ne : c.data ≠ []
  data_text : 0 ∉ c.data

def encode (c : Chunk) : Bytes := c.size ++ (crlf ++ (c.data ++ crlf))

def encodeAll (cs : List Chunk) : Bytes := cs.flatMap encode ++ 48 :: (crlf ++ crlf)

end Chunk

/-- A response whose value of `transfer-encoding` is `chunked`, behind its head. -/
structure AwaitsChunks (resp : CurlResponse) : Prop where
  respStatus : resp.respStatus = .body
  chunkRemain : resp.chunkRemain = 0
  wf : Hashtable.Wf resp.headers
  headers : ∃ m v, Hashtable.Represents resp.headers m ∧ m transferEncoding = some (some v) ∧
    v.str.map toLower = chunked

def CurlResponse.buffered (resp : CurlResponse) (bytes stale : Bytes) : CurlResponse :=
  { resp with buf := bytes ++ stale, bufsend := 0, bufend := bytes.length }

/-- The body is delivered, whatever the rest of the block and the caller's buffers hold. -/
def DecodesChunks (resp : CurlResponse) (cs : List Chunk) (count : Nat) (src : Source) : Prop :=
  ∀ stale bufs, ((Chunk.encodeAll cs).take count ++ stale).length = maxRespBufsize →
    (∀ i, bufs i ≠ []) →
    DeliversBody bufs (resp.buffered ((Chunk.encodeAll cs).take count) stale) src
      (cs.flatMap Chunk.data)

theorem AwaitsChunks.call_eq {resp : CurlResponse} (h : AwaitsChunks resp) (bytes stale : Bytes)
    (fuel : Nat) (buf : Bytes) (len : Nat) (src : Source) :
    ∃ headers, efCurlReadResponse fuel (resp.buffered bytes stale) buf len src =
      httpParseRespChunked len fuel
        ⟨{ resp.buffered bytes stale with headers := headers }, buf, 0, src⟩ := by
  obtain ⟨m, v, hm, hv, hlower⟩ := h.headers
  have hlen : v.len = 7 := by
    have := congrArg List.length hlower
    rwa [List.length_map] at this
  have hwhole : strtolower v.str 0 v.len = some chunked := by
    unfold strtolower storeAt writeAt
    have htake : (v.str.drop 0).take v.len = v.str := List.take_length
    rw [htake, hlower, if_pos (by omega)]
    have hfit : 0 + chunked.length = v.str.length := hlen.symm
    rw [if_pos (Nat.le_of_eq hfit), List.drop_of_length_le (Nat.le_of_eq hfit.symm)]
    rfl
  rcases h.wf.find_represents hm (Nat.le_refl transferEncoding.length) with
    ⟨hno, _⟩ | ⟨v', i, hv', hfind, _, hval⟩
  · rw [List.take_length, hv] at hno
    cases hno
  · rw [List.take_length, hv] at hv'
    obtain rfl := Option.some.inj hv'
    refine ⟨resp.headers.setBucket i { resp.headers.bucket i with val := some ⟨chunked⟩ }, ?_⟩
    unfold efCurlReadResponse
    simp only [CurlResponse.buffered, hfind, hval, hwhole, Option.bind_eq_bind, Option.bind_some,
      h.respStatus, reduceCtorEq, if_false]
    rfl

/-- The size of a chunk is always found to be 0. -/
theorem nextChunk_ret {fuel : Nat} {st st' : ChunkState} {buflen : Int} {ret : Option Int}
    (he : nextChunk fuel st buflen = some (ret, st')) : ret = some (st.sendlen : Int) := by
  obtain ⟨⟨pos, resp, src⟩, _, he⟩ := Option.bind_eq_some_iff.mp he
  cases pos with
  | none =>
      cases he
      rfl
  | some pos =>
      obtain ⟨n, hn, he⟩ := Option.bind_eq_some_iff.mp he
      have hzero : n = 0 := by
        rw [hexstr2int, text2int_of_nonpos 16 _ (by omega)] at hn
        obtain ⟨_, _, hn⟩ := Option.map_eq_some_iff.mp hn
        exact hn.symm
      rw [hzero] at he
      cases he
      rfl

theorem AwaitsChunks.call_ret {resp : CurlResponse} (h : AwaitsChunks resp) {bytes stale : Bytes}
    {fuel : Nat} {buf : Bytes} {len : Nat} {src : Source} {ret : Int} {st : ChunkState}
    (he : efCurlReadResponse fuel (resp.buffered bytes stale) buf len src = some (ret, st)) :
    ret = 0 := by
  obtain ⟨headers, hcall⟩ := h.call_eq bytes stale fuel buf len src
  rw [hcall] at he
  cases fuel with
  | zero => cases he
  | succ fuel =>
      rw [httpParseRespChunked] at he
      obtain ⟨⟨ret', st'⟩, hstep, he⟩ := Option.bind_eq_some_iff.mp he
      unfold chunkStep at hstep
      simp only [CurlResponse.buffered, h.chunkRemain, Int.lt_irrefl, if_false] at hstep
      rw [nextChunk_ret hstep] at he
      cases he
      rfl

theorem AwaitsChunks.call_none {resp : CurlResponse} (h : AwaitsChunks resp) {bytes stale : Bytes}
    (hfind : strstr (bytes ++ stale) crlf = none) (fuel : Nat) (buf : Bytes) (len : Nat)
    (src : Source) : efCurlReadResponse fuel (resp.buffered bytes stale) buf len src = none := by
  obtain ⟨headers, hcall⟩ := h.call_eq bytes stale fuel buf len src
  rw [hcall]
  cases fuel with
  | zero => rfl
  | succ fuel =>
      rw [httpParseRespChunked]
      unfold chunkStep nextChunk
      simp only [CurlResponse.buffered, h.chunkRemain, Int.lt_irrefl, if_false]
      cases fuel with
      | zero => rfl
      | succ fuel =>
          simp only [sizeLine, List.drop_zero, hfind, Option.bind_eq_bind, Option.bind_none]

/-- The zero chunk is found when its size line is buffered. -/
theorem AwaitsChunks.last_chunk {resp : CurlResponse} (h : AwaitsChunks resp) {rest : Bytes}
    (hrest : rest ≠ []) {bytes stale : Bytes} (hbuf : bytes ++ stale = 48 :: 13 :: 10 :: rest)
    (buf : Bytes) (len : Nat) (src : Source) :
    (efCurlReadResponse 2 (resp.buffered bytes stale) buf len src).map Prod.fst = some 0 := by
  obtain ⟨headers, hcall⟩ := h.call_eq bytes stale 2 buf len src
  have hfind : strstr (48 :: 13 :: 10 :: rest) crlf = some (some 1) := by
    simp [strstr, CString.find, CString.startsWith, crlf]
  obtain ⟨c, rest, rfl⟩ := List.exists_cons_of_ne_nil hrest
  have hsize : hexstr2int (c :: rest) (1 - 3) = some 0 := text2int_of_nonpos 16 _ (by decide)
  rw [hcall, httpParseRespChunked]
  unfold chunkStep nextChunk
  simp only [CurlResponse.buffered, h.chunkRemain, Int.lt_irrefl, if_false, sizeLine, hbuf,
    List.drop_zero, hfind, Option.bind_eq_bind, Option.bind_some, Option.pure_def]
  simp only [Nat.zero_add, Nat.reduceAdd, List.drop_succ_cons, List.drop_zero, Nat.cast_one,
    Nat.cast_ofNat, hsize, Option.bind_some]
  rfl

/-- Chunks are decoded if and only if there are none, and the size line of the zero chunk is
buffered behind the head. -/
theorem http_parse_resp_chunked_decodes {resp : CurlResponse} (h : AwaitsChunks resp)
    {cs : List Chunk} (hcs : ∀ c ∈ cs, c.Valid) {count : Nat} (hcount : count ≤ maxRespBufsize)
    (src : Source) : DecodesChunks resp cs count src ↔ cs = [] ∧ 3 ≤ count := by
  constructor
  · intro hall
    -- no byte of the rest of the block ends a search
    have hlen : ((Chunk.encodeAll cs).take count).length ≤ maxRespBufsize := by
      rw [List.length_take]
      omega
    obtain ⟨fuel, calls, trace, hrun, hbody, _⟩ := hall
      (List.replicate (maxRespBufsize - ((Chunk.encodeAll cs).take count).length) 120) (fun _ => [0])
      (by rw [List.length_append, List.length_replicate]; omega) (fun _ => List.cons_ne_nil _ _)
    obtain ⟨calls, rfl⟩ : ∃ n, calls = n + 1 := by
      cases calls with
      | zero => cases hrun
      | succ calls => exact ⟨calls, rfl⟩
    rw [bodyCalls] at hrun
    obtain ⟨⟨ret, st⟩, hcall, hrun⟩ := Option.bind_eq_some_iff.mp hrun
    obtain rfl := h.call_ret hcall
    cases hrun
    have hnil : cs = [] := by
      cases cs with
      | nil => rfl
      | cons c cs =>
          have hdata := (hcs c List.mem_cons_self).data_ne
          rw [List.flatMap_nil, List.flatMap_cons] at hbody
          exact absurd (List.append_eq_nil_iff.mp hbody.symm).1 hdata
    refine ⟨hnil, ?_⟩
    by_contra hlt
    subst hnil
    have hx : ∀ n, CString.find (0 : UInt8) [13, 10] (List.replicate n 120) = none := by
      intro n
      refine CString.find_of_forall_ne (fun c hc => ?_)
      rw [List.eq_of_mem_replicate hc]
      decide
    have hfind : ∀ n, 1 ≤ n → strstr ((Chunk.encodeAll []).take count ++ List.replicate n 120) crlf =
        none := by
      intro n hn
      obtain ⟨n, rfl⟩ := Nat.exists_eq_add_of_le' hn
      have hx' := hx (n + 1)
      obtain rfl | rfl | rfl : count = 0 ∨ count = 1 ∨ count = 2 := by omega
      · exact hx'
      · simp [strstr, Chunk.encodeAll, crlf, CString.find, CString.startsWith, hx']
      · rw [List.replicate_succ] at hx' ⊢
        simp [strstr, Chunk.encodeAll, crlf, CString.find, CString.startsWith] at hx' ⊢
        exact hx'
    have hmax : count ≤ 2 := by omega
    rw [h.call_none (hfind _ (by
      rw [List.length_take]
      simp only [maxRespBufsize]
      omega))] at hcall
    cases hcall
  · rintro ⟨rfl, hcount₃⟩ stale bufs hlen _
    have hbuf : ∃ rest, (Chunk.encodeAll []).take count ++ stale = 48 :: 13 :: 10 :: rest ∧
        rest ≠ [] := by
      obtain ⟨n, rfl⟩ := Nat.exists_eq_add_of_le hcount₃
      have hthree : (Chunk.encodeAll []).take (3 + n) ++ stale =
          48 :: 13 :: 10 :: (([13, 10] : Bytes).take n ++ stale) := by
        rw [Nat.add_comm]
        rfl
      refine ⟨_, hthree, fun hnil => ?_⟩
      rw [hthree, hnil] at hlen
      cases hlen
    obtain ⟨rest, hbuf, hrest⟩ := hbuf
    obtain ⟨⟨ret, st⟩, hcall, hret⟩ :=
      Option.map_eq_some_iff.mp (h.last_chunk hrest hbuf (bufs 0) (bufs 0).length src)
    refine ⟨2, 1, [], ?_, rfl, by simp⟩
    rw [bodyCalls, hcall]
    simp only [Option.bind_eq_bind, Option.bind_some, if_pos (show ret = 0 from hret),
      Option.pure_def]

theorem awaitsChunks_set :
    ∃ ret tbl w, efStringtabSet ⟨8, hashSizemask 8, 0, 0, nil32, true, List.replicate 8 nil32,
        List.replicate 8 (Bucket.zero _)⟩ transferEncoding 17 (some (chunked ++ [0])) 7
        ⟨⟨[], 2, 0⟩, []⟩ = some (some (ret, tbl), w) ∧
      AwaitsChunks ⟨200, .body, 0, 0, 0, 0, 0, tbl, []⟩ := by
  have hnew : efStringtabNew 0 ⟨[], 0, 0⟩ = (some ⟨8, hashSizemask 8, 0, 0, nil32, true,
      List.replicate 8 nil32, List.replicate 8 (Bucket.zero _)⟩, ⟨[], 2, 0⟩) := rfl
  obtain ⟨wf, hempty⟩ := (Stringtab.new_spec ⟨[], 0, 0⟩).2.2 _ (congrArg Prod.fst hnew)
  have hk : Keeps _ (fun _ => none) ∅ := ⟨wf, hempty, by simp⟩
  have hkey : stringLen transferEncoding 17 = 17 := rfl
  obtain ⟨ret, tbl, w, he, _, hcase⟩ := hk.set_string hkey (Nat.le_refl 17) (chunked ++ [0]) 7
    ⟨⟨[], 2, 0⟩, []⟩
  refine ⟨ret, tbl, w, he, ?_⟩
  have hfailures : w.heap.failures = 0 := by
    have hrun : (efStringtabSet ⟨8, hashSizemask 8, 0, 0, nil32, true, List.replicate 8 nil32,
        List.replicate 8 (Bucket.zero _)⟩ transferEncoding 17 (some (chunked ++ [0])) 7
        ⟨⟨[], 2, 0⟩, []⟩).map (fun r => r.2.heap.failures) = some 0 := by decide +kernel
    rw [he] at hrun
    exact Option.some.inj hrun
  rcases hcase with ⟨_, hk', _⟩ | ⟨_, _, hfull⟩
  · exact ⟨rfl, rfl, hk'.wf, _, ⟨chunked⟩, hk'.represents, Function.update_self .., rfl⟩
  · exact absurd (hfull hfailures).2 (by decide)

theorem http_parse_resp_chunked_decodes_none :
    ∃ ret tbl w, efStringtabSet ⟨8, hashSizemask 8, 0, 0, nil32, true, List.replicate 8 nil32,
        List.replicate 8 (Bucket.zero _)⟩ transferEncoding 17 (some (chunked ++ [0])) 7
        ⟨⟨[], 2, 0⟩, []⟩ = some (some (ret, tbl), w) ∧
      DecodesChunks ⟨200, .body, 0, 0, 0, 0, 0, tbl, []⟩ [] 5 [] := by
  obtain ⟨ret, tbl, w, he, h⟩ := awaitsChunks_set
  have hcs : ∀ c ∈ ([] : List Chunk), c.Valid := by simp
  exact ⟨ret, tbl, w, he,
    (http_parse_resp_chunked_decodes h hcs (show 5 ≤ maxRespBufsize by decide) []).mpr
      ⟨rfl, by decide⟩⟩

/-- One chunk of one byte, all of it buffered: the first call returns 0. -/
theorem http_parse_resp_chunked_decodes_one :
    (⟨[49], [65]⟩ : Chunk).Valid ∧ ∃ ret tbl w,
      efStringtabSet ⟨8, hashSizemask 8, 0, 0, nil32, true, List.replicate 8 nil32,
        List.replicate 8 (Bucket.zero _)⟩ transferEncoding 17 (some (chunked ++ [0])) 7
        ⟨⟨[], 2, 0⟩, []⟩ = some (some (ret, tbl), w) ∧
      ¬ DeliversBody (fun _ => [0, 0]) (CurlResponse.buffered ⟨200, .body, 0, 0, 0, 0, 0, tbl, []⟩
        [49, 13, 10, 65, 13, 10, 48, 13, 10, 13, 10] (List.replicate 4085 0)) [] [65] := by
  obtain ⟨ret, tbl, w, he, h⟩ := awaitsChunks_set
  refine ⟨⟨by decide, rfl, by decide, by decide⟩, ret, tbl, w, he, ?_⟩
  rintro ⟨fuel, calls, trace, hrun, hbody, _⟩
  cases calls with
  | zero => cases hrun
  | succ calls =>
      rw [bodyCalls] at hrun
      obtain ⟨⟨ret, st⟩, hcall, hrun⟩ := Option.bind_eq_some_iff.mp hrun
      obtain rfl := h.call_ret hcall
      cases hrun
      cases hbody

end EFramework
