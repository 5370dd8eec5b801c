import EFramework.FastCGI.Response
import EFramework.Structure.BufferIO.Retry

/-! # What `fcgi_write_response` does about failures

No return value of an append, a write or the flush is looked at, so what is appended
and written does not depend on them. The call is the run of a list of appends and
a list of writes that are both fixed beforehand, and returns 0 behind them.
-/

namespace EFramework

/-! ## The appends -/

def bucketChunks (pb : Bucket (EfVector EfString)) : List Bytes :=
  match pb.key, pb.val with
  | some key, some vec => vec.items.flatMap (fun str => [key.str, colonSpace, str.str, crlf])
  | _, _ => []

def headerChunks (headers : Headertab) : List Bytes :=
  (headers.arrData.take headers.cap).flatMap bucketChunks ++ [crlf]

def appendAll : List Bytes → EfBuffer → Heap → Option (List Int × EfBuffer × Heap)
  | [], buf, m => some ([], buf, m)
  | data :: chunks, buf, m => do
      let (ret, buf, m) ← efBufferAppend buf data m
      let (rets, buf, m) ← appendAll chunks buf m
      pure (ret :: rets, buf, m)

theorem foldlM_flatMap {α β γ : Type} (f : α → β → Option α) (g : γ → List β) (l : List γ)
    (a : α) : (l.flatMap g).foldlM f a = l.foldlM (fun a x => (g x).foldlM f a) a := by
  induction l generalizing a with
  | nil => rfl
  | cons x l ih =>
      rw [List.flatMap_cons, List.foldlM_append, List.foldlM_cons]
      exact congrArg _ (funext ih)

theorem appendHeaders_eq (headers : Headertab) (st : EfBuffer × Heap) :
    appendHeaders headers st = (headerChunks headers).foldlM appendTo st := by
  have hbucket : ∀ st pb, appendBucket st pb = (bucketChunks pb).foldlM appendTo st := by
    intro st pb
    unfold appendBucket bucketChunks
    cases pb.key with
    | none => rfl
    | some key =>
        cases pb.val with
        | none => rfl
        | some vec =>
            have hheader : ∀ st str, appendHeader key st str =
                [key.str, colonSpace, str.str, crlf].foldlM appendTo st := by
              intro st str
              simp [appendHeader, List.foldlM_cons]
            dsimp only
            rw [foldlM_flatMap]
            simp only [← hheader]
  unfold appendHeaders headerChunks
  rw [List.foldlM_append, foldlM_flatMap]
  simp only [← hbucket, List.foldlM_cons, List.foldlM_nil, bind_pure]

theorem foldlM_appendTo (chunks : List Bytes) (buf : EfBuffer) (m : Heap) :
    chunks.foldlM appendTo (buf, m) = (appendAll chunks buf m).map Prod.snd := by
  induction chunks generalizing buf m with
  | nil => rfl
  | cons data chunks ih =>
      rw [List.foldlM_cons, appendAll, appendTo]
      dsimp only
      cases efBufferAppend buf data m with
      | none => rfl
      | some r =>
          simp only [Option.bind_eq_bind, Option.bind_some, Option.pure_def]
          rw [ih]
          cases appendAll chunks r.2.1 r.2.2 <;> rfl

/-- What the lengths and the allocator decide about a buffer that is appended to:
`granted` is cleared by the first append that fails. -/
structure AppendState where
  cap : Nat
  len : Nat
  heap : Heap
  granted : Bool
deriving Repr, DecidableEq

def AppendState.append (st : AppendState) (n : Nat) : AppendState :=
  if n ≤ st.cap - st.len then { st with len := st.len + n }
  else
    match st.heap.alloc (efResize (st.len + n) 0) with
    | (true, heap) => { st with cap := efResize (st.len + n) 0, len := st.len + n, heap := heap }
    | (false, heap) => { st with heap := heap, granted := false }

theorem EfBuffer.Wf.append_state {buf : EfBuffer} (wf : buf.Wf) {data : Bytes}
    (hlen : data.length < 2 ^ 63) (m : Heap) (granted : Bool) :
    ∃ ret buf' m', efBufferAppend buf data m = some (ret, buf', m') ∧ buf'.Wf ∧
      (0 ≤ ret → buf'.content = buf.content ++ data) ∧
      (⟨buf.cap, buf.len, m, granted⟩ : AppendState).append data.length =
        ⟨buf'.cap, buf'.len, m', granted && decide (0 ≤ ret)⟩ := by
  obtain ⟨ret, buf', m', he, _, hcase⟩ := wf.append_spec (Nat.le_of_lt hlen) m
  have h₂ := wf.len_le
  have h₃ := wf.cap_lt
  have hstate : (⟨buf.cap, buf.len, m, granted⟩ : AppendState).append data.length =
      ⟨buf'.cap, buf'.len, m', granted && decide (0 ≤ ret)⟩ := by
    unfold AppendState.append
    dsimp only
    unfold efBufferAppend at he
    rw [efBufferAppendLoop, wf.room] at he
    by_cases hroom : data.length ≤ buf.cap - buf.len
    · rw [if_pos hroom, Nat.mod_eq_of_lt (by omega)] at he
      cases he
      rw [if_pos hroom]
      simp
    · have hmod : (buf.len + data.length) % 2 ^ 64 = buf.len + data.length :=
        Nat.mod_eq_of_lt (by omega)
      have halloc := @Heap.alloc_size m (efResize (buf.len + data.length) 0)
      rw [if_neg hroom, efBufferExpand, wf.room, if_neg hroom, hmod] at he
      dsimp only at he
      rw [wf.expand_alloc (Nat.le_of_lt hlen) hroom] at he
      rw [if_neg hroom]
      generalize m.alloc (efResize (buf.len + data.length) 0) = r at he halloc ⊢
      obtain ⟨_ | _, m₁⟩ := r
      · cases he
        simp
      · have hsize := efResize_cases (show 0 < buf.len + data.length by omega) (by omega)
        have hbound := halloc rfl
        have hroom' : data.length ≤
            sizeSub (efResize (buf.len + data.length) 0) buf.len := by
          rw [sizeSub_eq (by omega) (by omega)]
          omega
        rw [if_pos rfl] at he
        dsimp only at he
        rw [if_neg (by decide), efBufferAppendLoop, if_pos hroom', hmod] at he
        cases he
        simp
  refine ⟨ret, buf', m', he, ?_, fun h => ?_, hstate⟩
  · rcases hcase with ⟨_, wf', _⟩ | ⟨_, rfl, _⟩
    · exact wf'
    · exact wf
  · rcases hcase with ⟨_, _, hc, _⟩ | ⟨rfl, _⟩
    · exact hc
    · exact absurd h (by decide)

theorem EfBuffer.Wf.appendAll_spec {buf : EfBuffer} (wf : buf.Wf) {chunks : List Bytes}
    (hlen : ∀ data ∈ chunks, data.length < 2 ^ 63) (m : Heap) (granted : Bool) :
    ∃ rets buf' m', appendAll chunks buf m = some (rets, buf', m') ∧
      ((∀ ret ∈ rets, 0 ≤ ret) → buf'.content = buf.content ++ chunks.flatten) ∧
      ∃ granted', (chunks.map List.length).foldl AppendState.append ⟨buf.cap, buf.len, m, granted⟩ =
          ⟨buf'.cap, buf'.len, m', granted'⟩ ∧ buf'.Wf ∧
        (granted' = true ↔ granted = true ∧ ∀ ret ∈ rets, 0 ≤ ret) := by
  induction chunks generalizing buf m granted with
  | nil => exact ⟨[], buf, m, rfl, by simp, granted, rfl, wf, by simp⟩
  | cons data chunks ih =>
      obtain ⟨ret, buf₁, m₁, he, wf₁, hc, hstate⟩ := wf.append_state (hlen data (by simp)) m granted
      obtain ⟨rets, buf', m', he', hc', granted', hstate', wf', hiff⟩ :=
        ih wf₁ (fun d hd => hlen d (List.mem_cons_of_mem data hd)) m₁ (granted && decide (0 ≤ ret))
      refine ⟨ret :: rets, buf', m', by simp [appendAll, he, he'], fun hall => ?_, granted', ?_,
        wf', ?_⟩
      · obtain ⟨hret, hall⟩ := List.forall_mem_cons.mp hall
        rw [hc' hall, hc hret, List.flatten_cons, List.append_assoc]
      · rw [List.map_cons, List.foldl_cons, hstate, hstate']
      · rw [hiff, List.forall_mem_cons, Bool.and_eq_true, decide_eq_true_eq, and_assoc]

theorem headerChunks_length {headers : Headertab} (wf : headers.Wf) :
    ∀ data ∈ headerChunks headers, data.length < 2 ^ 63 := by
  intro data hdata
  rcases List.mem_append.mp hdata with hdata | hdata
  · obtain ⟨pb, hpb, hmem⟩ := List.mem_flatMap.mp hdata
    obtain ⟨i, hi, rfl⟩ := List.getElem_of_mem (List.mem_of_mem_take hpb)
    have hbucket : headers.bucket i = headers.arrData[i] := by
      simp [Hashtable.bucket, List.getD, hi]
    rw [← hbucket] at hmem
    unfold bucketChunks at hmem
    cases hkey : (headers.bucket i).key with
    | none => simp [hkey] at hmem
    | some key =>
        cases hval : (headers.bucket i).val with
        | none => simp [hkey, hval] at hmem
        | some vec =>
            have hlive : (headers.bucket i).Live := by simp [Bucket.Live, hkey]
            obtain ⟨s, hs, _, hslen⟩ := wf.table.linked.live_key i hlive
            obtain rfl : key = s := Option.some.inj (hkey.symm.trans hs)
            simp only [hkey, hval, List.mem_flatMap] at hmem
            obtain ⟨str, hstr, hmem⟩ := hmem
            have hvalue := wf.values key.str vec ⟨i, hlive, hkey, hval⟩ str hstr
            simp only [List.mem_cons, List.not_mem_nil, or_false] at hmem
            rcases hmem with rfl | rfl | rfl | rfl
            · exact hslen
            · exact show colonSpace.length < 2 ^ 63 by decide
            · exact hvalue
            · exact show crlf.length < 2 ^ 63 by decide
  · obtain rfl := List.mem_singleton.mp hdata
    exact show crlf.length < 2 ^ 63 by decide

/-! ## The writes -/

def nextBufWrites (paddingLength : UInt8) :
    Nat → Nat → Nat → List EfBuffer → Option (List Bytes × Bool × Nat × List EfBuffer)
  | 0, _, _, _ => none
  | _ + 1, _, offset, [] => some ([], false, offset, [])
  | fuel + 1, pksz, offset, buffer :: next =>
      let wtsz := buffer.len - offset
      let wtsz := if pksz < wtsz then pksz else wtsz
      let chunk := (buffer.ptr.drop offset).take wtsz
      let offset := offset + wtsz
      let pksz := pksz - wtsz
      let (offset, pbuf) := if offset = buffer.len then (0, next) else (offset, buffer :: next)
      if pksz ≠ 0 then
        (nextBufWrites paddingLength fuel pksz offset pbuf).map (fun r => (chunk :: r.1, r.2))
      else
        some (chunk :: (if paddingLength ≠ 0 then [List.replicate paddingLength.toNat 0] else []),
          true, offset, pbuf)

def stdoutWrites (hdr : FcgiHeader) : Nat → Nat → Nat → List EfBuffer → Option (List Bytes)
  | 0, _, _, _ => none
  | fuel + 1, length, offset, pbuf =>
      if length ≠ 0 then do
        let pksz := if length ≤ 65535 then length else 65535
        let filled := { hdr with
          contentLengthB1 := UInt8.ofNat (pksz >>> 8)
          contentLengthB0 := UInt8.ofNat (pksz &&& 0xff)
          paddingLength := UInt8.ofNat ((8 - pksz % 8) &&& 7) }
        let (bs, more, offset, pbuf) ← nextBufWrites filled.paddingLength 3 pksz offset pbuf
        if more then
          let rest ← stdoutWrites hdr fuel (length - pksz) offset pbuf
          pure (filled.bytes :: (bs ++ rest))
        else pure (filled.bytes :: bs)
      else some []

theorem nextBuf_eq (pad : UInt8) (fuel pksz offset : Nat) (pbuf : List EfBuffer) (out : BioOut) :
    nextBuf pad fuel pksz offset pbuf out =
      (nextBufWrites pad fuel pksz offset pbuf).bind (fun r =>
        (r.1.foldlM BioOut.write out).map (fun out => (r.2.1, r.2.2.1, r.2.2.2, out))) := by
  induction fuel generalizing pksz offset pbuf out with
  | zero => rfl
  | succ fuel ih =>
      cases pbuf with
      | nil => rfl
      | cons buffer next =>
          rw [nextBuf, nextBufWrites]
          dsimp only
          generalize (if pksz < buffer.len - offset then pksz else buffer.len - offset) = wtsz
          generalize (if offset + wtsz = buffer.len then (0, next)
            else (offset + wtsz, buffer :: next)) = place
          cases hw : out.write ((buffer.ptr.drop offset).take wtsz) with
          | none =>
              split
              · cases nextBufWrites pad fuel (pksz - wtsz) place.1 place.2 <;>
                  simp [List.foldlM_cons, hw]
              · simp [List.foldlM_cons, hw]
          | some out₁ =>
              simp only [Option.bind_eq_bind, Option.bind_some]
              split
              · rw [ih]
                cases nextBufWrites pad fuel (pksz - wtsz) place.1 place.2 <;>
                  simp [List.foldlM_cons, hw]
              · split
                · simp only [Option.bind_some, List.foldlM_cons, List.foldlM_nil, bind_pure, hw,
                    Option.bind_eq_bind]
                  cases out₁.write (List.replicate pad.toNat 0) <;> rfl
                · simp [List.foldlM_cons, hw]

theorem stdoutLoop_eq (hdr : FcgiHeader) (fuel length offset : Nat) (pbuf : List EfBuffer)
    (out : BioOut) :
    stdoutLoop hdr fuel length offset pbuf out =
      (stdoutWrites hdr fuel length offset pbuf).bind (fun ws => ws.foldlM BioOut.write out) := by
  induction fuel generalizing length offset pbuf out with
  | zero => rfl
  | succ fuel ih =>
      rw [stdoutLoop, stdoutWrites]
      split
      · dsimp only
        generalize (if length ≤ 65535 then length else 65535) = pksz
        generalize UInt8.ofNat ((8 - pksz % 8) &&& 7) = pad
        generalize ({ hdr with
          contentLengthB1 := UInt8.ofNat (pksz >>> 8)
          contentLengthB0 := UInt8.ofNat (pksz &&& 0xff)
          paddingLength := pad } : FcgiHeader) = filled
        cases hws : nextBufWrites pad 3 pksz offset pbuf with
        | none =>
            cases hw : out.write filled.bytes <;> simp [nextBuf_eq, hws]
        | some r =>
            obtain ⟨bs, more, offset', pbuf'⟩ := r
            cases hw : out.write filled.bytes with
            | none =>
                cases more with
                | true =>
                    cases hrest : stdoutWrites hdr fuel (length - pksz) offset' pbuf' <;>
                      simp [List.foldlM_cons, hw, hrest]
                | false => simp [List.foldlM_cons, hw]
            | some out₁ =>
                cases hbs : bs.foldlM BioOut.write out₁ with
                | none =>
                    cases more with
                    | true =>
                        cases hrest : stdoutWrites hdr fuel (length - pksz) offset' pbuf' <;>
                          simp [nextBuf_eq, hws, List.foldlM_cons, List.foldlM_append, hw, hbs,
                            hrest]
                    | false => simp [nextBuf_eq, hws, List.foldlM_cons, hw, hbs]
                | some out₂ =>
                    cases more with
                    | true =>
                        cases hrest : stdoutWrites hdr fuel (length - pksz) offset' pbuf' <;>
                          simp [nextBuf_eq, hws, List.foldlM_cons, List.foldlM_append, hw, hbs, ih,
                            hrest]
                    | false => simp [nextBuf_eq, hws, List.foldlM_cons, hw, hbs]
      · rfl

theorem nextBufWrites_some (pad : UInt8) (fuel pksz offset : Nat) {pbuf : List EfBuffer}
    (hoff : ∀ b ∈ pbuf.head?, offset ≤ b.len) (hfuel : pbuf.length < fuel) :
    ∃ ws more offset' pbuf', nextBufWrites pad fuel pksz offset pbuf =
        some (ws, more, offset', pbuf') ∧ (∀ b ∈ pbuf'.head?, offset' ≤ b.len) ∧
      pbuf'.length ≤ pbuf.length := by
  induction pbuf generalizing fuel pksz offset with
  | nil =>
      obtain ⟨fuel, rfl⟩ := Nat.exists_eq_add_of_le' (show 1 ≤ fuel by omega)
      exact ⟨[], false, offset, [], rfl, hoff, Nat.le_refl _⟩
  | cons buffer next ih =>
      obtain ⟨fuel, rfl⟩ := Nat.exists_eq_add_of_le' (show 1 ≤ fuel by omega)
      rw [List.length_cons] at hfuel
      have hle := hoff buffer rfl
      rw [nextBufWrites]
      dsimp only
      by_cases hlt : pksz < buffer.len - offset
      · -- the record ends in this buffer
        rw [if_pos hlt, if_neg (show ¬ offset + pksz = buffer.len by omega), if_neg (by omega)]
        refine ⟨_, true, offset + pksz, buffer :: next, rfl, fun b hb => ?_, Nat.le_refl _⟩
        obtain rfl := Option.some.inj hb
        omega
      · rw [if_neg hlt, if_pos (show offset + (buffer.len - offset) = buffer.len by omega)]
        split
        · obtain ⟨ws, more, offset', pbuf', he, hoff', hlen⟩ :=
            ih fuel (pksz - (buffer.len - offset)) 0 (fun _ _ => Nat.zero_le _) (by omega)
          exact ⟨_, more, offset', pbuf', by rw [he]; rfl, hoff',
            by rw [List.length_cons]; omega⟩
        · exact ⟨_, true, 0, next, rfl, fun _ _ => Nat.zero_le _, by rw [List.length_cons]; omega⟩

theorem stdoutWrites_some (hdr : FcgiHeader) (fuel length offset : Nat) {pbuf : List EfBuffer}
    (hoff : ∀ b ∈ pbuf.head?, offset ≤ b.len) (hbufs : pbuf.length < 3) (hfuel : length < fuel) :
    ∃ ws, stdoutWrites hdr fuel length offset pbuf = some ws := by
  induction fuel generalizing length offset pbuf with
  | zero => omega
  | succ fuel ih =>
      rw [stdoutWrites]
      split
      next hne =>
        dsimp only
        have hpos : 0 < if length ≤ 65535 then length else 65535 := by
          split <;> omega
        generalize (if length ≤ 65535 then length else 65535) = pksz at hpos ⊢
        obtain ⟨ws, more, offset', pbuf', he, hoff', hlen⟩ :=
          nextBufWrites_some (UInt8.ofNat ((8 - pksz % 8) &&& 7)) 3 pksz offset hoff hbufs
        simp only [he, Option.bind_eq_bind, Option.bind_some]
        cases more with
        | true =>
            obtain ⟨rest, hrest⟩ := ih (length - pksz) offset' hoff' (by omega) (by omega)
            exact ⟨_, by rw [if_pos rfl, hrest]; rfl⟩
        | false => exact ⟨_, rfl⟩
      next => exact ⟨[], rfl⟩

def EfBuffer.compact (buf : EfBuffer) : EfBuffer := { buf with ptr := buf.content, cap := buf.len }

theorem nextBufWrites_compact (pad : UInt8) (fuel pksz offset : Nat) (pbuf : List EfBuffer) :
    nextBufWrites pad fuel pksz offset (pbuf.map EfBuffer.compact) =
      (nextBufWrites pad fuel pksz offset pbuf).map
        (fun r => (r.1, r.2.1, r.2.2.1, r.2.2.2.map EfBuffer.compact)) := by
  induction fuel generalizing pksz offset pbuf with
  | zero => rfl
  | succ fuel ih =>
      cases pbuf with
      | nil => rfl
      | cons buffer next =>
          have hplace : ∀ n, (if offset + n = buffer.len then (0, next.map EfBuffer.compact)
              else (offset + n, buffer.compact :: next.map EfBuffer.compact)) =
              Prod.map id (List.map EfBuffer.compact)
                (if offset + n = buffer.len then (0, next) else (offset + n, buffer :: next)) := by
            intro n
            by_cases h : offset + n = buffer.len
            · rw [if_pos h, if_pos h]
              rfl
            · rw [if_neg h, if_neg h]
              rfl
          have hchunk : ∀ n, n ≤ buffer.len - offset →
              (buffer.content.drop offset).take n = (buffer.ptr.drop offset).take n := by
            intro n hn
            rw [EfBuffer.content, List.drop_take, List.take_take, Nat.min_eq_left hn]
          have hle : (if pksz < buffer.len - offset then pksz else buffer.len - offset) ≤
              buffer.len - offset := by
            split <;> omega
          rw [List.map_cons, nextBufWrites, nextBufWrites]
          dsimp only
          rw [show buffer.compact.len = buffer.len from rfl,
            show buffer.compact.ptr = buffer.content from rfl, hplace, hchunk _ hle]
          generalize (if pksz < buffer.len - offset then pksz else buffer.len - offset) = wtsz
          generalize (if offset + wtsz = buffer.len then (0, next)
            else (offset + wtsz, buffer :: next)) = place
          split
          · rw [Prod.map_fst, Prod.map_snd, id, ih]
            cases nextBufWrites pad fuel (pksz - wtsz) place.1 place.2 <;> rfl
          · rfl

theorem stdoutWrites_compact (hdr : FcgiHeader) (fuel length offset : Nat)
    (pbuf : List EfBuffer) :
    stdoutWrites hdr fuel length offset (pbuf.map EfBuffer.compact) =
      stdoutWrites hdr fuel length offset pbuf := by
  induction fuel generalizing length offset pbuf with
  | zero => rfl
  | succ fuel ih =>
      rw [stdoutWrites, stdoutWrites]
      split
      · dsimp only
        rw [nextBufWrites_compact]
        generalize (if length ≤ 65535 then length else 65535) = pksz
        cases nextBufWrites (UInt8.ofNat ((8 - pksz % 8) &&& 7)) 3 pksz offset pbuf with
        | none => rfl
        | some r =>
            simp only [Option.map_some, Option.bind_eq_bind, Option.bind_some, ih]
      · rfl

/-! ## The whole call -/

/-- The header buffer behind its appends, and `length`. -/
def headerStage (response : FcgiResponse) (length₀ : Nat) (header : EfBuffer) (m : Heap) :
    Option (List Int × EfBuffer × Nat × Heap) :=
  match response.headers with
  | some headers => do
      let (rets, header, m) ← appendAll (headerChunks headers) header m
      pure (rets, header, header.len, m)
  | none => some ([], header, length₀, m)

def responseOps (requestId : UInt16) (data : Option EfBuffer) (header : EfBuffer) (length : Nat) :
    Option (List WriterOp) := do
  let hdr := responseHeader requestId
  let ws ← stdoutWrites hdr (length + 1) length 0 (header :: data.toList)
  let last := { hdr with
    type := fcgiEndRequest, contentLengthB1 := 0, contentLengthB0 := 8, paddingLength := 0 }
  pure ((ws ++ [last.bytes, List.replicate 8 0]).map .write ++ [.flush])

/-- A call with the return values of the appends, the writes and the flush in it. -/
def fcgiWriteResponseCalls (response : FcgiResponse) (length₀ : Nat) (snk : Sink) (m : Heap) :
    Option (Int × List Int × Sink × Heap) :=
  match efBufferNew bufferSize m with
  | (none, m) => some (-1, [], snk, m)
  | (some header, m) => do
      let (appends, header, length, m) ← headerStage response length₀ header m
      let length :=
        match response.data with
        | some data => (length + data.len) % 2 ^ 64
        | none => length
      match efBioWriterNew bufferSize m with
      | (none, m) => pure (-1, appends, snk, m)
      | (some writer, m) => do
          let ops ← responseOps response.request.requestId response.data header length
          let (writes, _, snk, m) ← writerRun ops writer snk m
          pure (0, appends ++ writes, snk, m)

theorem foldlM_write (ws : List Bytes) (ops : List WriterOp) (out : BioOut) :
    (writerRun (ws.map .write ++ ops) out.writer out.snk out.heap).map Prod.snd =
      (ws.foldlM BioOut.write out).bind (fun out =>
        (writerRun ops out.writer out.snk out.heap).map Prod.snd) := by
  induction ws generalizing out with
  | nil => rfl
  | cons buf ws ih =>
      rw [List.map_cons, List.cons_append, writerRun, List.foldlM_cons, BioOut.write]
      change ((efBioWrite out.writer buf out.snk out.heap).bind _).map _ = _
      cases efBioWrite out.writer buf out.snk out.heap with
      | none => rfl
      | some r =>
          obtain ⟨ret, writer, snk, heap⟩ := r
          simp only [Option.bind_some, Option.bind_eq_bind, Option.pure_def]
          rw [← ih]
          cases writerRun (List.map WriterOp.write ws ++ ops) writer snk heap <;> rfl

theorem sendStage_eq (response : FcgiResponse) (header : EfBuffer) (length : Nat)
    (appends : List Int) (snk : Sink) (m : Heap) :
    (match efBioWriterNew bufferSize m with
      | (none, m) => pure (-1, snk, m)
      | (some writer, m) => do
          let hdr := responseHeader response.request.requestId
          let out ← stdoutLoop hdr (length + 1) length 0 (header :: response.data.toList)
            ⟨writer, snk, m⟩
          let out ← out.write { hdr with
            type := fcgiEndRequest, contentLengthB1 := 0, contentLengthB0 := 8,
            paddingLength := 0 }.bytes
          let out ← out.write (List.replicate 8 0)
          let (_, _, snk) ← efBioWriterFlush out.writer out.snk
          pure (0, snk, out.heap) : Option (Int × Sink × Heap)) =
      (match efBioWriterNew bufferSize m with
        | (none, m) => pure (-1, appends, snk, m)
        | (some writer, m) => do
            let ops ← responseOps response.request.requestId response.data header length
            let (writes, _, snk, m) ← writerRun ops writer snk m
            pure (0, appends ++ writes, snk, m)
        : Option (Int × List Int × Sink × Heap)).map (fun r => (r.1, r.2.2)) := by
  obtain ⟨_ | writer, m₁⟩ := efBioWriterNew bufferSize m
  · rfl
  dsimp only
  unfold responseOps
  dsimp only
  rw [stdoutLoop_eq]
  generalize ({ responseHeader response.request.requestId with
    type := fcgiEndRequest, contentLengthB1 := 0, contentLengthB0 := 8,
    paddingLength := 0 } : FcgiHeader).bytes = last
  cases hws : stdoutWrites (responseHeader response.request.requestId) (length + 1) length 0
    (header :: response.data.toList) with
  | none => rfl
  | some ws =>
      have hrun := foldlM_write (ws ++ [last, List.replicate 8 0]) [.flush] ⟨writer, snk, m₁⟩
      have hmap : ∀ r : Option (List Int × BioWriter × Sink × Heap),
          (r.bind (fun r => some ((0 : Int), appends ++ r.1, r.2.2.1, r.2.2.2))).map
            (fun r => (r.1, r.2.2)) = (r.map Prod.snd).map (fun r => (0, r.2.1, r.2.2)) := by
        intro r
        cases r <;> rfl
      simp only [Option.bind_some, Option.bind_eq_bind, Option.pure_def]
      rw [hmap, hrun, List.foldlM_append]
      cases ws.foldlM BioOut.write (⟨writer, snk, m₁⟩ : BioOut) with
      | none => rfl
      | some out₁ =>
          simp only [Option.bind_some, Option.bind_eq_bind, List.foldlM_cons, List.foldlM_nil]
          cases out₁.write last with
          | none => rfl
          | some out₂ =>
              simp only [Option.bind_some]
              cases out₂.write (List.replicate 8 0) with
              | none => rfl
              | some out₃ =>
                  simp only [Option.bind_some, Option.pure_def, writerRun, WriterOp.exec]
                  cases efBioWriterFlush out₃.writer out₃.snk <;> rfl

/-- The return values inside the call make no difference to it. -/
theorem fcgiWriteResponse_eq (response : FcgiResponse) (length₀ : Nat) (snk : Sink) (m : Heap) :
    fcgiWriteResponse response length₀ snk m =
      (fcgiWriteResponseCalls response length₀ snk m).map (fun r => (r.1, r.2.2)) := by
  unfold fcgiWriteResponse fcgiWriteResponseCalls headerStage
  obtain ⟨_ | header, m₁⟩ := efBufferNew bufferSize m
  · rfl
  dsimp only
  cases response.headers with
  | none => exact sendStage_eq response header _ [] snk m₁
  | some headers =>
      dsimp only
      rw [appendHeaders_eq, foldlM_appendTo]
      cases appendAll (headerChunks headers) header m₁ with
      | none => rfl
      | some r => exact sendStage_eq response r.2.1 _ r.1 snk r.2.2

/-! ## When the return value tells -/

def responseChunks (response : FcgiResponse) : List Bytes :=
  match response.headers with
  | some headers => headerChunks headers
  | none => []

def responseLength (response : FcgiResponse) (length₀ block : Nat) : Nat :=
  let length := if response.headers.isSome then block else length₀
  match response.data with
  | some data => (length + data.len) % 2 ^ 64
  | none => length

def completeOps (response : FcgiResponse) (length₀ : Nat) : Option (List WriterOp) :=
  let block := (responseChunks response).flatten
  responseOps response.request.requestId response.data ⟨block, block.length, block.length⟩
    (responseLength response length₀ block.length)

/-- The header buffer or the writer is refused, or else every append is granted its memory
and no hard error comes up in the writes and the flush. -/
def unharmed (response : FcgiResponse) (length₀ : Nat) (events : List SinkEvent) (m : Heap) :
    Bool :=
  match efBufferNew bufferSize m with
  | (none, _) => true
  | (some header, m) =>
      let st := ((responseChunks response).map List.length).foldl AppendState.append
        ⟨header.cap, header.len, m, true⟩
      match efBioWriterNew bufferSize st.heap with
      | (none, _) => true
      | (some writer, _) =>
          st.granted && (completeOps response length₀).any
            (unbroken writer.buffer.cap writer.buffer.len events)

theorem responseOps_compact (requestId : UInt16) (data : Option EfBuffer) (header : EfBuffer)
    (length : Nat) :
    responseOps requestId (data.map EfBuffer.compact) header.compact length =
      responseOps requestId data header length := by
  have hlist : header.compact :: (data.map EfBuffer.compact).toList =
      (header :: data.toList).map EfBuffer.compact := by
    cases data <;> rfl
  unfold responseOps
  rw [hlist]
  dsimp only
  rw [stdoutWrites_compact]

/-- Only the bytes in use of the header buffer matter. -/
theorem responseOps_content (requestId : UInt16) (data : Option EfBuffer) {header header' : EfBuffer}
    (hlen : header.len = header'.len) (hcontent : header.content = header'.content)
    (length : Nat) :
    responseOps requestId data header length = responseOps requestId data header' length := by
  rw [← responseOps_compact requestId data header, ← responseOps_compact requestId data header']
  simp only [EfBuffer.compact, hlen, hcontent]

theorem responseOps_some (requestId : UInt16) (data : Option EfBuffer) (header : EfBuffer)
    (length : Nat) : ∃ ws, responseOps requestId data header length = some (ws ++ [.flush]) := by
  have hbufs : (header :: data.toList).length < 3 := by
    cases data <;> simp
  obtain ⟨ws, hws⟩ := stdoutWrites_some (responseHeader requestId) (length + 1) length 0
    (fun _ _ => Nat.zero_le _) hbufs (Nat.lt_succ_self length)
  exact ⟨_, by rw [responseOps, hws]; rfl⟩

theorem headerStage_spec {response : FcgiResponse}
    (hheaders : ∀ headers ∈ response.headers, headers.Wf) (length₀ : Nat) {header : EfBuffer}
    (wf : header.Wf) (hempty : header.content = []) (m : Heap) :
    ∃ rets header' m', headerStage response length₀ header m =
        some (rets, header', (if response.headers.isSome then header'.len else length₀), m') ∧
      header'.Wf ∧
      ((∀ ret ∈ rets, 0 ≤ ret) → header'.content = (responseChunks response).flatten) ∧
      ∃ granted, ((responseChunks response).map List.length).foldl AppendState.append
          ⟨header.cap, header.len, m, true⟩ = ⟨header'.cap, header'.len, m', granted⟩ ∧
        (granted = true ↔ ∀ ret ∈ rets, 0 ≤ ret) := by
  unfold headerStage responseChunks
  cases hresponse : response.headers with
  | none => exact ⟨[], header, m, rfl, wf, fun _ => hempty, true, rfl, by simp⟩
  | some headers =>
      obtain ⟨rets, header', m', he, hcontent, granted, hstate, wf', hiff⟩ :=
        wf.appendAll_spec (headerChunks_length (hheaders headers hresponse)) m true
      rw [hempty, List.nil_append] at hcontent
      exact ⟨rets, header', m', by simp [he], wf', hcontent, granted, hstate, by simpa using hiff⟩

/-- The call reports every failure inside it if and only if nothing fails behind the two
allocations it looks at. Then, if it returns 0, the whole response has been accepted. -/
theorem fcgi_write_response_reports {response : FcgiResponse}
    (hheaders : ∀ headers ∈ response.headers, headers.Wf) (length₀ : Nat) (snk : Sink) (m : Heap) :
    ∃ ret rets snk' m',
      fcgiWriteResponseCalls response length₀ snk m = some (ret, rets, snk', m') ∧
      fcgiWriteResponse response length₀ snk m = some (ret, snk', m') ∧
      (((∃ r ∈ rets, r < 0) → ret < 0) ↔ unharmed response length₀ snk.events m = true) ∧
      (unharmed response length₀ snk.events m = true → ret = 0 →
        ∃ ops, completeOps response length₀ = some ops ∧
          snk'.accepted = snk.accepted ++ ops.flatMap WriterOp.bytes) := by
  rw [fcgiWriteResponse_eq]
  have hbuf := @efBufferNew_some bufferSize m
  unfold fcgiWriteResponseCalls unharmed
  generalize efBufferNew bufferSize m = r at hbuf ⊢
  obtain ⟨_ | header₀, m₁⟩ := r
  · exact ⟨-1, [], snk, m₁, rfl, rfl, by simp, fun _ h => absurd h (by decide)⟩
  obtain ⟨rfl, hlt⟩ := hbuf rfl
  obtain ⟨appends, header, m₂, he, wf, hcontent, granted, hstate, hgranted⟩ :=
    headerStage_spec hheaders length₀ (EfBuffer.fresh_wf hlt) (by simp [EfBuffer.content,
      EfBuffer.fresh]) m₁
  dsimp only at hstate ⊢
  rw [he, hstate]
  simp only [Option.bind_eq_bind, Option.bind_some]
  have hwriter := @efBioWriterNew_some bufferSize m₂
  generalize efBioWriterNew bufferSize m₂ = r at hwriter ⊢
  obtain ⟨_ | writer, m₃⟩ := r
  · exact ⟨-1, appends, snk, m₃, rfl, rfl, by simp, fun _ h => absurd h (by decide)⟩
  obtain ⟨rfl, hwf⟩ := hwriter rfl
  have hlength : (match response.data with
      | some data =>
          ((if response.headers.isSome then header.len else length₀) + data.len) % 2 ^ 64
      | none => if response.headers.isSome then header.len else length₀) =
      responseLength response length₀ header.len := rfl
  obtain ⟨ws, hops⟩ := responseOps_some response.request.requestId response.data header
    (responseLength response length₀ header.len)
  obtain ⟨writes, writer', snk', hrun, hunbroken⟩ := hwf.run_unbroken (ws ++ [.flush]) snk m₃
  obtain ⟨_, _, _, hrun', _, _, hwritten⟩ := hwf.run_spec (ws ++ [.flush]) snk m₃
  rw [hrun] at hrun'
  cases hrun'
  -- the header block is whole when the appends have succeeded
  have hcomplete : granted = true → completeOps response length₀ = some (ws ++ [.flush]) := by
    intro hg
    have hblock := hcontent (hgranted.mp hg)
    have hlen := wf.length_content
    rw [hblock] at hlen
    unfold completeOps
    dsimp only
    rw [hlen, ← hops]
    have hsame : (⟨(responseChunks response).flatten, header.len, header.len⟩ : EfBuffer).content =
        header.content := by
      rw [hblock, EfBuffer.content, List.take_of_length_le (Nat.le_of_eq hlen)]
    exact responseOps_content _ _ (by rfl) hsame _
  have hiff : (((∃ r ∈ appends ++ writes, r < 0) → (0 : Int) < 0) ↔
      granted = true ∧ (completeOps response length₀).any
        (unbroken (BioWriter.ofSize bufferSize).buffer.cap
          (BioWriter.ofSize bufferSize).buffer.len snk.events) = true) := by
    have hnone : ((∃ r ∈ appends ++ writes, r < 0) → (0 : Int) < 0) ↔
        (∀ r ∈ appends, 0 ≤ r) ∧ ∀ r ∈ writes, 0 ≤ r := by
      rw [← List.forall_mem_append]
      constructor
      · intro h r hr
        by_contra hneg
        exact absurd (h ⟨r, hr, by omega⟩) (Int.lt_irrefl 0)
      · rintro h ⟨r, hr, hneg⟩
        exact absurd (h r hr) (by omega)
    rw [hnone, ← hgranted, hunbroken]
    refine and_congr_right (fun hg => ?_)
    rw [hcomplete hg]
    rfl
  refine ⟨0, appends ++ writes, snk', m₃, ?_, ?_, ?_, ?_⟩
  · dsimp only
    rw [hlength, hops, Option.bind_some, hrun]
    rfl
  · dsimp only
    rw [hlength, hops, Option.bind_some, hrun]
    rfl
  · rw [Bool.and_eq_true]
    exact hiff
  · intro h _
    rw [Bool.and_eq_true] at h
    have hall := hiff.mpr h
    refine ⟨ws ++ [.flush], hcomplete h.1, ?_⟩
    have hwrites : ∀ r ∈ writes, 0 ≤ r := by
      intro r hr
      by_contra hneg
      exact absurd (hall ⟨r, List.mem_append_right _ hr, by omega⟩) (Int.lt_irrefl 0)
    obtain ⟨hw, hempty⟩ := hwritten hwrites
    rw [BioWriter.ofSize_written, BioWriter.written,
      BioWriter.content_eq_nil (hempty (by simp)), List.append_nil] at hw
    exact hw

/-- A response without header lines, cut by the descriptor, in which nothing fails. -/
theorem fcgi_write_response_reports_short :
    ∃ ret rets snk' m',
      fcgiWriteResponseCalls ⟨⟨1, 1, 0, none, none⟩,
        some ⟨8, hashSizemask 8, 0, 0, nil32, true, List.replicate 8 nil32,
          List.replicate 8 (Bucket.zero _)⟩, some ⟨[1, 2, 3], 3, 3⟩⟩ 0
        ⟨[], [.accept 3, .fail eintr]⟩ ⟨[], 0, 0⟩ = some (ret, rets, snk', m') ∧
      ((∃ r ∈ rets, r < 0) → ret < 0) := by
  have hnew : fcgiNewResponse ⟨1, 1, 0, none, none⟩ ⟨[], 0, 0⟩ =
      (some ⟨⟨1, 1, 0, none, none⟩,
        some ⟨8, hashSizemask 8, 0, 0, nil32, true, List.replicate 8 nil32,
          List.replicate 8 (Bucket.zero _)⟩, some (EfBuffer.fresh 0)⟩, ⟨[], 4, 0⟩) := rfl
  obtain ⟨_, new, hsome, wf, _⟩ := fcgiNewResponse_some hnew
  have hheaders : ∀ headers ∈ (some ⟨8, hashSizemask 8, 0, 0, nil32, true, List.replicate 8 nil32,
      List.replicate 8 (Bucket.zero _)⟩ : Option Headertab), headers.Wf := by
    intro headers hmem
    obtain rfl := Option.some.inj (hsome.symm.trans hmem)
    exact wf
  obtain ⟨ret, rets, snk', m', he, _, hiff, _⟩ := @fcgi_write_response_reports
    ⟨⟨1, 1, 0, none, none⟩, _, some ⟨[1, 2, 3], 3, 3⟩⟩ hheaders 0
    ⟨[], [.accept 3, .fail eintr]⟩ ⟨[], 0, 0⟩
  exact ⟨ret, rets, snk', m', he, hiff.mpr (by decide +kernel)⟩

/-- The flush at the end fails, nothing has been sent, and the call returns 0. -/
theorem fcgi_write_response_reports_silent :
    ∃ rets snk' m',
      fcgiWriteResponseCalls ⟨⟨1, 1, 0, none, none⟩,
        some ⟨8, hashSizemask 8, 0, 0, nil32, true, List.replicate 8 nil32,
          List.replicate 8 (Bucket.zero _)⟩, some ⟨[1, 2, 3], 3, 3⟩⟩ 0
        ⟨[], [.fail 32]⟩ ⟨[], 0, 0⟩ = some (0, rets, snk', m') ∧
      fcgiWriteResponse ⟨⟨1, 1, 0, none, none⟩,
        some ⟨8, hashSizemask 8, 0, 0, nil32, true, List.replicate 8 nil32,
          List.replicate 8 (Bucket.zero _)⟩, some ⟨[1, 2, 3], 3, 3⟩⟩ 0
        ⟨[], [.fail 32]⟩ ⟨[], 0, 0⟩ = some (0, snk', m') ∧
      (∃ r ∈ rets, r < 0) ∧ snk'.accepted = [] := by
  have hrun : (fcgiWriteResponseCalls ⟨⟨1, 1, 0, none, none⟩,
        some ⟨8, hashSizemask 8, 0, 0, nil32, true, List.replicate 8 nil32,
          List.replicate 8 (Bucket.zero _)⟩, some ⟨[1, 2, 3], 3, 3⟩⟩ 0
        ⟨[], [.fail 32]⟩ ⟨[], 0, 0⟩).map (fun r => (r.1, r.2.1.any (fun ret => decide (ret < 0)),
          r.2.2.1.accepted)) = some (0, true, []) := by
    decide +kernel
  obtain ⟨⟨ret, rets, snk', m'⟩, he, hout⟩ := Option.map_eq_some_iff.mp hrun
  obtain ⟨rfl, hout⟩ := Prod.mk.inj hout
  obtain ⟨hany, hacc⟩ := Prod.mk.inj hout
  obtain ⟨r, hr, hneg⟩ := List.any_eq_true.mp hany
  exact ⟨rets, snk', m', he, by rw [fcgiWriteResponse_eq, he]; rfl,
    ⟨r, hr, of_decide_eq_true hneg⟩, hacc⟩

end EFramework
