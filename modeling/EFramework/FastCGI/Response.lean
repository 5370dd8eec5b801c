import EFramework.FastCGI.Protocol
import EFramework.Structure.BufferIO.Writer

/-! # Writing a FastCGI response

`fcgi_write_response` collects the header block in a buffer of its own and cuts
that buffer and the data buffer, one after the other, into `FCGI_STDOUT` records.
The proofs follow the two kinds of steps: appends to the header buffer, which
count the bytes as long as no allocation fails, and writes through the buffered
writer, which always add their bytes when the descriptor has no hard error.
-/

namespace EFramework

def fcgiNewResponse (request : FcgiRequest) (m : Heap) : Option FcgiResponse × Heap :=
  let (ok, m) := m.malloc
  if ok then
    match efBufferNew 0 m with
    | (none, m) => (none, m)
    | (some data, m) =>
        match efHeadertabNew 0 m with
        | (none, m) => (none, m)
        | (some headers, m) => (some ⟨request, some headers, some data⟩, m)
  else (none, m)

/-! ## The header block -/

def colonSpace : Bytes := [58, 32]

/-- An append whose return value is not looked at. -/
def appendTo (st : EfBuffer × Heap) (data : Bytes) : Option (EfBuffer × Heap) := do
  let (_, buf, m) ← efBufferAppend st.1 data st.2
  pure (buf, m)

def appendHeader (key : EfString) (st : EfBuffer × Heap) (str : EfString) :
    Option (EfBuffer × Heap) := do
  let st ← appendTo st key.str
  let st ← appendTo st colonSpace
  let st ← appendTo st str.str
  appendTo st crlf

def appendBucket (st : EfBuffer × Heap) (pb : Bucket (EfVector EfString)) :
    Option (EfBuffer × Heap) :=
  match pb.key, pb.val with
  | some key, some vec => vec.items.foldlM (appendHeader key) st
  | _, _ => some st

def appendHeaders (headers : Headertab) (st : EfBuffer × Heap) : Option (EfBuffer × Heap) := do
  let st ← (headers.arrData.take headers.cap).foldlM appendBucket st
  appendTo st crlf

/-! ## Records -/

structure BioOut where
  writer : BioWriter
  snk : Sink
  heap : Heap
deriving Repr, DecidableEq

/-- A write whose return value is not looked at. -/
def BioOut.write (out : BioOut) (buf : Bytes) : Option BioOut := do
  let (_, writer, snk, heap) ← efBioWrite out.writer buf out.snk out.heap
  pure ⟨writer, snk, heap⟩

/-- The code at label `next_buf`. The buffers from `*pbuf` up to the first NULL are
a list; the flag is false when `break` was taken at its end. -/
def nextBuf (paddingLength : UInt8) :
    Nat → Nat → Nat → List EfBuffer → BioOut → Option (Bool × Nat × List EfBuffer × BioOut)
  | 0, _, _, _, _ => none
  | _ + 1, _, offset, [], out => some (false, offset, [], out)
  | fuel + 1, pksz, offset, buffer :: next, out => do
      let wtsz := buffer.len - offset
      let wtsz := if pksz < wtsz then pksz else wtsz
      let out ← out.write ((buffer.ptr.drop offset).take wtsz)
      let offset := offset + wtsz
      let pksz := pksz - wtsz
      let (offset, pbuf) := if offset = buffer.len then (0, next) else (offset, buffer :: next)
      if pksz ≠ 0 then nextBuf paddingLength fuel pksz offset pbuf out
      else if paddingLength ≠ 0 then
        let out ← out.write (List.replicate paddingLength.toNat 0)
        pure (true, offset, pbuf, out)
      else pure (true, offset, pbuf, out)

/-- The `while (length)`; `hdr` has the fields that do not change. -/
def stdoutLoop (hdr : FcgiHeader) : Nat → Nat → Nat → List EfBuffer → BioOut → Option BioOut
  | 0, _, _, _, _ => none
  | fuel + 1, length, offset, pbuf, out =>
      if length ≠ 0 then do
        let pksz := if length ≤ 65535 then length else 65535
        let filled := { hdr with
          contentLengthB1 := UInt8.ofNat (pksz >>> 8)
          contentLengthB0 := UInt8.ofNat (pksz &&& 0xff)
          paddingLength := UInt8.ofNat ((8 - pksz % 8) &&& 7) }
        let out ← out.write filled.bytes
        let (more, offset, pbuf, out) ← nextBuf filled.paddingLength 3 pksz offset pbuf out
        if more then stdoutLoop hdr fuel (length - pksz) offset pbuf out else pure out
      else some out

/-- The fields of `fcgi_hdr` that are set once. -/
def responseHeader (requestId : UInt16) : FcgiHeader :=
  { version := 1, type := fcgiStdout
    requestIdB1 := UInt8.ofNat (requestId.toNat >>> 8)
    requestIdB0 := UInt8.ofNat (requestId.toNat &&& 0xff)
    contentLengthB1 := 0, contentLengthB0 := 0, paddingLength := 0, reserved := 0 }

/-- `length₀` is what the uninitialised `length` holds. -/
def fcgiWriteResponse (response : FcgiResponse) (length₀ : Nat) (snk : Sink) (m : Heap) :
    Option (Int × Sink × Heap) :=
  match efBufferNew bufferSize m with
  | (none, m) => some (-1, snk, m)
  | (some header, m) => do
      let (header, length, m) ←
        match response.headers with
        | some headers => do
            let (header, m) ← appendHeaders headers (header, m)
            pure (header, header.len, m)
        | none => pure (header, length₀, m)
      let length :=
        match response.data with
        | some data => (length + data.len) % 2 ^ 64
        | none => length
      match efBioWriterNew bufferSize m with
      | (none, m) => pure (-1, snk, m)
      | (some writer, m) => do
          let hdr := responseHeader response.request.requestId
          let out ← stdoutLoop hdr (length + 1) length 0 (header :: response.data.toList)
            ⟨writer, snk, m⟩
          let out ← out.write { hdr with
            type := fcgiEndRequest, contentLengthB1 := 0, contentLengthB0 := 8,
            paddingLength := 0 }.bytes
          let out ← out.write (List.replicate 8 0)
          let (_, _, snk) ← efBioWriterFlush out.writer out.snk
          pure (0, snk, out.heap)

/-! ## What the appends do -/

/-- The outcome of a step that appends `bs` unless an allocation fails. -/
def Appended (st : EfBuffer × Heap) (bs : Bytes) (r : Option (EfBuffer × Heap)) : Prop :=
  ∃ st', r = some st' ∧ st'.1.Wf ∧ st.2.failures ≤ st'.2.failures ∧
    (st'.2.failures = st.2.failures → st'.1.content = st.1.content ++ bs)

namespace Appended

variable {st : EfBuffer × Heap} {bs cs : Bytes} {r : Option (EfBuffer × Heap)}

theorem pure (wf : st.1.Wf) : Appended st [] (some st) :=
  ⟨st, rfl, wf, Nat.le_refl _, fun _ => by simp⟩

theorem bind (h : Appended st bs r) {f : EfBuffer × Heap → Option (EfBuffer × Heap)}
    (hf : ∀ st', st'.1.Wf → Appended st' cs (f st')) : Appended st (bs ++ cs) (r >>= f) := by
  obtain ⟨st₁, rfl, wf₁, hle₁, hc₁⟩ := h
  obtain ⟨st₂, he, wf₂, hle₂, hc₂⟩ := hf st₁ wf₁
  refine ⟨st₂, he, wf₂, by omega, fun h => ?_⟩
  rw [hc₂ (by omega), hc₁ (by omega), List.append_assoc]

theorem foldlM {γ : Type} {f : EfBuffer × Heap → γ → Option (EfBuffer × Heap)} {g : γ → Bytes}
    {l : List γ} (wf : st.1.Wf)
    (hf : ∀ x ∈ l, ∀ st', st'.1.Wf → Appended st' (g x) (f st' x)) :
    Appended st (l.flatMap g) (l.foldlM f st) := by
  induction l generalizing st with
  | nil => exact pure wf
  | cons x l ih =>
      rw [List.flatMap_cons, List.foldlM_cons]
      exact (hf x (by simp) st wf).bind
        (fun st' wf' => ih wf' (fun y hy => hf y (List.mem_cons_of_mem x hy)))

end Appended

theorem appendTo_appended {st : EfBuffer × Heap} (wf : st.1.Wf) {data : Bytes}
    (hdata : data.length < 2 ^ 63) : Appended st data (appendTo st data) := by
  obtain ⟨ret, buf', m', he, hle, hcase⟩ := wf.append_spec (Nat.le_of_lt hdata) st.2
  refine ⟨(buf', m'), by simp [appendTo, he], ?_, hle, fun h => ?_⟩
  · rcases hcase with ⟨_, wf', _⟩ | ⟨_, rfl, _⟩
    · exact wf'
    · exact wf
  · rcases hcase with ⟨_, _, hc, _⟩ | ⟨_, _, hne⟩
    · exact hc
    · exact absurd h hne

def headerLine (key str : EfString) : Bytes := key.str ++ (colonSpace ++ (str.str ++ crlf))

def headerLines (pb : Bucket (EfVector EfString)) : Bytes :=
  match pb.key, pb.val with
  | some key, some vec => vec.items.flatMap (headerLine key)
  | _, _ => []

/-- One line for each value of each live bucket, in bucket order, and an empty line. -/
def headerBlock (headers : Headertab) : Bytes :=
  (headers.arrData.filter (fun pb => pb.Live)).flatMap headerLines ++ crlf

theorem appendHeader_appended {st : EfBuffer × Heap} (wf : st.1.Wf) {key str : EfString}
    (hkey : key.len < 2 ^ 63) (hstr : str.len < 2 ^ 63) :
    Appended st (headerLine key str) (appendHeader key st str) :=
  (appendTo_appended wf hkey).bind fun _ wf₁ =>
    (appendTo_appended wf₁ (show colonSpace.length < 2 ^ 63 by decide)).bind fun _ wf₂ =>
      (appendTo_appended wf₂ hstr).bind fun _ wf₃ =>
        appendTo_appended wf₃ (show crlf.length < 2 ^ 63 by decide)

/-- Dead buckets have no lines. -/
theorem headerBlock_eq {headers : Headertab} (wf : headers.Wf) :
    headerBlock headers = (headers.arrData.take headers.cap).flatMap headerLines ++ crlf := by
  have hlen := wf.table.geometry.data_length
  have hdead : ∀ l : List (Bucket (EfVector EfString)),
      (l.filter (fun pb => pb.Live)).flatMap headerLines = l.flatMap headerLines := by
    intro l
    induction l with
    | nil => rfl
    | cons pb l ih =>
        by_cases hl : pb.Live
        · rw [List.filter_cons_of_pos (by simpa using hl), List.flatMap_cons, List.flatMap_cons, ih]
        · have hkey : pb.key = none := (not_not.mp hl).2
          rw [List.filter_cons_of_neg (by simpa using hl), List.flatMap_cons, ih]
          simp [headerLines, hkey]
  rw [headerBlock, hdead, List.take_of_length_le (by omega)]

theorem appendHeaders_appended {headers : Headertab} (wf : headers.Wf) {st : EfBuffer × Heap}
    (hst : st.1.Wf) : Appended st (headerBlock headers) (appendHeaders headers st) := by
  rw [headerBlock_eq wf]
  refine (Appended.foldlM hst ?_).bind
    (fun _ wf' => appendTo_appended wf' (show crlf.length < 2 ^ 63 by decide))
  intro pb hpb st' wf'
  obtain ⟨i, hi, rfl⟩ := List.getElem_of_mem (List.mem_of_mem_take hpb)
  have hbucket : headers.bucket i = headers.arrData[i] := by
    simp [Hashtable.bucket, List.getD, hi]
  unfold appendBucket headerLines
  rw [← hbucket]
  cases hkey : (headers.bucket i).key with
  | none => exact Appended.pure wf'
  | some key =>
      cases hval : (headers.bucket i).val with
      | none => exact Appended.pure wf'
      | some vec =>
          have hlive : (headers.bucket i).Live := by simp [Bucket.Live, hkey]
          obtain ⟨s, hs, _, hslen⟩ := wf.table.linked.live_key i hlive
          obtain rfl : key = s := Option.some.inj (hkey.symm.trans hs)
          exact Appended.foldlM wf' (fun str hstr st₁ wf₁ => appendHeader_appended wf₁ hslen
            (wf.values key.str vec ⟨i, hlive, hkey, hval⟩ str hstr))

/-! ## What the writes do -/

namespace BioOut

def Ok (out : BioOut) : Prop := out.writer.Wf ∧ out.snk.Clean

def written (out : BioOut) : Bytes := out.writer.written out.snk

/-- `out'` is `out` after `bs` has been written. -/
structure Sent (out : BioOut) (bs : Bytes) (out' : BioOut) : Prop where
  ok : out'.Ok
  heap : out'.heap = out.heap
  written : out'.written = out.written ++ bs

theorem Sent.trans {out out₁ out₂ : BioOut} {bs cs : Bytes} (h₁ : out.Sent bs out₁)
    (h₂ : out₁.Sent cs out₂) : out.Sent (bs ++ cs) out₂ :=
  ⟨h₂.ok, h₂.heap.trans h₁.heap, by rw [h₂.written, h₁.written, List.append_assoc]⟩

theorem Ok.write {out : BioOut} (h : out.Ok) (buf : Bytes) :
    ∃ out', out.write buf = some out' ∧ out.Sent buf out' := by
  obtain ⟨ret, writer', snk', he, wf', _, hw, hclean⟩ := h.1.write_spec buf out.snk out.heap
  obtain ⟨hret, hc'⟩ := hclean h.2
  exact ⟨⟨writer', snk', out.heap⟩, by simp [BioOut.write, he], ⟨wf', hc'⟩, rfl, hw hret⟩

theorem Sent.padding {out out₁ : BioOut} {bs : Bytes} (hs : out.Sent bs out₁) (pad : UInt8)
    (offset : Nat) (pbuf : List EfBuffer) :
    ∃ out', (if pad ≠ 0 then do
        let out ← out₁.write (List.replicate pad.toNat 0)
        pure (true, offset, pbuf, out)
      else pure (true, offset, pbuf, out₁)) = some (true, offset, pbuf, out') ∧
    out.Sent (bs ++ List.replicate pad.toNat 0) out' := by
  by_cases hpad : pad = 0
  · exact ⟨out₁, by simp [hpad], by simpa [hpad] using hs⟩
  · obtain ⟨out', he, hs'⟩ := hs.ok.write (List.replicate pad.toNat 0)
    exact ⟨out', by simp [hpad, he], hs.trans hs'⟩

end BioOut

/-- The bytes from `offset` of the first buffer on. -/
def pending : List EfBuffer → Nat → Bytes
  | [], _ => []
  | buffer :: next, offset => buffer.content.drop offset ++ next.flatMap EfBuffer.content

theorem pending_zero (pbuf : List EfBuffer) : pending pbuf 0 = pbuf.flatMap EfBuffer.content := by
  cases pbuf <;> simp [pending]

/-- `offset` is a place in the first of some well-formed buffers. -/
structure Place (pbuf : List EfBuffer) (offset : Nat) : Prop where
  wf : ∀ buffer ∈ pbuf, buffer.Wf
  offset_le : ∀ buffer ∈ pbuf.head?, offset ≤ buffer.len

theorem Place.next {buffer : EfBuffer} {pbuf : List EfBuffer} {offset : Nat}
    (h : Place (buffer :: pbuf) offset) : Place pbuf 0 :=
  ⟨fun b hb => h.wf b (List.mem_cons_of_mem buffer hb), fun _ _ => Nat.zero_le _⟩

theorem pending_cons {buffer : EfBuffer} (next : List EfBuffer) {offset n k : Nat}
    (hfirst : (buffer.content.drop offset).length = k) (hn : k ≤ n) :
    (pending (buffer :: next) offset).drop n = (pending next 0).drop (n - k) ∧
      (pending (buffer :: next) offset).take n =
        buffer.content.drop offset ++ (pending next 0).take (n - k) := by
  have hsplit : n = (buffer.content.drop offset).length + (n - k) := by omega
  rw [pending, pending_zero, hsplit, List.drop_length_add_append, List.take_length_add_append,
    hfirst, Nat.add_sub_cancel_left]
  exact ⟨rfl, rfl⟩

/-- A record takes its content from the front of the pending bytes and ends with
its padding; the buffers do not run out. -/
theorem nextBuf_spec (pad : UInt8) (pbuf : List EfBuffer) (fuel pksz offset : Nat) (out : BioOut)
    (hp : Place pbuf offset) (hok : out.Ok) (hpos : 0 < pksz)
    (hlen : pksz ≤ (pending pbuf offset).length) (hfuel : pbuf.length ≤ fuel) :
    ∃ offset' pbuf' out', nextBuf pad fuel pksz offset pbuf out =
        some (true, offset', pbuf', out') ∧ Place pbuf' offset' ∧ pbuf'.length ≤ pbuf.length ∧
      pending pbuf' offset' = (pending pbuf offset).drop pksz ∧
      out.Sent ((pending pbuf offset).take pksz ++ List.replicate pad.toNat 0) out' := by
  induction pbuf generalizing fuel pksz offset out with
  | nil =>
      rw [pending, List.length_nil] at hlen
      omega
  | cons buffer next ih =>
      obtain ⟨fuel, rfl⟩ := Nat.exists_eq_add_of_le' (show 1 ≤ fuel by
        rw [List.length_cons] at hfuel
        omega)
      have wf := hp.wf buffer (by simp)
      have hoff := hp.offset_le buffer (by simp)
      have hcontent := wf.length_content
      have htail : (buffer.content.drop offset).length = buffer.len - offset := by
        rw [List.length_drop, hcontent]
      have hpiece : ∀ n, n ≤ buffer.len - offset →
          (buffer.ptr.drop offset).take n = (buffer.content.drop offset).take n := by
        intro n hn
        rw [EfBuffer.content, List.drop_take, List.take_take, Nat.min_eq_left hn]
      rw [nextBuf]
      by_cases hlt : pksz < buffer.len - offset
      · -- the record ends inside this buffer
        obtain ⟨out₁, he, hs⟩ := hok.write ((buffer.content.drop offset).take pksz)
        obtain ⟨out', he', hs'⟩ := hs.padding pad (offset + pksz) (buffer :: next)
        refine ⟨offset + pksz, buffer :: next, out', ?_, ⟨hp.wf, ?_⟩, Nat.le_refl _, ?_, ?_⟩
        · simp only [if_pos hlt, hpiece pksz (by omega), he, Option.bind_eq_bind,
            Option.bind_some, Nat.sub_self, ne_eq, not_true_eq_false, if_false,
            if_neg (show ¬ offset + pksz = buffer.len by omega)]
          exact he'
        · intro b hb
          obtain rfl : buffer = b := by simpa using hb
          omega
        · rw [pending, pending, List.drop_append_of_le_length (by omega), List.drop_drop]
        · rw [pending, List.take_append_of_le_length (by omega)]
          exact hs'
      · -- this buffer is used up
        have hall : (buffer.content.drop offset).take (buffer.len - offset) =
            buffer.content.drop offset := by
          rw [← htail, List.take_length]
        obtain ⟨out₁, he, hs⟩ := hok.write (buffer.content.drop offset)
        obtain ⟨hdrop, htake⟩ := pending_cons next htail (Nat.not_lt.mp hlt)
        simp only [if_neg hlt, hpiece _ (Nat.le_refl _), hall, he, Option.bind_eq_bind,
          Option.bind_some, if_pos (show offset + (buffer.len - offset) = buffer.len by omega)]
        rw [hdrop, htake]
        by_cases hmore : pksz - (buffer.len - offset) = 0
        · obtain ⟨out', he', hs'⟩ := hs.padding pad 0 next
          refine ⟨0, next, out', ?_, hp.next, by simp, by rw [hmore]; rfl, ?_⟩
          · rw [if_neg (by simpa using hmore)]
            exact he'
          · rw [hmore, List.take_zero, List.append_nil]
            exact hs'
        · have hlen' : pksz - (buffer.len - offset) ≤ (pending next 0).length := by
            rw [pending, List.length_append, htail, ← pending_zero] at hlen
            omega
          obtain ⟨offset', pbuf', out', he', hp', hle', hpend, hs'⟩ := ih fuel
            (pksz - (buffer.len - offset)) 0 out₁ hp.next hs.ok (by omega) hlen'
            (by simpa using hfuel)
          refine ⟨offset', pbuf', out', ?_, hp', by rw [List.length_cons]; omega, hpend, ?_⟩
          · rw [if_pos (by simpa using hmore)]
            exact he'
          · rw [List.append_assoc]
            exact hs.trans hs'

/-! ## The record stream -/

structure Record.IsStdout (requestId : Nat) (r : Record) : Prop where
  version : r.version = 1
  type : r.type = fcgiStdout
  requestId : r.requestId = requestId
  content_pos : 1 ≤ r.content.length
  content_le : r.content.length ≤ 65535
  padding : r.padding = List.replicate r.padding.length 0
  padding_lt : r.padding.length < 8
  aligned : (r.content.length + r.padding.length) % 8 = 0

def endRecord (requestId : Nat) : Record :=
  ⟨1, fcgiEndRequest, requestId, List.replicate 8 0, [], 0⟩

def stdoutRecord (requestId : Nat) (content : Bytes) : Record :=
  ⟨1, fcgiStdout, requestId, content, List.replicate ((8 - content.length % 8) &&& 7) 0, 0⟩

theorem padding_eq (n : Nat) : (8 - n % 8) &&& 7 = (8 - n % 8) % 8 :=
  Nat.and_two_pow_sub_one_eq_mod _ 3

theorem stdoutRecord_isStdout (requestId : Nat) {content : Bytes} (hpos : 1 ≤ content.length)
    (hle : content.length ≤ 65535) : (stdoutRecord requestId content).IsStdout requestId := by
  have hpad := padding_eq content.length
  refine ⟨rfl, rfl, rfl, hpos, hle, ?_, ?_, ?_⟩
  · simp [stdoutRecord]
  · simp only [stdoutRecord, List.length_replicate]
    omega
  · simp only [stdoutRecord, List.length_replicate]
    omega

theorem Record.IsStdout.valid {requestId : Nat} {r : Record} (h : r.IsStdout requestId)
    (hid : requestId < 2 ^ 16) : r.Valid :=
  ⟨by rw [h.requestId]; exact hid, Nat.lt_succ_of_le h.content_le,
    Nat.lt_trans h.padding_lt (by decide)⟩

theorem endRecord_valid {requestId : Nat} (hid : requestId < 2 ^ 16) :
    (endRecord requestId).Valid :=
  ⟨hid, by simp [endRecord], by simp [endRecord]⟩

/-- The loop sends the pending bytes, cut into records. -/
theorem stdoutLoop_spec (requestId : UInt16) (fuel length offset : Nat) (pbuf : List EfBuffer)
    (out : BioOut) (hp : Place pbuf offset) (hok : out.Ok) (hbufs : pbuf.length ≤ 3)
    (hlen : length = (pending pbuf offset).length) (hfuel : length < fuel) :
    ∃ out', ∃ body : List Record,
      stdoutLoop (responseHeader requestId) fuel length offset pbuf out = some out' ∧
      out.Sent (body.flatMap Record.encode) out' ∧
      (∀ r ∈ body, r.IsStdout requestId.toNat) ∧
      body.flatMap Record.content = pending pbuf offset := by
  induction fuel generalizing length offset pbuf out with
  | zero => omega
  | succ fuel ih =>
      rw [stdoutLoop]
      by_cases hz : length = 0
      · have hnil : pending pbuf offset = [] := List.eq_nil_of_length_eq_zero (by omega)
        exact ⟨out, [], by simp [hz], ⟨hok, rfl, by simp⟩, by simp, by simp [hnil]⟩
      have hpksz : (if length ≤ 65535 then length else 65535) = min length 65535 := by
        split <;> omega
      rw [if_pos hz, hpksz]
      have hk : 0 < min length 65535 := by omega
      have hkl : min length 65535 ≤ length := by omega
      have hku : min length 65535 ≤ 65535 := by omega
      generalize min length 65535 = pksz at hk hkl hku
      set content := (pending pbuf offset).take pksz with hcontent
      have hclen : content.length = pksz := by
        rw [hcontent, List.length_take]
        omega
      have hpad := padding_eq pksz
      have hr : (stdoutRecord requestId.toNat content).IsStdout requestId.toNat :=
        stdoutRecord_isStdout _ (by omega) (by omega)
      -- the bytes written before and by `next_buf` are the record of `content`
      have hheader : ({ responseHeader requestId with
            contentLengthB1 := UInt8.ofNat (pksz >>> 8)
            contentLengthB0 := UInt8.ofNat (pksz &&& 0xff)
            paddingLength := UInt8.ofNat ((8 - pksz % 8) &&& 7) } : FcgiHeader) =
          (stdoutRecord requestId.toNat content).header := by
        simp [responseHeader, Record.header, stdoutRecord, hclen]
      have hpadding : (UInt8.ofNat ((8 - pksz % 8) &&& 7)).toNat = (8 - pksz % 8) &&& 7 := by
        rw [UInt8.toNat_ofNat']
        omega
      have hencode : (stdoutRecord requestId.toNat content).header.bytes ++
          (content ++ List.replicate (UInt8.ofNat ((8 - pksz % 8) &&& 7)).toNat 0) =
          (stdoutRecord requestId.toNat content).encode := by
        rw [hpadding, ← hclen, Record.encode, List.append_assoc]
        rfl
      obtain ⟨out₁, he₁, hs₁⟩ := hok.write (stdoutRecord requestId.toNat content).header.bytes
      obtain ⟨offset', pbuf', out₂, he₂, hp', hle', hpend, hs₂⟩ :=
        nextBuf_spec (UInt8.ofNat ((8 - pksz % 8) &&& 7)) pbuf 3 pksz offset out₁ hp hs₁.ok hk
          (by omega) hbufs
      have hsent := hs₁.trans hs₂
      rw [hencode] at hsent
      obtain ⟨out', body, he', hs', hbody, hflat⟩ := ih (length - pksz) offset' pbuf' out₂ hp'
        hsent.ok (by omega) (by rw [hpend, List.length_drop]; omega) (by omega)
      refine ⟨out', stdoutRecord requestId.toNat content :: body, ?_, ?_, ?_, ?_⟩
      · simp only [hheader, he₁, he₂, Option.bind_eq_bind, Option.bind_some, if_true]
        exact he'
      · rw [List.flatMap_cons]
        exact hsent.trans hs'
      · intro r hr'
        rcases List.mem_cons.mp hr' with rfl | hr'
        · exact hr
        · exact hbody r hr'
      · rw [List.flatMap_cons, hflat, hpend]
        exact List.take_append_drop pksz _

theorem fcgiNewResponse_some {request : FcgiRequest} {response : FcgiResponse}
    {m m' : Heap} (hnew : fcgiNewResponse request m = (some response, m')) :
    response.request = request ∧
      ∃ new, response.headers = some new ∧ Headertab.Wf new ∧ Headertab.Backed new := by
  unfold fcgiNewResponse at hnew
  dsimp only at hnew
  split at hnew
  next =>
    split at hnew
    next => simp at hnew
    next data m₁ _ =>
      split at hnew
      next => simp at hnew
      next new m₂ hnew' =>
        obtain ⟨hr, _⟩ := Prod.mk.inj hnew
        obtain rfl := Option.some.inj hr
        exact ⟨rfl, new, rfl, efHeadertabNew_wf (by decide) hnew'⟩
  next => simp at hnew

theorem sendRecords_spec (requestId : UInt16) {header data : EfBuffer} (hheader : header.Wf)
    (hdata : data.Wf) {out : BioOut} (hok : out.Ok) (hout : out.written = []) :
    ∃ out₁ out₂ out₃ ret writer snk, ∃ body : List Record,
      stdoutLoop (responseHeader requestId) (header.len + data.len + 1) (header.len + data.len) 0
          [header, data] out = some out₁ ∧
        out₁.write (endRecord requestId.toNat).header.bytes = some out₂ ∧
        out₂.write (endRecord requestId.toNat).content = some out₃ ∧
        efBioWriterFlush out₃.writer out₃.snk = some (ret, writer, snk) ∧
        out₃.heap = out.heap ∧
        Record.parseAll snk.accepted = some (body ++ [endRecord requestId.toNat]) ∧
        (∀ r ∈ body, r.IsStdout requestId.toNat) ∧
        body.flatMap Record.content = header.content ++ data.content := by
  have hp : Place [header, data] 0 := by
    refine ⟨?_, fun _ _ => Nat.zero_le _⟩
    intro b hb
    rcases List.mem_cons.mp hb with rfl | hb
    · exact hheader
    · obtain rfl : b = data := by simpa using hb
      exact hdata
  have hpending : pending [header, data] 0 = header.content ++ data.content := by
    simp [pending]
  have hlen : header.len + data.len = (pending [header, data] 0).length := by
    rw [hpending, List.length_append, hheader.length_content, hdata.length_content]
  obtain ⟨out₁, body, he₁, hs₁, hbody, hflat⟩ := stdoutLoop_spec requestId _ _ 0 [header, data] out
    hp hok (by simp) hlen (Nat.lt_succ_self _)
  obtain ⟨out₂, he₂, hs₂⟩ := hs₁.ok.write (endRecord requestId.toNat).header.bytes
  obtain ⟨out₃, he₃, hs₃⟩ := hs₂.ok.write (endRecord requestId.toNat).content
  obtain ⟨ret, writer, snk, he₄, _, _, hw, hclean⟩ := hs₃.ok.1.flush_spec out₃.snk
  obtain ⟨hwritten, hempty⟩ := hw (hclean hs₃.ok.2).1
  have hsent := (hs₁.trans hs₂).trans hs₃
  have haccepted : snk.accepted =
      (body ++ [endRecord requestId.toNat]).flatMap Record.encode := by
    have hw' := hsent.written
    rw [hout, List.nil_append, BioOut.written, ← hwritten, BioWriter.written,
      BioWriter.content_eq_nil hempty, List.append_nil] at hw'
    rw [hw', List.flatMap_append, List.flatMap_singleton, Record.encode, List.append_assoc]
    simp [endRecord]
  have hid : requestId.toNat < 2 ^ 16 := requestId.toNat_lt
  refine ⟨out₁, out₂, out₃, ret, writer, snk, body, he₁, he₂, he₃, he₄, hsent.heap, ?_, hbody,
    by rw [hflat, hpending]⟩
  rw [haccepted]
  refine Record.parseAll_encode (fun r hr => ?_)
  rcases List.mem_append.mp hr with hr | hr
  · exact (hbody r hr).valid hid
  · obtain rfl : r = endRecord requestId.toNat := by simpa using hr
    exact endRecord_valid hid

theorem writeResponse_spec {response : FcgiResponse} {headers : Headertab} (wf : headers.Wf)
    (hheaders : response.headers = some headers) {data : EfBuffer} (hdata : data.Wf)
    (hresponse : response.data = some data) {events : List SinkEvent}
    (hclean : (⟨[], events⟩ : Sink).Clean) (length₀ : Nat) (m₁ : Heap) :
    ∃ ret snk m₂, fcgiWriteResponse response length₀ ⟨[], events⟩ m₁ = some (ret, snk, m₂) ∧
      (m₂.failures = m₁.failures → ret = 0 ∧ ∃ body : List Record,
        Record.parseAll snk.accepted =
          some (body ++ [endRecord response.request.requestId.toNat]) ∧
        (∀ r ∈ body, r.IsStdout response.request.requestId.toNat) ∧
        body.flatMap Record.content = headerBlock headers ++ data.content) := by
  have hbuf := @efBufferNew_some bufferSize m₁
  obtain ⟨hle₁, hok₁⟩ := efBufferNew_failures bufferSize m₁
  unfold fcgiWriteResponse
  rw [hheaders, hresponse]
  generalize efBufferNew bufferSize m₁ = r at hbuf hle₁ hok₁ ⊢
  obtain ⟨_ | header₀, m₂⟩ := r
  · exact ⟨-1, _, m₂, rfl, fun h => absurd (hok₁ h) (by simp)⟩
  obtain ⟨rfl, hlt⟩ := hbuf rfl
  obtain ⟨⟨header, m₃⟩, he, hheader, hle₂, hcontent⟩ :=
    appendHeaders_appended wf
      (show (EfBuffer.fresh (bufferCap bufferSize), m₂).1.Wf from EfBuffer.fresh_wf hlt)
  have hfresh : (EfBuffer.fresh (bufferCap bufferSize)).content = [] := by
    simp [EfBuffer.content, EfBuffer.fresh]
  rw [hfresh, List.nil_append] at hcontent
  have hsum : (header.len + data.len) % 2 ^ 64 = header.len + data.len := by
    have h₁ := hheader.len_le
    have h₂ := hheader.cap_lt
    have h₃ := hdata.len_le
    have h₄ := hdata.cap_lt
    dsimp only at h₁ h₂
    omega
  dsimp only at hle₁ hok₁ hle₂ hcontent ⊢
  rw [he]
  simp only [Option.bind_eq_bind, Option.bind_some, Option.pure_def, hsum]
  have hwriter := @efBioWriterNew_some bufferSize m₃
  obtain ⟨hle₃, hok₃⟩ := efBioWriterNew_failures bufferSize m₃
  generalize efBioWriterNew bufferSize m₃ = r at hwriter hle₃ hok₃ ⊢
  obtain ⟨_ | writer, m₄⟩ := r
  · dsimp only at hle₃ hok₃ ⊢
    exact ⟨-1, _, m₄, rfl, fun h => absurd (hok₃ (by omega)) (by simp)⟩
  obtain ⟨rfl, hwf⟩ := hwriter rfl
  have hok : (⟨BioWriter.ofSize bufferSize, ⟨[], events⟩, m₄⟩ : BioOut).Ok := ⟨hwf, hclean⟩
  obtain ⟨out₁, out₂, out₃, ret, writer', snk, body, he₁, he₂, he₃, he₄, hheap, hparse, hbody,
    hflat⟩ := sendRecords_spec response.request.requestId hheader hdata hok
      (BioWriter.ofSize_written _ _)
  have hend : ({ responseHeader response.request.requestId with
      type := fcgiEndRequest, contentLengthB1 := 0, contentLengthB0 := 8,
      paddingLength := 0 } : FcgiHeader) =
        (endRecord response.request.requestId.toNat).header := by
    simp [responseHeader, endRecord, Record.header]
  dsimp only at hle₃ hok₃ hheap he₁ ⊢
  refine ⟨0, snk, m₄, ?_, fun h => ⟨rfl, body, hparse, hbody, ?_⟩⟩
  · simp only [Option.toList_some, he₁, Option.bind_some, hend, he₂,
      show List.replicate 8 (0 : UInt8) = (endRecord response.request.requestId.toNat).content
        from rfl, he₃, he₄, hheap]
  · rw [hflat, hcontent (by omega)]

/-- Every response made by `fcgi_new_response`, filled with headers and given a data
buffer, is sent as a sequence of stdout records with the header block and the data
as content, then the record that ends the request. The descriptor may cut the
writes in any way; no allocation made by the call may fail. The filling comes to an end
if no allocation fails in it. -/
theorem fcgi_write_response_frames {request : FcgiRequest} {response : FcgiResponse}
    {m m' : Heap} (hnew : fcgiNewResponse request m = (some response, m'))
    {ops : List HeaderOp} (hops : ∀ op ∈ ops, op.Valid) :
    ∃ new, response.headers = some new ∧
      (FillGranted ops new ⟨m', []⟩ → ∃ headers w, headerRun ops new ⟨m', []⟩ = some (headers, w)) ∧
      ∀ headers w, headerRun ops new ⟨m', []⟩ = some (headers, w) →
        ∀ data : EfBuffer, data.Wf → ∀ events, (⟨[], events⟩ : Sink).Clean → ∀ length₀ m₁,
        ∃ ret snk m₂, fcgiWriteResponse { response with headers := some headers, data := some data }
            length₀ ⟨[], events⟩ m₁ = some (ret, snk, m₂) ∧
          (m₂.failures = m₁.failures → ret = 0 ∧ ∃ body : List Record,
            Record.parseAll snk.accepted = some (body ++ [endRecord request.requestId.toNat]) ∧
            (∀ r ∈ body, r.IsStdout request.requestId.toNat) ∧
            body.flatMap Record.content = headerBlock headers ++ data.content) := by
  obtain ⟨rfl, new, hheaders, wf₀, hbacked⟩ := fcgiNewResponse_some hnew
  obtain ⟨hwf, hruns⟩ := wf₀.run_spec hops ⟨m', []⟩
  refine ⟨new, hheaders, hruns hbacked, ?_⟩
  intro headers w hrun data hdata events hclean length₀ m₁
  exact writeResponse_spec (hwf headers w hrun) rfl hdata rfl hclean length₀ m₁

/-- One header and three bytes of data, with a short write and an interrupt. -/
theorem fcgi_write_response_frames_short :
    ∃ headers snk m, ∃ body : List Record,
      fcgiWriteResponse ⟨⟨1, 1, 0, none, none⟩, some headers, some ⟨[1, 2, 3], 3, 3⟩⟩ 0
        ⟨[], [.accept 3, .fail eintr]⟩ ⟨[], 0, 0⟩ = some (0, snk, m) ∧
      Record.parseAll snk.accepted = some (body ++ [endRecord 1]) ∧
      body.flatMap Record.content = headerBlock headers ++ [1, 2, 3] := by
  have hnew : fcgiNewResponse ⟨1, 1, 0, none, none⟩ ⟨[], 0, 0⟩ =
      (some ⟨⟨1, 1, 0, none, none⟩,
        some ⟨8, hashSizemask 8, 0, 0, nil32, true, List.replicate 8 nil32,
          List.replicate 8 (Bucket.zero _)⟩, some (EfBuffer.fresh 0)⟩, ⟨[], 4, 0⟩) := rfl
  have hops : ∀ op ∈ [HeaderOp.set [97] 1 [98] 1], op.Valid := by
    simp [HeaderOp.Valid]
  have hdata : (⟨[1, 2, 3], 3, 3⟩ : EfBuffer).Wf := ⟨rfl, Nat.le_refl 3, by decide⟩
  have hclean : (⟨[], [.accept 3, .fail eintr]⟩ : Sink).Clean := by
    intro e he
    obtain rfl : e = eintr := by simpa using he
    rfl
  obtain ⟨new, hheaders, _, hwrite⟩ := fcgi_write_response_frames hnew hops
  obtain rfl := Option.some.inj hheaders
  have hruns : (headerRun [HeaderOp.set [97] 1 [98] 1]
      ⟨8, hashSizemask 8, 0, 0, nil32, true, List.replicate 8 nil32,
        List.replicate 8 (Bucket.zero _)⟩ ⟨⟨[], 4, 0⟩, []⟩).isSome = true := by decide +kernel
  obtain ⟨⟨headers, w⟩, hrun⟩ := Option.isSome_iff_exists.mp hruns
  obtain ⟨ret, snk, m, he, hparse⟩ := hwrite headers w hrun _ hdata _ hclean 0 ⟨[], 0, 0⟩
  have hfail : ((headerRun [HeaderOp.set [97] 1 [98] 1]
      ⟨8, hashSizemask 8, 0, 0, nil32, true, List.replicate 8 nil32,
        List.replicate 8 (Bucket.zero _)⟩ ⟨⟨[], 4, 0⟩, []⟩).bind (fun st =>
      fcgiWriteResponse ⟨⟨1, 1, 0, none, none⟩, some st.1, some ⟨[1, 2, 3], 3, 3⟩⟩ 0
        ⟨[], [.accept 3, .fail eintr]⟩ ⟨[], 0, 0⟩)).map (fun r => r.2.2.failures) = some 0 := by
    decide +kernel
  rw [hrun, Option.bind_some, he] at hfail
  obtain ⟨rfl, body, hall, _, hflat⟩ := hparse (Option.some.inj hfail)
  exact ⟨headers, snk, m, body, he, hall, hflat⟩

end EFramework
