import EFramework.FastCGI.Request

/-! # The opening of a call

Before it allocates the request, a call makes a reader and reads the
`FCGI_BEGIN_REQUEST` record. Here this part is described on the stream behind the
reader, and the uninitialised locals that it or the rest of the call uses are
followed to their end.
-/

namespace EFramework

theorem toSize_natCast {n : Nat} (h : n < 2 ^ 64) : toSize (n : Int) = n := by
  unfold toSize
  omega

/-! ## The reader of a call -/

structure BioReader.At (reader : BioReader) (s : Stream) : Prop where
  wf : reader.Wf
  cap : reader.buffer.cap = bufferSize
  unread : reader.unread = s.held

namespace BioReader.At

variable {reader : BioReader} {s : Stream}

theorem stream_eq (h : reader.At s) : reader.stream s.src = s := by
  obtain ⟨held, src⟩ := s
  rw [BioReader.stream, h.unread]

theorem read (h : reader.At s) (n : Nat) :
    ∃ reader', efBioRead reader n s.src =
        some ((s.read bufferSize n).1, (s.read bufferSize n).2.1, reader',
          (s.read bufferSize n).2.2.src) ∧
      reader'.At (s.read bufferSize n).2.2 := by
  obtain ⟨reader', src', he, wf', hcap', hs'⟩ := h.wf.read_spec n s.src
  rw [h.stream_eq, h.cap] at he hs'
  refine ⟨reader', he.trans ?_, ⟨wf', hcap'.trans h.cap, ?_⟩⟩
  · rw [← hs']
    rfl
  · rw [← hs']
    rfl

end BioReader.At

theorem BioReader.ofSize_at (src : Source) : (BioReader.ofSize bufferSize).At ⟨[], src⟩ :=
  ⟨(BioReader.ofSize_fresh bufferSize).wf, by decide,
    by simpa [BioReader.stream] using (BioReader.ofSize_fresh bufferSize).stream_eq src⟩

/-! ## The opening -/

def opening (slots : Slots) (s : Stream) : Option (Bytes × Bytes × Stream) :=
  let (ret, stored, s) := s.read bufferSize 8
  let hdr := writeAt slots.hdr 0 stored
  let fcgiHdr := FcgiHeader.ofBytes hdr
  if toSize ret < 8 ∨ fcgiHdr.version ≠ 1 ∨ fcgiHdr.type ≠ fcgiBeginRequest ∨
      fcgiHdr.contentLength ≠ 8 then none
  else
    let (ret, stored, s) := s.read bufferSize 8
    if toSize ret < 8 then none else some (hdr, writeAt slots.bgReq 0 stored, s)

def requestOf (hdr bgReq : Bytes) : FcgiRequest :=
  { requestId := UInt16.ofNat (FcgiHeader.ofBytes hdr).requestId
    role := UInt16.ofNat (makeUint16 (bgReq.getD 1 0) (bgReq.getD 0 0))
    flags := bgReq.getD 2 0
    params := none, data := none }

/-- A call finds no memory, or returns the slot of `request`, or goes on to the
other records. -/
theorem fcgiReadRequest_cases (slots : Slots) (src : Source) (w : World EfString) :
    (((efBioReaderNew bufferSize w.heap).1 = none ∨
        (efBioReaderNew bufferSize w.heap).2.malloc.1 = false) ∧
      ∃ src' m, fcgiReadRequest slots src w = some (.returned none, src', { w with heap := m }) ∧
        w.heap.failures < m.failures) ∨
    (opening slots ⟨[], src⟩ = none ∧ ∃ src' m, fcgiReadRequest slots src w =
        some (if slots.request then .stale else .returned none, src', { w with heap := m }) ∧
      w.heap.failures ≤ m.failures) ∨
    ∃ hdr bgReq s reader m, opening slots ⟨[], src⟩ = some (hdr, bgReq, s) ∧ reader.At s ∧
      fcgiReadRequest slots src w = readRecords (requestOf hdr bgReq) hdr
        (if slots.buffer then .stale else .null) reader s.src { w with heap := m } ∧
      w.heap.failures ≤ m.failures := by
  have hnew := @efBioReaderNew_some bufferSize w.heap
  obtain ⟨hle, hok⟩ := efBioReaderNew_failures bufferSize w.heap
  unfold fcgiReadRequest
  generalize efBioReaderNew bufferSize w.heap = r at hnew hle hok ⊢
  obtain ⟨_ | reader, m⟩ := r
  · exact Or.inl ⟨Or.inl rfl, src, m, rfl,
      Nat.lt_of_le_of_ne hle (fun h => by simpa using hok h.symm)⟩
  obtain rfl := hnew rfl
  obtain ⟨reader₁, he₁, h₁⟩ := (BioReader.ofSize_at src).read 8
  obtain ⟨reader₂, he₂, h₂⟩ := h₁.read 8
  unfold opening
  simp only [he₁, Option.bind_eq_bind, Option.bind_some]
  split
  · exact Or.inr (Or.inl ⟨rfl, _, m, rfl, hle⟩)
  simp only [he₂, Option.bind_some]
  split
  · exact Or.inr (Or.inl ⟨rfl, _, m, rfl, hle⟩)
  have hfail := m.request_failures true
  cases hm : m.malloc.1 with
  | false =>
      refine Or.inl ⟨Or.inr rfl, _, m.malloc.2, if_neg Bool.false_ne_true, ?_⟩
      rw [Heap.malloc] at hm ⊢
      rw [hm, if_neg Bool.false_ne_true] at hfail
      dsimp only at hle
      omega
  | true =>
      refine Or.inr (Or.inr ⟨_, _, _, reader₂, m.malloc.2, rfl, h₂, if_pos rfl, ?_⟩)
      exact Nat.le_trans hle (m.failures_le_request true)

/-! ## The first round of a loop -/

section Loop

variable {reader : BioReader} {s : Stream}

/-- A short header ends a loop, whatever the buffer is. -/
theorem recordLoop_short (h : reader.At s) (hshort : toSize (s.read bufferSize 8).1 < 8)
    (type : UInt8) (newLen : Nat → Nat → Nat) (fuel : Nat) (hdr : Bytes) (buffer : BufferPtr)
    (m : Heap) :
    ∃ reader' src', recordLoop type newLen (fuel + 1) hdr buffer reader s.src m =
      some (.exitRequest, reader', src', m) := by
  obtain ⟨reader', he, _⟩ := h.read 8
  refine ⟨reader', (s.read bufferSize 8).2.2.src, ?_⟩
  rw [recordLoop]
  simp only [he, Option.bind_eq_bind, Option.bind_some, if_pos hshort]
  rfl

/-- A stale buffer is used in the first round, or kept. -/
theorem recordLoop_stale (h : reader.At s) (hlong : ¬ toSize (s.read bufferSize 8).1 < 8)
    (type : UInt8) (newLen : Nat → Nat → Nat) (fuel : Nat) (hdr : Bytes) (m : Heap) :
    ∃ exit reader' src' m', recordLoop type newLen (fuel + 1) hdr .stale reader s.src m =
        some (exit, reader', src', m') ∧
      (exit = .undefined ∨ ∃ hdr', exit = .goOn (hdr', .stale)) := by
  obtain ⟨reader', he, _⟩ := h.read 8
  rw [recordLoop]
  simp only [he, Option.bind_eq_bind, Option.bind_some, if_neg hlong]
  split
  · exact ⟨_, _, _, _, rfl, Or.inr ⟨_, rfl⟩⟩
  · exact ⟨_, _, _, _, rfl, Or.inl rfl⟩

variable (request : FcgiRequest) (hdr : Bytes) (w : World EfString)

theorem readRecords_short (h : reader.At s) (hshort : toSize (s.read bufferSize 8).1 < 8)
    (buffer : BufferPtr) :
    ∃ src' w', readRecords request hdr buffer reader s.src w = some (.returned none, src', w') := by
  obtain ⟨reader', src', he⟩ := recordLoop_short h hshort fcgiParams
    (fun len reads => (len + reads) % 2 ^ 64)
    (reader.buffer.len - reader.offset + s.src.payload.length + s.src.length) hdr buffer
    (efStringtabNew 0 w.heap).2
  refine ⟨src', { w with heap := (efStringtabNew 0 w.heap).2 }, ?_⟩
  unfold readRecords paramsLoop loopFuel
  simp only [he, Option.bind_eq_bind, Option.bind_some]
  rfl

theorem readRecords_stale (h : reader.At s) (hlong : ¬ toSize (s.read bufferSize 8).1 < 8) :
    ∃ src' w', readRecords request hdr .stale reader s.src w = some (.undefined, src', w') := by
  obtain ⟨exit, reader', src', m', he, hexit⟩ := recordLoop_stale h hlong fcgiParams
    (fun len reads => (len + reads) % 2 ^ 64)
    (reader.buffer.len - reader.offset + s.src.payload.length + s.src.length) hdr
    (efStringtabNew 0 w.heap).2
  unfold readRecords paramsLoop loopFuel
  simp only [he, Option.bind_eq_bind, Option.bind_some]
  rcases hexit with rfl | ⟨hdr', rfl⟩
  · exact ⟨_, _, rfl⟩
  · exact ⟨_, _, rfl⟩

end Loop

/-- A call whose slot of `buffer` is not NULL returns no request. -/
theorem fcgiReadRequest_stale {slots : Slots} (hbuf : slots.buffer = true) (src : Source)
    (w : World EfString) :
    ∃ res src' w', fcgiReadRequest slots src w = some (res, src', w') ∧
      ∀ r, res ≠ .returned (some r) := by
  rcases fcgiReadRequest_cases slots src w with ⟨_, src', m, he, _⟩ | ⟨_, src', m, he, _⟩ |
    ⟨hdr, bgReq, s, reader, m, _, h, he, _⟩
  · exact ⟨_, src', _, he, by rintro r ⟨⟩⟩
  · refine ⟨_, src', _, he, ?_⟩
    split <;> rintro r ⟨⟩
  · rw [he, if_pos hbuf]
    by_cases hshort : toSize (s.read bufferSize 8).1 < 8
    · obtain ⟨src', w', he'⟩ := readRecords_short (requestOf hdr bgReq) hdr { w with heap := m } h
        hshort .stale
      exact ⟨_, src', w', he', by rintro r ⟨⟩⟩
    · obtain ⟨src', w', he'⟩ := readRecords_stale (requestOf hdr bgReq) hdr { w with heap := m } h
        hshort
      exact ⟨_, src', w', he', by rintro r ⟨⟩⟩

end EFramework
