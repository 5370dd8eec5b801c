import EFramework.FastCGI.Params
import EFramework.Structure.BufferIO.Reader

/-! # Reading a FastCGI request

`fcgi_read_request` reads one request through a buffered reader of its own. Its
locals `request`, `buffer`, `fcgi_hdr` and `bg_req` are not initialised, so what
the stack held before is a parameter. Return values of `ef_bio_read` are stored in
a `size_t`, where -1 is the largest number.

A run ends by returning a request or NULL, by returning what the slot of `request`
held, or with undefined behaviour: the use of a stale or NULL pointer, or an
access outside a block.
-/

namespace EFramework

def toSize (ret : Int) : Nat := (ret % 2 ^ 64).toNat

/-- What the uninitialised locals hold: whether the two pointers differ from NULL, and
the memory of the two structures. -/
structure Slots where
  request : Bool
  buffer : Bool
  hdr : Bytes
  bgReq : Bytes
deriving Repr, DecidableEq

inductive BufferPtr where
  | null
  | stale
  | block (buf : EfBuffer)
deriving Repr, DecidableEq

inductive ReadResult where
  | returned (request : Option FcgiRequest)
  | stale
  | undefined
deriving Repr, DecidableEq

/-- How a part of the function is left: by going on, by `goto exit_request`, or not at all. -/
inductive Exit (α : Type) where
  | goOn (a : α)
  | exitRequest
  | undefined
deriving Repr, DecidableEq

/-! ## The two record loops -/

def reserveBuffer (buffer : BufferPtr) (length : Nat) (m : Heap) : Exit EfBuffer × Heap :=
  match buffer with
  | .null =>
      match efBufferNew length m with
      | (none, m) => (.exitRequest, m)
      | (some buf, m) => (.goOn buf, m)
  | .stale => (.undefined, m)
  | .block buf =>
      match efBufferExpand buf length m with
      | (ret, buf, m) => if ret < 0 then (.exitRequest, m) else (.goOn buf, m)

/-- The two `while (1)` loops, which differ in the record type they look for and in
what they make of `len` after a read. They are left with the header that stopped
them, and the buffer. -/
def recordLoop (type : UInt8) (newLen : Nat → Nat → Nat) :
    Nat → Bytes → BufferPtr → BioReader → Source → Heap →
      Option (Exit (Bytes × BufferPtr) × BioReader × Source × Heap)
  | 0, _, _, _, _, _ => none
  | fuel + 1, hdr, buffer, reader, src, m => do
      let (ret, stored, reader, src) ← efBioRead reader 8 src
      let hdr := writeAt hdr 0 stored
      let fcgiHdr := FcgiHeader.ofBytes hdr
      if toSize ret < 8 then pure (.exitRequest, reader, src, m)
      else if fcgiHdr.version ≠ 1 ∨ fcgiHdr.type ≠ type ∨ fcgiHdr.contentLength = 0 then
        pure (.goOn (hdr, buffer), reader, src, m)
      else
        let length := fcgiHdr.contentLength
        match reserveBuffer buffer length m with
        | (.exitRequest, m) => pure (.exitRequest, reader, src, m)
        | (.undefined, m) => pure (.undefined, reader, src, m)
        | (.goOn buf, m) =>
            if buf.ptr.length < buf.len + length then pure (.undefined, reader, src, m)
            else do
              let (ret, stored, reader, src) ← efBioRead reader length src
              let reads := toSize ret
              let buf := { buf with
                ptr := writeAt buf.ptr buf.len stored, len := newLen buf.len reads }
              if reads < length then pure (.exitRequest, reader, src, m)
              else if fcgiHdr.paddingLength ≠ 0 then do
                let (_, reader, src) ← efBioReaderSkip reader fcgiHdr.paddingLength.toNat src
                recordLoop type newLen fuel hdr (.block buf) reader src m
              else recordLoop type newLen fuel hdr (.block buf) reader src m

/-- Every round but the last takes something out of the buffer or off the source. -/
def loopFuel (reader : BioReader) (src : Source) : Nat :=
  reader.buffer.len - reader.offset + src.payload.length + src.length + 1

/-- `buffer->len += reads`. -/
def paramsLoop (hdr : Bytes) (buffer : BufferPtr) (reader : BioReader) (src : Source) (m : Heap) :
    Option (Exit (Bytes × BufferPtr) × BioReader × Source × Heap) :=
  recordLoop fcgiParams (fun len reads => (len + reads) % 2 ^ 64) (loopFuel reader src)
    hdr buffer reader src m

/-- The loop over the body, which looks for `FCGI_BEGIN_REQUEST` and sets
`request->data->len = reads`. -/
def stdinLoop (hdr : Bytes) (reader : BioReader) (src : Source) (m : Heap) :
    Option (Exit (Bytes × BufferPtr) × BioReader × Source × Heap) :=
  recordLoop fcgiBeginRequest (fun _ reads => reads) (loopFuel reader src) hdr .null reader src m

/-! ## The function -/

/-- `if (buffer) { fcgi_parse_params(…); … }`. -/
def parseBuffer (params : Option Stringtab) (buffer : BufferPtr) (w : World EfString) :
    Option (Exit (Option Stringtab) × World EfString) :=
  match buffer with
  | .null => some (.goOn params, w)
  | .stale => some (.undefined, w)
  | .block buf =>
      match params with
      | none => some (if buf.len = 0 then .goOn none else .undefined, w)
      | some tbl => do
          let (out, w) ← fcgiParseParams tbl buf.ptr buf.len w
          match out with
          | none => pure (.undefined, w)
          | some tbl => pure (.goOn (some tbl), w)

def readRecords (request : FcgiRequest) (hdr : Bytes) (buffer : BufferPtr) (reader : BioReader)
    (src : Source) (w : World EfString) : Option (ReadResult × Source × World EfString) := do
  let (params, m) := efStringtabNew 0 w.heap
  let (exit, reader, src, m) ← paramsLoop hdr buffer reader src m
  let w := { w with heap := m }
  match exit with
  | .exitRequest => pure (.returned none, src, w)
  | .undefined => pure (.undefined, src, w)
  | .goOn (hdr, buffer) => do
      let (exit, w) ← parseBuffer params buffer w
      match exit with
      | .exitRequest => pure (.returned none, src, w)
      | .undefined => pure (.undefined, src, w)
      | .goOn params => do
          let (exit, _, src, m) ← stdinLoop hdr reader src w.heap
          let w := { w with heap := m }
          match exit with
          | .exitRequest => pure (.returned none, src, w)
          | .undefined => pure (.undefined, src, w)
          | .goOn (_, data) =>
              let data := match data with
                | .block buf => some buf
                | _ => none
              pure (.returned (some { request with params := params, data := data }), src, w)

def fcgiReadRequest (slots : Slots) (src : Source) (w : World EfString) :
    Option (ReadResult × Source × World EfString) :=
  match efBioReaderNew bufferSize w.heap with
  | (none, m) => some (.returned none, src, { w with heap := m })
  | (some reader, m) => do
      let exitRead := if slots.request then ReadResult.stale else .returned none
      let (ret, stored, reader, src) ← efBioRead reader 8 src
      let hdr := writeAt slots.hdr 0 stored
      let fcgiHdr := FcgiHeader.ofBytes hdr
      if toSize ret < 8 ∨ fcgiHdr.version ≠ 1 ∨ fcgiHdr.type ≠ fcgiBeginRequest ∨
          fcgiHdr.contentLength ≠ 8 then
        pure (exitRead, src, { w with heap := m })
      else do
        let (ret, stored, reader, src) ← efBioRead reader 8 src
        let bgReq := writeAt slots.bgReq 0 stored
        if toSize ret < 8 then pure (exitRead, src, { w with heap := m })
        else
          let (ok, m) := m.malloc
          if ok then
            readRecords
              { requestId := UInt16.ofNat fcgiHdr.requestId
                role := UInt16.ofNat (makeUint16 (bgReq.getD 1 0) (bgReq.getD 0 0))
                flags := bgReq.getD 2 0
                params := none, data := none }
              hdr (if slots.buffer then .stale else .null) reader src { w with heap := m }
          else pure (.returned none, src, { w with heap := m })

end EFramework
