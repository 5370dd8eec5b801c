import EFramework.FastCGI.Opening

/-! # Calls on well-formed requests

A well-formed request is a `FCGI_BEGIN_REQUEST` record, the `FCGI_PARAMS` records and
the `FCGI_STDIN` records, each stream ended by an empty record. The plan of a
request lists what the function reads and skips, up to the header of the first
`FCGI_STDIN` record. When no read of the plan straddles the buffered bytes, a call
returns the request; otherwise the straddling read comes out short.
-/

namespace EFramework

open Lib (Segments)

/-! ## Well-formed requests -/

structure WireRequest where
  start : Record
  params : List Record
  endParams : Record
  stdin : List Record
  endStdin : Record
deriving Repr, DecidableEq

namespace WireRequest

/-- A version 1 record of a stream of the request with the given id. -/
structure Part (id : Nat) (type : UInt8) (r : Record) : Prop where
  version : r.version = 1
  type : r.type = type
  requestId : r.requestId = id
  valid : r.Valid

/-- The records have one id, and only the last of a stream is empty. -/
structure Valid (req : WireRequest) : Prop where
  start : Part req.start.requestId fcgiBeginRequest req.start
  start_content : req.start.content.length = 8
  params : ∀ r ∈ req.params, Part req.start.requestId fcgiParams r ∧ r.content ≠ []
  endParams : Part req.start.requestId fcgiParams req.endParams
  endParams_content : req.endParams.content = []
  stdin : ∀ r ∈ req.stdin, Part req.start.requestId fcgiStdin r ∧ r.content ≠ []
  endStdin : Part req.start.requestId fcgiStdin req.endStdin
  endStdin_content : req.endStdin.content = []

/-- The function does not skip the padding of these two records. -/
structure Unpadded (req : WireRequest) : Prop where
  start : req.start.padding = []
  endParams : req.endParams.padding = []

def records (req : WireRequest) : List Record :=
  req.start :: (req.params ++ req.endParams :: (req.stdin ++ [req.endStdin]))

def encode (req : WireRequest) : Bytes := req.records.flatMap Record.encode

def body (req : WireRequest) : Bytes := req.stdin.flatMap Record.content

end WireRequest

def Record.plan (r : Record) : List Stream.Piece :=
  .read 8 :: .read r.content.length ::
    (if r.padding = [] then [] else [.skip r.padding.length])

def WireRequest.plan (req : WireRequest) : List Stream.Piece :=
  [.read 8, .read 8] ++ (req.params.flatMap Record.plan ++ [.read 8, .read 8])

/-! ## One read -/

/-- The reader is at a stream without hard failures. -/
structure BioReader.Holds (reader : BioReader) (s : Stream) : Prop extends reader.At s where
  clean : s.src.Clean softErrno

namespace BioReader.Holds

variable {reader : BioReader} {s : Stream} {n : Nat}

theorem read (h : reader.Holds s) (hn : n ≤ s.rest.length) (hs : ¬ s.Straddles n) :
    ∃ reader', efBioRead reader n s.src =
        some ((n : Int), s.rest.take n, reader', (s.read bufferSize n).2.2.src) ∧
      reader'.Holds (s.read bufferSize n).2.2 ∧
      (s.read bufferSize n).2.2.rest = s.rest.drop n := by
  obtain ⟨reader', he, h'⟩ := h.toAt.read n
  obtain ⟨hstored, hrest, hc'⟩ := Stream.read_clean bufferSize h.clean hn
  rw [Stream.read_ret bufferSize h.clean hn, if_neg hs, hstored] at he
  exact ⟨reader', he, ⟨h', hc'⟩, hrest⟩

theorem read_short (h : reader.Holds s) (hn : n ≤ s.rest.length) (hlt : n < 2 ^ 64)
    (hs : s.Straddles n) :
    ∃ ret stored reader' src', efBioRead reader n s.src = some (ret, stored, reader', src') ∧
      toSize ret < n := by
  obtain ⟨reader', he, _⟩ := h.toAt.read n
  rw [Stream.read_ret bufferSize h.clean hn, if_pos hs] at he
  refine ⟨_, _, reader', _, he, ?_⟩
  obtain ⟨hpos, hheld⟩ := hs
  rw [toSize_natCast (by omega)]
  omega

theorem skip (h : reader.Holds s) (hn : n ≤ s.rest.length) (hlt : n < 2 ^ 63) :
    ∃ reader', efBioReaderSkip reader n s.src = some ((n : Int), reader', (s.skip n).src) ∧
      reader'.Holds (s.skip n) ∧ (s.skip n).rest = s.rest.drop n := by
  have hlen : n ≤ (reader.stream s.src).rest.length := by rwa [h.stream_eq]
  obtain ⟨reader', src', he, wf', hcap', hs'⟩ :=
    h.wf.skip_spec (by rw [h.cap]; decide) h.clean hlen hlt
  rw [h.stream_eq] at hs'
  obtain ⟨hrest, hc'⟩ := Stream.skip_clean h.clean hn
  rw [← hs'] at hrest hc' ⊢
  exact ⟨reader', he, ⟨⟨wf', hcap'.trans h.cap, rfl⟩, hc'⟩, hrest⟩

end BioReader.Holds

/-! ## The record loops -/

def BufferPtr.Has (buffer : BufferPtr) (acc : Bytes) : Prop :=
  (buffer = .null ∧ acc = []) ∨ ∃ buf, buffer = .block buf ∧ buf.Wf ∧ buf.content = acc

theorem BufferPtr.Has.reserve {buffer : BufferPtr} {acc : Bytes} (h : buffer.Has acc) {n : Nat}
    (hpos : 0 < n) (hlt : n < 2 ^ 16) (m : Heap) :
    ∃ exit m', reserveBuffer buffer n m = (exit, m') ∧ m.failures ≤ m'.failures ∧
      ((exit = .exitRequest ∧ m'.failures ≠ m.failures) ∨
        ∃ buf, exit = .goOn buf ∧ buf.Wf ∧ buf.content = acc ∧ buf.len + n ≤ buf.cap) := by
  rcases h with ⟨rfl, rfl⟩ | ⟨buf, rfl, wf, rfl⟩
  · have hsome := @efBufferNew_some n m
    obtain ⟨hle, hok⟩ := efBufferNew_failures n m
    unfold reserveBuffer
    generalize efBufferNew n m = r at hsome hle hok ⊢
    obtain ⟨_ | buf, m'⟩ := r
    · exact ⟨_, m', rfl, hle, Or.inl ⟨rfl, fun h => by simpa using hok h⟩⟩
    · obtain ⟨rfl, hlt'⟩ := hsome rfl
      have hcap := le_bufferCap (show n ≤ 2 ^ 63 by omega)
      refine ⟨_, m', rfl, hle, Or.inr ⟨_, rfl, EfBuffer.fresh_wf hlt', ?_, ?_⟩⟩
      · simp [EfBuffer.content, EfBuffer.fresh]
      · rw [EfBuffer.fresh]
        dsimp only
        omega
  · obtain ⟨ret, buf', m', he, hle, hcase⟩ := wf.expand_spec (show n ≤ 2 ^ 63 by omega) m
    unfold reserveBuffer
    dsimp only
    rw [he]
    dsimp only
    rcases hcase with ⟨rfl, wf', hcontent, _, hroom, _⟩ | ⟨rfl, _, hne⟩
    · exact ⟨_, m', rfl, hle, Or.inr ⟨buf', by simp, wf', hcontent, by omega⟩⟩
    · exact ⟨_, m', rfl, hle, Or.inl ⟨by simp, hne⟩⟩

theorem EfBuffer.Wf.store {buf : EfBuffer} (wf : buf.Wf) {bs : Bytes}
    (h : buf.len + bs.length ≤ buf.cap) :
    ({ buf with
      ptr := writeAt buf.ptr buf.len bs
      len := (buf.len + bs.length) % 2 ^ 64 } : EfBuffer).Wf ∧
    ({ buf with
      ptr := writeAt buf.ptr buf.len bs
      len := (buf.len + bs.length) % 2 ^ 64 } : EfBuffer).content = buf.content ++ bs := by
  have h₁ := wf.length_ptr
  have h₂ := wf.cap_lt
  rw [Nat.mod_eq_of_lt (by omega)]
  refine ⟨⟨?_, h, h₂⟩, ?_⟩
  · exact (writeAt_length (by omega)).trans h₁
  · exact writeAt_take (by omega)

theorem writeAt_all {mem bs : Bytes} (h : bs.length = mem.length) : writeAt mem 0 bs = bs := by
  simp [writeAt, h]

section Loops

variable {type : UInt8} {hdr : Bytes} {reader : BioReader} {s : Stream}

/-- A header that the loop does not look for ends it. -/
theorem recordLoop_stop (newLen : Nat → Nat → Nat) (h : reader.Holds s) (hhdr : hdr.length = 8)
    {stop : FcgiHeader}
    (hstop : stop.version ≠ 1 ∨ stop.type ≠ type ∨ stop.contentLength = 0) {tail : Bytes}
    (hrest : s.rest = stop.bytes ++ tail) (fuel : Nat) (buffer : BufferPtr) (m : Heap) :
    ∃ exit reader' src', recordLoop type newLen (fuel + 1) hdr buffer reader s.src m =
        some (exit, reader', src', m) ∧
      ((exit = .exitRequest ∧ s.Straddles 8) ∨
        (exit = .goOn (stop.bytes, buffer) ∧ ¬ s.Straddles 8 ∧
          src' = (s.read bufferSize 8).2.2.src ∧ reader'.Holds (s.read bufferSize 8).2.2 ∧
          (s.read bufferSize 8).2.2.rest = tail)) := by
  have hlen : 8 ≤ s.rest.length := by
    rw [hrest, List.length_append, FcgiHeader.length_bytes]
    omega
  rw [recordLoop]
  by_cases hs : s.Straddles 8
  · obtain ⟨ret, stored, reader', src', he, hshort⟩ := h.read_short hlen (by decide) hs
    refine ⟨.exitRequest, reader', src', ?_, Or.inl ⟨rfl, hs⟩⟩
    simp [he, hshort]
  · obtain ⟨reader', he, h', hr⟩ := h.read hlen hs
    have htake : s.rest.take 8 = stop.bytes := by rw [hrest]; rfl
    have hdrop : s.rest.drop 8 = tail := by rw [hrest]; rfl
    rw [htake] at he
    rw [hdrop] at hr
    have hmem : writeAt hdr 0 stop.bytes = stop.bytes := writeAt_all (by rw [hhdr]; rfl)
    refine ⟨.goOn (stop.bytes, buffer), reader', _, ?_, Or.inr ⟨rfl, hs, rfl, h', hr⟩⟩
    rw [he]
    simp only [Option.bind_eq_bind, Option.bind_some, hmem, FcgiHeader.ofBytes_bytes, if_pos hstop,
      toSize_natCast (show 8 < 2 ^ 64 by decide), Nat.lt_irrefl, if_false]
    rfl

theorem paramsLoop_record (h : reader.Holds s) (hhdr : hdr.length = 8) {r : Record} {id : Nat}
    (hr : WireRequest.Part id fcgiParams r) (hne : r.content ≠ []) {tail : Bytes}
    (hrest : s.rest = r.encode ++ tail) {buffer : BufferPtr} {acc : Bytes} (hb : buffer.Has acc)
    (fuel : Nat) (m : Heap) :
    (∃ reader' src' m', recordLoop fcgiParams (fun len reads => (len + reads) % 2 ^ 64) (fuel + 1)
          hdr buffer reader s.src m = some (.exitRequest, reader', src', m') ∧
        m.failures ≤ m'.failures ∧
        (m'.failures = m.failures → s.through bufferSize r.plan = none)) ∨
      ∃ s' reader' buffer' m', s.through bufferSize r.plan = some s' ∧
        recordLoop fcgiParams (fun len reads => (len + reads) % 2 ^ 64) (fuel + 1)
            hdr buffer reader s.src m =
          recordLoop fcgiParams (fun len reads => (len + reads) % 2 ^ 64) fuel
            r.header.bytes buffer' reader' s'.src m' ∧
        reader'.Holds s' ∧ s'.rest = tail ∧ buffer'.Has (acc ++ r.content) ∧
        m.failures ≤ m'.failures := by
  have hcl := hr.valid.content_lt
  have hcpos := List.length_pos_iff.mpr hne
  have hlen : 8 ≤ s.rest.length := by
    rw [hrest, List.length_append, Record.length_encode]
    omega
  rw [recordLoop, Record.plan, Stream.through]
  by_cases hs : s.Straddles 8
  · obtain ⟨ret, stored, reader', src', he, hshort⟩ := h.read_short hlen (by decide) hs
    exact Or.inl ⟨reader', src', m, by simp [he, hshort], Nat.le_refl _, fun _ => if_pos hs⟩
  rw [if_neg hs]
  obtain ⟨reader₁, he₁, h₁, hr₁⟩ := h.read hlen hs
  have htake : s.rest.take 8 = r.header.bytes := by
    rw [hrest, Record.encode, List.append_assoc, List.append_assoc]
    rfl
  have hdrop : s.rest.drop 8 = r.content ++ (r.padding ++ tail) := by
    rw [hrest, Record.encode, List.append_assoc, List.append_assoc]
    rfl
  have hmem : writeAt hdr 0 r.header.bytes = r.header.bytes := writeAt_all (by rw [hhdr]; rfl)
  have hgo : ¬ (r.header.version ≠ 1 ∨ r.header.type ≠ fcgiParams ∨ r.content.length = 0) := by
    rintro (hv | ht | hz)
    · exact hv hr.version
    · exact ht hr.type
    · omega
  rw [htake] at he₁
  rw [hdrop] at hr₁
  generalize (s.read bufferSize 8).2.2 = s₁ at he₁ h₁ hr₁ ⊢
  rw [he₁]
  simp only [Option.bind_eq_bind, Option.bind_some, hmem, FcgiHeader.ofBytes_bytes, if_neg hgo,
    toSize_natCast (show 8 < 2 ^ 64 by decide), Nat.lt_irrefl, if_false, hr.valid.contentLength]
  obtain ⟨exit, m', hres, hle, hcase⟩ := hb.reserve hcpos hcl m
  rw [hres]
  rcases hcase with ⟨rfl, hfail⟩ | ⟨buf, rfl, wf, hacc, hroom⟩
  · exact Or.inl ⟨reader₁, s₁.src, m', rfl, hle, fun h => absurd h hfail⟩
  have hptr := wf.length_ptr
  dsimp only
  rw [if_neg (by omega)]
  have hlen₁ : r.content.length ≤ s₁.rest.length := by
    rw [hr₁, List.length_append]
    omega
  rw [Stream.through]
  by_cases hs₁ : s₁.Straddles r.content.length
  · obtain ⟨ret, stored, reader', src', he, hshort⟩ := h₁.read_short hlen₁ (by omega) hs₁
    exact Or.inl ⟨reader', src', m', by simp [he, hshort], hle, fun _ => if_pos hs₁⟩
  rw [if_neg hs₁]
  obtain ⟨reader₂, he₂, h₂, hr₂⟩ := h₁.read hlen₁ hs₁
  rw [hr₁, List.take_left] at he₂
  rw [hr₁, List.drop_left] at hr₂
  generalize (s₁.read bufferSize r.content.length).2.2 = s₂ at he₂ h₂ hr₂ ⊢
  rw [he₂]
  simp only [Option.bind_some, toSize_natCast (show r.content.length < 2 ^ 64 by omega),
    Nat.lt_irrefl, if_false]
  obtain ⟨wf', hcontent⟩ := wf.store hroom
  rw [hacc] at hcontent
  have hb' : (BufferPtr.block { buf with
      ptr := writeAt buf.ptr buf.len r.content
      len := (buf.len + r.content.length) % 2 ^ 64 }).Has (acc ++ r.content) :=
    Or.inr ⟨_, rfl, wf', hcontent⟩
  have hpadlen := hr.valid.paddingLength
  by_cases hpad : r.padding = []
  · have hz : r.header.paddingLength = 0 := by
      rw [hpad] at hpadlen
      exact UInt8.toNat_inj.mp hpadlen
    rw [if_pos hpad]
    refine Or.inr ⟨s₂, reader₂, _, m', rfl, ?_, h₂, by simpa [hpad] using hr₂, hb', hle⟩
    rw [if_neg (by simpa using hz)]
  · have hz : r.header.paddingLength ≠ 0 := by
      intro h0
      rw [h0] at hpadlen
      exact hpad (List.eq_nil_of_length_eq_zero hpadlen.symm)
    have hlen₂ : r.padding.length ≤ s₂.rest.length := by
      rw [hr₂, List.length_append]
      omega
    have hlt₂ : r.padding.length < 2 ^ 63 := by
      have := r.header.paddingLength.toNat_lt
      omega
    obtain ⟨reader₃, he₃, h₃, hr₃⟩ := h₂.skip hlen₂ hlt₂
    rw [hr₂, List.drop_left] at hr₃
    rw [if_neg hpad]
    refine Or.inr ⟨s₂.skip r.padding.length, reader₃, _, m', rfl, ?_, h₃, hr₃, hb', hle⟩
    rw [if_pos hz, hpadlen, he₃]
    rfl

theorem paramsLoop_spec (rs : List Record) (fuel : Nat) (hdr : Bytes) (buffer : BufferPtr)
    (reader : BioReader) (s : Stream) (m : Heap) (acc : Bytes) {id : Nat} (h : reader.Holds s)
    (hhdr : hdr.length = 8) (hrs : ∀ r ∈ rs, WireRequest.Part id fcgiParams r ∧ r.content ≠ [])
    {stop : FcgiHeader} (hstop : stop.version ≠ 1 ∨ stop.type ≠ fcgiParams ∨ stop.contentLength = 0)
    {tail : Bytes} (hrest : s.rest = rs.flatMap Record.encode ++ (stop.bytes ++ tail))
    (hb : buffer.Has acc) (hfuel : rs.length < fuel) :
    ∃ exit reader' src' m', recordLoop fcgiParams (fun len reads => (len + reads) % 2 ^ 64) fuel
        hdr buffer reader s.src m = some (exit, reader', src', m') ∧ m.failures ≤ m'.failures ∧
      ((exit = .exitRequest ∧ (m'.failures = m.failures →
          s.through bufferSize (rs.flatMap Record.plan ++ [.read 8]) = none)) ∨
        ∃ s' buffer', s.through bufferSize (rs.flatMap Record.plan ++ [.read 8]) = some s' ∧
          exit = .goOn (stop.bytes, buffer') ∧ src' = s'.src ∧ reader'.Holds s' ∧ s'.rest = tail ∧
          buffer'.Has (acc ++ rs.flatMap Record.content)) := by
  induction rs generalizing fuel hdr buffer reader s m acc with
  | nil =>
      obtain ⟨fuel, rfl⟩ := Nat.exists_eq_add_of_le' (show 1 ≤ fuel by omega)
      obtain ⟨exit, reader', src', he, hcase⟩ :=
        recordLoop_stop (fun len reads => (len + reads) % 2 ^ 64) h hhdr hstop hrest fuel buffer m
      refine ⟨exit, reader', src', m, he, Nat.le_refl _, ?_⟩
      simp only [List.flatMap_nil, List.nil_append, List.append_nil, Stream.through]
      rcases hcase with ⟨rfl, hs⟩ | ⟨rfl, hs, rfl, h', hr⟩
      · exact Or.inl ⟨rfl, fun _ => if_pos hs⟩
      · exact Or.inr ⟨_, buffer, if_neg hs, rfl, rfl, h', hr, hb⟩
  | cons r rs ih =>
      obtain ⟨fuel, rfl⟩ := Nat.exists_eq_add_of_le' (show 1 ≤ fuel by omega)
      obtain ⟨hr, hne⟩ := hrs r (by simp)
      rw [List.flatMap_cons, List.append_assoc] at hrest
      rw [List.length_cons] at hfuel
      simp only [List.flatMap_cons, List.append_assoc]
      rw [Stream.through_append]
      rcases paramsLoop_record h hhdr hr hne hrest hb fuel m with
        ⟨reader', src', m', he, hle, hnone⟩ | ⟨s₁, reader₁, buffer₁, m₁, hs₁, he₁, h₁, hr₁, hb₁, hle₁⟩
      · exact ⟨_, reader', src', m', he, hle, Or.inl ⟨rfl, fun h => by rw [hnone h]; rfl⟩⟩
      · obtain ⟨exit, reader', src', m', he, hle, hcase⟩ :=
          ih fuel r.header.bytes buffer₁ reader₁ s₁ m₁ _ h₁
          r.header.length_bytes
          (fun r' hr' => hrs r' (List.mem_cons_of_mem r hr')) hr₁ hb₁ (by omega)
        rw [hs₁, he₁, Option.bind_some]
        refine ⟨exit, reader', src', m', he, by omega, ?_⟩
        rcases hcase with ⟨rfl, hnone⟩ | hgood
        · exact Or.inl ⟨rfl, fun h => hnone (by omega)⟩
        · rw [List.append_assoc] at hgood
          exact Or.inr hgood

end Loops

/-! ## The pairs -/

/-- What the collected bytes make of a new table. -/
theorem parseBuffer_spec {params : Option Stringtab} (hparams : ∀ tb, params = some tb →
      Hashtable.Wf tb ∧ Hashtable.Represents tb (fun _ => none))
    {ps : List Param} (hps : ∀ p ∈ ps, p.Valid) {buffer : BufferPtr}
    (hb : buffer.Has (ps.flatMap Param.encode)) (w : World EfString) :
    ∃ out w', parseBuffer params buffer w = some (out, w') ∧ w.heap.failures ≤ w'.heap.failures ∧
      (params.isSome = true → w'.heap.failures = w.heap.failures →
        if Param.freesNull ∅ ps then out = .undefined
        else ∃ tb, out = .goOn (some tb) ∧ Hashtable.Wf tb ∧
          ((Param.names ps).card ≤ 2 ^ 31 → Hashtable.Represents tb (Param.map ps))) := by
  have hcount := Param.length_le_length_encode ps
  rcases hb with ⟨rfl, hnil⟩ | ⟨buf, rfl, wf, hcontent⟩
  · rw [hnil] at hcount
    obtain rfl := List.eq_nil_of_length_eq_zero (Nat.le_zero.mp hcount)
    refine ⟨.goOn params, w, rfl, Nat.le_refl _, fun hsome _ => ?_⟩
    obtain ⟨tb, rfl⟩ := Option.isSome_iff_exists.mp hsome
    obtain ⟨wf, hm⟩ := hparams tb rfl
    rw [Param.freesNull, if_neg Bool.false_ne_true]
    exact ⟨tb, rfl, wf, fun _ => hm⟩
  · cases params with
    | none => exact ⟨_, w, rfl, Nat.le_refl _, fun hsome => absurd hsome (by simp)⟩
    | some tb =>
        obtain ⟨wf', hm⟩ := hparams tb rfl
        have hlen : buf.len = 0 + (ps.flatMap Param.encode).length := by
          rw [← hcontent, wf.length_content, Nat.zero_add]
        have hmem : buf.ptr.drop 0 = ps.flatMap Param.encode ++ buf.ptr.drop buf.len := by
          rw [← hcontent, EfBuffer.content, List.take_append_drop, List.drop_zero]
        obtain ⟨out, w', he, hle, hout⟩ := parseParamsLoop_spec ps (buf.len + 1) 0 _ tb _ ∅ w hps
          hmem hlen (by omega) ⟨wf', hm, by simp⟩
        rw [Finset.empty_union] at hout
        unfold parseBuffer fcgiParseParams
        simp only [he, Option.bind_eq_bind, Option.bind_some]
        cases hfrees : Param.freesNull ∅ ps with
        | true =>
            cases out with
            | none => exact ⟨_, w', rfl, hle, fun _ _ => by simp⟩
            | some tb' => exact ⟨_, w', rfl, hle, fun _ hf => by cases (hout hf).1 hfrees⟩
        | false =>
            cases out with
            | none =>
                refine ⟨_, w', rfl, hle, fun _ hf => ?_⟩
                obtain ⟨tb₁, h₁, _⟩ := (hout hf).2 hfrees
                cases h₁
            | some tb' =>
                refine ⟨_, w', rfl, hle, fun _ hf => ?_⟩
                obtain ⟨tb₁, h₁, hgood⟩ := (hout hf).2 hfrees
                obtain rfl := Option.some.inj h₁
                exact ⟨tb', rfl, hgood⟩

/-! ## A whole call -/

namespace WireRequest

def role (req : WireRequest) : Nat :=
  256 * (req.start.content.getD 0 0).toNat + (req.start.content.getD 1 0).toNat

def flags (req : WireRequest) : UInt8 := req.start.content.getD 2 0

def head (req : WireRequest) : FcgiRequest :=
  { requestId := UInt16.ofNat req.start.requestId, role := UInt16.ofNat req.role,
    flags := req.flags, params := none, data := none }

/-- What follows the header of the first `FCGI_STDIN` record. -/
def behind (req : WireRequest) : Bytes :=
  ((req.stdin ++ [req.endStdin]).flatMap Record.encode).drop 8

/-- What a call gives when no allocation fails, by the stream that its plan ends in. -/
def Outcome (req : WireRequest) (ps : List Param) (tail : Bytes) (res : ReadResult)
    (src' : Source) : Option Stream → Prop
  | none => ∀ r, res ≠ .returned (some r)
  | some s =>
      if Param.freesNull ∅ ps then res = .undefined
      else src' = s.src ∧ s.rest = req.behind ++ tail ∧ ∃ tb,
        res = .returned (some { req.head with params := some tb }) ∧ Hashtable.Wf tb ∧
        ((Param.names ps).card ≤ 2 ^ 31 → Hashtable.Represents tb (Param.map ps))

variable {req : WireRequest}

theorem Valid.first (hv : req.Valid) : ∃ r : Record, r.type = fcgiStdin ∧
    (req.stdin ++ [req.endStdin]).flatMap Record.encode = r.header.bytes ++ req.behind := by
  rw [behind]
  cases hstdin : req.stdin with
  | nil => exact ⟨req.endStdin, hv.endStdin.type, rfl⟩
  | cons r rs =>
      have hr := (hv.stdin r (by rw [hstdin]; exact List.mem_cons_self)).1
      exact ⟨r, hr.type, rfl⟩

theorem Outcome.of_none {ps : List Param} {tail : Bytes} {src' : Source} {out : Option Stream}
    (h : out = none) : req.Outcome ps tail (.returned none) src' out := by
  rw [h]
  rintro r ⟨⟩

theorem Outcome.of_freesNull {ps : List Param} (h : Param.freesNull ∅ ps = true) (tail : Bytes)
    (src' : Source) (out : Option Stream) : req.Outcome ps tail .undefined src' out := by
  cases out with
  | none => rintro r ⟨⟩
  | some s => exact (if_pos h).mpr rfl

end WireRequest

/-- The part of a call behind the `FCGI_BEGIN_REQUEST` record. -/
theorem readRecords_spec {req : WireRequest} (hv : req.Valid) (hu : req.Unpadded)
    {ps : List Param} (hps : ∀ p ∈ ps, p.Valid)
    (henc : req.params.flatMap Record.content = ps.flatMap Param.encode) {reader : BioReader}
    {s : Stream} (h : reader.Holds s) {hdr : Bytes} (hhdr : hdr.length = 8) {tail : Bytes}
    (hrest : s.rest = req.params.flatMap Record.encode ++ (req.endParams.encode ++
      ((req.stdin ++ [req.endStdin]).flatMap Record.encode ++ tail))) (w : World EfString) :
    ∃ res src' w', readRecords req.head hdr .null reader s.src w = some (res, src', w') ∧
      w.heap.failures ≤ w'.heap.failures ∧ (w'.heap.failures = w.heap.failures →
        req.Outcome ps tail res src'
          (s.through bufferSize (req.params.flatMap Record.plan ++ [.read 8, .read 8]))) := by
  have hplan : ([.read 8, .read 8] : List Stream.Piece) = [.read 8] ++ [.read 8] := rfl
  have hend : req.endParams.encode = req.endParams.header.bytes := by
    rw [Record.encode, hv.endParams_content, hu.endParams, List.append_nil, List.append_nil]
  have hstop : req.endParams.header.contentLength = 0 := by
    rw [hv.endParams.valid.contentLength, hv.endParams_content]
    rfl
  have hfuel : req.params.length < loopFuel reader s.src := by
    have h₁ := Record.length_le_length_encode req.params
    have h₂ := congrArg List.length hrest
    have h₃ := h.wf.length_unread
    rw [h.unread] at h₃
    rw [Stream.rest, List.length_append, List.length_append] at h₂
    unfold loopFuel
    omega
  rw [hend] at hrest
  obtain ⟨hle, hsome, hnew⟩ := Stringtab.new_spec w.heap
  obtain ⟨exit, reader₁, src₁, m₁, he₁, hle₁, hcase₁⟩ := paramsLoop_spec req.params
    (loopFuel reader s.src) hdr .null reader s (efStringtabNew 0 w.heap).2 [] h hhdr hv.params
    (Or.inr (Or.inr hstop)) hrest (Or.inl ⟨rfl, rfl⟩) hfuel
  unfold readRecords
  simp only [Option.bind_eq_bind, paramsLoop, he₁, Option.bind_some]
  rw [hplan, ← List.append_assoc, Stream.through_append]
  rcases hcase₁ with ⟨rfl, hnone⟩ | ⟨s₁, buffer₁, hs₁, rfl, rfl, h₁, hr₁, hb₁⟩
  · refine ⟨_, _, _, rfl, by dsimp only; omega, fun hf => ?_⟩
    dsimp only at hf
    exact .of_none (by rw [hnone (by omega)]; rfl)
  rw [List.nil_append, henc] at hb₁
  obtain ⟨out, w₂, he₂, hle₂, hcase₂⟩ := parseBuffer_spec hnew hps hb₁ ⟨m₁, w.destroyed⟩
  simp only [he₂, Option.bind_some]
  obtain ⟨first, htype, hfirst⟩ := hv.first
  rw [hfirst, List.append_assoc] at hr₁
  have hother : first.header.version ≠ 1 ∨ first.header.type ≠ fcgiBeginRequest ∨
      first.header.contentLength = 0 := by
    refine Or.inr (Or.inl ?_)
    rw [show first.header.type = fcgiStdin from htype]
    decide
  obtain ⟨exit, reader₃, src₃, he₃, hcase₃⟩ := recordLoop_stop (fun _ reads => reads) h₁
    req.endParams.header.length_bytes hother hr₁
    (reader₁.buffer.len - reader₁.offset + s₁.src.payload.length + s₁.src.length) .null w₂.heap
  dsimp only at hle₂ hcase₂
  have hok : w₂.heap.failures = w.heap.failures → if Param.freesNull ∅ ps then out = .undefined
      else ∃ tb, out = .goOn (some tb) ∧ Hashtable.Wf tb ∧
        ((Param.names ps).card ≤ 2 ^ 31 → Hashtable.Represents tb (Param.map ps)) :=
    fun hf => hcase₂ (hsome (by omega)) (by omega)
  rw [hs₁, Option.bind_some, Stream.through]
  cases out with
  | exitRequest =>
      refine ⟨_, _, w₂, rfl, by omega, fun hf => ?_⟩
      have := hok hf
      split at this
      · cases this
      · obtain ⟨_, h, _⟩ := this
        cases h
  | undefined =>
      refine ⟨_, _, w₂, rfl, by omega, fun hf => ?_⟩
      have := hok hf
      split at this
      next hfrees => exact .of_freesNull hfrees tail _ _
      next =>
        obtain ⟨_, h, _⟩ := this
        cases h
  | goOn params =>
      unfold stdinLoop loopFuel
      simp only [he₃, Option.bind_some]
      rcases hcase₃ with ⟨rfl, hs⟩ | ⟨rfl, hs, rfl, _, hr⟩
      · exact ⟨_, _, w₂, rfl, by omega, fun _ => .of_none (if_pos hs)⟩
      · refine ⟨_, _, w₂, rfl, by omega, fun hf => ?_⟩
        have := hok hf
        rw [if_neg hs]
        split at this
        · cases this
        next hfrees =>
          obtain ⟨tb, h, hgood⟩ := this
          cases h
          exact (if_neg hfrees).mpr ⟨rfl, hr, tb, rfl, hgood⟩

namespace WireRequest

variable {req : WireRequest}

theorem Unpadded.encode_eq (hu : req.Unpadded) : req.encode =
    req.start.header.bytes ++ (req.start.content ++ (req.params.flatMap Record.encode ++
      (req.endParams.encode ++ (req.stdin ++ [req.endStdin]).flatMap Record.encode))) := by
  simp [encode, records, Record.encode, hu.start]

theorem Valid.requestOf_eq (hv : req.Valid) :
    requestOf req.start.header.bytes req.start.content = req.head := by
  rw [requestOf, head, FcgiHeader.ofBytes_bytes, hv.start.valid.requestId, makeUint16_eq, role,
    flags, Nat.add_comm]

theorem Valid.opening_spec (hv : req.Valid) (hu : req.Unpadded) {src : Source}
    (hc : src.Clean softErrno) {tail : Bytes} (hpay : src.payload = req.encode ++ tail)
    {slots : Slots} (hhdr : slots.hdr.length = 8) (hbg : slots.bgReq.length = 8) :
    (opening slots ⟨[], src⟩ = none ∧ Stream.through bufferSize req.plan ⟨[], src⟩ = none) ∨
      ∃ s, opening slots ⟨[], src⟩ = some (req.start.header.bytes, req.start.content, s) ∧
        Stream.through bufferSize req.plan ⟨[], src⟩ =
          s.through bufferSize (req.params.flatMap Record.plan ++ [.read 8, .read 8]) ∧
        s.src.Clean softErrno ∧ s.rest = req.params.flatMap Record.encode ++
          (req.endParams.encode ++
            ((req.stdin ++ [req.endStdin]).flatMap Record.encode ++ tail)) := by
  have hcontent := hv.start_content
  have hrest : (⟨[], src⟩ : Stream).rest = req.start.header.bytes ++ (req.start.content ++
      (req.params.flatMap Record.encode ++ (req.endParams.encode ++
        ((req.stdin ++ [req.endStdin]).flatMap Record.encode ++ tail)))) := by
    rw [Stream.rest, List.nil_append, hpay, hu.encode_eq]
    simp only [List.append_assoc]
  have hlen : 8 ≤ (⟨[], src⟩ : Stream).rest.length := by
    rw [hrest, List.length_append, FcgiHeader.length_bytes]
    omega
  have hs : ¬ (⟨[], src⟩ : Stream).Straddles 8 := fun h => absurd h.1 (by simp)
  obtain ⟨hstored, hrest₁, hc₁⟩ := Stream.read_clean bufferSize hc hlen
  have hret := Stream.read_ret bufferSize hc hlen
  rw [if_neg hs] at hret
  rw [hrest] at hstored hrest₁
  change _ = req.start.header.bytes at hstored
  have hmem : writeAt slots.hdr 0 req.start.header.bytes = req.start.header.bytes :=
    writeAt_all (by rw [hhdr]; rfl)
  have hgo : ¬ (req.start.header.version ≠ 1 ∨ req.start.header.type ≠ fcgiBeginRequest ∨
      req.start.header.contentLength ≠ 8) := by
    rw [hv.start.valid.contentLength, hcontent]
    rintro (hv' | ht | hz)
    · exact hv' hv.start.version
    · exact ht hv.start.type
    · exact hz rfl
  have hmem₂ : writeAt slots.bgReq 0 req.start.content = req.start.content :=
    writeAt_all (by rw [hbg, hcontent])
  unfold opening plan
  rw [List.cons_append, List.cons_append, List.nil_append, Stream.through, if_neg hs,
    Stream.through]
  simp only [hret, hstored, hmem, FcgiHeader.ofBytes_bytes]
  rw [toSize_natCast (show 8 < 2 ^ 64 by decide), if_neg (by simpa using hgo)]
  generalize (Stream.read bufferSize 8 ⟨[], src⟩).2.2 = s₁ at hrest₁ hc₁ ⊢
  change s₁.rest = req.start.content ++ _ at hrest₁
  have hlen₁ : 8 ≤ s₁.rest.length := by
    rw [hrest₁, List.length_append]
    omega
  obtain ⟨hstored₁, hrest₂, hc₂⟩ := Stream.read_clean bufferSize hc₁ hlen₁
  have hret₁ := Stream.read_ret bufferSize hc₁ hlen₁
  rw [hrest₁, ← hcontent, List.take_left, hcontent] at hstored₁
  rw [hrest₁, ← hcontent, List.drop_left, hcontent] at hrest₂
  by_cases hs₁ : s₁.Straddles 8
  · rw [if_pos hs₁] at hret₁
    obtain ⟨hpos, hheld⟩ := hs₁
    refine Or.inl ⟨?_, if_pos ⟨hpos, hheld⟩⟩
    rw [hret₁, toSize_natCast (by omega), if_pos (by omega)]
  · rw [if_neg hs₁] at hret₁
    refine Or.inr ⟨_, ?_, if_neg hs₁, hc₂, hrest₂⟩
    rw [hret₁, hstored₁, hmem₂]
    rfl

end WireRequest

theorem WireRequest.Valid.call_spec {req : WireRequest} (hv : req.Valid) (hu : req.Unpadded)
    {ps : List Param} (hps : ∀ p ∈ ps, p.Valid)
    (henc : req.params.flatMap Record.content = ps.flatMap Param.encode) {src : Source}
    (hc : src.Clean softErrno) {tail : Bytes} (hpay : src.payload = req.encode ++ tail)
    {slots : Slots} (hhdr : slots.hdr.length = 8) (hbg : slots.bgReq.length = 8)
    (hbuf : slots.buffer = false) (w : World EfString) :
    ∃ res src' w', fcgiReadRequest slots src w = some (res, src', w') ∧
      w.heap.failures ≤ w'.heap.failures ∧ (w'.heap.failures = w.heap.failures →
        req.Outcome ps tail res src' (Stream.through bufferSize req.plan ⟨[], src⟩)) := by
  have hopen := hv.opening_spec hu hc hpay hhdr hbg
  rcases fcgiReadRequest_cases slots src w with ⟨_, src', m, he, hlt⟩ | ⟨hnone, src', m, he, hle⟩ |
    ⟨hdr, bgReq, s, reader, m, hsome, h, he, hle⟩
  · refine ⟨_, src', _, he, Nat.le_of_lt hlt, fun hf => ?_⟩
    dsimp only at hf
    omega
  · refine ⟨_, src', _, he, hle, fun _ => ?_⟩
    rcases hopen with ⟨_, hthrough⟩ | ⟨s, hsome, _⟩
    · rw [hthrough]
      split <;> rintro r ⟨⟩
    · rw [hnone] at hsome
      cases hsome
  · rcases hopen with ⟨hnone, _⟩ | ⟨s', hsome', hthrough, hc', hrest'⟩
    · rw [hnone] at hsome
      cases hsome
    · rw [hsome'] at hsome
      cases hsome
      rw [hv.requestOf_eq, if_neg (by simp [hbuf])] at he
      obtain ⟨res, src', w', he', hle', hout⟩ := readRecords_spec hv hu hps henc ⟨h, hc'⟩
        req.start.header.length_bytes hrest' { w with heap := m }
      rw [he, hthrough]
      refine ⟨res, src', w', he', Nat.le_trans hle hle', fun hf => hout ?_⟩
      dsimp only at hle' ⊢
      omega

end EFramework
