import EFramework.FastCGI.WellFormed

/-! # When a request is read as it was written

A call on a well-formed request is right about the record cuts and the padding of
the `FCGI_PARAMS` records, and wrong as soon as a read straddles the buffered bytes.
The body is never collected, since the loop over it looks for the wrong record type.
-/

namespace EFramework

open Lib (Segments)

/-- The request carries what the `FCGI_BEGIN_REQUEST` record and the pairs say. -/
structure FcgiRequest.Decodes (r : FcgiRequest) (req : WireRequest) (ps : List Param) : Prop where
  requestId : r.requestId.toNat = req.start.requestId
  role : r.role.toNat = req.role
  flags : r.flags = req.flags
  params : ∃ tb, r.params = some tb ∧ Hashtable.Wf tb ∧ Hashtable.Represents tb (Param.map ps)

def FcgiRequest.body (r : FcgiRequest) : Bytes :=
  match r.data with
  | none => []
  | some buf => buf.content

def ReadResult.request : ReadResult → Option FcgiRequest
  | .returned request => request
  | .stale | .undefined => none

def WireRequest.sample (stdin : List Record) : WireRequest where
  start := ⟨1, fcgiBeginRequest, 1, [0, 1, 0, 0, 0, 0, 0, 0], [], 0⟩
  params := [⟨1, fcgiParams, 1, [1, 1, 65, 66], [0, 0, 0, 0], 0⟩]
  endParams := ⟨1, fcgiParams, 1, [], [], 0⟩
  stdin := stdin
  endStdin := ⟨1, fcgiStdin, 1, [], [], 0⟩

def Param.sample : Param := ⟨[65], [66], false, false⟩

theorem Param.sample_valid : ∀ p ∈ [Param.sample], p.Valid := by
  simp only [List.mem_singleton, forall_eq]
  exact ⟨by decide, by decide, by decide⟩

namespace WireRequest

theorem sample_valid {stdin : List Record}
    (h : ∀ r ∈ stdin, Part 1 fcgiStdin r ∧ r.content ≠ []) : (sample stdin).Valid where
  start := ⟨rfl, rfl, rfl, ⟨(by decide : 1 < 2 ^ 16), (by decide : 8 < 2 ^ 16),
    (by decide : 0 < 2 ^ 8)⟩⟩
  start_content := rfl
  params := by
    simp only [sample, List.mem_singleton, forall_eq]
    exact ⟨⟨rfl, rfl, rfl, ⟨by decide, by decide, by decide⟩⟩, by decide⟩
  endParams := ⟨rfl, rfl, rfl, ⟨(by decide : 1 < 2 ^ 16), (by decide : 0 < 2 ^ 16),
    (by decide : 0 < 2 ^ 8)⟩⟩
  endParams_content := rfl
  stdin := h
  endStdin := ⟨rfl, rfl, rfl, ⟨(by decide : 1 < 2 ^ 16), (by decide : 0 < 2 ^ 16),
    (by decide : 0 < 2 ^ 8)⟩⟩
  endStdin_content := rfl

theorem sample_unpadded (stdin : List Record) : (sample stdin).Unpadded := ⟨rfl, rfl⟩

variable {req : WireRequest} {ps : List Param}

theorem Valid.head_decodes (hv : req.Valid) {tb : Stringtab} (wf : Hashtable.Wf tb)
    (hm : Hashtable.Represents tb (Param.map ps)) :
    ({ req.head with params := some tb } : FcgiRequest).Decodes req ps := by
  have hid := hv.start.valid.requestId_lt
  have h₁ := (req.start.content.getD 0 0).toNat_lt
  have h₂ := (req.start.content.getD 1 0).toNat_lt
  refine ⟨?_, ?_, rfl, tb, rfl, wf, hm⟩
  · rw [head, UInt16.toNat_ofNat']
    omega
  · rw [head, UInt16.toNat_ofNat', role]
    omega

theorem Valid.body_eq_nil (hv : req.Valid) : req.body = [] ↔ req.stdin = [] := by
  rw [body, List.flatMap_eq_nil_iff]
  constructor
  · intro h
    by_contra hne
    obtain ⟨r, hr⟩ := List.exists_mem_of_ne_nil _ hne
    exact (hv.stdin r hr).2 (h r hr)
  · intro h r hr
    rw [h] at hr
    cases hr

end WireRequest

section Calls

variable {req : WireRequest} {ps : List Param} {src : Source} {tail : Bytes}

/-- A call with NULL locals on a request without a body returns the request if and only
if no read straddles the buffered bytes and the table has room for all names. -/
theorem fcgi_read_request_params (hv : req.Valid) (hu : req.Unpadded)
    (hps : ∀ p ∈ ps, p.Valid)
    (henc : req.params.flatMap Record.content = ps.flatMap Param.encode)
    (hc : src.Clean softErrno) (hpay : src.payload = req.encode ++ tail) {hdr bgReq : Bytes}
    (hhdr : hdr.length = 8) (hbg : bgReq.length = 8) (w : World EfString) :
    ∃ res src' w', fcgiReadRequest ⟨false, false, hdr, bgReq⟩ src w = some (res, src', w') ∧
      (w'.heap.failures = w.heap.failures →
        ((∃ r, res = .returned (some r) ∧ r.Decodes req ps) ↔
          Stream.through bufferSize req.plan ⟨[], src⟩ ≠ none ∧ (Param.names ps).card ≤ 2 ^ 31)) := by
  have hslots : (⟨false, false, hdr, bgReq⟩ : Slots).buffer = false := rfl
  obtain ⟨res, src', w', he, _, hout⟩ := hv.call_spec hu hps henc hc hpay hhdr hbg hslots w
  refine ⟨res, src', w', he, fun hf => ?_⟩
  have hout := hout hf
  cases hs : Stream.through bufferSize req.plan ⟨[], src⟩ with
  | none =>
      rw [hs] at hout
      exact ⟨fun ⟨r, hr, _⟩ => absurd hr (hout r), fun h => absurd rfl h.1⟩
  | some s =>
      rw [hs] at hout
      constructor
      · rintro ⟨r, rfl, hr⟩
        obtain ⟨tb, _, wf, hm⟩ := hr.params
        exact ⟨Option.some_ne_none s, Param.names_card_le wf hm⟩
      · rintro ⟨_, hcard⟩
        have hfrees := Param.freesNull_eq_false hcard
        obtain ⟨_, _, tb, rfl, wf, hm⟩ := (if_neg (by simp [hfrees])).mp hout
        exact ⟨_, rfl, hv.head_decodes wf (hm hcard)⟩

/-- Read in one piece, the request comes back. -/
theorem fcgi_read_request_params_whole :
    ∃ r src' w', fcgiReadRequest ⟨false, false, List.replicate 8 7, List.replicate 8 7⟩
        (Segments.ofList (WireRequest.sample []).encode ++ []) ⟨⟨[], 0, 0⟩, []⟩ =
          some (.returned (some r), src', w') ∧
      r.Decodes (WireRequest.sample []) [Param.sample] := by
  obtain ⟨res, src', w', he, hiff⟩ := fcgi_read_request_params
    (WireRequest.sample_valid (by simp)) (WireRequest.sample_unpadded []) Param.sample_valid
    (by decide) ((Segments.clean_nil softErrno).ofList_append (WireRequest.sample []).encode)
    (show _ = (WireRequest.sample []).encode ++ [] by decide)
    (show (List.replicate 8 7).length = 8 from rfl) (show (List.replicate 8 7).length = 8 from rfl)
    ⟨⟨[], 0, 0⟩, []⟩
  have hok : (fcgiReadRequest ⟨false, false, List.replicate 8 7, List.replicate 8 7⟩
      (Segments.ofList (WireRequest.sample []).encode ++ []) ⟨⟨[], 0, 0⟩, []⟩).all
      (fun out => out.2.2.heap.failures == 0) = true := by decide +kernel
  rw [he] at hok
  obtain ⟨r, rfl, hr⟩ := (hiff (by simpa using hok)).mpr ⟨by decide +kernel, by decide⟩
  exact ⟨r, src', w', he, hr⟩

/-- The first four bytes of the body of the `FCGI_BEGIN_REQUEST` record arrive with
its header, the others later, and the call returns NULL. -/
theorem fcgi_read_request_params_cut :
    ¬ ∀ (req : WireRequest) (ps : List Param) (src : Source), req.Valid → req.Unpadded →
      (∀ p ∈ ps, p.Valid) → req.params.flatMap Record.content = ps.flatMap Param.encode →
      req.stdin = [] → src.Clean softErrno → src.payload = req.encode →
      ∃ r src' w', fcgiReadRequest ⟨false, false, List.replicate 8 0, List.replicate 8 0⟩ src
        ⟨⟨[], 0, 0⟩, []⟩ = some (.returned (some r), src', w') ∧ r.Decodes req ps := by
  intro h
  have hc := (((Segments.clean_nil softErrno).ofList_append
    ((WireRequest.sample []).encode.drop 12)).ofList_append ((WireRequest.sample []).encode.take 12))
  obtain ⟨r, src', w', he, _⟩ := h (WireRequest.sample []) [Param.sample] _
    (WireRequest.sample_valid (by simp)) (WireRequest.sample_unpadded []) Param.sample_valid
    (by decide) rfl hc (by decide)
  have hnull : (fcgiReadRequest ⟨false, false, List.replicate 8 0, List.replicate 8 0⟩
      (Segments.ofList ((WireRequest.sample []).encode.take 12) ++
        (Segments.ofList ((WireRequest.sample []).encode.drop 12) ++ [])) ⟨⟨[], 0, 0⟩, []⟩).map
      Prod.fst = some (.returned none) := by decide +kernel
  rw [he] at hnull
  cases hnull

/-- A call returns the body if and only if the slot of `buffer` holds NULL, no read
straddles the buffered bytes, no NULL string is freed, and there is no body. -/
theorem fcgi_read_request_body (hv : req.Valid) (hu : req.Unpadded)
    (hps : ∀ p ∈ ps, p.Valid)
    (henc : req.params.flatMap Record.content = ps.flatMap Param.encode)
    (hc : src.Clean softErrno) (hpay : src.payload = req.encode ++ tail) {slots : Slots}
    (hhdr : slots.hdr.length = 8) (hbg : slots.bgReq.length = 8) (w : World EfString) :
    ∃ res src' w', fcgiReadRequest slots src w = some (res, src', w') ∧
      (w'.heap.failures = w.heap.failures →
        ((∃ r, res = .returned (some r) ∧ r.body = req.body) ↔
          slots.buffer = false ∧ Stream.through bufferSize req.plan ⟨[], src⟩ ≠ none ∧
            Param.freesNull ∅ ps = false ∧ req.stdin = [])) := by
  cases hbuf : slots.buffer with
  | true =>
      obtain ⟨res, src', w', he, hres⟩ := fcgiReadRequest_stale hbuf src w
      exact ⟨res, src', w', he, fun _ => ⟨fun ⟨r, hr, _⟩ => absurd hr (hres r), fun h => by simp at h⟩⟩
  | false =>
      obtain ⟨res, src', w', he, _, hout⟩ := hv.call_spec hu hps henc hc hpay hhdr hbg hbuf w
      refine ⟨res, src', w', he, fun hf => ?_⟩
      have hout := hout hf
      cases hs : Stream.through bufferSize req.plan ⟨[], src⟩ with
      | none =>
          rw [hs] at hout
          exact ⟨fun ⟨r, hr, _⟩ => absurd hr (hout r), fun h => absurd rfl h.2.1⟩
      | some s =>
          rw [hs] at hout
          cases hfrees : Param.freesNull ∅ ps with
          | true =>
              obtain rfl := (if_pos hfrees).mp hout
              exact ⟨fun ⟨r, hr, _⟩ => by simp at hr, fun h => by simp at h⟩
          | false =>
              obtain ⟨_, _, tb, rfl, _⟩ := (if_neg (by simp [hfrees])).mp hout
              constructor
              · rintro ⟨r, hr, hbody⟩
                obtain rfl : _ = r := by simpa using hr
                exact ⟨rfl, Option.some_ne_none s, rfl, hv.body_eq_nil.mp hbody.symm⟩
              · rintro ⟨_, _, _, hstdin⟩
                exact ⟨_, rfl, (hv.body_eq_nil.mpr hstdin).symm⟩

/-- Read in one piece, the empty body comes back. -/
theorem fcgi_read_request_body_whole :
    ∃ r src' w', fcgiReadRequest ⟨true, false, List.replicate 8 7, List.replicate 8 7⟩
        (Segments.ofList (WireRequest.sample []).encode ++ []) ⟨⟨[], 0, 0⟩, []⟩ =
          some (.returned (some r), src', w') ∧ r.body = [] := by
  have hlen : (⟨true, false, List.replicate 8 7, List.replicate 8 7⟩ : Slots).hdr.length = 8 := rfl
  have hlen' : (⟨true, false, List.replicate 8 7, List.replicate 8 7⟩ : Slots).bgReq.length = 8 :=
    rfl
  obtain ⟨res, src', w', he, hiff⟩ := fcgi_read_request_body
    (WireRequest.sample_valid (by simp)) (WireRequest.sample_unpadded []) Param.sample_valid
    (by decide) ((Segments.clean_nil softErrno).ofList_append (WireRequest.sample []).encode)
    (show _ = (WireRequest.sample []).encode ++ [] by decide) hlen hlen' ⟨⟨[], 0, 0⟩, []⟩
  have hok : (fcgiReadRequest ⟨true, false, List.replicate 8 7, List.replicate 8 7⟩
      (Segments.ofList (WireRequest.sample []).encode ++ []) ⟨⟨[], 0, 0⟩, []⟩).all
      (fun out => out.2.2.heap.failures == 0) = true := by decide +kernel
  rw [he] at hok
  obtain ⟨r, rfl, hr⟩ := (hiff (by simpa using hok)).mpr ⟨rfl, by decide +kernel, rfl, rfl⟩
  exact ⟨r, src', w', he, hr⟩

/-- One byte of body is left on the connection. -/
theorem fcgi_read_request_body_lost :
    ¬ ∀ (req : WireRequest) (ps : List Param) (src : Source), req.Valid → req.Unpadded →
      (∀ p ∈ ps, p.Valid) → req.params.flatMap Record.content = ps.flatMap Param.encode →
      src.Clean softErrno → src.payload = req.encode →
      ∃ r src' w', fcgiReadRequest ⟨false, false, List.replicate 8 0, List.replicate 8 0⟩ src
        ⟨⟨[], 0, 0⟩, []⟩ = some (.returned (some r), src', w') ∧ r.body = req.body := by
  intro h
  have hstdin : ∀ r ∈ [(⟨1, fcgiStdin, 1, [120], [], 0⟩ : Record)],
      WireRequest.Part 1 fcgiStdin r ∧ r.content ≠ [] := by
    simp only [List.mem_singleton, forall_eq]
    exact ⟨⟨rfl, rfl, rfl, ⟨by decide, by decide, by decide⟩⟩, by decide⟩
  obtain ⟨r, src', w', he, hbody⟩ := h (WireRequest.sample [⟨1, fcgiStdin, 1, [120], [], 0⟩])
    [Param.sample] _ (WireRequest.sample_valid hstdin) (WireRequest.sample_unpadded _)
    Param.sample_valid (by decide) ((Segments.clean_nil softErrno).ofList_append
      (WireRequest.sample [⟨1, fcgiStdin, 1, [120], [], 0⟩]).encode) (by decide)
  have hrun : (fcgiReadRequest ⟨false, false, List.replicate 8 0, List.replicate 8 0⟩
      (Segments.ofList (WireRequest.sample [⟨1, fcgiStdin, 1, [120], [], 0⟩]).encode ++ [])
      ⟨⟨[], 0, 0⟩, []⟩).all (fun out => out.1.request.all (fun r => r.body == [])) = true := by
    decide +kernel
  rw [he] at hrun
  have hnil : r.body = [] := by simpa [ReadResult.request] using hrun
  rw [hnil] at hbody
  cases hbody

end Calls

end EFramework
