import EFramework.FastCGI.Segmentation

/-! # Several requests on one connection

Successive calls share only the descriptor. What a call has read ahead is lost with
its reader, so a run of calls returns the requests in order only when the buffer
happens to be empty at the end of each of them.
-/

namespace EFramework

open Lib (Segments)

/-- One call of a run: its locals, the state it starts in, and the request that it
should return. -/
structure ReadCall where
  slots : Slots
  world : World EfString
  req : WireRequest
  params : List Param

namespace ReadCall

/-- The empty records, and the first, have no padding. -/
structure Valid (c : ReadCall) : Prop where
  hdr : c.slots.hdr.length = 8
  bgReq : c.slots.bgReq.length = 8
  req : c.req.Valid
  unpadded : c.req.Unpadded
  endStdin : c.req.endStdin.padding = []
  params : ∀ p ∈ c.params, p.Valid
  encodes : c.req.params.flatMap Record.content = c.params.flatMap Param.encode

def wire (calls : List ReadCall) : Bytes := calls.flatMap (fun c => c.req.encode)

/-- Each call returns its request, and leaves the later ones on the descriptor. -/
def ReturnInOrder : List ReadCall → Source → Prop
  | [], _ => True
  | c :: calls, src =>
      ∃ r src' w', fcgiReadRequest c.slots src c.world = some (.returned (some r), src', w') ∧
        r.Decodes c.req c.params ∧ r.body = c.req.body ∧ wire calls <:+ src'.payload ∧
        ReturnInOrder calls src'

/-- No read of a call straddles, each call ends with an empty buffer, and no request
needs what a call cannot do. -/
def Aligned : List ReadCall → Source → Prop
  | [], _ => True
  | c :: calls, src =>
      c.slots.buffer = false ∧ (Param.names c.params).card ≤ 2 ^ 31 ∧ c.req.stdin = [] ∧
        ∃ s, Stream.through bufferSize c.req.plan ⟨[], src⟩ = some s ∧ s.held = [] ∧
          Aligned calls s.src

def allocated : List ReadCall → Source → Bool
  | [], _ => true
  | c :: calls, src =>
      match fcgiReadRequest c.slots src c.world with
      | none => true
      | some (_, src', w') => w'.heap.failures == c.world.heap.failures && allocated calls src'

variable {c : ReadCall} {src : Source}

/-- A request without a body is read to its end. -/
theorem Valid.behind_eq_nil (hc : c.Valid) (hstdin : c.req.stdin = []) : c.req.behind = [] := by
  have hcontent := hc.req.endStdin_content
  rw [WireRequest.behind, hstdin]
  simp [Record.encode, FcgiHeader.bytes, hcontent, hc.endStdin]

def sample : ReadCall :=
  ⟨⟨false, false, List.replicate 8 0, List.replicate 8 0⟩, ⟨⟨[], 0, 0⟩, []⟩, .sample [],
    [.sample]⟩

theorem sample_valid : sample.Valid :=
  ⟨rfl, rfl, WireRequest.sample_valid (by simp), WireRequest.sample_unpadded [], rfl,
    Param.sample_valid, by decide⟩

end ReadCall

theorem Stream.held_eq_nil {s : Stream} {later : Bytes} (hrest : s.rest = later)
    (hsuffix : later <:+ s.src.payload) : s.held = [] := by
  have h₁ := hsuffix.length_le
  rw [← hrest, Stream.rest, List.length_append] at h₁
  exact List.eq_nil_of_length_eq_zero (by omega)

namespace ReadCall.Valid

variable {c : ReadCall} {src : Source} {later : Bytes}

theorem aligned_of_right (hv : c.Valid) (hc : src.Clean softErrno)
    (hpay : src.payload = c.req.encode ++ later) {r : FcgiRequest} {src' : Source}
    {w' : World EfString}
    (he : fcgiReadRequest c.slots src c.world = some (.returned (some r), src', w'))
    (hf : w'.heap.failures = c.world.heap.failures) (hr : r.Decodes c.req c.params)
    (hbody : r.body = c.req.body) (hsuffix : later <:+ src'.payload) :
    c.slots.buffer = false ∧ (Param.names c.params).card ≤ 2 ^ 31 ∧ c.req.stdin = [] ∧
      ∃ s, Stream.through bufferSize c.req.plan ⟨[], src⟩ = some s ∧ s.held = [] ∧
        s.src = src' ∧ src'.payload = later := by
  cases hbuf : c.slots.buffer with
  | true =>
      obtain ⟨res₁, src₁, w₁, he₁, hres⟩ := fcgiReadRequest_stale hbuf src c.world
      rw [he] at he₁
      cases he₁
      exact absurd rfl (hres r)
  | false =>
      obtain ⟨res₁, src₁, w₁, he₁, _, hout⟩ := hv.req.call_spec hv.unpadded hv.params hv.encodes
        hc hpay hv.hdr hv.bgReq hbuf c.world
      rw [he] at he₁
      cases he₁
      have hout := hout hf
      cases hs : Stream.through bufferSize c.req.plan ⟨[], src⟩ with
      | none =>
          rw [hs] at hout
          exact absurd rfl (hout r)
      | some s =>
          rw [hs] at hout
          obtain ⟨tb, _, wf, hm⟩ := hr.params
          have hcard := Param.names_card_le wf hm
          have hfrees := Param.freesNull_eq_false hcard
          obtain ⟨rfl, hrest, tb', hres, _⟩ := (if_neg (by simp [hfrees])).mp hout
          cases hres
          have hstdin := hv.req.body_eq_nil.mp hbody.symm
          rw [hv.behind_eq_nil hstdin, List.nil_append] at hrest
          have hheld := Stream.held_eq_nil hrest hsuffix
          rw [Stream.rest, hheld, List.nil_append] at hrest
          exact ⟨rfl, hcard, hstdin, s, rfl, hheld, rfl, hrest⟩

theorem right_of_aligned (hv : c.Valid) (hc : src.Clean softErrno)
    (hpay : src.payload = c.req.encode ++ later) (hbuf : c.slots.buffer = false)
    (hcard : (Param.names c.params).card ≤ 2 ^ 31) (hstdin : c.req.stdin = []) {s : Stream}
    (hs : Stream.through bufferSize c.req.plan ⟨[], src⟩ = some s) (hheld : s.held = []) :
    ∃ res src' w', fcgiReadRequest c.slots src c.world = some (res, src', w') ∧
      (w'.heap.failures = c.world.heap.failures → src' = s.src ∧ s.src.payload = later ∧
        ∃ r, res = .returned (some r) ∧ r.Decodes c.req c.params ∧ r.body = c.req.body) := by
  obtain ⟨res, src', w', he, _, hout⟩ := hv.req.call_spec hv.unpadded hv.params hv.encodes
    hc hpay hv.hdr hv.bgReq hbuf c.world
  refine ⟨res, src', w', he, fun hf => ?_⟩
  have hout := hout hf
  have hfrees := Param.freesNull_eq_false hcard
  rw [hs] at hout
  obtain ⟨hsrc, hrest, tb, rfl, wf, hm⟩ := (if_neg (by simp [hfrees])).mp hout
  rw [hv.behind_eq_nil hstdin, List.nil_append, Stream.rest, hheld, List.nil_append] at hrest
  exact ⟨hsrc, hrest, _, rfl, hv.req.head_decodes wf (hm hcard),
    (hv.req.body_eq_nil.mpr hstdin).symm⟩

end ReadCall.Valid

/-- A run of calls returns the requests in order if and only if they are aligned. -/
theorem fcgi_read_request_reuse {calls : List ReadCall} (hcalls : ∀ c ∈ calls, c.Valid)
    {src : Source} (hc : src.Clean softErrno) (hpay : src.payload = ReadCall.wire calls)
    (hmem : ReadCall.allocated calls src = true) :
    ReadCall.ReturnInOrder calls src ↔ ReadCall.Aligned calls src := by
  induction calls generalizing src with
  | nil => exact Iff.rfl
  | cons c calls ih =>
      have hv := hcalls c List.mem_cons_self
      have hcalls' := fun c' h' => hcalls c' (List.mem_cons_of_mem c h')
      have hpay₁ : src.payload = c.req.encode ++ ReadCall.wire calls := hpay
      rw [ReadCall.ReturnInOrder, ReadCall.Aligned]
      constructor
      · rintro ⟨r, src', w', he, hr, hbody, hsuffix, hmore⟩
        rw [ReadCall.allocated, he] at hmem
        simp only [Bool.and_eq_true, beq_iff_eq] at hmem
        obtain ⟨hbuf, hcard, hstdin, s, hs, hheld, rfl, hpay'⟩ :=
          hv.aligned_of_right hc hpay₁ he hmem.1 hr hbody hsuffix
        exact ⟨hbuf, hcard, hstdin, s, hs, hheld,
          (ih hcalls' (Stream.through_clean hc hs) hpay' hmem.2).mp hmore⟩
      · rintro ⟨hbuf, hcard, hstdin, s, hs, hheld, hmore⟩
        obtain ⟨res, src', w', he, hright⟩ :=
          hv.right_of_aligned hc hpay₁ hbuf hcard hstdin hs hheld
        rw [ReadCall.allocated, he] at hmem
        simp only [Bool.and_eq_true, beq_iff_eq] at hmem
        obtain ⟨rfl, hpay', r, rfl, hr, hbody⟩ := hright hmem.1
        exact ⟨r, s.src, w', he, hr, hbody, by rw [hpay'],
          (ih hcalls' (Stream.through_clean hc hs) hpay' hmem.2).mpr hmore⟩

/-- Two requests, each in a segment of its own. -/
theorem fcgi_read_request_reuse_apart :
    ReadCall.ReturnInOrder [.sample, .sample]
      (Segments.ofList (WireRequest.sample []).encode ++
        (Segments.ofList (WireRequest.sample []).encode ++ [])) := by
  have hcalls : ∀ c ∈ [ReadCall.sample, ReadCall.sample], c.Valid := by
    simp only [List.mem_cons, List.not_mem_nil, or_false, or_self, forall_eq]
    exact ReadCall.sample_valid
  have hc := ((Segments.clean_nil softErrno).ofList_append
    (WireRequest.sample []).encode).ofList_append (WireRequest.sample []).encode
  refine (fcgi_read_request_reuse hcalls hc (by decide) (by decide +kernel)).mpr ?_
  exact ⟨rfl, by decide, rfl, ⟨[], Segments.ofList (WireRequest.sample []).encode ++ []⟩,
    by decide +kernel, rfl, rfl, by decide, rfl, ⟨[], []⟩, by decide +kernel, rfl, trivial⟩

/-- Two requests in one segment: the first call takes both off the descriptor. -/
theorem fcgi_read_request_reuse_joined :
    ¬ ∀ (calls : List ReadCall) (src : Source), (∀ c ∈ calls, c.Valid) → src.Clean softErrno →
      src.payload = ReadCall.wire calls → ReadCall.allocated calls src = true →
      ReadCall.ReturnInOrder calls src := by
  intro h
  have hcalls : ∀ c ∈ [ReadCall.sample, ReadCall.sample], c.Valid := by
    simp only [List.mem_cons, List.not_mem_nil, or_false, or_self, forall_eq]
    exact ReadCall.sample_valid
  obtain ⟨r, src', w', he, _, _, hsuffix, _⟩ := h [.sample, .sample]
    (Segments.ofList ((WireRequest.sample []).encode ++ (WireRequest.sample []).encode) ++ [])
    hcalls ((Segments.clean_nil softErrno).ofList_append _) (by decide) (by decide +kernel)
  have hsrc : (fcgiReadRequest ReadCall.sample.slots
      (Segments.ofList ((WireRequest.sample []).encode ++ (WireRequest.sample []).encode) ++ [])
      ReadCall.sample.world).map (fun out => out.2.1) = some [] := by decide +kernel
  rw [he] at hsrc
  obtain rfl := Option.some.inj hsrc
  have hnil := List.suffix_nil.mp hsuffix
  exact absurd hnil (by decide)

end EFramework
