import EFramework.FastCGI.WellFormed

/-! # Broken connections

A call should return NULL on a connection that ends, or fails, before the header
behind the `FCGI_PARAMS` records is complete. It does so for every content of its
uninitialised locals only on the streams that are cut right behind the
`FCGI_BEGIN_REQUEST` record: an earlier end returns the slot of `request`, and a
later one comes after the use of the slot of `buffer`.
-/

namespace EFramework

open Lib (Segments)

def delivered : Source → Bytes
  | [] => []
  | .data x xs :: src => x :: xs ++ delivered src
  | .fail errno :: src => if softErrno errno then delivered src else []

/-- The bytes start with a `FCGI_BEGIN_REQUEST` record, `FCGI_PARAMS` records, an empty
one and a record header, and the request is what they say. -/
def FcgiRequest.DecodedFrom (r : FcgiRequest) (bytes : Bytes) : Prop :=
  ∃ (start : Record) (params : List Record) (endParams : Record) (rest : Bytes),
    bytes = (start :: (params ++ [endParams])).flatMap Record.encode ++ rest ∧ 8 ≤ rest.length ∧
    (start.Valid ∧ start.version = 1 ∧ start.type = fcgiBeginRequest ∧
      start.content.length = 8) ∧
    (∀ p ∈ params, p.Valid ∧ p.version = 1 ∧ p.type = fcgiParams ∧ p.content ≠ []) ∧
    (endParams.Valid ∧ endParams.version = 1 ∧ endParams.type = fcgiParams ∧
      endParams.content = []) ∧
    r.requestId.toNat = start.requestId ∧
    r.role.toNat =
      256 * (start.content.getD 0 0).toNat + (start.content.getD 1 0).toNat ∧
    r.flags = start.content.getD 2 0 ∧
    ∀ ps : List Param, (∀ p ∈ ps, p.Valid) →
      params.flatMap Record.content = ps.flatMap Param.encode →
      ∃ tb, r.params = some tb ∧ Hashtable.Represents tb (Param.map ps)

/-- A call on the connection returns NULL or such a request, whatever its locals hold
and whatever allocations fail. -/
def ReturnsOnlyComplete (src : Source) : Prop :=
  ∀ slots : Slots, slots.hdr.length = 8 → slots.bgReq.length = 8 → ∀ w,
    ∃ res src' w', fcgiReadRequest slots src w = some (res, src', w') ∧
      (res = .returned none ∨ ∃ r, res = .returned (some r) ∧ r.DecodedFrom (delivered src))

def headerRead (src : Source) : Int × Bytes × Stream := Stream.read bufferSize 8 ⟨[], src⟩

def bodyRead (src : Source) : Int × Bytes × Stream := (headerRead src).2.2.read bufferSize 8

/-- The header of a `FCGI_BEGIN_REQUEST` record arrives, its body arrives or is stopped by
a hard failure, and the next header comes out short. -/
structure CutAfterBegin (src : Source) : Prop where
  complete : (headerRead src).1 = 8
  version : (FcgiHeader.ofBytes (headerRead src).2.1).version = 1
  type : (FcgiHeader.ofBytes (headerRead src).2.1).type = fcgiBeginRequest
  contentLength : (FcgiHeader.ofBytes (headerRead src).2.1).contentLength = 8
  body : 8 ≤ toSize (bodyRead src).1
  short : toSize ((bodyRead src).2.2.read bufferSize 8).1 < 8

/-- The first read of a call is complete, short, or failed with nothing stored. -/
theorem headerRead_cases (src : Source) :
    ((headerRead src).1 = 8 ∧ (headerRead src).2.1.length = 8) ∨ toSize (headerRead src).1 < 8 ∨
      ((headerRead src).1 = -1 ∧ (headerRead src).2.1 = []) := by
  have hsmall : ¬ bufferSize >>> 2 < 8 := by decide
  unfold headerRead Stream.read
  simp only [List.length_nil, Nat.le_zero_eq, OfNat.ofNat_ne_zero, if_false,
    Nat.sub_zero, List.nil_append, hsmall, not_false_eq_true, true_and]
  generalize Segments.gather softErrno 8 (Stream.window bufferSize 8) src = g
  cases g.error with
  | some e => exact Or.inr (Or.inr ⟨rfl, rfl⟩)
  | none =>
      simp only [transferRet, Option.isSome_none, Bool.false_eq_true, if_false]
      by_cases hlt : g.items.length < 8
      · rw [Nat.min_eq_right (Nat.le_of_lt hlt), toSize_natCast (by omega)]
        exact Or.inr (Or.inl hlt)
      · rw [Nat.min_eq_left (by omega)]
        exact Or.inl ⟨rfl, by rw [List.length_take]; omega⟩

theorem opening_eq (slots : Slots) (src : Source) : opening slots ⟨[], src⟩ =
    let fcgiHdr := FcgiHeader.ofBytes (writeAt slots.hdr 0 (headerRead src).2.1)
    if toSize (headerRead src).1 < 8 ∨ fcgiHdr.version ≠ 1 ∨ fcgiHdr.type ≠ fcgiBeginRequest ∨
        fcgiHdr.contentLength ≠ 8 then none
    else if toSize (bodyRead src).1 < 8 then none
    else some (writeAt slots.hdr 0 (headerRead src).2.1,
      writeAt slots.bgReq 0 (bodyRead src).2.1, (bodyRead src).2.2) := rfl

theorem CutAfterBegin.opening_isSome {src : Source} (h : CutAfterBegin src) {slots : Slots}
    (hhdr : slots.hdr.length = 8) : ∃ hdr bgReq,
      opening slots ⟨[], src⟩ = some (hdr, bgReq, (bodyRead src).2.2) := by
  have hlen : (headerRead src).2.1.length = 8 := by
    rcases headerRead_cases src with ⟨_, hlen⟩ | hshort | ⟨hfail, _⟩
    · exact hlen
    · rw [h.complete] at hshort
      exact absurd hshort (by decide)
    · rw [h.complete] at hfail
      cases hfail
  rw [opening_eq, writeAt_all (hlen.trans hhdr.symm)]
  dsimp only
  rw [if_neg, if_neg (Nat.not_lt.mpr h.body)]
  · exact ⟨_, _, rfl⟩
  · rw [h.complete]
    rintro (hlt | hv | ht | hl)
    · exact absurd hlt (by decide)
    · exact hv h.version
    · exact ht h.type
    · exact hl h.contentLength

/-- Over a cleared header, no failed read is taken for a `FCGI_BEGIN_REQUEST` record. -/
theorem CutAfterBegin.of_opening {src : Source} {slots : Slots}
    (hhdr : slots.hdr = List.replicate 8 0) {hdr bgReq : Bytes} {s : Stream}
    (hopen : opening slots ⟨[], src⟩ = some (hdr, bgReq, s))
    (hshort : toSize (s.read bufferSize 8).1 < 8) : CutAfterBegin src := by
  rw [opening_eq, hhdr] at hopen
  dsimp only at hopen
  split at hopen
  · cases hopen
  next hgo =>
    split at hopen
    · cases hopen
    next hbody =>
      cases hopen
      simp only [not_or, not_not] at hgo
      obtain ⟨hlong, hv, ht, hl⟩ := hgo
      rcases headerRead_cases src with ⟨hret, hlen⟩ | hlt | ⟨_, hnil⟩
      · rw [writeAt_all (hlen.trans (by rfl))] at hv ht hl
        exact ⟨hret, hv, ht, hl, Nat.not_lt.mp hbody, hshort⟩
      · exact absurd hlt hlong
      · rw [hnil] at hv
        exact absurd hv (by decide)

/-- A call returns only complete requests on exactly the connections that are cut
right behind the `FCGI_BEGIN_REQUEST` record. -/
theorem fcgi_read_request_truncation (src : Source) :
    ReturnsOnlyComplete src ↔ CutAfterBegin src := by
  constructor
  · intro h
    obtain ⟨res, src', w', he, hres⟩ := h ⟨true, true, List.replicate 8 0, List.replicate 8 0⟩
      rfl rfl ⟨⟨[], 0, 0⟩, []⟩
    rcases fcgiReadRequest_cases ⟨true, true, List.replicate 8 0, List.replicate 8 0⟩ src
        ⟨⟨[], 0, 0⟩, []⟩ with ⟨hno, _⟩ | ⟨_, src₁, m, he₁, _⟩ |
      ⟨hdr, bgReq, s, reader, m, hsome, hat, he₁, _⟩
    · exact absurd hno (by decide +kernel)
    · rw [he₁] at he
      cases he
      rcases hres with h | ⟨r, h, _⟩ <;> cases h
    · by_cases hshort : toSize (s.read bufferSize 8).1 < 8
      · exact .of_opening rfl hsome hshort
      · obtain ⟨src₂, w₂, he₂⟩ := readRecords_stale (requestOf hdr bgReq) hdr ⟨m, []⟩ hat hshort
        rw [he₁, if_pos rfl, he₂] at he
        cases he
        rcases hres with h | ⟨r, h, _⟩ <;> cases h
  · intro hcut slots hhdr _ w
    obtain ⟨hdr', bgReq', hopen⟩ := hcut.opening_isSome hhdr
    rcases fcgiReadRequest_cases slots src w with ⟨_, src', m, he, _⟩ | ⟨hnone, _⟩ |
      ⟨hdr, bgReq, s, reader, m, hsome, hat, he, _⟩
    · exact ⟨_, src', _, he, Or.inl rfl⟩
    · rw [hopen] at hnone
      cases hnone
    · rw [hopen] at hsome
      cases hsome
      obtain ⟨src', w', he'⟩ := readRecords_short (requestOf hdr' bgReq') hdr' { w with heap := m }
        hat hcut.short (if slots.buffer then .stale else .null)
      exact ⟨_, src', w', he.trans he', Or.inl rfl⟩

/-- On an empty connection the call returns whatever its slot of `request` holds. -/
theorem fcgi_read_request_truncation_stale : ¬ ∀ src : Source, ReturnsOnlyComplete src := by
  intro h
  obtain ⟨res, src', w', he, hres⟩ := h [] ⟨true, false, List.replicate 8 0, List.replicate 8 0⟩
    rfl rfl ⟨⟨[], 0, 0⟩, []⟩
  have hstale : (fcgiReadRequest ⟨true, false, List.replicate 8 0, List.replicate 8 0⟩ []
      ⟨⟨[], 0, 0⟩, []⟩).map Prod.fst = some .stale := by decide +kernel
  rw [he] at hstale
  obtain rfl := Option.some.inj hstale
  rcases hres with h | ⟨r, h, _⟩ <;> cases h

end EFramework
