import EFramework.Http.Serialisation

/-! # Bounds of a request

Only a request line that is turned away by the check of its length is sure not to leave the
local block. Where the block is blank for the line, a request with one header that fits stays
in it as well; a header that never fits is tried again without end.
-/

namespace EFramework

open Lib

/-! ## The line -/

def LineRejected (req : CurlRequest) : Prop :=
  ∃ size, requestLineSize req.methodText req.uriText req.protocolText = some size ∧
    maxHeaderBufsize < sizeT size

/-- A line that is not turned away is put together in a block that has a NUL and room for it. -/
theorem httpBuildRequestLine_fits {req : CurlRequest} (hrejected : ¬ LineRejected req)
    {mem : Bytes} (hlen : mem.length = maxHeaderBufsize) {r : Int × CurlRequest × Bytes}
    (h : httpBuildRequestLine req mem maxHeaderBufsize = some r) :
    0 ∈ mem ∧ req.line.length ≤ maxHeaderBufsize := by
  unfold httpBuildRequestLine at h
  obtain ⟨size, hsize, h⟩ := Option.bind_eq_some_iff.mp h
  have hcap : ¬ maxHeaderBufsize < sizeT size := fun hlt => hrejected ⟨size, hsize, hlt⟩
  rw [if_neg hcap] at h
  obtain ⟨mem₁, h₁, h⟩ := Option.bind_eq_some_iff.mp h
  obtain ⟨mem₂, h₂, h⟩ := Option.bind_eq_some_iff.mp h
  obtain ⟨mem₃, h₃, h⟩ := Option.bind_eq_some_iff.mp h
  obtain ⟨mem₄, h₄, h⟩ := Option.bind_eq_some_iff.mp h
  obtain ⟨mem₅, h₅, h⟩ := Option.bind_eq_some_iff.mp h
  obtain ⟨hmethod, hlen₁⟩ := strcat_length h₁
  have hlen₂ := storeAt_length h₂
  obtain ⟨huri, hlen₃⟩ := strcat_length h₃
  have hlen₄ := storeAt_length h₄
  obtain ⟨hprotocol, hlen₅⟩ := strcat_length h₅
  constructor
  · by_contra hmem
    rw [strcat_of_not_mem hmem] at h₁
    cases h₁
  · have hint : 3 * maxHeaderBufsize + 4 < 2 ^ 31 := by decide
    have heq := @requestLineSize_eq (req.method.getD curlMethodGet) (req.requestUri.getD [47])
      (req.protocol.getD httpProtocol0) (by omega)
    rw [heq] at hsize
    cases hsize
    rw [sizeT_natCast (by omega)] at hcap
    exact req.length_line ▸ Nat.not_lt.mp hcap

/-! ## The loop over the headers -/

theorem sendHeaders_any_sink {fuel : Nat} {req : CurlRequest} {mem : Bytes} {pos : Nat}
    {accepted : Bytes} {w : World EfString}
    {r : Option Int × CurlRequest × Bytes × Sink × World EfString}
    (h : sendHeaders fuel req mem pos ⟨accepted, []⟩ w = some r) :
    r.1 = none ∧ ∀ snk, ∃ r', sendHeaders fuel req mem pos snk w = some r' := by
  induction fuel generalizing req mem pos accepted w with
  | zero => cases h
  | succ fuel ih =>
      by_cases hreq : req.status = .header
      · rw [sendHeaders, if_pos hreq] at h
        obtain ⟨⟨used, req₁, mem₁, w₁⟩, hbuild, h⟩ := Option.bind_eq_some_iff.mp h
        dsimp only [efWrapWrite] at h
        by_cases hflush : used < 0 ∨ req₁.status = .body
        · rw [if_pos hflush, if_neg (by omega)] at h
          obtain ⟨hnone, hany⟩ := ih h
          refine ⟨hnone, fun snk => ?_⟩
          rw [sendHeaders, if_pos hreq, hbuild, Option.bind_eq_bind, Option.bind_some]
          dsimp only
          rw [if_pos hflush]
          generalize efWrapWrite (mem₁.take (if 0 < used then pos + used.toNat else pos)) snk =
            written
          split
          · exact ⟨_, rfl⟩
          · exact hany _
        · rw [if_neg hflush] at h
          obtain ⟨hnone, hany⟩ := ih h
          refine ⟨hnone, fun snk => ?_⟩
          rw [sendHeaders, if_pos hreq, hbuild, Option.bind_eq_bind, Option.bind_some]
          dsimp only
          rw [if_neg hflush]
          exact hany snk
      · rw [sendHeaders, if_neg hreq] at h
        cases h
        refine ⟨rfl, fun snk => ?_⟩
        rw [sendHeaders, if_neg hreq]
        exact ⟨_, rfl⟩

/-- A header that does not fit an empty block is tried again without end. -/
theorem FirstHeader.not_sends {tbl : Stringtab} {name value : Bytes}
    (h : FirstHeader tbl name value) {req : CurlRequest} (hreq : req.status = .header)
    (htbl : req.headers = some tbl) (hlong : maxHeaderBufsize < (requestField name value).length)
    (t : Bytes) (b : UInt8) (rest accepted : Bytes) (w : World EfString) (out : Bytes) :
    ¬ Sends req (t ++ b :: rest) t.length accepted w out := by
  rintro ⟨fuel, req', mem', snk, w', hrun, -⟩
  induction fuel generalizing t b rest accepted with
  | zero => cases hrun
  | succ fuel ih =>
      have hbuild := h.build_spec htbl t b rest (maxHeaderBufsize - t.length) w
      rw [if_pos (by omega)] at hbuild
      obtain ⟨c, tail, hmem⟩ : ∃ c tail, t ++ b :: rest = c :: tail :=
        List.exists_cons_of_ne_nil (by simp)
      rw [sendHeaders, if_pos hreq, hbuild, Option.bind_eq_bind, Option.bind_some] at hrun
      dsimp only [efWrapWrite] at hrun
      rw [if_pos (Or.inl (by decide)), if_neg (by omega), hmem] at hrun
      exact ih [] c tail _ hrun

/-! ## The whole request -/

def HeaderTooLong (hs : List (Bytes × Bytes)) : Prop :=
  ∃ name value, headersSet hs (fun _ => none) name = some (some ⟨value⟩) ∧
    maxHeaderBufsize < (requestField name value).length

/-- Whatever the writes do, the request is put together in the block and the loop ends, with an
error if a header does not fit. -/
def Bounded (req : CurlRequest) (hs : List (Bytes × Bytes)) (mem : Bytes) (w : World EfString) :
    Prop :=
  ∀ snk, ∃ fuel res req' snk' w', sendRequest fuel req mem snk w = some (res, req', snk', w') ∧
    (HeaderTooLong hs → ∃ ret < 0, res = some ret)

theorem LineRejected.bounded {req : CurlRequest} (h : LineRejected req)
    (hs : List (Bytes × Bytes)) (mem : Bytes) (w : World EfString) : Bounded req hs mem w := by
  obtain ⟨size, hsize, hlt⟩ := h
  intro snk
  refine ⟨0, some (-1), req.filled, snk, w, ?_, fun _ => ⟨-1, by decide, rfl⟩⟩
  have hbuilt : httpBuildRequestLine req mem maxHeaderBufsize = some (-1, req.filled, mem) := by
    unfold httpBuildRequestLine
    change (requestLineSize req.methodText req.uriText req.protocolText).bind _ = _
    rw [hsize, Option.bind_some, if_pos hlt]
    rfl
  unfold sendRequest
  rw [hbuilt]
  rfl

theorem Bounded.of_accepted {req req' : CurlRequest} {hs : List (Bytes × Bytes)} {mem : Bytes}
    {w w' : World EfString} {fuel : Nat} {snk : Sink}
    (h : sendRequest fuel req mem ⟨[], []⟩ w = some (none, req', snk, w'))
    (hfits : ¬ HeaderTooLong hs) : Bounded req hs mem w := by
  intro snk₁
  unfold sendRequest at h
  obtain ⟨⟨used, req₁, mem₁⟩, hline, h⟩ := Option.bind_eq_some_iff.mp h
  dsimp only at h
  split at h
  next => cases h
  next hused =>
    obtain ⟨r, hheaders, h⟩ := Option.bind_eq_some_iff.mp h
    obtain ⟨⟨res, req₂, mem₂, snk₂, w₂⟩, hany⟩ := (sendHeaders_any_sink hheaders).2 snk₁
    refine ⟨fuel, ?_⟩
    unfold sendRequest
    rw [hline, Option.bind_eq_bind, Option.bind_some]
    dsimp only
    rw [if_neg hused, hany, Option.bind_eq_bind, Option.bind_some]
    cases res with
    | none => exact ⟨_, _, _, _, rfl, fun hlong => absurd hlong hfits⟩
    | some res => exact ⟨_, _, _, _, rfl, fun hlong => absurd hlong hfits⟩

/-- A bounded request whose line is not turned away needs a NUL in the block. -/
theorem Bounded.nul_mem {req : CurlRequest} {hs : List (Bytes × Bytes)} {mem : Bytes}
    {w : World EfString} (h : Bounded req hs mem w) (hrejected : ¬ LineRejected req)
    (hlen : mem.length = maxHeaderBufsize) :
    0 ∈ mem ∧ req.line.length ≤ maxHeaderBufsize := by
  obtain ⟨fuel, res, req', snk', w', hrun, -⟩ := h ⟨[], []⟩
  unfold sendRequest at hrun
  obtain ⟨r, hline, -⟩ := Option.bind_eq_some_iff.mp hrun
  exact httpBuildRequestLine_fits hrejected hlen hline

/-- In a block that is blank for it, a bounded request is sent to its end. -/
theorem Bounded.sends {req : CurlRequest} {hs : List (Bytes × Bytes)} {mem : Bytes}
    {w : World EfString} (h : Bounded req hs mem w) (hrejected : ¬ LineRejected req)
    (hlen : mem.length = maxHeaderBufsize) (hblank : BlankFor req mem) :
    req.line.length < maxHeaderBufsize ∧ ∃ out,
      Sends { req.filled with status := .header }
        (req.line ++ 0 :: mem.drop (req.line.length + 1)) req.line.length [] w out := by
  obtain ⟨-, hline⟩ := h.nul_mem hrejected hlen
  have hbuilt := httpBuildRequestLine_spec hlen hblank hline
  obtain ⟨fuel, res, req', snk', w', hrun, -⟩ := h ⟨[], []⟩
  unfold sendRequest at hrun
  obtain ⟨⟨used, req₁, mem₁⟩, hbuild, hrun⟩ := Option.bind_eq_some_iff.mp hrun
  rw [hbuilt] at hbuild
  split at hbuild
  next hlt =>
    cases hbuild
    dsimp only at hrun
    rw [if_neg (Int.not_lt.mpr (Int.natCast_nonneg _)), Int.toNat_natCast] at hrun
    obtain ⟨⟨res₁, req₂, mem₂, snk₁, w₁⟩, hheaders, -⟩ := Option.bind_eq_some_iff.mp hrun
    obtain rfl : res₁ = none := (sendHeaders_any_sink hheaders).1
    exact ⟨hlt, snk₁.accepted, fuel, req₂, mem₂, snk₁, w₁, hheaders, rfl⟩
  next => cases hbuild

section HeadersSet

variable {req : CurlRequest} {hs : List (Bytes × Bytes)} {w : World EfString}
  {req' : CurlRequest} {w' : World EfString}

/-- In a block that is blank for the line, a request is bounded if the line is turned away, or if
it has one header that fits. -/
theorem bounded_iff (hfresh : req.headers = none) (htext : ∀ h ∈ hs, 0 ∉ h.1 ∧ 0 ∉ h.2)
    (hset : setHeaders hs req w = some (0, req', w')) {mem : Bytes}
    (hlen : mem.length = maxHeaderBufsize) (hblank : BlankFor req mem) :
    Bounded req' hs mem w' ↔ LineRejected req ∨ OneHeaderFits req hs := by
  by_cases hne : hs = []
  · -- without headers the table is NULL
    subst hne
    cases hset
    constructor
    · intro h
      by_contra hno
      rw [not_or] at hno
      obtain ⟨_, out, hsends⟩ := h.sends hno.1 hlen hblank
      refine not_sends_none rfl ?_ hsends
      unfold httpBuildRequestHeader
      change req.headers.bind _ = none
      rw [hfresh]
      rfl
    · rintro (hrejected | ⟨name, value, hlast, _⟩)
      · exact hrejected.bounded [] mem w
      · cases hlast
  · obtain ⟨tbl, rfl, hkeeps, name, value, hmem, hvalue, hfirst⟩ :=
      setHeaders_first hfresh htext hne hset
    have hsends : ∀ out, req.line.length < maxHeaderBufsize →
        (requestField name value).length ≤ maxHeaderBufsize →
        (Sends { ({ req with headers := some tbl } : CurlRequest).filled with status := .header }
          (req.line ++ 0 :: mem.drop (req.line.length + 1)) req.line.length [] w' out ↔ _) :=
      fun out hlt hfield => hfirst.sends_line_iff rfl rfl req.line 0 _ w'
        (by rw [List.length_drop, hlen]; omega) hfield out
    rw [hkeeps.oneHeaderFits_iff hmem hvalue]
    constructor
    · intro h
      by_cases hrejected : LineRejected req
      · exact Or.inl hrejected
      obtain ⟨hlt, out, hsent⟩ :=
        h.sends hrejected hlen ⟨hblank.method, hblank.uri, hblank.protocol⟩
      by_cases hfield : (requestField name value).length ≤ maxHeaderBufsize
      · obtain ⟨hone, hfit, -⟩ := (hsends out hlt hfield).mp hsent
        exact Or.inr ⟨hone, hlt, hfit⟩
      · exact absurd hsent
          (hfirst.not_sends rfl rfl (Nat.lt_of_not_le hfield) req.line 0 _ [] w' out)
    · rintro (hrejected | ⟨hone, hlt, hfit⟩)
      · exact @LineRejected.bounded { req with headers := some tbl } hrejected hs mem w'
      · obtain ⟨fuel, req₁, snk₁, w₁, hrun, -⟩ := (@sendRequest_iff { req with headers := some tbl }
          mem hlen ⟨hblank.method, hblank.uri, hblank.protocol⟩ (Nat.le_of_lt hlt) w'
          (fun _ => True)).mpr ⟨hlt, _, trivial, (hsends _ hlt (by omega)).mpr ⟨hone, hfit, rfl⟩⟩
        refine Bounded.of_accepted hrun ?_
        rintro ⟨name', value', hset', hlong⟩
        have hin := (hkeeps.keys name').mp (by rw [hset']; simp)
        obtain ⟨h, hh, rfl⟩ := List.mem_map.mp (List.mem_toFinset.mp hin)
        rw [((hkeeps.used_eq_one_iff hmem hvalue).mp hone).2 h hh, hvalue] at hset'
        cases hset'
        rw [((hkeeps.used_eq_one_iff hmem hvalue).mp hone).2 h hh] at hlong
        omega

/-- A request is bounded in every local block if its line is turned away. In a block that is blank
for the line it is also bounded if it has one header, that fits. -/
theorem ef_curl_exec_bounded (hfresh : req.headers = none) (htext : ∀ h ∈ hs, 0 ∉ h.1 ∧ 0 ∉ h.2)
    (hset : setHeaders hs req w = some (0, req', w')) :
    ((∀ mem : Bytes, mem.length = maxHeaderBufsize → Bounded req' hs mem w') ↔
        LineRejected req) ∧
      ∀ mem : Bytes, mem.length = maxHeaderBufsize → BlankFor req mem →
        (Bounded req' hs mem w' ↔ LineRejected req ∨ OneHeaderFits req hs) := by
  have hsame : LineRejected req' ↔ LineRejected req := by
    by_cases hne : hs = []
    · subst hne
      cases hset
      rfl
    · obtain ⟨tbl, rfl, _⟩ := setHeaders_spec hfresh hne hset
      rfl
  refine ⟨⟨fun hall => ?_, fun h mem _ => (hsame.mpr h).bounded hs mem w'⟩,
    fun mem hlen hblank => bounded_iff hfresh htext hset hlen hblank⟩
  by_contra hrejected
  obtain ⟨hmem, -⟩ := (hall (List.replicate maxHeaderBufsize 1) List.length_replicate).nul_mem
    (fun h => hrejected (hsame.mp h)) List.length_replicate
  have hone := List.eq_of_mem_replicate hmem
  cases hone

end HeadersSet

/-- `Host:h` in a block of zeros. -/
theorem ef_curl_exec_bounded_host :
    ∃ req' w', setHeaders [([72, 111, 115, 116], [104])] .zero ⟨⟨[], 0, 0⟩, []⟩ =
        some (0, req', w') ∧
      Bounded req' [([72, 111, 115, 116], [104])] (List.replicate maxHeaderBufsize 0) w' := by
  have hset : (setHeaders [([72, 111, 115, 116], [104])] .zero ⟨⟨[], 0, 0⟩, []⟩).map (·.1) =
      some 0 := by decide +kernel
  obtain ⟨req', w', hset⟩ := setHeaders_of_ret hset
  exact ⟨req', w', hset, ((ef_curl_exec_bounded rfl (by decide) hset).2 _ List.length_replicate
    ⟨blank_block (by decide), blank_block (by decide), blank_block (by decide)⟩).mpr
    (Or.inr ⟨[72, 111, 115, 116], [104], rfl, by decide, by decide, Or.inl (by decide)⟩)⟩

/-- A header of 1103 bytes in a block of zeros: the loop does not end. -/
theorem ef_curl_exec_bounded_long :
    ∃ req' w', setHeaders [([65], List.replicate 1100 98)] .zero ⟨⟨[], 0, 0⟩, []⟩ =
        some (0, req', w') ∧
      ¬ Bounded req' [([65], List.replicate 1100 98)] (List.replicate maxHeaderBufsize 0) w' := by
  have hset : (setHeaders [([65], List.replicate 1100 98)] .zero ⟨⟨[], 0, 0⟩, []⟩).map (·.1) =
      some 0 := by decide +kernel
  obtain ⟨req', w', hset⟩ := setHeaders_of_ret hset
  have htext : ∀ h ∈ [(([65] : Bytes), List.replicate 1100 (98 : UInt8))], 0 ∉ h.1 ∧ 0 ∉ h.2 := by
    intro h hh
    obtain rfl := List.mem_singleton.mp hh
    refine ⟨by decide, fun hmem => ?_⟩
    have hval := List.eq_of_mem_replicate hmem
    cases hval
  refine ⟨req', w', hset, fun h => ?_⟩
  rcases (bounded_iff rfl htext hset List.length_replicate
    ⟨blank_block (by decide), blank_block (by decide), blank_block (by decide)⟩).mp h with
    ⟨size, hsize, hlt⟩ | ⟨name, value, hlast, _, _, hroom⟩
  · have hline : requestLineSize CurlRequest.zero.methodText CurlRequest.zero.uriText
        CurlRequest.zero.protocolText = some 16 := by decide
    rw [hline] at hsize
    cases hsize
    exact absurd hlt (by decide)
  · cases hlast
    rw [length_requestField, List.length_replicate] at hroom
    have hmax : maxHeaderBufsize = 1024 := rfl
    simp only [List.length_singleton] at hroom
    omega

end EFramework
