import EFramework.Http.Request

/-! # What a request is on the wire

The first bucket of a table that only grew holds a header, and has no key any more when
that header is sent. A second header is then asked of a key that is NULL, so that a
request goes out if it has one header, and no NUL is stored behind the block.
-/

namespace EFramework

open Lib

/-! ## Setting headers -/

def setHeaders : List (Bytes × Bytes) → CurlRequest → World EfString →
    Option (Int × CurlRequest × World EfString)
  | [], req, w => some (0, req, w)
  | (header, content) :: hs, req, w => do
      let (ret, req, w) ← efCurlSetHeader req header content w
      if ret < 0 then pure (ret, req, w) else setHeaders hs req w

/-- The headers that are set when a list of headers was set: the last content of each. -/
def headersSet (hs : List (Bytes × Bytes)) (m : KeyMap EfString) : KeyMap EfString :=
  hs.foldl (fun m h => Function.update m h.1 (some (some ⟨h.2⟩))) m

theorem headersSet_eq {hs : List (Bytes × Bytes)} {m : KeyMap EfString} {name : Bytes}
    {v : Option EfString} (h : headersSet hs m name = some v) :
    m name = some v ∨ ∃ value, (name, value) ∈ hs ∧ v = some ⟨value⟩ := by
  induction hs generalizing m with
  | nil => exact Or.inl h
  | cons p hs ih =>
      rcases ih h with h | ⟨value, hmem, rfl⟩
      · dsimp only at h
        rw [Function.update_apply] at h
        split at h
        next heq =>
          cases h
          exact Or.inr ⟨p.2, by rw [heq]; exact List.mem_cons_self, rfl⟩
        next => exact Or.inl h
      · exact Or.inr ⟨value, List.mem_cons_of_mem _ hmem, rfl⟩

theorem headersSet_append (hs : List (Bytes × Bytes)) (name value : Bytes) (m : KeyMap EfString) :
    headersSet (hs ++ [(name, value)]) m =
      Function.update (headersSet hs m) name (some (some ⟨value⟩)) := by
  rw [headersSet, List.foldl_append]
  rfl

theorem Keeps.set_header {tbl : Stringtab} {m : KeyMap EfString} {kept : Finset Bytes}
    (h : Keeps tbl m kept) (hgrown : tbl.removed = nil32) {req : CurlRequest}
    (hreq : req.headers = some tbl) (header content : Bytes) (w : World EfString)
    {req' : CurlRequest} {ret : Int} {w' : World EfString} (hret : ¬ ret < 0)
    (he : efCurlSetHeader req header content w = some (ret, req', w')) :
    ∃ tbl' : Stringtab, req' = { req with headers := some tbl' } ∧ tbl'.removed = nil32 ∧
      Keeps tbl' (Function.update m header (some (some ⟨content⟩))) (insert header kept) := by
  obtain ⟨r, tbl', w₁, hset, _, hcases⟩ := h.set_string
    (stringLen_append_nul header []) (by simp) (content ++ [0]) content.length w
  unfold efCurlSetHeader at he
  rw [hreq] at he
  dsimp only at he
  rw [show ({ w with heap := w.heap } : World EfString) = w from rfl, hset] at he
  cases he
  rcases hcases with ⟨hr, hkeeps, hremoved⟩ | ⟨rfl, _⟩
  · rw [List.take_left, stringLen_append_nul content [], List.take_left] at hkeeps
    exact ⟨tbl', rfl, hremoved hgrown, hkeeps⟩
  · exact absurd (show (-1 : Int) < 0 by decide) hret

theorem Keeps.set_headers {tbl : Stringtab} {m : KeyMap EfString} {kept : Finset Bytes}
    (h : Keeps tbl m kept) (hgrown : tbl.removed = nil32) {req : CurlRequest}
    (hreq : req.headers = some tbl) (hs : List (Bytes × Bytes)) {w : World EfString}
    {req' : CurlRequest} {w' : World EfString} (he : setHeaders hs req w = some (0, req', w')) :
    ∃ tbl' : Stringtab, req' = { req with headers := some tbl' } ∧ tbl'.removed = nil32 ∧
      Keeps tbl' (headersSet hs m) (kept ∪ (hs.map Prod.fst).toFinset) := by
  induction hs generalizing tbl m kept req w with
  | nil =>
      cases he
      refine ⟨tbl, ?_, hgrown, ?_⟩
      · rw [← hreq]
      · rw [List.map_nil, List.toFinset_nil, Finset.union_empty]
        exact h
  | cons p hs ih =>
      obtain ⟨header, content⟩ := p
      rw [setHeaders] at he
      obtain ⟨⟨ret, req₁, w₁⟩, hset, he⟩ := Option.bind_eq_some_iff.mp he
      dsimp only at he
      split at he
      next hneg =>
        cases he
        exact absurd hneg (by decide)
      next hret =>
        obtain ⟨tbl₁, rfl, hgrown₁, h₁⟩ := h.set_header hgrown hreq header content w hret hset
        obtain ⟨tbl', rfl, hgrown', h'⟩ := ih h₁ hgrown₁ rfl he
        refine ⟨tbl', rfl, hgrown', ?_⟩
        rwa [List.map_cons, List.toFinset_cons, Finset.union_insert, ← Finset.insert_union]

/-- The first call makes the table. -/
theorem setHeaders_spec {req : CurlRequest} (hfresh : req.headers = none)
    {hs : List (Bytes × Bytes)} (hne : hs ≠ []) {w : World EfString} {req' : CurlRequest}
    {w' : World EfString} (he : setHeaders hs req w = some (0, req', w')) :
    ∃ tbl : Stringtab, req' = { req with headers := some tbl } ∧ tbl.removed = nil32 ∧
      Keeps tbl (headersSet hs (fun _ => none)) (hs.map Prod.fst).toFinset := by
  obtain ⟨⟨header, content⟩, hs, rfl⟩ := List.exists_cons_of_ne_nil hne
  obtain ⟨_, _, hnew⟩ := Stringtab.new_spec w.heap
  cases htbl : (efStringtabNew 0 w.heap).1 with
  | none =>
      rw [setHeaders] at he
      unfold efCurlSetHeader at he
      rw [hfresh] at he
      dsimp only at he
      rw [show efStringtabNew 0 w.heap = (none, (efStringtabNew 0 w.heap).2) from
        Prod.ext htbl rfl] at he
      cases he
  | some tbl =>
      -- the calls are the same as on a request with the new table
      have hsame : setHeaders ((header, content) :: hs) req w =
          setHeaders ((header, content) :: hs) { req with headers := some tbl }
            { w with heap := (efStringtabNew 0 w.heap).2 } := by
        rw [setHeaders, setHeaders]
        unfold efCurlSetHeader
        rw [hfresh]
        dsimp only
        rw [show efStringtabNew 0 w.heap = (some tbl, (efStringtabNew 0 w.heap).2) from
          Prod.ext htbl rfl]
      obtain ⟨hwf, hrep⟩ := hnew tbl htbl
      have hempty : Keeps tbl (fun _ => none) ∅ := ⟨hwf, hrep, fun k => by simp⟩
      have hgrown : tbl.removed = nil32 := Hashtable.new_removed
        (show efHashtableNew EfString 0 true w.heap = (some tbl, (efStringtabNew 0 w.heap).2) from
          Prod.ext htbl rfl)
      rw [hsame] at he
      obtain ⟨tbl', rfl, hgrown', h'⟩ := hempty.set_headers hgrown rfl _ he
      rw [Finset.empty_union] at h'
      exact ⟨tbl', rfl, hgrown', h'⟩

/-! ## Sending the headers -/

def Sends (req : CurlRequest) (mem : Bytes) (pos : Nat) (accepted : Bytes) (w : World EfString)
    (out : Bytes) : Prop :=
  ∃ fuel req' mem' snk w', sendHeaders fuel req mem pos ⟨accepted, []⟩ w =
    some (none, req', mem', snk, w') ∧ snk.accepted = out

/-- `Sends` in terms of the next call of `http_build_request_header`. -/
theorem sends_iff {req : CurlRequest} (hreq : req.status = .header) (mem : Bytes) (pos : Nat)
    (accepted : Bytes) (w : World EfString) (out : Bytes) :
    Sends req mem pos accepted w out ↔
      ∃ used req' mem' w', httpBuildRequestHeader req mem pos (maxHeaderBufsize - pos) w =
          some (used, req', mem', w') ∧
        if used < 0 ∨ req'.status = .body then
          Sends req' mem' 0 (accepted ++ mem'.take (if 0 < used then pos + used.toNat else pos)) w'
            out
        else Sends req' mem' (pos + used.toNat) accepted w' out := by
  have hstep : ∀ fuel, sendHeaders (fuel + 1) req mem pos ⟨accepted, []⟩ w =
      (httpBuildRequestHeader req mem pos (maxHeaderBufsize - pos) w).bind (fun r =>
        if r.1 < 0 ∨ r.2.1.status = .body then
          sendHeaders fuel r.2.1 r.2.2.1 0
            ⟨accepted ++ r.2.2.1.take (if 0 < r.1 then pos + r.1.toNat else pos), []⟩ r.2.2.2
        else sendHeaders fuel r.2.1 r.2.2.1 (pos + r.1.toNat) ⟨accepted, []⟩ r.2.2.2) := by
    intro fuel
    rw [sendHeaders, if_pos hreq]
    refine congrArg _ (funext fun r => ?_)
    dsimp only [efWrapWrite]
    split
    next => rw [if_neg (by omega)]
    next => rfl
  constructor
  · rintro ⟨fuel, reqₑ, memₑ, snk, wₑ, h, hout⟩
    cases fuel with
    | zero => cases h
    | succ fuel =>
        rw [hstep] at h
        obtain ⟨⟨used, req', mem', w'⟩, hbuild, h⟩ := Option.bind_eq_some_iff.mp h
        refine ⟨used, req', mem', w', hbuild, ?_⟩
        split at h
        next hflush =>
          rw [if_pos hflush]
          exact ⟨fuel, reqₑ, memₑ, snk, wₑ, h, hout⟩
        next hflush =>
          rw [if_neg hflush]
          exact ⟨fuel, reqₑ, memₑ, snk, wₑ, h, hout⟩
  · rintro ⟨used, req', mem', w', hbuild, h⟩
    split at h
    next hflush =>
      obtain ⟨fuel, reqₑ, memₑ, snk, wₑ, h, hout⟩ := h
      refine ⟨fuel + 1, reqₑ, memₑ, snk, wₑ, ?_, hout⟩
      rw [hstep, hbuild, Option.bind_some, if_pos hflush]
      exact h
    next hflush =>
      obtain ⟨fuel, reqₑ, memₑ, snk, wₑ, h, hout⟩ := h
      refine ⟨fuel + 1, reqₑ, memₑ, snk, wₑ, ?_, hout⟩
      rw [hstep, hbuild, Option.bind_some, if_neg hflush]
      exact h

/-- Behind the headers the loop is over. -/
theorem sends_done {req : CurlRequest} (hreq : req.status ≠ .header) (mem : Bytes) (pos : Nat)
    (accepted : Bytes) (w : World EfString) (out : Bytes) :
    Sends req mem pos accepted w out ↔ out = accepted := by
  constructor
  · rintro ⟨fuel, reqₑ, memₑ, snk, wₑ, h, rfl⟩
    cases fuel with
    | zero => cases h
    | succ fuel =>
        rw [sendHeaders, if_neg hreq] at h
        cases h
        rfl
  · rintro rfl
    refine ⟨1, req, mem, ⟨out, []⟩, w, ?_, rfl⟩
    rw [sendHeaders, if_neg hreq]
    rfl

theorem not_sends_none {req : CurlRequest} (hreq : req.status = .header) {mem : Bytes} {pos : Nat}
    {accepted : Bytes} {w : World EfString} {out : Bytes}
    (h : httpBuildRequestHeader req mem pos (maxHeaderBufsize - pos) w = none) :
    ¬ Sends req mem pos accepted w out := by
  rw [sends_iff hreq]
  rintro ⟨used, req', mem', w', hbuild, _⟩
  rw [h] at hbuild
  cases hbuild

/-- A table whose first bucket is empty: the headers are over, or the key that is NULL is read. -/
theorem sends_emptied {req : CurlRequest} (hreq : req.status = .header) {tbl : Stringtab}
    (htbl : req.headers = some tbl) (hkey : (tbl.bucket 0).key = none) (t rest accepted : Bytes)
    (w : World EfString) (out : Bytes) :
    Sends req (t ++ 0 :: rest) t.length accepted w out ↔
      tbl.used = 0 ∧ 2 ≤ rest.length ∧ out = accepted ++ t ++ crlf := by
  have hcrlf : crlf.length = 2 := rfl
  have hbuild : httpBuildRequestHeader req (t ++ 0 :: rest) t.length
      (maxHeaderBufsize - t.length) w =
      if tbl.used = 0 then (if 2 ≤ rest.length then some ((t ++ crlf) ++ 0 :: rest.drop 2)
        else none).bind (fun mem => some (2, { req with status := .body }, mem, w)) else none := by
    unfold httpBuildRequestHeader
    rw [htbl]
    change (if tbl.used = 0 then (strcat _ _ crlf).bind _ else (tbl.bucket 0).key.bind _) = _
    rw [hkey, strcat_append, hcrlf]
    rfl
  by_cases hused : tbl.used = 0
  · rw [if_pos hused] at hbuild
    by_cases hfit : 2 ≤ rest.length
    · rw [if_pos hfit, Option.bind_some] at hbuild
      have hout : ((t ++ crlf) ++ 0 :: rest.drop 2).take (t.length + 2) = t ++ crlf := by
        rw [← hcrlf, ← List.length_append, List.take_left]
      constructor
      · intro h
        obtain ⟨used, req', mem', w', he, h⟩ := (sends_iff hreq ..).mp h
        rw [hbuild] at he
        cases he
        rw [if_pos (Or.inr rfl), sends_done (by simp), if_pos (by decide)] at h
        refine ⟨hused, hfit, ?_⟩
        rw [List.append_assoc accepted, ← hout]
        exact h
      · rintro ⟨_, _, rfl⟩
        refine (sends_iff hreq ..).mpr ⟨_, _, _, _, hbuild, ?_⟩
        rw [if_pos (Or.inr rfl), sends_done (by simp), if_pos (by decide)]
        exact (List.append_assoc ..).trans (congrArg (accepted ++ ·) hout.symm)
    · rw [if_neg hfit] at hbuild
      exact iff_of_false (not_sends_none hreq hbuild) (fun h => hfit h.2.1)
  · rw [if_neg hused] at hbuild
    exact iff_of_false (not_sends_none hreq hbuild) (fun h => hused h.1)

/-- The first header goes out if it is the only one, and there is room for it and the end. -/
theorem FirstHeader.sends_iff {tbl : Stringtab} {name value : Bytes}
    (h : FirstHeader tbl name value) {req : CurlRequest} (hreq : req.status = .header)
    (htbl : req.headers = some tbl) (t : Bytes) (b : UInt8) (rest accepted : Bytes)
    (w : World EfString) (hcap : (requestField name value).length ≤ maxHeaderBufsize - t.length)
    (out : Bytes) :
    Sends req (t ++ b :: rest) t.length accepted w out ↔
      tbl.used = 1 ∧ (requestField name value).length + 2 ≤ rest.length ∧
        out = accepted ++ t ++ requestField name value ++ crlf := by
  have hbuild := h.build_spec htbl t b rest (maxHeaderBufsize - t.length) w
  rw [if_neg (Nat.not_lt.mpr hcap)] at hbuild
  split at hbuild
  next hfit =>
    obtain ⟨tbl', w', hbuild, hused, hkey⟩ := hbuild
    have hpos := h.used_pos
    rw [EFramework.sends_iff hreq]
    have hnext := @sends_emptied { req with headers := some tbl' } hreq tbl' rfl hkey
      (t ++ requestField name value) (rest.drop (requestField name value).length) accepted w' out
    rw [hused, List.length_drop, List.length_append] at hnext
    constructor
    · rintro ⟨used, req', mem', w'', he, hs⟩
      rw [hbuild] at he
      cases he
      rw [if_neg (by simp [hreq]), Int.toNat_natCast, hnext] at hs
      refine ⟨by omega, by omega, ?_⟩
      rw [hs.2.2, ← List.append_assoc accepted]
    · rintro ⟨h₁, h₂, rfl⟩
      refine ⟨_, _, _, _, hbuild, ?_⟩
      rw [if_neg (by simp [hreq]), Int.toNat_natCast, hnext]
      exact ⟨by omega, by omega, by rw [← List.append_assoc accepted]⟩
  next hfit =>
    exact iff_of_false (not_sends_none hreq hbuild) (fun h => hfit (by omega))

theorem FirstHeader.sends_line_iff {tbl : Stringtab} {name value : Bytes}
    (h : FirstHeader tbl name value) {req : CurlRequest} (hreq : req.status = .header)
    (htbl : req.headers = some tbl) (t : Bytes) (b : UInt8) (rest : Bytes) (w : World EfString)
    (hlen : t.length + 1 + rest.length = maxHeaderBufsize)
    (hfield : (requestField name value).length ≤ maxHeaderBufsize) (out : Bytes) :
    Sends req (t ++ b :: rest) t.length [] w out ↔
      tbl.used = 1 ∧ (t.length + (requestField name value).length + 2 < maxHeaderBufsize ∨
          maxHeaderBufsize < t.length + (requestField name value).length ∧
            (requestField name value).length + 2 < maxHeaderBufsize) ∧
        out = t ++ requestField name value ++ crlf := by
  by_cases hcap : (requestField name value).length ≤ maxHeaderBufsize - t.length
  · rw [h.sends_iff hreq htbl t b rest [] w hcap]
    constructor
    · rintro ⟨h₁, h₂, h₃⟩
      exact ⟨h₁, Or.inl (by omega), h₃⟩
    · rintro ⟨h₁, h₂, h₃⟩
      exact ⟨h₁, by omega, h₃⟩
  · -- the text so far is written out, and the header is put over it
    have hbuild := h.build_spec htbl t b rest (maxHeaderBufsize - t.length) w
    rw [if_pos (Nat.lt_of_not_le hcap)] at hbuild
    obtain ⟨c, tail, hmem⟩ : ∃ c tail, t ++ b :: rest = c :: tail :=
      List.exists_cons_of_ne_nil (by simp)
    have htail := congrArg List.length hmem
    rw [List.length_append, List.length_cons, List.length_cons] at htail
    have hafter := h.sends_iff hreq htbl [] c tail t w (by simpa using hfield) out
    rw [List.nil_append, List.append_nil, List.length_nil] at hafter
    have hflush : Sends req (t ++ b :: rest) t.length [] w out ↔
        Sends req (t ++ b :: rest) 0 t w out := by
      rw [EFramework.sends_iff hreq]
      constructor
      · rintro ⟨used, req', mem', w', he, hs⟩
        rw [hbuild] at he
        cases he
        rw [if_pos (Or.inl (by decide)), if_neg (by decide), List.take_left] at hs
        exact hs
      · intro hs
        refine ⟨_, _, _, _, hbuild, ?_⟩
        rw [if_pos (Or.inl (by decide)), if_neg (by decide), List.take_left]
        exact hs
    rw [hflush, hmem, hafter]
    constructor
    · rintro ⟨h₁, h₂, h₃⟩
      exact ⟨h₁, Or.inr (by omega), h₃⟩
    · rintro ⟨h₁, h₂, h₃⟩
      exact ⟨h₁, by omega, h₃⟩

/-! ## The whole request -/

theorem Keeps.firstHeader {tbl : Stringtab} {hs : List (Bytes × Bytes)} {kept : Finset Bytes}
    (h : Keeps tbl (headersSet hs (fun _ => none)) kept) (hgrown : tbl.removed = nil32)
    (hne : kept.Nonempty) (htext : ∀ p ∈ hs, 0 ∉ p.1 ∧ 0 ∉ p.2) :
    ∃ name value, (name, value) ∈ hs ∧
      headersSet hs (fun _ => none) name = some (some ⟨value⟩) ∧ FirstHeader tbl name value := by
  have hused := h.used_eq
  have hpos := hne.card_pos
  have hlive := h.wf.first_live hgrown (by omega)
  obtain ⟨⟨name⟩, hkey, _, _⟩ := h.wf.linked.live_key 0 hlive
  have hmaps : Hashtable.Maps tbl name (tbl.bucket 0).val := ⟨0, hlive, hkey, rfl⟩
  have hset := (h.represents name _).mpr hmaps
  rcases headersSet_eq hset with hnone | ⟨value, hmem, hval⟩
  · cases hnone
  · rw [hval] at hset
    refine ⟨name, value, hmem, hset, h.wf, hlive, hkey, ?_, by omega, (htext _ hmem).1,
      (htext _ hmem).2⟩
    rcases h.wf.find_represents h.represents (Nat.le_refl name.length) with
      ⟨hnone, _⟩ | ⟨v, i, hv, hfind, _, hi⟩
    · rw [List.take_length, hset] at hnone
      cases hnone
    · rw [List.take_length, hset] at hv
      cases hv
      unfold efStringtabFind
      rw [hfind]
      exact congrArg some hi

/-- The bytes that are written before the response is read: the line, every header once, in
some order, and the end. -/
def Serialises (req : CurlRequest) (hs : List (Bytes × Bytes)) (mem : Bytes)
    (w : World EfString) : Prop :=
  ∃ fuel req' snk w', sendRequest fuel req mem ⟨[], []⟩ w = some (none, req', snk, w') ∧
    ∃ order : List (Bytes × Bytes), order.Nodup ∧
      (∀ name value, (name, value) ∈ order ↔
        headersSet hs (fun _ => none) name = some (some ⟨value⟩)) ∧
      snk.accepted = req.line ++ order.flatMap (fun h => requestField h.1 h.2) ++ crlf

/-- There is one header, perhaps set more than once, and a NUL behind the text always fits:
behind the line and the header, or behind each of them if they are written one by one. -/
def OneHeaderFits (req : CurlRequest) (hs : List (Bytes × Bytes)) : Prop :=
  ∃ name value, hs.getLast? = some (name, value) ∧ (∀ h ∈ hs, h.1 = name) ∧
    req.line.length < maxHeaderBufsize ∧
    (req.line.length + (requestField name value).length + 2 < maxHeaderBufsize ∨
      maxHeaderBufsize < req.line.length + (requestField name value).length ∧
        (requestField name value).length + 2 < maxHeaderBufsize)

/-- The bytes of a request, if the block is blank for its line. -/
theorem sendRequest_iff {req : CurlRequest} {mem : Bytes} (hlen : mem.length = maxHeaderBufsize)
    (hblank : BlankFor req mem) (hline : req.line.length ≤ maxHeaderBufsize) (w : World EfString)
    (p : Bytes → Prop) :
    (∃ fuel req' snk w', sendRequest fuel req mem ⟨[], []⟩ w = some (none, req', snk, w') ∧
        p snk.accepted) ↔
      req.line.length < maxHeaderBufsize ∧ ∃ out, p out ∧
        Sends { req.filled with status := .header }
          (req.line ++ 0 :: mem.drop (req.line.length + 1)) req.line.length [] w out := by
  have hbuilt := httpBuildRequestLine_spec hlen hblank hline
  by_cases hlt : req.line.length < maxHeaderBufsize
  · have hsend : ∀ fuel, sendRequest fuel req mem ⟨[], []⟩ w =
        (sendHeaders fuel { req.filled with status := .header }
          (req.line ++ 0 :: mem.drop (req.line.length + 1)) req.line.length ⟨[], []⟩ w).bind
          (fun r => some (r.1, if r.1 = none then (httpBuildRequestBody r.2.1).2 else r.2.1,
            r.2.2.2.1, r.2.2.2.2)) := by
      intro fuel
      unfold sendRequest
      rw [hbuilt, if_pos hlt]
      change (sendHeaders fuel { req.filled with status := .header }
        (req.line ++ 0 :: mem.drop (req.line.length + 1)) req.line.length ⟨[], []⟩ w).bind _ = _
      refine congrArg _ (funext fun r => ?_)
      obtain ⟨_ | res, _⟩ := r <;> rfl
    constructor
    · rintro ⟨fuel, req', snk, w', h, hp⟩
      rw [hsend] at h
      obtain ⟨⟨res, req₁, mem₁, snk₁, w₁⟩, hrun, h⟩ := Option.bind_eq_some_iff.mp h
      cases h
      exact ⟨hlt, _, hp, fuel, _, _, _, _, hrun, rfl⟩
    · rintro ⟨_, out, hp, fuel, req', mem', snk, w', hrun, rfl⟩
      refine ⟨fuel, (httpBuildRequestBody req').2, snk, w', ?_, hp⟩
      rw [hsend, hrun]
      rfl
  · rw [if_neg hlt] at hbuilt
    refine iff_of_false ?_ (fun h => hlt h.1)
    rintro ⟨fuel, req', snk, w', h, _⟩
    unfold sendRequest at h
    rw [hbuilt] at h
    cases h

theorem not_serialises_of_not_mem {req : CurlRequest} {mem : Bytes} (hmem : (0 : UInt8) ∉ mem)
    (hline : req.line.length ≤ maxHeaderBufsize) (hs : List (Bytes × Bytes)) (w : World EfString) :
    ¬ Serialises req hs mem w := by
  rintro ⟨fuel, req', snk, w', h, _⟩
  have hbuilt : httpBuildRequestLine req mem maxHeaderBufsize = none := by
    have hint : maxHeaderBufsize < 2 ^ 31 := by decide
    rw [httpBuildRequestLine_eq (by omega), if_neg (Nat.not_lt.mpr hline), strcat_of_not_mem hmem]
    rfl
  unfold sendRequest at h
  rw [hbuilt] at h
  cases h

theorem Keeps.used_eq_one_iff {tbl : Stringtab} {hs : List (Bytes × Bytes)}
    (h : Keeps tbl (headersSet hs (fun _ => none)) (hs.map Prod.fst).toFinset)
    {name value : Bytes} (hmem : (name, value) ∈ hs)
    (hvalue : headersSet hs (fun _ => none) name = some (some ⟨value⟩)) :
    tbl.used = 1 ↔ hs.getLast? = some (name, value) ∧ ∀ h ∈ hs, h.1 = name := by
  have hname : name ∈ (hs.map Prod.fst).toFinset :=
    List.mem_toFinset.mpr (List.mem_map_of_mem hmem)
  rw [h.used_eq, Finset.card_eq_one]
  constructor
  · rintro ⟨only, honly⟩
    have hall : ∀ h ∈ hs, h.1 = name := by
      intro h hin
      have honly' : ∀ k ∈ (hs.map Prod.fst).toFinset, k = only := by simp [honly]
      rw [honly' name hname, honly' h.1 (List.mem_toFinset.mpr (List.mem_map_of_mem hin))]
    obtain ⟨hs', ⟨last, content⟩, rfl⟩ :=
      (List.eq_nil_or_concat' hs).resolve_left (List.ne_nil_of_mem hmem)
    obtain rfl : last = name := hall (last, content) (by simp)
    rw [headersSet_append, Function.update_self] at hvalue
    cases hvalue
    exact ⟨by simp, hall⟩
  · rintro ⟨_, hall⟩
    refine ⟨name, Finset.eq_singleton_iff_unique_mem.mpr ⟨hname, fun k hk => ?_⟩⟩
    obtain ⟨h, hin, rfl⟩ := List.mem_map.mp (List.mem_toFinset.mp hk)
    exact hall h hin

theorem Keeps.oneHeaderFits_iff {tbl : Stringtab} {hs : List (Bytes × Bytes)}
    (h : Keeps tbl (headersSet hs (fun _ => none)) (hs.map Prod.fst).toFinset)
    {name value : Bytes} (hmem : (name, value) ∈ hs)
    (hvalue : headersSet hs (fun _ => none) name = some (some ⟨value⟩)) (req : CurlRequest) :
    OneHeaderFits req hs ↔ tbl.used = 1 ∧ req.line.length < maxHeaderBufsize ∧
      (req.line.length + (requestField name value).length + 2 < maxHeaderBufsize ∨
        maxHeaderBufsize < req.line.length + (requestField name value).length ∧
          (requestField name value).length + 2 < maxHeaderBufsize) := by
  rw [h.used_eq_one_iff hmem hvalue]
  constructor
  · rintro ⟨last, content, hlast, hall, hroom⟩
    obtain rfl : name = last := hall _ hmem
    obtain ⟨hs', rfl⟩ := List.getLast?_eq_some_iff.mp hlast
    rw [headersSet_append, Function.update_self] at hvalue
    cases hvalue
    exact ⟨⟨hlast, hall⟩, hroom⟩
  · rintro ⟨⟨hlast, hall⟩, hroom⟩
    exact ⟨name, value, hlast, hall, hroom⟩

section HeadersSet

variable {req : CurlRequest} {hs : List (Bytes × Bytes)} {w : World EfString}
  {req' : CurlRequest} {w' : World EfString}

theorem setHeaders_first (hfresh : req.headers = none) (htext : ∀ h ∈ hs, 0 ∉ h.1 ∧ 0 ∉ h.2)
    (hne : hs ≠ []) (hset : setHeaders hs req w = some (0, req', w')) :
    ∃ tbl : Stringtab, req' = { req with headers := some tbl } ∧
      Keeps tbl (headersSet hs (fun _ => none)) (hs.map Prod.fst).toFinset ∧
      ∃ name value, (name, value) ∈ hs ∧
        headersSet hs (fun _ => none) name = some (some ⟨value⟩) ∧ FirstHeader tbl name value := by
  obtain ⟨tbl, rfl, hgrown, hkeeps⟩ := setHeaders_spec hfresh hne hset
  have hnames : (hs.map Prod.fst).toFinset.Nonempty := by
    obtain ⟨h, hs, rfl⟩ := List.exists_cons_of_ne_nil hne
    exact ⟨h.1, by simp⟩
  exact ⟨tbl, rfl, hkeeps, hkeeps.firstHeader hgrown hnames htext⟩

/-- In a block that is blank for the line, a request goes out if it has one header that fits. -/
theorem serialises_iff (hfresh : req.headers = none) (htext : ∀ h ∈ hs, 0 ∉ h.1 ∧ 0 ∉ h.2)
    (hline : req.line.length ≤ maxHeaderBufsize)
    (hfields : ∀ h ∈ hs, (requestField h.1 h.2).length ≤ maxHeaderBufsize)
    (hset : setHeaders hs req w = some (0, req', w')) {mem : Bytes}
    (hlen : mem.length = maxHeaderBufsize) (hblank : BlankFor req mem) :
    Serialises req' hs mem w' ↔ OneHeaderFits req hs := by
  by_cases hne : hs = []
  · -- without headers the table is NULL
    subst hne
    cases hset
    refine iff_of_false ?_ ?_
    · rintro ⟨fuel, req', snk, w', h, _⟩
      obtain ⟨_, out, _, hsends⟩ := (sendRequest_iff hlen hblank hline w (fun _ => True)).mp
        ⟨fuel, req', snk, w', h, trivial⟩
      refine not_sends_none rfl ?_ hsends
      unfold httpBuildRequestHeader
      change req.headers.bind _ = none
      rw [hfresh]
      rfl
    · rintro ⟨name, value, hlast, _⟩
      cases hlast
  · obtain ⟨tbl, rfl, hkeeps, name, value, hmem, hvalue, hfirst⟩ :=
      setHeaders_first hfresh htext hne hset
    rw [hkeeps.oneHeaderFits_iff hmem hvalue]
    -- what is sent, if anything is
    have hsends : ∀ out, req.line.length < maxHeaderBufsize →
        (Sends { ({ req with headers := some tbl } : CurlRequest).filled with status := .header }
          (req.line ++ 0 :: mem.drop (req.line.length + 1)) req.line.length [] w' out ↔ _) :=
      fun out hlt => hfirst.sends_line_iff rfl rfl req.line 0 _ w'
        (by rw [List.length_drop, hlen]; omega) (hfields _ hmem) out
    have hiff := @sendRequest_iff { req with headers := some tbl } mem hlen
      ⟨hblank.method, hblank.uri, hblank.protocol⟩ hline w' (fun out =>
        ∃ order : List (Bytes × Bytes), order.Nodup ∧ (∀ name value, (name, value) ∈ order ↔
          headersSet hs (fun _ => none) name = some (some ⟨value⟩)) ∧
        out = req.line ++ order.flatMap (fun h => requestField h.1 h.2) ++ crlf)
    refine hiff.trans ⟨?_, ?_⟩
    · rintro ⟨hlt, out, _, hout⟩
      obtain ⟨hone, hroom, _⟩ := (hsends out hlt).mp hout
      exact ⟨hone, hlt, hroom⟩
    · rintro ⟨hone, hlt, hroom⟩
      have hall := ((hkeeps.used_eq_one_iff hmem hvalue).mp hone).2
      refine ⟨hlt, _, ⟨[(name, value)], List.nodup_singleton _, ?_, rfl⟩,
        (hsends _ hlt).mpr ⟨hone, hroom, by simp⟩⟩
      intro k v
      rw [List.mem_singleton, Prod.mk.injEq]
      constructor
      · rintro ⟨rfl, rfl⟩
        exact hvalue
      · intro hk
        have hin := (hkeeps.keys k).mp (by rw [hk]; simp)
        obtain ⟨h, hh, rfl⟩ := List.mem_map.mp (List.mem_toFinset.mp hin)
        rw [hall h hh, hvalue] at hk
        cases hk
        exact ⟨hall h hh, rfl⟩

/-- The request goes out as it should for no request, whatever the local block holds. If the
block is blank for the request line it does if there is one header, that fits. -/
theorem ef_curl_exec_writes (hfresh : req.headers = none)
    (htext : ∀ h ∈ hs, 0 ∉ h.1 ∧ 0 ∉ h.2) (hline : req.line.length ≤ maxHeaderBufsize)
    (hfields : ∀ h ∈ hs, (requestField h.1 h.2).length ≤ maxHeaderBufsize)
    (hset : setHeaders hs req w = some (0, req', w')) :
    (¬ ∀ mem : Bytes, mem.length = maxHeaderBufsize → Serialises req' hs mem w') ∧
      ∀ mem : Bytes, mem.length = maxHeaderBufsize → BlankFor req mem →
        (Serialises req' hs mem w' ↔ OneHeaderFits req hs) := by
  refine ⟨fun hall => ?_, fun mem hlen hblank =>
    serialises_iff hfresh htext hline hfields hset hlen hblank⟩
  have hline' : req'.line = req.line := by
    by_cases hne : hs = []
    · subst hne
      cases hset
      rfl
    · obtain ⟨tbl, rfl, _⟩ := setHeaders_spec hfresh hne hset
      rfl
  refine not_serialises_of_not_mem ?_ (by rwa [hline']) hs w'
    (hall (List.replicate maxHeaderBufsize 1) List.length_replicate)
  rw [List.mem_replicate]
  rintro ⟨_, h⟩
  cases h

end HeadersSet

theorem setHeaders_of_ret {hs : List (Bytes × Bytes)} {req : CurlRequest} {w : World EfString}
    (h : (setHeaders hs req w).map (·.1) = some 0) :
    ∃ req' w', setHeaders hs req w = some (0, req', w') := by
  obtain ⟨⟨ret, req', w'⟩, hset, hret⟩ := Option.map_eq_some_iff.mp h
  obtain rfl : ret = 0 := hret
  exact ⟨req', w', hset⟩

theorem blank_block {i : Nat} (hi : i < maxHeaderBufsize) :
    (List.replicate maxHeaderBufsize (0 : UInt8))[i]? = some 0 := by
  rw [List.getElem?_replicate, if_pos hi]

/-- `Host:h` on a request whose fields are zero. -/
theorem ef_curl_exec_writes_host :
    ∃ req' w', setHeaders [([72, 111, 115, 116], [104])] .zero ⟨⟨[], 0, 0⟩, []⟩ =
        some (0, req', w') ∧
      Serialises req' [([72, 111, 115, 116], [104])] (List.replicate maxHeaderBufsize 0) w' := by
  have hset : (setHeaders [([72, 111, 115, 116], [104])] .zero ⟨⟨[], 0, 0⟩, []⟩).map (·.1) =
      some 0 := by decide +kernel
  obtain ⟨req', w', hset⟩ := setHeaders_of_ret hset
  refine ⟨req', w', hset, ((ef_curl_exec_writes rfl (by decide) (by decide) (by decide) hset).2 _
    List.length_replicate
    ⟨blank_block (by decide), blank_block (by decide), blank_block (by decide)⟩).mpr
    ⟨[72, 111, 115, 116], [104], rfl, by decide, by decide, Or.inl (by decide)⟩⟩

/-- With a second header nothing goes out, though the block is all zero. -/
theorem ef_curl_exec_writes_two :
    ∃ req' w', setHeaders [([72, 111, 115, 116], [104]), ([65], [98])] .zero ⟨⟨[], 0, 0⟩, []⟩ =
        some (0, req', w') ∧
      ¬ Serialises req' [([72, 111, 115, 116], [104]), ([65], [98])]
        (List.replicate maxHeaderBufsize 0) w' := by
  have hset : (setHeaders [([72, 111, 115, 116], [104]), ([65], [98])] .zero
      ⟨⟨[], 0, 0⟩, []⟩).map (·.1) = some 0 := by decide +kernel
  obtain ⟨req', w', hset⟩ := setHeaders_of_ret hset
  refine ⟨req', w', hset, fun h => ?_⟩
  obtain ⟨name, _, _, hall, _⟩ := (serialises_iff rfl (by decide) (by decide) (by decide) hset
    List.length_replicate
    ⟨blank_block (by decide), blank_block (by decide), blank_block (by decide)⟩).mp h
  have hfirst := hall ([72, 111, 115, 116], [104]) (by simp)
  have hsecond := hall ([65], [98]) (by simp)
  rw [← hsecond] at hfirst
  cases hfirst

end EFramework
