import EFramework.Http.Response
import EFramework.Lib.CInt

/-! # Sending a request

The request line and the headers are put together in a local block of 1024 bytes, which
is written out when a header does not fit. The request line is appended to whatever text
the block starts with, and the headers are taken from the first bucket of the table again
and again while they are removed from it.
-/

namespace EFramework

open Lib

/-! ## The code -/

/-- Strings are NULL or the bytes before their NUL. -/
structure CurlRequest where
  method : Option Bytes
  status : RespStatus
  protocol : Option Bytes
  requestUri : Option Bytes
  headers : Option Stringtab
  requestBody : Option Stringtab
deriving Repr, DecidableEq

def CurlRequest.zero : CurlRequest := ⟨none, .init, none, none, none, none⟩

def efCurlSetHeader (req : CurlRequest) (header content : Bytes) (w : World EfString) :
    Option (Int × CurlRequest × World EfString) :=
  let (tbl, m) :=
    match req.headers with
    | some tbl => (some tbl, w.heap)
    | none => efStringtabNew 0 w.heap
  match tbl with
  | none => some (-1, req, { w with heap := m })
  | some tbl => do
      let (set, w) ← efStringtabSet tbl (header ++ [0]) header.length (some (content ++ [0]))
        content.length { w with heap := m }
      let (ret, tbl) ← set
      pure (if ret = none then -1 else 0, { req with headers := some tbl }, w)

def curlMethodGet : Bytes := [71, 69, 84]

def httpProtocol0 : Bytes := [72, 84, 84, 80, 47, 49, 46, 48]

/-- `mlen+rlen+plen+4`, where each length is put into an `int`. -/
def requestLineSize (method uri protocol : Bytes) : Option Int := do
  let size ← asInt (toInt32 method.length + toInt32 uri.length)
  let size ← asInt (size + toInt32 protocol.length)
  asInt (size + 4)

def httpBuildRequestLine (req : CurlRequest) (mem : Bytes) (cap : Nat) :
    Option (Int × CurlRequest × Bytes) := do
  let method := req.method.getD curlMethodGet
  let protocol := req.protocol.getD httpProtocol0
  let uri := req.requestUri.getD [47]
  let req := { req with
    method := some method, protocol := some protocol, requestUri := some uri }
  let size ← requestLineSize method uri protocol
  if cap < sizeT size then pure (-1, req, mem)
  else
    let mem ← strcat mem 0 method
    let pos := (toInt32 method.length).toNat
    let mem ← storeAt mem pos [32]
    let pos := pos + 1
    let mem ← strcat mem pos uri
    let pos := pos + (toInt32 uri.length).toNat
    let mem ← storeAt mem pos [32]
    let pos := pos + 1
    let mem ← strcat mem pos protocol
    let pos := pos + (toInt32 protocol.length).toNat
    let mem ← strcat mem pos crlf
    pure (pos + 2, req, mem)

/-- The header of the first bucket, or the end of the headers, is put at `pos`. -/
def httpBuildRequestHeader (req : CurlRequest) (mem : Bytes) (pos cap : Nat)
    (w : World EfString) : Option (Int × CurlRequest × Bytes × World EfString) := do
  let headers ← req.headers
  if headers.used = 0 then
    let mem ← strcat mem pos crlf
    pure (2, { req with status := .body }, mem, w)
  else
    let k ← (headers.bucket 0).key
    let v ← efStringtabFind headers k.str k.len
    let v ← v
    if cap < k.len + v.len + 3 then pure (-1, req, mem, w)
    else
      let name ← CString.content 0 (k.str ++ [0])
      let mem ← strcpy mem pos name
      let mem ← storeAt mem (pos + k.len) [58]
      let value ← CString.content 0 (v.str ++ [0])
      let mem ← strcpy mem (pos + k.len + 1) value
      let mem ← strcat mem (pos + k.len + 1 + v.len) crlf
      let (headers, w) ← efHashtableRemoveKey headers k.str k.len w
      pure (k.len + v.len + 3, { req with headers := some headers }, mem, w)

/-- The bodies of requests are not built yet. -/
def httpBuildRequestBody (req : CurlRequest) : Int × CurlRequest := (0, { req with status := .done })

/-- The first loop of `ef_curl_exec`; the number is `pos`, and `remain` the rest of the block.
A failed write ends it with the result. -/
def sendHeaders : Nat → CurlRequest → Bytes → Nat → Sink → World EfString →
    Option (Option Int × CurlRequest × Bytes × Sink × World EfString)
  | 0, _, _, _, _, _ => none
  | fuel + 1, req, mem, pos, snk, w => do
      if req.status = .header then
        let (used, req, mem, w) ← httpBuildRequestHeader req mem pos (maxHeaderBufsize - pos) w
        if used < 0 ∨ req.status = .body then
          let pos := if 0 < used then pos + used.toNat else pos
          let (res, _, snk) := efWrapWrite (mem.take pos) snk
          if res < 0 then pure (some res, req, mem, snk, w)
          else sendHeaders fuel req mem 0 snk w
        else sendHeaders fuel req mem (pos + used.toNat) snk w
      else pure (none, req, mem, snk, w)

/-- `ef_curl_exec` up to the call of `http_parse_resp_headers`, and what it returns if it does not
come so far. `mem` is the local block; behind the headers it is empty, and the second loop
writes nothing. -/
def sendRequest (fuel : Nat) (req : CurlRequest) (mem : Bytes) (snk : Sink) (w : World EfString) :
    Option (Option Int × CurlRequest × Sink × World EfString) := do
  let (used, req, mem) ← httpBuildRequestLine req mem maxHeaderBufsize
  if used < 0 then pure (some (-1), req, snk, w)
  else
    let (res, req, _, snk, w) ← sendHeaders fuel { req with status := .header } mem used.toNat snk w
    match res with
    | some res => pure (some res, req, snk, w)
    | none => pure (none, (httpBuildRequestBody req).2, snk, w)

/-! ## The request line -/

namespace CurlRequest

def methodText (req : CurlRequest) : Bytes := req.method.getD curlMethodGet

def uriText (req : CurlRequest) : Bytes := req.requestUri.getD [47]

def protocolText (req : CurlRequest) : Bytes := req.protocol.getD httpProtocol0

def line (req : CurlRequest) : Bytes :=
  req.methodText ++ 32 :: (req.uriText ++ 32 :: (req.protocolText ++ crlf))

theorem length_line (req : CurlRequest) : req.line.length =
    req.methodText.length + req.uriText.length + req.protocolText.length + 4 := by
  simp only [line, crlf, List.length_append, List.length_cons, List.length_nil]
  omega

def filled (req : CurlRequest) : CurlRequest :=
  { req with
    method := some req.methodText, protocol := some req.protocolText
    requestUri := some req.uriText }

end CurlRequest

/-- The block has a NUL wherever a part of the request line is appended. -/
structure BlankFor (req : CurlRequest) (mem : Bytes) : Prop where
  method : mem[0]? = some 0
  uri : mem[req.methodText.length + 1]? = some 0
  protocol : mem[req.methodText.length + req.uriText.length + 2]? = some 0

theorem requestLineSize_eq {method uri protocol : Bytes}
    (h : method.length + uri.length + protocol.length + 4 < 2 ^ 31) :
    requestLineSize method uri protocol =
      some ((method.length + uri.length + protocol.length + 4 : Nat) : Int) := by
  unfold requestLineSize
  rw [toInt32_eq (by omega), toInt32_eq (by omega), toInt32_eq (by omega),
    asInt_eq (by omega) (by omega), Option.bind_eq_bind, Option.bind_some,
    asInt_eq (by omega) (by omega), Option.bind_some, asInt_eq (by omega) (by omega)]
  rfl

theorem httpBuildRequestLine_eq {req : CurlRequest} (h : req.line.length < 2 ^ 31) (mem : Bytes)
    (cap : Nat) : httpBuildRequestLine req mem cap =
      if cap < req.line.length then some (-1, req.filled, mem)
      else (strcat mem 0 req.methodText).bind (fun mem =>
        (storeAt mem req.methodText.length [32]).bind (fun mem =>
          (strcat mem (req.methodText.length + 1) req.uriText).bind (fun mem =>
            (storeAt mem (req.methodText.length + 1 + req.uriText.length) [32]).bind (fun mem =>
              (strcat mem (req.methodText.length + 1 + req.uriText.length + 1)
                req.protocolText).bind (fun mem =>
                  (strcat mem (req.methodText.length + 1 + req.uriText.length + 1 +
                    req.protocolText.length) crlf).bind (fun mem =>
                      some (((req.methodText.length + 1 + req.uriText.length + 1 +
                        req.protocolText.length : Nat) : Int) + 2, req.filled, mem))))))) := by
  have hline := req.length_line
  have hint : ∀ text : Bytes, text.length < 2 ^ 31 → (toInt32 text.length).toNat = text.length :=
    fun text htext => by rw [toInt32_eq htext, Int.toNat_natCast]
  have hmethod := hint req.methodText (by omega)
  have huri := hint req.uriText (by omega)
  have hprotocol := hint req.protocolText (by omega)
  unfold CurlRequest.methodText at hmethod
  unfold CurlRequest.uriText at huri
  unfold CurlRequest.protocolText at hprotocol
  unfold httpBuildRequestLine
  change (requestLineSize req.methodText req.uriText req.protocolText).bind _ = _
  rw [requestLineSize_eq (by omega), Option.bind_some, sizeT_natCast (by omega), ← hline]
  simp only [hmethod, huri, hprotocol]
  rfl

theorem drop_eq_cons_of_getElem? {mem : Bytes} {i : Nat} {c : UInt8} (h : mem[i]? = some c) :
    mem.drop i = c :: mem.drop (i + 1) := by
  obtain ⟨hi, rfl⟩ := List.getElem?_eq_some_iff.mp h
  exact List.drop_eq_getElem_cons hi

theorem httpBuildRequestLine_spec {req : CurlRequest} {mem : Bytes}
    (hlen : mem.length = maxHeaderBufsize) (hblank : BlankFor req mem)
    (hfits : req.line.length ≤ maxHeaderBufsize) :
    httpBuildRequestLine req mem maxHeaderBufsize =
      if req.line.length < maxHeaderBufsize then
        some ((req.line.length : Int), req.filled, req.line ++ 0 :: mem.drop (req.line.length + 1))
      else none := by
  have hline := req.length_line
  obtain ⟨hmethod, huri, hprotocol⟩ := hblank
  have hint : maxHeaderBufsize < 2 ^ 31 := by decide
  rw [httpBuildRequestLine_eq (by omega), if_neg (Nat.not_lt.mpr hfits)]
  have htext : req.line = req.methodText ++ 32 :: (req.uriText ++ 32 ::
      (req.protocolText ++ crlf)) := rfl
  generalize req.methodText = method at *
  generalize req.uriText = uri at *
  generalize req.protocolText = protocol at *
  have hroom : ∀ n, (mem.drop n).length = maxHeaderBufsize - n := by
    intro n
    rw [List.length_drop, hlen]
  -- every part is appended at a NUL, and a blank is stored over the next one
  have h₁ : strcat mem 0 method = some (method ++ 0 :: mem.drop (method.length + 1)) := by
    have hmem : mem = [] ++ 0 :: mem.drop 1 := by
      have := drop_eq_cons_of_getElem? hmethod
      rwa [List.drop_zero] at this
    have happend := strcat_append [] (mem.drop 1) method
    rw [← hmem, if_pos (by rw [hroom]; omega), List.drop_drop, Nat.add_comm 1] at happend
    exact happend
  have h₂ : storeAt (method ++ 0 :: mem.drop (method.length + 1)) method.length [32] =
      some ((method ++ [32]) ++ 0 :: mem.drop (method.length + 2)) := by
    rw [storeAt_cons, drop_eq_cons_of_getElem? huri]
    simp
  have h₃ : strcat ((method ++ [32]) ++ 0 :: mem.drop (method.length + 2)) (method.length + 1)
      uri = some ((method ++ [32] ++ uri) ++ 0 :: mem.drop (method.length + uri.length + 2)) := by
    have happend := strcat_append (method ++ [32]) (mem.drop (method.length + 2)) uri
    rw [if_pos (by rw [hroom]; omega), List.drop_drop, List.length_append] at happend
    rw [show method.length + uri.length + 2 = method.length + 2 + uri.length by omega]
    exact happend
  have h₄ : storeAt ((method ++ [32] ++ uri) ++ 0 :: mem.drop (method.length + uri.length + 2))
      (method.length + 1 + uri.length) [32] =
      some ((method ++ [32] ++ uri ++ [32]) ++ 0 :: mem.drop (method.length + uri.length + 3)) := by
    have hstore := storeAt_cons (method ++ [32] ++ uri) 0 32
      (mem.drop (method.length + uri.length + 2))
    rw [drop_eq_cons_of_getElem? hprotocol, List.length_append, List.length_append] at hstore
    rw [drop_eq_cons_of_getElem? hprotocol]
    simpa using hstore
  have h₅ : strcat ((method ++ [32] ++ uri ++ [32]) ++ 0 ::
      mem.drop (method.length + uri.length + 3)) (method.length + 1 + uri.length + 1) protocol =
      some ((method ++ [32] ++ uri ++ [32] ++ protocol) ++ 0 ::
        mem.drop (method.length + uri.length + 3 + protocol.length)) := by
    have happend := strcat_append (method ++ [32] ++ uri ++ [32])
      (mem.drop (method.length + uri.length + 3)) protocol
    have hplace : (method ++ [32] ++ uri ++ [32]).length = method.length + 1 + uri.length + 1 := by
      simp
      omega
    rwa [if_pos (by rw [hroom]; omega), List.drop_drop, hplace] at happend
  have h₆ := strcat_append (method ++ [32] ++ uri ++ [32] ++ protocol)
    (mem.drop (method.length + uri.length + 3 + protocol.length)) crlf
  have hplace : (method ++ [32] ++ uri ++ [32] ++ protocol).length =
      method.length + 1 + uri.length + 1 + protocol.length := by
    simp
    omega
  have hcrlf : crlf.length = 2 := rfl
  rw [hroom, List.drop_drop, hplace, hcrlf] at h₆
  rw [h₁, Option.bind_some, h₂, Option.bind_some, h₃, Option.bind_some, h₄, Option.bind_some, h₅,
    Option.bind_some, h₆]
  by_cases hlt : req.line.length < maxHeaderBufsize
  · rw [if_pos hlt, if_pos (by omega), Option.bind_some, hline,
      show method.length + uri.length + 3 + protocol.length + 2 =
        method.length + uri.length + protocol.length + 4 + 1 by omega]
    have hret : ((method.length + 1 + uri.length + 1 + protocol.length : Nat) : Int) + 2 =
        ((method.length + uri.length + protocol.length + 4 : Nat) : Int) := by omega
    rw [hret, htext]
    simp
  · rw [if_neg hlt, if_neg (by omega)]
    rfl

/-! ## One header -/

def requestField (name value : Bytes) : Bytes := name ++ 58 :: (value ++ crlf)

theorem length_requestField (name value : Bytes) :
    (requestField name value).length = name.length + value.length + 3 := by
  simp only [requestField, crlf, List.length_append, List.length_cons, List.length_nil]
  omega

structure FirstHeader (tbl : Stringtab) (name value : Bytes) : Prop where
  wf : Hashtable.Wf tbl
  live : (tbl.bucket 0).Live
  key : (tbl.bucket 0).key = some ⟨name⟩
  find : efStringtabFind tbl name name.length = some (some ⟨value⟩)
  used_pos : tbl.used ≠ 0
  name_text : 0 ∉ name
  value_text : 0 ∉ value

theorem requestField_append (t : Bytes) (b : UInt8) (rest name value : Bytes)
    {α : Type} (f : Bytes → Option α) :
    ((strcpy (t ++ b :: rest) t.length name).bind (fun mem =>
      (storeAt mem (t.length + name.length) [58]).bind (fun mem =>
        (strcpy mem (t.length + name.length + 1) value).bind (fun mem =>
          (strcat mem (t.length + name.length + 1 + value.length) crlf).bind f)))) =
      if (requestField name value).length ≤ rest.length then
        f ((t ++ requestField name value) ++ 0 :: rest.drop (requestField name value).length)
      else none := by
  have hlen := length_requestField name value
  rw [strcpy_append]
  by_cases hname : name.length ≤ rest.length
  · have hstore := storeAt_cons (t ++ name) 0 58 (rest.drop name.length)
    rw [List.length_append] at hstore
    rw [if_pos hname, Option.bind_some, hstore, Option.bind_some]
    have hplace : (t ++ name ++ [58]).length = t.length + name.length + 1 := by
      rw [List.length_append, List.length_append, List.length_singleton]
    cases hrest : rest.drop name.length with
    | nil =>
        have hend := congrArg List.length hrest
        rw [List.length_drop, List.length_nil] at hend
        have hnone : strcpy (t ++ name ++ [58]) (t.length + name.length + 1) value = none := by
          rw [strcpy, storeAt, if_neg]
          rw [hplace, List.length_append, List.length_singleton]
          omega
        rw [hnone, if_neg (by omega)]
        rfl
    | cons c tail =>
        have htail := congrArg List.length hrest
        rw [List.length_drop, List.length_cons] at htail
        have hcopy := strcpy_append (t ++ name ++ [58]) c tail value
        rw [hplace, List.append_assoc (t ++ name), List.singleton_append] at hcopy
        rw [hcopy]
        by_cases hvalue : value.length ≤ tail.length
        · have hcat := strcat_append (t ++ name ++ [58] ++ value) (tail.drop value.length) crlf
          have hplace' : (t ++ name ++ [58] ++ value).length =
              t.length + name.length + 1 + value.length := by
            rw [List.length_append, hplace]
          have hcrlf : crlf.length = 2 := rfl
          rw [hplace', List.length_drop, hcrlf, List.drop_drop] at hcat
          rw [if_pos hvalue, Option.bind_some, hcat]
          have htext : t ++ name ++ [58] ++ value ++ crlf = t ++ requestField name value := by
            simp [requestField]
          have hbehind : tail.drop (value.length + 2) =
              rest.drop (requestField name value).length := by
            have hdrop := congrArg (List.drop (value.length + 3)) hrest
            rw [List.drop_drop, List.drop_succ_cons] at hdrop
            rw [← hdrop, hlen, Nat.add_assoc]
          by_cases hfit : (requestField name value).length ≤ rest.length
          · rw [if_pos hfit, if_pos (by omega), Option.bind_some, htext, hbehind]
          · rw [if_neg hfit, if_neg (by omega)]
            rfl
        · rw [if_neg hvalue, if_neg (by omega)]
          rfl
  · rw [if_neg hname, if_neg (by omega)]
    rfl

theorem FirstHeader.build_spec {tbl : Stringtab} {name value : Bytes}
    (h : FirstHeader tbl name value) {req : CurlRequest} (hreq : req.headers = some tbl)
    (t : Bytes) (b : UInt8) (rest : Bytes) (cap : Nat) (w : World EfString) :
    if cap < (requestField name value).length then
      httpBuildRequestHeader req (t ++ b :: rest) t.length cap w =
        some (-1, req, t ++ b :: rest, w)
    else if (requestField name value).length ≤ rest.length then
      ∃ tbl' w', httpBuildRequestHeader req (t ++ b :: rest) t.length cap w =
          some (((requestField name value).length : Int), { req with headers := some tbl' },
            (t ++ requestField name value) ++ 0 :: rest.drop (requestField name value).length, w') ∧
        tbl'.used = tbl.used - 1 ∧ (tbl'.bucket 0).key = none
    else httpBuildRequestHeader req (t ++ b :: rest) t.length cap w = none := by
  have hlen := length_requestField name value
  have hkeylen : (⟨name⟩ : EfString).len = name.length := rfl
  have hvallen : (⟨value⟩ : EfString).len = value.length := rfl
  have hhead : httpBuildRequestHeader req (t ++ b :: rest) t.length cap w =
      if cap < name.length + value.length + 3 then some (-1, req, t ++ b :: rest, w)
      else (strcpy (t ++ b :: rest) t.length name).bind (fun mem =>
        (storeAt mem (t.length + name.length) [58]).bind (fun mem =>
          (strcpy mem (t.length + name.length + 1) value).bind (fun mem =>
            (strcat mem (t.length + name.length + 1 + value.length) crlf).bind (fun mem =>
              (efHashtableRemoveKey tbl name name.length w).bind (fun r =>
                some (((name.length + value.length : Nat) : Int) + 3,
                  { req with headers := some r.1 }, mem, r.2)))))) := by
    unfold httpBuildRequestHeader
    rw [hreq]
    simp only [Option.bind_eq_bind, Option.bind_some, if_neg h.used_pos, h.key, hkeylen, h.find,
      hvallen, content_append_nul h.name_text, content_append_nul h.value_text]
    rfl
  rw [hhead, ← hlen]
  split
  next => rfl
  next hcap =>
    rw [requestField_append]
    split
    next hfit =>
      obtain ⟨tbl', w', he, _⟩ := h.wf.remove_spec (Nat.le_refl name.length) w
      have hkey : (tbl.bucket 0).key = some ⟨name.take name.length⟩ := by
        rw [List.take_length]
        exact h.key
      refine ⟨tbl', w', ?_, h.wf.remove_bucket (Nat.le_refl name.length) h.live hkey he⟩
      rw [he, hlen]
      rfl
    next => rfl

end EFramework
