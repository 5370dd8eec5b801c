import EFramework.Http.Head

/-! # The status line

The place where the digits start is taken to be their end as well, so that no digit is read.
Only the length that is returned depends on the line.
-/

namespace EFramework

structure StatusLine where
  token : Bytes
  spaces : Nat
  digits : Bytes
  reason : Bytes
deriving Repr, DecidableEq

namespace StatusLine

def code (s : StatusLine) : Nat := s.digits.foldl (fun n c => n * 10 + (c.toNat - 48)) 0

def text (s : StatusLine) : Bytes :=
  s.token ++ (List.replicate s.spaces 32 ++ s.digits ++ 32 :: s.reason)

structure Valid (s : StatusLine) : Prop where
  token_text : 0 ∉ s.token ∧ 32 ∉ s.token
  token_line : ¬ crlf <:+: s.token
  spaces_pos : 0 < s.spaces
  digits_ne : s.digits ≠ []
  digits : ∀ c ∈ s.digits, 48 ≤ c ∧ c ≤ 57
  code_lt : s.code < 65536
  reason_text : ∀ c ∈ s.reason, c ≠ 0 ∧ c ≠ 13 ∧ c ≠ 10

variable {s : StatusLine}

theorem Valid.rest_text (hv : s.Valid) {c : UInt8}
    (h : c ∈ List.replicate s.spaces 32 ++ s.digits ++ 32 :: s.reason) :
    c ≠ 0 ∧ c ≠ 13 ∧ c ≠ 10 := by
  rcases List.mem_append.mp h with h | h
  · rcases List.mem_append.mp h with h | h
    · rw [List.eq_of_mem_replicate h]
      decide
    · obtain ⟨hle, -⟩ := hv.digits c h
      refine ⟨?_, ?_, ?_⟩ <;>
      · rintro rfl
        exact absurd hle (by decide)
  · rcases List.mem_cons.mp h with rfl | h
    · decide
    · exact hv.reason_text c h

theorem Valid.text_line (hv : s.Valid) :
    0 ∉ s.text ∧ ¬ crlf <:+: s.text ∧ 32 ∈ s.text := by
  have hspace : ∀ rest : Bytes, 32 ∈ List.replicate s.spaces 32 ++ s.digits ++ 32 :: rest := by
    intro rest
    exact List.mem_append_right _ List.mem_cons_self
  refine ⟨?_, ?_, List.mem_append_right _ (hspace _)⟩
  · rw [text, List.mem_append, not_or]
    exact ⟨hv.token_text.1, fun h => (hv.rest_text h).1 rfl⟩
  · refine crlf_not_infix_append hv.token_line
      (crlf_not_infix_of_not_mem (fun h => (hv.rest_text h).2.1 rfl)) ?_
    obtain ⟨n, hn⟩ := Nat.exists_eq_succ_of_ne_zero (Nat.ne_of_gt hv.spaces_pos)
    rw [hn, List.replicate_succ]
    simp

end StatusLine

/-- The length of the line is returned, and the status is the value of its digits. -/
def ParsesStatus (s : StatusLine) (resp : CurlResponse) (rest : Bytes) : Prop :=
  httpParseRespLine resp (s.text ++ (crlf ++ rest)) =
    some (((s.text ++ crlf).length : Int), { resp with status := s.code })

/-- A line of an `int` length is parsed if its digits are zeros. -/
theorem http_parse_resp_line {s : StatusLine} (hv : s.Valid) (resp : CurlResponse)
    (rest : Bytes) :
    ParsesStatus s resp rest ↔ s.code = 0 ∧ (s.text ++ crlf).length < 2 ^ 31 := by
  obtain ⟨hnul, hcrlf, hspace⟩ := hv.text_line
  have hlen : ((s.text.length : Int) + 2) = ((s.text ++ crlf).length : Int) := by
    rw [List.length_append]
    rfl
  have hret : toInt32 ((s.text ++ crlf).length : Int) = ((s.text ++ crlf).length : Int) ↔
      (s.text ++ crlf).length < 2 ^ 31 := by
    refine ⟨fun h => ?_, toInt32_eq⟩
    have hlt : toInt32 ((s.text ++ crlf).length : Int) < 2 ^ 31 := Int.bmod_lt (by decide)
    omega
  unfold ParsesStatus
  rw [httpParseRespLine_eq hnul hcrlf hspace, hlen, Option.some.injEq, Prod.mk.injEq, hret,
    CurlResponse.mk.injEq]
  constructor
  · rintro ⟨hshort, hcode, -⟩
    exact ⟨Int.ofNat_eq_zero.mp hcode.symm, hshort⟩
  · rintro ⟨hcode, hshort⟩
    rw [hcode]
    exact ⟨hshort, rfl, rfl, rfl, rfl, rfl, rfl, rfl, rfl, rfl⟩

/-- `"H 000 O"`. -/
theorem http_parse_resp_line_zeros :
    ParsesStatus ⟨[72], 1, [48, 48, 48], [79]⟩ ⟨7, .init, 0, 0, 0, 0, 0, ⟨8, hashSizemask 8, 0, 0,
      nil32, true, List.replicate 8 nil32, List.replicate 8 (Bucket.zero _)⟩, []⟩ [] :=
  (http_parse_resp_line ⟨by decide, by decide, by decide, by decide, by simp, by decide,
    by simp⟩ _ []).mpr ⟨by decide, by decide⟩

/-- `"H 200 O"` is parsed to its length, and the status is 0. -/
theorem http_parse_resp_line_200 :
    (httpParseRespLine ⟨7, .init, 0, 0, 0, 0, 0, ⟨8, hashSizemask 8, 0, 0, nil32, true,
      List.replicate 8 nil32, List.replicate 8 (Bucket.zero _)⟩, []⟩
        [72, 32, 50, 48, 48, 32, 79, 13, 10]).map (fun r => (r.1, r.2.status)) = some (9, 0) ∧
    ¬ ParsesStatus ⟨[72], 1, [50, 48, 48], [79]⟩ ⟨7, .init, 0, 0, 0, 0, 0, ⟨8, hashSizemask 8, 0,
      0, nil32, true, List.replicate 8 nil32, List.replicate 8 (Bucket.zero _)⟩, []⟩ [] :=
  ⟨rfl, by unfold ParsesStatus; decide⟩

end EFramework
