import EFramework.Redis.Stream

/-! # Bulk strings of any bytes

What a read brings of a string is copied as text: behind its first NUL the copy has NULs. So
a string comes back if in each part of it the NULs are last.
-/

namespace EFramework

open Lib

/-! ## The parts of a string -/

/-- The parts of the first `n` bytes. -/
def shares : Nat → List Bytes → List Bytes
  | _, [] => []
  | n, p :: parts => if p.length < n then p :: shares (n - p.length) parts else [p.take n]

theorem flatten_shares (n : Nat) (parts : List Bytes) :
    (shares n parts).flatten = parts.flatten.take n := by
  induction parts generalizing n with
  | nil => rw [shares, List.flatten_nil, List.take_nil]
  | cons p parts ih =>
      rw [shares, List.flatten_cons, List.take_append]
      split
      next h => rw [List.flatten_cons, ih, List.take_of_length_le (Nat.le_of_lt h)]
      next h =>
        rw [Nat.sub_eq_zero_of_le (Nat.not_lt.mp h), List.take_zero, List.append_nil]
        simp

theorem flatMap_padded (parts : List Bytes) :
    parts.flatMap padded = parts.flatten ↔ ∀ p ∈ parts, padded p = p := by
  induction parts with
  | nil => simp
  | cons p parts ih =>
      rw [List.flatMap_cons, List.flatten_cons, List.forall_mem_cons, ← ih]
      constructor
      · intro h
        exact List.append_inj h (length_padded p)
      · rintro ⟨hp, hparts⟩
        rw [hp, hparts]

/-- A string in the buffer as far as it has come: its header and `first`. The reads that follow
have the other bytes of its encoding. -/
structure Arrives (con : RedisConnection) (buf : Nat) (b first : Bytes) (reads : List Bytes) :
    Prop where
  text : ∃ stale, con.text buf = header 36 b.length ++ (first ++ stale)
  stop : con.stop = con.seek + (header 36 b.length ++ first).length
  room : con.stop ≤ con.buf.length ∧ con.buf.length < 2 ^ 63
  src : ∃ src, con.src = reads.flatMap Segments.ofList ++ src
  fits : ∀ p ∈ reads, p ≠ [] ∧ p.length ≤ min con.buf.length maxTransfer
  bytes : first ++ reads.flatten = b ++ crlf

/-! ## The copies -/

theorem copyRest_shares {strlen : Nat} {parts : List Bytes} {content : Bytes} {src : Source}
    {con : RedisConnection} (hempty : con.seek = con.stop)
    (hsrc : con.src = parts.flatMap Segments.ofList ++ src)
    (hparts : ∀ p ∈ parts, p ≠ [] ∧ p.length ≤ min con.buf.length maxTransfer)
    (hlt : content.length < strlen) (hlen : strlen - content.length ≤ parts.flatten.length) :
    ∃ con', ∀ fuel, copyRest replyReadMore strlen fuel content con =
      if fuel < (shares (strlen - content.length) parts).length then none
      else some (some (content ++ (shares (strlen - content.length) parts).flatMap padded),
        con') := by
  induction parts generalizing con content with
  | nil =>
      rw [List.flatten_nil, List.length_nil] at hlen
      omega
  | cons p parts ih =>
      obtain ⟨hp, hple⟩ := hparts p List.mem_cons_self
      rw [List.flatMap_cons, List.append_assoc] at hsrc
      rw [List.flatten_cons, List.length_append] at hlen
      have hround := copyRest_round hempty hsrc hp hple hlt
      by_cases hmore : p.length + content.length < strlen
      · have hpart : p.length < strlen - content.length := by omega
        have hleft : strlen - (content ++ padded p).length =
            strlen - content.length - p.length := by
          rw [List.length_append, length_padded]
          omega
        have hroom : (writeAt con.buf 0 p).length = con.buf.length := writeAt_length (by omega)
        obtain ⟨con', hloop⟩ := @ih (content ++ padded p)
          { con with
            buf := writeAt con.buf 0 p, seek := p.length, stop := p.length
            src := parts.flatMap Segments.ofList ++ src }
          rfl rfl (by rw [hroom]; exact fun q hq => hparts q (List.mem_cons_of_mem p hq))
          (by rw [List.length_append, length_padded]; omega) (by rw [hleft]; omega)
        refine ⟨con', fun fuel => ?_⟩
        rw [shares, if_pos hpart, List.length_cons, List.flatMap_cons]
        cases fuel with
        | zero =>
            rw [if_pos (Nat.succ_pos _), copyRest]
            rfl
        | succ fuel =>
            rw [hround]
            dsimp only
            rw [if_pos hmore, hloop, hleft, List.append_assoc]
            simp only [Nat.succ_lt_succ_iff]
      · refine ⟨{ con with
          buf := writeAt con.buf 0 p, seek := strlen - content.length, stop := p.length
          src := parts.flatMap Segments.ofList ++ src }, fun fuel => ?_⟩
        have hpart : ¬ p.length < strlen - content.length := by omega
        rw [shares, if_neg hpart, List.length_singleton, List.flatMap_singleton]
        cases fuel with
        | zero =>
            rw [if_pos Nat.zero_lt_one, copyRest]
            rfl
        | succ fuel =>
            rw [hround]
            dsimp only
            rw [if_neg hmore, if_neg (by omega)]

theorem parseString_shares {b first stale : Bytes} {reads : List Bytes} {src : Source}
    {con : RedisConnection} {buf : Nat} (htext : con.text buf = first ++ stale)
    (hstop : con.stop = con.seek + first.length)
    (hroom : con.stop ≤ con.buf.length ∧ con.buf.length < 2 ^ 63)
    (hsrc : con.src = reads.flatMap Segments.ofList ++ src)
    (hfits : ∀ p ∈ reads, p ≠ [] ∧ p.length ≤ min con.buf.length maxTransfer)
    (hlen : b.length ≤ first.length + reads.flatten.length) (hb : b.length < 2 ^ 31)
    (hheap : con.heap.Willing) :
    ∃ n con', ∀ fuel, parseString replyReadMore fuel buf b.length con =
      if fuel < n then none
      else some (.str ((shares b.length (first :: reads)).flatMap padded) b.length, con') := by
  have hsize : sizeofReply < 2 ^ 63 := by decide
  obtain ⟨con₁, hmalloc₁, h₁⟩ := con.malloc_willing hheap hsize
  obtain ⟨con₂, hmalloc₂, h₂⟩ := con₁.malloc_willing h₁.heap hsize
  obtain ⟨con₃, hmalloc₃, h₃⟩ := con₂.malloc_willing h₂.heap (show b.length < 2 ^ 63 by omega)
  have h := (h₁.trans h₂ rfl).trans h₃ rfl
  have hpending : con₃.pending = first.length := by
    rw [con₃.pending_eq (by rw [h.seek, h.stop]; omega) (by rw [h.stop]; omega), h.seek, h.stop]
    omega
  have htext₃ : con₃.text buf = first ++ stale := by
    rw [RedisConnection.text, h.buf]
    exact htext
  have hnull : b.length ≠ sizeT (-1) := by
    have hmax : sizeT (-1) = 2 ^ 64 - 1 := by decide
    omega
  -- what is left to do with the memory for the string
  have hrun : ∀ fuel, parseString replyReadMore fuel buf b.length con = returning
      (if first.length < b.length then
        (copyRest replyReadMore b.length fuel (padded first)
          { con₃ with seek := con₃.seek + first.length }).bind (fun r =>
            r.1.elim (some (.nil, r.2)) (fun content => some (.str content b.length, r.2)))
      else (strncpyBytes (first ++ stale) b.length).bind (fun content =>
        some (.str content b.length, { con₃ with seek := con₃.seek + b.length + 2 }))) := by
    intro fuel
    unfold parseString
    rw [hmalloc₁]
    dsimp only
    rw [if_pos rfl, if_neg hnull, hmalloc₂]
    dsimp only
    rw [if_pos rfl, hmalloc₃]
    dsimp only
    rw [if_pos rfl, hpending, htext₃, strncpyBytes_append, toInt32_eq hb]
    refine congrArg returning (if_congr Iff.rfl ?_ rfl)
    rw [Lib.defined_bind]
    refine Option.bind_congr (fun r _ => ?_)
    cases r.1 <;> rfl
  by_cases hmore : first.length < b.length
  · have hleft : b.length - (padded first).length = b.length - first.length := by
      rw [length_padded]
    obtain ⟨con', hloop⟩ := @copyRest_shares b.length reads (padded first) src
      { con₃ with seek := con₃.seek + first.length }
      (by dsimp only; rw [h.seek, h.stop, hstop, Nat.add_zero])
      (by dsimp only; rw [h.src, hsrc]) (by dsimp only; rw [h.buf]; exact hfits)
      (by rw [length_padded]; exact hmore) (by omega)
    refine ⟨(shares (b.length - first.length) reads).length, con'.mark, fun fuel => ?_⟩
    rw [hrun, if_pos hmore, hloop, hleft, shares, if_pos hmore, List.flatMap_cons]
    split <;> rfl
  · have hcopied := strncpyBytes_append (first.take b.length) (first.drop b.length ++ stale)
    rw [List.length_take, Nat.min_eq_left (Nat.not_lt.mp hmore), ← List.append_assoc,
      List.take_append_drop] at hcopied
    refine ⟨0, { con₃ with seek := con₃.seek + b.length + 2 }.mark, fun fuel => ?_⟩
    rw [hrun, if_neg hmore, hcopied, shares, if_neg hmore, List.flatMap_singleton,
      if_neg (Nat.not_lt_zero fuel)]
    rfl

namespace Arrives

variable {con : RedisConnection} {buf : Nat} {b first : Bytes} {reads : List Bytes}

theorem found (h : Arrives con buf b first reads) :
    strstr (con.text buf) crlf = some (some ((decimal b.length).length + 1)) := by
  obtain ⟨stale, htext⟩ := h.text
  rw [htext]
  exact strstr_header (by decide) b.length (first ++ stale)

theorem length_le (h : Arrives con buf b first reads) :
    b.length ≤ first.length + reads.flatten.length := by
  have hlen := congrArg List.length h.bytes
  rw [List.length_append, List.length_append] at hlen
  omega

/-- The parts that arrive are the string. -/
theorem flatten_shares_eq (h : Arrives con buf b first reads) :
    (shares b.length (first :: reads)).flatten = b := by
  rw [flatten_shares, List.flatten_cons, h.bytes, List.take_left]

theorem parse (h : Arrives con buf b first reads) (hb : b.length < 2 ^ 31)
    (hheap : con.heap.Willing) :
    ∃ n con', ∀ fuel, parseBulkString replyReadMore fuel buf con =
      if fuel < n then none
      else some (.str ((shares b.length (first :: reads)).flatMap padded) b.length, con') := by
  obtain ⟨stale, htext⟩ := h.text
  obtain ⟨src, hsrc⟩ := h.src
  have hhead : (header 36 b.length).length = (decimal b.length).length + 1 + 2 := by
    simp [header, crlf]
  have hbehind := RedisConnection.text_behind htext
  have hstop := h.stop
  rw [List.length_append, hhead] at hstop
  rw [hhead] at hbehind
  obtain ⟨n, con', hparse⟩ := @parseString_shares b first stale reads src
    { con with seek := con.seek + ((decimal b.length).length + 1 + 2) }
    (buf + ((decimal b.length).length + 1) + 2) hbehind (by dsimp only; omega) h.room hsrc h.fits
    h.length_le hb hheap
  refine ⟨max n 1, con'.mark, fun fuel => ?_⟩
  cases fuel with
  | zero =>
      rw [if_pos (by omega)]
      rfl
  | succ fuel =>
      have hfuel : fuel + 1 < max n 1 ↔ fuel + 1 < n := by omega
      unfold parseBulkString
      rw [awaitLine_of_found h.found, Option.bind_eq_bind, Option.bind_some]
      dsimp only
      rw [htext, parseLen_header (Or.inl rfl) hb, defined_bind,
        sizeT_natCast (by omega), hparse]
      simp only [hfuel]
      split <;> rfl

theorem parse_none (h : Arrives con buf b first reads) (hb : 2 ^ 31 ≤ b.length) (fuel : Nat) :
    parseBulkString replyReadMore fuel buf con = none := by
  obtain ⟨stale, htext⟩ := h.text
  cases fuel with
  | zero => rfl
  | succ fuel =>
      unfold parseBulkString
      rw [awaitLine_of_found h.found, Option.bind_eq_bind, Option.bind_some]
      dsimp only
      rw [htext, parseLen_header_none (Or.inl rfl) hb]
      rfl

end Arrives

/-- A string of an `int` length comes back as it is if NULs are only at the end of the parts in
which it has come. -/
theorem redis_binary_safe {con : RedisConnection} {buf : Nat} {b first : Bytes}
    {reads : List Bytes} (h : Arrives con buf b first reads) (hheap : con.heap.Willing) :
    (∃ fuel con', parseBulkString replyReadMore fuel buf con =
      some (.str b b.length, con')) ↔
    b.length < 2 ^ 31 ∧ ∀ part ∈ shares b.length (first :: reads),
      ∃ t n, 0 ∉ t ∧ part = t ++ List.replicate n 0 := by
  have hparts : (shares b.length (first :: reads)).flatMap padded = b ↔
      ∀ part ∈ shares b.length (first :: reads), ∃ t n, 0 ∉ t ∧ part = t ++ List.replicate n 0 := by
    have hflat := flatMap_padded (shares b.length (first :: reads))
    rw [h.flatten_shares_eq] at hflat
    simp only [hflat, padded_eq_self]
  by_cases hb : b.length < 2 ^ 31
  · obtain ⟨n, con', hparse⟩ := h.parse hb hheap
    rw [← hparts, and_iff_right hb]
    constructor
    · rintro ⟨fuel, con'', hrun⟩
      rw [hparse] at hrun
      split at hrun
      · cases hrun
      · injection hrun with hrep
        injection hrep with hrep
        injection hrep
    · intro heq
      refine ⟨n, con', ?_⟩
      rw [hparse, if_neg (Nat.lt_irrefl n), heq]
  · constructor
    · rintro ⟨fuel, con', hrun⟩
      rw [h.parse_none (Nat.not_lt.mp hb)] at hrun
      cases hrun
    · rintro ⟨hlt, -⟩
      exact absurd hlt hb

/-- `"a\0b"` in two reads, the NUL at the end of the first one. -/
theorem redis_binary_safe_ends : ∃ fuel con', parseBulkString replyReadMore fuel 0
    ⟨[36, 51, 13, 10, 97, 0, 0, 0, 0, 0], 0, 6, [.data 98 [13, 10]], ⟨[], 0, 0⟩, []⟩ =
      some (.str [97, 0, 98] 3, con') := by
  have h : Arrives
      ⟨[36, 51, 13, 10, 97, 0, 0, 0, 0, 0], 0, 6, [.data 98 [13, 10]], ⟨[], 0, 0⟩, []⟩ 0
      [97, 0, 98] [97, 0] [[98, 13, 10]] :=
    ⟨⟨[0, 0, 0, 0], by decide⟩, by decide, by decide, ⟨[], by decide⟩, by decide, by decide⟩
  exact (redis_binary_safe h (fun _ hok => absurd hok List.not_mem_nil)).mpr
    ⟨by decide, fun part hpart => by
      rcases List.mem_cons.mp hpart with rfl | hpart
      · exact ⟨[97], 1, by decide, rfl⟩
      · obtain rfl := List.mem_singleton.mp hpart
        exact ⟨[98], 0, by decide, rfl⟩⟩

/-- A NUL and a byte behind it, in the buffer as a whole. -/
theorem redis_binary_safe_nul : ¬ ∃ fuel con', parseBulkString replyReadMore fuel 0
    ⟨[36, 50, 13, 10, 0, 1, 13, 10, 0, 0], 0, 8, [], ⟨[], 0, 0⟩, []⟩ =
      some (.str [0, 1] 2, con') := by
  rintro ⟨fuel, con', hrun⟩
  cases fuel with
  | zero => cases hrun
  | succ fuel => cases hrun

end EFramework
