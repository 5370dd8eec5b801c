import EFramework.Structure.BufferIO.Transfer

/-! # The buffered reader of `structure/bufferio.c`

A reader holds bytes it has taken from the descriptor and not handed out yet.
`Stream` is that state without the buffer: the bytes held and the descriptor
behind them. Reading and skipping are first described on streams, in terms of
`gather`; the reader is then shown to follow the description, and a run of calls
to hand out the stream piece by piece.
-/

namespace EFramework

open Lib (Segment Segments)

structure BioReader where
  offset : Nat
  buffer : EfBuffer
deriving Repr, DecidableEq

def efBioReaderNew (bufSize : Nat) (m : Heap) : Option BioReader × Heap :=
  let (ok, m) := m.malloc
  if ok then
    match efBufferNew bufSize m with
    | (none, m) => (none, m)
    | (some buffer, m) => (some ⟨0, buffer⟩, m)
  else (none, m)

/-- The return value and the bytes stored from `buf[0]` on. -/
def efBioRead (reader : BioReader) (len : Nat) (src : Source) :
    Option (Int × Bytes × BioReader × Source) :=
  let buffer := reader.buffer
  if len ≤ buffer.len - reader.offset then
    some (len, (buffer.ptr.drop reader.offset).take len,
      { reader with offset := reader.offset + len }, src)
  else do
    let offset := buffer.len - reader.offset
    let held := (buffer.ptr.drop reader.offset).take offset
    let need := len - offset
    if buffer.cap >>> 2 < need then
      let (reads, got, src) ← efSafeRead need 0 src
      pure (reads, held ++ got, ⟨0, { buffer with len := 0 }⟩, src)
    else
      let (reads, got, src) ← efSafeRead need buffer.cap src
      let ptr := writeAt buffer.ptr 0 got
      if reads < 0 then
        pure (reads, held, ⟨0, { buffer with ptr := ptr, len := 0 }⟩, src)
      else
        let need := if reads.toNat < need then reads.toNat else need
        pure (need, held ++ ptr.take need,
          ⟨need, { buffer with ptr := ptr, len := reads.toNat }⟩, src)

def ssize (n : Nat) : Int := if n < 2 ^ 63 then n else (n : Int) - 2 ^ 64

/-- The loop of `ef_bio_reader_skip`, which reads into the emptied buffer. -/
def skipLoop (len : Nat) : Nat → Nat → EfBuffer → Source → Option (Int × EfBuffer × Source)
  | 0, _, _, _ => none
  | fuel + 1, remain, buffer, src =>
      if 0 < remain then do
        let need := if remain < buffer.cap then remain else buffer.cap
        let (reads, got, src) ← efSafeRead need need src
        let buffer := { buffer with ptr := writeAt buffer.ptr 0 got }
        if reads < 0 then pure (reads, buffer, src)
        else skipLoop len fuel (remain - reads.toNat) buffer src
      else some (ssize len, buffer, src)

/-- A call whose loop makes less than `fuel` rounds. A negative `remain` makes none. -/
def efBioReaderSkipFor (fuel : Nat) (reader : BioReader) (len : Nat) (src : Source) :
    Option (Int × BioReader × Source) :=
  let buffer := reader.buffer
  if len ≤ buffer.len - reader.offset then
    some (ssize len, { reader with offset := reader.offset + len }, src)
  else do
    let remain := ssize (len + reader.offset - buffer.len)
    let (ret, buffer, src) ← skipLoop len fuel remain.toNat { buffer with len := 0 } src
    pure (ret, ⟨0, buffer⟩, src)

/-- A round that stores nothing is repeated forever, so `remain` rounds are enough
for every call that returns. -/
def efBioReaderSkip (reader : BioReader) (len : Nat) (src : Source) :
    Option (Int × BioReader × Source) :=
  efBioReaderSkipFor ((ssize (len + reader.offset - reader.buffer.len)).toNat + 1) reader len src

/-! ## Streams behind a reader -/

structure Stream where
  held : Bytes
  src : Source
deriving Repr, DecidableEq

namespace Stream

def rest (s : Stream) : Bytes := s.held ++ s.src.payload

/-- How far a read beyond the held bytes may go: a large one bypasses the buffer. -/
def window (cap need : Nat) : Nat := if cap >>> 2 < need then need else cap

/-- A hard failure while refilling leaves the caller with the held bytes only. -/
def read (cap len : Nat) (s : Stream) : Int × Bytes × Stream :=
  if len ≤ s.held.length then (len, s.held.take len, ⟨s.held.drop len, s.src⟩)
  else
    let need := len - s.held.length
    let g := Segments.gather softErrno need (window cap need) s.src
    let copied := if ¬ cap >>> 2 < need ∧ g.error.isSome then [] else g.items.take need
    (transferRet g.error (min need g.items.length), s.held ++ copied,
      ⟨if g.error.isSome then [] else g.items.drop need, g.rest⟩)

def skip (len : Nat) (s : Stream) : Stream :=
  if len ≤ s.held.length then ⟨s.held.drop len, s.src⟩
  else ⟨[], (Segments.gather softErrno (len - s.held.length) (len - s.held.length) s.src).rest⟩

theorem le_window (cap need : Nat) : need ≤ window cap need := by
  unfold window
  rw [Nat.shiftRight_eq_div_pow]
  split <;> omega

variable {len : Nat} {s : Stream}

theorem read_within (cap : Nat) (hle : len ≤ s.held.length) :
    s.read cap len = ((len : Int), s.held.take len, Stream.mk (s.held.drop len) s.src) := by
  rw [read, if_pos hle]

theorem read_beyond (cap : Nat) (hc : s.src.Clean softErrno) (hgt : s.held.length < len)
    (hlen : len ≤ s.rest.length) :
    ∃ got src', s.read cap len = (((len - s.held.length : Nat) : Int),
        s.held ++ got.take (len - s.held.length),
        Stream.mk (got.drop (len - s.held.length)) src') ∧
      len - s.held.length ≤ got.length ∧ got ++ src'.payload = s.src.payload ∧
      src'.Clean softErrno := by
  have hlen' : len - s.held.length ≤ s.src.payload.length := by
    rw [rest, List.length_append] at hlen
    omega
  have hwin := le_window cap (len - s.held.length)
  have henough := Segments.gather_need_le softErrno hc hwin hlen'
  obtain ⟨herr, hc'⟩ := Segments.gather_clean softErrno hc (len - s.held.length)
    (window cap (len - s.held.length))
  have hpay := Segments.gather_payload softErrno (len - s.held.length)
    (window cap (len - s.held.length)) s.src
  refine ⟨_, _, ?_, henough, hpay, hc'⟩
  unfold read
  rw [if_neg (by omega)]
  simp only [herr, Option.isSome_none, Bool.false_eq_true, and_false, if_false, transferRet,
    Nat.min_eq_left henough]

theorem read_clean (cap : Nat) (hc : s.src.Clean softErrno) (hlen : len ≤ s.rest.length) :
    (s.read cap len).2.1 = s.rest.take len ∧ (s.read cap len).2.2.rest = s.rest.drop len ∧
      (s.read cap len).2.2.src.Clean softErrno := by
  by_cases hle : len ≤ s.held.length
  · rw [read_within cap hle]
    refine ⟨?_, ?_, hc⟩
    · rw [rest, List.take_append_of_le_length hle]
    · rw [rest, rest, List.drop_append_of_le_length hle]
  · obtain ⟨got, src', he, hgot, hpay, hc'⟩ := read_beyond cap hc (by omega) hlen
    have hsplit : len = s.held.length + (len - s.held.length) := by omega
    rw [he]
    refine ⟨?_, ?_, hc'⟩
    · rw [rest, ← hpay, hsplit, List.take_length_add_append, Nat.add_sub_cancel_left,
        List.take_append_of_le_length hgot]
    · rw [rest, rest, ← hpay, hsplit, List.drop_length_add_append, Nat.add_sub_cancel_left,
        List.drop_append_of_le_length hgot]

theorem skip_clean (hc : s.src.Clean softErrno) (hlen : len ≤ s.rest.length) :
    (s.skip len).rest = s.rest.drop len ∧ (s.skip len).src.Clean softErrno := by
  unfold skip
  by_cases hle : len ≤ s.held.length
  · rw [if_pos hle]
    exact ⟨by rw [rest, rest, List.drop_append_of_le_length hle], hc⟩
  · rw [if_neg hle]
    have hlen' : len - s.held.length ≤ s.src.payload.length := by
      rw [rest, List.length_append] at hlen
      omega
    refine ⟨?_, (Segments.gather_clean softErrno hc _ _).2⟩
    rw [rest, rest, List.nil_append, Segments.gather_payload_rest,
      Segments.gather_exact softErrno hc hlen',
      show len = s.held.length + (len - s.held.length) by omega, List.drop_length_add_append,
      Nat.add_sub_cancel_left]

/-- The held bytes are a part, but not all, of the next `len` bytes. A read of them
then returns less than `len`. -/
def Straddles (len : Nat) (s : Stream) : Prop := 0 < s.held.length ∧ s.held.length < len

instance (len : Nat) (s : Stream) : Decidable (s.Straddles len) :=
  inferInstanceAs (Decidable (_ ∧ _))

theorem read_ret (cap : Nat) (hc : s.src.Clean softErrno) (hlen : len ≤ s.rest.length) :
    (s.read cap len).1 = if s.Straddles len then ((len - s.held.length : Nat) : Int) else len := by
  by_cases hle : len ≤ s.held.length
  · rw [read_within cap hle, if_neg (by unfold Straddles; omega)]
  · obtain ⟨got, src', he, _⟩ := read_beyond cap hc (by omega) hlen
    rw [he]
    by_cases hs : s.Straddles len
    · rw [if_pos hs]
    · have hz : s.held.length = 0 := by
        unfold Straddles at hs
        omega
      rw [if_neg hs, hz, Nat.sub_zero]

/-! ### Plans -/

inductive Piece where
  | read (len : Nat)
  | skip (len : Nat)
deriving Repr, DecidableEq

/-- The stream after a plan in which no read straddles. -/
def through (cap : Nat) : List Piece → Stream → Option Stream
  | [], s => some s
  | .read len :: plan, s =>
      if s.Straddles len then none else through cap plan (s.read cap len).2.2
  | .skip len :: plan, s => through cap plan (s.skip len)

theorem through_append (cap : Nat) (plan plan' : List Piece) (s : Stream) :
    s.through cap (plan ++ plan') = (s.through cap plan).bind (through cap plan') := by
  induction plan generalizing s with
  | nil => rfl
  | cons p plan ih =>
      cases p with
      | read len =>
          rw [List.cons_append, through, through]
          split
          · rfl
          · exact ih _
      | skip len => exact ih _

theorem read_src_clean (cap len : Nat) (hc : s.src.Clean softErrno) :
    (s.read cap len).2.2.src.Clean softErrno := by
  unfold read
  split
  · exact hc
  · exact (Segments.gather_clean softErrno hc _ _).2

theorem skip_src_clean (len : Nat) (hc : s.src.Clean softErrno) :
    (s.skip len).src.Clean softErrno := by
  unfold skip
  split
  · exact hc
  · exact (Segments.gather_clean softErrno hc _ _).2

theorem through_clean {cap : Nat} {plan : List Piece} {s' : Stream} (hc : s.src.Clean softErrno)
    (h : s.through cap plan = some s') : s'.src.Clean softErrno := by
  induction plan generalizing s with
  | nil =>
      cases h
      exact hc
  | cons p plan ih =>
      cases p with
      | read len =>
          rw [through] at h
          split at h
          · cases h
          · exact ih (read_src_clean cap len hc) h
      | skip len => exact ih (skip_src_clean len hc) h

end Stream

/-! ## The reader follows the description -/

namespace BioReader

structure Wf (reader : BioReader) : Prop where
  length_ptr : reader.buffer.ptr.length = reader.buffer.cap
  len_le : reader.buffer.len ≤ reader.buffer.cap
  offset_le : reader.offset ≤ reader.buffer.len

def unread (reader : BioReader) : Bytes := reader.buffer.content.drop reader.offset

def stream (reader : BioReader) (src : Source) : Stream := ⟨reader.unread, src⟩

variable {reader : BioReader}

theorem Wf.length_unread (wf : reader.Wf) :
    reader.unread.length = reader.buffer.len - reader.offset := by
  have h₁ := wf.length_ptr
  have h₂ := wf.len_le
  rw [unread, EfBuffer.content, List.length_drop, List.length_take]
  omega

theorem take_unread (reader : BioReader) {n : Nat} (hn : n ≤ reader.buffer.len - reader.offset) :
    (reader.buffer.ptr.drop reader.offset).take n = reader.unread.take n := by
  rw [unread, EfBuffer.content, List.drop_take, List.take_take, Nat.min_eq_left hn]

theorem Wf.advance (wf : reader.Wf) {n : Nat} (hn : n ≤ reader.buffer.len - reader.offset) :
    ({ reader with offset := reader.offset + n } : BioReader).Wf ∧
      ({ reader with offset := reader.offset + n } : BioReader).unread = reader.unread.drop n := by
  have h := wf.offset_le
  refine ⟨⟨wf.length_ptr, wf.len_le, ?_⟩, ?_⟩
  · dsimp only
    omega
  · simp [unread, List.drop_drop]

theorem Wf.empty (wf : reader.Wf) {ptr : Bytes} (hptr : ptr.length = reader.buffer.ptr.length) :
    (⟨0, { reader.buffer with ptr := ptr, len := 0 }⟩ : BioReader).Wf ∧
      (⟨0, { reader.buffer with ptr := ptr, len := 0 }⟩ : BioReader).unread = [] :=
  ⟨⟨hptr.trans wf.length_ptr, Nat.zero_le _, Nat.le_refl _⟩, by simp [unread, EfBuffer.content]⟩

/-- The state after a refill with `got`, of which `need` bytes are handed out. -/
theorem Wf.refill (wf : reader.Wf) {got : Bytes} {need : Nat}
    (hgot : got.length ≤ reader.buffer.cap) (hneed : need ≤ got.length) :
    (writeAt reader.buffer.ptr 0 got).take need = got.take need ∧
      (⟨need, { reader.buffer with
        ptr := writeAt reader.buffer.ptr 0 got, len := got.length }⟩ : BioReader).Wf ∧
      (⟨need, { reader.buffer with
        ptr := writeAt reader.buffer.ptr 0 got, len := got.length }⟩ : BioReader).unread =
        got.drop need := by
  have h := wf.length_ptr
  have htake : (writeAt reader.buffer.ptr 0 got).take got.length = got := by
    have := @writeAt_take reader.buffer.ptr 0 got (Nat.zero_le _)
    simpa using this
  refine ⟨?_, ⟨?_, hgot, hneed⟩, ?_⟩
  · calc (writeAt reader.buffer.ptr 0 got).take need
        = ((writeAt reader.buffer.ptr 0 got).take got.length).take need := by
          rw [List.take_take, Nat.min_eq_left hneed]
      _ = got.take need := by rw [htake]
  · exact (writeAt_length (by omega)).trans h
  · rw [unread, EfBuffer.content, htake]

theorem Wf.read_spec (wf : reader.Wf) (len : Nat) (src : Source) :
    ∃ reader' src', efBioRead reader len src =
        some (((reader.stream src).read reader.buffer.cap len).1,
          ((reader.stream src).read reader.buffer.cap len).2.1, reader', src') ∧
      reader'.Wf ∧ reader'.buffer.cap = reader.buffer.cap ∧
      reader'.stream src' = ((reader.stream src).read reader.buffer.cap len).2.2 := by
  have hlen := wf.length_unread
  have htake := take_unread reader (Nat.le_refl _)
  rw [← hlen, List.take_length] at htake
  unfold efBioRead Stream.read stream
  dsimp only
  rw [← hlen]
  by_cases hle : len ≤ reader.unread.length
  · obtain ⟨wf', hun⟩ := wf.advance (n := len) (by omega)
    rw [if_pos hle, if_pos hle, take_unread reader (by omega)]
    exact ⟨_, _, rfl, wf', rfl, by rw [hun]⟩
  · rw [if_neg hle, if_neg hle, htake]
    by_cases hbig : reader.buffer.cap >>> 2 < len - reader.unread.length
    · have hmax : max (len - reader.unread.length) 0 = len - reader.unread.length := by omega
      have hg := Segments.gather_length_le softErrno (Nat.le_refl (len - reader.unread.length)) src
      obtain ⟨wf', hun⟩ := wf.empty rfl
      simp only [if_pos hbig, efSafeRead_eq, hmax, Stream.window]
      generalize Segments.gather softErrno (len - reader.unread.length)
        (len - reader.unread.length) src = g at hg ⊢
      refine ⟨_, g.rest, ?_, wf', rfl, ?_⟩
      · simp [hbig, Nat.min_eq_right hg, List.take_of_length_le hg]
      · simp [hun, List.drop_of_length_le hg]
    · have hwin := Stream.le_window reader.buffer.cap (len - reader.unread.length)
      have hmax : max (len - reader.unread.length) reader.buffer.cap = reader.buffer.cap := by
        rw [Stream.window, if_neg hbig] at hwin
        omega
      simp only [Stream.window, if_neg hbig] at hwin ⊢
      have hg := Segments.gather_length_le softErrno hwin src
      simp only [efSafeRead_eq, hmax]
      generalize Segments.gather softErrno (len - reader.unread.length)
        reader.buffer.cap src = g at hg ⊢
      cases he : g.error with
      | some e =>
          have hptr : (writeAt reader.buffer.ptr 0 g.items).length = reader.buffer.ptr.length :=
            writeAt_length (by rw [wf.length_ptr]; omega)
          obtain ⟨wf', hun⟩ := wf.empty hptr
          exact ⟨_, g.rest, by simp [transferRet, hbig], wf', rfl, by simp [hun]⟩
      | none =>
          have hmin : (if g.items.length < len - reader.unread.length then g.items.length
              else len - reader.unread.length) =
              min (len - reader.unread.length) g.items.length := by
            split <;> omega
          obtain ⟨hcopy, wf', hun⟩ := wf.refill hg
            (Nat.min_le_right (len - reader.unread.length) g.items.length)
          have hpos : ¬ (g.items.length : Int) < 0 := by omega
          refine ⟨_, g.rest, ?_, wf', rfl, ?_⟩
          · simp only [Option.bind_eq_bind, Option.bind_some, transferRet, if_neg hpos,
              Int.toNat_natCast, hmin, hcopy]
            simp [hbig, ← List.take_eq_take_min]
          · simp [hun]

/-- The chunks of the loop add up to one exact collection. -/
theorem skipLoop_eq (len fuel remain : Nat) (buffer : EfBuffer) (src : Source)
    (hptr : buffer.ptr.length = buffer.cap) (hcap : 1 ≤ buffer.cap)
    (hc : src.Clean softErrno) (hremain : remain ≤ src.payload.length) (hfuel : remain < fuel) :
    ∃ ptr, skipLoop len fuel remain buffer src =
        some (ssize len, { buffer with ptr := ptr },
          (Segments.gather softErrno remain remain src).rest) ∧
      ptr.length = buffer.ptr.length := by
  induction fuel generalizing remain buffer src with
  | zero => omega
  | succ fuel ih =>
      rw [skipLoop]
      by_cases hpos : 0 < remain
      · have hneed : (if remain < buffer.cap then remain else buffer.cap) =
            min remain buffer.cap := by
          split <;> omega
        rw [if_pos hpos, hneed]
        have hk : 1 ≤ min remain buffer.cap := by omega
        have hkr : min remain buffer.cap ≤ remain := by omega
        have hkc : min remain buffer.cap ≤ buffer.cap := by omega
        generalize min remain buffer.cap = k at hk hkr hkc
        have hexact := Segments.gather_exact softErrno hc (show k ≤ src.payload.length by omega)
        obtain ⟨herr, hc'⟩ := Segments.gather_clean softErrno hc k k
        have hadd := Segments.gather_add softErrno k (remain - k) src hexact
        have hrest := Segments.gather_payload_rest softErrno k k src
        rw [hexact] at hrest
        rw [show k + (remain - k) = remain by omega] at hadd
        simp only [efSafeRead_eq, Nat.max_self, herr, transferRet, hexact, Option.bind_eq_bind,
          Option.bind_some, Int.toNat_natCast]
        rw [if_neg (by omega), hadd]
        generalize Segments.gather softErrno k k src = g at hexact hc' hrest ⊢
        have hlen : (writeAt buffer.ptr 0 g.items).length = buffer.ptr.length :=
          writeAt_length (by omega)
        obtain ⟨ptr, he, hp⟩ := ih (remain - k) { buffer with ptr := writeAt buffer.ptr 0 g.items }
          g.rest (hlen.trans hptr) hcap hc' (by rw [hrest, List.length_drop]; omega) (by omega)
        exact ⟨ptr, he, hp.trans hlen⟩
      · obtain rfl : remain = 0 := by omega
        exact ⟨buffer.ptr, by simp, rfl⟩

theorem ssize_eq {n : Nat} (h : n < 2 ^ 63) : ssize n = n := if_pos h

theorem Wf.skip_spec (wf : reader.Wf) (hcap : 1 ≤ reader.buffer.cap) {len : Nat} {src : Source}
    (hc : src.Clean softErrno) (hlen : len ≤ (reader.stream src).rest.length)
    (hlt : len < 2 ^ 63) :
    ∃ reader' src', efBioReaderSkip reader len src = some ((len : Int), reader', src') ∧
      reader'.Wf ∧ reader'.buffer.cap = reader.buffer.cap ∧
      reader'.stream src' = (reader.stream src).skip len := by
  have hun := wf.length_unread
  have hoff := wf.offset_le
  unfold efBioReaderSkip efBioReaderSkipFor Stream.skip stream
  dsimp only
  by_cases hle : len ≤ reader.unread.length
  · obtain ⟨wf', hun'⟩ := wf.advance (show len ≤ reader.buffer.len - reader.offset by omega)
    rw [if_pos (by omega), if_pos hle, ssize_eq hlt]
    exact ⟨_, _, rfl, wf', rfl, by rw [hun']⟩
  · have hremain : len + reader.offset - reader.buffer.len = len - reader.unread.length := by omega
    have hpay : len - reader.unread.length ≤ src.payload.length := by
      rw [stream, Stream.rest, List.length_append] at hlen
      dsimp only at hlen
      omega
    rw [if_neg (by omega), if_neg hle, hremain,
      ssize_eq (show len - reader.unread.length < 2 ^ 63 by omega), Int.toNat_natCast]
    obtain ⟨ptr, he, hptr⟩ := skipLoop_eq len (len - reader.unread.length + 1)
      (len - reader.unread.length) { reader.buffer with len := 0 } src wf.length_ptr hcap hc hpay
      (by omega)
    obtain ⟨wf', hun'⟩ := wf.empty hptr
    rw [he, ssize_eq hlt]
    exact ⟨_, _, rfl, wf', rfl, by rw [hun']⟩

end BioReader

/-! ## Runs of reads and skips -/

inductive ReaderOp where
  | read (len : Nat)
  | skip (len : Nat)
deriving Repr, DecidableEq

def ReaderOp.len : ReaderOp → Nat
  | read len | skip len => len

/-- What a caller sees of a call: the bytes a read stored, and what is left behind
the call in the buffer and on the descriptor. -/
structure ReaderCall where
  stored : Bytes
  unread : Bytes
  src : Source
deriving Repr, DecidableEq

def readerRun : List ReaderOp → BioReader → Source → Option (List ReaderCall)
  | [], _, _ => some []
  | .read len :: ops, reader, src => do
      let (_, stored, reader, src) ← efBioRead reader len src
      let calls ← readerRun ops reader src
      pure (⟨stored, reader.unread, src⟩ :: calls)
  | .skip len :: ops, reader, src => do
      let (_, reader, src) ← efBioReaderSkip reader len src
      let calls ← readerRun ops reader src
      pure (⟨[], reader.unread, src⟩ :: calls)

/-- The calls hand out the byte string `bytes` in order. -/
def HandsOut : List ReaderOp → List ReaderCall → Bytes → Prop
  | [], calls, _ => calls = []
  | op :: ops, calls, bytes =>
      ∃ call rest, calls = call :: rest ∧
        (∀ len, op = .read len → call.stored = bytes.take len) ∧
        call.unread ++ call.src.payload = bytes.drop op.len ∧
        HandsOut ops rest (bytes.drop op.len)

theorem BioReader.Wf.run_spec {reader : BioReader} (wf : reader.Wf)
    (hcap : 1 ≤ reader.buffer.cap) {ops : List ReaderOp} {src : Source}
    (hc : src.Clean softErrno)
    (hlen : (ops.map ReaderOp.len).sum ≤ (reader.stream src).rest.length)
    (hlt : ∀ op ∈ ops, op.len < 2 ^ 63) :
    ∃ calls, readerRun ops reader src = some calls ∧
      HandsOut ops calls (reader.stream src).rest := by
  induction ops generalizing reader src with
  | nil => exact ⟨[], rfl, rfl⟩
  | cons op ops ih =>
      rw [List.map_cons, List.sum_cons] at hlen
      obtain ⟨hop, hops⟩ := List.forall_mem_cons.mp hlt
      cases op with
      | read len =>
          rw [ReaderOp.len] at hlen
          obtain ⟨reader', src', he, wf', hcap', hs⟩ := wf.read_spec len src
          obtain ⟨hstored, hrest, hc'⟩ :=
            Stream.read_clean reader.buffer.cap hc (show len ≤ (reader.stream src).rest.length by omega)
          rw [← hs] at hrest hc'
          change src'.Clean softErrno at hc'
          have hleft : (ops.map ReaderOp.len).sum ≤ (reader'.stream src').rest.length := by
            rw [hrest, List.length_drop]
            omega
          obtain ⟨calls, hrun, hout⟩ := ih wf' (by omega) hc' hleft hops
          refine ⟨⟨((reader.stream src).read reader.buffer.cap len).2.1, reader'.unread, src'⟩ :: calls,
            by simp [readerRun, he, hrun], _, calls, rfl, ?_, hrest, ?_⟩
          · rintro _ ⟨⟩
            exact hstored
          · rw [hrest] at hout
            exact hout
      | skip len =>
          rw [ReaderOp.len] at hlen
          obtain ⟨reader', src', he, wf', hcap', hs⟩ := wf.skip_spec hcap hc
            (show len ≤ (reader.stream src).rest.length by omega) hop
          obtain ⟨hrest, hc'⟩ :=
            Stream.skip_clean hc (show len ≤ (reader.stream src).rest.length by omega)
          rw [← hs] at hrest hc'
          change src'.Clean softErrno at hc'
          have hleft : (ops.map ReaderOp.len).sum ≤ (reader'.stream src').rest.length := by
            rw [hrest, List.length_drop]
            omega
          obtain ⟨calls, hrun, hout⟩ := ih wf' (by omega) hc' hleft hops
          refine ⟨⟨[], reader'.unread, src'⟩ :: calls, by simp [readerRun, he, hrun], _, calls, rfl,
            by simp, hrest, ?_⟩
          rw [hrest] at hout
          exact hout

/-! ## New readers -/

structure BioReader.Fresh (reader : BioReader) : Prop where
  length_ptr : reader.buffer.ptr.length = reader.buffer.cap
  len_eq : reader.buffer.len = 0
  offset_eq : reader.offset = 0

theorem BioReader.Fresh.wf {reader : BioReader} (h : reader.Fresh) : reader.Wf :=
  ⟨h.length_ptr, by rw [h.len_eq]; omega, by rw [h.len_eq, h.offset_eq]⟩

theorem BioReader.Fresh.stream_eq {reader : BioReader} (h : reader.Fresh) (src : Source) :
    reader.stream src = ⟨[], src⟩ := by
  rw [BioReader.stream, BioReader.unread, EfBuffer.content, h.len_eq]
  simp

def BioReader.ofSize (n : Nat) : BioReader := ⟨0, EfBuffer.fresh (bufferCap n)⟩

theorem BioReader.ofSize_fresh (n : Nat) : (BioReader.ofSize n).Fresh :=
  ⟨List.length_replicate, rfl, rfl⟩

theorem efBioReaderNew_some {n : Nat} {m : Heap} {reader : BioReader}
    (h : (efBioReaderNew n m).1 = some reader) : reader = BioReader.ofSize n := by
  unfold efBioReaderNew at h
  dsimp only at h
  split at h
  next =>
    have hbuf := @efBufferNew_some n m.malloc.2
    generalize efBufferNew n m.malloc.2 = r at h hbuf
    obtain ⟨_ | buffer, m'⟩ := r
    · simp at h
    · rw [← Option.some.inj h, (hbuf rfl).1]
      rfl
  next => simp at h

theorem efBioReaderNew_failures (n : Nat) (m : Heap) :
    m.failures ≤ (efBioReaderNew n m).2.failures ∧
      ((efBioReaderNew n m).2.failures = m.failures → (efBioReaderNew n m).1.isSome) := by
  have h₁ := m.request_failures true
  obtain ⟨hle, hok⟩ := efBufferNew_failures n (m.request true).2
  unfold efBioReaderNew
  dsimp only [Heap.malloc]
  generalize efBufferNew n (m.request true).2 = r at hle hok ⊢
  obtain ⟨_ | buffer, m'⟩ := r <;> cases hb₁ : (m.request true).1 <;>
    simp only [hb₁, Bool.false_eq_true, if_false, if_true] at h₁ hle hok ⊢
  · exact ⟨by omega, fun he => by omega⟩
  · exact ⟨by omega, fun he => absurd (hok (by omega)) (by simp)⟩
  · exact ⟨by omega, fun he => by omega⟩
  · exact ⟨by omega, fun _ => rfl⟩

/-- A new reader with a buffer of at least one byte hands out its stream piece by
piece, however the descriptor cuts it, as long as the stream holds enough and every length
is a `ssize_t`. -/
theorem bio_reader_transparent {reader : BioReader} (hfresh : reader.Fresh)
    (hcap : 1 ≤ reader.buffer.cap) {src : Source} (hc : src.Clean softErrno)
    {ops : List ReaderOp} (hlen : (ops.map ReaderOp.len).sum ≤ src.payload.length)
    (hlt : ∀ op ∈ ops, op.len < 2 ^ 63) :
    ∃ calls, readerRun ops reader src = some calls ∧ HandsOut ops calls src.payload := by
  have hrest : (reader.stream src).rest = src.payload := by
    rw [hfresh.stream_eq]
    rfl
  rw [← hrest] at hlen ⊢
  exact hfresh.wf.run_spec hcap hc hlen hlt

/-- A refill that is cut by an interrupt, a skip out of the buffer, and a read
that goes around it. -/
theorem bio_reader_transparent_cut :
    ∃ calls, readerRun [.read 1, .skip 2, .read 5] (BioReader.ofSize 3)
        [.data 1 [2], .fail eintr, .data 3 [4, 5, 6, 7, 8]] = some calls ∧
      HandsOut [.read 1, .skip 2, .read 5] calls [1, 2, 3, 4, 5, 6, 7, 8] := by
  have hc : Segments.Clean softErrno
      ([.data 1 [2], .fail eintr, .data 3 [4, 5, 6, 7, 8]] : Source) := by
    intro e he
    obtain rfl : e = eintr := by simpa using he
    rfl
  exact bio_reader_transparent (BioReader.ofSize_fresh 3) (by decide) hc (by decide) (by decide)

/-- What is to be skipped is negative as a `ssize_t`: nothing is read. -/
theorem efBioReaderSkip_negative {reader : BioReader} (hfresh : reader.Fresh) {len : Nat}
    (hlo : 2 ^ 63 ≤ len) (hhi : len < 2 ^ 64) (src : Source) :
    efBioReaderSkip reader len src =
      some (ssize len, ⟨0, { reader.buffer with len := 0 }⟩, src) := by
  have hremain : (ssize (len + reader.offset - reader.buffer.len)).toNat = 0 := by
    rw [hfresh.offset_eq, hfresh.len_eq]
    unfold ssize
    split <;> omega
  unfold efBioReaderSkip efBioReaderSkipFor
  dsimp only
  rw [hremain, if_neg (by rw [hfresh.len_eq]; omega)]
  rfl

theorem not_handsOut_negative {reader : BioReader} (hfresh : reader.Fresh) {len : Nat}
    (hlo : 2 ^ 63 ≤ len) (hhi : len < 2 ^ 64) {src : Source} (hpay : len ≤ src.payload.length) :
    ¬ ∃ calls, readerRun [.skip len] reader src = some calls ∧
      HandsOut [.skip len] calls src.payload := by
  rintro ⟨calls, hrun, hout⟩
  rw [readerRun, efBioReaderSkip_negative hfresh hlo hhi] at hrun
  cases hrun
  obtain ⟨call, rest, hcall, -, hrest, -⟩ := hout
  cases hcall
  have hlen := congrArg List.length hrest
  rw [List.length_append, List.length_drop, ReaderOp.len] at hlen
  change _ + src.payload.length = _ at hlen
  omega

/-- A skip of 2^63 bytes, which the stream has, leaves all of them. -/
theorem bio_reader_transparent_negative :
    ¬ ∀ (reader : BioReader) (src : Source) (ops : List ReaderOp), reader.Fresh →
      1 ≤ reader.buffer.cap → src.Clean softErrno → (∀ op ∈ ops, op.len < 2 ^ 64) →
      (ops.map ReaderOp.len).sum ≤ src.payload.length →
      ∃ calls, readerRun ops reader src = some calls ∧ HandsOut ops calls src.payload := by
  intro h
  obtain ⟨xs, hxs⟩ : ∃ xs : Bytes, xs.length + 1 = 2 ^ 63 :=
    ⟨List.replicate (2 ^ 63 - 1) 0, by rw [List.length_replicate]; omega⟩
  have hpay : (Segments.payload [Segment.data 0 xs]).length = 2 ^ 63 := by
    rw [Segments.payload_cons, Segments.payload_nil, List.append_nil, Segment.payload,
      List.length_cons, hxs]
  have hc : Segments.Clean softErrno [Segment.data 0 xs] := by
    intro e he
    simp at he
  refine not_handsOut_negative (BioReader.ofSize_fresh 1) (Nat.le_refl _) (by decide)
    (Nat.le_of_eq hpay.symm) (h _ [.data 0 xs] [.skip (2 ^ 63)] (BioReader.ofSize_fresh 1)
      (by decide) hc ?_ ?_)
  · simp [ReaderOp.len]
  · rw [hpay]
    exact Nat.le_refl _

end EFramework
