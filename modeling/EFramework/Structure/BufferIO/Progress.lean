import EFramework.Structure.BufferIO.Reader

/-! # Counts and progress of the buffered reader

`ef_bio_read` returns what its last transfer brought, which is the number of bytes it
has stored unless some of them came out of the buffer. Its loop ends at the end of the
stream. The loop of `ef_bio_reader_skip` takes an empty read for progress, and goes on
forever when nothing is left of the stream or when the buffer has no room.
-/

namespace EFramework

open Lib (Segments)

/-! ## The count of a read -/

namespace Stream

variable {len : Nat} {s : Stream}

/-- The return value of a read and the number of bytes it has stored. -/
theorem read_count (cap : Nat) (hc : s.src.Clean softErrno) (hgt : s.held.length < len) :
    ∃ n, (s.read cap len).1 = (n : Nat) ∧ (s.read cap len).2.1.length = s.held.length + n ∧
      n ≤ len - s.held.length ∧ (n < len - s.held.length → s.src.payload.length < n + 1) := by
  have hwin := le_window cap (len - s.held.length)
  obtain ⟨herr, _⟩ := Segments.gather_clean softErrno hc (len - s.held.length)
    (window cap (len - s.held.length))
  have henough := Segments.gather_enough softErrno hwin s.src herr
  have hpay := Segments.gather_payload softErrno (len - s.held.length)
    (window cap (len - s.held.length)) s.src
  unfold read
  rw [if_neg (by omega)]
  simp only [herr, Option.isSome_none, Bool.false_eq_true, and_false, if_false, transferRet]
  generalize Segments.gather softErrno (len - s.held.length)
    (window cap (len - s.held.length)) s.src = g at henough hpay ⊢
  refine ⟨min (len - s.held.length) g.items.length, rfl, ?_, Nat.min_le_left _ _, ?_⟩
  · rw [List.length_append, List.length_take]
  · intro hlt
    rcases henough with hn | hr
    · omega
    · rw [hr, Segments.payload_nil, List.append_nil] at hpay
      rw [← hpay]
      omega

end Stream

/-- What the return value of a read says: how many bytes were stored, all that were asked
for as long as the stream has them. -/
structure CountsStored (s : Stream) (len : Nat) (ret : Int) (stored : Bytes) : Prop where
  count : ret = stored.length
  full : len ≤ s.rest.length → ret = len
  short : ret < len → s.rest.length < len

/-- The return value counts the bytes stored if and only if the bytes held are none, or
all that is asked for. -/
theorem bio_read_count {reader : BioReader} (wf : reader.Wf) {src : Source}
    (hc : src.Clean softErrno) (len : Nat) :
    ∃ ret stored reader' src', efBioRead reader len src = some (ret, stored, reader', src') ∧
      (CountsStored (reader.stream src) len ret stored ↔
        reader.unread = [] ∨ len ≤ reader.unread.length) := by
  obtain ⟨reader', src', he, _⟩ := wf.read_spec len src
  refine ⟨_, _, reader', src', he, ?_⟩
  have hrest : (reader.stream src).rest.length = reader.unread.length + src.payload.length :=
    List.length_append
  by_cases hle : len ≤ reader.unread.length
  · rw [Stream.read_within reader.buffer.cap (s := reader.stream src) hle]
    have hlen : ((reader.stream src).held.take len).length = len := by
      rw [List.length_take]
      exact Nat.min_eq_left hle
    refine ⟨fun _ => Or.inr hle, fun _ => ⟨by rw [hlen], fun _ => rfl, fun h => ?_⟩⟩
    exact absurd h (Int.lt_irrefl _)
  · have hgt : (reader.stream src).held.length < len := Nat.lt_of_not_le hle
    obtain ⟨n, hret, hstored, hn, hend⟩ :=
      Stream.read_count reader.buffer.cap (s := reader.stream src) hc hgt
    change _ = reader.unread.length + n at hstored
    change n ≤ len - reader.unread.length at hn
    change n < len - reader.unread.length → src.payload.length < n + 1 at hend
    rw [hret]
    constructor
    · rintro ⟨hcount, _, _⟩
      rw [hstored] at hcount
      exact Or.inl (List.eq_nil_of_length_eq_zero (by omega))
    · rintro (hnil | h)
      · rw [hnil, List.length_nil] at hstored hn hend hrest
        refine ⟨by rw [hstored]; omega, fun h => ?_, fun h => ?_⟩
        · omega
        · have := hend (by omega)
          omega
      · exact absurd h hle

theorem bio_read_count_end :
    ∃ ret stored reader' src', efBioRead ⟨0, ⟨[0, 0], 2, 0⟩⟩ 2 [.data 3 []] =
        some (ret, stored, reader', src') ∧
      CountsStored ((⟨0, ⟨[0, 0], 2, 0⟩⟩ : BioReader).stream [.data 3 []]) 2 ret stored := by
  have wf : (⟨0, ⟨[0, 0], 2, 0⟩⟩ : BioReader).Wf := ⟨rfl, by decide, by decide⟩
  have hc : Segments.Clean softErrno ([.data 3 []] : Source) := by
    intro e he
    simp at he
  obtain ⟨ret, stored, reader', src', he, hiff⟩ := bio_read_count wf hc 2
  exact ⟨ret, stored, reader', src', he, hiff.mpr (Or.inl rfl)⟩

/-- Two bytes are stored, one of them held before, and one is returned. -/
theorem bio_read_count_straddling :
    ¬ ∀ (reader : BioReader) (src : Source) (len : Nat), reader.Wf → src.Clean softErrno →
      ∃ ret stored reader' src', efBioRead reader len src = some (ret, stored, reader', src') ∧
        CountsStored (reader.stream src) len ret stored := by
  intro h
  obtain ⟨ret, stored, reader', src', he, hcount⟩ := h ⟨1, ⟨[1, 2], 2, 2⟩⟩ [.data 3 []] 2
    ⟨rfl, Nat.le_refl 2, by decide⟩ (by intro e he; simp at he)
  have hrun : efBioRead ⟨1, ⟨[1, 2], 2, 2⟩⟩ 2 [.data 3 []] =
      some (1, [2, 3], ⟨0, ⟨[1, 2], 2, 0⟩⟩, []) := rfl
  rw [hrun] at he
  cases he
  exact absurd hcount.count (by decide)

/-! ## The loop of a skip -/

/-- Without room, or with more to skip than is left of the stream, every round leaves
something to skip. -/
theorem skipLoop_stuck (len : Nat) {fuel remain : Nat} {buffer : EfBuffer} {src : Source}
    (hc : src.Clean softErrno)
    (h : (buffer.cap = 0 ∧ 0 < remain) ∨ src.payload.length < remain) :
    skipLoop len fuel remain buffer src = none := by
  induction fuel generalizing remain buffer src with
  | zero => rfl
  | succ fuel ih =>
      obtain ⟨herr, hc'⟩ := Segments.gather_clean softErrno hc (min remain buffer.cap)
        (min remain buffer.cap)
      have hle := Segments.gather_length_le softErrno (Nat.le_refl (min remain buffer.cap)) src
      have hpay := congrArg List.length
        (Segments.gather_payload softErrno (min remain buffer.cap) (min remain buffer.cap) src)
      rw [List.length_append] at hpay
      have hneed : (if remain < buffer.cap then remain else buffer.cap) = min remain buffer.cap := by
        split <;> omega
      rw [skipLoop, if_pos (by omega), hneed]
      simp only [efSafeRead_eq, Nat.max_self, herr, transferRet, Option.bind_eq_bind,
        Option.bind_some, Int.toNat_natCast]
      generalize Segments.gather softErrno (min remain buffer.cap) (min remain buffer.cap) src = g
        at hc' hle hpay ⊢
      rw [if_neg (by omega)]
      refine ih hc' ?_
      rcases h with ⟨hcap, hpos⟩ | hlt
      · exact Or.inl ⟨hcap, by omega⟩
      · exact Or.inr (by omega)

/-- The rounds of a skip come to an end if and only if nothing has to be read, or the
buffer has room and the stream has enough. -/
theorem skipLoop_returns_iff (len remain : Nat) {buffer : EfBuffer} {src : Source}
    (hptr : buffer.ptr.length = buffer.cap) (hc : src.Clean softErrno) :
    (∃ fuel r, skipLoop len fuel remain buffer src = some r) ↔
      remain = 0 ∨ (0 < buffer.cap ∧ remain ≤ src.payload.length) := by
  constructor
  · rintro ⟨fuel, r, he⟩
    by_contra hno
    rw [skipLoop_stuck len hc (by omega)] at he
    cases he
  · rintro (rfl | ⟨hcap, hle⟩)
    · exact ⟨1, _, rfl⟩
    · obtain ⟨ptr, he, _⟩ := BioReader.skipLoop_eq len (remain + 1) remain buffer src hptr hcap hc hle
        (Nat.lt_succ_self _)
      exact ⟨remain + 1, _, he⟩

/-- A read returns on every stream. A skip returns if and only if it needs no more than
the bytes held, or the buffer has room and the stream has enough bytes behind them, or the
rest of the length is no `ssize_t`. -/
theorem bio_reader_returns {reader : BioReader} (wf : reader.Wf) {src : Source}
    (hc : src.Clean softErrno) {len : Nat} (hlen : len < 2 ^ 64) :
    (∃ r, efBioRead reader len src = some r) ∧
      ((∃ fuel r, efBioReaderSkipFor fuel reader len src = some r) ↔
        len ≤ reader.unread.length ∨ 2 ^ 63 ≤ len - reader.unread.length ∨
          (0 < reader.buffer.cap ∧ len - reader.unread.length ≤ src.payload.length)) := by
  have hun := wf.length_unread
  have hoff := wf.offset_le
  obtain ⟨reader', src', he, _⟩ := wf.read_spec len src
  refine ⟨⟨_, he⟩, ?_⟩
  unfold efBioReaderSkipFor
  dsimp only
  by_cases hle : len ≤ reader.unread.length
  · simp only [if_pos (show len ≤ reader.buffer.len - reader.offset by omega)]
    exact ⟨fun _ => Or.inl hle, fun _ => ⟨0, _, rfl⟩⟩
  · have hremain : len + reader.offset - reader.buffer.len = len - reader.unread.length := by omega
    have hptr : ({ reader.buffer with len := 0 } : EfBuffer).ptr.length =
        ({ reader.buffer with len := 0 } : EfBuffer).cap := wf.length_ptr
    have hloop := skipLoop_returns_iff len (ssize (len - reader.unread.length)).toNat hptr hc
    have hbind : (∃ fuel r, (skipLoop len fuel (ssize (len - reader.unread.length)).toNat
          { reader.buffer with len := 0 } src >>= fun r => pure (r.1, (⟨0, r.2.1⟩ : BioReader),
            r.2.2)) = some r) ↔
        ∃ fuel r, skipLoop len fuel (ssize (len - reader.unread.length)).toNat
          { reader.buffer with len := 0 } src = some r := by
      constructor
      · rintro ⟨fuel, r, h⟩
        obtain ⟨r', h', _⟩ := Option.bind_eq_some_iff.mp h
        exact ⟨fuel, r', h'⟩
      · rintro ⟨fuel, r, h⟩
        exact ⟨fuel, _, by rw [h]; rfl⟩
    simp only [if_neg (show ¬ len ≤ reader.buffer.len - reader.offset by omega), hremain]
    refine hbind.trans (hloop.trans ?_)
    unfold ssize
    dsimp only
    split <;> omega

/-- A held byte, one that the descriptor has, and no third one to skip. -/
theorem bio_reader_returns_short :
    (∃ r, efBioRead ⟨1, ⟨[1, 2], 2, 2⟩⟩ 3 [.data 3 []] = some r) ∧
      ∃ fuel r, efBioReaderSkipFor fuel ⟨1, ⟨[1, 2], 2, 2⟩⟩ 2 [.data 3 []] = some r := by
  have wf : (⟨1, ⟨[1, 2], 2, 2⟩⟩ : BioReader).Wf := ⟨rfl, Nat.le_refl 2, by decide⟩
  have hc : Segments.Clean softErrno ([.data 3 []] : Source) := by
    intro e he
    simp at he
  exact ⟨(bio_reader_returns wf hc (show 3 < 2 ^ 64 by decide)).1,
    (bio_reader_returns wf hc (show 2 < 2 ^ 64 by decide)).2.mpr
      (Or.inr (Or.inr ⟨by decide, by decide⟩))⟩

/-- A skip of one byte at the end of the stream never returns. -/
theorem bio_reader_returns_not :
    ¬ ∀ (reader : BioReader) (src : Source) (len : Nat), reader.Wf → src.Clean softErrno →
      len < 2 ^ 64 → ∃ fuel r, efBioReaderSkipFor fuel reader len src = some r := by
  intro h
  obtain ⟨fuel, r, he⟩ := h (BioReader.ofSize 8) [] 1 (BioReader.ofSize_fresh 8).wf
    (Segments.clean_nil softErrno) (by decide)
  have hrun : efBioReaderSkipFor fuel (BioReader.ofSize 8) 1 [] =
      (skipLoop 1 fuel 1 (EfBuffer.fresh (bufferCap 8)) []).bind
        (fun r => some (r.1, (⟨0, r.2.1⟩ : BioReader), r.2.2)) := rfl
  rw [hrun, skipLoop_stuck 1 (Segments.clean_nil softErrno) (Or.inr (by decide))] at he
  cases he

end EFramework
