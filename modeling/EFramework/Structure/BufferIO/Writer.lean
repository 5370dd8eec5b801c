import EFramework.Structure.BufferIO.Transfer

/-! # The buffered writer of `structure/bufferio.c`

A write is appended to the buffer, or goes to the descriptor behind whatever the
buffer holds. As long as no call fails, the bytes the descriptor has accepted and
the bytes in the buffer are together the bytes written so far, and the buffer is
only appended to when it has room, so it keeps its block.
-/

namespace EFramework

structure BioWriter where
  buffer : EfBuffer
deriving Repr, DecidableEq

def efBioWriterNew (bufSize : Nat) (m : Heap) : Option BioWriter × Heap :=
  let (ok, m) := m.malloc
  if ok then
    match efBufferNew bufSize m with
    | (none, m) => (none, m)
    | (some buffer, m) => (some ⟨buffer⟩, m)
  else (none, m)

def efBioWrite (writer : BioWriter) (buf : Bytes) (snk : Sink) (m : Heap) :
    Option (Int × BioWriter × Sink × Heap) :=
  let buffer := writer.buffer
  if buffer.cap < (buffer.len + buf.length) % 2 ^ 64 ∨ buffer.cap >>> 2 < buf.length then
    if buffer.len ≠ 0 then do
      let (written, snk) ← efSafeWrite (buffer.ptr.take buffer.len) snk
      if written < 0 then pure (-1, writer, snk, m)
      else
        let (written, snk) ← efSafeWrite buf snk
        pure (written, ⟨{ buffer with len := 0 }⟩, snk, m)
    else do
      let (written, snk) ← efSafeWrite buf snk
      pure (written, writer, snk, m)
  else do
    let (ret, buffer, m) ← efBufferAppend buffer buf m
    pure (if ret < 0 then -1 else (buf.length : Int), ⟨buffer⟩, snk, m)

def efBioWriterFlush (writer : BioWriter) (snk : Sink) : Option (Int × BioWriter × Sink) :=
  let buffer := writer.buffer
  if buffer.len = 0 then some (0, writer, snk)
  else do
    let (written, snk) ← efSafeWrite (buffer.ptr.take buffer.len) snk
    if written < 0 then pure (written, writer, snk)
    else pure (written, ⟨{ buffer with len := 0 }⟩, snk)

/-! ## One call -/

namespace BioWriter

def Wf (writer : BioWriter) : Prop := writer.buffer.Wf

def written (writer : BioWriter) (snk : Sink) : Bytes := snk.accepted ++ writer.buffer.content

variable {writer : BioWriter}

theorem Wf.emptied (wf : writer.Wf) :
    (⟨{ writer.buffer with len := 0 }⟩ : BioWriter).Wf ∧
      ({ writer.buffer with len := 0 } : EfBuffer).content = [] :=
  ⟨⟨wf.length_ptr, Nat.zero_le _, wf.cap_lt⟩, by simp [EfBuffer.content]⟩

theorem content_eq_nil (hlen : writer.buffer.len = 0) : writer.buffer.content = [] := by
  rw [EfBuffer.content, hlen, List.take_zero]

/-- A write asks for no memory, and if it does not fail it adds its bytes. -/
theorem Wf.write_spec (wf : writer.Wf) (buf : Bytes) (snk : Sink) (m : Heap) :
    ∃ ret writer' snk', efBioWrite writer buf snk m = some (ret, writer', snk', m) ∧
      writer'.Wf ∧ writer'.buffer.cap = writer.buffer.cap ∧
      (0 ≤ ret → writer'.written snk' = writer.written snk ++ buf) ∧
      (snk.Clean → 0 ≤ ret ∧ snk'.Clean) := by
  have hlen := wf.len_le
  have hcap := wf.cap_lt
  unfold efBioWrite
  dsimp only
  by_cases hdirect : writer.buffer.cap < (writer.buffer.len + buf.length) % 2 ^ 64 ∨
      writer.buffer.cap >>> 2 < buf.length
  · rw [if_pos hdirect]
    by_cases hne : writer.buffer.len ≠ 0
    · -- the buffered bytes go first
      rw [if_pos hne]
      obtain ⟨ret₁, snk₁, he₁, hcase₁, hclean₁⟩ :=
        efSafeWrite_spec (writer.buffer.ptr.take writer.buffer.len) snk
      rw [he₁]
      simp only [Option.bind_eq_bind, Option.bind_some]
      by_cases hneg : ret₁ < 0
      · rw [if_pos hneg]
        exact ⟨_, _, _, rfl, wf, rfl, fun h => by omega,
          fun hc => by have := (hclean₁ hc).1; omega⟩
      · rw [if_neg hneg]
        have hacc₁ : snk₁.accepted = snk.accepted ++ writer.buffer.content := by
          rcases hcase₁ with h | h
          · exact h.2
          · omega
        obtain ⟨ret₂, snk₂, he₂, hcase₂, hclean₂⟩ := efSafeWrite_spec buf snk₁
        rw [he₂]
        refine ⟨ret₂, _, snk₂, rfl, wf.emptied.1, rfl, ?_, ?_⟩
        · intro h
          rcases hcase₂ with h₂ | h₂
          · simp [written, wf.emptied.2, h₂.2, hacc₁]
          · omega
        · intro hc
          have h₂ := hclean₂ (hclean₁ hc).2
          exact ⟨by omega, h₂.2⟩
    · rw [if_neg hne]
      obtain ⟨ret, snk', he, hcase, hclean⟩ := efSafeWrite_spec buf snk
      rw [he]
      refine ⟨ret, writer, snk', rfl, wf, rfl, ?_, fun hc => ⟨?_, (hclean hc).2⟩⟩
      · intro h
        have hnil : writer.buffer.content = [] := content_eq_nil (not_not.mp hne)
        rcases hcase with h' | h'
        · simp [written, hnil, h'.2]
        · omega
      · have := (hclean hc).1
        omega
  · rw [if_neg hdirect]
    have hsmall : writer.buffer.len + buf.length < 2 ^ 64 := by
      rw [not_or, Nat.shiftRight_eq_div_pow] at hdirect
      omega
    rw [Nat.mod_eq_of_lt hsmall] at hdirect
    obtain ⟨buffer, he, hwf, hcap', hcontent⟩ := EfBuffer.Wf.append_fits wf
      (show buf.length ≤ writer.buffer.cap - writer.buffer.len by omega) m
    rw [he]
    refine ⟨buf.length, ⟨buffer⟩, snk, by simp, hwf, hcap', fun _ => ?_, fun hc => ⟨?_, hc⟩⟩
    · simp [written, hcontent]
    · omega

theorem Wf.flush_spec (wf : writer.Wf) (snk : Sink) :
    ∃ ret writer' snk', efBioWriterFlush writer snk = some (ret, writer', snk') ∧
      writer'.Wf ∧ writer'.buffer.cap = writer.buffer.cap ∧
      (0 ≤ ret → writer'.written snk' = writer.written snk ∧ writer'.buffer.len = 0) ∧
      (snk.Clean → 0 ≤ ret ∧ snk'.Clean) := by
  unfold efBioWriterFlush
  dsimp only
  by_cases hz : writer.buffer.len = 0
  · rw [if_pos hz]
    exact ⟨0, writer, snk, rfl, wf, rfl, fun _ => ⟨rfl, hz⟩, fun hc => ⟨Int.le_refl 0, hc⟩⟩
  · rw [if_neg hz]
    obtain ⟨ret, snk', he, hcase, hclean⟩ :=
      efSafeWrite_spec (writer.buffer.ptr.take writer.buffer.len) snk
    rw [he]
    simp only [Option.bind_eq_bind, Option.bind_some]
    by_cases hneg : ret < 0
    · rw [if_pos hneg]
      exact ⟨_, _, _, rfl, wf, rfl, fun h => by omega, fun hc => by have := (hclean hc).1; omega⟩
    · rw [if_neg hneg]
      refine ⟨ret, _, snk', rfl, wf.emptied.1, rfl, fun _ => ⟨?_, rfl⟩,
        fun hc => ⟨by omega, (hclean hc).2⟩⟩
      rcases hcase with h | h
      · simp [written, h.2, EfBuffer.content]
      · omega

end BioWriter

/-! ## Runs of writes and flushes -/

inductive WriterOp where
  | write (buf : Bytes)
  | flush
deriving Repr, DecidableEq

def WriterOp.bytes : WriterOp → Bytes
  | write buf => buf
  | flush => []

def WriterOp.exec (writer : BioWriter) (snk : Sink) (m : Heap) :
    WriterOp → Option (Int × BioWriter × Sink × Heap)
  | write buf => efBioWrite writer buf snk m
  | flush => do
      let (ret, writer, snk) ← efBioWriterFlush writer snk
      pure (ret, writer, snk, m)

def writerRun : List WriterOp → BioWriter → Sink → Heap →
    Option (List Int × BioWriter × Sink × Heap)
  | [], writer, snk, m => some ([], writer, snk, m)
  | op :: ops, writer, snk, m => do
      let (ret, writer, snk, m) ← op.exec writer snk m
      let (rets, writer, snk, m) ← writerRun ops writer snk m
      pure (ret :: rets, writer, snk, m)

namespace BioWriter.Wf

variable {writer : BioWriter}

theorem exec_spec (wf : writer.Wf) (op : WriterOp) (snk : Sink) (m : Heap) :
    ∃ ret writer' snk', op.exec writer snk m = some (ret, writer', snk', m) ∧
      writer'.Wf ∧ writer'.buffer.cap = writer.buffer.cap ∧
      (0 ≤ ret → writer'.written snk' = writer.written snk ++ op.bytes ∧
        (op = .flush → writer'.buffer.len = 0)) := by
  cases op with
  | write buf =>
      obtain ⟨ret, writer', snk', he, hwf, hcap, hw, _⟩ := wf.write_spec buf snk m
      exact ⟨ret, writer', snk', he, hwf, hcap, fun h => ⟨hw h, by simp⟩⟩
  | flush =>
      obtain ⟨ret, writer', snk', he, hwf, hcap, hw, _⟩ := wf.flush_spec snk
      exact ⟨ret, writer', snk', by simp [WriterOp.exec, he], hwf, hcap,
        fun h => ⟨by simpa [WriterOp.bytes] using (hw h).1, fun _ => (hw h).2⟩⟩

theorem run_spec (wf : writer.Wf) (ops : List WriterOp) (snk : Sink) (m : Heap) :
    ∃ rets writer' snk', writerRun ops writer snk m = some (rets, writer', snk', m) ∧
      writer'.Wf ∧ writer'.buffer.cap = writer.buffer.cap ∧
      ((∀ ret ∈ rets, 0 ≤ ret) →
        writer'.written snk' = writer.written snk ++ ops.flatMap WriterOp.bytes ∧
        (ops.getLast? = some .flush → writer'.buffer.len = 0)) := by
  induction ops generalizing writer snk with
  | nil => exact ⟨[], writer, snk, rfl, wf, rfl, by simp⟩
  | cons op ops ih =>
      obtain ⟨ret, writer₁, snk₁, he, wf₁, hcap₁, hstep⟩ := wf.exec_spec op snk m
      obtain ⟨rets, writer', snk', hrun, wf', hcap', hrest⟩ := ih wf₁ snk₁
      refine ⟨ret :: rets, writer', snk', by simp [writerRun, he, hrun], wf', hcap'.trans hcap₁, ?_⟩
      intro hall
      obtain ⟨hw₁, hempty₁⟩ := hstep (hall ret (by simp))
      obtain ⟨hw', hempty'⟩ := hrest (fun r hr => hall r (List.mem_cons_of_mem ret hr))
      refine ⟨by rw [hw', hw₁, List.flatMap_cons, List.append_assoc], ?_⟩
      cases ops with
      | nil =>
          simp only [writerRun, Option.some.injEq, Prod.mk.injEq] at hrun
          obtain ⟨_, rfl, _, _⟩ := hrun
          intro hlast
          exact hempty₁ (by simpa using hlast)
      | cons op' ops => simpa using hempty'

end BioWriter.Wf

/-! ## New writers -/

def BioWriter.ofSize (n : Nat) : BioWriter := ⟨EfBuffer.fresh (bufferCap n)⟩

theorem BioWriter.ofSize_written (n : Nat) (snk : Sink) :
    (BioWriter.ofSize n).written snk = snk.accepted := by
  simp [BioWriter.written, BioWriter.ofSize, EfBuffer.content, EfBuffer.fresh]

theorem efBioWriterNew_some {n : Nat} {m : Heap} {writer : BioWriter}
    (h : (efBioWriterNew n m).1 = some writer) : writer = BioWriter.ofSize n ∧ writer.Wf := by
  unfold efBioWriterNew at h
  dsimp only at h
  split at h
  next =>
    have hbuf := @efBufferNew_some n m.malloc.2
    generalize efBufferNew n m.malloc.2 = r at h hbuf
    obtain ⟨_ | buffer, m'⟩ := r
    · simp at h
    · obtain ⟨rfl, hlt⟩ := hbuf rfl
      obtain rfl := Option.some.inj h
      exact ⟨rfl, EfBuffer.fresh_wf hlt⟩
  next => simp at h

theorem efBioWriterNew_failures (n : Nat) (m : Heap) :
    m.failures ≤ (efBioWriterNew n m).2.failures ∧
      ((efBioWriterNew n m).2.failures = m.failures → (efBioWriterNew n m).1.isSome) := by
  have h₁ := m.request_failures true
  obtain ⟨hle, hok⟩ := efBufferNew_failures n (m.request true).2
  unfold efBioWriterNew
  dsimp only [Heap.malloc]
  generalize efBufferNew n (m.request true).2 = r at hle hok ⊢
  obtain ⟨_ | buffer, m'⟩ := r <;> cases hb₁ : (m.request true).1 <;>
    simp only [hb₁, Bool.false_eq_true, if_false, if_true] at h₁ hle hok ⊢
  · exact ⟨by omega, fun he => by omega⟩
  · exact ⟨by omega, fun he => absurd (hok (by omega)) (by simp)⟩
  · exact ⟨by omega, fun he => by omega⟩
  · exact ⟨by omega, fun _ => rfl⟩

/-- Until a call fails, what the descriptor has accepted and what the buffer holds
are together the buffers written, in order; a flush leaves nothing in the buffer.
The buffer never grows and no call asks for memory. -/
theorem bio_writer_faithful {size : Nat} {m m' : Heap} {writer : BioWriter}
    (hnew : efBioWriterNew size m = (some writer, m')) (ops : List WriterOp)
    (events : List SinkEvent) :
    ∃ rets writer' snk', writerRun ops writer ⟨[], events⟩ m' = some (rets, writer', snk', m') ∧
      writer'.buffer.len ≤ writer'.buffer.cap ∧ writer'.buffer.cap = writer.buffer.cap ∧
      ((∀ ret ∈ rets, 0 ≤ ret) →
        snk'.accepted ++ writer'.buffer.content = ops.flatMap WriterOp.bytes ∧
        (ops.getLast? = some .flush → writer'.buffer.len = 0)) := by
  obtain ⟨rfl, wf⟩ := @efBioWriterNew_some size m writer (by rw [hnew])
  obtain ⟨rets, writer', snk', hrun, wf', hcap, hw⟩ := wf.run_spec ops ⟨[], events⟩ m'
  rw [BioWriter.ofSize_written] at hw
  exact ⟨rets, writer', snk', hrun, EfBuffer.Wf.len_le wf', hcap, hw⟩

/-- A buffered write overtaken by none: the second write is too large for the
buffer and sends it out first. -/
theorem bio_writer_faithful_bypass :
    ∃ rets writer' snk', writerRun [.write [1, 2, 3], .write [4, 5, 6, 7, 8], .flush]
        (BioWriter.ofSize 16) ⟨[], [.accept 2, .fail eintr]⟩ ⟨[], 3, 0⟩ =
          some (rets, writer', snk', ⟨[], 3, 0⟩) ∧
      snk'.accepted ++ writer'.buffer.content = [1, 2, 3, 4, 5, 6, 7, 8] := by
  have hnew : efBioWriterNew 16 ⟨[], 0, 0⟩ = (some (BioWriter.ofSize 16), ⟨[], 3, 0⟩) := rfl
  obtain ⟨rets, writer', snk', hrun, _, _, hw⟩ :=
    bio_writer_faithful hnew [.write [1, 2, 3], .write [4, 5, 6, 7, 8], .flush]
      [.accept 2, .fail eintr]
  have hrets : rets = [3, 5, 0] := by
    have heval : (writerRun [.write [1, 2, 3], .write [4, 5, 6, 7, 8], .flush]
      (BioWriter.ofSize 16) ⟨[], [.accept 2, .fail eintr]⟩ ⟨[], 3, 0⟩).map Prod.fst =
        some [3, 5, 0] := rfl
    rw [hrun] at heval
    exact Option.some.inj heval
  exact ⟨rets, writer', snk', hrun, (hw (by rw [hrets]; decide)).1⟩

end EFramework
