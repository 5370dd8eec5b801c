import EFramework.Structure.BufferIO.Writer

/-! # Failed calls of the buffered writer

A hard failure leaves the buffer as it was, whatever part of the transfer has been
accepted before it. The bytes of this part are sent again by the next flush, or by the
caller who repeats a write; a failure before the first byte does no harm.
-/

namespace EFramework

/-! ## One transfer -/

/-- A hard failure stops a transfer of `n` bytes after the first and before the last one. -/
def cutTransfer (events : List SinkEvent) (n : Nat) : Bool :=
  !(progress events n).done && decide (0 < (progress events n).accepted)

theorem cutTransfer_zero (events : List SinkEvent) : cutTransfer events 0 = false := by
  rw [cutTransfer, progress_zero]
  rfl

theorem efSafeWrite_failed {buf : Bytes} {snk snk' : Sink} {ret : Int}
    (he : efSafeWrite buf snk = some (ret, snk')) :
    (ret < 0 ↔ (progress snk.events buf.length).done = false) ∧
      snk'.accepted = snk.accepted ++ buf.take (progress snk.events buf.length).accepted ∧
      snk'.events = (progress snk.events buf.length).events := by
  rw [efSafeWrite_eq] at he
  cases he
  refine ⟨?_, rfl, rfl⟩
  cases (progress snk.events buf.length).done with
  | true => simp
  | false => simp

/-! ## One call -/

def BioWriter.Direct (writer : BioWriter) (buf : Bytes) : Prop :=
  writer.buffer.cap < (writer.buffer.len + buf.length) % 2 ^ 64 ∨
    writer.buffer.cap >>> 2 < buf.length

instance (writer : BioWriter) (buf : Bytes) : Decidable (writer.Direct buf) :=
  inferInstanceAs (Decidable (_ ∨ _))

/-- A transfer of the call is going to be cut: that of the buffered bytes, or that of the
bytes given to a write which goes around the buffer. -/
def WriterOp.cut (writer : BioWriter) (snk : Sink) : WriterOp → Bool
  | .flush => cutTransfer snk.events writer.buffer.len
  | .write buf =>
      decide (writer.Direct buf) &&
        (cutTransfer snk.events writer.buffer.len ||
          ((progress snk.events writer.buffer.len).done &&
            cutTransfer (progress snk.events writer.buffer.len).events buf.length))

namespace BioWriter

variable {writer : BioWriter}

theorem Wf.send_failed (wf : writer.Wf) {snk snk' : Sink} {ret : Int}
    (he : efSafeWrite (writer.buffer.ptr.take writer.buffer.len) snk = some (ret, snk'))
    (hret : ret < 0) :
    (progress snk.events writer.buffer.len).done = false ∧
      (writer.written snk' = writer.written snk ↔
        cutTransfer snk.events writer.buffer.len = false) := by
  have hlen : (writer.buffer.ptr.take writer.buffer.len).length = writer.buffer.len :=
    EfBuffer.Wf.length_content wf
  obtain ⟨hfail, hacc, _⟩ := efSafeWrite_failed he
  rw [hlen] at hfail hacc
  have hd := hfail.mp hret
  have hle := progress_le snk.events writer.buffer.len
  refine ⟨hd, ?_⟩
  unfold written cutTransfer
  rw [hacc, hd]
  constructor
  · intro h
    have := congrArg List.length h
    rw [List.length_append, List.length_append, List.length_append, List.length_take, hlen] at this
    simp only [Bool.not_false, Bool.true_and, decide_eq_false_iff_not]
    omega
  · intro h
    have hz : (progress snk.events writer.buffer.len).accepted = 0 := by simpa using h
    rw [hz, List.take_zero, List.append_nil]

theorem Wf.send_ok (wf : writer.Wf) {snk snk' : Sink} {ret : Int}
    (he : efSafeWrite (writer.buffer.ptr.take writer.buffer.len) snk = some (ret, snk'))
    (hret : ¬ ret < 0) :
    (progress snk.events writer.buffer.len).done = true ∧
      cutTransfer snk.events writer.buffer.len = false ∧
      snk'.accepted = writer.written snk ∧
      snk'.events = (progress snk.events writer.buffer.len).events := by
  have hlen : (writer.buffer.ptr.take writer.buffer.len).length = writer.buffer.len :=
    EfBuffer.Wf.length_content wf
  obtain ⟨hfail, hacc, hevents⟩ := efSafeWrite_failed he
  rw [hlen] at hfail hacc hevents
  have hd : (progress snk.events writer.buffer.len).done = true := by
    rwa [hfail, Bool.not_eq_false] at hret
  refine ⟨hd, by rw [cutTransfer, hd]; rfl, ?_, hevents⟩
  rw [hacc, progress_done hd, List.take_of_length_le (Nat.le_of_eq hlen)]
  rfl

theorem send_direct {buf : Bytes} {snk snk' : Sink} {ret : Int}
    (he : efSafeWrite buf snk = some (ret, snk')) :
    (ret < 0 → (snk'.accepted = snk.accepted ↔ cutTransfer snk.events buf.length = false)) ∧
      (¬ ret < 0 → cutTransfer snk.events buf.length = false) := by
  obtain ⟨hfail, hacc, _⟩ := efSafeWrite_failed he
  have hle := progress_le snk.events buf.length
  constructor
  · intro hret
    rw [cutTransfer, hfail.mp hret, hacc]
    constructor
    · intro h
      have := congrArg List.length h
      rw [List.length_append, List.length_take] at this
      simp only [Bool.not_false, Bool.true_and, decide_eq_false_iff_not]
      omega
    · intro h
      have hz : (progress snk.events buf.length).accepted = 0 := by simpa using h
      rw [hz, List.take_zero, List.append_nil]
  · intro hret
    rw [hfail, Bool.not_eq_false] at hret
    rw [cutTransfer, hret]
    rfl

theorem Wf.room_of_buffered (wf : writer.Wf) {buf : Bytes} (h : ¬ writer.Direct buf) :
    buf.length ≤ writer.buffer.cap - writer.buffer.len := by
  have hcap := wf.cap_lt
  have hlen := wf.len_le
  unfold Direct at h
  rw [not_or, Nat.shiftRight_eq_div_pow, Nat.mod_eq_of_lt (by omega)] at h
  omega

/-- A call that fails leaves the stream of accepted and buffered bytes as it was if and
only if no transfer was cut; a call in which one is cut does fail. -/
theorem Wf.exec_failed (wf : writer.Wf) (op : WriterOp) {snk snk' : Sink} {m m' : Heap}
    {ret : Int} {writer' : BioWriter} (he : op.exec writer snk m = some (ret, writer', snk', m')) :
    (ret < 0 → (writer'.written snk' = writer.written snk ↔ op.cut writer snk = false)) ∧
      (¬ ret < 0 → op.cut writer snk = false) := by
  cases op with
  | flush =>
      obtain ⟨⟨ret₁, writer₁, snk₁⟩, hflush, hpure⟩ := Option.bind_eq_some_iff.mp he
      cases hpure
      unfold efBioWriterFlush at hflush
      dsimp only at hflush
      unfold WriterOp.cut
      split at hflush
      next hz =>
        cases hflush
        rw [hz, cutTransfer_zero]
        exact ⟨fun h => absurd h (Int.lt_irrefl 0), fun _ => rfl⟩
      next =>
        obtain ⟨⟨ret₂, snk₂⟩, hsend, hpure⟩ := Option.bind_eq_some_iff.mp hflush
        dsimp only at hpure
        split at hpure
        next hneg =>
          cases hpure
          exact ⟨fun _ => (wf.send_failed hsend hneg).2, fun h => absurd hneg h⟩
        next hpos =>
          cases hpure
          exact ⟨fun h => absurd h hpos, fun _ => (wf.send_ok hsend hpos).2.1⟩
  | write buf =>
      unfold WriterOp.exec efBioWrite at he
      dsimp only at he
      dsimp only [WriterOp.cut]
      by_cases hdirect : writer.Direct buf
      · rw [if_pos (id hdirect : _ ∨ _)] at he
        rw [decide_eq_true hdirect, Bool.true_and]
        split at he
        next hne =>
          obtain ⟨⟨ret₁, snk₁⟩, hsend, hnext⟩ := Option.bind_eq_some_iff.mp he
          dsimp only at hnext
          split at hnext
          next hneg =>
            cases hnext
            obtain ⟨hd, hiff⟩ := wf.send_failed hsend hneg
            rw [hd, Bool.false_and, Bool.or_false]
            exact ⟨fun _ => hiff, fun h => absurd (by decide) h⟩
          next hpos =>
            obtain ⟨⟨ret₂, snk₂⟩, hsend₂, hpure⟩ := Option.bind_eq_some_iff.mp hnext
            cases hpure
            obtain ⟨hd, hcut, hacc, hevents⟩ := wf.send_ok hsend hpos
            have hwritten : ∀ snk : Sink,
                (⟨{ writer.buffer with len := 0 }⟩ : BioWriter).written snk = snk.accepted := by
              intro snk
              rw [written, wf.emptied.2, List.append_nil]
            rw [hd, hcut, Bool.false_or, Bool.true_and, ← hevents, hwritten, ← hacc]
            exact send_direct hsend₂
        next hz =>
          obtain ⟨⟨ret₁, snk₁⟩, hsend, hpure⟩ := Option.bind_eq_some_iff.mp he
          cases hpure
          have hlen := not_not.mp hz
          have hwritten : ∀ snk, writer.written snk = snk.accepted := by
            intro snk
            rw [written, content_eq_nil hlen, List.append_nil]
          rw [hlen, cutTransfer_zero, progress_zero, Bool.false_or, Bool.true_and, hwritten,
            hwritten]
          exact send_direct hsend
      · obtain ⟨buffer, happend, _⟩ :=
          EfBuffer.Wf.append_fits wf (wf.room_of_buffered hdirect) m
        rw [if_neg (id hdirect : ¬ (_ ∨ _)), happend] at he
        cases he
        rw [decide_eq_false hdirect, Bool.false_and]
        exact ⟨fun h => absurd h (by simp), fun _ => rfl⟩

end BioWriter

/-! ## Runs without failures -/

/-- What a call makes of the number of buffered bytes and of the coming outcomes, unless a
hard error stops it. -/
def WriterOp.pass (cap : Nat) (st : Nat × List SinkEvent) : WriterOp → Option (Nat × List SinkEvent)
  | .flush =>
      let p := progress st.2 st.1
      if p.done then some (0, p.events) else none
  | .write buf =>
      if cap < (st.1 + buf.length) % 2 ^ 64 ∨ cap >>> 2 < buf.length then
        let p := progress st.2 st.1
        let q := progress p.events buf.length
        if p.done ∧ q.done then some (0, q.events) else none
      else some (st.1 + buf.length, st.2)

def unbroken (cap held : Nat) (events : List SinkEvent) (ops : List WriterOp) : Bool :=
  (ops.foldlM (WriterOp.pass cap) (held, events)).isSome

theorem pass_transfer {buf : Bytes} {snk snk' : Sink} {ret : Int} {n : Nat}
    (hn : buf.length = n) (he : efSafeWrite buf snk = some (ret, snk')) :
    (if (progress snk.events n).done = true then some (0, (progress snk.events n).events)
      else none) = if ret < 0 then none else some (0, snk'.events) := by
  obtain ⟨hfail, _, hevents⟩ := efSafeWrite_failed he
  rw [hn] at hfail hevents
  rw [hevents]
  by_cases hneg : ret < 0
  · rw [if_pos hneg, hfail.mp hneg]
    rfl
  · rw [if_neg hneg, if_pos]
    rwa [hfail, Bool.not_eq_false] at hneg

theorem BioWriter.Wf.exec_pass {writer : BioWriter} (wf : writer.Wf) (op : WriterOp)
    {snk snk' : Sink} {m m' : Heap} {ret : Int} {writer' : BioWriter}
    (he : op.exec writer snk m = some (ret, writer', snk', m')) :
    op.pass writer.buffer.cap (writer.buffer.len, snk.events) =
      if ret < 0 then none else some (writer'.buffer.len, snk'.events) := by
  cases op with
  | flush =>
      obtain ⟨⟨ret₁, writer₁, snk₁⟩, hflush, hpure⟩ := Option.bind_eq_some_iff.mp he
      cases hpure
      unfold efBioWriterFlush at hflush
      dsimp only at hflush
      dsimp only [WriterOp.pass]
      split at hflush
      next hz =>
        cases hflush
        rw [hz, progress_zero]
        rfl
      next =>
        obtain ⟨⟨ret₂, snk₂⟩, hsend, hpure⟩ := Option.bind_eq_some_iff.mp hflush
        have hpass := pass_transfer (EfBuffer.Wf.length_content wf) hsend
        dsimp only at hpure
        split at hpure
        next hneg =>
          cases hpure
          rw [if_pos hneg] at hpass ⊢
          exact hpass
        next =>
          cases hpure
          exact hpass
  | write buf =>
      unfold WriterOp.exec efBioWrite at he
      dsimp only at he
      dsimp only [WriterOp.pass]
      by_cases hdirect : writer.buffer.cap < (writer.buffer.len + buf.length) % 2 ^ 64 ∨
          writer.buffer.cap >>> 2 < buf.length
      · rw [if_pos hdirect] at he
        rw [if_pos hdirect]
        split at he
        next hne =>
          obtain ⟨⟨ret₁, snk₁⟩, hsend, hnext⟩ := Option.bind_eq_some_iff.mp he
          dsimp only at hnext
          split at hnext
          next hneg =>
            cases hnext
            rw [(wf.send_failed hsend hneg).1]
            rfl
          next hpos =>
            obtain ⟨⟨ret₂, snk₂⟩, hsend₂, hpure⟩ := Option.bind_eq_some_iff.mp hnext
            cases hpure
            obtain ⟨hd, _, _, hevents⟩ := wf.send_ok hsend hpos
            rw [hd, ← hevents]
            simpa using pass_transfer rfl hsend₂
        next hz =>
          obtain ⟨⟨ret₁, snk₁⟩, hsend, hpure⟩ := Option.bind_eq_some_iff.mp he
          cases hpure
          have hlen := not_not.mp hz
          rw [hlen, progress_zero]
          simpa using pass_transfer rfl hsend
      · obtain ⟨buffer, happend, hwf', _, hcontent⟩ :=
          EfBuffer.Wf.append_fits wf (wf.room_of_buffered hdirect) m
        rw [if_neg hdirect, happend] at he
        cases he
        rw [if_neg hdirect]
        have hlen := congrArg List.length hcontent
        rw [hwf'.length_content, List.length_append, EfBuffer.Wf.length_content wf] at hlen
        simp [hlen]

/-- All calls of a run succeed if and only if no hard error comes up in them. -/
theorem BioWriter.Wf.run_unbroken {writer : BioWriter} (wf : writer.Wf) (ops : List WriterOp)
    (snk : Sink) (m : Heap) :
    ∃ rets writer' snk', writerRun ops writer snk m = some (rets, writer', snk', m) ∧
      ((∀ ret ∈ rets, 0 ≤ ret) ↔
        unbroken writer.buffer.cap writer.buffer.len snk.events ops = true) := by
  induction ops generalizing writer snk with
  | nil => exact ⟨[], writer, snk, rfl, by simp [unbroken]⟩
  | cons op ops ih =>
      obtain ⟨ret, writer₁, snk₁, he, wf₁, hcap, _⟩ := wf.exec_spec op snk m
      obtain ⟨rets, writer', snk', hrun, hiff⟩ := ih wf₁ snk₁
      have hpass := wf.exec_pass op he
      refine ⟨ret :: rets, writer', snk', by simp [writerRun, he, hrun], ?_⟩
      rw [List.forall_mem_cons, hiff]
      unfold unbroken
      rw [List.foldlM_cons, hpass, hcap]
      by_cases hneg : ret < 0
      · rw [if_pos hneg]
        simp [Int.not_le.mpr hneg]
      · rw [if_neg hneg]
        simp [Int.not_lt.mp hneg]

/-! ## Runs with failures -/

/-- A call, with the states before and after it. -/
structure WriterCall where
  op : WriterOp
  writer : BioWriter
  snk : Sink
  ret : Int
  writer' : BioWriter
  snk' : Sink
deriving Repr, DecidableEq

def writerTrace : List WriterOp → BioWriter → Sink → Heap → Option (List WriterCall)
  | [], _, _, _ => some []
  | op :: ops, writer, snk, m => do
      let (ret, writer', snk', m) ← op.exec writer snk m
      let calls ← writerTrace ops writer' snk' m
      pure (⟨op, writer, snk, ret, writer', snk'⟩ :: calls)

namespace WriterCall

def before (c : WriterCall) : Bytes := c.writer.written c.snk

def after (c : WriterCall) : Bytes := c.writer'.written c.snk'

/-- When the call fails, it can be made again: no byte of it has joined the stream. -/
def Retryable (c : WriterCall) : Prop := c.ret < 0 → c.after = c.before

def Cut (c : WriterCall) : Prop := c.op.cut c.writer c.snk = true

def bytes (c : WriterCall) : Bytes := if c.ret < 0 then [] else c.op.bytes

end WriterCall

theorem BioWriter.Wf.trace_spec {writer : BioWriter} (wf : writer.Wf) (ops : List WriterOp)
    (snk : Sink) (m : Heap) :
    ∃ calls, writerTrace ops writer snk m = some calls ∧
      (∀ c ∈ calls, c.Retryable ↔ ¬ c.Cut) ∧
      ((∀ c ∈ calls, ¬ c.Cut) → ∀ past c future, calls = past ++ c :: future →
        c.after = writer.written snk ++ (past ++ [c]).flatMap WriterCall.bytes) := by
  induction ops generalizing writer snk with
  | nil => exact ⟨[], rfl, by simp, fun _ past c future h => by simp at h⟩
  | cons op ops ih =>
      obtain ⟨ret, writer', snk', he, wf', _, hok⟩ := wf.exec_spec op snk m
      obtain ⟨hfail, hdone⟩ := wf.exec_failed op he
      obtain ⟨calls, htrace, hretry, hstream⟩ := ih wf' snk'
      set call : WriterCall := ⟨op, writer, snk, ret, writer', snk'⟩ with hcall
      have hiff : call.Retryable ↔ ¬ call.Cut := by
        unfold WriterCall.Cut
        rw [Bool.not_eq_true]
        by_cases hneg : ret < 0
        · exact ⟨fun h => (hfail hneg).mp (h hneg), fun h _ => (hfail hneg).mpr h⟩
        · exact ⟨fun _ => hdone hneg, fun _ h => absurd h hneg⟩
      refine ⟨call :: calls, by simp [writerTrace, he, htrace, hcall], ?_, ?_⟩
      · intro c hc
        rcases List.mem_cons.mp hc with rfl | hc
        · exact hiff
        · exact hretry c hc
      · intro hall past c future hsplit
        -- what the first call adds
        have hfirst : writer'.written snk' = writer.written snk ++ call.bytes := by
          unfold WriterCall.bytes
          by_cases hneg : ret < 0
          · rw [if_pos hneg, List.append_nil]
            exact hiff.mpr (hall call List.mem_cons_self) hneg
          · rw [if_neg hneg]
            exact (hok (by omega)).1
        cases past with
        | nil =>
            obtain ⟨rfl, _⟩ := List.cons.inj hsplit
            rw [List.nil_append, List.flatMap_singleton]
            exact hfirst
        | cons p past =>
            obtain ⟨rfl, hrest⟩ := List.cons.inj hsplit
            rw [hstream (fun c hc => hall c (List.mem_cons_of_mem _ hc)) past c future hrest,
              hfirst, List.cons_append, List.flatMap_cons, List.append_assoc]

/-- In every run, the failed calls can all be made again if and only if no hard error cuts
a transfer; then the accepted and the buffered bytes are, after every call, what the calls
so far have written, each byte once. -/
theorem bio_writer_retry {writer : BioWriter} (wf : writer.Wf) (ops : List WriterOp) (snk : Sink)
    (m : Heap) :
    ∃ calls, writerTrace ops writer snk m = some calls ∧
      ((∀ c ∈ calls, c.Retryable) ↔ ∀ c ∈ calls, ¬ c.Cut) ∧
      ((∀ c ∈ calls, ¬ c.Cut) → ∀ past c future, calls = past ++ c :: future →
        c.after = writer.written snk ++ (past ++ [c]).flatMap WriterCall.bytes) := by
  obtain ⟨calls, htrace, hretry, hstream⟩ := wf.trace_spec ops snk m
  exact ⟨calls, htrace, forall₂_congr hretry, hstream⟩

/-- A write that meets a hard error before its first byte, and is made again. -/
theorem bio_writer_retry_again :
    ∃ calls, writerTrace [.write [1, 2, 3], .flush, .flush] (BioWriter.ofSize 16)
        ⟨[], [.fail 32, .accept 2]⟩ ⟨[], 0, 0⟩ = some calls ∧
      ∀ c ∈ calls, c.Retryable := by
  have wf : (BioWriter.ofSize 16).Wf := EfBuffer.fresh_wf (by decide)
  obtain ⟨calls, htrace, hiff, _⟩ := bio_writer_retry wf [.write [1, 2, 3], .flush, .flush]
    ⟨[], [.fail 32, .accept 2]⟩ ⟨[], 0, 0⟩
  refine ⟨calls, htrace, hiff.mpr ?_⟩
  have hcuts : (writerTrace [.write [1, 2, 3], .flush, .flush] (BioWriter.ofSize 16)
      ⟨[], [.fail 32, .accept 2]⟩ ⟨[], 0, 0⟩).map
        (fun calls => calls.all (fun c => !c.op.cut c.writer c.snk)) = some true := by
    decide +kernel
  rw [htrace] at hcuts
  have hall := List.all_eq_true.mp (Option.some.inj hcuts)
  intro c hc
  rw [WriterCall.Cut, Bool.not_eq_true]
  simpa using hall c hc

/-- The first of three bytes is accepted before a flush fails, and sent again by the next. -/
theorem bio_writer_retry_twice :
    ∃ calls, writerTrace [.write [1, 2, 3], .flush, .flush] (BioWriter.ofSize 16)
        ⟨[], [.accept 1, .fail 32]⟩ ⟨[], 0, 0⟩ = some calls ∧
      (∃ c ∈ calls, ¬ c.Retryable) ∧ calls.map (fun c => (c.ret, c.snk'.accepted)) =
        [(3, []), (-1, [1]), (3, [1, 1, 2, 3])] := by
  have hrun : (writerTrace [.write [1, 2, 3], .flush, .flush] (BioWriter.ofSize 16)
      ⟨[], [.accept 1, .fail 32]⟩ ⟨[], 0, 0⟩).map (fun calls =>
        (calls.map (fun c => (c.ret, c.snk'.accepted)),
          calls.any (fun c => decide (c.ret < 0 ∧ c.after ≠ c.before)))) =
      some ([(3, []), (-1, [1]), (3, [1, 1, 2, 3])], true) := by
    decide +kernel
  obtain ⟨calls, htrace, hcalls⟩ := Option.map_eq_some_iff.mp hrun
  obtain ⟨hlog, hany⟩ := Prod.mk.inj hcalls
  obtain ⟨c, hc, hbad⟩ := List.any_eq_true.mp hany
  obtain ⟨hneg, hne⟩ := of_decide_eq_true hbad
  exact ⟨calls, htrace, ⟨c, hc, fun h => hne (h hneg)⟩, hlog⟩

end EFramework
