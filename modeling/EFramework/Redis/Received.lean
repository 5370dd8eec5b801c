import EFramework.Redis.Agreement
import EFramework.Redis.Decoding

/-! # Replies from received bytes

A parser that is given the received bytes and nothing behind them has no result when it looks
behind `end`. Every other result is the same with any bytes there.
-/

namespace EFramework

open Lib

/-! ## The received bytes -/

/-- The connection of the first run has the received bytes of the second one's buffer, which has
`cap` bytes. -/
structure Received (cap : Nat) (s c : RedisConnection) : Prop where
  buf : s.buf = c.buf.take c.stop
  room : c.stop ≤ c.buf.length
  cap : c.buf.length = cap
  seek : s.seek = c.seek
  stop : s.stop = c.stop
  src : s.src = c.src
  heap : s.heap = c.heap
  marks : s.marks = c.marks

/-- `reply_read_more` with a buffer of `cap` bytes, of which the received ones are kept. -/
def receiveMore (cap : Nat) (con : RedisConnection) : Option (Int × RedisConnection) := do
  let copylen := con.pending
  let buf ← movePending con
  let (r, _, bytes, src) := efWrapRead (min (cap - copylen) maxTransfer) con.src
  if r < 0 then
    some (r, { con with buf := buf.take copylen, seek := 0, stop := copylen, src := src })
  else
    some (0, { con with
      buf := buf.take copylen ++ bytes, seek := 0, stop := copylen + bytes.length, src := src })

namespace Received

variable {cap : Nat} {s c : RedisConnection}

theorem pending (h : Received cap s c) : s.pending = c.pending := by
  rw [RedisConnection.pending, h.seek, h.stop]
  rfl

theorem text (h : Received cap s c) (buf : Nat) : s.text buf <+: c.text buf := by
  rw [RedisConnection.text, h.buf]
  exact (List.take_prefix c.stop c.buf).drop buf

theorem movePending (h : Received cap s c) {kept : Bytes} (he : movePending s = some kept) :
    ∃ moved, EFramework.movePending c = some moved ∧ moved.length = cap ∧
      moved.take c.pending = kept.take c.pending ∧ c.pending ≤ c.stop := by
  unfold EFramework.movePending at he ⊢
  rw [h.pending, h.seek] at he
  by_cases hzero : c.pending = 0
  · rw [if_pos hzero, hzero]
    exact ⟨c.buf, rfl, h.cap, rfl, Nat.zero_le _⟩
  · rw [if_neg hzero] at he ⊢
    by_cases hseek : c.seek < c.pending
    · rw [if_pos hseek] at he
      cases he
    · rw [if_neg hseek, strncpy] at he ⊢
      obtain ⟨bytes, hbytes, he⟩ := Option.bind_eq_some_iff.mp he
      have hlen := strncpyBytes_length hbytes
      rw [strncpyBytes_of_isPrefix (h.text c.seek) hbytes, Option.bind_eq_bind, Option.bind_some]
      have hstop : s.buf.length = c.stop := by
        rw [h.buf, List.length_take, Nat.min_eq_left h.room]
      have hroom := h.room
      rw [storeAt_start, hlen] at he ⊢
      by_cases hfits : c.pending ≤ c.stop
      · rw [if_pos (by omega)] at he ⊢
        cases he
        refine ⟨_, rfl, ?_, ?_, hfits⟩
        · rw [List.length_append, List.length_drop, hlen, ← h.cap]
          omega
        · rw [List.take_left' hlen, List.take_left' hlen]
      · rw [if_neg (by omega)] at he
        cases he

end Received

theorem receiveMore_refines {cap : Nat} {s c : RedisConnection} (h : Received cap s c) :
    Refines (Received cap) (receiveMore cap s) (replyReadMore c) := by
  unfold receiveMore replyReadMore
  rw [h.pending, h.src, h.cap]
  rcases hread : efWrapRead (min (cap - c.pending) maxTransfer) c.src with ⟨r, errno, bytes, src⟩
  have hcount := efWrapRead_length_le hread
  intro res s' he
  obtain ⟨kept, hkept, he⟩ := Option.bind_eq_some_iff.mp he
  obtain ⟨moved, hmoved, hlen, htake, hle⟩ := h.movePending hkept
  have hroom := h.room
  have hcap := h.cap
  rw [hmoved, Option.bind_eq_bind, Option.bind_some]
  simp only [hread] at he ⊢
  by_cases hr : r < 0
  · rw [if_pos hr] at he ⊢
    cases he
    refine ⟨_, rfl, ?_, ?_, hlen, rfl, rfl, rfl, h.heap, h.marks⟩
    · exact htake.symm
    · dsimp only
      omega
  · rw [if_neg hr] at he ⊢
    cases he
    have hwritten : c.pending + bytes.length ≤ moved.length := by omega
    refine ⟨_, rfl, ?_, ?_, ?_, rfl, rfl, rfl, h.heap, h.marks⟩
    · dsimp only
      rw [writeAt_take (by omega), htake]
    · dsimp only
      rw [writeAt_length hwritten]
      exact hwritten
    · dsimp only
      rw [writeAt_length hwritten, hlen]

theorem receiveMore_agrees (cap : Nat) :
    Agrees (Received cap) (receiveMore cap) replyReadMore where
  buf h := by
    rw [h.buf]
    exact List.take_prefix _ _
  seek h := h.seek
  stop h := h.stop
  heap h := h.heap
  setSeek n h := ⟨h.buf, h.room, h.cap, rfl, h.stop, h.src, h.heap, h.marks⟩
  setHeap heap h := ⟨h.buf, h.room, h.cap, h.seek, h.stop, h.src, rfl, h.marks⟩
  mark h := ⟨h.buf, h.room, h.cap, h.seek, h.stop, h.src, h.heap, by
    simp only [RedisConnection.mark, h.marks, h.seek, h.stop]⟩
  more h := receiveMore_refines h

/-! ## A call -/

/-- No parser looks behind the received bytes: the call has a result without anything there. -/
def WithinReceived (fuel : Nat) (con : RedisConnection) : Prop :=
  let (r, _, bytes, src) := efWrapRead (min con.buf.length maxTransfer) con.src
  r < 0 ∨ (parseReply (receiveMore con.buf.length) fuel
    { con with buf := bytes, seek := 0, stop := bytes.length, src := src }).isSome

/-- What the buffer holds before the call is not seen in a call that looks at received bytes
only. -/
theorem redis_stale_bytes {fuel : Nat} {con : RedisConnection} (h : WithinReceived fuel con)
    {stale : Bytes} (hlen : stale.length = con.buf.length) :
    ∃ rep c c', efRedisReadReply fuel con = some (rep, c) ∧
      efRedisReadReply fuel { con with buf := stale } = some (rep, c') ∧
      c'.seek = c.seek ∧ c'.stop = c.stop := by
  unfold WithinReceived at h
  unfold efRedisReadReply readReply
  dsimp only at h ⊢
  rw [hlen]
  rcases hread : efWrapRead (min con.buf.length maxTransfer) con.src with ⟨r, errno, bytes, src⟩
  have hcount := efWrapRead_length_le hread
  simp only [hread] at h ⊢
  by_cases hr : r < 0
  · rw [if_pos hr, if_pos hr]
    exact ⟨_, _, _, rfl, rfl, rfl, rfl⟩
  · obtain ⟨⟨rep, s⟩, hs⟩ := Option.isSome_iff_exists.mp (h.resolve_left hr)
    -- the received bytes are the same in both buffers
    have hfirst : ∀ {mem : Bytes}, mem.length = con.buf.length → Received con.buf.length
        { con with buf := bytes, seek := 0, stop := bytes.length, src := src }
        { con with buf := writeAt mem 0 bytes, seek := 0, stop := bytes.length, src := src } := by
      intro mem hmem
      have hfits : 0 + bytes.length ≤ mem.length := by omega
      have hwritten := writeAt_length hfits
      have htake := @writeAt_take mem 0 bytes (Nat.zero_le _)
      rw [Nat.zero_add, List.take_zero, List.nil_append] at htake
      refine ⟨htake.symm, ?_, hwritten.trans hmem, rfl, rfl, rfl, rfl, rfl⟩
      dsimp only
      omega
    have hagree := receiveMore_agrees con.buf.length
    obtain ⟨c, hc, hsc⟩ := hagree.parseReply (hfirst rfl) fuel rep s hs
    obtain ⟨c', hc', hsc'⟩ := hagree.parseReply (hfirst hlen) fuel rep s hs
    rw [if_neg hr, if_neg hr]
    exact ⟨rep, c, c', hc, hc', by rw [← hsc'.seek, hsc.seek], by rw [← hsc'.stop, hsc.stop]⟩

/-- A number in one read. -/
theorem redis_stale_bytes_seven : ∃ rep c c',
    efRedisReadReply 3 ⟨List.replicate 8 0, 0, 0, [.data 58 [55, 13, 10]], ⟨[], 0, 0⟩, []⟩ =
      some (rep, c) ∧
    efRedisReadReply 3 ⟨List.replicate 8 10, 0, 0, [.data 58 [55, 13, 10]], ⟨[], 0, 0⟩, []⟩ =
      some (rep, c') ∧ c'.seek = c.seek ∧ c'.stop = c.stop :=
  @redis_stale_bytes 3 ⟨List.replicate 8 0, 0, 0, [.data 58 [55, 13, 10]], ⟨[], 0, 0⟩, []⟩
    (.inr rfl) (List.replicate 8 10) rfl

/-- `"+a"` in the first read and `"b"` with its CRLF in the next one, which is not made if there
is a CRLF behind the first one. -/
theorem redis_stale_bytes_short : ¬ ∀ stale : Bytes, stale.length = 8 → ∃ rep c c',
    efRedisReadReply 3 ⟨List.replicate 8 0, 0, 0, [.data 43 [97], .data 98 [13, 10]],
      ⟨[], 0, 0⟩, []⟩ = some (rep, c) ∧
    efRedisReadReply 3 ⟨stale, 0, 0, [.data 43 [97], .data 98 [13, 10]], ⟨[], 0, 0⟩, []⟩ =
      some (rep, c') ∧ c'.seek = c.seek ∧ c'.stop = c.stop := by
  intro h
  obtain ⟨rep, c, c', hc, hc', -⟩ := h [0, 0, 13, 10, 0, 0, 0, 0] rfl
  have hlong : ∃ c, efRedisReadReply 3 ⟨List.replicate 8 0, 0, 0,
      [.data 43 [97], .data 98 [13, 10]], ⟨[], 0, 0⟩, []⟩ = some (.str [97, 98] 2, c) := ⟨_, rfl⟩
  have hshort : ∃ c, efRedisReadReply 3 ⟨[0, 0, 13, 10, 0, 0, 0, 0], 0, 0,
      [.data 43 [97], .data 98 [13, 10]], ⟨[], 0, 0⟩, []⟩ = some (.str [97] 1, c) := ⟨_, rfl⟩
  obtain ⟨d, hd⟩ := hlong
  obtain ⟨d', hd'⟩ := hshort
  rw [hd] at hc
  rw [hd'] at hc'
  cases hc
  cases hc'

end EFramework
