import EFramework.Redis.Progress

/-! # Calls that return

A read that succeeds need not bring anything: at the end of the stream, or with a full buffer,
the loops go on for ever. When every read brings something, a read takes from what is left of the
stream, and between two reads the arrays go forward in the buffer.
-/

namespace EFramework

open Lib

def RedisConnection.left (con : RedisConnection) : Nat := con.src.payload.length + con.src.length

namespace Halting

abbrev Ends {A : Type} (x : Outcome A) (Q : A → Prop) : Prop := Meets (· ≠ .fuel) x Q

/-! ## What a read takes -/

theorem efWrapRead_left {count errno : Nat} {src src' : Source} {r : Int} {bytes : Bytes}
    (h : efWrapRead count src = (r, errno, bytes, src')) :
    src'.payload.length + src'.length ≤ src.payload.length + src.length ∧
      (0 < count → src ≠ [] →
        src'.payload.length + src'.length < src.payload.length + src.length) := by
  cases src with
  | nil =>
      cases h
      exact ⟨Nat.le_refl _, fun _ hsrc => absurd rfl hsrc⟩
  | cons p src =>
      cases p with
      | fail e =>
          cases h
          simp [Segment.payload]
      | data x xs =>
          cases h
          have hpieces : (Segments.ofList ((x :: xs).drop count)).length ≤ 1 := by
            cases (x :: xs).drop count <;> simp [Segments.ofList]
          rw [Segments.payload_ofList_append, Segments.payload_cons, Segment.payload,
            List.length_append, List.length_append, List.length_append, List.length_drop,
            List.length_cons, List.length_cons]
          omega

theorem movePending_length {con : RedisConnection} {buf : Bytes}
    (h : movePending con = some buf) : buf.length = con.buf.length := by
  unfold movePending at h
  split at h
  · cases h
    rfl
  · split at h
    · cases h
    · obtain ⟨bytes, -, h⟩ := Option.bind_eq_some_iff.mp h
      exact storeAt_length h

theorem busyRead_ends (con : RedisConnection) :
    Ends (busyRead con) (fun r => r.2.buf.length = con.buf.length ∧ r.2.left < con.left) := by
  refine Meets.ite (fun _ => .error (by decide) _) (fun h => ?_)
  rw [not_or, Nat.not_le] at h
  refine (Meets.orStop (by decide) _).mono (fun r hr => ?_)
  unfold EFramework.replyReadMore at hr
  obtain ⟨buf, hbuf, hr⟩ := Option.bind_eq_some_iff.mp hr
  have hmax : 0 < maxTransfer := by decide
  have hlen := movePending_length hbuf
  rcases hread : efWrapRead (min (con.buf.length - con.pending) maxTransfer) con.src with
    ⟨res, errno, bytes, src⟩
  have hleft := (efWrapRead_left hread).2 (by omega) h.1
  have hcount := efWrapRead_length_le hread
  simp only [hread] at hr
  split at hr
  · cases hr
    exact ⟨hlen, hleft⟩
  · cases hr
    refine ⟨?_, hleft⟩
    dsimp only
    rw [writeAt_length (by omega), hlen]

/-! ## The parsers get on -/

/-- Something has been read, or the position in the buffer has not gone back. -/
structure Later (con con' : RedisConnection) : Prop where
  room : con'.buf.length = con.buf.length
  order : con'.left < con.left ∨ con'.left = con.left ∧ con.seek ≤ con'.seek

namespace Later

variable {con con' con'' : RedisConnection}

theorem refl (con : RedisConnection) : Later con con := ⟨rfl, .inr ⟨rfl, Nat.le_refl _⟩⟩

theorem trans (h : Later con con') (h' : Later con' con'') : Later con con'' := by
  refine ⟨h'.room.trans h.room, ?_⟩
  have horder := h.order
  have horder' := h'.order
  omega

theorem of_left (hroom : con'.buf.length = con.buf.length) (h : con'.left < con.left) :
    Later con con' := ⟨hroom, .inl h⟩

theorem left_le (h : Later con con') : con'.left ≤ con.left := by
  have horder := h.order
  omega

theorem seekTo (h : Later con con') {n : Nat} (hn : con'.seek ≤ n) :
    Later con { con' with seek := n } :=
  h.trans ⟨rfl, .inr ⟨rfl, hn⟩⟩

theorem malloc (h : Later con con') (size : Nat) :
    ∃ ok heap, con'.malloc size = (ok, { con' with heap := heap }) ∧
      Later con { con' with heap := heap } :=
  ⟨_, _, rfl, h.room, h.order⟩

theorem mark (h : Later con con') : Later con con'.mark := ⟨h.room, h.order⟩

end Later

variable {con₀ con : RedisConnection} {fuel : Nat}

theorem returning_ends {x : Outcome (RedisReply × RedisConnection)}
    (h : Ends x (fun r => Later con₀ r.2)) : Ends (returning x) (fun r => Later con₀ r.2) :=
  h.bind (fun _ hr => hr.mark)

theorem awaitLine_ends (hfuel : con.left < fuel) (h : Later con₀ con) (buf : Nat) :
    Ends (awaitLine busyRead fuel buf con) (fun r => Later con₀ r.2) := by
  induction fuel generalizing buf con with
  | zero => exact absurd hfuel (Nat.not_lt_zero _)
  | succ fuel ih =>
      refine Meets.value (by decide) (fun r _ => ?_)
      cases r with
      | some k => exact .ok h
      | none =>
          refine (busyRead_ends con).bind (fun r hr => ?_)
          have hread := h.trans (.of_left hr.1 hr.2)
          exact Meets.ite (fun _ => .ok hread) (fun _ => ih (by omega) hread 0)

theorem parseLong_ends (hfuel : con₀.left < fuel) (h : Later con₀ con) (buf : Nat) :
    Ends (parseLong busyRead fuel buf con) (fun r => Later con₀ r.2) := by
  refine returning_ends ?_
  obtain ⟨ok, heap, hm, h⟩ := h.malloc sizeofReply
  rw [hm]
  refine Meets.ite (fun _ => ?_) (fun _ => .ok h)
  refine (awaitLine_ends (Nat.lt_of_le_of_lt h.left_le hfuel) h buf).bind (fun line h => ?_)
  rcases line with ⟨_ | ⟨buf, k⟩, con⟩
  · exact .ok h
  · exact Meets.value (by decide) (fun r _ => .ok (h.seekTo (by dsimp only; omega)))

theorem copyRest_ends (hfuel : con.left < fuel) (h : Later con₀ con) (strlen : Nat)
    (content : Bytes) :
    Ends (copyRest busyRead strlen fuel content con) (fun r => Later con₀ r.2) := by
  induction fuel generalizing content con with
  | zero => exact absurd hfuel (Nat.not_lt_zero _)
  | succ fuel ih =>
      refine Meets.ite (fun _ => ?_) (fun _ => .ok h)
      refine (busyRead_ends con).bind (fun r hr => ?_)
      -- the bytes that have come outweigh any move of the position
      have hread : ∀ n, Later con₀ { r.2 with seek := n } :=
        fun n => h.trans (.of_left hr.1 hr.2)
      have hleft : ∀ n, ({ r.2 with seek := n } : RedisConnection).left < con.left := fun n => hr.2
      refine Meets.ite (fun _ => .ok (hread r.2.seek)) (fun _ => ?_)
      refine Meets.ite (fun _ => ?_) (fun _ => ?_)
      · refine Meets.value (by decide) (fun bytes _ => ?_)
        exact ih (Nat.lt_of_lt_of_le (hleft _) (Nat.le_of_lt_succ hfuel)) (hread _) _
      · exact Meets.value (by decide) (fun bytes _ => .ok (hread _))

theorem parseString_ends (hfuel : con₀.left < fuel) (h : Later con₀ con) (buf strlen : Nat) :
    Ends (parseString busyRead fuel buf strlen con) (fun r => Later con₀ r.2) := by
  refine returning_ends ?_
  obtain ⟨ok, heap, hm, h⟩ := h.malloc sizeofReply
  rw [hm]
  refine Meets.ite (fun _ => Meets.ite (fun _ => .ok h) (fun _ => ?_)) (fun _ => .ok h)
  obtain ⟨ok, heap, hm, h⟩ := h.malloc sizeofReply
  rw [hm]
  refine Meets.ite (fun _ => ?_) (fun _ => .ok h)
  obtain ⟨ok, heap, hm, h⟩ := h.malloc strlen
  rw [hm]
  refine Meets.ite (fun _ => Meets.ite (fun _ => ?_) (fun _ => ?_)) (fun _ => .ok h)
  · refine Meets.value (by decide) (fun content _ => ?_)
    have hseek := h.seekTo (Nat.le_add_right con.seek con.pending)
    refine (copyRest_ends (Nat.lt_of_le_of_lt hseek.left_le hfuel) hseek strlen content).bind
      (fun r h => ?_)
    rcases r with ⟨_ | content, con⟩ <;> exact .ok h
  · exact Meets.value (by decide) (fun content _ => .ok (h.seekTo (by dsimp only; omega)))

theorem parseSingleString_ends (hfuel : con₀.left < fuel) (h : Later con₀ con) (buf : Nat) :
    Ends (parseSingleString busyRead fuel buf con) (fun r => Later con₀ r.2) := by
  have hseek := h.seekTo (Nat.le_add_right con.seek 1)
  refine returning_ends ?_
  refine (awaitLine_ends (Nat.lt_of_le_of_lt hseek.left_le hfuel) hseek (buf + 1)).bind
    (fun line h => ?_)
  rcases line with ⟨_ | ⟨buf, k⟩, con⟩
  · exact .ok h
  · exact parseString_ends hfuel h buf k

theorem parseBulkString_ends (hfuel : con₀.left < fuel) (h : Later con₀ con) (buf : Nat) :
    Ends (parseBulkString busyRead fuel buf con) (fun r => Later con₀ r.2) := by
  refine returning_ends ?_
  refine (awaitLine_ends (Nat.lt_of_le_of_lt h.left_le hfuel) h buf).bind (fun line h => ?_)
  rcases line with ⟨_ | ⟨buf, k⟩, con⟩
  · exact .ok h
  · refine Meets.value (by decide) (fun strlen _ => ?_)
    exact parseString_ends hfuel (h.seekTo (Nat.le_add_right _ _)) _ _

theorem readUntilError_ends (hfuel : con.left < fuel) (h : Later con₀ con) :
    Ends (readUntilError busyRead fuel con) (Later con₀) := by
  induction fuel generalizing con with
  | zero => exact absurd hfuel (Nat.not_lt_zero _)
  | succ fuel ih =>
      refine (busyRead_ends con).bind (fun r hr => ?_)
      have hread := h.trans (.of_left hr.1 hr.2)
      exact Meets.ite (fun _ => .ok hread) (fun _ => ih (by omega) hread)

/-! ## Arrays -/

/-- What the parser of an array at `buf` needs. One more byte of the stream weighs as much as the
whole buffer, a place in the buffer as much as a byte of it. -/
def need (con : RedisConnection) (buf : Nat) : Nat :=
  con.left * (con.buf.length + 1) + (con.buf.length - buf) + con.left

theorem left_le_need (con : RedisConnection) (buf : Nat) : con.left ≤ need con buf :=
  Nat.le_add_left _ _

structure Element (con₀ : RedisConnection) (buf₀ : Nat) (con : RedisConnection) (buf : Nat) :
    Prop where
  room : con.buf.length = con₀.buf.length
  start : buf ≤ con.seek
  order : con.left < con₀.left ∨ con.left = con₀.left ∧ buf₀ < buf

namespace Element

variable {buf₀ buf : Nat}

theorem left_le (he : Element con₀ buf₀ con buf) : con.left ≤ con₀.left := by
  have horder := he.order
  omega

theorem next (he : Element con₀ buf₀ con buf) {con' : RedisConnection} (h : Later con con') :
    Element con₀ buf₀ con' con'.seek := by
  have hstart := he.start
  have horder := he.order
  have hlater := h.order
  exact ⟨h.room.trans he.room, Nat.le_refl _, by omega⟩

theorem need_lt (he : Element con₀ buf₀ con buf) (hbuf : buf₀ < con₀.buf.length) :
    need con buf < need con₀ buf₀ := by
  unfold need
  rw [he.room]
  rcases he.order with hless | ⟨hsame, hforth⟩
  · have hbyte := Nat.mul_le_mul_right (con₀.buf.length + 1) (Nat.succ_le_of_lt hless)
    rw [Nat.succ_mul] at hbyte
    omega
  · rw [hsame]
    omega

end Element

section Elements

variable {p : Nat → RedisConnection → Outcome (RedisReply × RedisConnection)} {buf₀ : Nat}
  (hp : ∀ buf con, buf ≤ con.seek → need con buf < fuel → Ends (p buf con) (fun r => Later con r.2))
  (hbuf : buf₀ < con₀.buf.length) (hfuel : need con₀ buf₀ ≤ fuel)

include hp hbuf hfuel

theorem parseElem_ends {buf : Nat} (he : Element con₀ buf₀ con buf) (c : UInt8) :
    Ends (parseElem busyRead fuel p c buf con) (fun r => Later con r.2) := by
  have hneed := Nat.lt_of_lt_of_le (he.need_lt hbuf) hfuel
  have hleft := Nat.lt_of_le_of_lt (left_le_need con buf) hneed
  refine Meets.ite (fun _ => parseBulkString_ends hleft (.refl con) buf) (fun _ => ?_)
  refine Meets.ite (fun _ => parseLong_ends hleft (.refl con) buf) (fun _ => ?_)
  exact hp buf con he.start hneed

theorem parseElems_ends (num : Nat) {buf : Nat} (he : Element con₀ buf₀ con buf) :
    Ends (parseElems busyRead fuel p num buf con) (fun r => Later con r.2) := by
  induction num generalizing buf con with
  | zero => exact .ok (.refl con)
  | succ num ih =>
      refine Meets.value (by decide) (fun c _ => Meets.ite (fun _ => ?_) (fun _ => ?_))
      · refine (parseElem_ends hp hbuf hfuel he c).bind (fun r hr => ?_)
        exact (ih (he.next hr)).bind (fun _ hrest => .ok (hr.trans hrest))
      · -- a place without a type is passed by, and the next element begins there as well
        exact (ih he).bind (fun _ hrest => .ok hrest)

end Elements

/-- A search has no result behind the buffer. -/
theorem lt_of_strstr {buf : Nat} {pat : Bytes} {r : Option Nat}
    (h : strstr (con.text buf) pat = some r) : buf < con.buf.length := by
  refine Nat.lt_of_not_le (fun hle => ?_)
  rw [RedisConnection.text, List.drop_eq_nil_of_le hle] at h
  cases h

theorem parseArray_ends {buf : Nat} (hstart : buf ≤ con.seek) (hfuel : need con buf < fuel) :
    Ends (parseArray busyRead fuel buf con) (fun r => Later con r.2) := by
  induction fuel generalizing buf con with
  | zero => exact absurd hfuel (Nat.not_lt_zero _)
  | succ fuel ih =>
      refine returning_ends ?_
      obtain ⟨ok, heap, hm, h⟩ := (Later.refl con).malloc sizeofReply
      rw [hm]
      refine Meets.ite (fun _ => ?_) (fun _ => .ok h)
      refine Meets.value (by decide) (fun line hline => ?_)
      have hplace : buf < con.buf.length := lt_of_strstr hline
      have hneed := Nat.le_of_lt_succ hfuel
      cases line with
      | none =>
          have hleft : con.left < fuel := by
            unfold need at hneed
            omega
          have hends := readUntilError_ends (Nat.lt_of_le_of_lt h.left_le hleft) h
          exact hends.bind (fun _ hrest => .ok hrest)
      | some k =>
          refine Meets.value (by decide) (fun repnum _ => ?_)
          have hheader := h.seekTo (Nat.le_add_right con.seek (k + 2))
          obtain ⟨ok, heap, hm, h⟩ := hheader.malloc sizeofReply
          dsimp only at hm ⊢
          rw [hm]
          refine Meets.ite (fun _ => Meets.ite (fun _ => .ok h) (fun _ => ?_)) (fun _ => .ok h)
          obtain ⟨ok, heap, hm, h⟩ := h.malloc (sizeT (sizeT repnum * 8))
          rw [hm]
          refine Meets.ite (fun _ => ?_) (fun _ => .ok h)
          have hfirst : Element con buf
              { con with seek := con.seek + (k + 2), heap := heap } (buf + k + 2) :=
            ⟨rfl, by dsimp only; omega, .inr ⟨rfl, by omega⟩⟩
          refine (parseElems_ends (fun _ _ => ih) hplace hneed _ hfirst).bind (fun _ hrest => ?_)
          exact .ok (h.trans hrest)

/-! ## A call -/

theorem parseError_ends (hfuel : con₀.left < fuel) (h : Later con₀ con) (buf : Nat) :
    Ends (parseError busyRead fuel buf con) (fun r => Later con₀ r.2) := by
  refine returning_ends ?_
  obtain ⟨ok, heap, hm, h⟩ := h.malloc sizeofReply
  rw [hm]
  refine Meets.ite (fun _ => ?_) (fun _ => .ok h)
  refine (awaitLine_ends (Nat.lt_of_le_of_lt h.left_le hfuel) h buf).bind (fun line h => ?_)
  rcases line with ⟨_ | ⟨buf, stop⟩, con⟩
  · exact .ok h
  obtain ⟨ok, heap, hm, h⟩ := h.malloc sizeofReply
  dsimp only at hm ⊢
  rw [hm]
  refine Meets.ite (fun _ => Meets.value (by decide) (fun pos _ => ?_)) (fun _ => .ok h)
  cases pos with
  | none => exact .error (by decide) _
  | some pos =>
      obtain ⟨ok, heap, hm, h⟩ := h.malloc (sizeT ((pos : Int) - 1))
      dsimp only at hm ⊢
      rw [hm]
      refine Meets.value (by decide) (fun type _ => Meets.value (by decide) (fun spaces _ => ?_))
      obtain ⟨ok, heap, hm, h⟩ := h.malloc (sizeT ((stop : Int) - (pos + 1 + spaces : Nat)))
      dsimp only at hm ⊢
      rw [hm]
      refine Meets.ite (fun _ => ?_) (fun _ => .error (by decide) _)
      exact Meets.value (by decide) (fun errinfo _ => .ok h)

theorem parseReply_ends (hfuel : need con 0 < fuel) :
    Ends (parseReply busyRead fuel con) (fun r => Later con r.2) := by
  have hleft := Nat.lt_of_le_of_lt (left_le_need con 0) hfuel
  refine Meets.value (by decide) (fun c _ => ?_)
  refine Meets.ite (fun _ => parseError_ends hleft (.refl con) 0) (fun _ => ?_)
  refine Meets.ite (fun _ => parseSingleString_ends hleft (.refl con) 0) (fun _ => ?_)
  refine Meets.ite (fun _ => parseLong_ends hleft (.refl con) 0) (fun _ => ?_)
  refine Meets.ite (fun _ => parseArray_ends (Nat.zero_le _) hfuel) (fun _ => ?_)
  exact Meets.ite (fun _ => parseBulkString_ends hleft (.refl con) 0) (fun _ => .ok (.refl con))

theorem readReply_ends (hfuel : need con 0 < fuel) :
    Ends (readReply busyRead fuel con) (fun _ => True) := by
  unfold readReply
  rcases hread : efWrapRead (min con.buf.length maxTransfer) con.src with ⟨r, errno, bytes, src⟩
  have hcount := efWrapRead_length_le hread
  have hleft := (efWrapRead_left hread).1
  refine Meets.ite (fun _ => .ok trivial) (fun _ => ?_)
  have hfirst : need { con with
      buf := writeAt con.buf 0 bytes, seek := 0, stop := bytes.length, src := src } 0 < fuel := by
    refine Nat.lt_of_le_of_lt ?_ hfuel
    unfold need RedisConnection.left
    dsimp only
    rw [writeAt_length (by omega)]
    have hbytes := Nat.mul_le_mul_right (con.buf.length + 1) hleft
    omega
  exact (parseReply_ends hfirst).mono (fun _ _ => trivial)

/-- The program's run, given more rounds than a busy run needs. -/
theorem readReply_busy (hbusy : ∀ fuel, readReply busyRead fuel con ≠ .error .idle)
    (hfuel : need con 0 < fuel) :
    readReply replyReadMore fuel con =
      readReply busyRead (need con 0 + 1) con := by
  have hextends : Extends (fun halt => halt = .fuel ∨ halt = .idle)
      (readReply busyRead (need con 0 + 1) con)
      (readReply replyReadMore fuel con) :=
    readReply_extends (.inl rfl) (busyRead_extends (.inr rfl)) hfuel con
  have hends := readReply_ends (Nat.lt_succ_self (need con 0))
  rcases hextends with ⟨halt, hlost, hrun⟩ | hrun
  · rw [hrun] at hends
    rcases hlost with rfl | rfl
    · exact absurd rfl hends
    · exact absurd hrun (hbusy _)
  · exact hrun.symm

/-! ## At the end of the stream -/

/-- The loop that waits for the rest of a string does not leave the end of the stream. -/
theorem copyRest_never {strlen : Nat} {content : Bytes} (hshort : content.length < strlen)
    (hpending : con.pending = 0) (hsrc : con.src = []) (fuel : Nat) :
    copyRest replyReadMore strlen fuel content con = .error .fuel := by
  induction fuel generalizing con with
  | zero => rfl
  | succ fuel ih =>
      have hread : replyReadMore con = .ok (0, { con with seek := 0, stop := 0 }) := by
        unfold replyReadMore EFramework.replyReadMore movePending
        simp [hpending, hsrc, efWrapRead, writeAt, Stopping.defined, orStop]
      -- nothing has come, and nothing is copied
      have hstep : copyRest replyReadMore strlen (fuel + 1) content con =
          copyRest replyReadMore strlen fuel content { con with seek := 0, stop := 0 } := by
        rw [copyRest, if_pos hshort, hread]
        simp [bind, Except.bind, RedisConnection.pending, sizeT, hshort, strncpyBytes,
          Stopping.defined, orStop]
      exact hstep.trans (ih rfl hsrc)

end Halting

/-- No loop reads at the end of the stream or into a full buffer, and no step is undefined. -/
def Busy (con : RedisConnection) : Prop :=
  ∀ fuel halt, readReply Halting.busyRead fuel con = .error halt → halt = .fuel

/-- A call returns when each read of its loops brings something. -/
theorem redis_reply_returns {con : RedisConnection} (h : Busy con) :
    ∃ rep con', ∀ fuel, Halting.need con 0 < fuel →
      efRedisReadReply fuel con = some (rep, con') := by
  have hends := Halting.readReply_ends (Nat.lt_succ_self (Halting.need con 0))
  have hidle : ∀ fuel, readReply Halting.busyRead fuel con ≠ .error .idle := by
    intro fuel hrun
    cases h fuel .idle hrun
  rcases hrun : readReply Halting.busyRead (Halting.need con 0 + 1) con with
    halt | ⟨rep, con'⟩
  · rw [hrun] at hends
    exact absurd (h _ halt hrun) hends
  · refine ⟨rep, con', fun fuel hfuel => ?_⟩
    rw [← Halting.toOption_efRedisReadReply, Halting.readReply_busy hidle hfuel, hrun]
    rfl

/-- A string of one byte, which comes in the next read. -/
theorem redis_reply_returns_rest : ∃ rep con', ∀ fuel, 98 < fuel → efRedisReadReply fuel
    ⟨List.replicate 8 0, 0, 0, [.data 36 [49, 13, 10], .data 97 [13, 10]], ⟨[], 0, 0⟩, []⟩ =
      some (rep, con') := by
  have hbusy : Busy ⟨List.replicate 8 0, 0, 0, [.data 36 [49, 13, 10], .data 97 [13, 10]],
      ⟨[], 0, 0⟩, []⟩ := by
    intro fuel halt h
    cases fuel with
    | zero =>
        cases h
        rfl
    | succ fuel => cases h
  obtain ⟨rep, con', hreturns⟩ := redis_reply_returns hbusy
  exact ⟨rep, con', fun fuel hfuel => hreturns fuel (Nat.lt_of_le_of_lt (by decide) hfuel)⟩

/-- A string of three bytes, and the stream ends behind the first one: the call has no result,
and what it lacks is not a step but the end of its loop. -/
theorem redis_reply_returns_cut :
    (¬ ∃ fuel rep con', efRedisReadReply fuel
      ⟨List.replicate 8 0, 0, 0, [.data 36 [51, 13, 10, 97]], ⟨[], 0, 0⟩, []⟩ = some (rep, con')) ∧
    ¬ ∃ fuel, readReply Halting.replyReadMore fuel
      ⟨List.replicate 8 0, 0, 0, [.data 36 [51, 13, 10, 97]], ⟨[], 0, 0⟩, []⟩ ≠ .error .fuel := by
  have hrun : ∀ fuel, readReply Halting.replyReadMore fuel
      ⟨List.replicate 8 0, 0, 0, [.data 36 [51, 13, 10, 97]], ⟨[], 0, 0⟩, []⟩ = .error .fuel := by
    intro fuel
    cases fuel with
    | zero => rfl
    | succ fuel =>
        show returning (returning
          (copyRest Halting.replyReadMore 3 (fuel + 1) [97] _ >>= _)) = _
        rw [Halting.copyRest_never (by decide) (by rfl) (by rfl)]
        rfl
  constructor
  · rintro ⟨fuel, rep, con', hreply⟩
    rw [← Halting.toOption_efRedisReadReply, hrun fuel] at hreply
    cases hreply
  · rintro ⟨fuel, hne⟩
    exact hne (hrun fuel)

end EFramework
