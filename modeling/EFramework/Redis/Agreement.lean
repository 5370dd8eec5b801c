import Mathlib.Data.List.Infix
import EFramework.Lib.Refines
import EFramework.Redis.Model

/-! # Two runs of the parsers

What a parser takes from a connection is text behind a place in the buffer and the two
positions. So two runs go the same way as long as the text of the first one is the start of
the text of the second one and their readers go the same way.
-/

namespace EFramework

open Lib

/-! ## Text that goes on -/

section Text

variable {text text' : Bytes}

theorem strncpyBytes_of_isPrefix {n : Nat} {bytes : Bytes} (hpre : text <+: text')
    (h : strncpyBytes text n = some bytes) : strncpyBytes text' n = some bytes := by
  obtain ⟨rest, rfl⟩ := hpre
  induction text generalizing n bytes with
  | nil =>
      cases n with
      | zero => cases rest <;> exact h
      | succ n => cases h
  | cons c text ih =>
      cases n with
      | zero => exact h
      | succ n =>
          rw [strncpyBytes] at h
          rw [List.cons_append, strncpyBytes]
          split at h
          next hc => rw [if_pos hc, h]
          next hc =>
            obtain ⟨bytes', hbytes, rfl⟩ := Option.map_eq_some_iff.mp h
            rw [if_neg hc, ih hbytes]
            rfl

theorem scanDigits_of_isPrefix {step : Int → UInt8 → Option Int} {n : Int} {r : Int × Nat}
    (hpre : text <+: text') (h : scanDigits step text n = some r) :
    scanDigits step text' n = some r := by
  obtain ⟨rest, rfl⟩ := hpre
  induction text generalizing n r with
  | nil => cases h
  | cons c text ih =>
      rw [scanDigits] at h
      rw [List.cons_append, scanDigits]
      split at h
      next hc => rw [if_pos hc, h]
      next hc =>
        obtain ⟨m, hm, h⟩ := Option.bind_eq_some_iff.mp h
        obtain ⟨r', hr, h⟩ := Option.bind_eq_some_iff.mp h
        rw [if_neg hc, hm, Option.bind_eq_bind, Option.bind_some, ih hr, Option.bind_eq_bind,
          Option.bind_some]
        exact h

theorem getElem?_of_isPrefix {i : Nat} {c : UInt8} (hpre : text <+: text')
    (h : text[i]? = some c) : text'[i]? = some c := by
  obtain ⟨rest, rfl⟩ := hpre
  rw [List.getElem?_append_left (List.getElem?_eq_some_iff.mp h).1, h]

theorem parseLen_of_isPrefix {len : Int} (hpre : text <+: text') (h : parseLen text = some len) :
    parseLen text' = some len := by
  unfold parseLen at h ⊢
  obtain ⟨c, hc, h⟩ := Option.bind_eq_some_iff.mp h
  rw [getElem?_of_isPrefix hpre hc, Option.bind_eq_bind, Option.bind_some]
  split at h
  next htype => rw [if_pos htype, h]
  next htype =>
    obtain ⟨d, hd, h⟩ := Option.bind_eq_some_iff.mp h
    rw [if_neg htype, getElem?_of_isPrefix hpre hd, Option.bind_eq_bind, Option.bind_some]
    split at h
    next hsign => rw [if_pos hsign, h]
    next hsign =>
      obtain ⟨r, hr, h⟩ := Option.bind_eq_some_iff.mp h
      rw [if_neg hsign, scanDigits_of_isPrefix (hpre.drop 1) hr, Option.bind_some]
      exact h

theorem endedCopy_of_isPrefix {n : Nat} {copy : Bytes} (hpre : text <+: text')
    (h : endedCopy text n = some copy) : endedCopy text' n = some copy := by
  unfold endedCopy strncpy at h ⊢
  obtain ⟨bytes, hbytes, h⟩ := Option.bind_eq_some_iff.mp h
  obtain ⟨bytes', hbytes', hbytes⟩ := Option.bind_eq_some_iff.mp hbytes
  rw [strncpyBytes_of_isPrefix hpre hbytes', Option.bind_eq_bind, Option.bind_some]
  rw [hbytes, Option.bind_some]
  exact h

theorem errorType_of_isPrefix {ok : Bool} {n : Nat} {type : Bytes} (hpre : text <+: text')
    (h : errorType ok text n = some type) : errorType ok text' n = some type := by
  unfold errorType at h ⊢
  split at h
  next hok => rw [if_pos hok, endedCopy_of_isPrefix hpre h]
  next hok => rw [if_neg hok, h]

end Text

/-! ## Readers that agree -/

/-- The buffer of the first connection is the start of the second one's, the rest is the same, and
what the first reader returns the second one returns as well. -/
structure Agrees (R : RedisConnection → RedisConnection → Prop)
    (more more' : RedisConnection → Option (Int × RedisConnection)) : Prop where
  buf {s c : RedisConnection} : R s c → s.buf <+: c.buf
  seek {s c : RedisConnection} : R s c → s.seek = c.seek
  stop {s c : RedisConnection} : R s c → s.stop = c.stop
  heap {s c : RedisConnection} : R s c → s.heap = c.heap
  setSeek {s c : RedisConnection} (n : Nat) : R s c → R { s with seek := n } { c with seek := n }
  setHeap {s c : RedisConnection} (heap : Heap) :
    R s c → R { s with heap := heap } { c with heap := heap }
  mark {s c : RedisConnection} : R s c → R s.mark c.mark
  more {s c : RedisConnection} : R s c → Refines R (more s) (more' c)

namespace Agrees

variable {R : RedisConnection → RedisConnection → Prop}
  {more more' : RedisConnection → Option (Int × RedisConnection)} {s c : RedisConnection}

theorem text (ag : Agrees R more more') (h : R s c) (buf : Nat) : s.text buf <+: c.text buf :=
  (ag.buf h).drop buf

theorem strstr (ag : Agrees R more more') (h : R s c) (buf : Nat) (pat : Bytes)
    (r : Option Nat) (he : strstr (s.text buf) pat = some r) :
    EFramework.strstr (c.text buf) pat = some r :=
  CString.find_of_isPrefix (ag.text h buf) he

theorem pending (ag : Agrees R more more') (h : R s c) : s.pending = c.pending := by
  rw [RedisConnection.pending, ag.seek h, ag.stop h]
  rfl

theorem seekTo (ag : Agrees R more more') (h : R s c) {m n : Nat} (hmn : m = n) :
    R { s with seek := m } { c with seek := n } := by
  rw [hmn]
  exact ag.setSeek n h

theorem malloc (ag : Agrees R more more') (h : R s c) (size : Nat) : ∃ ok s' c',
    s.malloc size = (ok, s') ∧ c.malloc size = (ok, c') ∧ R s' c' := by
  refine ⟨(c.heap.mallocOf size).1, { s with heap := (c.heap.mallocOf size).2 },
    { c with heap := (c.heap.mallocOf size).2 }, ?_, rfl, ag.setHeap _ h⟩
  rw [RedisConnection.malloc, ag.heap h]

theorem returning (ag : Agrees R more more') {x y : Option (RedisReply × RedisConnection)}
    (h : Refines R x y) : Refines R (returning x) (EFramework.returning y) :=
  h.bind (fun _ _ _ h => .pure (ag.mark h) _)

/-! ## The parsers -/

theorem awaitLine (ag : Agrees R more more') (h : R s c) (fuel buf : Nat) :
    Refines R (awaitLine more fuel buf s) (awaitLine more' fuel buf c) := by
  induction fuel generalizing buf s c with
  | zero => exact .none _
  | succ fuel ih =>
      refine Refines.value (ag.strstr h buf crlf) (fun r => ?_)
      cases r with
      | some k => exact .pure h _
      | none =>
          refine (ag.more h).bind (fun res s c h => ?_)
          exact .ite (fun _ => .pure h _) (fun _ => ih h 0)

theorem parseLong (ag : Agrees R more more') (h : R s c) (fuel buf : Nat) :
    Refines R (parseLong more fuel buf s) (parseLong more' fuel buf c) := by
  refine ag.returning ?_
  obtain ⟨ok, s, c, hs, hc, h⟩ := ag.malloc h sizeofReply
  rw [hs, hc]
  refine Refines.ite (fun _ => ?_) (fun _ => .pure h _)
  refine (ag.awaitLine h fuel buf).bind (fun line s c h => ?_)
  rcases line with _ | ⟨buf, k⟩
  · exact .pure h _
  · refine Refines.value (fun r => scanDigits_of_isPrefix (ag.text h (buf + 1))) (fun r => ?_)
    exact .pure (ag.seekTo h (by rw [ag.seek h])) _

theorem copyRest (ag : Agrees R more more') (h : R s c) (strlen fuel : Nat) (content : Bytes) :
    Refines R (copyRest more strlen fuel content s) (copyRest more' strlen fuel content c) := by
  induction fuel generalizing content s c with
  | zero => exact .none _
  | succ fuel ih =>
      refine Refines.ite (fun _ => ?_) (fun _ => .pure h _)
      refine (ag.more h).bind (fun res s c h => ?_)
      refine Refines.ite (fun _ => .pure h _) (fun _ => ?_)
      rw [ag.pending h]
      refine Refines.ite (fun _ => ?_) (fun _ => ?_)
      · refine Refines.value (fun r => strncpyBytes_of_isPrefix (ag.text h 0)) (fun r => ?_)
        exact ih (ag.seekTo h (ag.stop h)) _
      · refine Refines.value (fun r => strncpyBytes_of_isPrefix (ag.text h 0)) (fun r => ?_)
        exact .pure (ag.seekTo h (by rw [ag.seek h])) _

theorem parseString (ag : Agrees R more more') (h : R s c) (fuel buf strlen : Nat) :
    Refines R (parseString more fuel buf strlen s) (parseString more' fuel buf strlen c) := by
  refine ag.returning ?_
  obtain ⟨ok, s, c, hs, hc, h⟩ := ag.malloc h sizeofReply
  rw [hs, hc]
  refine Refines.ite (fun _ => ?_) (fun _ => .pure h _)
  refine Refines.ite (fun _ => .pure h _) (fun _ => ?_)
  obtain ⟨ok, s, c, hs, hc, h⟩ := ag.malloc h sizeofReply
  rw [hs, hc]
  refine Refines.ite (fun _ => ?_) (fun _ => .pure h _)
  obtain ⟨ok, s, c, hs, hc, h⟩ := ag.malloc h strlen
  rw [hs, hc]
  refine Refines.ite (fun _ => ?_) (fun _ => .pure h _)
  rw [ag.pending h]
  refine Refines.ite (fun _ => ?_) (fun _ => ?_)
  · refine Refines.value (fun r => strncpyBytes_of_isPrefix (ag.text h buf)) (fun content => ?_)
    refine (ag.copyRest (ag.seekTo h (by rw [ag.seek h])) strlen fuel content).bind
      (fun content s c h => ?_)
    cases content <;> exact .pure h _
  · refine Refines.value (fun r => strncpyBytes_of_isPrefix (ag.text h buf)) (fun content => ?_)
    exact .pure (ag.seekTo h (by rw [ag.seek h])) _

theorem parseSingleString (ag : Agrees R more more') (h : R s c) (fuel buf : Nat) :
    Refines R (parseSingleString more fuel buf s) (parseSingleString more' fuel buf c) := by
  refine ag.returning ?_
  refine (ag.awaitLine (ag.seekTo h (by rw [ag.seek h])) fuel (buf + 1)).bind (fun line s c h => ?_)
  rcases line with _ | ⟨buf, k⟩
  · exact .pure h _
  · exact ag.parseString h fuel buf k

theorem parseBulkString (ag : Agrees R more more') (h : R s c) (fuel buf : Nat) :
    Refines R (parseBulkString more fuel buf s) (parseBulkString more' fuel buf c) := by
  refine ag.returning ?_
  refine (ag.awaitLine h fuel buf).bind (fun line s c h => ?_)
  rcases line with _ | ⟨buf, k⟩
  · exact .pure h _
  · refine Refines.value (fun r => parseLen_of_isPrefix (ag.text h buf)) (fun strlen => ?_)
    exact ag.parseString (ag.seekTo h (by rw [ag.seek h])) fuel _ _

theorem readUntilError (ag : Agrees R more more') (h : R s c) (fuel : Nat) :
    Refines R
      ((readUntilError more fuel s).bind (fun s => some (RedisReply.nil, s)))
      ((readUntilError more' fuel c).bind (fun c => some (RedisReply.nil, c))) := by
  induction fuel generalizing s c with
  | zero => exact .none _
  | succ fuel ih =>
      rw [EFramework.readUntilError, EFramework.readUntilError, Option.bind_eq_bind,
        Option.bind_assoc, Option.bind_assoc]
      refine (ag.more h).bind (fun res s c h => ?_)
      dsimp only
      split
      · exact .pure h _
      · exact ih h

theorem parseElem (ag : Agrees R more more') (h : R s c) (fuel : Nat)
    {p p' : Nat → RedisConnection → Option (RedisReply × RedisConnection)}
    (hp : ∀ buf {s c : RedisConnection}, R s c →
      Refines R (p buf s) (p' buf c)) (type : UInt8) (buf : Nat) :
    Refines R (parseElem more fuel p type buf s) (parseElem more' fuel p' type buf c) := by
  refine Refines.ite (fun _ => ag.parseBulkString h fuel buf) (fun _ => ?_)
  exact Refines.ite (fun _ => ag.parseLong h fuel buf) (fun _ => hp buf h)

theorem parseElems (ag : Agrees R more more') (h : R s c) (fuel : Nat)
    {p p' : Nat → RedisConnection → Option (RedisReply × RedisConnection)}
    (hp : ∀ buf {s c : RedisConnection}, R s c →
      Refines R (p buf s) (p' buf c)) (num buf : Nat) :
    Refines R (parseElems more fuel p num buf s) (parseElems more' fuel p' num buf c) := by
  induction num generalizing buf s c with
  | zero => exact .pure h _
  | succ num ih =>
      refine Refines.value (fun type => ?_) (fun type => ?_)
      · exact getElem?_of_isPrefix (ag.buf h)
      refine Refines.ite (fun _ => ?_) (fun _ => ?_)
      · refine (ag.parseElem h fuel hp type buf).bind (fun rep s c h => ?_)
        dsimp only
        rw [ag.seek h]
        exact (ih h c.seek).bind (fun reps s c h => .pure h _)
      · exact (ih h buf).bind (fun reps s c h => .pure h _)

theorem parseArray (ag : Agrees R more more') (h : R s c) (fuel buf : Nat) :
    Refines R (parseArray more fuel buf s) (parseArray more' fuel buf c) := by
  induction fuel generalizing buf s c with
  | zero => exact .none _
  | succ fuel ih =>
      refine ag.returning ?_
      obtain ⟨ok, s, c, hs, hc, h⟩ := ag.malloc h sizeofReply
      rw [hs, hc]
      refine Refines.ite (fun _ => ?_) (fun _ => .pure h _)
      refine Refines.value (ag.strstr h buf crlf) (fun r => ?_)
      cases r with
      | none => exact ag.readUntilError h fuel
      | some k =>
          refine Refines.value (fun r => parseLen_of_isPrefix (ag.text h buf)) (fun repnum => ?_)
          obtain ⟨ok, s, c, hs, hc, h⟩ := ag.malloc
            (ag.seekTo h (show s.seek + (k + 2) = c.seek + (k + 2) by rw [ag.seek h])) sizeofReply
          dsimp only
          rw [hs, hc]
          refine Refines.ite (fun _ => ?_) (fun _ => .pure h _)
          refine Refines.ite (fun _ => .pure h _) (fun _ => ?_)
          obtain ⟨ok, s, c, hs, hc, h⟩ := ag.malloc h (sizeT (sizeT repnum * 8))
          rw [hs, hc]
          refine Refines.ite (fun _ => ?_) (fun _ => .pure h _)
          exact (ag.parseElems h fuel (fun buf s c h => ih h buf) _ _).bind
            (fun elem s c h => .pure h _)

theorem parseError (ag : Agrees R more more') (h : R s c) (fuel buf : Nat) :
    Refines R (parseError more fuel buf s) (parseError more' fuel buf c) := by
  refine ag.returning ?_
  obtain ⟨ok, s, c, hs, hc, h⟩ := ag.malloc h sizeofReply
  rw [hs, hc]
  refine Refines.ite (fun _ => ?_) (fun _ => .pure h _)
  refine (ag.awaitLine h fuel buf).bind (fun line s c h => ?_)
  rcases line with _ | ⟨buf, stop⟩
  · exact .pure h _
  obtain ⟨ok, s, c, hs, hc, h⟩ := ag.malloc h sizeofReply
  dsimp only
  rw [hs, hc]
  refine Refines.ite (fun _ => ?_) (fun _ => .pure h _)
  refine Refines.value (ag.strstr h buf [32]) (fun pos => ?_)
  cases pos with
  | none => exact .none _
  | some pos =>
      obtain ⟨ok, s, c, hs, hc, h⟩ := ag.malloc h (sizeT ((pos : Int) - 1))
      dsimp only
      rw [hs, hc]
      refine Refines.value (fun r => errorType_of_isPrefix (ag.text h (buf + 1))) (fun type => ?_)
      refine Refines.value (fun r => CString.skip_of_isPrefix (ag.text h (buf + pos + 1)))
        (fun spaces => ?_)
      obtain ⟨ok, s, c, hs, hc, h⟩ := ag.malloc h
        (sizeT ((stop : Int) - (pos + 1 + spaces : Nat)))
      dsimp only
      rw [hs, hc]
      refine Refines.ite (fun _ => ?_) (fun _ => .none _)
      refine Refines.value (fun r => endedCopy_of_isPrefix (ag.text h (buf + pos + 1 + spaces)))
        (fun err => ?_)
      exact .pure h _

theorem parseReply (ag : Agrees R more more') (h : R s c) (fuel : Nat) :
    Refines R (parseReply more fuel s) (parseReply more' fuel c) := by
  refine Refines.value (fun type => ?_) (fun type => ?_)
  · exact getElem?_of_isPrefix (ag.buf h)
  refine Refines.ite (fun _ => ag.parseError h fuel 0) (fun _ => ?_)
  refine Refines.ite (fun _ => ag.parseSingleString h fuel 0) (fun _ => ?_)
  refine Refines.ite (fun _ => ag.parseLong h fuel 0) (fun _ => ?_)
  refine Refines.ite (fun _ => ag.parseArray h fuel 0) (fun _ => ?_)
  exact Refines.ite (fun _ => ag.parseBulkString h fuel 0) (fun _ => .pure h _)

end Agrees

end EFramework
