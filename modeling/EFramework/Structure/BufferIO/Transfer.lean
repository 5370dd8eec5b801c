import EFramework.Lib.Segments
import EFramework.Structure.Buffer
import EFramework.Runtime.Poll

/-! # Descriptors and the transfer loops of `structure/bufferio.c`

A descriptor that is read is a segmented stream: each segment is what the kernel
has ready when a read is made, a failure is a read returning -1 with that
`errno`, and behind the last segment every read returns 0. A descriptor that is
written keeps the bytes it has accepted and a list of coming outcomes, after
which it accepts everything.

`ef_safe_read` and `ef_safe_write` retry on `EINTR` and stop at any other error.
Their loops carry fuel and answer `none` when it runs out.
-/

namespace EFramework

open Lib (Segment Segments)

def softErrno (errno : Nat) : Bool := errno == 0 || errno == eintr

/-- The test of the loops. -/
theorem hard_iff {errno : Nat} : (errno ≠ 0 ∧ errno ≠ eintr) ↔ ¬ softErrno errno = true := by
  simp [softErrno]

/-! ## Reading -/

abbrev Source := Segments UInt8

def efWrapRead (count : Nat) : Source → Int × Nat × Bytes × Source
  | [] => (0, 0, [], [])
  | .fail errno :: src => (-1, errno, [], src)
  | .data x xs :: src =>
      (((x :: xs).take count).length, 0, (x :: xs).take count,
        Segments.ofList ((x :: xs).drop count) ++ src)

theorem efWrapRead_length_le {count errno : Nat} {src src' : Source} {r : Int} {bytes : Bytes}
    (h : efWrapRead count src = (r, errno, bytes, src')) : bytes.length ≤ count := by
  cases src with
  | nil =>
      cases h
      exact Nat.zero_le _
  | cons p src =>
      cases p with
      | data x xs =>
          cases h
          exact List.length_take_le _ _
      | fail e =>
          cases h
          exact Nat.zero_le _

/-- `got` is what has been stored so far, so `offset` is its length. -/
def efSafeReadLoop (len cap : Nat) : Nat → Bytes → Source → Option (Int × Bytes × Source)
  | 0, _, _ => none
  | fuel + 1, got, src =>
      if got.length < len then
        match efWrapRead (cap - got.length) src with
        | (retval, errno, bytes, src) =>
            if 0 < retval then efSafeReadLoop len cap fuel (got ++ bytes) src
            else if retval = 0 ∧ errno = 0 then some (got.length, got, src)
            else if retval ≤ 0 ∧ errno ≠ 0 ∧ errno ≠ eintr then some (retval, got, src)
            else efSafeReadLoop len cap fuel got src
      else some (got.length, got, src)

/-- The return value and the bytes stored from `buf[0]` on. -/
def efSafeRead (len cap : Nat) (src : Source) : Option (Int × Bytes × Source) :=
  let cap := if cap < len then len else cap
  efSafeReadLoop len cap (src.length + 2) [] src

/-- What a transfer returns: a count, or -1 after a hard failure. -/
def transferRet (error : Option Nat) (count : Nat) : Int :=
  match error with
  | none => count
  | some _ => -1

theorem efSafeReadLoop_eq {len cap : Nat} (h : len ≤ cap) {fuel : Nat} {got : Bytes}
    {src : Source} (hgot : got.length ≤ cap) (hfuel : src.length + 2 ≤ fuel) :
    efSafeReadLoop len cap fuel got src =
      let g := Segments.gather softErrno (len - got.length) (cap - got.length) src
      some (transferRet g.error (got.length + g.items.length), got ++ g.items, g.rest) := by
  induction src generalizing fuel got with
  | nil =>
      obtain ⟨fuel, rfl⟩ := Nat.exists_eq_add_of_le' (show 1 ≤ fuel by omega)
      rw [efSafeReadLoop]
      by_cases hlt : got.length < len <;> simp [hlt, efWrapRead, transferRet]
  | cons p src ih =>
      obtain ⟨fuel, rfl⟩ := Nat.exists_eq_add_of_le' (show 1 ≤ fuel by omega)
      rw [List.length_cons] at hfuel
      rw [efSafeReadLoop]
      by_cases hlt : got.length < len
      · have hneed : len - got.length ≠ 0 := by omega
        rw [if_pos hlt]
        cases p with
        | fail errno =>
            simp only [efWrapRead, Segments.gather, if_neg hneed]
            by_cases hs : softErrno errno = true
            · have hretry : ¬ (errno ≠ 0 ∧ errno ≠ eintr) := fun h => hard_iff.mp h hs
              simp [hs, hretry, ih hgot (show src.length + 2 ≤ fuel by omega)]
            · have hstop : errno ≠ 0 ∧ errno ≠ eintr := hard_iff.mpr hs
              simp [hs, hstop, transferRet]
        | data x xs =>
            have hpos : (0 : Int) < ((x :: xs).take (cap - got.length)).length := by
              rw [List.length_take, List.length_cons]
              omega
            simp only [efWrapRead, Segments.gather, if_neg hneed, if_pos hpos]
            by_cases hle : (x :: xs).length ≤ cap - got.length
            · rw [if_pos hle, List.take_of_length_le hle, List.drop_of_length_le hle]
              simp only [Segments.ofList, List.nil_append]
              rw [ih (by rw [List.length_append]; omega) (by omega)]
              simp only [Segments.Gathered.prepend, List.length_append, List.append_assoc,
                Nat.sub_sub, Nat.add_assoc]
            · -- the request is filled from this segment, so the next round stops
              have htake : ((x :: xs).take (cap - got.length)).length = cap - got.length := by
                rw [List.length_take]
                omega
              obtain ⟨fuel, rfl⟩ := Nat.exists_eq_add_of_le' (show 1 ≤ fuel by omega)
              rw [if_neg hle, efSafeReadLoop, if_neg (by rw [List.length_append, htake]; omega)]
              simp [transferRet]
      · rw [if_neg hlt, show len - got.length = 0 by omega]
        simp [transferRet]

theorem efSafeRead_eq (len cap : Nat) (src : Source) :
    efSafeRead len cap src =
      let g := Segments.gather softErrno len (max len cap) src
      some (transferRet g.error g.items.length, g.items, g.rest) := by
  have hcap : (if cap < len then len else cap) = max len cap := by
    split <;> omega
  unfold efSafeRead
  simp only [hcap]
  rw [efSafeReadLoop_eq (by omega) (by simp) (by omega)]
  simp

/-! ## Writing -/

inductive SinkEvent where
  | accept (limit : Nat)
  | fail (errno : Nat)
deriving Repr, DecidableEq

structure Sink where
  accepted : Bytes
  events : List SinkEvent
deriving Repr, DecidableEq

def Sink.Clean (snk : Sink) : Prop := ∀ e, SinkEvent.fail e ∈ snk.events → softErrno e = true

def efWrapWrite (buf : Bytes) (snk : Sink) : Int × Nat × Sink :=
  match snk.events with
  | [] => (buf.length, 0, ⟨snk.accepted ++ buf, []⟩)
  | .accept limit :: events =>
      ((buf.take limit).length, 0, ⟨snk.accepted ++ buf.take limit, events⟩)
  | .fail errno :: events => (-1, errno, ⟨snk.accepted, events⟩)

def efSafeWriteLoop (buf : Bytes) : Nat → Nat → Sink → Option (Int × Sink)
  | 0, _, _ => none
  | fuel + 1, offset, snk =>
      if offset < buf.length then
        match efWrapWrite (buf.drop offset) snk with
        | (retval, errno, snk) =>
            if 0 < retval then efSafeWriteLoop buf fuel (offset + retval.toNat) snk
            else if retval ≤ 0 ∧ errno ≠ 0 ∧ errno ≠ eintr then some (retval, snk)
            else efSafeWriteLoop buf fuel offset snk
      else some (offset, snk)

def efSafeWrite (buf : Bytes) (snk : Sink) : Option (Int × Sink) :=
  efSafeWriteLoop buf (snk.events.length + 2) 0 snk

/-- What the coming outcomes make of a transfer of so many bytes: how many of them are
accepted, whether all are, and the outcomes left. -/
structure Progress where
  accepted : Nat
  done : Bool
  events : List SinkEvent
deriving Repr, DecidableEq

def progress : List SinkEvent → Nat → Progress
  | [], n => ⟨n, true, []⟩
  | .accept limit :: events, n =>
      if n = 0 then ⟨0, true, .accept limit :: events⟩
      else
        let p := progress events (n - limit)
        { p with accepted := min limit n + p.accepted }
  | .fail errno :: events, n =>
      if n = 0 then ⟨0, true, .fail errno :: events⟩
      else if softErrno errno then progress events n
      else ⟨0, false, events⟩

theorem progress_zero (events : List SinkEvent) : progress events 0 = ⟨0, true, events⟩ := by
  cases events with
  | nil => rfl
  | cons ev events => cases ev <;> rfl

theorem progress_le (events : List SinkEvent) (n : Nat) : (progress events n).accepted ≤ n := by
  fun_induction progress events n with
  | case1 => exact Nat.le_refl _
  | case2 => exact Nat.zero_le _
  | case3 limit events n hn p ih =>
      change min limit n + (progress events (n - limit)).accepted ≤ n
      omega
  | case4 => exact Nat.zero_le _
  | case5 errno events n hn hs ih => exact ih
  | case6 => exact Nat.zero_le _

theorem progress_done {events : List SinkEvent} {n : Nat} (h : (progress events n).done = true) :
    (progress events n).accepted = n := by
  fun_induction progress events n with
  | case1 => rfl
  | case2 => rfl
  | case3 limit events n hn p ih =>
      have hrest := ih h
      change min limit n + (progress events (n - limit)).accepted = n
      omega
  | case4 => rfl
  | case5 errno events n hn hs ih => exact ih h
  | case6 => cases h

theorem progress_clean {events : List SinkEvent} {n : Nat}
    (h : ∀ e, SinkEvent.fail e ∈ events → softErrno e = true) :
    (progress events n).done = true ∧
      ∀ e, SinkEvent.fail e ∈ (progress events n).events → softErrno e = true := by
  fun_induction progress events n with
  | case1 => exact ⟨rfl, h⟩
  | case2 => exact ⟨rfl, h⟩
  | case3 limit events n hn p ih => exact ih (fun e he => h e (List.mem_cons_of_mem _ he))
  | case4 => exact ⟨rfl, h⟩
  | case5 errno events n hn hs ih => exact ih (fun e he => h e (List.mem_cons_of_mem _ he))
  | case6 errno events n hn hs => exact absurd (h errno List.mem_cons_self) hs

theorem efSafeWriteLoop_end (buf : Bytes) {fuel : Nat} (hfuel : 0 < fuel) (snk : Sink) :
    efSafeWriteLoop buf fuel buf.length snk = some ((buf.length : Int), snk) := by
  obtain ⟨fuel, rfl⟩ := Nat.exists_eq_add_of_le' hfuel
  rw [efSafeWriteLoop, if_neg (Nat.lt_irrefl _)]

theorem efSafeWriteLoop_eq (buf : Bytes) (events : List SinkEvent) (fuel offset : Nat)
    (accepted : Bytes) (hoff : offset ≤ buf.length) (hfuel : events.length + 2 ≤ fuel) :
    efSafeWriteLoop buf fuel offset ⟨accepted, events⟩ =
      let p := progress events (buf.length - offset)
      some (if p.done then (buf.length : Int) else -1,
        ⟨accepted ++ (buf.drop offset).take p.accepted, p.events⟩) := by
  generalize hn : buf.length - offset = n
  have hrest : (buf.drop offset).length = n := by
    rw [List.length_drop, hn]
  fun_induction progress events n generalizing fuel offset accepted with
  | case1 n =>
      obtain ⟨fuel, rfl⟩ := Nat.exists_eq_add_of_le' (show 1 ≤ fuel by omega)
      by_cases hlt : offset < buf.length
      · have hw : efWrapWrite (buf.drop offset) ⟨accepted, []⟩ =
          (((buf.drop offset).length : Int), 0, Sink.mk (accepted ++ buf.drop offset) []) := rfl
        rw [efSafeWriteLoop, if_pos hlt, hw, hrest]
        dsimp only
        rw [if_pos (by omega), Int.toNat_natCast, show offset + n = buf.length by omega,
          efSafeWriteLoop_end buf (by rw [List.length_nil] at hfuel; omega),
          List.take_of_length_le (Nat.le_of_eq hrest)]
        rfl
      · obtain rfl : offset = buf.length := by omega
        rw [efSafeWriteLoop_end buf (Nat.succ_pos fuel)]
        simp
  | case2 limit events =>
      obtain rfl : offset = buf.length := by omega
      rw [efSafeWriteLoop_end buf (by omega)]
      simp
  | case3 limit events n hz p ih =>
      rw [List.length_cons] at hfuel
      obtain ⟨fuel, rfl⟩ := Nat.exists_eq_add_of_le' (show 1 ≤ fuel by omega)
      have hw : efWrapWrite (buf.drop offset) ⟨accepted, .accept limit :: events⟩ =
        ((((buf.drop offset).take limit).length : Int), 0,
          Sink.mk (accepted ++ (buf.drop offset).take limit) events) := rfl
      have hlen : ((buf.drop offset).take limit).length = min limit n := by
        rw [List.length_take, hrest]
      have htake : (buf.drop offset).take limit = (buf.drop offset).take (min limit n) := by
        rw [← hrest, ← List.take_eq_take_min]
      have hnext := ih fuel (offset + min limit n)
        (accepted ++ (buf.drop offset).take (min limit n)) (by omega) (by omega) (by omega)
        (by rw [List.length_drop]; omega)
      dsimp only at hnext
      rw [List.append_assoc, ← List.drop_drop, ← List.take_add] at hnext
      rw [efSafeWriteLoop, if_pos (by omega), hw, hlen, htake]
      dsimp only
      by_cases hpos : 0 < limit
      · rw [if_pos (by omega), Int.toNat_natCast]
        exact hnext
      · rw [if_neg (by omega), if_neg (by omega)]
        rw [show min limit n = 0 by omega] at hnext ⊢
        exact hnext
  | case4 errno events =>
      obtain rfl : offset = buf.length := by omega
      rw [efSafeWriteLoop_end buf (by omega)]
      simp
  | case5 errno events n hz hs ih =>
      rw [List.length_cons] at hfuel
      obtain ⟨fuel, rfl⟩ := Nat.exists_eq_add_of_le' (show 1 ≤ fuel by omega)
      have hw : efWrapWrite (buf.drop offset) ⟨accepted, .fail errno :: events⟩ =
        (-1, errno, ⟨accepted, events⟩) := rfl
      rw [efSafeWriteLoop, if_pos (by omega), hw]
      dsimp only
      rw [if_neg (by omega), if_neg (fun h => hard_iff.mp h.2 hs)]
      exact ih fuel offset accepted hoff (by omega) hn hrest
  | case6 errno events n hz hs =>
      obtain ⟨fuel, rfl⟩ := Nat.exists_eq_add_of_le' (show 1 ≤ fuel by omega)
      have hw : efWrapWrite (buf.drop offset) ⟨accepted, .fail errno :: events⟩ =
        (-1, errno, ⟨accepted, events⟩) := rfl
      rw [efSafeWriteLoop, if_pos (by omega), hw]
      dsimp only
      rw [if_neg (by omega), if_pos ⟨by omega, hard_iff.mpr hs⟩]
      simp

theorem efSafeWrite_eq (buf : Bytes) (snk : Sink) :
    efSafeWrite buf snk =
      let p := progress snk.events buf.length
      some (if p.done then (buf.length : Int) else -1,
        ⟨snk.accepted ++ buf.take p.accepted, p.events⟩) :=
  efSafeWriteLoop_eq buf snk.events _ 0 snk.accepted (Nat.zero_le _) (Nat.le_refl _)

theorem efSafeWrite_spec (buf : Bytes) (snk : Sink) :
    ∃ ret snk', efSafeWrite buf snk = some (ret, snk') ∧
      ((ret = buf.length ∧ snk'.accepted = snk.accepted ++ buf) ∨ ret = -1) ∧
      (snk.Clean → ret = buf.length ∧ snk'.Clean) := by
  rw [efSafeWrite_eq]
  refine ⟨_, _, rfl, ?_, fun hc => ?_⟩
  · by_cases hd : (progress snk.events buf.length).done = true
    · rw [if_pos hd, progress_done hd, List.take_length]
      exact Or.inl ⟨rfl, rfl⟩
    · rw [if_neg hd]
      exact Or.inr rfl
  · obtain ⟨hd, hc'⟩ := progress_clean (n := buf.length) hc
    rw [if_pos hd]
    exact ⟨rfl, hc'⟩

end EFramework
