import EFramework.Epollet.Model
import EFramework.Runtime.Steps
import EFramework.Runtime.Transfers

/-! # What connecting returns

A connection that is not made at once is waited for. A mask with `POLLERR` or `POLLHUP`
is taken for a failure; behind any other one the value that `associate` has returned is
returned, which is not negative, and `SO_ERROR` goes to `errno` only.
-/

namespace EFramework

def einprogress : Nat := 115

/-- What the calls of `ef_routine_connect` answer. The last two fields say what has become of the
connection when it returns. -/
structure ConnectCalls where
  /-- `O_NONBLOCK` is set. -/
  nonblock : Bool
  setfl : SysResult
  connect : SysResult
  connect_le : connect.ret ≤ 0
  associate : Associated
  events : Nat
  /-- `getsockopt` succeeds. -/
  getsockopt : Bool
  soError : Nat
  completed : Bool

namespace ConnectCalls

/-- The local `error` behind the tests of the events. -/
def error (c : ConnectCalls) : Nat :=
  if c.events &&& (efPollerr ||| efPollhup) ≠ 0 then ebadf
  else if c.events &&& efPollout ≠ 0 ∧ c.getsockopt then c.soError
  else 0

/-- The return value and `errno`. -/
def efRoutineConnect (c : ConnectCalls) : Int × Nat :=
  if ¬ c.nonblock ∧ c.setfl.ret < 0 then (c.setfl.ret, c.setfl.errno)
  else if c.connect.ret < 0 then
    if c.connect.errno ≠ einprogress then (c.connect.ret, c.connect.errno)
    else if c.associate.ret < 0 then (c.associate.ret, c.associate.errno)
    else if c.events &&& (efPollerr ||| efPollhup) ≠ 0 then (-1, c.error)
    else (c.associate.ret, c.error)
  else (c.connect.ret, c.connect.errno)

def Waits (c : ConnectCalls) : Prop :=
  (c.nonblock = true ∨ 0 ≤ c.setfl.ret) ∧ c.connect.ret = -1 ∧ c.connect.errno = einprogress ∧
    0 ≤ c.associate.ret

instance (c : ConnectCalls) : Decidable c.Waits := inferInstanceAs (Decidable (_ ∧ _ ∧ _ ∧ _))

def answer (c : ConnectCalls) : Runtime.ConnectAnswer :=
  if ¬ c.nonblock ∧ c.setfl.ret < 0 then .failed c.setfl.errno
  else if c.connect.ret < 0 then
    if c.connect.errno ≠ einprogress then .failed c.connect.errno
    else .inProgress (decide (0 ≤ c.associate.ret)) c.associate.errno
  else .connected c.connect.ret c.connect.errno

variable (c : ConnectCalls)

/-- How a call ends, and what the runtime is told of it. -/
inductive Ends : Runtime.ConnectAnswer → Int × Nat → Prop
  | failed {errno : Nat} (herrno : errno ≠ 0) (h : ¬ c.Waits) :
      Ends (.failed errno) (-1, errno)
  | connected (hret : c.connect.ret = 0) (h : ¬ c.Waits) :
      Ends (.connected 0 c.connect.errno) (0, c.connect.errno)
  | unwatched (hret : c.associate.ret < 0) (h : ¬ c.Waits) :
      Ends (.inProgress false c.associate.errno) (c.associate.ret, c.associate.errno)
  | waited (h : c.Waits) :
      Ends (.inProgress true c.associate.errno)
        (if c.events &&& (efPollerr ||| efPollhup) ≠ 0 then -1 else c.associate.ret, c.error)

theorem ends : c.Ends c.answer c.efRoutineConnect := by
  unfold answer efRoutineConnect
  by_cases hset : ¬ c.nonblock = true ∧ c.setfl.ret < 0
  · have hret : c.setfl.ret = -1 := by
      have := c.setfl.neg_one_le
      omega
    rw [if_pos hset, if_pos hset, hret]
    refine .failed (c.setfl.failed hret) (fun h => ?_)
    rcases h.1 with h | h
    · exact hset.1 h
    · omega
  rw [if_neg hset, if_neg hset]
  by_cases hconnect : c.connect.ret < 0
  · have hret : c.connect.ret = -1 := by
      have := c.connect.neg_one_le
      omega
    rw [if_pos hconnect, if_pos hconnect]
    by_cases herrno : c.connect.errno ≠ einprogress
    · rw [if_pos herrno, if_pos herrno, hret]
      exact .failed (c.connect.failed hret) (fun h => herrno h.2.2.1)
    rw [if_neg herrno, if_neg herrno]
    by_cases hassociate : c.associate.ret < 0
    · rw [if_pos hassociate, decide_eq_false (Int.not_le.mpr hassociate)]
      exact .unwatched hassociate (fun h => absurd h.2.2.2 (Int.not_le.mpr hassociate))
    · have hwaits : c.Waits := by
        refine ⟨?_, hret, not_not.mp herrno, Int.not_lt.mp hassociate⟩
        by_contra hno
        rw [not_or, Int.not_le] at hno
        exact hset hno
      rw [if_neg hassociate, decide_eq_true (Int.not_lt.mp hassociate)]
      have hended := Ends.waited hwaits
      split at hended <;> simp_all
  · have hret : c.connect.ret = 0 := by
      have := c.connect_le
      omega
    rw [if_neg hconnect, if_neg hconnect, hret]
    exact .connected hret (fun h => by have := h.2.1; omega)

/-! ## In the runtime -/

theorem startConnect_pc {P K : Type} (poll : EfPoll P K) (rt : Runtime P) (er fd : Nat)
    (hpoll : (poll.associate rt.p fd efPollout (.routine er) false
      (decide (0 ≤ c.associate.ret) && rt.isOpen fd)).1 = c.associate.ret) :
    ((Runtime.startConnect poll rt er fd c.answer).routines er).pc =
      if c.Waits then .waiting (.connect fd) c.associate.ret
      else .user c.efRoutineConnect.1 c.efRoutineConnect.2 := by
  have hends := c.ends
  generalize c.answer = answer at hends ⊢
  generalize c.efRoutineConnect = result at hends ⊢
  cases hends with
  | failed herrno h =>
      rw [if_neg h]
      simp [Runtime.startConnect, Runtime.setPc]
  | connected hret h =>
      rw [if_neg h]
      simp [Runtime.startConnect, Runtime.setPc]
  | unwatched hret h =>
      rw [decide_eq_false (Int.not_le.mpr hret)] at hpoll
      obtain ⟨pc, current, he, hcase⟩ := Runtime.startConnect_spec rfl c.associate.errno
      rw [if_neg h, he]
      rcases hcase with ⟨_, rfl, _⟩ | ⟨hge, _⟩
      · dsimp only
        rw [Function.update_self, hpoll]
      · omega
  | waited h =>
      rw [decide_eq_true h.2.2.2] at hpoll
      obtain ⟨pc, current, he, hcase⟩ := Runtime.startConnect_spec rfl c.associate.errno
      rw [if_pos h, he]
      rcases hcase with ⟨hlt, _⟩ | ⟨_, rfl, _⟩
      · have := h.2.2.2
        omega
      · dsimp only
        rw [Function.update_self, hpoll]

theorem afterYield_connect (h : c.Waits) (fd : Nat) :
    Runtime.afterYield (.connect fd) c.associate.ret c.events
        (if c.getsockopt = true then c.soError else 0) =
      .done (.connect fd) c.efRoutineConnect.1 c.efRoutineConnect.2 := by
  have hends := c.ends
  generalize c.answer = answer at hends
  generalize c.efRoutineConnect = result at hends ⊢
  cases hends with
  | failed herrno hno => exact absurd h hno
  | connected hret hno => exact absurd h hno
  | unwatched hret hno => exact absurd h hno
  | waited =>
      unfold Runtime.afterYield error
      by_cases hfailed : c.events &&& (efPollerr ||| efPollhup) ≠ 0
      · simp only [if_pos hfailed]
      · by_cases hready : c.events &&& efPollout ≠ 0
        · simp only [if_neg hfailed, if_pos hready, and_iff_right hready]
        · simp only [if_neg hfailed, if_neg hready, if_neg (fun h => hready (And.left h))]

/-- The runtime makes the calls of `ef_routine_connect`: the routine returns what this model
returns, at once or when it is resumed. -/
theorem connect_in_runtime {P K : Type} (poll : EfPoll P K) (rt : Runtime P) (er fd : Nat)
    (hpoll : (poll.associate rt.p fd efPollout (.routine er) false
      (decide (0 ≤ c.associate.ret) && rt.isOpen fd)).1 = c.associate.ret) :
    (¬ c.Waits → ((Runtime.startConnect poll rt er fd c.answer).routines er).pc =
      .user c.efRoutineConnect.1 c.efRoutineConnect.2) ∧
    (c.Waits → ((Runtime.startConnect poll rt er fd c.answer).routines er).pc =
        .waiting (.connect fd) c.associate.ret ∧
      Runtime.afterYield (.connect fd) c.associate.ret c.events
        (if c.getsockopt = true then c.soError else 0) =
          .done (.connect fd) c.efRoutineConnect.1 c.efRoutineConnect.2) := by
  have hpc := c.startConnect_pc poll rt er fd hpoll
  constructor
  · intro h
    rwa [if_neg h] at hpc
  · intro h
    rw [if_pos h] at hpc
    exact ⟨hpc, c.afterYield_connect h fd⟩

/-! ## Connected or failed -/

/-- A value that is not negative means that there is a connection, and any other one comes with
an error. -/
structure Sound (result : Int × Nat) : Prop where
  connected : 0 ≤ result.1 → c.connect.ret = 0 ∨ (c.completed = true ∧ c.soError = 0)
  failed : result.1 < 0 → result.2 ≠ 0

theorem routine_connect : c.Sound c.efRoutineConnect ↔ (c.Waits →
    c.events &&& (efPollerr ||| efPollhup) ≠ 0 ∨ (c.completed = true ∧ c.soError = 0)) := by
  have hends := c.ends
  generalize c.answer = answer at hends
  generalize c.efRoutineConnect = result at hends ⊢
  cases hends with
  | failed herrno h =>
      have hneg : ¬ (0 : Int) ≤ -1 := by decide
      exact iff_of_true ⟨fun hge => absurd hge hneg, fun _ => herrno⟩
        (fun hwaits => absurd hwaits h)
  | connected hret h =>
      exact iff_of_true ⟨fun _ => Or.inl hret, fun hlt => absurd hlt (Int.lt_irrefl 0)⟩
        (fun hwaits => absurd hwaits h)
  | unwatched hret h =>
      exact iff_of_true ⟨fun hge => absurd hret (Int.not_lt.mpr hge),
        fun _ => (c.associate.neg hret).2⟩ (fun hwaits => absurd hwaits h)
  | waited h =>
      obtain ⟨-, hconnect, -, hret⟩ := id h
      unfold error
      by_cases hfailed : c.events &&& (efPollerr ||| efPollhup) ≠ 0
      · rw [if_pos hfailed, if_pos hfailed]
        exact iff_of_true ⟨fun hge => absurd hge (by decide), fun _ => by decide⟩
          (fun _ => Or.inl hfailed)
      · rw [if_neg hfailed]
        constructor
        · intro hsound _
          refine Or.inr ((hsound.connected hret).resolve_left ?_)
          omega
        · intro hconnected
          exact ⟨fun _ => Or.inr ((hconnected h).resolve_left hfailed),
            fun hlt => absurd hlt (Int.not_lt.mpr hret)⟩

end ConnectCalls

/-- A descriptor that `epollet.c` does not know yet counts as writable: `associate` returns 1, the
next `wait` does not ask the kernel, and the call returns 1 while the connection is being made. -/
theorem routine_connect_fresh : ∃ ep ep' ep'',
    Epollet.efEpollCreate 128 (fun _ => 0) (fun _ => ⟨0, 0, 0, .routine 0⟩) true = some ep ∧
    Epollet.efEpollAssociate ep 5 efPollout (.routine 0) ⟨true, true, true⟩ true = (1, ep') ∧
    Epollet.efEpollWait ep' [] 1 = some ([⟨efPollout, .routine 0, 5⟩], ep'') ∧
    ¬ (⟨true, ⟨0, 0, by decide, by decide⟩, ⟨-1, einprogress, by decide, by decide⟩, by decide,
      ⟨1, 0, by decide⟩, efPollout, true, 0, false⟩ : ConnectCalls).Sound (1, 0) ∧
    (⟨true, ⟨0, 0, by decide, by decide⟩, ⟨-1, einprogress, by decide, by decide⟩, by decide,
      ⟨1, 0, by decide⟩, efPollout, true, 0, false⟩ : ConnectCalls).efRoutineConnect = (1, 0) := by
  refine ⟨_, _, _, rfl, rfl, rfl, fun h => ?_, by decide⟩
  rcases h.connected (by decide) with h | h
  · exact absurd h (by decide)
  · exact absurd h.1 (by decide)

end EFramework
