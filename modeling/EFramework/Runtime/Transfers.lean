import EFramework.Runtime.Framework
import Mathlib.Algebra.Ring.Nat

/-! # What the transfers return

One call of `ef_routine_read`, `ef_routine_write`, `ef_routine_recv` or
`ef_routine_send` by itself: the poller, the yields and the system call answer, and
the call goes on as a routine of the runtime does.
-/

namespace EFramework

structure Associated where
  ret : Int
  errno : Nat
  neg : ret < 0 → ret = -1 ∧ errno ≠ 0
deriving Repr, DecidableEq

/-- What `read`, `write`, `recv` or `send` returns, with `errno` behind it. A call that succeeds
leaves `errno` as it is. -/
structure SysResult where
  ret : Int
  errno : Nat
  neg_one_le : -1 ≤ ret
  failed : ret = -1 → errno ≠ 0
deriving Repr, DecidableEq

/-- The value of the local `retval`, an `int` in two of the four. -/
def Wrapper.retval : Wrapper → Int → Int
  | .read, ret | .write, ret => ret
  | .recv, ret | .send, ret => ret.bmod (2 ^ 32)

inductive Answer where
  | resumed (events : Nat)
  | transferred (r : SysResult)
deriving Repr, DecidableEq

inductive Asked where
  | associate (fd events : Nat)
  | unset (fd events : Nat)
  | dissociate (fd : Nat)
deriving Repr, DecidableEq

structure Invocation where
  pc : Pc
  asked : List Asked
deriving Repr, DecidableEq

namespace Invocation

def start (w : Wrapper) (fd : Nat) (a : Associated) : Invocation :=
  { pc :=
      if a.ret < 0 then .user a.ret a.errno
      else if 0 < a.ret then .ready (.transfer w fd)
      else .waiting (.transfer w fd) a.ret
    asked := [.associate fd w.transfer.interest] }

/-- What is done without waiting: `unset` before the next yield, and `dissociate` at the end. -/
def settle (inv : Invocation) : Invocation :=
  match inv.pc with
  | .again c retval => ⟨.waiting c retval, inv.asked ++ [.unset c.fd c.unsetEvents]⟩
  | .done c retval errno => ⟨.user retval errno, inv.asked ++ [.dissociate c.fd]⟩
  | _ => inv

def step (w : Wrapper) (inv : Invocation) (answer : Answer) : Option Invocation :=
  match inv.pc, answer with
  | .waiting c retval, .resumed events =>
      some (settle { inv with pc := Runtime.afterYield c retval events 0 })
  | .ready c, .transferred r =>
      some (settle { inv with pc := Runtime.afterTransfer c (w.retval r.ret) r.errno })
  | _, _ => none

def run (w : Wrapper) (inv : Invocation) (answers : List Answer) : Option Invocation :=
  answers.foldlM (step w) inv

end Invocation

/-! ## How a call ends -/

/-- The events that one of the two tests behind a yield takes notice of. -/
def Wrapper.Tests (w : Wrapper) (events : Nat) : Prop :=
  events &&& w.transfer.failed ≠ 0 ∨ events &&& w.transfer.ready ≠ 0

instance (w : Wrapper) (events : Nat) : Decidable (w.Tests events) :=
  inferInstanceAs (Decidable (_ ∨ _))

/-- The result is taken for one of a call that would block. -/
def Wrapper.Blocks (w : Wrapper) (r : SysResult) : Prop := w.retval r.ret < 0 ∧ r.errno = eagain

instance (w : Wrapper) (r : SysResult) : Decidable (w.Blocks r) :=
  inferInstanceAs (Decidable (_ ∧ _))

def Wrapper.Passes (w : Wrapper) (r : SysResult) : Prop :=
  w.retval r.ret = r.ret ∨ w.Blocks r ∨ (w.retval r.ret = -1 ∧ r.errno ≠ 0)

/-- The last answer of a call that returns, with the return value and `errno`. -/
inductive Outcome (w : Wrapper) : Answer → Int → Nat → Prop
  | failed {events : Nat} (h : events &&& w.transfer.failed ≠ 0) :
      Outcome w (.resumed events) (-1) ebadf
  /-- Neither test takes notice of the events: `retval` is what it was before the yield. -/
  | unnoticed {events : Nat} {retval : Int} (h : ¬ w.Tests events) (hretval : retval ≤ 0) :
      Outcome w (.resumed events) retval 0
  | transferred {r : SysResult} (hretval : 0 ≤ w.retval r.ret) :
      Outcome w (.transferred r) (w.retval r.ret) 0
  | error {r : SysResult} (h : ¬ w.Blocks r) (hretval : w.retval r.ret < 0) :
      Outcome w (.transferred r) (w.retval r.ret) r.errno

def Wrapper.GoesOn (w : Wrapper) : Answer → Prop
  | .resumed events => w.Tests events
  | .transferred r => w.Blocks r

namespace Invocation

variable {w : Wrapper} {fd : Nat} {inv inv' : Invocation} {answer : Answer}

def Pending (w : Wrapper) (fd : Nat) (pc : Pc) : Prop :=
  pc = .ready (.transfer w fd) ∨ ∃ retval : Int, retval ≤ 0 ∧ pc = .waiting (.transfer w fd) retval

theorem step_cases (hp : Pending w fd inv.pc) (he : inv.step w answer = some inv') :
    (w.GoesOn answer ∧ Pending w fd inv'.pc ∧
        ∃ asked, inv'.asked = inv.asked ++ asked ∧ Asked.dissociate fd ∉ asked) ∨
      ∃ retval errno, inv' = ⟨.user retval errno, inv.asked ++ [.dissociate fd]⟩ ∧
        Outcome w answer retval errno := by
  obtain ⟨pc, asked⟩ := inv
  rcases hp with hpc | ⟨retval, hretval, hpc⟩ <;> dsimp only at hpc <;> subst hpc
  · cases answer with
    | resumed events => cases he
    | transferred r =>
        cases he
        by_cases hblocks : w.retval r.ret < 0 ∧ r.errno = eagain
        · left
          simp only [Runtime.afterTransfer, if_pos hblocks, settle]
          exact ⟨hblocks, Or.inr ⟨_, by omega, rfl⟩, _, rfl, by simp⟩
        · right
          simp only [Runtime.afterTransfer, if_neg hblocks]
          by_cases hneg : w.retval r.ret < 0
          · rw [if_pos hneg]
            exact ⟨_, _, rfl, .error hblocks hneg⟩
          · rw [if_neg hneg]
            exact ⟨_, _, rfl, .transferred (Int.not_lt.mp hneg)⟩
  · cases answer with
    | transferred r => cases he
    | resumed events =>
        cases he
        simp only [Runtime.afterYield]
        by_cases hfailed : events &&& w.transfer.failed ≠ 0
        · right
          rw [if_pos hfailed]
          exact ⟨_, _, rfl, .failed hfailed⟩
        · rw [if_neg hfailed]
          by_cases hready : events &&& w.transfer.ready ≠ 0
          · left
            rw [if_pos hready]
            exact ⟨Or.inr hready, Or.inl rfl, [], (List.append_nil _).symm, List.not_mem_nil⟩
          · right
            rw [if_neg hready]
            exact ⟨_, _, rfl, .unnoticed (fun h => h.elim hfailed hready) hretval⟩

theorem run_cases {retval : Int} {errno : Nat} {answers : List Answer}
    (hp : Pending w fd inv.pc) (he : inv.run w answers = some inv')
    (hret : inv'.pc = .user retval errno) :
    ∃ init last, answers = init ++ [last] ∧ (∀ answer ∈ init, w.GoesOn answer) ∧
      Outcome w last retval errno ∧
      ∃ asked, inv'.asked = inv.asked ++ asked ++ [.dissociate fd] ∧
        Asked.dissociate fd ∉ asked := by
  induction answers generalizing inv with
  | nil =>
      cases he
      rcases hp with hpc | ⟨_, _, hpc⟩ <;> rw [hpc] at hret <;> cases hret
  | cons answer answers ih =>
      obtain ⟨inv₁, hstep, hrun⟩ := Option.bind_eq_some_iff.mp he
      rcases step_cases hp hstep with
        ⟨hgo, hp₁, asked₁, hasked₁, hnot₁⟩ | ⟨retval₁, errno₁, rfl, hout⟩
      · obtain ⟨init, last, rfl, hinit, hlast, asked, hasked, hnot⟩ := ih hp₁ hrun
        refine ⟨answer :: init, last, rfl, List.forall_mem_cons.mpr ⟨hgo, hinit⟩, hlast,
          asked₁ ++ asked, ?_, List.not_mem_append hnot₁ hnot⟩
        rw [hasked, hasked₁, List.append_assoc inv.asked]
      · cases answers with
        | nil =>
            cases hrun
            cases hret
            exact ⟨[], answer, rfl, nofun, hout, [], by rw [List.append_nil], List.not_mem_nil⟩
        | cons answer' answers => cases hrun

end Invocation

/-! ## What is reported -/

theorem Wrapper.retval_zero (w : Wrapper) : w.retval 0 = 0 := by
  cases w <;> rfl

theorem Wrapper.retval_retval (w : Wrapper) (ret : Int) :
    w.retval (w.retval ret) = w.retval ret := by
  cases w
  · rfl
  · rfl
  · exact Int.bmod_bmod
  · exact Int.bmod_bmod

/-- What is returned is the result of a call, or −1 with an error. -/
structure Reports (answers : List Answer) (retval : Int) (errno : Nat) : Prop where
  result : 0 ≤ retval → ∃ r, Answer.transferred r ∈ answers ∧ r.ret = retval
  error : retval < 0 → retval = -1 ∧ errno ≠ 0

def Wrapper.Handles (w : Wrapper) : Answer → Prop
  | .resumed events => w.Tests events
  | .transferred r => w.Passes r

theorem Wrapper.GoesOn.handles {w : Wrapper} {answer : Answer} (h : w.GoesOn answer) :
    w.Handles answer := by
  cases answer with
  | resumed events => exact h
  | transferred r => exact Or.inr (Or.inl h)

theorem Wrapper.GoesOn.ret_ne {w : Wrapper} {r : SysResult} {retval : Int}
    (h : w.GoesOn (.transferred r)) (hretval : 0 ≤ retval) (hfix : w.retval retval = retval) :
    r.ret ≠ retval := by
  intro he
  have hneg := h.1
  rw [he, hfix] at hneg
  omega

/-- A value that is not negative is reported by the last answer only. -/
theorem Reports.last {w : Wrapper} {init : List Answer} {last : Answer} {retval : Int} {errno : Nat}
    (h : Reports (init ++ [last]) retval errno) (hinit : ∀ answer ∈ init, w.GoesOn answer)
    (hretval : 0 ≤ retval) (hfix : w.retval retval = retval) :
    ∃ r, last = .transferred r ∧ r.ret = retval := by
  obtain ⟨r, hmem, hret⟩ := h.result hretval
  rcases List.mem_append.mp hmem with hmem | hmem
  · exact absurd hret ((hinit _ hmem).ret_ne hretval hfix)
  · exact ⟨r, (List.mem_singleton.mp hmem).symm, hret⟩

theorem Outcome.reports_iff {w : Wrapper} {init : List Answer} {last : Answer} {retval : Int}
    {errno : Nat} (h : Outcome w last retval errno) (hinit : ∀ answer ∈ init, w.GoesOn answer) :
    Reports (init ++ [last]) retval errno ↔ w.Handles last := by
  cases h with
  | failed hfailed =>
      exact iff_of_true ⟨by omega, fun _ => ⟨rfl, by decide⟩⟩ (Or.inl hfailed)
  | unnoticed hnot hretval =>
      refine iff_of_false (fun hreports => ?_) hnot
      rcases Int.lt_or_eq_of_le hretval with hneg | rfl
      · exact (hreports.error hneg).2 rfl
      · obtain ⟨r, he, -⟩ := hreports.last hinit (Int.le_refl 0) w.retval_zero
        cases he
  | @transferred r hretval =>
      constructor
      · intro hreports
        obtain ⟨r', he, hret⟩ := hreports.last hinit hretval (w.retval_retval r.ret)
        cases he
        exact Or.inl hret.symm
      · intro hpasses
        rcases hpasses with hret | hblocks | hfailed
        · exact ⟨fun _ => ⟨r, by simp, hret.symm⟩, fun hneg => by omega⟩
        · exact absurd hblocks.1 (by omega)
        · omega
  | @error r hnot hretval =>
      constructor
      · intro hreports
        exact Or.inr (Or.inr (hreports.error hretval))
      · intro hpasses
        refine ⟨fun hge => by omega, fun _ => ?_⟩
        rcases hpasses with hret | hblocks | hfailed
        · have hge := r.neg_one_le
          have hone : r.ret = -1 := by omega
          exact ⟨hret.trans hone, r.failed hone⟩
        · exact absurd hblocks hnot
        · exact hfailed

/-- A wrapper that returns has reported what a system call did exactly when each mask has one of
the bits that it tests, and no result is lost in an `int`. It dissociates once, at the end. -/
theorem transfer_reports {w : Wrapper} {fd : Nat} {a : Associated} {answers : List Answer}
    {inv : Invocation} {retval : Int} {errno : Nat}
    (hrun : (Invocation.start w fd a).run w answers = some inv)
    (hret : inv.pc = .user retval errno) :
    ((0 ≤ retval → ∃ r, Answer.transferred r ∈ answers ∧ r.ret = retval) ∧
        (retval < 0 → retval = -1 ∧ errno ≠ 0) ∧
        (0 ≤ a.ret → ∃ asked, inv.asked = asked ++ [.dissociate fd] ∧
          Asked.dissociate fd ∉ asked)) ↔
      ((∀ events, Answer.resumed events ∈ answers → w.Tests events) ∧
        ∀ r, Answer.transferred r ∈ answers → w.Passes r) := by
  by_cases hneg : a.ret < 0
  · -- The call returns before it waits for anything.
    have hstart : (Invocation.start w fd a).pc = .user a.ret a.errno := if_pos hneg
    cases answers with
    | nil =>
        cases hrun
        rw [hstart] at hret
        cases hret
        exact iff_of_true ⟨fun hge => by omega, a.neg, fun hge => by omega⟩ ⟨nofun, nofun⟩
    | cons answer answers =>
        obtain ⟨inv₁, hstep, -⟩ := Option.bind_eq_some_iff.mp hrun
        unfold Invocation.step at hstep
        rw [hstart] at hstep
        cases hstep
  · have hpending : Invocation.Pending w fd (Invocation.start w fd a).pc := by
      dsimp only [Invocation.start]
      rw [if_neg hneg]
      split
      · exact Or.inl rfl
      · exact Or.inr ⟨a.ret, by omega, rfl⟩
    obtain ⟨init, last, rfl, hinit, hlast, asked, hasked, hnot⟩ :=
      Invocation.run_cases hpending hrun hret
    have hdissociated : ∃ asked, inv.asked = asked ++ [.dissociate fd] ∧
        Asked.dissociate fd ∉ asked :=
      ⟨_, hasked, List.not_mem_append (by simp [Invocation.start]) hnot⟩
    have hreports := hlast.reports_iff hinit
    constructor
    · rintro ⟨hresult, herror, -⟩
      have hall : ∀ answer ∈ init ++ [last], w.Handles answer := by
        intro answer hmem
        rcases List.mem_append.mp hmem with hmem | hmem
        · exact (hinit answer hmem).handles
        · rw [List.mem_singleton.mp hmem]
          exact hreports.mp ⟨hresult, herror⟩
      exact ⟨fun events => hall (.resumed events), fun r => hall (.transferred r)⟩
    · rintro ⟨hresumed, htransferred⟩
      have hhandles : w.Handles last := by
        cases last with
        | resumed events => exact hresumed events (by simp)
        | transferred r => exact htransferred r (by simp)
      obtain ⟨hresult, herror⟩ := hreports.mpr hhandles
      exact ⟨hresult, herror, fun _ => hdissociated⟩

/-- A read that would block is resumed, and then reads three bytes. -/
theorem transfer_reports_retry : ∃ inv,
    (Invocation.start .read 7 ⟨0, 0, by decide⟩).run .read [.resumed efPollin,
        .transferred ⟨-1, eagain, by decide, by decide⟩, .resumed efPollin,
        .transferred ⟨3, eagain, by decide, by decide⟩] = some inv ∧
      inv.pc = .user 3 0 ∧ ∃ asked, inv.asked = asked ++ [.dissociate 7] ∧
        Asked.dissociate 7 ∉ asked := by
  refine ⟨_, rfl, rfl, ?_⟩
  have hreports := @transfer_reports .read 7 ⟨0, 0, by decide⟩
    [.resumed efPollin, .transferred ⟨-1, eagain, by decide, by decide⟩, .resumed efPollin,
      .transferred ⟨3, eagain, by decide, by decide⟩] _ _ _ rfl rfl
  refine (hreports.mpr ⟨?_, fun r _ => Or.inl rfl⟩).2.2 (Int.le_refl 0)
  intro events hmem
  simp only [List.mem_cons, Answer.resumed.injEq, reduceCtorEq, List.not_mem_nil, or_false,
    false_or, or_self] at hmem
  rw [hmem]
  decide

/-- `POLLNVAL` alone, as `poll` reports it for a descriptor that is not open. -/
def pollnval : Nat := 0x020

/-- On such an event a read returns 0 although no call has been made, and −1 without an error when
it comes behind a call that would block. -/
theorem transfer_reports_pollnval :
    (Invocation.start .read 7 ⟨0, 0, by decide⟩).run .read [.resumed pollnval] =
        some ⟨.user 0 0, [.associate 7 efPollin, .dissociate 7]⟩ ∧
      (Invocation.start .read 7 ⟨1, 0, by decide⟩).run .read
          [.transferred ⟨-1, eagain, by decide, by decide⟩, .resumed pollnval] =
        some ⟨.user (-1) 0, [.associate 7 efPollin, .unset 7 (efPollin ||| efPollhup),
          .dissociate 7]⟩ :=
  ⟨rfl, rfl⟩

end EFramework
