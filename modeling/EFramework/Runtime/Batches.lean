import EFramework.Epollet.Routing
import EFramework.Pollsys.Framework
import EFramework.Port.Framework

/-! # Batches of events

A wait may report many events, and routines run between one of them and the next. The
loop handles each of them once and in order, and waits again when none is left. Over
`epoll.c`, `poll.c` and `port.c` none is for a routine that is gone, and neither is one
over `epollet.c` where the reports are quiet.
-/

namespace EFramework

inductive Delivery where
  | accepts (li : Nat)
  | resumes (er events : Nat)
  | dropped
deriving Repr, DecidableEq

def Event.delivery (e : Event) : Delivery :=
  match e.ptr with
  | .listen li => .accepts li
  | .routine er => .resumes er e.events

/-- What is noted of a step: a wait that returns, or an event that is handled. -/
inductive Notice where
  | reported (evts : List Event)
  | delivered (d : Delivery)
deriving Repr, DecidableEq

namespace Notice

def events : Notice → List Event
  | reported evts => evts
  | delivered _ => []

def delivery? : Notice → Option Delivery
  | reported _ => none
  | delivered d => some d

end Notice

namespace Runtime

variable {P K : Type} {poll : EfPoll P K} {rt rt' : Runtime P} {a : Act K}

def deliveredTo (rt : Runtime P) : Delivery :=
  match rt.current, rt.phase with
  | some er, _ =>
      match (rt.routines er).pc with
      | .woken _ _ events => .resumes er events
      | _ => .dropped
  | none, .accept li _ => .accepts li
  | none, _ => .dropped

def notices (rt : Runtime P) (a : Act K) (rt' : Runtime P) : List Notice :=
  match rt.current, a, rt.phase with
  | none, .wait _, .wait => [.reported rt'.phase.evts]
  | none, .event, .events (_ :: _) => [.delivered rt'.deliveredTo]
  | _, _, _ => []

/-- The events that were reported have been handled in this order, but for those that are left of
the batch. -/
def Delivered (rt : Runtime P) (log : List Notice) : Prop :=
  (log.flatMap Notice.events).map Event.delivery =
    log.filterMap Notice.delivery? ++ rt.phase.evts.map Event.delivery

def Awaited (rt : Runtime P) : Prop :=
  rt.current = none → ∀ e evts er, rt.phase = .events (e :: evts) → e.ptr = .routine er →
    (rt.routines er).pc ≠ .exited

/-! ## Steps -/

/-- The batch behind a step, and what is noted. -/
theorem step_evts (hs : step poll rt a = some rt') :
    (notices rt a rt' = [] ∧ rt'.phase.evts = rt.phase.evts) ∨
    (rt.phase.evts = [] ∧ notices rt a rt' = [.reported rt'.phase.evts]) ∨
    ∃ e, rt.current = none ∧ rt.phase = .events (e :: rt'.phase.evts) ∧
      notices rt a rt' = [.delivered rt'.deliveredTo] ∧
      (rt'.deliveredTo = e.delivery ∨
        ∃ er, e.ptr = .routine er ∧ (rt.routines er).pc = .exited) := by
  rcases step_batch hs with ⟨hcur, report, rfl, hw⟩ | ⟨hcur, rfl, hn⟩ | ⟨hno, he⟩
  · obtain ⟨hp, evts, p, _, rfl⟩ := pollWait_cases hw
    exact Or.inr (Or.inl ⟨by simp [hp, Phase.evts], by simp [notices, hcur, hp]⟩)
  · rcases nextEvent_cases hn with ⟨hp, rfl⟩ | ⟨e, evts, li, hp, hptr, rfl⟩ |
      ⟨e, evts, er, hp, hptr, ⟨hpc, rfl⟩ | ⟨c, retval, _, rfl⟩⟩
    · exact Or.inl ⟨by simp [notices, hcur, hp], by simp [hp, Phase.evts]⟩
    · refine Or.inr (Or.inr ⟨e, hcur, hp, by simp [notices, hcur, hp], Or.inl ?_⟩)
      simp [deliveredTo, Event.delivery, hcur, hptr]
    · exact Or.inr (Or.inr ⟨e, hcur, hp, by simp [notices, hcur, hp], Or.inr ⟨er, hptr, hpc⟩⟩)
    · refine Or.inr (Or.inr ⟨e, hcur, hp, by simp [notices, hcur, hp], Or.inl ?_⟩)
      simp [deliveredTo, Event.delivery, hptr]
  · refine Or.inl ⟨?_, he⟩
    unfold notices
    split
    next report hcur _ => exact absurd rfl ((hno hcur).1 report)
    next hcur _ => exact absurd rfl (hno hcur).2
    next => rfl

theorem Delivered.step {log : List Notice} (h : Delivered rt log) (hw : Awaited rt)
    (hs : step poll rt a = some rt') : Delivered rt' (log ++ notices rt a rt') := by
  unfold Delivered at h ⊢
  rw [List.flatMap_append, List.map_append, List.filterMap_append, h]
  rcases step_evts hs with ⟨hn, he⟩ | ⟨he, hn⟩ | ⟨e, hcur, hp, hn, hd⟩
  · rw [hn, he]
    simp
  · rw [hn, he]
    simp [Notice.events, Notice.delivery?]
  · have hto : rt'.deliveredTo = e.delivery := by
      rcases hd with hd | ⟨er, hptr, hpc⟩
      · exact hd
      · exact absurd hpc (hw hcur e _ er hp hptr)
    have hevts : rt.phase.evts = e :: rt'.phase.evts := by
      rw [hp]
      rfl
    rw [hn, hto, hevts]
    simp [Notice.events, Notice.delivery?]

/-! ## Runs -/

/-- Where no event is for a routine that is gone, each one is handled once and in order. The
steps may be those of the program, or more. -/
theorem delivered_run {B : Type} {next : Runtime P → B → Option (Runtime P)}
    {noted : Runtime P → B → Runtime P → List Notice} {init : Runtime P → Prop}
    {guard : Runtime P → B → Prop} (hinit : ∀ rt, init rt → rt.phase.evts = [])
    (hw : ∀ rt, Lib.Reachable init next guard rt → Awaited rt)
    (hstep : ∀ {rt rt' b log}, Delivered rt log → Awaited rt → next rt b = some rt' →
      Delivered rt' (log ++ noted rt b rt'))
    {s : Runtime P × List Notice}
    (h : Lib.Reachable (fun s => init s.1 ∧ s.2 = []) (Lib.logged next noted)
      (fun s b => guard s.1 b) s) :
    Lib.Reachable init next guard s.1 ∧ Delivered s.1 s.2 := by
  induction h with
  | @init s h₀ =>
      refine ⟨.init h₀.1, ?_⟩
      unfold Delivered
      rw [h₀.2, hinit s.1 h₀.1]
      rfl
  | step _ hg hs ih =>
      obtain ⟨t, ht, rfl⟩ := Lib.logged_eq_some.mp hs
      exact ⟨ih.1.step hg ht, hstep ih.2 (hw _ ih.1) ht⟩

theorem Initial.evts {p : P} (h : Initial p rt) : rt.phase.evts = [] := by
  rw [h.phase]
  rfl

theorem Inv.awaited {rt : Runtime Epoll} (h : Inv rt) : Awaited rt := by
  intro hcur e evts er hp hptr hx
  have hmem : e ∈ rt.phase.evts := by
    rw [hp]
    exact List.mem_cons_self
  obtain ⟨c, retval, hpc, _⟩ := h.routes.waiting_of_event h.base hcur hmem hptr
  cases hx.symm.trans hpc

theorem awaited_pollsys {rt : Runtime Pollsys.Ps}
    (h : Lib.Reachable Pollsys.Starts (step Pollsys.efPollPs) Pollsys.Disciplined rt) :
    Awaited rt := by
  obtain ⟨rt', hreach, hsame, _, _⟩ := Pollsys.simulation.reachable h
  have hinv := (replaceable_invariant.holds hreach).inv
  rw [hsame] at hinv
  exact hinv.awaited

theorem awaited_port {rt : Runtime Port.EfPort} (h : Port.Inv rt) : Awaited rt := by
  intro _ e evts er hp hptr hx
  have hmem : e ∈ rt.phase.evts := by
    rw [hp]
    exact List.mem_cons_self
  obtain ⟨c, hpc, _⟩ := h.ports.awaits_of_event hmem hptr
  cases hx.symm.trans hpc

/-- What is noted of a step of the program. The kernel is not listened to. -/
def etNotices (rt : Runtime Epollet.Et) (act : Epollet.EtAct) (rt' : Runtime Epollet.Et) :
    List Notice :=
  match act with
  | .run a => notices rt a rt'
  | .change _ _ _ _ => []

theorem delivered_etStep {rt rt' : Runtime Epollet.Et} {act : Epollet.EtAct} {log : List Notice}
    (h : Delivered rt log) (hw : Awaited rt) (hs : Epollet.etStep rt act = some rt') :
    Delivered rt' (log ++ etNotices rt act rt') := by
  rcases Epollet.etStep_cases hs with ⟨a, rt₁, rfl, h₁, rfl⟩ | ⟨_, _, _, _, rfl, rfl⟩
  · have h' := h.step hw h₁
    rcases Epollet.taken_cases rt a rt₁ with he | ⟨_, _, _, _, fd, _, he⟩
    · rw [he]
      exact h'
    · rw [he]
      exact h'
  · unfold etNotices
    rw [List.append_nil]
    exact h

theorem awaited_epollet {rt : Runtime Epollet.Et} (h : Epollet.RoutedInv rt) : Awaited rt := by
  intro _ e evts er hp hptr hx
  have hmem : e ∈ rt.phase.evts := by
    rw [hp]
    exact List.mem_cons_self
  obtain ⟨c, _, hc, _⟩ := h.routed.waiting e hmem er hptr
  cases hx.symm.trans hc

/-- Over each poller every event of every batch is delivered once, and in the order of the
reports: one for a listener by accepting on it, and one for a routine by resuming it with the
events that fired. What is not delivered yet is left of the last batch. -/
theorem events_delivered_once :
    (∀ s, Lib.Reachable (fun s => Initial (fun _ => none) s.1 ∧ s.2 = [])
        (Lib.logged (step efEpoll) notices) (fun s a => s.1.usesOwn a = true) s →
      Delivered s.1 s.2) ∧
    (∀ s, Lib.Reachable (fun s => Pollsys.Starts s.1 ∧ s.2 = [])
        (Lib.logged (step Pollsys.efPollPs) notices) (fun s a => Pollsys.Disciplined s.1 a) s →
      Delivered s.1 s.2) ∧
    (∀ s, Lib.Reachable (fun s => Initial (fun _ => none) s.1 ∧ s.2 = [])
        (Lib.logged (step Port.efPort) notices) (fun s a => s.1.usesOwn a = true) s →
      Delivered s.1 s.2) ∧
    ∀ s, Lib.Reachable (fun s => Epollet.Starts s.1 ∧ s.2 = [])
        (Lib.logged Epollet.etStep etNotices) (fun s act => Epollet.quietGuard s.1 act) s →
      Delivered s.1 s.2 := by
  refine ⟨fun s h => ?_, fun s h => ?_, fun s h => ?_, fun s h => ?_⟩
  · exact (delivered_run (fun _ => Initial.evts) (fun _ h => (inv_invariant.holds h).awaited)
      Delivered.step h).2
  · refine (delivered_run (fun rt h₀ => ?_) (fun _ => awaited_pollsys) Delivered.step h).2
    obtain ⟨p, _, hl⟩ := h₀.listening
    exact hl.initial.evts
  · exact (delivered_run (fun _ => Initial.evts)
      (fun _ h => awaited_port (Port.inv_invariant.holds h)) Delivered.step h).2
  · refine (delivered_run (fun rt h₀ => ?_)
      (fun _ h => awaited_epollet (Epollet.RoutedInv.holds h)) delivered_etStep h).2
    obtain ⟨p, _, hinit⟩ := h₀
    exact hinit.evts

/-- Behind the first routine of a batch of two, one of the two events is left. -/
theorem events_delivered_once_two : ∃ s, Lib.run (Lib.logged (step efEpoll) notices)
      (fun s a => s.1.usesOwn a = true) (oneListener fun _ => none, []) batchOfTwo = some s ∧
    s.2.filterMap Notice.delivery? = [.accepts 100, .resumes 1000 efPollin] ∧
    Delivered s.1 s.2 := by
  have hrun : (Lib.run (Lib.logged (step efEpoll) notices) (fun s a => s.1.usesOwn a = true)
      (oneListener fun _ => none, []) batchOfTwo).map
        (fun s => s.2.filterMap Notice.delivery?) =
      some [.accepts 100, .resumes 1000 efPollin] := by decide
  obtain ⟨s, hr, hlog⟩ := Option.map_eq_some_iff.mp hrun
  have h₀ : Lib.Reachable (fun s => Initial (fun _ => none) s.1 ∧ s.2 = [])
      (Lib.logged (step efEpoll) notices) (fun s a => s.1.usesOwn a = true)
      (oneListener fun _ => none, []) := .init ⟨oneListener_initial _, rfl⟩
  exact ⟨s, hr, hlog, events_delivered_once.1 s (h₀.run hr)⟩

end Runtime

end EFramework
