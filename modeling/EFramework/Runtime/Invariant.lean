import EFramework.Lib.Inverse
import EFramework.Runtime.Owners

/-! # What the runtime keeps over `epoll.c`

The epoll set and the routines are two tables of the same pairs: a descriptor is
associated with a routine exactly when the routine is in a wrapper on it. All that
the program may close is accounted for by the owners of the open descriptors.
-/

namespace EFramework

open Lib (Inverse)

/-! ## Descriptors and routines -/

def PollPtr.routine? : PollPtr → Option Nat
  | .listen _ => none
  | .routine er => some er

def Phase.evts : Phase → List Event
  | .events evts | .accept _ evts | .acceptEnd _ evts => evts
  | _ => []

def Epoll.route (ep : Epoll) (fd : Nat) : Option Nat := (ep fd).bind (fun e => e.2.routine?)

theorem Epoll.route_eq_some {ep : Epoll} {fd er : Nat} :
    ep.route fd = some er ↔ ∃ events, ep fd = some (events, .routine er) := by
  unfold route
  constructor
  · intro h
    obtain ⟨⟨events, ptr⟩, he, hptr⟩ := Option.bind_eq_some_iff.mp h
    cases ptr with
    | listen li => cases hptr
    | routine er' =>
        cases hptr
        exact ⟨events, he⟩
  · rintro ⟨events, he⟩
    rw [he]
    rfl

theorem Epoll.route_update (ep : Epoll) (fd : Nat) (e : Option (Nat × PollPtr)) :
    Epoll.route (Function.update ep fd e) =
      Function.update ep.route fd (e.bind (fun e => e.2.routine?)) := by
  funext fd'
  unfold route
  rw [Function.update_apply, Function.update_apply]
  split <;> rfl

namespace Runtime

/-- The reasons why a descriptor must be open, and who must own it. -/
inductive Claims (rt : Runtime Epoll) : Nat → Owner → Prop
  | call {er fd : Nat} : rt.callFd er = some fd → Claims rt fd (.routine er)
  | proc {er : Nat} : rt.Live er → Claims rt (rt.routines er).procFd (.routine er)
  | entry {fd events li : Nat} : rt.p fd = some (events, .listen li) → Claims rt fd .listener

theorem Claims.ne_queued {rt : Runtime Epoll} {fd : Nat} {o : Owner} (h : Claims rt fd o)
    (node : Nat) : o ≠ .queued node := by
  cases h <;> exact Owner.noConfusion

structure Routes (rt : Runtime Epoll) : Prop where
  inverse : Inverse rt.p.route rt.callFd
  pollFd : ∀ er fd, rt.callFd er = some fd → (rt.routines er).fd = fd
  owned : ∀ fd o, Claims rt fd o → rt.owner fd = some o
  batch_nodup : (rt.phase.evts.map Event.fd).Nodup
  batch_route : ∀ e ∈ rt.phase.evts, ∀ er, e.ptr = .routine er →
    rt.p.route e.fd = some er ∧ rt.current ≠ some er

variable {rt rt' : Runtime Epoll} {er fd : Nat}

theorem Routes.owner_of_entry (h : Routes rt) {e : Nat × PollPtr} (he : rt.p fd = some e) :
    (∃ er, rt.callFd er = some fd ∧ rt.owner fd = some (.routine er)) ∨
      rt.owner fd = some .listener := by
  obtain ⟨events, ptr⟩ := e
  cases ptr with
  | listen li => exact Or.inr (h.owned fd _ (.entry he))
  | routine er =>
      have hcall := (h.inverse fd er).mp (Epoll.route_eq_some.mpr ⟨events, he⟩)
      exact Or.inl ⟨er, hcall, h.owned fd _ (.call hcall)⟩

/-- A closed descriptor is not in the set. -/
theorem Routes.entry_of_closed (h : Routes rt) (ho : rt.owner fd = none) : rt.p fd = none := by
  by_contra hne
  obtain ⟨e, he⟩ := Option.ne_none_iff_exists'.mp hne
  rcases h.owner_of_entry he with ⟨er, _, ho'⟩ | ho' <;> rw [ho] at ho' <;> cases ho'

theorem Routes.entry_of_owner (h : Routes rt) (ho : rt.owner fd = some (.routine er))
    (hcall : rt.callFd er = none) : rt.p fd = none := by
  by_contra hne
  obtain ⟨e, he⟩ := Option.ne_none_iff_exists'.mp hne
  rcases h.owner_of_entry he with ⟨er', hcall', ho'⟩ | ho'
  · rw [ho] at ho'
    cases ho'
    rw [hcall] at hcall'
    cases hcall'
  · rw [ho] at ho'
    cases ho'

theorem Routes.no_claims (h : Routes rt) (ho : rt.owner fd = none) (o : Owner) :
    ¬ Claims rt fd o := by
  intro hc
  rw [h.owned fd o hc] at ho
  cases ho

theorem Routes.isFresh (h : Routes rt) (ho : rt.owner fd = none) : rt.isFresh fd = true := by
  refine List.all_eq_true.mpr (fun er _ => decide_eq_true ?_)
  by_cases hl : (rt.routines er).pc = .exited
  · exact Or.inr (Or.inl hl)
  · refine Or.inr (Or.inr ?_)
    rintro rfl
    exact h.no_claims ho _ (.proc hl)

theorem Routes.no_claims_of_owner (h : Routes rt) (er : Nat)
    (ho : rt.owner fd = some (.routine er)) (hcall : rt.callFd er = none)
    (hproc : rt.Live er → (rt.routines er).procFd ≠ fd) (o : Owner) : ¬ Claims rt fd o := by
  intro hc
  have ho' := h.owned fd o hc
  rw [ho] at ho'
  cases ho'
  cases hc with
  | call hc =>
      rw [hcall] at hc
      cases hc
  | proc hl => exact hproc hl rfl

theorem Routes.batch_ne_current (h : Routes rt) (hcur : rt.current = some er) :
    ∀ e ∈ rt.phase.evts, e.ptr ≠ .routine er :=
  fun e he hptr => (h.batch_route e he er hptr).2 hcur

/-! ## Changes that keep the invariant -/

theorem Routes.advance (h : Routes rt) (hp : rt'.p = rt.p) (hr : rt'.routines = rt.routines)
    (ho : rt'.owner = rt.owner) (hc : rt'.current = rt.current)
    (hevts : rt'.phase.evts <:+ rt.phase.evts) : Routes rt' where
  inverse := by
    have hcall : rt'.callFd = rt.callFd := by
      unfold callFd
      rw [hr]
    rw [hp, hcall]
    exact h.inverse
  pollFd := by
    unfold callFd
    rw [hr]
    exact h.pollFd
  owned := by
    rw [ho]
    rintro fd o (hcall | hl | he)
    · unfold callFd at hcall
      rw [hr] at hcall
      exact h.owned fd _ (.call hcall)
    · unfold Live at hl
      rw [hr] at hl ⊢
      exact h.owned _ _ (.proc hl)
    · rw [hp] at he
      exact h.owned fd _ (.entry he)
  batch_nodup := (hevts.map Event.fd).sublist.nodup h.batch_nodup
  batch_route := by
    rw [hp, hc]
    exact fun e he => h.batch_route e (hevts.subset he)

theorem Routes.setOwner (h : Routes rt) (fd : Nat) (hno : ∀ o, ¬ Claims rt fd o)
    (o : Option Owner) :
    Routes { rt with owner := Function.update rt.owner fd o } where
  inverse := h.inverse
  pollFd := h.pollFd
  owned := by
    intro fd' o' hc
    have hc' : Claims rt fd' o' := by
      rcases hc with hc | hl | he
      · exact .call hc
      · exact .proc hl
      · exact .entry he
    have hne : fd' ≠ fd := by
      rintro rfl
      exact hno o' hc'
    exact (Function.update_of_ne hne _ _).trans (h.owned fd' o' hc')
  batch_nodup := h.batch_nodup
  batch_route := h.batch_route

theorem Routes.setRoutine (h : Routes rt) (er : Nat) (r : Routine) (p : Epoll)
    (current : Option Nat) (hbatch : ∀ e ∈ rt.phase.evts, e.ptr ≠ .routine er)
    (hproc : r.pc ≠ .exited → rt.owner r.procFd = some (.routine er))
    (hinv : Inverse p.route (Function.update rt.callFd er (r.pc.call.map Call.fd)))
    (hcall : ∀ c, r.pc.call = some c → r.fd = c.fd ∧ rt.owner c.fd = some (.routine er))
    (hlisten : ∀ fd events li, p fd = some (events, .listen li) →
      rt.p fd = some (events, .listen li))
    (hroute : ∀ fd er', er' ≠ er → rt.p.route fd = some er' → p.route fd = some er')
    (hcur : current = some er ∨ current = none) :
    Routes { rt with
      p := p, routines := Function.update rt.routines er r, current := current } := by
  have hcallFd : ({ rt with
      p := p, routines := Function.update rt.routines er r, current := current } :
        Runtime Epoll).callFd = Function.update rt.callFd er (r.pc.call.map Call.fd) := by
    funext er'
    by_cases he : er' = er <;> simp [callFd, he]
  refine ⟨by rw [hcallFd]; exact hinv, ?_, ?_, h.batch_nodup, ?_⟩
  · intro er' fd hc
    rw [hcallFd, Function.update_apply] at hc
    by_cases he : er' = er
    · rw [if_pos he] at hc
      obtain ⟨c, hc', rfl⟩ := Option.map_eq_some_iff.mp hc
      subst he
      simpa using (hcall c hc').1
    · rw [if_neg he] at hc
      simpa [he] using h.pollFd er' fd hc
  · rintro fd o (@⟨er', _, hc⟩ | @⟨er', hl⟩ | he)
    · rw [hcallFd, Function.update_apply] at hc
      by_cases he : er' = er
      · rw [if_pos he] at hc
        obtain ⟨c, hc', rfl⟩ := Option.map_eq_some_iff.mp hc
        rw [he]
        exact (hcall c hc').2
      · rw [if_neg he] at hc
        exact h.owned fd _ (.call hc)
    · by_cases he : er' = er
      · subst he
        simpa using hproc (by simpa [Live] using hl)
      · have hl' : rt.Live er' := by simpa [Live, he] using hl
        simpa [he] using h.owned _ _ (.proc hl')
    · exact h.owned fd _ (.entry (hlisten _ _ _ he))
  · intro e he er' hptr
    have hne : er' ≠ er := by
      rintro rfl
      exact hbatch e he hptr
    refine ⟨hroute e.fd er' hne (h.batch_route e he er' hptr).1, ?_⟩
    rcases hcur with rfl | rfl
    · simpa using Ne.symm hne
    · simp

theorem Routes.setCurrent (h : Routes rt) (hb : Base rt) (hcur : rt.current = some er)
    (r : Routine) (p : Epoll) (current : Option Nat)
    (hproc : r.procFd = (rt.routines er).procFd)
    (hinv : Inverse p.route (Function.update rt.callFd er (r.pc.call.map Call.fd)))
    (hcall : ∀ c, r.pc.call = some c → r.fd = c.fd ∧ rt.owner c.fd = some (.routine er))
    (hlisten : ∀ fd events li, p fd = some (events, .listen li) →
      rt.p fd = some (events, .listen li))
    (hroute : ∀ fd er', er' ≠ er → rt.p.route fd = some er' → p.route fd = some er')
    (hcur' : current = some er ∨ current = none) :
    Routes { rt with
      p := p, routines := Function.update rt.routines er r, current := current } := by
  refine h.setRoutine er r p current (h.batch_ne_current hcur) (fun _ => ?_) hinv hcall hlisten
    hroute hcur'
  rw [hproc]
  exact h.owned _ _ (.proc (hb.live_of_current hcur))

end Runtime

end EFramework
