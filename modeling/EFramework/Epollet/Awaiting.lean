import EFramework.Epollet.Framework
import EFramework.Runtime.Usage

/-! # Who awaits what

As long as routines keep to their own descriptors, the item of a descriptor says
what the routine in a wrapper on it waits for, and the items of the listeners await
connections.
-/

namespace EFramework.Epollet

open EFramework.Runtime (Act Base Uses)

/-! ## Entries -/

namespace Entry

def Awaits (x : Entry) (ptr : PollPtr) (events : Nat) : Prop :=
  ∃ item, x.item = some item ∧ item.ptr = ptr ∧ item.waiting = events

def Listens (x : Entry) : Prop := ∀ item, x.item = some item → item.waiting = efPollin

variable {x x' : Entry} {fd : Nat} {c : PollCall (List (Nat × Nat))}

theorem Step.awaited (hs : x.Step fd c x') (ht : c.touches fd = false) {item' : EfEpollItem}
    (hi : x'.item = some item') :
    ∃ item, x.item = some item ∧ item'.ptr = item.ptr ∧ item'.waiting = item.waiting := by
  cases hs with
  | same => exact ⟨item', hi, rfl, rfl⟩
  | unset =>
      obtain ⟨item, hitem, rfl⟩ := Option.map_eq_some_iff.mp hi
      exact ⟨item, hitem, rfl, rfl⟩
  | fired _ =>
      obtain ⟨item, hitem, rfl⟩ := Option.map_eq_some_iff.mp hi
      exact ⟨item, hitem, rfl, rfl⟩
  | opened => exact ⟨item', hi, rfl, rfl⟩
  | close _ => exact ⟨item', hi, rfl, rfl⟩
  | added _ _ => exact absurd (decide_eq_false_iff_not.mp ht) (not_not.mpr rfl)
  | addFailed _ _ => exact absurd (decide_eq_false_iff_not.mp ht) (not_not.mpr rfl)
  | again _ => exact absurd (decide_eq_false_iff_not.mp ht) (not_not.mpr rfl)
  | dissociate => exact absurd (decide_eq_false_iff_not.mp ht) (not_not.mpr rfl)
  | routineClose _ => exact absurd (decide_eq_false_iff_not.mp ht) (not_not.mpr rfl)
  | routineCloseNone _ _ => exact absurd (decide_eq_false_iff_not.mp ht) (not_not.mpr rfl)

/-- An item is taken out by a call that touches it. -/
theorem Step.isSome (hs : x.Step fd c x') (ht : c.touches fd = false) (hi : x.item.isSome = true) :
    x'.item.isSome = true := by
  cases hs with
  | same => exact hi
  | unset => exact Option.isSome_map.trans hi
  | fired _ => exact Option.isSome_map.trans hi
  | opened => exact hi
  | close _ => exact hi
  | added _ _ => rfl
  | addFailed _ _ => rfl
  | again _ => rfl
  | dissociate => exact Option.isSome_map.trans hi
  | routineClose _ => exact absurd (decide_eq_false_iff_not.mp ht) (not_not.mpr rfl)
  | routineCloseNone _ _ => exact absurd (decide_eq_false_iff_not.mp ht) (not_not.mpr rfl)

theorem Awaits.step {ptr : PollPtr} {events : Nat} (h : x.Awaits ptr events)
    (hs : x.Step fd c x') (ht : c.touches fd = false) : x'.Awaits ptr events := by
  obtain ⟨item, hi, hptr, hw⟩ := h
  obtain ⟨item', hi'⟩ := Option.isSome_iff_exists.mp (hs.isSome ht (by rw [hi]; rfl))
  obtain ⟨item₀, hi₀, hptr', hw'⟩ := hs.awaited ht hi'
  cases hi.symm.trans hi₀
  exact ⟨item', hi', hptr'.trans hptr, hw'.trans hw⟩

theorem Listens.step (h : x.Listens) (hs : x.Step fd c x')
    (ht : c.touches fd = true → ∃ ptr fired ok, c = .associate fd efPollin ptr fired ok) :
    x'.Listens := by
  cases hc : c.touches fd with
  | false =>
      intro item' hi'
      obtain ⟨item, hi, _, hw⟩ := hs.awaited hc hi'
      exact hw.trans (h item hi)
  | true =>
      obtain ⟨ptr, fired, ok, rfl⟩ := ht hc
      cases hs with
      | same => exact h
      | added _ _ =>
          intro item hi
          cases hi
          rfl
      | addFailed _ _ =>
          intro item hi
          cases hi
          rfl
      | again _ =>
          intro item hi
          cases hi
          rfl

end Entry

/-- A descriptor that is associated awaits what it is associated for. -/
theorem Ok.associate_awaits {s : Et × (Nat → Bool)} (h : Ok s.1.ep) (hcap : 0 < s.1.ep.cap)
    {fd events : Nat} {ptr : PollPtr} {ok : Bool}
    (hret : 0 ≤ (s.1.associate fd events ptr ok).1) :
    ((view ((s.1.associate fd events ptr ok).2, s.2)).entry fd).Awaits ptr events := by
  obtain ⟨_, ⟨_, hneg, _⟩ | ha⟩ :=
    h.associate hcap fd events ptr (s.1.mem 0) (ok && !s.1.kern.watched fd)
  · have hneg : (s.1.associate fd events ptr ok).1 = -1 := hneg
    rw [hneg] at hret
    exact absurd hret (by decide)
  · refine ⟨s.1.ep.table.associated fd events ptr, ?_, ?_⟩
    · exact (congrFun (congrArg Table.items ha.table) fd).trans (Function.update_self _ _ _)
    · unfold Table.associated
      split <;> exact ⟨rfl, rfl⟩

/-! ## Runs -/

structure Awaiting (rt : Runtime Et) : Prop where
  routine : ∀ er c, (rt.routines er).pc.call = some c →
    (entryOf rt c.fd).Awaits (.routine er) c.interest
  listener : ∀ fd ∈ rt.listenFds, (entryOf rt fd).Listens

variable {rt rt' : Runtime Et} {a : Act (List (Nat × Nat))}

theorem Awaiting.routine_run (h : Awaiting rt) (hU : Uses rt) (hb : Base rt)
    (hk : Keeps rt.polled) (hg : rt.addsOpen a = true) (hu : rt.usesOwn a = true)
    (hs : Runtime.step efEpollEt rt a = some rt') {er : Nat} {c : Call}
    (hc : (rt'.routines er).pc.call = some c) :
    (entryOf rt' c.fd).Awaits (.routine er) c.interest := by
  rcases Runtime.step_call hs hc with ⟨hc', hcur⟩ | ⟨_, ok, hcalls, hret, _⟩
  · have htouch : ∀ c' ∈ rt.calls a, c'.touches c.fd = false := by
      intro c' hc''
      by_contra ht
      rw [Bool.not_eq_false] at ht
      have hrun := hU.calls_touch hb hu hc'' ht (hU.call er c hc')
      cases (hcur hrun c.fd c' hc'').symm.trans ht
    exact hk.entry hg hs c.fd (fun x => x.Awaits (.routine er) c.interest)
      (fun _ c' => c'.touches c.fd = false) (.of_forall (fun c' hc'' _ => htouch c' hc'') _)
      (fun _ _ _ _ ht hx h => h.step hx ht) (h.routine er c hc')
  · have hone := Runtime.step_calls hs
    rw [hcalls] at hone
    have hpolled : rt'.polled = ((rt.p.associate c.fd c.interest (.routine er) ok).2, rt.isOpen) :=
      (Option.some.inj hone).symm
    unfold entryOf
    rw [hpolled]
    exact hk.ok.associate_awaits (s := rt.polled) hk.cap hret

theorem Awaiting.listener_run (h : Awaiting rt) (hU : Uses rt) (hb : Base rt)
    (hk : Keeps rt.polled) (hg : rt.addsOpen a = true) (hu : rt.usesOwn a = true)
    (hs : Runtime.step efEpollEt rt a = some rt') {fd : Nat} (hfd : fd ∈ rt'.listenFds) :
    (entryOf rt' fd).Listens := by
  have hsame : rt'.listenFds = rt.listenFds := by
    rcases Runtime.step_listenFds hs with he | ⟨he, _⟩
    · exact he
    · rw [he] at hfd
      cases hfd
  have hmem : fd ∈ rt.listenFds := hsame ▸ hfd
  have htouch : ∀ c ∈ rt.calls a, c.touches fd = true →
      ∃ ptr fired ok, c = .associate fd efPollin ptr fired ok := by
    intro c hc ht
    unfold Runtime.calls at hc
    split at hc
    · cases hc
    next hstop hcur =>
      refine (Runtime.loopCalls_touch hb hc ht).2.resolve_right ?_
      rintro ⟨hst, del, idleStop, idle, rfl⟩
      have hexit : rt.exitQueue efEpollEt del idleStop idle = some rt' := by
        unfold Runtime.step at hs
        rw [hcur] at hs
        exact hs
      rw [Runtime.exitQueue_listenFds hst hexit] at hfd
      cases hfd
    next er _ hcur =>
      have ho := Runtime.routineCalls_touch hU hb hcur hu hc ht
      cases ho.symm.trans (hU.listener hmem)
  exact hk.entry hg hs fd Entry.Listens
    (fun _ c => c.touches fd = true → ∃ ptr fired ok, c = .associate fd efPollin ptr fired ok)
    (.of_forall (fun c hc _ => htouch c hc) _) (fun _ _ _ _ ht hx h => h.step hx ht)
    (h.listener fd hmem)

theorem Awaiting.run (h : Awaiting rt) (hU : Uses rt) (hb : Base rt) (hk : Keeps rt.polled)
    (hg : rt.addsOpen a = true) (hu : rt.usesOwn a = true)
    (hs : Runtime.step efEpollEt rt a = some rt') : Awaiting rt' where
  routine := fun _ _ hc => h.routine_run hU hb hk hg hu hs hc
  listener := fun _ hfd => h.listener_run hU hb hk hg hu hs hfd

/-! ## Changes -/

theorem item_changed (rt : Runtime Et) (fd : Nat) (d : Dir) (level : Nat) (edge : Bool) (a : Nat) :
    (entryOf (changed rt fd d level edge) a).item = (entryOf rt a).item := rfl

theorem Awaiting.changed (h : Awaiting rt) (fd : Nat) (d : Dir) (level : Nat) (edge : Bool) :
    Awaiting (changed rt fd d level edge) := by
  refine ⟨fun er c hc => ?_, fun a ha item hi => ?_⟩
  · obtain ⟨item, hi, hptr, hw⟩ := h.routine er c hc
    exact ⟨item, (item_changed rt fd d level edge c.fd).trans hi, hptr, hw⟩
  · exact h.listener a ha item ((item_changed rt fd d level edge a).symm.trans hi)

/-! ## The program and the kernel -/

def ownUses (rt : Runtime Et) : EtAct → Bool
  | .run a => rt.usesOwn a
  | .change _ _ _ _ => true

theorem Awaiting.step (h : Awaiting rt) (hU : Uses rt) (hb : Base rt) (hk : Keeps rt.polled)
    {act : EtAct} (hg : answers rt act = true) (hu : ownUses rt act = true)
    (hs : etStep rt act = some rt') : Uses rt' ∧ Awaiting rt' := by
  rcases etStep_cases hs with ⟨a, rt₁, rfl, h₁, rfl⟩ | ⟨fd, d, level, edge, rfl, rfl⟩
  · have hU₁ := hU.step hb hu h₁
    have ha₁ := h.run hU hb hk (addsOpen_of_answers hg) hu h₁
    rcases taken_cases rt a rt₁ with he | ⟨_, _, _, _, fd, _, he⟩
    · rw [he]
      exact ⟨hU₁, ha₁⟩
    · rw [he]
      exact ⟨hU₁.setPoll _, ha₁.changed fd _ _ _⟩
  · exact ⟨hU.setPoll _, h.changed fd d level edge⟩

theorem Awaiting.starts (h : Starts rt) : Uses rt ∧ Awaiting rt := by
  obtain ⟨p, ⟨hc, _⟩, hinit⟩ := h
  refine ⟨.initial hinit, fun er c hcall => ?_, fun fd _ item hi => ?_⟩
  · rw [hinit.routines er] at hcall
    cases hcall
  · have hnone : (entryOf rt fd).item = none := by
      unfold entryOf Runtime.polled
      rw [hinit.p]
      exact congrFun (congrArg Table.items hc.table) fd
    cases hnone.symm.trans hi

end EFramework.Epollet
