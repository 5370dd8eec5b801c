import EFramework.Epollet.Wakeups

/-! # What is registered

The index of the poller and the epoll set of the kernel agree as long as no
`EPOLL_CTL_ADD` fails, and no descriptor that has an item is closed without being
dissociated for good. A failed `EPOLL_CTL_ADD` leaves the item in, and so does the
closing of the listeners.
-/

namespace EFramework.Epollet

open EFramework.Runtime (Base oneListener oneListener_initial)

/-! ## Calls -/

def addsOk (s : Et × (Nat → Bool)) : PollCall (List (Nat × Nat)) → Bool
  | .associate fd _ _ _ ok => !callsAdd s.1.ep fd (s.1.mem 0) || ok
  | _ => true

/-- What is closed by `close` alone has no item. -/
def closesOk (s : Et × (Nat → Bool)) : PollCall (List (Nat × Nat)) → Bool
  | .close fd => !s.2 fd || (s.1.ep.table.items fd).isNone
  | _ => true

def Entry.Registered (x : Entry) : Prop :=
  x.item.isSome = true → x.opened = true ∧ x.watched = true

variable {rt rt' : Runtime Et} {s s' : Et × (Nat → Bool)} {c : PollCall (List (Nat × Nat))}

/-- A call that does not add a descriptor without an item leaves it without one. -/
theorem Ok.associate_none (h : Ok s.1.ep) (hcap : 0 < s.1.ep.cap) {fd events : Nat}
    {ptr : PollPtr} {ok : Bool} (hno : callsAdd s.1.ep fd (s.1.mem 0) = false)
    (hi : s.1.ep.table.items fd = none) :
    (s.1.associate fd events ptr ok).2.ep.table.items fd = none := by
  obtain ⟨_, ht, _, hroom⟩ := h.makeRoom hcap fd (s.1.mem 0)
  have hret : (Epollet.makeRoom s.1.ep fd (s.1.mem 0)).1 < 0 := by
    by_contra hret
    have hret := Int.not_lt.mp hret
    have hneg := (items_eq_none (hroom hret)).mp (ht ▸ hi)
    have hadd := decide_eq_true (p := 0 ≤ _ ∧ _ < 0) ⟨hret, hneg⟩
    cases hno.symm.trans hadd
  unfold Et.associate
  dsimp only
  rw [efEpollAssociate_eq, if_pos hret]
  exact ht ▸ hi

/-- Each case but a failed `EPOLL_CTL_ADD` and a plain `close` keeps the agreement. -/
theorem Entry.Registered.step {x x' : Entry} {fd : Nat} (h : x.Registered) (hs : x.Step fd c x')
    (hadd : ∀ events ptr fired ok, c = .associate fd events ptr fired ok → x.item = none →
      x'.item.isSome = true → x'.opened = true ∧ x'.watched = true)
    (hclose : c = .close fd → x.opened = true → x.item = none) : x'.Registered := by
  cases hs with
  | same => exact h
  | added hi _ => exact fun hsome => hadd _ _ _ _ rfl hi hsome
  | addFailed hi _ => exact fun hsome => hadd _ _ _ _ rfl hi hsome
  | again hi => exact fun _ => h (by rw [hi]; rfl)
  | dissociate => exact fun hsome => h (Option.isSome_map.symm.trans hsome)
  | unset => exact fun hsome => h (Option.isSome_map.symm.trans hsome)
  | fired _ => exact fun hsome => h (Option.isSome_map.symm.trans hsome)
  | opened => exact fun hsome => ⟨rfl, (h hsome).2⟩
  | close ho =>
      intro hsome
      rw [show x.item = none from hclose rfl ho] at hsome
      cases hsome
  | routineClose _ => exact fun hsome => by cases hsome
  | routineCloseNone _ _ => exact fun hsome => by cases hsome

theorem Keeps.registered_call (hk : Keeps s) (h : ∀ fd, ((view s).entry fd).Registered)
    (ho : c.addsOpen s = true) (hadd : addsOk s c = true) (hclose : closesOk s c = true)
    (hs : c.step efEpollEt s = some s') (fd : Nat) : ((view s').entry fd).Registered := by
  have hentry := (hk.ok.call hk.cap hs).2.2.entry fd
  refine (h fd).step hentry (fun events ptr fired ok hc hi hsome => ?_) (fun hc hopen => ?_)
  · subst hc
    cases hs
    have hcalls : callsAdd s.1.ep fd (s.1.mem 0) = true := by
      by_contra hno
      rw [Bool.not_eq_true] at hno
      have hnone : (s.1.associate fd events ptr ok).2.ep.table.items fd = none :=
        hk.ok.associate_none hk.cap hno hi
      have hsome : ((s.1.associate fd events ptr ok).2.ep.table.items fd).isSome = true := hsome
      rw [hnone] at hsome
      cases hsome
    have hw : s.1.kern.watched fd = false := (hk.kept fd).watched_of_none hi
    unfold addsOk at hadd
    dsimp only at hadd
    rw [hcalls, Bool.not_true, Bool.false_or] at hadd
    subst hadd
    refine ⟨ho, ?_⟩
    change (if callsAdd s.1.ep fd (s.1.mem 0) && (true && !s.1.kern.watched fd) then
      s.1.kern.add fd else s.1.kern).watched fd = true
    rw [hcalls, hw]
    exact Function.update_self _ _ _
  · subst hc
    have hopen : s.2 fd = true := hopen
    unfold closesOk at hclose
    dsimp only at hclose
    rw [hopen, Bool.not_true, Bool.false_or, Option.isNone_iff_eq_none] at hclose
    exact hclose

/-! ## Runs -/

def callsGood (good : Et × (Nat → Bool) → PollCall (List (Nat × Nat)) → Bool) (rt : Runtime Et) :
    EtAct → Prop
  | .run a =>
      Lib.Permits (PollCall.step efEpollEt) (fun s c => good s c = true) rt.polled (rt.calls a)
  | .change _ _ _ _ => True

instance (good : Et × (Nat → Bool) → PollCall (List (Nat × Nat)) → Bool) (rt : Runtime Et)
    (act : EtAct) : Decidable (callsGood good rt act) := by
  cases act with
  | run a => exact Lib.decidablePermits _ _
  | change fd d level edge => exact isTrue trivial

structure Agrees (rt : Runtime Et) : Prop where
  base : Base rt
  keeps : Keeps rt.polled
  registered : ∀ fd, (entryOf rt fd).Registered

theorem registered_changed {fd : Nat} (h : (entryOf rt fd).Registered) (fd' : Nat) (d : Dir)
    (level : Nat) (edge : Bool) : (entryOf (changed rt fd' d level edge) fd).Registered := h

theorem Agrees.run (h : Agrees rt) {a : Runtime.Act (List (Nat × Nat))}
    (hg : rt.addsOpen a = true) (hadd : callsGood addsOk rt (.run a))
    (hclose : callsGood closesOk rt (.run a)) (hs : Runtime.step efEpollEt rt a = some rt') :
    ∀ fd, (entryOf rt' fd).Registered := by
  refine (((Runtime.addsOpen_calls hg hs).and (hadd.and hclose)).keeps
    (fun s => Keeps s ∧ ∀ fd, ((view s).entry fd).Registered) (fun h₀ hc hs => ?_)
    ⟨h.keeps, h.registered⟩ (Runtime.step_calls hs)).2
  exact ⟨h₀.1.call hc.1 hs, h₀.1.registered_call h₀.2 hc.1 hc.2.1 hc.2.2 hs⟩

theorem Agrees.step (h : Agrees rt) {act : EtAct} (hg : answers rt act = true)
    (hadd : callsGood addsOk rt act) (hclose : callsGood closesOk rt act)
    (hs : etStep rt act = some rt') : Agrees rt' := by
  obtain ⟨hb, hk⟩ := Keeps.step h.base h.keeps hg hs
  refine ⟨hb, hk, fun fd => ?_⟩
  rcases etStep_cases hs with ⟨a, rt₁, rfl, h₁, rfl⟩ | ⟨fd', d, level, edge, rfl, rfl⟩
  · have hone := h.run (addsOpen_of_answers hg) hadd hclose h₁ fd
    rcases taken_cases rt a rt₁ with he | ⟨_, _, _, _, fd', _, he⟩
    · rw [he]
      exact hone
    · rw [he]
      exact registered_changed hone fd' _ _ _
  · exact registered_changed (h.registered fd) fd' d level edge

theorem Agrees.starts (h : Starts rt) : Agrees rt := by
  obtain ⟨hb, hk⟩ := Keeps.starts h
  refine ⟨hb, hk, fun fd hsome => ?_⟩
  obtain ⟨p, ⟨hc, _⟩, hinit⟩ := h
  have hnone : (entryOf rt fd).item = none := by
    unfold entryOf Runtime.polled
    rw [hinit.p]
    exact congrFun (congrArg Table.items hc.table) fd
  rw [hnone] at hsome
  cases hsome

/-- As long as each `EPOLL_CTL_ADD` succeeds and what is closed by `close` alone has no item,
each descriptor with an index is open and in the epoll set, and one that is associated without
`EPOLL_CTL_ADD` is in it. -/
theorem registration_agrees {rt : Runtime Et}
    (h : Lib.Reachable Starts etStep (fun rt act => answers rt act = true ∧
      callsGood addsOk rt act ∧ callsGood closesOk rt act) rt) :
    (∀ fd, fd < rt.p.ep.cap → 0 ≤ rt.p.ep.index fd →
      rt.isOpen fd = true ∧ rt.p.kern.watched fd = true) ∧
    ∀ fd events ptr ok, callsAdd rt.p.ep fd (rt.p.mem 0) = false →
      0 ≤ (rt.p.associate fd events ptr ok).1 →
      (rt.p.associate fd events ptr ok).2.kern.watched fd = true := by
  have hinv : Agrees rt :=
    Lib.Invariant.holds ⟨fun h₀ => .starts h₀, fun h₀ hg hs => h₀.step hg.1 hg.2.1 hg.2.2 hs⟩ h
  refine ⟨fun fd hfd hi => hinv.registered fd ?_, fun fd events ptr ok hno hret => ?_⟩
  · rw [show (entryOf rt fd).item = _ from items_of hfd hi]
    rfl
  · have hsome : (entryOf rt fd).item.isSome = true := by
      by_contra hnone
      rw [Option.not_isSome_iff_eq_none] at hnone
      obtain ⟨item, hi, _⟩ := hinv.keeps.ok.associate_awaits (s := rt.polled) hinv.keeps.cap hret
      have hstill : (rt.polled.1.associate fd events ptr ok).2.ep.table.items fd = none :=
        hinv.keeps.ok.associate_none hinv.keeps.cap hno hnone
      cases hstill.symm.trans hi
    have hw := (hinv.registered fd hsome).2
    change (if callsAdd rt.p.ep fd (rt.p.mem 0) && _ then _ else rt.p.kern).watched fd = true
    rw [hno]
    exact hw

theorem registration_agrees_read : ∃ rt,
    Lib.run etStep (fun rt act => answers rt act = true ∧ callsGood addsOk rt act ∧
      callsGood closesOk rt act) (oneListener smallEt)
      (acceptsOne ++ [.run (.transfer .read 5 true 0)]) = some rt ∧
    rt.isOpen 5 = true ∧ rt.p.kern.watched 5 = true := by
  have hrun : (Lib.run etStep (fun rt act => answers rt act = true ∧ callsGood addsOk rt act ∧
      callsGood closesOk rt act) (oneListener smallEt)
      (acceptsOne ++ [.run (.transfer .read 5 true 0)])).map
      (fun rt => (rt.p.ep.cap, rt.p.ep.index 5)) = some (128, 1) := by decide
  obtain ⟨rt, hr, he⟩ := Option.map_eq_some_iff.mp hrun
  obtain ⟨hcap, hi⟩ := Prod.mk.inj he
  have hinit : Lib.Reachable Starts etStep (fun rt act => answers rt act = true ∧
      callsGood addsOk rt act ∧ callsGood closesOk rt act) (oneListener smallEt) :=
    .init smallEt_starts
  exact ⟨rt, hr, (registration_agrees (hinit.run hr)).1 5 (by rw [hcap]; decide)
    (by rw [hi]; decide)⟩

/-- `EPOLL_CTL_ADD` fails, and the next transfer does without. -/
def addFails : List EtAct :=
  acceptsOne ++ [.run (.transfer .read 5 false 12), .run (.transfer .read 5 true 0)]

/-- While a routine waits the listener is closed, and the routine is given its number. -/
def numberReused : List EtAct :=
  acceptsOne ++ [.run (.transfer .read 5 true 0), .run .started, .run (.queue none),
    .run (.queue none), .run .stop,
    .run (.exitQueue (fun _ => true) (fun _ => false) (fun _ => false)),
    .change 5 .input 1 true, .run (.wait [(5, 1)]), .run .event, .run (.wake 0),
    .run (.transferred 1 0), .run (.dissociate true), .run (.socket 3),
    .run (.transfer .read 3 true 0)]

/-- Without either condition a routine comes to wait on a descriptor that the kernel does not
watch. -/
theorem registration_lost :
    (¬ ∀ rt, Lib.Reachable Starts etStep (fun rt act => answers rt act = true ∧
      callsGood closesOk rt act) rt → ∀ fd, fd < rt.p.ep.cap → 0 ≤ rt.p.ep.index fd →
        rt.isOpen fd = true ∧ rt.p.kern.watched fd = true) ∧
    ¬ ∀ rt, Lib.Reachable Starts etStep (fun rt act => answers rt act = true ∧
      callsGood addsOk rt act) rt → ∀ fd, fd < rt.p.ep.cap → 0 ≤ rt.p.ep.index fd →
        rt.isOpen fd = true ∧ rt.p.kern.watched fd = true := by
  constructor
  · intro h
    have hrun : (Lib.run etStep (fun rt act => answers rt act = true ∧
        callsGood closesOk rt act) (oneListener smallEt) addFails).map
        (fun rt => ((rt.routines 300).pc, rt.p.ep.cap, rt.p.ep.index 5, rt.p.kern.watched 5)) =
        some (.waiting (.transfer .read 5) 0, 128, 1, false) := by decide
    obtain ⟨rt, hr, he⟩ := Option.map_eq_some_iff.mp hrun
    simp only [Prod.mk.injEq] at he
    obtain ⟨_, hcap, hi, hw⟩ := he
    have hinit : Lib.Reachable Starts etStep (fun rt act => answers rt act = true ∧
        callsGood closesOk rt act) (oneListener smallEt) := .init smallEt_starts
    have hwatched := (h rt (hinit.run hr) 5 (by omega) (by omega)).2
    cases hw.symm.trans hwatched
  · intro h
    have hrun : (Lib.run etStep (fun rt act => answers rt act = true ∧
        callsGood addsOk rt act) (oneListener smallEt) numberReused).map
        (fun rt => ((rt.routines 300).pc, rt.p.ep.cap, rt.p.ep.index 3, rt.p.kern.watched 3)) =
        some (.waiting (.transfer .read 3) 0, 128, 1, false) := by decide
    obtain ⟨rt, hr, he⟩ := Option.map_eq_some_iff.mp hrun
    simp only [Prod.mk.injEq] at he
    obtain ⟨_, hcap, hi, hw⟩ := he
    have hinit : Lib.Reachable Starts etStep (fun rt act => answers rt act = true ∧
        callsGood addsOk rt act) (oneListener smallEt) := .init smallEt_starts
    have hwatched := (h rt (hinit.run hr) 3 (by omega) (by omega)).2
    cases hw.symm.trans hwatched

end EFramework.Epollet
