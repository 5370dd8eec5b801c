import EFramework.Epollet.Ready

/-! # Whom an event is delivered to

Next to the poller runs a record of who waits: the `ptr` of the last associate of
each descriptor, until it is dissociated. An item stays when its descriptor is
dissociated, and its `ptr` with it, so that a hang-up still finds the old one.
-/

namespace EFramework.Epollet

/-- The `ptr` of the last associate of each descriptor that no dissociate has followed. -/
abbrev Waiters := Nat → Option PollPtr

def Op.waiters (w : Waiters) : Op → Waiters
  | .associate fd _ ptr _ _ => Function.update w fd (some ptr)
  | .dissociate fd _ _ => Function.update w fd none
  | _ => w

def stepWaiters (s : EfEpoll × Waiters) (op : Op) : Option (EfEpoll × Waiters) :=
  (step s.1 op).map (fun ep => (ep, op.waiters s.2))

def deliveries (s : EfEpoll × Waiters) (op : Op) (_ : EfEpoll × Waiters) :
    List (Event × Option PollPtr) :=
  match op with
  | .wait report count =>
      ((efEpollWait s.1 report count).toList.flatMap Prod.fst).map (fun e => (e, s.2 e.fd))
  | _ => []

/-- No error or hang-up is cached or reported for a descriptor that nobody waits for. -/
def quietReport (t : Table) (w : Waiters) (report : Nat × Nat) : Bool :=
  (w report.1).isSome || (t.items report.1).all
    (fun item => (item.fired ||| report.2) &&& (efPollerr ||| efPollhup) = 0)

def quietOp (s : EfEpoll × Waiters) : Op → Bool
  | .wait report _ => s.1.fill ≠ 0 || report.all (quietReport s.1.table s.2)
  | _ => true

/-- What the items say about who waits. -/
structure Waits (t : Table) (w : Waiters) : Prop where
  ptr : ∀ fd item ptr, t.items fd = some item → w fd = some ptr → item.ptr = ptr
  idle : ∀ fd item, t.items fd = some item → w fd = none → item.waiting = 0
  filled : ∀ fd ∈ t.filled, (w fd).isSome

variable {t t' : Table} {w : Waiters} {fd : Nat}

theorem quietReport_iff {report : Nat × Nat} : quietReport t w report = true ↔
    (w report.1 = none → ∀ item, t.items report.1 = some item →
      (item.fired ||| report.2) &&& (efPollerr ||| efPollhup) = 0) := by
  unfold quietReport
  cases w report.1 <;> cases t.items report.1 <;> simp

theorem Waits.associate (h : Waits t w) (fd events : Nat) (ptr : PollPtr) (ok : Bool) :
    Waits (t.associate fd events ptr ok) (Function.update w fd (some ptr)) := by
  have hptr : (t.associated fd events ptr).ptr = ptr := by
    unfold Table.associated
    split <;> rfl
  refine ⟨fun a item p hitem hp => ?_, fun a item hitem hw => ?_, fun a ha => ?_⟩
  · by_cases he : a = fd
    · subst he
      rw [Function.update_self] at hp
      have hnew := (Function.update_self _ _ _).symm.trans hitem
      cases hp
      cases hnew
      exact hptr
    · rw [Function.update_of_ne he] at hp
      exact h.ptr a item p ((Function.update_of_ne he _ _).symm.trans hitem) hp
  · by_cases he : a = fd
    · subst he
      rw [Function.update_self] at hw
      cases hw
    · rw [Function.update_of_ne he] at hw
      exact h.idle a item ((Function.update_of_ne he _ _).symm.trans hitem) hw
  · by_cases he : a = fd
    · subst he
      rw [Function.update_self]
      rfl
    · rw [Function.update_of_ne he]
      exact h.filled a (ha.resolve_left fun hc => he hc.1)

/-- The arrays cannot be grown, so there is no item to speak for. -/
theorem Waits.full (h : Waits t w) (hnone : t.items fd = none) (hfd : fd ∉ t.filled)
    (ptr : PollPtr) : Waits t (Function.update w fd (some ptr)) := by
  have hne : ∀ a item, t.items a = some item → a ≠ fd := fun a item hitem he => by
    rw [he, hnone] at hitem
    cases hitem
  refine ⟨fun a item p hitem hp => ?_, fun a item hitem hw => ?_, fun a ha => ?_⟩
  · rw [Function.update_of_ne (hne a item hitem)] at hp
    exact h.ptr a item p hitem hp
  · rw [Function.update_of_ne (hne a item hitem)] at hw
    exact h.idle a item hitem hw
  · have hne : a ≠ fd := fun he => hfd (he ▸ ha)
    rw [Function.update_of_ne hne]
    exact h.filled a ha

theorem Waits.leave (h : Waits t w) {item : Option EfEpollItem}
    (hitem : ∀ i, item = some i → i.waiting = 0) :
    Waits ⟨Function.update t.items fd item, {a | a ∈ t.filled ∧ a ≠ fd}⟩
      (Function.update w fd none) := by
  refine ⟨fun a i p hi hp => ?_, fun a i hi hw => ?_, fun a ha => ?_⟩
  · by_cases he : a = fd
    · subst he
      rw [Function.update_self] at hp
      cases hp
    · rw [Function.update_of_ne he] at hp
      exact h.ptr a i p ((Function.update_of_ne he _ _).symm.trans hi) hp
  · by_cases he : a = fd
    · subst he
      exact hitem i ((Function.update_self a item t.items).symm.trans hi)
    · rw [Function.update_of_ne he] at hw
      exact h.idle a i ((Function.update_of_ne he _ _).symm.trans hi) hw
  · rw [Function.update_of_ne ha.2]
    exact h.filled a ha.1

theorem Waits.fired (h : Waits t w) {f : EfEpollItem → EfEpollItem} {filled : Set Nat}
    (hptr : ∀ item, (f item).ptr = item.ptr) (hw : ∀ item, (f item).waiting = item.waiting)
    (hfilled : ∀ a ∈ filled, (w a).isSome) :
    Waits ⟨Function.update t.items fd ((t.items fd).map f), filled⟩ w := by
  have hitem : ∀ a i, Function.update t.items fd ((t.items fd).map f) a = some i →
      ∃ item, t.items a = some item ∧ i.ptr = item.ptr ∧ i.waiting = item.waiting :=
    fun a i hi => by
      by_cases he : a = fd
      · subst he
        rw [Function.update_self] at hi
        obtain ⟨item, hitem, rfl⟩ := Option.map_eq_some_iff.mp hi
        exact ⟨item, hitem, hptr item, hw item⟩
      · rw [Function.update_of_ne he] at hi
        exact ⟨i, hi, rfl, rfl⟩
  refine ⟨fun a i p hi hp => ?_, fun a i hi hw => ?_, hfilled⟩
  · obtain ⟨item, hitem, hp', _⟩ := hitem a i hi
    rw [hp']
    exact h.ptr a item p hitem hp
  · obtain ⟨item, hitem, _, hw'⟩ := hitem a i hi
    rw [hw']
    exact h.idle a item hitem hw

theorem Waits.fire (h : Waits t w) {report : Nat × Nat} (hq : quietReport t w report = true) :
    Waits (t.fire report) w := by
  refine h.fired (fun _ => rfl) (fun _ => rfl) (fun a ha => ?_)
  rcases ha with ⟨rfl, item, hitem, hm⟩ | ha
  · cases hw : w report.1 with
    | some ptr => rfl
    | none =>
        have hzero := quietReport_iff.mp hq hw item hitem
        refine absurd ?_ hm
        unfold EfEpollItem.mask EfEpollItem.fire
        dsimp only
        rw [h.idle _ item hitem hw, Nat.zero_or, Nat.and_comm]
        exact hzero
  · exact h.filled a ha

/-- What is quiet with the cached bits is quiet with those of another report. -/
theorem quietReport_fire {r r' : Nat × Nat} (hr : quietReport t w r = true)
    (hr' : quietReport t w r' = true) : quietReport (t.fire r) w r' = true := by
  rw [quietReport_iff] at *
  intro hw item hitem
  unfold Table.fire at hitem
  dsimp only at hitem
  by_cases he : r'.1 = r.1
  · rw [he, Function.update_self] at hitem
    obtain ⟨item₀, hitem₀, rfl⟩ := Option.map_eq_some_iff.mp hitem
    have h₁ := hr (he ▸ hw) item₀ hitem₀
    have h₂ := hr' hw item₀ (he ▸ hitem₀)
    unfold EfEpollItem.fire
    dsimp only
    rw [Nat.and_or_distrib_right, Nat.or_eq_zero_iff] at h₁ h₂ ⊢
    rw [Nat.and_or_distrib_right, Nat.or_eq_zero_iff]
    exact ⟨⟨h₁.1, h₁.2⟩, h₂.2⟩
  · rw [Function.update_of_ne he] at hitem
    exact hr' hw item hitem

theorem Waits.fires (h : Waits t w) {report : List (Nat × Nat)}
    (hq : ∀ r ∈ report, quietReport t w r = true) : Waits (report.foldl Table.fire t) w := by
  induction report generalizing t with
  | nil => exact h
  | cons r report ih =>
      have hr := hq r List.mem_cons_self
      exact ih (h.fire hr) (fun r' hr' => quietReport_fire hr (hq r' (List.mem_cons_of_mem r hr')))

theorem Waits.step (h : Waits t w) {op : Op} (hs : t.Step op t')
    (hq : ∀ report count, op = .wait report count → t.filled = ∅ →
      ∀ r ∈ report, quietReport t w r = true) : Waits t' (op.waiters w) := by
  cases hs with
  | full hnone hfd => exact h.full hnone hfd _
  | associate => exact h.associate _ _ _ _
  | remove => exact h.leave (fun _ hi => by cases hi)
  | dissociate =>
      refine h.leave (fun i hi => ?_)
      obtain ⟨_, _, rfl⟩ := Option.map_eq_some_iff.mp hi
      rfl
  | unset => exact h.fired (fun _ => rfl) (fun _ => rfl) (fun a ha => h.filled a ha.1)
  | ready _ => exact h
  | asked he => exact h.fires (hq _ _ rfl he)

theorem Waits.empty : Waits ⟨fun _ => none, ∅⟩ (fun _ => none) where
  ptr := fun _ _ _ hitem => by cases hitem
  idle := fun _ _ hitem => by cases hitem
  filled := fun _ hfd => absurd hfd (Set.notMem_empty _)

theorem Waits.delivers {ep ep' : EfEpoll} (h : Waits ep'.table w) {report : List (Nat × Nat)}
    {count : Nat} {evts : List Event} (hwaited : Waited ep ep' report count evts) :
    ∀ e ∈ evts, w e.fd = some e.ptr := by
  intro e he
  obtain ⟨fd, hfd, item, hitem, rfl, rfl⟩ := hwaited.events e he
  obtain ⟨ptr, hw⟩ := Option.isSome_iff_exists.mp (h.filled _ hfd)
  change w item.fd = some item.ptr
  rw [hw, h.ptr _ item ptr hitem hw]

/-! ## Runs -/

structure Delivers (s : (EfEpoll × Waiters) × List (Event × Option PollPtr)) : Prop where
  ok : Ok s.1.1
  cap : 0 < s.1.1.cap
  waits : Waits s.1.1.table s.1.2
  log : ∀ d ∈ s.2, d.2 = some d.1.ptr

theorem Delivers.step {s s' : (EfEpoll × Waiters) × List (Event × Option PollPtr)}
    (h : Delivers s) {op : Op} (hq : quietOp s.1 op = true)
    (hs : Lib.logged stepWaiters deliveries s op = some s') : Delivers s' := by
  obtain ⟨t, ht, rfl⟩ := Lib.logged_eq_some.mp hs
  obtain ⟨ep', hep, rfl⟩ := Option.map_eq_some_iff.mp ht
  obtain ⟨hok, hcap, htable⟩ := h.ok.step h.cap hep
  have hwaits : Waits ep'.table (op.waiters s.1.2) := by
    refine h.waits.step htable (fun report count he hempty => ?_)
    subst he
    unfold quietOp at hq
    dsimp only at hq
    rw [decide_eq_false (not_not.mpr (h.ok.fill_eq_zero.mpr hempty)), Bool.false_or,
      List.all_eq_true] at hq
    exact hq
  refine ⟨hok, Nat.lt_of_lt_of_le h.cap hcap, hwaits, fun d hd => ?_⟩
  rcases List.mem_append.mp hd with hd | hd
  · exact h.log d hd
  · cases op with
    | wait report count =>
        obtain ⟨⟨evts, ep₁⟩, hwait, rfl⟩ := Option.map_eq_some_iff.mp hep
        unfold deliveries at hd
        dsimp only at hd
        rw [hwait] at hd
        obtain ⟨e, he, rfl⟩ := List.mem_map.mp hd
        exact hwaits.delivers (h.ok.wait hwait) e (by simpa using he)
    | _ => cases hd

/-- As long as no error or hang-up shows on a descriptor that nobody waits for, each event goes
to the one who waits, with the `ptr` of the last associate. -/
theorem delivered_to_waiter {s : (EfEpoll × Waiters) × List (Event × Option PollPtr)}
    (h : Lib.Reachable (fun s => (Created s.1.1 ∧ s.1.2 = fun _ => none) ∧ s.2 = [])
      (Lib.logged stepWaiters deliveries) (fun s op => quietOp s.1 op = true) s) :
    ∀ d ∈ s.2, d.2 = some d.1.ptr := by
  have hinv : Lib.Invariant
      (fun s : (EfEpoll × Waiters) × List (Event × Option PollPtr) =>
        (Created s.1.1 ∧ s.1.2 = fun _ => none) ∧ s.2 = [])
      (Lib.logged stepWaiters deliveries) (fun s op => quietOp s.1 op = true) Delivers := by
    refine ⟨fun h₀ => ?_, fun h₀ hg hs => h₀.step hg hs⟩
    obtain ⟨⟨hc, hw⟩, hlog⟩ := h₀
    refine ⟨hc.ok, hc.spec.2.2.1, ?_, fun d hd => ?_⟩
    · rw [hw, hc.table]
      exact .empty
    · rw [hlog] at hd
      cases hd
  exact (hinv.holds h).log

/-- A routine waits for a descriptor, and is done with it before it hangs up. -/
def hangsUp : List Op :=
  [.associate 5 efPollin (.routine 1) ⟨true, true, true⟩ true, .wait [(5, efPollin)] 8,
    .dissociate 5 false true, .wait [(5, efPollhup)] 8]

theorem delivered_to_waiter_once : ∃ s, Lib.run (Lib.logged stepWaiters deliveries)
      (fun s op => quietOp s.1 op = true) ((small, fun _ => none), []) (hangsUp.take 3) = some s ∧
    s.2 = [(⟨efPollin, .routine 1, 5⟩, some (.routine 1))] ∧ ∀ d ∈ s.2, d.2 = some d.1.ptr := by
  have hrun : (Lib.run (Lib.logged stepWaiters deliveries) (fun s op => quietOp s.1 op = true)
      ((small, fun _ => none), []) (hangsUp.take 3)).map Prod.snd =
      some [(⟨efPollin, .routine 1, 5⟩, some (.routine 1))] := by decide
  obtain ⟨s, hr, he⟩ := Option.map_eq_some_iff.mp hrun
  have hinit : Lib.Reachable
      (fun s : (EfEpoll × Waiters) × List (Event × Option PollPtr) =>
        (Created s.1.1 ∧ s.1.2 = fun _ => none) ∧ s.2 = [])
      (Lib.logged stepWaiters deliveries) (fun s op => quietOp s.1 op = true)
      ((small, fun _ => none), []) := .init ⟨⟨small_created, rfl⟩, rfl⟩
  exact ⟨s, hr, he, delivered_to_waiter (hinit.run hr)⟩

/-- The hang-up is delivered to a routine that does not wait. -/
theorem delivered_to_stranger :
    ¬ ∀ s, Lib.Reachable (fun s => (Created s.1.1 ∧ s.1.2 = fun _ => none) ∧ s.2 = [])
      (Lib.logged stepWaiters deliveries) (fun _ _ => True) s → ∀ d ∈ s.2, d.2 = some d.1.ptr := by
  intro h
  have hrun : (Lib.run (Lib.logged stepWaiters deliveries) (fun _ _ => True)
      ((small, fun _ => none), []) hangsUp).map Prod.snd =
      some [(⟨efPollin, .routine 1, 5⟩, some (.routine 1)),
        (⟨efPollhup, .routine 1, 5⟩, none)] := by decide
  obtain ⟨s, hr, he⟩ := Option.map_eq_some_iff.mp hrun
  have hinit : Lib.Reachable
      (fun s : (EfEpoll × Waiters) × List (Event × Option PollPtr) =>
        (Created s.1.1 ∧ s.1.2 = fun _ => none) ∧ s.2 = [])
      (Lib.logged stepWaiters deliveries) (fun _ _ => True) ((small, fun _ => none), []) :=
    .init ⟨⟨small_created, rfl⟩, rfl⟩
  have hlog := h s (hinit.run hr) (⟨efPollhup, .routine 1, 5⟩, none) (by rw [he]; decide)
  cases hlog

end EFramework.Epollet
