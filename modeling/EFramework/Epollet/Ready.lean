import EFramework.Epollet.Run

/-! # The filled area

The filled area holds the items that something is to be reported for. Each call
tests this for its own item only, and the items of the others are not touched.
-/

namespace EFramework.Epollet

open Lib (and_ne_zero_mono)

/-! ## Masks -/

namespace EfEpollItem

variable {item : EfEpollItem}

/-- What is due to an item that awaits nothing is due whatever it awaits. -/
theorem mask_of_idle (h : item.mask ≠ 0) (hw : item.waiting = 0) (events : Nat) (ptr : PollPtr) :
    EfEpollItem.mask { item with waiting := events, ptr := ptr } ≠ 0 := by
  apply and_ne_zero_mono h
  · intro i hi
    rw [hw, Nat.zero_or] at hi
    rw [Nat.or_assoc, Nat.testBit_or, hi, Bool.or_true]
  · exact fun _ hi => hi

theorem mask_fire (h : item.mask ≠ 0) (events : Nat) : (item.fire events).mask ≠ 0 := by
  apply and_ne_zero_mono h
  · exact fun _ hi => hi
  · intro i hi
    unfold fire
    rw [Nat.testBit_or, hi, Bool.true_or]

theorem mask_of_unset {events : Nat} (h : (item.unset events).mask ≠ 0) : item.mask ≠ 0 := by
  apply and_ne_zero_mono h
  · exact fun _ hi => hi
  · intro i hi
    unfold unset at hi
    rw [Lib.testBit_clearBits, Bool.and_eq_true] at hi
    exact hi.1

end EfEpollItem

/-! ## The table -/

/-- What is in the filled area has a mask, and all that awaits something and has one is in it. -/
structure Ready (t : Table) : Prop where
  mask : ∀ fd ∈ t.filled, ∃ item, t.items fd = some item ∧ item.mask ≠ 0
  filled : ∀ fd item, t.items fd = some item → item.waiting ≠ 0 → item.mask ≠ 0 → fd ∈ t.filled

/-- The calls of the framework: the kernel takes the descriptor, and nothing else is awaited. -/
def callerOk (t : Table) : Op → Bool
  | .associate fd events _ _ ok =>
      ok && (t.items fd).all (fun item => item.waiting = 0 ∨ item.waiting = events)
  | _ => true

variable {t t' : Table} {fd : Nat}

theorem callerOk_associate {events : Nat} {ptr : PollPtr} {mem : Realloc} {ok : Bool}
    (h : callerOk t (.associate fd events ptr mem ok) = true) :
    ok = true ∧ ∀ item, t.items fd = some item → item.waiting = 0 ∨ item.waiting = events := by
  unfold callerOk at h
  rw [Bool.and_eq_true] at h
  refine ⟨h.1, fun item hitem => ?_⟩
  rw [hitem] at h
  exact of_decide_eq_true h.2

theorem Ready.empty : Ready ⟨fun _ => none, ∅⟩ where
  mask := fun _ hfd => absurd hfd (Set.notMem_empty _)
  filled := fun _ _ hitem => by cases hitem

/-- A descriptor in the filled area stays due when it is associated. -/
theorem Ready.mask_associated (h : Ready t) {events : Nat} (ptr : PollPtr)
    (hcaller : ∀ item, t.items fd = some item → item.waiting = 0 ∨ item.waiting = events)
    (hfd : fd ∈ t.filled) : (t.associated fd events ptr).mask ≠ 0 := by
  obtain ⟨item, hitem, hm⟩ := h.mask fd hfd
  unfold Table.associated
  rw [hitem]
  rcases hcaller item hitem with hw | rfl
  · exact item.mask_of_idle hm hw events ptr
  · exact hm

theorem Ready.associate (h : Ready t) {events : Nat} {ptr : PollPtr}
    (hcaller : ∀ item, t.items fd = some item → item.waiting = 0 ∨ item.waiting = events) :
    Ready (t.associate fd events ptr true) := by
  refine ⟨fun a ha => ?_, fun a item hitem hw hm => ?_⟩
  · by_cases he : a = fd
    · subst he
      refine ⟨_, Function.update_self _ _ _, ?_⟩
      rcases ha with ⟨_, hm, _⟩ | ha
      · exact hm
      · exact h.mask_associated ptr hcaller ha
    · rcases ha with ⟨he', _⟩ | ha
      · exact absurd he' he
      · obtain ⟨item, hitem, hm⟩ := h.mask a ha
        exact ⟨item, (Function.update_of_ne he _ _).trans hitem, hm⟩
  · by_cases he : a = fd
    · subst he
      have hnew := (Function.update_self _ _ _).symm.trans hitem
      cases hnew
      exact Or.inl ⟨rfl, hm, fun _ => rfl⟩
    · exact Or.inr (h.filled a item ((Function.update_of_ne he _ _).symm.trans hitem) hw hm)

/-- A call that takes a descriptor out of the filled area, and lets its item await nothing. -/
theorem Ready.leave (h : Ready t) {item : Option EfEpollItem}
    (hitem : ∀ i, item = some i → i.waiting = 0) :
    Ready ⟨Function.update t.items fd item, {a | a ∈ t.filled ∧ a ≠ fd}⟩ := by
  refine ⟨fun a ha => ?_, fun a i hi hw hm => ?_⟩
  · obtain ⟨i, hi, hm⟩ := h.mask a ha.1
    exact ⟨i, (Function.update_of_ne ha.2 _ _).trans hi, hm⟩
  · by_cases he : a = fd
    · subst he
      exact absurd (hitem i ((Function.update_self a item t.items).symm.trans hi)) hw
    · exact ⟨h.filled a i ((Function.update_of_ne he _ _).symm.trans hi) hw hm, he⟩

theorem Ready.unset (h : Ready t) (events : Nat) : Ready (t.unset fd events) := by
  refine ⟨fun a ha => ?_, fun a i hi hw hm => ?_⟩
  · obtain ⟨hfilled, hmask⟩ := ha
    obtain ⟨i, hi, hm⟩ := h.mask a hfilled
    by_cases he : a = fd
    · subst he
      refine ⟨i.unset events, (Function.update_self _ _ _).trans ?_, hmask rfl i hi⟩
      rw [hi]
      rfl
    · exact ⟨i, (Function.update_of_ne he _ _).trans hi, hm⟩
  · by_cases he : a = fd
    · subst he
      have hnew := (Function.update_self _ _ _).symm.trans hi
      obtain ⟨item, hitem, rfl⟩ := Option.map_eq_some_iff.mp hnew
      refine ⟨h.filled a item hitem hw (EfEpollItem.mask_of_unset hm), fun _ i hi' => ?_⟩
      rw [hitem] at hi'
      cases hi'
      exact hm
    · exact ⟨h.filled a i ((Function.update_of_ne he _ _).symm.trans hi) hw hm,
        fun he' => absurd he' he⟩

theorem Ready.fire (h : Ready t) (report : Nat × Nat) : Ready (t.fire report) := by
  refine ⟨fun a ha => ?_, fun a i hi hw hm => ?_⟩
  · by_cases he : a = report.1
    · have hmask : ∃ item, t.items a = some item ∧ (item.fire report.2).mask ≠ 0 := by
        rcases ha with ⟨_, item, hitem, hm⟩ | ha
        · exact ⟨item, he ▸ hitem, hm⟩
        · obtain ⟨item, hitem, hm⟩ := h.mask a ha
          exact ⟨item, hitem, item.mask_fire hm report.2⟩
      obtain ⟨item, hitem, hm⟩ := hmask
      refine ⟨item.fire report.2, ?_, hm⟩
      unfold Table.fire
      dsimp only
      rw [he, Function.update_self, ← he, hitem]
      rfl
    · rcases ha with ⟨he', _⟩ | ha
      · exact absurd he' he
      · obtain ⟨i, hi, hm⟩ := h.mask a ha
        exact ⟨i, (Function.update_of_ne he _ _).trans hi, hm⟩
  · by_cases he : a = report.1
    · subst he
      have hnew := (Function.update_self _ _ _).symm.trans hi
      obtain ⟨item, hitem, rfl⟩ := Option.map_eq_some_iff.mp hnew
      exact Or.inl ⟨rfl, item, hitem, hm⟩
    · exact Or.inr (h.filled a i ((Function.update_of_ne he _ _).symm.trans hi) hw hm)

theorem Ready.fires (h : Ready t) (report : List (Nat × Nat)) :
    Ready (report.foldl Table.fire t) := by
  induction report generalizing t with
  | nil => exact h
  | cons r report ih => exact ih (h.fire r)

theorem Ready.step (h : Ready t) {op : Op} (hcaller : callerOk t op = true) (hs : t.Step op t') :
    Ready t' := by
  cases hs with
  | full _ _ => exact h
  | associate =>
      obtain ⟨rfl, hw⟩ := callerOk_associate hcaller
      exact h.associate hw
  | remove => exact h.leave (fun _ hi => by cases hi)
  | dissociate =>
      refine h.leave (fun i hi => ?_)
      obtain ⟨_, _, rfl⟩ := Option.map_eq_some_iff.mp hi
      rfl
  | unset => exact h.unset _
  | ready _ => exact h
  | asked _ => exact h.fires _

/-! ## Runs -/

/-- In every state the filled area holds only items with something to report, and all of those
that await something; `ef_epoll_wait` reports just these, and `ef_epoll_associate` returns 1 for a
descriptor that is in it. -/
theorem filled_is_ready {ep : EfEpoll}
    (h : Lib.Reachable Created step (fun ep op => callerOk ep.table op = true) ep) :
    (∀ i, 0 ≤ i → i < ep.fill → (ep.items i).mask ≠ 0) ∧
    (∀ fd item, ep.table.items fd = some item → item.waiting ≠ 0 → item.mask ≠ 0 →
      0 ≤ ep.index fd ∧ ep.index fd < ep.fill) ∧
    (∀ report count evts ep', efEpollWait ep report count = some (evts, ep') →
      (∀ e ∈ evts, e.events ≠ 0) ∧
      (ep'.fill ≤ count → ∀ fd item, ep'.table.items fd = some item → item.waiting ≠ 0 →
        item.mask ≠ 0 → event item ∈ evts)) ∧
    ∀ fd events ptr mem, callerOk ep.table (.associate fd events ptr mem true) = true →
      ((efEpollAssociate ep fd events ptr mem true).1 = 1 ↔
        (efEpollAssociate ep fd events ptr mem true).2.Filled fd) := by
  have hinv : Lib.Invariant Created step (fun ep op => callerOk ep.table op = true)
      (fun ep => (Ok ep ∧ 0 < ep.cap) ∧ Ready ep.table) := by
    refine ⟨fun h₀ => ⟨⟨h₀.ok, h₀.spec.2.2.1⟩, h₀.table ▸ .empty⟩, fun h₀ hg hs => ?_⟩
    obtain ⟨⟨hok, hpos⟩, hr⟩ := h₀
    obtain ⟨hok', hcap, ht⟩ := hok.step hpos hs
    exact ⟨⟨hok', by omega⟩, hr.step hg ht⟩
  obtain ⟨⟨hok, hpos⟩, hr⟩ := hinv.holds h
  refine ⟨fun i h₀ h₁ => ?_, fun fd item hitem hw hm => ?_, fun report count evts ep' hwait => ?_,
    fun fd events ptr mem hcaller => ?_⟩
  · have hle := hok.fill_le
    have hslot := hok.slots.slot i h₀ (by omega) (by omega)
    obtain ⟨item, hitem, hm⟩ := hr.mask (ep.items i).fd ⟨hslot.1, by omega, by omega⟩
    rw [items_of hslot.1 (by omega), hslot.2] at hitem
    cases hitem
    exact hm
  · exact (hr.filled fd item hitem hw hm).2
  · have hwaited := hok.wait hwait
    have hr' : Ready ep'.table := by
      rcases hwaited.table with ⟨_, ht⟩ | ⟨_, ht⟩
      · rw [ht]
        exact hr.fires report
      · rw [ht]
        exact hr
    refine ⟨fun e he => ?_, fun hcount fd item hitem hw hm => ?_⟩
    · obtain ⟨fd, hfd, item, hitem, _, rfl⟩ := hwaited.events e he
      obtain ⟨item', hitem', hm⟩ := hr'.mask fd hfd
      rw [hitem] at hitem'
      cases hitem'
      exact hm
    · exact hwaited.all hcount fd (hr'.filled fd item hitem hw hm) item hitem
  · obtain ⟨_, hw⟩ := callerOk_associate hcaller
    obtain ⟨_, ⟨hfd, hret, hok', ht⟩ | ha⟩ := hok.associate hpos fd events ptr mem true
    · have hno : fd ∉ (efEpollAssociate ep fd events ptr mem true).2.table.filled := by
        rw [ht]
        exact not_filled (fun hc => absurd hc (Nat.not_lt.mpr hfd))
      rw [hret]
      exact ⟨fun hc => absurd hc (by decide), fun hc => absurd hc hno⟩
    · have hfilled : (efEpollAssociate ep fd events ptr mem true).2.Filled fd ↔
          (ep.table.associated fd events ptr).mask ≠ 0 ∨ fd ∈ ep.table.filled := by
        change fd ∈ (efEpollAssociate ep fd events ptr mem true).2.table.filled ↔ _
        rw [ha.table]
        simp [Table.associate]
      have hnew : ¬ (ep.table.items fd = none ∧ true = false) := fun hc => by cases hc.2
      rw [ha.ret, if_neg hnew, hfilled]
      constructor
      · intro hret
        by_contra hno
        rw [if_neg (fun hm => hno (Or.inl hm))] at hret
        cases hret
      · intro hin
        exact if_pos (hin.elim id (hr.mask_associated ptr hw))

/-- A descriptor hangs up while nothing is awaited on it, and is associated again. -/
def hungUp : List Op :=
  [.associate 5 efPollin (.routine 1) ⟨true, true, true⟩ true,
    .associate 6 efPollin (.routine 2) ⟨true, true, true⟩ true, .dissociate 5 false true,
    .wait [(6, efPollin), (5, efPollhup)] 8, .unset 6 efPollin]

theorem filled_is_ready_again : ∃ ep,
    Lib.run step (fun ep op => callerOk ep.table op = true) small hungUp = some ep ∧
    ep.fill = 1 ∧ (ep.items 0).mask ≠ 0 ∧
    (efEpollAssociate ep 5 efPollin (.routine 3) ⟨true, true, true⟩ true).2.Filled 5 := by
  have hrun : (Lib.run step (fun ep op => callerOk ep.table op = true) small hungUp).map
      (fun ep => (ep.fill, (efEpollAssociate ep 5 efPollin (.routine 3) ⟨true, true, true⟩ true).1,
        callerOk ep.table (.associate 5 efPollin (.routine 3) ⟨true, true, true⟩ true))) =
      some (1, 1, true) := by decide
  obtain ⟨ep, hr, he⟩ := Option.map_eq_some_iff.mp hrun
  simp only [Prod.mk.injEq] at he
  obtain ⟨hfill, hret, hcaller⟩ := he
  have hinit : Lib.Reachable Created step (fun ep op => callerOk ep.table op = true) small :=
    .init small_created
  obtain ⟨hmask, _, _, hassoc⟩ := filled_is_ready (hinit.run hr)
  exact ⟨ep, hr, hfill, hmask 0 (Int.le_refl 0) (by omega),
    (hassoc 5 efPollin (.routine 3) ⟨true, true, true⟩ hcaller).mp hret⟩

end EFramework.Epollet
