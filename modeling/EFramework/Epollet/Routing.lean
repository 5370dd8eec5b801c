import EFramework.Epollet.Wakeups
import EFramework.Runtime.Waiting

/-! # Whom the framework resumes

An item outlives the wrapper that it was made for, with the routine in its `ptr`. As
long as no error or hang-up is reported for an item that awaits nothing, such an item
stays out of the filled area, and each event is for the routine that waits for it.
-/

namespace EFramework.Epollet

open EFramework.Runtime (Act Base Uses oneListener)

/-! ## Entries that nobody waits for -/

namespace Entry

/-- No routine is in a wrapper on the descriptor: there is no event for one, and none will come. -/
structure Idle (x : Entry) : Prop where
  filled : x.filled → ∃ item li, x.item = some item ∧ item.ptr = .listen li
  waiting : ∀ item er, x.item = some item → item.ptr = .routine er →
    item.waiting = 0 ∨ x.watched = false

variable {x x' : Entry} {fd : Nat} {c : PollCall (List (Nat × Nat))}

theorem Idle.not_filled (h : x.Idle) (hi : x.item = none) : ¬ x.filled := by
  intro hf
  obtain ⟨item, _, hitem, _⟩ := h.filled hf
  cases hi.symm.trans hitem

/-- Nobody begins to wait but by `associate`, and no event comes but by a report. -/
theorem Idle.step (h : x.Idle) (hs : x.Step fd c x') (hwait : ∀ report, c ≠ .wait report)
    (hassoc : ∀ events er fired ok, c ≠ .associate fd events (.routine er) fired ok) :
    x'.Idle := by
  have hlisten : ∀ {events ptr fired ok}, c = .associate fd events ptr fired ok →
      ∃ li, ptr = .listen li := by
    intro events ptr fired ok hc
    cases ptr with
    | listen li => exact ⟨li, rfl⟩
    | routine er => exact absurd hc (hassoc _ _ _ _)
  cases hs with
  | same => exact h
  | added _ _ =>
      obtain ⟨li, rfl⟩ := hlisten rfl
      exact ⟨fun _ => ⟨_, li, rfl, rfl⟩, fun item er hi hptr => by cases hi; cases hptr⟩
  | addFailed hi _ =>
      obtain ⟨li, rfl⟩ := hlisten rfl
      exact ⟨fun _ => ⟨_, li, rfl, rfl⟩, fun item er hi hptr => by cases hi; cases hptr⟩
  | again hi =>
      obtain ⟨li, rfl⟩ := hlisten rfl
      exact ⟨fun _ => ⟨_, li, rfl, rfl⟩, fun item er hi hptr => by cases hi; cases hptr⟩
  | dissociate =>
      refine ⟨False.elim, fun item er hi _ => Or.inl ?_⟩
      obtain ⟨_, _, rfl⟩ := Option.map_eq_some_iff.mp hi
      rfl
  | unset =>
      refine ⟨fun hf => ?_, fun item er hi hptr => ?_⟩
      · obtain ⟨item, li, hi, hptr⟩ := h.filled hf.1
        exact ⟨_, li, Option.map_eq_some_iff.mpr ⟨item, hi, rfl⟩, hptr⟩
      · obtain ⟨item₀, hi₀, rfl⟩ := Option.map_eq_some_iff.mp hi
        exact h.waiting item₀ er hi₀ hptr
  | fired _ => exact absurd rfl (hwait _)
  | opened => exact ⟨h.filled, h.waiting⟩
  | close _ => exact ⟨h.filled, fun _ _ _ _ => Or.inr rfl⟩
  | routineClose _ => exact ⟨False.elim, fun _ _ hi => by cases hi⟩
  | routineCloseNone _ _ => exact ⟨False.elim, fun _ _ hi => by cases hi⟩

theorem Idle.refused (h : x.Idle) (hk : x.Kept) {events : Nat} {ptr : PollPtr} {fired ok : Bool}
    (hs : x.Step fd (.associate fd events ptr fired ok) x')
    (hno : x'.item = none ∨ (x.item = none ∧ (ok && !x.watched) = false)) : x'.Idle := by
  cases hs with
  | same => exact h
  | added _ hw =>
      rcases hno with hi | ⟨_, hok⟩
      · cases hi
      · rw [hw] at hok
        cases hok
  | addFailed hi _ =>
      refine ⟨fun hf => absurd hf (h.not_filled hi), fun _ _ _ _ => Or.inr ?_⟩
      exact hk.watched_of_none hi
  | again hi =>
      rcases hno with hi' | ⟨hi', _⟩
      · cases hi'
      · cases hi.symm.trans hi'

theorem Idle.change (h : x.Idle) (d : Dir) (level : Nat) (edge : Bool) :
    (x.change d level edge).Idle := ⟨h.filled, h.waiting⟩

end Entry

/-! ## Calls -/

/-- No error or hang-up is cached or reported for an item that awaits nothing. -/
def spares (t : Table) (report : Nat × Nat) : Bool :=
  (t.items report.1).all (fun item => item.waiting ≠ 0 ||
    (item.fired ||| report.2) &&& (efPollerr ||| efPollhup) = 0)

theorem spares_iff {t : Table} {report : Nat × Nat} : spares t report = true ↔
    ∀ item, t.items report.1 = some item → item.waiting = 0 → (item.fire report.2).mask = 0 := by
  have hmask : ∀ item : EfEpollItem, item.waiting = 0 → (item.fire report.2).mask =
      (item.fired ||| report.2) &&& (efPollerr ||| efPollhup) := by
    intro item hw
    unfold EfEpollItem.mask EfEpollItem.fire
    dsimp only
    rw [hw, Nat.zero_or, Nat.and_comm]
  unfold spares
  cases t.items report.1 with
  | none => simp
  | some item =>
      simp only [Option.all_some, ne_eq, decide_not, Bool.or_eq_true, Bool.not_eq_true',
        decide_eq_false_iff_not, decide_eq_true_eq, Option.some.injEq, forall_eq']
      refine ⟨fun h hw => (hmask item hw).trans (h.resolve_left (not_not.mpr hw)), fun h => ?_⟩
      by_cases hw : item.waiting = 0
      · exact Or.inr ((hmask item hw).symm.trans (h hw))
      · exact Or.inl hw

variable {v v' : View} {fd : Nat}

theorem Kernel.reports_watched {k : Kernel} {report : List (Nat × Nat)}
    (h : k.reports report = true) : ∀ r ∈ report, k.watched r.1 = true := by
  intro r hr
  have hone := List.all_eq_true.mp (of_decide_eq_true h).2 r hr
  rw [Bool.and_eq_true, Bool.and_eq_true] at hone
  exact hone.1.1

theorem View.Step.idle_wait {report : List (Nat × Nat)} (hs : v.Step (.wait report) v')
    (hq : v.table.filled = ∅ → ∀ r ∈ report, spares v.table r = true)
    (h : (v.entry fd).Idle) : (v'.entry fd).Idle := by
  cases hs with
  | ready _ => exact h
  | asked hempty hreports =>
      have hnot : ¬ fd ∈ v.table.filled := by
        rw [hempty]
        exact Set.notMem_empty fd
      by_cases hmem : fd ∈ report.map Prod.fst
      · obtain ⟨⟨fd', events⟩, hr, rfl⟩ := List.mem_map.mp hmem
        have hw := Kernel.reports_watched hreports _ hr
        have hspared := spares_iff.mp (hq hempty _ hr)
        obtain ⟨hitems, hfilled⟩ :=
          Table.foldl_fire_of_mem (t := v.table) (Kernel.reports_edges hreports).1 hr
        have hidle : ∀ item er, v.table.items fd' = some item → item.ptr = .routine er →
            item.waiting = 0 := fun item er hi hptr =>
          (h.waiting item er hi hptr).resolve_right (fun hno => by cases hw.symm.trans hno)
        refine ⟨fun hf => ?_, fun item er hi hptr => ?_⟩
        · obtain ⟨item, hi, hmask⟩ := (hfilled.mp hf).resolve_left hnot
          refine ⟨item.fire events, ?_⟩
          cases hptr : item.ptr with
          | listen li =>
              exact ⟨li, hitems.trans (Option.map_eq_some_iff.mpr ⟨item, hi, rfl⟩), hptr⟩
          | routine er => exact absurd (hspared item hi (hidle item er hi hptr)) hmask
        · obtain ⟨item₀, hi₀, rfl⟩ := Option.map_eq_some_iff.mp (hitems.symm.trans hi)
          exact Or.inl (hidle item₀ er hi₀ hptr)
      · have hitems := Table.items_foldl_fire (t := v.table) hmem
        have hfilled := Table.filled_foldl_fire (t := v.table) hmem
        refine ⟨fun hf => absurd (hfilled.mp hf) hnot, fun item er hi hptr => ?_⟩
        exact h.waiting item er (hitems.symm.trans hi) hptr

/-- Nobody waits behind `dissociate`. -/
theorem View.Step.idle_dissociate {fired ok : Bool} (hs : v.Step (.dissociate fd fired ok) v') :
    (v'.entry fd).Idle := by
  cases hs
  refine ⟨fun hf => absurd rfl hf.2, fun item er hi _ => Or.inl ?_⟩
  have hitem : (v.table.dissociate fd).items fd =
      (v.table.items fd).map (fun item => { item with waiting := 0 }) := Function.update_self _ _ _
  obtain ⟨_, _, rfl⟩ := Option.map_eq_some_iff.mp (hitem.symm.trans hi)
  rfl

theorem Keeps.refused {s : Et × (Nat → Bool)} (h : Keeps s) {events : Nat} {ptr : PollPtr}
    {ok : Bool} (hret : (s.1.associate fd events ptr ok).1 < 0)
    (hidle : ((view s).entry fd).Idle) :
    ((view ((s.1.associate fd events ptr ok).2, s.2)).entry fd).Idle := by
  have hs := (h.ok.associate_view h.cap fd events ptr false ok).2.2.entry fd
  refine hidle.refused (h.kept fd) hs ?_
  obtain ⟨_, ⟨hfd, _, _, ht⟩ | ha⟩ :=
    h.ok.associate h.cap fd events ptr (s.1.mem 0) (ok && !s.1.kern.watched fd)
  · refine Or.inl ((congrFun (congrArg Table.items ht) fd).trans (items_none (fun hlt => ?_)))
    exact absurd hlt (Nat.not_lt.mpr hfd)
  · have hneg := ha.ret
    have hret : (efEpollAssociate s.1.ep fd events ptr (s.1.mem 0)
        (ok && !s.1.kern.watched fd)).1 < 0 := hret
    rw [hneg] at hret
    split at hret
    next hno => exact Or.inr hno
    next =>
      split at hret
      · cases hret
      · cases hret

/-! ## Events -/

/-- What a wait reports is in the filled area, each descriptor once. -/
theorem Ok.waited {p p' : Et} (h : Ok p.ep) {report : List (Nat × Nat)} {count : Nat}
    {evts : List Event} (hs : p.wait report count = some (evts, p')) :
    (evts.map Event.fd).Nodup ∧ ∀ e ∈ evts, e.fd ∈ p'.ep.table.filled ∧
      ∃ item, p'.ep.table.items e.fd = some item ∧ item.ptr = e.ptr := by
  have hwait : ∃ ep', efEpollWait p.ep report count = some (evts, ep') ∧ p'.ep = ep' := by
    unfold Et.wait at hs
    split at hs
    · split at hs
      · obtain ⟨⟨_, ep'⟩, hw, he⟩ := Option.map_eq_some_iff.mp hs
        cases he
        exact ⟨ep', hw, rfl⟩
      · cases hs
    · obtain ⟨⟨_, ep'⟩, hw, he⟩ := Option.map_eq_some_iff.mp hs
      cases he
      exact ⟨ep', hw, rfl⟩
  obtain ⟨ep', hw, he⟩ := hwait
  have hwaited := h.wait hw
  rw [he]
  refine ⟨?_, fun e hmem => ?_⟩
  · obtain ⟨_, _, he'⟩ := Option.map_eq_some_iff.mp hw
    cases he'
    have hle := hwaited.keeps.fill_le
    have hnonneg := hwaited.keeps.fill_nonneg
    unfold reported
    rw [List.map_map]
    refine List.Nodup.map_on (fun i hi j hj hij => ?_) List.nodup_range
    refine hwaited.keeps.slots.key_inj ?_ ?_ hij
    · have := List.mem_range.mp hi
      split at this <;> omega
    · have := List.mem_range.mp hj
      split at this <;> omega
  · obtain ⟨fd, hfd, item, hitem, rfl, rfl⟩ := hwaited.events e hmem
    exact ⟨hfd, item, hitem, rfl⟩

/-! ## Steps -/

variable {rt rt' : Runtime Et} {a : Act (List (Nat × Nat))}

def Used (rt : Runtime Et) (fd : Nat) : Prop :=
  ∃ er c, (rt.routines er).pc.call = some c ∧ c.fd = fd

structure Routed (rt : Runtime Et) : Prop where
  idle : ∀ fd, Used rt fd ∨ (entryOf rt fd).Idle
  nodup : (rt.phase.evts.map Event.fd).Nodup
  waiting : ∀ e ∈ rt.phase.evts, ∀ er, e.ptr = .routine er →
    ∃ c retval, (rt.routines er).pc = .waiting c retval ∧ c.fd = e.fd

/-- The kernel is asked where nothing is due. -/
def quiet (rt : Runtime Et) : EtAct → Bool
  | .run (.wait report) => rt.p.ep.fill ≠ 0 || report.all (spares rt.p.ep.table)
  | _ => true

theorem quiet_iff {report : List (Nat × Nat)} (hok : Ok rt.p.ep)
    (hq : quiet rt (.run (.wait report)) = true) :
    rt.p.ep.table.filled = ∅ → ∀ r ∈ report, spares rt.p.ep.table r = true := by
  intro hempty
  unfold quiet at hq
  dsimp only at hq
  rw [decide_eq_false (not_not.mpr (hok.fill_eq_zero.mpr hempty)), Bool.false_or,
    List.all_eq_true] at hq
  exact hq

theorem Keeps.only (h : Keeps rt.polled) (hs : Runtime.step efEpollEt rt a = some rt')
    {c : PollCall (List (Nat × Nat))} (hc : rt.calls a = [c]) :
    (view rt.polled).Step c (view rt'.polled) := by
  have hone := Runtime.step_calls hs
  rw [hc, List.foldlM_cons] at hone
  obtain ⟨s, hs', he⟩ := Option.bind_eq_some_iff.mp hone
  cases he
  exact (h.ok.call h.cap hs').2.2

theorem Routed.idle_run (h : Routed rt) (hb : Base rt) (hk : Keeps rt.polled)
    (hg : rt.addsOpen a = true) (hq : quiet rt (.run a) = true)
    (hs : Runtime.step efEpollEt rt a = some rt') (fd : Nat) :
    Used rt' fd ∨ (entryOf rt' fd).Idle := by
  by_cases hused : Used rt' fd
  · exact Or.inl hused
  refine Or.inr ?_
  rcases h.idle fd with ⟨er, c, hc, rfl⟩ | hidle
  · -- The routine has left its wrapper.
    rcases Runtime.step_endCall hb hs hc with hc' | ⟨_, ok, hcalls⟩
    · exact absurd ⟨er, c, hc', rfl⟩ hused
    · exact (hk.only hs hcalls).idle_dissociate
  by_cases hassoc : ∃ events er fired ok,
      PollCall.associate fd events (.routine er) fired ok ∈ rt.calls a
  · obtain ⟨events, er, fired, ok, hmem⟩ := hassoc
    obtain ⟨hcalls, hneg | ⟨c, hc, hfd⟩⟩ := Runtime.step_associates hs hmem
    · have hone := Runtime.step_calls hs
      rw [hcalls] at hone
      have hpolled : rt'.polled = ((rt.p.associate fd events (.routine er) ok).2, rt.isOpen) :=
        (Option.some.inj hone).symm
      unfold entryOf
      rw [hpolled]
      exact hk.refused (s := rt.polled) hneg hidle
    · exact absurd ⟨er, c, hc, hfd⟩ hused
  by_cases hwait : ∃ report, PollCall.wait report ∈ rt.calls a
  · obtain ⟨report, hmem⟩ := hwait
    obtain ⟨hcur, rfl⟩ := Runtime.calls_wait hmem
    have hcalls : rt.calls (.wait report) = [.wait report] :=
      Runtime.calls_of_loop (by simp) hcur
    exact (hk.only hs hcalls).idle_wait (quiet_iff hk.ok hq) hidle
  · exact hk.entry hg hs fd Entry.Idle
      (fun _ c => (∀ report, c ≠ .wait report) ∧
        ∀ events er fired ok, c ≠ .associate fd events (.routine er) fired ok)
      (.of_forall (fun c hmem _ => ⟨fun report he => hwait ⟨report, he ▸ hmem⟩,
        fun events er fired ok he => hassoc ⟨events, er, fired, ok, he ▸ hmem⟩⟩) _)
      (fun _ _ _ _ hc hx hidle => hidle.step hx hc.1 hc.2) hidle

/-- A routine that is in a wrapper without the thread waits. -/
theorem waiting_of_call (hb : Base rt) (hcur : rt.current = none) {er : Nat} {c : Call}
    (hc : (rt.routines er).pc.call = some c) : ∃ retval, (rt.routines er).pc = .waiting c retval := by
  have hno := hb.not_running hcur er
  cases hpc : (rt.routines er).pc with
  | waiting c' retval =>
      rw [hpc] at hc
      cases hc
      exact ⟨retval, rfl⟩
  | exited =>
      rw [hpc] at hc
      cases hc
  | _ =>
      rw [hpc] at hno
      exact absurd trivial hno

theorem Routed.batch_run (h : Routed rt) (hb : Base rt) (hk : Keeps rt.polled)
    (hidle : ∀ fd, Used rt' fd ∨ (entryOf rt' fd).Idle) (hA : Awaiting rt')
    (hs : Runtime.step efEpollEt rt a = some rt') :
    (rt'.phase.evts.map Event.fd).Nodup ∧ ∀ e ∈ rt'.phase.evts, ∀ er, e.ptr = .routine er →
      ∃ c retval, (rt'.routines er).pc = .waiting c retval ∧ c.fd = e.fd := by
  rcases Runtime.step_batch hs with ⟨hcur, report, rfl, hpoll⟩ | ⟨_, rfl, hn⟩ | ⟨hno, he⟩
  · obtain ⟨_, evts, p, hw, rfl⟩ := Runtime.pollWait_cases hpoll
    obtain ⟨hnodup, hevts⟩ := Ok.waited (p := rt.p) hk.ok hw
    refine ⟨hnodup, fun e he er hptr => ?_⟩
    obtain ⟨hfd, item, hitem, hiptr⟩ := hevts e he
    rcases hidle e.fd with ⟨er', c, hc, hcfd⟩ | hno
    · obtain ⟨item', hitem', hptr', _⟩ := hA.routine er' c hc
      rw [hcfd] at hitem'
      cases hitem.symm.trans hitem'
      cases hptr.symm.trans (hiptr.symm.trans hptr')
      obtain ⟨retval, hpc⟩ := waiting_of_call (hb.step hs) hcur hc
      exact ⟨c, retval, hpc, hcfd⟩
    · obtain ⟨item', li, hitem', hlisten⟩ := hno.filled hfd
      cases hitem.symm.trans hitem'
      cases hptr.symm.trans (hiptr.symm.trans hlisten)
  · rcases Runtime.nextEvent_tail hn with ⟨_, he⟩ | ⟨e₀, hp⟩
    · rw [he]
      exact ⟨List.nodup_nil, fun _ hmem => absurd hmem List.not_mem_nil⟩
    have hevts : rt.phase.evts = e₀ :: rt'.phase.evts := congrArg Phase.evts hp
    have hnodup := h.nodup
    rw [hevts, List.map_cons, List.nodup_cons] at hnodup
    refine ⟨hnodup.2, fun e hmem er hptr => ?_⟩
    obtain ⟨c, retval, hpc, hfd⟩ := h.waiting e (hevts ▸ List.mem_cons_of_mem e₀ hmem) er hptr
    rcases Runtime.step_waiting hb hs hpc with hsame | ⟨_, _, e₁, evts, hp₁, hptr₁⟩
    · exact ⟨c, retval, hsame ▸ hpc, hfd⟩
    · -- A routine waits for one descriptor, which fires once in a batch.
      cases hp.symm.trans hp₁
      obtain ⟨c', retval', hpc', hfd'⟩ := h.waiting e₀ (hevts ▸ List.mem_cons_self) er hptr₁
      cases hpc.symm.trans hpc'
      exact absurd (hfd' ▸ hfd.symm ▸ List.mem_map_of_mem hmem) hnodup.1
  · rw [he]
    refine ⟨h.nodup, fun e hmem er hptr => ?_⟩
    obtain ⟨c, retval, hpc, hfd⟩ := h.waiting e hmem er hptr
    rcases Runtime.step_waiting hb hs hpc with hsame | ⟨hcur, ha, _⟩
    · exact ⟨c, retval, hsame ▸ hpc, hfd⟩
    · exact absurd ha (hno hcur).2

/-! ## Runs -/

def quietGuard (rt : Runtime Et) (act : EtAct) : Prop :=
  answers rt act = true ∧ ownUses rt act = true ∧ quiet rt act = true

instance (rt : Runtime Et) (act : EtAct) : Decidable (quietGuard rt act) :=
  inferInstanceAs (Decidable (_ ∧ _ ∧ _))

theorem Routed.changed (h : Routed rt) (fd : Nat) (d : Dir) (level : Nat) (edge : Bool) :
    Routed (changed rt fd d level edge) := by
  refine ⟨fun a => (h.idle a).imp id (fun hidle => ?_), h.nodup, h.waiting⟩
  have he := (view rt.polled).entry_change fd d level edge a
  change (View.entry ⟨(view rt.polled).table, (view rt.polled).kern.change fd d level edge,
    (view rt.polled).opened⟩ a).Idle
  rw [he]
  split
  · exact hidle.change d level edge
  · exact hidle

structure RoutedInv (rt : Runtime Et) : Prop where
  base : Base rt
  keeps : Keeps rt.polled
  uses : Uses rt
  awaiting : Awaiting rt
  routed : Routed rt

theorem RoutedInv.step (h : RoutedInv rt) {act : EtAct} (hg : quietGuard rt act)
    (hs : etStep rt act = some rt') : RoutedInv rt' := by
  obtain ⟨ha, hu, hq⟩ := hg
  obtain ⟨hb', hk'⟩ := Keeps.step h.base h.keeps ha hs
  obtain ⟨hU', hA'⟩ := h.awaiting.step h.uses h.base h.keeps ha hu hs
  refine ⟨hb', hk', hU', hA', ?_⟩
  rcases etStep_cases hs with ⟨a, rt₁, rfl, h₁, rfl⟩ | ⟨fd, d, level, edge, rfl, rfl⟩
  · have hadds := addsOpen_of_answers ha
    have hA₁ := h.awaiting.run h.uses h.base h.keeps hadds hu h₁
    have hidle := h.routed.idle_run h.base h.keeps hadds hq h₁
    obtain ⟨hnodup, hwaiting⟩ := h.routed.batch_run h.base h.keeps hidle hA₁ h₁
    have hr₁ : Routed rt₁ := ⟨hidle, hnodup, hwaiting⟩
    rcases taken_cases rt a rt₁ with he | ⟨_, _, _, _, fd, _, he⟩
    · rw [he]
      exact hr₁
    · rw [he]
      exact hr₁.changed fd _ _ _
  · exact h.routed.changed fd d level edge

theorem RoutedInv.starts (h : Starts rt) : RoutedInv rt := by
  obtain ⟨hb, hk⟩ := Keeps.starts h
  obtain ⟨hU, hA⟩ := Awaiting.starts h
  obtain ⟨p, ⟨hc, _⟩, hinit⟩ := h
  have hp : rt.p.ep.table = ⟨fun _ => none, ∅⟩ := by
    rw [hinit.p]
    exact hc.table
  have hevts : rt.phase.evts = [] := by
    rw [hinit.phase]
    rfl
  refine ⟨hb, hk, hU, hA, fun fd => Or.inr ⟨fun hf => ?_, fun item er hi _ => ?_⟩, ?_, ?_⟩
  · have hf : fd ∈ rt.p.ep.table.filled := hf
    rw [hp] at hf
    exact absurd hf (Set.notMem_empty fd)
  · have hi : rt.p.ep.table.items fd = some item := hi
    rw [hp] at hi
    cases hi
  · rw [hevts]
    exact List.nodup_nil
  · rw [hevts]
    exact fun _ hmem => absurd hmem List.not_mem_nil

theorem RoutedInv.holds (h : Lib.Reachable Starts etStep quietGuard rt) : RoutedInv rt :=
  Lib.Invariant.holds ⟨fun h₀ => .starts h₀, fun h₀ hg hs => h₀.step hg hs⟩ h

/-- Over `epollet.c`, as long as no error or hang-up shows for an item that awaits nothing, what is
due with a routine in its `ptr` is due to this routine, which is in a wrapper on the descriptor.
Each event of a batch resumes the routine that waits for the descriptor that fired. -/
theorem edge_event_routing (h : Lib.Reachable Starts etStep quietGuard rt) :
    (∀ fd item er, rt.p.ep.Filled fd → rt.p.ep.table.items fd = some item →
      item.ptr = .routine er →
      ∃ c, (rt.routines er).pc.call = some c ∧ c.fd = fd ∧ item.waiting = c.interest) ∧
    (∀ e evts er, rt.current = none → rt.phase = .events (e :: evts) → e.ptr = .routine er →
      ∃ c retval rt', (rt.routines er).pc = .waiting c retval ∧ c.fd = e.fd ∧
        etStep rt (.run .event) = some rt' ∧ rt'.current = some er ∧
        (rt'.routines er).pc = .woken c retval e.events) := by
  have hinv := RoutedInv.holds h
  refine ⟨fun fd item er hf hi hptr => ?_, fun e evts er hcur hp hptr => ?_⟩
  · rcases hinv.routed.idle fd with ⟨er', c, hc, rfl⟩ | hidle
    · obtain ⟨item', hi', hptr', hw⟩ := hinv.awaiting.routine er' c hc
      cases hi.symm.trans hi'
      cases hptr.symm.trans hptr'
      exact ⟨c, hc, rfl, hw⟩
    · obtain ⟨item', li, hi', hlisten⟩ := hidle.filled hf
      cases hi.symm.trans hi'
      cases hptr.symm.trans hlisten
  · have hmem : e ∈ rt.phase.evts := by
      rw [hp]
      exact List.mem_cons_self
    obtain ⟨c, retval, hpc, hfd⟩ := hinv.routed.waiting e hmem er hptr
    obtain ⟨rt', hs, hcur', hpc'⟩ := Runtime.step_event efEpollEt hcur hp hptr hpc
    exact ⟨c, retval, rt', hpc, hfd, Option.map_eq_some_iff.mpr ⟨rt', hs, rfl⟩, hcur', hpc'⟩

def roundEnds : List EtAct :=
  [.run (.queue none), .run (.queue none),
    .run (.exitQueue (fun _ => true) (fun _ => false) (fun _ => false))]

def inputReported : List EtAct :=
  inputComes ++ .run .started :: roundEnds ++ [.run (.wait [(5, efPollin)])]

theorem edge_event_routing_read : ∃ rt rt',
    Lib.run etStep quietGuard (oneListener smallEt) inputReported = some rt ∧
    etStep rt (.run .event) = some rt' ∧ rt'.current = some 300 := by
  have hrun : (Lib.run etStep quietGuard (oneListener smallEt) inputReported).map
      (fun rt => (rt.current, rt.phase)) =
      some (none, .events [⟨efPollin, .routine 300, 5⟩]) := by decide
  obtain ⟨rt, hr, he⟩ := Option.map_eq_some_iff.mp hrun
  obtain ⟨hcur, hp⟩ := Prod.mk.inj he
  have hinit : Lib.Reachable Starts etStep quietGuard (oneListener smallEt) := .init smallEt_starts
  obtain ⟨_, _, rt', _, _, hs, hcur', _⟩ :=
    (edge_event_routing (hinit.run hr)).2 _ _ 300 hcur hp rfl
  exact ⟨rt, rt', hr, hs, hcur'⟩

/-- The routine reads, and waits for another descriptor when the first one hangs up. -/
def firstHangsUp : List EtAct :=
  inputReported ++ [.run .event, .run (.wake 0), .run (.transferred 10 0),
    .run (.dissociate true), .run (.socket 6), .run (.transfer .read 6 true 0), .run .event] ++
    roundEnds ++ [.run (.wait [(5, efPollhup)])]

/-- Where a hang-up shows for an item that awaits nothing, the routine is resumed with the event
of a descriptor that it does not wait for. -/
theorem edge_event_misrouted :
    ¬ ∀ rt, Lib.Reachable Starts etStep
        (fun rt act => answers rt act = true ∧ ownUses rt act = true) rt →
      ∀ e evts er c retval, rt.current = none → rt.phase = .events (e :: evts) →
        e.ptr = .routine er → (rt.routines er).pc = .waiting c retval → c.fd = e.fd := by
  intro h
  have hrun : (Lib.run etStep (fun rt act => answers rt act = true ∧ ownUses rt act = true)
      (oneListener smallEt) firstHangsUp).map
      (fun rt => (rt.current, rt.phase, (rt.routines 300).pc)) =
      some (none, .events [⟨efPollhup, .routine 300, 5⟩], .waiting (.transfer .read 6) 0) := by
    decide
  obtain ⟨rt, hr, he⟩ := Option.map_eq_some_iff.mp hrun
  simp only [Prod.mk.injEq] at he
  obtain ⟨hcur, hp, hpc⟩ := he
  have hinit : Lib.Reachable Starts etStep
      (fun rt act => answers rt act = true ∧ ownUses rt act = true) (oneListener smallEt) :=
    .init smallEt_starts
  exact absurd (h rt (hinit.run hr) _ _ 300 _ _ hcur hp rfl hpc) (by decide)

end EFramework.Epollet
