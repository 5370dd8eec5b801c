import EFramework.Epollet.Framework

/-! # No edge is lost

A descriptor of the epoll set that is ready is so in its cached bits, or has an edge
pending. The cached bits are cleared behind a transfer that would block, and behind
an `accept` that fails, whatever it fails with.
-/

namespace EFramework.Epollet

open EFramework.Runtime (Act Base)

/-- An `accept` that fails has found its queue empty. -/
def drained (rt : Runtime Et) : EtAct → Bool
  | .run .acceptFailed => rt.accepting.all (fun fd => !rt.p.kern.ready fd .input)
  | _ => true

/-- The descriptors that the program treats right: all of them if failing accepts find their
queues empty, and otherwise those of no listener. -/
def Treated (strict : Bool) (rt : Runtime Et) (fd : Nat) : Prop :=
  strict = true ∨ fd ∉ rt.listenFds

structure Edges (strict : Bool) (rt : Runtime Et) : Prop where
  covered : ∀ fd d, Treated strict rt fd → (entryOf rt fd).Covered d
  again : ∀ er c retval, (rt.routines er).pc = .again c retval → ∀ d,
    c.unsetEvents &&& d.mask ≠ 0 → (entryOf rt c.fd).Armed d
  accepting : ∀ li evts, rt.phase = .acceptEnd li evts → rt.current = none ∧
    (strict = true → ∀ fd, rt.listenerFd li = some fd → (entryOf rt fd).Armed .input)

variable {strict : Bool} {rt rt' : Runtime Et} {a : Act (List (Nat × Nat))} {fd : Nat}

theorem entryOf_congr (h : rt'.polled = rt.polled) (fd : Nat) : entryOf rt' fd = entryOf rt fd := by
  unfold entryOf
  rw [h]

theorem listenerFd_congr (h : rt'.listenList = rt.listenList) (li : Nat) :
    rt'.listenerFd li = rt.listenerFd li := by
  unfold Runtime.listenerFd Runtime.findListen
  rw [h]

/-! ## Changes -/

theorem entryOf_changed (rt : Runtime Et) (fd : Nat) (d : Dir) (level : Nat) (edge : Bool)
    (a : Nat) :
    entryOf (changed rt fd d level edge) a =
      if a = fd then (entryOf rt a).change d level edge else entryOf rt a :=
  (view rt.polled).entry_change fd d level edge a

theorem Edges.changed (h : Edges strict rt) {fd : Nat} {d : Dir} {level : Nat} {edge : Bool}
    (hc : rt.p.kern.changes fd d level edge = true) :
    Edges strict (changed rt fd d level edge) := by
  have harmed : ∀ a d', (entryOf rt a).Armed d' →
      (entryOf (Epollet.changed rt fd d level edge) a).Armed d' := by
    intro a d' ha
    rw [entryOf_changed]
    split
    next he =>
      subst he
      exact ha.change hc
    next => exact ha
  refine ⟨fun a d' ht => ?_, fun er c retval hpc d' hd => harmed _ _ (h.again er c retval hpc d' hd),
    fun li evts hp => ?_⟩
  · rw [entryOf_changed]
    have ha := h.covered a d' ht
    split
    next he =>
      subst he
      exact ha.change hc
    next => exact ha
  · obtain ⟨hcur, hfd⟩ := h.accepting li evts hp
    exact ⟨hcur, fun hst a ha => harmed a .input (hfd hst a ha)⟩

theorem Edges.taken (h : Edges strict rt') (rt : Runtime Et) (a : Act (List (Nat × Nat))) :
    Edges strict (taken rt a rt') := by
  rcases taken_cases rt a rt' with he | ⟨_, _, _, _, fd, _, he⟩
  · rw [he]
    exact h
  · rw [he]
    refine h.changed ?_
    unfold Kernel.changes Kernel.ready
    cases rt'.p.kern.level fd .input <;> simp

/-! ## Steps -/

theorem blocks_iff {k : Kernel} {c : Call} : blocks k c = true ↔
    ∀ d : Dir, c.unsetEvents &&& d.mask ≠ 0 → k.ready c.fd d = false := by
  unfold blocks
  constructor
  · intro h d hd
    rw [Bool.and_eq_true] at h
    cases d with
    | input => simpa [hd] using h.1
    | output => simpa [hd] using h.2
  · intro h
    rw [Bool.and_eq_true]
    constructor
    · by_cases hd : c.unsetEvents &&& Dir.input.mask = 0
      · simp [hd]
      · simp [h .input hd]
    · by_cases hd : c.unsetEvents &&& Dir.output.mask = 0
      · simp [hd]
      · simp [h .output hd]

/-- Each call of a step is made in a state where it loses nothing at `fd`. -/
theorem Edges.permits (h : Edges strict rt) (ht : Treated strict rt fd) (d : Dir) :
    Lib.Permits (PollCall.step efEpollEt)
      (fun s c => ∀ events, c = .unset fd events → events &&& d.mask ≠ 0 →
        ((view s).entry fd).Armed d) rt.polled (rt.calls a) := by
  refine Runtime.permits_unset rt a (fun s c hc events he => ?_) (fun er c retval hpc events he hd => ?_)
    (fun li evts fd' hp hfd events he hd => ?_)
  · rw [he] at hc
    cases hc
  · cases he
    exact h.again er c retval hpc d hd
  · cases he
    have hst := ht.resolve_right (fun hno => hno (Runtime.listenerFd_mem hfd))
    cases d with
    | input => exact (h.accepting li evts hp).2 hst fd hfd
    | output => exact absurd rfl hd

theorem blocked_of_answers {retval : Int} {er : Nat} {c : Call}
    (hg : answers rt (.run (.transferred retval eagain)) = true) (hneg : retval < 0)
    (hcur : rt.current = some er) (hpc : (rt.routines er).pc = .ready c) :
    blocks rt.p.kern c = true := by
  unfold answers at hg
  have hb := (Bool.and_eq_true_iff.mp hg).2
  have htrue : (retval < 0 && eagain = eagain) = true := by simp [hneg]
  dsimp only at hb
  rw [htrue, Bool.not_true, Bool.false_or] at hb
  unfold blocked at hb
  rw [hcur] at hb
  unfold Option.all at hb
  dsimp only at hb
  rwa [hpc] at hb

theorem armed_of_not_ready {d : Dir} (h : rt.p.kern.ready fd d = false) :
    (entryOf rt fd).Armed d :=
  fun _ hready => by cases h.symm.trans hready

theorem Edges.run (h : Edges strict rt) (hb : Base rt) (hk : Keeps rt.polled)
    (hg : answers rt (.run a) = true) (hd : strict = true → drained rt (.run a) = true)
    (hs : Runtime.step efEpollEt rt a = some rt') : Edges strict rt' := by
  have hk' := hk.run (addsOpen_of_answers hg) hs
  refine ⟨fun fd d ht => ?_, fun er c retval hpc d hne => ?_, fun li evts hp => ?_⟩
  · by_cases ht' : Treated strict rt fd
    · exact hk.entry (addsOpen_of_answers hg) hs fd (fun x => x.Covered d)
        (fun x c => ∀ events, c = .unset fd events → events &&& d.mask ≠ 0 → x.Armed d)
        (h.permits ht' d) (fun _ _ _ hkept harmed hx h => h.step hkept hx harmed)
        (h.covered fd d ht')
    · have hmem : fd ∈ rt.listenFds := by
        by_contra hno
        exact ht' (Or.inr hno)
      have hgone : fd ∉ rt'.listenFds := ht.resolve_left (fun hst => ht' (Or.inl hst))
      have hclosed : rt'.isOpen fd = false := by
        rcases Runtime.step_listenFds hs with he | ⟨_, hclosed⟩
        · exact absurd (he ▸ hmem) hgone
        · exact hclosed fd hmem
      exact fun hw => by cases ((hk'.kept fd).watched_of_closed hclosed).symm.trans hw
  · obtain ⟨hp, hpc' | ⟨hcur, hpc', hneg, rfl⟩⟩ := Runtime.step_again hb hs hpc
    · rw [entryOf_congr hp]
      exact h.again er c retval hpc' d hne
    · rw [entryOf_congr hp]
      exact armed_of_not_ready (blocks_iff.mp (blocked_of_answers hg hneg hcur hpc') d hne)
  · rcases Runtime.step_acceptEnd hs hp with ⟨hp', hcur | ⟨hcur, hpolled, hlist⟩⟩ |
      ⟨hcur, rfl, hp', rfl⟩
    · exact absurd (h.accepting li evts hp').1 hcur
    · refine ⟨hcur, fun hst fd hfd => ?_⟩
      rw [entryOf_congr hpolled]
      rw [listenerFd_congr hlist] at hfd
      exact (h.accepting li evts hp').2 hst fd hfd
    · refine ⟨hcur, fun hst fd hfd => armed_of_not_ready ?_⟩
      have hempty := hd hst
      unfold drained Runtime.accepting at hempty
      dsimp only at hempty
      rw [hp'] at hempty
      dsimp only at hempty
      rw [show rt.listenerFd li = some fd from hfd] at hempty
      simpa using hempty

theorem Edges.step (h : Edges strict rt) (hb : Base rt) (hk : Keeps rt.polled) {act : EtAct}
    (hg : answers rt act = true) (hd : strict = true → drained rt act = true)
    (hs : etStep rt act = some rt') : Edges strict rt' := by
  rcases etStep_cases hs with ⟨a, rt₁, rfl, h₁, rfl⟩ | ⟨fd, d, level, edge, rfl, rfl⟩
  · exact (h.run hb hk hg hd h₁).taken rt a
  · exact h.changed hg

theorem Edges.starts (h : Starts rt) : Edges strict rt := by
  obtain ⟨p, ⟨_, hw⟩, hinit⟩ := h
  refine ⟨fun fd d _ hc => ?_, fun er c retval hpc => ?_, fun li evts hp => ?_⟩
  · have hno : (entryOf rt fd).watched = false := by
      unfold entryOf Runtime.polled
      rw [hinit.p]
      exact hw fd
    cases hno.symm.trans hc
  · cases (hinit.routines er).symm.trans hpc
  · cases hinit.phase.symm.trans hp

/-! ## What is due -/

theorem Dir.mask_bit (d : Dir) : ∃ b, ∀ i, d.mask.testBit i = true ↔ b = i := by
  cases d with
  | input =>
      refine ⟨0, fun i => ?_⟩
      rw [show Dir.input.mask = 2 ^ 0 from rfl, Nat.testBit_two_pow, decide_eq_true_iff]
  | output =>
      refine ⟨2, fun i => ?_⟩
      rw [show Dir.output.mask = 2 ^ 2 from rfl, Nat.testBit_two_pow, decide_eq_true_iff]

/-- An item that awaits what has fired has a mask. -/
theorem EfEpollItem.mask_of_awaited {item : EfEpollItem} {d : Dir}
    (hw : item.waiting &&& d.mask ≠ 0) (hf : item.fired &&& d.mask ≠ 0) : item.mask ≠ 0 := by
  obtain ⟨b, hb⟩ := d.mask_bit
  obtain ⟨i, hi, hdi⟩ := Lib.and_ne_zero.mp hw
  obtain ⟨j, hj, hdj⟩ := Lib.and_ne_zero.mp hf
  cases (hb i).mp hdi
  cases (hb j).mp hdj
  refine Lib.and_ne_zero.mpr ⟨b, ?_, hj⟩
  rw [Nat.or_assoc, Nat.testBit_or, hi, Bool.true_or]

/-- What the kernel holds ready is cached or pending, and due to be reported to whom awaits it. -/
def Noticed (p : Et) (fd : Nat) (d : Dir) : Prop :=
  ∃ item, p.ep.table.items fd = some item ∧
    (item.fired &&& d.mask ≠ 0 ∨ p.kern.pending fd d = true) ∧
    (item.waiting &&& d.mask ≠ 0 → p.ep.Filled fd ∨ p.kern.pending fd d = true)

theorem Entry.Covered.noticed {d : Dir} (h : (entryOf rt fd).Covered d) (hk : Keeps rt.polled)
    (hw : rt.p.kern.watched fd = true) (hready : rt.p.kern.ready fd d = true) :
    Noticed rt.p fd d := by
  have hkept := hk.kept fd
  obtain ⟨item, hitem⟩ := Option.isSome_iff_exists.mp (hkept.item hw)
  refine ⟨item, hitem, ?_, fun hawait => ?_⟩
  · refine (h hw hready).symm.imp ?_ id
    rintro ⟨item', hitem', hfired⟩
    cases hitem.symm.trans hitem'
    exact hfired
  · refine (h hw hready).symm.imp ?_ id
    rintro ⟨item', hitem', hfired⟩
    cases hitem.symm.trans hitem'
    refine hkept.due item hw hitem ?_ ?_
    · intro hzero
      rw [hzero, Nat.zero_and] at hawait
      exact hawait rfl
    · exact EfEpollItem.mask_of_awaited hawait hfired

end EFramework.Epollet
