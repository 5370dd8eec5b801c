import EFramework.Epollet.Awaiting
import EFramework.Epollet.Edges

/-! # Wake-ups that are due

In every state that the program and the kernel reach together, what is ready is
cached or pending, and due to whom awaits it. For the listeners this takes failing
accepts that find their queues empty.
-/

namespace EFramework.Epollet

open EFramework.Runtime (Base Uses oneListener oneListener_initial)

/-! ## Runs -/

/-- What holds in every run; `strict` and `own` say what the run keeps to. -/
structure Due (strict own : Bool) (rt : Runtime Et) : Prop where
  base : Base rt
  keeps : Keeps rt.polled
  edges : Edges strict rt
  uses : own = true → Uses rt ∧ Awaiting rt

def dueGuard (strict own : Bool) (rt : Runtime Et) (act : EtAct) : Prop :=
  answers rt act = true ∧ (strict = true → drained rt act = true) ∧
    (own = true → ownUses rt act = true)

variable {strict own : Bool} {rt rt' : Runtime Et}

theorem Due.step (h : Due strict own rt) {act : EtAct} (hg : dueGuard strict own rt act)
    (hs : etStep rt act = some rt') : Due strict own rt' := by
  obtain ⟨ha, hd, hu⟩ := hg
  obtain ⟨hb', hk'⟩ := Keeps.step h.base h.keeps ha hs
  refine ⟨hb', hk', h.edges.step h.base h.keeps ha hd hs, fun hown => ?_⟩
  obtain ⟨hU, hA⟩ := h.uses hown
  exact hA.step hU h.base h.keeps ha (hu hown) hs

theorem Due.starts (h : Starts rt) : Due strict own rt := by
  obtain ⟨hb, hk⟩ := Keeps.starts h
  exact ⟨hb, hk, .starts h, fun _ => Awaiting.starts h⟩

theorem Due.holds (h : Lib.Reachable Starts etStep (dueGuard strict own) rt) :
    Due strict own rt :=
  Lib.Invariant.holds ⟨fun h₀ => .starts h₀, fun h₀ hg hs => h₀.step hg hs⟩ h

theorem Due.noticed (h : Due strict own rt) {fd : Nat} {d : Dir} (ht : Treated strict rt fd)
    (hw : rt.p.kern.watched fd = true) (hready : rt.p.kern.ready fd d = true) :
    Noticed rt.p fd d :=
  (h.edges.covered fd d ht).noticed h.keeps hw hready

theorem Noticed.due {p : Et} {fd : Nat} {d : Dir} (h : Noticed p fd d) {item : EfEpollItem}
    (hi : p.ep.table.items fd = some item) (hw : item.waiting &&& d.mask ≠ 0) :
    p.ep.Filled fd ∨ p.kern.pending fd d = true := by
  obtain ⟨item', hi', _, hdue⟩ := h
  cases hi.symm.trans hi'
  exact hdue hw

/-! ## Routines -/

/-- Whatever is ready on a descriptor that is no listener's is cached or has an edge pending. As
long as the routines keep to their own descriptors, one that waits for it is due to be woken. -/
theorem routine_edges_kept {own : Bool} {rt : Runtime Et}
    (h : Lib.Reachable Starts etStep (dueGuard false own) rt) :
    (∀ fd d, fd ∉ rt.listenFds → rt.p.kern.watched fd = true → rt.p.kern.ready fd d = true →
      Noticed rt.p fd d) ∧
    (own = true → ∀ er c retval d, (rt.routines er).pc = .waiting c retval →
      c.interest &&& d.mask ≠ 0 → rt.p.kern.watched c.fd = true →
      rt.p.kern.ready c.fd d = true →
      (∃ item, rt.p.ep.table.items c.fd = some item ∧ item.ptr = .routine er ∧
        item.waiting = c.interest) ∧
      (rt.p.ep.Filled c.fd ∨ rt.p.kern.pending c.fd d = true)) := by
  have hdue := Due.holds h
  refine ⟨fun fd d hno hw hready => hdue.noticed (Or.inr hno) hw hready,
    fun hown er c retval d hpc hawait hw hready => ?_⟩
  obtain ⟨hU, hA⟩ := hdue.uses hown
  have hcall : (rt.routines er).pc.call = some c := by rw [hpc]; rfl
  obtain ⟨item, hi, hptr, hwaiting⟩ := hA.routine er c hcall
  have hno : c.fd ∉ rt.listenFds := fun hmem => by
    cases (hU.call er c hcall).symm.trans (hU.listener hmem)
  refine ⟨⟨item, hi, hptr, hwaiting⟩, (hdue.noticed (Or.inr hno) hw hready).due hi ?_⟩
  rw [hwaiting]
  exact hawait

def smallEt : Et := ⟨small, ⟨fun _ => false, fun _ _ => 0, fun _ _ => false⟩,
  fun _ => ⟨true, true, true⟩⟩

theorem smallEt_starts : Starts (oneListener smallEt) :=
  ⟨smallEt, ⟨small_created, fun _ => rfl⟩, oneListener_initial smallEt⟩

def acceptsOne : List EtAct :=
  [.run (.associate true), .run (.associate true), .change 3 .input 1 true, .run (.wait [(3, 1)]),
    .run .event, .run (.accept 5 true (some 200) true), .run .acceptFailed,
    .run (.acceptEnd true), .run .event, .run (.queue (some 300))]

def inputComes : List EtAct :=
  acceptsOne ++ [.run (.transfer .read 5 true 0), .change 5 .input 1 true]

instance (strict own : Bool) (rt : Runtime Et) (act : EtAct) :
    Decidable (dueGuard strict own rt act) :=
  inferInstanceAs (Decidable (answers rt act = true ∧ (strict = true → drained rt act = true) ∧
    (own = true → ownUses rt act = true)))

theorem routine_edges_kept_read : ∃ rt,
    Lib.run etStep (dueGuard false true) (oneListener smallEt) inputComes = some rt ∧
    (rt.p.ep.Filled 5 ∨ rt.p.kern.pending 5 .input = true) := by
  have hrun : (Lib.run etStep (dueGuard false true) (oneListener smallEt) inputComes).map
      (fun rt => ((rt.routines 300).pc, rt.p.kern.watched 5, rt.p.kern.ready 5 .input)) =
      some (.waiting (.transfer .read 5) 0, true, true) := by decide
  obtain ⟨rt, hr, he⟩ := Option.map_eq_some_iff.mp hrun
  obtain ⟨hpc, he⟩ := Prod.mk.inj he
  obtain ⟨hw, hready⟩ := Prod.mk.inj he
  have hinit : Lib.Reachable Starts etStep (dueGuard false true) (oneListener smallEt) :=
    .init smallEt_starts
  exact ⟨rt, hr, ((routine_edges_kept (hinit.run hr)).2 rfl 300 (.transfer .read 5) 0 .input hpc
    (by decide) hw hready).2⟩

/-! ## Listeners -/

/-- As long as each failing `accept` finds its queue empty, a listener with a connection in its
queue has its bit cached or an edge pending. As long as the routines keep to their own
descriptors, it is due to be accepted. -/
theorem listener_edges_kept {own : Bool} {rt : Runtime Et}
    (h : Lib.Reachable Starts etStep (dueGuard true own) rt) :
    ∀ fd ∈ rt.listenFds, rt.p.kern.watched fd = true → rt.p.kern.ready fd .input = true →
      Noticed rt.p fd .input ∧
      (own = true → rt.p.ep.Filled fd ∨ rt.p.kern.pending fd .input = true) := by
  intro fd hfd hw hready
  have hdue := Due.holds h
  have hnoticed := hdue.noticed (Or.inl rfl) hw hready
  refine ⟨hnoticed, fun hown => ?_⟩
  obtain ⟨item, hi⟩ := Option.isSome_iff_exists.mp ((hdue.keeps.kept fd).item hw)
  refine hnoticed.due hi ?_
  rw [(hdue.uses hown).2.listener fd hfd item hi]
  decide

/-- One connection is accepted, the next `accept` finds the queue empty, and another connection
arrives. -/
theorem listener_edges_kept_arrived : ∃ rt,
    Lib.run etStep (dueGuard true true) (oneListener smallEt)
      (acceptsOne ++ [.change 3 .input 1 true]) = some rt ∧
    (rt.p.ep.Filled 3 ∨ rt.p.kern.pending 3 .input = true) := by
  have hrun : (Lib.run etStep (dueGuard true true) (oneListener smallEt)
      (acceptsOne ++ [.change 3 .input 1 true])).map
      (fun rt => (rt.listenFds, rt.p.kern.watched 3, rt.p.kern.ready 3 .input)) =
      some ([3], true, true) := by decide
  obtain ⟨rt, hr, he⟩ := Option.map_eq_some_iff.mp hrun
  obtain ⟨hfds, he⟩ := Prod.mk.inj he
  obtain ⟨hw, hready⟩ := Prod.mk.inj he
  have hinit : Lib.Reachable Starts etStep (dueGuard true true) (oneListener smallEt) :=
    .init smallEt_starts
  have hmem : 3 ∈ rt.listenFds := hfds ▸ List.mem_singleton_self 3
  exact ⟨rt, hr, (listener_edges_kept (hinit.run hr) 3 hmem hw hready).2 rfl⟩

/-- A connection arrives, is reported, and `accept` fails though it is in the queue. -/
def acceptFails : List EtAct :=
  [.run (.associate true), .run (.associate true), .change 3 .input 1 true, .run (.wait [(3, 1)]),
    .run .event, .run .acceptFailed, .run (.acceptEnd true)]

/-- The bit is cleared though the connection is in the queue, and no edge is pending. -/
theorem listener_edges_lost :
    ¬ ∀ rt, Lib.Reachable Starts etStep (dueGuard false true) rt →
      ∀ fd ∈ rt.listenFds, rt.p.kern.watched fd = true → rt.p.kern.ready fd .input = true →
        Noticed rt.p fd .input := by
  intro h
  have hrun : (Lib.run etStep (dueGuard false true) (oneListener smallEt) acceptFails).map
      (fun rt => (rt.listenFds, rt.p.kern.watched 3, rt.p.kern.ready 3 .input,
        (rt.p.ep.table.items 3).map EfEpollItem.fired, rt.p.kern.pending 3 .input)) =
      some ([3], true, true, some efPollout, false) := by decide
  obtain ⟨rt, hr, he⟩ := Option.map_eq_some_iff.mp hrun
  simp only [Prod.mk.injEq] at he
  obtain ⟨hfds, hw, hready, hfired, hpending⟩ := he
  have hinit : Lib.Reachable Starts etStep (dueGuard false true) (oneListener smallEt) :=
    .init smallEt_starts
  obtain ⟨item, hi, hnoticed, _⟩ :=
    h rt (hinit.run hr) 3 (hfds ▸ List.mem_singleton_self 3) hw hready
  rw [hi, Option.map_some, Option.some.injEq] at hfired
  rw [hfired, hpending] at hnoticed
  exact absurd hnoticed (by decide)

end EFramework.Epollet
