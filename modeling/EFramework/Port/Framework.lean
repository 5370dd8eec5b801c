import EFramework.Lib.Simulation
import EFramework.Runtime.Routing
import EFramework.Runtime.Waiting

/-! # The framework over `port.c`

An event port takes a descriptor out of its set when it reports an event of it, and
`ef_port_unset` does not put it back. So each `associate` brings one event: it wakes the
routine that waits, but one that then finds its transfer would block, and waits on,
waits for ever.
-/

namespace EFramework.Port

open Lib (Steps)
open EFramework.Runtime (Base Uses Initial)

/-! ## The poller -/

/-- What is associated with the port, as a map from descriptors to `(events, user)`. -/
abbrev EfPort := Nat → Option (Nat × PollPtr)

/-- `port_associate` also changes what is associated already. -/
def efPortAssociate (ep : EfPort) (fd events : Nat) (ptr : PollPtr) (_fired ok : Bool) :
    Int × EfPort :=
  if ok then (0, Function.update ep fd (some (events, ptr))) else (-1, ep)

/-- `port_dissociate`, which fails for what is not associated. -/
def efPortDissociate (ep : EfPort) (fd : Nat) (fired _onclose _ok : Bool) : Int × EfPort :=
  if fired then (0, ep)
  else if ep fd = none then (-1, ep)
  else (0, Function.update ep fd none)

def efPortUnset (ep : EfPort) (_fd _events : Nat) : Int × EfPort := (0, ep)

/-- What the port reports is no longer associated. -/
def fired (ep : EfPort) (report : List (Nat × Nat)) : EfPort := fun fd =>
  if fd ∈ report.map Prod.fst then none else ep fd

/-- `port_getn` reports up to 1024 descriptors, each once, with any events. -/
def efPortWait (ep : EfPort) (report : List (Nat × Nat)) : Option (List Event × EfPort) :=
  if (report.map Prod.fst).Nodup ∧ report.length ≤ 1024 then do
    let evts ← report.mapM (fun r => (ep r.1).map (fun e => Event.mk r.2 e.2 r.1))
    pure (evts, fired ep report)
  else none

def efPort : EfPoll EfPort (List (Nat × Nat)) where
  associate := efPortAssociate
  dissociate := efPortDissociate
  unset := efPortUnset
  wait := efPortWait
  closed ep fd := Function.update ep fd none

theorem associate_cases (ep : EfPort) (fd events : Nat) (ptr : PollPtr) (fired ok : Bool) :
    efPort.associate ep fd events ptr fired ok = (-1, ep) ∨
      efPort.associate ep fd events ptr fired ok =
        (0, Function.update ep fd (some (events, ptr))) := by
  unfold efPort efPortAssociate
  dsimp only
  split
  · exact Or.inr rfl
  · exact Or.inl rfl

theorem efPortDissociate_snd (ep : EfPort) (fd : Nat) (onclose ok : Bool) :
    (efPortDissociate ep fd false onclose ok).2 = Function.update ep fd none := by
  unfold efPortDissociate
  rw [if_neg Bool.false_ne_true]
  split
  next h => exact (Function.update_eq_self_iff.mpr h.symm).symm
  next => rfl

theorem efPortWait_spec {ep ep' : EfPort} {report : List (Nat × Nat)} {evts : List Event}
    (h : efPortWait ep report = some (evts, ep')) :
    (evts.map Event.fd).Nodup ∧ (∀ e ∈ evts, ∃ events, ep e.fd = some (events, e.ptr)) ∧
      ∀ fd, ep' fd = if fd ∈ evts.map Event.fd then none else ep fd := by
  unfold efPortWait at h
  split at h
  next hr =>
    obtain ⟨evts', hm, he⟩ := Option.bind_eq_some_iff.mp h
    cases he
    obtain ⟨hfds, hptr⟩ := mapM_events hm
    rw [hfds]
    exact ⟨hr.1, hptr, fun fd => rfl⟩
  next => cases h

/-! ## Who is going to be told -/

/-- An event for the routine is associated, or has been reported and is left of the batch. -/
def Armed (rt : Runtime EfPort) (er fd : Nat) : Prop :=
  (∃ events, rt.p fd = some (events, .routine er)) ∨
    ∃ e ∈ rt.phase.evts, e.fd = fd ∧ e.ptr = .routine er

/-- The routine waits since `associate`. -/
def Awaits (rt : Runtime EfPort) (er fd : Nat) : Prop :=
  ∃ c, (rt.routines er).pc = .waiting c 0 ∧ c.fd = fd

/-- What holds in every state over `port.c`. The number with a wait is that of the transfer that
would block, or 0. -/
structure Ports (rt : Runtime EfPort) : Prop where
  armed : ∀ er fd, Armed rt er fd ↔ Awaits rt er fd
  nodup : (rt.phase.evts.map Event.fd).Nodup
  once : ∀ e ∈ rt.phase.evts, ∀ er, e.ptr = .routine er →
    ∀ events er', rt.p e.fd ≠ some (events, .routine er')
  listener : ∀ fd events li, rt.p fd = some (events, .listen li) → rt.owner fd = some .listener
  waiting : ∀ er c retval, (rt.routines er).pc = .waiting c retval → retval ≤ 0
  again : ∀ er c retval, (rt.routines er).pc = .again c retval → retval < 0

variable {rt rt' : Runtime EfPort} {er fd : Nat} {a : Runtime.Act (List (Nat × Nat))}

theorem Awaits.owner (h : Awaits rt er fd) (hu : Uses rt) : rt.owner fd = some (.routine er) := by
  obtain ⟨c, hpc, rfl⟩ := h
  exact hu.call er c (by rw [hpc]; rfl)

theorem Awaits.not_running (h : Awaits rt er fd) : ¬ (rt.routines er).pc.Running := by
  obtain ⟨c, hpc, _⟩ := h
  rw [hpc]
  exact id

/-! ## Changes that keep the invariant -/

theorem Ports.setEntries (h : Ports rt) {p : EfPort} {owner : Nat → Option Owner}
    (hp : ∀ fd, p fd = rt.p fd ∨
      ((∀ er, ¬ Awaits rt er fd) ∧ ∀ events er, p fd ≠ some (events, .routine er)))
    (hl : ∀ fd events li, p fd = some (events, .listen li) → owner fd = some .listener) :
    Ports { rt with p := p, owner := owner } := by
  have hentry : ∀ fd events er, p fd = some (events, .routine er) ↔
      rt.p fd = some (events, .routine er) := by
    intro fd events er
    rcases hp fd with he | ⟨hno, hnot⟩
    · rw [he]
    · exact iff_of_false (hnot events er)
        (fun he => hno er ((h.armed er fd).mp (Or.inl ⟨events, he⟩)))
  refine ⟨fun er fd => ?_, h.nodup, fun e he er hptr events er' hpe => ?_, hl, h.waiting, h.again⟩
  · rw [show Awaits { rt with p := p, owner := owner } er fd ↔ Awaits rt er fd from Iff.rfl,
      ← h.armed er fd]
    unfold Armed
    simp only [hentry]
  · exact h.once e he er hptr events er' ((hentry _ _ _).mp hpe)

theorem Ports.setEntry (h : Ports rt) (hno : ∀ er, ¬ Awaits rt er fd)
    {e : Option (Nat × PollPtr)} (he : ∀ events er, e ≠ some (events, .routine er))
    (hl : ∀ events li, e = some (events, .listen li) → rt.owner fd = some .listener) :
    Ports { rt with p := Function.update rt.p fd e } := by
  refine h.setEntries (fun fd' => ?_) (fun fd' events li hp => ?_)
  · by_cases hfd : fd' = fd
    · subst hfd
      rw [Function.update_self]
      exact Or.inr ⟨hno, he⟩
    · exact Or.inl (Function.update_of_ne hfd _ _)
  · by_cases hfd : fd' = fd
    · subst hfd
      rw [Function.update_self] at hp
      exact hl events li hp
    · rw [Function.update_of_ne hfd] at hp
      exact h.listener fd' events li hp

/-- The loop moves on, behind an event that is for no routine. -/
theorem Ports.setPhase (h : Ports rt) {phase : Phase} (hsub : phase.evts <:+ rt.phase.evts)
    (hsame : ∀ e ∈ rt.phase.evts, ∀ er, e.ptr = .routine er → e ∈ phase.evts) :
    Ports { rt with phase := phase } := by
  refine ⟨fun er fd => ?_, (hsub.map Event.fd).sublist.nodup h.nodup,
    fun e he => h.once e (hsub.subset he), h.listener, h.waiting, h.again⟩
  rw [show Awaits { rt with phase := phase } er fd ↔ Awaits rt er fd from Iff.rfl, ← h.armed er fd]
  refine or_congr Iff.rfl ⟨fun ⟨e, he, hfd, hptr⟩ => ⟨e, hsub.subset he, hfd, hptr⟩,
    fun ⟨e, he, hfd, hptr⟩ => ⟨e, hsame e he er hptr, hfd, hptr⟩⟩

theorem waiting_update (h : Ports rt) {r : Routine}
    (hr : ∀ c retval, r.pc = .waiting c retval → retval ≤ 0) :
    ∀ er' c retval, (Function.update rt.routines er r er').pc = .waiting c retval → retval ≤ 0 :=
  (Function.forall_update_iff rt.routines
    (p := fun _ r => ∀ c retval, r.pc = .waiting c retval → retval ≤ 0)).mpr
      ⟨hr, fun er' _ => h.waiting er'⟩

theorem again_update (h : Ports rt) {r : Routine}
    (hr : ∀ c retval, r.pc = .again c retval → retval < 0) :
    ∀ er' c retval, (Function.update rt.routines er r er').pc = .again c retval → retval < 0 :=
  (Function.forall_update_iff rt.routines
    (p := fun _ r => ∀ c retval, r.pc = .again c retval → retval < 0)).mpr
      ⟨hr, fun er' _ => h.again er'⟩

theorem Ports.setRoutine (h : Ports rt) {r : Routine} (hno : ∀ fd, ¬ Awaits rt er fd)
    (hwait : ∀ c retval, r.pc = .waiting c retval → retval < 0)
    (hagain : ∀ c retval, r.pc = .again c retval → retval < 0) (current : Option Nat) :
    Ports { rt with routines := Function.update rt.routines er r, current := current } := by
  refine ⟨fun er' fd => (h.armed er' fd).trans ?_, h.nodup, h.once, h.listener,
    waiting_update h fun c retval hpc => Int.le_of_lt (hwait c retval hpc), again_update h hagain⟩
  unfold Awaits
  dsimp only
  by_cases he : er' = er
  · subst he
    refine iff_of_false (hno fd) (fun ⟨c, hpc, _⟩ => ?_)
    rw [Function.update_self] at hpc
    exact absurd (hwait c 0 hpc) (Int.lt_irrefl 0)
  · rw [Function.update_of_ne he]

theorem Ports.setOwner (h : Ports rt) (ho : rt.owner fd ≠ some .listener) (o : Option Owner) :
    Ports { rt with owner := Function.update rt.owner fd o } := by
  refine h.setEntries (fun _ => Or.inl rfl) (fun fd' events li hp => ?_)
  have hl := h.listener fd' events li hp
  refine (Function.update_of_ne ?_ _ _).trans hl
  rintro rfl
  exact ho hl

/-- What the invariant is not about may change. -/
theorem Ports.congr (h : Ports rt) (hp : rt'.p = rt.p) (hr : rt'.routines = rt.routines)
    (hphase : rt'.phase.evts = rt.phase.evts) (ho : rt'.owner = rt.owner) : Ports rt' := by
  obtain ⟨harmed, hnodup, honce, hlistener, hwaiting, hagain⟩ := h
  refine ⟨fun er fd => ?_, hphase ▸ hnodup, ?_, ?_, ?_, ?_⟩
  · have := harmed er fd
    unfold Armed Awaits at this ⊢
    rw [hp, hr, hphase]
    exact this
  · rw [hphase, hp]
    exact honce
  · rw [hp, ho]
    exact hlistener
  · rw [hr]
    exact hwaiting
  · rw [hr]
    exact hagain

/-! ## The loop -/

theorem Ports.newBatch (h : Ports rt) (hevts : rt.phase.evts = []) {report : List (Nat × Nat)}
    {evts : List Event} {p : EfPort} (hw : efPortWait rt.p report = some (evts, p)) :
    Ports { rt with p := p, phase := .events evts } := by
  obtain ⟨hnodup, hptr, hp⟩ := efPortWait_spec hw
  have hentry : ∀ fd e, p fd = some e → fd ∉ evts.map Event.fd ∧ rt.p fd = some e := by
    intro fd e he
    rw [hp] at he
    split at he
    · cases he
    next hmem => exact ⟨hmem, he⟩
  refine ⟨fun er fd => ?_, hnodup, fun e he er _ events er' hpe => ?_, fun fd events li hpe => ?_,
    h.waiting, h.again⟩
  · rw [show Awaits { rt with p := p, phase := .events evts } er fd ↔ Awaits rt er fd from Iff.rfl,
      ← h.armed er fd]
    constructor
    · rintro (⟨events, he⟩ | ⟨e, he, rfl, her⟩)
      · exact Or.inl ⟨events, (hentry fd _ he).2⟩
      · obtain ⟨events, hentry⟩ := hptr e he
        exact Or.inl ⟨events, her ▸ hentry⟩
    · rintro (⟨events, he⟩ | ⟨e, he, _⟩)
      · by_cases hmem : fd ∈ evts.map Event.fd
        · obtain ⟨e, hin, rfl⟩ := List.mem_map.mp hmem
          obtain ⟨events', hentry⟩ := hptr e hin
          have her := congrArg Prod.snd (Option.some.inj (he.symm.trans hentry))
          exact Or.inr ⟨e, hin, rfl, her.symm⟩
        · exact Or.inl ⟨events, ((hp fd).trans (if_neg hmem)).trans he⟩
      · rw [hevts] at he
        exact absurd he List.not_mem_nil
  · exact (hentry e.fd _ hpe).1 (List.mem_map_of_mem he)
  · exact h.listener fd events li (hentry fd _ hpe).2

theorem Ports.awaits_of_event (h : Ports rt) {e : Event} (he : e ∈ rt.phase.evts)
    (hptr : e.ptr = .routine er) : Awaits rt er e.fd :=
  (h.armed er e.fd).mp (Or.inr ⟨e, he, rfl, hptr⟩)

theorem Ports.resumed (h : Ports rt) {e : Event} {evts : List Event}
    (hp : rt.phase = .events (e :: evts)) (hptr : e.ptr = .routine er) {c : Call} {retval : Int}
    (hpc : (rt.routines er).pc = .waiting c retval) :
    Ports { rt with
      phase := .events evts
      routines := Function.update rt.routines er
        { rt.routines er with pc := .woken c retval e.events }
      current := some er } := by
  have hevts : rt.phase.evts = e :: evts := by
    rw [hp]
    rfl
  have hmem : e ∈ rt.phase.evts := by
    rw [hevts]
    exact List.mem_cons_self
  have hnodup := h.nodup
  rw [hevts, List.map_cons, List.nodup_cons] at hnodup
  have hfd : ∀ {fd}, Awaits rt er fd → fd = e.fd := by
    intro fd haw
    obtain ⟨c₁, hc₁, rfl⟩ := haw
    obtain ⟨c₂, hc₂, hfd⟩ := h.awaits_of_event hmem hptr
    cases hc₁.symm.trans hc₂
    exact hfd
  refine ⟨fun er' fd => ?_, hnodup.2, fun e' he' => h.once e' ?_, h.listener,
    waiting_update h (by simp), again_update h (by simp)⟩
  · by_cases her : er' = er
    · subst her
      -- The descriptor has fired, so it is not associated, and fires once in a batch.
      refine iff_of_false ?_ ?_
      · rintro (⟨events, he⟩ | ⟨e', he', rfl, her⟩)
        · have := hfd ((h.armed er' fd).mp (Or.inl ⟨events, he⟩))
          subst this
          exact h.once e hmem er' hptr events er' he
        · have he' : e' ∈ evts := he'
          have := hfd (h.awaits_of_event (hevts ▸ List.mem_cons_of_mem e he') her)
          exact hnodup.1 (this ▸ List.mem_map_of_mem he')
      · rintro ⟨c', hc, _⟩
        simp at hc
    · have haw : Awaits rt er' fd ↔ Awaits { rt with
          phase := .events evts
          routines := Function.update rt.routines er
            { rt.routines er with pc := .woken c retval e.events }
          current := some er } er' fd := by
        unfold Awaits
        simp [her]
      rw [← haw, ← h.armed er' fd]
      refine or_congr Iff.rfl ⟨fun ⟨e', he', hx, hy⟩ => ⟨e', ?_, hx, hy⟩,
        fun ⟨e', he', hx, hy⟩ => ?_⟩
      · rw [hevts]
        exact List.mem_cons_of_mem e he'
      · rw [hevts] at he'
        rcases List.mem_cons.mp he' with rfl | he'
        · cases hptr.symm.trans hy
          exact absurd rfl her
        · exact ⟨e', he', hx, hy⟩
  · rw [hevts]
    exact List.mem_cons_of_mem e he'

theorem Ports.associateListener (h : Ports rt) (hu : Uses rt) (ho : rt.owner fd = some .listener)
    (events li : Nat) (fired ok : Bool) :
    Ports { rt with p := (efPortAssociate rt.p fd events (.listen li) fired ok).2 } := by
  unfold efPortAssociate
  split
  · refine h.setEntry (fun er haw => ?_) (fun _ _ => by simp) (fun _ _ _ => ho)
    cases ho.symm.trans (haw.owner hu)
  · exact h

/-- Closing listeners takes their descriptors out of the set. -/
theorem foldl_closeFd_port (del : Nat → Bool) (fds : List Nat)
    (s : EfPort × (Nat → Option Owner)) (fd : Nat) :
    (fds.foldl (Runtime.closeFd efPort del) s).1 fd = if fd ∈ fds then none else s.1 fd := by
  induction fds generalizing s with
  | nil => rfl
  | cons fd' fds ih =>
      have hone : (Runtime.closeFd efPort del s fd').1 = Function.update s.1 fd' none := by
        have hdel : (efPort.dissociate s.1 fd' false false (del fd')).2 =
            Function.update s.1 fd' none := efPortDissociate_snd s.1 fd' false (del fd')
        unfold Runtime.closeFd
        rw [hdel]
        dsimp only
        split
        · exact Function.update_idem _ _ _
        · rfl
      rw [List.foldl_cons, ih, hone]
      by_cases hmem : fd ∈ fds <;> by_cases he : fd = fd' <;> simp [hmem, he]

theorem Ports.closeListeners (h : Ports rt) (hu : Uses rt) (del : Nat → Bool) :
    Ports (Runtime.closeListeners efPort del rt) := by
  rw [Runtime.closeListeners_eq]
  refine (h.setEntries (fun fd => ?_) (fun fd events li hp => ?_)).congr rfl rfl rfl rfl
  · rw [foldl_closeFd_port]
    split
    next hmem =>
      refine Or.inr ⟨fun er haw => ?_, by simp⟩
      cases (hu.listener hmem).symm.trans (haw.owner hu)
    next => exact Or.inl rfl
  · rw [foldl_closeFd_port] at hp
    rw [Runtime.foldl_closeFd_owner]
    split at hp
    · cases hp
    next hmem =>
      rw [if_neg hmem]
      exact h.listener fd events li hp

theorem Ports.acceptSocket (h : Ports rt) (hu : Uses rt) {socket : Nat} {nonblock : Bool}
    {fresh : Option Nat} {ok : Bool}
    (hs : rt.acceptSocket efPort socket nonblock fresh ok = some rt') : Ports rt' := by
  obtain ⟨li, evts, info, fd, hp, hinfo, hfd, hclosed, hcase⟩ :=
    Runtime.acceptSocket_cases hs
  have ho : rt.owner fd = some .listener :=
    hu.owners.listener info (Runtime.findListen_spec hinfo).1 fd hfd
  have hnot : rt.owner socket ≠ some .listener := by simp [hclosed]
  have hevts : rt.phase.evts = evts := by
    rw [hp]
    rfl
  rcases hcase with ⟨_, rfl⟩ | ⟨_, _, rfl⟩ | ⟨node, rest, _, _, rfl⟩
  · exact ((h.associateListener hu ho efPollin li true ok).setOwner hnot _).congr rfl rfl
      hevts.symm rfl
  · have hno : ∀ er, ¬ Awaits rt er socket := fun er haw => by
      cases hclosed.symm.trans (haw.owner hu)
    have h₁ : Ports { rt with p := efPort.closed rt.p socket } :=
      h.setEntry hno (fun _ _ => by simp) (fun _ _ he => by cases he)
    exact (h₁.associateListener (hu.setPoll _) ho efPollin li true ok).congr rfl rfl
      hevts.symm rfl
  · exact (h.setOwner hnot (some (.queued node))).congr rfl rfl rfl rfl

theorem Ports.nextQueued (h : Ports rt) (hu : Uses rt) (hb : Base rt) {fresh : Option Nat}
    (hs : rt.nextQueued fresh = some rt') : Ports rt' := by
  rcases Runtime.nextQueued_cases hs with ⟨hp, rfl⟩ | ⟨id, lis, info, hp, hinfo, hcase⟩
  · exact h.congr rfl rfl (by rw [hp]; rfl) rfl
  rcases hcase with ⟨_, rfl⟩ | ⟨qf, qfs, pool, hqf, ⟨_, rfl⟩ | ⟨er, hc, rfl⟩⟩
  · exact h.congr rfl rfl (by rw [hp]; rfl) rfl
  · exact h.congr rfl rfl (by rw [hp]; rfl) rfl
  rcases hb.pool.create hc with ⟨hco, _⟩ | ⟨co, hco, hlive, _⟩
  · cases hco
  cases hco
  have hx : (rt.routines er).pc = .exited := not_not.mp hlive
  have hno : ∀ fd, ¬ Awaits rt er fd := by
    rintro fd ⟨c, hpc, _⟩
    cases hx.symm.trans hpc
  have hqo : rt.owner qf.fd = some (.queued qf.node) :=
    hu.owners.queued info (Runtime.findListen_spec hinfo).1 qf
      (by rw [hqf]; exact List.mem_cons_self)
      (Runtime.not_starting hp (fun _ _ => Phase.noConfusion) qf)
  have h₁ := h.setRoutine (r := ⟨qf.fd, qf.fd, .user 0 0⟩) hno (by simp) (by simp) (some er)
  have hnot : rt.owner qf.fd ≠ some .listener := by simp [hqo]
  exact (h₁.setOwner hnot (some (.routine er))).congr rfl rfl (by rw [hp]; rfl) rfl

theorem Ports.exitQueue (h : Ports rt) (hu : Uses rt) {del idleStop idle : Nat → Bool}
    (hs : rt.exitQueue efPort del idleStop idle = some rt') : Ports rt' := by
  obtain ⟨hp, hcase⟩ := Runtime.exitQueue_cases hs
  have h' := h.closeListeners hu del
  have hp' : (Runtime.closeListeners efPort del rt).phase.evts = [] := by
    rw [Runtime.closeListeners_eq, hp]
    rfl
  rcases hcase with ⟨_, rfl⟩ | ⟨_, _, rfl⟩ | ⟨_, _, rfl⟩
  · exact h.congr rfl rfl (by rw [hp]; rfl) rfl
  · exact h'.congr rfl rfl hp'.symm rfl
  · exact h'.congr rfl rfl hp'.symm rfl

theorem Ports.loopStep (h : Ports rt) (hu : Uses rt) (hb : Base rt)
    (hs : Runtime.loopStep efPort rt a = some rt') : Ports rt' := by
  unfold Runtime.loopStep at hs
  split at hs
  next ok =>
    rcases Runtime.associateListener_cases hs with ⟨hp, rfl⟩ | ⟨li, rest, hp, _, rfl⟩ |
      ⟨li, rest, fd, ret, p, hp, hfd, ha, hcase⟩
    · exact h.congr rfl rfl (by rw [hp]; rfl) rfl
    · exact h.congr rfl rfl (by rw [hp]; rfl) rfl
    · have ho := hu.owners.listener li (hb.associating _ hp li List.mem_cons_self) fd hfd
      have h₁ : Ports { rt with p := p } := by
        have h₂ := h.associateListener hu ho efPollin li.id false (ok && rt.isOpen fd)
        rwa [show (efPortAssociate rt.p fd efPollin (.listen li.id) false (ok && rt.isOpen fd)).2
          = p from congrArg Prod.snd ha] at h₂
      rcases hcase with ⟨_, rfl⟩ | ⟨_, rfl⟩
      · exact h₁.congr rfl rfl (by rw [hp]; rfl) rfl
      · exact h₁.congr rfl rfl (by rw [hp]; rfl) rfl
  next =>
    obtain ⟨hp, evts, p, hw, rfl⟩ := Runtime.pollWait_cases hs
    exact h.newBatch (by rw [hp]; rfl) hw
  next =>
    obtain ⟨hp, rfl | rfl⟩ := Runtime.pollWaitFailed_cases hs
    · exact h.congr rfl rfl (by rw [hp]; rfl) rfl
    · exact h.congr rfl rfl (by rw [hp]; rfl) rfl
  next =>
    rcases Runtime.nextEvent_cases hs with ⟨hp, rfl⟩ | ⟨e, evts, li, hp, hptr, rfl⟩ |
      ⟨e, evts, er, hp, hptr, ⟨hpc, rfl⟩ | ⟨c, retval, hpc, rfl⟩⟩
    · exact h.congr rfl rfl (by rw [hp]; rfl) rfl
    · refine h.setPhase (by rw [hp]; exact List.suffix_cons e evts) (fun e' he' er her => ?_)
      rw [hp] at he'
      rcases List.mem_cons.mp he' with rfl | he'
      · cases hptr.symm.trans her
      · exact he'
    · have hmem : e ∈ rt.phase.evts := by
        rw [hp]
        exact List.mem_cons_self
      obtain ⟨c, hc, _⟩ := h.awaits_of_event hmem hptr
      cases hpc.symm.trans hc
    · exact h.resumed hp hptr hpc
  next =>
    obtain ⟨li, evts, hp, rfl⟩ := Runtime.acceptFailed_cases hs
    exact h.congr rfl rfl (by rw [hp]; rfl) rfl
  next ok =>
    obtain ⟨li, evts, info, fd, hp, hinfo, hfd, rfl⟩ := Runtime.acceptEnd_cases hs
    have ho := hu.owners.listener info (Runtime.findListen_spec hinfo).1 fd hfd
    exact (h.associateListener hu ho efPollin li true ok).congr rfl rfl (by rw [hp]; rfl) rfl
  next => exact h.acceptSocket hu hs
  next => exact h.nextQueued hu hb hs
  next =>
    obtain ⟨qf, id, lis, hp, rfl⟩ := Runtime.queuedStarted_cases hs
    exact h.congr rfl rfl (by rw [hp]; rfl) rfl
  next => exact h.exitQueue hu hs
  next => cases hs

/-! ## The routines -/

theorem Ports.associated (h : Ports rt) (hu : Uses rt) (hno : ∀ fd, ¬ Awaits rt er fd)
    {c : Call} (ho : rt.owner c.fd = some (.routine er)) {r : Routine} (hr : r.pc = .waiting c 0)
    (events : Nat) (current : Option Nat) :
    Ports { rt with
      p := Function.update rt.p c.fd (some (events, .routine er))
      routines := Function.update rt.routines er r
      current := current } := by
  have hfree : ∀ er', ¬ Awaits rt er' c.fd := by
    intro er' haw
    cases ho.symm.trans (haw.owner hu)
    exact hno c.fd haw
  have hself : ∀ fd, Awaits { rt with
      p := Function.update rt.p c.fd (some (events, .routine er))
      routines := Function.update rt.routines er r
      current := current } er fd ↔ fd = c.fd := by
    intro fd
    unfold Awaits
    simp [hr, eq_comm]
  have hother : ∀ er' fd, er' ≠ er → (Awaits { rt with
      p := Function.update rt.p c.fd (some (events, .routine er))
      routines := Function.update rt.routines er r
      current := current } er' fd ↔ Awaits rt er' fd) := by
    intro er' fd he
    unfold Awaits
    simp [he]
  refine ⟨fun er' fd => ?_, h.nodup, fun e he er' hptr events' er'' hp => ?_,
    fun fd events' li hp => ?_, waiting_update h fun c' retval hpc => ?_,
    again_update h (by simp [hr])⟩
  · by_cases hfd : fd = c.fd
    · subst hfd
      by_cases he : er' = er
      · subst he
        exact iff_of_true (Or.inl ⟨events, Function.update_self _ _ _⟩) ((hself _).mpr rfl)
      · rw [hother er' _ he]
        refine iff_of_false ?_ (hfree er')
        rintro (⟨events', hp⟩ | hevt)
        · dsimp only at hp
          rw [Function.update_self] at hp
          cases hp
          exact he rfl
        · exact hfree er' ((h.armed er' c.fd).mp (Or.inr hevt))
    · have harmed : Armed { rt with
          p := Function.update rt.p c.fd (some (events, .routine er))
          routines := Function.update rt.routines er r
          current := current } er' fd ↔ Armed rt er' fd := by
        unfold Armed
        dsimp only
        rw [Function.update_of_ne hfd]
      rw [harmed, h.armed er' fd]
      by_cases he : er' = er
      · subst he
        exact iff_of_false (hno fd) (mt (hself fd).mp hfd)
      · exact (hother er' fd he).symm
  · dsimp only at hp
    by_cases hfd : e.fd = c.fd
    · exact hfree er' (hfd ▸ h.awaits_of_event he hptr)
    · rw [Function.update_of_ne hfd] at hp
      exact h.once e he er' hptr events' er'' hp
  · dsimp only at hp
    by_cases hfd : fd = c.fd
    · subst hfd
      rw [Function.update_self] at hp
      cases hp
    · rw [Function.update_of_ne hfd] at hp
      exact h.listener fd events' li hp
  · cases hr.symm.trans hpc
    exact Int.le_refl 0

theorem Ports.startTransfer (h : Ports rt) (hu : Uses rt) (hno : ∀ fd, ¬ Awaits rt er fd)
    (ho : rt.owner fd = some (.routine er)) (w : Wrapper) (ok : Bool) (errno : Nat) :
    Ports (Runtime.startTransfer efPort rt er w fd ok errno) := by
  rcases associate_cases rt.p fd w.transfer.interest (.routine er) false
    (ok && rt.isOpen fd) with hr | hr
  · obtain ⟨pc, current, he, ⟨_, rfl, rfl⟩ | ⟨hpos, _⟩ | ⟨hzero, _⟩⟩ :=
      Runtime.startTransfer_spec hr errno
    · rw [he]
      exact h.setRoutine hno (by simp) (by simp) rt.current
    · exact absurd hpos (by simp)
    · exact absurd hzero (by simp)
  · obtain ⟨pc, current, he, ⟨hneg, _⟩ | ⟨hpos, _⟩ | ⟨_, rfl, rfl⟩⟩ :=
      Runtime.startTransfer_spec hr errno
    · exact absurd hneg (by simp)
    · exact absurd hpos (by simp)
    · rw [he]
      exact h.associated hu hno (c := .transfer w fd) ho rfl w.transfer.interest none

theorem Ports.startConnect (h : Ports rt) (hu : Uses rt) (hno : ∀ fd, ¬ Awaits rt er fd)
    (ho : rt.owner fd = some (.routine er)) (answer : Runtime.ConnectAnswer) :
    Ports (Runtime.startConnect efPort rt er fd answer) := by
  have huser : ∀ retval errno, Ports { rt with
      routines := Function.update rt.routines er
        ⟨fd, (rt.routines er).procFd, .user retval errno⟩ } :=
    fun retval errno => h.setRoutine hno (by simp) (by simp) rt.current
  cases answer with
  | failed errno => simpa [Runtime.startConnect, Runtime.setPc] using huser (-1) errno
  | connected retval errno => simpa [Runtime.startConnect, Runtime.setPc] using huser retval errno
  | inProgress ok errno =>
      rcases associate_cases rt.p fd efPollout (.routine er) false (ok && rt.isOpen fd) with
        hr | hr
      · obtain ⟨pc, current, he, ⟨_, rfl, rfl⟩ | ⟨hpos, _⟩⟩ :=
          Runtime.startConnect_spec hr errno
        · rw [he]
          exact huser (-1) errno
        · exact absurd hpos (by simp)
      · obtain ⟨pc, current, he, ⟨hneg, _⟩ | ⟨_, rfl, rfl⟩⟩ :=
          Runtime.startConnect_spec hr errno
        · exact absurd hneg (by simp)
        · rw [he]
          exact h.associated hu hno (c := .connect fd) ho rfl efPollout none

theorem Ports.close (h : Ports rt) (hno : ∀ er, ¬ Awaits rt er fd)
    (ho : rt.owner fd ≠ some .listener) : Ports (Runtime.close efPort rt fd) := by
  unfold Runtime.close
  split
  · exact (h.setEntry (e := none) hno (by simp) (by simp)).setOwner ho none
  · exact h

theorem Ports.routineClose (h : Ports rt) (hno : ∀ er, ¬ Awaits rt er fd)
    (ho : rt.owner fd ≠ some .listener) (ok : Bool) :
    Ports (Runtime.efRoutineClose efPort rt fd ok) := by
  have h₁ : Ports { rt with p := (efPort.dissociate rt.p fd false true ok).2 } := by
    have h₂ := h.setEntry (e := none) hno (by simp) (by simp)
    rwa [← efPortDissociate_snd rt.p fd true ok] at h₂
  exact h₁.close hno ho

theorem Ports.routineStep (h : Ports rt) (hu : Uses rt) (hb : Base rt)
    (hcur : rt.current = some er) (hown : rt.usesOwn a = true)
    (hs : Runtime.routineStep efPort rt er a = some rt') : Ports rt' := by
  have hno : ∀ fd, ¬ Awaits rt er fd := fun fd haw => haw.not_running ((hb.running er).mpr hcur)
  have hfree : ∀ {fd}, rt.owner fd = some (.routine er) → ∀ er', ¬ Awaits rt er' fd := by
    intro fd ho er' haw
    cases ho.symm.trans (haw.owner hu)
    exact hno fd haw
  unfold Runtime.usesOwn at hown
  rw [hcur] at hown
  unfold Runtime.routineStep at hs
  split at hs
  next w fd ok errno hpc =>
    cases hs
    exact h.startTransfer hu hno (of_decide_eq_true hown) w ok errno
  next fd answer hpc =>
    cases hs
    exact h.startConnect hu hno (of_decide_eq_true hown) answer
  next fd hpc =>
    split at hs
    · cases hs
    next ho =>
      cases hs
      have hnone : rt.owner fd = none := by simpa [Runtime.isOpen] using ho
      exact h.setOwner (by simp [hnone]) _
  next fd wrapped ok hpc =>
    cases hs
    obtain ⟨ho, _⟩ := of_decide_eq_true hown
    split
    · exact h.routineClose (hfree ho) (by simp [ho]) ok
    · exact h.close (hfree ho) (by simp [ho])
  next ok hpc =>
    cases hs
    have ho := hu.proc er (hb.live_of_current hcur)
    have h₁ := h.routineClose (hfree ho) (by simp [ho]) ok
    obtain ⟨p, he⟩ := Runtime.efRoutineClose_owner efPort rt (rt.routines er).procFd ok
    unfold Runtime.endProc
    rw [he] at h₁ ⊢
    exact (h₁.setRoutine (r := { rt.routines er with pc := .exited }) hno (by simp) (by simp)
      none).congr rfl rfl rfl rfl
  next c retval events error hpc =>
    cases hs
    have hrun := (Runtime.afterYield_call c retval events error).2
    refine h.setRoutine hno (fun c' retval' hc => ?_) (fun c' retval' hc => ?_) rt.current
    · dsimp only at hc
      rw [hc] at hrun
      exact hrun.elim
    · dsimp only at hc
      unfold Runtime.afterYield at hc
      split at hc
      all_goals
        split at hc
        · cases hc
        · split at hc <;> cases hc
  next c retval errno hpc =>
    cases hs
    have hrun := (Runtime.afterTransfer_call c retval errno).2
    refine h.setRoutine hno (fun c' retval' hc => ?_) (fun c' retval' hc => ?_) rt.current
    · dsimp only at hc
      rw [hc] at hrun
      exact hrun.elim
    · dsimp only at hc
      unfold Runtime.afterTransfer at hc
      split at hc
      next hneg =>
        cases hc
        exact hneg.1
      · split at hc <;> cases hc
  next c retval hpc =>
    cases hs
    have hneg := h.again er c retval hpc
    refine h.setRoutine hno (fun c' retval' hc => ?_) (by simp) none
    cases hc
    exact hneg
  next c retval errno ok hpc =>
    cases hs
    exact h.setRoutine hno (by simp) (by simp) rt.current
  next => cases hs

/-! ## Runs -/

theorem Ports.step (h : Ports rt) (hu : Uses rt) (hb : Base rt) (hown : rt.usesOwn a = true)
    (hs : Runtime.step efPort rt a = some rt') : Ports rt' := by
  unfold Runtime.step at hs
  split at hs
  · cases hs
    exact h.congr rfl rfl rfl rfl
  next => exact h.loopStep hu hb hs
  next er _ hcur => exact h.routineStep hu hb hcur hown hs

theorem Ports.initial (h : Initial (fun _ => none) rt) : Ports rt where
  armed := fun er fd => by
    refine iff_of_false ?_ ?_
    · rintro (⟨events, hp⟩ | ⟨e, he, _⟩)
      · rw [h.p] at hp
        cases hp
      · rw [h.phase] at he
        cases he
    · rintro ⟨c, hpc, _⟩
      cases (h.routines er).symm.trans hpc
  nodup := by
    rw [h.phase]
    exact List.nodup_nil
  once := fun e he => by
    rw [h.phase] at he
    cases he
  listener := fun fd events li hp => by
    rw [h.p] at hp
    cases hp
  waiting := fun er c retval hpc => by cases (h.routines er).symm.trans hpc
  again := fun er c retval hpc => by cases (h.routines er).symm.trans hpc

structure Inv (rt : Runtime EfPort) : Prop where
  base : Base rt
  uses : Uses rt
  ports : Ports rt

theorem inv_step (h : Inv rt) (hown : rt.usesOwn a = true)
    (hs : Runtime.step efPort rt a = some rt') : Inv rt' :=
  ⟨h.base.step hs, h.uses.step h.base hown hs, h.ports.step h.uses h.base hown hs⟩

theorem inv_invariant : Lib.Invariant (Initial fun _ => none) (Runtime.step efPort)
    (fun rt a => rt.usesOwn a = true) Inv where
  init := fun h => ⟨.initial h, .initial h, .initial h⟩
  step := fun h hown hs => inv_step h hown hs

/-- A routine that waits without an event to come stays where it is, whatever happens. -/
theorem Inv.stays (h : Inv rt) {c : Call} {retval : Int}
    (hpc : (rt.routines er).pc = .waiting c retval) (hne : retval ≠ 0)
    (hs : Steps (Runtime.step efPort) (fun rt a => rt.usesOwn a = true) rt rt') :
    Inv rt' ∧ (rt'.routines er).pc = .waiting c retval := by
  induction hs with
  | refl => exact ⟨h, hpc⟩
  | @tail rt₁ _ _ hstep ih =>
      obtain ⟨a, hown, hs⟩ := hstep
      obtain ⟨hinv, hpc'⟩ := ih
      refine ⟨inv_step hinv hown hs, ?_⟩
      rcases Runtime.step_waiting hinv.base hs hpc' with he | ⟨_, _, e, evts, hp, hptr⟩
      · rw [he]
        exact hpc'
      · have hmem : e ∈ rt₁.phase.evts := by
          rw [hp]
          exact List.mem_cons_self
        obtain ⟨c', hc', _⟩ := hinv.ports.awaits_of_event hmem hptr
        cases hpc'.symm.trans hc'
        exact absurd rfl hne

/-- Over `port.c` a routine that waits since `associate` is associated or its event is left of the
batch, and each event of a batch resumes the routine that waits for the descriptor that fired.
One that waits on behind a transfer that would block, with the negative `retval` of the transfer,
is never resumed. -/
theorem port_event_routing {rt : Runtime EfPort}
    (h : Lib.Reachable (Initial fun _ => none) (Runtime.step efPort)
      (fun rt a => rt.usesOwn a = true) rt) :
    (∀ er c, (rt.routines er).pc = .waiting c 0 →
      (∃ events, rt.p c.fd = some (events, .routine er)) ∨
        ∃ e ∈ rt.phase.evts, e.fd = c.fd ∧ e.ptr = .routine er) ∧
    (∀ e evts er, rt.current = none → rt.phase = .events (e :: evts) → e.ptr = .routine er →
      ∃ c rt', (rt.routines er).pc = .waiting c 0 ∧ c.fd = e.fd ∧
        Runtime.step efPort rt .event = some rt' ∧ rt'.current = some er ∧
        (rt'.routines er).pc = .woken c 0 e.events) ∧
    ∀ er c retval, (rt.routines er).pc = .waiting c retval → retval ≠ 0 →
      ∀ rt', Steps (Runtime.step efPort) (fun rt a => rt.usesOwn a = true) rt rt' →
        (rt'.routines er).pc = .waiting c retval := by
  have hinv := inv_invariant.holds h
  refine ⟨fun er c hpc => (hinv.ports.armed er c.fd).mpr ⟨c, hpc, rfl⟩,
    fun e evts er hcur hp hptr => ?_,
    fun er c retval hpc hne rt' hs => (hinv.stays hpc hne hs).2⟩
  have hmem : e ∈ rt.phase.evts := by
    rw [hp]
    exact List.mem_cons_self
  obtain ⟨c, hpc, hfd⟩ := hinv.ports.awaits_of_event hmem hptr
  obtain ⟨rt', hs, hcur', hpc'⟩ := Runtime.step_event efPort hcur hp hptr hpc
  exact ⟨c, rt', hpc, hfd, hs, hcur', hpc'⟩

/-- A routine is told of input, and finds that there is none. -/
def noInput : List (Runtime.Act (List (Nat × Nat))) :=
  [.associate true, .associate true, .wait [(3, efPollin)], .event, .accept 5 true (some 50) true,
    .acceptFailed, .acceptEnd true, .event, .queue (some 1000), .transfer .read 5 true 0, .started,
    .queue none, .queue none, .exitQueue (fun _ => true) (fun _ => false) (fun _ => false),
    .wait [(5, efPollin)], .event, .wake 0, .transferred (-1) eagain, .unset]

/-- It waits for ever. -/
theorem port_event_routing_lost : ∃ rt, Lib.run (Runtime.step efPort)
      (fun rt a => rt.usesOwn a = true) (Runtime.oneListener fun _ => none) noInput = some rt ∧
    ∀ rt', Steps (Runtime.step efPort) (fun rt a => rt.usesOwn a = true) rt rt' →
      (rt'.routines 1000).pc = .waiting (.transfer .read 5) (-1) := by
  have hrun : (Lib.run (Runtime.step efPort) (fun rt a => rt.usesOwn a = true)
      (Runtime.oneListener fun _ => none) noInput).map (fun rt => (rt.routines 1000).pc) =
      some (.waiting (.transfer .read 5) (-1)) := by decide
  obtain ⟨rt, hr, hpc⟩ := Option.map_eq_some_iff.mp hrun
  obtain ⟨_, _, hlost⟩ := port_event_routing
    ((Lib.Reachable.init (Runtime.oneListener_initial fun _ => none)).run hr)
  exact ⟨rt, hr, hlost 1000 _ _ hpc (by decide)⟩

end EFramework.Port
