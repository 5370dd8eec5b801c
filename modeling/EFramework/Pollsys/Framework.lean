import EFramework.Lib.Simulation
import EFramework.Pollsys.Refinement
import EFramework.Runtime.Backend
import EFramework.Runtime.Routing
import EFramework.Runtime.Waiting

/-! # The framework over `poll.c`

The arrays of `poll.c` stand for a set of the kind that the kernel keeps for
`epoll.c`. So the framework does over `poll.c` what it does over `epoll.c`, as long as
no two listeners share a descriptor: `poll.c` lets the second one replace the first,
where the kernel refuses it.
-/

namespace EFramework.Pollsys

open EFramework.Runtime (Act Initial Mimics Settled Inv)

/-! ## The poller -/

structure Ps where
  ep : EfPollsys
  mem : Nat → Realloc

namespace Ps

def associate (p : Ps) (fd events : Nat) (ptr : PollPtr) (fired : Bool) : Int × Ps :=
  let (ret, ep) := efPollAssociate p.ep fd events ptr fired (p.mem 0)
  (ret, ⟨ep, fun n => p.mem (n + 1)⟩)

def dissociate (p : Ps) (fd : Nat) (fired onclose : Bool) : Int × Ps :=
  let (ret, ep) := efPollDissociate p.ep fd fired onclose
  (ret, { p with ep := ep })

/-- The kernel sets bits of a positive `short`. Who is told is always known. -/
def wait (p : Ps) (revents : Int → Nat) (count : Nat) : Option (List Event × Ps) :=
  if (List.range p.ep.used.toNat).all (fun i => revents i < 2 ^ 15) then do
    let (_, evts, ep) := efPollWait p.ep count (.revents fun i => revents i)
    let evts ← (evts.zip (firedFds p.ep fun i => revents i)).mapM
      (fun r => r.1.ptr.map (fun ptr => Event.mk r.1.events.toNat ptr r.2))
    pure (evts, { p with ep := ep })
  else none

end Ps

/-- The poller of `ef_create_poll`, with room for 1024 events in `ef_run_loop`. The kernel knows
of the descriptors during a wait only. -/
def efPollPs : EfPoll Ps (Int → Nat) where
  associate p fd events ptr fired _ := p.associate fd events ptr fired
  dissociate p fd fired onclose _ := p.dissociate fd fired onclose
  unset p fd events := (0, { p with ep := (efPollUnset p.ep fd events).2 })
  wait p revents := p.wait revents 1024
  closed p _ := p

/-! ## The arrays as a set -/

/-- The arrays hold what the kernel holds in the set. -/
structure Holds (p : Ps) (q : Epoll) : Prop where
  ok : Ok p.ep
  cap : 0 < p.ep.cap
  cap_le : p.ep.cap ≤ 2 ^ 31 - 1
  entry : ∀ fd, q fd = (p.ep.map fd).map (fun e => (e.1.toNat, e.2))

variable {p : Ps} {q : Epoll} {fd events count : Nat}

theorem short_of_lt {n : Nat} (h : n < 2 ^ 15) : short n = n := by
  unfold short
  exact Int.bmod_eq_of_le (by omega) (by omega)

theorem Ok.used_eq {ep : EfPollsys} (h : Ok ep) :
    ep.used = {fd | (ep.map fd).isSome = true}.ncard := by
  have hkeys : ∀ fd, fd ∈ ep.toSlots.keys PollFd.fd ↔ fd ∈ {fd | (ep.map fd).isSome = true} :=
    fun fd => h.slots.mem_keys.trans h.map_isSome.symm
  rw [ncard_of_nodup h.slots.keys_nodup hkeys, Lib.Slots.keys, List.length_map,
    List.length_range, Int.toNat_of_nonneg h.slots.used_nonneg]

theorem Holds.entry_iff (h : Holds p q) (fd : Nat) (ptr : PollPtr) :
    (∃ events, q fd = some (events, ptr)) ↔ ∃ events, p.ep.map fd = some (events, ptr) := by
  rw [h.entry]
  cases p.ep.map fd with
  | none => simp
  | some e => simp [Prod.ext_iff]

theorem Holds.update (h : Holds p q) {ep : EfPollsys} {mem : Nat → Realloc} (hok : Ok ep)
    (hcap : p.ep.cap ≤ ep.cap) (hle : ep.cap ≤ 2 ^ 31 - 1) {e : Option (Int × PollPtr)}
    (hmap : ep.map = Function.update p.ep.map fd e) :
    Holds ⟨ep, mem⟩ (Function.update q fd (e.map (fun e => (e.1.toNat, e.2)))) := by
  refine ⟨hok, Nat.lt_of_lt_of_le h.cap hcap, hle, fun fd' => ?_⟩
  rw [hmap]
  by_cases he : fd' = fd
  · subst he
    simp
  · rw [Function.update_of_ne he, Function.update_of_ne he]
    exact h.entry fd'

theorem Holds.same (h : Holds p q) {ep : EfPollsys} {mem : Nat → Realloc} (hok : Ok ep)
    (hcap : p.ep.cap ≤ ep.cap) (hle : ep.cap ≤ 2 ^ 31 - 1) (hmap : ep.map = p.ep.map) :
    Holds ⟨ep, mem⟩ q := by
  refine ⟨hok, Nat.lt_of_lt_of_le h.cap hcap, hle, fun fd => ?_⟩
  rw [hmap]
  exact h.entry fd

theorem efPollAssociate_ret (ep : EfPollsys) (fd : Nat) (events : Int) (ptr : PollPtr)
    (mem : Realloc) :
    (efPollAssociate ep fd events ptr false mem).1 = -1 ∨
      (efPollAssociate ep fd events ptr false mem).1 = 0 := by
  unfold efPollAssociate
  rw [if_neg Bool.false_ne_true]
  dsimp only
  split
  · exact Or.inl rfl
  · exact Or.inr rfl

theorem Holds.associate (h : Holds p q) (hfree : q fd = none) (hfd : fd < 2 ^ 30)
    (hevents : events < 2 ^ 15) (ptr : PollPtr) :
    ∃ ok, (efEpollAssociate q fd events ptr false ok).1 = (p.associate fd events ptr false).1 ∧
      Holds (p.associate fd events ptr false).2 (efEpollAssociate q fd events ptr false ok).2 := by
  obtain ⟨hok, hcap, hmap⟩ := h.ok.associate h.cap fd events ptr false (p.mem 0)
  have hle := associate_cap_le h.cap_le (by omega : 2 * fd ≤ 2 ^ 31 - 1) events ptr false (p.mem 0)
  rcases efPollAssociate_ret p.ep fd events ptr (p.mem 0) with hret | hret
  · refine ⟨false, hret.symm, ?_⟩
    exact h.same hok hcap hle (hmap.trans (if_pos (Or.inr (by omega))))
  · have hadd : efEpollAssociate q fd events ptr false true =
        (0, Function.update q fd (some (events, ptr))) := by
      simp [efEpollAssociate, epollAdd, hfree]
    have hmap' := hmap.trans (if_neg (by simp [hret]))
    rw [short_of_lt hevents] at hmap'
    refine ⟨true, ?_, ?_⟩
    · rw [hadd]
      exact hret.symm
    · rw [hadd]
      exact h.update hok hcap hle hmap'

theorem Holds.dissociate (h : Holds p q) (fd : Nat) (fired onclose : Bool) :
    Holds (p.dissociate fd fired onclose).2 (Function.update q fd none) := by
  obtain ⟨hok, hcap, hmap⟩ := h.ok.dissociate fd fired onclose
  exact h.update (e := none) hok (Nat.le_of_eq hcap.symm) (hcap ▸ h.cap_le) hmap

/-! ## Waiting -/

theorem mapM_some {α β : Type} {f : α → Option β} {g : α → β} {l : List α}
    (h : ∀ a ∈ l, f a = some (g a)) : l.mapM f = some (l.map g) := by
  induction l with
  | nil => rfl
  | cons a l ih =>
      rw [List.mapM_cons, h a List.mem_cons_self, ih (fun b hb => h b (List.mem_cons_of_mem a hb))]
      rfl

theorem zip_take {α : Type} (l : List α) (n : Nat) :
    (l.take n).zip l = (l.take n).map (fun a => (a, a)) := by
  induction l generalizing n with
  | nil => simp
  | cons a l ih =>
      cases n with
      | zero => rfl
      | succ n => simp [ih]

def reported (ep : EfPollsys) (revents : Int → Int) (count : Nat) : List Nat :=
  let slots := fired (polled ep revents) 0 ep.used.toNat
  slots.take (min (count : Int) slots.length).toNat

def slotEvent (ep : EfPollsys) (revents : Int → Nat) (i : Nat) : Event :=
  ⟨revents i, ((ep.map (ep.items i).fd).map Prod.snd).getD (.listen 0), (ep.items i).fd⟩

theorem mem_reported {ep : EfPollsys} {revents : Int → Int} {i : Nat}
    (hi : i ∈ reported ep revents count) : i < ep.used.toNat ∧ revents i ≠ 0 :=
  mem_fired.mp (List.mem_of_mem_take hi)

theorem reported_length (ep : EfPollsys) (revents : Int → Int) (count : Nat) :
    (reported ep revents count).length ≤ count := by
  unfold reported
  rw [List.length_take]
  omega

theorem Ok.slot_map {ep : EfPollsys} (h : Ok ep) {i : Nat} (hi : i < ep.used.toNat) :
    ep.index (ep.items i).fd = i ∧ ∃ e, ep.map (ep.items i).fd = some e := by
  obtain ⟨hcap, hidx⟩ := h.slots.key_slot hi
  refine ⟨hidx, Option.isSome_iff_exists.mp (h.map_isSome.mpr ⟨hcap, ?_⟩)⟩
  rw [hidx]
  omega

theorem Holds.wait_eq (h : Holds p q) (count : Nat) {revents : Int → Nat}
    (hr : ∀ i < p.ep.used.toNat, revents i < 2 ^ 15) :
    p.wait revents count =
      some ((reported p.ep (fun i => revents i) count).map (slotEvent p.ep revents),
        { p with ep := polled p.ep fun i => revents i }) := by
  have hall : (List.range p.ep.used.toNat).all (fun i => revents i < 2 ^ 15) = true := by
    simpa using hr
  have hzip : ((reported p.ep (fun i => revents i) count).map
      (fun i : Nat => event (polled p.ep fun i => revents i) i)).zip
        (firedFds p.ep fun i => revents i) =
      (reported p.ep (fun i => revents i) count).map
        (fun i : Nat => (event (polled p.ep fun i => revents i) i, (p.ep.items i).fd)) := by
    unfold reported firedFds
    rw [List.zip_map, zip_take, List.map_map]
    rfl
  have hmap : ((reported p.ep (fun i => revents i) count).map
      (fun i : Nat => (event (polled p.ep fun i => revents i) i, (p.ep.items i).fd))).mapM
        (fun r => r.1.ptr.map (fun ptr => Event.mk r.1.events.toNat ptr r.2)) =
      some ((reported p.ep (fun i => revents i) count).map (slotEvent p.ep revents)) := by
    rw [List.mapM_map]
    refine mapM_some (fun i hi => ?_)
    have hlt := (mem_reported hi).1
    obtain ⟨hidx, e, he⟩ := h.ok.slot_map hlt
    simp [h.ok.event_polled hlt, slotEvent, hidx, he]
  unfold Ps.wait
  rw [if_pos hall, efPollWait_eq]
  unfold reported at hzip hmap ⊢
  simp only [hzip, hmap, Option.bind_eq_bind, Option.bind_some]
  rfl

theorem Holds.wait (h : Holds p q) {revents : Int → Nat} {evts : List Event} {p' : Ps}
    (hw : p.wait revents count = some (evts, p')) :
    Holds p' q ∧ evts.length ≤ count ∧ (evts.map Event.fd).Nodup ∧
      ∀ e ∈ evts, ∃ events, q e.fd = some (events, e.ptr) := by
  have hr : ∀ i < p.ep.used.toNat, revents i < 2 ^ 15 := by
    by_contra hno
    have hall : (List.range p.ep.used.toNat).all (fun i => revents i < 2 ^ 15) ≠ true :=
      fun hall => hno (by simpa using hall)
    rw [Ps.wait, if_neg hall] at hw
    cases hw
  rw [h.wait_eq count hr] at hw
  cases hw
  obtain ⟨hok, hmap⟩ := h.ok.polled (fun i => revents i)
  refine ⟨h.same hok (Nat.le_refl _) h.cap_le hmap, ?_, ?_, fun e he => ?_⟩
  · rw [List.length_map]
    exact reported_length _ _ count
  · rw [List.map_map]
    have hsub : ((reported p.ep (fun i => revents i) count).map
        (fun i : Nat => (p.ep.items i).fd)).Sublist (firedFds p.ep fun i => revents i) :=
      (List.take_sublist _ _).map _
    exact hsub.nodup (h.ok.firedFds_nodup _)
  · obtain ⟨i, hi, rfl⟩ := List.mem_map.mp he
    obtain ⟨_, e, hm⟩ := h.ok.slot_map (mem_reported hi).1
    exact ⟨e.1.toNat, by simp [slotEvent, h.entry, hm]⟩

theorem efEpollWait_of {q : Epoll} {evts : List Event} (hlen : evts.length ≤ 1024)
    (hnodup : (evts.map Event.fd).Nodup)
    (hptr : ∀ e ∈ evts, ∃ events, q e.fd = some (events, e.ptr)) :
    efEpollWait q (evts.map (fun e => (e.fd, e.events))) = some (evts, q) := by
  have hr : ((evts.map (fun e => (e.fd, e.events))).map Prod.fst).Nodup ∧
      (evts.map (fun e => (e.fd, e.events))).length ≤ 1024 := by
    rw [List.map_map, List.length_map]
    exact ⟨hnodup, hlen⟩
  have hmap : (evts.map (fun e => (e.fd, e.events))).mapM
      (fun r => (q r.1).map (fun e => Event.mk r.2 e.2 r.1)) = some (evts.map id) := by
    rw [List.mapM_map]
    refine mapM_some (fun e he => ?_)
    obtain ⟨events, hq⟩ := hptr e he
    simp [hq]
  unfold efEpollWait
  rw [if_pos hr, hmap, List.map_id]
  rfl

/-! ## The framework -/

/-- Where there is a descriptor number for it, `poll.c` does what `epoll.c` does. -/
theorem mimics :
    Mimics efPollPs efEpoll Holds (fun q fd => q fd = none) (fun fd => fd < 2 ^ 30) where
  associate := fun h hfree hfd hevents ptr _ => h.associate hfree hfd hevents ptr
  reassociate := fun h _ _ _ _ => ⟨h.ok, h.cap, h.cap_le, h.entry⟩
  dissociate := fun {_ q} h fd fired onclose _ => by
    have hq : (efEpollDissociate q fd fired onclose true).2 = Function.update q fd none :=
      epollDel_snd q fd
    refine ⟨hq ▸ h.dissociate fd fired onclose, ?_⟩
    exact (congrFun hq fd).trans (Function.update_self _ _ _)
  unset := fun h _ _ => ⟨h.ok, h.cap, h.cap_le, h.entry⟩
  wait := fun {_ q _ _ _} h hw => by
    obtain ⟨hR, hlen, hnodup, hptr⟩ := h.wait hw
    exact ⟨_, q, efEpollWait_of hlen hnodup hptr, hR⟩
  closed := fun {_ q fd} h hfree => by
    have hq : Function.update q fd none = q := Function.update_eq_self_iff.mpr hfree.symm
    exact (congrArg (Holds _) hq).mpr h

structure Starts (rt : Runtime Ps) : Prop where
  listening : ∃ p, Created p.ep ∧ Runtime.Listening p rt
  small : ∀ fd, rt.isOpen fd = true → fd < 2 ^ 30

/-- Routines keep to their own descriptors, and no number is 2^30 or more. -/
def Disciplined (rt : Runtime Ps) (a : Act (Int → Nat)) : Prop :=
  rt.usesOwn a = true ∧ ∀ fd ∈ a.opens, fd < 2 ^ 30

instance (rt : Runtime Ps) (a : Act (Int → Nat)) : Decidable (Disciplined rt a) :=
  inferInstanceAs (Decidable (_ ∧ _))

/-- A state over `poll.c` and the same one over `epoll.c`. -/
structure Stands (rt : Runtime Ps) (rt' : Runtime Epoll) : Prop where
  same : rt' = rt.withPoll rt'.p
  holds : Holds rt.p rt'.p
  small : ∀ fd, rt.isOpen fd = true → fd < 2 ^ 30

theorem simulation : Lib.Simulation Starts (Runtime.step efPollPs) Disciplined
    (Runtime.Listening fun _ => none) (Runtime.step efEpoll) (fun rt a => rt.usesOwn a = true)
    Stands where
  init := fun {rt} h => by
    obtain ⟨p, hc, hl⟩ := h.listening
    obtain ⟨hok, hmap⟩ := hc.ok
    obtain ⟨_, hpos, hle, _⟩ := hc.spec
    refine ⟨rt.withPoll fun _ => none, ⟨?_, hl.nodup⟩, ⟨rfl, ?_, h.small⟩⟩
    · have hi := hl.initial
      exact ⟨rfl, hi.coPool, hi.freeFdList, hi.listeners, hi.ids, hi.routines, hi.current, hi.phase⟩
    · rw [hl.initial.p]
      exact ⟨hok, hpos, hle, fun fd => by rw [hmap]; rfl⟩
  step := fun {rt rt₁ a rt'} hreach hstands hg hs => by
    obtain ⟨hsame, hholds, hsmall⟩ := hstands
    have hrep := Runtime.replaceable_invariant.holds hreach
    rw [hsame] at hrep
    obtain ⟨a', q', hown, hs', hR⟩ := mimics.step (hrep.settled hsmall) hholds hg.1 hs
    rw [← hsame] at hown hs'
    refine ⟨_, .one hown hs', ⟨rfl, hR, fun fd ho => ?_⟩⟩
    have howners : Runtime.Owners rt := ⟨hrep.inv.owners.proc, hrep.inv.owners.queued,
      hrep.inv.owners.listener⟩
    rcases howners.step_opened hs ho with ho | ha
    · exact hsmall fd ho
    · exact hg.2 fd ha

/-- Each run of the framework over `poll.c` is a run over `epoll.c`, with the same loop, routines,
queues and pool in each state, and with the set that the arrays stand for. No wait finds a slot
that no one is known to await, and nothing overflows. -/
theorem framework_over_poll {rt : Runtime Ps}
    (h : Lib.Reachable Starts (Runtime.step efPollPs) Disciplined rt) :
    (∃ q : Epoll, Lib.Reachable (Runtime.Listening fun _ => none) (Runtime.step efEpoll)
        (fun rt a => rt.usesOwn a = true) (rt.withPoll q) ∧
      ∀ fd, q fd = (rt.p.ep.map fd).map (fun e => (e.1.toNat, e.2))) ∧
    (rt.p.ep.used = {fd | (rt.p.ep.map fd).isSome = true}.ncard ∧ rt.p.ep.cap < 2 ^ 31) ∧
    ∀ revents : Int → Nat, (∀ i, revents i < 2 ^ 15) → rt.current = none → rt.phase = .wait →
      ∃ rt', Runtime.step efPollPs rt (.wait revents) = some rt' := by
  obtain ⟨rt', hreach, hsame, hholds, _⟩ := simulation.reachable h
  rw [hsame] at hreach
  have hle := hholds.cap_le
  refine ⟨⟨rt'.p, hreach, hholds.entry⟩, ⟨hholds.ok.used_eq, by omega⟩,
    fun revents hr hcur hp => ?_⟩
  have hw : efPollPs.wait rt.p revents = _ := hholds.wait_eq 1024 (fun i _ => hr i)
  exact ⟨_, by simp only [Runtime.step, hcur, Runtime.loopStep, Runtime.pollWait, hp, hw]; rfl⟩

def smallPs : Ps := ⟨small, fun _ => ⟨true, true⟩⟩

theorem oneListener_starts : Starts (Runtime.oneListener smallPs) where
  listening := ⟨smallPs, small_created, Runtime.oneListener_initial smallPs, by decide⟩
  small := fun fd ho => by
    by_contra hlt
    have h₃ : fd ≠ 3 := by omega
    have h₄ : ¬ fd ≤ 4 := by omega
    simp [Runtime.isOpen, Runtime.oneListener, h₃, h₄] at ho

/-- Two connections are accepted, the second beyond the arrays. Both routines wait, and both
descriptors fire. -/
def bothFire : List (Act (Int → Nat)) :=
  [.associate true, .associate true, .wait (fun _ => efPollin), .event,
    .accept 5 true (some 50) true, .accept 200 true (some 51) true, .acceptFailed,
    .acceptEnd true, .event, .queue (some 1000), .transfer .read 5 true 0, .started,
    .queue (some 1001), .transfer .read 200 true 0, .started, .queue none, .queue none,
    .exitQueue (fun _ => true) (fun _ => false) (fun _ => false),
    .wait (fun i => if i = 0 then 0 else efPollin), .event, .wake 0, .transferred 0 0,
    .dissociate true, .endProc true]

/-- The state with both routines waiting is one over `epoll.c`. -/
theorem framework_over_poll_both : ∃ rt, Lib.run (Runtime.step efPollPs) Disciplined
      (Runtime.oneListener smallPs) (bothFire.take 18) = some rt ∧
    (rt.p.ep.used, rt.p.ep.cap) = (3, 256) ∧
    ∃ q : Epoll, (∀ fd, q fd = (rt.p.ep.map fd).map (fun e => (e.1.toNat, e.2))) ∧
      Lib.Reachable (Runtime.Listening fun _ => none) (Runtime.step efEpoll)
        (fun rt a => rt.usesOwn a = true) (rt.withPoll q) := by
  have hrun : (Lib.run (Runtime.step efPollPs) Disciplined (Runtime.oneListener smallPs)
      (bothFire.take 18)).map (fun rt => (rt.p.ep.used, rt.p.ep.cap)) = some (3, 256) := by decide
  obtain ⟨rt, hr, he⟩ := Option.map_eq_some_iff.mp hrun
  obtain ⟨⟨q, hreach, hq⟩, _⟩ :=
    framework_over_poll ((Lib.Reachable.init oneListener_starts).run hr)
  exact ⟨rt, hr, he, q, hq, hreach⟩

/-- Over `poll.c` too each suspended routine has a slot for its own descriptor and no other, a
routine that has exited has none, and every event of a batch resumes a routine that waits for
the descriptor that fired. -/
theorem poll_event_routing {rt : Runtime Ps}
    (h : Lib.Reachable Starts (Runtime.step efPollPs) Disciplined rt) :
    (∀ er c retval, (rt.routines er).pc = .waiting c retval →
      (rt.routines er).fd = c.fd ∧
        ∀ fd, (∃ events, rt.p.ep.map fd = some (events, .routine er)) ↔ fd = c.fd) ∧
    (∀ er, (rt.routines er).pc = .exited ∨ er ∈ rt.coPool.freeList →
      ∀ fd events, rt.p.ep.map fd ≠ some (events, .routine er)) ∧
    (∀ e evts er, rt.current = none → rt.phase = .events (e :: evts) → e.ptr = .routine er →
      ∃ c retval rt', (rt.routines er).pc = .waiting c retval ∧ c.fd = e.fd ∧
        Runtime.step efPollPs rt .event = some rt' ∧ rt'.current = some er ∧
        (rt'.routines er).pc = .woken c retval e.events) := by
  obtain ⟨rt', hreach, hsame, hholds, _⟩ := simulation.reachable h
  have hinv := (Runtime.replaceable_invariant.holds hreach).inv
  rw [hsame] at hinv
  refine ⟨fun er c retval hpc => ?_, fun er hf fd events he => ?_, fun e evts er hcur hp hptr => ?_⟩
  · obtain ⟨hfd, hentry⟩ := hinv.entry_of_waiting hpc
    exact ⟨hfd, fun fd => (hholds.entry_iff fd _).symm.trans (hentry fd)⟩
  · obtain ⟨events', hq⟩ := (hholds.entry_iff fd _).mpr ⟨events, he⟩
    exact hinv.entry_of_free hf fd events' hq
  · have hmem : e ∈ rt.phase.evts := by
      rw [hp]
      exact List.mem_cons_self
    obtain ⟨c, retval, hpc, hfd⟩ := hinv.routes.waiting_of_event hinv.base hcur hmem hptr
    obtain ⟨rt'', hs, hcur', hpc'⟩ := Runtime.step_event efPollPs hcur hp hptr hpc
    exact ⟨c, retval, rt'', hpc, hfd, hs, hcur', hpc'⟩

/-- The first routine has ended in the batch, and its last slot has been moved. -/
theorem poll_event_routing_both : ∃ rt rt',
    Lib.run (Runtime.step efPollPs) Disciplined (Runtime.oneListener smallPs) bothFire = some rt ∧
    Runtime.step efPollPs rt .event = some rt' ∧ rt'.current = some 1001 := by
  have hrun : (Lib.run (Runtime.step efPollPs) Disciplined (Runtime.oneListener smallPs)
      bothFire).map (fun rt => (rt.current, rt.phase)) =
        some (none, .events [⟨efPollin, .routine 1001, 200⟩]) := by decide
  obtain ⟨rt, hr, he⟩ := Option.map_eq_some_iff.mp hrun
  simp only [Prod.mk.injEq] at he
  obtain ⟨hcur, hp⟩ := he
  obtain ⟨_, _, hevent⟩ :=
    poll_event_routing ((Lib.Reachable.init oneListener_starts).run hr)
  obtain ⟨_, _, rt', _, _, hs, hcur', _⟩ := hevent _ _ 1001 hcur hp rfl
  exact ⟨rt, rt', hr, hs, hcur'⟩

end EFramework.Pollsys
