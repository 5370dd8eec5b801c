import EFramework.Lib.Run
import EFramework.Runtime.Base

/-! # Queued connections

A record of the run notes every descriptor that is put on the list of a listener and
every one that a routine is started for, and the queue nodes that are allocated and
freed. The list of a listener is what has been queued and not yet started, in order,
whatever pollers, routines and allocations do.
-/

namespace EFramework

/-- What a run of the loop is observed to do. -/
inductive Note where
  /-- `ef_queue_fd` has put a descriptor on the list of a listener. -/
  | queued (li fd : Nat)
  /-- `ef_routine_run` has started a routine for a descriptor of a listener. -/
  | run (li fd er : Nat)
  | exited (er : Nat)
  /-- A queue node is allocated, or freed. -/
  | malloc (node : Nat)
  | free (node : Nat)
  /-- A listener is closed. -/
  | closed (li fd : Nat)
  /-- A listener is freed with what is on its list. -/
  | freed (li : Nat) (qfs : List QueueFd)
deriving Repr, DecidableEq

namespace Note

def queuedOn (id : Nat) : Note → Option Nat
  | .queued li fd => if li = id then some fd else none
  | _ => none

def runFrom (id : Nat) : Note → Option Nat
  | .run li fd _ => if li = id then some fd else none
  | _ => none

/-- The queue nodes that are allocated, behind a note. -/
def hold (nodes : List Nat) : Note → List Nat
  | .malloc node => node :: nodes
  | .free node => nodes.erase node
  | _ => nodes

def Quiet : Note → Prop
  | .exited _ | .closed _ _ | .freed _ _ => True
  | _ => False

variable {new : List Note}

theorem filterMap_queuedOn (h : ∀ n ∈ new, n.Quiet) (id : Nat) :
    new.filterMap (queuedOn id) = [] := by
  refine List.filterMap_eq_nil_iff.mpr (fun n hn => ?_)
  have hq := h n hn
  cases n <;> first | rfl | exact hq.elim

theorem filterMap_runFrom (h : ∀ n ∈ new, n.Quiet) (id : Nat) :
    new.filterMap (runFrom id) = [] := by
  refine List.filterMap_eq_nil_iff.mpr (fun n hn => ?_)
  have hq := h n hn
  cases n <;> first | rfl | exact hq.elim

theorem foldl_hold (h : ∀ n ∈ new, n.Quiet) (nodes : List Nat) : new.foldl hold nodes = nodes := by
  induction new with
  | nil => rfl
  | cons n new ih =>
      have hq := h n List.mem_cons_self
      have hn : n.hold nodes = nodes := by cases n <;> first | rfl | exact hq.elim
      rw [List.foldl_cons, hn]
      exact ih (fun n hn => h n (List.mem_cons_of_mem _ hn))

theorem foldl_free {nodes rest free : List Nat} (h : nodes.Perm (rest ++ free)) :
    ((free.map Note.free).foldl hold nodes).Perm rest := by
  induction free generalizing nodes with
  | nil => rwa [List.append_nil] at h
  | cons node free ih =>
      have he := (h.trans List.perm_middle).erase node
      rw [List.erase_cons_head] at he
      exact ih he

end Note

namespace Runtime

variable {P K : Type}

def closing (rt' : Runtime P) (li : ListenInfo) : List Note :=
  (li.fd.toList.map (Note.closed li.id)) ++
    if (rt'.findListen li.id).isNone then [.freed li.id li.fdList] else []

def notes (rt : Runtime P) (a : Act K) (rt' : Runtime P) : List Note :=
  match rt.current, a with
  | none, .accept socket true fresh _ =>
      match rt.phase, rt.takeNode fresh with
      | .accept li _, some (some node, _) =>
          if rt.freeFdList = [] then [.malloc node, .queued li socket] else [.queued li socket]
      | _, _ => []
  | none, .queue _ =>
      match rt'.phase, rt'.current with
      | .started qf (id :: _), some er => [.run id qf.fd er]
      | _, _ => []
  | none, .exitQueue _ _ _ =>
      if rt.stopping then rt.listenList.flatMap (closing rt') ++ rt.freeFdList.map Note.free
      else []
  | some er, .endProc _ => [.exited er]
  | _, _ => []

def awaiting (rt : Runtime P) (id : Nat) : List Nat :=
  match rt.phase with
  | .started _ (id' :: _) =>
      (if id' = id then (rt.queueOf id).tail else rt.queueOf id).map QueueFd.fd
  | _ => (rt.queueOf id).map QueueFd.fd

/-- The books about the queues. -/
structure Queues (rt : Runtime P) (log : List Note) : Prop where
  fifo : ∀ id, log.filterMap (Note.queuedOn id) =
    log.filterMap (Note.runFrom id) ++ rt.awaiting id
  held : (log.foldl Note.hold []).Perm rt.nodes

variable {poll : EfPoll P K} {rt rt' : Runtime P} {log : List Note}

theorem awaiting_of_not_starting (h : ∀ qf, ¬ rt.Starting qf) (id : Nat) :
    rt.awaiting id = (rt.queueOf id).map QueueFd.fd := by
  unfold awaiting
  split
  next qf id' lis hp => exact absurd ⟨_, hp⟩ (h qf)
  next => rfl

theorem awaiting_suffix (rt : Runtime P) (id : Nat) :
    rt.awaiting id <:+ (rt.queueOf id).map QueueFd.fd := by
  unfold awaiting
  split
  · split
    · rw [List.map_tail]
      exact List.tail_suffix _
    · exact List.suffix_rfl
  · exact List.suffix_rfl

theorem awaiting_congr (hl : rt'.listenList = rt.listenList) (hp : rt'.phase = rt.phase)
    (id : Nat) : rt'.awaiting id = rt.awaiting id := by
  unfold awaiting queueOf findListen
  rw [hl, hp]

theorem queueOf_of_mem (hids : (rt.listenList.map ListenInfo.id).Nodup) {li : ListenInfo}
    (hli : li ∈ rt.listenList) : rt.queueOf li.id = li.fdList :=
  queueOf_of_find (findListen_of_mem hids hli)

theorem queueOf_of_not_mem {id : Nat} (h : ∀ li ∈ rt.listenList, li.id ≠ id) :
    rt.queueOf id = [] := by
  have hf : rt.findListen id = none :=
    List.find?_eq_none.mpr (fun li hli he => h li hli (beq_iff_eq.mp he))
  unfold queueOf
  rw [hf]

theorem queueOf_closedList (hids : (rt.listenList.map ListenInfo.id).Nodup) {ids : List Nat}
    (hl : rt'.listenList = closedList ids rt.listenList) (id : Nat) :
    rt'.queueOf id = rt.queueOf id := by
  by_cases h' : ∃ li ∈ rt'.listenList, li.id = id
  · obtain ⟨li', hli', rfl⟩ := h'
    have hids' : (rt'.listenList.map ListenInfo.id).Nodup := by
      rw [hl]
      exact (closedList_ids ids _).nodup hids
    obtain ⟨li, hli, hid, hq, _⟩ := mem_closedList (hl ▸ hli')
    rw [queueOf_of_mem hids' hli', ← hid, queueOf_of_mem hids hli, hq]
  · rw [queueOf_of_not_mem (fun li hli he => h' ⟨li, hli, he⟩)]
    by_cases h : ∃ li ∈ rt.listenList, li.id = id
    · obtain ⟨li, hli, rfl⟩ := h
      rw [queueOf_of_mem hids hli]
      by_contra hq
      have hq : li.fdList ≠ [] := fun he => hq he.symm
      refine h' ?_
      rw [hl]
      by_cases hid : li.id ∈ ids
      · exact ⟨{ li with fd := none }, List.mem_filterMap.mpr ⟨li, hli, by simp [hid, hq]⟩, rfl⟩
      · exact ⟨li, List.mem_filterMap.mpr ⟨li, hli, by simp [hid]⟩, rfl⟩
    · rw [queueOf_of_not_mem (fun li hli he => h ⟨li, hli, he⟩)]

/-! ## Steps -/

def Early : Phase → Prop
  | .queue _ | .started _ _ | .exitQueue => False
  | .returned ret => ret < 0
  | _ => True

def Goes (rt rt' : Runtime P) : Prop :=
  ∃ p phase routines current, rt' = { rt with
      p := p, phase := phase, routines := routines, current := current } ∧
    Early rt.phase ∧ (Early phase ∨ phase = .queue (rt.listenList.map ListenInfo.id)) ∧
    ∀ er, (routines er).pc = .exited ↔ (rt.routines er).pc = .exited

theorem goes (p : P) {phase : Phase} (h : Early rt.phase)
    (h' : Early phase ∨ phase = .queue (rt.listenList.map ListenInfo.id)) :
    Goes rt { rt with p := p, phase := phase } :=
  ⟨p, phase, rt.routines, rt.current, rfl, h, h', fun _ => Iff.rfl⟩

theorem not_starting_of_early (h : Early rt.phase) (qf : QueueFd) : ¬ rt.Starting qf := by
  rintro ⟨lis, hp⟩
  rw [hp] at h
  exact h

theorem Goes.not_starting (h : Goes rt rt') (qf : QueueFd) : ¬ rt'.Starting qf := by
  obtain ⟨p, phase, routines, current, rfl, _, hp | hp, _⟩ := h
  · exact not_starting_of_early hp qf
  · exact Runtime.not_starting hp (fun _ _ => Phase.noConfusion) qf

/-- A step of the loop goes on, or is one of those that concern the queues. -/
theorem loopStep_cases (hcur : rt.current = none) {a : Act K}
    (hs : loopStep poll rt a = some rt') :
    (Goes rt rt' ∧ notes rt a rt' = []) ∨
    (∃ socket nonblock fresh ok, a = .accept socket nonblock fresh ok ∧
      rt.acceptSocket poll socket nonblock fresh ok = some rt') ∨
    (∃ fresh, a = .queue fresh ∧ rt.nextQueued fresh = some rt') ∨
    (a = .started ∧ rt.queuedStarted = some rt') ∨
    ∃ del idleStop idle, a = .exitQueue del idleStop idle ∧
      rt.exitQueue poll del idleStop idle = some rt' := by
  have hearly : ∀ phase, rt.phase = phase → Early phase → Early rt.phase := fun phase hp h => hp ▸ h
  unfold loopStep at hs
  split at hs
  · refine Or.inl ⟨?_, by simp only [notes, hcur]⟩
    rcases associateListener_cases hs with ⟨hp, rfl⟩ | ⟨li, rest, hp, _, rfl⟩ |
      ⟨li, rest, fd, ret, p, hp, _, _, ⟨hneg, rfl⟩ | ⟨_, rfl⟩⟩
    · exact goes rt.p (hearly _ hp trivial) (Or.inl trivial)
    · exact goes rt.p (hearly _ hp trivial) (Or.inl (Int.negSucc_lt_zero 0))
    · exact goes p (hearly _ hp trivial) (Or.inl hneg)
    · exact goes p (hearly _ hp trivial) (Or.inl trivial)
  · refine Or.inl ⟨?_, by simp only [notes, hcur]⟩
    obtain ⟨hp, evts, p, _, rfl⟩ := pollWait_cases hs
    exact goes p (hearly _ hp trivial) (Or.inl trivial)
  · refine Or.inl ⟨?_, by simp only [notes, hcur]⟩
    obtain ⟨hp, rfl | rfl⟩ := pollWaitFailed_cases hs
    · exact goes rt.p (hearly _ hp trivial) (Or.inl trivial)
    · exact goes rt.p (hearly _ hp trivial) (Or.inl (Int.negSucc_lt_zero 0))
  · refine Or.inl ⟨?_, by simp only [notes, hcur]⟩
    rcases nextEvent_cases hs with ⟨hp, rfl⟩ | ⟨e, evts, li, hp, _, rfl⟩ |
      ⟨e, evts, er, hp, _, ⟨_, rfl⟩ | ⟨c, retval, hpc, rfl⟩⟩
    · exact goes rt.p (hearly _ hp trivial) (Or.inr rfl)
    · exact goes rt.p (hearly _ hp trivial) (Or.inl trivial)
    · exact goes rt.p (hearly _ hp trivial) (Or.inl trivial)
    · refine ⟨rt.p, _, _, _, rfl, hearly _ hp trivial, Or.inl trivial, fun er' => ?_⟩
      by_cases he : er' = er
      · subst he
        simp [hpc]
      · simp [he]
  · refine Or.inl ⟨?_, by simp only [notes, hcur]⟩
    obtain ⟨li, evts, hp, rfl⟩ := acceptFailed_cases hs
    exact goes rt.p (hearly _ hp trivial) (Or.inl trivial)
  · refine Or.inl ⟨?_, by simp only [notes, hcur]⟩
    obtain ⟨li, evts, info, fd, hp, _, _, rfl⟩ := acceptEnd_cases hs
    exact goes _ (hearly _ hp trivial) (Or.inl trivial)
  · exact Or.inr (Or.inl ⟨_, _, _, _, rfl, hs⟩)
  · exact Or.inr (Or.inr (Or.inl ⟨_, rfl, hs⟩))
  · exact Or.inr (Or.inr (Or.inr (Or.inl ⟨rfl, hs⟩)))
  · exact Or.inr (Or.inr (Or.inr (Or.inr ⟨_, _, _, rfl, hs⟩)))
  · cases hs

/-! ## Preservation -/

theorem Queues.keep (h : Queues rt log) {new : List Note} (hq : ∀ n ∈ new, n.Quiet)
    (ha : ∀ id, rt'.awaiting id = rt.awaiting id) (hn : rt'.nodes = rt.nodes) :
    Queues rt' (log ++ new) where
  fifo := fun id => by
    rw [List.filterMap_append, List.filterMap_append, Note.filterMap_queuedOn hq,
      Note.filterMap_runFrom hq, List.append_nil, List.append_nil, ha]
    exact h.fifo id
  held := by
    rw [List.foldl_append, Note.foldl_hold hq, hn]
    exact h.held

theorem Queues.goes (h : Queues rt log) (hl : rt'.listenList = rt.listenList)
    (hf : rt'.freeFdList = rt.freeFdList) (hp : ∀ qf, ¬ rt.Starting qf)
    (hp' : ∀ qf, ¬ rt'.Starting qf) : Queues rt' (log ++ []) := by
  refine h.keep (fun n hn => absurd hn List.not_mem_nil) (fun id => ?_) ?_
  · rw [awaiting_of_not_starting hp, awaiting_of_not_starting hp']
    unfold queueOf findListen
    rw [hl]
  · unfold nodes
    rw [hl, hf]

theorem Queues.append (h : Queues rt log) (hids : (rt.listenList.map ListenInfo.id).Nodup)
    {info : ListenInfo} (hinfo : rt.findListen info.id = some info) {node socket : Nat}
    (hp : ∀ qf, ¬ rt.Starting qf) (hp' : ∀ qf, ¬ rt'.Starting qf)
    (hl : rt'.listenList =
      (rt.setQueue info.id (fun qfs => qfs ++ [⟨node, socket⟩])).listenList)
    (hfree : rt.freeFdList = node :: rt'.freeFdList ∨
      (rt.freeFdList = [] ∧ rt'.freeFdList = [])) :
    Queues rt' (log ++ if rt.freeFdList = [] then [.malloc node, .queued info.id socket]
      else [.queued info.id socket]) where
  fifo := fun id => by
    have hq : rt'.queueOf id =
        (rt.setQueue info.id (fun qfs => qfs ++ [⟨node, socket⟩])).queueOf id := by
      unfold queueOf findListen
      rw [hl]
    have hnew : (if rt.freeFdList = [] then [.malloc node, .queued info.id socket]
          else [.queued info.id socket]).filterMap (Note.queuedOn id) =
        if info.id = id then [socket] else [] := by
      by_cases he : info.id = id <;> by_cases hf : rt.freeFdList = [] <;>
        simp [List.filterMap_cons, Note.queuedOn, he, hf]
    have hrun : (if rt.freeFdList = [] then [.malloc node, .queued info.id socket]
          else [.queued info.id socket]).filterMap (Note.runFrom id) = [] := by
      split <;> rfl
    rw [List.filterMap_append, List.filterMap_append, hnew, hrun, List.append_nil, h.fifo id,
      awaiting_of_not_starting hp, awaiting_of_not_starting hp', hq, List.append_assoc]
    split
    next he =>
      subst he
      rw [queueOf_setQueue_self hinfo, List.map_append]
      rfl
    next hne => rw [queueOf_setQueue_of_ne (Ne.symm hne), List.append_nil]
  held := by
    have hperm := (setQueue_append_nodes hids (findListen_spec hinfo).1
      ⟨node, socket⟩).append_right rt'.freeFdList
    have hheld := h.held
    unfold nodes at hheld ⊢
    rw [hl, List.foldl_append]
    rcases hfree with hfree | ⟨hfree, hfree'⟩
    · rw [if_neg (by rw [hfree]; exact List.cons_ne_nil _ _)]
      rw [hfree] at hheld
      exact (hheld.trans List.perm_middle).trans hperm.symm
    · rw [if_pos hfree]
      rw [hfree, List.append_nil] at hheld
      rw [hfree', List.append_nil] at hperm ⊢
      rw [List.append_nil] at hperm
      exact (hheld.cons node).trans hperm.symm

theorem Queues.accept (h : Queues rt log) {socket : Nat} {nonblock : Bool} {fresh : Option Nat}
    {ok : Bool} (hb : Base rt) (hcur : rt.current = none)
    (hs : rt.acceptSocket poll socket nonblock fresh ok = some rt') :
    Queues rt' (log ++ notes (K := K) rt (.accept socket nonblock fresh ok) rt') := by
  obtain ⟨li, evts, info, fd, hp, hinfo, _, _, hcase⟩ := acceptSocket_cases hs
  have hold : ∀ qf, ¬ rt.Starting qf := not_starting hp (fun _ _ => Phase.noConfusion)
  rcases hcase with ⟨rfl, rfl⟩ | ⟨rfl, ht, rfl⟩ | ⟨node, rest, rfl, ht, rfl⟩
  · simp only [notes, hcur]
    exact h.goes rfl rfl hold (not_starting rfl (fun _ _ => Phase.noConfusion))
  · simp only [notes, hcur, hp, ht]
    exact h.goes rfl rfl hold (not_starting rfl (fun _ _ => Phase.noConfusion))
  · obtain ⟨_, rfl⟩ := findListen_spec hinfo
    simp only [notes, hcur, hp, ht]
    refine h.append hb.ids hinfo hold (not_starting rfl (fun _ _ => Phase.noConfusion)) rfl ?_
    rcases takeNode_cases ht with ⟨hc, _⟩ | ⟨node', rest', hn, hrt, hfree⟩
    · cases hc
    cases hn
    obtain rfl : rest = rest' := congrArg Runtime.freeFdList hrt
    exact hfree.imp id (fun hf => ⟨hf.1, hf.2.1⟩)

theorem Queues.queue (h : Queues rt log) (hcur : rt.current = none) {fresh : Option Nat}
    (hs : rt.nextQueued fresh = some rt') :
    Queues rt' (log ++ notes (K := K) rt (.queue fresh) rt') := by
  rcases nextQueued_cases hs with ⟨hp, rfl⟩ | ⟨id, lis, info, hp, hinfo, hcase⟩
  · simp only [notes, hcur]
    exact h.goes rfl rfl (not_starting hp (fun _ _ => Phase.noConfusion))
      (not_starting rfl (fun _ _ => Phase.noConfusion))
  have hold : ∀ qf, ¬ rt.Starting qf := not_starting hp (fun _ _ => Phase.noConfusion)
  rcases hcase with ⟨_, rfl⟩ | ⟨qf, qfs, pool, hqf, ⟨_, rfl⟩ | ⟨er, _, rfl⟩⟩
  · simp only [notes, hcur]
    exact h.goes rfl rfl hold (not_starting rfl (fun _ _ => Phase.noConfusion))
  · simp only [notes, hcur]
    exact h.goes rfl rfl hold (not_starting rfl (fun _ _ => Phase.noConfusion))
  · simp only [notes, hcur]
    refine ⟨fun id' => ?_, ?_⟩
    · have hq := queueOf_of_find hinfo
      rw [List.filterMap_append, List.filterMap_append, h.fifo id', awaiting_of_not_starting hold]
      change _ = _ ++ (if id = id' then (rt.queueOf id').tail else rt.queueOf id').map QueueFd.fd
      by_cases he : id = id'
      · subst he
        simp [Note.queuedOn, Note.runFrom, hq, hqf]
      · simp [Note.queuedOn, Note.runFrom, he]
    · rw [List.foldl_append]
      exact h.held

theorem Queues.started (h : Queues rt log) (hb : Base rt) (hs : rt.queuedStarted = some rt') :
    Queues rt' (log ++ []) := by
  obtain ⟨qf, id, lis, hp, rfl⟩ := queuedStarted_cases hs
  obtain ⟨li, rest, qfs, he, hmem, hqf⟩ := hb.starting qf _ hp
  cases he
  have hinfo := findListen_of_mem hb.ids hmem
  rw [List.append_nil]
  refine ⟨fun id' => ?_, ?_⟩
  · have hnew : ∀ qf', ¬ Starting { rt with
        listenList := (rt.setQueue li.id (fun qfs => qfs.erase qf)).listenList
        freeFdList := qf.node :: rt.freeFdList
        phase := .queue (li.id :: lis) } qf' :=
      not_starting rfl (fun _ _ => Phase.noConfusion)
    rw [h.fifo id', awaiting_of_not_starting hnew]
    change _ ++ rt.awaiting id' =
      _ ++ ((rt.setQueue li.id (fun qfs => qfs.erase qf)).queueOf id').map QueueFd.fd
    unfold awaiting
    rw [hp]
    dsimp only
    split
    next he =>
      subst he
      rw [queueOf_setQueue_self hinfo, queueOf_of_find hinfo, hqf, List.erase_cons_head,
        List.tail_cons]
    next hne => rw [queueOf_setQueue_of_ne (Ne.symm hne)]
  · have hperm := (setQueue_erase_nodes hb.ids hmem hqf).append_right rt.freeFdList
    exact (h.held.trans hperm).trans List.perm_middle.symm

theorem mem_closing {li : ListenInfo} {n : Note} (hn : n ∈ closing rt' li) :
    (∃ fd, n = .closed li.id fd) ∨ n = .freed li.id li.fdList := by
  unfold closing at hn
  rcases List.mem_append.mp hn with hn | hn
  · obtain ⟨fd, _, rfl⟩ := List.mem_map.mp hn
    exact Or.inl ⟨fd, rfl⟩
  · split at hn
    · exact Or.inr (List.mem_singleton.mp hn)
    · cases hn

theorem Queues.close (h : Queues rt log) (hids : (rt.listenList.map ListenInfo.id).Nodup)
    {ids : List Nat} (hl : rt'.listenList = closedList ids rt.listenList)
    (hf : rt'.freeFdList = []) (hp : ∀ qf, ¬ rt.Starting qf) (hp' : ∀ qf, ¬ rt'.Starting qf) :
    Queues rt'
      (log ++ (rt.listenList.flatMap (closing rt') ++ rt.freeFdList.map Note.free)) := by
  have hquiet : ∀ n ∈ rt.listenList.flatMap (closing rt'), n.Quiet := fun n hn => by
    obtain ⟨li, _, hn⟩ := List.mem_flatMap.mp hn
    rcases mem_closing hn with ⟨_, rfl⟩ | rfl <;> trivial
  refine ⟨fun id => ?_, ?_⟩
  · have hfree : ∀ f : Note → Option Nat, (∀ node, f (.free node) = none) →
        (rt.freeFdList.map Note.free).filterMap f = [] := fun f hf =>
      List.filterMap_eq_nil_iff.mpr (fun n hn => by
        obtain ⟨node, _, rfl⟩ := List.mem_map.mp hn
        exact hf node)
    simp only [List.filterMap_append, Note.filterMap_queuedOn hquiet,
      Note.filterMap_runFrom hquiet, hfree (Note.queuedOn id) (fun _ => rfl),
      hfree (Note.runFrom id) (fun _ => rfl), List.append_nil]
    rw [h.fifo id, awaiting_of_not_starting hp, awaiting_of_not_starting hp',
      queueOf_closedList hids hl]
  · rw [List.foldl_append, List.foldl_append, Note.foldl_hold hquiet]
    refine (Note.foldl_free h.held).trans ?_
    unfold nodes
    rw [hf, List.append_nil, hl, closedList_nodes]

theorem Queues.exitQueue (h : Queues rt log) (hb : Base rt) (hcur : rt.current = none)
    {del idleStop idle : Nat → Bool}
    (hs : rt.exitQueue poll del idleStop idle = some rt') :
    Queues rt' (log ++ notes (K := K) rt (.exitQueue del idleStop idle) rt') := by
  obtain ⟨hp, hcase⟩ := exitQueue_cases hs
  have hold : ∀ qf, ¬ rt.Starting qf := not_starting hp (fun _ _ => Phase.noConfusion)
  rcases hcase with ⟨hst, rfl⟩ | ⟨hst, _, rfl⟩ | ⟨hst, _, rfl⟩
  · simp only [notes, hcur, hst]
    exact h.goes rfl rfl hold (not_starting rfl (fun _ _ => Phase.noConfusion))
  · simp only [notes, hcur, hst, if_true]
    exact h.close hb.ids (by rw [closeListeners_eq]) rfl hold
      (not_starting rfl (fun _ _ => Phase.noConfusion))
  · simp only [notes, hcur, hst, if_true]
    exact h.close hb.ids (by unfold endRound; rw [closeListeners_eq]) rfl hold
      (not_starting rfl (fun _ _ => Phase.noConfusion))

theorem routineStep_lists {er : Nat} {a : Act K} (hs : routineStep poll rt er a = some rt') :
    rt'.listenList = rt.listenList ∧ rt'.freeFdList = rt.freeFdList ∧ rt'.phase = rt.phase := by
  rcases routineStep_cases hs with ⟨_, _, _, rfl, _⟩ | ⟨_, _, _, rfl⟩ | ⟨_, _, _, _, _, rfl⟩ |
    ⟨_, _, _, rfl⟩ <;> exact ⟨rfl, rfl, rfl⟩

theorem quiet_of_running {er : Nat} {a : Act K} (hcur : rt.current = some er) :
    ∀ n ∈ notes rt a rt', n.Quiet := by
  intro n hn
  unfold notes at hn
  rw [hcur] at hn
  cases a <;> simp only [List.mem_singleton, List.not_mem_nil] at hn
  rw [hn]
  trivial

theorem Queues.step (h : Queues rt log) (hb : Base rt) {a : Act K}
    (hs : step poll rt a = some rt') : Queues rt' (log ++ notes rt a rt') := by
  unfold Runtime.step at hs
  split at hs
  · cases hs
    refine h.keep (fun n hn => ?_) (awaiting_congr rfl rfl) rfl
    unfold notes at hn
    cases hcur : rt.current <;> simp [hcur] at hn
  next hcur =>
    rcases loopStep_cases hcur hs with ⟨hg, hn⟩ | ⟨_, _, _, _, rfl, hs⟩ | ⟨_, rfl, hs⟩ |
      ⟨rfl, hs⟩ | ⟨_, _, _, rfl, hs⟩
    · rw [hn]
      have hnew := hg.not_starting
      obtain ⟨_, _, _, _, rfl, hearly, _⟩ := hg
      exact h.goes rfl rfl (not_starting_of_early hearly) hnew
    · exact h.accept hb hcur hs
    · exact h.queue hcur hs
    · simp only [notes, hcur]
      exact h.started hb hs
    · exact h.exitQueue hb hcur hs
  next _ er _ hcur =>
    obtain ⟨hl, hf, hp⟩ := routineStep_lists hs
    refine h.keep (fun n hn => ?_) (awaiting_congr hl hp) ?_
    · exact quiet_of_running hcur n hn
    · unfold nodes
      rw [hl, hf]

theorem Queues.initial {p : P} (h : Initial p rt) : Queues rt [] where
  fifo := fun id => by
    have hnil : rt.queueOf id = [] := by
      unfold queueOf
      split
      next => rfl
      next li hli => exact (h.listeners li (findListen_spec hli).1).1
    rw [awaiting_of_not_starting (not_starting h.phase (fun _ _ => Phase.noConfusion)), hnil]
    rfl
  held := by
    have hnil : rt.nodes = [] := by
      unfold nodes
      rw [h.freeFdList, List.append_nil, List.flatMap_eq_nil_iff]
      exact fun li hli => by rw [(h.listeners li hli).1, List.map_nil]
    rw [hnil]
    exact .refl []

/-! ## Runs -/

/-- Over any poller and whatever the routines, allocations and the pool do: the descriptors that
were queued on a listener are, in this order, those that routines were started for and those
that are still on its list, and each queue node that was allocated and not freed is on one list. -/
theorem queued_run_in_order (poll : EfPoll P K) (p : P) {s : Runtime P × List Note}
    (h : Lib.Reachable (fun s => Initial p s.1 ∧ s.2 = []) (Lib.logged (step poll) notes)
      (fun _ _ => True) s) :
    (∀ id, s.2.filterMap (Note.queuedOn id) =
        s.2.filterMap (Note.runFrom id) ++ s.1.awaiting id ∧
      s.1.awaiting id <:+ (s.1.queueOf id).map QueueFd.fd) ∧
    s.1.nodes.Nodup ∧ (s.2.foldl Note.hold []).Perm s.1.nodes := by
  have hinv : Lib.Invariant (fun s => Initial p s.1 ∧ s.2 = [])
      (Lib.logged (step poll) notes) (fun _ _ => True)
      (fun s => Base s.1 ∧ Queues s.1 s.2) := by
    refine ⟨fun h₀ => ⟨.initial h₀.1, ?_⟩, fun h₀ _ hs => ?_⟩
    · rw [h₀.2]
      exact .initial h₀.1
    · obtain ⟨t, ht, rfl⟩ := Lib.logged_eq_some.mp hs
      exact ⟨h₀.1.step ht, h₀.2.step h₀.1 ht⟩
  obtain ⟨hb, hq⟩ := hinv.holds h
  exact ⟨fun id => ⟨hq.fifo id, awaiting_suffix _ id⟩, hb.nodes, hq.held⟩

/-- A routine is started for one connection and ends. Of the next two, the first is queued in
the same node and is started, and no coroutine is left for the second. -/
def threeQueued : List (Act (List (Nat × Nat))) :=
  [.associate true, .associate true, .wait [(3, efPollin)], .event, .accept 5 true (some 50) true,
    .acceptFailed, .acceptEnd true, .event, .queue (some 1000), .endProc true, .started,
    .queue none, .queue none, .exitQueue (fun _ => true) (fun _ => false) (fun _ => false),
    .wait [(3, efPollin)], .event, .accept 6 true none true, .accept 7 true (some 51) true,
    .acceptFailed, .acceptEnd true, .event, .queue none, .transfer .read 6 true 0, .started,
    .queue none]

theorem queued_run_in_order_three : ∃ s, Lib.run (Lib.logged (step efEpoll) notes)
      (fun _ _ => True) (oneListener fun _ => none, []) threeQueued = some s ∧
    s.2 = [.malloc 50, .queued 100 5, .run 100 5 1000, .exited 1000, .queued 100 6, .malloc 51,
      .queued 100 7, .run 100 6 1000] ∧
    s.2.filterMap (Note.queuedOn 100) = s.2.filterMap (Note.runFrom 100) ++ s.1.awaiting 100 ∧
    s.1.awaiting 100 = [7] ∧ (s.2.foldl Note.hold []).Perm s.1.nodes := by
  have hrun : (Lib.run (Lib.logged (step efEpoll) notes) (fun _ _ => True)
      (oneListener fun _ => none, []) threeQueued).map (fun s => (s.2, s.1.awaiting 100)) =
      some ([.malloc 50, .queued 100 5, .run 100 5 1000, .exited 1000, .queued 100 6, .malloc 51,
        .queued 100 7, .run 100 6 1000], [7]) := by decide
  obtain ⟨s, hr, he⟩ := Option.map_eq_some_iff.mp hrun
  obtain ⟨hlog, haw⟩ := Prod.mk.inj he
  have hinit : Lib.Reachable (fun s : Runtime Epoll × List Note => Initial (fun _ => none) s.1 ∧
      s.2 = []) (Lib.logged (step efEpoll) notes) (fun _ _ => True)
      (oneListener fun _ => none, []) := .init ⟨oneListener_initial _, rfl⟩
  obtain ⟨hfifo, _, hheld⟩ := queued_run_in_order efEpoll (fun _ => none) (hinit.run hr)
  exact ⟨s, hr, hlog, (hfifo 100).1, haw, hheld⟩

end Runtime

end EFramework
