import EFramework.Runtime.Framework
import Mathlib.Algebra.Order.Group.Int

/-! # What one step can do

Each function of the loop is taken apart once: from which states it steps, and to
which it can step. A routine either moves on, opens or closes a descriptor, or
ends. The poller may be any.
-/

namespace EFramework

def Pc.call : Pc → Option Call
  | .user _ _ | .exited => none
  | .waiting c _ | .woken c _ _ | .ready c | .again c _ | .done c _ _ => some c

def Pc.Running : Pc → Prop
  | .waiting _ _ | .exited => False
  | _ => True

theorem Pc.Running.ne_exited {pc : Pc} (h : pc.Running) : pc ≠ .exited := by
  rintro rfl
  exact h

namespace Runtime

variable {P K : Type} {poll : EfPoll P K} {rt rt' : Runtime P}

theorem findListen_spec {id : Nat} {info : ListenInfo} (h : rt.findListen id = some info) :
    info ∈ rt.listenList ∧ info.id = id :=
  ⟨List.mem_of_find?_eq_some h, by simpa using List.find?_some h⟩

/-! ## The loop -/

theorem associateListener_cases {ok : Bool} (h : rt.associateListener poll ok = some rt') :
    (rt.phase = .associate [] ∧ rt' = { rt with phase := .wait }) ∨
    (∃ li rest, rt.phase = .associate (li :: rest) ∧ li.fd = none ∧
      rt' = { rt with phase := .returned (-1) }) ∨
    ∃ li rest fd ret p, rt.phase = .associate (li :: rest) ∧ li.fd = some fd ∧
      poll.associate rt.p fd efPollin (.listen li.id) false (ok && rt.isOpen fd) = (ret, p) ∧
      ((ret < 0 ∧ rt' = { rt with p := p, phase := .returned ret }) ∨
        (0 ≤ ret ∧ rt' = { rt with p := p, phase := .associate rest })) := by
  unfold associateListener at h
  split at h
  next hp => exact Or.inl ⟨hp, (Option.some.inj h).symm⟩
  next li rest hp =>
    split at h
    next hfd => exact Or.inr (Or.inl ⟨li, rest, hp, hfd, (Option.some.inj h).symm⟩)
    next fd hfd =>
      cases h
      refine Or.inr (Or.inr ⟨li, rest, fd, _, _, hp, hfd, rfl, ?_⟩)
      split
      next hret => exact Or.inl ⟨hret, rfl⟩
      next hret => exact Or.inr ⟨Int.not_lt.mp hret, rfl⟩
  next => cases h

theorem pollWait_cases {report : K} (h : rt.pollWait poll report = some rt') :
    rt.phase = .wait ∧ ∃ evts p, poll.wait rt.p report = some (evts, p) ∧
      rt' = { rt with p := p, phase := .events evts } := by
  unfold pollWait at h
  split at h
  next hp =>
    obtain ⟨⟨evts, p⟩, hw, rfl⟩ := Option.map_eq_some_iff.mp h
    exact ⟨hp, evts, p, hw, rfl⟩
  next => cases h

theorem pollWaitFailed_cases {errno : Nat} (h : rt.pollWaitFailed errno = some rt') :
    rt.phase = .wait ∧ (rt' = { rt with phase := .events [] } ∨
      rt' = { rt with phase := .returned (-1) }) := by
  unfold pollWaitFailed at h
  split at h
  next hp =>
    cases h
    refine ⟨hp, ?_⟩
    split
    · exact Or.inl rfl
    · exact Or.inr rfl
  next => cases h

theorem nextEvent_cases (h : rt.nextEvent = some rt') :
    (rt.phase = .events [] ∧
      rt' = { rt with phase := .queue (rt.listenList.map ListenInfo.id) }) ∨
    (∃ e evts li, rt.phase = .events (e :: evts) ∧ e.ptr = .listen li ∧
      rt' = { rt with phase := .accept li evts }) ∨
    ∃ e evts er, rt.phase = .events (e :: evts) ∧ e.ptr = .routine er ∧
      (((rt.routines er).pc = .exited ∧ rt' = { rt with phase := .events evts }) ∨
        ∃ c retval, (rt.routines er).pc = .waiting c retval ∧
          rt' = { rt with
            phase := .events evts
            routines := Function.update rt.routines er
              { rt.routines er with pc := .woken c retval e.events }
            current := some er }) := by
  unfold nextEvent at h
  split at h
  next hp => exact Or.inl ⟨hp, (Option.some.inj h).symm⟩
  next e evts hp =>
    split at h
    next li hptr => exact Or.inr (Or.inl ⟨e, evts, li, hp, hptr, (Option.some.inj h).symm⟩)
    next er hptr =>
      refine Or.inr (Or.inr ⟨e, evts, er, hp, hptr, ?_⟩)
      unfold efCoroutineResume at h
      split at h
      next c retval hpc => exact Or.inr ⟨c, retval, hpc, (Option.some.inj h).symm⟩
      next hpc => exact Or.inl ⟨hpc, (Option.some.inj h).symm⟩
      next => cases h
  next => cases h

theorem acceptFailed_cases (h : rt.acceptFailed = some rt') :
    ∃ li evts, rt.phase = .accept li evts ∧ rt' = { rt with phase := .acceptEnd li evts } := by
  unfold acceptFailed at h
  split at h
  next li evts hp => exact ⟨li, evts, hp, (Option.some.inj h).symm⟩
  next => cases h

theorem acceptEnd_cases {ok : Bool} (h : rt.acceptEnd poll ok = some rt') :
    ∃ li evts info fd, rt.phase = .acceptEnd li evts ∧ rt.findListen li = some info ∧
      info.fd = some fd ∧ rt' = { rt with
        p := (poll.associate (poll.unset rt.p fd efPollin).2 fd efPollin (.listen li) true ok).2
        phase := .events evts } := by
  unfold acceptEnd at h
  split at h
  next li evts hp =>
    obtain ⟨info, hinfo, h⟩ := Option.bind_eq_some_iff.mp h
    obtain ⟨fd, hfd, h⟩ := Option.bind_eq_some_iff.mp h
    exact ⟨li, evts, info, fd, hp, hinfo, hfd, (Option.some.inj h).symm⟩
  next => cases h

theorem takeNode_cases {fresh out : Option Nat} (h : rt.takeNode fresh = some (out, rt')) :
    (out = none ∧ rt.freeFdList = [] ∧ fresh = none ∧ rt' = rt) ∨
    ∃ node rest, out = some node ∧ rt' = { rt with freeFdList := rest } ∧
      (rt.freeFdList = node :: rest ∨
        (rt.freeFdList = [] ∧ rest = [] ∧ fresh = some node ∧ node ∉ rt.nodes)) := by
  unfold takeNode at h
  split at h
  next node rest hfree =>
    cases h
    exact Or.inr ⟨node, rest, rfl, rfl, Or.inl hfree⟩
  next hfree =>
    split at h
    · cases h
      exact Or.inl ⟨rfl, hfree, rfl, rfl⟩
    next node =>
      split at h
      · cases h
      next hnot =>
        cases h
        refine Or.inr ⟨node, [], rfl, ?_, Or.inr ⟨hfree, rfl, rfl, hnot⟩⟩
        rw [← hfree]

theorem takeNode_owner (rt : Runtime P) (owner : Nat → Option Owner) (fresh : Option Nat) :
    ({ rt with owner := owner } : Runtime P).takeNode fresh =
      (rt.takeNode fresh).map (fun r => (r.1, { r.2 with owner := owner })) := by
  have hnodes : ({ rt with owner := owner } : Runtime P).nodes = rt.nodes := rfl
  unfold takeNode
  rw [hnodes]
  dsimp only
  split
  next => rfl
  next hfree =>
    cases fresh with
    | none => simp [hfree]
    | some node => by_cases hn : node ∈ rt.nodes <;> simp [hfree, hn]

theorem acceptSocket_cases {socket : Nat} {nonblock : Bool} {fresh : Option Nat} {ok : Bool}
    (h : rt.acceptSocket poll socket nonblock fresh ok = some rt') :
    ∃ li evts info fd, rt.phase = .accept li evts ∧ rt.findListen li = some info ∧
      info.fd = some fd ∧ rt.owner socket = none ∧
      ((nonblock = false ∧ rt' = { rt with
          owner := Function.update rt.owner socket (some .other)
          p := (poll.associate rt.p fd efPollin (.listen li) true ok).2
          phase := .events evts }) ∨
        (nonblock = true ∧ rt.takeNode fresh = some (none, rt) ∧ rt' = { rt with
          p := (poll.associate (poll.closed rt.p socket) fd efPollin (.listen li) true ok).2
          phase := .events evts }) ∨
        ∃ node rest, nonblock = true ∧
          rt.takeNode fresh = some (some node, { rt with freeFdList := rest }) ∧
          rt' = { rt with
            listenList := (rt.setQueue li (fun qfs => qfs ++ [⟨node, socket⟩])).listenList
            freeFdList := rest
            owner := Function.update rt.owner socket (some (.queued node)) }) := by
  unfold acceptSocket at h
  split at h
  next li evts hp =>
    obtain ⟨info, hinfo, h⟩ := Option.bind_eq_some_iff.mp h
    obtain ⟨fd, hfd, h⟩ := Option.bind_eq_some_iff.mp h
    refine ⟨li, evts, info, fd, hp, hinfo, hfd, ?_⟩
    split at h
    · cases h
    next hopen =>
      have hnone : rt.owner socket = none := by simpa [isOpen] using hopen
      refine ⟨hnone, ?_⟩
      dsimp only at h
      split at h
      next hnb =>
        obtain ⟨⟨out, rt₁⟩, hnode, h⟩ := Option.bind_eq_some_iff.mp h
        rw [takeNode_owner] at hnode
        obtain ⟨⟨out', rt₂⟩, ht, he⟩ := Option.map_eq_some_iff.mp hnode
        cases he
        rcases takeNode_cases ht with ⟨rfl, _, _, hrt⟩ | ⟨node, rest, rfl, rfl, _⟩
        · obtain rfl := hrt.symm
          cases h
          refine Or.inr (Or.inl ⟨hnb, ht, ?_⟩)
          have hupd : Function.update (Function.update rt.owner socket (some Owner.other)) socket
              none = rt.owner := by
            rw [Function.update_idem, Function.update_eq_self_iff]
            exact hnone.symm
          simp [reassociate, close, isOpen, hupd]
        · cases h
          refine Or.inr (Or.inr ⟨node, rest, hnb, ht, ?_⟩)
          simp [setQueue]
      next hnb =>
        cases h
        exact Or.inl ⟨by simpa using hnb, rfl⟩
  next => cases h

theorem nextQueued_cases {fresh : Option Nat} (h : rt.nextQueued fresh = some rt') :
    (rt.phase = .queue [] ∧ rt' = { rt with phase := .exitQueue }) ∨
    ∃ id lis info, rt.phase = .queue (id :: lis) ∧ rt.findListen id = some info ∧
      ((info.fdList = [] ∧ rt' = { rt with phase := .queue lis }) ∨
        ∃ qf qfs pool, info.fdList = qf :: qfs ∧
          ((efCoroutineCreate rt.coPool fresh = some (none, pool) ∧
              rt' = { rt with coPool := pool, phase := .exitQueue }) ∨
            ∃ er, efCoroutineCreate rt.coPool fresh = some (some er, pool) ∧ rt' = { rt with
              coPool := pool
              routines := Function.update rt.routines er ⟨qf.fd, qf.fd, .user 0 0⟩
              owner := Function.update rt.owner qf.fd (some (.routine er))
              current := some er
              phase := .started qf (id :: lis) })) := by
  unfold nextQueued at h
  split at h
  next hp => exact Or.inl ⟨hp, (Option.some.inj h).symm⟩
  next id lis hp =>
    obtain ⟨info, hinfo, h⟩ := Option.bind_eq_some_iff.mp h
    refine Or.inr ⟨id, lis, info, hp, hinfo, ?_⟩
    split at h
    next hq => exact Or.inl ⟨hq, (Option.some.inj h).symm⟩
    next qf qfs hq =>
      unfold efRoutineRun at h
      obtain ⟨⟨co, pool⟩, hc, h⟩ := Option.bind_eq_some_iff.mp h
      refine Or.inr ⟨qf, qfs, pool, hq, ?_⟩
      dsimp only at h
      split at h
      · exact Or.inl ⟨hc, (Option.some.inj h).symm⟩
      next er => exact Or.inr ⟨er, hc, (Option.some.inj h).symm⟩
  next => cases h

theorem queuedStarted_cases (h : rt.queuedStarted = some rt') :
    ∃ qf id lis, rt.phase = .started qf (id :: lis) ∧
      rt' = { rt with
        listenList := (rt.setQueue id (fun qfs => qfs.erase qf)).listenList
        freeFdList := qf.node :: rt.freeFdList
        phase := .queue (id :: lis) } := by
  unfold queuedStarted at h
  split at h
  next qf id lis hp => exact ⟨qf, id, lis, hp, (Option.some.inj h).symm⟩
  next => cases h

/-! ## Closing the listeners -/

def closeFd (poll : EfPoll P K) (del : Nat → Bool) (s : P × (Nat → Option Owner)) (fd : Nat) :
    P × (Nat → Option Owner) :=
  let p := (poll.dissociate s.1 fd false false (del fd)).2
  if (s.2 fd).isSome then (poll.closed p fd, Function.update s.2 fd none) else (p, s.2)

def closedList (ids : List Nat) (lis : List ListenInfo) : List ListenInfo :=
  lis.filterMap (fun li =>
    if li.id ∈ ids then if li.fdList = [] then none else some { li with fd := none } else some li)

theorem closeListener_eq (poll : EfPoll P K) (del : Nat → Bool) (rt : Runtime P)
    (li : ListenInfo) :
    closeListener poll del rt li = { rt with
      p := (li.fd.toList.foldl (closeFd poll del) (rt.p, rt.owner)).1
      owner := (li.fd.toList.foldl (closeFd poll del) (rt.p, rt.owner)).2
      listenList := closedList [li.id] rt.listenList } := by
  unfold closeListener closedList
  simp only [List.mem_singleton]
  cases li.fd with
  | none => rfl
  | some fd =>
      by_cases ho : (rt.owner fd).isSome = true <;> simp [closeFd, close, isOpen, ho]

theorem closedList_cons (id : Nat) (ids : List Nat) (lis : List ListenInfo) :
    closedList ids (closedList [id] lis) = closedList (id :: ids) lis := by
  unfold closedList
  rw [List.filterMap_filterMap]
  refine List.filterMap_congr (fun li _ => ?_)
  by_cases he : li.id = id <;> by_cases hq : li.fdList = [] <;> simp [he, hq]

theorem foldl_closeListener (poll : EfPoll P K) (del : Nat → Bool) (lis : List ListenInfo)
    (rt : Runtime P) :
    lis.foldl (closeListener poll del) rt = { rt with
      p := ((lis.filterMap ListenInfo.fd).foldl (closeFd poll del) (rt.p, rt.owner)).1
      owner := ((lis.filterMap ListenInfo.fd).foldl (closeFd poll del) (rt.p, rt.owner)).2
      listenList := closedList (lis.map ListenInfo.id) rt.listenList } := by
  induction lis generalizing rt with
  | nil => simp [closedList]
  | cons li lis ih =>
      rw [List.foldl_cons, ih, closeListener_eq]
      simp only [closedList_cons, List.map_cons]
      cases hfd : li.fd <;> simp [hfd]

theorem closeListeners_eq (poll : EfPoll P K) (del : Nat → Bool) (rt : Runtime P) :
    closeListeners poll del rt = { rt with
      p := ((rt.listenList.filterMap ListenInfo.fd).foldl (closeFd poll del) (rt.p, rt.owner)).1
      owner :=
        ((rt.listenList.filterMap ListenInfo.fd).foldl (closeFd poll del) (rt.p, rt.owner)).2
      listenList := closedList (rt.listenList.map ListenInfo.id) rt.listenList
      freeFdList := [] } := by
  unfold closeListeners
  rw [foldl_closeListener]

theorem foldl_closeFd_owner (poll : EfPoll P K) (del : Nat → Bool) (fds : List Nat)
    (s : P × (Nat → Option Owner)) (fd : Nat) :
    (fds.foldl (closeFd poll del) s).2 fd = if fd ∈ fds then none else s.2 fd := by
  induction fds generalizing s with
  | nil => rfl
  | cons fd' fds ih =>
      have hone : (closeFd poll del s fd').2 fd = if fd = fd' then none else s.2 fd := by
        unfold closeFd
        by_cases ho : (s.2 fd').isSome = true
        · simp [ho, Function.update_apply]
        · have hnone : s.2 fd' = none := by simpa using ho
          by_cases he : fd = fd'
          · simp [he, hnone]
          · simp [he, ho]
      rw [List.foldl_cons, ih, hone]
      by_cases hmem : fd ∈ fds <;> by_cases he : fd = fd' <;> simp [hmem, he]

theorem mem_closedList {ids : List Nat} {lis : List ListenInfo} {li : ListenInfo}
    (h : li ∈ closedList ids lis) :
    ∃ li' ∈ lis, li'.id = li.id ∧ li'.fdList = li.fdList ∧
      ((li.id ∈ ids ∧ li.fd = none ∧ li.fdList ≠ []) ∨ (li.id ∉ ids ∧ li' = li)) := by
  obtain ⟨li', hmem, he⟩ := List.mem_filterMap.mp h
  refine ⟨li', hmem, ?_⟩
  split at he
  next hid =>
    split at he
    · cases he
    next hq =>
      cases he
      exact ⟨rfl, rfl, Or.inl ⟨hid, rfl, hq⟩⟩
  next hid =>
    cases he
    exact ⟨rfl, rfl, Or.inr ⟨hid, rfl⟩⟩

theorem closedList_nodes (ids : List Nat) (lis : List ListenInfo) :
    (closedList ids lis).flatMap (fun li => li.fdList.map QueueFd.node) =
      lis.flatMap (fun li => li.fdList.map QueueFd.node) := by
  induction lis with
  | nil => rfl
  | cons li lis ih =>
      unfold closedList at ih ⊢
      rw [List.filterMap_cons, List.flatMap_cons, ← ih]
      by_cases hid : li.id ∈ ids <;> by_cases hq : li.fdList = [] <;> simp [hid, hq]

theorem closedList_ids (ids : List Nat) (lis : List ListenInfo) :
    ((closedList ids lis).map ListenInfo.id).Sublist (lis.map ListenInfo.id) := by
  induction lis with
  | nil => exact List.Sublist.refl _
  | cons li lis ih =>
      unfold closedList at ih ⊢
      rw [List.filterMap_cons, List.map_cons]
      by_cases hid : li.id ∈ ids <;> by_cases hq : li.fdList = [] <;>
        simp [hid, hq, ih, List.Sublist.cons]

theorem exitQueue_cases {del idleStop idle : Nat → Bool}
    (h : rt.exitQueue poll del idleStop idle = some rt') :
    rt.phase = .exitQueue ∧
      ((rt.stopping = false ∧ rt' = rt.endRound idle) ∨
        (rt.stopping = true ∧ rt.coPool.freeCount = rt.coPool.fullCount ∧
          rt' = { closeListeners poll del rt with
            coPool := efCoroutinePoolShrink rt.coPool idleStop (-rt.coPool.fullCount)
            phase := .returned 0 }) ∨
        (rt.stopping = true ∧ rt.coPool.freeCount ≠ rt.coPool.fullCount ∧
          rt' = endRound { closeListeners poll del rt with
            coPool := efCoroutinePoolShrink rt.coPool idleStop (-rt.coPool.freeCount) } idle)) := by
  have hpool : (closeListeners poll del rt).coPool = rt.coPool := by
    rw [closeListeners_eq]
  unfold exitQueue at h
  split at h
  next hp =>
    refine ⟨hp, ?_⟩
    split at h
    next hs =>
      dsimp only at h
      rw [hpool] at h
      split at h
      next hc => exact Or.inr (Or.inl ⟨hs, hc, (Option.some.inj h).symm⟩)
      next hc => exact Or.inr (Or.inr ⟨hs, hc, (Option.some.inj h).symm⟩)
    next hs => exact Or.inl ⟨by simpa using hs, (Option.some.inj h).symm⟩
  next => cases h

/-! ## Routines -/

theorem close_owner (poll : EfPoll P K) (rt : Runtime P) (fd : Nat) :
    ∃ p, close poll rt fd = { rt with p := p, owner := Function.update rt.owner fd none } := by
  unfold close isOpen
  split
  · exact ⟨_, rfl⟩
  next ho =>
    have hnone : rt.owner fd = none := by simpa using ho
    exact ⟨rt.p, by rw [Function.update_eq_self_iff.mpr hnone.symm]⟩

theorem efRoutineClose_owner (poll : EfPoll P K) (rt : Runtime P) (fd : Nat) (ok : Bool) :
    ∃ p, efRoutineClose poll rt fd ok =
      { rt with p := p, owner := Function.update rt.owner fd none } :=
  close_owner poll _ fd

def Moves (rt : Runtime P) (er : Nat) (rt' : Runtime P) : Prop :=
  ∃ r p current, rt' = { rt with
      p := p, routines := Function.update rt.routines er r, current := current } ∧
    r.procFd = (rt.routines er).procFd ∧ r.pc ≠ .exited ∧
    ((r.pc.Running ∧ current = rt.current) ∨ (¬ r.pc.Running ∧ current = none))

theorem startTransfer_spec {er fd : Nat} {w : Wrapper} {ok : Bool} {r : Int × P}
    (hr : poll.associate rt.p fd w.transfer.interest (.routine er) false (ok && rt.isOpen fd) = r)
    (errno : Nat) :
    ∃ pc current, startTransfer poll rt er w fd ok errno = { rt with
        p := r.2
        routines := Function.update rt.routines er ⟨fd, (rt.routines er).procFd, pc⟩
        current := current } ∧
      ((r.1 < 0 ∧ pc = .user r.1 errno ∧ current = rt.current) ∨
        (0 < r.1 ∧ pc = .ready (.transfer w fd) ∧ current = rt.current) ∨
        (r.1 = 0 ∧ pc = .waiting (.transfer w fd) 0 ∧ current = none)) := by
  obtain ⟨ret, p⟩ := r
  unfold isOpen at hr
  rcases lt_trichotomy ret 0 with hneg | rfl | hpos
  · exact ⟨.user ret errno, rt.current, by simp [startTransfer, setPc, isOpen, hr, hneg],
      Or.inl ⟨hneg, rfl, rfl⟩⟩
  · exact ⟨.waiting (.transfer w fd) 0, none, by simp [startTransfer, setPc, yields, isOpen, hr],
      Or.inr (Or.inr ⟨rfl, rfl, rfl⟩)⟩
  · exact ⟨.ready (.transfer w fd), rt.current,
      by simp [startTransfer, setPc, isOpen, hr, hpos, hpos.not_gt], Or.inr (Or.inl ⟨hpos, rfl, rfl⟩)⟩

theorem startConnect_spec {er fd : Nat} {r : Int × P} {ok : Bool}
    (hr : poll.associate rt.p fd efPollout (.routine er) false (ok && rt.isOpen fd) = r)
    (errno : Nat) :
    ∃ pc current, startConnect poll rt er fd (.inProgress ok errno) = { rt with
        p := r.2
        routines := Function.update rt.routines er ⟨fd, (rt.routines er).procFd, pc⟩
        current := current } ∧
      ((r.1 < 0 ∧ pc = .user r.1 errno ∧ current = rt.current) ∨
        (0 ≤ r.1 ∧ pc = .waiting (.connect fd) r.1 ∧ current = none)) := by
  obtain ⟨ret, p⟩ := r
  unfold isOpen at hr
  rcases lt_or_ge ret 0 with hneg | hpos
  · exact ⟨.user ret errno, rt.current, by simp [startConnect, setPc, isOpen, hr, hneg],
      Or.inl ⟨hneg, rfl, rfl⟩⟩
  · exact ⟨.waiting (.connect fd) ret, none,
      by simp [startConnect, setPc, yields, isOpen, hr, hpos.not_gt], Or.inr ⟨hpos, rfl, rfl⟩⟩

theorem startTransfer_moves (poll : EfPoll P K) (rt : Runtime P) (er : Nat) (w : Wrapper)
    (fd : Nat) (ok : Bool) (errno : Nat) :
    Moves rt er (startTransfer poll rt er w fd ok errno) := by
  obtain ⟨r, hr⟩ : ∃ r, poll.associate rt.p fd w.transfer.interest (.routine er) false
      (ok && rt.isOpen fd) = r := ⟨_, rfl⟩
  obtain ⟨pc, current, he, hpc⟩ := startTransfer_spec hr errno
  refine ⟨_, _, current, he, rfl, ?_⟩
  rcases hpc with ⟨_, rfl, rfl⟩ | ⟨_, rfl, rfl⟩ | ⟨_, rfl, rfl⟩
  · exact ⟨Pc.noConfusion, Or.inl ⟨trivial, rfl⟩⟩
  · exact ⟨Pc.noConfusion, Or.inl ⟨trivial, rfl⟩⟩
  · exact ⟨Pc.noConfusion, Or.inr ⟨id, rfl⟩⟩

theorem startConnect_moves (poll : EfPoll P K) (rt : Runtime P) (er fd : Nat)
    (answer : ConnectAnswer) : Moves rt er (startConnect poll rt er fd answer) := by
  cases answer with
  | failed errno =>
      exact ⟨⟨fd, (rt.routines er).procFd, .user (-1) errno⟩, rt.p, rt.current,
        by simp [startConnect, setPc], rfl, Pc.noConfusion, Or.inl ⟨trivial, rfl⟩⟩
  | connected retval errno =>
      exact ⟨⟨fd, (rt.routines er).procFd, .user retval errno⟩, rt.p, rt.current,
        by simp [startConnect, setPc], rfl, Pc.noConfusion, Or.inl ⟨trivial, rfl⟩⟩
  | inProgress ok errno =>
      obtain ⟨r, hr⟩ : ∃ r, poll.associate rt.p fd efPollout (.routine er) false
          (ok && rt.isOpen fd) = r := ⟨_, rfl⟩
      obtain ⟨pc, current, he, hpc⟩ := startConnect_spec hr errno
      refine ⟨_, _, current, he, rfl, ?_⟩
      rcases hpc with ⟨_, rfl, rfl⟩ | ⟨_, rfl, rfl⟩
      · exact ⟨Pc.noConfusion, Or.inl ⟨trivial, rfl⟩⟩
      · exact ⟨Pc.noConfusion, Or.inr ⟨id, rfl⟩⟩

theorem afterYield_call (c : Call) (retval : Int) (events error : Nat) :
    (afterYield c retval events error).call = some c ∧
      (afterYield c retval events error).Running := by
  unfold afterYield
  split
  all_goals
    split
    · exact ⟨rfl, trivial⟩
    · split <;> exact ⟨rfl, trivial⟩

theorem afterTransfer_call (c : Call) (retval : Int) (errno : Nat) :
    (afterTransfer c retval errno).call = some c ∧ (afterTransfer c retval errno).Running := by
  unfold afterTransfer
  split
  · exact ⟨rfl, trivial⟩
  · split <;> exact ⟨rfl, trivial⟩

theorem routineStep_cases {er : Nat} {a : Act K} (h : routineStep poll rt er a = some rt') :
    Moves rt er rt' ∨
    (∃ fd, a = .socket fd ∧ rt.owner fd = none ∧
      rt' = { rt with owner := Function.update rt.owner fd (some (.routine er)) }) ∨
    (∃ fd wrapped ok p, a = .close fd wrapped ok ∧
      rt' = { rt with p := p, owner := Function.update rt.owner fd none }) ∨
    ∃ ok p, a = .endProc ok ∧ rt' = { rt with
      p := p
      owner := Function.update rt.owner (rt.routines er).procFd none
      routines := Function.update rt.routines er { rt.routines er with pc := .exited }
      current := none
      coPool := efCoroutineExited rt.coPool er } := by
  unfold routineStep at h
  split at h
  next w fd ok errno _ =>
    cases h
    exact Or.inl (startTransfer_moves poll rt er w fd ok errno)
  next fd answer _ =>
    cases h
    exact Or.inl (startConnect_moves poll rt er fd answer)
  next fd _ =>
    split at h
    · cases h
    next ho => exact Or.inr (Or.inl ⟨fd, rfl, by simpa [isOpen] using ho, (Option.some.inj h).symm⟩)
  next fd wrapped ok _ =>
    cases h
    refine Or.inr (Or.inr (Or.inl ⟨fd, wrapped, ok, ?_⟩))
    split
    · obtain ⟨p, hp⟩ := efRoutineClose_owner poll rt fd ok
      exact ⟨p, rfl, hp⟩
    · obtain ⟨p, hp⟩ := close_owner poll rt fd
      exact ⟨p, rfl, hp⟩
  next ok _ =>
    cases h
    obtain ⟨p, hp⟩ := efRoutineClose_owner poll rt (rt.routines er).procFd ok
    refine Or.inr (Or.inr (Or.inr ⟨ok, p, rfl, ?_⟩))
    unfold endProc
    rw [hp]
    rfl
  next c retval events error _ =>
    cases h
    have hrun := (afterYield_call c retval events error).2
    exact Or.inl ⟨{ rt.routines er with pc := afterYield c retval events error }, rt.p, rt.current,
      rfl, rfl, hrun.ne_exited, Or.inl ⟨hrun, rfl⟩⟩
  next c retval errno _ =>
    cases h
    have hrun := (afterTransfer_call c retval errno).2
    exact Or.inl ⟨{ rt.routines er with pc := afterTransfer c retval errno }, rt.p, rt.current,
      rfl, rfl, hrun.ne_exited, Or.inl ⟨hrun, rfl⟩⟩
  next c retval _ =>
    cases h
    exact Or.inl ⟨{ rt.routines er with pc := .waiting c retval }, _, none, rfl, rfl,
      Pc.noConfusion, Or.inr ⟨id, rfl⟩⟩
  next c retval errno ok _ =>
    cases h
    exact Or.inl ⟨{ rt.routines er with pc := .user retval errno }, _, rt.current, rfl, rfl,
      Pc.noConfusion, Or.inl ⟨trivial, rfl⟩⟩
  next => cases h

theorem accept_closed {fd : Nat} {nonblock : Bool} {fresh : Option Nat} {ok : Bool}
    (h : step poll rt (.accept fd nonblock fresh ok) = some rt') : rt.owner fd = none := by
  cases hcur : rt.current with
  | none =>
      simp only [step, hcur, loopStep] at h
      obtain ⟨_, _, _, _, _, _, _, ho, _⟩ := acceptSocket_cases h
      exact ho
  | some er =>
      simp only [step, hcur] at h
      cases hpc : (rt.routines er).pc <;> simp [routineStep, hpc] at h

theorem socket_closed {fd : Nat} (h : step poll rt (.socket fd) = some rt') :
    rt.owner fd = none := by
  cases hcur : rt.current with
  | none => simp [step, hcur, loopStep] at h
  | some er =>
      simp only [step, hcur] at h
      cases hpc : (rt.routines er).pc <;> simp only [routineStep, hpc, reduceCtorEq] at h
      split at h
      · cases h
      next ho => simpa [isOpen] using ho

end Runtime

end EFramework
