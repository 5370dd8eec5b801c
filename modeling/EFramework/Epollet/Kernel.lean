import EFramework.Epollet.Ready
import EFramework.Runtime.Calls

/-! # The poller and the kernel

The kernel keeps for each descriptor of its set, and each direction, whether it is
ready and whether an edge is pending. Edges come when a descriptor becomes ready
and when it is added, and reporting takes them away.
-/

namespace EFramework.Epollet

/-! ## The kernel -/

inductive Dir where
  | input
  | output
deriving Repr, DecidableEq

def Dir.mask : Dir → Nat
  | .input => efPollin
  | .output => efPollout

structure Kernel where
  /-- The epoll set. -/
  watched : Nat → Bool
  /-- How much there is to take: the queue of a listening socket, or whether a transfer would
  succeed. -/
  level : Nat → Dir → Nat
  pending : Nat → Dir → Bool

namespace Kernel

def ready (k : Kernel) (fd : Nat) (d : Dir) : Bool := 0 < k.level fd d

def add (k : Kernel) (fd : Nat) : Kernel :=
  { k with
    watched := Function.update k.watched fd true
    pending := Function.update k.pending fd (k.ready fd) }

/-- `EPOLL_CTL_DEL`, or that the descriptor is closed. -/
def del (k : Kernel) (fd : Nat) : Kernel :=
  { k with
    watched := Function.update k.watched fd false
    pending := Function.update k.pending fd (fun _ => false) }

def change (k : Kernel) (fd : Nat) (d : Dir) (level : Nat) (edge : Bool) : Kernel :=
  { k with
    level := Function.update k.level fd (Function.update (k.level fd) d level)
    pending := Function.update k.pending fd
      (Function.update (k.pending fd) d (k.pending fd d || edge && k.watched fd)) }

/-- There is an edge whenever a descriptor becomes ready. -/
def changes (k : Kernel) (fd : Nat) (d : Dir) (level : Nat) (edge : Bool) : Bool :=
  edge || k.ready fd d || level = 0

/-- An edge that is pending is reported if the descriptor is ready still. -/
def reportsEdge (k : Kernel) (report : Nat × Nat) (d : Dir) : Bool :=
  !(k.pending report.1 d && k.ready report.1 d) || report.2 &&& d.mask ≠ 0

/-- What `epoll_wait` may report: descriptors of the set, each once, with their edges. -/
def reports (k : Kernel) (report : List (Nat × Nat)) : Bool :=
  (report.map Prod.fst).Nodup ∧ report.all (fun r =>
    k.watched r.1 && k.reportsEdge r .input && k.reportsEdge r .output)

def reported (k : Kernel) (report : List (Nat × Nat)) : Kernel :=
  { k with pending := fun fd d => k.pending fd d && !(report.map Prod.fst).contains fd }

end Kernel

/-! ## The poller over the kernel -/

structure Et where
  ep : EfEpoll
  kern : Kernel
  mem : Nat → Realloc

/-- The part of `ef_epoll_associate` before the index is looked up. -/
def makeRoom (ep : EfEpoll) (fd : Nat) (mem : Realloc) : Int × EfEpoll :=
  if ep.cap ≤ fd then efEpollExpand ep fd mem else (0, ep)

/-- Whether `ef_epoll_associate` calls `epoll_ctl`. -/
def callsAdd (ep : EfEpoll) (fd : Nat) (mem : Realloc) : Bool :=
  0 ≤ (makeRoom ep fd mem).1 ∧ (makeRoom ep fd mem).2.index fd < 0

/-- Whether `ef_epoll_dissociate` with `onclose` calls `epoll_ctl`. -/
def callsDel (ep : EfEpoll) (fd : Nat) : Bool := fd < ep.cap ∧ 0 ≤ ep.index fd

namespace Et

/-- A descriptor that is in the set already is not added. -/
def associate (p : Et) (fd events : Nat) (ptr : PollPtr) (ok : Bool) : Int × Et :=
  let ok := ok && !p.kern.watched fd
  let (ret, ep) := efEpollAssociate p.ep fd events ptr (p.mem 0) ok
  (ret, {
    ep := ep
    kern := if callsAdd p.ep fd (p.mem 0) && ok then p.kern.add fd else p.kern
    mem := fun n => p.mem (n + 1) })

/-- A descriptor that is not in the set is not deleted. -/
def dissociate (p : Et) (fd : Nat) (onclose ok : Bool) : Int × Et :=
  let ok := ok && p.kern.watched fd
  let (ret, ep) := efEpollDissociate p.ep fd onclose ok
  (ret, { p with
    ep := ep, kern := if onclose && callsDel p.ep fd && ok then p.kern.del fd else p.kern })

/-- The kernel is asked when the filled area is empty. -/
def wait (p : Et) (report : List (Nat × Nat)) (count : Nat) : Option (List Event × Et) :=
  if p.ep.fill = 0 then
    if p.kern.reports report then
      (efEpollWait p.ep report count).map
        (fun r => (r.1, { p with ep := r.2, kern := p.kern.reported report }))
    else none
  else (efEpollWait p.ep report count).map (fun r => (r.1, { p with ep := r.2 }))

end Et

def efEpollEt : EfPoll Et (List (Nat × Nat)) where
  associate p fd events ptr _ ok := p.associate fd events ptr ok
  dissociate p fd _ onclose ok := p.dissociate fd onclose ok
  unset p fd events := (0, { p with ep := efEpollUnset p.ep fd events })
  wait p report := p.wait report 1024
  closed p fd := { p with kern := p.kern.del fd }

/-! ## Calls on the table -/

structure View where
  table : Table
  kern : Kernel
  opened : Nat → Bool

def view (s : Et × (Nat → Bool)) : View := ⟨s.1.ep.table, s.1.kern, s.2⟩

inductive View.Step (v : View) : PollCall (List (Nat × Nat)) → View → Prop
  /-- The arrays cannot be grown. -/
  | full {fd events : Nat} {ptr : PollPtr} {fired ok : Bool} :
      Step v (.associate fd events ptr fired ok) v
  | added {fd events : Nat} {ptr : PollPtr} {fired : Bool} :
      v.table.items fd = none → v.kern.watched fd = false →
      Step v (.associate fd events ptr fired true)
        ⟨v.table.associate fd events ptr true, v.kern.add fd, v.opened⟩
  | addFailed {fd events : Nat} {ptr : PollPtr} {fired ok : Bool} :
      v.table.items fd = none → (ok && !v.kern.watched fd) = false →
      Step v (.associate fd events ptr fired ok)
        ⟨v.table.associate fd events ptr false, v.kern, v.opened⟩
  | again {fd events : Nat} {ptr : PollPtr} {fired ok ok' : Bool} {item : EfEpollItem} :
      v.table.items fd = some item →
      Step v (.associate fd events ptr fired ok)
        ⟨v.table.associate fd events ptr ok', v.kern, v.opened⟩
  | dissociate {fd : Nat} {fired ok : Bool} :
      Step v (.dissociate fd fired ok) ⟨v.table.dissociate fd, v.kern, v.opened⟩
  | unset {fd events : Nat} :
      Step v (.unset fd events) ⟨v.table.unset fd events, v.kern, v.opened⟩
  /-- Something is due already. -/
  | ready {report : List (Nat × Nat)} : v.table.filled ≠ ∅ → Step v (.wait report) v
  | asked {report : List (Nat × Nat)} :
      v.table.filled = ∅ → v.kern.reports report = true →
      Step v (.wait report)
        ⟨report.foldl Table.fire v.table, v.kern.reported report, v.opened⟩
  | opened {fd : Nat} :
      Step v (.opened fd) ⟨v.table, v.kern, Function.update v.opened fd true⟩
  | close {fd : Nat} : v.opened fd = true →
      Step v (.close fd) ⟨v.table, v.kern.del fd, Function.update v.opened fd false⟩
  | closeNone {fd : Nat} : v.opened fd = false → Step v (.close fd) v
  | routineClose {fd : Nat} {ok : Bool} : v.opened fd = true →
      Step v (.routineClose fd ok)
        ⟨v.table.remove fd, v.kern.del fd, Function.update v.opened fd false⟩
  | routineCloseNone {fd : Nat} {ok : Bool} {kern : Kernel} : v.opened fd = false →
      (kern = v.kern ∨ kern = v.kern.del fd) →
      Step v (.routineClose fd ok) ⟨v.table.remove fd, kern, v.opened⟩

variable {s s' : Et × (Nat → Bool)} {c : PollCall (List (Nat × Nat))}

theorem Kernel.reportsEdge_iff {k : Kernel} {report : Nat × Nat} {d : Dir} :
    k.reportsEdge report d = true ↔
      (k.pending report.1 d = true → k.ready report.1 d = true → report.2 &&& d.mask ≠ 0) := by
  unfold reportsEdge
  cases k.pending report.1 d <;> cases k.ready report.1 d <;> simp

theorem Kernel.reports_edges {k : Kernel} {report : List (Nat × Nat)}
    (h : k.reports report = true) : (report.map Prod.fst).Nodup ∧
      ∀ r ∈ report, ∀ d, k.reportsEdge r d = true := by
  obtain ⟨hnodup, hall⟩ := of_decide_eq_true h
  refine ⟨hnodup, fun r hr d => ?_⟩
  have hone := List.all_eq_true.mp hall r hr
  rw [Bool.and_eq_true, Bool.and_eq_true] at hone
  cases d with
  | input => exact hone.1.2
  | output => exact hone.2

theorem Kernel.del_del (k : Kernel) (fd : Nat) : (k.del fd).del fd = k.del fd := by
  unfold del
  simp

/-- The arrays cannot be grown, or the call goes on with arrays that are large enough. -/
theorem Ok.makeRoom {ep : EfEpoll} (h : Ok ep) (hcap : 0 < ep.cap) (fd : Nat) (mem : Realloc) :
    Ok (makeRoom ep fd mem).2 ∧ (makeRoom ep fd mem).2.table = ep.table ∧
      ep.cap ≤ (makeRoom ep fd mem).2.cap ∧
      (0 ≤ (makeRoom ep fd mem).1 → fd < (makeRoom ep fd mem).2.cap) := by
  unfold Epollet.makeRoom
  split
  · exact h.expand hcap fd mem
  next hfd => exact ⟨h, rfl, Nat.le_refl _, fun _ => Nat.not_le.mp hfd⟩

theorem efEpollAssociate_eq (ep : EfEpoll) (fd events : Nat) (ptr : PollPtr) (mem : Realloc)
    (ok : Bool) :
    efEpollAssociate ep fd events ptr mem ok =
      if (makeRoom ep fd mem).1 < 0 then (-1, (makeRoom ep fd mem).2)
      else register (makeRoom ep fd mem).2 fd events ptr ok := rfl

theorem items_eq_none {ep : EfEpoll} {fd : Nat} (hfd : fd < ep.cap) :
    ep.table.items fd = none ↔ ep.index fd < 0 := by
  constructor
  · intro h
    by_contra hi
    rw [items_of hfd (Int.not_lt.mp hi)] at h
    cases h
  · exact fun hi => items_none (fun _ => hi)

theorem Ok.associate_view (h : Ok s.1.ep) (hcap : 0 < s.1.ep.cap) (fd events : Nat)
    (ptr : PollPtr) (fired ok : Bool) :
    Ok (s.1.associate fd events ptr ok).2.ep ∧ 0 < (s.1.associate fd events ptr ok).2.ep.cap ∧
      (view s).Step (.associate fd events ptr fired ok)
        (view ((s.1.associate fd events ptr ok).2, s.2)) := by
  obtain ⟨hok, ht, hle, hroom⟩ := h.makeRoom hcap fd (s.1.mem 0)
  unfold Et.associate callsAdd
  dsimp only
  rw [efEpollAssociate_eq]
  generalize Epollet.makeRoom s.1.ep fd (s.1.mem 0) = r at hok ht hle hroom ⊢
  by_cases hret : r.1 < 0
  · have hno : ¬ (0 ≤ r.1 ∧ r.2.index fd < 0) := fun hc => absurd hc.1 (Int.not_le.mpr hret)
    rw [if_pos hret, decide_eq_false hno]
    refine ⟨hok, Nat.lt_of_lt_of_le hcap hle, ?_⟩
    unfold view
    dsimp only
    rw [ht]
    exact .full
  · have hret' := Int.not_lt.mp hret
    have hfd := hroom hret'
    have ha := hok.register hfd events ptr (ok && !s.1.kern.watched fd)
    rw [if_neg hret]
    refine ⟨ha.keeps, ?_, ?_⟩
    · rw [register_cap]
      exact Nat.lt_of_lt_of_le hcap hle
    unfold view
    dsimp only
    rw [ha.table, ht]
    cases hitem : s.1.ep.table.items fd with
    | some item =>
        have hi : ¬ (0 ≤ r.1 ∧ r.2.index fd < 0) := by
          rintro ⟨_, hi⟩
          rw [← ht, (items_eq_none hfd).mpr hi] at hitem
          cases hitem
        rw [decide_eq_false hi]
        exact .again hitem
    | none =>
        have hi : 0 ≤ r.1 ∧ r.2.index fd < 0 := ⟨hret', (items_eq_none hfd).mp (ht ▸ hitem)⟩
        rw [decide_eq_true hi]
        cases hok' : ok && !s.1.kern.watched fd with
        | false => exact .addFailed hitem hok'
        | true =>
            obtain ⟨rfl, hw⟩ := Bool.and_eq_true_iff.mp hok'
            exact .added hitem (by simpa using hw)

theorem Ok.dissociate_view (h : Ok s.1.ep) (fd : Nat) (onclose ok : Bool) :
    Ok (s.1.dissociate fd onclose ok).2.ep ∧
      (s.1.dissociate fd onclose ok).2.ep.cap = s.1.ep.cap ∧
      (s.1.dissociate fd onclose ok).2.ep.table =
        (if onclose then s.1.ep.table.remove fd else s.1.ep.table.dissociate fd) ∧
      ((s.1.dissociate fd onclose ok).2.kern = s.1.kern ∨
        onclose = true ∧ (s.1.dissociate fd onclose ok).2.kern = s.1.kern.del fd) := by
  obtain ⟨hok, hcap, ht⟩ := h.dissociate fd onclose (ok && s.1.kern.watched fd)
  refine ⟨hok, hcap, ht, ?_⟩
  unfold Et.dissociate
  dsimp only
  split
  next hdel =>
    refine Or.inr ⟨?_, rfl⟩
    rw [Bool.and_eq_true, Bool.and_eq_true] at hdel
    exact hdel.1.1
  next => exact Or.inl rfl

theorem Ok.wait_view (h : Ok s.1.ep) {report : List (Nat × Nat)} {count : Nat}
    {r : List Event × Et} (hs : s.1.wait report count = some r) :
    Ok r.2.ep ∧ r.2.ep.cap = s.1.ep.cap ∧ (view s).Step (.wait report) (view (r.2, s.2)) := by
  unfold Et.wait at hs
  split at hs
  next hfill =>
    split at hs
    next hreports =>
      obtain ⟨⟨evts, ep'⟩, hw, rfl⟩ := Option.map_eq_some_iff.mp hs
      have hw := h.wait hw
      have hempty := h.fill_eq_zero.mp hfill
      refine ⟨hw.keeps, hw.cap, ?_⟩
      rcases hw.table with ⟨_, ht⟩ | ⟨hne, _⟩
      · unfold view
        dsimp only
        rw [ht]
        exact .asked hempty hreports
      · exact absurd hempty hne
    next => cases hs
  next hfill =>
    obtain ⟨⟨evts, ep'⟩, hw, rfl⟩ := Option.map_eq_some_iff.mp hs
    have hw := h.wait hw
    have hne : s.1.ep.table.filled ≠ ∅ := fun he => hfill (h.fill_eq_zero.mpr he)
    refine ⟨hw.keeps, hw.cap, ?_⟩
    rcases hw.table with ⟨he, _⟩ | ⟨_, ht⟩
    · exact absurd he hne
    · unfold view
      dsimp only
      rw [ht]
      exact .ready hne

theorem closed_eq (s : Et × (Nat → Bool)) (fd : Nat) :
    PollCall.closed efEpollEt s fd =
      if s.2 fd then ({ s.1 with kern := s.1.kern.del fd }, Function.update s.2 fd false) else s :=
  rfl

theorem Ok.call (h : Ok s.1.ep) (hcap : 0 < s.1.ep.cap) (hs : c.step efEpollEt s = some s') :
    Ok s'.1.ep ∧ 0 < s'.1.ep.cap ∧ (view s).Step c (view s') := by
  cases c with
  | associate fd events ptr fired ok =>
      cases hs
      exact h.associate_view hcap fd events ptr fired ok
  | dissociate fd fired ok =>
      cases hs
      obtain ⟨hok, hc, ht, hk⟩ := h.dissociate_view fd false ok
      have hk := hk.resolve_right (fun hx => by cases hx.1)
      refine ⟨hok, Nat.lt_of_lt_of_eq hcap hc.symm, ?_⟩
      unfold view
      change View.Step _ _ ⟨(s.1.dissociate fd false ok).2.ep.table,
        (s.1.dissociate fd false ok).2.kern, s.2⟩
      rw [ht, hk]
      exact .dissociate
  | unset fd events =>
      cases hs
      obtain ⟨hok, hc, ht⟩ := h.unset fd events
      refine ⟨hok, Nat.lt_of_lt_of_eq hcap hc.symm, ?_⟩
      unfold view
      change View.Step _ _ ⟨(efEpollUnset s.1.ep fd events).table, s.1.kern, s.2⟩
      rw [ht]
      exact .unset
  | wait report =>
      obtain ⟨r, hw, rfl⟩ := Option.map_eq_some_iff.mp hs
      obtain ⟨hok, hc, hv⟩ := h.wait_view hw
      exact ⟨hok, Nat.lt_of_lt_of_eq hcap hc.symm, hv⟩
  | opened fd =>
      cases hs
      exact ⟨h, hcap, .opened⟩
  | close fd =>
      cases hs
      rw [closed_eq]
      split
      next hopen => exact ⟨h, hcap, .close hopen⟩
      next hopen => exact ⟨h, hcap, .closeNone (by simpa [view] using hopen)⟩
  | routineClose fd ok =>
      obtain ⟨hok, hc, ht, hk⟩ := h.dissociate_view fd true ok
      have hs' : s' = PollCall.closed efEpollEt ((s.1.dissociate fd true ok).2, s.2) fd :=
        (Option.some.inj hs).symm
      generalize (s.1.dissociate fd true ok).2 = p at hok hc ht hk hs'
      have ht : p.ep.table = s.1.ep.table.remove fd := ht
      have hk : p.kern = s.1.kern ∨ p.kern = s.1.kern.del fd := hk.imp id And.right
      rw [hs', closed_eq]
      split
      next hopen =>
        have hdel : p.kern.del fd = s.1.kern.del fd := by
          rcases hk with hk | hk
          · rw [hk]
          · rw [hk, Kernel.del_del]
        refine ⟨hok, Nat.lt_of_lt_of_eq hcap hc.symm, ?_⟩
        unfold view
        dsimp only
        rw [ht, hdel]
        exact .routineClose hopen
      next hopen =>
        refine ⟨hok, Nat.lt_of_lt_of_eq hcap hc.symm, ?_⟩
        unfold view
        dsimp only
        rw [ht]
        exact .routineCloseNone (by simpa using hopen) hk

end EFramework.Epollet
