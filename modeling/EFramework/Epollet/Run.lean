import EFramework.Epollet.Table

/-! # Runs of the poller

Any sequence of calls, whatever `realloc` and the kernel answer, leaves the arrays
in step: each item is where the index says, and what a call does not concern keeps
its item.
-/

namespace EFramework.Epollet

inductive Op where
  | associate (fd events : Nat) (ptr : PollPtr) (mem : Realloc) (ok : Bool)
  | dissociate (fd : Nat) (onclose ok : Bool)
  | unset (fd events : Nat)
  | wait (report : List (Nat × Nat)) (count : Nat)
deriving Repr, DecidableEq

def Op.fds : Op → List Nat
  | .associate fd _ _ _ _ | .dissociate fd _ _ | .unset fd _ => [fd]
  | .wait report _ => report.map Prod.fst

/-- Descriptors for which `cap <<= 1` does not overflow. -/
def Op.inRange : Op → Bool
  | .associate fd _ _ _ _ | .dissociate fd _ _ | .unset fd _ => fd < 2 ^ 30
  | .wait _ _ => true

def step (ep : EfEpoll) : Op → Option EfEpoll
  | .associate fd events ptr mem ok => some (efEpollAssociate ep fd events ptr mem ok).2
  | .dissociate fd onclose ok => some (efEpollDissociate ep fd onclose ok).2
  | .unset fd events => some (efEpollUnset ep fd events)
  | .wait report count => (efEpollWait ep report count).map Prod.snd

def Created (ep : EfEpoll) : Prop :=
  ∃ cap index items, cap < 2 ^ 31 ∧ efEpollCreate cap index items true = some ep

inductive Table.Step (t : Table) : Op → Table → Prop
  /-- The arrays cannot be grown. -/
  | full {fd events : Nat} {ptr : PollPtr} {mem : Realloc} {ok : Bool} :
      t.items fd = none → fd ∉ t.filled → Step t (.associate fd events ptr mem ok) t
  | associate {fd events : Nat} {ptr : PollPtr} {mem : Realloc} {ok : Bool} :
      Step t (.associate fd events ptr mem ok) (t.associate fd events ptr ok)
  | remove {fd : Nat} {ok : Bool} : Step t (.dissociate fd true ok) (t.remove fd)
  | dissociate {fd : Nat} {ok : Bool} : Step t (.dissociate fd false ok) (t.dissociate fd)
  | unset {fd events : Nat} : Step t (.unset fd events) (t.unset fd events)
  /-- Something is due already. -/
  | ready {report : List (Nat × Nat)} {count : Nat} :
      t.filled ≠ ∅ → Step t (.wait report count) t
  | asked {report : List (Nat × Nat)} {count : Nat} :
      t.filled = ∅ → Step t (.wait report count) (report.foldl Table.fire t)

variable {ep ep' : EfEpoll} {op : Op}

/-! ## Steps -/

/-- A call on the arrays is the call on the table. -/
theorem Ok.step (h : Ok ep) (hcap : 0 < ep.cap) (hs : step ep op = some ep') :
    Ok ep' ∧ ep.cap ≤ ep'.cap ∧ ep.table.Step op ep'.table := by
  cases op with
  | associate fd events ptr mem ok =>
      cases hs
      obtain ⟨hle, ⟨hfd, _, hok, ht⟩ | ha⟩ := h.associate hcap fd events ptr mem ok
      · have hno : fd < ep.cap → ep.index fd < 0 := fun hc => absurd hc (Nat.not_lt.mpr hfd)
        rw [ht]
        exact ⟨hok, hle, .full (items_none hno) (not_filled hno)⟩
      · rw [ha.table]
        exact ⟨ha.keeps, hle, .associate⟩
  | dissociate fd onclose ok =>
      cases hs
      obtain ⟨hok, hc, ht⟩ := h.dissociate fd onclose ok
      rw [ht]
      cases onclose with
      | true => exact ⟨hok, Nat.le_of_eq hc.symm, .remove⟩
      | false => exact ⟨hok, Nat.le_of_eq hc.symm, .dissociate⟩
  | unset fd events =>
      cases hs
      obtain ⟨hok, hc, ht⟩ := h.unset fd events
      rw [ht]
      exact ⟨hok, Nat.le_of_eq hc.symm, .unset⟩
  | wait report count =>
      obtain ⟨⟨evts, ep₁⟩, hw, rfl⟩ := Option.map_eq_some_iff.mp hs
      have hw := h.wait hw
      refine ⟨hw.keeps, Nat.le_of_eq hw.cap.symm, ?_⟩
      rcases hw.table with ⟨he, ht⟩ | ⟨hne, ht⟩
      · rw [ht]
        exact .asked he
      · rw [ht]
        exact .ready hne

theorem Created.spec (h : Created ep) : ep.used = 0 ∧ ep.fill = 0 ∧ 0 < ep.cap ∧
    ep.cap ≤ 2 ^ 31 - 1 ∧ ∀ fd, fd < ep.cap → ep.index fd = -1 := by
  obtain ⟨cap, index, items, hcap, he⟩ := h
  unfold efEpollCreate at he
  cases he
  refine ⟨rfl, rfl, ?_, ?_, fun fd hfd => if_pos hfd⟩
  · dsimp only
    split <;> omega
  · dsimp only
    split <;> omega

theorem Created.ok (h : Created ep) : Ok ep := by
  obtain ⟨hused, hfill, _, _, hindex⟩ := h.spec
  refine ⟨⟨by omega, by omega, fun i h₀ h₁ _ => by omega, fun fd hfd hi => ?_⟩, by omega, by omega⟩
  rw [hindex fd hfd] at hi
  exact absurd hi (by decide)

theorem Created.table (h : Created ep) : ep.table = ⟨fun _ => none, ∅⟩ := by
  obtain ⟨_, hfill, _, _, hindex⟩ := h.spec
  have hneg : ∀ fd, fd < ep.cap → ep.index fd < 0 := fun fd hfd => by
    rw [hindex fd hfd]
    decide
  exact table_eq (funext fun fd => items_none (hneg fd))
    (fun fd => ⟨fun hf => absurd hf (not_filled (hneg fd)), fun hf => absurd hf (Set.notMem_empty fd)⟩)

theorem Ok.cap_le (h : Ok ep) {n : Nat} (hcap : ep.cap ≤ n) (hn : 2 ^ 31 - 2 ≤ n)
    (hr : op.inRange = true) (hs : Epollet.step ep op = some ep') : ep'.cap ≤ n := by
  cases op with
  | associate fd events ptr mem ok =>
      cases hs
      have hfd : fd < 2 ^ 30 := of_decide_eq_true hr
      exact associate_cap_le hcap (by omega) events ptr mem ok
  | dissociate fd onclose ok =>
      cases hs
      exact (h.dissociate fd onclose ok).2.1 ▸ hcap
  | unset fd events =>
      cases hs
      exact (h.unset fd events).2.1 ▸ hcap
  | wait report count =>
      obtain ⟨⟨evts, ep₁⟩, hw, rfl⟩ := Option.map_eq_some_iff.mp hs
      exact (h.wait hw).cap ▸ hcap

/-! ## What a call leaves alone -/

theorem Table.items_foldl_fire {t : Table} {report : List (Nat × Nat)} {fd : Nat}
    (h : fd ∉ report.map Prod.fst) : (report.foldl Table.fire t).items fd = t.items fd := by
  induction report generalizing t with
  | nil => rfl
  | cons r report ih =>
      obtain ⟨hne, hmem⟩ := not_or.mp (fun hc => h (List.mem_cons.mpr hc))
      rw [List.foldl_cons, ih hmem]
      exact Function.update_of_ne hne _ _

theorem Table.Step.items_eq {t t' : Table} (h : t.Step op t') {fd : Nat} (hfd : fd ∉ op.fds) :
    t'.items fd = t.items fd := by
  cases h with
  | full _ _ => rfl
  | associate => exact Function.update_of_ne (List.ne_of_not_mem_cons hfd) _ _
  | remove => exact Function.update_of_ne (List.ne_of_not_mem_cons hfd) _ _
  | dissociate => exact Function.update_of_ne (List.ne_of_not_mem_cons hfd) _ _
  | unset => exact Function.update_of_ne (List.ne_of_not_mem_cons hfd) _ _
  | ready _ => rfl
  | asked _ => exact Table.items_foldl_fire hfd

/-! ## The index -/

/-- In every state that the poller reaches the index and the items are in step, nothing
overflows, and a call leaves the items of all descriptors alone that it does not concern. -/
theorem index_inverse {ep : EfEpoll}
    (h : Lib.Reachable Created step (fun _ op => op.inRange = true) ep) :
    (0 ≤ ep.fill ∧ ep.fill ≤ ep.used ∧ ep.used ≤ ep.cap ∧ ep.cap < 2 ^ 31) ∧
    (∀ i, 0 ≤ i → i < ep.used → (ep.items i).fd < ep.cap ∧ ep.index (ep.items i).fd = i) ∧
    (∀ fd, fd < ep.cap → 0 ≤ ep.index fd →
      ep.index fd < ep.used ∧ (ep.items (ep.index fd)).fd = fd) ∧
    ∀ op ep', step ep op = some ep' → ∀ fd, fd ∉ op.fds →
      ep'.table.items fd = ep.table.items fd := by
  have hinv : Lib.Invariant Created step (fun _ op => op.inRange = true)
      (fun ep => Ok ep ∧ 0 < ep.cap ∧ ep.cap ≤ 2 ^ 31 - 1) := by
    refine ⟨fun h₀ => ⟨h₀.ok, h₀.spec.2.2.1, h₀.spec.2.2.2.1⟩, fun h₀ hg hs => ?_⟩
    obtain ⟨hok, hpos, hle⟩ := h₀
    obtain ⟨hok', hcap, _⟩ := hok.step hpos hs
    exact ⟨hok', by omega, hok.cap_le hle (by omega) hg hs⟩
  obtain ⟨hok, hpos, hle⟩ := hinv.holds h
  refine ⟨⟨hok.fill_nonneg, hok.fill_le, ?_, by omega⟩, fun i h₀ h₁ => ?_, fun fd hfd hi => ?_,
    fun op ep' hs fd hfd => ?_⟩
  · have hused := hok.slots.used_le (Finset.range ep.cap)
      (fun fd hfd => Finset.mem_range.mpr hfd)
    rwa [Finset.card_range] at hused
  · exact hok.slots.slot i h₀ h₁ (by omega)
  · have hitem := hok.slots.item fd hfd hi
    exact ⟨hitem.1, hitem.2.2⟩
  · exact (hok.step hpos hs).2.2.items_eq hfd

/-- A poller for 128 descriptors. -/
def small : EfEpoll where
  index := fun _ => -1
  items := fun _ => ⟨0, 0, 0, .listen 0⟩
  used := 0
  cap := 128
  fill := 0

theorem small_created : Created small := by
  refine ⟨0, fun _ => -1, fun _ => ⟨0, 0, 0, .listen 0⟩, by decide, ?_⟩
  have hindex : (fun fd : Nat => if fd < 128 then (-1 : Int) else -1) = fun _ => -1 :=
    funext fun _ => ite_self _
  exact congrArg (fun index => some { small with index := index }) hindex

/-- Two descriptors are registered, the second beyond `cap` and at the second attempt, the first
is taken out, and the second fires. -/
def grownOnce : List Op :=
  [.associate 5 efPollin (.listen 0) ⟨true, true, true⟩ true,
    .associate 200 efPollin (.routine 1) ⟨true, true, false⟩ true,
    .associate 200 efPollin (.routine 1) ⟨true, true, true⟩ true,
    .dissociate 5 true true, .wait [(200, efPollin)] 8]

theorem index_inverse_grown : ∃ ep,
    Lib.run step (fun _ op => op.inRange = true) small grownOnce = some ep ∧
    (ep.cap, ep.used, ep.fill, ep.index 200, ep.items 0) =
      (256, 1, 1, 0, ⟨200, efPollin, efPollin ||| efPollout, .routine 1⟩) ∧
    (ep.items (ep.index 200)).fd = 200 ∧ ep.used ≤ ep.cap := by
  have hrun : (Lib.run step (fun _ op => op.inRange = true) small grownOnce).map
      (fun ep => (ep.cap, ep.used, ep.fill, ep.index 200, ep.items 0)) =
      some (256, 1, 1, 0, ⟨200, efPollin, efPollin ||| efPollout, .routine 1⟩) := by decide
  obtain ⟨ep, hr, he⟩ := Option.map_eq_some_iff.mp hrun
  have hinit : Lib.Reachable Created step (fun _ op => op.inRange = true) small :=
    .init small_created
  obtain ⟨⟨_, _, hused, _⟩, _, hitem, _⟩ := index_inverse (hinit.run hr)
  simp only [Prod.mk.injEq] at he
  obtain ⟨hcap, hu, hf, hi, hit⟩ := he
  refine ⟨ep, hr, by rw [hcap, hu, hf, hi, hit], (hitem 200 ?_ ?_).2, hused⟩
  · rw [hcap]
    decide
  · rw [hi]

end EFramework.Epollet
