import EFramework.Epollet.Table
import EFramework.Lib.Run
import EFramework.Pollsys.Model
import Mathlib.Data.Set.Card

/-! # The arrays of `poll.c` as a map

What the backend is for is a finite map from descriptors to what is awaited and who
awaits it. The two arrays represent it in every state that calls reach, whatever
`realloc` answers, and a wait reports entries of the map.
-/

namespace EFramework.Pollsys

open EFramework.Epollet (doubled)

/-! ## The map -/

inductive Op where
  | associate (fd : Nat) (events : Int) (ptr : PollPtr) (fired : Bool) (mem : Realloc)
  | dissociate (fd : Nat) (fired onclose : Bool)
  | unset (fd : Nat) (events : Int)
  | wait (count : Int) (answer : PollAnswer)

def step (ep : EfPollsys) : Op → Int × EfPollsys
  | .associate fd events ptr fired mem => efPollAssociate ep fd events ptr fired mem
  | .dissociate fd fired onclose => efPollDissociate ep fd fired onclose
  | .unset fd events => efPollUnset ep fd events
  | .wait count answer => ((efPollWait ep count answer).1, (efPollWait ep count answer).2.2)

/-- What is awaited on a descriptor, and for whom. -/
abbrev PollMap := Nat → Option (Int × PollPtr)

/-- What a call does to the map, by what it returns. -/
def PollMap.step (m : PollMap) (op : Op) (ret : Int) : PollMap :=
  match op with
  | .associate fd events ptr fired _ =>
      if fired ∨ ret < 0 then m else Function.update m fd (some (short events, ptr))
  | .dissociate fd _ _ => Function.update m fd none
  | _ => m

def stepBoth (s : EfPollsys × PollMap) (op : Op) : Option (EfPollsys × PollMap) :=
  some ((step s.1 op).2, s.2.step op (step s.1 op).1)

def Created (ep : EfPollsys) : Prop :=
  ∃ cap index ptrs pfds, cap < 2 ^ 31 ∧ efPollCreate cap index ptrs pfds true = some ep

def Op.inRange : Op → Bool
  | .associate fd _ _ _ _ => fd < 2 ^ 30
  | _ => true

def EfPollsys.map (ep : EfPollsys) : PollMap := fun fd =>
  (ep.toSlots.find (· < ep.cap) fd).bind
    (fun pfd => (ep.ptrs fd).map (fun ptr => (pfd.events, ptr)))

structure Ok (ep : EfPollsys) : Prop where
  slots : Lib.Slots.Ok PollFd.fd (· < ep.cap) ep.toSlots (-1)
  /-- Who awaits is known for each descriptor that has a slot. -/
  ptrs : ∀ fd, fd < ep.cap → 0 ≤ ep.index fd → (ep.ptrs fd).isSome = true

variable {ep : EfPollsys} {fd : Nat}

theorem map_of (hfd : fd < ep.cap) (hi : 0 ≤ ep.index fd) :
    ep.map fd = (ep.ptrs fd).map (fun ptr => ((ep.items (ep.index fd)).events, ptr)) := by
  unfold EfPollsys.map
  rw [Lib.Slots.find_of (D := (· < ep.cap)) hfd hi]
  rfl

theorem map_none (h : fd < ep.cap → ep.index fd < 0) : ep.map fd = none := by
  unfold EfPollsys.map
  rw [Lib.Slots.find_none (D := (· < ep.cap)) h]
  rfl

theorem Ok.map_isSome (h : Ok ep) : (ep.map fd).isSome = true ↔ fd < ep.cap ∧ 0 ≤ ep.index fd := by
  constructor
  · intro hsome
    by_contra hno
    rw [map_none (fun hfd => Int.not_le.mp fun hi => hno ⟨hfd, hi⟩)] at hsome
    cases hsome
  · rintro ⟨hfd, hi⟩
    rw [map_of hfd hi, Option.isSome_map]
    exact h.ptrs fd hfd hi

/-! ## Growing the arrays -/

theorem Ok.grown (h : Ok ep) {cap : Nat} {index : Nat → Int} {ptrs : Nat → Option PollPtr}
    (hle : ep.cap ≤ cap) (hold : ∀ a, a < ep.cap → index a = ep.index a ∧ ptrs a = ep.ptrs a)
    (hnew : ∀ a, a < cap → ¬ a < ep.cap → index a = -1) :
    Ok { ep with index := index, ptrs := ptrs, cap := cap } ∧
      EfPollsys.map { ep with index := index, ptrs := ptrs, cap := cap } = ep.map := by
  have hok : Ok { ep with index := index, ptrs := ptrs, cap := cap } := by
    refine ⟨h.slots.extend (fun a ha => Nat.lt_of_lt_of_le ha hle) (fun a ha => (hold a ha).1)
      fun a ha hn => ?_, fun a ha hi => ?_⟩
    · rw [hnew a ha hn]
      decide
    · dsimp only at ha hi ⊢
      by_cases hc : a < ep.cap
      · rw [(hold a hc).1] at hi
        rw [(hold a hc).2]
        exact h.ptrs a hc hi
      · rw [hnew a ha hc] at hi
        exact absurd hi (by decide)
  refine ⟨hok, funext fun a => ?_⟩
  by_cases hc : a < ep.cap ∧ 0 ≤ ep.index a
  · have hi : 0 ≤ index a := by
      rw [(hold a hc.1).1]
      exact hc.2
    rw [map_of hc.1 hc.2, map_of (Nat.lt_of_lt_of_le hc.1 hle) hi]
    dsimp only
    rw [(hold a hc.1).1, (hold a hc.1).2]
  · have hneg : a < ep.cap → ep.index a < 0 := fun ha => Int.not_le.mp fun hi => hc ⟨ha, hi⟩
    rw [map_none hneg, map_none fun ha => ?_]
    dsimp only at ha ⊢
    by_cases hlt : a < ep.cap
    · rw [(hold a hlt).1]
      exact hneg hlt
    · rw [hnew a ha hlt]
      decide

theorem Ok.expand (h : Ok ep) (hcap : 0 < ep.cap) (fd : Nat) (mem : Realloc) :
    Ok (efPollExpand ep fd mem).2 ∧ (efPollExpand ep fd mem).2.map = ep.map ∧
      ep.cap ≤ (efPollExpand ep fd mem).2.cap ∧
      (0 ≤ (efPollExpand ep fd mem).1 → fd < (efPollExpand ep fd mem).2.cap) := by
  unfold efPollExpand
  split
  next hfd => exact ⟨h, rfl, Nat.le_refl _, fun _ => hfd⟩
  next hfd =>
    have hle := Epollet.le_doubled fd (fd + 1) ep.cap
    have hlt := Epollet.lt_doubled fd (fd + 1) hcap (by omega)
    have hold : ∀ a, a < ep.cap →
        (if ep.cap ≤ a ∧ a < doubled fd (fd + 1) ep.cap then -1 else ep.index a) = ep.index a ∧
        (if ep.cap ≤ a ∧ a < doubled fd (fd + 1) ep.cap then none else ep.ptrs a) = ep.ptrs a :=
      fun a ha => ⟨if_neg (fun hc => absurd hc.1 (Nat.not_le.mpr ha)),
        if_neg (fun hc => absurd hc.1 (Nat.not_le.mpr ha))⟩
    have hfull := h.grown hle hold (fun a ha hn => if_pos ⟨Nat.not_lt.mp hn, ha⟩)
    have hhalf := h.grown (Nat.le_refl _) hold (fun a ha hn => absurd ha hn)
    dsimp only
    split
    · split
      · exact ⟨hfull.1, hfull.2, hle, fun _ => hlt⟩
      · exact ⟨hhalf.1, hhalf.2, Nat.le_refl _, fun hret => absurd hret (by simp)⟩
    · exact ⟨h, rfl, Nat.le_refl _, fun hret => absurd hret (by simp)⟩

theorem Ok.makeRoom (h : Ok ep) (hcap : 0 < ep.cap) (fd : Nat) (mem : Realloc) :
    Ok (makeRoom ep fd mem).2 ∧ (makeRoom ep fd mem).2.map = ep.map ∧
      ep.cap ≤ (makeRoom ep fd mem).2.cap ∧
      (0 ≤ (makeRoom ep fd mem).1 → fd < (makeRoom ep fd mem).2.cap) := by
  unfold Pollsys.makeRoom
  split
  · exact h.expand hcap fd mem
  next hfd => exact ⟨h, rfl, Nat.le_refl _, fun _ => Nat.not_le.mp hfd⟩

theorem expand_cap_le {n : Nat} (hcap : ep.cap ≤ n) (hfd : 2 * fd ≤ n) (mem : Realloc) :
    (efPollExpand ep fd mem).2.cap ≤ n := by
  have hle := Epollet.doubled_le (fd + 1) hcap hfd
  unfold efPollExpand
  split
  · exact hcap
  · dsimp only
    split
    · split
      · exact hle
      · exact hcap
    · exact hcap

/-! ## Calls -/

theorem Ok.replace (h : Ok ep) {slots : Lib.Slots Nat PollFd} {ptrs : Nat → Option PollPtr}
    {entry : Option PollFd} (hok : Lib.Slots.Ok PollFd.fd (· < ep.cap) slots (-1))
    (hfind : slots.find (· < ep.cap) =
      Function.update (ep.toSlots.find (· < ep.cap)) fd entry)
    (hptrs : ∀ a, a ≠ fd → ptrs a = ep.ptrs a)
    (hsome : entry.isSome = true → (ptrs fd).isSome = true) :
    Ok { ep with toSlots := slots, ptrs := ptrs } ∧
      EfPollsys.map { ep with toSlots := slots, ptrs := ptrs } = Function.update ep.map fd
        (entry.bind (fun pfd => (ptrs fd).map (fun ptr => (pfd.events, ptr)))) := by
  have hself : slots.find (· < ep.cap) fd = entry := by rw [hfind, Function.update_self]
  have hother : ∀ a, a ≠ fd →
      slots.find (· < ep.cap) a = ep.toSlots.find (· < ep.cap) a := fun a hne => by
    rw [hfind, Function.update_of_ne hne]
  refine ⟨⟨hok, fun a ha hi => ?_⟩, funext fun a => ?_⟩
  · have hfound : (slots.find (· < ep.cap) a).isSome = true :=
      Lib.Slots.find_isSome.mpr ⟨ha, hi⟩
    by_cases he : a = fd
    · subst he
      exact hsome (hself ▸ hfound)
    · have hin := Lib.Slots.find_isSome.mp (hother a he ▸ hfound)
      dsimp only
      rw [hptrs a he]
      exact h.ptrs a hin.1 hin.2
  · unfold EfPollsys.map
    by_cases he : a = fd
    · subst he
      rw [Function.update_self]
      exact congrArg (fun o : Option PollFd =>
        o.bind (fun pfd => (ptrs a).map (fun ptr => (pfd.events, ptr)))) hself
    · rw [Function.update_of_ne he]
      dsimp only
      rw [hother a he, hptrs a he]

theorem Ok.register (h : Ok ep) (hfd : fd < ep.cap) (events : Int) (ptr : PollPtr) :
    Ok (register ep fd events ptr) ∧
      (register ep fd events ptr).map = Function.update ep.map fd (some (short events, ptr)) := by
  have hother : ∀ a, a ≠ fd → Function.update ep.ptrs fd (some ptr) a = ep.ptrs a :=
    fun a hne => Function.update_of_ne hne _ _
  have hself : Function.update ep.ptrs fd (some ptr) fd = some ptr := Function.update_self _ _ _
  unfold Pollsys.register
  dsimp only
  split
  next hi =>
    have hput := h.replace (h.slots.push hfd hi)
      (h.slots.find_push (b := { ep.items ep.used with fd := fd, events := short events }) hfd)
      hother (fun _ => by rw [hself]; rfl)
    rw [hself] at hput
    exact hput
  next hi =>
    have hi := Int.not_lt.mp hi
    have hput := h.replace (h.slots.set hfd hi rfl)
      (h.slots.find_set (b := { ep.items (ep.index fd) with fd := fd, events := short events })
        hfd hi) hother (fun _ => by rw [hself]; rfl)
    rw [hself] at hput
    exact hput

theorem Ok.associate (h : Ok ep) (hcap : 0 < ep.cap) (fd : Nat) (events : Int) (ptr : PollPtr)
    (fired : Bool) (mem : Realloc) :
    let r := efPollAssociate ep fd events ptr fired mem
    Ok r.2 ∧ ep.cap ≤ r.2.cap ∧
      r.2.map = ep.map.step (.associate fd events ptr fired mem) r.1 := by
  unfold efPollAssociate PollMap.step
  cases fired with
  | true => exact ⟨h, Nat.le_refl _, (if_pos (Or.inl rfl)).symm⟩
  | false =>
      obtain ⟨hok, hmap, hle, hroom⟩ := h.makeRoom hcap fd mem
      rw [if_neg Bool.false_ne_true]
      dsimp only
      generalize Pollsys.makeRoom ep fd mem = r at hok hmap hle hroom ⊢
      split
      next hret => exact ⟨hok, hle, hmap.trans (if_pos (Or.inr (by simp))).symm⟩
      next hret =>
        have hreg := hok.register (hroom (Int.not_lt.mp hret)) events ptr
        refine ⟨hreg.1, hle, hreg.2.trans ?_⟩
        rw [hmap, if_neg (by simp)]

theorem Ok.dissociate (h : Ok ep) (fd : Nat) (fired onclose : Bool) :
    let r := efPollDissociate ep fd fired onclose
    Ok r.2 ∧ r.2.cap = ep.cap ∧ r.2.map = Function.update ep.map fd none := by
  have hnone : (fd < ep.cap → ep.index fd < 0) → ep.map = Function.update ep.map fd none :=
    fun hno => (Function.update_eq_self_iff.mpr (map_none hno).symm).symm
  unfold efPollDissociate
  dsimp only
  split
  next hcap => exact ⟨h, rfl, hnone (fun hfd => absurd hfd (Nat.not_lt.mpr hcap))⟩
  next hcap =>
    have hfd := Nat.not_le.mp hcap
    split
    next hi => exact ⟨h, rfl, hnone (fun _ => hi)⟩
    next hi =>
      have hi := Int.not_lt.mp hi
      have hhole := h.slots.unlink hfd hi
      have hput := h.replace (hhole.close hi)
        ((hhole.find_close hi).trans (Lib.Slots.find_unlink ep.toSlots fd)) (fun _ _ => rfl)
        (fun hc => absurd hc Bool.false_ne_true)
      exact ⟨hput.1, rfl, hput.2⟩

/-! ## Waiting -/

theorem Ok.polled (h : Ok ep) (revents : Int → Int) :
    Ok (Pollsys.polled ep revents) ∧ (Pollsys.polled ep revents).map = ep.map := by
  have hitem : ∀ i, ((Pollsys.polled ep revents).items i).fd = (ep.items i).fd ∧
      ((Pollsys.polled ep revents).items i).events = (ep.items i).events := fun i => by
    unfold Pollsys.polled
    dsimp only
    split <;> exact ⟨rfl, rfl⟩
  have hok : Ok (Pollsys.polled ep revents) := by
    refine ⟨⟨h.slots.used_nonneg, h.slots.hole_lt, fun i h₀ h₁ hne => ?_, fun a ha hi => ?_⟩, h.ptrs⟩
    · rw [(hitem i).1]
      exact h.slots.slot i h₀ h₁ hne
    · rw [(hitem _).1]
      exact h.slots.item a ha hi
  refine ⟨hok, funext fun a => ?_⟩
  by_cases hc : a < ep.cap ∧ 0 ≤ ep.index a
  · have hpolled : (Pollsys.polled ep revents).map a = _ := map_of hc.1 hc.2
    rw [hpolled, map_of hc.1 hc.2, (hitem _).2]
    rfl
  · have hneg : a < ep.cap → ep.index a < 0 := fun ha => Int.not_le.mp fun hi => hc ⟨ha, hi⟩
    have hpolled : (Pollsys.polled ep revents).map a = none := map_none hneg
    rw [hpolled, map_none hneg]

theorem polled_revents (ep : EfPollsys) (revents : Int → Int) {i : Nat} (hi : i < ep.used.toNat) :
    ((polled ep revents).items i).revents = revents i := by
  unfold polled
  dsimp only
  rw [if_pos (by omega)]

def fired (ep : EfPollsys) (idx rest : Nat) : List Nat :=
  (List.range' idx rest).filter (fun i : Nat => (ep.items i).revents ≠ 0)

theorem events_eq (ep : EfPollsys) (count : Int) (rest idx : Nat) (cnt : Int) :
    events ep count rest idx cnt =
      ((fired ep idx rest).take (count - cnt).toNat).map (fun i : Nat => event ep i) := by
  induction rest generalizing idx cnt with
  | zero =>
      unfold fired
      simp [events]
  | succ rest ih =>
      unfold events
      split
      next hlt =>
        obtain ⟨n, hn⟩ : ∃ n, (count - cnt).toNat = n + 1 := ⟨(count - cnt).toNat - 1, by omega⟩
        split
        next hr =>
          have hfired : fired ep idx (rest + 1) = idx :: fired ep (idx + 1) rest := by
            unfold fired
            rw [List.range'_succ, List.filter_cons_of_pos (by simpa using hr)]
          rw [hfired, hn, List.take_succ_cons, List.map_cons, ih,
            show (count - (cnt + 1)).toNat = n by omega]
        next hr =>
          have hfired : fired ep idx (rest + 1) = fired ep (idx + 1) rest := by
            unfold fired
            rw [List.range'_succ, List.filter_cons_of_neg (by simpa using hr)]
          rw [hfired, ih]
      next hlt =>
        rw [show (count - cnt).toNat = 0 by omega]
        rfl

theorem pollRet_eq (ep : EfPollsys) : pollRet ep = (fired ep 0 ep.used.toNat).length := by
  unfold pollRet fired
  rw [List.range_eq_range']

/-- What a wait reports. -/
theorem efPollWait_eq (ep : EfPollsys) (count : Int) (revents : Int → Int) :
    let slots := fired (polled ep revents) 0 ep.used.toNat
    let evts := (slots.take (min count slots.length).toNat).map
      (fun i : Nat => event (polled ep revents) i)
    efPollWait ep count (.revents revents) = ((evts.length : Int), evts, polled ep revents) := by
  have hret := pollRet_eq (polled ep revents)
  have hused : (polled ep revents).used = ep.used := rfl
  unfold efPollWait
  dsimp only
  rw [hused] at hret ⊢
  rw [hret, events_eq, Int.sub_zero]
  generalize fired (polled ep revents) 0 ep.used.toNat = slots
  split
  next hzero =>
    rw [List.eq_nil_of_length_eq_zero hzero, List.take_nil]
    rfl
  next hpos =>
    have hmin : (if (slots.length : Int) < count then (slots.length : Int) else count) =
        min count slots.length := by
      split <;> omega
    rw [hmin]

theorem ncard_of_nodup {l : List Nat} (hn : l.Nodup) {s : Set Nat} (hs : ∀ a, a ∈ l ↔ a ∈ s) :
    s.ncard = l.length := by
  have he : s = (l.toFinset : Set Nat) := by
    rw [List.coe_toFinset]
    exact Set.ext fun a => (hs a).symm
  rw [he, Set.ncard_coe_finset, List.toFinset_card_of_nodup hn]

def firedFds (ep : EfPollsys) (revents : Int → Int) : List Nat :=
  (fired (polled ep revents) 0 ep.used.toNat).map (fun i : Nat => (ep.items i).fd)

theorem mem_fired {revents : Int → Int} {i : Nat} :
    i ∈ fired (polled ep revents) 0 ep.used.toNat ↔ i < ep.used.toNat ∧ revents i ≠ 0 := by
  unfold fired
  rw [← List.range_eq_range', List.mem_filter, List.mem_range, decide_eq_true_iff]
  refine and_congr_right fun hi => ?_
  rw [polled_revents ep revents hi]

theorem Ok.firedFds_nodup (h : Ok ep) (revents : Int → Int) : (firedFds ep revents).Nodup := by
  refine List.Nodup.map_on (fun i hi j hj he => ?_) ?_
  · exact h.slots.key_inj (mem_fired.mp hi).1 (mem_fired.mp hj).1 he
  · exact (List.nodup_range').filter _

theorem Ok.mem_firedFds (h : Ok ep) {revents : Int → Int} :
    fd ∈ firedFds ep revents ↔ (ep.map fd).isSome = true ∧ revents (ep.index fd) ≠ 0 := by
  rw [h.map_isSome]
  constructor
  · intro hfd
    obtain ⟨i, hi, rfl⟩ := List.mem_map.mp hfd
    obtain ⟨hlt, hr⟩ := mem_fired.mp hi
    obtain ⟨hcap, hidx⟩ := h.slots.key_slot hlt
    rw [hidx]
    exact ⟨⟨hcap, by omega⟩, hr⟩
  · rintro ⟨⟨hcap, hi⟩, hr⟩
    obtain ⟨hlt, _, hkey⟩ := h.slots.item fd hcap hi
    have hcast : ((ep.index fd).toNat : Int) = ep.index fd := Int.toNat_of_nonneg hi
    refine List.mem_map.mpr ⟨(ep.index fd).toNat, mem_fired.mpr ⟨by omega, ?_⟩, ?_⟩
    · rw [hcast]
      exact hr
    · rw [hcast]
      exact hkey

theorem Ok.event_polled (h : Ok ep) {revents : Int → Int} {i : Nat} (hi : i < ep.used.toNat) :
    event (Pollsys.polled ep revents) i =
      ⟨revents (ep.index (ep.items i).fd), (ep.map (ep.items i).fd).map Prod.snd⟩ := by
  obtain ⟨hcap, hidx⟩ := h.slots.key_slot hi
  have hpos : 0 ≤ ep.index (ep.items i).fd := by
    rw [hidx]
    omega
  have hfd : ((Pollsys.polled ep revents).items i).fd = (ep.items i).fd := by
    unfold Pollsys.polled
    dsimp only
    split <;> rfl
  unfold event
  rw [polled_revents ep revents hi, hfd, hidx, map_of hcap hpos, Option.map_map]
  exact congrArg (PollEvent.mk _) (congrFun Option.map_id_fun _).symm

/-- A wait reports descriptors of the map, each once, with what the kernel has set. -/
theorem Ok.wait (h : Ok ep) (count : Int) (revents : Int → Int) :
    ∃ fds : List Nat, fds.Nodup ∧
      fds.length = (min count
        {fd | (ep.map fd).isSome = true ∧ revents (ep.index fd) ≠ 0}.ncard).toNat ∧
      (∀ fd ∈ fds, (ep.map fd).isSome = true ∧ revents (ep.index fd) ≠ 0) ∧
      efPollWait ep count (.revents revents) = ((fds.length : Int),
        fds.map (fun fd => ⟨revents (ep.index fd), (ep.map fd).map Prod.snd⟩),
        Pollsys.polled ep revents) := by
  have hcard : {fd | (ep.map fd).isSome = true ∧ revents (ep.index fd) ≠ 0}.ncard =
      (firedFds ep revents).length :=
    ncard_of_nodup (h.firedFds_nodup revents) (fun fd => h.mem_firedFds)
  have hlen : (firedFds ep revents).length =
      (fired (Pollsys.polled ep revents) 0 ep.used.toNat).length := List.length_map _
  refine ⟨(firedFds ep revents).take (min count (firedFds ep revents).length).toNat,
    (List.take_sublist _ _).nodup (h.firedFds_nodup revents), ?_,
    fun fd hfd => h.mem_firedFds.mp (List.mem_of_mem_take hfd), ?_⟩
  · rw [List.length_take, hcard]
    omega
  · rw [efPollWait_eq, hlen]
    unfold firedFds
    rw [← List.map_take, List.length_map, List.length_map, List.map_map]
    refine congrArg (Prod.mk _) (congrArg (Prod.mk · _) (List.map_congr_left fun i hi => ?_))
    exact h.event_polled (mem_fired.mp (List.mem_of_mem_take hi)).1

/-! ## Runs -/

theorem Created.spec (h : Created ep) : ep.used = 0 ∧ 0 < ep.cap ∧ ep.cap ≤ 2 ^ 31 - 1 ∧
    ∀ fd, fd < ep.cap → ep.index fd = -1 := by
  obtain ⟨cap, index, ptrs, pfds, hcap, he⟩ := h
  unfold efPollCreate at he
  cases he
  refine ⟨rfl, ?_, ?_, fun fd hfd => if_pos hfd⟩
  · dsimp only
    split <;> omega
  · dsimp only
    split <;> omega

theorem Created.ok (h : Created ep) : Ok ep ∧ ep.map = fun _ => none := by
  obtain ⟨hused, _, _, hindex⟩ := h.spec
  have hneg : ∀ fd, fd < ep.cap → ep.index fd < 0 := fun fd hfd => by
    rw [hindex fd hfd]
    decide
  refine ⟨⟨⟨by omega, by omega, fun i h₀ h₁ _ => by omega, fun fd hfd hi => ?_⟩, fun fd hfd hi => ?_⟩,
    funext fun fd => map_none (hneg fd)⟩
  · exact absurd hi (Int.not_le.mpr (hneg fd hfd))
  · exact absurd hi (Int.not_le.mpr (hneg fd hfd))

theorem associate_cap_le {n : Nat} (hcap : ep.cap ≤ n) (hfd : 2 * fd ≤ n) (events : Int)
    (ptr : PollPtr) (fired : Bool) (mem : Realloc) :
    (efPollAssociate ep fd events ptr fired mem).2.cap ≤ n := by
  have hroom : (makeRoom ep fd mem).2.cap ≤ n := by
    unfold makeRoom
    split
    · exact expand_cap_le hcap hfd mem
    · exact hcap
  unfold efPollAssociate
  split
  · exact hcap
  · dsimp only
    split <;> exact hroom

theorem step_wait (ep : EfPollsys) (count : Int) (revents : Int → Int) :
    (step ep (.wait count (.revents revents))).2 = polled ep revents :=
  congrArg (fun r => r.2.2) (efPollWait_eq ep count revents)

theorem Ok.step (h : Ok ep) (hcap : 0 < ep.cap) (op : Op) :
    Ok (step ep op).2 ∧ ep.cap ≤ (step ep op).2.cap ∧
      (step ep op).2.map = ep.map.step op (step ep op).1 := by
  cases op with
  | associate fd events ptr fired mem => exact h.associate hcap fd events ptr fired mem
  | dissociate fd fired onclose =>
      obtain ⟨hok, hc, hmap⟩ := h.dissociate fd fired onclose
      exact ⟨hok, Nat.le_of_eq hc.symm, hmap⟩
  | unset fd events => exact ⟨h, Nat.le_refl _, rfl⟩
  | wait count answer =>
      cases answer with
      | failed => exact ⟨h, Nat.le_refl _, rfl⟩
      | revents revents =>
          obtain ⟨hok, hmap⟩ := h.polled revents
          rw [step_wait]
          exact ⟨hok, Nat.le_refl _, hmap⟩

theorem Ok.cap_le (h : Ok ep) {n : Nat} (hcap : ep.cap ≤ n) (hn : 2 ^ 31 - 2 ≤ n) {op : Op}
    (hr : op.inRange = true) : (Pollsys.step ep op).2.cap ≤ n := by
  cases op with
  | associate fd events ptr fired mem =>
      have hfd : fd < 2 ^ 30 := of_decide_eq_true hr
      exact associate_cap_le hcap (by omega) events ptr fired mem
  | dissociate fd fired onclose => exact (h.dissociate fd fired onclose).2.1 ▸ hcap
  | unset fd events => exact hcap
  | wait count answer =>
      cases answer with
      | failed => exact hcap
      | revents revents =>
          rw [step_wait]
          exact hcap

/-- In every state that calls reach, the arrays represent the map of what has been associated
with `fired` 0 and not dissociated since. Each of its descriptors has one slot, nothing
overflows, and a wait reports as many descriptors as there are, up to `count`. -/
theorem pollsys_refines_map {ep : EfPollsys} {m : PollMap}
    (h : Lib.Reachable (fun s => Created s.1 ∧ s.2 = fun _ => none) stepBoth
      (fun _ op => op.inRange = true) (ep, m)) :
    ep.map = m ∧
    (ep.used = {fd | (m fd).isSome = true}.ncard ∧ ep.used ≤ ep.cap ∧ ep.cap < 2 ^ 31) ∧
    ((ep.toSlots.keys PollFd.fd).Nodup ∧
      ∀ fd, fd ∈ ep.toSlots.keys PollFd.fd ↔ (m fd).isSome = true) ∧
    ∀ (count : Int) (revents : Int → Int), ∃ fds : List Nat, fds.Nodup ∧
      fds.length = (min count
        {fd | (m fd).isSome = true ∧ revents (ep.index fd) ≠ 0}.ncard).toNat ∧
      (∀ fd ∈ fds, (m fd).isSome = true ∧ revents (ep.index fd) ≠ 0) ∧
      (efPollWait ep count (.revents revents)).1 = fds.length ∧
      (efPollWait ep count (.revents revents)).2.1 =
        fds.map (fun fd => ⟨revents (ep.index fd), (m fd).map Prod.snd⟩) := by
  have hinv : Lib.Invariant (fun s : EfPollsys × PollMap => Created s.1 ∧ s.2 = fun _ => none)
      stepBoth (fun _ op => op.inRange = true)
      (fun s => Ok s.1 ∧ s.1.map = s.2 ∧ 0 < s.1.cap ∧ s.1.cap ≤ 2 ^ 31 - 1) := by
    refine ⟨fun h₀ => ?_, fun h₀ hg hs => ?_⟩
    · obtain ⟨hc, hm⟩ := h₀
      exact ⟨hc.ok.1, hc.ok.2.trans hm.symm, hc.spec.2.1, hc.spec.2.2.1⟩
    · obtain ⟨hok, hmap, hpos, hle⟩ := h₀
      cases hs
      obtain ⟨hok', hcap, hmap'⟩ := hok.step hpos _
      exact ⟨hok', hmap' ▸ hmap ▸ rfl, by dsimp only; omega, hok.cap_le hle (by omega) hg⟩
  obtain ⟨hok, hmap, hpos, hle⟩ := hinv.holds h
  dsimp only at hok hmap hpos hle
  subst hmap
  have hkeys : ∀ fd, fd ∈ ep.toSlots.keys PollFd.fd ↔ (ep.map fd).isSome = true :=
    fun fd => hok.slots.mem_keys.trans hok.map_isSome.symm
  refine ⟨rfl, ⟨?_, ?_, by omega⟩, ⟨hok.slots.keys_nodup, hkeys⟩, fun count revents => ?_⟩
  · have hused := hok.slots.used_nonneg
    rw [ncard_of_nodup (s := {fd | (ep.map fd).isSome = true}) hok.slots.keys_nodup hkeys,
      Lib.Slots.keys, List.length_map,
      List.length_range, Int.toNat_of_nonneg hused]
  · have hused := hok.slots.used_le (Finset.range ep.cap) (fun fd hfd => Finset.mem_range.mpr hfd)
    rwa [Finset.card_range] at hused
  · obtain ⟨fds, hn, hlen, hmem, he⟩ := hok.wait count revents
    rw [he]
    exact ⟨fds, hn, hlen, hmem, rfl, rfl⟩

def small : EfPollsys where
  index := fun _ => -1
  items := fun _ => ⟨0, 0, 0⟩
  used := 0
  cap := 128
  ptrs := fun _ => none

theorem small_created : Created small := by
  refine ⟨0, fun _ => -1, fun _ => none, fun _ => ⟨0, 0, 0⟩, by decide, ?_⟩
  have hindex : (fun fd : Nat => if fd < 128 then (-1 : Int) else -1) = fun _ => -1 :=
    funext fun _ => ite_self _
  have hptrs : (fun fd : Nat => if fd < 128 then (none : Option PollPtr) else none) =
      fun _ => none := funext fun _ => ite_self _
  exact congrArg₂ (fun index ptrs =>
    some { small with index := index, ptrs := ptrs }) hindex hptrs

/-- Two descriptors are registered, the second beyond `cap` and at the second attempt, and the
first is taken out. -/
def grownOnce : List Op :=
  [.associate 5 1 (.listen 0) false ⟨true, true⟩,
    .associate 200 4 (.routine 1) false ⟨true, false⟩,
    .associate 200 4 (.routine 1) false ⟨true, true⟩, .dissociate 5 true true]

theorem pollsys_refines_map_grown : ∃ s,
    Lib.run stepBoth (fun _ op => op.inRange = true) (small, fun _ => none) grownOnce = some s ∧
    (s.1.cap, s.1.used, s.1.index 200, s.1.items 0) = (256, 1, 0, ⟨200, 4, 0⟩) ∧
    s.1.map = s.2 := by
  have hrun : (Lib.run stepBoth (fun _ op => op.inRange = true) (small, fun _ => none)
      grownOnce).map (fun s => (s.1.cap, s.1.used, s.1.index 200, s.1.items 0)) =
      some (256, 1, 0, ⟨200, 4, 0⟩) := by decide
  obtain ⟨s, hr, he⟩ := Option.map_eq_some_iff.mp hrun
  have hinit : Lib.Reachable (fun s : EfPollsys × PollMap => Created s.1 ∧ s.2 = fun _ => none)
      stepBoth (fun _ op => op.inRange = true) (small, fun _ => none) := .init ⟨small_created, rfl⟩
  exact ⟨s, hr, he, (pollsys_refines_map (hinit.run hr)).1⟩

end EFramework.Pollsys
