import EFramework.Epollet.Model
import Mathlib.Data.Set.Insert

/-! # The poller as a table

What the arrays stand for: an item for each registered descriptor, and the set of
the descriptors that are due to be reported. Each function of the poller does to
the arrays what a plain update does to the table.
-/

namespace EFramework.Epollet

/-- The items by descriptor, and the descriptors of the filled area. -/
structure Table where
  items : Nat → Option EfEpollItem
  filled : Set Nat

namespace Table

def associated (t : Table) (fd events : Nat) (ptr : PollPtr) : EfEpollItem :=
  match t.items fd with
  | none => ⟨fd, events, efPollout, ptr⟩
  | some item => { item with waiting := events, ptr := ptr }

/-- A new item goes unnoticed when the kernel refuses the descriptor. -/
def associate (t : Table) (fd events : Nat) (ptr : PollPtr) (ok : Bool) : Table where
  items := Function.update t.items fd (some (t.associated fd events ptr))
  filled := {a | (a = fd ∧ (t.associated fd events ptr).mask ≠ 0 ∧
    (t.items fd = none → ok = true)) ∨ a ∈ t.filled}

def remove (t : Table) (fd : Nat) : Table where
  items := Function.update t.items fd none
  filled := {a | a ∈ t.filled ∧ a ≠ fd}

def dissociate (t : Table) (fd : Nat) : Table where
  items := Function.update t.items fd ((t.items fd).map (fun item => { item with waiting := 0 }))
  filled := {a | a ∈ t.filled ∧ a ≠ fd}

def unset (t : Table) (fd events : Nat) : Table where
  items := Function.update t.items fd ((t.items fd).map (EfEpollItem.unset · events))
  filled := {a | a ∈ t.filled ∧
    (a = fd → ∀ item, t.items fd = some item → (item.unset events).mask ≠ 0)}

def fire (t : Table) (report : Nat × Nat) : Table where
  items := Function.update t.items report.1 ((t.items report.1).map (EfEpollItem.fire · report.2))
  filled := {a | (a = report.1 ∧
    ∃ item, t.items report.1 = some item ∧ (item.fire report.2).mask ≠ 0) ∨ a ∈ t.filled}

end Table

/-! ## What the arrays keep -/

structure Ok (ep : EfEpoll) : Prop where
  slots : Lib.Slots.Ok EfEpollItem.fd (· < ep.cap) ep.toSlots (-1)
  fill_nonneg : 0 ≤ ep.fill
  fill_le : ep.fill ≤ ep.used

namespace EfEpoll

def Filled (ep : EfEpoll) (fd : Nat) : Prop :=
  fd < ep.cap ∧ 0 ≤ ep.index fd ∧ ep.index fd < ep.fill

def table (ep : EfEpoll) : Table where
  items := ep.toSlots.find (· < ep.cap)
  filled := {fd | ep.Filled fd}

end EfEpoll

variable {ep ep' : EfEpoll} {fd : Nat}

theorem table_eq {t : Table} (hitems : ep.toSlots.find (· < ep.cap) = t.items)
    (hfilled : ∀ fd, ep.Filled fd ↔ fd ∈ t.filled) : ep.table = t := by
  cases t
  unfold EfEpoll.table
  congr
  exact Set.ext hfilled

theorem items_of (hfd : fd < ep.cap) (hi : 0 ≤ ep.index fd) :
    ep.table.items fd = some (ep.items (ep.index fd)) :=
  Lib.Slots.find_of (D := fun a => a < ep.cap) hfd hi

theorem items_none (h : fd < ep.cap → ep.index fd < 0) : ep.table.items fd = none :=
  Lib.Slots.find_none (D := fun a => a < ep.cap) h

theorem Ok.index_inj (h : Ok ep) {fd fd' : Nat} (hfd : fd < ep.cap) (hfd' : fd' < ep.cap)
    (hi : 0 ≤ ep.index fd) (he : ep.index fd = ep.index fd') : fd = fd' := by
  rw [← (h.slots.item fd hfd hi).2.2, ← (h.slots.item fd' hfd' (he ▸ hi)).2.2, he]

/-! ## The front of the items -/

theorem Ok.moveToFilled (h : Ok ep) (hfd : fd < ep.cap) (hi : 0 ≤ ep.index fd) :
    Ok (moveToFilled ep (ep.index fd)) ∧ (moveToFilled ep (ep.index fd)).table =
      { ep.table with filled := {a | a = fd ∨ a ∈ ep.table.filled} } := by
  have hlt := (h.slots.item fd hfd hi).1
  have hfill := h.fill_nonneg
  have hinj : ∀ a, a < ep.cap → ep.index a = ep.index fd → a = fd := fun a ha he =>
    h.index_inj ha hfd (by omega) he
  unfold Epollet.moveToFilled
  by_cases hswap : ep.fill < ep.index fd
  · rw [if_pos hswap, if_pos (by omega)]
    have hidx := h.slots.swap_index hi hlt hfill (by omega)
    refine ⟨⟨h.slots.swap hi hlt hfill (by omega), by dsimp only; omega, ?_⟩,
      table_eq (h.slots.find_swap hi hlt hfill (by omega)) (fun a => ?_)⟩
    · change ep.fill + 1 ≤ ep.used
      omega
    · change (a < ep.cap ∧ 0 ≤ (ep.toSlots.swap EfEpollItem.fd (ep.index fd) ep.fill).index a ∧
        (ep.toSlots.swap EfEpollItem.fd (ep.index fd) ep.fill).index a < ep.fill + 1) ↔
        a = fd ∨ ep.Filled a
      constructor
      · rintro ⟨ha, h₀, h₁⟩
        rw [hidx a ha, Equiv.swap_apply_def] at h₀ h₁
        split at h₁
        next he => exact Or.inl (hinj a ha he)
        next hne =>
          split at h₁
          · omega
          next hne' =>
            rw [if_neg hne, if_neg hne'] at h₀
            exact Or.inr ⟨ha, h₀, by omega⟩
      · rintro (rfl | ⟨ha, h₀, h₁⟩)
        · rw [hidx a hfd, Equiv.swap_apply_left]
          exact ⟨hfd, hfill, by omega⟩
        · rw [hidx a ha, Equiv.swap_apply_of_ne_of_ne (by omega) (by omega)]
          exact ⟨ha, h₀, by omega⟩
  · rw [if_neg hswap]
    refine ⟨⟨h.slots, ?_, ?_⟩, table_eq rfl (fun a => ?_)⟩
    · dsimp only
      split <;> omega
    · change (if ep.fill ≤ ep.index fd then ep.fill + 1 else ep.fill) ≤ ep.used
      split <;> have := h.fill_le <;> omega
    · change (a < ep.cap ∧ 0 ≤ ep.index a ∧
        ep.index a < if ep.fill ≤ ep.index fd then ep.fill + 1 else ep.fill) ↔
        a = fd ∨ ep.Filled a
      constructor
      · rintro ⟨ha, h₀, h₁⟩
        by_cases he : ep.index a = ep.index fd
        · exact Or.inl (hinj a ha he)
        · exact Or.inr ⟨ha, h₀, by split at h₁ <;> omega⟩
      · rintro (rfl | ⟨ha, h₀, h₁⟩)
        · exact ⟨hfd, hi, by split <;> omega⟩
        · exact ⟨ha, h₀, by split <;> omega⟩

theorem Ok.removeFromFilled (h : Ok ep) (hfd : fd < ep.cap) (hi : 0 ≤ ep.index fd) :
    Ok (removeFromFilled ep (ep.index fd)) ∧ (removeFromFilled ep (ep.index fd)).table =
      { ep.table with filled := {a | a ∈ ep.table.filled ∧ a ≠ fd} } := by
  have hlt := (h.slots.item fd hfd hi).1
  have hle := h.fill_le
  have hinj : ∀ a, a < ep.cap → ep.index a = ep.index fd → a = fd := fun a ha he =>
    h.index_inj ha hfd (by omega) he
  unfold Epollet.removeFromFilled
  by_cases hfilled : ep.index fd < ep.fill
  · rw [if_pos hfilled]
    dsimp only
    by_cases hswap : ep.index fd < ep.fill - 1
    · rw [if_pos hswap]
      have hj : 0 ≤ ep.fill - 1 := by omega
      have hj' : ep.fill - 1 < ep.used := by omega
      have hidx := h.slots.swap_index hi hlt hj hj'
      refine ⟨⟨h.slots.swap hi hlt hj hj', hj, by change ep.fill - 1 ≤ ep.used; omega⟩,
        table_eq (h.slots.find_swap hi hlt hj hj') (fun a => ?_)⟩
      change (a < ep.cap ∧
        0 ≤ (ep.toSlots.swap EfEpollItem.fd (ep.index fd) (ep.fill - 1)).index a ∧
        (ep.toSlots.swap EfEpollItem.fd (ep.index fd) (ep.fill - 1)).index a < ep.fill - 1) ↔
        ep.Filled a ∧ a ≠ fd
      constructor
      · rintro ⟨ha, h₀, h₁⟩
        rw [hidx a ha, Equiv.swap_apply_def] at h₀ h₁
        split at h₁
        · omega
        next hne =>
          have hafd : a ≠ fd := by
            rintro rfl
            exact hne rfl
          rw [if_neg hne] at h₀
          split at h₁
          next he => exact ⟨⟨ha, by omega, by omega⟩, hafd⟩
          next hne' =>
            rw [if_neg hne'] at h₀
            exact ⟨⟨ha, h₀, by omega⟩, hafd⟩
      · rintro ⟨⟨ha, h₀, h₁⟩, hne⟩
        have hne : ep.index a ≠ ep.index fd := fun he => hne (hinj a ha he)
        rw [hidx a ha, Equiv.swap_apply_def, if_neg hne]
        split
        · exact ⟨ha, hi, hswap⟩
        next hne' => exact ⟨ha, h₀, by omega⟩
    · rw [if_neg hswap]
      refine ⟨⟨h.slots, by dsimp only; omega, by dsimp only; omega⟩, table_eq rfl (fun a => ?_)⟩
      change (a < ep.cap ∧ 0 ≤ ep.index a ∧ ep.index a < ep.fill - 1) ↔ ep.Filled a ∧ a ≠ fd
      constructor
      · rintro ⟨ha, h₀, h₁⟩
        exact ⟨⟨ha, h₀, by omega⟩, by rintro rfl; omega⟩
      · rintro ⟨⟨ha, h₀, h₁⟩, hne⟩
        have : ep.index a ≠ ep.index fd := fun he => hne (hinj a ha he)
        exact ⟨ha, h₀, by omega⟩
  · rw [if_neg hfilled]
    refine ⟨h, table_eq rfl (fun a => ?_)⟩
    constructor
    · intro ha
      exact ⟨ha, by rintro rfl; exact hfilled ha.2.2⟩
    · exact And.left

theorem removeFromFilled_cap (ep : EfEpoll) (idx : Int) :
    (removeFromFilled ep idx).cap = ep.cap := by
  unfold removeFromFilled
  split <;> rfl

/-! ## Changing an item -/

theorem Ok.setItem (h : Ok ep) (hfd : fd < ep.cap) (hi : 0 ≤ ep.index fd) {item : EfEpollItem}
    (hitem : item.fd = fd) :
    Ok (setItem ep (ep.index fd) item) ∧ (setItem ep (ep.index fd) item).table =
      { ep.table with items := Function.update ep.table.items fd (some item) } :=
  ⟨⟨h.slots.set hfd hi hitem, h.fill_nonneg, h.fill_le⟩,
    table_eq (h.slots.find_set hfd hi) (fun _ => Iff.rfl)⟩

theorem Ok.item_fd (h : Ok ep) (hfd : fd < ep.cap) (hi : 0 ≤ ep.index fd) :
    (ep.items (ep.index fd)).fd = fd :=
  (h.slots.item fd hfd hi).2.2

/-- Behind the filled area the last item moves into the hole. -/
theorem ok_close (ep : EfEpoll) {slots : Lib.Slots Nat EfEpollItem} {hole : Int} (fill : Int)
    (h : slots.Ok EfEpollItem.fd (· < ep.cap) hole) (hfill : 0 ≤ fill) (hle : fill ≤ hole) :
    Ok { ep with toSlots := slots.close EfEpollItem.fd hole, fill := fill } ∧
      EfEpoll.table { ep with toSlots := slots.close EfEpollItem.fd hole, fill := fill } =
        ⟨slots.find (· < ep.cap), {a | a < ep.cap ∧ 0 ≤ slots.index a ∧ slots.index a < fill}⟩ := by
  have hlt := h.hole_lt
  refine ⟨⟨h.close (by omega), hfill, ?_⟩, table_eq (h.find_close (by omega)) (fun a => ?_)⟩
  · change fill ≤ slots.used - 1
    omega
  · exact and_congr_right fun ha => h.close_index_lt (by omega) hle ha

theorem removeItem_eq (ep : EfEpoll) (fd : Nat) (idx : Int) :
    removeItem ep fd idx =
      if idx < ep.fill then
        if idx < ep.fill - 1 then
          { ep with
            toSlots := ((ep.toSlots.unlink fd).move EfEpollItem.fd (ep.fill - 1) idx).close
              EfEpollItem.fd (ep.fill - 1)
            fill := ep.fill - 1 }
        else { ep with
          toSlots := (ep.toSlots.unlink fd).close EfEpollItem.fd idx, fill := ep.fill - 1 }
      else { ep with toSlots := (ep.toSlots.unlink fd).close EfEpollItem.fd idx } := by
  unfold removeItem
  by_cases hfilled : idx < ep.fill
  · by_cases hmove : idx < ep.fill - 1 <;> simp [hfilled, hmove]
  · simp [hfilled]

/-- The hole goes to the end of the filled area, then to the end of the items. -/
theorem Ok.removeItem (h : Ok ep) (hfd : fd < ep.cap) (hi : 0 ≤ ep.index fd) :
    Ok (removeItem ep fd (ep.index fd)) ∧
      (removeItem ep fd (ep.index fd)).table = ep.table.remove fd := by
  have hle := h.fill_le
  have hnonneg := h.fill_nonneg
  have hinj : ∀ a, a < ep.cap → a ≠ fd → ep.index a ≠ ep.index fd := fun a ha hne he =>
    hne (h.index_inj ha hfd (by omega) he)
  have hunlink := h.slots.unlink hfd hi
  have hindex : ∀ a, (ep.toSlots.unlink fd).index a = if a = fd then -1 else ep.index a :=
    fun a => Function.update_apply _ _ _ _
  have hfind := Lib.Slots.find_unlink (D := (· < ep.cap)) ep.toSlots fd
  have hremove : ∀ (index : Nat → Int) (fill : Int),
      (∀ a, a < ep.cap → (0 ≤ index a ∧ index a < fill ↔
        (0 ≤ ep.index a ∧ ep.index a < ep.fill) ∧ a ≠ fd)) →
      (⟨Function.update (ep.toSlots.find (· < ep.cap)) fd none,
        {a | a < ep.cap ∧ 0 ≤ index a ∧ index a < fill}⟩ : Table) = ep.table.remove fd :=
    fun index fill hiff => by
      unfold Table.remove EfEpoll.table
      congr
      refine Set.ext (fun a => ?_)
      exact (and_congr_right (hiff a)).trans and_assoc.symm
  rw [removeItem_eq]
  by_cases hfilled : ep.index fd < ep.fill
  · rw [if_pos hfilled]
    by_cases hmove : ep.index fd < ep.fill - 1
    · rw [if_pos hmove]
      have hsrc : ep.fill - 1 < (ep.toSlots.unlink fd).used := by
        change ep.fill - 1 < ep.used
        omega
      have hm := hunlink.move (by omega) hsrc (by omega) hi
      have hmindex := hunlink.move_index (by omega) hsrc (by omega)
      obtain ⟨hok, ht⟩ := ok_close ep (ep.fill - 1) hm (by omega) (Int.le_refl _)
      refine ⟨hok, ht.trans ?_⟩
      rw [hunlink.find_move (by omega) hsrc (by omega) hi, hfind]
      refine hremove _ _ (fun a ha => ?_)
      rw [hmindex a ha, hindex]
      by_cases he : a = fd
      · rw [if_pos he]
        split <;> omega
      · have := hinj a ha he
        rw [if_neg he]
        split <;> omega
    · rw [if_neg hmove]
      obtain ⟨hok, ht⟩ := ok_close ep (ep.fill - 1) hunlink (by omega) (by omega)
      refine ⟨hok, ht.trans ?_⟩
      rw [hfind]
      refine hremove _ _ (fun a ha => ?_)
      rw [hindex]
      by_cases he : a = fd
      · rw [if_pos he]
        omega
      · have := hinj a ha he
        rw [if_neg he]
        omega
  · rw [if_neg hfilled]
    obtain ⟨hok, ht⟩ := ok_close ep ep.fill hunlink hnonneg (Int.not_lt.mp hfilled)
    refine ⟨hok, ht.trans ?_⟩
    rw [hfind]
    refine hremove _ _ (fun a ha => ?_)
    rw [hindex]
    by_cases he : a = fd
    · subst he
      rw [if_pos rfl]
      omega
    · rw [if_neg he]
      omega

/-! ## Growing the arrays -/

theorem le_doubled (fd rounds cap : Nat) : cap ≤ doubled fd rounds cap := by
  induction rounds generalizing cap with
  | zero => exact Nat.le_refl cap
  | succ rounds ih =>
      unfold doubled
      split
      · have := ih (cap <<< 1)
        rw [Nat.shiftLeft_eq] at this ⊢
        omega
      · exact Nat.le_refl cap

/-- The loop ends with room for the descriptor. -/
theorem lt_doubled (fd rounds : Nat) {cap : Nat} (hcap : 0 < cap) (hr : fd < rounds + cap) :
    fd < doubled fd rounds cap := by
  induction rounds generalizing cap with
  | zero => exact (Nat.zero_add cap ▸ hr)
  | succ rounds ih =>
      unfold doubled
      split
      · rw [Nat.shiftLeft_eq]
        exact ih (by omega) (by omega)
      · omega

theorem doubled_le {fd cap n : Nat} (rounds : Nat) (hcap : cap ≤ n) (hfd : 2 * fd ≤ n) :
    doubled fd rounds cap ≤ n := by
  induction rounds generalizing cap with
  | zero => exact hcap
  | succ rounds ih =>
      unfold doubled
      split
      · rw [Nat.shiftLeft_eq]
        exact ih (by omega)
      · exact hcap

theorem Ok.grown (h : Ok ep) {cap : Nat} {index : Nat → Int} (hle : ep.cap ≤ cap)
    (hold : ∀ a, a < ep.cap → index a = ep.index a)
    (hnew : ∀ a, a < cap → ¬ a < ep.cap → index a = -1) :
    Ok { ep with index := index, cap := cap } ∧
      EfEpoll.table { ep with index := index, cap := cap } = ep.table := by
  refine ⟨⟨h.slots.extend (fun a ha => Nat.lt_of_lt_of_le ha hle) hold fun a ha hn => ?_,
    h.fill_nonneg, h.fill_le⟩, table_eq (funext fun a => ?_) (fun a => ?_)⟩
  · rw [hnew a ha hn]
    omega
  · change (if a < cap ∧ 0 ≤ index a then some (ep.items (index a)) else none) = ep.table.items a
    by_cases ha : a < ep.cap
    · rw [hold a ha]
      by_cases hi : 0 ≤ ep.index a
      · rw [items_of ha hi, if_pos ⟨Nat.lt_of_lt_of_le ha hle, hi⟩]
      · rw [items_none (fun _ => Int.not_le.mp hi), if_neg (fun hc => hi hc.2)]
    · rw [items_none (fun hc => absurd hc ha), if_neg fun hc => ?_]
      have := hnew a hc.1 ha
      omega
  · change (a < cap ∧ 0 ≤ index a ∧ index a < ep.fill) ↔ ep.Filled a
    constructor
    · rintro ⟨ha, h₀, h₁⟩
      by_cases hc : a < ep.cap
      · rw [hold a hc] at h₀ h₁
        exact ⟨hc, h₀, h₁⟩
      · rw [hnew a ha hc] at h₀
        omega
    · rintro ⟨ha, h₀, h₁⟩
      rw [hold a ha]
      exact ⟨Nat.lt_of_lt_of_le ha hle, h₀, h₁⟩

/-- Growing the arrays, whatever fails, changes nothing in the table. -/
theorem Ok.expand (h : Ok ep) (hcap : 0 < ep.cap) (fd : Nat) (mem : Realloc) :
    Ok (efEpollExpand ep fd mem).2 ∧ (efEpollExpand ep fd mem).2.table = ep.table ∧
      ep.cap ≤ (efEpollExpand ep fd mem).2.cap ∧
      (0 ≤ (efEpollExpand ep fd mem).1 → fd < (efEpollExpand ep fd mem).2.cap) := by
  unfold efEpollExpand
  by_cases hfd : fd < ep.cap
  · rw [if_pos hfd]
    exact ⟨h, rfl, Nat.le_refl _, fun _ => hfd⟩
  rw [if_neg hfd]
  dsimp only
  have hle := le_doubled fd (fd + 1) ep.cap
  have hlt := lt_doubled fd (fd + 1) hcap (by omega)
  have hold : ∀ a, a < ep.cap →
      (if ep.cap ≤ a ∧ a < doubled fd (fd + 1) ep.cap then -1 else ep.index a) = ep.index a :=
    fun a ha => if_neg (fun hc => absurd hc.1 (Nat.not_le.mpr ha))
  have hfull := h.grown hle hold (fun a ha hn => if_pos ⟨Nat.not_lt.mp hn, ha⟩)
  have hhalf := h.grown (Nat.le_refl _) hold (fun a ha hn => absurd ha hn)
  split
  · split
    · split
      · exact ⟨hfull.1, hfull.2, hle, fun _ => hlt⟩
      · exact ⟨hhalf.1, hhalf.2, Nat.le_refl _, fun hret => absurd hret (by simp)⟩
    · exact ⟨hhalf.1, hhalf.2, Nat.le_refl _, fun hret => absurd hret (by simp)⟩
  · exact ⟨h, rfl, Nat.le_refl _, fun hret => absurd hret (by simp)⟩

theorem expand_cap_le {n : Nat} (hcap : ep.cap ≤ n) (hfd : 2 * fd ≤ n) (mem : Realloc) :
    (efEpollExpand ep fd mem).2.cap ≤ n := by
  have hle := doubled_le (fd + 1) hcap hfd
  unfold efEpollExpand
  split
  · exact hcap
  · split
    · split
      · split
        · exact hle
        · exact hcap
      · exact hcap
    · exact hcap

/-! ## Functions of the poller -/

theorem not_filled (h : fd < ep.cap → ep.index fd < 0) : fd ∉ ep.table.filled := fun hf => by
  have := h hf.1
  have := hf.2.1
  omega

theorem Ok.associated (h : Ok ep) (hfd : fd < ep.cap) (hi : 0 ≤ ep.index fd) {item : EfEpollItem}
    (hitem : ep.items (ep.index fd) = item) :
    Ok (associated ep (ep.index fd)).2 ∧
      (associated ep (ep.index fd)).1 = (if item.mask ≠ 0 then 1 else 0) ∧
      (associated ep (ep.index fd)).2.table =
        { ep.table with filled := {a | (a = fd ∧ item.mask ≠ 0) ∨ a ∈ ep.table.filled} } := by
  unfold Epollet.associated
  rw [hitem]
  by_cases hm : item.mask ≠ 0
  · obtain ⟨hok, ht⟩ := h.moveToFilled hfd hi
    rw [if_pos hm, if_pos hm]
    refine ⟨hok, rfl, ht.trans ?_⟩
    simp [hm]
  · rw [if_neg hm, if_neg hm]
    refine ⟨h, rfl, ?_⟩
    simp [hm]

theorem Ok.push (h : Ok ep) (hfd : fd < ep.cap) (hi : ep.index fd < 0) {item : EfEpollItem}
    (hitem : item.fd = fd)
    (hep : ep' = ⟨ep.toSlots.push EfEpollItem.fd item, ep.cap, ep.fill⟩) :
    Ok ep' ∧ ep'.cap = ep.cap ∧ ep'.index fd = ep.used ∧ ep'.items ep.used = item ∧
      ep'.table = { ep.table with items := Function.update ep.table.items fd (some item) } := by
  subst hitem hep
  have hle := h.fill_le
  refine ⟨⟨h.slots.push hfd hi, h.fill_nonneg, ?_⟩, rfl, Function.update_self _ _ _,
    Function.update_self _ _ _, table_eq (h.slots.find_push hfd) (fun a => ?_)⟩
  · change ep.fill ≤ ep.used + 1
    omega
  · change (a < ep.cap ∧ 0 ≤ Function.update ep.index item.fd ep.used a ∧
      Function.update ep.index item.fd ep.used a < ep.fill) ↔ ep.Filled a
    by_cases he : a = item.fd
    · subst he
      rw [Function.update_self]
      exact ⟨fun hc => absurd hc.2.2 (Int.not_lt.mpr hle),
        fun hc => absurd hc.2.1 (Int.not_le.mpr hi)⟩
    · rw [Function.update_of_ne he]
      exact Iff.rfl

/-- What `ef_epoll_associate` returns and leaves, once the arrays are large enough. -/
structure Associated (t : Table) (fd events : Nat) (ptr : PollPtr) (ok : Bool)
    (r : Int × EfEpoll) : Prop where
  keeps : Ok r.2
  room : fd < r.2.cap
  table : r.2.table = t.associate fd events ptr ok
  ret : r.1 = if t.items fd = none ∧ ok = false then -1
    else if (t.associated fd events ptr).mask ≠ 0 then 1 else 0

theorem associated_cap (ep : EfEpoll) (idx : Int) : (associated ep idx).2.cap = ep.cap := by
  unfold associated
  split <;> rfl

theorem register_cap (ep : EfEpoll) (fd events : Nat) (ptr : PollPtr) (ok : Bool) :
    (register ep fd events ptr ok).2.cap = ep.cap := by
  unfold register
  dsimp only
  split
  · split
    · exact associated_cap _ _
    · rfl
  · exact associated_cap _ _

theorem Ok.register (h : Ok ep) (hfd : fd < ep.cap) (events : Nat) (ptr : PollPtr) (ok : Bool) :
    Associated ep.table fd events ptr ok (register ep fd events ptr ok) := by
  unfold Epollet.register
  dsimp only
  by_cases hi : ep.index fd < 0
  · rw [if_pos hi]
    have hnone := items_none (fun _ => hi)
    have hnew : ep.table.associated fd events ptr = ⟨fd, events, efPollout, ptr⟩ := by
      unfold Table.associated
      rw [hnone]
    generalize hep : (⟨ep.toSlots.push EfEpollItem.fd ⟨fd, events, efPollout, ptr⟩, ep.cap,
      ep.fill⟩ : EfEpoll) = ep'
    obtain ⟨hok, hc, hidx, hitem, ht⟩ := h.push hfd hi rfl hep.symm
    cases ok with
    | false =>
        refine ⟨hok, hc ▸ hfd, ht.trans ?_, ?_⟩
        · unfold Table.associate
          simp [hnew, hnone]
        · simp [hnone]
    | true =>
        rw [if_pos rfl, ← hidx]
        rw [← hidx] at hitem
        obtain ⟨hok', hret, ht'⟩ :=
          hok.associated (hc ▸ hfd) (hidx ▸ h.slots.used_nonneg) hitem
        refine ⟨hok', by rw [associated_cap, hc]; exact hfd, ?_, ?_⟩
        · rw [ht', ht]
          unfold Table.associate
          simp [hnew]
        · have hok : ¬ (ep.table.items fd = none ∧ true = false) := fun hx => by cases hx.2
          rw [hret, hnew, if_neg hok]
  · rw [if_neg hi]
    have hi := Int.not_lt.mp hi
    have hsome := items_of hfd hi
    generalize hitem : ({ ep.items (ep.index fd) with waiting := events, ptr := ptr } :
      EfEpollItem) = item
    have hnew : ep.table.associated fd events ptr = item := by
      unfold Table.associated
      rw [hsome]
      exact hitem
    have hfd' : item.fd = fd := by
      rw [← hitem]
      exact h.item_fd hfd hi
    obtain ⟨hok, ht⟩ := h.setItem hfd hi hfd'
    obtain ⟨hok', hret, ht'⟩ := hok.associated hfd hi (Function.update_self _ _ _)
    refine ⟨hok', by rw [associated_cap]; exact hfd, ?_, ?_⟩
    · refine ht'.trans ?_
      rw [ht]
      unfold Table.associate
      simp [hnew, hsome]
    · have hsome : ¬ (ep.table.items fd = none ∧ ok = false) := fun hx => by
        rw [hsome] at hx
        cases hx.1
      rw [if_neg hsome, hnew]
      exact hret

/-- The arrays cannot be grown, and nothing is associated, or the table is updated. -/
theorem Ok.associate (h : Ok ep) (hcap : 0 < ep.cap) (fd events : Nat) (ptr : PollPtr)
    (mem : Realloc) (ok : Bool) :
    ep.cap ≤ (efEpollAssociate ep fd events ptr mem ok).2.cap ∧
    ((ep.cap ≤ fd ∧ (efEpollAssociate ep fd events ptr mem ok).1 = -1 ∧
        Ok (efEpollAssociate ep fd events ptr mem ok).2 ∧
        (efEpollAssociate ep fd events ptr mem ok).2.table = ep.table) ∨
      Associated ep.table fd events ptr ok (efEpollAssociate ep fd events ptr mem ok)) := by
  unfold efEpollAssociate
  by_cases hfd : ep.cap ≤ fd
  · rw [if_pos hfd]
    obtain ⟨hok, ht, hle, hroom⟩ := h.expand hcap fd mem
    generalize efEpollExpand ep fd mem = r at hok ht hle hroom
    obtain ⟨ret, ep'⟩ := r
    dsimp only at hok ht hle hroom ⊢
    split
    · exact ⟨hle, Or.inl ⟨hfd, rfl, hok, ht⟩⟩
    next hret =>
      have ha := hok.register (hroom (Int.not_lt.mp hret)) events ptr ok
      exact ⟨register_cap ep' fd events ptr ok ▸ hle, Or.inr (ht ▸ ha)⟩
  · rw [if_neg hfd]
    exact ⟨Nat.le_of_eq (register_cap ep fd events ptr ok).symm,
      Or.inr (h.register (Nat.not_le.mp hfd) events ptr ok)⟩

theorem associate_cap_le {n : Nat} (hcap : ep.cap ≤ n) (hfd : 2 * fd ≤ n) (events : Nat)
    (ptr : PollPtr) (mem : Realloc) (ok : Bool) :
    (efEpollAssociate ep fd events ptr mem ok).2.cap ≤ n := by
  have hle : (if ep.cap ≤ fd then efEpollExpand ep fd mem else (0, ep)).2.cap ≤ n := by
    split
    · exact expand_cap_le hcap hfd mem
    · exact hcap
  unfold efEpollAssociate
  generalize (if ep.cap ≤ fd then efEpollExpand ep fd mem else (0, ep)) = r at hle
  dsimp only
  split
  · exact hle
  · rw [register_cap]
    exact hle

theorem table_of_none {items : Nat → Option EfEpollItem} {filled : Set Nat}
    (hi : fd < ep.cap → ep.index fd < 0) (hitems : items = Function.update ep.table.items fd none)
    (hfilled : ∀ a, a ∈ filled ↔ a ∈ ep.table.filled ∧ a ≠ fd) : ep.table = ⟨items, filled⟩ := by
  rw [hitems, Function.update_eq_self_iff.mpr (items_none hi).symm]
  refine table_eq rfl (fun a => ?_)
  refine Iff.trans ?_ (hfilled a).symm
  exact ⟨fun ha => ⟨ha, fun he => not_filled hi (he ▸ ha)⟩, And.left⟩

theorem Ok.dissociate (h : Ok ep) (fd : Nat) (onclose ok : Bool) :
    Ok (efEpollDissociate ep fd onclose ok).2 ∧
      (efEpollDissociate ep fd onclose ok).2.cap = ep.cap ∧
      (efEpollDissociate ep fd onclose ok).2.table =
        if onclose then ep.table.remove fd else ep.table.dissociate fd := by
  have hnone : (fd < ep.cap → ep.index fd < 0) →
      ep.table = if onclose then ep.table.remove fd else ep.table.dissociate fd := fun hi => by
    cases onclose with
    | true => exact table_of_none hi rfl (fun _ => Iff.rfl)
    | false =>
        refine table_of_none hi ?_ (fun _ => Iff.rfl)
        rw [items_none hi]
        rfl
  unfold efEpollDissociate
  by_cases hfd : ep.cap ≤ fd
  · rw [if_pos hfd]
    exact ⟨h, rfl, hnone (fun hc => by omega)⟩
  rw [if_neg hfd]
  dsimp only
  by_cases hi : ep.index fd < 0
  · rw [if_pos hi]
    exact ⟨h, rfl, hnone (fun _ => hi)⟩
  have hfd := Nat.not_le.mp hfd
  rw [if_neg hi]
  have hi := Int.not_lt.mp hi
  cases onclose with
  | true =>
      obtain ⟨hok, ht⟩ := h.removeItem hfd hi
      exact ⟨hok, rfl, ht⟩
  | false =>
      generalize hitem : ({ ep.items (ep.index fd) with waiting := 0 } : EfEpollItem) = item
      have hfd' : item.fd = fd := by
        rw [← hitem]
        exact h.item_fd hfd hi
      obtain ⟨hok, ht⟩ := h.setItem hfd hi hfd'
      obtain ⟨hok', ht'⟩ := hok.removeFromFilled hfd hi
      refine ⟨hok', removeFromFilled_cap _ _, ht'.trans ?_⟩
      rw [ht]
      unfold Table.dissociate
      rw [items_of hfd hi, Option.map_some, hitem]
      rfl

theorem Ok.unset (h : Ok ep) (fd events : Nat) :
    Ok (efEpollUnset ep fd events) ∧ (efEpollUnset ep fd events).cap = ep.cap ∧
      (efEpollUnset ep fd events).table = ep.table.unset fd events := by
  have hnone : (fd < ep.cap → ep.index fd < 0) → ep.table = ep.table.unset fd events :=
    fun hi => by
      refine table_of_none hi ?_ (fun a => and_congr_right fun ha => ?_)
      · rw [items_none hi]
        rfl
      · have hne : a ≠ fd := fun he => not_filled hi (he ▸ ha)
        exact ⟨fun _ => hne, fun _ he => absurd he hne⟩
  unfold efEpollUnset
  by_cases hfd : ep.cap ≤ fd
  · rw [if_pos hfd]
    exact ⟨h, rfl, hnone (fun hc => by omega)⟩
  rw [if_neg hfd]
  dsimp only
  by_cases hi : ep.index fd < 0
  · rw [if_pos hi]
    exact ⟨h, rfl, hnone (fun _ => hi)⟩
  have hfd := Nat.not_le.mp hfd
  rw [if_neg hi]
  have hi := Int.not_lt.mp hi
  have hsome := items_of hfd hi
  generalize hitem : (ep.items (ep.index fd)).unset events = item
  have hfd' : item.fd = fd := by
    rw [← hitem]
    exact h.item_fd hfd hi
  obtain ⟨hok, ht⟩ := h.setItem hfd hi hfd'
  have htable : ∀ filled, (∀ a, a ∈ filled ↔ a ∈ ep.table.filled ∧ (a = fd → item.mask ≠ 0)) →
      (⟨Function.update ep.table.items fd (some item), filled⟩ : Table) =
        ep.table.unset fd events := fun filled hiff => by
    unfold Table.unset
    rw [hsome, Option.map_some, hitem]
    congr
    refine Set.ext (fun a => (hiff a).trans (and_congr_right fun _ => imp_congr_right fun _ => ?_))
    simp [hitem]
  have hfill : (Epollet.setItem ep (ep.index fd) item).fill = ep.fill := rfl
  rw [hfill]
  by_cases hc : ep.index fd < ep.fill ∧ item.mask = 0
  · rw [if_pos hc]
    obtain ⟨hok', ht'⟩ := hok.removeFromFilled hfd hi
    refine ⟨hok', removeFromFilled_cap _ _, ht'.trans ?_⟩
    rw [ht]
    exact htable _ (fun a => and_congr_right fun _ => by simp [hc.2])
  · rw [if_neg hc]
    refine ⟨hok, rfl, ht.trans (htable _ fun a => ⟨fun ha => ⟨ha, ?_⟩, And.left⟩)⟩
    rintro rfl hm
    exact hc ⟨ha.2.2, hm⟩

theorem Ok.fire (h : Ok ep) {report : Nat × Nat} (hs : fire ep report = some ep') :
    Ok ep' ∧ ep'.cap = ep.cap ∧ ep'.table = ep.table.fire report ∧
      (ep.table.items report.1).isSome := by
  obtain ⟨fd, events⟩ := report
  unfold Epollet.fire at hs
  split at hs
  next hc =>
    obtain ⟨hfd, hi⟩ := hc
    cases hs
    dsimp only at hfd hi ⊢
    have hsome := items_of hfd hi
    generalize hitem : (ep.items (ep.index fd)).fire events = item
    have hfd' : item.fd = fd := by
      rw [← hitem]
      exact h.item_fd hfd hi
    obtain ⟨hok, ht⟩ := h.setItem hfd hi hfd'
    have htable : ∀ filled, (∀ a, a ∈ filled ↔ (a = fd ∧ item.mask ≠ 0) ∨ a ∈ ep.table.filled) →
        (⟨Function.update ep.table.items fd (some item), filled⟩ : Table) =
          ep.table.fire (fd, events) := fun filled hiff => by
      unfold Table.fire
      dsimp only
      rw [hsome, Option.map_some, hitem]
      congr
      refine Set.ext (fun a => (hiff a).trans (or_congr_left (and_congr_right fun _ => ?_)))
      simp [hitem]
    rw [hsome]
    by_cases hm : item.mask ≠ 0
    · rw [if_pos hm]
      obtain ⟨hok', ht'⟩ := hok.moveToFilled hfd hi
      refine ⟨hok', rfl, ht'.trans ?_, rfl⟩
      rw [ht]
      exact htable _ (fun a => by simp [hm])
    · rw [if_neg hm]
      exact ⟨hok, rfl, ht.trans (htable _ fun a => by simp [hm]), rfl⟩
  next => cases hs

/-- The filled area is empty when no descriptor is in it. -/
theorem Ok.fill_eq_zero (h : Ok ep) : ep.fill = 0 ↔ ep.table.filled = ∅ := by
  have hfill := h.fill_nonneg
  have hle := h.fill_le
  constructor
  · intro he
    refine Set.eq_empty_iff_forall_notMem.mpr (fun a ha => ?_)
    have := ha.2.1
    have := ha.2.2
    omega
  · intro he
    by_contra hne
    have hslot := h.slots.slot 0 (Int.le_refl 0) (by omega) (by omega)
    refine Set.eq_empty_iff_forall_notMem.mp he (ep.items 0).fd ⟨hslot.1, ?_, ?_⟩
    · rw [hslot.2]
    · rw [hslot.2]
      omega

theorem Ok.fires (h : Ok ep) {report : List (Nat × Nat)} (hs : report.foldlM Epollet.fire ep = some ep') :
    Ok ep' ∧ ep'.cap = ep.cap ∧ ep'.table = report.foldl Table.fire ep.table := by
  induction report generalizing ep with
  | nil =>
      cases hs
      exact ⟨h, rfl, rfl⟩
  | cons r report ih =>
      rw [List.foldlM_cons] at hs
      obtain ⟨ep₁, h₁, hs⟩ := Option.bind_eq_some_iff.mp hs
      obtain ⟨hok, hcap, ht, _⟩ := h.fire h₁
      obtain ⟨hok', hcap', ht'⟩ := ih hok hs
      exact ⟨hok', hcap'.trans hcap, by rw [ht', ht, List.foldl_cons]⟩

/-- What `ef_epoll_wait` returns is the front of the filled area, all of it if there is room. -/
structure Waited (ep ep' : EfEpoll) (report : List (Nat × Nat)) (count : Nat)
    (evts : List Event) : Prop where
  keeps : Ok ep'
  cap : ep'.cap = ep.cap
  table : (ep.table.filled = ∅ ∧ ep'.table = report.foldl Table.fire ep.table) ∨
    (ep.table.filled ≠ ∅ ∧ ep'.table = ep.table)
  events : ∀ e ∈ evts, ∃ fd ∈ ep'.table.filled, ∃ item, ep'.table.items fd = some item ∧
    item.fd = fd ∧ e = event item
  all : ep'.fill ≤ count → ∀ fd ∈ ep'.table.filled, ∀ item, ep'.table.items fd = some item →
    event item ∈ evts

theorem Ok.asked (h : Ok ep) {report : List (Nat × Nat)} (hs : asked ep report = some ep') :
    Ok ep' ∧ ep'.cap = ep.cap ∧
      ((ep.table.filled = ∅ ∧ ep'.table = report.foldl Table.fire ep.table) ∨
        (ep.table.filled ≠ ∅ ∧ ep'.table = ep.table)) := by
  unfold Epollet.asked at hs
  split at hs
  next hzero =>
    split at hs
    next =>
      obtain ⟨hok, hcap, ht⟩ := h.fires hs
      exact ⟨hok, hcap, Or.inl ⟨h.fill_eq_zero.mp hzero, ht⟩⟩
    next => cases hs
  next hzero =>
    cases hs
    exact ⟨h, rfl, Or.inr ⟨fun he => hzero (h.fill_eq_zero.mpr he), rfl⟩⟩

theorem Ok.wait (h : Ok ep) {report : List (Nat × Nat)} {count : Nat} {evts : List Event}
    (hs : efEpollWait ep report count = some (evts, ep')) : Waited ep ep' report count evts := by
  obtain ⟨ep₁, hasked, he⟩ := Option.map_eq_some_iff.mp hs
  cases he
  obtain ⟨hok, hcap, ht⟩ := h.asked hasked
  have hfill := hok.fill_nonneg
  have hle := hok.fill_le
  refine ⟨hok, hcap, ht, fun e he => ?_, fun hcount fd hfd item hitem => ?_⟩
  · unfold reported at he
    obtain ⟨idx, hidx, rfl⟩ := List.mem_map.mp he
    have hidx : (idx : Int) < ep'.fill := by
      have := List.mem_range.mp hidx
      split at this <;> omega
    have hslot := hok.slots.slot idx (by omega) (by omega) (by omega)
    refine ⟨(ep'.items idx).fd, ⟨hslot.1, by omega, by omega⟩, ep'.items idx, ?_, rfl, rfl⟩
    rw [items_of hslot.1 (by omega), hslot.2]
  · obtain ⟨hlt, h₀, h₁⟩ := hfd
    rw [items_of hlt h₀] at hitem
    cases hitem
    refine List.mem_map.mpr ⟨(ep'.index fd).toNat, List.mem_range.mpr ?_, ?_⟩
    · split <;> omega
    · rw [Int.toNat_of_nonneg h₀]

end EFramework.Epollet
