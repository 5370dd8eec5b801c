import EFramework.Epollet.Kernel

/-! # One descriptor

What the poller and the kernel hold for one descriptor changes by itself: a call is
about one descriptor, and a report has at most one entry for each.
-/

namespace EFramework.Epollet

structure Entry where
  item : Option EfEpollItem
  filled : Prop
  watched : Bool
  level : Dir → Nat
  pending : Dir → Bool
  opened : Bool

def View.entry (v : View) (fd : Nat) : Entry :=
  ⟨v.table.items fd, fd ∈ v.table.filled, v.kern.watched fd, v.kern.level fd, v.kern.pending fd,
    v.opened fd⟩

namespace Entry

def ready (x : Entry) (d : Dir) : Bool := 0 < x.level d

def put (x : Entry) (item : EfEpollItem) : Entry :=
  { x with item := some item, filled := x.filled ∨ item.mask ≠ 0 }

inductive Step (x : Entry) (fd : Nat) : PollCall (List (Nat × Nat)) → Entry → Prop
  /-- The call is about another descriptor, or changes nothing. -/
  | same {c : PollCall (List (Nat × Nat))} : Step x fd c x
  | added {events : Nat} {ptr : PollPtr} {fired : Bool} :
      x.item = none → x.watched = false →
      Step x fd (.associate fd events ptr fired true)
        { x.put ⟨fd, events, efPollout, ptr⟩ with watched := true, pending := x.ready }
  | addFailed {events : Nat} {ptr : PollPtr} {fired ok : Bool} :
      x.item = none → (ok && !x.watched) = false →
      Step x fd (.associate fd events ptr fired ok)
        { x with item := some ⟨fd, events, efPollout, ptr⟩ }
  | again {events : Nat} {ptr : PollPtr} {fired ok : Bool} {item : EfEpollItem} :
      x.item = some item →
      Step x fd (.associate fd events ptr fired ok)
        (x.put { item with waiting := events, ptr := ptr })
  | dissociate {fired ok : Bool} :
      Step x fd (.dissociate fd fired ok)
        { x with item := x.item.map (fun item => { item with waiting := 0 }), filled := False }
  | unset {events : Nat} :
      Step x fd (.unset fd events) { x with
        item := x.item.map (EfEpollItem.unset · events)
        filled := x.filled ∧ ∀ item, x.item = some item → (item.unset events).mask ≠ 0 }
  | fired {report : List (Nat × Nat)} {events : Nat} :
      (∀ d, x.pending d = true → x.ready d = true → events &&& d.mask ≠ 0) →
      Step x fd (.wait report) { x with
        item := x.item.map (EfEpollItem.fire · events)
        filled := x.filled ∨ ∃ item, x.item = some item ∧ (item.fire events).mask ≠ 0
        pending := fun _ => false }
  | opened : Step x fd (.opened fd) { x with opened := true }
  | close : x.opened = true →
      Step x fd (.close fd)
        { x with watched := false, pending := fun _ => false, opened := false }
  | routineClose {ok : Bool} : x.opened = true →
      Step x fd (.routineClose fd ok) { x with
        item := none, filled := False, watched := false, pending := fun _ => false
        opened := false }
  | routineCloseNone {ok watched : Bool} {pending : Dir → Bool} : x.opened = false →
      (watched = true → x.watched = true) →
      Step x fd (.routineClose fd ok)
        { x with item := none, filled := False, watched := watched, pending := pending }

end Entry

variable {v v' : View} {fd : Nat} {c : PollCall (List (Nat × Nat))}

theorem entry_eq {x : Entry} (hitem : v.table.items fd = x.item)
    (hfilled : fd ∈ v.table.filled ↔ x.filled) (hw : v.kern.watched fd = x.watched)
    (hl : v.kern.level fd = x.level) (hp : v.kern.pending fd = x.pending)
    (ho : v.opened fd = x.opened) : v.entry fd = x := by
  unfold View.entry
  rw [hitem, hw, hl, hp, ho, propext hfilled]

/-! ## Reports -/

theorem Table.filled_foldl_fire {t : Table} {report : List (Nat × Nat)}
    (h : fd ∉ report.map Prod.fst) :
    fd ∈ (report.foldl Table.fire t).filled ↔ fd ∈ t.filled := by
  induction report generalizing t with
  | nil => exact Iff.rfl
  | cons r report ih =>
      obtain ⟨hne, hmem⟩ := not_or.mp (fun hc => h (List.mem_cons.mpr hc))
      rw [List.foldl_cons]
      refine (ih hmem).trans ⟨fun hf => hf.resolve_left (fun hc => hne hc.1), Or.inr⟩

theorem Table.foldl_fire_of_mem {t : Table} {report : List (Nat × Nat)} {events : Nat}
    (hn : (report.map Prod.fst).Nodup) (h : (fd, events) ∈ report) :
    (report.foldl Table.fire t).items fd = (t.items fd).map (EfEpollItem.fire · events) ∧
      (fd ∈ (report.foldl Table.fire t).filled ↔ fd ∈ t.filled ∨
        ∃ item, t.items fd = some item ∧ (item.fire events).mask ≠ 0) := by
  obtain ⟨before, behind, rfl⟩ := List.append_of_mem h
  rw [List.map_append, List.map_cons, List.nodup_append] at hn
  obtain ⟨_, hbehind, hdisj⟩ := hn
  have hbehind := (List.nodup_cons.mp hbehind).1
  have hbefore : fd ∉ before.map Prod.fst := fun hm => hdisj fd hm fd List.mem_cons_self rfl
  rw [List.foldl_append, List.foldl_cons]
  constructor
  · rw [Table.items_foldl_fire hbehind]
    refine (Function.update_self _ _ _).trans ?_
    dsimp only
    rw [Table.items_foldl_fire hbefore]
  · refine (Table.filled_foldl_fire hbehind).trans (or_comm.trans (or_congr ?_ ?_))
    · exact Table.filled_foldl_fire hbefore
    · dsimp only
      rw [Table.items_foldl_fire hbefore]
      exact and_iff_right rfl

/-! ## Calls -/

theorem Entry.Step.of_same (h : v'.entry fd = v.entry fd) : (v.entry fd).Step fd c (v'.entry fd) := by
  rw [h]
  exact .same

/-- A call that puts an item in for its own descriptor. -/
theorem entry_put {fd' events : Nat} {ptr : PollPtr} {ok : Bool} (hne : fd ≠ fd') :
    fd ∈ (v.table.associate fd' events ptr ok).filled ↔ fd ∈ v.table.filled :=
  ⟨fun hf => hf.resolve_left (fun hc => hne hc.1), Or.inr⟩

theorem View.Step.associate_entry {events : Nat} {ptr : PollPtr} {fired ok : Bool}
    (hs : v.Step (.associate fd events ptr fired ok) v') (a : Nat) :
    (v.entry a).Step a (.associate fd events ptr fired ok) (v'.entry a) := by
  by_cases he : a = fd
  · subst he
    cases hs with
    | full => exact .same
    | added hitem hw => 
        have hnew : v.table.associated a events ptr = ⟨a, events, efPollout, ptr⟩ := by
          unfold Table.associated
          rw [hitem]
        have he : View.entry ⟨v.table.associate a events ptr true, v.kern.add a, v.opened⟩ a =
            { (v.entry a).put ⟨a, events, efPollout, ptr⟩ with
              watched := true, pending := (v.entry a).ready } := by
          refine entry_eq ?_ ?_ (Function.update_self _ _ _) rfl (Function.update_self _ _ _) rfl
          · exact (Function.update_self _ _ _).trans (congrArg some hnew)
          · rw [← hnew]
            exact or_comm.trans (or_congr_right ⟨fun hc => hc.2.1, fun hm => ⟨rfl, hm, fun _ => rfl⟩⟩)
        rw [he]
        exact .added hitem hw
    | addFailed hitem hok =>
        have hnew : v.table.associated a events ptr = ⟨a, events, efPollout, ptr⟩ := by
          unfold Table.associated
          rw [hitem]
        have he : View.entry ⟨v.table.associate a events ptr false, v.kern, v.opened⟩ a =
            { v.entry a with item := some ⟨a, events, efPollout, ptr⟩ } := by
          refine entry_eq ?_ ?_ rfl rfl rfl rfl
          · exact (Function.update_self _ _ _).trans (congrArg some hnew)
          · exact ⟨fun hf => hf.resolve_left (fun hc => by cases hc.2.2 hitem), Or.inr⟩
        rw [he]
        exact .addFailed hitem hok
    | @again _ _ _ _ _ ok' item hitem =>
        have hnew : v.table.associated a events ptr =
            { item with waiting := events, ptr := ptr } := by
          unfold Table.associated
          rw [hitem]
        have hsome : ¬ v.table.items a = none := fun hc => by cases hitem.symm.trans hc
        have he : View.entry ⟨v.table.associate a events ptr ok', v.kern, v.opened⟩ a =
            (v.entry a).put { item with waiting := events, ptr := ptr } := by
          refine entry_eq ?_ ?_ rfl rfl rfl rfl
          · exact (Function.update_self _ _ _).trans (congrArg some hnew)
          · rw [← hnew]
            exact or_comm.trans (or_congr_right
              ⟨fun hc => hc.2.1, fun hm => ⟨rfl, hm, fun hc => absurd hc hsome⟩⟩)
        rw [he]
        exact .again hitem
  · apply Entry.Step.of_same
    cases hs with
    | full => rfl
    | added _ _ =>
        exact entry_eq (Function.update_of_ne he _ _) (entry_put he) (Function.update_of_ne he _ _)
          rfl (Function.update_of_ne he _ _) rfl
    | addFailed _ _ => exact entry_eq (Function.update_of_ne he _ _) (entry_put he) rfl rfl rfl rfl
    | again _ => exact entry_eq (Function.update_of_ne he _ _) (entry_put he) rfl rfl rfl rfl

theorem View.Step.wait_entry {report : List (Nat × Nat)} (hs : v.Step (.wait report) v') (a : Nat) :
    (v.entry a).Step a (.wait report) (v'.entry a) := by
  cases hs with
  | ready _ => exact .same
  | asked _ hreports =>
      obtain ⟨hnodup, hall⟩ := Kernel.reports_edges hreports
      by_cases hmem : a ∈ report.map Prod.fst
      · obtain ⟨⟨a', events⟩, hr, rfl⟩ := List.mem_map.mp hmem
        dsimp only at hmem ⊢
        obtain ⟨hitems, hfilled⟩ := Table.foldl_fire_of_mem (t := v.table) hnodup hr
        have he : View.entry ⟨report.foldl Table.fire v.table, v.kern.reported report, v.opened⟩ a' =
            { v.entry a' with
              item := (v.entry a').item.map (EfEpollItem.fire · events)
              filled := (v.entry a').filled ∨
                ∃ item, (v.entry a').item = some item ∧ (item.fire events).mask ≠ 0
              pending := fun _ => false } := by
          refine entry_eq hitems hfilled rfl rfl ?_ rfl
          funext d
          unfold Kernel.reported
          simp [hmem]
        rw [he]
        exact .fired (fun d => Kernel.reportsEdge_iff.mp (hall _ hr d))
      · apply Entry.Step.of_same
        refine entry_eq (Table.items_foldl_fire hmem) (Table.filled_foldl_fire hmem) rfl rfl ?_ rfl
        funext d
        change (v.kern.pending a d && !(report.map Prod.fst).contains a) = v.kern.pending a d
        rw [Bool.eq_false_iff.mpr (fun hc => hmem (List.contains_iff_mem.mp hc)), Bool.not_false,
          Bool.and_true]

theorem View.Step.entry (hs : v.Step c v') (a : Nat) :
    (v.entry a).Step a c (v'.entry a) := by
  cases c with
  | associate fd events ptr fired ok => exact hs.associate_entry a
  | wait report => exact hs.wait_entry a
  | dissociate fd fired ok =>
      cases hs
      by_cases he : a = fd
      · subst he
        have he : View.entry ⟨v.table.dissociate a, v.kern, v.opened⟩ a = { v.entry a with
            item := (v.entry a).item.map (fun item => { item with waiting := 0 })
            filled := False } :=
          entry_eq (Function.update_self _ _ _) ⟨fun hf => hf.2 rfl, False.elim⟩ rfl rfl rfl rfl
        rw [he]
        exact .dissociate
      · exact .of_same (entry_eq (Function.update_of_ne he _ _) (and_iff_left he) rfl rfl rfl rfl)
  | unset fd events =>
      cases hs
      by_cases he : a = fd
      · subst he
        have he : View.entry ⟨v.table.unset a events, v.kern, v.opened⟩ a = { v.entry a with
            item := (v.entry a).item.map (EfEpollItem.unset · events)
            filled := (v.entry a).filled ∧
              ∀ item, (v.entry a).item = some item → (item.unset events).mask ≠ 0 } :=
          entry_eq (Function.update_self _ _ _) (and_congr_right fun _ => ⟨fun h => h rfl,
            fun h _ => h⟩) rfl rfl rfl rfl
        rw [he]
        exact .unset
      · exact .of_same (entry_eq (Function.update_of_ne he _ _)
          (and_iff_left (fun hc => absurd hc he)) rfl rfl rfl rfl)
  | opened fd =>
      cases hs
      by_cases he : a = fd
      · subst he
        have he : View.entry ⟨v.table, v.kern, Function.update v.opened a true⟩ a =
            { v.entry a with opened := true } :=
          entry_eq rfl Iff.rfl rfl rfl rfl (Function.update_self _ _ _)
        rw [he]
        exact .opened
      · exact .of_same (entry_eq rfl Iff.rfl rfl rfl rfl (Function.update_of_ne he _ _))
  | close fd =>
      cases hs with
      | closeNone _ => exact .same
      | close hopen =>
          by_cases he : a = fd
          · subst he
            have he : View.entry ⟨v.table, v.kern.del a, Function.update v.opened a false⟩ a =
                { v.entry a with
                  watched := false, pending := fun _ => false, opened := false } :=
              entry_eq rfl Iff.rfl (Function.update_self _ _ _) rfl (Function.update_self _ _ _)
                (Function.update_self _ _ _)
            rw [he]
            exact .close hopen
          · exact .of_same (entry_eq rfl Iff.rfl (Function.update_of_ne he _ _) rfl
              (Function.update_of_ne he _ _) (Function.update_of_ne he _ _))
  | routineClose fd ok =>
      cases hs with
      | routineClose hopen =>
          by_cases he : a = fd
          · subst he
            have he : View.entry
                ⟨v.table.remove a, v.kern.del a, Function.update v.opened a false⟩ a =
                { v.entry a with
                  item := none, filled := False, watched := false, pending := fun _ => false
                  opened := false } :=
              entry_eq (Function.update_self _ _ _) ⟨fun hf => hf.2 rfl, False.elim⟩
                (Function.update_self _ _ _) rfl (Function.update_self _ _ _)
                (Function.update_self _ _ _)
            rw [he]
            exact .routineClose hopen
          · exact .of_same (entry_eq (Function.update_of_ne he _ _) (and_iff_left he)
              (Function.update_of_ne he _ _) rfl (Function.update_of_ne he _ _)
              (Function.update_of_ne he _ _))
      | @routineCloseNone _ _ kern hopen hkern =>
          by_cases he : a = fd
          · subst he
            have he : View.entry ⟨v.table.remove a, kern, v.opened⟩ a = { v.entry a with
                item := none, filled := False, watched := kern.watched a
                pending := kern.pending a } := by
              refine entry_eq (Function.update_self _ _ _) ⟨fun hf => hf.2 rfl, False.elim⟩ rfl ?_
                rfl rfl
              rcases hkern with rfl | rfl <;> rfl
            rw [he]
            refine .routineCloseNone hopen (fun hw => ?_)
            rcases hkern with rfl | rfl
            · exact hw
            · have hno : (v.kern.del a).watched a = false := Function.update_self _ _ _
              rw [hno] at hw
              cases hw
          · refine .of_same (entry_eq (Function.update_of_ne he _ _) (and_iff_left he) ?_ ?_ ?_ rfl)
            · rcases hkern with rfl | rfl
              · rfl
              · exact Function.update_of_ne he _ _
            · rcases hkern with rfl | rfl <;> rfl
            · rcases hkern with rfl | rfl
              · rfl
              · exact Function.update_of_ne he _ _

/-! ## What calls keep -/

namespace Entry

/-- What is watched is open and has an item, and the item is in the filled area if it awaits
something and has a mask. -/
structure Kept (x : Entry) : Prop where
  item : x.watched = true → x.item.isSome = true
  opened : x.watched = true → x.opened = true
  due : ∀ item, x.watched = true → x.item = some item → item.waiting ≠ 0 → item.mask ≠ 0 → x.filled

/-- That a descriptor is ready is not lost. -/
def Covered (x : Entry) (d : Dir) : Prop :=
  x.watched = true → x.ready d = true →
    x.pending d = true ∨ ∃ item, x.item = some item ∧ item.fired &&& d.mask ≠ 0

/-- That a descriptor is ready is not lost when its cached bit is. -/
def Armed (x : Entry) (d : Dir) : Prop :=
  x.watched = true → x.ready d = true → x.pending d = true

variable {x x' : Entry} {d : Dir}

theorem Kept.of_unwatched (hw : x.watched = false) : x.Kept where
  item := fun hc => by cases hw.symm.trans hc
  opened := fun hc => by cases hw.symm.trans hc
  due := fun _ hc => by cases hw.symm.trans hc

theorem Kept.watched_of_none (h : x.Kept) (hi : x.item = none) : x.watched = false := by
  cases hw : x.watched with
  | false => rfl
  | true =>
      have hsome := h.item hw
      rw [hi] at hsome
      cases hsome

theorem Kept.watched_of_closed (h : x.Kept) (ho : x.opened = false) : x.watched = false := by
  cases hw : x.watched with
  | false => rfl
  | true => cases ho.symm.trans (h.opened hw)

theorem Kept.step (h : x.Kept) (hs : x.Step fd c x')
    (hopen : ∀ events ptr fired, c = .associate fd events ptr fired true → x.opened = true) :
    x'.Kept := by
  cases hs with
  | same => exact h
  | added _ _ =>
      refine ⟨fun _ => rfl, fun _ => hopen _ _ _ rfl, fun item _ hi _ hm => ?_⟩
      cases hi
      exact Or.inr hm
  | addFailed hi _ => exact .of_unwatched (h.watched_of_none hi)
  | again hi =>
      refine ⟨fun _ => rfl, h.opened, fun item _ hi _ hm => ?_⟩
      cases hi
      exact Or.inr hm
  | dissociate =>
      refine ⟨fun hw => ?_, h.opened, fun item _ hi hne _ => ?_⟩
      · exact Option.isSome_map.trans (h.item hw)
      · obtain ⟨_, _, rfl⟩ := Option.map_eq_some_iff.mp hi
        exact absurd rfl hne
  | unset =>
      refine ⟨fun hw => ?_, h.opened, fun item hw hi hne hm => ?_⟩
      · exact Option.isSome_map.trans (h.item hw)
      · obtain ⟨item₀, hi₀, rfl⟩ := Option.map_eq_some_iff.mp hi
        refine ⟨h.due item₀ hw hi₀ hne (EfEpollItem.mask_of_unset hm), fun item' hi' => ?_⟩
        rw [hi₀] at hi'
        cases hi'
        exact hm
  | fired _ =>
      refine ⟨fun hw => ?_, h.opened, fun item hw hi hne hm => ?_⟩
      · exact Option.isSome_map.trans (h.item hw)
      · obtain ⟨item₀, hi₀, rfl⟩ := Option.map_eq_some_iff.mp hi
        exact Or.inr ⟨item₀, hi₀, hm⟩
  | opened => exact ⟨h.item, fun _ => rfl, h.due⟩
  | close ho => exact .of_unwatched rfl
  | routineClose ho => exact .of_unwatched rfl
  | routineCloseNone ho hwatched =>
      refine .of_unwatched (Bool.eq_false_iff.mpr (fun hw => ?_))
      cases (h.watched_of_closed ho).symm.trans (hwatched hw)

/-- A bit that is not unset stays. -/
theorem fired_unset {item : EfEpollItem} {events : Nat} (h : item.fired &&& d.mask ≠ 0)
    (hne : ¬ events &&& d.mask ≠ 0) : (item.unset events).fired &&& d.mask ≠ 0 := by
  obtain ⟨i, hi, hd⟩ := Lib.and_ne_zero.mp h
  refine Lib.and_ne_zero.mpr ⟨i, ?_, hd⟩
  unfold EfEpollItem.unset
  rw [Lib.testBit_clearBits, hi, Bool.true_and, Bool.not_eq_true']
  by_contra hc
  exact hne (Lib.and_ne_zero.mpr ⟨i, Bool.not_eq_false _ ▸ hc, hd⟩)

/-- The cached bits are cleared only where nothing would be lost, and edges are taken away only
with a report. -/
theorem Covered.step (h : x.Covered d) (hk : x.Kept) (hs : x.Step fd c x')
    (harmed : ∀ events, c = .unset fd events → events &&& d.mask ≠ 0 → x.Armed d) :
    x'.Covered d := by
  cases hs with
  | same => exact h
  | added _ _ => exact fun _ hready => Or.inl hready
  | addFailed hi _ => exact fun hw => by cases (hk.watched_of_none hi).symm.trans hw
  | again hi =>
      intro hw hready
      refine (h hw hready).imp id ?_
      rintro ⟨item, hi', hfired⟩
      rw [hi] at hi'
      cases hi'
      exact ⟨_, rfl, hfired⟩
  | dissociate =>
      intro hw hready
      refine (h hw hready).imp id ?_
      rintro ⟨item, hi, hfired⟩
      exact ⟨{ item with waiting := 0 }, Option.map_eq_some_iff.mpr ⟨item, hi, rfl⟩, hfired⟩
  | @unset events =>
      intro hw hready
      by_cases hne : events &&& d.mask ≠ 0
      · exact Or.inl (harmed events rfl hne hw hready)
      · refine (h hw hready).imp id ?_
        rintro ⟨item, hi, hfired⟩
        exact ⟨item.unset events, Option.map_eq_some_iff.mpr ⟨item, hi, rfl⟩,
          fired_unset hfired hne⟩
  | @fired _ events hreport =>
      intro hw hready
      obtain ⟨item, hi⟩ := Option.isSome_iff_exists.mp (hk.item hw)
      refine Or.inr ⟨item.fire events, Option.map_eq_some_iff.mpr ⟨item, hi, rfl⟩, ?_⟩
      unfold EfEpollItem.fire
      rcases h hw hready with hp | ⟨item', hi', hfired⟩
      · refine Lib.and_ne_zero_mono (hreport d hp hready) (fun i hi => ?_) (fun _ hi => hi)
        rw [Nat.testBit_or, hi, Bool.or_true]
      · rw [hi] at hi'
        cases hi'
        refine Lib.and_ne_zero_mono hfired (fun i hi => ?_) (fun _ hi => hi)
        rw [Nat.testBit_or, hi, Bool.true_or]
  | opened => exact h
  | close _ => exact fun hw => by cases hw
  | routineClose _ => exact fun hw => by cases hw
  | routineCloseNone ho hwatched =>
      exact fun hw => by cases (hk.watched_of_closed ho).symm.trans (hwatched hw)

/-! ## What the kernel does by itself -/

def change (x : Entry) (d : Dir) (level : Nat) (edge : Bool) : Entry :=
  { x with
    level := Function.update x.level d level
    pending := Function.update x.pending d (x.pending d || edge && x.watched) }

def changes (x : Entry) (d : Dir) (level : Nat) (edge : Bool) : Bool :=
  edge || x.ready d || level = 0

theorem Kept.change (h : x.Kept) (d : Dir) (level : Nat) (edge : Bool) :
    (x.change d level edge).Kept :=
  ⟨h.item, h.opened, h.due⟩

theorem ready_change {d' : Dir} {level : Nat} {edge : Bool}
    (hc : x.changes d' level edge = true) (hw : x.watched = true)
    (hready : (x.change d' level edge).ready d = true) :
    (x.change d' level edge).pending d = true ∨
      (x.ready d = true ∧
        (x.pending d = true → (x.change d' level edge).pending d = true)) := by
  unfold changes at hc
  by_cases he : d = d'
  · subst he
    have hpos : ¬ level = 0 := by
      rintro rfl
      simp [ready, Entry.change] at hready
    rw [decide_eq_false hpos, Bool.or_false, Bool.or_eq_true] at hc
    unfold Entry.change
    dsimp only
    rw [Function.update_self, hw, Bool.and_true]
    rcases hc with rfl | hr
    · exact Or.inl (Bool.or_true _)
    · refine Or.inr ⟨hr, fun hp => ?_⟩
      rw [hp, Bool.true_or]
  · have hr : x.ready d = true := by simpa [ready, Entry.change, he] using hready
    unfold Entry.change
    dsimp only
    rw [Function.update_of_ne he]
    exact Or.inr ⟨hr, id⟩

theorem Covered.change (h : x.Covered d) {d' : Dir} {level : Nat} {edge : Bool}
    (hc : x.changes d' level edge = true) : (x.change d' level edge).Covered d := by
  intro hw hready
  rcases ready_change hc hw hready with hp | ⟨hr, hp⟩
  · exact Or.inl hp
  · exact (h hw hr).imp hp id

theorem Armed.change (h : x.Armed d) {d' : Dir} {level : Nat} {edge : Bool}
    (hc : x.changes d' level edge = true) : (x.change d' level edge).Armed d := by
  intro hw hready
  rcases ready_change hc hw hready with hp | ⟨hr, hp⟩
  · exact hp
  · exact hp (h hw hr)

end Entry

theorem View.entry_change (v : View) (fd : Nat) (d : Dir) (level : Nat) (edge : Bool) (a : Nat) :
    View.entry ⟨v.table, v.kern.change fd d level edge, v.opened⟩ a =
      if a = fd then (v.entry a).change d level edge else v.entry a := by
  split
  next he =>
    subst he
    exact entry_eq rfl Iff.rfl rfl (Function.update_self _ _ _) (Function.update_self _ _ _) rfl
  next he =>
    exact entry_eq rfl Iff.rfl rfl (Function.update_of_ne he _ _) (Function.update_of_ne he _ _) rfl

end EFramework.Epollet
