import EFramework.Fiber.Sched

/-! # Resumes nest

From `current_fiber` the parents lead through the fibers that are resumed, innermost
first, down to the thread. A fiber that yields or exits therefore gives control back
to the one that has resumed it, with its value.
-/

namespace EFramework.Fiber

universe u

variable {α : Type u}

/-! ## Chains of parents -/

def Linked (parent : α → Option α) : Option α → List α → Prop
  | fiber, [] => fiber = none
  | fiber, a :: stk => fiber = some a ∧ Linked parent (parent a) stk

variable {parent parent' : α → Option α} {fiber : Option α} {stk : List α} {a b : α}

theorem Linked.congr (h : Linked parent fiber stk) (he : ∀ a ∈ stk, parent' a = parent a) :
    Linked parent' fiber stk := by
  induction stk generalizing fiber with
  | nil => exact h
  | cons a stk ih =>
      obtain ⟨hf, hrest⟩ := h
      refine ⟨hf, ?_⟩
      rw [he a List.mem_cons_self]
      exact ih hrest (fun b hb => he b (List.mem_cons_of_mem a hb))

theorem Linked.head (h : Linked parent (some a) stk) :
    ∃ rest, stk = a :: rest ∧ Linked parent (parent a) rest := by
  cases stk with
  | nil => cases h
  | cons b rest =>
      obtain ⟨he, hrest⟩ := h
      cases he
      exact ⟨rest, rfl, hrest⟩

theorem Linked.parent_mem (h : Linked parent fiber stk) (ha : a ∈ stk) (hb : parent a = some b) :
    b ∈ stk.tail := by
  induction stk generalizing fiber with
  | nil => cases ha
  | cons c stk ih =>
      obtain ⟨_, hrest⟩ := h
      rcases List.mem_cons.mp ha with rfl | ha
      · rw [hb] at hrest
        obtain ⟨rest, rfl, _⟩ := hrest.head
        exact List.mem_cons_self
      · exact List.mem_of_mem_tail (ih hrest ha)

theorem Linked.parent_ne (h : Linked parent fiber stk) (hn : stk.Nodup) (ha : a ∈ stk) :
    parent a ≠ fiber := by
  rintro rfl
  cases stk with
  | nil => cases ha
  | cons c stk =>
      have hmem : c ∈ stk := h.parent_mem ha h.1
      exact (List.nodup_cons.mp hn).1 hmem

theorem Linked.first_or_parent (h : Linked parent fiber stk) (ha : a ∈ stk) :
    fiber = some a ∨ ∃ b ∈ stk, parent b = some a := by
  induction stk generalizing fiber with
  | nil => cases ha
  | cons c stk ih =>
      obtain ⟨rfl, hrest⟩ := h
      rcases List.mem_cons.mp ha with rfl | ha
      · exact Or.inl rfl
      · rcases ih hrest ha with hp | ⟨b, hb, hp⟩
        · exact Or.inr ⟨c, List.mem_cons_self, hp⟩
        · exact Or.inr ⟨b, List.mem_cons_of_mem c hb, hp⟩

/-! ## The invariant -/

/-- What the fields of one fiber say, by what has been done to it. -/
structure Fits (t : FiberSched α × History α) (f : α) : Prop where
  resumer : t.2.life f = .active → t.1.parent f = (t.2.resumer f).1
  waits : t.2.life f = .active →
    t.1.stackPtr (t.1.parent f) = ⟨t.1.parent f, .resume f (t.2.resumer f).2⟩
  inited : t.2.life f = .fresh ∨ t.2.life f = .active ∨ t.2.life f = .suspended →
    t.1.status f = fiberStatusInited
  exited : t.2.life f = .exited → t.1.status f = fiberStatusExited
  fresh : t.2.life f = .fresh → ∃ proc param, t.1.stackPtr (some f) = ⟨some f, .entry proc param⟩
  suspended : t.2.life f = .suspended → t.1.stackPtr (some f) = ⟨some f, .yield⟩

structure Inv (t : FiberSched α × History α) : Prop where
  running : t.1.running = t.1.currentFiber
  links : ∃ stk, Linked t.1.parent t.1.currentFiber stk ∧ stk.Nodup ∧
    ∀ f, f ∈ stk ↔ t.2.life f = .active
  fits : ∀ f, Fits t f

variable {s : FiberSched α} {h : History α} {t t' : FiberSched α × History α} {o : Outcome α}
  {f : α}

theorem Initial.inv (h : Initial t) : Inv t := by
  obtain ⟨hcur, hrun, hlife⟩ := h
  have hno : ∀ f life, life ≠ .unborn → t.2.life f ≠ life := fun f life hne he =>
    hne (he.symm.trans (hlife f))
  refine ⟨hrun.trans hcur.symm, ⟨[], hcur, List.nodup_nil, fun f => ?_⟩, fun f => ?_⟩
  · exact ⟨fun hm => absurd hm List.not_mem_nil, fun hf => absurd hf (hno f _ (by decide))⟩
  · refine ⟨fun hf => absurd hf (hno f _ (by decide)), fun hf => absurd hf (hno f _ (by decide)),
      fun hf => ?_, fun hf => absurd hf (hno f _ (by decide)),
      fun hf => absurd hf (hno f _ (by decide)), fun hf => absurd hf (hno f _ (by decide))⟩
    rcases hf with hf | hf | hf <;> exact absurd hf (hno f _ (by decide))

theorem Inv.parent_active (hi : Inv t) {g : α} (hf : t.2.life f = .active)
    (hp : t.1.parent f = some g) : t.2.life g = .active := by
  obtain ⟨stk, hl, _, hmem⟩ := hi.links
  exact (hmem g).mp (List.mem_of_mem_tail (hl.parent_mem ((hmem f).mpr hf) hp))

theorem Inv.parent_ne (hi : Inv t) (hf : t.2.life f = .active) :
    t.1.parent f ≠ t.1.currentFiber := by
  obtain ⟨stk, hl, hn, hmem⟩ := hi.links
  exact hl.parent_ne hn ((hmem f).mpr hf)

theorem Inv.current_active (hi : Inv t) (hc : t.1.currentFiber = some f) :
    t.2.life f = .active := by
  obtain ⟨stk, hl, _, hmem⟩ := hi.links
  rw [hc] at hl
  obtain ⟨rest, rfl, _⟩ := hl.head
  exact (hmem f).mp List.mem_cons_self

theorem Fits.frame (hf : Fits t f) (hlife : t'.2.life f = t.2.life f)
    (hresumer : t'.2.resumer f = t.2.resumer f) (hparent : t'.1.parent f = t.1.parent f)
    (hstatus : t'.1.status f = t.1.status f)
    (hidle : t.2.life f ≠ .active → t'.1.stackPtr (some f) = t.1.stackPtr (some f))
    (hactive : t.2.life f = .active →
      t'.1.stackPtr (t.1.parent f) = t.1.stackPtr (t.1.parent f)) : Fits t' f := by
  refine ⟨fun hl => ?_, fun hl => ?_, fun hl => ?_, fun hl => ?_, fun hl => ?_, fun hl => ?_⟩ <;>
    rw [hlife] at hl
  · rw [hparent, hresumer]
    exact hf.resumer hl
  · rw [hparent, hresumer, hactive hl]
    exact hf.waits hl
  · rw [hstatus]
    exact hf.inited hl
  · rw [hstatus]
    exact hf.exited hl
  · rw [hidle (by rw [hl]; decide)]
    exact hf.fresh hl
  · rw [hidle (by rw [hl]; decide)]
    exact hf.suspended hl

/-! ## Initialising -/

variable [DecidableEq α]

theorem Inv.init (hi : Inv (s, h)) (hf : h.life f ≠ .active) (proc param : Nat) :
    Inv (s.efFiberInit f proc param, h.set f .fresh) := by
  have hself : (h.set f .fresh).life f = .fresh := Function.update_self _ _ _
  have hother : ∀ g, g ≠ f → (h.set f .fresh).life g = h.life g :=
    fun g hne => Function.update_of_ne hne _ _
  have hne : ∀ g, h.life g = .active → g ≠ f := by
    rintro g hg rfl
    exact hf hg
  obtain ⟨stk, hl, hn, hmem⟩ := hi.links
  refine ⟨hi.running, ⟨stk, hl, hn, fun g => (hmem g).trans ?_⟩, fun g => ?_⟩
  · by_cases he : g = f
    · subst he
      dsimp only
      rw [hself]
      exact iff_of_false hf (by decide)
    · exact iff_of_eq (congrArg (· = Life.active) (hother g he).symm)
  · by_cases he : g = f
    · subst he
      have hno : ∀ life, life ≠ .fresh → (h.set g .fresh).life g ≠ life :=
        fun life hc he => hc (he.symm.trans hself)
      exact ⟨fun hg => absurd hg (hno _ (by decide)), fun hg => absurd hg (hno _ (by decide)),
        fun _ => Function.update_self _ _ _, fun hg => absurd hg (hno _ (by decide)),
        fun _ => ⟨proc, _, Function.update_self _ _ _⟩, fun hg => absurd hg (hno _ (by decide))⟩
    · refine (hi.fits g).frame (hother g he) rfl rfl (Function.update_of_ne he _ _)
        (fun _ => Function.update_of_ne (fun hc => he (Option.some.inj hc)) _ _) (fun hg => ?_)
      exact Function.update_of_ne (fun hc => hne f (hi.parent_active hg hc) rfl) _ _

/-! ## Resuming -/

def activated (s : FiberSched α) (target : α) (retval : Bool) : FiberSched α :=
  { s with
    parent := Function.update s.parent target s.running
    currentFiber := some target
    stackPtr := Function.update s.stackPtr s.running ⟨s.running, .resume target retval⟩
    running := some target }

theorem Inv.resume_eq (hi : Inv (s, h)) (hf : h.life f = .fresh ∨ h.life f = .suspended)
    (sndval : Int) (retval : Bool) :
    s.efFiberResume f sndval retval =
      ((s.stackPtr (some f)).goOn sndval, activated s f retval) := by
  have hstatus : s.status f = fiberStatusInited := (hi.fits f).inited (hf.imp_right Or.inr)
  have howner : (s.stackPtr (some f)).owner = some f := by
    rcases hf with hf | hf
    · obtain ⟨proc, param, hc⟩ := (hi.fits f).fresh hf
      exact congrArg Context.owner hc
    · exact congrArg Context.owner ((hi.fits f).suspended hf)
  unfold FiberSched.efFiberResume FiberSched.swap activated
  rw [if_neg (not_not.mpr hstatus)]
  dsimp only
  rw [howner, ← show s.running = s.currentFiber from hi.running]

theorem Inv.activated (hi : Inv (s, h)) (hf : h.life f = .fresh ∨ h.life f = .suspended)
    (retval : Bool) :
    Inv (activated s f retval,
      { h.set f .active with resumer := Function.update h.resumer f (s.running, retval) }) := by
  have hself : Function.update h.life f .active f = .active := Function.update_self _ _ _
  have hother : ∀ g, g ≠ f → Function.update h.life f .active g = h.life g :=
    fun g hne => Function.update_of_ne hne _ _
  have hidle : h.life f ≠ .active := by rcases hf with hf | hf <;> rw [hf] <;> decide
  have hrunning : s.running = s.currentFiber := hi.running
  obtain ⟨stk, hl, hn, hmem⟩ := hi.links
  have hnot : f ∉ stk := fun hm => hidle ((hmem f).mp hm)
  refine ⟨rfl, ⟨f :: stk, ⟨rfl, ?_⟩, List.nodup_cons.mpr ⟨hnot, hn⟩, fun g => ?_⟩, fun g => ?_⟩
  · have hp : (Fiber.activated s f retval).parent f = s.currentFiber :=
      (Function.update_self _ _ _).trans hrunning
    rw [hp]
    exact hl.congr (fun a ha => Function.update_of_ne (fun hc : a = f => hnot (hc ▸ ha)) _ _)
  · rw [List.mem_cons, hmem g]
    by_cases he : g = f
    · subst he
      exact iff_of_true (Or.inl rfl) hself
    · exact (or_iff_right he).trans (iff_of_eq (congrArg (· = Life.active) (hother g he).symm))
  · by_cases he : g = f
    · subst he
      have hp : (Fiber.activated s g retval).parent g = s.running := Function.update_self _ _ _
      have hr : Function.update h.resumer g (s.running, retval) g = (s.running, retval) :=
        Function.update_self _ _ _
      have hno : ∀ life, life ≠ .active → Function.update h.life g .active g ≠ life :=
        fun life hc he => hc (he.symm.trans hself)
      refine ⟨fun _ => ?_, fun _ => ?_, fun _ => (hi.fits g).inited (hf.imp_right Or.inr),
        fun hg => absurd hg (hno _ (by decide)), fun hg => absurd hg (hno _ (by decide)),
        fun hg => absurd hg (hno _ (by decide))⟩
      · dsimp only
        rw [hp, hr]
      · dsimp only
        rw [hp, hr]
        exact Function.update_self _ _ _
    · refine (hi.fits g).frame (hother g he) (Function.update_of_ne he _ _)
        (Function.update_of_ne he _ _) rfl (fun hg => Function.update_of_ne (fun hc => hg ?_) _ _)
        (fun hg => Function.update_of_ne (fun hc => ?_) _ _)
      · exact hi.current_active (hc.trans hrunning).symm
      · exact hi.parent_ne hg (hc.trans hrunning)

/-! ## Going back -/

theorem Inv.left (hi : Inv (s, h)) (hc : s.currentFiber = some f) (status : Int)
    (ctx : Context α) {life : Life} (hlife : life = .suspended ∨ life = .exited)
    (hsuspended : life = .suspended → status = fiberStatusInited ∧ ctx = ⟨some f, .yield⟩)
    (hexited : life = .exited → status = fiberStatusExited) :
    Inv ({ s with
      currentFiber := s.parent f
      status := Function.update s.status f status
      stackPtr := Function.update s.stackPtr (some f) ctx
      running := s.parent f }, h.set f life) := by
  have hself : (h.set f life).life f = life := Function.update_self _ _ _
  have hother : ∀ g, g ≠ f → (h.set f life).life g = h.life g :=
    fun g hne => Function.update_of_ne hne _ _
  obtain ⟨stk, hl, hn, hmem⟩ := hi.links
  dsimp only at hl
  rw [hc] at hl
  obtain ⟨rest, rfl, hrest⟩ := hl.head
  obtain ⟨hnot, hn⟩ := List.nodup_cons.mp hn
  refine ⟨rfl, ⟨rest, hrest, hn, fun g => ?_⟩, fun g => ?_⟩
  · by_cases he : g = f
    · subst he
      dsimp only
      rw [hself]
      exact iff_of_false hnot (by rcases hlife with rfl | rfl <;> decide)
    · dsimp only
      rw [hother g he, ← show _ ↔ h.life g = .active from hmem g, List.mem_cons]
      exact (or_iff_right he).symm
  · by_cases he : g = f
    · subst he
      have hno : ∀ life', life' ≠ life → (h.set g life).life g ≠ life' :=
        fun life' hc he => hc (he.symm.trans hself)
      rcases hlife with rfl | rfl
      · refine ⟨fun hg => absurd hg (hno _ (by decide)), fun hg => absurd hg (hno _ (by decide)),
          fun _ => ?_, fun hg => absurd hg (hno _ (by decide)),
          fun hg => absurd hg (hno _ (by decide)), fun _ => ?_⟩
        · exact (Function.update_self _ _ _).trans (hsuspended rfl).1
        · exact (Function.update_self _ _ _).trans (hsuspended rfl).2
      · refine ⟨fun hg => absurd hg (hno _ (by decide)), fun hg => absurd hg (hno _ (by decide)),
          fun hg => ?_, fun _ => (Function.update_self _ _ _).trans (hexited rfl),
          fun hg => absurd hg (hno _ (by decide)), fun hg => absurd hg (hno _ (by decide))⟩
        rcases hg with hg | hg | hg <;> exact absurd hg (hno _ (by decide))
    · refine (hi.fits g).frame (hother g he) rfl rfl (Function.update_of_ne he _ _)
        (fun _ => Function.update_of_ne (fun hx => he (Option.some.inj hx)) _ _) (fun hg => ?_)
      exact Function.update_of_ne (fun hx => hi.parent_ne hg (hx.trans hc.symm)) _ _

theorem Inv.yield (hi : Inv (s, h)) (hc : s.currentFiber = some f) (sndval : Int) :
    ∃ s', s.efFiberYield sndval =
        some (.resumed (h.resumer f).1 f 0 (if (h.resumer f).2 then some sndval else none), s') ∧
      s'.running = (h.resumer f).1 ∧ Inv (s', h.set f .suspended) := by
  have hf := hi.fits f
  have hactive := hi.current_active hc
  have hwaits : s.stackPtr (s.parent f) = ⟨s.parent f, .resume f (h.resumer f).2⟩ :=
    hf.waits hactive
  have hparent : s.parent f = (h.resumer f).1 := hf.resumer hactive
  have hstatus : s.status f = fiberStatusInited := hf.inited (Or.inr (Or.inl hactive))
  have hrunning : s.running = some f := hi.running.trans hc
  refine ⟨{ s with
      currentFiber := s.parent f
      stackPtr := Function.update s.stackPtr (some f) ⟨some f, .yield⟩
      running := s.parent f }, ?_, hparent, ?_⟩
  · unfold FiberSched.efFiberYield FiberSched.swap
    rw [hc, Option.map_some]
    dsimp only
    rw [hwaits, hrunning, hparent]
    rfl
  · have hleft := hi.left hc fiberStatusInited ⟨some f, .yield⟩ (Or.inl rfl)
      (fun _ => ⟨rfl, rfl⟩) (fun hx => by cases hx)
    rwa [Function.update_eq_self_iff.mpr hstatus.symm] at hleft

theorem Inv.exit (hi : Inv (s, h)) (hc : s.currentFiber = some f) (ret : Int) :
    ∃ s', s.efFiberExit ret =
        some (.resumed (h.resumer f).1 f 0 (if (h.resumer f).2 then some ret else none), s') ∧
      s'.running = (h.resumer f).1 ∧ Inv (s', h.set f .exited) := by
  have hf := hi.fits f
  have hactive := hi.current_active hc
  have hwaits : s.stackPtr (s.parent f) = ⟨s.parent f, .resume f (h.resumer f).2⟩ :=
    hf.waits hactive
  have hparent : s.parent f = (h.resumer f).1 := hf.resumer hactive
  have hrunning : s.running = some f := hi.running.trans hc
  refine ⟨{ s with
      currentFiber := s.parent f
      status := Function.update s.status f fiberStatusExited
      running := s.parent f }, ?_, hparent, ?_⟩
  · unfold FiberSched.efFiberExit
    rw [hrunning, Option.map_some, hwaits, hparent]
    rfl
  · have hleft := hi.left hc fiberStatusExited (s.stackPtr (some f)) (Or.inr rfl)
      (fun hx => by cases hx) (fun _ => rfl)
    rwa [Function.update_eq_self_iff.mpr rfl] at hleft

/-! ## Runs -/

/-- A fiber that has exited is not resumed, and nothing changes. -/
theorem Inv.resume_exited (hi : Inv (s, h)) (hf : h.life f = .exited) (sndval : Int)
    (retval : Bool) :
    s.efFiberResume f sndval retval = (.resumed s.running f errorFiberExited none, s) := by
  have hstatus : s.status f = fiberStatusExited := (hi.fits f).exited hf
  unfold FiberSched.efFiberResume
  rw [hstatus, if_pos (by decide), if_pos rfl]

theorem Inv.step (hi : Inv t) {a : Act α} (hg : disciplined t a = true)
    (hs : stepBoth t a = some t') : Inv t' := by
  obtain ⟨s, h⟩ := t
  obtain ⟨⟨o, s'⟩, hstep, rfl⟩ := Option.map_eq_some_iff.mp hs
  cases a with
  | init fiber proc param =>
      cases hstep
      exact hi.init (of_decide_eq_true hg) proc param
  | resume target sndval retval =>
      obtain rfl : (s.efFiberResume target sndval retval).2 = s' :=
        congrArg Prod.snd (Option.some.inj hstep)
      have hlife := of_decide_eq_true hg
      unfold History.step
      dsimp only
      by_cases hx : h.life target = .exited
      · rw [if_pos hx, hi.resume_exited hx]
        exact hi
      · have hto : h.life target = .fresh ∨ h.life target = .suspended :=
          hlife.imp_right (fun hc => hc.resolve_right hx)
        rw [if_neg hx, hi.resume_eq hto]
        exact hi.activated hto retval
  | yield sndval =>
      obtain ⟨f, hf⟩ := Option.isSome_iff_exists.mp hg
      have hc : s.currentFiber = some f := hi.running.symm.trans hf
      obtain ⟨s₁, he, _, hi'⟩ := hi.yield hc sndval
      cases he.symm.trans hstep
      have hstep' : h.step s.running (.yield sndval) = h.set f .suspended := by
        rw [show s.running = some f from hf]
        rfl
      rw [hstep']
      exact hi'
  | exit ret =>
      obtain ⟨f, hf⟩ := Option.isSome_iff_exists.mp hg
      have hc : s.currentFiber = some f := hi.running.symm.trans hf
      obtain ⟨s₁, he, _, hi'⟩ := hi.exit hc ret
      cases he.symm.trans hstep
      have hstep' : h.step s.running (.exit ret) = h.set f .exited := by
        rw [show s.running = some f from hf]
        rfl
      rw [hstep']
      exact hi'

/-- The parents from `current_fiber` on are those of the fibers that run or resume another. Who
yields or exits gives control and the value to the resume that has activated it last, and who
is resumed gets the value, if it waits in a yield; a fiber that has exited is left alone. -/
theorem fibers_nest {s : FiberSched α} {h : History α}
    (hr : Lib.Reachable Initial stepBoth (fun t a => disciplined t a = true) (s, h)) :
    (s.running = s.currentFiber ∧ ∃ stk, Linked s.parent s.currentFiber stk ∧ stk.Nodup ∧
      ∀ f, f ∈ stk ↔ s.running = some f ∨
        ∃ g ∈ stk, ∃ retval, s.stackPtr (some f) = ⟨some f, .resume g retval⟩ ∧
          s.parent g = some f) ∧
    (∀ f sndval, s.running = some f → ∃ s', step s (.yield sndval) = some
      (.resumed (h.resumer f).1 f 0 (if (h.resumer f).2 then some sndval else none), s') ∧
      s'.running = (h.resumer f).1) ∧
    (∀ f ret, s.running = some f → ∃ s', step s (.exit ret) = some
      (.resumed (h.resumer f).1 f 0 (if (h.resumer f).2 then some ret else none), s') ∧
      s'.running = (h.resumer f).1) ∧
    (∀ f sndval retval, h.life f = .suspended → ∃ s',
      step s (.resume f sndval retval) = some (.yielded (some f) sndval, s') ∧
      s'.running = some f) ∧
    ∀ f sndval retval, h.life f = .exited →
      step s (.resume f sndval retval) = some (.resumed s.running f errorFiberExited none, s) := by
  have hi : Inv (s, h) := Lib.Invariant.holds ⟨fun h₀ => h₀.inv, fun h₀ hg hs => h₀.step hg hs⟩ hr
  refine ⟨⟨hi.running, ?_⟩, fun f sndval hf => ?_, fun f ret hf => ?_, fun f sndval retval hf => ?_,
    fun f sndval retval hf => congrArg some (hi.resume_exited hf sndval retval)⟩
  · obtain ⟨stk, hl, hn, hmem⟩ := hi.links
    refine ⟨stk, hl, hn, fun f => ⟨fun hf => ?_, ?_⟩⟩
    · rcases hl.first_or_parent hf with hp | ⟨g, hg, hp⟩
      · exact Or.inl (hi.running.trans hp)
      · have hwaits := (hi.fits g).waits ((hmem g).mp hg)
        dsimp only at hp hwaits
        rw [hp] at hwaits
        exact Or.inr ⟨g, hg, _, hwaits, hp⟩
    · rintro (hf | ⟨g, hg, _, _, hp⟩)
      · exact (hmem f).mpr (hi.current_active (hi.running.symm.trans hf))
      · exact (hmem f).mpr (hi.parent_active ((hmem g).mp hg) hp)
  · obtain ⟨s', he, hrun, _⟩ := hi.yield (hi.running.symm.trans hf) sndval
    exact ⟨s', he, hrun⟩
  · obtain ⟨s', he, hrun, _⟩ := hi.exit (hi.running.symm.trans hf) ret
    exact ⟨s', he, hrun⟩
  · refine ⟨activated s f retval, ?_, rfl⟩
    have hctx : s.stackPtr (some f) = ⟨some f, .yield⟩ := (hi.fits f).suspended hf
    have he := hi.resume_eq (Or.inr hf) sndval retval
    rw [hctx] at he
    exact congrArg some he

def nested : List (Act Nat) :=
  [.init 1 100 0, .init 2 100 7, .resume 1 0 true, .resume 2 0 true, .yield 5, .resume 2 6 false]

def noFibers : FiberSched Nat × History Nat :=
  (⟨none, fun _ => 0, fun _ => none, fun _ => ⟨none, .yield⟩, none⟩,
    ⟨fun _ => .unborn, fun _ => (none, false)⟩)

theorem fibers_nest_twice : ∃ t,
    Lib.run stepBoth (fun t a => disciplined t a = true) noFibers nested = some t ∧
    t.1.currentFiber = some 2 ∧
    ∃ s', step t.1 (.exit 9) = some (.resumed (some 1) 2 0 none, s') ∧ s'.running = some 1 := by
  have hrun : (Lib.run stepBoth (fun t a => disciplined t a = true) noFibers nested).map
      (fun t => (t.1.currentFiber, t.1.running, t.2.resumer 2)) =
      some (some 2, some 2, (some 1, false)) := by decide
  obtain ⟨⟨s, h⟩, hr, he⟩ := Option.map_eq_some_iff.mp hrun
  simp only [Prod.mk.injEq] at he
  obtain ⟨hc, hrunning, hresumer⟩ := he
  have hinit : Lib.Reachable Initial stepBoth (fun t a => disciplined t a = true) noFibers :=
    .init ⟨rfl, rfl, fun _ => rfl⟩
  obtain ⟨s', hs', hrun'⟩ := (fibers_nest (hinit.run hr)).2.2.1 2 9 hrunning
  rw [hresumer] at hs' hrun'
  exact ⟨(s, h), hr, hc, s', hs', hrun'⟩

end EFramework.Fiber
