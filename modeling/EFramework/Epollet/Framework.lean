import EFramework.Epollet.Entry

/-! # The framework over `epollet.c`

The program and the kernel take turns: between any two steps of the program, and
also between a transfer that would block and its `unset`, descriptors become ready
or cease to be.
-/

namespace EFramework.Epollet

open EFramework.Runtime (Act Base Initial)

/-! ## Steps -/

inductive EtAct where
  | run (a : Act (List (Nat × Nat)))
  | change (fd : Nat) (d : Dir) (level : Nat) (edge : Bool)

def changed (rt : Runtime Et) (fd : Nat) (d : Dir) (level : Nat) (edge : Bool) : Runtime Et :=
  { rt with p := { rt.p with kern := rt.p.kern.change fd d level edge } }

/-- A successful `accept` takes a connection out of the queue of its listener. -/
def taken (rt : Runtime Et) (a : Act (List (Nat × Nat))) (rt' : Runtime Et) : Runtime Et :=
  match a, rt.accepting with
  | .accept _ _ _ _, some fd =>
      changed rt' fd .input (rt'.p.kern.level fd .input - 1) false
  | _, _ => rt'

def etStep (rt : Runtime Et) : EtAct → Option (Runtime Et)
  | .run a => (Runtime.step efEpollEt rt a).map (taken rt a)
  | .change fd d level edge => some (changed rt fd d level edge)

/-! ## Answers of the kernel -/

def blocks (k : Kernel) (c : Call) : Bool :=
  (c.unsetEvents &&& Dir.input.mask = 0 || !k.ready c.fd .input) &&
    (c.unsetEvents &&& Dir.output.mask = 0 || !k.ready c.fd .output)

def blocked (rt : Runtime Et) : Bool :=
  rt.current.all (fun er =>
    match (rt.routines er).pc with
    | .ready c => blocks rt.p.kern c
    | _ => true)

/-- A transfer says `EAGAIN` only if it would block, `accept` returns a socket only if there is
one, and what becomes ready has an edge. -/
def answers (rt : Runtime Et) : EtAct → Bool
  | .change fd d level edge => rt.p.kern.changes fd d level edge
  | .run a => rt.addsOpen a &&
      match a with
      | .accept _ _ _ _ => rt.accepting.all (fun fd => rt.p.kern.ready fd .input)
      | .transferred retval errno => !(retval < 0 && errno = eagain) || blocked rt
      | _ => true

def Fresh (p : Et) : Prop := Created p.ep ∧ ∀ fd, p.kern.watched fd = false

/-- `ef_init` and calls of `ef_add_listen` over a new poller have led here. -/
def Starts (rt : Runtime Et) : Prop := ∃ p, Fresh p ∧ Initial p rt

/-! ## What every run keeps -/

structure Keeps (s : Et × (Nat → Bool)) : Prop where
  ok : Ok s.1.ep
  cap : 0 < s.1.ep.cap
  kept : ∀ fd, ((view s).entry fd).Kept

def entryOf (rt : Runtime Et) (fd : Nat) : Entry := (view rt.polled).entry fd

variable {rt rt' : Runtime Et} {s s' : Et × (Nat → Bool)} {c : PollCall (List (Nat × Nat))}
  {a : Act (List (Nat × Nat))}

theorem Keeps.call (h : Keeps s) (hg : c.addsOpen s = true) (hs : c.step efEpollEt s = some s') :
    Keeps s' := by
  obtain ⟨hok, hcap, hv⟩ := h.ok.call h.cap hs
  refine ⟨hok, hcap, fun fd => (h.kept fd).step (hv.entry fd) (fun events ptr fired hc => ?_)⟩
  subst hc
  exact hg

theorem Keeps.changed (h : Keeps rt.polled) (fd : Nat) (d : Dir) (level : Nat) (edge : Bool) :
    Keeps (changed rt fd d level edge).polled := by
  refine ⟨h.ok, h.cap, fun a => ?_⟩
  have he := (view rt.polled).entry_change fd d level edge a
  change (View.entry ⟨(view rt.polled).table, (view rt.polled).kern.change fd d level edge,
    (view rt.polled).opened⟩ a).Kept
  rw [he]
  split
  · exact (h.kept a).change d level edge
  · exact h.kept a

theorem taken_cases (rt : Runtime Et) (a : Act (List (Nat × Nat))) (rt' : Runtime Et) :
    taken rt a rt' = rt' ∨ ∃ socket nonblock fresh ok fd, a = .accept socket nonblock fresh ok ∧
      taken rt a rt' = Epollet.changed rt' fd .input (rt'.p.kern.level fd .input - 1) false := by
  unfold taken
  split
  next socket nonblock fresh ok fd _ => exact Or.inr ⟨socket, nonblock, fresh, ok, fd, rfl, rfl⟩
  · exact Or.inl rfl

theorem Keeps.run (h : Keeps rt.polled) (hg : rt.addsOpen a = true)
    (hs : Runtime.step efEpollEt rt a = some rt') : Keeps rt'.polled :=
  (Runtime.addsOpen_calls hg hs).keeps Keeps (fun h hg hs => h.call hg hs) h
    (Runtime.step_calls hs)

/-- What every call keeps of the entry of one descriptor, in states that it is made in, a step
of the program keeps. -/
theorem Keeps.entry (h : Keeps rt.polled) (hg : rt.addsOpen a = true)
    (hs : Runtime.step efEpollEt rt a = some rt') (fd : Nat) (good : Entry → Prop)
    (allow : Entry → PollCall (List (Nat × Nat)) → Prop)
    (hp : Lib.Permits (PollCall.step efEpollEt) (fun s c => allow ((view s).entry fd) c) rt.polled
      (rt.calls a))
    (hstep : ∀ x c x', x.Kept → allow x c → x.Step fd c x' → good x → good x')
    (hx : good (entryOf rt fd)) : good (entryOf rt' fd) := by
  refine (((Runtime.addsOpen_calls hg hs).and hp).keeps
    (fun s => Keeps s ∧ good ((view s).entry fd)) (fun {s s' c} h₀ hc hs => ?_) ⟨h, hx⟩
    (Runtime.step_calls hs)).2
  obtain ⟨hk, hgood⟩ := h₀
  have hentry := (hk.ok.call hk.cap hs).2.2.entry fd
  exact ⟨hk.call hc.1 hs, hstep _ c _ (hk.kept fd) hc.2 hentry hgood⟩

/-- A step of the program with what it takes, or a change. -/
theorem etStep_cases {act : EtAct} (hs : etStep rt act = some rt') :
    (∃ a rt₁, act = .run a ∧ Runtime.step efEpollEt rt a = some rt₁ ∧ rt' = taken rt a rt₁) ∨
      ∃ fd d level edge, act = .change fd d level edge ∧ rt' = changed rt fd d level edge := by
  cases act with
  | run a =>
      obtain ⟨rt₁, h₁, rfl⟩ := Option.map_eq_some_iff.mp hs
      exact Or.inl ⟨a, rt₁, rfl, h₁, rfl⟩
  | change fd d level edge =>
      cases hs
      exact Or.inr ⟨fd, d, level, edge, rfl, rfl⟩

theorem addsOpen_of_answers (hg : answers rt (.run a) = true) : rt.addsOpen a = true :=
  (Bool.and_eq_true_iff.mp hg).1

theorem base_changed (h : Base rt) (fd : Nat) (d : Dir) (level : Nat) (edge : Bool) :
    Base (changed rt fd d level edge) :=
  h.setPoll _ rt.stopping rt.owner

theorem Keeps.step (hb : Base rt) (h : Keeps rt.polled) {act : EtAct}
    (hg : answers rt act = true) (hs : etStep rt act = some rt') :
    Base rt' ∧ Keeps rt'.polled := by
  rcases etStep_cases hs with ⟨a, rt₁, rfl, h₁, rfl⟩ | ⟨fd, d, level, edge, rfl, rfl⟩
  · have hb₁ := hb.step h₁
    have hk := h.run (addsOpen_of_answers hg) h₁
    rcases taken_cases rt a rt₁ with he | ⟨_, _, _, _, fd, _, he⟩
    · rw [he]
      exact ⟨hb₁, hk⟩
    · rw [he]
      exact ⟨base_changed hb₁ fd _ _ _, hk.changed fd _ _ _⟩
  · exact ⟨base_changed hb fd d level edge, h.changed fd d level edge⟩

theorem Keeps.starts (h : Starts rt) : Base rt ∧ Keeps rt.polled := by
  obtain ⟨p, ⟨hc, hw⟩, hinit⟩ := h
  refine ⟨.initial hinit, ?_⟩
  unfold Runtime.polled
  rw [hinit.p]
  exact ⟨hc.ok, hc.spec.2.2.1, fun fd => .of_unwatched (hw fd)⟩

end EFramework.Epollet
