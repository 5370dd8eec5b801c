import EFramework.Redis.Ownership
import Mathlib.Data.List.InsertIdx

/-! # Reading replies and giving them back

A program reads replies from a connection and gives each one back when it is done with it, in
an order of its own. What it keeps lies in blocks that belong to one reply each, so
`ef_redis_free_reply` never meets a block that is not there, or one of another reply.
-/

namespace EFramework

open Lib (BlockHeap rel_bind rel_ite)

/-- `ef_redis_read_reply`, with fuel for its loops, or `ef_redis_free_reply` for one of the
replies that the program still has. -/
inductive ReplyCall where
  | read (fuel : Nat)
  | free (i : Nat)
deriving Repr, DecidableEq

/-- A connection and the replies that the program has, the newest one first. No reply with a NULL
in it has been read as long as `whole`. -/
structure ReplyValues where
  con : RedisConnection
  held : List RedisReply
  whole : Bool

/-- The same in memory. -/
structure ReplySession where
  mem : ReplyMemory
  held : List Nat

namespace ReplyValues

def read (fuel : Nat) (v : ReplyValues) : Option ReplyValues := do
  let (rep, con) ← efRedisReadReply fuel v.con
  some ⟨con, rep :: v.held, v.whole && rep.whole⟩

/-- An array with an element that has not been set is not given back. -/
def free (i : Nat) (v : ReplyValues) : Option ReplyValues := do
  let rep ← v.held[i]?
  if rep.allSet then some { v with held := v.held.eraseIdx i } else none

def step (v : ReplyValues) : ReplyCall → Option ReplyValues
  | .read fuel => v.read fuel
  | .free i => v.free i

def run (v : ReplyValues) : List ReplyCall → Option ReplyValues
  | [] => some v
  | c :: cs => (v.step c).bind (fun v => v.run cs)

end ReplyValues

namespace ReplySession

def read (fuel : Nat) (s : ReplySession) : Option ReplySession := do
  let (rep, mem) ← s.mem.efRedisReadReply fuel
  some ⟨mem, rep :: s.held⟩

def free (fuel i : Nat) (s : ReplySession) : Option ReplySession := do
  let rep ← s.held[i]?
  let (_, heap) ← efRedisFreeReply fuel s.mem.heap rep
  some ⟨{ s.mem with heap := heap }, s.held.eraseIdx i⟩

/-- `fuel` is for `ef_redis_free_reply`. -/
def step (fuel : Nat) (s : ReplySession) : ReplyCall → Option ReplySession
  | .read fuel => s.read fuel
  | .free i => s.free fuel i

def run (fuel : Nat) (s : ReplySession) : List ReplyCall → Option ReplySession
  | [] => some s
  | c :: cs => (s.step fuel c).bind (fun s => s.run fuel cs)

end ReplySession

open ReplyMemory (Owns Lost rel_readReply)

variable {h h' : ReplyHeap} {v : ReplyValues} {s : ReplySession} {bs bs' : List Nat} {i : Nat}

/-! ## Blocks -/

theorem ReplyMemory.Owns.perm {whole : Bool} (ho : Owns h h' bs whole) (hp : bs.Perm bs') :
    Owns h h' bs' whole where
  nodup := hp.nodup_iff.mp ho.nodup
  new q hq := ho.new q (hp.mem_iff.mpr hq)
  lost hw q hq hused hnot := ho.lost hw q hq hused (fun hm => hnot (hp.mem_iff.mp hm))

theorem RedisReply.AllAt.length_eq {m : Nat → Option ReplyBlock} {rs : List RedisReply}
    {ps : List (Option Nat)} (hall : RedisReply.AllAt m rs ps bs) : rs.length = ps.length := by
  induction rs generalizing ps bs with
  | nil =>
      rw [hall.1]
      rfl
  | cons r rs ih =>
      obtain ⟨p, ps, bs₁, bs₂, rfl, -, hall, -⟩ := hall
      exact congrArg (· + 1) (ih hall)

/-- The blocks of one reply, and those of the others. -/
theorem RedisReply.AllAt.pick {m : Nat → Option ReplyBlock} {rs : List RedisReply}
    {ps : List (Option Nat)} {r : RedisReply} (hall : RedisReply.AllAt m rs ps bs)
    (hr : rs[i]? = some r) :
    ∃ p bs₁ bs₂, ps[i]? = some p ∧ r.At m p bs₁ ∧
      RedisReply.AllAt m (rs.eraseIdx i) (ps.eraseIdx i) bs₂ ∧ bs.Perm (bs₁ ++ bs₂) := by
  induction rs generalizing i ps bs with
  | nil => cases hr
  | cons r' rs ih =>
      obtain ⟨p, ps, bs₁, bs₂, rfl, hat, hall, rfl⟩ := hall
      cases i with
      | zero =>
          obtain rfl := Option.some.inj hr
          exact ⟨p, bs₁, bs₂, rfl, hat, hall, .refl _⟩
      | succ i =>
          obtain ⟨p', bs₃, bs₄, hp', hat', hall', hperm⟩ := ih hall hr
          refine ⟨p', bs₃, bs₁ ++ bs₄, hp', hat', ⟨p, _, bs₁, bs₄, rfl, hat, hall', rfl⟩, ?_⟩
          calc (bs₁ ++ bs₂).Perm (bs₁ ++ (bs₃ ++ bs₄)) := hperm.append_left bs₁
            _ = bs₁ ++ bs₃ ++ bs₄ := (List.append_assoc _ _ _).symm
            (bs₁ ++ bs₃ ++ bs₄).Perm (bs₃ ++ bs₁ ++ bs₄) := List.perm_append_comm.append_right bs₄
            _ = bs₃ ++ (bs₁ ++ bs₄) := List.append_assoc _ _ _

/-- The blocks of a reply are given back. -/
theorem ReplyMemory.Owns.without {whole : Bool} {bs₁ bs₂ : List Nat}
    (ho : Owns h h' (bs₁ ++ bs₂) whole) : Owns h (h'.without bs₁) bs₂ whole where
  nodup := (List.nodup_append.mp ho.nodup).2.1
  new q hq := ho.new q (List.mem_append_right _ hq)
  lost hw q hq hused hnot := by
    by_cases hm : q ∈ bs₁
    · exact absurd (BlockHeap.without_mem hm) hused
    · have hkept := BlockHeap.blocks_without (h := h') hm
      exact hkept.trans (ho.lost hw q hq (hkept ▸ hused)
        (fun hq => (List.mem_append.mp hq).elim hm hnot))

/-! ## Calls -/

namespace ReplySession

/-- What the program has lies in blocks that have been allocated since, and what else has been
allocated since and not been given back is lost. -/
structure Holds (h : ReplyHeap) (v : ReplyValues) (s : ReplySession) : Prop where
  con : s.mem.con = v.con
  grown : h.Grown s.mem.heap
  blocks : ∃ bs, RedisReply.AllAt s.mem.heap.blocks v.held (s.held.map some) bs ∧
    Owns h s.mem.heap bs v.whole

theorem Holds.sound (hs : h.Sound) (hh : Holds h v s) : s.mem.heap.Sound :=
  hs.of_grown hh.grown

theorem Holds.read (hs : h.Sound) (hh : Holds h v s) (fuel : Nat) :
    Option.Rel (Holds h) (v.read fuel) (s.read fuel) := by
  obtain ⟨bs, hall, ho⟩ := hh.blocks
  unfold ReplyValues.read ReplySession.read
  rw [← hh.con]
  refine rel_bind (rel_readReply fuel (hh.sound hs)) ?_
  rintro ⟨rep, con⟩ ⟨p, mem⟩ ⟨rfl, hg, bs', hat, ho'⟩
  refine .some ⟨rfl, hh.grown.trans hg, bs' ++ bs, ?_, ?_⟩
  · have hkept : ∀ q ∈ bs, mem.heap.blocks q = s.mem.heap.blocks q :=
      fun q hq => hg.kept q (ho.new q hq).2
    exact ⟨some p, _, bs', bs, rfl, hat, RedisReply.AllAt.congr v.held hall hkept, rfl⟩
  · exact (ho.append hh.grown hg ho').perm List.perm_append_comm

/-- Giving a reply back takes its blocks from the heap, and no others. -/
theorem Holds.free (hs : h.Sound) (hh : Holds h v s) (i : Nat) :
    ∃ n x, (∀ fuel, n ≤ fuel → s.free fuel i = x) ∧ Option.Rel (Holds h) (v.free i) x := by
  obtain ⟨bs, hall, ho⟩ := hh.blocks
  unfold ReplyValues.free ReplySession.free
  cases hr : v.held[i]? with
  | none =>
      have hlength : v.held.length = s.held.length := by
        rw [hall.length_eq, List.length_map]
      have hnone : s.held[i]? = none :=
        List.getElem?_eq_none (hlength ▸ List.getElem?_eq_none_iff.mp hr)
      exact ⟨0, none, fun fuel _ => by rw [hnone]; rfl, .none⟩
  | some rep =>
      obtain ⟨p, bs₁, bs₂, hp, hat, hrest, hperm⟩ := hall.pick hr
      rw [List.getElem?_map] at hp
      obtain ⟨q, hq, rfl⟩ := Option.map_eq_some_iff.mp hp
      have ho' := ho.perm hperm
      obtain ⟨hnodup, -, hdisj⟩ := List.nodup_append.mp ho'.nodup
      obtain ⟨n, hfree⟩ := RedisReply.At.frees rep (hh.sound hs).null hat hnodup
      refine ⟨n, if rep.allSet then some ⟨{ s.mem with heap := s.mem.heap.without bs₁ },
        s.held.eraseIdx i⟩ else none, fun fuel hfuel => ?_, ?_⟩
      · rw [hq, Option.bind_eq_bind, Option.bind_some, hfree fuel hfuel]
        cases rep.allSet <;> rfl
      rw [Option.bind_eq_bind, Option.bind_some]
      refine rel_ite (fun _ => ?_) (fun _ => .none)
      refine .some ⟨hh.con, hh.grown.without ?_, bs₂, ?_, ho'.without⟩
      · exact fun q hq => (ho'.new q (List.mem_append_left _ hq)).1
      · rw [List.eraseIdx_map] at hrest
        refine RedisReply.AllAt.congr _ hrest (fun q hq => BlockHeap.blocks_without ?_)
        exact fun hm => hdisj q hm q hq rfl

theorem Holds.step (hs : h.Sound) (hh : Holds h v s) (c : ReplyCall) :
    ∃ n x, (∀ fuel, n ≤ fuel → s.step fuel c = x) ∧ Option.Rel (Holds h) (v.step c) x := by
  cases c with
  | read fuel => exact ⟨0, s.read fuel, fun _ _ => rfl, hh.read hs fuel⟩
  | free i => exact hh.free hs i

theorem Holds.run (hs : h.Sound) (hh : Holds h v s) (cs : List ReplyCall) :
    ∃ n x, (∀ fuel, n ≤ fuel → s.run fuel cs = x) ∧ Option.Rel (Holds h) (v.run cs) x := by
  induction cs generalizing v s with
  | nil => exact ⟨0, some s, fun _ _ => rfl, .some hh⟩
  | cons c cs ih =>
      obtain ⟨n, x, hstep, hrel⟩ := hh.step hs c
      unfold ReplyValues.run ReplySession.run
      generalize v.step c = y at hrel
      cases hrel with
      | none =>
          refine ⟨n, none, fun fuel hfuel => ?_, .none⟩
          rw [hstep fuel hfuel]
          rfl
      | some hh' =>
          obtain ⟨n', x, hrun, hrel⟩ := ih hh'
          refine ⟨max n n', x, fun fuel hfuel => ?_, hrel⟩
          rw [hstep fuel (Nat.le_trans (Nat.le_max_left _ _) hfuel), Option.bind_some,
            hrun fuel (Nat.le_trans (Nat.le_max_right _ _) hfuel)]

/-- Nothing but null arrays is left when every reply has been given back. -/
theorem Holds.returned (hs : h.Sound) (hh : Holds h v s) (hwhole : v.whole = true)
    (hheld : v.held = []) (q : Nat) :
    s.mem.heap.blocks q = h.blocks q ∨ h.next ≤ q ∧ Lost s.mem.heap q := by
  obtain ⟨bs, hall, ho⟩ := hh.blocks
  rw [hheld] at hall
  obtain ⟨-, rfl⟩ := hall
  rcases Nat.lt_or_ge q h.next with hlt | hge
  · exact .inl (hh.grown.kept q hlt)
  · by_cases hused : s.mem.heap.blocks q = none
    · exact .inl (hused.trans (hs.beyond q hge).symm)
    · exact .inr ⟨hge, ho.lost hwhole q hge hused List.not_mem_nil⟩

end ReplySession

/-- The calls return in memory as they do on values, whatever the stream and the allocator do. -/
theorem replies_given_back {m : ReplyMemory} (hs : m.heap.Sound) (cs : List ReplyCall) :
    ∃ n x, (∀ fuel, n ≤ fuel → ReplySession.run fuel ⟨m, []⟩ cs = x) ∧
      Option.Rel (fun v s => ReplySession.Holds m.heap v s ∧ (v.whole = true → v.held = [] → ∀ q,
          s.mem.heap.blocks q = m.heap.blocks q ∨ m.heap.next ≤ q ∧ Lost s.mem.heap q))
        (ReplyValues.run ⟨m.con, [], true⟩ cs) x := by
  have hinit : ReplySession.Holds m.heap ⟨m.con, [], true⟩ ⟨m, []⟩ := by
    refine ⟨rfl, hs.grown, [], ⟨rfl, rfl⟩, List.nodup_nil, by simp, ?_⟩
    exact fun _ q hq hused => absurd (hs.beyond q hq) hused
  obtain ⟨n, x, hrun, hrel⟩ := hinit.run hs cs
  refine ⟨n, x, hrun, ?_⟩
  generalize ReplyValues.run _ cs = y at hrel
  cases hrel with
  | none => exact .none
  | some hh => exact .some ⟨hh, hh.returned hs⟩

/-- A number, and then an array with a string and a null array. -/
def numberAndArray : ReplyMemory :=
  ⟨⟨List.replicate 32 0, 0, 0, [.data 58 [49, 13, 10],
      .data 42 [50, 13, 10, 36, 49, 13, 10, 97, 13, 10, 42, 45, 49, 13, 10]], ⟨[], 0, 0⟩, []⟩,
    ⟨fun _ => none, 1⟩⟩

/-- The older reply is given back first. -/
theorem replies_given_back_array : ∃ n s,
    (∀ fuel, n ≤ fuel → ReplySession.run fuel ⟨numberAndArray, []⟩
      [.read 40, .read 40, .free 1, .free 0] = some s) ∧
    s.held = [] ∧ ∀ q, s.mem.heap.blocks q = none ∨ Lost s.mem.heap q := by
  have hvalues : ∃ con, ReplyValues.run ⟨numberAndArray.con, [], true⟩
      [.read 40, .read 40, .free 1, .free 0] = some ⟨con, [], true⟩ := ⟨_, rfl⟩
  obtain ⟨con, hvalues⟩ := hvalues
  obtain ⟨n, x, hrun, hrel⟩ := @replies_given_back numberAndArray
    ⟨rfl, Nat.one_pos, fun _ _ => rfl⟩ [.read 40, .read 40, .free 1, .free 0]
  rw [hvalues] at hrel
  cases hrel with
  | @some _ s h =>
      obtain ⟨⟨-, -, bs, hall, -⟩, hreturned⟩ := h
      refine ⟨n, s, hrun, List.map_eq_nil_iff.mp hall.1, fun q => ?_⟩
      exact (hreturned rfl rfl q).imp_right And.right

end EFramework
