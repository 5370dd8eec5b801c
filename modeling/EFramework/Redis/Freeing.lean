import EFramework.Lib.BlockHeap
import EFramework.Redis.Model

/-! # Freeing a reply

`ef_redis_free_reply` follows the pointers of a reply. A reply that lies in blocks of its
own is given back with exactly these, unless an element of an array has never been set:
then it is freed by a pointer that could lead anywhere.
-/

namespace EFramework

open Lib (BlockHeap)

/-! ## Replies in memory -/

def replyTypeErr : Nat := 1 <<< 0
def replyTypeStr : Nat := 1 <<< 1
def replyTypeLong : Nat := 1 <<< 2
def replyTypeArr : Nat := 1 <<< 3
def replyTypeNull : Nat := 1 <<< 4

/-- The union in `ef_redis_reply_t`. NULL is 0. -/
inductive ReplyUnion where
  | d (n : Int)
  | str (p : Nat)
  | arr (p : Nat)
  | err (p : Nat)
deriving Repr, DecidableEq

/-- What a block holds. What has not been set is `none`, and `raw` is a block in which nothing
has been set. -/
inductive ReplyBlock where
  | raw
  | reply (type : Nat) (reply : Option ReplyUnion)
  | string (buf : Nat) (len : Int)
  | array (num : Nat) (elem : Option Nat)
  | error (type err : Nat)
  | elems (ps : List (Option Nat))
  | bytes (bs : Bytes)
deriving Repr, DecidableEq

abbrev ReplyHeap := BlockHeap ReplyBlock

/-! ## The functions -/

def freeReplyLong (m : ReplyHeap) (rep : Nat) : Option (Int × ReplyHeap) := do
  some (0, ← m.free rep)

def freeReplyStr (m : ReplyHeap) (rep : Nat) : Option (Int × ReplyHeap) :=
  match m.blocks rep with
  | some (.reply _ (some (.str str))) =>
      if str ≠ 0 then
        match m.blocks str with
        | some (.string buf _) => do
            let m ← if buf ≠ 0 then m.free buf else some m
            let m ← m.free str
            some (0, ← m.free rep)
        | _ => none
      else do some (0, ← m.free rep)
  | _ => none

def freeReplyErr (m : ReplyHeap) (rep : Nat) : Option (Int × ReplyHeap) :=
  match m.blocks rep with
  | some (.reply _ (some (.err err))) =>
      if err ≠ 0 then
        match m.blocks err with
        | some (.error type info) => do
            let m ← if type ≠ 0 then m.free type else some m
            let m ← if info ≠ 0 then m.free info else some m
            let m ← m.free err
            some (0, ← m.free rep)
        | _ => none
      else do some (0, ← m.free rep)
  | _ => none

def freeElems (freeReply : ReplyHeap → Nat → Option (Int × ReplyHeap)) (arr : Nat) :
    Nat → Nat → ReplyHeap → Option ReplyHeap
  | 0, _, _ => none
  | fuel + 1, i, m =>
      match m.blocks arr with
      | some (.array num elem) =>
          if i < num then
            match elem.bind m.blocks with
            | some (.elems ps) => do
                let (_, m) ← freeReply m (← ps[i]?.join)
                let _ ← Lib.asInt ((i : Int) + 1)
                freeElems freeReply arr fuel (i + 1) m
            | _ => none
          else some m
      | _ => none

def freeReplyArr (freeReply : ReplyHeap → Nat → Option (Int × ReplyHeap)) (fuel : Nat)
    (m : ReplyHeap) (rep : Nat) : Option (Int × ReplyHeap) :=
  match m.blocks rep with
  | some (.reply _ (some (.arr arr))) =>
      if arr ≠ 0 then do
        let m ← freeElems freeReply arr fuel 0 m
        match m.blocks arr with
        | some (.array _ (some elem)) => do
            let m ← m.free elem
            let m ← m.free arr
            some (0, ← m.free rep)
        | _ => none
      else do some (0, ← m.free rep)
  | _ => none

def efRedisFreeReply : Nat → ReplyHeap → Nat → Option (Int × ReplyHeap)
  | 0, _, _ => none
  | fuel + 1, m, rep =>
      if rep = 0 then some (0, m)
      else
        match m.blocks rep with
        | some (.reply type _) =>
            if type &&& replyTypeNull ≠ 0 then do some (0, ← m.free rep)
            else if type &&& replyTypeLong ≠ 0 then freeReplyLong m rep
            else if type &&& replyTypeStr ≠ 0 then freeReplyStr m rep
            else if type &&& replyTypeErr ≠ 0 then freeReplyErr m rep
            else if type &&& replyTypeArr ≠ 0 then
              freeReplyArr (efRedisFreeReply fuel) fuel m rep
            else some (-1, m)
        | _ => none

/-! ## What a reply consists of -/

mutual

/-- A reply is where a pointer says, in these blocks, in the order in which they are freed. -/
def RedisReply.At (m : Nat → Option ReplyBlock) : RedisReply → Option Nat → List Nat → Prop
  | .nil, p, bs => p = some 0 ∧ bs = []
  | .unset, p, bs => p = none ∧ bs = []
  | .null, p, bs => ∃ rep v, p = some rep ∧ m rep = some (.reply replyTypeNull v) ∧ bs = [rep]
  | .long d, p, bs =>
      ∃ rep, p = some rep ∧ m rep = some (.reply replyTypeLong (some (.d d))) ∧ bs = [rep]
  | .str text len, p, bs =>
      ∃ rep str buf, p = some rep ∧ m rep = some (.reply replyTypeStr (some (.str str))) ∧
        m str = some (.string buf len) ∧ m buf = some (.bytes text) ∧ bs = [buf, str, rep]
  | .arr num elem, p, bs =>
      ∃ rep arr ps e bs', p = some rep ∧ m rep = some (.reply replyTypeArr (some (.arr arr))) ∧
        m arr = some (.array num (some e)) ∧ m e = some (.elems ps) ∧ num = elem.length ∧
        num < 2 ^ 31 ∧ RedisReply.AllAt m elem ps bs' ∧ bs = bs' ++ [e, arr, rep]
  | .err type info, p, bs =>
      ∃ rep err t i, p = some rep ∧ m rep = some (.reply replyTypeErr (some (.err err))) ∧
        m err = some (.error t i) ∧ m t = some (.bytes type) ∧ m i = some (.bytes info) ∧
        bs = [t, i, err, rep]

def RedisReply.AllAt (m : Nat → Option ReplyBlock) :
    List RedisReply → List (Option Nat) → List Nat → Prop
  | [], ps, bs => ps = [] ∧ bs = []
  | r :: rs, ps, bs =>
      ∃ p ps' bs₁ bs₂, ps = p :: ps' ∧ r.At m p bs₁ ∧ RedisReply.AllAt m rs ps' bs₂ ∧
        bs = bs₁ ++ bs₂

end

mutual

/-- Every element of an array has been set. -/
def RedisReply.allSet : RedisReply → Bool
  | .unset => false
  | .arr _ elem => RedisReply.allSetIn elem
  | .nil | .null | .long _ | .str _ _ | .err _ _ => true

def RedisReply.allSetIn : List RedisReply → Bool
  | [] => true
  | r :: rs => r.allSet && RedisReply.allSetIn rs

end

namespace RedisReply

variable {m m' : Nat → Option ReplyBlock} {p : Option Nat} {bs : List Nat} {r : RedisReply}

mutual

/-- Only the blocks of a reply are looked at. -/
theorem At.congr : (r : RedisReply) → {p : Option Nat} → {bs : List Nat} → r.At m p bs →
    (∀ q ∈ bs, m' q = m q) → r.At m' p bs
  | .nil, _, _, hat, _ | .unset, _, _, hat, _ => hat
  | .null, _, _, hat, he => by
      obtain ⟨rep, v, rfl, hrep, rfl⟩ := hat
      exact ⟨rep, v, rfl, (he rep (by simp)).trans hrep, rfl⟩
  | .long d, _, _, hat, he => by
      obtain ⟨rep, rfl, hrep, rfl⟩ := hat
      exact ⟨rep, rfl, (he rep (by simp)).trans hrep, rfl⟩
  | .str text len, _, _, hat, he => by
      obtain ⟨rep, str, buf, rfl, hrep, hstr, hbuf, rfl⟩ := hat
      exact ⟨rep, str, buf, rfl, (he rep (by simp)).trans hrep, (he str (by simp)).trans hstr,
        (he buf (by simp)).trans hbuf, rfl⟩
  | .arr num elem, _, _, hat, he => by
      obtain ⟨rep, arr, ps, e, bs, rfl, hrep, harr, helems, hnum, hlt, hall, rfl⟩ := hat
      exact ⟨rep, arr, ps, e, bs, rfl, (he rep (by simp)).trans hrep,
        (he arr (by simp)).trans harr, (he e (by simp)).trans helems, hnum, hlt,
        AllAt.congr elem hall (fun q hq => he q (List.mem_append_left _ hq)), rfl⟩
  | .err type info, _, _, hat, he => by
      obtain ⟨rep, err, t, i, rfl, hrep, herr, ht, hi, rfl⟩ := hat
      exact ⟨rep, err, t, i, rfl, (he rep (by simp)).trans hrep, (he err (by simp)).trans herr,
        (he t (by simp)).trans ht, (he i (by simp)).trans hi, rfl⟩

theorem AllAt.congr : (rs : List RedisReply) → {ps : List (Option Nat)} → {bs : List Nat} →
    AllAt m rs ps bs → (∀ q ∈ bs, m' q = m q) → AllAt m' rs ps bs
  | [], _, _, hall, _ => hall
  | r :: rs, _, _, hall, he => by
      obtain ⟨p, ps, bs₁, bs₂, rfl, hat, hall, rfl⟩ := hall
      exact ⟨p, ps, bs₁, bs₂, rfl, At.congr r hat (fun q hq => he q (List.mem_append_left _ hq)),
        AllAt.congr rs hall (fun q hq => he q (List.mem_append_right _ hq)), rfl⟩

end

/-- What has no pointer has not been set. -/
theorem At.of_none (h : r.At m none bs) : r = .unset ∧ bs = [] := by
  cases r with
  | unset => exact ⟨rfl, h.2⟩
  | nil => cases h.1
  | null => obtain ⟨_, _, hp, _⟩ := h; cases hp
  | long d => obtain ⟨_, hp, _⟩ := h; cases hp
  | str text len => obtain ⟨_, _, _, hp, _⟩ := h; cases hp
  | arr num elem => obtain ⟨_, _, _, _, _, hp, _⟩ := h; cases hp
  | err type info => obtain ⟨_, _, _, _, hp, _⟩ := h; cases hp

end RedisReply

/-! ## What is freed -/

section

variable {m : ReplyHeap} {rep : Nat} {bs : List Nat}

theorem ne_zero {b : ReplyBlock} (hnull : m.blocks 0 = none) (h : m.blocks rep = some b) :
    rep ≠ 0 := by
  rintro rfl
  cases hnull.symm.trans h

theorem freeReplyStr_eq {str buf : Nat} {text : Bytes} {len : Int} (hnull : m.blocks 0 = none)
    (hrep : m.blocks rep = some (.reply replyTypeStr (some (.str str))))
    (hstr : m.blocks str = some (.string buf len)) (hbuf : m.blocks buf = some (.bytes text))
    (hnodup : [buf, str, rep].Nodup) :
    freeReplyStr m rep = some (0, m.without [buf, str, rep]) := by
  have hstr' : str ∉ [buf] := by
    intro hm
    rw [List.mem_singleton.mp hm] at hnodup
    simp at hnodup
  have hrep' : rep ∉ [buf] ++ [str] := by
    simp only [List.nodup_cons, List.mem_cons, List.not_mem_nil, or_false, not_or] at hnodup
    simpa using ⟨Ne.symm hnodup.1.2, Ne.symm hnodup.2.1⟩
  have h₁ := BlockHeap.free_block hnull hbuf
  have h₂ := BlockHeap.free_next [buf] hnull hstr hstr'
  have h₃ := BlockHeap.free_next ([buf] ++ [str]) hnull hrep hrep'
  unfold freeReplyStr
  rw [hrep]
  dsimp only
  rw [if_pos (ne_zero hnull hstr), hstr]
  dsimp only
  rw [if_pos (ne_zero hnull hbuf), h₁, Option.bind_eq_bind, Option.bind_some, h₂,
    Option.bind_some, h₃]
  rfl

theorem freeReplyErr_eq {err t i : Nat} {type info : Bytes} (hnull : m.blocks 0 = none)
    (hrep : m.blocks rep = some (.reply replyTypeErr (some (.err err))))
    (herr : m.blocks err = some (.error t i)) (ht : m.blocks t = some (.bytes type))
    (hi : m.blocks i = some (.bytes info)) (hnodup : [t, i, err, rep].Nodup) :
    freeReplyErr m rep = some (0, m.without [t, i, err, rep]) := by
  simp only [List.nodup_cons, List.mem_cons, List.not_mem_nil, or_false, not_or] at hnodup
  obtain ⟨⟨hti, hte, htr⟩, ⟨hie, hir⟩, her, -⟩ := hnodup
  have h₁ := BlockHeap.free_block hnull ht
  have h₂ := BlockHeap.free_next [t] hnull hi (by simpa using Ne.symm hti)
  have h₃ := BlockHeap.free_next ([t] ++ [i]) hnull herr
    (by simpa using ⟨Ne.symm hte, Ne.symm hie⟩)
  have h₄ := BlockHeap.free_next ([t] ++ [i] ++ [err]) hnull hrep
    (by simpa using ⟨Ne.symm htr, Ne.symm hir, Ne.symm her⟩)
  unfold freeReplyErr
  rw [hrep]
  dsimp only
  rw [if_pos (ne_zero hnull herr), herr]
  dsimp only
  rw [if_pos (ne_zero hnull ht), h₁, Option.bind_eq_bind, Option.bind_some,
    if_pos (ne_zero hnull hi), h₂, Option.bind_some, h₃, Option.bind_some, h₄]
  rfl

theorem freeReplyArr_eq {freeReply : ReplyHeap → Nat → Option (Int × ReplyHeap)}
    {fuel num arr e : Nat} {ps : List (Option Nat)} (hnull : m.blocks 0 = none)
    (hrep : m.blocks rep = some (.reply replyTypeArr (some (.arr arr))))
    (harr : m.blocks arr = some (.array num (some e))) (he : m.blocks e = some (.elems ps))
    (hnodup : (bs ++ [e, arr, rep]).Nodup)
    (hfree : freeElems freeReply arr fuel 0 m = some (m.without bs)) :
    freeReplyArr freeReply fuel m rep = some (0, m.without (bs ++ [e, arr, rep])) := by
  obtain ⟨-, hown, hdisj⟩ := List.nodup_append.mp hnodup
  simp only [List.nodup_cons, List.mem_cons, List.not_mem_nil, or_false, not_or] at hown
  obtain ⟨⟨hea, her⟩, har, -⟩ := hown
  have hnot : ∀ p ∈ [e, arr, rep], p ∉ bs := fun p hp hm => hdisj p hm p hp rfl
  have hebs : e ∉ bs := hnot e (by simp)
  have habs : arr ∉ bs := hnot arr (by simp)
  have hrbs : rep ∉ bs := hnot rep (by simp)
  have h₁ := BlockHeap.free_next bs hnull he hebs
  have h₂ := BlockHeap.free_next (bs ++ [e]) hnull harr (by simp [habs, Ne.symm hea])
  have h₃ := BlockHeap.free_next (bs ++ [e] ++ [arr]) hnull hrep
    (by simp [hrbs, Ne.symm her, Ne.symm har])
  have harr' : (m.without bs).blocks arr = some (.array num (some e)) :=
    (BlockHeap.blocks_without habs).trans harr
  unfold freeReplyArr
  rw [hrep]
  dsimp only
  rw [if_pos (ne_zero hnull harr), hfree, Option.bind_eq_bind, Option.bind_some, harr']
  dsimp only
  rw [h₁, Option.bind_some, h₂, Option.bind_some, h₃, List.append_assoc, List.append_assoc]
  rfl

theorem freeElems_succ {freeReply : ReplyHeap → Nat → Option (Int × ReplyHeap)}
    {fuel num arr e i : Nat} {ps : List (Option Nat)}
    (harr : m.blocks arr = some (.array num (some e))) (he : m.blocks e = some (.elems ps))
    (hi : i < num) (hnum : num < 2 ^ 31) :
    freeElems freeReply arr (fuel + 1) i m =
      ps[i]?.join.bind (fun p => (freeReply m p).bind (fun r =>
        freeElems freeReply arr fuel (i + 1) r.2)) := by
  have hint : Lib.asInt ((i : Int) + 1) = some ((i : Int) + 1) :=
    Lib.asInt_eq (by omega) (by omega)
  rw [freeElems, harr]
  dsimp only
  rw [if_pos hi, Option.bind_some, he]
  dsimp only
  rw [hint]
  rfl

end

mutual

/-- A reply gives back its blocks, and no others. With an element that has not been set there is
no result. -/
theorem RedisReply.At.frees : (r : RedisReply) → {m : ReplyHeap} → {rep : Nat} → {bs : List Nat} →
    m.blocks 0 = none → r.At m.blocks (some rep) bs → bs.Nodup →
    ∃ n, ∀ fuel, n ≤ fuel →
      efRedisFreeReply fuel m rep = if r.allSet then some (0, m.without bs) else none
  | .nil, m, _, _, _, hat, _ => by
      obtain ⟨hp, rfl⟩ := hat
      cases hp
      refine ⟨1, fun fuel hfuel => ?_⟩
      obtain ⟨fuel, rfl⟩ := Nat.exists_eq_add_of_le' hfuel
      rw [BlockHeap.without_nil]
      rfl
  | .unset, _, _, _, _, hat, _ => by cases hat.1
  | .null, m, rep, _, hnull, hat, _ => by
      obtain ⟨rep', v, hp, hrep, rfl⟩ := hat
      obtain rfl := Option.some.inj hp
      refine ⟨1, fun fuel hfuel => ?_⟩
      obtain ⟨fuel, rfl⟩ := Nat.exists_eq_add_of_le' hfuel
      rw [efRedisFreeReply, if_neg (ne_zero hnull hrep), hrep]
      dsimp only
      rw [if_pos (by decide), BlockHeap.free_block hnull hrep]
      rfl
  | .long d, m, rep, _, hnull, hat, _ => by
      obtain ⟨rep', hp, hrep, rfl⟩ := hat
      obtain rfl := Option.some.inj hp
      refine ⟨1, fun fuel hfuel => ?_⟩
      obtain ⟨fuel, rfl⟩ := Nat.exists_eq_add_of_le' hfuel
      rw [efRedisFreeReply, if_neg (ne_zero hnull hrep), hrep]
      dsimp only
      rw [if_neg (by decide), if_pos (by decide), freeReplyLong, BlockHeap.free_block hnull hrep]
      rfl
  | .str text len, m, rep, _, hnull, hat, hnodup => by
      obtain ⟨rep', str, buf, hp, hrep, hstr, hbuf, rfl⟩ := hat
      obtain rfl := Option.some.inj hp
      refine ⟨1, fun fuel hfuel => ?_⟩
      obtain ⟨fuel, rfl⟩ := Nat.exists_eq_add_of_le' hfuel
      rw [efRedisFreeReply, if_neg (ne_zero hnull hrep), hrep]
      dsimp only
      rw [if_neg (by decide), if_neg (by decide), if_pos (by decide),
        freeReplyStr_eq hnull hrep hstr hbuf hnodup]
      rfl
  | .err type info, m, rep, _, hnull, hat, hnodup => by
      obtain ⟨rep', err, t, i, hp, hrep, herr, ht, hi, rfl⟩ := hat
      obtain rfl := Option.some.inj hp
      refine ⟨1, fun fuel hfuel => ?_⟩
      obtain ⟨fuel, rfl⟩ := Nat.exists_eq_add_of_le' hfuel
      rw [efRedisFreeReply, if_neg (ne_zero hnull hrep), hrep]
      dsimp only
      rw [if_neg (by decide), if_neg (by decide), if_neg (by decide), if_pos (by decide),
        freeReplyErr_eq hnull hrep herr ht hi hnodup]
      rfl
  | .arr num elem, m, rep, _, hnull, hat, hnodup => by
      obtain ⟨rep', arr, ps, e, bs, hp, hrep, harr, he, rfl, hlt, hall, rfl⟩ := hat
      obtain rfl := Option.some.inj hp
      obtain ⟨hbs, -, hdisj⟩ := List.nodup_append.mp hnodup
      have hnot : ∀ p ∈ [e, arr, rep], p ∉ bs := fun p hp hm => hdisj p hm p hp rfl
      obtain ⟨n, hn⟩ := AllAt.frees elem [] ps hnull (by simpa using harr) (by simpa using he)
        (by simpa using hlt) hall hbs (hnot arr (by simp)) (hnot e (by simp))
      refine ⟨n + 1, fun fuel hfuel => ?_⟩
      obtain ⟨fuel, rfl⟩ := Nat.exists_eq_add_of_le' (Nat.le_of_add_left_le hfuel)
      have hloop := hn fuel fuel (by omega) (by omega)
      rw [efRedisFreeReply, if_neg (ne_zero hnull hrep), hrep]
      dsimp only
      rw [if_neg (by decide), if_neg (by decide), if_neg (by decide), if_neg (by decide),
        if_pos (by decide)]
      change freeReplyArr _ _ _ _ = if RedisReply.allSetIn elem then _ else _
      by_cases hset : RedisReply.allSetIn elem = true
      · rw [if_pos hset] at hloop ⊢
        exact freeReplyArr_eq hnull hrep harr he hnodup hloop
      · rw [if_neg hset] at hloop ⊢
        unfold freeReplyArr
        rw [hrep]
        dsimp only
        rw [if_pos (ne_zero hnull harr), show freeElems _ _ _ 0 m = none from hloop]
        rfl

theorem RedisReply.AllAt.frees : (rs : List RedisReply) → (pre ps : List (Option Nat)) →
    {m : ReplyHeap} → {bs : List Nat} → {a e : Nat} → m.blocks 0 = none →
    m.blocks a = some (.array (pre.length + rs.length) (some e)) →
    m.blocks e = some (.elems (pre ++ ps)) → pre.length + rs.length < 2 ^ 31 →
    RedisReply.AllAt m.blocks rs ps bs → bs.Nodup → a ∉ bs → e ∉ bs →
    ∃ n, ∀ k fuel, n ≤ k → n ≤ fuel →
      freeElems (efRedisFreeReply k) a fuel pre.length m =
        if RedisReply.allSetIn rs then some (m.without bs) else none
  | [], pre, ps, m, _, a, e, _, harr, _, _, hall, _, _, _ => by
      obtain ⟨-, rfl⟩ := hall
      refine ⟨1, fun k fuel _ hfuel => ?_⟩
      obtain ⟨fuel, rfl⟩ := Nat.exists_eq_add_of_le' hfuel
      rw [freeElems, harr]
      dsimp only
      rw [if_neg (by simp), BlockHeap.without_nil]
      rfl
  | r :: rs, pre, _, m, _, a, e, hnull, harr, he, hlt, hall, hnodup, harr', he' => by
      obtain ⟨p, ps, bs₁, bs₂, rfl, hat, hall, rfl⟩ := hall
      obtain ⟨hbs₁, hbs₂, hdisj⟩ := List.nodup_append.mp hnodup
      rw [List.mem_append, not_or] at harr' he'
      have hi : pre.length < pre.length + (r :: rs).length := by simp
      have hget : (pre ++ p :: ps)[pre.length]?.join = p := by simp
      cases p with
      | none =>
          obtain ⟨rfl, -⟩ := hat.of_none
          refine ⟨1, fun k fuel _ hfuel => ?_⟩
          obtain ⟨fuel, rfl⟩ := Nat.exists_eq_add_of_le' hfuel
          rw [freeElems_succ harr he hi hlt, hget]
          rfl
      | some rep =>
          obtain ⟨n₁, hn₁⟩ := RedisReply.At.frees r hnull hat hbs₁
          have hkept : ∀ q ∈ bs₂, (m.without bs₁).blocks q = m.blocks q := fun q hq =>
            BlockHeap.blocks_without (fun hm => hdisj q hm q hq rfl)
          have hnull' : (m.without bs₁).blocks 0 = none := by
            by_cases hm : 0 ∈ bs₁
            · exact BlockHeap.without_mem hm
            · exact (BlockHeap.blocks_without hm).trans hnull
          obtain ⟨n₂, hn₂⟩ := RedisReply.AllAt.frees rs (pre ++ [some rep]) ps
            (m := m.without bs₁) (a := a) (e := e) hnull'
            (by rw [BlockHeap.blocks_without harr'.1, harr]; simp; omega)
            (by rw [BlockHeap.blocks_without he'.1, he]; simp)
            (by simpa [Nat.add_assoc, Nat.add_comm 1] using hlt)
            (RedisReply.AllAt.congr rs hall hkept) hbs₂ harr'.2 he'.2
          refine ⟨n₁ + n₂ + 1, fun k fuel hk hfuel => ?_⟩
          obtain ⟨fuel, rfl⟩ := Nat.exists_eq_add_of_le' (Nat.le_of_add_left_le hfuel)
          rw [freeElems_succ harr he hi hlt, hget, Option.bind_some, hn₁ k (by omega)]
          change _ = if r.allSet && RedisReply.allSetIn rs then _ else _
          cases r.allSet with
          | false => rfl
          | true =>
              have hrest := hn₂ k fuel (by omega) (by omega)
              rw [List.length_append, List.length_singleton] at hrest
              rw [if_pos rfl, Option.bind_some, hrest, BlockHeap.without_append, Bool.true_and]

end

end EFramework
