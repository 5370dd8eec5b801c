import Mathlib.Data.List.Nodup

/-! # Circular doubly linked lists

A ring is a finite list of nodes behind a head, linked forwards and backwards with the
head on both ends. The links are two maps and the list is a ghost. A path is a stretch
of a ring; a path is changed only at the links between two of its neighbours, and the
rules for putting a node between them and for taking one out say which links these are.
-/

namespace EFramework.Lib

variable {α : Type}

/-- The links lead from `a` over the nodes of a list to `b`, and back. -/
def Path (next prev : α → α) : α → List α → α → Prop
  | a, [], b => next a = b ∧ prev b = a
  | a, x :: l, b => next a = x ∧ prev x = a ∧ Path next prev x l b

/-- The node before a place in a list behind `a`. -/
def lastFrom (a : α) (l : List α) : α := (a :: l).getLast (List.cons_ne_nil a l)

/-- The node behind a place in a list before `b`. -/
def firstTo (l : List α) (b : α) : α := l.headD b

@[simp] theorem lastFrom_nil (a : α) : lastFrom a [] = a := rfl

@[simp] theorem lastFrom_cons (a x : α) (l : List α) : lastFrom a (x :: l) = lastFrom x l :=
  List.getLast_cons (List.cons_ne_nil x l)

@[simp] theorem lastFrom_append_cons (a x : α) (l r : List α) :
    lastFrom a (l ++ x :: r) = lastFrom x r := by
  induction l generalizing a with
  | nil => exact lastFrom_cons a x r
  | cons y l ih => rw [List.cons_append, lastFrom_cons, ih]

@[simp] theorem firstTo_nil (b : α) : firstTo [] b = b := rfl

@[simp] theorem firstTo_cons (x : α) (l : List α) (b : α) : firstTo (x :: l) b = x := rfl

theorem lastFrom_mem (a : α) (l : List α) : lastFrom a l ∈ a :: l := List.getLast_mem _

theorem firstTo_mem (l : List α) (b : α) : firstTo l b ∈ l ++ [b] := by
  cases l <;> simp

namespace Path

variable {next prev next' prev' : α → α} {a b x : α} {l r : List α}

/-- Frame rule: only the links along the path matter. -/
theorem congr (h : Path next prev a l b) (hnext : ∀ y ∈ a :: l, next' y = next y)
    (hprev : ∀ y ∈ l ++ [b], prev' y = prev y) : Path next' prev' a l b := by
  induction l generalizing a with
  | nil =>
      obtain ⟨h₁, h₂⟩ := h
      exact ⟨(hnext a List.mem_cons_self).trans h₁, (hprev b List.mem_cons_self).trans h₂⟩
  | cons x l ih =>
      obtain ⟨h₁, h₂, h⟩ := h
      exact ⟨(hnext a List.mem_cons_self).trans h₁, (hprev x List.mem_cons_self).trans h₂,
        ih h (fun y hy => hnext y (List.mem_cons_of_mem a hy))
          (fun y hy => hprev y (List.mem_cons_of_mem x hy))⟩

theorem links (h : Path next prev a (l ++ r) b) :
    next (lastFrom a l) = firstTo r b ∧ prev (firstTo r b) = lastFrom a l := by
  induction l generalizing a with
  | nil =>
      cases r with
      | nil => exact h
      | cons x r => exact ⟨h.1, h.2.1⟩
  | cons x l ih =>
      rw [lastFrom_cons]
      exact ih h.2.2

/-- The nodes of a path are distinct, and its end is not one of those between. -/
structure Simple (a : α) (l : List α) (b : α) : Prop where
  nodup : (a :: l).Nodup
  end_not_mem : b ∉ l

theorem Simple.tail (h : Simple a (x :: l) b) : Simple x l b :=
  ⟨(List.nodup_cons.mp h.nodup).2, fun hb => h.end_not_mem (List.mem_cons_of_mem x hb)⟩

theorem Simple.ne_start (h : Simple a l b) : ∀ y ∈ l, y ≠ a :=
  fun _ hy hya => (List.nodup_cons.mp h.nodup).1 (hya ▸ hy)

theorem Simple.ne_first (h : Simple a (x :: l) b) : ∀ y ∈ l ++ [b], y ≠ x := by
  intro y hy hyx
  rw [hyx, List.mem_append, List.mem_singleton] at hy
  rcases hy with hy | rfl
  · exact (List.nodup_cons.mp h.tail.nodup).1 hy
  · exact h.end_not_mem List.mem_cons_self

theorem Simple.ne_links (h : Simple a (x :: (l ++ r)) b) :
    a ≠ lastFrom x l ∧ x ≠ firstTo r b := by
  constructor
  · refine (h.ne_start _ ?_).symm
    rw [← List.cons_append]
    exact List.mem_append_left r (lastFrom_mem x l)
  · refine (h.ne_first _ ?_).symm
    rw [List.append_assoc]
    exact List.mem_append_right l (firstTo_mem r b)

theorem insert (h : Path next prev a (l ++ r) b) (hs : Simple a (l ++ r) b)
    (hnext : ∀ y ∈ a :: (l ++ r), y ≠ lastFrom a l → next' y = next y)
    (hprev : ∀ y ∈ l ++ r ++ [b], y ≠ firstTo r b → prev' y = prev y)
    (hp : next' (lastFrom a l) = x ∧ prev' x = lastFrom a l)
    (hn : next' x = firstTo r b ∧ prev' (firstTo r b) = x) :
    Path next' prev' a (l ++ x :: r) b := by
  induction l generalizing a with
  | nil =>
      refine ⟨hp.1, hp.2, ?_⟩
      cases r with
      | nil => exact hn
      | cons y r =>
          exact ⟨hn.1, hn.2, h.2.2.congr
            (fun z hz => hnext z (List.mem_cons_of_mem a hz) (hs.ne_start z hz))
            (fun z hz => hprev z (List.mem_cons_of_mem y hz) (hs.ne_first z hz))⟩
  | cons y l ih =>
      obtain ⟨ha, hy⟩ := hs.ne_links
      rw [lastFrom_cons] at hnext hp
      obtain ⟨h₁, h₂, h⟩ := h
      refine ⟨(hnext a List.mem_cons_self ha).trans h₁,
        (hprev y List.mem_cons_self hy).trans h₂, ih h hs.tail ?_ ?_ hp⟩
      · exact fun z hz => hnext z (List.mem_cons_of_mem a hz)
      · exact fun z hz => hprev z (List.mem_cons_of_mem y hz)

theorem remove (h : Path next prev a (l ++ x :: r) b) (hs : Simple a (l ++ x :: r) b)
    (hnext : ∀ y ∈ a :: (l ++ r), y ≠ lastFrom a l → next' y = next y)
    (hprev : ∀ y ∈ l ++ r ++ [b], y ≠ firstTo r b → prev' y = prev y)
    (hlink : next' (lastFrom a l) = firstTo r b ∧ prev' (firstTo r b) = lastFrom a l) :
    Path next' prev' a (l ++ r) b := by
  induction l generalizing a with
  | nil =>
      obtain ⟨-, -, h⟩ := h
      cases r with
      | nil => exact hlink
      | cons y r =>
          exact ⟨hlink.1, hlink.2, h.2.2.congr
            (fun z hz => hnext z (List.mem_cons_of_mem a hz)
              (hs.ne_start z (List.mem_cons_of_mem x hz)))
            (fun z hz => hprev z (List.mem_cons_of_mem y hz) (hs.tail.ne_first z hz))⟩
  | cons y l ih =>
      have hs' : Simple a (y :: (l ++ r)) b := by
        refine ⟨hs.nodup.sublist ?_, fun hb => hs.end_not_mem ?_⟩
        · exact ((List.sublist_cons_self x r).append_left (y :: l)).cons_cons a
        · exact ((List.sublist_cons_self x r).append_left (y :: l)).subset hb
      obtain ⟨ha, hy⟩ := hs'.ne_links
      rw [lastFrom_cons] at hnext hlink
      obtain ⟨h₁, h₂, h⟩ := h
      refine ⟨(hnext a List.mem_cons_self ha).trans h₁,
        (hprev y List.mem_cons_self hy).trans h₂, ih h hs.tail ?_ ?_ hlink⟩
      · exact fun z hz => hnext z (List.mem_cons_of_mem a hz)
      · exact fun z hz => hprev z (List.mem_cons_of_mem y hz)

end Path

/-- The nodes behind a head, in their order. -/
structure Ring (next prev : α → α) (head : α) (l : List α) : Prop where
  nodup : (head :: l).Nodup
  path : Path next prev head l head

theorem Ring.simple {next prev : α → α} {head : α} {l : List α} (h : Ring next prev head l) :
    Path.Simple head l head :=
  ⟨h.nodup, (List.nodup_cons.mp h.nodup).1⟩

theorem Ring.congr {next prev next' prev' : α → α} {head : α} {l : List α}
    (h : Ring next prev head l) (hnext : ∀ y ∈ head :: l, next' y = next y)
    (hprev : ∀ y ∈ head :: l, prev' y = prev y) : Ring next' prev' head l := by
  refine ⟨h.nodup, h.path.congr hnext (fun y hy => hprev y ?_)⟩
  rw [List.mem_append, List.mem_singleton] at hy
  rcases hy with hy | rfl
  · exact List.mem_cons_of_mem head hy
  · exact List.mem_cons_self

end EFramework.Lib
