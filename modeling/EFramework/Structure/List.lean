import EFramework.Lib.Ring

/-! # Intrusive lists

The lists of `list.h` are rings of entries that lie in other structures. An operation is
a few assignments to fields of entries that may coincide, so each one is followed in
memory. Over a list it does what the same operation does to the sequence of its entries,
and nothing to lists that share no entry with it.
-/

namespace EFramework

open Lib (Ring Path lastFrom firstTo)

/-! ## `list.h` -/

/-- `ef_list_entry_t`, with pointers in `α`. -/
structure EfListEntry (α : Type) where
  prev : α
  next : α
deriving Repr, DecidableEq

abbrev Entries (α : Type) := α → EfListEntry α

section Code

variable {α : Type} [DecidableEq α]

def Entries.setPrev (m : Entries α) (a p : α) : Entries α :=
  Function.update m a { m a with prev := p }

def Entries.setNext (m : Entries α) (a n : α) : Entries α :=
  Function.update m a { m a with next := n }

def efListEmpty (m : Entries α) (head : α) : Bool := (m head).next = head

def efListInit (m : Entries α) (head : α) : Entries α := (m.setPrev head head).setNext head head

def efListRemove (m : Entries α) (entry : α) : Entries α :=
  let m := m.setPrev (m entry).next (m entry).prev
  m.setNext (m entry).prev (m entry).next

def efListInsertBefore (m : Entries α) (current entry : α) : Entries α :=
  let m := m.setNext entry current
  let m := m.setNext (m current).prev entry
  let m := m.setPrev entry (m current).prev
  m.setPrev current entry

def efListInsertAfter (m : Entries α) (current entry : α) : Entries α :=
  let m := m.setNext entry (m current).next
  let m := m.setNext current entry
  let m := m.setPrev entry current
  m.setPrev (m entry).next entry

def efListRemoveBefore (m : Entries α) (current : α) : Option α × Entries α :=
  if efListEmpty m current then (none, m)
  else
    let entry := (m current).prev
    let m := m.setPrev current (m entry).prev
    let m := m.setNext (m current).prev current
    (some entry, m)

def efListRemoveAfter (m : Entries α) (current : α) : Option α × Entries α :=
  if efListEmpty m current then (none, m)
  else
    let entry := (m current).next
    let m := m.setNext current (m entry).next
    let m := m.setPrev (m current).next current
    (some entry, m)

end Code

/-! ## Operations on a sequence -/

inductive ListOp (α : Type) where
  | insertBefore (current entry : α)
  | insertAfter (current entry : α)
  | remove (entry : α)
  | removeBefore
  | removeAfter
deriving Repr, DecidableEq

section Operations

variable {α : Type} [DecidableEq α]

def putBefore (current entry : α) : List α → List α
  | [] => [entry]
  | x :: l => if x = current then entry :: x :: l else x :: putBefore current entry l

def putAfter (current entry : α) : List α → List α
  | [] => []
  | x :: l => if x = current then x :: entry :: l else x :: putAfter current entry l

namespace ListOp

def exec (op : ListOp α) (head : α) (m : Entries α) : Option α × Entries α :=
  match op with
  | insertBefore current entry => (none, efListInsertBefore m current entry)
  | insertAfter current entry => (none, efListInsertAfter m current entry)
  | remove entry => (none, efListRemove m entry)
  | removeBefore => efListRemoveBefore m head
  | removeAfter => efListRemoveAfter m head

def apply (op : ListOp α) (head : α) (l : List α) : Option α × List α :=
  match op with
  | insertBefore current entry => (none, putBefore current entry l)
  | insertAfter current entry => (none, (putAfter current entry (head :: l)).tail)
  | remove entry => (none, l.erase entry)
  | removeBefore => (l.getLast?, l.dropLast)
  | removeAfter => (l.head?, l.tail)

def Fits (op : ListOp α) (head : α) (l : List α) : Prop :=
  match op with
  | insertBefore current entry | insertAfter current entry =>
      current ∈ head :: l ∧ entry ∉ head :: l
  | remove entry => entry ∈ l
  | removeBefore | removeAfter => True

def added (op : ListOp α) : List α :=
  match op with
  | insertBefore _ entry | insertAfter _ entry => [entry]
  | _ => []

end ListOp

def IsList (m : Entries α) (head : α) (l : List α) : Prop :=
  Ring (fun a => (m a).next) (fun a => (m a).prev) head l

end Operations

/-! ## Memory behind an operation -/

section Memory

variable {α : Type} [DecidableEq α] {m m' : Entries α} {head current entry : α} {l r : List α}

@[simp] theorem Entries.next_setNext (m : Entries α) (a n b : α) :
    (m.setNext a n b).next = if b = a then n else (m b).next := by
  unfold Entries.setNext
  rw [Function.update_apply]
  split <;> rfl

@[simp] theorem Entries.prev_setNext (m : Entries α) (a n b : α) :
    (m.setNext a n b).prev = (m b).prev := by
  unfold Entries.setNext
  rw [Function.update_apply]
  split
  next h => rw [h]
  next => rfl

@[simp] theorem Entries.prev_setPrev (m : Entries α) (a p b : α) :
    (m.setPrev a p b).prev = if b = a then p else (m b).prev := by
  unfold Entries.setPrev
  rw [Function.update_apply]
  split <;> rfl

@[simp] theorem Entries.next_setPrev (m : Entries α) (a p b : α) :
    (m.setPrev a p b).next = (m b).next := by
  unfold Entries.setPrev
  rw [Function.update_apply]
  split
  next h => rw [h]
  next => rfl

/-- Two nodes are linked with each other, and no other link is changed. -/
structure Linked (m m' : Entries α) (p n : α) : Prop where
  next : (m' p).next = n
  prev : (m' n).prev = p
  next_eq : ∀ y, y ≠ p → (m' y).next = (m y).next
  prev_eq : ∀ y, y ≠ n → (m' y).prev = (m y).prev

/-- A node is linked between two others, and no other link is changed. -/
structure LinkedIn (m m' : Entries α) (p entry n : α) : Prop where
  next : (m' p).next = entry
  prev : (m' entry).prev = p
  next_entry : (m' entry).next = n
  prev_entry : (m' n).prev = entry
  next_eq : ∀ y, y ≠ p → y ≠ entry → (m' y).next = (m y).next
  prev_eq : ∀ y, y ≠ n → y ≠ entry → (m' y).prev = (m y).prev

theorem efListInsertBefore_linked (hne : entry ≠ current) (hprev : entry ≠ (m current).prev) :
    LinkedIn m (efListInsertBefore m current entry) (m current).prev entry current := by
  constructor <;> simp +contextual [efListInsertBefore, hne, hprev]

theorem efListInsertAfter_linked (hne : entry ≠ current) (hnext : entry ≠ (m current).next) :
    LinkedIn m (efListInsertAfter m current entry) current entry (m current).next := by
  constructor <;> simp +contextual [efListInsertAfter, hne, hnext]

theorem efListRemove_linked (hne : entry ≠ (m entry).next) :
    Linked m (efListRemove m entry) (m entry).prev (m entry).next := by
  constructor <;> simp +contextual [efListRemove, hne]

theorem efListRemoveBefore_linked (h : efListEmpty m current = false) :
    (efListRemoveBefore m current).1 = some (m current).prev ∧
      Linked m (efListRemoveBefore m current).2 (m (m current).prev).prev current := by
  unfold efListRemoveBefore
  rw [h]
  exact ⟨rfl, by constructor <;> simp +contextual⟩

theorem efListRemoveAfter_linked (h : efListEmpty m current = false) :
    (efListRemoveAfter m current).1 = some (m current).next ∧
      Linked m (efListRemoveAfter m current).2 current (m (m current).next).next := by
  unfold efListRemoveAfter
  rw [h]
  exact ⟨rfl, by constructor <;> simp +contextual⟩

end Memory

/-! ## Lists behind an operation -/

section Links

variable {α : Type} {m m' : Entries α} {head entry : α} {l r : List α}

theorem IsList.next_eq (h : IsList m head (l ++ r)) :
    (m (lastFrom head l)).next = firstTo r head :=
  (Path.links h.path).1

theorem IsList.prev_eq (h : IsList m head (l ++ r)) :
    (m (firstTo r head)).prev = lastFrom head l :=
  (Path.links h.path).2

theorem IsList.insert (h : IsList m head (l ++ r)) (hentry : entry ∉ head :: (l ++ r))
    (hm : LinkedIn m m' (lastFrom head l) entry (firstTo r head)) :
    IsList m' head (l ++ entry :: r) := by
  have hne : ∀ y ∈ head :: (l ++ r), y ≠ entry := fun y hy hye => hentry (hye ▸ hy)
  refine ⟨?_, Path.insert h.path h.simple (fun y hy hyp => hm.next_eq y hyp (hne y hy)) ?_
    ⟨hm.next, hm.prev⟩ ⟨hm.next_entry, hm.prev_entry⟩⟩
  · have hperm : (head :: (l ++ entry :: r)).Perm (entry :: head :: (l ++ r)) :=
      (List.perm_middle.cons head).trans (.swap entry head (l ++ r))
    exact hperm.nodup_iff.mpr (List.nodup_cons.mpr ⟨hentry, h.nodup⟩)
  · intro y hy hyn
    refine hm.prev_eq y hyn (hne y ?_)
    rw [List.mem_append, List.mem_singleton, or_comm] at hy
    exact List.mem_cons.mpr hy

theorem IsList.unlink (h : IsList m head (l ++ entry :: r))
    (hm : Linked m m' (lastFrom head l) (firstTo r head)) : IsList m' head (l ++ r) := by
  refine ⟨h.nodup.sublist (((List.sublist_cons_self entry r).append_left l).cons_cons head),
    Path.remove h.path h.simple (fun y _ => hm.next_eq y) (fun y _ => hm.prev_eq y)
      ⟨hm.next, hm.prev⟩⟩

/-- A list that has none of the nodes that were linked. -/
theorem IsList.of_linkedIn {p n : α} (h : IsList m head l) (hm : LinkedIn m m' p entry n)
    (hdisjoint : ∀ y ∈ head :: l, y ≠ p ∧ y ≠ entry ∧ y ≠ n) : IsList m' head l :=
  h.congr (fun y hy => hm.next_eq y (hdisjoint y hy).1 (hdisjoint y hy).2.1)
    (fun y hy => hm.prev_eq y (hdisjoint y hy).2.2 (hdisjoint y hy).2.1)

theorem IsList.of_linked {p n : α} (h : IsList m head l) (hm : Linked m m' p n)
    (hdisjoint : ∀ y ∈ head :: l, y ≠ p ∧ y ≠ n) : IsList m' head l :=
  h.congr (fun y hy => hm.next_eq y (hdisjoint y hy).1)
    (fun y hy => hm.prev_eq y (hdisjoint y hy).2)

theorem IsList.member (h : IsList m head (l ++ entry :: r)) :
    (m entry).prev = lastFrom head l ∧ (m entry).next = firstTo r head ∧
      entry ≠ firstTo r head := by
  have hnext : IsList m head ((l ++ [entry]) ++ r) := by
    rw [List.append_assoc]
    exact h
  refine ⟨h.prev_eq, ?_, fun hentry => ?_⟩
  · have := hnext.next_eq
    rwa [Lib.lastFrom_append_cons, Lib.lastFrom_nil] at this
  · have hmem := Lib.firstTo_mem r head
    rw [← hentry, List.mem_append, List.mem_singleton] at hmem
    have hnodup := h.nodup
    simp only [List.nodup_cons, List.mem_append, List.mem_cons, List.nodup_append, not_or] at hnodup
    rcases hmem with hmem | rfl
    · exact hnodup.2.2.1.1 hmem
    · exact hnodup.1.2.1 rfl

/-- What an operation does to the list of its head, and to another one. -/
structure Does (m m' : Entries α) (head : α) (l l' added : List α) : Prop where
  list : IsList m' head l'
  other : ∀ {head' : α} {es : List α}, IsList m head' es →
    (∀ y ∈ head' :: es, y ∉ head :: l ∧ y ∉ added) → IsList m' head' es

theorem IsList.does_insert (h : IsList m head (l ++ r)) (hentry : entry ∉ head :: (l ++ r))
    (hm : LinkedIn m m' (lastFrom head l) entry (firstTo r head)) :
    Does m m' head (l ++ r) (l ++ entry :: r) [entry] where
  list := h.insert hentry hm
  other := by
    intro head' es hes hdisjoint
    refine hes.of_linkedIn hm (fun y hy => ?_)
    obtain ⟨hy, hadded⟩ := hdisjoint y hy
    refine ⟨fun hyp => hy ?_, fun hye => hadded (List.mem_singleton.mpr hye), fun hyn => hy ?_⟩
    · rw [hyp, ← List.cons_append]
      exact List.mem_append_left r (Lib.lastFrom_mem head l)
    · have hmem := Lib.firstTo_mem r head
      rw [← hyn, List.mem_append, List.mem_singleton] at hmem
      exact List.mem_cons.mpr (hmem.symm.imp_right (List.mem_append_right l))

theorem IsList.does_unlink (h : IsList m head (l ++ entry :: r))
    (hm : Linked m m' (lastFrom head l) (firstTo r head)) :
    Does m m' head (l ++ entry :: r) (l ++ r) [] where
  list := h.unlink hm
  other := by
    intro head' es hes hdisjoint
    refine hes.of_linked hm (fun y hy => ?_)
    obtain ⟨hy, -⟩ := hdisjoint y hy
    refine ⟨fun hyp => hy ?_, fun hyn => hy ?_⟩
    · rw [hyp, ← List.cons_append]
      exact List.mem_append_left _ (Lib.lastFrom_mem head l)
    · have hmem := Lib.firstTo_mem r head
      rw [← hyn, List.mem_append, List.mem_singleton] at hmem
      exact List.mem_cons.mpr (hmem.symm.imp_right
        (fun h => List.mem_append_right l (List.mem_cons_of_mem entry h)))

end Links

/-! ## The operations on a list -/

section Spec

variable {α : Type} [DecidableEq α] {m : Entries α} {head current entry : α} {l : List α}

theorem putBefore_eq (hcurrent : current ∈ head :: l) : ∃ front back, l = front ++ back ∧
    firstTo back head = current ∧ putBefore current entry l = front ++ entry :: back := by
  induction l with
  | nil => exact ⟨[], [], rfl, (List.mem_singleton.mp hcurrent).symm, rfl⟩
  | cons x l ih =>
      by_cases hx : x = current
      · exact ⟨[], x :: l, rfl, hx, if_pos hx⟩
      · have hmem : current ∈ head :: l := by
          simp only [List.mem_cons] at hcurrent ⊢
          exact hcurrent.imp_right (fun h => h.resolve_left (Ne.symm hx))
        obtain ⟨front, back, rfl, hback, hput⟩ := ih hmem
        refine ⟨x :: front, back, rfl, hback, ?_⟩
        rw [putBefore, if_neg hx, hput, List.cons_append]

theorem putAfter_eq (hcurrent : current ∈ head :: l) : ∃ front back, l = front ++ back ∧
    lastFrom head front = current ∧
    putAfter current entry (head :: l) = head :: (front ++ entry :: back) := by
  induction l generalizing head with
  | nil =>
      obtain rfl := List.mem_singleton.mp hcurrent
      exact ⟨[], [], rfl, rfl, if_pos rfl⟩
  | cons x l ih =>
      by_cases hhead : head = current
      · exact ⟨[], x :: l, rfl, hhead, if_pos hhead⟩
      · obtain ⟨front, back, rfl, hfront, hput⟩ :=
          ih ((List.mem_cons.mp hcurrent).resolve_left (Ne.symm hhead))
        refine ⟨x :: front, back, rfl, ?_, ?_⟩
        · rw [Lib.lastFrom_cons, hfront]
        · rw [putAfter, if_neg hhead, hput, List.cons_append]

theorem IsList.insertBefore_spec (h : IsList m head l) (hcurrent : current ∈ head :: l)
    (hentry : entry ∉ head :: l) :
    Does m (efListInsertBefore m current entry) head l (putBefore current entry l) [entry] := by
  obtain ⟨front, back, rfl, hback, hput⟩ := @putBefore_eq _ _ head current entry l hcurrent
  have hprev := h.prev_eq
  rw [hback] at hprev
  have hlinked : LinkedIn m (efListInsertBefore m current entry) (m current).prev entry current :=
    efListInsertBefore_linked (fun he => hentry (he ▸ hcurrent)) (by
      intro he
      rw [he, hprev, ← List.cons_append] at hentry
      exact hentry (List.mem_append_left back (Lib.lastFrom_mem head front)))
  rw [hprev, ← hback] at hlinked
  rw [hput]
  exact h.does_insert hentry (hback ▸ hlinked)

theorem IsList.insertAfter_spec (h : IsList m head l) (hcurrent : current ∈ head :: l)
    (hentry : entry ∉ head :: l) :
    Does m (efListInsertAfter m current entry) head l (putAfter current entry (head :: l)).tail
      [entry] := by
  obtain ⟨front, back, rfl, hfront, hput⟩ := @putAfter_eq _ _ head current entry l hcurrent
  have hnext := h.next_eq
  rw [hfront] at hnext
  have hlinked : LinkedIn m (efListInsertAfter m current entry) current entry (m current).next :=
    efListInsertAfter_linked (fun he => hentry (he ▸ hcurrent)) (by
      intro he
      have hmem := Lib.firstTo_mem back head
      rw [← hnext, ← he, List.mem_append, List.mem_singleton] at hmem
      exact hentry (List.mem_cons.mpr (hmem.symm.imp_right (List.mem_append_right front))))
  rw [hput]
  rw [hnext] at hlinked
  exact h.does_insert hentry (hfront ▸ hlinked)

theorem IsList.remove_spec (h : IsList m head l) (hentry : entry ∈ l) :
    Does m (efListRemove m entry) head l (l.erase entry) [] := by
  obtain ⟨front, back, rfl⟩ := List.append_of_mem hentry
  obtain ⟨hprev, hnext, hne⟩ := h.member
  have hlinked : Linked m (efListRemove m entry) (m entry).prev (m entry).next :=
    efListRemove_linked (hnext ▸ hne)
  rw [hprev, hnext] at hlinked
  have hfront : entry ∉ front := by
    have hnodup := h.nodup
    simp only [List.nodup_cons, List.nodup_append, List.mem_cons, forall_eq_or_imp] at hnodup
    exact fun hmem => (hnodup.2.2.2 entry hmem).1 rfl
  rw [List.erase_append_right _ hfront, List.erase_cons_head]
  exact h.does_unlink hlinked

theorem IsList.init (m : Entries α) (head : α) : IsList (efListInit m head) head [] :=
  ⟨List.nodup_singleton head, by constructor <;> simp [efListInit]⟩

theorem IsList.empty_iff (h : IsList m head l) : efListEmpty m head = true ↔ l = [] := by
  have hnext := @IsList.next_eq _ m head [] l h
  rw [Lib.lastFrom_nil] at hnext
  unfold efListEmpty
  rw [hnext, decide_eq_true_iff]
  cases l with
  | nil => exact iff_of_true rfl rfl
  | cons x l =>
      refine iff_of_false (fun hx => ?_) (List.cons_ne_nil x l)
      exact (List.nodup_cons.mp h.nodup).1 (List.mem_cons.mpr (Or.inl hx.symm))

theorem IsList.removeBefore_spec (h : IsList m head l) :
    (efListRemoveBefore m head).1 = l.getLast? ∧
      Does m (efListRemoveBefore m head).2 head l l.dropLast [] := by
  rcases List.eq_nil_or_concat' l with rfl | ⟨front, entry, rfl⟩
  · have hsame : efListRemoveBefore m head = (none, m) := if_pos (h.empty_iff.mpr rfl)
    rw [hsame]
    exact ⟨rfl, h, fun hes _ => hes⟩
  · have hempty : efListEmpty m head = false :=
      Bool.eq_false_iff.mpr (fun he => by simpa using h.empty_iff.mp he)
    obtain ⟨hret, hlinked⟩ := efListRemoveBefore_linked hempty
    have hlast := @IsList.prev_eq _ m head (front ++ [entry]) [] (by rwa [List.append_nil])
    rw [Lib.firstTo_nil, Lib.lastFrom_append_cons, Lib.lastFrom_nil] at hlast
    obtain ⟨hprev, -, -⟩ := h.member
    rw [hlast, hprev] at hlinked
    have hdoes := h.does_unlink hlinked
    rw [List.append_nil] at hdoes
    rw [hret, hlast, List.dropLast_concat, List.getLast?_concat]
    exact ⟨rfl, hdoes⟩

theorem IsList.removeAfter_spec (h : IsList m head l) :
    (efListRemoveAfter m head).1 = l.head? ∧
      Does m (efListRemoveAfter m head).2 head l l.tail [] := by
  cases l with
  | nil =>
      have hsame : efListRemoveAfter m head = (none, m) := if_pos (h.empty_iff.mpr rfl)
      rw [hsame]
      exact ⟨rfl, h, fun hes _ => hes⟩
  | cons entry back =>
      have hempty : efListEmpty m head = false :=
        Bool.eq_false_iff.mpr (fun he => List.cons_ne_nil _ _ (h.empty_iff.mp he))
      obtain ⟨hret, hlinked⟩ := efListRemoveAfter_linked hempty
      have hfirst := @IsList.next_eq _ m head [] (entry :: back) h
      rw [Lib.lastFrom_nil, Lib.firstTo_cons] at hfirst
      obtain ⟨-, hnext, -⟩ := @IsList.member _ m head entry [] back h
      rw [hfirst, hnext] at hlinked
      rw [hret, hfirst]
      exact ⟨rfl, @IsList.does_unlink _ m _ head entry [] back h hlinked⟩

/-- Every operation on a list in memory is the operation on its sequence, with the same result, and
a list that is disjoint from it and from what is inserted stays as it is. -/
theorem list_refines (h : IsList m head l) {op : ListOp α} (hfits : op.Fits head l) :
    (op.exec head m).1 = (op.apply head l).1 ∧
      IsList (op.exec head m).2 head (op.apply head l).2 ∧
      ∀ head' es, IsList m head' es →
        (∀ y ∈ head' :: es, y ∉ head :: l ∧ y ∉ op.added) →
          IsList (op.exec head m).2 head' es := by
  have hdoes : (op.exec head m).1 = (op.apply head l).1 ∧
      Does m (op.exec head m).2 head l (op.apply head l).2 op.added := by
    cases op with
    | insertBefore current entry => exact ⟨rfl, h.insertBefore_spec hfits.1 hfits.2⟩
    | insertAfter current entry => exact ⟨rfl, h.insertAfter_spec hfits.1 hfits.2⟩
    | remove entry => exact ⟨rfl, h.remove_spec hfits⟩
    | removeBefore => exact h.removeBefore_spec
    | removeAfter => exact h.removeAfter_spec
  exact ⟨hdoes.1, hdoes.2.list, fun _ _ => hdoes.2.other⟩

end Spec

def sideBySide (a : Nat) : EfListEntry Nat :=
  [⟨3, 1⟩, ⟨0, 2⟩, ⟨1, 3⟩, ⟨2, 0⟩, ⟨5, 5⟩, ⟨4, 4⟩].getD a ⟨a, a⟩

/-- The entry in the middle is removed. -/
theorem list_refines_middle :
    IsList (ListOp.exec (.remove 2) 0 sideBySide).2 0 [1, 3] ∧
      IsList (ListOp.exec (.remove 2) 0 sideBySide).2 4 [5] := by
  have hlist : IsList sideBySide 0 [1, 2, 3] :=
    ⟨by decide, rfl, rfl, rfl, rfl, rfl, rfl, rfl, rfl⟩
  have hother : IsList sideBySide 4 [5] := ⟨by decide, rfl, rfl, rfl, rfl⟩
  obtain ⟨-, hleft, hdisjoint⟩ :=
    @list_refines Nat _ sideBySide 0 [1, 2, 3] hlist (.remove 2) (by decide : 2 ∈ [1, 2, 3])
  exact ⟨hleft, hdisjoint 4 [5] hother (by decide)⟩

end EFramework
