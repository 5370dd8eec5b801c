import Mathlib.Data.List.Basic

/-! # Streams delivered in segments

A transport hands over a stream in pieces of its own choosing, with failures in
between. A segmented stream is a list of non-empty pieces and failure codes,
followed by the end of the stream. Some codes are soft: the request is simply
made again.

`gather need cap` collects at least `need` items, asking for what is left of
`cap` items each time. Its rules say that nothing is lost or reordered, how much
is collected, and how two exact collections compose.
-/

namespace EFramework.Lib

variable {α : Type}

inductive Segment (α : Type) where
  | data (x : α) (xs : List α)
  | fail (errno : Nat)
deriving Repr, DecidableEq

def Segment.payload : Segment α → List α
  | data x xs => x :: xs
  | fail _ => []

abbrev Segments (α : Type) := List (Segment α)

namespace Segments

def ofList : List α → Segments α
  | [] => []
  | x :: xs => [.data x xs]

def payload (s : Segments α) : List α := s.flatMap Segment.payload

@[simp] theorem payload_nil : payload ([] : Segments α) = [] := rfl

@[simp] theorem payload_cons (p : Segment α) (s : Segments α) :
    payload (p :: s) = p.payload ++ payload s := by
  simp [payload]

@[simp] theorem payload_ofList_append (xs : List α) (s : Segments α) :
    payload (ofList xs ++ s) = xs ++ payload s := by
  cases xs <;> simp [ofList, Segment.payload]

theorem payload_flatMap_ofList_append (ps : List (List α)) (s : Segments α) :
    payload (ps.flatMap ofList ++ s) = ps.flatten ++ payload s := by
  induction ps with
  | nil => rfl
  | cons p ps ih =>
      rw [List.flatMap_cons, List.append_assoc, payload_ofList_append, ih, List.flatten_cons,
        List.append_assoc]

/-- Every failure code is soft. -/
def Clean (soft : Nat → Bool) (s : Segments α) : Prop :=
  ∀ e, Segment.fail e ∈ s → soft e = true

theorem clean_nil (soft : Nat → Bool) : Clean soft ([] : Segments α) :=
  fun _ h => absurd h List.not_mem_nil

theorem Clean.tail {soft : Nat → Bool} {p : Segment α} {s : Segments α}
    (h : Clean soft (p :: s)) : Clean soft s :=
  fun e he => h e (List.mem_cons_of_mem p he)

theorem Clean.ofList_append {soft : Nat → Bool} {s : Segments α} (h : Clean soft s)
    (xs : List α) : Clean soft (ofList xs ++ s) := by
  intro e he
  rcases List.mem_append.mp he with he | he
  · cases xs <;> simp [ofList] at he
  · exact h e he

/-! ## Collecting -/

structure Gathered (α : Type) where
  items : List α
  /-- The hard failure that stopped the collection. -/
  error : Option Nat
  rest : Segments α
deriving Repr, DecidableEq

def Gathered.prepend (xs : List α) (g : Gathered α) : Gathered α :=
  { g with items := xs ++ g.items }

/-- Collect until `need` items are there, the stream ends or a hard failure comes.
A piece longer than what is left of `cap` is split. -/
def gather (soft : Nat → Bool) : Nat → Nat → Segments α → Gathered α
  | _, _, [] => ⟨[], none, []⟩
  | need, cap, .fail e :: s =>
      if need = 0 then ⟨[], none, .fail e :: s⟩
      else if soft e then gather soft need cap s
      else ⟨[], some e, s⟩
  | need, cap, .data x xs :: s =>
      if need = 0 then ⟨[], none, .data x xs :: s⟩
      else if (x :: xs).length ≤ cap then
        (gather soft (need - (x :: xs).length) (cap - (x :: xs).length) s).prepend (x :: xs)
      else ⟨(x :: xs).take cap, none, ofList ((x :: xs).drop cap) ++ s⟩

variable (soft : Nat → Bool)

@[simp] theorem gather_nil (need cap : Nat) :
    gather soft need cap ([] : Segments α) = ⟨[], none, []⟩ := by
  rw [gather]

@[simp] theorem gather_zero (cap : Nat) (s : Segments α) :
    gather soft 0 cap s = ⟨[], none, s⟩ := by
  rcases s with _ | ⟨⟨x, xs⟩ | e, s⟩ <;> simp [gather]

theorem gather_payload (need cap : Nat) (s : Segments α) :
    (gather soft need cap s).items ++ payload (gather soft need cap s).rest = payload s := by
  fun_induction gather soft need cap s with
  | case1 => rfl
  | case2 => rfl
  | case3 need cap e s _ _ ih => simpa [Segment.payload] using ih
  | case4 => rfl
  | case5 => rfl
  | case6 need cap x xs s _ _ ih =>
      rw [payload_cons, ← ih, ← List.append_assoc]
      rfl
  | case7 need cap x xs s =>
      rw [payload_ofList_append, ← List.append_assoc, List.take_append_drop, payload_cons]
      rfl

theorem gather_length_le {need cap : Nat} (h : need ≤ cap) (s : Segments α) :
    (gather soft need cap s).items.length ≤ cap := by
  fun_induction gather soft need cap s with
  | case1 => simp
  | case2 => simp
  | case3 need cap e s _ _ ih => exact ih h
  | case4 => simp
  | case5 => simp
  | case6 need cap x xs s _ hle ih =>
      have := ih (by omega)
      rw [Gathered.prepend, List.length_append]
      omega
  | case7 need cap x xs s _ hlt =>
      rw [List.length_take]
      omega

/-- Without a hard failure fewer than `need` items mean the end of the stream. -/
theorem gather_enough {need cap : Nat} (h : need ≤ cap) (s : Segments α)
    (hok : (gather soft need cap s).error = none) :
    need ≤ (gather soft need cap s).items.length ∨ (gather soft need cap s).rest = [] := by
  fun_induction gather soft need cap s with
  | case1 => exact Or.inr rfl
  | case2 => exact Or.inl (by simp)
  | case3 need cap e s _ _ ih => exact ih h hok
  | case4 => simp at hok
  | case5 => exact Or.inl (by simp)
  | case6 need cap x xs s _ hle ih =>
      rcases ih (by omega) hok with hn | hr
      · left
        rw [Gathered.prepend, List.length_append]
        omega
      · exact Or.inr hr
  | case7 need cap x xs s _ hlt =>
      left
      rw [List.length_take]
      omega

theorem gather_clean {s : Segments α} (hs : Clean soft s) (need cap : Nat) :
    (gather soft need cap s).error = none ∧ Clean soft (gather soft need cap s).rest := by
  fun_induction gather soft need cap s with
  | case1 => exact ⟨rfl, hs⟩
  | case2 => exact ⟨rfl, hs⟩
  | case3 need cap e s _ _ ih => exact ih hs.tail
  | case4 need cap e s _ hhard => exact absurd (hs e (by simp)) hhard
  | case5 => exact ⟨rfl, hs⟩
  | case6 need cap x xs s _ _ ih => exact ih hs.tail
  | case7 need cap x xs s => exact ⟨rfl, hs.tail.ofList_append _⟩

/-- Enough is collected when the stream still holds enough. -/
theorem gather_need_le {s : Segments α} (hs : Clean soft s) {need cap : Nat} (h : need ≤ cap)
    (hlen : need ≤ (payload s).length) : need ≤ (gather soft need cap s).items.length := by
  rcases gather_enough soft h s (gather_clean soft hs need cap).1 with hn | hr
  · exact hn
  · have hp := gather_payload soft need cap s
    rw [hr, payload_nil, List.append_nil] at hp
    rwa [hp]

theorem gather_exact {s : Segments α} (hs : Clean soft s) {n : Nat}
    (hlen : n ≤ (payload s).length) : (gather soft n n s).items.length = n :=
  Nat.le_antisymm (gather_length_le soft (Nat.le_refl n) s)
    (gather_need_le soft hs (Nat.le_refl n) hlen)

theorem gather_payload_rest (need cap : Nat) (s : Segments α) :
    payload (gather soft need cap s).rest =
      (payload s).drop (gather soft need cap s).items.length := by
  rw [← gather_payload soft need cap s, List.drop_left]

/-- An exact collection of `a + b` items is one of `a` followed by one of `b`. -/
theorem gather_add (a b : Nat) (s : Segments α) (ha : (gather soft a a s).items.length = a) :
    gather soft (a + b) (a + b) s =
      (gather soft b b (gather soft a a s).rest).prepend (gather soft a a s).items := by
  induction s generalizing a with
  | nil =>
      simp only [gather_nil, List.length_nil] at ha
      simp [Gathered.prepend]
  | cons p s ih =>
      rcases Nat.eq_zero_or_pos a with rfl | hpos
      · simp [Gathered.prepend]
      have hne : a ≠ 0 := by omega
      have hne' : a + b ≠ 0 := by omega
      cases p with
      | fail e =>
          simp only [gather, if_neg hne, if_neg hne'] at ha ⊢
          by_cases he : soft e = true
          · simp only [he, if_true] at ha ⊢
            exact ih a ha
          · simp only [he] at ha
            simp at ha
            omega
      | data x xs =>
          simp only [gather, if_neg hne, if_neg hne'] at ha ⊢
          by_cases hle : (x :: xs).length ≤ a
          · have hle' : (x :: xs).length ≤ a + b := by omega
            simp only [hle, hle', if_true] at ha ⊢
            have hsub : a + b - (x :: xs).length = (a - (x :: xs).length) + b := by omega
            rw [hsub, ih (a - (x :: xs).length) (by
              simp only [Gathered.prepend, List.length_append] at ha
              omega)]
            simp [Gathered.prepend]
          · simp only [hle, if_false]
            obtain ⟨y, ys, hy⟩ := List.exists_cons_of_length_pos
              (l := (x :: xs).drop a) (by rw [List.length_drop]; omega)
            have hlen : (y :: ys).length = (x :: xs).length - a := by
              rw [← hy, List.length_drop]
            have hsplit : (x :: xs) = (x :: xs).take a ++ (y :: ys) := by
              rw [← hy, List.take_append_drop]
            have htake : ((x :: xs).take a).length = a := by
              rw [List.length_take]
              omega
            rw [hy]
            rcases Nat.eq_zero_or_pos b with rfl | hb
            · simp only [Nat.add_zero, if_neg hle, hy, gather_zero]
              simp [Gathered.prepend, ofList]
            have hbne : b ≠ 0 := by omega
            simp only [ofList, List.singleton_append, gather, if_neg hbne]
            by_cases hle' : (x :: xs).length ≤ a + b
            · have hyb : (y :: ys).length ≤ b := by omega
              have hs₁ : a + b - (x :: xs).length = b - (y :: ys).length := by omega
              simp only [hle', hyb, if_true, hs₁, Gathered.prepend]
              rw [← List.append_assoc, ← hsplit]
            · have hyb : ¬ (y :: ys).length ≤ b := by omega
              simp only [hle', hyb, if_false, Gathered.prepend]
              rw [List.take_add, ← List.drop_drop, hy]

end Segments

end EFramework.Lib
