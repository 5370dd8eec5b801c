import Mathlib.Data.List.Basic

/-! # Text in memory

Memory is the list of the items from a pointer to the end of its object. Text ends at
the first terminator. A function that reads behind the end of the object has no result.
-/

namespace EFramework.Lib.CString

variable {α : Type} [DecidableEq α]

/-- Does the memory start with a pattern; items behind the first difference are not read. -/
def startsWith : List α → List α → Option Bool
  | [], _ => some true
  | _ :: _, [] => none
  | p :: pat, c :: mem => if c = p then startsWith pat mem else some false

/-- The place of a pattern in a text, if it has one. -/
def find (nul : α) (pat : List α) : List α → Option (Option Nat)
  | [] => none
  | c :: mem =>
      match startsWith pat (c :: mem) with
      | none => none
      | some true => some (some 0)
      | some false => if c = nul then some none else (find nul pat mem).map (Option.map (· + 1))

/-- How many copies of an item there are before a different one. -/
def skip (c : α) : List α → Option Nat
  | [] => none
  | d :: mem => if d = c then (skip c mem).map (· + 1) else some 0

/-- The items before the terminator. -/
def content (nul : α) : List α → Option (List α)
  | [] => none
  | c :: mem => if c = nul then some [] else (content nul mem).map (c :: ·)

variable {nul p : α} {pat pre mem : List α}

/-! ## More memory behind -/

theorem startsWith_of_isPrefix {mem' : List α} {b : Bool} (hpre : mem <+: mem')
    (h : startsWith pat mem = some b) : startsWith pat mem' = some b := by
  obtain ⟨rest, rfl⟩ := hpre
  induction pat generalizing mem with
  | nil => exact h
  | cons p pat ih =>
      cases mem with
      | nil => cases h
      | cons c mem =>
          rw [startsWith] at h
          rw [List.cons_append, startsWith]
          split at h
          next hc => rw [if_pos hc, ih h]
          next hc => rw [if_neg hc, h]

theorem find_of_isPrefix {mem' : List α} {r : Option Nat} (hpre : mem <+: mem')
    (h : find nul pat mem = some r) : find nul pat mem' = some r := by
  obtain ⟨rest, rfl⟩ := hpre
  induction mem generalizing r with
  | nil => cases h
  | cons c mem ih =>
      rw [find] at h
      rw [List.cons_append, find]
      rcases hs : startsWith pat (c :: mem) with _ | _ | _
      · rw [hs] at h
        cases h
      · have hs' := startsWith_of_isPrefix (List.prefix_append (c :: mem) rest) hs
        rw [List.cons_append] at hs'
        rw [hs] at h
        rw [hs']
        dsimp only at h ⊢
        split at h
        next hc => rw [if_pos hc, h]
        next hc =>
          obtain ⟨r', hr, hmap⟩ := Option.map_eq_some_iff.mp h
          rw [if_neg hc, ih hr, ← hmap]
          rfl
      · have hs' := startsWith_of_isPrefix (List.prefix_append (c :: mem) rest) hs
        rw [List.cons_append] at hs'
        rw [hs] at h
        rw [hs']
        exact h

theorem skip_of_isPrefix {mem' : List α} {c : α} {n : Nat} (hpre : mem <+: mem')
    (h : skip c mem = some n) : skip c mem' = some n := by
  obtain ⟨rest, rfl⟩ := hpre
  induction mem generalizing n with
  | nil => cases h
  | cons d mem ih =>
      rw [skip] at h
      rw [List.cons_append, skip]
      split at h
      next hd =>
        obtain ⟨k, hk, rfl⟩ := Option.map_eq_some_iff.mp h
        rw [if_pos hd, ih hk]
        rfl
      next hd => rw [if_neg hd, h]

/-! ## Patterns -/

theorem startsWith_append (pat mem : List α) : startsWith pat (pat ++ mem) = some true := by
  induction pat with
  | nil => rfl
  | cons p pat ih => simpa [startsWith] using ih

theorem startsWith_of_ne {c : α} (h : c ≠ p) : startsWith (p :: pat) (c :: mem) = some false :=
  if_neg h

/-- A search goes over items that are neither the terminator nor the start of the pattern. -/
theorem find_append (h : ∀ c ∈ pre, c ≠ nul ∧ c ≠ p) (mem : List α) :
    find nul (p :: pat) (pre ++ mem) =
      (find nul (p :: pat) mem).map (Option.map (· + pre.length)) := by
  induction pre with
  | nil =>
      rw [List.nil_append]
      rcases find nul (p :: pat) mem with _ | _ | n <;> rfl
  | cons c pre ih =>
      obtain ⟨hnul, hp⟩ := h c List.mem_cons_self
      rw [List.cons_append, find, startsWith_of_ne hp]
      dsimp only
      rw [if_neg hnul, ih (fun d hd => h d (List.mem_cons_of_mem c hd))]
      rcases find nul (p :: pat) mem with _ | _ | n
      · rfl
      · rfl
      · simp [Nat.add_assoc]

theorem find_self (p : α) (pat mem : List α) :
    find nul (p :: pat) (p :: pat ++ mem) = some (some 0) := by
  have h := startsWith_append (p :: pat) mem
  rw [List.cons_append] at h ⊢
  rw [find, h]

/-- Without the start of the pattern and a terminator, a search leaves the object. -/
theorem find_of_forall_ne (h : ∀ c ∈ mem, c ≠ nul ∧ c ≠ p) : find nul (p :: pat) mem = none := by
  have hsplit : find nul (p :: pat) (mem ++ []) = _ := find_append h []
  rw [List.append_nil] at hsplit
  rw [hsplit]
  rfl

/-- In front of a terminator it is decided whether the memory starts with a pattern. -/
theorem startsWith_append_nul (hp : nul ∉ pat) (pre mem : List α) :
    startsWith pat (pre ++ nul :: mem) = some (decide (pat <+: pre)) := by
  induction pat generalizing pre with
  | nil => simp [startsWith]
  | cons p pat ih =>
      rw [List.mem_cons, not_or] at hp
      cases pre with
      | nil => simp [startsWith, hp.1]
      | cons c pre =>
          rw [List.cons_append, startsWith, ih hp.2]
          by_cases hc : c = p
          · simp [hc, List.cons_prefix_cons]
          · simp [hc, List.cons_prefix_cons, Ne.symm hc]

/-- A search for a pattern that is not in front of the terminator finds nothing. -/
theorem find_append_nul (hp : nul ∉ pat) (h : ¬ pat <:+: pre) (mem : List α) :
    find nul pat (pre ++ nul :: mem) = some none := by
  induction pre with
  | nil =>
      have hstart := startsWith_append_nul hp [] mem
      rw [decide_eq_false (fun hpre => h hpre.isInfix)] at hstart
      rw [List.nil_append] at hstart ⊢
      rw [find, hstart]
      exact if_pos rfl
  | cons c pre ih =>
      have hstart := startsWith_append_nul hp (c :: pre) mem
      rw [decide_eq_false (fun hpre => h hpre.isInfix)] at hstart
      rw [List.cons_append] at hstart ⊢
      rw [find, hstart]
      dsimp only
      rw [ih (fun hin => h (hin.trans (List.suffix_cons c pre).isInfix))]
      split <;> rfl

theorem startsWith_of_find {r : Option Nat} (h : find nul pat mem = some r) (hr : r ≠ some 0) :
    startsWith pat mem = some false := by
  cases mem with
  | nil => cases h
  | cons c mem =>
      rw [find] at h
      rcases hs : startsWith pat (c :: mem) with _ | _ | _
      · rw [hs] at h
        cases h
      · rfl
      · rw [hs] at h
        exact absurd (Option.some.inj h).symm hr

theorem startsWith_of_not_mem {q : α} (hq : q ∈ pat) (h : q ∉ mem) :
    startsWith pat mem ≠ some true := by
  induction pat generalizing mem with
  | nil => cases hq
  | cons p pat ih =>
      cases mem with
      | nil => simp [startsWith]
      | cons c mem =>
          rw [List.mem_cons, not_or] at h
          rw [startsWith]
          split
          next heq =>
            rcases List.mem_cons.mp hq with rfl | hq
            · exact absurd heq.symm h.1
            · exact ih hq h.2
          next => simp

/-- A search for a pattern with an item that is not there leaves the object, too. -/
theorem find_of_not_mem {q : α} (hnul : nul ∉ mem) (hq : q ∈ pat) (h : q ∉ mem) :
    find nul pat mem = none := by
  induction mem with
  | nil => rfl
  | cons c mem ih =>
      have hstart := startsWith_of_not_mem hq h
      rw [List.mem_cons, not_or] at hnul h
      rw [find]
      rcases hs : startsWith pat (c :: mem) with _ | _ | _
      · rfl
      · dsimp only
        rw [if_neg (Ne.symm hnul.1), ih hnul.2 h.2]
        rfl
      · exact absurd hs hstart

theorem skip_le {c d : α} (h : d ≠ c) (pre mem : List α) :
    ∃ k ≤ pre.length, skip c (pre ++ d :: mem) = some k := by
  induction pre with
  | nil => exact ⟨0, Nat.le_refl _, if_neg h⟩
  | cons b pre ih =>
      obtain ⟨k, hk, hskip⟩ := ih
      rw [List.cons_append, skip]
      split
      next => exact ⟨k + 1, Nat.succ_le_succ hk, by rw [hskip]; rfl⟩
      next => exact ⟨0, Nat.zero_le _, rfl⟩

theorem skip_of_ne {c d : α} (h : d ≠ c) : skip c (d :: mem) = some 0 := if_neg h

theorem skip_append (c : α) (n : Nat) (mem : List α) :
    skip c (List.replicate n c ++ mem) = (skip c mem).map (· + n) := by
  induction n with
  | zero =>
      rw [List.replicate_zero, List.nil_append]
      rcases skip c mem with _ | n <;> rfl
  | succ n ih =>
      rw [List.replicate_succ, List.cons_append, skip, if_pos rfl, ih]
      rcases skip c mem with _ | k <;> rfl

theorem content_append (h : nul ∉ pre) (mem : List α) :
    content nul (pre ++ mem) = (content nul mem).map (pre ++ ·) := by
  induction pre with
  | nil =>
      rw [List.nil_append]
      rcases content nul mem with _ | l <;> rfl
  | cons c pre ih =>
      rw [List.mem_cons, not_or] at h
      rw [List.cons_append, content, if_neg (Ne.symm h.1), ih h.2]
      rcases content nul mem with _ | l <;> rfl

end EFramework.Lib.CString
