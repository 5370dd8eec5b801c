import Mathlib.Data.BitVec
import Mathlib.Data.Nat.Basic
import Mathlib.Data.Set.Lattice
import Mathlib.Order.CompletePartialOrder

/-! # Words in a memory of bytes

Addresses and words have the same width, and a word is stored with its low byte
first. Addresses wrap around, so an area is the set of the addresses that are
less than so many bytes behind its start.
-/

namespace EFramework.Lib

abbrev Mem (w : Nat) := BitVec w → BitVec 8

/-- The `n` bytes from `a` on. -/
def area {w : Nat} (a : BitVec w) (n : Nat) : Set (BitVec w) := {x | (x - a).toNat < n}

namespace Mem

variable {w : Nat}

/-- The number that `n` bytes stand for. -/
def value (m : Mem w) (a : BitVec w) : Nat → Nat
  | 0 => 0
  | n + 1 => (m a).toNat + 256 * m.value (a + 1) n

def load (m : Mem w) (a : BitVec w) : BitVec w := BitVec.ofNat w (m.value a (w / 8))

def store (m : Mem w) (a v : BitVec w) : Mem w := fun x =>
  if (x - a).toNat < w / 8 then BitVec.ofNat 8 (v.toNat / 256 ^ (x - a).toNat) else m x

/-- The words of a list, one behind the other. -/
def Holds (m : Mem w) (a : BitVec w) : List (BitVec w) → Prop
  | [] => True
  | v :: vs => m.load a = v ∧ m.Holds (a + BitVec.ofNat w (w / 8)) vs

/-- Words are stored one below the other, from below `a` on. -/
def pushes (m : Mem w) (a : BitVec w) : List (BitVec w) → Mem w
  | [] => m
  | v :: vs =>
      (m.store (a - BitVec.ofNat w (w / 8)) v).pushes (a - BitVec.ofNat w (w / 8)) vs

end Mem

variable {w : Nat} {a b : BitVec w} {m m' : Mem w} {i j n k : Nat}

/-! ## Areas -/

theorem toNat_add_sub (a : BitVec w) (hi : i < 2 ^ w) : (a + BitVec.ofNat w i - a).toNat = i := by
  rw [BitVec.add_comm, BitVec.add_sub_cancel, BitVec.toNat_ofNat, Nat.mod_eq_of_lt hi]

theorem add_mem_area (a : BitVec w) (hi : i < n) (hn : n ≤ 2 ^ w) :
    a + BitVec.ofNat w i ∈ area a n := by
  change (a + BitVec.ofNat w i - a).toNat < n
  rwa [toNat_add_sub a (Nat.lt_of_lt_of_le hi hn)]

theorem area_subset (a : BitVec w) (h : i + n ≤ k) : area (a + BitVec.ofNat w i) n ⊆ area a k := by
  intro x hx
  change (x - a).toNat < k
  have hx : (x - (a + BitVec.ofNat w i)).toNat < n := hx
  have he : x - a = (x - (a + BitVec.ofNat w i)) + BitVec.ofNat w i := by
    rw [← sub_sub, BitVec.sub_add_cancel]
  rw [he, BitVec.toNat_add, BitVec.toNat_ofNat]
  have h₁ := Nat.mod_le ((x - (a + BitVec.ofNat w i)).toNat + i % 2 ^ w) (2 ^ w)
  have h₂ := Nat.mod_le i (2 ^ w)
  omega

theorem area_mono (a : BitVec w) (h : n ≤ k) : area a n ⊆ area a k := fun _ hx => lt_of_lt_of_le hx h

theorem disjoint_area (a : BitVec w) (hij : i + n ≤ j) (hj : j + k ≤ 2 ^ w) :
    Disjoint (area (a + BitVec.ofNat w i) n) (area (a + BitVec.ofNat w j) k) := by
  refine Set.disjoint_left.mpr (fun x hx hx' => ?_)
  have hx : (x - (a + BitVec.ofNat w i)).toNat < n := hx
  have hx' : (x - (a + BitVec.ofNat w j)).toNat < k := hx'
  have he : x - (a + BitVec.ofNat w i) =
      (x - (a + BitVec.ofNat w j)) + (BitVec.ofNat w j - BitVec.ofNat w i) := by
    rw [← sub_sub, ← sub_sub, ← add_sub_assoc, sub_add_cancel]
  have hsub : BitVec.ofNat w j - BitVec.ofNat w i = BitVec.ofNat w (j - i) := by
    rw [BitVec.sub_eq_iff_eq_add, ← BitVec.ofNat_add, Nat.sub_add_cancel (by omega)]
  rw [he, hsub, BitVec.toNat_add, BitVec.toNat_ofNat, Nat.mod_eq_of_lt (by omega : j - i < 2 ^ w),
    Nat.mod_eq_of_lt (by omega)] at hx
  omega

theorem disjoint_area_of_le (hab : a.toNat + n ≤ b.toNat) (hb : b.toNat + k ≤ 2 ^ w) :
    Disjoint (area a n) (area b k) := by
  have he : a + BitVec.ofNat w (b.toNat - a.toNat) = b := by
    apply BitVec.eq_of_toNat_eq
    rw [BitVec.toNat_add, BitVec.toNat_ofNat, Nat.add_mod_mod, Nat.add_sub_of_le (by omega),
      Nat.mod_eq_of_lt b.isLt]
  have h := disjoint_area a (i := 0) (n := n) (j := b.toNat - a.toNat) (k := k) (by omega) (by omega)
  rwa [BitVec.add_zero, he] at h

namespace Mem

/-! ## Words -/

theorem value_congr (h : ∀ i < n, m (a + BitVec.ofNat w i) = m' (a + BitVec.ofNat w i)) :
    m.value a n = m'.value a n := by
  induction n generalizing a with
  | zero => rfl
  | succ n ih =>
      have h₀ := h 0 (by omega)
      rw [BitVec.add_zero] at h₀
      rw [value, value, h₀, ih (fun i hi => ?_)]
      have hi := h (i + 1) (by omega)
      rwa [Nat.add_comm i 1, BitVec.ofNat_add, ← BitVec.add_assoc] at hi

theorem load_congr (hw : w / 8 ≤ 2 ^ w) (h : Set.EqOn m m' (area a (w / 8))) :
    m.load a = m'.load a :=
  congrArg (BitVec.ofNat w) (value_congr (fun _ hi => h (add_mem_area a hi hw)))

theorem eqOn_store (m : Mem w) (a v : BitVec w) : Set.EqOn (m.store a v) m (area a (w / 8))ᶜ :=
  fun _ hx => if_neg hx

theorem load_store_of_disjoint (hw : w / 8 ≤ 2 ^ w) (h : Disjoint (area a (w / 8)) (area b (w / 8)))
    (v : BitVec w) : (m.store b v).load a = m.load a :=
  load_congr hw ((eqOn_store m b v).mono (Set.disjoint_left.mp h))

theorem value_store (m : Mem w) (a v : BitVec w) (hw : w / 8 ≤ 2 ^ w) (h : i + n ≤ w / 8) :
    (m.store a v).value (a + BitVec.ofNat w i) n = v.toNat / 256 ^ i % 256 ^ n := by
  induction n generalizing i with
  | zero => rw [value, Nat.pow_zero, Nat.mod_one]
  | succ n ih =>
      have hbyte : (m.store a v) (a + BitVec.ofNat w i) = BitVec.ofNat 8 (v.toNat / 256 ^ i) := by
        unfold store
        rw [toNat_add_sub a (by omega), if_pos (by omega)]
      have hnext : a + BitVec.ofNat w i + 1 = a + BitVec.ofNat w (i + 1) := by
        rw [BitVec.ofNat_add, BitVec.add_assoc]
        rfl
      rw [value, hbyte, hnext, ih (by omega), BitVec.toNat_ofNat, Nat.pow_succ 256 i,
        Nat.pow_succ 256 n, Nat.mul_comm (256 ^ n), Nat.mod_mul, Nat.div_div_eq_div_mul]

theorem load_store_self (m : Mem w) (a v : BitVec w) (hw : w / 8 ≤ 2 ^ w) (h8 : w / 8 * 8 = w) :
    (m.store a v).load a = v := by
  have hvalue := value_store m a v hw (i := 0) (n := w / 8) (by omega)
  rw [BitVec.add_zero, Nat.pow_zero, Nat.div_one] at hvalue
  have hpow : 256 ^ (w / 8) = 2 ^ w := by
    rw [show 256 = 2 ^ 8 from rfl, ← Nat.pow_mul, Nat.mul_comm, h8]
  unfold load
  rw [hvalue, hpow, Nat.mod_eq_of_lt v.isLt, BitVec.ofNat_toNat, BitVec.setWidth_eq]

/-! ## Lists of words -/

theorem Holds.congr {vs : List (BitVec w)} (hw : w / 8 ≤ 2 ^ w) (h : m.Holds a vs)
    (he : Set.EqOn m m' (area a (w / 8 * vs.length))) : m'.Holds a vs := by
  induction vs generalizing a with
  | nil => trivial
  | cons v vs ih =>
      obtain ⟨hv, hvs⟩ := h
      rw [List.length_cons, Nat.mul_succ] at he
      refine ⟨?_, ih hvs (he.mono (area_subset a (by omega)))⟩
      rw [← hv]
      exact (load_congr hw (he.mono (area_mono a (by omega)))).symm

theorem Holds.append {vs vs' : List (BitVec w)} :
    m.Holds a (vs ++ vs') ↔
      m.Holds a vs ∧ m.Holds (a + BitVec.ofNat w (w / 8 * vs.length)) vs' := by
  induction vs generalizing a with
  | nil => simp [Holds]
  | cons v vs ih =>
      have hnext : a + BitVec.ofNat w (w / 8) + BitVec.ofNat w (w / 8 * vs.length) =
          a + BitVec.ofNat w (w / 8 * (v :: vs).length) := by
        rw [BitVec.add_assoc, ← BitVec.ofNat_add, List.length_cons, Nat.mul_succ, Nat.add_comm]
      rw [List.cons_append, Holds, Holds, ih, hnext, and_assoc]

/-- What is pushed lies below `a`, the last on top, and nothing else changes. -/
theorem pushes_spec (m : Mem w) (a : BitVec w) (vs : List (BitVec w)) (hw : w / 8 ≤ 2 ^ w)
    (h8 : w / 8 * 8 = w) (hlen : w / 8 * vs.length ≤ 2 ^ w) :
    (m.pushes a vs).Holds (a - BitVec.ofNat w (w / 8 * vs.length)) vs.reverse ∧
      Set.EqOn (m.pushes a vs) m
        (area (a - BitVec.ofNat w (w / 8 * vs.length)) (w / 8 * vs.length))ᶜ := by
  induction vs generalizing m a with
  | nil => exact ⟨trivial, fun _ _ => rfl⟩
  | cons v vs ih =>
      rw [List.length_cons, Nat.mul_succ] at hlen ⊢
      have hnext : a - BitVec.ofNat w (w / 8) - BitVec.ofNat w (w / 8 * vs.length) =
          a - BitVec.ofNat w (w / 8 * vs.length + w / 8) := by
        rw [sub_sub, ← BitVec.ofNat_add, Nat.add_comm]
      have hup : a - BitVec.ofNat w (w / 8 * vs.length + w / 8) +
          BitVec.ofNat w (w / 8 * vs.length) = a - BitVec.ofNat w (w / 8) := by
        rw [← hnext, sub_add_cancel]
      obtain ⟨hholds, hsame⟩ :=
        ih (m.store (a - BitVec.ofNat w (w / 8)) v) (a - BitVec.ofNat w (w / 8)) (by omega)
      rw [hnext] at hholds hsame
      refine ⟨?_, fun x hx => (hsame (fun hc => hx ?_)).trans ?_⟩
      · rw [List.reverse_cons, Holds.append, List.length_reverse, hup]
        refine ⟨hholds, ?_, trivial⟩
        have hdisj := disjoint_area (a - BitVec.ofNat w (w / 8 * vs.length + w / 8))
          (i := 0) (n := w / 8 * vs.length) (j := w / 8 * vs.length) (k := w / 8) (by omega) hlen
        rw [hup, BitVec.add_zero] at hdisj
        exact (load_congr hw (hsame.mono (Set.disjoint_right.mp hdisj))).trans
          (load_store_self _ _ _ hw h8)
      · exact area_mono _ (by omega) hc
      · refine eqOn_store _ _ _ (fun hc => hx ?_)
        rw [← hup] at hc
        exact area_subset _ (Nat.le_refl _) hc

end Mem

end EFramework.Lib
