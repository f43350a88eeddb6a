import Mathlib.Algebra.BigOperators.Group.Finset.Basic
import Mathlib.Algebra.Order.BigOperators.Group.Finset
import Mathlib.Data.Nat.Bitwise
import Mathlib.Tactic.Ring

/-! # Numbers in limbs

A number is cut into `n` limbs below a base, the lowest one first. Its order is that of the highest limb
that differs, and in a base that is a power of two its bits are those of the limbs. -/

namespace Limbs

variable {b n w : ℕ} {d e : ℕ → ℕ}

/-- What the first `n` limbs stand for. -/
def value (b : ℕ) (d : ℕ → ℕ) (n : ℕ) : ℕ := ∑ i ∈ Finset.range n, d i * b ^ i

@[simp] theorem value_zero : value b d 0 = 0 := rfl

theorem value_succ : value b d (n + 1) = value b d n + d n * b ^ n := Finset.sum_range_succ _ n

theorem value_congr (h : ∀ i < n, d i = e i) : value b d n = value b e n :=
  Finset.sum_congr rfl fun i hi => by rw [h i (Finset.mem_range.mp hi)]

theorem value_lt (h : ∀ i < n, d i < b) : value b d n < b ^ n := by
  induction n with
  | zero => exact Nat.one_pos
  | succ n ih =>
    have hlow := ih fun i hi => h i (hi.trans n.lt_succ_self)
    have htop : (d n + 1) * b ^ n ≤ b * b ^ n := Nat.mul_le_mul_right _ (h n n.lt_succ_self)
    calc value b d (n + 1) = value b d n + d n * b ^ n := value_succ
      _ < b ^ n + d n * b ^ n := Nat.add_lt_add_right hlow _
      _ = (d n + 1) * b ^ n := by ring
      _ ≤ b * b ^ n := htop
      _ = b ^ (n + 1) := (pow_succ' b n).symm

/-- The limbs that are left over from the base. -/
theorem value_add_value (h : ∀ i < n, d i + e i + 1 = b) : value b d n + value b e n + 1 = b ^ n := by
  induction n with
  | zero => rfl
  | succ n ih =>
    have hlow := ih fun i hi => h i (hi.trans n.lt_succ_self)
    calc value b d (n + 1) + value b e (n + 1) + 1
        = (value b d n + value b e n + 1) + (d n + e n) * b ^ n := by
          rw [value_succ, value_succ]
          ring
      _ = (d n + e n + 1) * b ^ n := by
          rw [hlow]
          ring
      _ = b ^ (n + 1) := by rw [h n n.lt_succ_self, pow_succ']

/-- The highest limb decides, and behind an equal one the rest. -/
theorem value_succ_lt_iff (hd : ∀ i < n, d i < b) (he : ∀ i < n, e i < b) :
    value b d (n + 1) < value b e (n + 1) ↔ d n < e n ∨ d n = e n ∧ value b d n < value b e n := by
  have hlow := value_lt hd
  have hlow' := value_lt he
  rw [value_succ, value_succ]
  rcases Nat.lt_trichotomy (d n) (e n) with hlt | heq | hgt
  · have hstep : (d n + 1) * b ^ n ≤ e n * b ^ n := Nat.mul_le_mul_right _ hlt
    rw [Nat.add_mul, Nat.one_mul] at hstep
    exact ⟨fun _ => .inl hlt, fun _ => by omega⟩
  · rw [heq]
    exact ⟨fun h => .inr ⟨rfl, Nat.lt_of_add_lt_add_right h⟩, fun h => by omega⟩
  · have hstep : (e n + 1) * b ^ n ≤ d n * b ^ n := Nat.mul_le_mul_right _ hgt
    rw [Nat.add_mul, Nat.one_mul] at hstep
    exact ⟨fun h => by omega, fun h => by omega⟩

/-- A number has one set of limbs. -/
theorem eq_of_value (hd : ∀ i < n, d i < b) (he : ∀ i < n, e i < b) (h : value b d n = value b e n) :
    ∀ i < n, d i = e i := by
  induction n with
  | zero => exact fun i hi => absurd hi i.not_lt_zero
  | succ n ih =>
    have hd' : ∀ i < n, d i < b := fun i hi => hd i (hi.trans n.lt_succ_self)
    have he' : ∀ i < n, e i < b := fun i hi => he i (hi.trans n.lt_succ_self)
    have hle := (value_succ_lt_iff hd' he').not.mp h.not_lt
    have hge := (value_succ_lt_iff he' hd').not.mp h.not_gt
    have htop : d n = e n := by omega
    intro i hi
    rcases Nat.lt_succ_iff_lt_or_eq.mp hi with hlow | rfl
    · exact ih hd' he' (by omega) i hlow
    · exact htop

/-- In base `2 ^ w` a limb holds `w` of the bits. -/
theorem testBit_value (hw : 0 < w) (h : ∀ i < n, d i < 2 ^ w) (k : ℕ) :
    (value (2 ^ w) d n).testBit k = (decide (k / w < n) && (d (k / w)).testBit (k % w)) := by
  induction n with
  | zero => simp
  | succ n ih =>
    have hlow := fun i (hi : i < n) => h i (hi.trans n.lt_succ_self)
    have hvalue : value (2 ^ w) d (n + 1) = 2 ^ (w * n) * d n + value (2 ^ w) d n := by
      rw [value_succ, ← pow_mul]
      ring
    have hbound : value (2 ^ w) d n < 2 ^ (w * n) := by
      rw [pow_mul]
      exact value_lt hlow
    rw [hvalue, Nat.testBit_two_pow_mul_add _ hbound, ih hlow]
    have hdiv := Nat.div_add_mod k w
    have hmod := Nat.mod_lt k hw
    by_cases hk : k < w * n
    · have hlt : k / w < n := Nat.div_lt_of_lt_mul hk
      rw [if_pos hk, decide_eq_true hlt, decide_eq_true (hlt.trans n.lt_succ_self)]
    · rw [if_neg hk]
      have hge : n ≤ k / w := (Nat.le_div_iff_mul_le hw).mpr (by rw [Nat.mul_comm]; exact Nat.not_lt.mp hk)
      by_cases htop : k / w = n
      · have hrest : k - w * n = k % w := by
          rw [← htop]
          omega
        rw [hrest, htop, decide_eq_true n.lt_succ_self, Bool.true_and]
      · have hbeyond : w ≤ k - w * n := by
          have hnext : w * (n + 1) ≤ w * (k / w) := Nat.mul_le_mul_left w (by omega)
          rw [Nat.mul_succ] at hnext
          omega
        have hsmall : d n < 2 ^ (k - w * n) :=
          (h n n.lt_succ_self).trans_le (Nat.pow_le_pow_right Nat.two_pos hbeyond)
        rw [Nat.testBit_lt_two_pow hsmall, decide_eq_false (by omega), Bool.false_and]

/-! ## Loops over the limbs -/

theorem foldl_range_induct {σ : Type*} {f : σ → ℕ → σ} {s : σ} (P : ℕ → σ → Prop) (hstart : P 0 s)
    (hround : ∀ i < n, ∀ s, P i s → P (i + 1) (f s i)) : P n ((List.range n).foldl f s) := by
  induction n with
  | zero => exact hstart
  | succ n ih =>
    rw [List.range_succ, List.foldl_append]
    exact hround n n.lt_succ_self _ (ih fun i hi => hround i (hi.trans n.lt_succ_self))

end Limbs
