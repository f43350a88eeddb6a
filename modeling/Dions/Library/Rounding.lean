import Mathlib.Order.Monotone.Defs
import Mathlib.Algebra.Order.Ring.Nat

/-! # Rounding down to a unit

A format that keeps the leading digits of a number rounds it down to a multiple of a unit which
grows with the number. -/

namespace Rounding

variable {unit : ℕ → ℕ}

/-- The greatest multiple of the unit of `x` that is at most `x`. -/
def down (unit : ℕ → ℕ) (x : ℕ) : ℕ := x / unit x * unit x

theorem down_le (x : ℕ) : down unit x ≤ x := Nat.div_mul_le_self x (unit x)

theorem le_down {x z : ℕ} (hdvd : unit x ∣ z) (hle : z ≤ x) : z ≤ down unit x := by
  obtain ⟨k, rfl⟩ := hdvd
  cases Nat.eq_zero_or_pos (unit x) with
  | inl hzero => simp [hzero]
  | inr hpos =>
    rw [down, Nat.mul_comm]
    exact Nat.mul_le_mul_right _ ((Nat.le_div_iff_mul_le hpos).mpr (by rwa [Nat.mul_comm]))

theorem down_pos {x : ℕ} (hpos : 0 < unit x) (hle : unit x ≤ x) : 0 < down unit x :=
  Nat.lt_of_lt_of_le hpos (le_down (dvd_refl _) hle)

/-- Between two numbers with different units lies a multiple of the unit of the larger one. -/
def Graded (unit : ℕ → ℕ) : Prop :=
  ∀ ⦃x y : ℕ⦄, x ≤ y → unit x = unit y ∨ ∃ z, x ≤ z ∧ z ≤ y ∧ unit y ∣ z

theorem down_mono (h : Graded unit) : Monotone (down unit) := by
  intro x y hxy
  cases h hxy with
  | inl hsame =>
    unfold down
    rw [hsame]
    exact Nat.mul_le_mul_right _ (Nat.div_le_div_right hxy)
  | inr hbetween =>
    obtain ⟨z, hxz, hzy, hdvd⟩ := hbetween
    exact (down_le x).trans (hxz.trans (le_down hdvd hzy))

end Rounding
