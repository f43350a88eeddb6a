import Mathlib.Algebra.Order.Ring.Nat
import Mathlib.Data.Nat.Find
import Mathlib.Data.Nat.Log

/-! # Steps that double

A search goes back one place at a time for a while, and from a threshold on twice as far in every
further step. It passes a place no more than twice as far back as that place lies, and it is through
after a number of steps that grows like the logarithm of the way. -/

namespace Backoff

variable {t j d n : ℕ}

/-- The length of a step. -/
def step (t j : ℕ) : ℕ := 2 ^ (j - t)

/-- How far back the search is after some steps. -/
def reach (t : ℕ) : ℕ → ℕ
  | 0 => 0
  | j + 1 => reach t j + step t j

theorem step_pos (t j : ℕ) : 0 < step t j := Nat.two_pow_pos _

theorem step_of_le (h : j ≤ t) : step t j = 1 := by
  rw [step, Nat.sub_eq_zero_of_le h, Nat.pow_zero]

theorem step_succ (h : t ≤ j) : step t (j + 1) = step t j * 2 := by
  rw [step, step, Nat.succ_sub h, Nat.pow_succ]

theorem le_reach (t j : ℕ) : j ≤ reach t j := by
  induction j with
  | zero => exact Nat.zero_le _
  | succ j ih => exact Nat.add_le_add ih (step_pos t j)

theorem reach_of_le (h : j ≤ t) : reach t j = j := by
  induction j with
  | zero => rfl
  | succ j ih => rw [reach, ih (Nat.le_of_succ_le h), step_of_le (Nat.le_of_succ_le h)]

theorem reach_of_ge (h : t ≤ j) : reach t j + 1 = step t j + t := by
  induction j, h using Nat.le_induction with
  | base => rw [reach_of_le le_rfl, step_of_le le_rfl, Nat.add_comm]
  | succ j h ih =>
    rw [reach, step_succ h]
    omega

/-- A step is no longer than the way so far. -/
theorem step_le_reach (t j : ℕ) : step t j ≤ reach t j + 1 := by
  rcases Nat.le_total j t with hle | hge
  · rw [step_of_le hle]
    exact Nat.le_add_left 1 _
  · rw [reach_of_ge hge]
    exact Nat.le_add_right _ t

/-- The step that passes a place ends no more than twice as far back. -/
theorem reach_succ_le (h : reach t j < d) : reach t (j + 1) ≤ 2 * d := by
  have hstep := step_le_reach t j
  rw [reach]
  omega

theorem index_le (h : reach t j ≤ n) : j ≤ t + Nat.log 2 (n + 1) := by
  have hpow : 2 ^ (j - t) ≤ n + 1 := (step_le_reach t j).trans (Nat.add_le_add_right h 1)
  have hlog := Nat.le_log_of_pow_le Nat.one_lt_two hpow
  omega

/-- The first step that leaves the way. -/
theorem exists_beyond (t n : ℕ) :
    ∃ m, m ≤ t + Nat.log 2 (n + 1) + 1 ∧ n < reach t m ∧ ∀ j < m, reach t j ≤ n := by
  have hex : ∃ m, n < reach t m := ⟨n + 1, le_reach t (n + 1)⟩
  refine ⟨Nat.find hex, ?_, Nat.find_spec hex, fun j hj => Nat.not_lt.mp (Nat.find_min hex hj)⟩
  by_contra hlarge
  have hmin := Nat.find_min hex (m := t + Nat.log 2 (n + 1) + 1) (Nat.not_le.mp hlarge)
  have hle := index_le (Nat.not_lt.mp hmin)
  omega

end Backoff
