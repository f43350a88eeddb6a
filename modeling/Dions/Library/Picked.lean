import Mathlib.Algebra.Order.BigOperators.Group.List
import Mathlib.Algebra.Order.Ring.Int

/-! # Sublists by flags

A list of flags picks elements of a list, and the weight of the flags is the sum of the values of
what is picked. Setting one flag adds one value. -/

namespace Picked

variable {α β : Type}

def picked : List α → List Bool → List α
  | x :: xs, f :: fs => if f then x :: picked xs fs else picked xs fs
  | _, _ => []

theorem picked_sublist (xs : List α) (fs : List Bool) : (picked xs fs).Sublist xs := by
  induction xs generalizing fs with
  | nil => cases fs <;> exact .slnil
  | cons x xs ih =>
    cases fs with
    | nil => exact List.nil_sublist _
    | cons f fs =>
      cases f with
      | false => exact (ih fs).cons x
      | true => exact (ih fs).cons_cons x

theorem picked_all (xs : List α) : picked xs (List.replicate xs.length true) = xs := by
  induction xs with
  | nil => rfl
  | cons x xs ih =>
    rw [List.length_cons, List.replicate_succ]
    exact congrArg (x :: ·) ih

theorem picked_none (xs : List α) (n : ℕ) : picked xs (List.replicate n false) = [] := by
  induction xs generalizing n with
  | nil => cases n <;> rfl
  | cons x xs ih =>
    cases n with
    | zero => rfl
    | succ n => exact ih n

/-- A loop over all elements that acts on the flagged ones is a loop over what is picked. -/
theorem foldl_zip (step : β → α → β) (xs : List α) (fs : List Bool) (init : β) :
    (xs.zip fs).foldl (fun acc entry => if entry.2 then step acc entry.1 else acc) init =
      (picked xs fs).foldl step init := by
  induction xs generalizing fs init with
  | nil => cases fs <;> rfl
  | cons x xs ih =>
    cases fs with
    | nil => rfl
    | cons f fs =>
      cases f with
      | false => exact ih fs init
      | true => exact ih fs (step init x)

variable (v : α → ℤ)

def weight (xs : List α) (fs : List Bool) : ℤ := ((picked xs fs).map v).sum

theorem weight_all (xs : List α) :
    weight v xs (List.replicate xs.length true) = (xs.map v).sum := by
  rw [weight, picked_all]

theorem weight_none (xs : List α) (n : ℕ) : weight v xs (List.replicate n false) = 0 := by
  rw [weight, picked_none]
  rfl

theorem weight_nonneg {xs : List α} (hv : ∀ x ∈ xs, 0 ≤ v x) (fs : List Bool) :
    0 ≤ weight v xs fs := by
  apply List.sum_nonneg
  intro n hn
  rcases List.mem_map.mp hn with ⟨x, hx, rfl⟩
  exact hv x ((picked_sublist xs fs).subset hx)

theorem weight_le {xs : List α} (hv : ∀ x ∈ xs, 0 ≤ v x) (fs : List Bool) :
    weight v xs fs ≤ (xs.map v).sum := by
  apply ((picked_sublist xs fs).map v).sum_le_sum
  intro n hn
  rcases List.mem_map.mp hn with ⟨x, hx, rfl⟩
  exact hv x hx

theorem weight_set {xs : List α} {fs : List Bool} {i : ℕ} {x : α} (hx : xs[i]? = some x)
    (hf : fs[i]? = some false) : weight v xs (fs.set i true) = weight v xs fs + v x := by
  induction xs generalizing fs i with
  | nil => simp at hx
  | cons y xs ih =>
    cases fs with
    | nil => simp at hf
    | cons f fs =>
      cases i with
      | zero =>
        have hy : y = x := by simpa using hx
        have hfalse : f = false := by simpa using hf
        subst hy hfalse
        simp only [weight, picked, List.set_cons_zero, if_true, List.map_cons, List.sum_cons,
          Bool.false_eq_true, if_false]
        rw [add_comm]
      | succ i =>
        have hrec := ih (by simpa using hx) (by simpa using hf)
        cases f with
        | false => exact hrec
        | true =>
          simp only [weight, picked, List.set_cons_succ, if_true, List.map_cons,
            List.sum_cons] at hrec ⊢
          rw [hrec, add_assoc]

end Picked
