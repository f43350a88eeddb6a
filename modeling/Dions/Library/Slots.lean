import Mathlib.Data.List.Basic
import Mathlib.Data.List.Nodup

/-! # Lists in which one place is changed

What a change of one place, or the exchange of two, does to the members of a list and of a list of
lists. -/

universe u

namespace Slots

variable {α : Type u}
variable {i : ℕ}

theorem countP_set (p : α → Bool) {xs : List α} {i : ℕ} {x : α} (y : α) (h : xs[i]? = some x) :
    (xs.set i y).countP p + (if p x then 1 else 0) = xs.countP p + (if p y then 1 else 0) := by
  induction xs generalizing i with
  | nil => cases h
  | cons z xs ih =>
    cases i with
    | zero =>
      rw [List.getElem?_cons_zero, Option.some.injEq] at h
      rw [h, List.set_cons_zero, List.countP_cons, List.countP_cons]
      omega
    | succ i =>
      rw [List.getElem?_cons_succ] at h
      have hrest := ih h
      rw [List.set_cons_succ, List.countP_cons, List.countP_cons]
      omega

theorem countP_flatten_set (p : α → Bool) {xss : List (List α)} {i : ℕ} {xs : List α}
    (ys : List α) (h : xss[i]? = some xs) :
    (xss.set i ys).flatten.countP p + xs.countP p = xss.flatten.countP p + ys.countP p := by
  induction xss generalizing i with
  | nil => cases h
  | cons zs xss ih =>
    cases i with
    | zero =>
      rw [List.getElem?_cons_zero, Option.some.injEq] at h
      rw [h, List.set_cons_zero, List.flatten_cons, List.flatten_cons, List.countP_append,
        List.countP_append]
      omega
    | succ i =>
      rw [List.getElem?_cons_succ] at h
      have hrest := ih h
      rw [List.set_cons_succ, List.flatten_cons, List.flatten_cons, List.countP_append,
        List.countP_append]
      omega

theorem count_flatten_set [BEq α] (a : α) {xss : List (List α)} {i : ℕ} {xs : List α}
    (ys : List α) (h : xss[i]? = some xs) :
    (xss.set i ys).flatten.count a + xs.count a = xss.flatten.count a + ys.count a :=
  countP_flatten_set (· == a) ys h

theorem length_flatten_set {xss : List (List α)} {xs : List α} (ys : List α) (h : xss[i]? = some xs) :
    (xss.set i ys).flatten.length + xs.length = xss.flatten.length + ys.length := by
  have hall := countP_flatten_set (fun _ => true) ys h
  simpa only [List.countP_true] using hall

theorem getElem?_set_some {xs : List α} {i k : ℕ} {x : α} (y : α) (h : xs[i]? = some x) :
    (xs.set i y)[k]? = if k = i then some y else xs[k]? := by
  have hlt := (List.getElem?_eq_some_iff.mp h).1
  by_cases hk : k = i
  · rw [hk, if_pos rfl, List.getElem?_set_self hlt]
  · rw [if_neg hk, List.getElem?_set_ne (fun heq => hk heq.symm)]

theorem forall_mem_set {P : α → Prop} {xs : List α} {y : α} (h : ∀ x ∈ xs, P x) (hy : P y) :
    ∀ x ∈ xs.set i y, P x := by
  intro x hx
  cases List.mem_or_eq_of_mem_set hx with
  | inl hmem => exact h x hmem
  | inr heq => rw [heq]; exact hy

/-! ## Exchange -/

theorem swap_perm {xs : List α} {j : ℕ} {a b : α} (hi : xs[i]? = some a) (hj : xs[j]? = some b) :
    ((xs.set i b).set j a).Perm xs := by
  obtain ⟨hilt, rfl⟩ := List.getElem?_eq_some_iff.mp hi
  obtain ⟨hjlt, rfl⟩ := List.getElem?_eq_some_iff.mp hj
  exact List.set_set_perm hilt hjlt

theorem getElem?_swap {xs : List α} {i j k : ℕ} {a b : α} (hi : xs[i]? = some a)
    (hj : xs[j]? = some b) :
    ((xs.set i b).set j a)[k]? = if k = j then some a else if k = i then some b else xs[k]? := by
  have hj' : (xs.set i b)[j]? = some b := by
    rw [getElem?_set_some b hi]
    split
    · rfl
    · exact hj
  rw [getElem?_set_some a hj', getElem?_set_some b hi]

/-- In a list without duplicates a member has one place. -/
theorem nodup_place {xs : List α} (h : xs.Nodup) {i j : ℕ} {a : α} (hi : xs[i]? = some a)
    (hj : xs[j]? = some a) : i = j := by
  obtain ⟨hilt, hia⟩ := List.getElem?_eq_some_iff.mp hi
  obtain ⟨hjlt, hja⟩ := List.getElem?_eq_some_iff.mp hj
  exact (h.getElem_inj_iff).mp (hia.trans hja.symm)

end Slots
