import Mathlib.Data.List.Induction
import Mathlib.Logic.Function.Basic

/-! # Batches of changes

A batch holds puts and deletes that are applied to a map at once and in order. What it leaves of a
key is what its last operation on that key says, so a reader can look there first. -/

universe u v

inductive BatchOp (κ : Type u) (β : Type v) where
  | put (key : κ) (value : β)
  | delete (key : κ)
  deriving DecidableEq, Repr

namespace BatchOp

variable {κ : Type u} {β : Type v}

def key : BatchOp κ β → κ
  | put k _ => k
  | delete k => k

/-- What is found under the key afterwards. -/
def value : BatchOp κ β → Option β
  | put _ v => some v
  | delete _ => none

end BatchOp

namespace Batch

variable {κ : Type u} {β : Type v} [DecidableEq κ]

/-- The operations in order. -/
def apply (m : κ → Option β) (ops : List (BatchOp κ β)) : κ → Option β :=
  ops.foldl (fun m op => Function.update m op.key op.value) m

/-- What the last operation on the key leaves there; `none` when no operation is on it. -/
def effect (k : κ) (ops : List (BatchOp κ β)) : Option (Option β) :=
  ops.foldl (fun found op => if op.key = k then some op.value else found) none

@[simp] theorem effect_nil (k : κ) : effect k ([] : List (BatchOp κ β)) = none := rfl

@[simp] theorem effect_concat (k : κ) (ops : List (BatchOp κ β)) (op : BatchOp κ β) :
    effect k (ops ++ [op]) = if op.key = k then some op.value else effect k ops := by
  simp [effect]

@[simp] theorem apply_concat (m : κ → Option β) (ops : List (BatchOp κ β)) (op : BatchOp κ β) :
    apply m (ops ++ [op]) = Function.update (apply m ops) op.key op.value := by
  simp [apply]

/-- Looking into the batch first gives what the map holds once it is applied. -/
theorem apply_eq (m : κ → Option β) (ops : List (BatchOp κ β)) (k : κ) :
    apply m ops k = (effect k ops).getD (m k) := by
  induction ops using List.reverseRecOn with
  | nil => rfl
  | append_singleton ops op ih =>
      rw [apply_concat, effect_concat]
      by_cases hk : op.key = k
      · rw [if_pos hk, ← hk, Function.update_self]
        rfl
      · rw [if_neg hk, Function.update_of_ne (Ne.symm hk), ih]

theorem effect_append_of_untouched (k : κ) (ops post : List (BatchOp κ β))
    (hpost : ∀ op ∈ post, op.key ≠ k) : effect k (ops ++ post) = effect k ops := by
  induction post using List.reverseRecOn with
  | nil => simp
  | append_singleton post op ih =>
      have hop : op.key ≠ k := hpost op (by simp)
      rw [← List.append_assoc, effect_concat, if_neg hop]
      exact ih fun o ho => hpost o (by simp [ho])

theorem effect_eq_some_iff (k : κ) (ops : List (BatchOp κ β)) (v : Option β) :
    effect k ops = some v ↔
      ∃ pre op post, ops = pre ++ op :: post ∧ op.key = k ∧ op.value = v ∧
        ∀ o ∈ post, o.key ≠ k := by
  constructor
  · induction ops using List.reverseRecOn with
    | nil => simp
    | append_singleton ops op ih =>
        intro h
        rw [effect_concat] at h
        by_cases hk : op.key = k
        · rw [if_pos hk] at h
          exact ⟨ops, op, [], rfl, hk, Option.some.inj h, by simp⟩
        · rw [if_neg hk] at h
          obtain ⟨pre, o, post, rfl, ho, hv, hpost⟩ := ih h
          refine ⟨pre, o, post ++ [op], by simp, ho, hv, ?_⟩
          intro o' ho'
          rcases List.mem_append.mp ho' with hmem | hmem
          · exact hpost o' hmem
          · rw [List.mem_singleton.mp hmem]
            exact hk
  · rintro ⟨pre, op, post, rfl, hk, hv, hpost⟩
    have hsplit : pre ++ op :: post = (pre ++ [op]) ++ post := by simp
    rw [hsplit, effect_append_of_untouched k _ post hpost, effect_concat, if_pos hk, hv]

end Batch
