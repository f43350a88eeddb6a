import Mathlib.Data.List.Basic

/-! # Stacks by position

The operations of a vector that is used as a stack. A list has the top first, and a position counts
from the end of the vector, so that the top is at position one. An operation at a position outside of
the stack stops the computation; a computation that is checked against one without positions never
stops that way. -/

/-- Why a computation stops early: at a position outside of the stack, or for a reason of its own. -/
inductive Stop (ε : Type) where
  | outside
  | because (e : ε)
  deriving DecidableEq, Repr

namespace Stop

variable {ε α β : Type}
variable {p : Prop}

/-! ## Operations -/

/-- The element at `end() - k`. -/
def peek (stack : List α) : (k : ℕ) → Except (Stop ε) α
  | 0 => .error .outside
  | k + 1 =>
    match stack[k]? with
    | none => .error .outside
    | some x => .ok x

def pop : List α → Except (Stop ε) (List α)
  | [] => .error .outside
  | _ :: stack => .ok stack

def pops : (n : ℕ) → List α → Except (Stop ε) (List α)
  | 0, stack => .ok stack
  | n + 1, stack => do
    let stack ← pop stack
    pops n stack

/-- `erase(end() - k, end() - l)`. -/
def erase (stack : List α) (k l : ℕ) : Except (Stop ε) (List α) :=
  if l ≤ k ∧ k ≤ stack.length then .ok (stack.take l ++ stack.drop k) else .error .outside

/-- `insert(end() - k, x)`: in front of the element at that position. -/
def insert (stack : List α) (k : ℕ) (x : α) : Except (Stop ε) (List α) :=
  if k ≤ stack.length then .ok (stack.take k ++ x :: stack.drop k) else .error .outside

/-- The elements at two positions change places. -/
def swap (stack : List α) (k l : ℕ) : Except (Stop ε) (List α) := do
  let x ← peek stack k
  let y ← peek stack l
  .ok ((stack.set (k - 1) y).set (l - 1) x)

def stopIf (p : Prop) [Decidable p] (e : ε) : Except (Stop ε) Unit :=
  if p then .error (.because e) else .ok ()

/-- A step that may fail for a reason. -/
def orElse (o : Option α) (e : ε) : Except (Stop ε) α :=
  match o with
  | none => .error (.because e)
  | some x => .ok x

theorem bind_ok {r : Except (Stop ε) α} {next : α → Except (Stop ε) β} {y : β} :
    (r >>= next) = .ok y ↔ ∃ x, r = .ok x ∧ next x = .ok y := by
  cases r with
  | error e => simp [bind, Except.bind]
  | ok x => simp [bind, Except.bind]

theorem stopIf_ok [Decidable p] {e : ε} {next : Unit → Except (Stop ε) α} {x : α} :
    (stopIf p e >>= next) = .ok x ↔ ¬p ∧ next () = .ok x := by
  by_cases hp : p
  · simp [stopIf, hp, bind, Except.bind]
  · simp [stopIf, hp, bind, Except.bind]

/-! ## Inside of the stack -/

theorem peek_inside {stack : List α} {k : ℕ} (h : k < stack.length) :
    (peek stack (k + 1) : Except (Stop ε) α) = .ok stack[k] := by
  rw [peek, List.getElem?_eq_getElem h]

theorem pops_inside {n : ℕ} {stack : List α} (h : n ≤ stack.length) :
    (pops n stack : Except (Stop ε) (List α)) = .ok (stack.drop n) := by
  induction n generalizing stack with
  | zero => rfl
  | succ n ih =>
    match stack with
    | [] => simp at h
    | x :: stack => exact ih (Nat.le_of_succ_le_succ h)

theorem erase_inside {stack : List α} {k : ℕ} (h : k < stack.length) :
    (erase stack (k + 1) k : Except (Stop ε) (List α)) = .ok (stack.eraseIdx k) := by
  rw [erase, if_pos ⟨Nat.le_succ k, h⟩, List.eraseIdx_eq_take_drop_succ]

/-! ## Refinement -/

/-- The computation does the same as one without positions, and where that one fails it stops for a
reason of its own. -/
def Refines (r : Except (Stop ε) α) : (o : Option α) → Prop
  | some x => r = .ok x
  | none => ∃ e, r = .error (.because e)

namespace Refines

variable {r : Except (Stop ε) α} {o : Option α}

/-- No position outside of the stack is used. -/
theorem inside (h : Refines r o) : r ≠ .error .outside := by
  cases o with
  | none =>
    obtain ⟨e, he⟩ := h
    rw [he]
    simp
  | some x =>
    have hr : r = .ok x := h
    rw [hr]
    simp

theorem ok_iff (h : Refines r o) (x : α) : r = .ok x ↔ o = some x := by
  cases o with
  | none =>
    obtain ⟨e, he⟩ := h
    simp [he]
  | some y =>
    have hr : r = .ok y := h
    simp [hr]

theorem congr {o' : Option α} (h : Refines r o) (ho : o = o') : Refines r o' := ho ▸ h

theorem ok (x : α) : Refines (.ok x : Except (Stop ε) α) (some x) := rfl

theorem because (e : ε) : Refines (.error (.because e) : Except (Stop ε) α) none := ⟨e, rfl⟩

theorem bind (h : Refines r o) {f : α → Except (Stop ε) β} {g : α → Option β}
    (hnext : ∀ x, o = some x → Refines (f x) (g x)) : Refines (r >>= f) (o.bind g) := by
  cases o with
  | none =>
    obtain ⟨e, he⟩ := h
    rw [he]
    exact because e
  | some x =>
    have hr : r = .ok x := h
    rw [hr]
    exact hnext x rfl

theorem orElse (o : Option α) (e : ε) : Refines (Stop.orElse o e) o := by
  cases o with
  | none => exact because e
  | some x => exact ok x

theorem stopIf [Decidable p] {e : ε} {next : Unit → Except (Stop ε) α} (hstop : p → o = none)
    (hnext : ¬p → Refines (next ()) o) : Refines (Stop.stopIf p e >>= next) o := by
  by_cases hp : p
  · rw [Stop.stopIf, if_pos hp, hstop hp]
    exact because e
  · rw [Stop.stopIf, if_neg hp]
    exact hnext hp

theorem check [Decidable p] {e : ε} {next : Unit → Except (Stop ε) α}
    (hnext : ¬p → Refines (next ()) o) :
    Refines (Stop.stopIf p e >>= next) (if p then none else o) := by
  apply stopIf
  · intro hp
    rw [if_pos hp]
  · intro hp
    rw [if_neg hp]
    exact hnext hp

end Refines

end Stop
