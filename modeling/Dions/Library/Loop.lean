import Mathlib.Data.Nat.Basic
import Mathlib.Logic.Relation
import Mathlib.Tactic.ByContra

/-! # Loops that use something up

A loop whose rounds each make a measure smaller ends. Where the body may fail, it is run with a number
of rounds as bound: every bound that is large enough gives the same result, so the loop can be read as
the recursion it is. Where a round is an attempt that either has a result or asks for another attempt,
the result is that of the last attempt. -/

/-! ## Bodies that may fail -/

/-- `done` ends the loop, and a round that does not fail makes `size` smaller. -/
structure Loop (σ : Type*) where
  done : σ → Bool
  body : σ → Option σ
  size : σ → ℕ
  size_pos (s : σ) : done s = false → 0 < size s
  size_body (s t : σ) : done s = false → body s = some t → size t < size s

namespace Loop

variable {σ : Type*} (L : Loop σ)

/-- The loop with at most `fuel` rounds. -/
def run : (fuel : ℕ) → σ → Option σ
  | 0, s => some s
  | fuel + 1, s => if L.done s then some s else (L.body s).bind (run fuel)

/-- The loop itself. -/
def eval (s : σ) : Option σ := L.run (L.size s) s

variable {L}

theorem run_done {fuel : ℕ} {s : σ} (h : L.done s = true) : L.run fuel s = some s := by
  cases fuel with
  | zero => rfl
  | succ fuel => simp [run, h]

theorem run_congr {m n : ℕ} {s : σ} (hm : L.size s ≤ m) (hn : L.size s ≤ n) :
    L.run m s = L.run n s := by
  induction m generalizing n s with
  | zero =>
    have hdone : L.done s = true := by
      by_contra h
      have := L.size_pos s (by simpa using h)
      omega
    rw [run_done hdone, run_done hdone]
  | succ m ih =>
    cases hdone : L.done s with
    | true => rw [run_done hdone, run_done hdone]
    | false =>
      have hpos := L.size_pos s hdone
      obtain ⟨n, rfl⟩ : ∃ k, n = k + 1 := ⟨n - 1, by omega⟩
      simp only [run, hdone, Bool.false_eq_true, if_false]
      cases hbody : L.body s with
      | none => rfl
      | some t =>
        have hlt := L.size_body s t hdone hbody
        exact ih (by omega) (by omega)

theorem run_eq_eval {fuel : ℕ} {s : σ} (h : L.size s ≤ fuel) : L.run fuel s = L.eval s :=
  run_congr h le_rfl

theorem eval_done {s : σ} (h : L.done s = true) : L.eval s = some s := run_done h

theorem eval_body {s : σ} (h : L.done s = false) : L.eval s = (L.body s).bind L.eval := by
  rw [← run_eq_eval (Nat.le_succ (L.size s)), run, h]
  cases hbody : L.body s with
  | none => rfl
  | some t => exact run_eq_eval (Nat.le_of_lt (L.size_body s t h hbody))

theorem run_invariant {P : σ → Prop}
    (hbody : ∀ s t, L.done s = false → L.body s = some t → P s → P t) {fuel : ℕ} {s t : σ}
    (h : L.run fuel s = some t) (hs : P s) : P t := by
  induction fuel generalizing s with
  | zero =>
    rw [run, Option.some.injEq] at h
    rwa [← h]
  | succ fuel ih =>
    cases hdone : L.done s with
    | true =>
      rw [run_done hdone, Option.some.injEq] at h
      rwa [← h]
    | false =>
      simp only [run, hdone, Bool.false_eq_true, if_false] at h
      obtain ⟨u, hu, hrest⟩ := Option.bind_eq_some_iff.mp h
      exact ih hrest (hbody s u hdone hu hs)

/-- What every round preserves holds where the loop ends. -/
theorem eval_invariant {P : σ → Prop}
    (hbody : ∀ s t, L.done s = false → L.body s = some t → P s → P t) {s t : σ}
    (h : L.eval s = some t) (hs : P s) : P t :=
  run_invariant hbody h hs

end Loop

/-! ## Attempts -/

inductive Attempt (σ α : Type) where
  | again (s : σ)
  | done (a : α)

structure Retry (σ α : Type) where
  attempt : σ → Attempt σ α
  size : σ → ℕ
  shrinks : ∀ s s', attempt s = .again s' → size s' < size s

namespace Retry

variable {σ α : Type} (L : Retry σ α)

def run (s : σ) : α :=
  match _hattempt : L.attempt s with
  | .again s' => run s'
  | .done a => a
termination_by L.size s
decreasing_by exact L.shrinks s s' _hattempt

/-- The second state is one that the loop gets to from the first. -/
def Tries : σ → σ → Prop := Relation.ReflTransGen fun s s' => L.attempt s = .again s'

variable {L}

theorem run_done {s : σ} {a : α} (h : L.attempt s = .done a) : L.run s = a := by
  rw [run]
  split
  next s' hagain =>
    rw [h] at hagain
    cases hagain
  next a' hdone =>
    rw [h] at hdone
    exact (Attempt.done.inj hdone).symm

theorem run_again {s s' : σ} (h : L.attempt s = .again s') : L.run s = L.run s' := by
  rw [run]
  split
  next s'' hagain =>
    rw [h] at hagain
    rw [Attempt.again.inj hagain]
  next a hdone =>
    rw [h] at hdone
    cases hdone

/-- The result does not change on the way. -/
theorem Tries.run_eq {s s' : σ} (h : L.Tries s s') : L.run s = L.run s' := by
  induction h with
  | refl => rfl
  | tail _ hstep ih => exact ih.trans (run_again hstep)

/-- The loop ends: some attempt is the last one, and the result is its own. -/
theorem exists_last (s : σ) : ∃ last, L.Tries s last ∧ L.attempt last = .done (L.run s) := by
  fun_induction run L s with
  | case1 s s' hagain ih =>
    obtain ⟨last, htries, hlast⟩ := ih
    exact ⟨last, .head hagain htries, hlast⟩
  | case2 s a hdone => exact ⟨s, .refl, hdone⟩

/-- What every new attempt keeps holds of all states the loop gets to. -/
theorem Tries.invariant {P : σ → Prop} (hstep : ∀ s s', P s → L.attempt s = .again s' → P s')
    {s s' : σ} (h : L.Tries s s') (hs : P s) : P s' := by
  induction h with
  | refl => exact hs
  | tail _ hagain ih => exact hstep _ _ ih hagain

end Retry
