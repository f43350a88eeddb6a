import Mathlib.Algebra.Order.Ring.Int
import Dions.Library.Halt
import Dions.Library.Loop

/-! # Inverses for relays

The extended Euclidean loop of `relay_inv`, on variables of type `int`. -/

namespace Dions

open Halting

/-- The value of an expression of type `int`; a result that does not fit has no meaning. -/
def intValue (n : ℤ) : Exec ℤ :=
  if -2 ^ 31 ≤ n ∧ n < 2 ^ 31 then .ok n else .error .undefined

/-- Division rounds towards zero. -/
def intDiv (n d : ℤ) : Exec ℤ :=
  if d = 0 then .error .undefined else intValue (n.tdiv d)

/-- The remainder has the sign of the dividend; where the quotient does not fit it has no meaning. -/
def intMod (n d : ℤ) : Exec ℤ := do
  let _ ← intDiv n d
  .ok (n.tmod d)

/-- The variables of the loop that outlive a round. -/
structure RelayRound where
  u : ℤ
  v : ℤ
  c : ℤ
  a : ℤ
  deriving DecidableEq, Repr

def RelayRound.next (s : RelayRound) : Exec RelayRound := do
  let q ← intDiv s.v s.u
  let qc ← intValue (q * s.c)
  let c ← intValue (s.a - qc)
  let qu ← intValue (q * s.u)
  let u ← intValue (s.v - qu)
  .ok ⟨u, s.u, c, s.c⟩

theorem intValue_eq_ok {n m : ℤ} : intValue n = .ok m ↔ (-2 ^ 31 ≤ n ∧ n < 2 ^ 31) ∧ m = n := by
  rw [intValue]
  split
  next h =>
    rw [Except.ok.injEq, eq_comm]
    exact ⟨fun hm => ⟨h, hm⟩, fun hm => hm.2⟩
  next h =>
    constructor
    · intro hm
      cases hm
    · intro hm
      exact absurd hm.1 h

theorem intValue_ok {n : ℤ} (h : |n| < 2 ^ 31) : intValue n = .ok n := by
  have := abs_lt.mp h
  exact intValue_eq_ok.mpr ⟨by omega, rfl⟩

theorem RelayRound.next_eq_ok {s s' : RelayRound} (h : s.next = .ok s') :
    s.u ≠ 0 ∧ s' = ⟨s.v.tmod s.u, s.u, s.a - s.v.tdiv s.u * s.c, s.c⟩ := by
  obtain ⟨q, hq, h⟩ := seq_ok.mp h
  obtain ⟨qc, hqc, h⟩ := seq_ok.mp h
  obtain ⟨c, hc, h⟩ := seq_ok.mp h
  obtain ⟨qu, hqu, h⟩ := seq_ok.mp h
  obtain ⟨u, hu, h⟩ := seq_ok.mp h
  rw [intDiv] at hq
  split at hq
  next => cases hq
  next hne =>
    obtain ⟨-, rfl⟩ := intValue_eq_ok.mp hq
    obtain ⟨-, rfl⟩ := intValue_eq_ok.mp hqc
    obtain ⟨-, rfl⟩ := intValue_eq_ok.mp hc
    obtain ⟨-, rfl⟩ := intValue_eq_ok.mp hqu
    obtain ⟨-, rfl⟩ := intValue_eq_ok.mp hu
    cases h
    refine ⟨hne, ?_⟩
    rw [Int.tmod_def, mul_comm s.u]

/-- The loop, with a meaningless expression as the end of it. -/
def relayLoop : Retry RelayRound (Exec RelayRound) where
  attempt s :=
    match s.next with
    | .error e => .done (.error e)
    | .ok s' => if s'.u ≠ 0 then .again s' else .done (.ok s')
  size s := s.u.natAbs
  shrinks s s' h := by
    cases hnext : s.next with
    | error e =>
      rw [hnext] at h
      cases h
    | ok s₁ =>
      obtain ⟨hne, hs⟩ := RelayRound.next_eq_ok hnext
      rw [hnext] at h
      dsimp only at h
      split at h
      next =>
        cases h
        rw [hs]
        rw [Int.natAbs_tmod]
        exact Nat.mod_lt _ (Int.natAbs_pos.mpr hne)
      next => cases h

def relay_inv (x y : ℤ) : Exec ℤ := do
  let s ← relayLoop.run ⟨x, y, 1, 0⟩
  let a ← intMod s.a y
  if a < 0 then intValue (y + a) else .ok a

end Dions
