import Mathlib.Algebra.Order.Ring.Abs
import Mathlib.Data.Int.ModEq
import Mathlib.Tactic.Ring
import Dions.Model.RelayInv

/-! # Inverses are inverse

`c` and `a` stay within the modulus in size, and what is left of `v` at the end is the greatest
common divisor. -/

namespace Dions

open Halting

/-! ## Rounds -/

/-- What the loop keeps: `c` and `a` are the multiples of `x` that leave `u` and `v`, of opposite
signs and so small that their products with `v` and `u` make up `y`. -/
structure Bezout (x y : ℤ) (s : RelayRound) : Prop where
  pos : 0 < s.v
  nonneg : 0 ≤ s.u
  lt : s.u < s.v
  le : s.v ≤ y
  coprime : Int.gcd s.u s.v = 1
  left : x * s.c ≡ s.u [ZMOD y]
  right : x * s.a ≡ s.v [ZMOD y]
  signs : s.c ≤ 0 ∧ 0 ≤ s.a ∨ 0 ≤ s.c ∧ s.a ≤ 0
  size : |s.c| * s.v + |s.a| * s.u = y
  small : |s.a| ≤ y

variable {x y : ℤ} {s : RelayRound}

namespace Bezout

theorem start (hx : 1 ≤ x) (hxy : x < y) (hgcd : Int.gcd x y = 1) : Bezout x y ⟨x, y, 1, 0⟩ where
  pos := by dsimp only; omega
  nonneg := by dsimp only; omega
  lt := hxy
  le := le_rfl
  coprime := hgcd
  left := by rw [mul_one]
  right := by
    rw [mul_zero]
    exact (Int.modEq_zero_iff_dvd.mpr dvd_rfl).symm
  signs := .inr ⟨zero_le_one, le_rfl⟩
  size := by simp
  small := by
    dsimp only
    rw [abs_zero]
    omega

theorem abs_next (h : Bezout x y s) (hu : 0 < s.u) :
    |s.a - s.v / s.u * s.c| = |s.a| + s.v / s.u * |s.c| := by
  have hq : 0 ≤ s.v / s.u := Int.ediv_nonneg h.pos.le hu.le
  rcases h.signs with ⟨hc, ha⟩ | ⟨hc, ha⟩
  · have hqc := mul_nonpos_of_nonneg_of_nonpos hq hc
    rw [abs_of_nonneg (by omega), abs_of_nonneg ha, abs_of_nonpos hc]
    ring
  · have hqc := mul_nonneg hq hc
    rw [abs_of_nonpos (by omega), abs_of_nonpos ha, abs_of_nonneg hc]
    ring

theorem round (h : Bezout x y s) (hu : 0 < s.u) :
    Bezout x y ⟨s.v % s.u, s.u, s.a - s.v / s.u * s.c, s.c⟩ where
  pos := hu
  nonneg := Int.emod_nonneg _ hu.ne'
  lt := Int.emod_lt_of_pos _ hu
  le := h.lt.le.trans h.le
  coprime := by
    dsimp only
    rw [Int.emod_def, Int.gcd_sub_mul_left_left, Int.gcd_comm]
    exact h.coprime
  left := by
    dsimp only
    have hstep := h.right.sub (h.left.mul_left (s.v / s.u))
    have hrest : s.v - s.v / s.u * s.u = s.v % s.u := by
      rw [Int.emod_def, mul_comm]
    rw [hrest] at hstep
    convert hstep using 1
    ring
  right := h.left
  signs := by
    dsimp only
    have hq : 0 ≤ s.v / s.u := Int.ediv_nonneg h.pos.le hu.le
    rcases h.signs with ⟨hc, ha⟩ | ⟨hc, ha⟩
    · have hqc := mul_nonpos_of_nonneg_of_nonpos hq hc
      exact .inr ⟨by omega, hc⟩
    · have hqc := mul_nonneg hq hc
      exact .inl ⟨by omega, hc⟩
  size := by
    dsimp only
    rw [h.abs_next hu, Int.emod_def, ← h.size]
    ring
  small := by
    dsimp only
    have hle := le_mul_of_one_le_right (abs_nonneg s.c) (by have := h.pos; omega : 1 ≤ s.v)
    have hrest := mul_nonneg (abs_nonneg s.a) h.nonneg
    have hsize := h.size
    omega

/-- Everything a round computes fits. -/
theorem next_ok (h : Bezout x y s) (hu : 0 < s.u) (hy : y < 2 ^ 31) :
    s.next = .ok ⟨s.v % s.u, s.u, s.a - s.v / s.u * s.c, s.c⟩ := by
  have hq : 0 ≤ s.v / s.u := Int.ediv_nonneg h.pos.le hu.le
  have hround := (h.round hu).size
  have hc' : |s.a - s.v / s.u * s.c| ≤ y := by
    dsimp only at hround
    have hpos := mul_nonneg (abs_nonneg s.c) (Int.emod_nonneg s.v hu.ne')
    have hle := le_mul_of_one_le_right (abs_nonneg (s.a - s.v / s.u * s.c)) (by omega : 1 ≤ s.u)
    omega
  have hqc : |s.v / s.u * s.c| ≤ y := by
    have habs := h.abs_next hu
    rw [abs_mul, abs_of_nonneg hq]
    have := abs_nonneg s.a
    omega
  have hdiv : s.v.tdiv s.u = s.v / s.u := Int.tdiv_eq_ediv_of_nonneg h.pos.le
  have hqu : s.v / s.u * s.u = s.v - s.v % s.u := by
    rw [Int.emod_def, mul_comm]
    ring
  have hqle : s.v / s.u ≤ s.v := Int.ediv_le_self _ h.pos.le
  have hrest := Int.emod_nonneg s.v hu.ne'
  have hlt := Int.emod_lt_of_pos s.v hu
  have hv := h.le
  have hvu := h.lt
  rw [RelayRound.next, intDiv, if_neg hu.ne', hdiv,
    intValue_ok (by rw [abs_of_nonneg hq]; omega)]
  simp only [bind, Except.bind]
  rw [intValue_ok (by omega)]
  simp only
  rw [intValue_ok (by omega)]
  simp only
  rw [hqu, intValue_ok (by rw [abs_of_nonneg (by omega)]; omega)]
  simp only
  rw [sub_sub_cancel, intValue_ok (by rw [abs_of_nonneg hrest]; omega)]

end Bezout

/-! ## The loop -/

/-- The loop ends with no division by zero and no result that does not fit. -/
theorem Bezout.run (h : Bezout x y s) (hu : 0 < s.u) (hy : y < 2 ^ 31) :
    ∃ last, relayLoop.run s = .ok last ∧ Bezout x y last ∧ last.u = 0 := by
  obtain ⟨s', htries, hlast⟩ := @Retry.exists_last _ _ relayLoop s
  have hkept : Bezout x y s' ∧ 0 < s'.u := by
    refine @Retry.Tries.invariant _ _ relayLoop (fun t => Bezout x y t ∧ 0 < t.u) ?_ _ _ htries
      ⟨h, hu⟩
    rintro t t' ⟨ht, hpos⟩ hagain
    simp only [relayLoop, ht.next_ok hpos hy] at hagain
    split at hagain
    next hne =>
      cases hagain
      exact ⟨ht.round hpos, lt_of_le_of_ne (ht.round hpos).nonneg (Ne.symm hne)⟩
    next => cases hagain
  obtain ⟨hs', hpos⟩ := hkept
  simp only [relayLoop, hs'.next_ok hpos hy] at hlast
  split at hlast
  next => cases hlast
  next hzero =>
    exact ⟨_, (Attempt.done.inj hlast).symm, hs'.round hpos, not_not.mp hzero⟩

theorem intMod_ok {a : ℤ} (hy : 0 < y) (ha : |a| < 2 ^ 31) : intMod a y = .ok (a.tmod y) := by
  have hdiv : |a.tdiv y| ≤ |a| := by
    rw [Int.abs_eq_natAbs, Int.abs_eq_natAbs, Int.natAbs_tdiv]
    exact_mod_cast Nat.div_le_self _ _
  rw [intMod, intDiv, if_neg hy.ne', intValue_ok (by omega)]
  rfl

theorem relay_inv_inverse (hx : 1 ≤ x) (hxy : x < y) (hy : y < 2 ^ 31)
    (hgcd : Int.gcd x y = 1) :
    ∃ r, relay_inv x y = .ok r ∧ 0 ≤ r ∧ r < y ∧ x * r ≡ 1 [ZMOD y] := by
  obtain ⟨last, hrun, h, hzero⟩ := (Bezout.start hx hxy hgcd).run (by dsimp only; omega) hy
  have hone : last.v = 1 := by
    have hgcd' := h.coprime
    have hpos := h.pos
    rw [hzero, Int.gcd_zero_left] at hgcd'
    omega
  have hsmall := h.small
  have hmod : x * last.a.tmod y ≡ 1 [ZMOD y] := by
    have hstep : last.a.tmod y ≡ last.a [ZMOD y] := by
      rw [Int.tmod_def]
      exact (Int.modEq_sub_modulus_mul_iff.mpr rfl).symm
    rw [← hone]
    exact (hstep.mul_left x).trans h.right
  have habs : |last.a.tmod y| < y := by
    rw [Int.abs_eq_natAbs, Int.natAbs_tmod]
    have := Nat.mod_lt last.a.natAbs (Int.natAbs_pos.mpr (by omega : y ≠ 0))
    omega
  have hrange := abs_lt.mp habs
  rw [relay_inv, hrun]
  simp only [bind, Except.bind]
  rw [intMod_ok (by omega) (by omega)]
  simp only
  split
  next hneg =>
    refine ⟨_, intValue_ok (by rw [abs_of_nonneg (by omega)]; omega), by omega, by omega, ?_⟩
    rw [mul_add]
    exact (Int.ModEq.add_right _ (Int.modEq_zero_iff_dvd.mpr (Dvd.intro_left x rfl))).trans
      (by rwa [zero_add])
  next hpos => exact ⟨_, rfl, by omega, hrange.2, hmod⟩

/-- The inverse of a number close to the bound. -/
theorem relay_inv_inverse_large : ∃ r, relay_inv 2147483645 2147483647 = .ok r ∧ 0 ≤ r ∧
    r < 2147483647 ∧ 2147483645 * r ≡ 1 [ZMOD 2147483647] :=
  relay_inv_inverse (by decide) (by decide) (by decide) (by decide)

end Dions
