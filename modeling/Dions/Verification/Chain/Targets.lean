import Dions.Library.Rounding
import Dions.Verification.Scenario

/-! # Retargeting

The compact form keeps the leading three bytes of a target. It never turns a positive target into
zero or into a negative number and it keeps the order of targets, so the bounds that the retarget
rules enforce before encoding hold of what the next block has to decode. -/

namespace Dions

variable (env : Env)
variable {bnTargetLimit : ℤ}
variable {x : ℕ} {nFees nFees' : ℤ}

/-! ## The compact form -/

/-- The number of bytes of the compact form, with room for a sign. -/
def compactSize (x : ℕ) : ℕ := (Nat.log2 x + 1) / 8 + 1

/-- The compact form cuts off all bytes behind the first three. -/
def compactUnit (x : ℕ) : ℕ := 256 ^ (compactSize x - 3)

theorem compactUnit_eq (x : ℕ) : compactUnit x = 2 ^ (8 * (compactSize x - 3)) := by
  rw [compactUnit, Nat.pow_mul]

theorem compactUnit_pos (x : ℕ) : 0 < compactUnit x := Nat.pow_pos (by decide)

theorem lt_two_pow_compactSize (x : ℕ) : x < 2 ^ (8 * compactSize x - 1) := by
  have hlog : x < 2 ^ (x.log2 + 1) := Nat.lt_log2_self
  have hexp : x.log2 + 1 ≤ 8 * compactSize x - 1 := by
    unfold compactSize
    omega
  exact hlog.trans_le (Nat.pow_le_pow_right (by decide) hexp)

theorem two_pow_le_of_compactSize (hx : 0 < x) (hsize : 2 ≤ compactSize x) :
    2 ^ (8 * compactSize x - 9) ≤ x := by
  have hlog : 2 ^ x.log2 ≤ x := Nat.log2_self_le (Nat.pos_iff_ne_zero.mp hx)
  have hexp : 8 * compactSize x - 9 ≤ x.log2 := by
    unfold compactSize at hsize ⊢
    omega
  exact (Nat.pow_le_pow_right (by decide) hexp).trans hlog

theorem compactSize_mono {y : ℕ} (hxy : x ≤ y) : compactSize x ≤ compactSize y := by
  by_cases hx : x = 0
  · subst hx
    exact Nat.add_le_add_right (Nat.div_le_div_right (Nat.succ_le_succ (Nat.zero_le _))) 1
  · have hy : y ≠ 0 := by omega
    have hlog : x.log2 ≤ y.log2 := (Nat.le_log2 hy).mpr ((Nat.log2_self_le hx).trans hxy)
    unfold compactSize
    omega

theorem compactUnit_le (hx : 0 < x) : compactUnit x ≤ x := by
  rw [compactUnit_eq]
  by_cases hsize : 2 ≤ compactSize x
  · exact (Nat.pow_le_pow_right (by decide) (by omega)).trans (two_pow_le_of_compactSize hx hsize)
  · have hzero : 8 * (compactSize x - 3) = 0 := by omega
    rw [hzero]
    exact hx

theorem compactUnit_graded : Rounding.Graded compactUnit := by
  intro x y hxy
  by_cases hsame : compactUnit x = compactUnit y
  · exact .inl hsame
  · -- the sizes differ, and the least number with the size of `y` is a multiple of its unit
    right
    have hsize : compactSize x < compactSize y := by
      refine Nat.lt_of_le_of_ne (compactSize_mono hxy) fun heq => hsame ?_
      rw [compactUnit, compactUnit, heq]
    have hone : 1 ≤ compactSize x := Nat.le_add_left 1 _
    have hy : 0 < y := by
      by_contra hzero
      have hx0 : x = y := by omega
      rw [hx0] at hsize
      omega
    have hlow := lt_two_pow_compactSize x
    refine ⟨2 ^ (8 * compactSize y - 9), ?_, two_pow_le_of_compactSize hy (by omega), ?_⟩
    · exact hlow.le.trans (Nat.pow_le_pow_right (by decide) (by omega))
    · rw [compactUnit_eq]
      exact Nat.pow_dvd_pow 2 (by omega)

theorem compactWord_lt (hsize : 3 ≤ compactSize x) : x / 256 ^ (compactSize x - 3) < 2 ^ 23 := by
  have hunit : 256 ^ (compactSize x - 3) = 2 ^ (8 * (compactSize x - 3)) := compactUnit_eq x
  rw [hunit, Nat.div_lt_iff_lt_mul (Nat.two_pow_pos _), ← Nat.pow_add]
  have hexp : 23 + 8 * (compactSize x - 3) = 8 * compactSize x - 1 := by omega
  rw [hexp]
  exact lt_two_pow_compactSize x

theorem smallWord_lt (hsize : ¬3 ≤ compactSize x) : x * 256 ^ (3 - compactSize x) < 2 ^ 23 := by
  have hpow : 256 ^ (3 - compactSize x) = 2 ^ (8 * (3 - compactSize x)) := by rw [Nat.pow_mul]
  have hlt := Nat.mul_lt_mul_of_pos_right (lt_two_pow_compactSize x)
    (Nat.two_pow_pos (8 * (3 - compactSize x)))
  rw [← Nat.pow_add] at hlt
  have hone : 1 ≤ compactSize x := Nat.le_add_left 1 _
  have hexp : 8 * compactSize x - 1 + 8 * (3 - compactSize x) = 23 := by omega
  rwa [hexp, ← hpow] at hlt

/-- Decoding the compact form of a positive number rounds it down. -/
theorem SetCompact_GetCompact (x : ℕ) :
    SetCompact (GetCompact x) = (Rounding.down compactUnit x : ℕ) := by
  by_cases hzero : x = 0
  · subst hzero
    decide
  have hcompact : ∀ word, word < 2 ^ 23 →
      SetCompact (compactSize x * 2 ^ 24 + word) =
        (if 3 ≤ compactSize x then word * 256 ^ (compactSize x - 3)
          else word / 256 ^ (3 - compactSize x) : ℕ) := by
    intro word hword
    have hdiv : (compactSize x * 2 ^ 24 + word) / 2 ^ 24 = compactSize x := by omega
    have hlow : (compactSize x * 2 ^ 24 + word) % 2 ^ 23 = word := by omega
    have hmod : (compactSize x * 2 ^ 24 + word) % 2 ^ 24 = word := by omega
    have hsign : ¬(2 ^ 23 ≤ word ∧ 1 ≤ compactSize x) := fun h => Nat.not_lt.mpr h.1 hword
    simp only [SetCompact, hdiv, hlow, hmod, if_neg hsign]
  have hneg : ¬((x : ℤ) < 0) := Int.not_lt.mpr (Int.natCast_nonneg x)
  have hget : GetCompact x = compactSize x * 2 ^ 24 +
      (if 3 ≤ compactSize x then x / 256 ^ (compactSize x - 3)
        else x * 256 ^ (3 - compactSize x)) := by
    unfold GetCompact
    rw [Int.natAbs_natCast, if_neg hzero, if_neg hneg, Nat.add_zero]
    rfl
  rw [hget]
  by_cases hlong : 3 ≤ compactSize x
  · rw [if_pos hlong, hcompact _ (compactWord_lt hlong), if_pos hlong]
    rfl
  · rw [if_neg hlong, hcompact _ (smallWord_lt hlong), if_neg hlong,
      Nat.mul_div_cancel _ (Nat.pow_pos (by decide))]
    have hunit : compactUnit x = 1 := by
      have hexp : compactSize x - 3 = 0 := by omega
      rw [compactUnit, hexp, Nat.pow_zero]
    rw [Rounding.down, hunit, Nat.div_one, Nat.mul_one]

def rounded (bnTarget : ℤ) : ℤ := SetCompact (GetCompact bnTarget)

theorem rounded_pos {x : ℤ} (hx : 0 < x) : 0 < rounded x := by
  obtain ⟨n, rfl⟩ := Int.eq_ofNat_of_zero_le hx.le
  have hn : 0 < n := Int.natCast_pos.mp hx
  rw [rounded, SetCompact_GetCompact]
  exact Int.natCast_pos.mpr (Rounding.down_pos (compactUnit_pos n) (compactUnit_le hn))

theorem rounded_le {x : ℤ} (hx : 0 ≤ x) : rounded x ≤ x := by
  obtain ⟨n, rfl⟩ := Int.eq_ofNat_of_zero_le hx
  rw [rounded, SetCompact_GetCompact]
  exact Int.ofNat_le.mpr (Rounding.down_le n)

theorem rounded_mono {x y : ℤ} (hx : 0 ≤ x) (hxy : x ≤ y) : rounded x ≤ rounded y := by
  obtain ⟨n, rfl⟩ := Int.eq_ofNat_of_zero_le hx
  obtain ⟨m, rfl⟩ := Int.eq_ofNat_of_zero_le (hx.trans hxy)
  rw [rounded, rounded, SetCompact_GetCompact, SetCompact_GetCompact]
  exact Int.ofNat_le.mpr (Rounding.down_mono compactUnit_graded (Int.ofNat_le.mp hxy))

/-! ## The rules -/

/-- A target out of bounds is replaced by the limit. -/
def clampTarget (bnTargetLimit bnNew : ℤ) : ℤ :=
  if bnNew ≤ 0 ∨ bnTargetLimit < bnNew then bnTargetLimit else bnNew

/-- The target of a retarget rule is the limit, or what its bound makes of some number. -/
theorem retarget_cases (bnTargetLimit : ℤ) (spacing : ℤ → ℤ) (pindexLast : CBlockIndex)
    (fProofOfStake : Bool) :
    (∀ bound, retarget bnTargetLimit spacing bound pindexLast fProofOfStake =
      GetCompact bnTargetLimit) ∨
    ∃ bnNew, ∀ bound, retarget bnTargetLimit spacing bound pindexLast fProofOfStake =
      GetCompact (bound bnNew) := by
  cases hprev : GetLastBlockIndex fProofOfStake pindexLast with
  | root d => exact .inl fun bound => by rw [retarget, hprev]
  | child d p =>
    cases hprevPrev : GetLastBlockIndex fProofOfStake p with
    | root d' => exact .inl fun bound => by simp only [retarget, hprev, hprevPrev]
    | child d' p' => exact .inr ⟨_, fun bound => by simp only [retarget, hprev, hprevPrev]; rfl⟩

theorem clampTarget_bounds (hlimit : 0 < bnTargetLimit) (bnNew : ℤ) :
    0 < clampTarget bnTargetLimit bnNew ∧ clampTarget bnTargetLimit bnNew ≤ bnTargetLimit := by
  unfold clampTarget
  split
  · exact ⟨hlimit, le_rfl⟩
  · omega

/-- What a retarget rule requires is positive and at most the limit, when its bound is. -/
theorem retarget_bounds (hlimit : 0 < bnTargetLimit) {bound : ℤ → ℤ}
    (hbound : ∀ bnNew, 0 < bound bnNew ∧ bound bnNew ≤ bnTargetLimit) (spacing : ℤ → ℤ)
    (pindexLast : CBlockIndex) (fProofOfStake : Bool) :
    0 < SetCompact (retarget bnTargetLimit spacing bound pindexLast fProofOfStake) ∧
      SetCompact (retarget bnTargetLimit spacing bound pindexLast fProofOfStake) ≤ bnTargetLimit := by
  have hround : ∀ x, SetCompact (GetCompact x) = rounded x := fun _ => rfl
  cases retarget_cases bnTargetLimit spacing pindexLast fProofOfStake with
  | inl hfirst =>
    rw [hfirst, hround]
    exact ⟨rounded_pos hlimit, rounded_le hlimit.le⟩
  | inr hnext =>
    obtain ⟨bnNew, hnext⟩ := hnext
    obtain ⟨hpos, hle⟩ := hbound bnNew
    rw [hnext, hround]
    exact ⟨rounded_pos hpos, (rounded_le hpos.le).trans hle⟩

theorem nFeesMitigation_mono (hfees : 0 ≤ nFees) (hle : nFees ≤ nFees') :
    1 ≤ nFeesMitigation nFees ∧ nFeesMitigation nFees ≤ nFeesMitigation nFees' := by
  have hunit : (0 : ℤ) < MIN_TX_FEE * 10 := by decide
  have hdiv : nFees / (MIN_TX_FEE * 10) ≤ nFees' / (MIN_TX_FEE * 10) :=
    Int.ediv_le_ediv hunit hle
  have hnonneg : 0 ≤ nFees / (MIN_TX_FEE * 10) := Int.ediv_nonneg hfees hunit.le
  unfold nFeesMitigation
  rw [Int.tdiv_eq_ediv_of_nonneg hfees, Int.tdiv_eq_ediv_of_nonneg (hfees.trans hle)]
  omega

/-- What the fees make of a target: it grows with them, it is never below the clamped target, and
where it is above, it is at most a quarter of the limit. -/
theorem mitigate_spec (hlimit : 0 < bnTargetLimit) (hfees : 0 ≤ nFees) (hle : nFees ≤ nFees')
    (bnNew : ℤ) :
    clampTarget bnTargetLimit bnNew ≤ mitigate bnTargetLimit nFees bnNew ∧
      mitigate bnTargetLimit nFees bnNew ≤ mitigate bnTargetLimit nFees' bnNew ∧
      mitigate bnTargetLimit nFees bnNew ≤ bnTargetLimit ∧
      (mitigate bnTargetLimit nFees bnNew = clampTarget bnTargetLimit bnNew ∨
        mitigate bnTargetLimit nFees bnNew ≤ bnTargetLimit.tdiv 4) := by
  by_cases hout : bnNew ≤ 0 ∨ bnTargetLimit < bnNew
  · simp [mitigate, clampTarget, if_pos hout]
  by_cases hlow : bnNew < bnTargetLimit.tdiv 4
  · obtain ⟨hone, hmono⟩ := nFeesMitigation_mono hfees hle
    have hpos : 0 < bnNew := by omega
    have heased : bnNew ≤ bnNew * nFeesMitigation nFees := le_mul_of_one_le_right hpos.le hone
    have hmore : bnNew * nFeesMitigation nFees ≤ bnNew * nFeesMitigation nFees' :=
      Int.mul_le_mul_of_nonneg_left hmono hpos.le
    have hquarter : bnTargetLimit.tdiv 4 ≤ bnTargetLimit := by
      rw [Int.tdiv_eq_ediv_of_nonneg hlimit.le]
      omega
    simp only [mitigate, clampTarget, if_neg hout, if_pos hlow]
    refine ⟨?_, ?_, ?_, ?_⟩ <;> split <;> omega
  · simp only [mitigate, clampTarget, if_neg hout, if_neg hlow]
    exact ⟨le_rfl, le_rfl, by omega, .inl trivial⟩

theorem targetLimit_pos (hparams : env.toChainParams = mainNet ∨ env.toChainParams = testNet)
    (pindexLast : CBlockIndex) (fProofOfStake : Bool) :
    0 < targetLimit env pindexLast fProofOfStake := by
  have hwork : 0 < env.bnProofOfWorkLimit := by
    cases hparams with
    | inl h =>
      rw [h]
      decide
    | inr h =>
      rw [h]
      decide
  unfold targetLimit GetProofOfStakeLimit
  split
  · split <;> decide
  · exact hwork

/-- The target the third version arrives at without fees. -/
def unmitigatedV3 (pindexLast : CBlockIndex) (fProofOfStake : Bool) : ℤ :=
  SetCompact (retarget (targetLimit env pindexLast fProofOfStake)
    (spacingV3 env pindexLast.nHeight (GetTargetSpacing pindexLast.nHeight))
    (clampTarget (targetLimit env pindexLast fProofOfStake)) pindexLast fProofOfStake)

def nextTargetV2 (pindexLast : CBlockIndex) (fProofOfStake : Bool) : ℤ :=
  SetCompact (GetNextTargetRequiredV2 env pindexLast fProofOfStake)

def nextTargetV3 (pindexLast : CBlockIndex) (fProofOfStake : Bool) (nFees : ℤ) : ℤ :=
  SetCompact (GetNextTargetRequiredV3 env pindexLast fProofOfStake nFees)

/-- Whatever the timestamps, the targets, the height and the fees, the next target is positive and
at most the limit. In the third version it grows with the fees; it is never below the target
without fees, and where the fees have raised it, it is at most a quarter of the limit. -/
theorem next_target_in_range (hparams : env.toChainParams = mainNet ∨ env.toChainParams = testNet)
    (pindexLast : CBlockIndex) (fProofOfStake : Bool) :
    (0 < nextTargetV2 env pindexLast fProofOfStake ∧
      nextTargetV2 env pindexLast fProofOfStake ≤ targetLimit env pindexLast fProofOfStake) ∧
    ∀ nFees nFees', 0 ≤ nFees → nFees ≤ nFees' →
      (0 < nextTargetV3 env pindexLast fProofOfStake nFees ∧
        nextTargetV3 env pindexLast fProofOfStake nFees ≤
          targetLimit env pindexLast fProofOfStake) ∧
      nextTargetV3 env pindexLast fProofOfStake nFees ≤
        nextTargetV3 env pindexLast fProofOfStake nFees' ∧
      unmitigatedV3 env pindexLast fProofOfStake ≤
        nextTargetV3 env pindexLast fProofOfStake nFees ∧
      (nextTargetV3 env pindexLast fProofOfStake nFees =
          unmitigatedV3 env pindexLast fProofOfStake ∨
        nextTargetV3 env pindexLast fProofOfStake nFees ≤
          (targetLimit env pindexLast fProofOfStake).tdiv 4) := by
  have hlimit := targetLimit_pos env hparams pindexLast fProofOfStake
  have hround : ∀ x, SetCompact (GetCompact x) = rounded x := fun _ => rfl
  constructor
  · exact retarget_bounds hlimit (clampTarget_bounds hlimit)
      (fun n => if n < 0 then (GetTargetSpacing pindexLast.nHeight : ℤ) else n) pindexLast
      fProofOfStake
  · intro nFees nFees' hfees hmore
    unfold nextTargetV3 unmitigatedV3 GetNextTargetRequiredV3
    cases retarget_cases (targetLimit env pindexLast fProofOfStake)
        (spacingV3 env pindexLast.nHeight (GetTargetSpacing pindexLast.nHeight))
        pindexLast fProofOfStake with
    | inl hfirst =>
      rw [hfirst, hfirst, hfirst, hround]
      exact ⟨⟨rounded_pos hlimit, rounded_le hlimit.le⟩, le_rfl, le_rfl, .inl rfl⟩
    | inr hnext =>
      obtain ⟨bnNew, hnext⟩ := hnext
      obtain ⟨hclamped, -⟩ := clampTarget_bounds hlimit bnNew
      obtain ⟨hge, hmono, hle, heased⟩ := mitigate_spec hlimit hfees hmore bnNew
      have hpos := hclamped.trans_le hge
      rw [hnext, hnext, hnext, hround, hround, hround]
      refine ⟨⟨rounded_pos hpos, (rounded_le hpos.le).trans hle⟩, rounded_mono hpos.le hmono,
        rounded_mono hclamped.le hge, ?_⟩
      cases heased with
      | inl hsame => exact .inl (by rw [hsame])
      | inr hquarter => exact .inr ((rounded_le hpos.le).trans hquarter)

/-- Coin stakes on a genesis block, a minute apart, with a target far below the limit. -/
def stakedLine : (nHeight : ℕ) → CBlockIndex
  | 0 => .root ⟨0, 1, 0, true, 0, false, 0, GetCompact (2 ^ 200)⟩
  | nHeight + 1 =>
    let nTime := 60 * (nHeight + 1)
    .child ⟨nTime, 1, 0, true, 0, false, nTime, GetCompact (2 ^ 200)⟩ (stakedLine nHeight)

theorem stakedLine_nHeight (nHeight : ℕ) : (stakedLine nHeight).nHeight = nHeight := by
  induction nHeight with
  | zero => rfl
  | succ nHeight ih => exact congrArg Nat.succ ih

/-- At the height 24376 a fee of ten coins. -/
theorem next_target_in_range_stakedLine :
    (stakedLine 24376).nHeight = 24376 ∧
      0 < nextTargetV2 (Scenario.timed mainNet) (stakedLine 24376) true ∧
      0 < nextTargetV3 (Scenario.timed mainNet) (stakedLine 24376) true 0 ∧
      nextTargetV3 (Scenario.timed mainNet) (stakedLine 24376) true 0 ≤
        nextTargetV3 (Scenario.timed mainNet) (stakedLine 24376) true (10 ^ 9) := by
  obtain ⟨htwo, hthree⟩ :=
    next_target_in_range (Scenario.timed mainNet) (.inl rfl) (stakedLine 24376) true
  obtain ⟨⟨hpos, -⟩, hmore, -⟩ := hthree 0 (10 ^ 9) (by decide) (by decide)
  exact ⟨stakedLine_nHeight 24376, htwo.1, hpos, hmore⟩

end Dions
