import Dions.Library.Picked
import Dions.Model.CoinSelection
import Dions.Verification.Chain.Amounts

/-! # The subset search

The flags kept by the search always weigh what its best total says, whatever the random bits are. -/

namespace Dions

open Picked

/-! ## Sums of coins -/

/-- Values that are no debts and whose sums fit a 64-bit variable. -/
structure Amounts (coins : List Coin) : Prop where
  nonneg : ∀ coin ∈ coins, 0 ≤ coin.nValue
  total_lt : (coins.map Coin.nValue).sum < 2 ^ 62

namespace Amounts

variable {coins : List Coin}

theorem sublist {some : List Coin} (h : Amounts coins) (hsub : some.Sublist coins) :
    Amounts some := by
  refine ⟨fun coin hcoin => h.nonneg coin (hsub.subset hcoin), ?_⟩
  refine lt_of_le_of_lt ((hsub.map Coin.nValue).sum_le_sum ?_) h.total_lt
  intro n hn
  rcases List.mem_map.mp hn with ⟨coin, hcoin, rfl⟩
  exact h.nonneg coin hcoin

theorem perm {coins' : List Coin} (h : Amounts coins) (hperm : coins'.Perm coins) :
    Amounts coins' := by
  refine ⟨fun coin hcoin => h.nonneg coin (hperm.subset hcoin), ?_⟩
  rw [(hperm.map Coin.nValue).sum_eq]
  exact h.total_lt

theorem le_total (h : Amounts coins) {coin : Coin} (hcoin : coin ∈ coins) :
    coin.nValue ≤ (coins.map Coin.nValue).sum := by
  refine List.single_le_sum ?_ _ (List.mem_map_of_mem hcoin)
  intro n hn
  rcases List.mem_map.mp hn with ⟨coin', hcoin', rfl⟩
  exact h.nonneg coin' hcoin'

theorem total_nonneg (h : Amounts coins) : 0 ≤ (coins.map Coin.nValue).sum := by
  apply List.sum_nonneg
  intro n hn
  rcases List.mem_map.mp hn with ⟨coin, hcoin, rfl⟩
  exact h.nonneg coin hcoin

theorem int64_total (h : Amounts coins) :
    int64 (coins.map Coin.nValue).sum = (coins.map Coin.nValue).sum := by
  apply Fits64.int64_eq
  have hlow := h.total_nonneg
  have hhigh := h.total_lt
  exact ⟨by omega, by omega⟩

/-- What flags weigh is exact in a 64-bit variable. -/
theorem int64_weight (h : Amounts coins) (fs : List Bool) :
    int64 (weight Coin.nValue coins fs) = weight Coin.nValue coins fs := by
  apply Fits64.int64_eq
  have hlow := weight_nonneg Coin.nValue h.nonneg fs
  have hhigh := (weight_le Coin.nValue h.nonneg fs).trans_lt h.total_lt
  exact ⟨by omega, by omega⟩

end Amounts

/-! ## One pass -/

/-- The best flags weigh the best total, and reach the target. -/
structure BestSubset.Recorded (vValue : List Coin) (nTargetValue : ℤ) (best : BestSubset) :
    Prop where
  total : best.nBest = weight Coin.nValue vValue best.vfBest
  reached : nTargetValue ≤ best.nBest

structure SubsetPass.Balanced (vValue : List Coin) (nTargetValue : ℤ) (p : SubsetPass) : Prop where
  best : p.toBestSubset.Recorded vValue nTargetValue
  length : p.vfIncluded.length = vValue.length
  total : p.nTotal = weight Coin.nValue vValue p.vfIncluded

/-- The first pass has not put in anything from a position on. -/
def SubsetPass.Untouched (nPass k : ℕ) (p : SubsetPass) : Prop :=
  nPass = 0 → ∀ j, k ≤ j → p.vfIncluded.getD j false = false

section Search

variable {vValue : List Coin} {nTargetValue : ℤ} {bit : ℕ → Bool}

namespace SubsetPass

variable {p : SubsetPass} {coin : Coin} {i : ℕ}

theorem Balanced.free (h : p.Balanced vValue nTargetValue) (hcoin : vValue[i]? = some coin)
    (hfree : p.vfIncluded.getD i false = false) : p.vfIncluded[i]? = some false := by
  have hlt : i < p.vfIncluded.length := by
    rw [h.length]
    exact (List.getElem?_eq_some_iff.mp hcoin).1
  rw [List.getD_eq_getElem?_getD, List.getElem?_eq_getElem hlt] at hfree
  rw [List.getElem?_eq_getElem hlt]
  exact congrArg some hfree

/-- A coin that is put in is either kept, or recorded with what is in already and taken out. -/
theorem Balanced.tryCoin (hamounts : Amounts vValue) (h : p.Balanced vValue nTargetValue)
    (hcoin : vValue[i]? = some coin) (hfree : p.vfIncluded.getD i false = false) :
    (p.tryCoin nTargetValue coin i).Balanced vValue nTargetValue := by
  have hweight := weight_set Coin.nValue hcoin (h.free hcoin hfree)
  have hnTotal : int64 (p.nTotal + coin.nValue) =
      weight Coin.nValue vValue (p.vfIncluded.set i true) := by
    rw [h.total, ← hweight, hamounts.int64_weight]
  by_cases hreached : nTargetValue ≤ int64 (p.nTotal + coin.nValue)
  · rw [SubsetPass.tryCoin, if_pos hreached]
    refine ⟨?_, by simp [h.length], ?_⟩
    · by_cases hbetter : int64 (p.nTotal + coin.nValue) < p.nBest
      · rw [if_pos hbetter]
        exact ⟨hnTotal, hreached⟩
      · rw [if_neg hbetter]
        exact h.best
    · have hback : (p.vfIncluded.set i true).set i false = p.vfIncluded := by
        rw [List.set_set]
        apply List.ext_getElem?
        intro j
        by_cases hj : i = j
        · subst hj
          rw [h.free hcoin hfree, List.getElem?_set_self]
          rw [h.length]
          exact (List.getElem?_eq_some_iff.mp hcoin).1
        · rw [List.getElem?_set_ne hj]
      dsimp only
      rw [hback, hnTotal, hweight, add_sub_cancel_right, hamounts.int64_weight]
  · rw [SubsetPass.tryCoin, if_neg hreached]
    exact ⟨h.best, by simp [h.length], hnTotal⟩

theorem tryCoin_elsewhere {j : ℕ} (hj : i ≠ j) :
    (p.tryCoin nTargetValue coin i).vfIncluded.getD j false = p.vfIncluded.getD j false := by
  unfold tryCoin
  dsimp only
  split <;> simp [List.getD_eq_getElem?_getD, List.getElem?_set_ne hj]

theorem Balanced.visit (hamounts : Amounts vValue) {nPass : ℕ}
    (h : p.Balanced vValue nTargetValue) (hfree : p.Untouched nPass i)
    (hcoin : vValue[i]? = some coin) :
    (p.visit bit nTargetValue nPass (coin, i)).Balanced vValue nTargetValue ∧
      (p.visit bit nTargetValue nPass (coin, i)).Untouched nPass (i + 1) := by
  by_cases htaken : (if nPass = 0 then bit i else !p.vfIncluded.getD i false) = true
  · rw [SubsetPass.visit, if_pos htaken]
    constructor
    · refine h.tryCoin hamounts hcoin ?_
      by_cases hfirst : nPass = 0
      · exact hfree hfirst i le_rfl
      · simpa [hfirst] using htaken
    · intro hfirst j hj
      rw [tryCoin_elsewhere (by omega)]
      exact hfree hfirst j (by omega)
  · rw [SubsetPass.visit, if_neg htaken]
    exact ⟨h, fun hfirst j hj => hfree hfirst j (by omega)⟩

/-- The invariant of a pass, from any coin of the list on. -/
theorem Balanced.foldl (hamounts : Amounts vValue) {nPass : ℕ} (before rest : List Coin)
    (hsplit : vValue = before ++ rest) (h : p.Balanced vValue nTargetValue)
    (hfree : p.Untouched nPass before.length) :
    ((rest.zipIdx before.length).foldl (SubsetPass.visit bit nTargetValue nPass) p).Balanced vValue
      nTargetValue := by
  induction rest generalizing before p with
  | nil => exact h
  | cons coin rest ih =>
    have hcoin : vValue[before.length]? = some coin := by
      rw [hsplit, List.getElem?_append_right le_rfl, Nat.sub_self, List.getElem?_cons_zero]
    obtain ⟨hbalanced, huntouched⟩ := @Balanced.visit _ _ bit _ _ _ hamounts _ h hfree hcoin
    rw [List.zipIdx_cons, List.foldl_cons]
    have hlength : (before ++ [coin]).length = before.length + 1 := by simp
    rw [← hlength]
    refine ih (before ++ [coin]) ?_ hbalanced ?_
    · rw [hsplit, List.append_assoc, List.singleton_append]
    · rw [hlength]
      exact huntouched

theorem Balanced.run (hamounts : Amounts vValue) {nPass : ℕ} (h : p.Balanced vValue nTargetValue)
    (hfree : p.Untouched nPass 0) :
    (p.run bit vValue nTargetValue nPass).Balanced vValue nTargetValue :=
  h.foldl hamounts [] vValue rfl hfree

end SubsetPass

/-! ## All repetitions -/

namespace BestSubset

variable {best : BestSubset}

theorem Recorded.improve (hamounts : Amounts vValue) (h : best.Recorded vValue nTargetValue) :
    (best.improve bit vValue nTargetValue).Recorded vValue nTargetValue := by
  let p : SubsetPass := ⟨best, List.replicate vValue.length false, 0, false⟩
  have hstart : p.Balanced vValue nTargetValue :=
    ⟨h, List.length_replicate, (weight_none Coin.nValue vValue _).symm⟩
  have huntouched : p.Untouched 0 0 := by
    intro _ j _
    rw [List.getD_eq_getElem?_getD, List.getElem?_replicate]
    split <;> rfl
  have hfirst := @SubsetPass.Balanced.run _ _ bit _ hamounts 0 hstart huntouched
  unfold BestSubset.improve
  dsimp only
  split
  next => exact hfirst.best
  next => exact (hfirst.run hamounts (fun hzero => absurd hzero one_ne_zero)).best

theorem Recorded.repeated (hamounts : Amounts vValue) {bits : ℕ → ℕ → Bool} (left nRep : ℕ)
    (h : best.Recorded vValue nTargetValue) :
    (best.repeated bits vValue nTargetValue left nRep).Recorded vValue nTargetValue := by
  induction left generalizing nRep best with
  | zero => exact h
  | succ left ih =>
    rw [BestSubset.repeated]
    split
    next => exact h
    next => exact ih (nRep + 1) (h.improve hamounts)

theorem Recorded.mono {lower : ℤ} (h : best.Recorded vValue nTargetValue)
    (hle : lower ≤ nTargetValue) : best.Recorded vValue lower :=
  ⟨h.total, hle.trans h.reached⟩

end BestSubset

/-- The search starts with all coins, which must reach the target. -/
theorem approximateBestSubset_recorded (hamounts : Amounts vValue) {nTotalLower : ℤ}
    (htotal : nTotalLower = (vValue.map Coin.nValue).sum) (hreached : nTargetValue ≤ nTotalLower)
    (bits : ℕ → ℕ → Bool) (iterations : ℕ) :
    (ApproximateBestSubset bits vValue nTotalLower nTargetValue iterations).Recorded vValue
      nTargetValue := by
  apply BestSubset.Recorded.repeated hamounts
  exact ⟨htotal.trans (weight_all Coin.nValue vValue).symm, hreached⟩

end Search

end Dions
