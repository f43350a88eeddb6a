import Dions.Verification.Wallet.CoinSelection

/-! # What is selected

Whatever the target is, a selection takes distinct coins out of the list, and its value is their
64-bit sum. -/

namespace Dions

open Halting Picked

variable {vCoins : List COutput} {r : Bool × CoinSelection}

def CoinSelection.From (coins : List Coin) (sel : CoinSelection) : Prop :=
  ∃ some : List Coin, some.Nodup ∧ some ⊆ coins ∧ sel.Holds some

namespace CoinSelection.From

variable {coins : List Coin} {sel : CoinSelection}

theorem clear : CoinSelection.clear.From coins :=
  ⟨[], List.nodup_nil, List.nil_subset coins, CoinSelection.holds_clear⟩

theorem take {coin : Coin} (hcoin : coin ∈ coins) : (CoinSelection.clear.take coin).From coins :=
  ⟨[coin], List.nodup_singleton coin, fun _ hc => List.mem_singleton.mp hc ▸ hcoin,
    CoinSelection.holds_take coin⟩

theorem foldl_take {some : List Coin} (hnodup : some.Nodup) (hsub : some ⊆ coins) :
    (some.foldl CoinSelection.take .clear).From coins :=
  ⟨some, hnodup, hsub, CoinSelection.holds_foldl_take hnodup⟩

theorem mono {coins' : List Coin} (h : sel.From coins') (hsub : coins' ⊆ coins) :
    sel.From coins := by
  obtain ⟨some, hnodup, hin, hholds⟩ := h
  exact ⟨some, hnodup, fun _ hcoin => hsub (hin hcoin), hholds⟩

theorem nodup (h : sel.From coins) : sel.setCoinsRet.Nodup := by
  obtain ⟨some, hnodup, -, hholds⟩ := h
  exact hholds.perm.nodup_iff.mpr hnodup

theorem subset (h : sel.From coins) : sel.setCoinsRet ⊆ coins := by
  obtain ⟨some, -, hin, hholds⟩ := h
  exact fun coin hcoin => hin (hholds.perm.subset hcoin)

theorem value (h : sel.From coins) :
    sel.nValueRet = int64 (sel.setCoinsRet.map Coin.nValue).sum := by
  obtain ⟨some, -, -, hholds⟩ := h
  rw [hholds.value, (hholds.perm.map Coin.nValue).sum_eq]

end CoinSelection.From

/-! ## The scan and the choice -/

/-- The candidates are coins of a list. -/
structure CoinCandidates.Among (coins : List Coin) (cand : CoinCandidates) : Prop where
  lower : cand.vValue.Sublist coins
  larger : ∀ coin, cand.coinLowestLarger = some coin → coin ∈ coins

section Choice

variable {nTargetValue : ℤ} {coins : List Coin} {cand : CoinCandidates}

theorem CoinCandidates.Among.append (h : cand.Among coins) (coin : Coin) :
    cand.Among (coins ++ [coin]) :=
  ⟨h.lower.trans (List.sublist_append_left coins [coin]),
    fun larger hlarger => List.mem_append_left _ (h.larger larger hlarger)⟩

theorem CoinCandidates.Among.sift (h : cand.Among coins) (coin : Coin) :
    (cand.sift nTargetValue coin).Among (coins ++ [coin]) := by
  have hold := h.append coin
  by_cases hlow : coin.nValue < int64 (nTargetValue + CENT)
  · rw [CoinCandidates.sift, if_pos hlow]
    exact ⟨h.lower.append_right [coin], hold.larger⟩
  · by_cases hlarger : coin.nValue < cand.lowestLarger
    · rw [CoinCandidates.sift, if_neg hlow, if_pos hlarger]
      refine ⟨hold.lower, ?_⟩
      intro larger hsome
      rw [← Option.some.inj hsome]
      exact List.mem_append_right _ List.mem_cons_self
    · rw [CoinCandidates.sift, if_neg hlow, if_neg hlarger]
      exact hold

theorem CoinCandidates.Among.choose_from (h : cand.Among coins) (hnodup : coins.Nodup)
    (draws : Draws) : (cand.choose draws nTargetValue).2.From coins := by
  have hsearch : ∀ flags : List Bool, (((draws.sort cand.vValue).zip flags).foldl
      (fun sel entry => if entry.2 then sel.take entry.1 else sel) CoinSelection.clear).From coins := by
    intro flags
    rw [foldl_zip CoinSelection.take]
    have hperm := draws.permuted cand.vValue
    have hpicked := picked_sublist (draws.sort cand.vValue) flags
    exact .foldl_take ((hperm.nodup_iff.mpr (hnodup.sublist h.lower)).sublist hpicked)
      fun coin hcoin => h.lower.subset (hperm.subset (hpicked.subset hcoin))
  by_cases hexact : cand.nTotalLower = nTargetValue
  · rw [CoinCandidates.choose, if_pos hexact]
    exact .foldl_take (hnodup.sublist h.lower) h.lower.subset
  · by_cases hless : cand.nTotalLower < nTargetValue
    · rw [CoinCandidates.choose, if_neg hexact, if_pos hless]
      cases hlarger : cand.coinLowestLarger with
      | none => exact .clear
      | some coin => exact .take (h.larger coin hlarger)
    · rw [CoinCandidates.choose, if_neg hexact, if_neg hless]
      extract_lets vValue first best subset
      have hsubset : subset.From coins := hsearch best.vfBest
      cases hlarger : cand.coinLowestLarger with
      | none => exact hsubset
      | some coin =>
        dsimp only
        split
        next => exact .take (h.larger coin hlarger)
        next => exact hsubset

end Choice

section CoinSelection

variable {κ : Type} {ks : WalletKeys κ} {w : Wx κ} {nTargetValue : ℤ} {nSpendTime : ℕ}
  {nConfMine nConfTheirs : ℤ}

def Scan.Among (coins : List Coin) : Scan → Prop
  | .found coin => coin ∈ coins
  | .rest cand => cand.Among coins

theorem scanCoins_among (vCoins : List COutput) {seen : List Coin} {cand : CoinCandidates} {scan : Scan}
    (hcand : cand.Among seen)
    (h : w.scanCoins ks nTargetValue nSpendTime nConfMine nConfTheirs vCoins cand = .ok scan) :
    scan.Among (seen ++ vCoins.map COutput.toCoin) := by
  induction vCoins generalizing seen cand with
  | nil =>
    cases h
    rw [List.map_nil, List.append_nil]
    exact hcand
  | cons output vCoins ih =>
    rw [List.map_cons, List.append_cons]
    rw [Wx.scanCoins, seq_ok] at h
    obtain ⟨fFromMe, -, h⟩ := h
    by_cases hdepth : output.nDepth < (if fFromMe then nConfMine else nConfTheirs)
    · rw [if_pos hdepth] at h
      exact ih (hcand.append output.toCoin) h
    · rw [if_neg hdepth] at h
      by_cases htime : nSpendTime < output.tx.nTime
      · rw [if_pos htime] at h
        exact ih (hcand.append output.toCoin) h
      · rw [if_neg htime] at h
        by_cases hexact : output.nValue = nTargetValue
        · rw [if_pos hexact] at h
          cases h
          exact List.mem_append_left _ (List.mem_append_right _ List.mem_cons_self)
        · rw [if_neg hexact] at h
          exact ih (hcand.sift output.toCoin) h

theorem selectCoinsMinConf_from {draws : Draws} (hdistinct : (vCoins.map COutput.toCoin).Nodup)
    (h : w.SelectCoinsMinConf ks draws nTargetValue nSpendTime nConfMine nConfTheirs vCoins =
      .ok r) : r.2.From (vCoins.map COutput.toCoin) := by
  have hperm := (draws.shuffled vCoins).map COutput.toCoin
  rw [Wx.SelectCoinsMinConf, seq_ok] at h
  obtain ⟨scan, hscan, h⟩ := h
  have hempty : (⟨[], 0, none⟩ : CoinCandidates).Among [] := ⟨.slnil, fun _ h => by cases h⟩
  have hamong := scanCoins_among _ hempty hscan
  rw [List.nil_append] at hamong
  refine CoinSelection.From.mono ?_ hperm.subset
  cases scan with
  | found coin =>
    cases h
    exact .take hamong
  | rest cand =>
    cases h
    exact hamong.choose_from (hperm.nodup_iff.mpr hdistinct) draws

/-- The coins come from the list however they are selected. -/
theorem selectCoins_from {draws : ℕ → Draws} {fHasSelected : Bool}
    (hdistinct : (vCoins.map COutput.toCoin).Nodup)
    (h : w.SelectCoins ks draws nTargetValue nSpendTime fHasSelected vCoins = .ok r) :
    r.2.From (vCoins.map COutput.toCoin) := by
  rw [Wx.SelectCoins] at h
  split at h
  next =>
    cases h
    exact .foldl_take hdistinct (List.Subset.refl _)
  next =>
    rw [seq_ok] at h
    obtain ⟨first, hfirst, h⟩ := h
    split at h
    next =>
      cases h
      exact selectCoinsMinConf_from hdistinct hfirst
    next =>
      rw [seq_ok] at h
      obtain ⟨second, hsecond, h⟩ := h
      split at h
      next =>
        cases h
        exact selectCoinsMinConf_from hdistinct hsecond
      next => exact selectCoinsMinConf_from hdistinct h

/-! ## The specification -/

theorem selectCoinsMinConf_pays {draws : Draws} (hdistinct : (vCoins.map COutput.toCoin).Nodup)
    (hamounts : Amounts (vCoins.map COutput.toCoin)) (hpos : 0 < nTargetValue)
    (hbound : nTargetValue + CENT < 2 ^ 63)
    (h : w.SelectCoinsMinConf ks draws nTargetValue nSpendTime nConfMine nConfTheirs vCoins = .ok r)
    (hret : r.1 = true) : r.2.Pays (vCoins.map COutput.toCoin) nTargetValue := by
  have hright := @selectCoinsMinConf_right _ ks w _ nSpendTime nConfMine nConfTheirs _ draws
    hdistinct hamounts hpos hbound
  rw [h] at hright
  have hpays := hright.2 hret
  exact ⟨hpays.nodup, fun _ hcoin => (eligibleCoins_sublist vCoins).subset (hpays.subset hcoin),
    hpays.value, hpays.reached⟩

/-- For a target to which a cent can be added, what is selected pays for it. -/
theorem selectCoins_pays {draws : ℕ → Draws} {fHasSelected : Bool}
    (hdistinct : (vCoins.map COutput.toCoin).Nodup) (hamounts : Amounts (vCoins.map COutput.toCoin))
    (hpos : 0 < nTargetValue) (hbound : nTargetValue + CENT < 2 ^ 63)
    (h : w.SelectCoins ks draws nTargetValue nSpendTime fHasSelected vCoins = .ok r)
    (hret : r.1 = true) : r.2.Pays (vCoins.map COutput.toCoin) nTargetValue := by
  rw [Wx.SelectCoins] at h
  split at h
  next =>
    cases h
    have hholds := CoinSelection.holds_foldl_take hdistinct
    have hreached := of_decide_eq_true hret
    refine hholds.pays hdistinct (List.Subset.refl _) hamounts ?_
    rwa [hholds.value, hamounts.int64_total] at hreached
  next =>
    rw [seq_ok] at h
    obtain ⟨first, hfirst, h⟩ := h
    split at h
    next =>
      cases h
      exact selectCoinsMinConf_pays hdistinct hamounts hpos hbound hfirst hret
    next =>
      rw [seq_ok] at h
      obtain ⟨second, hsecond, h⟩ := h
      split at h
      next =>
        cases h
        exact selectCoinsMinConf_pays hdistinct hamounts hpos hbound hsecond hret
      next => exact selectCoinsMinConf_pays hdistinct hamounts hpos hbound h hret

end CoinSelection

end Dions
