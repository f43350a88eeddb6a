import Dions.Verification.Wallet.SubsetSearch

/-! # Coin selection

Every exit of `SelectCoinsMinConf` returns eligible coins that reach the target, and it gives up
exactly when they cannot. The bound above which a coin counts as larger is a 64-bit sum. -/

namespace Dions

open Halting Picked

variable {κ : Type} (ks : WalletKeys κ) (w : Wx κ)
variable {coin : Coin} {coins : List Coin}
variable {sel : CoinSelection} {nTargetValue : ℤ} {vCoins : List COutput}

/-! ## What is asked of a selection -/

/-- Deep enough and not newer than the spending time. -/
def COutput.Eligible (nSpendTime : ℕ) (nConfMine nConfTheirs : ℤ) (output : COutput) : Bool :=
  match output.IsFromMe ks w with
  | .error _ => false
  | .ok fFromMe =>
    decide ((if fFromMe then nConfMine else nConfTheirs) ≤ output.nDepth ∧
      output.tx.nTime ≤ nSpendTime)

def eligibleCoins (nSpendTime : ℕ) (nConfMine nConfTheirs : ℤ) (vCoins : List COutput) :
    List Coin :=
  (vCoins.filter (COutput.Eligible ks w nSpendTime nConfMine nConfTheirs)).map COutput.toCoin

/-- Whether a coin is from ourselves cannot be told: its debit is out of range. -/
def COutput.Raises (output : COutput) : Prop := ∃ stop, output.IsFromMe ks w = .error stop

/-- The set holds distinct coins out of a list, has the returned value, and reaches the target. -/
structure CoinSelection.Pays (coins : List Coin) (nTargetValue : ℤ) (sel : CoinSelection) : Prop where
  nodup : sel.setCoinsRet.Nodup
  subset : sel.setCoinsRet ⊆ coins
  value : sel.nValueRet = (sel.setCoinsRet.map Coin.nValue).sum
  reached : nTargetValue ≤ sel.nValueRet

/-- Success means that the coins suffice, and comes with coins that pay. -/
def Selects (coins : List Coin) (nTargetValue : ℤ) (r : Bool × CoinSelection) : Prop :=
  (r.1 = true ↔ nTargetValue ≤ (coins.map Coin.nValue).sum) ∧
    (r.1 = true → r.2.Pays coins nTargetValue)

/-- A selection ends with an exception only where a debit is out of range. -/
def SelectionRight (nSpendTime : ℕ) (nConfMine nConfTheirs : ℤ) (vCoins : List COutput)
    (nTargetValue : ℤ) : Exec (Bool × CoinSelection) → Prop
  | .ok r => Selects (eligibleCoins ks w nSpendTime nConfMine nConfTheirs vCoins) nTargetValue r
  | .error _ => ∃ output ∈ vCoins, output.Raises ks w

/-! ## Taking coins -/

namespace CoinSelection

theorem insert_perm {setCoinsRet : List Coin} (h : coin ∉ setCoinsRet) :
    (insert coin setCoinsRet).Perm (coin :: setCoinsRet) := by
  rw [insert, if_neg h]
  exact List.perm_orderedInsert Coin.before coin setCoinsRet

/-- The set is the coins of a list, and the value is their 64-bit sum. -/
structure Holds (coins : List Coin) (sel : CoinSelection) : Prop where
  perm : sel.setCoinsRet.Perm coins
  value : sel.nValueRet = int64 (coins.map Coin.nValue).sum

theorem holds_clear : CoinSelection.clear.Holds [] := ⟨List.Perm.refl _, rfl⟩

theorem Holds.take (h : sel.Holds coins) (hnew : coin ∉ coins) :
    (sel.take coin).Holds (coin :: coins) := by
  constructor
  · exact (insert_perm fun hmem => hnew (h.perm.subset hmem)).trans (h.perm.cons coin)
  · rw [CoinSelection.take, h.value, int64_int64_add, List.map_cons, List.sum_cons, add_comm]

theorem Holds.foldl_take (more : List Coin) (h : sel.Holds coins)
    (hnodup : (more.reverse ++ coins).Nodup) :
    (more.foldl CoinSelection.take sel).Holds (more.reverse ++ coins) := by
  induction more generalizing sel coins with
  | nil => exact h
  | cons coin more ih =>
    rw [List.reverse_cons, List.append_assoc, List.singleton_append] at hnodup ⊢
    refine ih (h.take ?_) hnodup
    exact (List.nodup_cons.mp (hnodup.of_append_right)).1

theorem holds_foldl_take (hnodup : coins.Nodup) :
    (coins.foldl CoinSelection.take .clear).Holds coins := by
  have hperm : (coins.reverse ++ []).Perm coins := by
    rw [List.append_nil]
    exact List.reverse_perm coins
  have h := holds_clear.foldl_take coins (hperm.nodup_iff.mpr hnodup)
  refine ⟨h.perm.trans hperm, ?_⟩
  rw [h.value, (hperm.map Coin.nValue).sum_eq]

theorem holds_take (coin : Coin) : (clear.take coin).Holds [coin] :=
  holds_clear.take List.not_mem_nil

theorem Holds.pays {some : List Coin} (h : sel.Holds some) (hnodup : some.Nodup)
    (hsub : some ⊆ coins) (hamounts : Amounts some)
    (hreached : nTargetValue ≤ (some.map Coin.nValue).sum) : sel.Pays coins nTargetValue := by
  have hexact : sel.nValueRet = (some.map Coin.nValue).sum := h.value.trans hamounts.int64_total
  constructor
  · exact h.perm.nodup_iff.mpr hnodup
  · exact fun _ hcoin => hsub (h.perm.subset hcoin)
  · exact hexact.trans (h.perm.map Coin.nValue).sum_eq.symm
  · exact hexact ▸ hreached

theorem pays_take (hamounts : Amounts coins) (hcoin : coin ∈ coins)
    (hreached : nTargetValue ≤ coin.nValue) : (clear.take coin).Pays coins nTargetValue := by
  refine (holds_take coin).pays (List.nodup_singleton coin) ?_ ?_ ?_
  · exact fun c hc => List.mem_singleton.mp hc ▸ hcoin
  · exact hamounts.sublist (List.singleton_sublist.mpr hcoin)
  · simpa using hreached

end CoinSelection

/-! ## The scan -/

/-- The candidates among the coins seen so far. -/
structure CoinCandidates.Sifted (nTargetValue : ℤ) (coins : List Coin) (cand : CoinCandidates) : Prop where
  lower : cand.vValue =
    coins.filter fun coin => decide (coin.nValue < int64 (nTargetValue + CENT))
  total : cand.nTotalLower = (cand.vValue.map Coin.nValue).sum
  largerIn : ∀ coin, cand.coinLowestLarger = some coin →
    coin ∈ coins ∧ int64 (nTargetValue + CENT) ≤ coin.nValue
  noLarger : cand.coinLowestLarger = none →
    ∀ coin ∈ coins, coin.nValue < int64 (nTargetValue + CENT)

section Scan

variable {ks w} {nTargetValue : ℤ} {nSpendTime : ℕ} {nConfMine nConfTheirs : ℤ}

theorem CoinCandidates.Sifted.amounts {cand : CoinCandidates} (h : cand.Sifted nTargetValue coins)
    (hamounts : Amounts coins) : Amounts cand.vValue := by
  rw [h.lower]
  exact hamounts.sublist List.filter_sublist

theorem CoinCandidates.Sifted.sift {cand : CoinCandidates} (h : cand.Sifted nTargetValue coins)
    (hamounts : Amounts (coins ++ [coin])) :
    (cand.sift nTargetValue coin).Sifted nTargetValue (coins ++ [coin]) := by
  by_cases hlow : coin.nValue < int64 (nTargetValue + CENT)
  · have hlower : cand.vValue ++ [coin] = (coins ++ [coin]).filter
        fun coin => decide (coin.nValue < int64 (nTargetValue + CENT)) := by
      rw [List.filter_append, ← h.lower, List.filter_cons_of_pos (by simpa using hlow)]
      rfl
    rw [CoinCandidates.sift, if_pos hlow]
    refine ⟨hlower, ?_, ?_, ?_⟩
    · have hkept : Amounts (cand.vValue ++ [coin]) := by
        rw [hlower]
        exact hamounts.sublist List.filter_sublist
      have hsum : cand.nTotalLower + coin.nValue =
          ((cand.vValue ++ [coin]).map Coin.nValue).sum := by
        rw [h.total, List.map_append, List.sum_append]
        simp
      rw [hsum, hkept.int64_total]
    · intro larger hlarger
      exact ⟨List.mem_append_left _ (h.largerIn larger hlarger).1, (h.largerIn larger hlarger).2⟩
    · intro hnone coin' hcoin'
      rcases List.mem_append.mp hcoin' with hold | hnew
      · exact h.noLarger hnone coin' hold
      · rw [List.mem_singleton.mp hnew]
        exact hlow
  · have hlower : cand.vValue = (coins ++ [coin]).filter
        fun coin => decide (coin.nValue < int64 (nTargetValue + CENT)) := by
      rw [List.filter_append, ← h.lower, List.filter_cons_of_neg (by simpa using hlow)]
      simp
    by_cases hlarger : coin.nValue < cand.lowestLarger
    · rw [CoinCandidates.sift, if_neg hlow, if_pos hlarger]
      refine ⟨hlower, h.total, ?_, fun hnone => by simp at hnone⟩
      intro larger hsome
      have heq : coin = larger := by simpa using hsome
      rw [← heq]
      exact ⟨by simp, by omega⟩
    · rw [CoinCandidates.sift, if_neg hlow, if_neg hlarger]
      refine ⟨hlower, h.total, ?_, ?_⟩
      · intro larger hsome
        exact ⟨List.mem_append_left _ (h.largerIn larger hsome).1, (h.largerIn larger hsome).2⟩
      · intro hnone
        -- the first coin that is not low is larger than nothing
        have hmax : cand.lowestLarger = 2 ^ 63 - 1 := by
          rw [CoinCandidates.lowestLarger, hnone]
        have hle : coin.nValue ≤ _ := hamounts.le_total (List.mem_append_right _ List.mem_cons_self)
        have hlt := hamounts.total_lt
        omega

theorem eligibleCoins_cons (output : COutput) (vCoins : List COutput) :
    eligibleCoins ks w nSpendTime nConfMine nConfTheirs (output :: vCoins) =
      if output.Eligible ks w nSpendTime nConfMine nConfTheirs then
        output.toCoin :: eligibleCoins ks w nSpendTime nConfMine nConfTheirs vCoins
      else eligibleCoins ks w nSpendTime nConfMine nConfTheirs vCoins := by
  rw [eligibleCoins, List.filter_cons]
  split <;> rfl

variable (ks w) in
/-- What the loop over the coins may end with, where some coins have been seen before. -/
def ScanRight (nTargetValue : ℤ) (seen coins : List Coin) (vCoins : List COutput) :
    Exec Scan → Prop
  | .ok (.found coin) => coin ∈ coins ∧ coin.nValue = nTargetValue
  | .ok (.rest cand) => cand.Sifted nTargetValue (seen ++ coins) ∧
      ∀ output ∈ vCoins, ¬output.Raises ks w
  | .error _ => ∃ output ∈ vCoins, output.Raises ks w

theorem ScanRight.skip {seen : List Coin} {output : COutput} {r : Exec Scan}
    (h : ScanRight ks w nTargetValue seen coins vCoins r) (hcalm : ¬output.Raises ks w) :
    ScanRight ks w nTargetValue seen coins (output :: vCoins) r := by
  match r with
  | .ok (.found coin) => exact h
  | .ok (.rest cand) =>
    refine ⟨h.1, ?_⟩
    intro output' houtput'
    rcases List.mem_cons.mp houtput' with rfl | hmem
    · exact hcalm
    · exact h.2 output' hmem
  | .error _ =>
    obtain ⟨output', hmem, hraises⟩ := h
    exact ⟨output', List.mem_cons_of_mem _ hmem, hraises⟩

theorem ScanRight.shift {seen : List Coin} {r : Exec Scan}
    (h : ScanRight ks w nTargetValue (seen ++ [coin]) coins vCoins r) :
    ScanRight ks w nTargetValue seen (coin :: coins) vCoins r := by
  match r with
  | .ok (.found _) => exact ⟨List.mem_cons_of_mem _ h.1, h.2⟩
  | .ok (.rest cand) =>
    have hsifted := h.1
    rw [← List.append_cons] at hsifted
    exact ⟨hsifted, h.2⟩
  | .error _ => exact h

theorem scanCoins_right (vCoins : List COutput) (seen : List Coin) (cand : CoinCandidates)
    (hcand : cand.Sifted nTargetValue seen)
    (hamounts : Amounts
      (seen ++ eligibleCoins ks w nSpendTime nConfMine nConfTheirs vCoins)) :
    ScanRight ks w nTargetValue seen (eligibleCoins ks w nSpendTime nConfMine nConfTheirs vCoins)
      vCoins (w.scanCoins ks nTargetValue nSpendTime nConfMine nConfTheirs vCoins cand) := by
  induction vCoins generalizing seen cand with
  | nil =>
    refine ⟨?_, by simp⟩
    simpa [eligibleCoins] using hcand
  | cons output vCoins ih =>
    rw [eligibleCoins_cons] at hamounts ⊢
    rw [Wx.scanCoins]
    cases hmine : output.IsFromMe ks w with
    | error stop => exact ⟨output, List.mem_cons_self, stop, hmine⟩
    | ok fFromMe =>
      have hcalm : ¬output.Raises ks w := by
        rintro ⟨stop, hraises⟩
        rw [hmine] at hraises
        cases hraises
      have heligible : output.Eligible ks w nSpendTime nConfMine nConfTheirs =
          decide ((if fFromMe then nConfMine else nConfTheirs) ≤ output.nDepth ∧
            output.tx.nTime ≤ nSpendTime) := by
        rw [COutput.Eligible, hmine]
      rw [heligible] at hamounts ⊢
      change ScanRight ks w nTargetValue seen _ _ (if _ then _ else _)
      by_cases hdepth : output.nDepth < (if fFromMe then nConfMine else nConfTheirs)
      · rw [if_neg (by simp; omega)] at hamounts ⊢
        rw [if_pos hdepth]
        exact (ih seen cand hcand hamounts).skip hcalm
      · rw [if_neg hdepth]
        by_cases htime : nSpendTime < output.tx.nTime
        · rw [if_neg (by simp; omega)] at hamounts ⊢
          rw [if_pos htime]
          exact (ih seen cand hcand hamounts).skip hcalm
        · rw [if_pos (by simp; omega)] at hamounts ⊢
          rw [if_neg htime]
          by_cases hexact : output.nValue = nTargetValue
          · rw [if_pos hexact]
            exact ⟨List.mem_cons_self, hexact⟩
          · rw [if_neg hexact]
            rw [List.append_cons] at hamounts
            have hseen : Amounts (seen ++ [output.toCoin]) :=
              hamounts.sublist (List.sublist_append_left _ _)
            exact (ih (seen ++ [output.toCoin]) _ (hcand.sift hseen) hamounts).shift.skip hcalm

end Scan

/-! ## The choice -/

section Choice

variable {nTargetValue : ℤ} {coins : List Coin} {cand : CoinCandidates} (draws : Draws)

/-- The flags of a search pick candidates that reach the target. -/
theorem BestSubset.Recorded.pays {best : BestSubset} (hsifted : cand.Sifted nTargetValue coins)
    (hnodup : coins.Nodup) (hamounts : Amounts coins)
    (h : best.Recorded (draws.sort cand.vValue) nTargetValue) :
    (((draws.sort cand.vValue).zip best.vfBest).foldl
      (fun sel entry => if entry.2 then sel.take entry.1 else sel) CoinSelection.clear).Pays coins
        nTargetValue := by
  rw [foldl_zip CoinSelection.take]
  have hsub : cand.vValue.Sublist coins := by
    rw [hsifted.lower]
    exact List.filter_sublist
  have hperm := draws.permuted cand.vValue
  have hpicked := picked_sublist (draws.sort cand.vValue) best.vfBest
  have hpickedNodup := (hperm.nodup_iff.mpr (hnodup.sublist hsub)).sublist hpicked
  have hpickedAmounts := ((hamounts.sublist hsub).perm hperm).sublist hpicked
  refine (CoinSelection.holds_foldl_take hpickedNodup).pays hpickedNodup ?_ hpickedAmounts ?_
  · exact fun coin hcoin => hsub.subset (hperm.subset (hpicked.subset hcoin))
  · exact h.reached.trans_eq h.total

/-- The candidates are more than enough: some of them pay, and so does a larger coin. -/
theorem CoinCandidates.Sifted.choose_search (hsifted : cand.Sifted nTargetValue coins)
    (hnodup : coins.Nodup) (hamounts : Amounts coins)
    (hfits : int64 (nTargetValue + CENT) = nTargetValue + CENT)
    (hmore : nTargetValue < cand.nTotalLower) :
    (cand.choose draws nTargetValue).1 = true ∧
      (cand.choose draws nTargetValue).2.Pays coins nTargetValue := by
  have hsorted := (hsifted.amounts hamounts).perm (draws.permuted cand.vValue)
  have htotal : cand.nTotalLower = ((draws.sort cand.vValue).map Coin.nValue).sum := by
    rw [hsifted.total, ((draws.permuted cand.vValue).map Coin.nValue).sum_eq]
  have hsearch := fun target bits (h : target ≤ cand.nTotalLower) =>
    @approximateBestSubset_recorded _ target hsorted _ htotal h bits 1000
  have hCENT : nTargetValue ≤ nTargetValue + CENT := by
    unfold CENT
    omega
  have hlarger : ∀ coin, cand.coinLowestLarger = some coin →
      (CoinSelection.clear.take coin).Pays coins nTargetValue := by
    intro coin hcoin
    have hmem := hsifted.largerIn coin hcoin
    rw [hfits] at hmem
    exact CoinSelection.pays_take hamounts hmem.1 (hCENT.trans hmem.2)
  rw [CoinCandidates.choose, if_neg hmore.ne', if_neg hmore.not_gt, hfits]
  extract_lets vValue first best subset
  have hbest : best.Recorded vValue nTargetValue := by
    unfold best
    split
    next hagain => exact (hsearch _ (draws.bit 1) hagain.2).mono hCENT
    next => exact hsearch _ (draws.bit 0) hmore.le
  have hsubset : subset.Pays coins nTargetValue := hbest.pays draws hsifted hnodup hamounts
  cases hcoin : cand.coinLowestLarger with
  | none => exact ⟨rfl, hsubset⟩
  | some coin =>
    dsimp only
    split
    next => exact ⟨rfl, hlarger coin hcoin⟩
    next => exact ⟨rfl, hsubset⟩

/-- Every way to choose is right, as long as the bound of the larger coins is a 64-bit number. -/
theorem CoinCandidates.Sifted.choose_selects (hsifted : cand.Sifted nTargetValue coins)
    (hnodup : coins.Nodup) (hamounts : Amounts coins)
    (hfits : int64 (nTargetValue + CENT) = nTargetValue + CENT) :
    Selects coins nTargetValue (cand.choose draws nTargetValue) := by
  have hsub : cand.vValue.Sublist coins := by
    rw [hsifted.lower]
    exact List.filter_sublist
  have hlower : cand.nTotalLower ≤ (coins.map Coin.nValue).sum := by
    rw [hsifted.total]
    refine (hsub.map Coin.nValue).sum_le_sum ?_
    intro n hn
    rcases List.mem_map.mp hn with ⟨coin, hcoin, rfl⟩
    exact hamounts.nonneg coin hcoin
  rcases lt_trichotomy cand.nTotalLower nTargetValue with hless | heq | hmore
  · rw [CoinCandidates.choose, if_neg hless.ne, if_pos hless]
    cases hcoin : cand.coinLowestLarger with
    | none =>
      -- all coins are candidates, and they do not suffice
      have hall : cand.vValue = coins := by
        rw [hsifted.lower, List.filter_eq_self]
        intro coin hmem
        exact decide_eq_true (hsifted.noLarger hcoin coin hmem)
      rw [hsifted.total, hall] at hless
      exact ⟨⟨fun h => absurd h Bool.false_ne_true, fun h => absurd h hless.not_ge⟩,
        fun h => absurd h Bool.false_ne_true⟩
    | some coin =>
      have hmem := hsifted.largerIn coin hcoin
      have hCENT : nTargetValue ≤ coin.nValue := by
        have hbound := hmem.2
        rw [hfits] at hbound
        unfold CENT at hbound
        omega
      exact ⟨iff_of_true rfl (hCENT.trans (hamounts.le_total hmem.1)),
        fun _ => CoinSelection.pays_take hamounts hmem.1 hCENT⟩
  · rw [CoinCandidates.choose, if_pos heq]
    refine ⟨iff_of_true rfl (heq ▸ hlower), fun _ => ?_⟩
    refine (CoinSelection.holds_foldl_take (hnodup.sublist hsub)).pays (hnodup.sublist hsub)
      hsub.subset (hamounts.sublist hsub) ?_
    rw [← hsifted.total, heq]
  · have hsearch := hsifted.choose_search draws hnodup hamounts hfits hmore
    exact ⟨iff_of_true hsearch.1 (hmore.le.trans hlower), fun _ => hsearch.2⟩

/-- Where the bound wraps, every coin counts as larger, and any one of them is taken. -/
theorem CoinCandidates.Sifted.choose_wrapped (hsifted : cand.Sifted nTargetValue coins)
    (hamounts : Amounts coins) (htarget : 0 < nTargetValue) (hwrap : int64 (nTargetValue + CENT) < 0) :
    (cand.choose draws nTargetValue).1 = true ↔ coins ≠ [] := by
  have hlower : cand.vValue = [] := by
    rw [hsifted.lower, List.filter_eq_nil_iff]
    intro coin hcoin hlow
    have hnonneg := hamounts.nonneg coin hcoin
    have hlt := of_decide_eq_true hlow
    omega
  have htotal : cand.nTotalLower = 0 := by
    rw [hsifted.total, hlower]
    rfl
  rw [CoinCandidates.choose, if_neg (by omega), if_pos (by omega)]
  cases hcoin : cand.coinLowestLarger with
  | none =>
    refine iff_of_false Bool.false_ne_true (fun hne => ?_)
    rcases List.exists_mem_of_ne_nil coins hne with ⟨coin, hmem⟩
    have hnonneg := hamounts.nonneg coin hmem
    have hlt := hsifted.noLarger hcoin coin hmem
    omega
  | some coin =>
    exact iff_of_true rfl (List.ne_nil_of_mem (hsifted.largerIn coin hcoin).1)

end Choice

/-! ## The selection -/

section CoinSelection

variable {ks w} {nTargetValue : ℤ} {nSpendTime : ℕ} {nConfMine nConfTheirs : ℤ}
  {vCoins : List COutput}

theorem eligibleCoins_perm {vCoins' : List COutput} (h : vCoins'.Perm vCoins) :
    (eligibleCoins ks w nSpendTime nConfMine nConfTheirs vCoins').Perm
      (eligibleCoins ks w nSpendTime nConfMine nConfTheirs vCoins) :=
  (h.filter _).map _

theorem eligibleCoins_sublist (vCoins : List COutput) :
    (eligibleCoins ks w nSpendTime nConfMine nConfTheirs vCoins).Sublist
      (vCoins.map COutput.toCoin) :=
  List.filter_sublist.map _

theorem Selects.perm {coins' : List Coin} {r : Bool × CoinSelection}
    (h : Selects coins' nTargetValue r) (hperm : coins'.Perm coins) :
    Selects coins nTargetValue r := by
  rw [Selects, ← (hperm.map Coin.nValue).sum_eq]
  refine ⟨h.1, fun hret => ?_⟩
  have hpays := h.2 hret
  exact ⟨hpays.nodup, fun coin hcoin => hperm.subset (hpays.subset hcoin), hpays.value,
    hpays.reached⟩

theorem candidates_sifted_nil : (⟨[], 0, none⟩ : CoinCandidates).Sifted nTargetValue [] :=
  ⟨rfl, rfl, fun _ h => by simp at h, fun _ _ h => by simp at h⟩

theorem int64_bound (hpos : 0 < nTargetValue) :
    nTargetValue + CENT < 2 ^ 63 → int64 (nTargetValue + CENT) = nTargetValue + CENT := by
  intro hlt
  apply Fits64.int64_eq
  unfold CENT at hlt ⊢
  exact ⟨by omega, by omega⟩

theorem int64_bound_wraps (hlt : nTargetValue < 2 ^ 63) :
    ¬nTargetValue + CENT < 2 ^ 63 → int64 (nTargetValue + CENT) < 0 := by
  intro hge
  have hwrap : int64 (nTargetValue + CENT) = int64 (nTargetValue + CENT - 2 ^ 64) := by
    unfold int64
    exact (Int.sub_bmod_right _ (2 ^ 64)).symm
  have hfits : Fits64 (nTargetValue + CENT - 2 ^ 64) := by
    unfold CENT at hge ⊢
    exact ⟨by omega, by omega⟩
  rw [hwrap, hfits.int64_eq]
  unfold CENT
  omega

/-- What the scan ends with, over all coins in the order of the shuffle. -/
theorem scan_right (draws : Draws)
    (hamounts : Amounts (eligibleCoins ks w nSpendTime nConfMine nConfTheirs vCoins)) :
    ScanRight ks w nTargetValue []
      (eligibleCoins ks w nSpendTime nConfMine nConfTheirs (draws.random_shuffle vCoins))
      (draws.random_shuffle vCoins)
      (w.scanCoins ks nTargetValue nSpendTime nConfMine nConfTheirs (draws.random_shuffle vCoins)
        ⟨[], 0, none⟩) := by
  apply scanCoins_right _ _ _ candidates_sifted_nil
  exact hamounts.perm (eligibleCoins_perm (draws.shuffled vCoins))

/-- For a target to which a cent can be added, the selection is right. -/
theorem selectCoinsMinConf_right (draws : Draws)
    (hdistinct : (vCoins.map COutput.toCoin).Nodup)
    (hamounts : Amounts (vCoins.map COutput.toCoin)) (hpos : 0 < nTargetValue)
    (hbound : nTargetValue + CENT < 2 ^ 63) :
    SelectionRight ks w nSpendTime nConfMine nConfTheirs vCoins nTargetValue
      (w.SelectCoinsMinConf ks draws nTargetValue nSpendTime nConfMine nConfTheirs vCoins) := by
  have hperm := @eligibleCoins_perm _ ks w nSpendTime nConfMine nConfTheirs _ _
    (draws.shuffled vCoins)
  have hsub := @eligibleCoins_sublist _ ks w nSpendTime nConfMine nConfTheirs vCoins
  have hcoins := hamounts.sublist hsub
  have hscan := @scan_right _ ks w nTargetValue _ _ _ _ draws hcoins
  rw [Wx.SelectCoinsMinConf]
  generalize w.scanCoins ks nTargetValue nSpendTime nConfMine nConfTheirs
    (draws.random_shuffle vCoins) ⟨[], 0, none⟩ = scan at hscan ⊢
  match scan with
  | .error _ =>
    obtain ⟨output, hmem, hraises⟩ := hscan
    exact ⟨output, (draws.shuffled vCoins).subset hmem, hraises⟩
  | .ok (.found coin) =>
    have hmem := hperm.subset hscan.1
    exact ⟨iff_of_true rfl (hscan.2 ▸ hcoins.le_total hmem),
      fun _ => CoinSelection.pays_take hcoins hmem hscan.2.ge⟩
  | .ok (.rest cand) =>
    have hsifted : cand.Sifted nTargetValue _ := hscan.1
    have hnodup := hperm.nodup_iff.mpr (hdistinct.sublist hsub)
    exact (hsifted.choose_selects draws hnodup (hcoins.perm hperm) (int64_bound hpos hbound)).perm
      hperm

/-- The selection is right unless the target is so large that adding a cent to it wraps, and there
is a coin to be taken for larger. -/
theorem selectCoinsMinConf_right_iff (draws : Draws)
    (hdistinct : (vCoins.map COutput.toCoin).Nodup)
    (hamounts : Amounts (vCoins.map COutput.toCoin)) (hpos : 0 < nTargetValue)
    (hint64 : nTargetValue < 2 ^ 63) :
    SelectionRight ks w nSpendTime nConfMine nConfTheirs vCoins nTargetValue
        (w.SelectCoinsMinConf ks draws nTargetValue nSpendTime nConfMine nConfTheirs vCoins) ↔
      nTargetValue + CENT < 2 ^ 63 ∨
        eligibleCoins ks w nSpendTime nConfMine nConfTheirs vCoins = [] ∨
        ∃ output ∈ vCoins, output.Raises ks w := by
  by_cases hbound : nTargetValue + CENT < 2 ^ 63
  · exact iff_of_true (selectCoinsMinConf_right draws hdistinct hamounts hpos hbound) (.inl hbound)
  let coins := eligibleCoins ks w nSpendTime nConfMine nConfTheirs vCoins
  let shuffled := eligibleCoins ks w nSpendTime nConfMine nConfTheirs (draws.random_shuffle vCoins)
  have hperm : shuffled.Perm coins := eligibleCoins_perm (draws.shuffled vCoins)
  have hcoins : Amounts coins := hamounts.sublist (eligibleCoins_sublist vCoins)
  have hshort : ¬nTargetValue ≤ (coins.map Coin.nValue).sum := by
    intro hle
    have hlt := hcoins.total_lt
    unfold CENT at hbound
    omega
  have hscan := @scan_right _ ks w nTargetValue _ _ _ _ draws hcoins
  rw [Wx.SelectCoinsMinConf]
  generalize w.scanCoins ks nTargetValue nSpendTime nConfMine nConfTheirs
    (draws.random_shuffle vCoins) ⟨[], 0, none⟩ = scan at hscan ⊢
  match scan with
  | .error _ =>
    obtain ⟨output, hmem, hraises⟩ := hscan
    have hout : ∃ output ∈ vCoins, output.Raises ks w :=
      ⟨output, (draws.shuffled vCoins).subset hmem, hraises⟩
    exact iff_of_true hout (.inr (.inr hout))
  | .ok (.found coin) =>
    exact absurd (hscan.2 ▸ hcoins.le_total (hperm.subset hscan.1)) hshort
  | .ok (.rest cand) =>
    have hsifted : cand.Sifted nTargetValue shuffled := hscan.1
    have hchosen := hsifted.choose_wrapped draws (hcoins.perm hperm) hpos
      (int64_bound_wraps hint64 hbound)
    change Selects coins nTargetValue (cand.choose draws nTargetValue) ↔ _
    by_cases hnil : coins = []
    · have hrejects : ¬(cand.choose draws nTargetValue).1 = true := by
        rw [hchosen, not_not]
        exact List.Perm.eq_nil (hnil ▸ hperm)
      exact iff_of_true ⟨iff_of_false hrejects hshort, fun h => absurd h hrejects⟩
        (.inr (.inl hnil))
    · have htakes : (cand.choose draws nTargetValue).1 = true := by
        rw [hchosen]
        exact fun h => hnil (List.Perm.eq_nil (h ▸ hperm.symm))
      refine iff_of_false (fun h => hshort (h.1.mp htakes)) ?_
      rintro (h | h | ⟨output, hmem, hraises⟩)
      · exact hbound h
      · exact hnil h
      · exact hscan.2 output ((draws.shuffled vCoins).symm.subset hmem) hraises

end CoinSelection

/-! ## Runs -/

def noKeys : WalletKeys Unit where
  IsMine _ _ := false
  xfa keys _ := (false, keys)
  replaceDefaultKey keys _ := keys
  collx _ _ := false
  nMinimumInputValue := 0

def noWallet : Wx Unit := ⟨fun _ => none, ()⟩

def soleOutput (pcoin : ℕ) (nValue : ℤ) : COutput where
  pcoin := pcoin
  tx := WxTx.ofTx { CTransaction.null 0 with vout := [⟨nValue, []⟩], nLockTime := pcoin }
  nDebitCached := none
  i := 0
  inRange := Nat.one_pos
  nDepth := 144

/-- The shuffle reverses, and the bits leave out the second coin. -/
def someDraws : Draws where
  random_shuffle := List.reverse
  shuffled := List.reverse_perm
  sort := List.insertionSort fun a b => b.nValue ≤ a.nValue
  permuted := List.perm_insertionSort _
  sorted vValue := by
    have htotal : Std.Total fun a b : Coin => b.nValue ≤ a.nValue :=
      ⟨fun a b => le_total b.nValue a.nValue⟩
    have htrans : IsTrans Coin fun a b => b.nValue ≤ a.nValue :=
      ⟨fun a b c hab hbc => hbc.trans hab⟩
    exact List.pairwise_insertionSort _ vValue
  bit _ _ i := i != 1

def threeCoins : List COutput :=
  [soleOutput 1 (2 * COIN), soleOutput 2 (5 * COIN), soleOutput 3 (3 * COIN)]

/-- Out of two, five and three coins, the first and the second pay for seven. -/
theorem selectCoinsMinConf_right_sevenCoins :
    (noWallet.SelectCoinsMinConf noKeys someDraws (7 * COIN) 0 1 6 threeCoins).toOption =
        some (true, ⟨[(soleOutput 1 (2 * COIN)).toCoin, (soleOutput 2 (5 * COIN)).toCoin],
          7 * COIN⟩) ∧
      SelectionRight noKeys noWallet 0 1 6 threeCoins (7 * COIN)
        (noWallet.SelectCoinsMinConf noKeys someDraws (7 * COIN) 0 1 6 threeCoins) :=
  ⟨by decide,
    (selectCoinsMinConf_right_iff someDraws (by decide) ⟨by decide, by decide⟩ (by decide)
      (by decide)).mpr (Or.inl (by decide))⟩

/-- For the largest amount there is, a single coin is taken to be enough. -/
theorem selectCoinsMinConf_not_right :
    ¬SelectionRight noKeys noWallet 0 1 6 [soleOutput 1 COIN] MAX_MONEY
      (noWallet.SelectCoinsMinConf noKeys someDraws MAX_MONEY 0 1 6 [soleOutput 1 COIN]) := by
  have hret : (noWallet.SelectCoinsMinConf noKeys someDraws MAX_MONEY 0 1 6
      [soleOutput 1 COIN]).toOption =
        some (true, ⟨[(soleOutput 1 COIN).toCoin], COIN⟩) := by decide
  intro h
  generalize noWallet.SelectCoinsMinConf noKeys someDraws MAX_MONEY 0 1 6 [soleOutput 1 COIN] = r
    at hret h
  match r with
  | .ok r =>
    have hr : r = (true, ⟨[(soleOutput 1 COIN).toCoin], COIN⟩) := Option.some.inj hret
    rw [hr] at h
    exact absurd (h.1.mp rfl) (by decide)
  | .error _ => cases hret

end Dions
