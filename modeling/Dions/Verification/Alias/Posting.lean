import Dions.Verification.Wallet.Payments

/-! # Posting transactions of aliases

The loop of `txPost` counts the alias output among the inputs but not in the balance, and leaves a
small change to nobody. What the transaction pays for is therefore the returned fee only in some
cases, which are exactly these. -/

namespace Dions

open Halting

variable {env : Env} {κ : Type} {ks : WalletKeys κ} {w : Wx κ} {io : PayIo}
  {vecSend : List (CScript × ℤ)} {wtxIn : Coin} {nValue : ℤ}
variable {draft : Draft}
variable {draft' : Draft} {s : PayRound}

/-! ## A round -/

theorem postChange_outputs {nRound : ℕ} {nChange : ℤ} (hne : vecSend ≠ [])
    (hvout : draft.wtxNew.vout = payees vecSend)
    (h : postChange io nRound nChange draft = .ok draft') :
    Outputs vecSend (if CENT ≤ nChange then nChange else 0) draft'.wtxNew.vout := by
  rw [postChange] at h
  split at h
  next hlarge =>
    rw [if_pos hlarge]
    split at h
    next => cases h
    next scriptChange _ =>
      cases h
      dsimp only
      rw [hvout]
      exact outputs_insertChange hne _ ⟨nChange, scriptChange⟩
  next hsmall =>
    cases h
    rw [if_neg hsmall, hvout]
    exact outputs_payees vecSend

/-- The change as the 64-bit variable holds it. -/
def postedChange (nValue : ℤ) (sel : CoinSelection) (s : PayRound) : ℤ :=
  int64 (int64 sel.nValueRet - int64 (nValue + s.nFeeRet))

theorem postRound_spec (hne : vecSend ≠ [])
    (h : postRound env ks w io vecSend wtxIn nValue s = .ok draft) :
    ∃ sel, postSelect ks w io nValue 0 s = .ok sel ∧ draft.nFeeRet = s.nFeeRet ∧
      draft.wtxNew.vin.map CTxIn.prevout =
        (wtxIn :: sel.setCoinsRet).map (Coin.prevout env) ∧
      Outputs vecSend
        (if CENT ≤ postedChange nValue sel s then postedChange nValue sel s else 0)
        draft.wtxNew.vout := by
  rw [postRound, seq_ok] at h
  obtain ⟨funded, hfund, hsign⟩ := h
  have hframe := signFunded_frame hsign
  have hsame := signFunded_fee env hsign
  rw [postFund] at hfund
  simp only [seq_ok] at hfund
  obtain ⟨sel, hselect, draft', hchange, hfund⟩ := hfund
  rw [within_eq_ok] at hselect
  cases hfund
  have hchanged := postChange_outputs hne rfl hchange
  have hkept := postChange_fee io hchange
  rw [add_zero] at hchanged
  refine ⟨sel, hselect, hsame.trans hkept, hframe.2, ?_⟩
  rw [hframe.1]
  exact hchanged

/-- A selection for nothing is empty, and any other one comes from the coins found. -/
theorem postSelect_from {sel : CoinSelection} (h : postSelect ks w io nValue 0 s = .ok sel) :
    sel.From ((io.AvailableCoins s.nRound).map COutput.toCoin) ∧
      (int64 (nValue + s.nFeeRet) ≤ 0 → sel = .clear) := by
  have htarget : int64 (int64 (nValue + s.nFeeRet) - 0) = int64 (nValue + s.nFeeRet) := by
    rw [sub_zero]
    exact (fits64_int64 _).int64_eq
  rw [postSelect, htarget] at h
  split at h
  next hpos =>
    rw [seq_ok] at h
    obtain ⟨selected, hselect, h⟩ := h
    rw [seq_ok] at h
    obtain ⟨u, -, h⟩ := h
    cases h
    exact ⟨selectCoins_from (io.distinct s.nRound) hselect, fun hle => absurd hpos hle.not_gt⟩
  next =>
    cases h
    exact ⟨.clear, fun _ => rfl⟩

/-! ## The balance -/

/-- What the selected coins are worth more than the payments and the fee. -/
def excess (nValue : ℤ) (sel : CoinSelection) (s : PayRound) : ℤ :=
  (sel.setCoinsRet.map Coin.nValue).sum - (nValue + s.nFeeRet)

/-- The alias output and the selected coins are together worth the payments and the fee, or the
alias output is worth nothing and the excess of the coins is put out as change. -/
def LeavesNothing (ks : WalletKeys κ) (w : Wx κ) (io : PayIo) (wtxIn : Coin) (nValue : ℤ)
    (s : PayRound) : Prop :=
  nValue + s.nFeeRet < 2 ^ 63 ∧ ∃ sel, postSelect ks w io nValue 0 s = .ok sel ∧
    (int64 (excess nValue sel s) < CENT ∧ wtxIn.nValue + excess nValue sel s = 0 ∨
      CENT ≤ excess nValue sel s ∧ excess nValue sel s < 2 ^ 63 ∧ wtxIn.nValue = 0)

theorem int64_wrap (n : ℤ) : ∃ k, int64 n = n + 2 ^ 64 * k :=
  ⟨-n.bdiv (2 ^ 64), by
    rw [int64, Int.bmod_eq_self_sub_mul_bdiv]
    push_cast
    omega⟩

/-- An amount that a wrapped number leaves out is no 64-bit number but zero. -/
theorem wrapped_balance_iff {a n : ℤ} (ha : Fits64 a) (hlarge : CENT ≤ int64 n) :
    a + n - int64 n = 0 ↔ CENT ≤ n ∧ n < 2 ^ 63 ∧ a = 0 := by
  obtain ⟨hlow, hhigh⟩ := ha
  obtain ⟨k, hk⟩ := int64_wrap n
  have hfits := fits64_int64 n
  constructor
  · intro hzero
    have hk0 : k = 0 := by omega
    rw [hk0, mul_zero, add_zero] at hk
    rw [hk] at hlarge hfits hzero
    exact ⟨hlarge, hfits.2, by omega⟩
  · rintro ⟨hcent, hlt, rfl⟩
    have hexact : int64 n = n := by
      apply Fits64.int64_eq
      unfold CENT at hcent
      exact ⟨by omega, hlt⟩
    omega

theorem postedChange_eq {coins : List Coin} {sel : CoinSelection} (h : sel.From coins) (s : PayRound) :
    postedChange nValue sel s = int64 (excess nValue sel s) := by
  have htwice : int64 sel.nValueRet = int64 (sel.setCoinsRet.map Coin.nValue).sum := by
    rw [h.value, (fits64_int64 _).int64_eq]
  rw [postedChange, excess, htwice, int64_sub_int64, sub_eq_add_neg, int64_int64_add,
    ← sub_eq_add_neg]

/-- The change of a round, and what it leaves of the excess. -/
theorem change_balance_iff {a n : ℤ} (ha : Fits64 a) :
    a + n - (if CENT ≤ int64 n then int64 n else 0) = 0 ↔
      int64 n < CENT ∧ a + n = 0 ∨ CENT ≤ n ∧ n < 2 ^ 63 ∧ a = 0 := by
  by_cases hlarge : CENT ≤ int64 n
  · rw [if_pos hlarge, wrapped_balance_iff ha hlarge, or_iff_right]
    exact fun h => h.1.not_ge hlarge
  · rw [if_neg hlarge, sub_zero, or_iff_left]
    · exact ⟨fun h => ⟨not_le.mp hlarge, h⟩, And.right⟩
    · rintro ⟨hcent, hlt, -⟩
      have hexact : int64 n = n := by
        apply Fits64.int64_eq
        unfold CENT at hcent
        exact ⟨by omega, hlt⟩
      rw [hexact] at hlarge
      exact hlarge hcent

theorem postRound_balanced_iff {value : COutPoint → ℤ} (hvalued : Valued env value io)
    (halias : value (wtxIn.prevout env) = wtxIn.nValue) (hfits : Fits64 wtxIn.nValue)
    (hne : vecSend ≠ []) (hnValue : nValue = paymentTotal vecSend) (hrange : nValue < 2 ^ 63)
    (hfee : s.nFeeRet < 2 ^ 63) (h : postRound env ks w io vecSend wtxIn nValue s = .ok draft) :
    surplus value draft.wtxNew = draft.nFeeRet ↔ LeavesNothing ks w io wtxIn nValue s := by
  obtain ⟨sel, hselect, hkept, hvin, houtputs⟩ := postRound_spec hne h
  obtain ⟨hfrom, hnone⟩ := postSelect_from hselect
  have hin : (draft.wtxNew.vin.map fun txin => value txin.prevout).sum =
      wtxIn.nValue + (sel.setCoinsRet.map Coin.nValue).sum := by
    have hmap : (draft.wtxNew.vin.map fun txin => value txin.prevout) =
        (draft.wtxNew.vin.map CTxIn.prevout).map value := by
      rw [List.map_map]
      rfl
    rw [hmap, hvin, List.map_cons, List.map_cons, List.sum_cons, halias, hvalued.sum hfrom.subset]
  rw [postedChange_eq hfrom] at houtputs
  have hbalance : surplus value draft.wtxNew = draft.nFeeRet ↔
      wtxIn.nValue + excess nValue sel s -
        (if CENT ≤ int64 (excess nValue sel s) then int64 (excess nValue sel s) else 0) = 0 := by
    rw [surplus_eq hin houtputs, hkept, excess, hnValue, paymentTotal]
    omega
  rw [hbalance]
  by_cases hbound : nValue + s.nFeeRet < 2 ^ 63
  · rw [change_balance_iff hfits]
    refine ⟨fun hleaves => ⟨hbound, sel, hselect, hleaves⟩, ?_⟩
    rintro ⟨-, sel', hselect', hleaves⟩
    rw [hselect] at hselect'
    cases hselect'
    exact hleaves
  · -- the target wraps, nothing is selected, and the alias output would have to pay for it all
    refine iff_of_false ?_ (fun hleaves => hbound hleaves.1)
    have hwraps : int64 (nValue + s.nFeeRet) ≤ 0 := by
      obtain ⟨k, hk⟩ := int64_wrap (nValue + s.nFeeRet)
      have hint := fits64_int64 (nValue + s.nFeeRet)
      obtain ⟨hint1, hint2⟩ := hint
      omega
    rw [hnone hwraps]
    have hnonneg : 0 ≤ if CENT ≤ int64 (excess nValue .clear s) then
        int64 (excess nValue .clear s) else 0 := by
      split
      next hcent => exact le_trans (by decide) hcent
      next => exact le_rfl
    have hexcess : excess nValue .clear s = -(nValue + s.nFeeRet) := by
      rw [excess, CoinSelection.clear]
      simp
    obtain ⟨hfits1, hfits2⟩ := hfits
    omega

/-- When `txPost` succeeds, the inputs, the alias output among them, are worth the outputs and the
returned fee exactly when the last round leaves nothing over. -/
theorem txPost_balanced_iff {value : COutPoint → ℤ} {draft draft' : Draft}
    (hvalued : Valued env value io) (halias : value (wtxIn.prevout env) = wtxIn.nValue)
    (hfits : Fits64 wtxIn.nValue) (hsend : NonnegPayments vecSend)
    (h : txPost env ks w io vecSend wtxIn draft = .ok draft') :
    ∃ last, (postLoop env ks w io vecSend wtxIn (paymentTotal vecSend)).Tries (firstPost draft) last ∧
      (postLoop env ks w io vecSend wtxIn (paymentTotal vecSend)).attempt last = .done (.ok draft') ∧
      (surplus value draft'.wtxNew = draft'.nFeeRet ↔
        LeavesNothing ks w io wtxIn (paymentTotal vecSend) last) := by
  rw [txPost, seq_ok] at h
  obtain ⟨n, hsum, h⟩ := h
  obtain ⟨hexact, -, hrange, hne⟩ := paymentValue_exact hsend (within_eq_ok.mp hsum)
  rw [← paymentTotal] at hexact
  rw [hexact] at h hrange
  obtain ⟨last, htries, hattempt⟩ := @Retry.exists_last _ _
    (postLoop env ks w io vecSend wtxIn (paymentTotal vecSend)) (firstPost draft)
  rw [h] at hattempt
  have hfee : last.nFeeRet < 2 ^ 63 := feeLoop_tries_lt htries (by decide : CENT < 2 ^ 63)
  exact ⟨last, htries, hattempt, postRound_balanced_iff hvalued halias hfits hne rfl hrange hfee
    (feeLoop_done hattempt).1⟩

/-! ## Runs -/

theorem txPost_done (hsum : (paymentValue vecSend).toOption = some nValue)
    (h : (postRound env ks w io vecSend wtxIn nValue (firstPost draft)).toOption = some draft')
    (henough : postFee draft' ≤ draft'.nFeeRet) :
    txPost env ks w io vecSend wtxIn draft = .ok draft' := by
  cases hvalue : paymentValue vecSend with
  | error e =>
    rw [hvalue] at hsum
    cases hsum
  | ok n =>
    rw [hvalue] at hsum
    cases hsum
    rw [txPost, hvalue]
    exact Retry.run_done (feeLoop_attempt h henough)

/-- The hash of a transaction is its lock time. -/
def lockHashed : Env := { Scenario.timed testNet with txHash := fun tx => tx.nLockTime }

/-- The values of an alias output and of a coin. -/
def aliasAndCoin (nAlias nCoin : ℤ) (o : COutPoint) : ℤ := if o.hash = 9 then nAlias else nCoin

/-- Both outputs are spent for four coins, with the change there is. -/
def fourPosted (change : List CTxOut) : Draft :=
  ⟨{ emptyDraft.wtxNew with
    fFromMe := true
    vin := [⟨⟨9, 0⟩, [2], UINT_MAX⟩, ⟨⟨1, 0⟩, [2], UINT_MAX⟩]
    vout := change ++ [⟨4 * COIN, [7]⟩] }, CENT⟩

def restOfFive : List CTxOut := [⟨COIN - CENT, [1]⟩]

theorem fiveCoins_valued (nAlias : ℤ) :
    Valued lockHashed (aliasAndCoin nAlias (5 * COIN)) fiveCoins := by
  intro nRound output houtput
  rw [List.mem_singleton.mp houtput]
  rfl

theorem fourPosted_round (nAlias : ℤ) : (postRound lockHashed noKeys noWallet fiveCoins
    [([7], 4 * COIN)] (soleOutput 9 nAlias).toCoin (paymentTotal [([7], 4 * COIN)])
    (firstPost emptyDraft)).toOption = some (fourPosted restOfFive) :=
  rfl

theorem fourPosted_paid :
    (paymentValue [([7], 4 * COIN)]).toOption = some (paymentTotal [([7], 4 * COIN)]) := by
  decide

/-- An alias output without value, and change that gets an output: nothing is left over. -/
theorem txPost_balanced_iff_fourPosted :
    txPost lockHashed noKeys noWallet fiveCoins [([7], 4 * COIN)] (soleOutput 9 0).toCoin
        emptyDraft = .ok (fourPosted restOfFive) ∧
      surplus (aliasAndCoin 0 (5 * COIN)) (fourPosted restOfFive).wtxNew = CENT := by
  have hposted := txPost_done fourPosted_paid (fourPosted_round 0) (by decide)
  obtain ⟨last, htries, -, hiff⟩ := txPost_balanced_iff (fiveCoins_valued 0) rfl
    ⟨by decide, by decide⟩ ⟨by decide, by decide⟩ hposted
  rw [Retry.tries_done (feeLoop_attempt (fourPosted_round 0) (by decide)) htries] at hiff
  refine ⟨hposted, hiff.mpr ⟨by decide, ⟨[(soleOutput 1 (5 * COIN)).toCoin], 5 * COIN⟩, ?_, ?_⟩⟩
  · decide
  · exact Or.inr ⟨by decide, by decide, by decide⟩

/-- A coin that is worth a little more than four coins and the fee. -/
def littleMore : PayIo := payingIo [soleOutput 1 (4 * COIN + CENT + 1000)] (by decide)

/-- A change below a cent goes to nobody, and so does the value of the alias output. -/
theorem txPost_unbalanced :
    (txPost lockHashed noKeys noWallet littleMore [([7], 4 * COIN)] (soleOutput 9 0).toCoin
          emptyDraft = .ok (fourPosted []) ∧
        surplus (aliasAndCoin 0 (4 * COIN + CENT + 1000)) (fourPosted []).wtxNew = CENT + 1000) ∧
      txPost lockHashed noKeys noWallet fiveCoins [([7], 4 * COIN)] (soleOutput 9 COIN).toCoin
          emptyDraft = .ok (fourPosted restOfFive) ∧
        surplus (aliasAndCoin COIN (5 * COIN)) (fourPosted restOfFive).wtxNew = COIN + CENT := by
  refine ⟨⟨txPost_done fourPosted_paid ?_ (by decide), by decide⟩,
    txPost_done fourPosted_paid (fourPosted_round COIN) (by decide), by decide⟩
  -- all thousand repetitions of the search are made
  decide +kernel

end Dions
