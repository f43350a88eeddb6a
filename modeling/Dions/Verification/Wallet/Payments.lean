import Mathlib.Data.List.Perm.Basic
import Dions.Model.Payments
import Dions.Verification.Scenario
import Dions.Verification.Wallet.Selected

/-! # Payments

What a transaction for a list of payments takes from its inputs and gives to its outputs, round by
round, and what remains for the fee. -/

namespace Dions

open Halting

variable {env : Env}
variable {vecSend : List (CScript × ℤ)} {draft : Draft}
variable {nChange nFeeStart : ℤ} {draft' : Draft} {s : PayRound} {strTxInfo : List UInt8}

/-! ## Parts of a round -/

theorem sum_payees (vecSend : List (CScript × ℤ)) :
    ((payees vecSend).map CTxOut.nValue).sum = (vecSend.map Prod.snd).sum := by
  rw [payees, List.map_map]
  rfl

/-- Payments that no variable of the source holds are left out. -/
structure NonnegPayments (vecSend : List (CScript × ℤ)) : Prop where
  nonneg : ∀ s ∈ vecSend, 0 ≤ s.2
  int64 : ∀ s ∈ vecSend, s.2 < 2 ^ 63

theorem NonnegPayments.tail {s : CScript × ℤ} {vecSend : List (CScript × ℤ)}
    (h : NonnegPayments (s :: vecSend)) : NonnegPayments vecSend :=
  ⟨fun s' hs' => h.nonneg s' (List.mem_cons_of_mem s hs'),
    fun s' hs' => h.int64 s' (List.mem_cons_of_mem s hs')⟩

/-- A sum that wraps is negative, and is found before the next payment or at the end. -/
theorem paymentSum_exact (hsend : NonnegPayments vecSend) {n nValue : ℤ} (hn : n < 2 ^ 63)
    (h : paymentSum vecSend n = .ok nValue) (hpos : 0 ≤ nValue) :
    0 ≤ n ∧ nValue = n + (vecSend.map Prod.snd).sum ∧ nValue < 2 ^ 63 := by
  induction vecSend generalizing n with
  | nil =>
    cases h
    exact ⟨hpos, by simp, hn⟩
  | cons s vecSend ih =>
    rw [paymentSum] at h
    split at h
    next => cases h
    next hnonneg =>
      have hs := hsend.nonneg s List.mem_cons_self
      have hlt := hsend.int64 s List.mem_cons_self
      obtain ⟨hnext, hvalue, hfits⟩ := ih hsend.tail (int64_lt _) h
      have hexact := int64_add_in_range ⟨by omega, hn⟩ ⟨hs, hlt⟩ hnext
      refine ⟨by omega, ?_, hfits⟩
      rw [hvalue, hexact, List.map_cons, List.sum_cons, add_assoc]

theorem paymentValue_exact (hsend : NonnegPayments vecSend) {nValue : ℤ}
    (h : paymentValue vecSend = .ok nValue) :
    nValue = (vecSend.map Prod.snd).sum ∧ 0 ≤ nValue ∧ nValue < 2 ^ 63 ∧ vecSend ≠ [] := by
  rw [paymentValue, seq_ok] at h
  obtain ⟨n, hsum, h⟩ := h
  rw [seq_ok] at h
  obtain ⟨u, hchecked, h⟩ := h
  rw [require_eq_ok] at hchecked
  cases h
  obtain ⟨-, hexact, hfits⟩ := paymentSum_exact hsend (by decide) hsum hchecked.2
  rw [zero_add] at hexact
  exact ⟨hexact, hchecked.2, hfits, hchecked.1⟩

theorem map_prevout_modify (vin : List CTxIn) (k : ℕ) (scriptSig : CScript) :
    (vin.modify k fun txin => { txin with scriptSig := scriptSig }).map CTxIn.prevout =
      vin.map CTxIn.prevout := by
  induction vin generalizing k with
  | nil => rw [List.modify_nil]
  | cons txin vin ih =>
    cases k with
    | zero => rfl
    | succ k => rw [List.modify_succ_cons, List.map_cons, ih, List.map_cons]

/-- What signing leaves alone. -/
theorem signInputs_frame {sign : Coin → CTransaction → ℕ → Option CScript} (coins : List Coin)
    (k : ℕ) {wtxNew wtxNew' : WxTx}
    (h : (coins.zipIdx k).foldlM (signInput sign) wtxNew = .ok wtxNew') :
    wtxNew'.vout = wtxNew.vout ∧
      wtxNew'.vin.map CTxIn.prevout = wtxNew.vin.map CTxIn.prevout := by
  induction coins generalizing k wtxNew with
  | nil =>
    cases h
    exact ⟨rfl, rfl⟩
  | cons coin coins ih =>
    rw [List.zipIdx_cons, List.foldlM_cons, seq_ok] at h
    obtain ⟨wtx, hsigned, h⟩ := h
    have hrest := ih (k + 1) h
    rw [signInput] at hsigned
    split at hsigned
    next => cases hsigned
    next scriptSig _ =>
      cases hsigned
      exact ⟨hrest.1, hrest.2.trans (map_prevout_modify wtxNew.vin k scriptSig)⟩

theorem signFunded_frame {sign : Coin → CTransaction → ℕ → Option CScript} {nMaxSize : ℕ}
    {funded : Funded} (h : signFunded env sign nMaxSize funded = .ok draft) :
    draft.wtxNew.vout = funded.wtxNew.vout ∧
      draft.wtxNew.vin.map CTxIn.prevout = funded.coins.map (Coin.prevout env) := by
  rw [signFunded, seq_ok] at h
  obtain ⟨wtxNew, hsigned, h⟩ := h
  rw [seq_ok] at h
  obtain ⟨u, -, h⟩ := h
  cases h
  have hframe := signInputs_frame funded.coins 0 (within_eq_ok.mp hsigned)
  refine ⟨hframe.1, hframe.2.trans ?_⟩
  rw [fillVin, List.map_map]
  rfl

/-- The outputs are the payments and at most one more, of a given value. -/
def Outputs (vecSend : List (CScript × ℤ)) (nChange : ℤ) (vout : List CTxOut) : Prop :=
  ∃ change : List CTxOut, change.length ≤ 1 ∧ vout.Perm (change ++ payees vecSend) ∧
    (change.map CTxOut.nValue).sum = nChange

theorem outputs_payees (vecSend : List (CScript × ℤ)) : Outputs vecSend 0 (payees vecSend) :=
  ⟨[], Nat.zero_le 1, List.Perm.refl _, rfl⟩

theorem outputs_insertChange (hne : vecSend ≠ []) (nRand : ℕ) (change : CTxOut) :
    Outputs vecSend change.nValue (insertChange nRand change (payees vecSend)) := by
  refine ⟨[change], le_rfl, ?_, by simp⟩
  refine List.perm_insertIdx change (payees vecSend) (Nat.mod_lt nRand ?_).le
  rw [payees, List.length_map]
  exact List.length_pos_of_ne_nil hne

theorem Outputs.sum {vout : List CTxOut} (h : Outputs vecSend nChange vout) :
    (vout.map CTxOut.nValue).sum = nChange + (vecSend.map Prod.snd).sum := by
  obtain ⟨change, -, hperm, hsum⟩ := h
  rw [(hperm.map CTxOut.nValue).sum_eq, List.map_append, List.sum_append, hsum, sum_payees]

/-! ## What is left for the fee -/

/-- What a transaction takes in and does not give out, with the values of the previous outputs. -/
def surplus (value : COutPoint → ℤ) (tx : WxTx) : ℤ :=
  (tx.vin.map fun txin => value txin.prevout).sum - (tx.vout.map CTxOut.nValue).sum

/-- The values are those of the coins found. -/
def Valued (env : Env) (value : COutPoint → ℤ) (io : PayIo) : Prop :=
  ∀ nRound, ∀ output ∈ io.AvailableCoins nRound, value (output.prevout env) = output.nValue

theorem Valued.sum {value : COutPoint → ℤ} {io : PayIo} (h : Valued env value io) {nRound : ℕ}
    {coins : List Coin} (hsub : coins ⊆ (io.AvailableCoins nRound).map COutput.toCoin) :
    ((coins.map (Coin.prevout env)).map value).sum = (coins.map Coin.nValue).sum := by
  rw [List.map_map]
  refine congrArg List.sum (List.map_congr_left fun coin hcoin => ?_)
  obtain ⟨output, houtput, rfl⟩ := List.mem_map.mp (hsub hcoin)
  exact h nRound output houtput

theorem surplus_eq {value : COutPoint → ℤ} {tx : WxTx} {nIn : ℤ}
    (hin : (tx.vin.map fun txin => value txin.prevout).sum = nIn)
    (hout : Outputs vecSend nChange tx.vout) :
    surplus value tx = nIn - nChange - (vecSend.map Prod.snd).sum := by
  rw [surplus, hin, hout.sum, sub_sub]

/-! ## The loop -/

section Loop

variable {round : PayRound → Halt Draft Draft} {nNeeded : Draft → ℤ}
  {hround : ∀ s draft, round s = .ok draft → s.nFeeRet ≤ draft.nFeeRet}
  {hneeded : ∀ draft, nNeeded draft < 2 ^ 63} {s s' : PayRound}

/-- Every new round is made with a larger fee, which fits its variable. -/
theorem feeLoop_again (h : (feeLoop round nNeeded hround hneeded).attempt s = .again s') :
    s.nFeeRet < s'.nFeeRet ∧ s'.nFeeRet < 2 ^ 63 := by
  change checkFee nNeeded s.nRound (round s) = .again s' at h
  cases hr : round s with
  | error e => simp [checkFee, hr] at h
  | ok draft =>
    have hfee := hround s draft hr
    rw [hr, checkFee] at h
    split at h
    next hless =>
      cases h
      exact ⟨hfee.trans_lt hless, hneeded draft⟩
    next => cases h

theorem feeLoop_done (h : (feeLoop round nNeeded hround hneeded).attempt s = .done (.ok draft)) :
    round s = .ok draft ∧ nNeeded draft ≤ draft.nFeeRet := by
  change checkFee nNeeded s.nRound (round s) = .done (.ok draft) at h
  cases hr : round s with
  | error e => simp [checkFee, hr] at h
  | ok draft' =>
    rw [hr, checkFee] at h
    split at h
    next => cases h
    next hnot =>
      cases h
      exact ⟨rfl, not_lt.mp hnot⟩

theorem feeLoop_attempt (h : (round s).toOption = some draft)
    (henough : nNeeded draft ≤ draft.nFeeRet) :
    (feeLoop round nNeeded hround hneeded).attempt s = .done (.ok draft) := by
  change checkFee nNeeded s.nRound (round s) = _
  cases hr : round s with
  | error e =>
    rw [hr] at h
    cases h
  | ok draft' =>
    rw [hr] at h
    cases h
    rw [checkFee, if_neg henough.not_gt]

/-- A fee that is not enough is raised to what is needed. -/
theorem feeLoop_attempt_again (h : (round s).toOption = some draft)
    (hless : draft.nFeeRet < nNeeded draft) :
    (feeLoop round nNeeded hround hneeded).attempt s =
      .again { wtxNew := draft.wtxNew, nFeeRet := nNeeded draft, nRound := s.nRound + 1 } := by
  change checkFee nNeeded s.nRound (round s) = _
  cases hr : round s with
  | error e =>
    rw [hr] at h
    cases h
  | ok draft' =>
    rw [hr] at h
    cases h
    rw [checkFee, if_pos hless]

theorem feeLoop_tries (h : (feeLoop round nNeeded hround hneeded).Tries s s') :
    s.nFeeRet ≤ s'.nFeeRet := by
  refine @Retry.Tries.invariant _ _ _ (fun t => s.nFeeRet ≤ t.nFeeRet) ?_ _ _ h le_rfl
  exact fun _ _ hle hagain => hle.trans (feeLoop_again hagain).1.le

theorem feeLoop_tries_lt (h : (feeLoop round nNeeded hround hneeded).Tries s s')
    (hs : s.nFeeRet < 2 ^ 63) : s'.nFeeRet < 2 ^ 63 := by
  refine @Retry.Tries.invariant _ _ _ (fun t => t.nFeeRet < 2 ^ 63) ?_ _ _ h hs
  exact fun _ _ _ hagain => (feeLoop_again hagain).2

end Loop

/-! ## Rounds of the wallet's payments -/

section Wallet

variable {κ : Type} {ks : WalletKeys κ} {w : Wx κ} {io : PayIo}
  {coinControl : Option CCoinControl} {vecSend : List (CScript × ℤ)} {nValue : ℤ}

theorem giveChange_outputs {nRound : ℕ} (hne : vecSend ≠ [])
    (hvout : draft.wtxNew.vout = payees vecSend)
    (h : giveChange io coinControl nRound nChange draft = .ok draft') :
    Outputs vecSend (if 0 < nChange then nChange else 0) draft'.wtxNew.vout := by
  rw [giveChange] at h
  split at h
  next hpos =>
    rw [seq_ok] at h
    obtain ⟨scriptChange, -, h⟩ := h
    cases h
    rw [if_pos hpos]
    dsimp only
    rw [hvout]
    exact outputs_insertChange hne _ ⟨nChange, scriptChange⟩
  next hnot =>
    cases h
    rw [if_neg hnot, hvout]
    exact outputs_payees vecSend

/-- A round with at least the minimal fee: the selection, its inputs, and the change as the
64-bit variable holds it. -/
theorem payRound_spec (hne : vecSend ≠ []) (hfee : MIN_TX_FEE ≤ s.nFeeRet)
    (h : payRound env ks w io coinControl vecSend nValue s = .ok draft) :
    ∃ sel, selectFor ks w io coinControl nValue s = .ok (true, sel) ∧
      draft.nFeeRet = s.nFeeRet ∧
      draft.wtxNew.vin.map CTxIn.prevout = sel.setCoinsRet.map (Coin.prevout env) ∧
      Outputs vecSend (max 0 (int64 (sel.nValueRet - nValue - s.nFeeRet))) draft.wtxNew.vout := by
  rw [payRound, seq_ok] at h
  obtain ⟨funded, hfund, hsign⟩ := h
  have hframe := signFunded_frame hsign
  have hsame := signFunded_fee env hsign
  rw [fund] at hfund
  simp only [seq_ok] at hfund
  obtain ⟨⟨fSelected, sel⟩, hselect, u, htrue, draft', hchange, hfund⟩ := hfund
  rw [within_eq_ok] at hselect htrue
  rw [require_eq_ok] at htrue
  cases hfund
  have hchanged := giveChange_outputs hne rfl hchange
  have hkept := giveChange_fee io coinControl hchange
  have hmove : nMoveToFee s.nFeeRet (int64 (int64 (sel.nValueRet - nValue) - s.nFeeRet)) = 0 := by
    rw [nMoveToFee, if_neg fun hsmall => absurd hsmall.1 hfee.not_gt]
  have hint : int64 (int64 (sel.nValueRet - nValue) - s.nFeeRet) =
      int64 (sel.nValueRet - nValue - s.nFeeRet) := by
    rw [sub_eq_add_neg, int64_int64_add, ← sub_eq_add_neg]
  dsimp only at htrue hsame hframe hkept hchanged
  rw [hmove, sub_zero, hint] at hchanged
  refine ⟨sel, ?_, ?_, hframe.2, ?_⟩
  · rw [hselect, htrue]
  · rw [hsame, hkept, hmove, add_zero]
    rfl
  · rw [hframe.1]
    convert hchanged using 1
    split
    next hpos => exact max_eq_right hpos.le
    next hnot => exact max_eq_left (not_lt.mp hnot)

/-- The selection of a round meets its specification for the target it is given. -/
def SelectionSound (ks : WalletKeys κ) (w : Wx κ) (io : PayIo)
    (coinControl : Option CCoinControl) (nValue : ℤ) (s : PayRound) : Prop :=
  ∀ sel, selectFor ks w io coinControl nValue s = .ok (true, sel) →
    sel.Pays ((io.AvailableCoins s.nRound).map COutput.toCoin) (int64 (nValue + s.nFeeRet))

/-- A target that wraps is below every sum, and then no change makes up for it. -/
theorem change_exact_iff {nIn nFee : ℤ} (hvalue : 0 ≤ nValue) (hfee : 0 ≤ nFee)
    (hfits : Fits64 nIn) (hreached : int64 (nValue + nFee) ≤ nIn) :
    nIn - max 0 (int64 (nIn - nValue - nFee)) - nValue = nFee ↔ nValue + nFee < 2 ^ 63 := by
  obtain ⟨hlow, hhigh⟩ := hfits
  by_cases hbound : nValue + nFee < 2 ^ 63
  · have htarget : int64 (nValue + nFee) = nValue + nFee :=
      Fits64.int64_eq ⟨by omega, hbound⟩
    have hchange : int64 (nIn - nValue - nFee) = nIn - nValue - nFee :=
      Fits64.int64_eq ⟨by omega, by omega⟩
    rw [hchange, max_eq_right (by omega)]
    exact iff_of_true (by omega) hbound
  · refine iff_of_false ?_ hbound
    have hnonneg := le_max_left 0 (int64 (nIn - nValue - nFee))
    omega

/-- What a payment has to account for: the fee is what the inputs are worth more than the outputs,
it is enough for the size, and the outputs are the payments and at most one for change. -/
structure Accounted (value : COutPoint → ℤ) (io : PayIo) (vecSend : List (CScript × ℤ))
    (draft : Draft) : Prop where
  balanced : surplus value draft.wtxNew = draft.nFeeRet
  enough : sizeFee io draft ≤ draft.nFeeRet
  outputs : ∃ change : List CTxOut, change.length ≤ 1 ∧
    draft.wtxNew.vout.Perm (change ++ payees vecSend)

theorem payRound_balanced_iff {value : COutPoint → ℤ} (hvalued : Valued env value io)
    (hne : vecSend ≠ []) (hnValue : nValue = (vecSend.map Prod.snd).sum) (hnonneg : 0 ≤ nValue)
    (hfee : MIN_TX_FEE ≤ s.nFeeRet) (hsound : SelectionSound ks w io coinControl nValue s)
    (h : payRound env ks w io coinControl vecSend nValue s = .ok draft) :
    surplus value draft.wtxNew = draft.nFeeRet ↔ nValue + s.nFeeRet < 2 ^ 63 := by
  obtain ⟨sel, hselect, hkept, hvin, houtputs⟩ := payRound_spec hne hfee h
  have hpays := hsound sel hselect
  have hfrom : sel.From ((io.AvailableCoins s.nRound).map COutput.toCoin) :=
    selectCoins_from (io.distinct s.nRound) hselect
  have hfits : Fits64 sel.nValueRet := by
    rw [hfrom.value]
    exact fits64_int64 _
  have hin : (draft.wtxNew.vin.map fun txin => value txin.prevout).sum = sel.nValueRet := by
    rw [hpays.value, ← hvalued.sum hpays.subset, ← hvin, List.map_map]
    rfl
  have hmin : 0 ≤ s.nFeeRet := le_trans (by decide) hfee
  rw [surplus_eq hin houtputs, ← hnValue, hkept]
  exact change_exact_iff hnonneg hmin hfits hpays.reached

/-- For every start with at least the minimal fee: the result accounts for everything exactly when
no round has a target that wraps. -/
theorem payLoop_accounted_iff {value : COutPoint → ℤ} {start : PayRound}
    (hvalued : Valued env value io) (hne : vecSend ≠ [])
    (hnValue : nValue = (vecSend.map Prod.snd).sum) (hnonneg : 0 ≤ nValue)
    (hfee : MIN_TX_FEE ≤ start.nFeeRet)
    (hsound : ∀ s, (payLoop env ks w io coinControl vecSend nValue).Tries start s →
      SelectionSound ks w io coinControl nValue s)
    (h : (payLoop env ks w io coinControl vecSend nValue).run start = .ok draft) :
    Accounted value io vecSend draft ↔
      ∀ s, (payLoop env ks w io coinControl vecSend nValue).Tries start s →
        nValue + s.nFeeRet < 2 ^ 63 := by
  have hlast : ∀ s, (payLoop env ks w io coinControl vecSend nValue).Tries start s →
      (payLoop env ks w io coinControl vecSend nValue).attempt s = .done (.ok draft) →
      (Accounted value io vecSend draft ↔ nValue + s.nFeeRet < 2 ^ 63) := by
    intro s htries hattempt
    obtain ⟨hround, henough⟩ := feeLoop_done hattempt
    have hmin : MIN_TX_FEE ≤ s.nFeeRet := hfee.trans (feeLoop_tries htries)
    have hbalanced := payRound_balanced_iff hvalued hne hnValue hnonneg hmin (hsound s htries) hround
    obtain ⟨sel, -, -, -, change, hlength, hperm, -⟩ := payRound_spec hne hmin hround
    exact ⟨fun haccounted => hbalanced.mp haccounted.balanced,
      fun hbound => ⟨hbalanced.mpr hbound, henough, change, hlength, hperm⟩⟩
  constructor
  · intro haccounted s htries
    -- the last round has the largest fee
    obtain ⟨last, hrest, hattempt⟩ := Retry.exists_last s
    rw [← htries.run_eq, h] at hattempt
    have hbound := (hlast last (htries.trans hrest) hattempt).mp haccounted
    have hle := feeLoop_tries hrest
    omega
  · intro hall
    obtain ⟨last, htries, hattempt⟩ := Retry.exists_last start
    rw [h] at hattempt
    exact (hlast last htries hattempt).mpr (hall last htries)

theorem createPayment_accounted_iff {value : COutPoint → ℤ} (hvalued : Valued env value io)
    (hsend : NonnegPayments vecSend) (hnValue : nValue = (vecSend.map Prod.snd).sum)
    (hfee : MIN_TX_FEE ≤ nFeeStart)
    (hsound : ∀ s, (payLoop env ks w io coinControl vecSend nValue).Tries
      (firstRound nFeeStart strTxInfo draft) s → SelectionSound ks w io coinControl nValue s)
    (h : createPayment env ks w io coinControl vecSend nFeeStart strTxInfo draft = .ok draft') :
    Accounted value io vecSend draft' ↔
      ∀ s, (payLoop env ks w io coinControl vecSend nValue).Tries
        (firstRound nFeeStart strTxInfo draft) s → nValue + s.nFeeRet < 2 ^ 63 := by
  rw [createPayment, seq_ok] at h
  obtain ⟨n, hsum, h⟩ := h
  obtain ⟨hexact, hnonneg, -, hne⟩ := paymentValue_exact hsend (within_eq_ok.mp hsum)
  rw [hexact, ← hnValue] at h hnonneg
  exact payLoop_accounted_iff hvalued hne hnValue hnonneg hfee hsound h

def paymentTotal (vecSend : List (CScript × ℤ)) : ℤ := (vecSend.map Prod.snd).sum

/-- No round that the loop gets to asks for more than a 64-bit variable holds. -/
def TargetsFit (env : Env) (ks : WalletKeys κ) (w : Wx κ) (io : PayIo)
    (coinControl : Option CCoinControl) (vecSend : List (CScript × ℤ)) (start : PayRound) : Prop :=
  ∀ s, (payLoop env ks w io coinControl vecSend (paymentTotal vecSend)).Tries start s →
    paymentTotal vecSend + s.nFeeRet < 2 ^ 63

/-- In every round that the loop gets to the selection meets its specification. -/
def SelectionsSound (env : Env) (ks : WalletKeys κ) (w : Wx κ) (io : PayIo)
    (coinControl : Option CCoinControl) (vecSend : List (CScript × ℤ)) (start : PayRound) : Prop :=
  ∀ s, (payLoop env ks w io coinControl vecSend (paymentTotal vecSend)).Tries start s →
    SelectionSound ks w io coinControl (paymentTotal vecSend) s

/-- Both functions come to a last round, and where they succeed, the result accounts for everything
exactly when no target wraps. -/
theorem createTransaction_accounted_iff {value : COutPoint → ℤ} (strTxInfo : List UInt8)
    (draft : Draft) (hvalued : Valued env value io) (hsend : NonnegPayments vecSend)
    (hsound : ∀ nFeeStart ∈ [CENT, S_MIN_TX_FEE],
      SelectionsSound env ks w io coinControl vecSend (firstRound nFeeStart strTxInfo draft)) :
    (∀ start, ∃ last,
      (payLoop env ks w io coinControl vecSend (paymentTotal vecSend)).Tries start last ∧
        (payLoop env ks w io coinControl vecSend (paymentTotal vecSend)).attempt last =
          .done ((payLoop env ks w io coinControl vecSend (paymentTotal vecSend)).run start)) ∧
      (∀ draft', CreateTransaction__ env ks w io coinControl vecSend strTxInfo draft = .ok draft' →
        (Accounted value io vecSend draft' ↔
          TargetsFit env ks w io coinControl vecSend (firstRound CENT strTxInfo draft))) ∧
      (∀ draft', CreateTransaction env ks w io coinControl vecSend strTxInfo draft = .ok draft' →
        (Accounted value io vecSend draft' ↔
          TargetsFit env ks w io coinControl vecSend (firstRound S_MIN_TX_FEE strTxInfo draft))) :=
  ⟨Retry.exists_last,
    fun _ h => createPayment_accounted_iff hvalued hsend rfl (by decide) (hsound CENT (by simp)) h,
    fun _ h => createPayment_accounted_iff hvalued hsend rfl (by decide)
      (hsound S_MIN_TX_FEE (by simp)) h⟩

end Wallet

/-! ## Runs -/

theorem Retry.tries_done {σ α : Type} {L : Retry σ α} {s s' : σ} {a : α}
    (h : L.attempt s = .done a) (htries : L.Tries s s') : s' = s := by
  rcases Relation.ReflTransGen.cases_head htries with heq | ⟨next, hagain, -⟩
  · exact heq.symm
  · rw [h] at hagain
    cases hagain

theorem Retry.tries_twice {σ α : Type} {L : Retry σ α} {s s₁ s' : σ} {a : α}
    (hagain : L.attempt s = .again s₁) (h : L.attempt s₁ = .done a) (htries : L.Tries s s') :
    s' = s ∨ s' = s₁ := by
  rcases Relation.ReflTransGen.cases_head htries with heq | ⟨next, hnext, hrest⟩
  · exact .inl heq.symm
  · rw [hagain] at hnext
    cases hnext
    exact .inr (Retry.tries_done h hrest)

section Rounds

variable {κ : Type} {ks : WalletKeys κ} {w : Wx κ} {io : PayIo}
  {coinControl : Option CCoinControl} {vecSend : List (CScript × ℤ)} {nValue : ℤ}

/-- Coins of moderate value are selected soundly for a moderate target. -/
theorem selectionSound_of_amounts
    (hamounts : Amounts ((io.AvailableCoins s.nRound).map COutput.toCoin))
    (hpos : 0 < int64 (nValue + s.nFeeRet)) (hbound : int64 (nValue + s.nFeeRet) + CENT < 2 ^ 63) :
    SelectionSound ks w io coinControl nValue s :=
  fun _ hselect => selectCoins_pays (io.distinct s.nRound) hamounts hpos hbound hselect rfl

theorem createPayment_run (hsum : (paymentValue vecSend).toOption = some nValue)
    (h : (payLoop env ks w io coinControl vecSend nValue).run
      (firstRound nFeeStart strTxInfo draft) = .ok draft') :
    createPayment env ks w io coinControl vecSend nFeeStart strTxInfo draft = .ok draft' := by
  cases hvalue : paymentValue vecSend with
  | error e =>
    rw [hvalue] at hsum
    cases hsum
  | ok n =>
    rw [hvalue] at hsum
    cases hsum
    rw [createPayment, hvalue]
    exact h

end Rounds

def payingIo (vCoins : List COutput) (hdistinct : (vCoins.map COutput.toCoin).Nodup) : PayIo where
  nTransactionFee := MIN_TX_FEE
  AvailableCoins _ := vCoins
  distinct _ := hdistinct
  draws _ _ := someDraws
  GetReservedKey _ := some [1]
  nRand _ := 0
  SignSignature _ _ _ _ := some [2]

def fiveCoins : PayIo := payingIo [soleOutput 1 (5 * COIN)] (by decide)

def emptyDraft : Draft := ⟨WxTx.ofTx (CTransaction.null 0), 0⟩

/-- Four coins are paid with an output of five, and the rest is change but for the fee. -/
def fourPaid (nFeeRet : ℤ) : Draft :=
  ⟨{ emptyDraft.wtxNew with
    fFromMe := true
    vin := [⟨⟨0, 0⟩, [2], UINT_MAX⟩]
    vout := [⟨COIN - nFeeRet, [1]⟩, ⟨4 * COIN, [7]⟩] }, nFeeRet⟩

/-- A wallet that pays two hundredths of a coin for a kilobyte. -/
def dearCoins : PayIo := { fiveCoins with nTransactionFee := 2 * CENT }

def raisedRound (nFeeStart : ℤ) : PayRound :=
  { wtxNew := (fourPaid nFeeStart).wtxNew, nFeeRet := 2 * CENT, nRound := 1 }

section FourPaid

open Scenario

/-- The round pays four coins out of five, for a target that is not too large. -/
def PaysFour (s : PayRound) (nFeeRet : ℤ) : Prop :=
  (payRound (timed testNet) noKeys noWallet dearCoins none [([7], 4 * COIN)]
      (paymentTotal [([7], 4 * COIN)]) s).toOption = some (fourPaid nFeeRet) ∧
    0 < int64 (paymentTotal [([7], 4 * COIN)] + s.nFeeRet) ∧
    int64 (paymentTotal [([7], 4 * COIN)] + s.nFeeRet) + CENT < 2 ^ 63 ∧
    paymentTotal [([7], 4 * COIN)] + s.nFeeRet < 2 ^ 63

instance (s : PayRound) (nFeeRet : ℤ) : Decidable (PaysFour s nFeeRet) :=
  inferInstanceAs (Decidable (_ ∧ _ ∧ _ ∧ _))

variable {nFeeStart : ℤ} (hstart : nFeeStart ∈ [CENT, S_MIN_TX_FEE])

include hstart

/-- The fee of the first round is too small, and that of the second one is enough. -/
theorem fourPaid_rounds : PaysFour (firstRound nFeeStart [] emptyDraft) nFeeStart ∧
    nFeeStart < 2 * CENT ∧ sizeFee dearCoins (fourPaid nFeeStart) = 2 * CENT ∧
    PaysFour (raisedRound nFeeStart) (2 * CENT) ∧
    sizeFee dearCoins (fourPaid (2 * CENT)) ≤ 2 * CENT := by
  rcases List.mem_cons.mp hstart with rfl | h
  · decide
  · rw [List.mem_singleton.mp h]
    decide

theorem fourPaid_attempts :
    (payLoop (timed testNet) noKeys noWallet dearCoins none [([7], 4 * COIN)]
        (paymentTotal [([7], 4 * COIN)])).attempt (firstRound nFeeStart [] emptyDraft) =
      .again (raisedRound nFeeStart) ∧
    (payLoop (timed testNet) noKeys noWallet dearCoins none [([7], 4 * COIN)]
        (paymentTotal [([7], 4 * COIN)])).attempt (raisedRound nFeeStart) =
      .done (.ok (fourPaid (2 * CENT))) := by
  obtain ⟨hfirst, hless, hfee, hsecond, henough⟩ := fourPaid_rounds hstart
  constructor
  · have hraised : (fourPaid nFeeStart).nFeeRet < sizeFee dearCoins (fourPaid nFeeStart) :=
      hfee ▸ hless
    refine (feeLoop_attempt_again hfirst.1 hraised).trans ?_
    rw [hfee]
    rfl
  · exact feeLoop_attempt hsecond.1 henough

theorem fourPaid_tries
    (htries : (payLoop (timed testNet) noKeys noWallet dearCoins none [([7], 4 * COIN)]
      (paymentTotal [([7], 4 * COIN)])).Tries (firstRound nFeeStart [] emptyDraft) s) :
    PaysFour s nFeeStart ∨ PaysFour s (2 * CENT) := by
  obtain ⟨hagain, hdone⟩ := fourPaid_attempts hstart
  obtain ⟨hfirst, -, -, hsecond, -⟩ := fourPaid_rounds hstart
  rcases Retry.tries_twice hagain hdone htries with rfl | rfl
  · exact .inl hfirst
  · exact .inr hsecond

theorem fourPaid_sound : SelectionsSound (timed testNet) noKeys noWallet dearCoins none
    [([7], 4 * COIN)] (firstRound nFeeStart [] emptyDraft) := by
  intro s htries
  have hamounts : Amounts [(soleOutput 1 (5 * COIN)).toCoin] := ⟨by decide, by decide⟩
  rcases fourPaid_tries hstart htries with ⟨-, hpos, hbound, -⟩ | ⟨-, hpos, hbound, -⟩
  · exact selectionSound_of_amounts hamounts hpos hbound
  · exact selectionSound_of_amounts hamounts hpos hbound

theorem fourPaid_fits : TargetsFit (timed testNet) noKeys noWallet dearCoins none
    [([7], 4 * COIN)] (firstRound nFeeStart [] emptyDraft) := by
  intro s htries
  rcases fourPaid_tries hstart htries with ⟨-, -, -, hfit⟩ | ⟨-, -, -, hfit⟩
  · exact hfit
  · exact hfit

theorem fourPaid_run :
    (payLoop (timed testNet) noKeys noWallet dearCoins none [([7], 4 * COIN)]
        (paymentTotal [([7], 4 * COIN)])).run (firstRound nFeeStart [] emptyDraft) =
      .ok (fourPaid (2 * CENT)) := by
  obtain ⟨hagain, hdone⟩ := fourPaid_attempts hstart
  rw [Retry.run_again hagain, Retry.run_done hdone]

end FourPaid

open Scenario in
/-- Both functions raise their fee once, pay four coins out of five and account for all of them. -/
theorem createTransaction_accounted_iff_fourPaid :
    (CreateTransaction__ (timed testNet) noKeys noWallet dearCoins none [([7], 4 * COIN)] []
        emptyDraft = .ok (fourPaid (2 * CENT)) ∧
      CreateTransaction (timed testNet) noKeys noWallet dearCoins none [([7], 4 * COIN)] []
        emptyDraft = .ok (fourPaid (2 * CENT))) ∧
    Accounted (fun _ => 5 * COIN) dearCoins [([7], 4 * COIN)] (fourPaid (2 * CENT)) := by
  have hvalued : Valued (timed testNet) (fun _ => 5 * COIN) dearCoins := by
    intro nRound output houtput
    rw [List.mem_singleton.mp houtput]
    rfl
  have hcent : CENT ∈ [CENT, S_MIN_TX_FEE] := by decide
  have hmin : S_MIN_TX_FEE ∈ [CENT, S_MIN_TX_FEE] := by decide
  obtain ⟨-, hpaid, -⟩ := createTransaction_accounted_iff [] emptyDraft hvalued
    ⟨by decide, by decide⟩ (fun _ hstart => fourPaid_sound hstart)
  have hfirst : CreateTransaction__ (timed testNet) noKeys noWallet dearCoins none
      [([7], 4 * COIN)] [] emptyDraft = .ok (fourPaid (2 * CENT)) :=
    createPayment_run (by decide) (fourPaid_run hcent)
  have hsecond : CreateTransaction (timed testNet) noKeys noWallet dearCoins none
      [([7], 4 * COIN)] [] emptyDraft = .ok (fourPaid (2 * CENT)) :=
    createPayment_run (by decide) (fourPaid_run hmin)
  exact ⟨⟨hfirst, hsecond⟩, (hpaid _ hfirst).mpr (fourPaid_fits hcent)⟩

def noCoins : PayIo := payingIo [] List.nodup_nil

/-- Without a coin, an output that the wrapped change makes up for. -/
def nothingSpent : Draft :=
  ⟨{ emptyDraft.wtxNew with
    fFromMe := true
    vout := [⟨2 ^ 63 + 1024 - CENT, [1]⟩, ⟨2 ^ 63 - 1024, [7]⟩] }, CENT⟩

open Scenario in
theorem nothingSpent_round : (payRound (timed testNet) noKeys noWallet noCoins none
      [([7], 2 ^ 63 - 1024)] (paymentTotal [([7], 2 ^ 63 - 1024)]) (firstRound CENT [] emptyDraft)).toOption =
    some nothingSpent := by
  decide

open Scenario in
/-- The selection of nothing is right for the target that the overflow leaves. -/
theorem nothingSpent_sound : SelectionsSound (timed testNet) noKeys noWallet noCoins none
    [([7], 2 ^ 63 - 1024)] (firstRound CENT [] emptyDraft) := by
  intro s htries sel hselect
  rw [Retry.tries_done (feeLoop_attempt nothingSpent_round (by decide)) htries] at hselect ⊢
  have hempty : (selectFor noKeys noWallet noCoins none (paymentTotal [([7], 2 ^ 63 - 1024)])
      (firstRound CENT [] emptyDraft)).toOption = some (true, CoinSelection.clear) := by decide
  rw [hselect] at hempty
  cases hempty
  exact ⟨List.nodup_nil, List.nil_subset _, rfl, by decide⟩

open Scenario in
/-- An empty wallet pays an amount near the largest one, and does not account for it. -/
theorem createTransaction_unaccounted : Valued (timed testNet) (fun _ => 0) noCoins ∧
    SelectionsSound (timed testNet) noKeys noWallet noCoins none [([7], 2 ^ 63 - 1024)]
      (firstRound CENT [] emptyDraft) ∧
    CreateTransaction__ (timed testNet) noKeys noWallet noCoins none [([7], 2 ^ 63 - 1024)] []
        emptyDraft = .ok nothingSpent ∧
      surplus (fun _ => 0) nothingSpent.wtxNew ≠ nothingSpent.nFeeRet := by
  have hsum : (paymentValue [([7], 2 ^ 63 - 1024)]).toOption = some (2 ^ 63 - 1024) := by decide
  have hdone : createPayment (timed testNet) noKeys noWallet noCoins none [([7], 2 ^ 63 - 1024)] CENT
      [] emptyDraft = .ok nothingSpent :=
    createPayment_run hsum (Retry.run_done (feeLoop_attempt nothingSpent_round (by decide)))
  exact ⟨fun _ _ houtput => absurd houtput List.not_mem_nil, nothingSpent_sound, hdone, by decide⟩

end Dions
