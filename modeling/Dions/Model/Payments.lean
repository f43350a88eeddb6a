import Dions.Library.Loop
import Dions.Model.CoinSelection
import Dions.Model.Endpoint

/-! # Making payments

The two functions of the wallet that build a transaction for a list of payments, and the one that
builds a transaction of an alias. Each starts with a small fee and begins anew with a larger one
until the fee is enough for the size. -/

namespace Dions

open Halting

variable (env : Env)
variable {nRound : ℕ} {nChange nValue : ℤ}

/-- What the user has chosen by hand. -/
structure CCoinControl where
  fHasSelected : Bool
  destChange : Option CScript

/-- What the outside world answers; most of it is asked again in each round of the loop. -/
structure PayIo where
  nTransactionFee : ℤ
  /-- The coins found by `AvailableCoins`, each of them once. -/
  AvailableCoins : ℕ → List COutput
  distinct : ∀ nRound, ((AvailableCoins nRound).map COutput.toCoin).Nodup
  draws : ℕ → ℕ → Draws
  /-- The script that pays the reserved key; there is none when no key is left. -/
  GetReservedKey : ℕ → Option CScript
  /-- The random number from which `GetRandInt` takes the remainder. -/
  nRand : ℕ → ℕ
  /-- The signature script for an input, if it can be signed. -/
  SignSignature : ℕ → Coin → CTransaction → ℕ → Option CScript

/-- The transaction and the fee, which the caller finds changed however the call ends. -/
structure Draft where
  wtxNew : WxTx
  nFeeRet : ℤ
  deriving DecidableEq, Repr

variable {draft draft' : Draft}

/-- The state of the loop. -/
structure PayRound extends Draft where
  nRound : ℕ

/-! ## Parts of all three functions -/

def paymentSum : List (CScript × ℤ) → ℤ → Exec ℤ
  | [], nValue => .ok nValue
  | s :: vecSend, nValue =>
    if nValue < 0 then .error .reject else paymentSum vecSend (int64 (nValue + s.2))

/-- `nValue`, the sum of the payments. -/
def paymentValue (vecSend : List (CScript × ℤ)) : Exec ℤ := do
  let nValue ← paymentSum vecSend 0
  require (vecSend ≠ [] ∧ 0 ≤ nValue)
  .ok nValue

def payees (vecSend : List (CScript × ℤ)) : List CTxOut :=
  vecSend.map fun s => ⟨s.2, s.1⟩

/-- The transaction as each round begins it. -/
def beginRound (vecSend : List (CScript × ℤ)) (s : PayRound) : Draft :=
  ⟨{ s.wtxNew with vin := [], vout := payees vecSend, fFromMe := true }, s.nFeeRet⟩

/-- The change goes to a random position in front of another output. -/
def insertChange (nRand : ℕ) (change : CTxOut) (vout : List CTxOut) : List CTxOut :=
  vout.insertIdx (nRand % vout.length) change

def Coin.prevout (coin : Coin) : COutPoint := ⟨coin.tx.GetHash env, coin.i⟩

/-- `CTxIn(coin.first->GetHash(), coin.second)` for each coin. -/
def fillVin (coins : List Coin) : List CTxIn :=
  coins.map fun coin => ⟨coin.prevout env, [], UINT_MAX⟩

def signInput (SignSignature : Coin → CTransaction → ℕ → Option CScript) (wtxNew : WxTx)
    (entry : Coin × ℕ) : Exec WxTx :=
  match SignSignature entry.1 wtxNew.toCTransaction entry.2 with
  | none => .error .reject
  | some scriptSig =>
    .ok { wtxNew with
      vin := wtxNew.vin.modify entry.2 fun txin => { txin with scriptSig := scriptSig } }

def signInputs (SignSignature : Coin → CTransaction → ℕ → Option CScript) (coins : List Coin)
    (wtxNew : WxTx) : Exec WxTx :=
  coins.zipIdx.foldlM (signInput SignSignature) wtxNew

/-- The inputs and the fee that a round settles on, before the inputs are signed. -/
structure Funded extends Draft where
  coins : List Coin

variable {funded : Funded}

/-- The inputs are signed, and the transaction must stay below a size. -/
def signFunded (SignSignature : Coin → CTransaction → ℕ → Option CScript) (nMaxSize : ℕ)
    (funded : Funded) : Halt Draft Draft := do
  let wtxNew := { funded.wtxNew with vin := fillVin env funded.coins }
  let draft : Draft := ⟨wtxNew, funded.nFeeRet⟩
  let wtxNew ← (signInputs SignSignature funded.coins wtxNew).within draft
  let draft : Draft := ⟨wtxNew, funded.nFeeRet⟩
  (require (wtxNew.GetSerializeSize < nMaxSize)).within draft
  .ok draft

theorem signFunded_fee {SignSignature : Coin → CTransaction → ℕ → Option CScript} {nMaxSize : ℕ}
    (h : signFunded env SignSignature nMaxSize funded = .ok draft) :
    draft.nFeeRet = funded.nFeeRet := by
  rw [signFunded, seq_ok] at h
  obtain ⟨wtxNew, -, h⟩ := h
  rw [seq_ok] at h
  obtain ⟨-, -, h⟩ := h
  cases h
  rfl

/-! ## The loop -/

theorem int64_lt (n : ℤ) : int64 n < 2 ^ 63 := by
  have h : n.bmod (2 ^ 64) < ((2 ^ 64 + 1) / 2 : ℕ) := Int.bmod_lt (by decide)
  unfold int64
  omega

theorem CTransaction.GetMinFee_lt (tx : CTransaction) (nBlockSize : ℕ) (mode : GetMinFee_mode)
    (nBytes : ℕ) : tx.GetMinFee nBlockSize mode nBytes < 2 ^ 63 := by
  have hrange : ∀ n, (if MoneyRange n then n else MAX_MONEY) < 2 ^ 63 := by
    intro n
    split
    next h =>
      rw [MoneyRange, Bool.and_eq_true, decide_eq_true_eq, decide_eq_true_eq, MAX_MONEY] at h
      omega
    next => decide
  unfold GetMinFee
  dsimp only
  split
  next =>
    split
    next => decide
    next => exact hrange _
  next => exact hrange _

/-- A fee that is smaller than what is needed is raised, and another round is made. -/
def checkFee (nNeeded : Draft → ℤ) (nRound : ℕ) :
    Halt Draft Draft → Attempt PayRound (Halt Draft Draft)
  | .error e => .done (.error e)
  | .ok draft =>
    if draft.nFeeRet < nNeeded draft then
      .again { wtxNew := draft.wtxNew, nFeeRet := nNeeded draft, nRound := nRound + 1 }
    else .done (.ok draft)

/-- The loop around a round that does not lower the fee. Each new fee is larger and fits 64 bits, so
there is a last round. -/
def feeLoop (round : PayRound → Halt Draft Draft) (nNeeded : Draft → ℤ)
    (hround : ∀ s draft, round s = .ok draft → s.nFeeRet ≤ draft.nFeeRet)
    (hneeded : ∀ draft, nNeeded draft < 2 ^ 63) : Retry PayRound (Halt Draft Draft) where
  attempt s := checkFee nNeeded s.nRound (round s)
  size s := (2 ^ 63 - s.nFeeRet).toNat
  shrinks s s' h := by
    cases hr : round s with
    | error e => simp [checkFee, hr] at h
    | ok draft =>
      have hfee := hround s draft hr
      have hlt := hneeded draft
      rw [hr, checkFee] at h
      split at h
      next hless =>
        cases h
        dsimp only
        omega
      next => cases h

/-! ## Payments of the wallet -/

section Wallet

variable {κ : Type} (ks : WalletKeys κ) (w : Wx κ) (io : PayIo)
  (coinControl : Option CCoinControl) (vecSend : List (CScript × ℤ))

def changeScript (nRound : ℕ) : Exec CScript :=
  match coinControl.bind CCoinControl.destChange with
  | some scriptChange => .ok scriptChange
  | none =>
    match io.GetReservedKey nRound with
    | some scriptChange => .ok scriptChange
    -- the assertion that there is a key
    | none => .error .raised

/-- An output to ourselves, if there is change. -/
def giveChange (nRound : ℕ) (nChange : ℤ) (draft : Draft) : Halt Draft Draft :=
  if 0 < nChange then do
    let scriptChange ← (changeScript io coinControl nRound).within draft
    let vout := insertChange (io.nRand nRound) ⟨nChange, scriptChange⟩ draft.wtxNew.vout
    .ok { draft with wtxNew := { draft.wtxNew with vout := vout } }
  else .ok draft

/-- A change below a cent is taken to raise the fee, up to the minimum. -/
def nMoveToFee (nFeeRet nChange : ℤ) : ℤ :=
  if nFeeRet < MIN_TX_FEE ∧ 0 < nChange ∧ nChange < CENT then min nChange (MIN_TX_FEE - nFeeRet)
  else 0

/-- The selection of a round, for the payments and the fee. -/
def selectFor (nValue : ℤ) (s : PayRound) : Exec (Bool × CoinSelection) :=
  let nTotalValue := int64 (nValue + s.nFeeRet)
  w.SelectCoins ks (io.draws s.nRound) nTotalValue s.wtxNew.nTime
    ((coinControl.map CCoinControl.fHasSelected).getD false) (io.AvailableCoins s.nRound)

/-- A round up to the inputs and the change. -/
def fund (nValue : ℤ) (s : PayRound) : Halt Draft Funded := do
  let draft := beginRound vecSend s
  let selected ← (selectFor ks w io coinControl nValue s).within draft
  (require (selected.1 = true)).within draft
  let nChange := int64 (int64 (selected.2.nValueRet - nValue) - s.nFeeRet)
  let nMove := nMoveToFee s.nFeeRet nChange
  let draft ← giveChange io coinControl s.nRound (nChange - nMove)
    { draft with nFeeRet := draft.nFeeRet + nMove }
  .ok { draft with coins := selected.2.setCoinsRet }

theorem nMoveToFee_nonneg (nFeeRet nChange : ℤ) : 0 ≤ nMoveToFee nFeeRet nChange := by
  rw [nMoveToFee]
  split
  next h => exact le_min (by omega) (by omega)
  next => exact le_rfl

theorem giveChange_fee (h : giveChange io coinControl nRound nChange draft = .ok draft') :
    draft'.nFeeRet = draft.nFeeRet := by
  rw [giveChange] at h
  split at h
  next =>
    rw [seq_ok] at h
    obtain ⟨scriptChange, -, h⟩ := h
    cases h
    rfl
  next =>
    cases h
    rfl

theorem fund_fee {s : PayRound} (h : fund ks w io coinControl vecSend nValue s = .ok funded) :
    s.nFeeRet ≤ funded.nFeeRet := by
  rw [fund] at h
  simp only [seq_ok] at h
  obtain ⟨selected, -, -, -, draft, hchange, h⟩ := h
  cases h
  have hfee := giveChange_fee io coinControl hchange
  have hmove := nMoveToFee_nonneg s.nFeeRet
    (int64 (int64 (selected.2.nValueRet - nValue) - s.nFeeRet))
  dsimp only [beginRound] at hfee ⊢
  omega

/-- `max(nPayFee, nMinFee)` for the size of the transaction. -/
def sizeFee (draft : Draft) : ℤ :=
  let nBytes := draft.wtxNew.GetSerializeSize
  let nPayFee := int64 (io.nTransactionFee * (1 + (nBytes / 1000 : ℕ)))
  let nMinFee := draft.wtxNew.GetMinFee 1 .GMF_SEND nBytes
  max nPayFee nMinFee

def payRound (nValue : ℤ) (s : PayRound) : Halt Draft Draft := do
  let funded ← fund ks w io coinControl vecSend nValue s
  signFunded env (io.SignSignature s.nRound) MAX_STANDARD_TX_SIZE funded

theorem payRound_fee (s : PayRound) (draft : Draft)
    (h : payRound env ks w io coinControl vecSend nValue s = .ok draft) :
    s.nFeeRet ≤ draft.nFeeRet := by
  rw [payRound, seq_ok] at h
  obtain ⟨funded, hfund, hsign⟩ := h
  rw [signFunded_fee env hsign]
  exact fund_fee ks w io coinControl vecSend hfund

theorem sizeFee_lt (draft : Draft) : sizeFee io draft < 2 ^ 63 :=
  max_lt (int64_lt _) (draft.wtxNew.GetMinFee_lt 1 .GMF_SEND _)

def payLoop (nValue : ℤ) : Retry PayRound (Halt Draft Draft) :=
  feeLoop (payRound env ks w io coinControl vecSend nValue) (sizeFee io)
    (payRound_fee env ks w io coinControl vecSend) (sizeFee_lt io)

def MAX_TX_INFO_LEN : ℕ := 140

def S_MIN_TX_FEE : ℤ := 100000

/-- The information is cut to its maximal length, and asks for a version of its own. -/
def withInfo (strTxInfo : List UInt8) (wtxNew : WxTx) : WxTx :=
  let wtxNew := { wtxNew with strTxInfo := strTxInfo.take MAX_TX_INFO_LEN }
  if 0 < wtxNew.strTxInfo.length then { wtxNew with nVersion := 3 } else wtxNew

def firstRound (nFeeStart : ℤ) (strTxInfo : List UInt8) (draft : Draft) : PayRound :=
  { wtxNew := withInfo strTxInfo draft.wtxNew, nFeeRet := nFeeStart, nRound := 0 }

/-- What the two functions share; they differ in the fee they start with. -/
def createPayment (nFeeStart : ℤ) (strTxInfo : List UInt8) (draft : Draft) : Halt Draft Draft := do
  let nValue ← (paymentValue vecSend).within draft
  (payLoop env ks w io coinControl vecSend nValue).run (firstRound nFeeStart strTxInfo draft)

def CreateTransaction__ (strTxInfo : List UInt8) (draft : Draft) : Halt Draft Draft :=
  createPayment env ks w io coinControl vecSend CENT strTxInfo draft

def CreateTransaction (strTxInfo : List UInt8) (draft : Draft) : Halt Draft Draft :=
  createPayment env ks w io coinControl vecSend S_MIN_TX_FEE strTxInfo draft

/-! ## Transactions of aliases -/

/-- The selection of a round; there is none when nothing is left to pay. -/
def postSelect (nValue nWtxinCredit : ℤ) (s : PayRound) : Exec CoinSelection :=
  let nTotalValue := int64 (nValue + s.nFeeRet)
  if 0 < int64 (nTotalValue - nWtxinCredit) then do
    let selected ← w.SelectCoins ks (io.draws s.nRound) (int64 (nTotalValue - nWtxinCredit))
      s.wtxNew.nTime false (io.AvailableCoins s.nRound)
    require (selected.1 = true)
    .ok selected.2
  else .ok .clear

/-- Only a change of at least a cent gets an output. -/
def postChange (nRound : ℕ) (nChange : ℤ) (draft : Draft) : Halt Draft Draft :=
  if CENT ≤ nChange then
    match io.GetReservedKey nRound with
    | none => .error (.reject, draft)
    | some scriptChange =>
      let vout := insertChange (io.nRand nRound) ⟨nChange, scriptChange⟩ draft.wtxNew.vout
      .ok { draft with wtxNew := { draft.wtxNew with vout := vout } }
  else .ok draft

/-- The alias output comes first among the inputs, and its credit is nothing. -/
def postFund (wtxIn : Coin) (nValue : ℤ) (s : PayRound) : Halt Draft Funded := do
  let draft := beginRound vecSend s
  let nTotalValue := int64 (nValue + s.nFeeRet)
  let nWtxinCredit := 0
  let sel ← (postSelect ks w io nValue nWtxinCredit s).within draft
  let nValueIn := int64 (sel.nValueRet + nWtxinCredit)
  let nChange := int64 (nValueIn - nTotalValue)
  let draft ← postChange io s.nRound nChange draft
  .ok { draft with coins := wtxIn :: sel.setCoinsRet }

def postFee (draft : Draft) : ℤ :=
  let nBytes := draft.wtxNew.GetSerializeSize
  let nPayFee := int64 (CENT * (1 + (nBytes / 1024 : ℕ)))
  let nMinFee := CENT
  max nPayFee nMinFee

theorem postFee_lt (draft : Draft) : postFee draft < 2 ^ 63 :=
  max_lt (int64_lt _) (by decide)

def postRound (wtxIn : Coin) (nValue : ℤ) (s : PayRound) : Halt Draft Draft := do
  let funded ← postFund ks w io vecSend wtxIn nValue s
  signFunded env (io.SignSignature s.nRound) MAX_BLOCK_SIZE funded

theorem postChange_fee (h : postChange io nRound nChange draft = .ok draft') :
    draft'.nFeeRet = draft.nFeeRet := by
  rw [postChange] at h
  split at h
  next =>
    split at h
    next => cases h
    next =>
      cases h
      rfl
  next =>
    cases h
    rfl

theorem postRound_fee {wtxIn : Coin} (s : PayRound) (draft : Draft)
    (h : postRound env ks w io vecSend wtxIn nValue s = .ok draft) : s.nFeeRet ≤ draft.nFeeRet := by
  rw [postRound, seq_ok] at h
  obtain ⟨funded, hfund, hsign⟩ := h
  rw [signFunded_fee env hsign]
  rw [postFund] at hfund
  simp only [seq_ok] at hfund
  obtain ⟨sel, -, draft', hchange, hfund⟩ := hfund
  cases hfund
  exact (postChange_fee io hchange).ge

def postLoop (wtxIn : Coin) (nValue : ℤ) : Retry PayRound (Halt Draft Draft) :=
  feeLoop (postRound env ks w io vecSend wtxIn nValue) postFee
    (postRound_fee env ks w io vecSend) postFee_lt

def firstPost (draft : Draft) : PayRound := { wtxNew := draft.wtxNew, nFeeRet := CENT, nRound := 0 }

/-- `wtxIn` stands for the alias transaction with the number `nTxOut` of its output. -/
def txPost (wtxIn : Coin) (draft : Draft) : Halt Draft Draft := do
  let nValue ← (paymentValue vecSend).within draft
  (postLoop env ks w io vecSend wtxIn nValue).run (firstPost draft)

end Wallet

/-! ## Amounts as text -/

/-- `%08d`. -/
def printPadded (width n : ℕ) : List UInt8 :=
  List.replicate (width - (printNumber 10 n).length) 0x30 ++ printNumber 10 n

/-- How many zeros the loop trims, from position `i` down. -/
def trimLoop (str : List UInt8) : (i : ℕ) → ℕ
  | 0 => 0
  | i + 1 =>
    if str.getD (i + 1) 0 = 0x30 ∧ isdigit (str.getD (i - 1) 0) = true then trimLoop str i + 1
    else 0

/-- The least number of 64 bits has no absolute value of that type; it is no amount. -/
def FormatMoney (n : ℤ) (fPlus : Bool) : List UInt8 :=
  let n_abs := n.natAbs
  let quotient := n_abs / COIN.toNat
  let remainder := n_abs % COIN.toNat
  let str := printNumber 10 quotient ++ '.'.toUInt8 :: printPadded 8 remainder
  let nTrim := trimLoop str (str.length - 1)
  let str := str.take (str.length - nTrim)
  if n < 0 then '-'.toUInt8 :: str
  else if fPlus = true ∧ 0 < n then '+'.toUInt8 :: str
  else str

/-- The digits behind the point: `nUnits`, and what is left. -/
def unitsLoop : (p : List UInt8) → (nMult nUnits : ℤ) → ℤ × List UInt8
  | [], _, nUnits => (nUnits, [])
  | c :: p, nMult, nUnits =>
    if isdigit c = true ∧ 0 < nMult then
      unitsLoop p (nMult / 10) (nUnits + nMult * (c.toNat - 0x30 : ℕ))
    else (nUnits, c :: p)

/-- The first loop over the characters: `strWhole`, `nUnits`, and what is left. -/
def wholeLoop : (p strWhole : List UInt8) → Option (List UInt8 × ℤ × List UInt8)
  | [], strWhole => some (strWhole, 0, [])
  | c :: p, strWhole =>
    if c = '.'.toUInt8 then some (strWhole, unitsLoop p (CENT * 10) 0)
    else if isspace c then some (strWhole, 0, c :: p)
    else if isdigit c = false then none
    else wholeLoop p (strWhole ++ [c])

def ParseMoney (str : List UInt8) : Option ℤ :=
  match wholeLoop ((c_str str).dropWhile isspace) [] with
  | none => none
  | some (strWhole, nUnits, p) =>
    if p.all isspace = false then none
    else if 10 < strWhole.length then none
    else if nUnits < 0 ∨ COIN < nUnits then none
    else some ((strtol strWhole).1 * COIN + nUnits)

end Dions
