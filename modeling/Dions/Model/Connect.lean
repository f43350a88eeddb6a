import Dions.Model.Alias

/-! # Connecting and disconnecting a block

`ConnectInputs` for one transaction, `ConnectBlock` and `DisconnectBlock` for a block. The
changes a block makes to the index are queued and written when every check has passed. -/

namespace Dions

open Halting

variable (env : Env)

/-! ## ConnectInputs -/

/-- What the checks of the first loop collect. -/
structure InputTally where
  nValueIn : ℤ
  vTxPrev : List CTransaction
  vTxindex : List CTxIndex

/-- The first loop: range, maturity, time and value of every input. -/
def inputChecks (inputs : MapPrevTx) (pindexBlock : Option CBlockIndex) (nTime : ℕ) :
    List CTxIn → InputTally → Exec InputTally
  | [], acc => .ok acc
  | txin :: vin, acc =>
    match inputs txin.prevout.hash with
    | none => .error .undefined
    | some (txindex, txPrev) =>
      match txPrev.vout[txin.prevout.n]? with
      | none => .error .reject
      | some txout => do
        require (txin.prevout.n < txindex.vSpent.length)
        require ((txPrev.IsCoinBase || txPrev.IsCoinStake) = true →
          CheckTransactionAtRelativeDepth pindexBlock txindex env.nCoinbaseMaturity = none)
        require (txPrev.nTime ≤ nTime)
        let nValueIn := int64 (acc.nValueIn + txout.nValue)
        require ((MoneyRange txout.nValue && MoneyRange nValueIn) = true)
        inputChecks inputs pindexBlock nTime vin
          ⟨nValueIn, acc.vTxPrev ++ [txPrev], acc.vTxindex ++ [txindex]⟩

/-- Signatures are not checked in blocks below the last checkpoint. -/
def skipSignatures (view : View) (fBlock : Bool) : Bool :=
  fBlock && view.nBestHeight < env.GetTotalBlocksEstimate

/-- The second loop: the test for a double spend looks at outputs of positive value only. -/
def spendInputs (view : View) (tx : CTransaction) (posThisTx : CDiskTxPos)
    (fBlock fMiner : Bool) (flags : ℕ) :
    List CTxIn → (i : ℕ) → MapPrevTx → TxIndexMap → Exec TxIndexMap
  | [], _, _, mapTestPool => .ok mapTestPool
  | txin :: vin, i, inputs, mapTestPool =>
    match inputs txin.prevout.hash with
    | none => .error .undefined
    | some (txindex, txPrev) => do
      let spent ← access txindex.vSpent txin.prevout.n
      let txout ← access txPrev.vout txin.prevout.n
      require (¬(spent.isSome ∧ 0 < txout.nValue))
      require (skipSignatures env view fBlock = true ∨
        VerifySignature env txPrev tx i flags = true)
      let txindex' := txindex.spend txin.prevout.n posThisTx
      spendInputs view tx posThisTx fBlock fMiner flags vin (i + 1)
        (Function.update inputs txin.prevout.hash (some (txindex', txPrev)))
        (if fBlock || fMiner then
          Function.update mapTestPool txin.prevout.hash (some txindex') else mapTestPool)

/-- The queued changes and the globals after the transaction. A coinbase has no inputs to connect;
a coin stake is neither held to the alias rules nor to a fee. -/
def CTransaction.ConnectInputs (view : View) (g : Globals) (inputs : MapPrevTx)
    (mapTestPool : TxIndexMap) (posThisTx : CDiskTxPos) (pindexBlock : Option CBlockIndex)
    (fBlock fMiner : Bool) (flags : ℕ) (tx : CTransaction) :
    Halt Globals (TxIndexMap × Globals) :=
  if tx.IsCoinBase then .ok (mapTestPool, g)
  else do
    let t ← (inputChecks env inputs pindexBlock tx.nTime tx.vin ⟨0, [], []⟩).within g
    let mapTestPool ←
      (spendInputs env view tx posThisTx fBlock fMiner flags tx.vin 0 inputs mapTestPool).within g
    if tx.IsCoinStake then .ok (mapTestPool, g)
    else do
      let nValueOut ← tx.GetValueOut.within g
      (require (nValueOut ≤ t.nValueIn)).within g
      let g ← ConnectInputsPost env view g mapTestPool tx t.vTxPrev t.vTxindex pindexBlock fBlock
        fMiner
      let nTxFee := int64 (t.nValueIn - nValueOut)
      (require (0 ≤ nTxFee)).within g
      (require (tx.GetMinFee 1 .GMF_BLOCK 0 ≤ nTxFee)).within g
      (require (MoneyRange nTxFee = true)).within g
      .ok (mapTestPool, g)

/-! ## Rewards -/

def MIN_COIN_YEAR_REWARD : ℤ := 1 * CENT

/-- The proof-of-work entries among the first `n` of the line. -/
def countPow : (n : ℕ) → CBlockIndex → ℕ
  | 0, _ => 0
  | _ + 1, .root d => if d.fProofOfStake then 0 else 1
  | n + 1, .child d p => (if d.fProofOfStake then 0 else 1) + countPow n p

def GetPowHeight (pindex : CBlockIndex) : ℕ :=
  if 12000 < pindex.nHeight then countPow (pindex.nHeight - 12000) pindex + 6390
  else countPow pindex.nHeight pindex

def GetProofOfWorkReward (nPowHeight : ℕ) (nFees : ℤ) : ℤ :=
  let nBaseSubsidy := 1250 * COIN
  int64 ((if nPowHeight ≤ 30 then nBaseSubsidy / 2 else nBaseSubsidy) + nFees)

def GetProofOfStakeReward (nCoinAge : ℕ) (nFees : ℤ) (nHeight : ℕ) : ℤ :=
  let nSubsidy :=
    if env.V3 nHeight then 150000000
    else
      let interest :=
        if STAKE_INTEREST_V3 < nHeight then MIN_COIN_YEAR_REWARD else env.stakeInterestV2 nHeight
      (int64 (int64 (int64 nCoinAge * interest) * 33)).tdiv (365 * 33 + 8)
  int64 (nSubsidy + nFees)

/-- The coins of one input, weighed by their age; nothing when they do not count. From `V3` on no
input adds anything. -/
def coinAgeOf (files : BlockFile) (txdb : TxIndexMap) (pindexPrev : CBlockIndex)
    (nTime : ℕ) (txin : CTxIn) : Option ℤ :=
  match CTransaction.ReadFromDisk files txdb txin.prevout with
  | none => some 0
  | some (txindex, txPrev) =>
    if nTime < txPrev.nTime then none
    else if env.V3 pindexPrev.nHeight then some 0
    else
      match files.blocks (txindex.pos.nFile, txindex.pos.nBlockPos) with
      | none => none
      | some block =>
        if nTime < block.nTime + env.nStakeMinAge then some 0
        else
          let nValueIn := ((txPrev.vout[txin.prevout.n]?).map CTxOut.nValue).getD 0
          some ((nValueIn * (nTime - txPrev.nTime : ℕ)).tdiv CENT)

def coinAgeFrom (files : BlockFile) (txdb : TxIndexMap) (pindexPrev : CBlockIndex) (nTime : ℕ) :
    List CTxIn → ℤ → Option ℤ
  | [], bnCentSecond => some bnCentSecond
  | txin :: vin, bnCentSecond =>
    match coinAgeOf env files txdb pindexPrev nTime txin with
    | none => none
    | some bn => coinAgeFrom files txdb pindexPrev nTime vin (bnCentSecond + bn)

def CTransaction.GetCoinAge (files : BlockFile) (txdb : TxIndexMap) (pindexPrev : CBlockIndex)
    (tx : CTransaction) : Option ℕ :=
  if tx.IsCoinBase then some 0
  else
    (coinAgeFrom env files txdb pindexPrev tx.nTime tx.vin 0).map fun bnCentSecond =>
      (((bnCentSecond * CENT).tdiv COIN).tdiv (24 * 60 * 60)).natAbs % 2 ^ 64

/-! ## ConnectBlock -/

/-- The local variables of `ConnectBlock`. -/
structure Tally where
  nFees : ℤ
  nValueIn : ℤ
  nValueOut : ℤ
  nStakeReward : ℤ
  nSigOps : ℕ
  deriving DecidableEq, Repr

/-- The transaction is known and some of its outputs are not spent yet. -/
def overwritesUnspent (txdb : TxIndexMap) (hashTx : uint256) : Bool :=
  match txdb hashTx with
  | none => false
  | some txindexOld => txindexOld.hasUnspent

def scriptFlags (nHeight : ℕ) : ℕ :=
  if env.V3 nHeight then SCRIPT_VERIFY_NOCACHE ||| MANDATORY_SCRIPT_VERIFY_FLAGS
  else SCRIPT_VERIFY_NOCACHE

/-- The values of a transaction added to the tally. -/
def Tally.add (t : Tally) (nHeight : ℕ) (tx : CTransaction) (nTxValueIn nTxValueOut : ℤ) :
    Tally :=
  let nTxValueOut :=
    if tx.IsCoinStake ∧ nHeight ≤ STAKE_INTEREST_V3 then env.lessDriftBuffer nTxValueOut
    else nTxValueOut
  { t with
    nValueIn := int64 (t.nValueIn + nTxValueIn)
    nValueOut := int64 (t.nValueOut + nTxValueOut)
    nFees := if tx.IsCoinStake then t.nFees else int64 (t.nFees + (nTxValueIn - nTxValueOut))
    nStakeReward :=
      if tx.IsCoinStake then int64 (nTxValueOut - nTxValueIn) else t.nStakeReward }

/-- One round of the loop over the transactions. -/
def connectTx (view : View) (txdb : TxIndexMap) (pindex : CBlockIndex) (posThisTx : CDiskTxPos)
    (queued : TxIndexMap) (g : Globals) (t : Tally) (tx : CTransaction) :
    Halt Globals (TxIndexMap × Globals × Tally) := do
  let hashTx := tx.GetHash env
  -- Do not allow blocks that contain transactions which 'overwrite' older transactions
  (require (overwritesUnspent txdb hashTx = false)).within g
  let nSigOps := t.nSigOps + tx.GetLegacySigOpCount
  (require (nSigOps ≤ MAX_BLOCK_SIGOPS)).within g
  if tx.IsCoinBase then do
    let nValueOut ← tx.GetValueOut.within g
    .ok (Function.update queued hashTx (some (.new posThisTx tx.vout.length)), g,
      { t with nSigOps := nSigOps, nValueOut := int64 (t.nValueOut + nValueOut) })
  else
    match tx.FetchInputs view.files view.mempool txdb queued true false with
    | .error _ => .error (.reject, g)
    | .ok inputs => do
      let p2sh ← (tx.GetP2SHSigOpCount inputs).within g
      (require (nSigOps + p2sh ≤ MAX_BLOCK_SIGOPS)).within g
      let nTxValueIn ← (tx.GetValueIn inputs).within g
      let nTxValueOut ← tx.GetValueOut.within g
      let (queued, g) ← tx.ConnectInputs env view g inputs queued posThisTx (some pindex) true false
        (scriptFlags env pindex.nHeight)
      .ok (Function.update queued hashTx (some (.new posThisTx tx.vout.length)), g,
        ({ t with nSigOps := nSigOps + p2sh } : Tally).add env pindex.nHeight tx nTxValueIn
          nTxValueOut)

def connectLoop (view : View) (txdb : TxIndexMap) (pindex : CBlockIndex) :
    List (CDiskTxPos × CTransaction) → TxIndexMap → Globals → Tally →
      Halt Globals (TxIndexMap × Globals × Tally)
  | [], queued, g, t => .ok (queued, g, t)
  | (pos, tx) :: rest, queued, g, t => do
    let (queued, g, t) ← connectTx env view txdb pindex pos queued g t tx
    connectLoop view txdb pindex rest queued g t

/-- The positions that `ConnectBlock` gives to the transactions of the block. -/
def CBlock.positions (block : CBlock) (pindex : CBlockIndex) : List (CDiskTxPos × CTransaction) :=
  txPositions pindex.nFile pindex.nBlockPos (firstTxPos pindex.nBlockPos block.vtx.length)
    block.vtx

/-- The checks of the block reward. -/
def checkReward (view : View) (txdb : TxIndexMap) (pindex : CBlockIndex) (block : CBlock)
    (t : Tally) : Exec Unit :=
  if block.IsProofOfStake then
    match block.vtx[1]?, CBlockIndex.pprev pindex with
    | some tx, some pindexPrev =>
      match tx.GetCoinAge env view.files txdb pindexPrev with
      | none => .error .reject
      | some nCoinAge =>
        require (t.nStakeReward ≤ GetProofOfStakeReward env nCoinAge t.nFees pindex.nHeight)
    | _, _ => .error .undefined
  else
    match block.vtx[0]? with
    | none => .error .undefined
    | some tx => do
      let nValueOut ← tx.GetValueOut
      require (nValueOut ≤ GetProofOfWorkReward (GetPowHeight pindex) t.nFees)

/-- The queued changes written over the index. -/
def writeQueued (txdb queued : TxIndexMap) : TxIndexMap := fun hash =>
  match queued hash with
  | some txindex => some txindex
  | none => txdb hash

/-- `ConnectBlock(txdb, pindex)`: no caller asks it to only check the block. -/
def CBlock.ConnectBlock (view : View) (txdb : TxIndexMap) (g : Globals) (pindex : CBlockIndex)
    (block : CBlock) : Halt Globals (TxIndexMap × Globals) := do
  (require (block.CheckBlock env true true false = true)).within g
  let (queued, g, t) ← connectLoop env view txdb pindex (block.positions pindex) (fun _ => none) g
    ⟨0, 0, 0, 0, 0⟩
  (checkReward env view txdb pindex block t).within g
  let nPrevSupply := ((CBlockIndex.pprev pindex).map g.nMoneySupply).getD 0
  .ok (writeQueued txdb queued,
    { g with
      nMint := Function.update g.nMint pindex (int64 (t.nValueOut - t.nValueIn + t.nFees))
      nMoneySupply := Function.update g.nMoneySupply pindex
        (int64 (nPrevSupply + t.nValueOut - t.nValueIn)) })

/-! ## DisconnectBlock -/

/-- The loop that nulls the slots of the inputs. -/
def unspendInputs : List CTxIn → TxIndexMap → Option TxIndexMap
  | [], txdb => some txdb
  | txin :: vin, txdb =>
    match txdb txin.prevout.hash with
    | none => none
    | some txindex =>
      if txindex.vSpent.length ≤ txin.prevout.n then none
      else
        unspendInputs vin
          (Function.update txdb txin.prevout.hash (some (txindex.unspend txin.prevout.n)))

def CTransaction.DisconnectInputs (txdb : TxIndexMap) (tx : CTransaction) : Option TxIndexMap :=
  let relinquished := if tx.IsCoinBase then some txdb else unspendInputs tx.vin txdb
  relinquished.map fun txdb => Function.update txdb (tx.GetHash env) none

/-- The transactions are disconnected from the last to the first. -/
def disconnectLoop : List CTransaction → TxIndexMap → Option TxIndexMap
  | [], txdb => some txdb
  | tx :: vtx, txdb =>
    match disconnectLoop vtx txdb with
    | none => none
    | some txdb => tx.DisconnectInputs env txdb

def CBlock.DisconnectBlock (txdb : TxIndexMap) (block : CBlock) : Option TxIndexMap :=
  disconnectLoop env block.vtx txdb

end Dions
