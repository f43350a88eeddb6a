import Dions.Model.Miner
import Dions.Model.Payments
import Dions.Model.Signing

/-! # Staking

`CreateCoinStake` looks among the coins of the wallet for a kernel and builds the transaction that
stakes it, and `SignBlock` puts the transaction into a block. -/

namespace Dions

open Halting txnouttype

variable (env : Env)

/-! ## Selecting -/

/-- The loop behind the shuffle. -/
def stakeCoins (nTargetValue : ℤ) : List COutput → CoinSelection → CoinSelection
  | [], sel => sel
  | output :: vCoins, sel =>
    if nTargetValue ≤ sel.nValueRet then sel
    else if nTargetValue ≤ output.nValue then sel.take output.toCoin
    else if output.nValue < int64 (nTargetValue + CENT) then
      stakeCoins nTargetValue vCoins (sel.take output.toCoin)
    else stakeCoins nTargetValue vCoins sel

def SelectCoinsForStaking (draws : Draws) (vCoins : List COutput) (nTargetValue : ℤ) :
    CoinSelection :=
  stakeCoins nTargetValue (draws.random_shuffle vCoins) .clear

/-! ## The kernel -/

def nMaxStakeSearchInterval : ℤ := 60

def GetStakeSplitAge (nBestHeight : ℤ) : ℤ :=
  if IsProtocolV2 nBestHeight then 10 * 24 * 60 * 60 else 1 * 24 * 60 * 60

def GetStakeCombineThreshold (nBestHeight : ℤ) : ℤ :=
  if IsProtocolV2 nBestHeight then 50 * COIN else 1000 * COIN

/-- What staking asks of the wallet. -/
structure StakeWallet (Key : Type) where
  crypto : ScriptCrypto
  keystore : CKeyStore Key
  /-- `CKey::GetPubKey`. -/
  GetPubKey : Key → CPubKey
  /-- `CKey::Sign`. -/
  Sign : Key → uint256 → Option valtype
  /-- The signature script for an input, if it can be signed. -/
  SignSignature : Coin → CTransaction → ℕ → Option CScript
  /-- The coins found by `AvailableCoinsForStaking`. -/
  vCoins : List COutput
  draws : Draws
  nBalance : ℤ
  nReserveBalance : ℤ

section Stake

variable {Key : Type} (wallet : StakeWallet Key) (files : BlockFile) (node : Node)
  (pindexPrev : CBlockIndex)

/-- What may be staked. -/
def StakeWallet.budget : ℤ := int64 (wallet.nBalance - wallet.nReserveBalance)

def Coin.scriptPubKey (coin : Coin) : CScript :=
  (coin.tx.vout.get ⟨coin.i, coin.inRange⟩).scriptPubKey

/-- The key of a kernel and the script of the new outputs. Only payments to a public key and to its
hash are supported. -/
def kernelKey (scriptPubKeyKernel : CScript) : Option (Key × CScript) :=
  let (solved, whichType, vSolutions) := Solver scriptPubKeyKernel
  if !solved then none
  else
    match whichType with
    | TX_PUBKEYHASH =>
      (wallet.keystore.GetKey (uint160OfVch (firstSolution vSolutions))).map fun key =>
        (key, pushVch (wallet.GetPubKey key) ++ [OP_CHECKSIG.toUInt8])
    | TX_PUBKEY =>
      let vchPubKey := firstSolution vSolutions
      match wallet.keystore.GetKey (CPubKey.GetID wallet.crypto vchPubKey) with
      | none => none
      | some key => if wallet.GetPubKey key ≠ vchPubKey then none else some (key,
        scriptPubKeyKernel)
    | _ => none

structure StakeKernel (Key : Type) where
  coin : Coin
  key : Key
  nTime : ℕ
  scriptPubKeyOut : CScript
  fSplit : Bool

/-- The search backward in time. -/
def findTime (nBits : ℕ) (nSearchInterval : ℤ) (nTime : ℕ) (prevoutStake : COutPoint) : Option ℕ :=
  (List.range (min nSearchInterval nMaxStakeSearchInterval).toNat).find? fun n =>
    CheckKernel env files node pindexPrev nBits (toUInt32 (nTime - n)) prevoutStake

/-- A kernel made of the coin. Where its key is not found, the search goes on with the next coin. -/
def kernelOf (nBits : ℕ) (nSearchInterval : ℤ) (nTime : ℕ) (coin : Coin) :
    Option (StakeKernel Key) := do
  let txindex ← node.txdb.txindex (coin.tx.GetHash env)
  let block ← files.blocks (txindex.pos.nFile, txindex.pos.nBlockPos)
  let n ← findTime env files node pindexPrev nBits nSearchInterval nTime (coin.prevout env)
  let (key, scriptPubKeyOut) ← kernelKey wallet coin.scriptPubKey
  let nTime := toUInt32 (nTime - n)
  some
    { coin := coin
      key := key
      nTime := nTime
      scriptPubKeyOut := scriptPubKeyOut
      fSplit := GetWeight env block.GetBlockTime nTime < GetStakeSplitAge node.nBestHeight }

/-! ## More inputs -/

structure StakeInputs where
  coins : List Coin
  nCredit : ℤ

/-- The coin belongs to the key of the kernel and comes from another transaction. -/
def joinsKernel (kernel : StakeKernel Key) (coin : Coin) : Bool :=
  (coin.scriptPubKey == kernel.coin.scriptPubKey || coin.scriptPubKey == kernel.scriptPubKeyOut) &&
    coin.tx.GetHash env != kernel.coin.tx.GetHash env

def combineInputs (budget : ℤ) (kernel : StakeKernel Key) : List Coin → StakeInputs → StakeInputs
  | [], s => s
  | coin :: setCoins, s =>
    let threshold := GetStakeCombineThreshold node.nBestHeight
    if joinsKernel env kernel coin = false then combineInputs budget kernel setCoins s
    -- too many inputs, a value that is significant already, or the reserve
    else if 100 ≤ s.coins.length then s
    else if threshold ≤ s.nCredit then s
    else if budget < int64 (s.nCredit + coin.nValue) then s
    -- another significant input, or one that is too young
    else if threshold ≤ coin.nValue then combineInputs budget kernel setCoins s
    else if GetWeight env coin.tx.nTime kernel.nTime < env.nStakeMinAge then
      combineInputs budget kernel setCoins s
    else
      combineInputs budget kernel setCoins ⟨s.coins ++ [coin], int64 (s.nCredit + coin.nValue)⟩

/-! ## The transaction -/

/-- The coins of one input, weighed by their age; nothing when they do not count. -/
def ownAgeOf (files : BlockFile) (txdb : TxIndexMap) (nTime : ℕ) (txin : CTxIn) : Option ℤ :=
  match CTransaction.ReadFromDisk files txdb txin.prevout with
  | none => some 0
  | some (txindex, txPrev) =>
    if nTime < txPrev.nTime then none
    else
      match files.blocks (txindex.pos.nFile, txindex.pos.nBlockPos) with
      | none => none
      | some block =>
        if nTime < block.nTime + env.nStakeMinAge then some 0
        else
          let nValueIn := ((txPrev.vout[txin.prevout.n]?).map CTxOut.nValue).getD 0
          some ((nValueIn * (nTime - txPrev.nTime : ℕ)).tdiv CENT)

/-- The overload of `GetCoinAge` that is not told a block. It weighs every input by its time. -/
def CTransaction.GetOwnCoinAge (files : BlockFile) (txdb : TxIndexMap) (tx : CTransaction) :
    Option ℕ :=
  if tx.IsCoinBase then some 0
  else do
    let ages ← tx.vin.mapM (ownAgeOf env files txdb tx.nTime)
    some ((((ages.sum * CENT).tdiv COIN).tdiv (24 * 60 * 60)).natAbs % 2 ^ 64)

/-- The reward that the transaction claims. -/
def stakeReward (nFees : ℤ) (nHeight : ℕ) (txNew : CTransaction) : Option ℤ :=
  if env.V3 node.nBestHeight then some (GetProofOfStakeReward env 0 nFees (nHeight + 1))
  else
    (txNew.GetOwnCoinAge env files node.txdb.txindex).map fun nCoinAge =>
      GetProofOfStakeReward env nCoinAge nFees (nHeight + 1)

/-- The empty output that marks a coin stake, and the stake in one or two parts. -/
def stakeOutputs (kernel : StakeKernel Key) (nCredit : ℤ) : List CTxOut :=
  ⟨0, []⟩ ::
    if kernel.fSplit then
      let nValue := (nCredit.tdiv 2).tdiv CENT * CENT
      [⟨nValue, kernel.scriptPubKeyOut⟩, ⟨int64 (nCredit - nValue), kernel.scriptPubKeyOut⟩]
    else [⟨nCredit, kernel.scriptPubKeyOut⟩]

def signStake (coins : List Coin) (txNew : CTransaction) : Option CTransaction :=
  coins.zipIdx.foldlM (fun txNew (entry : Coin × ℕ) =>
    (wallet.SignSignature entry.1 txNew entry.2).map (txNew.setScriptSig entry.2)) txNew

/-- The inputs of the transaction, the kernel first. -/
def stakeInputs (setCoins : List Coin) (kernel : StakeKernel Key) : StakeInputs :=
  if kernel.fSplit then ⟨[kernel.coin], kernel.coin.nValue⟩
  else combineInputs env node wallet.budget kernel setCoins ⟨[kernel.coin], kernel.coin.nValue⟩

/-- The transaction of a kernel; `txNew` has the time that the search started at. -/
def finishStake (nFees : ℤ) (nHeight : ℕ) (txNew : CTransaction) (kernel : StakeKernel Key)
    (inputs : StakeInputs) : Option CTransaction := do
  let txNew := { txNew with nTime := kernel.nTime, vin := fillVin env inputs.coins }
  let nReward ← stakeReward env files node nFees nHeight
    { txNew with vout := stakeOutputs kernel 0 }
  if nReward ≤ 0 then none
  else do
    let txNew ← signStake wallet inputs.coins
      { txNew with vout := stakeOutputs kernel (int64 (inputs.nCredit + nReward)) }
    if MAX_BLOCK_SIZE_GEN / 5 ≤ txNew.GetSerializeSize then none else some txNew

/-- `CreateCoinStake`, where the best block is `pindexPrev`; the transaction and the key that signs
the block. -/
def CreateCoinStake (nBits : ℕ) (nSearchInterval nFees : ℤ) (txNew : CTransaction) (nHeight : ℕ) :
    Option (CTransaction × Key) :=
  if wallet.nBalance ≤ wallet.nReserveBalance then none
  else do
    let setCoins := (SelectCoinsForStaking wallet.draws wallet.vCoins wallet.budget).setCoinsRet
    let kernel ← setCoins.findSome?
      (kernelOf env wallet files node pindexPrev nBits nSearchInterval txNew.nTime)
    if kernel.coin.nValue = 0 ∨ wallet.budget < kernel.coin.nValue then none
    else do
      let txNew ← finishStake env wallet files node nFees nHeight txNew kernel
        (stakeInputs env wallet node setCoins kernel)
      some (txNew, kernel.key)

/-! ## The block -/

/-- The time of the block and of its coinbase, behind that of the coin stake. -/
def stampBlock (pindexBest : CBlockIndex) (nTime : ℕ) (coinbase : CTransaction) (block : CBlock) :
    CBlock :=
  let vtx := { coinbase with nTime := nTime } :: block.vtx.tail
  let block := { block with vtx := vtx }
  let nTime := toUInt32 (max (pindexBest.GetPastTimeLimit + 1) block.GetMaxTransactionTime)
  { block with
    nTime := toUInt32 (max nTime (PastDrift pindexBest.GetBlockTime (pindexBest.nHeight + 1))) }

/-- The coin stake goes behind the coinbase, once the transactions that are later than the block are
erased. -/
def insertStake (txCoinStake : CTransaction) (block : CBlock) : Exec CBlock :=
  match block.vtx.filter fun tx => tx.nTime ≤ block.nTime with
  | [] => .error .undefined
  | coinbase :: vtx =>
    let block := { block with vtx := coinbase :: txCoinStake :: vtx }
    .ok { block with hashMerkleRoot := block.BuildMerkleTree env }

/-- What `SignBlock` returns, the block it leaves, and `nLastCoinStakeSearchTime`. -/
structure SignedBlock where
  ret : Bool
  block : CBlock
  nLastCoinStakeSearchTime : Option ℤ

/-- The block with the coin stake is signed with its key. -/
def signWith (key : Key) (nLast : Option ℤ) (block : CBlock) : SignedBlock :=
  match wallet.Sign key (block.GetHash env) with
  | none => ⟨false, block, nLast⟩
  | some vchBlockSig => ⟨true, { block with vchBlockSig := vchBlockSig }, nLast⟩

/-- The time at which the search for a coin stake starts. -/
def stakeSearchTime (io : Io) (node : Node) : ℕ :=
  let nTime := toUInt32 io.nAdjustedTime
  if IsProtocolV2 (node.nBestHeight + 1) then nTime - nTime % (STAKE_TIMESTAMP_MASK + 1) else nTime

def CBlock.SignBlock (io : Io) (nLast : Option ℤ) (nFees : ℤ) (block : CBlock) :
    Exec SignedBlock := do
  let coinbase ← access block.vtx 0
  let txout ← access coinbase.vout 0
  if txout.IsEmpty = false then .ok ⟨false, block, nLast⟩
  else if block.IsProofOfStake then .ok ⟨true, block, nLast⟩
  else
    -- the static variable starts with the time of the first search
    let nLastTime := nLast.getD io.nAdjustedTime
    let nSearchTime := stakeSearchTime io node
    if (nSearchTime : ℤ) ≤ nLastTime then .ok ⟨false, block, some nLastTime⟩
    else
      match node.pindexBest with
      | none => .error .undefined
      | some pindexBest =>
        let nSearchInterval :=
          if IsProtocolV2 (node.nBestHeight + 1) then 1 else nSearchTime - nLastTime
        let txCoinStake := CTransaction.null nSearchTime
        match CreateCoinStake env wallet (io.visible node.files) node pindexBest block.nBits
            nSearchInterval nFees txCoinStake (pindexBest.nHeight + 1) with
        | none => .ok ⟨false, block, some nSearchTime⟩
        | some (txCoinStake, key) =>
          if max (pindexBest.GetPastTimeLimit + 1)
              (PastDrift pindexBest.GetBlockTime (pindexBest.nHeight + 1)) ≤ txCoinStake.nTime then
                do
            let block ← insertStake env txCoinStake
              (stampBlock pindexBest txCoinStake.nTime coinbase block)
            .ok (signWith env wallet key (some nLastTime) block)
          else .ok ⟨false, block, some nSearchTime⟩

end Stake

end Dions
