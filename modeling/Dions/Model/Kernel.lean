import Dions.Model.Chain
import Mathlib.Data.List.MinMax

/-! # Targets and stake kernels

The required difficulty after a block, and the check of the kernel of a coin stake. -/

namespace Dions

open Halting

variable (env : Env)

/-! ## Required targets -/

def nTargetTimespan : ℤ := 16 * 60

def bnProofOfStakeLimit : ℤ := 2 ^ 236 - 1

def bnProofOfStakeLimitV2 : ℤ := 2 ^ 208 - 1

def GetProofOfStakeLimit (nHeight : ℤ) : ℤ :=
  if IsProtocolV2 nHeight then bnProofOfStakeLimitV2 else bnProofOfStakeLimit

def GetLastBlockIndex (fProofOfStake : Bool) : CBlockIndex → CBlockIndex
  | .root d => .root d
  | .child d p =>
    if d.fProofOfStake ≠ fProofOfStake then GetLastBlockIndex fProofOfStake p else .child d p

/-- The frame of the three versions: the limit for the first blocks of a kind, then the target of
the last one scaled by the spacing of the last two and brought into bounds. -/
def retarget (bnTargetLimit : ℤ) (spacing : ℤ → ℤ) (bound : ℤ → ℤ) (pindexLast : CBlockIndex)
    (fProofOfStake : Bool) : ℕ :=
  match GetLastBlockIndex fProofOfStake pindexLast with
  | .root _ => GetCompact bnTargetLimit
  | .child d p =>
    match GetLastBlockIndex fProofOfStake p with
    | .root _ => GetCompact bnTargetLimit
    | .child d' _ =>
      let nTargetSpacing := GetTargetSpacing pindexLast.nHeight
      let nActualSpacing := spacing ((d.nTime : ℤ) - d'.nTime)
      let nInterval := nTargetTimespan / nTargetSpacing
      GetCompact (bound
        ((SetCompact d.nBits * ((nInterval - 1) * nTargetSpacing + nActualSpacing +
          nActualSpacing)).tdiv ((nInterval + 1) * nTargetSpacing)))

def GetNextTargetRequiredV1 (pindexLast : CBlockIndex) (fProofOfStake : Bool) : ℕ :=
  let bnTargetLimit := if fProofOfStake then bnProofOfStakeLimit else env.bnProofOfWorkLimit
  retarget bnTargetLimit id (fun bnNew => if bnTargetLimit < bnNew then bnTargetLimit else bnNew)
    pindexLast fProofOfStake

def targetLimit (pindexLast : CBlockIndex) (fProofOfStake : Bool) : ℤ :=
  if fProofOfStake then GetProofOfStakeLimit pindexLast.nHeight else env.bnProofOfWorkLimit

def GetNextTargetRequiredV2 (pindexLast : CBlockIndex) (fProofOfStake : Bool) : ℕ :=
  let bnTargetLimit := targetLimit env pindexLast fProofOfStake
  let nTargetSpacing := GetTargetSpacing pindexLast.nHeight
  retarget bnTargetLimit (fun n => if n < 0 then nTargetSpacing else n)
    (fun bnNew => if bnNew ≤ 0 ∨ bnTargetLimit < bnNew then bnTargetLimit else bnNew)
    pindexLast fProofOfStake

/-- The factor by which fees ease the target. -/
def nFeesMitigation (nFees : ℤ) : ℤ := nFees.tdiv (MIN_TX_FEE * 10) + 1

/-- A target under a quarter of the limit is eased by the fees, up to that quarter. -/
def mitigate (bnTargetLimit nFees bnNew : ℤ) : ℤ :=
  if bnNew ≤ 0 ∨ bnTargetLimit < bnNew then bnTargetLimit
  else if bnNew < bnTargetLimit.tdiv 4 then
    let bnMit := bnNew * nFeesMitigation nFees
    if bnTargetLimit.tdiv 4 < bnMit then bnTargetLimit.tdiv 4 else bnMit
  else bnNew

def spacingV3 (nHeight nTargetSpacing nActualSpacing : ℤ) : ℤ :=
  let nActualSpacing := if nActualSpacing < 0 then nTargetSpacing else nActualSpacing
  if env.V3 nHeight ∧ nTargetSpacing * 10 < nActualSpacing then nTargetSpacing
  else nActualSpacing

def GetNextTargetRequiredV3 (pindexLast : CBlockIndex) (fProofOfStake : Bool) (nFees : ℤ) : ℕ :=
  retarget (targetLimit env pindexLast fProofOfStake)
    (spacingV3 env pindexLast.nHeight (GetTargetSpacing pindexLast.nHeight))
    (mitigate (targetLimit env pindexLast fProofOfStake) nFees) pindexLast fProofOfStake

def GetNextTargetRequired (pindexLast : CBlockIndex) (fProofOfStake : Bool) (nFees : ℤ) : ℕ :=
  if pindexLast.nHeight < 24376 then GetNextTargetRequiredV1 env pindexLast fProofOfStake
  else if pindexLast.nHeight < POS_v3_DIFFICULTY_HEIGHT then
    GetNextTargetRequiredV2 env pindexLast fProofOfStake
  else GetNextTargetRequiredV3 env pindexLast fProofOfStake nFees

/-! ## Stake kernels -/

def nModifierInterval : ℕ := 10 * 60

def MODIFIER_INTERVAL_RATIO : ℕ := 3

def STAKE_TIMESTAMP_MASK : ℕ := 15

def GetStakeModifierSelectionIntervalSection (nSection : ℕ) : ℕ :=
  nModifierInterval * 63 / (63 + (63 - nSection) * ( MODIFIER_INTERVAL_RATIO - 1))

def GetStakeModifierSelectionInterval : ℕ :=
  ((List.range 64).map GetStakeModifierSelectionIntervalSection).sum

def GetWeight (nIntervalBeginning nIntervalEnd : ℤ) : ℤ :=
  nIntervalEnd - nIntervalBeginning - env.nStakeMinAge

/-- The loop of `GetKernelStakeModifier` up the main chain, whose length bounds it. -/
def kernelModifierWalk (pnext : CBlockIndex → Option CBlockIndex) (stop : ℤ) :
    (fuel : ℕ) → CBlockIndex → (nStakeModifierTime : ℤ) → Option ℕ
  | 0, _, _ => none
  | fuel + 1, pindex, nStakeModifierTime =>
    if nStakeModifierTime < stop then
      match pnext pindex with
      | none => none
      | some p =>
        kernelModifierWalk pnext stop fuel p
          (if p.label.fGeneratedStakeModifier then p.GetBlockTime else nStakeModifierTime)
    else some pindex.label.nStakeModifier

def GetKernelStakeModifier (node : Node) (hashBlockFrom : uint256) : Option ℕ :=
  match node.mapBlockIndex hashBlockFrom with
  | none => none
  | some pindexFrom =>
    kernelModifierWalk node.pnext (pindexFrom.GetBlockTime + GetStakeModifierSelectionInterval)
      ((node.nBestHeight + 2).toNat) pindexFrom pindexFrom.GetBlockTime

def CheckStakeKernelHashV1 (node : Node) (nBits : ℕ) (blockFrom : CBlock) (nTxPrevOffset : ℕ)
    (txPrev : CTransaction) (txout : CTxOut) (prevout : COutPoint) (nTimeTx : ℕ) : Bool :=
  if nTimeTx < txPrev.nTime then false
  else
    let bnCoinDayWeight :=
      ((txout.nValue * GetWeight env txPrev.nTime nTimeTx).tdiv COIN).tdiv 60
    match GetKernelStakeModifier node (blockFrom.GetHash env) with
    | none => false
    | some nStakeModifier =>
      (env.kernelHashV1 nStakeModifier blockFrom.nTime nTxPrevOffset txPrev.nTime prevout.n
        nTimeTx : ℤ) ≤ bnCoinDayWeight * SetCompact nBits

def CheckStakeKernelHashV2 (pindexPrev : CBlockIndex) (nBits nTimeBlockFrom : ℕ)
    (txPrev : CTransaction) (txout : CTxOut) (prevout : COutPoint) (nTimeTx : ℕ) : Bool :=
  if nTimeTx < txPrev.nTime then false
  else
    (env.kernelHash pindexPrev.label.nStakeModifier nTimeBlockFrom txPrev.nTime prevout
      nTimeTx : ℤ) ≤ SetCompact nBits * txout.nValue

def CheckStakeKernelHash (node : Node) (pindexPrev : CBlockIndex) (nBits : ℕ)
    (blockFrom : CBlock) (nTxPrevOffset : ℕ) (txPrev : CTransaction) (txout : CTxOut)
    (prevout : COutPoint) (nTimeTx : ℕ) : Bool :=
  if env.V3 node.nBestHeight || IsProtocolV2 (pindexPrev.nHeight + 1) then
    CheckStakeKernelHashV2 env pindexPrev nBits blockFrom.nTime txPrev txout prevout nTimeTx
  else
    CheckStakeKernelHashV1 env node nBits blockFrom nTxPrevOffset txPrev txout prevout nTimeTx

/-- No entry among the last `nMaxDepth` is that of the block of the transaction. -/
def minBase (txindex : CTxIndex) (pindexFrom : CBlockIndex) (nMaxDepth : ℕ) : Bool :=
  (pindexFrom.depthOf txindex.pos.nFile txindex.pos.nBlockPos nMaxDepth 0).isNone

/-- `nTimeBlockFrom + nStakeMinAge`, a sum of unsigned 32-bit numbers. -/
def minAgeTime (nTimeBlockFrom : ℕ) : ℕ := (nTimeBlockFrom + env.nStakeMinAge) % 2 ^ 32

/-- The staker's test of an output. Below the height of `V3` an output that is too young passes. -/
def CheckKernel (files : BlockFile) (node : Node) (pindexPrev : CBlockIndex) (nBits : ℕ)
    (nTime : ℤ) (prevout : COutPoint) : Bool :=
  match CTransaction.ReadFromDisk files node.txdb.txindex prevout with
  | none => false
  | some (txindex, txPrev) =>
    match files.blocks (txindex.pos.nFile, txindex.pos.nBlockPos), txPrev.vout[prevout.n]? with
    | some block, some txout =>
      let fKernel := CheckStakeKernelHash env node pindexPrev nBits block
        (txindex.pos.nTxPos - txindex.pos.nBlockPos) txPrev txout prevout (nTime % 2 ^ 32).toNat
      if env.V3 node.nBestHeight then
        minBase txindex pindexPrev (env.nStakeMinConfirmations - 1) && fKernel
      else if nTime < minAgeTime env block.nTime then true
      else fKernel
    | _, _ => false

/-- The staked output is looked up in the index of the active chain, and the rule for its age is
chosen by the height of the active chain. -/
def CheckProofOfStake (files : BlockFile) (node : Node) (pindexPrev : CBlockIndex)
    (tx : CTransaction) (nBits : ℕ) : Bool :=
  if !tx.IsCoinStake then false
  else
    match tx.vin with
    | [] => false
    | txin :: _ =>
      match CTransaction.ReadFromDisk files node.txdb.txindex txin.prevout with
      | none => false
      | some (txindex, txPrev) =>
        if !VerifySignature env txPrev tx 0 0 then false
        else
          match files.blocks (txindex.pos.nFile, txindex.pos.nBlockPos),
              txPrev.vout[txin.prevout.n]? with
          | some block, some txout =>
            (if env.V3 node.nBestHeight then minBase txindex pindexPrev (env.nStakeMinConfirmations - 1)
            else minAgeTime env block.nTime ≤ tx.nTime) &&
              CheckStakeKernelHash env node pindexPrev nBits block
                (txindex.pos.nTxPos - txindex.pos.nBlockPos) txPrev txout txin.prevout tx.nTime
          | _, _ => false

def CheckCoinStakeTimestamp (nHeight : ℤ) (nTimeBlock nTimeTx : ℕ) : Bool :=
  if IsProtocolV2 nHeight then nTimeBlock == nTimeTx && nTimeTx &&& STAKE_TIMESTAMP_MASK == 0
  else nTimeBlock == nTimeTx

/-! ## The next stake modifier

Up to 64 blocks of the recent past are selected one after the other, and each contributes one bit
to the modifier. -/

/-- What the selection reads beside `BlockIndexData`: two more fields of an index entry, and `Hash`
of a proof hash followed by a modifier. -/
structure Selection where
  hashProof : CBlockIndex → uint256
  GetStakeEntropyBit : CBlockIndex → Bool
  hashSelection : uint256 → ℕ → uint256

/-- The modifier and the time of the last entry that generated one. -/
def GetLastStakeModifier : CBlockIndex → Option (ℕ × ℤ)
  | .root d => if d.fGeneratedStakeModifier then some (d.nStakeModifier, d.nTime) else none
  | .child d p =>
    if d.fGeneratedStakeModifier then some (d.nStakeModifier, d.nTime) else GetLastStakeModifier p

variable (sel : Selection) (mapBlockIndex : uint256 → Option CBlockIndex)

/-- The selection hash of a block; that of a coin stake is divided by `2 ^ 32`. -/
def selectionHash (nStakeModifierPrev : ℕ) (pindex : CBlockIndex) : ℕ :=
  let hashSelection := sel.hashSelection (sel.hashProof pindex) nStakeModifierPrev
  if pindex.IsProofOfStake then hashSelection / 2 ^ 32 else hashSelection

/-- The loop of `SelectBlockFromCandidates`; `best` is `none` until a block has been selected. -/
def selectLoop (mapSelectedBlocks : List CBlockIndex) (nSelectionIntervalStop : ℤ)
    (nStakeModifierPrev : ℕ) :
    List (ℤ × uint256) → (best : Option CBlockIndex) → Option CBlockIndex
  | [], best => best
  | item :: rest, best =>
    match mapBlockIndex item.2 with
    | none => none
    | some pindex =>
      if best.isSome ∧ nSelectionIntervalStop < pindex.GetBlockTime then best
      else if pindex.GetBlockHash ∈ mapSelectedBlocks.map CBlockIndex.GetBlockHash then
        selectLoop mapSelectedBlocks nSelectionIntervalStop nStakeModifierPrev rest best
      else
        match best with
        | none =>
          selectLoop mapSelectedBlocks nSelectionIntervalStop nStakeModifierPrev rest (some pindex)
        | some pindexBest =>
          if selectionHash sel nStakeModifierPrev pindex <
              selectionHash sel nStakeModifierPrev pindexBest then
            selectLoop mapSelectedBlocks nSelectionIntervalStop nStakeModifierPrev rest (some pindex)
          else
            selectLoop mapSelectedBlocks nSelectionIntervalStop nStakeModifierPrev rest
              (some pindexBest)

def SelectBlockFromCandidates (vSortedByTimestamp : List (ℤ × uint256))
    (mapSelectedBlocks : List CBlockIndex) (nSelectionIntervalStop : ℤ)
    (nStakeModifierPrev : ℕ) : Option CBlockIndex :=
  selectLoop sel mapBlockIndex mapSelectedBlocks nSelectionIntervalStop nStakeModifierPrev
    vSortedByTimestamp none

/-- The walk from `pindexPrev` back to the first entry before the interval. -/
def collectCandidates (nSelectionIntervalStart : ℤ) : CBlockIndex → List (ℤ × uint256)
  | .root d => if nSelectionIntervalStart ≤ d.nTime then [((d.nTime : ℤ), d.hash)] else []
  | .child d p =>
    if nSelectionIntervalStart ≤ d.nTime then
      ((d.nTime : ℤ), d.hash) :: collectCandidates nSelectionIntervalStart p
    else []

/-- The order of pairs. -/
def timestampLe (a b : ℤ × uint256) : Prop := a.1 < b.1 ∨ a.1 = b.1 ∧ a.2 ≤ b.2

instance : DecidableRel timestampLe := fun a b =>
  inferInstanceAs (Decidable (a.1 < b.1 ∨ a.1 = b.1 ∧ a.2 ≤ b.2))

def sortedCandidates (nSelectionIntervalStart : ℤ) (pindexPrev : CBlockIndex) :
    List (ℤ × uint256) :=
  (collectCandidates nSelectionIntervalStart pindexPrev).reverse.insertionSort timestampLe

/-- The rounds from `nRound` on, with the blocks selected so far in the order of their rounds, and
the bits written so far. -/
def modifierRounds (vSortedByTimestamp : List (ℤ × uint256)) (nStakeModifierPrev : ℕ) :
    (rounds nRound : ℕ) → (nSelectionIntervalStop : ℤ) → (mapSelectedBlocks : List CBlockIndex) →
    (nStakeModifierNew : ℕ) → Option ℕ
  | 0, _, _, _, nStakeModifierNew => some nStakeModifierNew
  | rounds + 1, nRound, nSelectionIntervalStop, mapSelectedBlocks, nStakeModifierNew =>
    let stop := nSelectionIntervalStop + GetStakeModifierSelectionIntervalSection nRound
    match SelectBlockFromCandidates sel mapBlockIndex vSortedByTimestamp mapSelectedBlocks stop
        nStakeModifierPrev with
    | none => none
    | some pindex =>
      modifierRounds vSortedByTimestamp nStakeModifierPrev rounds (nRound + 1) stop
        (mapSelectedBlocks ++ [pindex])
        (nStakeModifierNew ||| ((sel.GetStakeEntropyBit pindex).toNat <<< nRound))

/-- `nSelectionIntervalStart` -/
def selectionIntervalStart (pindexPrev : CBlockIndex) : ℤ :=
  pindexPrev.GetBlockTime / nModifierInterval * nModifierInterval - GetStakeModifierSelectionInterval

/-- The modifier, and whether it is a new one; `none` stands for the answer `false`. -/
def ComputeNextStakeModifier : (pindexPrev : Option CBlockIndex) → Option (ℕ × Bool)
  | none => some (0, true)
  | some pindexPrev =>
    match GetLastStakeModifier pindexPrev with
    | none => none
    | some (nStakeModifier, nModifierTime) =>
      if pindexPrev.GetBlockTime / nModifierInterval ≤ nModifierTime / nModifierInterval then
        some (nStakeModifier, false)
      else
        let start := selectionIntervalStart pindexPrev
        let vSortedByTimestamp := sortedCandidates start pindexPrev
        match modifierRounds sel mapBlockIndex vSortedByTimestamp nStakeModifier
            (min 64 vSortedByTimestamp.length) 0 start [] 0 with
        | none => none
        | some nStakeModifierNew => some (nStakeModifierNew, true)

end Dions
