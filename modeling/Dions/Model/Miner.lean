import Dions.Model.Accept
import Dions.Model.Destination

/-! # Making a block

`CreateNewBlock` collects transactions of the memory pool into a block: those whose inputs are all
on the chain wait in a priority queue, the others wait for the transactions they depend on. The
priorities are floating-point numbers, and a heap hands them out; both are parameters here. -/

namespace Dions

open Halting

variable (env : Env)

def COINBASE_FLAGS : CScript := []

/-- A value put into an `unsigned int`. -/
def toUInt32 (n : ℤ) : ℕ := (n % 2 ^ 32).toNat

/-! ## Priorities -/

/-- `tuple<double, double, CTransaction*>`. -/
structure TxPriority (F : Type) where
  dPriority : F
  dFeePerKb : F
  tx : CTransaction

/-- A transaction that waits for others of the pool. -/
structure COrphan (F : Type) where
  ptx : CTransaction
  setDependsOn : Finset uint256
  dPriority : F
  dFeePerKb : F

/-- `vOrphan`, whose elements do not move, and the pointers to them. An element that `pop_back`
removes leaves a pointer behind that must not be followed. -/
structure Dependers (F : Type) where
  vOrphan : List (Option (COrphan F))
  mapDependers : uint256 → List ℕ

namespace Dependers

variable {F : Type} (w : Dependers F)

def push_back (porphan : COrphan F) : Dependers F :=
  { w with vOrphan := w.vOrphan ++ [some porphan] }

def pop_back : Dependers F :=
  { w with vOrphan := w.vOrphan.set (w.vOrphan.length - 1) none }

/-- The element behind a pointer. -/
def deref (i : ℕ) : Exec (COrphan F) :=
  match w.vOrphan[i]? with
  | some (some porphan) => .ok porphan
  | _ => .error .undefined

def assign (i : ℕ) (porphan : COrphan F) : Dependers F :=
  { w with vOrphan := w.vOrphan.set i (some porphan) }

end Dependers

section Priority

variable {F : Type} [Add F] [Mul F] [Div F] [IntCast F] [LT F] [DecidableLT F] [BEq F]

/-- `TxPriorityCompare(byFee)`. -/
def TxPriorityCompare (byFee : Bool) (a b : TxPriority F) : Bool :=
  if byFee then
    if a.dFeePerKb == b.dFeePerKb then a.dPriority < b.dPriority else a.dFeePerKb < b.dFeePerKb
  else
    if a.dPriority == b.dPriority then a.dFeePerKb < b.dFeePerKb else a.dPriority < b.dPriority

/-! ## The transactions of the pool -/

/-- `CTxIndex::GetDepthInMainChain`. -/
def CTxIndex.GetDepthInMainChain (files : BlockFile) (node : Node) (txindex : CTxIndex) : ℤ :=
  match files.blocks (txindex.pos.nFile, txindex.pos.nBlockPos) with
  | none => 0
  | some block =>
    match node.mapBlockIndex (block.GetHash env) with
    | none => 0
    | some pindex =>
      if node.IsInMainChain pindex then 1 + node.nBestHeight - pindex.nHeight else 0

/-- The local variables of the loop over the inputs of a transaction. -/
structure InputScan (F : Type) where
  waiting : Dependers F
  porphan : Option ℕ
  dPriority : F
  nTotalIn : ℤ
  fMissingInputs : Bool

/-- An input whose transaction is still in the pool. -/
def InputScan.waitFor (tx : CTransaction) (hash : uint256) (s : InputScan F) :
    Exec (InputScan F) := do
  let (waiting, i) :=
    match s.porphan with
    | some i => (s.waiting, i)
    | none => (s.waiting.push_back ⟨tx, ∅, ((0 : ℤ) : F), ((0 : ℤ) : F)⟩, s.waiting.vOrphan.length)
  let porphan ← waiting.deref i
  .ok { s with
    waiting :=
      { waiting.assign i { porphan with setDependsOn := insert hash porphan.setDependsOn } with
        mapDependers :=
          Function.update waiting.mapDependers hash (waiting.mapDependers hash ++ [i]) }
    porphan := some i }

def scanInputs (files : BlockFile) (node : Node) (tx : CTransaction) :
    List CTxIn → InputScan F → Exec (InputScan F)
  | [], s => .ok s
  | txin :: vin, s =>
    match CTransaction.ReadFromDisk files node.txdb.txindex txin.prevout with
    | some (txindex, txPrev) => do
      let txout ← access txPrev.vout txin.prevout.n
      let nConf := txindex.GetDepthInMainChain env files node
      scanInputs files node tx vin
        { s with
          dPriority := s.dPriority + ((txout.nValue : ℤ) : F) * ((nConf : ℤ) : F)
          nTotalIn := int64 (s.nTotalIn + txout.nValue) }
    | none =>
      match node.mempool.lookup txin.prevout.hash with
      | none =>
        .ok { s with
          waiting := if s.porphan.isSome then s.waiting.pop_back else s.waiting
          fMissingInputs := true }
      | some txPrev => do
        let s ← s.waitFor tx txin.prevout.hash
        let txout ← access txPrev.vout txin.prevout.n
        scanInputs files node tx vin { s with nTotalIn := int64 (s.nTotalIn + txout.nValue) }

/-- What the first loop leaves: the queue and the transactions that wait. -/
structure TxQueue (F : Type) where
  waiting : Dependers F
  vecPriority : List (TxPriority F)

/-- A transaction that a block at the height could hold. -/
def isCandidate (io : Io) (node : Node) (nHeight : ℤ) (tx : CTransaction) : Bool :=
  !(tx.IsCoinBase || tx.IsCoinStake ||
    !IsFinalTx node.nBestHeight io.nAdjustedTime tx nHeight 0)

def addCandidate (io : Io) (node : Node) (nHeight : ℤ) (c : TxQueue F) (tx : CTransaction) :
    Exec (TxQueue F) :=
  if isCandidate io node nHeight tx = false then .ok c
  else do
    let s ← scanInputs env (io.visible node.files) node tx tx.vin
      ⟨c.waiting, none, ((0 : ℤ) : F), 0, false⟩
    if s.fMissingInputs then .ok { c with waiting := s.waiting }
    else do
      let nTxSize : F := ((tx.GetSerializeSize : ℤ) : F)
      let dPriority := s.dPriority / nTxSize
      let nValueOut ← tx.GetValueOut
      let dFeePerKb := ((int64 (s.nTotalIn - nValueOut) : ℤ) : F) / (nTxSize / ((1000 : ℤ) : F))
      match s.porphan with
      | some i => do
        let porphan ← s.waiting.deref i
        .ok { c with
          waiting := s.waiting.assign i
            { porphan with dPriority := dPriority, dFeePerKb := dFeePerKb } }
      | none =>
        .ok { waiting := s.waiting, vecPriority := c.vecPriority ++ [⟨dPriority, dFeePerKb, tx⟩] }

/-- The transactions of the pool in the order of the map, which is that of their hashes. -/
def CTxMemPool.inOrder (pool : CTxMemPool) : List CTransaction :=
  (pool.mapTx.insertionSort fun a b => a.1 ≤ b.1).map Prod.snd

/-! ## The options -/

/-- What the command line says, `none` where it says nothing. -/
structure MinerArgs where
  blockmaxsize : Option ℤ
  blockprioritysize : Option ℤ
  blockminsize : Option ℤ
  /-- The amount that `ParseMoney` reads from `-mintxfee`. -/
  mintxfee : Option ℤ

namespace MinerArgs

variable (args : MinerArgs)

def nBlockMaxSize : ℕ :=
  max 1000 (min (MAX_BLOCK_SIZE - 1000)
    (toUInt32 (args.blockmaxsize.getD (MAX_BLOCK_SIZE_GEN / 2 : ℕ))))

def nBlockPrioritySize : ℕ :=
  min args.nBlockMaxSize (toUInt32 (args.blockprioritysize.getD 27000))

def nBlockMinSize : ℕ := min args.nBlockMaxSize (toUInt32 (args.blockminsize.getD 0))

def nMinTxFee : ℤ := args.mintxfee.getD MIN_TX_FEE

end MinerArgs

/-! ## Collecting -/

/-- The local variables of the second loop, and the globals. `vtx` is what comes behind the
coinbase. -/
structure Collected (F : Type) extends TxQueue F where
  mapTestPool : TxIndexMap
  nBlockSize : ℕ
  nBlockTx : ℕ
  nBlockSigOps : ℕ
  fSortedByFee : Bool
  nFees : ℤ
  vtx : List CTransaction
  g : Globals

namespace Collected

variable (s : Collected F)

/-- The limits on size and signature operations, and on the time of a transaction. -/
def withinLimits (args : MinerArgs) (io : Io) (fProofOfStake : Bool) (nCoinbaseTime : ℕ)
    (tx : CTransaction) : Bool :=
  s.nBlockSize + tx.GetSerializeSize < args.nBlockMaxSize &&
    s.nBlockSigOps + tx.GetLegacySigOpCount < MAX_BLOCK_SIGOPS &&
    !(io.nAdjustedTime < tx.nTime || (fProofOfStake && nCoinbaseTime < tx.nTime))

/-- Free transactions are skipped past the minimum size of the block. -/
def skipsFree (args : MinerArgs) (p : TxPriority F) : Bool :=
  s.fSortedByFee && decide (p.dFeePerKb < ((args.nMinTxFee : ℤ) : F)) &&
    args.nBlockMinSize ≤ s.nBlockSize + p.tx.GetSerializeSize

/-- Whether the queue turns to the fees, past the priority size or without high priorities. -/
def turnsToFee (args : MinerArgs) (p : TxPriority F) : Bool :=
  !s.fSortedByFee && (args.nBlockPrioritySize ≤ s.nBlockSize + p.tx.GetSerializeSize ||
    decide (p.dPriority < ((COIN * 144 / 250 : ℤ) : F)))

/-- A transaction that depends on the one with the hash is queued when it depends on no other. -/
def releaseOrphan (hash : uint256) (i : ℕ) : Exec (Collected F) := do
  let porphan ← s.waiting.deref i
  if porphan.setDependsOn = ∅ then .ok s
  else
    let left := { porphan with setDependsOn := porphan.setDependsOn.erase hash }
    .ok { s with
      waiting := s.waiting.assign i left
      vecPriority :=
        if left.setDependsOn = ∅ then
          s.vecPriority ++ [⟨left.dPriority, left.dFeePerKb, left.ptx⟩]
        else s.vecPriority }

/-- The transaction goes into the block. -/
def add (tx : CTransaction) (nTxSigOps : ℕ) (nTxFees : ℤ) (mapTestPool : TxIndexMap)
    (g : Globals) : Collected F :=
  { s with
    mapTestPool := Function.update mapTestPool (tx.GetHash env)
      (some (.new CDiskTxPos.memory tx.vout.length))
    nBlockSize := s.nBlockSize + tx.GetSerializeSize
    nBlockTx := s.nBlockTx + 1
    nBlockSigOps := s.nBlockSigOps + nTxSigOps
    nFees := int64 (s.nFees + nTxFees)
    vtx := s.vtx ++ [tx]
    g := g }

/-- The inputs of a transaction are fetched and connected. A failure leaves it out. -/
def connect (io : Io) (node : Node) (pindexPrev : CBlockIndex) (tx : CTransaction) :
    Halt Globals (Collected F) :=
  let view := node.view io
  let nMinFee := tx.GetMinFee s.nBlockSize .GMF_BLOCK 0
  match tx.FetchInputs view.files view.mempool node.txdb.txindex s.mapTestPool false true with
  | .error _ => .ok s
  | .ok inputs => do
    let nValueIn ← (tx.GetValueIn inputs).within s.g
    let nValueOut ← tx.GetValueOut.within s.g
    let nTxFees := int64 (nValueIn - nValueOut)
    if nTxFees < nMinFee then .ok s
    else do
      let nP2SH ← (tx.GetP2SHSigOpCount inputs).within s.g
      let nTxSigOps := tx.GetLegacySigOpCount + nP2SH
      if MAX_BLOCK_SIGOPS ≤ s.nBlockSigOps + nTxSigOps then .ok s
      else
        match tx.ConnectInputs env view s.g inputs s.mapTestPool CDiskTxPos.memory
            (some pindexPrev) false true MANDATORY_SCRIPT_VERIFY_FLAGS with
        | .error (.reject, g) => .ok { s with g := g }
        | .error (e, g) => .error (e, g)
        | .ok (mapTestPool, g) =>
          ((s.waiting.mapDependers (tx.GetHash env)).foldlM
            (fun (s : Collected F) i => s.releaseOrphan (tx.GetHash env) i)
            (s.add env tx nTxSigOps nTxFees mapTestPool g)).within g

/-- One round of the second loop, behind the removal from the queue. -/
def collectTx (args : MinerArgs) (io : Io) (node : Node) (pindexPrev : CBlockIndex)
    (fProofOfStake : Bool) (nCoinbaseTime : ℕ) (p : TxPriority F) : Halt Globals (Collected F) :=
  if s.withinLimits args io fProofOfStake nCoinbaseTime p.tx && !s.skipsFree args p then
    ({ s with fSortedByFee := s.fSortedByFee || s.turnsToFee args p } : Collected F).connect env io
      node pindexPrev p.tx
  else .ok s

end Collected

/-- `front` is the place of the element that the heap has in front. -/
def takeFront (front : List (TxPriority F) → ℕ) (vecPriority : List (TxPriority F)) :
    Option (TxPriority F × List (TxPriority F)) :=
  let k := front vecPriority % vecPriority.length
  vecPriority[k]?.map (·, vecPriority.eraseIdx k)

/-- A heap of transactions: where its first element is, under a comparison. -/
abbrev TxHeap (F : Type) := (TxPriority F → TxPriority F → Bool) → List (TxPriority F) → ℕ

/-- The second loop. -/
def collectLoop (heap : TxHeap F) (args : MinerArgs) (io : Io) (node : Node)
    (pindexPrev : CBlockIndex) (fProofOfStake : Bool) (nCoinbaseTime : ℕ) :
    (fuel : ℕ) → Collected F → Halt Globals (Collected F)
  | 0, s => .ok s
  | fuel + 1, s =>
    match takeFront (heap (TxPriorityCompare s.fSortedByFee)) s.vecPriority with
    | none => .ok s
    | some (p, rest) => do
      let s ← ({ s with vecPriority := rest } : Collected F).collectTx env args io node pindexPrev
        fProofOfStake nCoinbaseTime p
      collectLoop heap args io node pindexPrev fProofOfStake nCoinbaseTime fuel s

/-- Both loops. Every transaction comes to the front of the queue once at most, so the size of the
pool bounds the rounds. -/
def collect (heap : TxHeap F) (args : MinerArgs) (io : Io) (node : Node)
    (pindexPrev : CBlockIndex) (fProofOfStake : Bool) (nCoinbaseTime : ℕ) :
    Halt Globals (Collected F) := do
  let c ← (node.mempool.inOrder.foldlM
    (addCandidate env io node (pindexPrev.nHeight + 1))
    (⟨⟨[], fun _ => []⟩, []⟩ : TxQueue F)).within node.toGlobals
  collectLoop env heap args io node pindexPrev fProofOfStake nCoinbaseTime
    node.mempool.mapTx.length
    { c with
      mapTestPool := fun _ => none, nBlockSize := 1000, nBlockTx := 0, nBlockSigOps := 100
      fSortedByFee := args.nBlockPrioritySize ≤ 0, nFees := 0, vtx := [], g := node.toGlobals }

/-! ## The block -/

/-- The coinbase before its value is known; `reserved` is the key that the wallet reserves. -/
def newCoinbase (nAdjustedTime : ℕ) (nHeight : ℕ) (fProofOfStake : Bool) (reserved : uint160) :
    CTransaction :=
  let txNew := CTransaction.null nAdjustedTime
  if fProofOfStake then
    { txNew with
      vin := [⟨COutPoint.null, pushHeight nHeight ++ COINBASE_FLAGS, UINT_MAX⟩]
      vout := [⟨0, []⟩] }
  else
    { txNew with
      vin := [⟨COutPoint.null, [], UINT_MAX⟩]
      vout := [⟨-1, CScript.SetDestination (.CKeyID reserved)⟩] }

/-- The time of the block in its three steps. -/
def newBlockTime (io : Io) (pindexPrev : CBlockIndex) (fProofOfStake : Bool)
    (vtx : List CTransaction) : ℕ :=
  let nHeight : ℤ := pindexPrev.nHeight + 1
  let maxTransactionTime := (⟨0, 0, 0, 0, 0, 0, vtx, []⟩ : CBlock).GetMaxTransactionTime
  let nTime := toUInt32 (max (pindexPrev.GetPastTimeLimit + 1) maxTransactionTime)
  let nTime := toUInt32 (max nTime (PastDrift pindexPrev.GetBlockTime nHeight))
  if fProofOfStake then nTime else toUInt32 (max nTime io.nAdjustedTime)

/-- `CreateNewBlock`; the block with its fees, or nothing when no key can be reserved. -/
def CreateNewBlock (heap : TxHeap F) (args : MinerArgs) (reserved : Option uint160) (io : Io)
    (node : Node) (fProofOfStake : Bool) : Halt Globals (Option (CBlock × ℤ) × Globals) :=
  match node.pindexBest with
  | none => .error (.undefined, node.toGlobals)
  | some pindexPrev =>
    if fProofOfStake = false ∧ reserved = none then .ok (none, node.toGlobals)
    else do
      let nHeight := pindexPrev.nHeight + 1
      let txNew := newCoinbase (toUInt32 io.nAdjustedTime) nHeight fProofOfStake (reserved.getD 0)
      let s ← collect env heap args io node pindexPrev fProofOfStake txNew.nTime
      let coinbase := if fProofOfStake then txNew else
        { txNew with vout := txNew.vout.map fun txout =>
            { txout with nValue := GetProofOfWorkReward nHeight s.nFees } }
      let vtx := coinbase :: s.vtx
      .ok (some
        ({ nVersion := if env.fTestNet = false ∧ IsProtocolV2 nHeight = false then 6
             else CBlock.CURRENT_VERSION
           hashPrevBlock := pindexPrev.GetBlockHash
           hashMerkleRoot := 0
           nTime := newBlockTime io pindexPrev fProofOfStake vtx
           nBits := GetNextTargetRequired env pindexPrev fProofOfStake s.nFees
           nNonce := 0
           vtx := vtx
           vchBlockSig := [] }, s.nFees), s.g)

end Priority

/-! ## The extra nonce -/

/-- The static variable of `IncrementExtraNonce` and the counter of its caller. -/
structure ExtraNonce where
  hashPrevBlock : uint256
  nExtraNonce : ℕ
  deriving DecidableEq, Repr

def ExtraNonce.next (n : ExtraNonce) (hashPrevBlock : uint256) : ExtraNonce :=
  ⟨hashPrevBlock, ((if n.hashPrevBlock ≠ hashPrevBlock then 0 else n.nExtraNonce) + 1) % 2 ^ 32⟩

/-- `CScript() << nHeight << CBigNum(nExtraNonce)`. -/
def coinbaseScript (nHeight nExtraNonce : ℕ) : CScript :=
  pushHeight nHeight ++ (scriptNum 8 nExtraNonce).length.toUInt8 :: scriptNum 8 nExtraNonce ++
    COINBASE_FLAGS

/-- The first input of the first transaction gets the script; `none` when there is none, or the
script is too long. -/
def IncrementExtraNonce (block : CBlock) (pindexPrev : CBlockIndex) (n : ExtraNonce) :
    Option (CBlock × ExtraNonce) :=
  let n := n.next block.hashPrevBlock
  let scriptSig := coinbaseScript (pindexPrev.nHeight + 1) n.nExtraNonce
  match block.vtx with
  | coinbase :: vtx =>
    match coinbase.vin with
    | txin :: vin =>
      if 100 < scriptSig.length then none
      else
        let block := { block with
          vtx := { coinbase with vin := { txin with scriptSig := scriptSig } :: vin } :: vtx }
        some ({ block with hashMerkleRoot := block.BuildMerkleTree env }, n)
    | [] => none
  | [] => none

end Dions
