import Dions.Model.Kernel

/-! # Accepting a block

`AcceptBlock`, and the life of a node: it starts with the genesis block, then blocks and
transactions arrive. -/

namespace Dions

open Halting

variable (env : Env)

/-! ## The height in the coinbase -/

/-- The bytes of a number, lowest first, with room left for the sign. -/
def scriptNum : (fuel : ℕ) → ℕ → List UInt8
  | 0, _ => []
  | fuel + 1, n =>
    if n = 0 then []
    else if n < 128 then [n.toUInt8]
    else (n % 256).toUInt8 :: (if n < 256 then [0] else scriptNum fuel (n / 256))

/-- `CScript() << nHeight`. -/
def pushHeight (nHeight : ℕ) : CScript :=
  if 1 ≤ nHeight ∧ nHeight ≤ 16 then [(OP_1 - 1 + nHeight).toUInt8]
  else (scriptNum 8 nHeight).length.toUInt8 :: scriptNum 8 nHeight

/-! ## AcceptBlock -/

/-- The fees of the transactions whose inputs are all on the active chain; `mapQueuedChanges` is
never written, so a transaction that spends another one of the block adds nothing. -/
def acceptFees (view : View) (txdb : TxIndexMap) : List CTransaction → ℤ → Exec ℤ
  | [], nFees => .ok nFees
  | tx :: vtx, nFees =>
    if tx.IsCoinBase then acceptFees view txdb vtx nFees
    else
      match tx.FetchInputs view.files view.mempool txdb (fun _ => none) true false with
      | .error _ => acceptFees view txdb vtx nFees
      | .ok inputs => do
        let nTxValueIn ← tx.GetValueIn inputs
        let nTxValueOut ← tx.GetValueOut
        acceptFees view txdb vtx
          (if tx.IsCoinStake then nFees else int64 (nFees + (nTxValueIn - nTxValueOut)))

/-- The comparison of `nBits` with the required target. -/
def checkTarget (io : Io) (node : Node) (pindexPrev : CBlockIndex) (block : CBlock) :
    Exec Unit := do
  let nFees ← acceptFees (node.view io) node.txdb.txindex block.vtx 0
  require (block.nBits = GetNextTargetRequired env pindexPrev block.IsProofOfStake nFees)

/-- The check of the kernel, for a proof-of-stake block. -/
def checkKernel (io : Io) (node : Node) (pindexPrev : CBlockIndex) (block : CBlock) : Exec Unit :=
  if block.IsProofOfStake then
    match block.vtx[1]? with
    | none => .error .undefined
    | some tx =>
      require (CheckProofOfStake env (io.visible node.files) node pindexPrev tx block.nBits = true)
  else .ok ()

/-- The checks of `AcceptBlock` behind the lookup of the previous block. -/
def acceptBlockChecks (io : Io) (node : Node) (pindexPrev : CBlockIndex) (block : CBlock) :
    Exec Unit := do
  let nHeight := pindexPrev.nHeight + 1
  let coinbase ← access block.vtx 0
  require (¬(IsProtocolV2 nHeight = true ∧ block.nVersion < 7))
  require (¬(env.fTestNet = false ∧ IsProtocolV2 nHeight = false ∧ 6 < block.nVersion))
  require (¬(block.IsProofOfWork = true ∧ LAST_POW_BLOCK < GetPowHeight pindexPrev + 1))
  require (block.GetBlockTime ≤ FutureDrift io.nAdjustedTime nHeight)
  require (block.GetBlockTime ≤ FutureDrift coinbase.nTime nHeight)
  require (block.IsProofOfStake = true → (block.vtx[1]?.map fun tx =>
    CheckCoinStakeTimestamp nHeight block.nTime tx.nTime) = some true)
  checkTarget env io node pindexPrev block
  require (pindexPrev.GetPastTimeLimit < block.GetBlockTime ∧
    pindexPrev.GetBlockTime ≤ FutureDrift block.GetBlockTime nHeight)
  require (∀ tx ∈ block.vtx, IsFinalTx node.nBestHeight io.nAdjustedTime tx nHeight
    block.GetBlockTime = true)
  require (env.CheckHardened nHeight (block.GetHash env) = true)
  checkKernel env io node pindexPrev block
  require (io.cpSatisfies = true)
  let coinbaseIn ← access coinbase.vin 0
  require ((pushHeight nHeight).isPrefixOf coinbaseIn.scriptSig = true)
  require (io.diskFull = false)

def CBlock.AcceptBlock (io : Io) (node : Node) (block : CBlock) : Halt Node Node := do
  (require (env.V4 node.nBestHeight = true ∨ block.nVersion ≤ CBlock.CURRENT_VERSION)).within node
  (require ((node.mapBlockIndex (block.GetHash env)).isNone = true)).within node
  match node.mapBlockIndex block.hashPrevBlock with
  | none => .error (.reject, node)
  | some pindexPrev => do
    (acceptBlockChecks env io node pindexPrev block).within node
    let (files, nFile, nBlockPos) := node.files.WriteToDisk block
    block.AddToBlockIndex env io { node with files := files } nFile nBlockPos

/-- The part of `ProcessBlock` that decides about a block with a known parent. -/
def ProcessBlock (io : Io) (node : Node) (block : CBlock) : Halt Node Node := do
  (require (block.CheckBlock env true true true = true)).within node
  block.AcceptBlock env io node

/-! ## The life of a node -/

def Node.empty : Node where
  mapState := fun _ => none
  k1Export := fun _ => none
  nMint := fun _ => 0
  nMoneySupply := fun _ => 0
  files := BlockFile.empty
  mapBlockIndex := fun _ => none
  txdb := ⟨fun _ => none, none⟩
  pnext := fun _ => none
  hashBestChain := 0
  pindexBest := none
  pindexGenesisBlock := none
  mempool := CTxMemPool.empty
  ln1Db := fun _ => none

/-- `LoadBlockIndex` on an empty database. -/
def LoadGenesis (io : Io) (block : CBlock) : Halt Node Node :=
  let (files, nFile, nBlockPos) := BlockFile.empty.WriteToDisk block
  block.AddToBlockIndex env io { Node.empty with files := files } nFile nBlockPos

/-! ## Block locators

A locator names blocks of a branch from its tip back, for a node that may be on another branch. -/

structure CBlockLocator where
  vHave : List uint256
  deriving DecidableEq

namespace CBlockLocator

variable (env : Env)

/-- `for (int i = 0; pindex && i < nStep; i++) pindex = pindex->pprev;` -/
def stepBack : ℕ → Option CBlockIndex → Option CBlockIndex
  | 0, pindex => pindex
  | _ + 1, none => none
  | i + 1, some pindex => stepBack i pindex.pprev

/-- The loop of `Set` with at most `fuel` tests. -/
def setLoop : (fuel : ℕ) → Option CBlockIndex → (nStep : ℤ) → (vHave : List uint256) → Option (List uint256)
  | 0, _, _, _ => none
  | _ + 1, none, _, vHave => some vHave
  | fuel + 1, some pindex, nStep, vHave =>
    let vHave := vHave ++ [pindex.GetBlockHash]
    let next := stepBack nStep.toNat (some pindex)
    -- exponentially larger steps back
    let nStep := if 10 < vHave.length then int32 (nStep * 2) else nStep
    setLoop fuel next nStep vHave

def Set (fuel : ℕ) (pindex : Option CBlockIndex) : Option CBlockLocator :=
  (setLoop fuel pindex 1 []).map fun vHave => ⟨vHave ++ [env.hashGenesisBlock]⟩

def findLoop (node : Node) : List uint256 → Option CBlockIndex
  | [] => node.pindexGenesisBlock
  | hash :: rest =>
    match node.mapBlockIndex hash with
    | some pindex => if node.IsInMainChain pindex then some pindex else findLoop node rest
    | none => findLoop node rest

def GetBlockIndex (locator : CBlockLocator) (node : Node) : Option CBlockIndex :=
  findLoop node locator.vHave

end CBlockLocator

end Dions
