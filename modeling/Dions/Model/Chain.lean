import Dions.Model.Mempool

/-! # The best chain

`Reorganize`, `SetBestChainInner` and `SetBestChain`. A database transaction is a second index
that is worked on and replaces the first one on commit; it is gone when the call fails. -/

namespace Dions

open Halting

variable (env : Env)

/-! ## Reorganize -/

/-- Disconnect the branch from its tip down, with the transactions queued to be resurrected. -/
def disconnectBranch (files : BlockFile) :
    List CBlockIndex → TxIndexMap → List CTransaction → Option (TxIndexMap × List CTransaction)
  | [], T, vResurrect => some (T, vResurrect)
  | pindex :: rest, T, vResurrect =>
    match files.ReadFromDisk env pindex with
    | none => none
    | some block =>
      match block.DisconnectBlock env T with
      | none => none
      | some T =>
        disconnectBranch files rest T
          (if env.GetTotalBlocksEstimate < pindex.nHeight then
            block.vtx.filter (fun tx => !(tx.IsCoinBase || tx.IsCoinStake)) ++ vResurrect
          else vResurrect)

/-- Connect the branch upwards, with the transactions queued to be deleted. -/
def connectBranch (view : View) :
    List CBlockIndex → TxIndexMap → Globals → List CTransaction →
      Halt Globals (TxIndexMap × Globals × List CTransaction)
  | [], T, g, vDelete => .ok (T, g, vDelete)
  | pindex :: rest, T, g, vDelete =>
    match view.files.ReadFromDisk env pindex with
    | none => .error (.reject, g)
    | some block => do
      let (T, g) ← block.ConnectBlock env view T g pindex
      connectBranch view rest T g (vDelete ++ block.vtx)

/-- `pindex->pprev->pnext = value` for each entry that has a `pprev`. -/
def linkAll (value : CBlockIndex → Option CBlockIndex) :
    List CBlockIndex → (CBlockIndex → Option CBlockIndex) → CBlockIndex → Option CBlockIndex
  | [], pnext => pnext
  | pindex :: rest, pnext =>
    match CBlockIndex.pprev pindex with
    | none => linkAll value rest pnext
    | some pprev => linkAll value rest (Function.update pnext pprev (value pindex))

/-- Transactions of the old branch go back to the memory pool, those of the new one leave it. -/
def resurrectTx (io : Io) (node : Node) (tx : CTransaction) : Halt Node Node :=
  (AcceptToMemoryPool env io node tx).attempt

def deleteTx (node : Node) (tx : CTransaction) : Halt Node Node :=
  (do
    let s ← CTxMemPool.remove env false tx (node.mempool, node.toGlobals)
    CTxMemPool.removeConflicts env tx s : Halt PoolState PoolState).lift (PoolState.put node) >>=
    fun s => .ok (PoolState.put node s)

def Reorganize (io : Io) (node : Node) (pindexNew : CBlockIndex) : Halt Node Node :=
  match node.pindexBest with
  | none => .error (.undefined, node)
  | some pindexBest =>
    match Lineage.fork? pindexBest pindexNew with
    | none => .error (.reject, node)
    | some pfork =>
      let vDisconnect := Lineage.above pfork pindexBest
      let vConnect := (Lineage.above pfork pindexNew).reverse
      match disconnectBranch env (io.visible node.files) vDisconnect node.txdb.txindex [] with
      | none => .error (.reject, node)
      | some (T, vResurrect) => do
        let (T, g, vDelete) ← (connectBranch env (node.view io) vConnect T node.toGlobals []).lift
          node.setGlobals
        let node := node.setGlobals g
        if io.commitFails pindexNew.GetBlockHash then .error (.reject, node)
        else do
          let node := { node with
            txdb := ⟨T, some pindexNew.GetBlockHash⟩
            pnext := linkAll some vConnect (linkAll (fun _ => none) vDisconnect node.pnext) }
          let node ← vResurrect.foldlM (resurrectTx env io) node
          vDelete.foldlM (deleteTx env) node

/-! ## SetBestChain -/

def removeMined (node : Node) (tx : CTransaction) : Halt Node Node :=
  (CTxMemPool.remove env false tx (node.mempool, node.toGlobals)).lift (PoolState.put node) >>=
    fun s => .ok (PoolState.put node s)

/-- Attach a block to the chain: this is the only caller of `filter`. -/
def CBlock.SetBestChainInner (io : Io) (node : Node) (pindexNew : CBlockIndex) (block : CBlock) :
    Halt Node Node := do
  let (T, g) ← (block.ConnectBlock env (node.view io) node.txdb.txindex node.toGlobals
    pindexNew).lift node.setGlobals
  let node := node.setGlobals g
  if io.commitFails (block.GetHash env) then .error (.reject, node)
  else do
    let node := { node with
      txdb := ⟨T, some (block.GetHash env)⟩
      pnext := linkAll some [pindexNew] node.pnext }
    let node ← block.vtx.foldlM (removeMined env) node
    let ln1Db ← (LocatorNodeDB.filter env (io.visible node.files) node.txdb.txindex node.ln1Db
      pindexNew).lift (fun ln1Db => { node with ln1Db := ln1Db })
    .ok { node with ln1Db := ln1Db }

/-- Climb down while the parent alone would already beat the best chain: the entry to reorganise
to, and the entries to connect afterwards, in that order. -/
def splitPostponed (nBestTrust : ℕ) : CBlockIndex → CBlockIndex × List CBlockIndex
  | .root d => (.root d, [])
  | .child d p =>
    if nBestTrust < CBlockIndex.nChainTrust p then
      ((splitPostponed nBestTrust p).1, (splitPostponed nBestTrust p).2 ++ [.child d p])
    else (.child d p, [])

/-- Errors are not fatal here: the loop ends, and the caller goes on. -/
def connectPostponed (io : Io) : List CBlockIndex → Node → Halt Node Node
  | [], node => .ok node
  | pindex :: rest, node =>
    match (io.visible node.files).ReadFromDisk env pindex with
    | none => .ok node
    | some block =>
      (block.SetBestChainInner env io node pindex).orBreak (connectPostponed io rest)

/-- The pointers in memory move to `pindexNew`, whatever has been connected. -/
def newBest (node : Node) (hash : uint256) (pindexNew : CBlockIndex) : Node :=
  { node with hashBestChain := hash, pindexBest := some pindexNew }

def CBlock.SetBestChain (io : Io) (node : Node) (pindexNew : CBlockIndex) (block : CBlock) :
    Halt Node Node :=
  let hash := block.GetHash env
  if node.pindexGenesisBlock.isNone ∧ hash = env.hashGenesisBlock then
    if io.commitFails hash then .error (.reject, node)
    else
      .ok (newBest { node with
        txdb := { node.txdb with hashBestChain := some hash }
        pindexGenesisBlock := some pindexNew } hash pindexNew)
  else if block.hashPrevBlock = node.hashBestChain then do
    let node ← block.SetBestChainInner env io node pindexNew
    .ok (newBest node hash pindexNew)
  else
    match node.pindexBest with
    | none => .error (.undefined, node)
    | some pindexBest => do
      let (pindexIntermediate, vpindexSecondary) :=
        splitPostponed pindexBest.nChainTrust pindexNew
      let node ← Reorganize env io node pindexIntermediate
      let node ← connectPostponed env io vpindexSecondary node
      .ok (newBest node hash pindexNew)

/-! ## AddToBlockIndex -/

def CBlock.newIndex (block : CBlock) (nFile nBlockPos : ℕ) (pprev : Option CBlockIndex) :
    CBlockIndex :=
  let data (modifier : ℕ × Bool) : BlockIndexData :=
    ⟨block.GetHash env, nFile, nBlockPos, block.IsProofOfStake, modifier.1, modifier.2,
      block.nTime, block.nBits⟩
  match pprev with
  | none => .root (data (0, true))
  | some p => .child (data (env.nextStakeModifier p)) p

def CBlock.AddToBlockIndex (io : Io) (node : Node) (nFile nBlockPos : ℕ) (block : CBlock) :
    Halt Node Node :=
  let hash := block.GetHash env
  if (node.mapBlockIndex hash).isSome then .error (.reject, node)
  else
    let pindexNew := block.newIndex env nFile nBlockPos (node.mapBlockIndex block.hashPrevBlock)
    let node := { node with
      mapBlockIndex := Function.update node.mapBlockIndex hash (some pindexNew) }
    if io.indexCommitFails then .error (.reject, node)
    else if node.nBestChainTrust < pindexNew.nChainTrust then
      block.SetBestChain env io node pindexNew
    else .ok node

end Dions
