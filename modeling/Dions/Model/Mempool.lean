import Dions.Library.KeyIndex
import Dions.Model.Connect

/-! # The node state and the memory pool

All the globals that the chain logic shares, and the memory pool operations on them. -/

namespace Dions

open Halting

variable (env : Env)

/-- What the outside world answers during one call. -/
structure Io where
  nAdjustedTime : ℤ
  /-- The places of the block files that cannot be read. -/
  unreadable : ℕ × ℕ → Bool
  /-- The tips whose database commit fails. -/
  commitFails : uint256 → Bool
  /-- The commit of a new index entry fails. -/
  indexCommitFails : Bool
  /-- The synchronized checkpoints let the block pass. -/
  cpSatisfies : Bool
  diskFull : Bool

/-- The block files as a call can read them. -/
def Io.visible (io : Io) (files : BlockFile) : BlockFile :=
  { files with
    blocks := fun place => if io.unreadable place then none else files.blocks place
    txs := fun place => if io.unreadable place then none else files.txs place }

structure Node extends Globals where
  files : BlockFile
  mapBlockIndex : uint256 → Option CBlockIndex
  txdb : CTxDB
  pnext : CBlockIndex → Option CBlockIndex
  hashBestChain : uint256
  pindexBest : Option CBlockIndex
  pindexGenesisBlock : Option CBlockIndex
  mempool : CTxMemPool
  ln1Db : AliasDb

namespace Node

variable (node : Node)

/-- `SetBestChain` sets it together with `pindexBest`. -/
def nBestHeight : ℤ :=
  match node.pindexBest with
  | none => -1
  | some pindex => pindex.nHeight

/-- `SetBestChain` sets it together with `pindexBest`. -/
def nBestChainTrust : ℕ :=
  match node.pindexBest with
  | none => 0
  | some pindex => pindex.nChainTrust

def view (io : Io) : View :=
  { files := io.visible node.files, mempool := node.mempool, ln1Db := node.ln1Db,
    nBestHeight := node.nBestHeight }

def setGlobals (g : Globals) : Node := { node with toGlobals := g }

/-- `CBlockIndex::IsInMainChain`. -/
def IsInMainChain (pindex : CBlockIndex) : Bool :=
  (node.pnext pindex).isSome || node.pindexBest == some pindex

end Node

/-! ## Removing from the pool -/

/-- `operator==`, which does not look at `strTxInfo`. -/
def CTransaction.same (a b : CTransaction) : Bool :=
  a.nVersion == b.nVersion && a.nTime == b.nTime && a.vin == b.vin && a.vout == b.vout &&
    a.nLockTime == b.nLockTime

namespace CTxMemPool

def addUnchecked (pool : CTxMemPool) (hash : uint256) (tx : CTransaction) : CTxMemPool where
  mapTx := (hash, tx) :: pool.mapTx.filter (·.1 ≠ hash)
  mapNextTx := (tx.vin.zipIdx).foldl
    (fun m p => Function.update m p.1.prevout (some (hash, p.2))) pool.mapNextTx

def clear (_pool : CTxMemPool) : CTxMemPool := empty

/-- The last lines of `remove`: the links of the inputs and the transaction itself. -/
def eraseTx (pool : CTxMemPool) (hash : uint256) (tx : CTransaction) : CTxMemPool where
  mapTx := pool.mapTx.filter (·.1 ≠ hash)
  mapNextTx := tx.vin.foldl (fun m txin => Function.update m txin.prevout none) pool.mapNextTx

end CTxMemPool

abbrev PoolState := CTxMemPool × Globals

def PoolState.put (node : Node) (s : PoolState) : Node :=
  { node with mempool := s.1, toGlobals := s.2 }

/-- `CTxMemPool::remove`: the hook runs whether or not the transaction is in the pool. Every call
for a spender goes down one link, so the size of the pool bounds the depth. -/
def removeTx (fRecursive : Bool) : (fuel : ℕ) → CTransaction → PoolState → Halt PoolState PoolState
  | fuel, tx, (pool, g) => do
    let g ← (RemoveFromMemoryPoolPost env g tx).lift (fun g => (pool, g))
    let hash := tx.GetHash env
    if pool.exists_ hash then do
      let (pool, g) ←
        match fuel with
        | 0 => .ok (pool, g)
        | fuel + 1 =>
          if fRecursive then
            (List.range tx.vout.length).foldlM (fun s i =>
              match s.1.mapNextTx ⟨hash, i⟩ with
              | none => .ok s
              | some (h, _) =>
                match s.1.lookup h with
                | none => .ok s
                | some child => removeTx true fuel child s) (pool, g)
          else .ok (pool, g)
      .ok (pool.eraseTx hash tx, g)
    else .ok (pool, g)

def CTxMemPool.remove (fRecursive : Bool) (tx : CTransaction) (s : PoolState) :
    Halt PoolState PoolState :=
  removeTx env fRecursive s.1.mapTx.length tx s

/-- One input of `removeConflicts`. -/
def removeConflict (tx : CTransaction) (s : PoolState) (txin : CTxIn) :
    Halt PoolState PoolState :=
  match s.1.mapNextTx txin.prevout with
  | none => .ok s
  | some (h, _) =>
    match s.1.lookup h with
    | none => .ok s
    | some txConflict =>
      if txConflict.same tx then .ok s else CTxMemPool.remove env true txConflict s

def CTxMemPool.removeConflicts (tx : CTransaction) (s : PoolState) : Halt PoolState PoolState :=
  tx.vin.foldlM (removeConflict env tx) s

/-! ## AcceptToMemoryPool -/

def IsStandardTx (nBestHeight nAdjustedTime : ℤ) (tx : CTransaction) : Bool :=
  tx.nVersion ≤ CTransaction.CURRENT_VERSION &&
    IsFinalTx nBestHeight nAdjustedTime tx (nBestHeight + 1) 0 &&
    (tx.nTime : ℤ) ≤ FutureDrift nAdjustedTime (nBestHeight + 1) &&
    tx.GetSerializeSize < MAX_STANDARD_TX_SIZE && env.standardScripts tx

def outputsFor (inputs : MapPrevTx) : List CTxIn → Exec (List CTxOut)
  | [] => .ok []
  | txin :: vin => do
    let txout ← CTransaction.GetOutputFor txin inputs
    let rest ← outputsFor inputs vin
    .ok (txout :: rest)

/-- The checks before the memory pool takes a transaction, and the globals they change. A
transaction that pays the relay fee is never free, so the rate limiter has nothing to do. -/
def acceptChecks (io : Io) (node : Node) (tx : CTransaction) : Halt Globals Globals := do
  let g := node.toGlobals
  let view := node.view io
  let hash := tx.GetHash env
  (require (tx.CheckTransaction = true)).within g
  (require (tx.IsCoinBase = false ∧ tx.IsCoinStake = false)).within g
  (require (env.fTestNet = true ∨ tx.nVersion ≠ CTransaction.DION_TX_VERSION ∨
    env.V3 node.nBestHeight = true)).within g
  (require (IsStandardTx env node.nBestHeight io.nAdjustedTime tx = true ∨
    tx.nVersion = CTransaction.DION_TX_VERSION)).within g
  (require (node.mempool.exists_ hash = false)).within g
  (require (∀ txin ∈ tx.vin, node.mempool.mapNextTx txin.prevout = none)).within g
  (require (node.txdb.txindex hash = none)).within g
  match tx.FetchInputs view.files view.mempool node.txdb.txindex (fun _ => none) false false with
  | .error _ => .error (.reject, g)
  | .ok inputs => do
    let outs ← (outputsFor inputs tx.vin).within g
    (require (env.standardInputs tx outs = true)).within g
    let nValueIn ← (tx.GetValueIn inputs).within g
    let nValueOut ← tx.GetValueOut.within g
    (require (tx.GetMinFee 1000 .GMF_RELAY tx.GetSerializeSize ≤
      int64 (nValueIn - nValueOut))).within g
    let (_, g) ← tx.ConnectInputs env view g inputs (fun _ => none) CDiskTxPos.memory
      node.pindexBest false false STANDARD_SCRIPT_VERIFY_FLAGS
    .ok g

def AcceptToMemoryPool (io : Io) (node : Node) (tx : CTransaction) : Halt Node Node := do
  let g ← (acceptChecks env io node tx).lift node.setGlobals
  let g ← (AcceptToMemoryPoolPost env (node.view io) g tx).attempt.lift node.setGlobals
  .ok { node with toGlobals := g, mempool := node.mempool.addUnchecked (tx.GetHash env) tx }

/-! ## Transactions that wait for their inputs

The two maps of orphan transactions and what the message `tx` does with them. What
`AcceptToMemoryPool` answers, and the random hashes, come with the message. -/

def MAX_ORPHAN_TRANSACTIONS : ℕ := MAX_BLOCK_SIZE / 100

structure OrphanTxs where
  mapOrphanTransactions : OrdMap uint256 CTransaction
  mapOrphanTransactionsByPrev : KeyIndex uint256 uint256

/-- The answer of `AcceptToMemoryPool`: without success, `fMissingInputs` is set or not. -/
inductive Verdict where
  | accepted
  | missingInputs
  | invalid
  deriving DecidableEq, Repr

namespace OrphanTxs

def empty : OrphanTxs := ⟨OrdMap.empty, OrdMap.empty⟩

variable (s : OrphanTxs)

def AddOrphanTx (tx : CTransaction) : Bool × OrphanTxs :=
  let hash := tx.GetHash env
  if (s.mapOrphanTransactions.find hash).isSome then (false, s)
  else if 5000 < tx.GetSerializeSize then (false, s)
  else
    (true,
      { mapOrphanTransactions := s.mapOrphanTransactions.insert hash tx
        mapOrphanTransactionsByPrev := (tx.vin.map fun txin => txin.prevout.hash).foldl
          (fun byPrev prev => KeyIndex.add byPrev prev hash) s.mapOrphanTransactionsByPrev })

def EraseOrphanTx (hash : uint256) : OrphanTxs :=
  match s.mapOrphanTransactions.find hash with
  | none => s
  | some tx =>
    { mapOrphanTransactions := s.mapOrphanTransactions.erase hash
      mapOrphanTransactionsByPrev := (tx.vin.map fun txin => txin.prevout.hash).foldl
        (fun byPrev prev => KeyIndex.remove byPrev prev hash) s.mapOrphanTransactionsByPrev }

/-- The loop of `LimitOrphanTxSize`; `GetRandHash` returns `rand nEvicted`. -/
def evict (rand : ℕ → uint256) (nMaxOrphans : ℕ) :
    (fuel : ℕ) → (nEvicted : ℕ) → OrphanTxs → ℕ × OrphanTxs
  | 0, nEvicted, s => (nEvicted, s)
  | fuel + 1, nEvicted, s =>
    if s.mapOrphanTransactions.size ≤ nMaxOrphans then (nEvicted, s)
    else
      match s.mapOrphanTransactions.lowerBoundOrFirst (rand nEvicted) with
      | none => (nEvicted, s)
      | some it => evict rand nMaxOrphans fuel (nEvicted + 1) (s.EraseOrphanTx it.1)

/-- The orphans evicted are stored ones, so as many rounds as there are orphans are enough. -/
def LimitOrphanTxSize (rand : ℕ → uint256) (nMaxOrphans : ℕ) : ℕ × OrphanTxs :=
  evict rand nMaxOrphans s.mapOrphanTransactions.size 0 s

/-- `mapOrphanTransactions[hash]`, where a missing entry is made from a transaction without inputs
and outputs. -/
def orphanAt (nAdjustedTime : ℕ) (hash : uint256) : CTransaction × OrphanTxs :=
  match s.mapOrphanTransactions.find hash with
  | some tx => (tx, s)
  | none =>
    let tx := CTransaction.null nAdjustedTime
    (tx, { s with mapOrphanTransactions := s.mapOrphanTransactions.insert hash tx })

end OrphanTxs

/-- A message `tx` with the calls of `AcceptToMemoryPool` and the random hashes that it causes. -/
structure TxMessage where
  tx : CTransaction
  calls : List (CTransaction × Verdict)
  rand : ℕ → uint256
  nAdjustedTime : ℕ

/-- The queues of the message handler, with the calls that are still to come. -/
structure TxQueues where
  orphans : OrphanTxs
  calls : List (CTransaction × Verdict)
  vWorkQueue : List uint256
  vEraseQueue : List uint256

namespace TxQueues

/-- The next call has to be the one for the given transaction. -/
def AcceptToMemoryPool (q : TxQueues) (tx : CTransaction) : Option (Verdict × TxQueues) :=
  match q.calls with
  | [] => none
  | (tx', verdict) :: calls => if tx' = tx then some (verdict, { q with calls := calls }) else none

/-- An orphan that depends on an accepted transaction. -/
def tryOrphan (nAdjustedTime : ℕ) (q : TxQueues) (orphanTxHash : uint256) : Option TxQueues := do
  let (orphanTx, orphans) := q.orphans.orphanAt nAdjustedTime orphanTxHash
  let (verdict, q) ← { q with orphans := orphans }.AcceptToMemoryPool orphanTx
  match verdict with
  | .accepted =>
    some { q with
      vWorkQueue := q.vWorkQueue ++ [orphanTxHash]
      vEraseQueue := q.vEraseQueue ++ [orphanTxHash] }
  | .invalid => some { q with vEraseQueue := q.vEraseQueue ++ [orphanTxHash] }
  | .missingInputs => some q

/-- The loop over the work queue from position `i` on. Every entry but the first is there because of
a call, so the calls bound the number of rounds. -/
def resolve (nAdjustedTime : ℕ) : (fuel i : ℕ) → TxQueues → Option TxQueues
  | 0, _, _ => none
  | fuel + 1, i, q =>
    match q.vWorkQueue[i]? with
    | none => some q
    | some hashPrev =>
      let byPrev := KeyIndex.touch q.orphans.mapOrphanTransactionsByPrev hashPrev
      let orphans := { q.orphans with mapOrphanTransactionsByPrev := byPrev }
      (KeyIndex.itemsAt byPrev hashPrev).keys.foldlM (tryOrphan nAdjustedTime)
        { q with orphans := orphans } >>= resolve nAdjustedTime fuel (i + 1)

end TxQueues

/-- `ProcessMessage` of a message `tx`, which makes exactly the calls that come with it. -/
def ProcessTx (s : OrphanTxs) (m : TxMessage) : Option OrphanTxs := do
  let (verdict, q) ← (TxQueues.mk s m.calls [] []).AcceptToMemoryPool m.tx
  match verdict with
  | .accepted =>
    let hash := m.tx.GetHash env
    let q ← { q with vWorkQueue := [hash], vEraseQueue := [hash] }.resolve m.nAdjustedTime
      (m.calls.length + 1) 0
    if q.calls.isEmpty then some (q.vEraseQueue.foldl OrphanTxs.EraseOrphanTx q.orphans) else none
  | .missingInputs =>
    if q.calls.isEmpty then
      some ((s.AddOrphanTx env m.tx).2.LimitOrphanTxSize m.rand MAX_ORPHAN_TRANSACTIONS).2
    else none
  | .invalid => if q.calls.isEmpty then some s else none

/-- `ProcessMessage` of one message after the other, from the start of the node on. -/
def ProcessTxs (ms : List TxMessage) : Option OrphanTxs := ms.foldlM (ProcessTx env) OrphanTxs.empty

end Dions
