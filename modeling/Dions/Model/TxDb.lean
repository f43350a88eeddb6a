import Mathlib.Data.Finset.Basic
import Dions.Model.Env

/-! # The transaction index and the memory pool

The records of `CTxDB` that validation reads, the transactions waiting in memory, and
`FetchInputs`, which collects what the inputs of a transaction refer to. -/

namespace Dions

open Halting

/-! ## Index entries -/

def CDiskTxPos.null : CDiskTxPos := ⟨UINT_MAX, 0, 0⟩

/-- The position that refers to the memory pool. -/
def CDiskTxPos.memory : CDiskTxPos := ⟨1, 1, 1⟩

/-- A null position in `vSpent` is `none`: that output has not been spent. -/
structure CTxIndex where
  pos : CDiskTxPos
  vSpent : List (Option CDiskTxPos)
  deriving DecidableEq, Repr

namespace CTxIndex

def new (pos : CDiskTxPos) (nOutputs : ℕ) : CTxIndex := ⟨pos, List.replicate nOutputs none⟩

def spend (txindex : CTxIndex) (n : ℕ) (by_ : CDiskTxPos) : CTxIndex :=
  { txindex with vSpent := txindex.vSpent.set n (some by_) }

def unspend (txindex : CTxIndex) (n : ℕ) : CTxIndex :=
  { txindex with vSpent := txindex.vSpent.set n none }

/-- Some output is left to spend. -/
def hasUnspent (txindex : CTxIndex) : Bool := txindex.vSpent.any Option.isNone

end CTxIndex

/-- A `std::map<uint256, CTxIndex>`, and the records under the key `tx` of the database. -/
abbrev TxIndexMap := uint256 → Option CTxIndex

/-- The committed records; a batch in progress is a second value of this type. -/
structure CTxDB where
  txindex : TxIndexMap
  hashBestChain : Option uint256

/-! ## The memory pool -/

/-- `CInPoint` points to a transaction of the pool, here by its hash. -/
structure CTxMemPool where
  mapTx : List (uint256 × CTransaction)
  mapNextTx : COutPoint → Option (uint256 × ℕ)

namespace CTxMemPool

def empty : CTxMemPool := ⟨[], fun _ => none⟩

def lookup (pool : CTxMemPool) (hash : uint256) : Option CTransaction := pool.mapTx.lookup hash

def exists_ (pool : CTxMemPool) (hash : uint256) : Bool := (pool.lookup hash).isSome

end CTxMemPool

/-! ## Previous transactions -/

abbrev MapPrevTx := uint256 → Option (CTxIndex × CTransaction)

/-- Reads a transaction behind an index entry: from memory or from the block files. -/
def readPrev (files : BlockFile) (mempool : CTxMemPool) (hash : uint256) (pos : CDiskTxPos) :
    Option CTransaction :=
  if pos = CDiskTxPos.memory then mempool.lookup hash else files.readTx pos

/-- One round of the first loop of `FetchInputs`. An entry that is not found is made up from the
memory pool, except in a block or for the miner. -/
def fetchPrev (files : BlockFile) (mempool : CTxMemPool) (txdb mapTestPool : TxIndexMap)
    (inChain : Bool) (hash : uint256) : Option (CTxIndex × CTransaction) :=
  let found :=
    if inChain && (mapTestPool hash).isSome then mapTestPool hash else txdb hash
  match found with
  | some txindex => (readPrev files mempool hash txindex.pos).map (txindex, ·)
  | none =>
    if inChain then none
    else (mempool.lookup hash).map fun txPrev =>
      (CTxIndex.new CDiskTxPos.null txPrev.vout.length, txPrev)

def fetchLoop (files : BlockFile) (mempool : CTxMemPool) (txdb mapTestPool : TxIndexMap)
    (inChain : Bool) : List CTxIn → MapPrevTx → Option MapPrevTx
  | [], inputsRet => some inputsRet
  | txin :: vin, inputsRet =>
    let hash := txin.prevout.hash
    if (inputsRet hash).isSome then
      fetchLoop files mempool txdb mapTestPool inChain vin inputsRet
    else
      match fetchPrev files mempool txdb mapTestPool inChain hash with
      | none => none
      | some prev =>
        fetchLoop files mempool txdb mapTestPool inChain vin
          (Function.update inputsRet hash (some prev))

/-- The output index of an input lies inside its previous transaction and its index entry. -/
def prevoutInRange (inputs : MapPrevTx) (txin : CTxIn) : Bool :=
  match inputs txin.prevout.hash with
  | none => false
  | some (txindex, txPrev) =>
    txin.prevout.n < txPrev.vout.length && txin.prevout.n < txindex.vSpent.length

namespace CTransaction

/-- On failure the value is `fInvalid`: an input names an output that does not exist. -/
def FetchInputs (files : BlockFile) (mempool : CTxMemPool) (txdb mapTestPool : TxIndexMap)
    (fBlock fMiner : Bool) (tx : CTransaction) : Except Bool MapPrevTx :=
  if tx.IsCoinBase then .ok fun _ => none
  else
    match fetchLoop files mempool txdb mapTestPool (fBlock || fMiner) tx.vin fun _ => none with
    | none => .error false
    | some inputs => if tx.vin.all (prevoutInRange inputs) then .ok inputs else .error true

def GetOutputFor (txin : CTxIn) (inputs : MapPrevTx) : Exec CTxOut :=
  match inputs txin.prevout.hash with
  | none => .error .raised
  | some (_, txPrev) =>
    match txPrev.vout[txin.prevout.n]? with
    | none => .error .raised
    | some txout => .ok txout

def valueInFrom (inputs : MapPrevTx) : List CTxIn → ℤ → Exec ℤ
  | [], nResult => .ok nResult
  | txin :: vin, nResult => do
    let txout ← GetOutputFor txin inputs
    valueInFrom inputs vin (int64 (nResult + txout.nValue))

def GetValueIn (tx : CTransaction) (inputs : MapPrevTx) : Exec ℤ :=
  if tx.IsCoinBase then .ok 0 else valueInFrom inputs tx.vin 0

def p2shSigOpsFrom (inputs : MapPrevTx) : List CTxIn → ℕ → Exec ℕ
  | [], nSigOps => .ok nSigOps
  | txin :: vin, nSigOps => do
    let prevout ← GetOutputFor txin inputs
    p2shSigOpsFrom inputs vin
      (if prevout.scriptPubKey.IsPayToScriptHash then
        nSigOps + prevout.scriptPubKey.GetSigOpCountP2SH txin.scriptSig else nSigOps)

def GetP2SHSigOpCount (tx : CTransaction) (inputs : MapPrevTx) : Exec ℕ :=
  if tx.IsCoinBase then .ok 0 else p2shSigOpsFrom inputs tx.vin 0

/-- `ReadFromDisk(txdb, prevout, txindexRet)`. -/
def ReadFromDisk (files : BlockFile) (txdb : TxIndexMap) (prevout : COutPoint) :
    Option (CTxIndex × CTransaction) :=
  match txdb prevout.hash with
  | none => none
  | some txindex =>
    match files.readTx txindex.pos with
    | none => none
    | some tx => if tx.vout.length ≤ prevout.n then none else some (txindex, tx)

end CTransaction

end Dions
