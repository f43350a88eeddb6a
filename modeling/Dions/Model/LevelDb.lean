import Dions.Library.Batch
import Dions.Model.Serialize
import Dions.Model.TxDb

/-! # The database behind the transaction index

One instance of `CTxDB` over the LevelDB that all instances share: keys and values are the bytes
they are serialized to, and between `TxnBegin` and `TxnCommit` the changes wait in a batch. A
failed assertion is `none`. -/

namespace Dions.LevelDb

abbrev Bytes := List UInt8

abbrev WriteBatch := List (BatchOp Bytes Bytes)

structure CTxDB where
  pdb : Bytes → Option Bytes
  activeBatch : Option WriteBatch
  fReadOnly : Bool

/-! ## Scanning the batch -/

structure CBatchScanner where
  needle : Bytes
  deleted : Bool
  foundValue : Bytes
  foundEntry : Bool
  deriving DecidableEq, Repr

/-- The handlers `Put` and `Delete`, which `Iterate` calls with every operation in order. -/
def CBatchScanner.handle (s : CBatchScanner) : BatchOp Bytes Bytes → CBatchScanner
  | .put key value =>
    if key = s.needle then { s with foundEntry := true, deleted := false, foundValue := value }
    else s
  | .delete key => if key = s.needle then { s with foundEntry := true, deleted := true } else s

/-- `value` is what the caller's string holds before. -/
def ScanBatch (batch : WriteBatch) (key value : Bytes) : CBatchScanner :=
  batch.foldl CBatchScanner.handle ⟨key, false, value, false⟩

namespace CTxDB

variable (db : CTxDB)

/-! ## Reading -/

/-- `unserialize` throws, and `Read` answers false, on bytes that are no value. -/
def Read {T : Type} (unserialize : Bytes → Option T) (ssKey : Bytes) : Option T :=
  match db.activeBatch with
  | some batch =>
    let scanner := ScanBatch batch ssKey []
    let readFromDb := scanner.foundEntry == false
    if scanner.deleted then none
    else if readFromDb then (db.pdb ssKey).bind unserialize
    else unserialize scanner.foundValue
  | none => (db.pdb ssKey).bind unserialize

/-- A key that the batch deletes is still looked up on disk. -/
def Exists (ssKey : Bytes) : Bool :=
  match db.activeBatch with
  | some batch =>
    let scanner := ScanBatch batch ssKey []
    if scanner.foundEntry && !scanner.deleted then true else (db.pdb ssKey).isSome
  | none => (db.pdb ssKey).isSome

/-! ## Writing -/

/-- `statusOk` is LevelDB's answer to a change made outside a transaction. -/
def Write (statusOk : Bool) (ssKey ssValue : Bytes) : Option (CTxDB × Bool) :=
  if db.fReadOnly then none
  else
    match db.activeBatch with
    | some batch => some ({ db with activeBatch := some (batch ++ [.put ssKey ssValue]) }, true)
    | none =>
      if statusOk then some ({ db with pdb := Function.update db.pdb ssKey (some ssValue) }, true)
      else some (db, false)

def Erase (statusOk : Bool) (ssKey : Bytes) : Option (CTxDB × Bool) :=
  if db.fReadOnly then none
  else
    match db.activeBatch with
    | some batch => some ({ db with activeBatch := some (batch ++ [.delete ssKey]) }, true)
    | none =>
      if statusOk then some ({ db with pdb := Function.update db.pdb ssKey none }, true)
      else some (db, false)

/-! ## Transactions -/

def TxnBegin : Option CTxDB :=
  if db.activeBatch.isSome then none else some { db with activeBatch := some [] }

/-- LevelDB applies the batch as a whole or, when it fails, not at all. -/
def TxnCommit (statusOk : Bool) : Option (CTxDB × Bool) :=
  match db.activeBatch with
  | none => none
  | some batch =>
    if statusOk then some ({ db with pdb := Batch.apply db.pdb batch, activeBatch := none }, true)
    else some ({ db with activeBatch := none }, false)

def TxnAbort : CTxDB := { db with activeBatch := none }

end CTxDB

/-- A call that changes the database. -/
inductive Change where
  | Write (ssKey ssValue : Bytes)
  | Erase (ssKey : Bytes)
  deriving DecidableEq, Repr

def Change.key : Change → Bytes
  | Write ssKey _ => ssKey
  | Erase ssKey => ssKey

def Change.run (statusOk : Bool) (db : CTxDB) : Change → Option CTxDB
  | Write ssKey ssValue => (db.Write statusOk ssKey ssValue).map Prod.fst
  | Erase ssKey => (db.Erase statusOk ssKey).map Prod.fst

def runChanges (statusOk : Bool) : List Change → CTxDB → Option CTxDB
  | [], db => some db
  | c :: cs, db => (c.run statusOk db).bind (runChanges statusOk cs)

/-! ## The records of the transaction index -/

def CLIENT_VERSION : ℤ := 3000000 * 5

/-- The three numbers as they lie in memory. -/
def wireDiskTxPos : Wire CDiskTxPos :=
  ((wireUnsigned 4).seq fun _ => (wireUnsigned 4).seq fun _ => wireUnsigned 4).record
    { toFun := fun p => ⟨p.1, p.2.1, p.2.2⟩
      invFun := fun pos => (pos.nFile, pos.nBlockPos, pos.nTxPos)
      left_inv := fun _ => rfl
      right_inv := fun _ => rfl }

/-- The version, the position and the positions of the spending transactions. -/
def wireTxIndex : Wire (ℤ × CDiskTxPos × List CDiskTxPos) :=
  (wireSigned 4).seq fun _ => wireDiskTxPos.seq fun _ => wireVector wireDiskTxPos

def spentPos (pos : CDiskTxPos) : Option CDiskTxPos :=
  if pos.nFile = UINT_MAX then none else some pos

def serializeTxIndex (txindex : CTxIndex) : Bytes :=
  wireTxIndex.serialize
    (CLIENT_VERSION, txindex.pos, txindex.vSpent.map (·.getD CDiskTxPos.null))

def unserializeTxIndex (ssValue : Bytes) : Option CTxIndex :=
  match wireTxIndex.unserialize ssValue with
  | .error _ => none
  | .ok ((_, pos, vSpent), _) => some ⟨pos, vSpent.map spentPos⟩

/-- `make_pair(string("tx"), hash)`. -/
def txKey (hash : uint256) : Bytes :=
  wireBytes.serialize [116, 120] ++ (wireUnsigned 32).serialize hash

namespace CTxDB

variable (db : CTxDB)

def ReadTxIndex (hash : uint256) : Option CTxIndex := db.Read unserializeTxIndex (txKey hash)

def UpdateTxIndex (statusOk : Bool) (hash : uint256) (txindex : CTxIndex) :
    Option (CTxDB × Bool) :=
  db.Write statusOk (txKey hash) (serializeTxIndex txindex)

end CTxDB

end Dions.LevelDb
