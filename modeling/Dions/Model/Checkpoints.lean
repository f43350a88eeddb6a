import Dions.Model.Accept
import Dions.Model.Serialize

/-! # Synchronized checkpoints

The signed messages that name a block every later block has to descend from, and `AcceptBlock`
with the test against the checkpoint of the moment. -/

namespace Dions

open Halting

/-- Whether blocks that violate the checkpoint are refused, reported or let pass. -/
inductive CPMode where
  | STRICT
  | ADVISORY
  | PERMISSIVE
  deriving DecidableEq, Repr

/-! ## Messages -/

structure CUnsignedSyncCheckpoint where
  nVersion : ℤ
  hashCheckpoint : uint256
  deriving DecidableEq, Repr

def CUnsignedSyncCheckpoint.wire : Wire CUnsignedSyncCheckpoint :=
  ((wireSigned 4).seq fun _ => wireUnsigned 32).record
    ⟨fun p => ⟨p.1, p.2⟩, fun m => (m.nVersion, m.hashCheckpoint), fun _ => rfl, fun _ => rfl⟩

structure CSyncCheckpoint extends CUnsignedSyncCheckpoint where
  vchMsg : List UInt8
  vchSig : List UInt8
  deriving DecidableEq, Repr

def CSyncCheckpoint.null : CSyncCheckpoint := ⟨⟨1, 0⟩, [], []⟩

/-- The signature check of the master key, and then the fields as they were signed; a message that
ends too early raises an exception. -/
def CSyncCheckpoint.CheckSignature (Verify : List UInt8 → List UInt8 → Bool)
    (checkpoint : CSyncCheckpoint) : Exec CSyncCheckpoint :=
  if !Verify checkpoint.vchMsg checkpoint.vchSig then .error .reject
  else
    match CUnsignedSyncCheckpoint.wire.unserialize checkpoint.vchMsg with
    | .error _ => .error .raised
    | .ok (message, _) => .ok { checkpoint with toCUnsignedSyncCheckpoint := message }

/-! ## State -/

/-- The variables of `Checkpoints` and the record in the database. -/
structure SyncState where
  hashSyncCheckpoint : uint256
  hashPendingCheckpoint : uint256
  checkpointMessage : CSyncCheckpoint
  checkpointMessagePending : CSyncCheckpoint
  hashInvalidCheckpoint : uint256
  /-- What `ReadSyncCheckpoint` reads. -/
  stored : uint256

structure SyncNode extends Node, SyncState

/-- What the outside world answers, the database commit of a checkpoint included. -/
structure SyncIo extends Io where
  checkpointCommitFails : Bool

def SyncNode.setNode (s : SyncNode) (node : Node) : SyncNode := { s with toNode := node }

variable (env : Env)

namespace Checkpoints

/-! ## Checks -/

/-- Only a descendant of the current checkpoint is allowed. The walks never run past the root, as
heights are depths. -/
def ValidateSyncCheckpoint (s : SyncNode) (hashCheckpoint : uint256) : Halt SyncNode SyncNode :=
  match s.mapBlockIndex s.hashSyncCheckpoint, s.mapBlockIndex hashCheckpoint with
  | none, _ => .error (.reject, s)
  | some _, none => .error (.reject, s)
  | some pindexSyncCheckpoint, some pindexCheckpointRecv =>
    if pindexCheckpointRecv.nHeight ≤ pindexSyncCheckpoint.nHeight then
      let pindex := pindexSyncCheckpoint.dropTo pindexCheckpointRecv.nHeight
      if CBlockIndex.GetBlockHash pindex ≠ hashCheckpoint then
        .error (.reject, { s with hashInvalidCheckpoint := hashCheckpoint })
      else .error (.reject, s)
    else
      let pindex := pindexCheckpointRecv.dropTo pindexSyncCheckpoint.nHeight
      if CBlockIndex.GetBlockHash pindex ≠ s.hashSyncCheckpoint then
        .error (.reject, { s with hashInvalidCheckpoint := hashCheckpoint })
      else .ok s

/-- The current checkpoint has to be in the block index: the program asserts it. -/
def CheckSync (s : SyncNode) (hashBlock : uint256) (pindexPrev : CBlockIndex) : Exec Bool :=
  if env.fTestNet then .ok true
  else
    match s.mapBlockIndex s.hashSyncCheckpoint with
    | none => .error .undefined
    | some pindexSync =>
      let nHeight := pindexPrev.nHeight + 1
      let pindex := pindexPrev.dropTo pindexSync.nHeight
      if pindexSync.nHeight < nHeight ∧ (CBlockIndex.nHeight pindex < pindexSync.nHeight ∨
          CBlockIndex.GetBlockHash pindex ≠ s.hashSyncCheckpoint) then .ok false
      else if nHeight = pindexSync.nHeight ∧ hashBlock ≠ s.hashSyncCheckpoint then .ok false
      else if nHeight < pindexSync.nHeight ∧ (s.mapBlockIndex hashBlock).isNone then .ok false
      else .ok true

/-! ## Taking a checkpoint -/

def WriteSyncCheckpoint (io : SyncIo) (s : SyncNode) (hashCheckpoint : uint256) :
    Halt SyncNode SyncNode :=
  if io.checkpointCommitFails then .error (.reject, s)
  else .ok { s with stored := hashCheckpoint, hashSyncCheckpoint := hashCheckpoint }

/-- The checkpoint chain has been received; it becomes the main chain if it is not yet. -/
def switchTo (io : SyncIo) (s : SyncNode) (pindexCheckpoint : CBlockIndex)
    (hashCheckpoint : uint256) : Halt SyncNode SyncNode :=
  if s.IsInMainChain pindexCheckpoint then .ok s
  else
    match (io.visible s.files).ReadFromDisk env pindexCheckpoint with
    | none => .error (.reject, s)
    | some block =>
      match block.SetBestChain env io.toIo s.toNode pindexCheckpoint with
      | .ok node => .ok (s.setNode node)
      | .error (.reject, node) =>
        .error (.reject, { s.setNode node with hashInvalidCheckpoint := hashCheckpoint })
      | .error (e, node) => .error (e, s.setNode node)

def AcceptPendingSyncCheckpoint (io : SyncIo) (s : SyncNode) : Halt SyncNode SyncNode :=
  if s.hashPendingCheckpoint = 0 then .error (.reject, s)
  else
    match s.mapBlockIndex s.hashPendingCheckpoint with
    | none => .error (.reject, s)
    | some pindexCheckpoint =>
      match ValidateSyncCheckpoint s s.hashPendingCheckpoint with
      | .error (e, s) =>
        .error (e, { s with
          hashPendingCheckpoint := 0, checkpointMessagePending := CSyncCheckpoint.null })
      | .ok s => do
        let s ← switchTo env io s pindexCheckpoint s.hashPendingCheckpoint
        let s ← WriteSyncCheckpoint io s s.hashPendingCheckpoint
        .ok { s with
          hashPendingCheckpoint := 0
          checkpointMessage := s.checkpointMessagePending
          checkpointMessagePending := CSyncCheckpoint.null }

end Checkpoints

open Checkpoints

/-- A checkpoint whose block is not known yet stays pending, in the place of any earlier one. -/
def CSyncCheckpoint.ProcessSyncCheckpoint (Verify : List UInt8 → List UInt8 → Bool) (io : SyncIo)
    (s : SyncNode) (checkpoint : CSyncCheckpoint) : Halt SyncNode SyncNode := do
  let checkpoint ← (checkpoint.CheckSignature Verify).within s
  match s.mapBlockIndex checkpoint.hashCheckpoint with
  | none =>
    .error (.reject, { s with
      hashPendingCheckpoint := checkpoint.hashCheckpoint, checkpointMessagePending := checkpoint })
  | some pindexCheckpoint => do
    let s ← ValidateSyncCheckpoint s checkpoint.hashCheckpoint
    let s ← switchTo env io s pindexCheckpoint checkpoint.hashCheckpoint
    let s ← WriteSyncCheckpoint io s checkpoint.hashCheckpoint
    .ok { s with
      checkpointMessage := checkpoint
      hashPendingCheckpoint := 0
      checkpointMessagePending := CSyncCheckpoint.null }

/-- The answer of `CheckSync` for a block, where `AcceptBlock` gets that far. -/
def SyncNode.cpSatisfies (s : SyncNode) (block : CBlock) : Exec Bool :=
  match s.mapBlockIndex block.hashPrevBlock with
  | none => .ok true
  | some pindexPrev => CheckSync env s (block.GetHash env) pindexPrev

/-- `AcceptBlock` from the first check to the pending checkpoint; what `CheckSync` answers does not
depend on the checks before it. -/
def CBlock.AcceptBlockSync (mode : CPMode) (io : SyncIo) (s : SyncNode) (block : CBlock) :
    Halt SyncNode SyncNode := do
  let cpSatisfies ← (s.cpSatisfies env block).within s
  let node ← (block.AcceptBlock env
    { io.toIo with cpSatisfies := decide (mode = .STRICT → cpSatisfies = true) } s.toNode).lift
      s.setNode
  (AcceptPendingSyncCheckpoint env io (s.setNode node)).attempt

end Dions
