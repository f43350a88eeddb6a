import Mathlib.Data.Finset.Insert
import Dions.Model.Checkpoints

/-! # Blocks that wait for their parent

`ProcessBlock` as a whole: a block whose parent is not known is held in memory, and a block that is
accepted releases those that wait for it. What the outside world answers comes with the block, for one
call of `AcceptBlock` after the other. -/

namespace Dions

open Halting Checkpoints

/-- The outpoint that a coin stake spends, and its time. -/
abbrev ProofOfStake := COutPoint × ℕ

def CBlock.GetProofOfStake (block : CBlock) : ProofOfStake :=
  if block.IsProofOfStake then
    match block.vtx[1]? with
    | some tx => ((tx.vin.head?.map CTxIn.prevout).getD COutPoint.null, tx.nTime)
    | none => (COutPoint.null, 0)
  else (COutPoint.null, 0)

/-- Both maps of orphans hold pointers to the same blocks. The second one has an entry for each block,
in the order of their arrival. -/
structure BlockNode extends SyncNode where
  setStakeSeen : Finset ProofOfStake
  mapOrphanBlocks : OrdMap uint256 CBlock
  mapOrphanBlocksByPrev : List (uint256 × CBlock)
  setStakeSeenOrphan : Finset ProofOfStake

/-- A block with the answers to the calls it causes. -/
structure BlockCall where
  block : CBlock
  /-- The outside world at each call of `AcceptBlock`. -/
  io : ℕ → SyncIo
  /-- The checkpoint of a node with the master key, for a block that came from a peer. -/
  master : Option CSyncCheckpoint

/-- The loop that releases orphans. -/
structure BlockQueue where
  node : BlockNode
  vWorkQueue : List uint256
  nCalls : ℕ

variable (env : Env) (mode : CPMode) (Verify : List UInt8 → List UInt8 → Bool)

namespace BlockNode

variable (s : BlockNode)

/-- The blocks that wait for a given one. -/
def childrenOf (hash : uint256) : List CBlock :=
  (s.mapOrphanBlocksByPrev.filter fun e => e.1 = hash).map Prod.snd

/-- The way back through the orphans; it visits each of them at most once. -/
def wantedByOrphan : (fuel : ℕ) → CBlock → uint256
  | 0, pblockOrphan => pblockOrphan.hashPrevBlock
  | fuel + 1, pblockOrphan =>
    match s.mapOrphanBlocks.find pblockOrphan.hashPrevBlock with
    | none => pblockOrphan.hashPrevBlock
    | some pblock => wantedByOrphan fuel pblock

def WantedByOrphan (pblockOrphan : CBlock) : uint256 :=
  s.wantedByOrphan s.mapOrphanBlocks.size pblockOrphan

def WantedByPendingSyncCheckpoint (hashBlock : uint256) : Bool :=
  if s.hashPendingCheckpoint = 0 then false
  else if hashBlock = s.hashPendingCheckpoint then true
  else
    match s.mapOrphanBlocks.find s.hashPendingCheckpoint with
    | none => false
    | some pblock => hashBlock == s.WantedByOrphan pblock

/-- Duplicate stake is allowed only when there is an orphan child block. -/
def duplicateStake (setStake : Finset ProofOfStake) (block : CBlock) : Bool :=
  block.IsProofOfStake && decide (block.GetProofOfStake ∈ setStake) &&
    (s.childrenOf (block.GetHash env)).isEmpty &&
    !s.WantedByPendingSyncCheckpoint (block.GetHash env)

/-- A block that is not on the tip has to be younger than the last checkpoint. -/
def beforeCheckpoint (block : CBlock) : Bool :=
  match s.mapBlockIndex s.hashSyncCheckpoint with
  | none => false
  | some pcheckpoint =>
    block.hashPrevBlock != s.hashBestChain &&
      !s.WantedByPendingSyncCheckpoint (block.GetHash env) &&
      block.GetBlockTime - pcheckpoint.GetBlockTime < -600

/-- `AddToBlockIndex` notes the proof of stake with the entry it makes. -/
def afterAccept (block : CBlock) (sync : SyncNode) : BlockNode :=
  { s with
    toSyncNode := sync
    setStakeSeen :=
      if block.IsProofOfStake ∧ (s.mapBlockIndex (block.GetHash env)).isNone ∧
          (sync.mapBlockIndex (block.GetHash env)).isSome then
        insert block.GetProofOfStake s.setStakeSeen
      else s.setStakeSeen }

def AcceptBlock (io : SyncIo) (block : CBlock) : Halt BlockNode BlockNode :=
  match block.AcceptBlockSync env mode io s.toSyncNode with
  | .ok sync => .ok (s.afterAccept env block sync)
  | .error (e, sync) => .error (e, s.afterAccept env block sync)

/-- A block is put into the holding area. -/
def hold (block : CBlock) : BlockNode :=
  { s with
    mapOrphanBlocks := s.mapOrphanBlocks.insert (block.GetHash env) block
    mapOrphanBlocksByPrev := s.mapOrphanBlocksByPrev ++ [(block.hashPrevBlock, block)]
    setStakeSeenOrphan :=
      if block.IsProofOfStake then insert block.GetProofOfStake s.setStakeSeenOrphan
      else s.setStakeSeenOrphan }

/-- What a released block leaves at once; its entry in the second map goes with those of its
siblings. -/
def release (block : CBlock) : BlockNode :=
  { s with
    mapOrphanBlocks := s.mapOrphanBlocks.erase (block.GetHash env)
    setStakeSeenOrphan := s.setStakeSeenOrphan.erase block.GetProofOfStake }

def dropChildren (hashPrev : uint256) : BlockNode :=
  { s with mapOrphanBlocksByPrev := s.mapOrphanBlocksByPrev.filter fun e => e.1 ≠ hashPrev }

def sendCheckpoint (io : SyncIo) (master : Option CSyncCheckpoint) : Halt BlockNode BlockNode :=
  match master with
  | none => .ok s
  | some checkpoint =>
    (checkpoint.ProcessSyncCheckpoint env Verify io s.toSyncNode).attempt.lift
      (fun sync => { s with toSyncNode := sync }) >>= fun sync => .ok { s with toSyncNode := sync }

end BlockNode

namespace BlockQueue

/-- A block that waits for an accepted one is tried and released. -/
def tryOrphan (io : ℕ → SyncIo) (q : BlockQueue) (pblockOrphan : CBlock) :
    Halt BlockNode BlockQueue :=
  match q.node.AcceptBlock env mode (io q.nCalls) pblockOrphan with
  | .ok s =>
    .ok ⟨s.release env pblockOrphan, q.vWorkQueue ++ [pblockOrphan.GetHash env], q.nCalls + 1⟩
  | .error (.reject, s) => .ok ⟨s.release env pblockOrphan, q.vWorkQueue, q.nCalls + 1⟩
  | .error (e, s) => .error (e, s)

def tryChildren (io : ℕ → SyncIo) : BlockQueue → List CBlock → Halt BlockNode BlockQueue
  | q, [] => .ok q
  | q, pblockOrphan :: rest => do
    let q ← q.tryOrphan env mode io pblockOrphan
    tryChildren io q rest

/-- The loop over the work queue from position `i` on. An entry is there for a released block, so the
orphans bound the number of rounds. -/
def resolve (io : ℕ → SyncIo) : (fuel i : ℕ) → BlockQueue → Halt BlockNode BlockQueue
  | 0, _, q => .error (.undefined, q.node)
  | fuel + 1, i, q =>
    match q.vWorkQueue[i]? with
    | none => .ok q
    | some hashPrev => do
      let q ← q.tryChildren env mode io (q.node.childrenOf hashPrev)
      resolve io fuel (i + 1) { q with node := q.node.dropChildren hashPrev }

end BlockQueue

namespace BlockNode

variable (s : BlockNode)

/-- The checks of `ProcessBlock` before it looks for the parent. -/
def refuses (block : CBlock) : Bool :=
  (s.mapBlockIndex (block.GetHash env)).isSome ||
    (s.mapOrphanBlocks.find (block.GetHash env)).isSome ||
    s.duplicateStake env s.setStakeSeen block || s.beforeCheckpoint env block ||
    !block.CheckBlock env true true true

/-- The orphans that wait for an accepted block are tried, and those that wait for them. -/
def releaseOrphans (call : BlockCall) : Halt BlockNode BlockQueue :=
  (BlockQueue.mk s [call.block.GetHash env] 1).resolve env mode call.io
    (s.mapOrphanBlocksByPrev.length + 2) 0

def ProcessBlock (call : BlockCall) : Halt BlockNode BlockNode :=
  if s.refuses env call.block then .error (.reject, s)
  else if (s.mapBlockIndex call.block.hashPrevBlock).isNone then
    if s.duplicateStake env s.setStakeSeenOrphan call.block then .error (.reject, s)
    else .ok (s.hold env call.block)
  else do
    let s ← s.AcceptBlock env mode (call.io 0) call.block
    let q ← s.releaseOrphans env mode call
    q.node.sendCheckpoint env Verify (call.io q.nCalls) call.master

/-- A node that has read its database holds nothing. -/
def start (sync : SyncNode) (setStakeSeen : Finset ProofOfStake) : BlockNode :=
  ⟨sync, setStakeSeen, .empty, [], ∅⟩

/-- What `ProcessBlock` returns goes into messages only. -/
def receive (call : BlockCall) : Halt BlockNode BlockNode :=
  (s.ProcessBlock env mode Verify call).attempt

end BlockNode

end Dions
