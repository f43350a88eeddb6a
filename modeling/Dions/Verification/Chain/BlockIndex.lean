import Dions.Model.Checkpoints
import Dions.Verification.Chain.Reach

/-! # What the block index keeps

A call that accepts a block changes no other entry of the block index, and a call about
checkpoints changes none. -/

namespace Dions

open Halting Checkpoints

variable {env : Env} {mode : CPMode} {Verify : List UInt8 → List UInt8 → Bool}

/-! ## Blocks -/

def SameIndex (a b : Node) : Prop := b.mapBlockIndex = a.mapBlockIndex

theorem SameIndex.trans (a b c : Node) (hab : SameIndex a b) (hbc : SameIndex b c) :
    SameIndex a c :=
  Eq.trans hbc hab

theorem setBestChainInner_sameIndex (env : Env) (io : Io) (node : Node) (pindexNew : CBlockIndex)
    (block : CBlock) : SameIndex node (block.SetBestChainInner env io node pindexNew).final := by
  have hout := setBestChainInner_outcome env io node pindexNew block
  generalize block.SetBestChainInner env io node pindexNew = r at hout ⊢
  cases hout with
  | refused _ => rfl
  | uncommitted _ _ => rfl
  | interrupted _ _ hnode' =>
    obtain ⟨_, _, rfl⟩ := hnode'
    rfl
  | attached _ _ _ hnode' =>
    obtain ⟨_, _, rfl⟩ := hnode'
    rfl

theorem reorganize_sameIndex (env : Env) (io : Io) (node : Node) (pindexNew : CBlockIndex) :
    SameIndex node (Reorganize env io node pindexNew).final := by
  have hout := reorganize_outcome env io node pindexNew
  generalize Reorganize env io node pindexNew = r at hout ⊢
  cases hout with
  | refused _ => rfl
  | failed _ _ => rfl
  | uncommitted _ _ _ => rfl
  | interrupted _ _ _ hnode' =>
    obtain ⟨_, _, rfl⟩ := hnode'
    rfl
  | reorganized _ _ _ hnode' =>
    obtain ⟨_, _, rfl⟩ := hnode'
    rfl

theorem connectPostponed_sameIndex (env : Env) (io : Io) (xs : List CBlockIndex) (node : Node) :
    SameIndex node (connectPostponed env io xs node).final := by
  induction xs generalizing node with
  | nil => rfl
  | cons pindex xs ih =>
    rw [connectPostponed]
    split
    · rfl
    · rename_i block _
      have hone := setBestChainInner_sameIndex env io node pindex block
      generalize block.SetBestChainInner env io node pindex = r at hone ⊢
      rcases r with ⟨_ | _ | _ | _, s⟩ | s
      · exact hone
      · exact hone
      · exact hone
      · exact hone
      · exact SameIndex.trans _ _ _ hone (ih s)

theorem setBestChain_sameIndex (env : Env) (io : Io) (node : Node) (pindexNew : CBlockIndex)
    (block : CBlock) : SameIndex node (block.SetBestChain env io node pindexNew).final := by
  unfold CBlock.SetBestChain
  simp only
  split
  · split
    · rfl
    · rfl
  · split
    · exact Halt.final_seq SameIndex.trans
        (setBestChainInner_sameIndex env io node pindexNew block) fun _ _ => rfl
    · split
      · rfl
      · exact Halt.final_seq SameIndex.trans (reorganize_sameIndex env io node _) fun node' _ =>
          Halt.final_seq SameIndex.trans (connectPostponed_sameIndex env io _ node') fun _ _ => rfl

/-- Only the entry of the block itself can be new. -/
theorem acceptBlock_mapBlockIndex (io : Io) (node : Node) (block : CBlock) {hash : uint256}
    (hne : hash ≠ block.GetHash env) :
    (block.AcceptBlock env io node).final.mapBlockIndex hash = node.mapBlockIndex hash := by
  have hstore : (node.store env block).mapBlockIndex hash = node.mapBlockIndex hash :=
    Function.update_of_ne hne _ _
  rcases acceptBlock_cases io node block with hsame | ⟨_, _, heq | ⟨_, hset⟩⟩
  · rw [hsame]
  · rw [heq, hstore]
  · rw [hset, setBestChain_sameIndex env io _ _ block, hstore]

/-! ## Checkpoints -/

theorem validate_index {s : SyncNode} (hash : uint256) :
    (ValidateSyncCheckpoint s hash).final.mapBlockIndex = s.mapBlockIndex := by
  unfold ValidateSyncCheckpoint
  split
  · rfl
  · rfl
  · split
    · dsimp only
      split
      · rfl
      · rfl
    · dsimp only
      split
      · rfl
      · rfl

theorem switchTo_index (env : Env) (io : SyncIo) (s : SyncNode) (pindex : CBlockIndex)
    (hash : uint256) : (switchTo env io s pindex hash).final.mapBlockIndex = s.mapBlockIndex := by
  unfold switchTo
  split
  · rfl
  · split
    · rfl
    · rename_i block _
      have hset := setBestChain_sameIndex env io.toIo s.toNode pindex block
      generalize block.SetBestChain env io.toIo s.toNode pindex = r at hset ⊢
      rcases r with ⟨_ | _ | _ | _, node⟩ | node
      · exact hset
      · exact hset
      · exact hset
      · exact hset
      · exact hset

theorem writeSyncCheckpoint_index (io : SyncIo) (s : SyncNode) (hash : uint256) :
    (WriteSyncCheckpoint io s hash).final.mapBlockIndex = s.mapBlockIndex := by
  unfold WriteSyncCheckpoint
  split
  · rfl
  · rfl

/-- What a call on checkpoints keeps. -/
def SameSyncIndex (a b : SyncNode) : Prop := SameIndex a.toNode b.toNode

theorem SameSyncIndex.trans (a b c : SyncNode) (hab : SameSyncIndex a b) (hbc : SameSyncIndex b c) :
    SameSyncIndex a c :=
  SameIndex.trans _ _ _ hab hbc

theorem acceptPending_sameIndex (env : Env) (io : SyncIo) (s : SyncNode) :
    SameSyncIndex s (AcceptPendingSyncCheckpoint env io s).final := by
  unfold AcceptPendingSyncCheckpoint
  split
  · rfl
  · split
    · rfl
    · rename_i pindex _
      have hvalid := validate_index (s := s) s.hashPendingCheckpoint
      split
      · rename_i e s' heq
        rw [heq] at hvalid
        exact hvalid
      · rename_i s' heq
        rw [heq] at hvalid
        refine SameSyncIndex.trans s s' _ hvalid ?_
        refine Halt.final_seq SameSyncIndex.trans (switchTo_index env io s' pindex _) fun s₁ _ => ?_
        exact Halt.final_seq SameSyncIndex.trans (writeSyncCheckpoint_index io s₁ _) fun _ _ => rfl

theorem processSyncCheckpoint_sameIndex (env : Env) (io : SyncIo) (s : SyncNode)
    (checkpoint : CSyncCheckpoint) :
    SameSyncIndex s (checkpoint.ProcessSyncCheckpoint env Verify io s).final := by
  unfold CSyncCheckpoint.ProcessSyncCheckpoint
  cases checkpoint.CheckSignature Verify with
  | error e => rfl
  | ok read =>
    simp only [Exec.within, bind, Except.bind]
    split
    · rfl
    · rename_i pindex _
      refine Halt.final_seq SameSyncIndex.trans (validate_index _) fun s₁ _ => ?_
      refine Halt.final_seq SameSyncIndex.trans (switchTo_index env io s₁ pindex _) fun s₂ _ => ?_
      exact Halt.final_seq SameSyncIndex.trans (writeSyncCheckpoint_index io s₂ _) fun _ _ => rfl

theorem acceptBlockSync_mapBlockIndex (io : SyncIo) (s : SyncNode) (block : CBlock) {hash : uint256}
    (hne : hash ≠ block.GetHash env) :
    (block.AcceptBlockSync env mode io s).final.mapBlockIndex hash = s.mapBlockIndex hash := by
  unfold CBlock.AcceptBlockSync
  cases s.cpSatisfies env block with
  | error e => rfl
  | ok cpSatisfies =>
    simp only [Exec.within, bind, Except.bind]
    generalize ({ io.toIo with cpSatisfies := decide (mode = .STRICT → cpSatisfies = true) } : Io) =
      ioCp
    have hnode := acceptBlock_mapBlockIndex ioCp s.toNode block hne
    cases hrun : block.AcceptBlock env ioCp s.toNode with
    | error e =>
      rw [hrun] at hnode
      exact hnode
    | ok node =>
      rw [hrun, Halt.final_ok] at hnode
      simp only [Halt.lift, Halt.final_attempt]
      have hpending := acceptPending_sameIndex env io (s.setNode node)
      exact (congrFun hpending hash).trans hnode

end Dions
