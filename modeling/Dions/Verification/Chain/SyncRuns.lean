import Dions.Verification.Chain.SyncCheckpoints

/-! # Runs with synchronized checkpoints

Blocks are accepted, checkpoint messages arrive and pending ones are tried again, in any order. -/

namespace Dions

open Halting Checkpoints

variable {s : SyncNode}
variable {block : CBlock}

/-- One call in STRICT mode, whether it succeeds or not. -/
inductive SyncStep (env : Env) (Verify : List UInt8 → List UInt8 → Bool) :
    SyncNode → SyncNode → Prop where
  | acceptBlock (io : SyncIo) (s : SyncNode) (block : CBlock)
      (hmade : AcceptMade env io s block) :
      SyncStep env Verify s (block.AcceptBlockSync env .STRICT io s).final
  | process (io : SyncIo) (s : SyncNode) (checkpoint : CSyncCheckpoint)
      (hmade : ∀ read, checkpoint.CheckSignature Verify = .ok read →
        SwitchMade env io s read.hashCheckpoint) :
      SyncStep env Verify s (checkpoint.ProcessSyncCheckpoint env Verify io s).final
  | acceptPending (io : SyncIo) (s : SyncNode)
      (hmade : SwitchMade env io s s.hashPendingCheckpoint) :
      SyncStep env Verify s (AcceptPendingSyncCheckpoint env io s).final

/-- A fresh node: the genesis block is loaded, and is the checkpoint. A checkpoint may be pending. -/
structure SyncStart (env : Env) (s : SyncNode) : Prop where
  loaded : ∃ io block, block.GetHash env = env.hashGenesisBlock ∧
    LoadGenesis env io block = .ok s.toNode ∧ s.pindexBest.isSome = true
  current : s.hashSyncCheckpoint = env.hashGenesisBlock
  stored : s.stored = env.hashGenesisBlock

variable {env : Env} {Verify : List UInt8 → List UInt8 → Bool}

theorem SyncStart.syncOk (h : SyncStart env s) : SyncOk env s := by
  obtain ⟨io, block, hhash, hload, hbest⟩ := h.loaded
  have hat := bestAt_genesis hhash hload hbest
  have hname : (Node.empty.entryFor env block).GetBlockHash = env.hashGenesisBlock := by
    rw [entryFor_hash, hhash]
  refine ⟨hat.stored, hat.genesis, h.stored.trans h.current.symm,
    Node.empty.entryFor env block, ?_, ?_⟩
  · rw [SyncNode.Checkpoint, h.current, ← hname]
    exact hat.known
  · rw [Node.IsInMainChain, hat.pointer]
    simp

theorem SyncStep.safe {s' : SyncNode} (hmain : env.fTestNet = false) (h : SyncStep env Verify s s') :
    SyncSafe env s s' := by
  cases h with
  | acceptBlock io s block hmade => exact acceptBlockSync_safe hmain hmade
  | process io s checkpoint hmade => exact processSyncCheckpoint_safe hmade
  | acceptPending io s hmade => exact acceptPending_safe hmade

theorem syncRun_safe {s' : SyncNode} (hmain : env.fTestNet = false)
    (h : Relation.ReflTransGen (SyncStep env Verify) s s') : SyncSafe env s s' := by
  induction h with
  | refl => exact SyncSafe.refl
  | tail _ hstep ih => exact ih.trans (hstep.safe hmain)

/-- On the main network the checkpoint is stored, known and in the main chain after every run. What
happens between two states of a run moves it up the tree if at all, and every entry that is new in
the block index descends from it. -/
theorem sync_checkpoint_binds {s₀ s s' : SyncNode} (hmain : env.fTestNet = false)
    (hstart : SyncStart env s₀) (hs : Relation.ReflTransGen (SyncStep env Verify) s₀ s)
    (hrun : Relation.ReflTransGen (SyncStep env Verify) s s') :
    s'.stored = s'.hashSyncCheckpoint ∧
      ∃ c c', s.Checkpoint c ∧ s'.Checkpoint c' ∧ s'.IsInMainChain c' = true ∧ c ∈ c'.line ∧
        (s'.hashSyncCheckpoint ≠ s.hashSyncCheckpoint → c ≠ c') ∧
        ∀ pindex, s'.Knows pindex → ¬ s.Knows pindex → c ∈ pindex.line ∧ pindex ≠ c := by
  have hok : SyncOk env s := (syncRun_safe hmain hs hstart.syncOk).1
  obtain ⟨hafter, hadv⟩ := syncRun_safe hmain hrun hok
  obtain ⟨c, hc, -⟩ := hok.current
  obtain ⟨c', hc', hline, hnew⟩ := hadv.bound c hc
  obtain ⟨d, hd, hin⟩ := hafter.current
  have hsame : d = c' := Option.some.inj (hd.symm.trans hc')
  subst hsame
  refine ⟨hafter.equal, c, d, hc, hd, hin, hline, ?_, hnew⟩
  rintro hchanged rfl
  exact hchanged ((hafter.index.named _ _ hd).symm.trans (hok.index.named _ _ hc))

/-! ## Two networks -/

namespace Scenario

def syncIo : SyncIo := { io with checkpointCommitFails := false }

def syncNode (params : ChainParams) (node : Node) : SyncNode :=
  { node with
    hashSyncCheckpoint := params.hashGenesisBlock
    hashPendingCheckpoint := 0
    checkpointMessage := CSyncCheckpoint.null
    checkpointMessagePending := CSyncCheckpoint.null
    hashInvalidCheckpoint := 0
    stored := params.hashGenesisBlock }

def checkpointFor (hash : uint256) : CSyncCheckpoint :=
  { CSyncCheckpoint.null with vchMsg := CUnsignedSyncCheckpoint.wire.serialize ⟨1, hash⟩ }

/-- Every signature is good. -/
def signed (_ _ : List UInt8) : Bool := true

def syncBlock (e : Env) (s : SyncNode) (m : Mining) : CBlock :=
  match s.mapBlockIndex m.hashPrev with
  | none => genesisBlock
  | some pprev =>
    { blockOn e pprev m.nTime
        (coinbase (pprev.nHeight + 1) (m.nTime - 1) m.nVersion m.reward :: m.txs) with
      nVersion := 6 }

inductive SyncCall where
  | accept (m : Mining)
  | process (hash : uint256)

def SyncCall.run (e : Env) (s : SyncNode) : SyncCall → SyncNode
  | .accept m => ((syncBlock e s m).AcceptBlockSync e .STRICT syncIo s).final
  | .process hash => ((checkpointFor hash).ProcessSyncCheckpoint e signed syncIo s).final

def madeMain (e : Env) (io : Io) (node : Node) (pindex : CBlockIndex) (block : CBlock) : Bool :=
  match block.SetBestChain e io node pindex with
  | .error _ => true
  | .ok node' => pindex.line.all node'.IsInMainChain

def switchMade (e : Env) (s : SyncNode) (hash : uint256) : Bool :=
  match s.mapBlockIndex hash with
  | none => true
  | some pindex =>
    match (syncIo.visible s.files).ReadFromDisk e pindex with
    | none => true
    | some block => madeMain e syncIo.toIo s.toNode pindex block

def acceptMade (e : Env) (s : SyncNode) (block : CBlock) (cpSatisfies : Bool) : Bool :=
  madeMain e { syncIo.toIo with cpSatisfies := cpSatisfies } (s.toNode.store e block)
    (s.toNode.entryFor e block) block &&
  match block.AcceptBlock e { syncIo.toIo with cpSatisfies := cpSatisfies } s.toNode with
  | .error _ => true
  | .ok node => switchMade e (s.setNode node) s.hashPendingCheckpoint

/-- Whether what is given of `SetBestChain` holds in a call. -/
def SyncCall.made (e : Env) (s : SyncNode) : SyncCall → Bool
  | .accept m => acceptMade e s (syncBlock e s m) true && acceptMade e s (syncBlock e s m) false
  | .process hash =>
    match (checkpointFor hash).CheckSignature signed with
    | .error _ => true
    | .ok checkpoint => switchMade e s checkpoint.hashCheckpoint

def allMade (e : Env) : SyncNode → List SyncCall → Bool
  | _, [] => true
  | s, call :: calls => call.made e s && allMade e (call.run e s) calls

variable {e : Env}

theorem madeMain_holds {io : Io} {node : Node} {pindex : CBlockIndex}
    (h : madeMain e io node pindex block = true) : MadeMain e io node pindex block := by
  intro node' hrun
  rw [madeMain, hrun] at h
  exact List.all_eq_true.mp h

theorem switchMade_holds {hash : uint256} (h : switchMade e s hash = true) :
    SwitchMade e syncIo s hash := by
  intro pindex block hp hread
  rw [switchMade, hp] at h
  simp only [hread] at h
  exact madeMain_holds h

theorem acceptMade_holds (h : ∀ cpSatisfies, acceptMade e s block cpSatisfies = true) :
    AcceptMade e syncIo s block := by
  simp only [acceptMade, Bool.and_eq_true] at h
  refine ⟨fun cpSatisfies => madeMain_holds (h cpSatisfies).1, ?_⟩
  intro cpSatisfies node hrun
  have hpending := (h cpSatisfies).2
  rw [hrun] at hpending
  exact switchMade_holds hpending

theorem SyncCall.step {s : SyncNode} {call : SyncCall} (h : call.made e s = true) :
    SyncStep e signed s (call.run e s) := by
  cases call with
  | accept m =>
      rw [SyncCall.made, Bool.and_eq_true] at h
      refine .acceptBlock syncIo s _ (acceptMade_holds ?_)
      intro cpSatisfies
      cases cpSatisfies
      · exact h.2
      · exact h.1
  | process hash =>
      refine .process syncIo s _ ?_
      intro checkpoint hsigned
      rw [SyncCall.made, hsigned] at h
      exact switchMade_holds h

theorem syncCalls_run {calls : List SyncCall} (h : allMade e s calls = true) :
    Relation.ReflTransGen (SyncStep e signed) s (calls.foldl (SyncCall.run e) s) := by
  induction calls generalizing s with
  | nil => exact .refl
  | cons call calls ih =>
      rw [allMade, Bool.and_eq_true] at h
      exact .head (SyncCall.step h.1) (ih h.2)

theorem syncNode_start {params : ChainParams} {node : Node}
    (h : LoadGenesis (timed params) io genesisBlock = .ok node)
    (hbest : node.pindexBest.isSome = true) : SyncStart (timed params) (syncNode params node) where
  loaded := ⟨io, genesisBlock, rfl, h, hbest⟩
  current := rfl
  stored := rfl

/-- A block at time `nTime` whose coinbase takes the full reward. -/
def paid (hashPrev : uint256) (nTime : ℕ) : Mining :=
  ⟨hashPrev, nTime, 1, [payTo (625 * COIN)], []⟩

/-- The first block is accepted and becomes the checkpoint. -/
def firstCheckpoint (params : ChainParams) : List SyncCall :=
  [.accept (paid params.hashGenesisBlock 1000), .process 1000]

/-- Two blocks on top of the genesis block, beside the first one. -/
def besideCheckpoint (params : ChainParams) : List SyncCall :=
  [.accept (paid params.hashGenesisBlock 2000), .accept (paid 2000 3000)]

end Scenario

open Scenario

theorem sync_checkpoint_binds_message : ∃ s₀ s : SyncNode,
    SyncStart (timed mainNet) s₀ ∧
      Relation.ReflTransGen (SyncStep (timed mainNet) signed) s₀ s ∧
      s.hashSyncCheckpoint ≠ s₀.hashSyncCheckpoint ∧ s.stored = s.hashSyncCheckpoint ∧
      ∃ c c', s₀.Checkpoint c ∧ s.Checkpoint c' ∧ c ∈ c'.line ∧ c ≠ c' := by
  have htest : (match LoadGenesis (timed mainNet) io genesisBlock with
      | .error _ => false
      | .ok node =>
        let s := (firstCheckpoint mainNet).foldl (SyncCall.run (timed mainNet))
          (syncNode mainNet node)
        node.pindexBest.isSome &&
          allMade (timed mainNet) (syncNode mainNet node) (firstCheckpoint mainNet) &&
          s.hashSyncCheckpoint != mainNet.hashGenesisBlock) = true := by
    decide +kernel
  split at htest
  next => cases htest
  next node hload =>
    simp only [Bool.and_eq_true, bne_iff_ne] at htest
    obtain ⟨⟨hbest, hmade⟩, hchanged⟩ := htest
    have hstart := syncNode_start hload hbest
    have hrun := syncCalls_run hmade
    have hbinds := sync_checkpoint_binds rfl hstart .refl hrun
    obtain ⟨hequal, c, c', hc, hc', -, hline, hne, -⟩ := hbinds
    exact ⟨_, _, hstart, hrun, hchanged, hequal, c, c', hc, hc', hline, hne hchanged⟩

def besideMade : Bool :=
  match LoadGenesis (timed testNet) io genesisBlock with
  | .error _ => false
  | .ok node =>
    let s := (firstCheckpoint testNet).foldl (SyncCall.run (timed testNet))
      (syncNode testNet node)
    let s' := (besideCheckpoint testNet).foldl (SyncCall.run (timed testNet)) s
    match s.mapBlockIndex s.hashSyncCheckpoint, s'.mapBlockIndex 3000 with
    | some c, some pindex =>
      node.pindexBest.isSome &&
        allMade (timed testNet) (syncNode testNet node) (firstCheckpoint testNet) &&
        allMade (timed testNet) s (besideCheckpoint testNet) &&
        decide (s'.mapBlockIndex s'.hashSyncCheckpoint = some c ∧
          s'.IsInMainChain c = false ∧ s'.mapBlockIndex pindex.GetBlockHash = some pindex ∧
          s.mapBlockIndex pindex.GetBlockHash ≠ some pindex ∧ c.nHeight < pindex.nHeight ∧
          c ∉ pindex.line)
    | _, _ => false

/-- `CheckSync` lets everything pass on the test network: with the first block as the checkpoint,
two blocks beside it are indexed and become the main chain. -/
theorem test_network_leaves_checkpoint : ∃ (s₀ s s' : SyncNode) (c pindex : CBlockIndex),
    SyncStart (timed testNet) s₀ ∧
      Relation.ReflTransGen (SyncStep (timed testNet) signed) s₀ s ∧
      Relation.ReflTransGen (SyncStep (timed testNet) signed) s s' ∧
      s.Checkpoint c ∧ s'.Checkpoint c ∧ s'.IsInMainChain c = false ∧
      s'.Knows pindex ∧ ¬ s.Knows pindex ∧ c.nHeight < pindex.nHeight ∧ c ∉ pindex.line := by
  have htest : besideMade = true := by decide +kernel
  unfold besideMade at htest
  split at htest
  next => cases htest
  next node hload =>
    simp only at htest
    split at htest
    next c pindex hc hpindex =>
      simp only [Bool.and_eq_true, decide_eq_true_eq] at htest
      obtain ⟨⟨⟨hbest, hmade⟩, hmade'⟩, hcheckpoint, hmain, hknows, hnew, hheight, hline⟩ := htest
      exact ⟨_, _, _, c, pindex, syncNode_start hload hbest, syncCalls_run hmade,
        syncCalls_run hmade', hc, hcheckpoint, hmain, hknows, hnew, hheight, hline⟩
    next => cases htest

end Dions
