import Dions.Verification.Chain.Calls
import Dions.Verification.Scenario

/-! # Reachable nodes

A node starts from the genesis block. Blocks with a known parent are then stored, `SetBestChain`
is called for stored blocks, and transactions come to the memory pool, in any order. Accepting
blocks one after the other is one way to go through these steps. -/

namespace Dions

open Halting

variable (env : Env)
variable {C : Io → Node → CBlockIndex → CBlock → Prop} {node : Node} {block : CBlock}
variable {node' : Node}

/-- The entry that a block gets when it is written to disk now. -/
def Node.entryFor (node : Node) (block : CBlock) : CBlockIndex :=
  block.newIndex env (node.files.WriteToDisk block).2.1 (node.files.WriteToDisk block).2.2
    (node.mapBlockIndex block.hashPrevBlock)

/-- The node with the block on disk and its entry in the block index. -/
def Node.store (node : Node) (block : CBlock) : Node :=
  { node with
    files := (node.files.WriteToDisk block).1
    mapBlockIndex := Function.update node.mapBlockIndex (block.GetHash env)
      (some (node.entryFor env block)) }

/-- The nodes that runs reach in which every call of `SetBestChain` meets `C`. -/
inductive Reaches (C : Io → Node → CBlockIndex → CBlock → Prop) : Node → Prop
  | genesis {io : Io} {block : CBlock} {node : Node}
      (hhash : block.GetHash env = env.hashGenesisBlock)
      (hplain : ∀ tx ∈ block.vtx, tx.nVersion ≠ CTransaction.DION_TX_VERSION)
      (hload : LoadGenesis env io block = .ok node) (hbest : node.pindexBest.isSome = true) :
      Reaches C node
  | store {node : Node} {block : CBlock} (hnode : Reaches C node)
      (hprev : (node.mapBlockIndex block.hashPrevBlock).isSome = true)
      (hnew : node.mapBlockIndex (block.GetHash env) = none) : Reaches C (node.store env block)
  | setBestChain {io : Io} {node : Node} {pindexNew : CBlockIndex} {block : CBlock}
      (hnode : Reaches C node) (hknown : node.Knows pindexNew)
      (hprev : (CBlockIndex.pprev pindexNew).isSome = true)
      (hblock : node.files.blocks (pindexNew.nFile, pindexNew.nBlockPos) = some block)
      (hcall : C io node pindexNew block) :
      Reaches C (block.SetBestChain env io node pindexNew).final
  | pool {io : Io} {node : Node} {tx : CTransaction} (hnode : Reaches C node) :
      Reaches C (AcceptToMemoryPool env io node tx).final

variable {env}

theorem Reaches.mono {D : Io → Node → CBlockIndex → CBlock → Prop} (h : Reaches env C node)
    (hCD : ∀ io node pindex block, C io node pindex block →
      D io node pindex block) : Reaches env D node := by
  induction h with
  | genesis hhash hplain hload hbest => exact .genesis hhash hplain hload hbest
  | store _ hprev hnew ih => exact .store ih hprev hnew
  | setBestChain _ hknown hprev hblock hcall ih =>
      exact .setBestChain ih hknown hprev hblock (hCD _ _ _ _ hcall)
  | pool _ ih => exact .pool ih

/-! ## Accepting a block -/

theorem entryFor_hash (node : Node) (block : CBlock) :
    (node.entryFor env block).GetBlockHash = block.GetHash env := by
  unfold Node.entryFor CBlock.newIndex
  split <;> rfl

theorem entryFor_place (node : Node) (block : CBlock) :
    ((node.entryFor env block).nFile, (node.entryFor env block).nBlockPos) =
      (node.files.WriteToDisk block).2 := by
  unfold Node.entryFor CBlock.newIndex
  split <;> rfl

theorem entryFor_pprev (node : Node) (block : CBlock) :
    CBlockIndex.pprev (node.entryFor env block) = node.mapBlockIndex block.hashPrevBlock := by
  unfold Node.entryFor CBlock.newIndex
  split
  · rename_i h
    rw [h]
    rfl
  · rename_i p h
    rw [h]
    rfl

theorem store_knows (node : Node) (block : CBlock) :
    (node.store env block).Knows (node.entryFor env block) := by
  rw [Node.Knows, KnownIn, entryFor_hash]
  exact Function.update_self _ _ _

theorem store_blocks (node : Node) (block : CBlock) :
    (node.store env block).files.blocks
      ((node.entryFor env block).nFile, (node.entryFor env block).nBlockPos) = some block := by
  rw [entryFor_place]
  exact Function.update_self _ _ _

theorem stored_empty (env : Env) : Stored env BlockFile.empty (fun _ => none) :=
  ⟨by simp, by simp [KnownIn], by simp [BlockFile.empty]⟩

theorem Stored.store (h : Stored env node.files node.mapBlockIndex)
    (hnew : node.mapBlockIndex (block.GetHash env) = none) :
    Stored env (node.store env block).files (node.store env block).mapBlockIndex :=
  h.write env hnew

theorem Stored.holds_store (h : Stored env node.files node.mapBlockIndex)
    (hnew : node.mapBlockIndex (block.GetHash env) = none) :
    (node.store env block).files.Holds (node.entryFor env block) block := by
  obtain ⟨old, hholds, -⟩ := (h.store hnew).held _ (store_knows node block)
  have heq : old = block := Option.some.inj (hholds.stored.symm.trans (store_blocks node block))
  exact heq ▸ hholds

theorem Node.Knows.store {pindex : CBlockIndex} (h : node.Knows pindex)
    (hnew : node.mapBlockIndex (block.GetHash env) = none) :
    (node.store env block).Knows pindex := by
  have hknown : node.mapBlockIndex pindex.GetBlockHash = some pindex := h
  have hne : pindex.GetBlockHash ≠ block.GetHash env := by
    intro he
    rw [he, hnew] at hknown
    simp at hknown
  exact (Function.update_of_ne hne _ _).trans hknown

/-- A new block with a known parent is written and added to the index if it passes the checks, and is
refused before anything changes otherwise. -/
theorem acceptBlock_known {io : Io} {pindexPrev : CBlockIndex}
    (hversion : block.nVersion ≤ CBlock.CURRENT_VERSION)
    (hnew : node.mapBlockIndex (block.GetHash env) = none)
    (hprev : node.mapBlockIndex block.hashPrevBlock = some pindexPrev) :
    block.AcceptBlock env io node =
      match acceptBlockChecks env io node pindexPrev block with
      | .error e => .error (e, node)
      | .ok () => block.AddToBlockIndex env io
          { node with files := (node.files.WriteToDisk block).1 }
          (node.files.WriteToDisk block).2.1 (node.files.WriteToDisk block).2.2 := by
  simp only [CBlock.AcceptBlock, require, if_pos (Or.inr hversion), hnew, Option.isNone_none,
    if_true, hprev, Exec.within, bind, Except.bind]
  cases acceptBlockChecks env io node pindexPrev block with
  | error e => rfl
  | ok u => rfl

/-- A block is refused before anything changes, is stored, or is stored and tried as the tip. -/
theorem acceptBlock_cases (io : Io) (node : Node) (block : CBlock) :
    (block.AcceptBlock env io node).final = node ∨
      ((node.mapBlockIndex block.hashPrevBlock).isSome = true ∧
        node.mapBlockIndex (block.GetHash env) = none ∧
        ((block.AcceptBlock env io node).final = node.store env block ∨
          (node.nBestChainTrust < (node.entryFor env block).nChainTrust ∧
            block.AcceptBlock env io node =
              block.SetBestChain env io (node.store env block) (node.entryFor env block)))) := by
  generalize hr : block.AcceptBlock env io node = r
  unfold CBlock.AcceptBlock at hr
  simp only [require, bind, Except.bind] at hr
  split at hr
  · rename_i e he
    split at he
    · simp [Exec.within] at he
    · simp only [Exec.within, Except.error.injEq] at he
      exact .inl (by rw [← hr, ← he, Halt.final_error])
  split at hr
  · rename_i e he
    split at he
    · simp [Exec.within] at he
    · simp only [Exec.within, Except.error.injEq] at he
      exact .inl (by rw [← hr, ← he, Halt.final_error])
  rename_i hnone
  have hnew : node.mapBlockIndex (block.GetHash env) = none := by
    split at hnone
    · rename_i hnew
      simpa using hnew
    · simp [Exec.within] at hnone
  split at hr
  · exact .inl (by rw [← hr, Halt.final_error])
  rename_i pindexPrev hprev
  cases hchecks : acceptBlockChecks env io node pindexPrev block with
  | error e =>
      rw [hchecks] at hr
      exact .inl (by rw [← hr]; rfl)
  | ok u =>
      rw [hchecks] at hr
      simp only [Exec.within] at hr
      refine .inr ⟨by simp [hprev], hnew, ?_⟩
      unfold CBlock.AddToBlockIndex at hr
      simp only [hnew, Option.isSome_none, Bool.false_eq_true, if_false] at hr
      split at hr
      · exact .inl (by rw [← hr]; rfl)
      · split at hr
        · rename_i htrust
          exact .inr ⟨htrust, hr.symm⟩
        · exact .inl (by rw [← hr]; rfl)

/-- Accepting blocks stays within the reachable nodes. -/
theorem Reaches.acceptBlock (h : Reaches env C node) {io : Io} {block : CBlock}
    (hcall : node.nBestChainTrust < (node.entryFor env block).nChainTrust →
      C io (node.store env block) (node.entryFor env block) block) :
    Reaches env C (block.AcceptBlock env io node).final := by
  rcases acceptBlock_cases io node block with hsame | ⟨hprev, hnew, hstore | ⟨htrust, hset⟩⟩
  · rwa [hsame]
  · rw [hstore]
    exact .store h hprev hnew
  · rw [hset]
    refine .setBestChain (.store h hprev hnew) (store_knows node block) ?_ (store_blocks node block)
      (hcall htrust)
    rwa [entryFor_pprev]

theorem Reaches.processBlock (h : Reaches env C node) {io : Io} {block : CBlock}
    (hcall : node.nBestChainTrust < (node.entryFor env block).nChainTrust →
      C io (node.store env block) (node.entryFor env block) block) :
    Reaches env C (ProcessBlock env io node block).final := by
  unfold ProcessBlock require
  split
  · exact h.acceptBlock hcall
  · exact h

/-! ## The genesis block -/

theorem loadGenesis_ok {io : Io} (hhash : block.GetHash env = env.hashGenesisBlock)
    (hload : LoadGenesis env io block = .ok node) (hbest : node.pindexBest.isSome = true) :
    node = newBest { Node.empty.store env block with
        txdb := ⟨fun _ => none, some (block.GetHash env)⟩
        pindexGenesisBlock := some (Node.empty.entryFor env block) }
      (block.GetHash env) (Node.empty.entryFor env block) := by
  have hadd : LoadGenesis env io block =
      if io.indexCommitFails then .error (.reject, Node.empty.store env block)
      else if 0 < (Node.empty.entryFor env block).nChainTrust then
        block.SetBestChain env io (Node.empty.store env block) (Node.empty.entryFor env block)
      else .ok (Node.empty.store env block) := rfl
  rw [hadd] at hload
  split at hload
  · simp at hload
  · split at hload
    · unfold CBlock.SetBestChain at hload
      rw [if_pos ⟨rfl, hhash⟩] at hload
      split at hload
      · simp at hload
      · exact (Except.ok.inj hload).symm
    · rw [← Except.ok.inj hload] at hbest
      simp [Node.store, Node.empty] at hbest

theorem kept_genesis (io : Io) (pindexNew : CBlockIndex) :
    Kept env io pindexNew fun node => node.pindexGenesisBlock.isSome = true where
  sameChain := by
    rintro a b ha ⟨pool, g, rfl⟩
    exact ha
  attach := fun _ _ _ _ _ _ ha _ _ _ => ha
  switch := fun _ _ _ _ _ _ _ _ _ ha _ _ _ => ha
  newBest := fun _ _ ha => ha

theorem Reaches.genesis_isSome (h : Reaches env C node) :
    node.pindexGenesisBlock.isSome = true := by
  induction h with
  | genesis hhash _ hload hbest =>
      rw [loadGenesis_ok hhash hload hbest]
      rfl
  | store _ _ _ ih => exact ih
  | setBestChain _ _ _ hblock _ ih =>
      exact (kept_genesis _ _).setBestChain ih ih hblock
  | pool _ ih =>
      obtain ⟨pool, g, hsame⟩ := acceptToMemoryPool_sameChain env _ _ _
      rw [hsame]
      exact ih

/-! ## The small networks -/

namespace Scenario

def AnyCall (_ : Io) (_ : Node) (_ : CBlockIndex) (_ : CBlock) : Prop := True

theorem genesis_plain : ∀ tx ∈ genesisBlock.vtx, tx.nVersion ≠ CTransaction.DION_TX_VERSION := by
  simp [genesisBlock]

theorem loadGenesis_reaches (h : LoadGenesis (timed testNet) io genesisBlock = .ok node) :
    Reaches (timed testNet) C node := by
  have htest : (match LoadGenesis (timed testNet) io genesisBlock with
      | .error _ => false
      | .ok node => node.pindexBest.isSome) = true := by
    decide
  rw [h] at htest
  exact .genesis (by decide) genesis_plain h htest

theorem mine_reaches {io : Io} {m : Mining} (h : Reaches (timed testNet) AnyCall node) :
    Reaches (timed testNet) AnyCall (mine (timed testNet) io node m).final := by
  unfold mine
  split
  · exact h
  · exact h.processBlock fun _ => trivial

theorem mine_final_reaches {io : Io} {m : Mining}
    (hmine : mine (timed testNet) io node m = .ok node') (h : Reaches (timed testNet) AnyCall node) :
    Reaches (timed testNet) AnyCall node' := by
  have hnext : Reaches (timed testNet) AnyCall (mine (timed testNet) io node m).final :=
    mine_reaches h
  rwa [hmine] at hnext

theorem mineAll_reaches {io : Io} {ms : List Mining} (h : Reaches (timed testNet) AnyCall node)
    (hmine : mineAll (timed testNet) io node ms = .ok node') :
    Reaches (timed testNet) AnyCall node' := by
  induction ms generalizing node with
  | nil =>
      rw [mineAll, List.foldlM_nil] at hmine
      exact Except.ok.inj hmine ▸ h
  | cons m ms ih =>
      rw [mineAll, List.foldlM_cons, seq_ok] at hmine
      obtain ⟨node₁, hone, hrest⟩ := hmine
      exact ih (mine_final_reaches hone h) hrest

theorem afterBlocks_reaches {ms : List Mining} (h : afterBlocks ms = .ok node) :
    Reaches (timed testNet) AnyCall node := by
  rw [afterBlocks, seq_ok] at h
  obtain ⟨node₀, hload, hmine⟩ := h
  exact mineAll_reaches (loadGenesis_reaches hload) hmine

theorem store_reaches (h : Reaches (timed testNet) AnyCall node)
    (hnew : ((node.mapBlockIndex block.hashPrevBlock).isSome &&
      (node.mapBlockIndex (block.GetHash (timed testNet))).isNone) = true) :
    Reaches (timed testNet) AnyCall (node.store (timed testNet) block) := by
  rw [Bool.and_eq_true, Option.isNone_iff_eq_none] at hnew
  exact .store h hnew.1 hnew.2

end Scenario

end Dions
