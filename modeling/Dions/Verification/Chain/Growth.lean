import Dions.Verification.Chain.Forward
import Dions.Verification.Chain.Supply

/-! # Growing on the tip

What a node keeps while blocks arrive on its tip only: the pointers to the tip agree, the blocks
it knows are those that have arrived, and the index is worth no more than the outputs that these
blocks create. -/

namespace Dions

open Halting

variable {env : Env}
variable {pindex : CBlockIndex} {block : CBlock} {node : Node}
variable {files : BlockFile} {node' : Node} {K : Set uint256}

/-! ## The value of the index -/

theorem Coming.unspent_le {L : Ledger uint256 CDiskTxPos} {rest : List (CDiskTxPos × CTransaction)}
    (h : Coming env files pindex L rest) :
    Ledger.unspent (outputAt files) (Ledger.applyAll L (rest.map (txItem env))) ≤
      Ledger.unspent (outputAt files) L + (rest.map fun p => p.2.created).sum := by
  induction rest generalizing L with
  | nil => simp [Ledger.applyAll]
  | cons p rest ih =>
      have hothers := ih h.next
      have hone := Ledger.unspent_apply_le _ h.standing.finite h.standing.nonNeg (txItem env p)
      rw [makes_txItem (h.stored p (List.mem_cons_self ..))] at hone
      simp only [Ledger.applyAll, List.map_cons, List.foldl_cons, List.sum_cons] at hothers ⊢
      omega

/-- A block adds no more to the value of the index than its outputs. -/
theorem unspentValue_connectBlock_le {view : View} {T T' : TxIndexMap} {g g' : Globals}
    (hstanding : Standing files (ledgerOf T)) (hholds : files.Holds pindex block)
    (hconnect : block.ConnectBlock env view T g pindex = .ok (T', g')) :
    unspentValue files T' ≤ unspentValue files T + block.created := by
  have hle := (coming_block hstanding hholds hconnect).unspent_le
  rw [created_positions] at hle
  unfold unspentValue
  rwa [(connectBlock_ok env hconnect).2.2.2]

/-- What can be read from disk can still be read when more blocks are stored. -/
theorem Stored.readTx_write {mapBlockIndex : uint256 → Option CBlockIndex} {pos : CDiskTxPos}
    {tx : CTransaction} (h : Stored env files mapBlockIndex) (block : CBlock)
    (hread : files.readTx pos = some tx) : (files.WriteToDisk block).1.readTx pos = some tx := by
  have hlt : pos.nTxPos < files.size pos.nFile := by
    by_contra hle
    have hnone := (h.ended (pos.nFile, pos.nTxPos) (Nat.le_of_not_lt hle)).2
    rw [BlockFile.readTx, hnone] at hread
    simp at hread
  rw [← hread]
  exact writeToDisk_txs_of_lt hlt

/-- Storing more blocks leaves the value of the index as it is. -/
theorem unspentValue_store_le (block : CBlock) (hstored : Stored env node.files node.mapBlockIndex)
    (hindexed : Indexed env node.files node.mapBlockIndex node.txdb.txindex) :
    unspentValue (node.store env block).files node.txdb.txindex ≤
      unspentValue node.files node.txdb.txindex := by
  refine Ledger.unspent_mono hindexed.finite fun hash e he n => ?_
  obtain ⟨tx, hread, -⟩ := hindexed.sound hash e he
  have hsame : (node.store env block).files.readTx e.place = some tx :=
    hstored.readTx_write block hread
  rw [outputAt_of_read hread, outputAt_of_read hsame]

theorem created_nonneg {fPOW fRoot fSig : Bool} (h : block.CheckBlock env fPOW fRoot fSig = true) :
    0 ≤ block.created := by
  refine List.sum_nonneg fun v hv => ?_
  obtain ⟨tx, htx, rfl⟩ := List.mem_map.mp hv
  refine List.sum_nonneg fun w hw => ?_
  obtain ⟨txout, htxout, rfl⟩ := List.mem_map.mp hw
  exact CTransaction.CheckTransaction.outputs_nonneg ((checkBlock_transactions h).1 tx htx) txout
    htxout

/-! ## Blocks on the tip -/

/-- The pointers to the tip agree, the hashes of the known blocks and of the transactions in the
index are in `K`, and the index is worth at most `v`. -/
structure Grown (env : Env) (K : Set uint256) (v : ℤ) (node : Node) : Prop where
  reaches : Reaches env Scenario.AnyCall node
  pointer : ∃ p, node.pindexBest = some p ∧ node.hashBestChain = p.GetBlockHash
  blocks : ∀ hash, (node.mapBlockIndex hash).isSome = true → hash ∈ K
  entries : Ledger.Places (fun hash _ => hash ∈ K) (ledgerOf node.txdb.txindex)
  worth : unspentValue node.files node.txdb.txindex ≤ v

/-- What has arrived on the tip is refused, stored, or attached as the new tip. -/
theorem processBlock_tip {io : Io} (hgenesis : node.pindexGenesisBlock.isSome = true)
    (htip : block.hashPrevBlock = node.hashBestChain)
    (hok : ProcessBlock env io node block = .ok node') :
    node' = node ∨ node.mapBlockIndex (block.GetHash env) = none ∧
      (node' = node.store env block ∨ ∃ inner,
        block.SetBestChainInner env io (node.store env block) (node.entryFor env block) =
          .ok inner ∧
        node' = newBest inner (block.GetHash env) (node.entryFor env block)) := by
  simp only [ProcessBlock, seq_ok, within_eq_ok] at hok
  obtain ⟨_, -, hok⟩ := hok
  rcases acceptBlock_cases io node block with hsame | ⟨-, hnew, hstore | ⟨-, hset⟩⟩
  · rw [hok, Halt.final_ok] at hsame
    exact .inl hsame
  · rw [hok, Halt.final_ok] at hstore
    exact .inr ⟨hnew, .inl hstore⟩
  · have hnot : ¬ ((node.store env block).pindexGenesisBlock.isNone = true ∧
        block.GetHash env = env.hashGenesisBlock) := by
      rintro ⟨hnone, -⟩
      have hsame : (node.store env block).pindexGenesisBlock = node.pindexGenesisBlock := rfl
      rw [hsame] at hnone
      cases hg : node.pindexGenesisBlock <;> simp_all
    have htip' : block.hashPrevBlock = (node.store env block).hashBestChain := htip
    rw [hok] at hset
    simp only [CBlock.SetBestChain, if_neg hnot, if_pos htip'] at hset
    obtain ⟨inner, hinner, hnode'⟩ := seq_ok.mp hset.symm
    exact .inr ⟨hnew, .inr ⟨inner, hinner, (Except.ok.inj hnode').symm⟩⟩

theorem entries_connectBlock {view : View} {T T' : TxIndexMap} {g g' : Globals}
    (h : Ledger.Places (fun hash _ => hash ∈ K) (ledgerOf T))
    (htxs : ∀ tx ∈ block.vtx, tx.GetHash env ∈ K)
    (hconnect : block.ConnectBlock env view T g pindex = .ok (T', g')) :
    Ledger.Places (fun hash _ => hash ∈ K) (ledgerOf T') := by
  have hitems : ∀ i ∈ block.items env pindex, i.id ∈ K := by
    intro i hi
    have hid : i.id ∈ block.vtx.map (CTransaction.GetHash env) := by
      rw [← ids_items env block pindex]
      exact List.mem_map_of_mem hi
    obtain ⟨tx, htx, hhash⟩ := List.mem_map.mp hid
    exact hhash ▸ htxs tx htx
  rw [(connectBlock_ok env hconnect).2.2.2]
  exact Ledger.shapes_applyAll (Q := fun hash _ _ => hash ∈ K) h hitems

theorem Grown.processBlock {K' : Set uint256} {v v' : ℤ} {io : Io} (h : Grown env K v node)
    (htip : block.hashPrevBlock = node.hashBestChain) (hK : K ⊆ K') (hhash : block.GetHash env ∈ K')
    (htxs : ∀ tx ∈ block.vtx, tx.GetHash env ∈ K') (hv : v + block.created ≤ v')
    (hok : ProcessBlock env io node block = .ok node') : Grown env K' v' node' := by
  have hcheck : block.CheckBlock env true true true = true := by
    simp only [ProcessBlock, seq_ok, within_eq_ok, require_eq_ok] at hok
    obtain ⟨_, hcheck, -⟩ := hok
    exact hcheck
  have hcreated := created_nonneg hcheck
  have hworth := h.worth
  have hreaches : Reaches env Scenario.AnyCall node' := by
    have hnext : Reaches env Scenario.AnyCall (ProcessBlock env io node block).final :=
      h.reaches.processBlock fun _ => trivial
    rwa [hok, Halt.final_ok] at hnext
  obtain ⟨hstored, hindexed⟩ := h.reaches.indexed
  have hvalue := unspentValue_store_le block hstored hindexed
  have hblocks : ∀ hash, ((node.store env block).mapBlockIndex hash).isSome = true →
      hash ∈ K' := by
    intro hash hknown
    by_cases heq : hash = block.GetHash env
    · exact heq ▸ hhash
    · have hsame : (node.store env block).mapBlockIndex hash = node.mapBlockIndex hash :=
        Function.update_of_ne heq _ _
      rw [hsame] at hknown
      exact hK (h.blocks hash hknown)
  have hentries : Ledger.Places (fun hash _ => hash ∈ K') (ledgerOf node.txdb.txindex) :=
    fun hash e he => hK (h.entries hash e he)
  rcases processBlock_tip h.reaches.genesis_isSome htip hok with
    rfl | ⟨hnew, rfl | ⟨inner, hinner, rfl⟩⟩
  · exact ⟨hreaches, h.pointer, fun hash hknown => hK (h.blocks hash hknown), hentries, by omega⟩
  · refine ⟨hreaches, h.pointer, hblocks, hentries, ?_⟩
    exact le_trans hvalue (by omega)
  · have hout := setBestChainInner_outcome env io (node.store env block) (node.entryFor env block)
      block
    rw [hinner] at hout
    cases hout with
    | attached hconnect _ _ hnode' =>
        obtain ⟨pool, g, rfl⟩ := hnode'
        have hstanding : Standing (node.store env block).files (ledgerOf node.txdb.txindex) :=
          (hindexed.store hstored hnew).standing fun _ _ hread => hread
        obtain ⟨old, hholds, -⟩ := (hstored.store hnew).held _ (store_knows node block)
        have heq : old = block := Option.some.inj (hholds.stored.symm.trans (store_blocks node block))
        have hle := unspentValue_connectBlock_le hstanding (heq ▸ hholds) hconnect
        refine ⟨hreaches, ⟨_, rfl, (entryFor_hash node block).symm⟩, hblocks, ?_, ?_⟩
        · exact entries_connectBlock hentries htxs hconnect
        · refine le_trans hle ?_
          omega

/-- A transaction that the pool takes leaves the chain as it is. -/
theorem Grown.acceptToMemoryPool {v : ℤ} {io : Io} {tx : CTransaction} (h : Grown env K v node)
    (hok : AcceptToMemoryPool env io node tx = .ok node') : Grown env K v node' := by
  have hreaches : Reaches env Scenario.AnyCall node' := by
    have hnext : Reaches env Scenario.AnyCall (AcceptToMemoryPool env io node tx).final :=
      .pool h.reaches
    rwa [hok, Halt.final_ok] at hnext
  have hsame := acceptToMemoryPool_sameChain env io node tx
  rw [hok, Halt.final_ok] at hsame
  obtain ⟨pool, g, rfl⟩ := hsame
  exact ⟨hreaches, h.pointer, h.blocks, h.entries, h.worth⟩

end Dions
