import Dions.Library.LedgerValue
import Dions.Verification.Chain.BestChain

/-! # Index entries lead to their transactions

In every state of every run, also between the steps of one call, an entry of the transaction index
stands for a transaction of a stored block that passed its checks, with one slot for each output.
This needs no condition on the calls: connecting adds stored transactions, and disconnecting only
removes. -/

namespace Dions

open Halting

variable (env : Env)
variable {files : BlockFile} {mapBlockIndex : uint256 → Option CBlockIndex} {pindex : CBlockIndex}
  {block : CBlock} {node : Node} {C : Io → Node → CBlockIndex → CBlock → Prop}

/-- The transaction stored at the place of an entry has the hash of the entry. -/
def Sound (files : BlockFile) (txdb : TxIndexMap) : Prop :=
  Ledger.Places (fun hash pos => ∃ tx, files.readTx pos = some tx ∧ tx.GetHash env = hash)
    (ledgerOf txdb)

/-- What an entry of the index stands for: a transaction of a block that is known and stored, and
that passed the checks which need no context. -/
structure Home (files : BlockFile) (mapBlockIndex : uint256 → Option CBlockIndex)
    (hash : uint256) (pos : CDiskTxPos) (outs : ℕ) (pindex : CBlockIndex) (block : CBlock)
    (tx : CTransaction) : Prop where
  known : KnownIn mapBlockIndex pindex
  holds : files.Holds pindex block
  checked : block.CheckBlock env true true false = true
  placed : (pos, tx) ∈ block.positions pindex
  named : tx.GetHash env = hash
  outputs : tx.vout.length = outs

def Housed (files : BlockFile) (mapBlockIndex : uint256 → Option CBlockIndex) (hash : uint256)
    (pos : CDiskTxPos) (outs : ℕ) : Prop :=
  ∃ pindex block tx, Home env files mapBlockIndex hash pos outs pindex block tx

/-- The index has finitely many entries, and all of them are housed. -/
structure Indexed (files : BlockFile) (mapBlockIndex : uint256 → Option CBlockIndex)
    (txdb : TxIndexMap) : Prop where
  housed : Ledger.Shapes (Housed env files mapBlockIndex) (ledgerOf txdb)
  finite : Ledger.FiniteEntries (ledgerOf txdb)

variable {env}

theorem Home.read {hash : uint256} {pos : CDiskTxPos} {outs : ℕ} {tx : CTransaction}
    (h : Home env files mapBlockIndex hash pos outs pindex block tx) :
    files.readTx pos = some tx := h.holds.txs (pos, tx) h.placed

theorem Indexed.sound {txdb : TxIndexMap} (h : Indexed env files mapBlockIndex txdb) :
    Sound env files txdb := by
  intro hash e he
  obtain ⟨pindex, block, tx, home⟩ := h.housed hash e he
  exact ⟨tx, home.read, home.named⟩

theorem indexed_empty (files : BlockFile) (mapBlockIndex : uint256 → Option CBlockIndex) :
    Indexed env files mapBlockIndex fun _ => none := by
  refine ⟨fun hash e he => ?_, ?_⟩
  · simp [ledgerOf] at he
  · simp [Ledger.FiniteEntries, ledgerOf]

/-! ## Connecting and disconnecting -/

theorem housed_items (hknown : KnownIn mapBlockIndex pindex) (hholds : files.Holds pindex block)
    (hcheck : block.CheckBlock env true true false = true) :
    ∀ i ∈ block.items env pindex, Housed env files mapBlockIndex i.id i.place i.outs := by
  intro i hi
  obtain ⟨p, hp, rfl⟩ := List.mem_map.mp hi
  exact ⟨pindex, block, p.2, hknown, hholds, hcheck, hp, rfl, rfl⟩

theorem Indexed.connectBlock {files : BlockFile}
    {mapBlockIndex : uint256 → Option CBlockIndex} {view : View} {T T' : TxIndexMap}
    {g g' : Globals} {pindex : CBlockIndex} {block : CBlock}
    (h : Indexed env files mapBlockIndex T) (hknown : KnownIn mapBlockIndex pindex)
    (hholds : files.Holds pindex block)
    (hconnect : block.ConnectBlock env view T g pindex = .ok (T', g')) :
    Indexed env files mapBlockIndex T' := by
  obtain ⟨hcheck, -, -, hT'⟩ := connectBlock_ok env hconnect
  constructor
  · rw [hT']
    exact Ledger.shapes_applyAll h.housed (housed_items hknown hholds hcheck)
  · rw [hT']
    exact h.finite.applyAll _

theorem Indexed.disconnectBranch {files' : BlockFile} {xs : List CBlockIndex} {T T' : TxIndexMap}
    {vResurrect vResurrect' : List CTransaction} (h : Indexed env files mapBlockIndex T)
    (hdis : disconnectBranch env files' xs T vResurrect = some (T', vResurrect')) :
    Indexed env files mapBlockIndex T' := by
  induction xs generalizing T vResurrect with
  | nil =>
      simp only [Dions.disconnectBranch, Option.some.injEq, Prod.mk.injEq] at hdis
      exact hdis.1 ▸ h
  | cons pindex xs ih =>
      rw [Dions.disconnectBranch] at hdis
      split at hdis
      · simp at hdis
      · split at hdis
        · simp at hdis
        · rename_i T₁ hdisconnect
          rw [disconnectBlock_eq_some_iff env pindex] at hdisconnect
          exact ih ⟨Ledger.shapes_undoAll h.housed hdisconnect, h.finite.undoAll hdisconnect⟩ hdis

theorem Indexed.connectBranch {io : Io} {xs : List CBlockIndex} {T T' : TxIndexMap} {g g' : Globals}
    {vDelete vDelete' : List CTransaction} (h : Indexed env node.files node.mapBlockIndex T)
    (hstored : Stored env node.files node.mapBlockIndex) (hknown : ∀ pindex ∈ xs, node.Knows pindex)
    (hconnect : connectBranch env (node.view io) xs T g vDelete = .ok (T', g', vDelete')) :
    Indexed env node.files node.mapBlockIndex T' := by
  induction xs generalizing T g vDelete with
  | nil =>
      simp only [Dions.connectBranch, Except.ok.injEq, Prod.mk.injEq] at hconnect
      exact hconnect.1 ▸ h
  | cons pindex xs ih =>
      obtain ⟨hpindex, hxs⟩ := List.forall_mem_cons.mp hknown
      rw [Dions.connectBranch] at hconnect
      split at hconnect
      · simp at hconnect
      · rename_i block hread
        rw [seq_ok] at hconnect
        obtain ⟨⟨T₁, g₁⟩, hone, hrest⟩ := hconnect
        have hholds := (hstored.read env hpindex hread).1
        exact ih (h.connectBlock hpindex hholds hone) hxs hrest

/-! ## Runs -/

/-- The files are those of `a`, and the index is in order. -/
def IndexedSince (env : Env) (a b : Node) : Prop :=
  b.files = a.files ∧ b.mapBlockIndex = a.mapBlockIndex ∧
    Indexed env b.files b.mapBlockIndex b.txdb.txindex

theorem IndexedSince.refl (h : Indexed env node.files node.mapBlockIndex node.txdb.txindex) :
    IndexedSince env node node := ⟨rfl, rfl, h⟩

theorem kept_indexed {io : Io} {pindexNew : CBlockIndex}
    (hstored : Stored env node.files node.mapBlockIndex) (hknown : node.Knows pindexNew) :
    Kept env io pindexNew (IndexedSince env node) where
  sameChain := by
    rintro a b ha ⟨pool, g, rfl⟩
    exact ha
  attach := by
    rintro a pindex block T g ln1Db ⟨hfiles, hmap, hindexed⟩ hmem hblock hconnect
    have hpindex := hstored.knows_line env hknown hmem
    obtain ⟨old, hholds, -⟩ := hstored.held pindex hpindex
    rw [← hfiles] at hholds
    rw [← hmap] at hpindex
    have heq : old = block := Option.some.inj (hholds.stored.symm.trans hblock)
    exact ⟨hfiles, hmap, hindexed.connectBlock hpindex (heq ▸ hholds) hconnect⟩
  switch := by
    rintro a pindex pindexBest pfork T T' vResurrect vDelete g ⟨hfiles, hmap, hindexed⟩ hmem hdis
      hconnect
    have hbelow := hindexed.disconnectBranch hdis.disconnected
    refine ⟨hfiles, hmap, hbelow.connectBranch ?_ ?_ hconnect⟩
    · rw [hfiles, hmap]
      exact hstored
    · intro p hp
      have hline : p ∈ Lineage.line pindex := by
        rw [← Lineage.above_append_line (Lineage.fork?_mem hdis.fork).2]
        exact List.mem_append_left _ (List.mem_reverse.mp hp)
      rw [Node.Knows, hmap]
      exact hstored.knows_line env hknown (Lineage.line_trans hline hmem)
  newBest := fun _ _ ha => ha

theorem Home.store {new : CBlock} {hash : uint256} {pos : CDiskTxPos} {outs : ℕ} {tx : CTransaction}
    (h : Home env node.files node.mapBlockIndex hash pos outs pindex block tx)
    (hstored : Stored env node.files node.mapBlockIndex)
    (hnew : node.mapBlockIndex (new.GetHash env) = none) :
    Home env (node.store env new).files (node.store env new).mapBlockIndex hash pos outs pindex
      block tx :=
  have hknown : node.Knows pindex := h.known
  { h with
    known := hknown.store hnew
    holds := h.holds.writeToDisk hstored.ended }

theorem Indexed.store (h : Indexed env node.files node.mapBlockIndex node.txdb.txindex)
    (hstored : Stored env node.files node.mapBlockIndex)
    (hnew : node.mapBlockIndex (block.GetHash env) = none) :
    Indexed env (node.store env block).files (node.store env block).mapBlockIndex
      (node.store env block).txdb.txindex := by
  refine ⟨fun hash e he => ?_, h.finite⟩
  obtain ⟨pindex, old, tx, home⟩ := h.housed hash e he
  exact ⟨pindex, old, tx, home.store hstored hnew⟩

/-- In every state of a run, the index is in order and the block index agrees with the files. -/
theorem Reaches.indexed (h : Reaches env C node) :
    Stored env node.files node.mapBlockIndex ∧
      Indexed env node.files node.mapBlockIndex node.txdb.txindex := by
  induction h with
  | @genesis io block node hhash _ hload hbest =>
    rw [loadGenesis_ok hhash hload hbest]
    have hnew : Node.empty.mapBlockIndex (block.GetHash env) = none := rfl
    exact ⟨(stored_empty env).store hnew, indexed_empty _ _⟩
  | store _ _ hnew ih => exact ⟨ih.1.store hnew, ih.2.store ih.1 hnew⟩
  | setBestChain hnode hknown _ hblock _ ih =>
    obtain ⟨hfiles, hmap, hindexed⟩ := (kept_indexed ih.1 hknown).setBestChain
      (IndexedSince.refl ih.2) hnode.genesis_isSome hblock
    rw [hfiles, hmap]
    exact ⟨ih.1, by rwa [hfiles, hmap] at hindexed⟩
  | pool _ ih =>
    obtain ⟨pool, g, heq⟩ := acceptToMemoryPool_sameChain env _ _ _
    rw [heq]
    exact ih

end Dions
