import Dions.Verification.Chain.Path

/-! # The pointers to the best chain

`SetBestChain` moves the hash in memory, the hash on disk, `pindexBest`, the links and the
transaction index at different places. They agree after every call of a run in which the blocks
postponed by a reorganisation connect, no call is left by an exception, and no txid is repeated
on a chain; and a postponed block that does not connect leaves them apart. -/

namespace Dions

open Halting

variable (env : Env)
variable {best pindexNew : CBlockIndex} {node node' : Node} {block : CBlock}
variable {nBestTrust : ℕ}

/-! ## What is to agree -/

/-- The pointers, the links and the index all describe the chain up to `best`. The genesis block
is never connected, so the transactions are those of the blocks above it. -/
structure AgreesAt (node : Node) (best : CBlockIndex) : Prop where
  pointer : node.pindexBest = some best
  memory : node.hashBestChain = best.GetBlockHash
  disk : node.txdb.hashBestChain = some best.GetBlockHash
  connected : ∀ pindex ∈ best.line, (CBlockIndex.pprev pindex).isSome = true →
    ∃ block, node.files.Holds pindex block ∧ ∀ p ∈ block.positions pindex,
      ∃ txindex, node.txdb.txindex (p.2.GetHash env) = some txindex ∧ txindex.pos = p.1
  indexed : ∀ hash txindex, node.txdb.txindex hash = some txindex →
    ∃ pindex ∈ best.line, ∃ block, node.files.Holds pindex block ∧
      ∃ p ∈ block.positions pindex, p.2.GetHash env = hash ∧ p.1 = txindex.pos
  noOther : ∀ pindex, node.Knows pindex → pindex ∉ best.line →
    ∀ block, node.files.Holds pindex block → ∀ p ∈ block.positions pindex,
      ∀ txindex, node.txdb.txindex (p.2.GetHash env) = some txindex → txindex.pos ≠ p.1
  mainChain : ∀ pindex, node.IsInMainChain pindex = true ↔ pindex ∈ best.line

/-! ## When they agree -/

/-- The blocks are read, connected and committed one after the other. -/
inductive PostponedRun (io : Io) : Node → List CBlockIndex → Node → Prop
  | nil (node : Node) : PostponedRun io node [] node
  | cons {node node₁ node₂ : Node} {pindex : CBlockIndex} {rest : List CBlockIndex}
      {block : CBlock} (hread : (io.visible node.files).ReadFromDisk env pindex = some block)
      (hinner : block.SetBestChainInner env io node pindex = .ok node₁)
      (hrest : PostponedRun io node₁ rest node₂) : PostponedRun io node (pindex :: rest) node₂

/-- The entry that a call reorganises to, and the entries it postpones. -/
def Node.split (node : Node) (pindexNew : CBlockIndex) : CBlockIndex × List CBlockIndex :=
  splitPostponed node.nBestChainTrust pindexNew

/-- The call is not left by an exception, the blocks that it postpones connect once the
reorganisation is done, and no txid is repeated on the way to `pindexNew`. -/
structure Orderly (io : Io) (node : Node) (pindexNew : CBlockIndex) (block : CBlock) : Prop where
  returns : ∀ e s, block.SetBestChain env io node pindexNew = .error (e, s) → e = .reject
  postponed : block.hashPrevBlock ≠ node.hashBestChain →
    ∀ node', Reorganize env io node (node.split pindexNew).1 = .ok node' →
      ∃ node'', PostponedRun env io node' (node.split pindexNew).2 node''
  distinct : (Ledger.ids (pathItems env node.files pindexNew)).Nodup

/-! ## The invariant -/

structure BestAt (node : Node) (best : CBlockIndex) : Prop where
  stored : Stored env node.files node.mapBlockIndex
  genesis : node.pindexGenesisBlock.isSome = true
  known : node.Knows best
  pointer : node.pindexBest = some best
  memory : node.hashBestChain = best.GetBlockHash
  chain : ChainAt env node best
  distinct : (Ledger.ids (pathItems env node.files best)).Nodup

variable {env}

theorem BestAt.sameChain {a b : Node} (h : BestAt env a best) (hab : a.SameChain b) :
    BestAt env b best := by
  have hchain := h.chain.sameChain hab
  obtain ⟨pool, g, rfl⟩ := hab
  exact ⟨h.stored, h.genesis, h.known, h.pointer, h.memory, hchain, h.distinct⟩

/-! ### Postponed blocks -/

theorem PostponedRun.append {io : Io} {xs ys : List CBlockIndex} {node₂ : Node}
    (h : PostponedRun env io node (xs ++ ys) node₂) :
    ∃ node₁, PostponedRun env io node xs node₁ ∧ PostponedRun env io node₁ ys node₂ := by
  induction xs generalizing node with
  | nil => exact ⟨node, .nil node, h⟩
  | cons x xs ih =>
      rw [List.cons_append] at h
      cases h with
      | cons hread hinner hrest =>
          obtain ⟨node₁, hxs, hys⟩ := ih hrest
          exact ⟨node₁, .cons hread hinner hxs, hys⟩

theorem PostponedRun.connectPostponed {io : Io} {xs : List CBlockIndex}
    (h : PostponedRun env io node xs node') : connectPostponed env io xs node = .ok node' := by
  induction h with
  | nil node => rfl
  | cons hread hinner hrest ih =>
      rw [Dions.connectPostponed, hread]
      simp only [hinner]
      exact ih

/-- The database of aliases, the database of transactions, the links and the memory pool: nothing
else changes when blocks are connected on the tip. -/
def Node.SameFiles (a b : Node) : Prop :=
  b.files = a.files ∧ b.mapBlockIndex = a.mapBlockIndex ∧
    b.pindexGenesisBlock = a.pindexGenesisBlock

theorem Node.SameFiles.trans {a b c : Node} (hab : a.SameFiles b) (hbc : b.SameFiles c) :
    a.SameFiles c :=
  ⟨hbc.1.trans hab.1, hbc.2.1.trans hab.2.1, hbc.2.2.trans hab.2.2⟩

theorem setBestChainInner_sameFiles {io : Io}
    (h : block.SetBestChainInner env io node pindexNew = .ok node') : node.SameFiles node' := by
  have hout := setBestChainInner_outcome env io node pindexNew block
  rw [h] at hout
  cases hout with
  | attached _ _ _ hnode' =>
      obtain ⟨pool, g, rfl⟩ := hnode'
      exact ⟨rfl, rfl, rfl⟩

theorem reorganize_sameFiles {io : Io} (h : Reorganize env io node pindexNew = .ok node') :
    node.SameFiles node' := by
  have hout := reorganize_outcome env io node pindexNew
  rw [h] at hout
  cases hout with
  | reorganized _ _ _ hnode' =>
      obtain ⟨pool, g, rfl⟩ := hnode'
      exact ⟨rfl, rfl, rfl⟩

/-- The block that was written for an entry, attached on top of its parent. -/
theorem ChainAt.inner {io : Io} {d : BlockIndexData} {p : CBlockIndex} (h : ChainAt env node p)
    (hstored : Stored env node.files node.mapBlockIndex) (hknown : node.Knows (.child d p))
    (hblock : node.files.blocks
      (CBlockIndex.nFile (.child d p), CBlockIndex.nBlockPos (.child d p)) = some block)
    (hnodup : (Ledger.ids (pathItems env node.files (.child d p))).Nodup)
    (hinner : block.SetBestChainInner env io node (.child d p) = .ok node') :
    ChainAt env node' (.child d p) := by
  have hout := setBestChainInner_outcome env io node (.child d p) block
  rw [hinner] at hout
  cases hout with
  | attached hconnect _ _ hnode' =>
      obtain ⟨block', hholds, hhash, -⟩ := hstored.held _ hknown
      rw [hholds.stored, Option.some.injEq] at hblock
      subst hblock
      exact (h.attach hholds.stored hhash hnodup hconnect).sameChain hnode'

/-- What attaching each postponed block carries from its parent to it holds in the end of the
entry asked for. -/
theorem PostponedRun.climb {io : Io} {P : Node → CBlockIndex → Prop}
    (hrun : PostponedRun env io node (splitPostponed nBestTrust pindexNew).2 node')
    (hP : P node (splitPostponed nBestTrust pindexNew).1)
    (hstep : ∀ a b d p block, .child d p ∈ (splitPostponed nBestTrust pindexNew).2 → P a p →
      a.files.blocks (CBlockIndex.nFile (.child d p), CBlockIndex.nBlockPos (.child d p)) =
        some block →
      block.SetBestChainInner env io a (.child d p) = .ok b → P b (.child d p)) :
    P node' pindexNew := by
  induction pindexNew generalizing node' with
  | root d =>
      cases hrun
      exact hP
  | child d p ih =>
      by_cases htrust : nBestTrust < CBlockIndex.nChainTrust p
      · simp only [splitPostponed, if_pos htrust] at hrun hP hstep
        obtain ⟨node₁, hbelow, hlast⟩ := hrun.append
        have hp := ih hbelow hP fun a b d' p' block hmem =>
          hstep a b d' p' block (List.mem_append_left _ hmem)
        cases hlast with
        | cons hread hinner hrest =>
            cases hrest
            exact hstep _ _ d p _ (by simp) hp (visible_blocks (readFromDisk_blocks env hread))
              hinner
      · simp only [splitPostponed, if_neg htrust] at hrun hP
        cases hrun
        exact hP

/-- Connecting all the postponed blocks ends at the entry asked for. -/
theorem ChainAt.postponed {io : Io} (h : ChainAt env node (splitPostponed nBestTrust pindexNew).1)
    (hstored : Stored env node.files node.mapBlockIndex) (hknown : node.Knows pindexNew)
    (hnodup : (Ledger.ids (pathItems env node.files pindexNew)).Nodup)
    (hrun : PostponedRun env io node (splitPostponed nBestTrust pindexNew).2 node') :
    ChainAt env node' pindexNew ∧ node.SameFiles node' := by
  have hbase : ChainAt env node (splitPostponed nBestTrust pindexNew).1 ∧ node.SameFiles node :=
    ⟨h, rfl, rfl, rfl⟩
  refine hrun.climb (P := fun a tip => ChainAt env a tip ∧ node.SameFiles a) hbase ?_
  rintro a b d p block hmem ⟨hchain, hfiles⟩ hblock hinner
  obtain ⟨hf, hm, hg⟩ := hfiles
  have hline := postponed_mem_line hmem
  refine ⟨hchain.inner (by rwa [hf, hm]) ?_ hblock ?_ hinner,
    Node.SameFiles.trans ⟨hf, hm, hg⟩ (setBestChainInner_sameFiles hinner)⟩
  · rw [Node.Knows, hm]
    exact hstored.knows_line env hknown hline
  · rw [hf]
    exact ids_pathItems_line hline hnodup

/-! ### One call -/

theorem BestAt.newBest {hash : uint256} (hstored : Stored env node.files node.mapBlockIndex)
    (hgenesis : node.pindexGenesisBlock.isSome = true) (hknown : node.Knows pindexNew)
    (hhash : hash = pindexNew.GetBlockHash) (hchain : ChainAt env node pindexNew)
    (hnodup : (Ledger.ids (pathItems env node.files pindexNew)).Nodup) :
    BestAt env (newBest node hash pindexNew) pindexNew where
  stored := hstored
  genesis := hgenesis
  known := hknown
  pointer := rfl
  memory := hhash
  chain := ⟨hchain.disk, hchain.linked, hchain.listed⟩
  distinct := hnodup

/-- What is left of the ways a call can end when it is orderly: it changes nothing of the chain,
extends it, or reorganises it and connects the blocks it postponed. -/
inductive OrderlyOutcome (env : Env) (io : Io) (node : Node) (best pindexNew : CBlockIndex)
    (block : CBlock) : Node → Prop
  | refused {node' : Node} (hsame : node.SameChain node') :
      OrderlyOutcome env io node best pindexNew block node'
  | extended {d : BlockIndexData} {node' : Node} (hnew : pindexNew = .child d best)
      (htip : block.hashPrevBlock = node.hashBestChain)
      (hinner : block.SetBestChainInner env io node pindexNew = .ok node') :
      OrderlyOutcome env io node best pindexNew block
        (newBest node' (block.GetHash env) pindexNew)
  | reorganized {node₁ node₂ : Node} (htip : block.hashPrevBlock ≠ node.hashBestChain)
      (hreorganize : Reorganize env io node (node.split pindexNew).1 = .ok node₁)
      (hrun : PostponedRun env io node₁ (node.split pindexNew).2 node₂) :
      OrderlyOutcome env io node best pindexNew block
        (newBest node₂ (block.GetHash env) pindexNew)

theorem Orderly.outcome {io : Io} (horderly : Orderly env io node pindexNew block)
    (h : BestAt env node best) (hknown : node.Knows pindexNew)
    (hprev : (CBlockIndex.pprev pindexNew).isSome = true)
    (hblock : node.files.blocks (pindexNew.nFile, pindexNew.nBlockPos) = some block) :
    OrderlyOutcome env io node best pindexNew block
      (block.SetBestChain env io node pindexNew).final := by
  obtain ⟨hreturns, hpostponed, -⟩ := horderly
  generalize hr : block.SetBestChain env io node pindexNew = r
  have hreturns' : ∀ e s, r = .error (e, s) → e = .reject := fun e s he =>
    hreturns e s (hr.trans he)
  unfold CBlock.SetBestChain at hr
  have hnot : ¬ (node.pindexGenesisBlock.isNone = true ∧
      block.GetHash env = env.hashGenesisBlock) := by
    have := h.genesis
    cases hg : node.pindexGenesisBlock <;> simp_all
  simp only at hr
  rw [if_neg hnot] at hr
  split at hr
  · rename_i htip
    have hout := setBestChainInner_outcome env io node pindexNew block
    cases hinner : block.SetBestChainInner env io node pindexNew with
    | ok node' =>
        rw [hinner] at hr
        obtain ⟨block', hholds, -, hparent⟩ := h.stored.held _ hknown
        have heq := hholds.stored
        rw [hblock, Option.some.injEq] at heq
        subst heq
        cases pindexNew with
        | root d => simp [CBlockIndex.pprev] at hprev
        | child d p =>
            obtain ⟨hp, hpknown⟩ := hparent p rfl
            have hbest : p = best := knows_unique hpknown h.known (by rw [← hp, htip, h.memory])
            rw [← hr]
            exact .extended (by rw [hbest]) htip hinner
    | error s =>
        obtain ⟨e, s⟩ := s
        rw [hinner] at hr hout
        obtain rfl := hreturns' e s hr.symm
        rw [← hr]
        cases hout with
        | refused _ => exact .refused (sameChain_setGlobals node _)
        | uncommitted _ _ => exact .refused (sameChain_setGlobals node _)
        | interrupted _ he _ => exact absurd rfl he
  · rename_i htip
    have hsplit : splitPostponed best.nChainTrust pindexNew = node.split pindexNew := by
      rw [Node.split, Node.nBestChainTrust, h.pointer]
    rw [h.pointer] at hr
    simp only [hsplit] at hr
    have hout := reorganize_outcome env io node (node.split pindexNew).1
    cases hreorg : Reorganize env io node (node.split pindexNew).1 with
    | ok node' =>
        rw [hreorg] at hr
        obtain ⟨node'', hrun⟩ := hpostponed htip node' hreorg
        have hr' : r = .ok (Dions.newBest node'' (block.GetHash env) pindexNew) := by
          rw [← hr]
          simp only [bind, Except.bind, hrun.connectPostponed]
        rw [hr']
        exact .reorganized htip hreorg hrun
    | error s =>
        obtain ⟨e, s⟩ := s
        rw [hreorg] at hr hout
        obtain rfl := hreturns' e s hr.symm
        rw [← hr]
        cases hout with
        | refused _ => exact .refused (Node.SameChain.refl node)
        | failed _ _ => exact .refused (sameChain_setGlobals node _)
        | uncommitted _ _ _ => exact .refused (sameChain_setGlobals node _)
        | interrupted _ _ he _ => exact absurd rfl he

/-- A reorganisation moves the chain of a node to the entry it is asked for. -/
theorem BestAt.reorganized {io : Io} {node node' : Node} {best pindexNew : CBlockIndex}
    (h : BestAt env node best) (hnodup : (Ledger.ids (pathItems env node.files pindexNew)).Nodup)
    (hreorganize : Reorganize env io node pindexNew = .ok node') :
    ChainAt env node' pindexNew := by
  have hout := reorganize_outcome env io node pindexNew
  rw [hreorganize] at hout
  cases hout with
  | reorganized hdis hconnect _ hnode' =>
      have hb := hdis.best
      rw [h.pointer, Option.some.injEq] at hb
      subst hb
      exact (h.chain.switch h.distinct hnodup hdis hconnect).sameChain hnode'

/-- A call that meets the condition leads from one best tip to another. -/
theorem BestAt.setBestChain {io : Io} (h : BestAt env node best) (hknown : node.Knows pindexNew)
    (hprev : (CBlockIndex.pprev pindexNew).isSome = true)
    (hblock : node.files.blocks (pindexNew.nFile, pindexNew.nBlockPos) = some block)
    (horderly : Orderly env io node pindexNew block) :
    ∃ best', BestAt env (block.SetBestChain env io node pindexNew).final best' := by
  have hdistinct := horderly.distinct
  obtain ⟨block', hholds, hhash, -⟩ := h.stored.held _ hknown
  have heq := hholds.stored
  rw [hblock, Option.some.injEq] at heq
  subst heq
  have hout := horderly.outcome h hknown hprev hblock
  generalize (block.SetBestChain env io node pindexNew).final = node' at hout ⊢
  cases hout with
  | refused hsame => exact ⟨best, h.sameChain hsame⟩
  | extended hnew htip hinner =>
      subst hnew
      obtain ⟨hf, hm, hg⟩ := setBestChainInner_sameFiles hinner
      have hchain := h.chain.inner h.stored hknown hblock hdistinct hinner
      exact ⟨_, .newBest (by rw [hf, hm]; exact h.stored) (by rw [hg]; exact h.genesis)
        (by rwa [Node.Knows, hm]) hhash hchain (by rwa [hf])⟩
  | reorganized htip hreorganize hrun =>
      obtain ⟨hf, hm, hg⟩ := reorganize_sameFiles hreorganize
      have hmid := h.reorganized
        (ids_pathItems_line (splitPostponed_mem_line _ _) hdistinct) hreorganize
      obtain ⟨hchain, hf', hm', hg'⟩ := hmid.postponed (by rw [hf, hm]; exact h.stored)
        (by rwa [Node.Knows, hm]) (by rwa [hf]) hrun
      exact ⟨_, .newBest (by rw [hf', hm', hf, hm]; exact h.stored)
        (by rw [hg', hg]; exact h.genesis) (by rwa [Node.Knows, hm', hm]) hhash hchain
        (by rwa [hf', hf])⟩

/-! ### Runs -/

theorem bestAt_genesis {io : Io} (hhash : block.GetHash env = env.hashGenesisBlock)
    (hload : LoadGenesis env io block = .ok node) (hbest : node.pindexBest.isSome = true) :
    BestAt env node (Node.empty.entryFor env block) := by
  rw [loadGenesis_ok hhash hload hbest]
  have hroot : ∃ d, Node.empty.entryFor env block = Lineage.root d := ⟨_, rfl⟩
  refine .newBest (Stored.store (stored_empty env) rfl) rfl (store_knows _ _)
    (entryFor_hash _ _).symm ?_ ?_
  · obtain ⟨d, hd⟩ := hroot
    refine ⟨congrArg some (entryFor_hash _ _).symm, hd ▸ Lineage.linked_root d, ?_⟩
    rw [hd]
    intro h p
    simp [ledgerOf, pathItems]
  · obtain ⟨d, hd⟩ := hroot
    rw [hd]
    exact List.nodup_nil

theorem pathItems_store {pindex : CBlockIndex} (h : Stored env node.files node.mapBlockIndex)
    (hknown : node.Knows pindex) :
    pathItems env (node.store env block).files pindex = pathItems env node.files pindex := by
  induction pindex with
  | root d => rfl
  | child d p ih =>
      obtain ⟨old, hholds, -, hparent⟩ := h.held _ hknown
      have hnew : (node.store env block).files.Holds (.child d p) old :=
        hholds.writeToDisk h.ended
      rw [pathItems, pathItems, ih (hparent p rfl).2, storedItems_of_blocks hnew.stored,
        storedItems_of_blocks hholds.stored]

theorem BestAt.store (h : BestAt env node best)
    (hnew : node.mapBlockIndex (block.GetHash env) = none) :
    BestAt env (node.store env block) best where
  stored := h.stored.store hnew
  genesis := h.genesis
  known := h.known.store hnew
  pointer := h.pointer
  memory := h.memory
  chain := ⟨h.chain.disk, h.chain.linked, by
    rw [pathItems_store h.stored h.known]
    exact h.chain.listed⟩
  distinct := by
    rw [pathItems_store h.stored h.known]
    exact h.distinct

theorem Reaches.bestAt (h : Reaches env (Orderly env) node) : ∃ best, BestAt env node best := by
  induction h with
  | genesis hhash _ hload hbest => exact ⟨_, bestAt_genesis hhash hload hbest⟩
  | store _ _ hnew ih =>
      obtain ⟨best, hb⟩ := ih
      exact ⟨best, hb.store hnew⟩
  | setBestChain _ hknown hprev hblock hcall ih =>
      obtain ⟨best, hb⟩ := ih
      exact hb.setBestChain hknown hprev hblock hcall
  | pool _ ih =>
      obtain ⟨best, hb⟩ := ih
      exact ⟨best, hb.sameChain (acceptToMemoryPool_sameChain env _ _ _)⟩

/-! ## From the invariant to the pointers -/

theorem BestAt.agrees (h : BestAt env node best) : AgreesAt env node best := by
  have hindexed : ∀ hash txindex, node.txdb.txindex hash = some txindex →
      ∃ pindex ∈ best.line, ∃ block, node.files.Holds pindex block ∧
        ∃ p ∈ block.positions pindex, p.2.GetHash env = hash ∧ p.1 = txindex.pos := by
    intro hash txindex htx
    have hlist := (h.chain.listed hash txindex.pos).mp
      ⟨txindex.entry, by simp [ledgerOf, htx], rfl⟩
    obtain ⟨i, hi, hid, hplace⟩ := hlist
    obtain ⟨a, ha, -, hi⟩ := mem_pathItems.mp hi
    obtain ⟨block, hholds, -⟩ := h.stored.held a (h.stored.knows_line env h.known ha)
    rw [storedItems_of_blocks hholds.stored] at hi
    obtain ⟨p, hp, rfl⟩ := List.mem_map.mp hi
    exact ⟨a, ha, block, hholds, p, hp, hid, hplace⟩
  refine ⟨h.pointer, h.memory, h.chain.disk, ?_, hindexed, ?_, ?_⟩
  · intro pindex hpindex hprev
    obtain ⟨block, hholds, -⟩ := h.stored.held pindex (h.stored.knows_line env h.known hpindex)
    refine ⟨block, hholds, fun p hp => ?_⟩
    exact h.chain.listed_entry hpindex hprev hholds.stored hp
  · intro pindex hknown hnot block hholds p hp txindex htx hpos
    obtain ⟨a, ha, block', hholds', q, hq, -, hqpos⟩ := hindexed _ _ htx
    have h₁ := txPositions_bounds hp
    have h₂ := txPositions_bounds hq
    rw [hqpos, hpos] at h₂
    have heq : a = pindex := h.stored.place_unique env (h.stored.knows_line env h.known ha) hknown
      (h₂.1.symm.trans h₁.1) (h₂.2.1.symm.trans h₁.2.1)
    exact hnot (heq ▸ ha)
  · intro pindex
    rw [Lineage.mem_line_iff, Node.IsInMainChain, h.pointer]
    simp only [Bool.or_eq_true, beq_iff_eq, Option.some.injEq, Option.isSome_iff_exists,
      h.chain.linked pindex]
    rw [or_comm, eq_comm]

/-- In every run whose calls of `SetBestChain` are orderly, the pointers, the links and the index
agree in every state reached. -/
theorem best_chain_agrees {node : Node} (h : Reaches env (Orderly env) node) :
    ∃ best, AgreesAt env node best := by
  obtain ⟨best, hb⟩ := h.bestAt
  exact ⟨best, hb.agrees⟩

namespace Scenario

/-- Two branches of one block each; the second block of the other branch arrives when the database
cannot commit, so the node stays on the first branch. -/
def stuck : Halt Node Node := do
  let node ← afterBlocks (firstBlocks 1)
  let node ← mine (timed testNet) io node
    ⟨testNet.hashGenesisBlock, 1500, 1, [payTo (625 * COIN)], []⟩
  .ok (mine (timed testNet) (ioFailing 2500) node ⟨1500, 2500, 1, [payTo (625 * COIN)], []⟩).final

/-- A block whose coinbase takes one coin too much. -/
def greedy : Mining := ⟨2500, 3500, 1, [payTo (626 * COIN)], []⟩

end Scenario

namespace Scenario

/-- A call that returns on a block that extends the best chain. -/
def extendsOrderly (e : Env) (io : Io) (node : Node) (pindexNew : CBlockIndex) (block : CBlock) :
    Bool :=
  (match block.SetBestChain e io node pindexNew with
    | .error _ => false
    | .ok _ => true) &&
  decide (block.hashPrevBlock = node.hashBestChain) &&
  decide (Ledger.ids (pathItems e node.files pindexNew)).Nodup

theorem orderly_of_extendsOrderly {e : Env} {io : Io}
    (h : extendsOrderly e io node pindexNew block = true) : Orderly e io node pindexNew block := by
  simp only [extendsOrderly, Bool.and_eq_true, decide_eq_true_eq] at h
  obtain ⟨⟨hret, htip⟩, hdistinct⟩ := h
  refine ⟨fun err s herr => ?_, fun hne => absurd htip hne, hdistinct⟩
  rw [herr] at hret
  simp at hret

end Scenario

namespace Scenario

/-- A call that returns and postpones no block. -/
def returnsOrderly (e : Env) (io : Io) (node : Node) (pindexNew : CBlockIndex) (block : CBlock) :
    Bool :=
  (match block.SetBestChain e io node pindexNew with
    | .error _ => false
    | .ok _ => true) &&
  decide ((node.split pindexNew).2 = []) &&
  decide (Ledger.ids (pathItems e node.files pindexNew)).Nodup

theorem orderly_of_returnsOrderly {e : Env} {io : Io}
    (h : returnsOrderly e io node pindexNew block = true) : Orderly e io node pindexNew block := by
  simp only [returnsOrderly, Bool.and_eq_true, decide_eq_true_eq] at h
  obtain ⟨⟨hret, hnone⟩, hdistinct⟩ := h
  refine ⟨fun err s herr => ?_, fun _ node' _ => ⟨node', hnone ▸ .nil node'⟩, hdistinct⟩
  rw [herr] at hret
  simp at hret

/-- A call of `SetBestChain` for a block, if there is one, passes the test. -/
def callPasses (test : Env → Io → Node → CBlockIndex → CBlock → Bool) (node : Node)
    (block : CBlock) : Bool :=
  decide (¬ node.nBestChainTrust < (node.entryFor (timed testNet) block).nChainTrust) ||
    test (timed testNet) io (node.store (timed testNet) block)
      (node.entryFor (timed testNet) block) block

def minedBlock (node : Node) (m : Mining) : CBlock :=
  match node.mapBlockIndex m.hashPrev with
  | none => genesisBlock
  | some pprev =>
    blockOn (timed testNet) pprev m.nTime
      (coinbase (pprev.nHeight + 1) (m.nTime - 1) m.nVersion m.reward :: m.txs)

/-- Blocks arrive one after the other, and each call that they make passes the test. -/
def arrivals (test : Env → Io → Node → CBlockIndex → CBlock → Bool) (node : Node) :
    List Mining → Option Node
  | [] => some node
  | m :: ms =>
    if callPasses test node (minedBlock node m) then
      match ProcessBlock (timed testNet) io node (minedBlock node m) with
      | .error _ => none
      | .ok node' => arrivals test node' ms
    else none

theorem arrivals_reaches {C : Io → Node → CBlockIndex → CBlock → Prop}
    {test : Env → Io → Node → CBlockIndex → CBlock → Bool}
    (htest : ∀ node pindexNew block, test (timed testNet) io node pindexNew block = true →
      C io node pindexNew block) {node node' : Node} {ms : List Mining}
    (h : Reaches (timed testNet) C node) (hrun : arrivals test node ms = some node') :
    Reaches (timed testNet) C node' := by
  induction ms generalizing node with
  | nil => exact Option.some.inj hrun ▸ h
  | cons m ms ih =>
    rw [arrivals] at hrun
    split at hrun
    swap
    · cases hrun
    rename_i hpasses
    have hnext : Reaches (timed testNet) C
        (ProcessBlock (timed testNet) io node (minedBlock node m)).final := by
      refine h.processBlock fun htrust => htest _ _ _ ?_
      rw [callPasses, decide_eq_false (not_not.mpr htrust), Bool.false_or] at hpasses
      exact hpasses
    split at hrun
    · cases hrun
    rename_i node₁ hprocess
    rw [hprocess, Halt.final_ok] at hnext
    exact ih hnext hrun

def twoFirst : List Mining :=
  [⟨testNet.hashGenesisBlock, 1000, 1, [payTo (625 * COIN)], []⟩,
    ⟨testNet.hashGenesisBlock, 1500, 1, [payTo (625 * COIN)], []⟩]

def onSecond : Mining := ⟨1500, 2500, 1, [payTo (625 * COIN)], []⟩

end Scenario

open Scenario in
/-- The branch of the second block overtakes that of the first one. -/
theorem best_chain_agrees_overtaken :
    ∃ genesis node node' best, LoadGenesis (timed testNet) io genesisBlock = .ok genesis ∧
      arrivals returnsOrderly genesis twoFirst = some node ∧ node.hashBestChain = 1000 ∧
      arrivals returnsOrderly node [onSecond] = some node' ∧ node'.hashBestChain = 2500 ∧
      AgreesAt (timed testNet) node' best := by
  have htest : (match LoadGenesis (timed testNet) io genesisBlock with
      | .error _ => false
      | .ok genesis =>
        match arrivals returnsOrderly genesis twoFirst with
        | none => false
        | some node =>
          match arrivals returnsOrderly node [onSecond] with
          | none => false
          | some node' => decide (node.hashBestChain = 1000 ∧ node'.hashBestChain = 2500)) = true := by
    decide +kernel
  split at htest
  · simp at htest
  rename_i genesis hload
  split at htest
  · simp at htest
  rename_i node hfirst
  split at htest
  · simp at htest
  rename_i node' hsecond
  obtain ⟨hbefore, hafter⟩ := of_decide_eq_true htest
  have horderly : ∀ node pindexNew block,
      returnsOrderly (timed testNet) io node pindexNew block = true →
        Orderly (timed testNet) io node pindexNew block := fun _ _ _ => orderly_of_returnsOrderly
  have hreach := arrivals_reaches horderly
    (arrivals_reaches horderly (loadGenesis_reaches hload) hfirst) hsecond
  obtain ⟨best, hagrees⟩ := best_chain_agrees hreach
  exact ⟨genesis, node, node', best, hload, hfirst, hbefore, hsecond, hafter, hagrees⟩

open Scenario in
/-- The postponed block does not connect, and the pointers move to it all the same: the hash in
memory is that of the block, the one on disk that of its parent. -/
theorem postponed_block_parts_pointers :
    ∃ node node', stuck = .ok node ∧ Reaches (timed testNet) AnyCall node' ∧
      mine (timed testNet) io node greedy = .ok node' ∧ node'.hashBestChain = 3500 ∧
      node'.txdb.hashBestChain = some 2500 ∧
      ¬ ∃ best, AgreesAt (timed testNet) node' best := by
  have htest : (match stuck with
      | .error _ => false
      | .ok node =>
        match mine (timed testNet) io node greedy with
        | .error _ => false
        | .ok node' => decide (node'.hashBestChain = 3500) &&
          decide (node'.txdb.hashBestChain = some 2500)) = true := by
    decide +kernel
  split at htest
  · simp at htest
  rename_i node hstuck
  split at htest
  · simp at htest
  rename_i node' hmine
  rw [Bool.and_eq_true, decide_eq_true_eq, decide_eq_true_eq] at htest
  have hreach : Reaches (timed testNet) AnyCall node := by
    simp only [stuck, seq_ok] at hstuck
    obtain ⟨node₁, h₁, node₂, h₂, h₃⟩ := hstuck
    have hnext := mine_final_reaches h₂ (afterBlocks_reaches h₁)
    exact Except.ok.inj h₃ ▸ mine_reaches hnext
  have hreach' := mine_final_reaches hmine hreach
  refine ⟨node, node', hstuck, hreach', hmine, htest.1, htest.2, ?_⟩
  rintro ⟨best, hagrees⟩
  have hmemory := hagrees.memory
  have hdisk := hagrees.disk
  rw [htest.2, Option.some.injEq, ← hmemory, htest.1] at hdisk
  simp at hdisk

end Dions
