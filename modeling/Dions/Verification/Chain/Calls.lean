import Dions.Verification.Chain.Storage

/-! # What the calls on the chain can do

One lemma for each of `SetBestChainInner` and `Reorganize` lists every way the call can end and
the state it then leaves. Work on the memory pool never touches the chain, and once a database
transaction is committed only an exception stops a call. -/

namespace Dions

open Halting

variable (env : Env)
variable {pindexNew : CBlockIndex} {P : Node → Prop}

/-! ## The memory pool and the chain -/

/-- Only the memory pool and the globals behind it differ. -/
def Node.SameChain (a b : Node) : Prop :=
  ∃ pool g, b = { a with mempool := pool, toGlobals := g }

theorem Node.SameChain.refl (a : Node) : a.SameChain a := ⟨a.mempool, a.toGlobals, rfl⟩

theorem Node.SameChain.trans (a b c : Node) (hab : a.SameChain b) (hbc : b.SameChain c) :
    a.SameChain c := by
  obtain ⟨_, _, rfl⟩ := hab
  obtain ⟨pool, g, rfl⟩ := hbc
  exact ⟨pool, g, rfl⟩

theorem sameChain_setGlobals (node : Node) (g : Globals) : node.SameChain (node.setGlobals g) :=
  ⟨node.mempool, g, rfl⟩

theorem sameChain_put (node : Node) (s : PoolState) : node.SameChain (PoolState.put node s) :=
  ⟨s.1, s.2, rfl⟩

theorem acceptToMemoryPool_sameChain (io : Io) (node : Node) (tx : CTransaction) :
    node.SameChain (AcceptToMemoryPool env io node tx).final := by
  unfold AcceptToMemoryPool
  rcases acceptChecks env io node tx with ⟨e, g⟩ | g
  · exact sameChain_setGlobals node g
  · simp only [Halt.lift, bind, Except.bind]
    rcases (AcceptToMemoryPoolPost env (node.view io) g tx).attempt with ⟨e, g'⟩ | g'
    · exact sameChain_setGlobals node g'
    · exact ⟨_, g', rfl⟩

theorem resurrectTx_sameChain (io : Io) (node : Node) (tx : CTransaction) :
    node.SameChain (resurrectTx env io node tx).final := by
  rw [resurrectTx, Halt.final_attempt]
  exact acceptToMemoryPool_sameChain env io node tx

theorem deleteTx_sameChain (node : Node) (tx : CTransaction) :
    node.SameChain (deleteTx env node tx).final := by
  unfold deleteTx
  simp only [bind, Except.bind]
  split
  · rename_i e he
    simp only [Halt.lift] at he
    split at he
    · simp at he
    · rw [← Except.error.inj he]
      exact sameChain_put node _
  · exact sameChain_put node _

theorem removeMined_sameChain (node : Node) (tx : CTransaction) :
    node.SameChain (removeMined env node tx).final := by
  unfold removeMined
  rcases CTxMemPool.remove env false tx (node.mempool, node.toGlobals) with ⟨e, s⟩ | s
  · exact sameChain_put node s
  · exact sameChain_put node s

theorem resurrectAll_sameChain (io : Io) (txs : List CTransaction) (node : Node) :
    node.SameChain (txs.foldlM (resurrectTx env io) node).final :=
  Halt.final_foldlM Node.SameChain.refl Node.SameChain.trans (resurrectTx_sameChain env io) txs node

theorem deleteAll_sameChain (txs : List CTransaction) (node : Node) :
    node.SameChain (txs.foldlM (deleteTx env) node).final :=
  Halt.final_foldlM Node.SameChain.refl Node.SameChain.trans (deleteTx_sameChain env) txs node

theorem removeAll_sameChain (txs : List CTransaction) (node : Node) :
    node.SameChain (txs.foldlM (removeMined env) node).final :=
  Halt.final_foldlM Node.SameChain.refl Node.SameChain.trans (removeMined_sameChain env) txs node

/-! ## Calls that never report failure -/

theorem removeFromMemoryPoolPost_avoids (g : Globals) (tx : CTransaction) :
    (RemoveFromMemoryPoolPost env g tx).Avoids .reject := by
  unfold RemoveFromMemoryPoolPost
  split
  · simp
  · split
    · simp
    · dsimp only
      split
      · simp
      · split <;> split <;> simp [Halt.avoids_seq]

theorem removeTx_avoids (fRecursive : Bool) (fuel : ℕ) (tx : CTransaction) (s : PoolState) :
    (removeTx env fRecursive fuel tx s).Avoids .reject := by
  induction fuel generalizing fRecursive tx s with
  | zero =>
      obtain ⟨pool, g⟩ := s
      simp only [removeTx, Halt.avoids_seq, Halt.avoids_lift, removeFromMemoryPoolPost_avoids,
        true_and]
      intro g' _
      split <;> simp [Halt.avoids_seq]
  | succ fuel ih =>
      obtain ⟨pool, g⟩ := s
      simp only [removeTx, Halt.avoids_seq, Halt.avoids_lift, removeFromMemoryPoolPost_avoids,
        true_and]
      intro g' _
      split
      · split
        · refine Halt.avoids_seq.mpr ⟨?_, fun s _ => by simp⟩
          refine Halt.avoids_foldlM (fun s i => ?_) _ _
          split
          · simp
          · split
            · simp
            · exact ih _ _ _
        · simp [Halt.avoids_seq]
      · simp

theorem removeConflicts_avoids (tx : CTransaction) (s : PoolState) :
    (CTxMemPool.removeConflicts env tx s).Avoids .reject := by
  refine Halt.avoids_foldlM (fun s txin => ?_) _ _
  unfold removeConflict
  split
  · simp
  · split
    · simp
    · split
      · simp
      · exact removeTx_avoids env _ _ _ _

theorem deleteTx_avoids (node : Node) (tx : CTransaction) :
    (deleteTx env node tx).Avoids .reject := by
  unfold deleteTx
  refine Halt.avoids_seq.mpr ⟨?_, by simp⟩
  refine Halt.avoids_lift.mpr (Halt.avoids_seq.mpr ⟨removeTx_avoids env _ _ _ _, fun s _ => ?_⟩)
  exact removeConflicts_avoids env tx s

theorem removeMined_avoids (node : Node) (tx : CTransaction) :
    (removeMined env node tx).Avoids .reject := by
  unfold removeMined
  exact Halt.avoids_seq.mpr ⟨Halt.avoids_lift.mpr (removeTx_avoids env _ _ _ _), by simp⟩

theorem putAlias_avoids (ln1Db : AliasDb) (op : ℕ) (args : List vchType) (r : AliasIndex) :
    (putAlias env ln1Db op args r).Avoids .reject := by
  unfold putAlias
  refine Exec.avoids_seq.mpr ⟨by simp, fun name _ => ?_⟩
  split
  · split
    · simp
    · split
      · simp
      · split <;> simp
  · split
    · simp
    · simp [Exec.avoids_seq]

theorem filterTx_avoids (files : BlockFile) (txdb : TxIndexMap) (pindex : CBlockIndex)
    (ln1Db : AliasDb) (txPos : CDiskTxPos) (tx : CTransaction) :
    (filterTx env files txdb pindex ln1Db txPos tx).Avoids .reject := by
  unfold filterTx
  split
  · simp
  · dsimp only
    split
    · refine Halt.avoids_seq.mpr ⟨by simp, fun _ _ => ?_⟩
      split
      · simp
      · split
        · simp
        · split
          · simp
          · split
            · exact Halt.avoids_seq.mpr
                ⟨Halt.avoids_within.mpr (putAlias_avoids env _ _ _ _), by simp⟩
            · simp
    · simp

theorem filterLoop_avoids (files : BlockFile) (txdb : TxIndexMap) (pindex : CBlockIndex)
    (nTxPos : ℕ) (vtx : List CTransaction) (ln1Db : AliasDb) :
    (filterLoop env files txdb pindex nTxPos vtx ln1Db).Avoids .reject := by
  induction vtx generalizing nTxPos ln1Db with
  | nil => simp [filterLoop]
  | cons tx vtx ih =>
      simp only [filterLoop]
      exact Halt.avoids_seq.mpr ⟨filterTx_avoids env _ _ _ _ _ _, fun _ _ => ih _ _⟩

/-! ## SetBestChainInner -/

/-- The state after the commit of a block on the tip. -/
def Node.attach (node : Node) (T : TxIndexMap) (hash : uint256) (pindexNew : CBlockIndex) : Node :=
  { node with
    txdb := ⟨T, some hash⟩
    pnext := linkAll some [pindexNew] node.pnext }

/-- The call of `ConnectBlock` that `SetBestChainInner` makes. -/
def CBlock.connectOn (io : Io) (node : Node) (pindexNew : CBlockIndex) (block : CBlock) :
    Halt Globals (TxIndexMap × Globals) :=
  block.ConnectBlock env (node.view io) node.txdb.txindex node.toGlobals pindexNew

inductive InnerOutcome (io : Io) (node : Node) (pindexNew : CBlockIndex) (block : CBlock) :
    Halt Node Node → Prop
  | refused {e : Stop} {g : Globals}
      (hconnect : block.connectOn env io node pindexNew = .error (e, g)) :
      InnerOutcome io node pindexNew block (.error (e, node.setGlobals g))
  | uncommitted {T : TxIndexMap} {g : Globals}
      (hconnect : block.connectOn env io node pindexNew = .ok (T, g))
      (hcommit : io.commitFails (block.GetHash env) = true) :
      InnerOutcome io node pindexNew block (.error (.reject, node.setGlobals g))
  | interrupted {T : TxIndexMap} {g : Globals} {e : Stop} {ln1Db : AliasDb} {node' : Node}
      (hconnect : block.connectOn env io node pindexNew = .ok (T, g)) (he : e ≠ .reject)
      (hnode' : Node.SameChain { node.attach T (block.GetHash env) pindexNew with ln1Db := ln1Db }
        node') :
      InnerOutcome io node pindexNew block (.error (e, node'))
  | attached {T : TxIndexMap} {g : Globals} {ln1Db : AliasDb} {node' : Node}
      (hconnect : block.connectOn env io node pindexNew = .ok (T, g))
      (hcommit : io.commitFails (block.GetHash env) = false)
      (hfilter : LocatorNodeDB.filter env (io.visible node.files) T node.ln1Db pindexNew =
        .ok ln1Db)
      (hnode' : Node.SameChain { node.attach T (block.GetHash env) pindexNew with ln1Db := ln1Db }
        node') :
      InnerOutcome io node pindexNew block (.ok node')

theorem setBestChainInner_outcome (io : Io) (node : Node) (pindexNew : CBlockIndex)
    (block : CBlock) :
    InnerOutcome env io node pindexNew block (block.SetBestChainInner env io node pindexNew) := by
  generalize hr : block.SetBestChainInner env io node pindexNew = r
  unfold CBlock.SetBestChainInner at hr
  cases hconnect : block.connectOn env io node pindexNew with
  | error s =>
      obtain ⟨e, g⟩ := s
      rw [CBlock.connectOn] at hconnect
      rw [hconnect] at hr
      exact hr ▸ .refused hconnect
  | ok p =>
      obtain ⟨T, g⟩ := p
      have hconnect' := hconnect
      rw [CBlock.connectOn] at hconnect'
      simp only [hconnect', Halt.lift, bind, Except.bind] at hr
      by_cases hcommit : io.commitFails (block.GetHash env) = true
      · rw [if_pos hcommit] at hr
        exact hr ▸ .uncommitted hconnect hcommit
      · rw [if_neg hcommit] at hr
        have hsame := removeAll_sameChain env block.vtx
          ((node.setGlobals g).attach T (block.GetHash env) pindexNew)
        have havoids : Halt.Avoids .reject (block.vtx.foldlM (removeMined env)
            ((node.setGlobals g).attach T (block.GetHash env) pindexNew)) :=
          Halt.avoids_foldlM (removeMined_avoids env) _ _
        have hattach : (node.attach T (block.GetHash env) pindexNew).SameChain
            ((node.setGlobals g).attach T (block.GetHash env) pindexNew) := ⟨node.mempool, g, rfl⟩
        simp only [Node.attach] at hsame havoids
        generalize block.vtx.foldlM (removeMined env) _ = mined at hr hsame havoids
        rcases mined with ⟨e, s⟩ | s
        · simp only at hr
          have he : e ≠ .reject := by
            rintro rfl
            exact havoids s rfl
          obtain ⟨pool, g', rfl⟩ := hsame
          exact hr ▸ InnerOutcome.interrupted hconnect he ⟨pool, g', rfl⟩
        · obtain ⟨pool, g', rfl⟩ := hsame
          simp only [Node.setGlobals] at hr
          have hfavoids : (LocatorNodeDB.filter env (io.visible node.files) T node.ln1Db
              pindexNew).Avoids .reject := filterLoop_avoids env _ _ _ _ _ _
          cases hfilter : LocatorNodeDB.filter env (io.visible node.files) T node.ln1Db pindexNew with
          | error s =>
              obtain ⟨e, ln1Db⟩ := s
              rw [hfilter] at hr
              have he : e ≠ .reject := by
                rintro rfl
                exact hfavoids ln1Db hfilter
              exact hr ▸ .interrupted hconnect he ⟨pool, g', rfl⟩
          | ok ln1Db =>
              rw [hfilter] at hr
              exact hr ▸ .attached hconnect (by simpa using hcommit) hfilter ⟨pool, g', rfl⟩

/-! ## Reorganize -/

/-- The first half of a reorganisation to `pindexNew`: the fork is found, and everything above it
on the old branch is disconnected in the batch. -/
structure Disconnects (io : Io) (node : Node) (pindexNew pindexBest pfork : CBlockIndex)
    (T : TxIndexMap) (vResurrect : List CTransaction) : Prop where
  best : node.pindexBest = some pindexBest
  fork : Lineage.fork? pindexBest pindexNew = some pfork
  disconnected : disconnectBranch env (io.visible node.files) (Lineage.above pfork pindexBest)
    node.txdb.txindex [] = some (T, vResurrect)

/-- The second half: the blocks above the fork on the new branch are connected in the batch. -/
def connectAbove (io : Io) (node : Node) (pindexNew pfork : CBlockIndex) (T : TxIndexMap) :
    Halt Globals (TxIndexMap × Globals × List CTransaction) :=
  connectBranch env (node.view io) (Lineage.above pfork pindexNew).reverse T node.toGlobals []

/-- The state after the commit of a reorganisation. -/
def Node.switch (node : Node) (T : TxIndexMap) (pindexNew pindexBest pfork : CBlockIndex) : Node :=
  { node with
    txdb := ⟨T, some pindexNew.GetBlockHash⟩
    pnext := linkAll some (Lineage.above pfork pindexNew).reverse
      (linkAll (fun _ => none) (Lineage.above pfork pindexBest) node.pnext) }

inductive ReorganizeOutcome (io : Io) (node : Node) (pindexNew : CBlockIndex) :
    Halt Node Node → Prop
  | refused {e : Stop}
      (hnone : ∀ pindexBest pfork T vResurrect,
        ¬ Disconnects env io node pindexNew pindexBest pfork T vResurrect) :
      ReorganizeOutcome io node pindexNew (.error (e, node))
  | failed {pindexBest pfork : CBlockIndex} {T : TxIndexMap} {vResurrect : List CTransaction}
      {e : Stop} {g : Globals}
      (hdis : Disconnects env io node pindexNew pindexBest pfork T vResurrect)
      (hconnect : connectAbove env io node pindexNew pfork T = .error (e, g)) :
      ReorganizeOutcome io node pindexNew (.error (e, node.setGlobals g))
  | uncommitted {pindexBest pfork : CBlockIndex} {T T' : TxIndexMap}
      {vResurrect vDelete : List CTransaction} {g : Globals}
      (hdis : Disconnects env io node pindexNew pindexBest pfork T vResurrect)
      (hconnect : connectAbove env io node pindexNew pfork T = .ok (T', g, vDelete))
      (hcommit : io.commitFails pindexNew.GetBlockHash = true) :
      ReorganizeOutcome io node pindexNew (.error (.reject, node.setGlobals g))
  | interrupted {pindexBest pfork : CBlockIndex} {T T' : TxIndexMap}
      {vResurrect vDelete : List CTransaction} {g : Globals} {e : Stop} {node' : Node}
      (hdis : Disconnects env io node pindexNew pindexBest pfork T vResurrect)
      (hconnect : connectAbove env io node pindexNew pfork T = .ok (T', g, vDelete))
      (he : e ≠ .reject)
      (hnode' : Node.SameChain (node.switch T' pindexNew pindexBest pfork) node') :
      ReorganizeOutcome io node pindexNew (.error (e, node'))
  | reorganized {pindexBest pfork : CBlockIndex} {T T' : TxIndexMap}
      {vResurrect vDelete : List CTransaction} {g : Globals} {node' : Node}
      (hdis : Disconnects env io node pindexNew pindexBest pfork T vResurrect)
      (hconnect : connectAbove env io node pindexNew pfork T = .ok (T', g, vDelete))
      (hcommit : io.commitFails pindexNew.GetBlockHash = false)
      (hnode' : Node.SameChain (node.switch T' pindexNew pindexBest pfork) node') :
      ReorganizeOutcome io node pindexNew (.ok node')

/-- Moving the transactions of both branches changes the memory pool only, and reports no
failure. -/
theorem moveTxs_outcome (io : Io) (vResurrect vDelete : List CTransaction) (node : Node) :
    node.SameChain (vResurrect.foldlM (resurrectTx env io) node >>=
        fun node => vDelete.foldlM (deleteTx env) node).final ∧
      Halt.Avoids .reject (vResurrect.foldlM (resurrectTx env io) node >>=
        fun node => vDelete.foldlM (deleteTx env) node) := by
  constructor
  · exact Halt.final_seq Node.SameChain.trans (resurrectAll_sameChain env io vResurrect node)
      fun s _ => deleteAll_sameChain env vDelete s
  · refine Halt.avoids_seq.mpr ⟨Halt.avoids_foldlM (fun _ _ => Halt.avoids_attempt) _ _, ?_⟩
    exact fun s _ => Halt.avoids_foldlM (deleteTx_avoids env) _ _

theorem reorganize_outcome (io : Io) (node : Node) (pindexNew : CBlockIndex) :
    ReorganizeOutcome env io node pindexNew (Reorganize env io node pindexNew) := by
  generalize hr : Reorganize env io node pindexNew = r
  unfold Reorganize at hr
  split at hr
  · rename_i hbest
    refine hr ▸ .refused fun b f T v hdis => ?_
    rw [hdis.best] at hbest
    simp at hbest
  rename_i pindexBest hbest
  split at hr
  · rename_i hfork
    refine hr ▸ .refused fun b f T v hdis => ?_
    have hb := hdis.best
    rw [hbest, Option.some.injEq] at hb
    subst hb
    rw [hdis.fork] at hfork
    simp at hfork
  rename_i pfork hfork
  simp only at hr
  split at hr
  · rename_i hnone
    refine hr ▸ .refused fun b f T v hdis => ?_
    have hb := hdis.best
    rw [hbest, Option.some.injEq] at hb
    subst hb
    have hf := hdis.fork
    rw [hfork, Option.some.injEq] at hf
    subst hf
    rw [hdis.disconnected] at hnone
    simp at hnone
  rename_i T vResurrect hdisconnected
  have hdis : Disconnects env io node pindexNew pindexBest pfork T vResurrect :=
    ⟨hbest, hfork, hdisconnected⟩
  cases hconnect : connectAbove env io node pindexNew pfork T with
  | error s =>
      obtain ⟨e, g⟩ := s
      have hconnect' := hconnect
      rw [connectAbove] at hconnect'
      rw [hconnect'] at hr
      exact hr ▸ .failed hdis hconnect
  | ok p =>
      obtain ⟨T', g, vDelete⟩ := p
      have hconnect' := hconnect
      rw [connectAbove] at hconnect'
      rw [hconnect'] at hr
      simp only [Halt.lift] at hr
      by_cases hcommit : io.commitFails pindexNew.GetBlockHash = true
      · simp only [hcommit, if_true, bind, Except.bind] at hr
        exact hr ▸ .uncommitted hdis hconnect hcommit
      · have hcommit' : io.commitFails pindexNew.GetBlockHash = false := by simpa using hcommit
        obtain ⟨hsame, havoids⟩ := moveTxs_outcome env io vResurrect vDelete
          ((node.setGlobals g).switch T' pindexNew pindexBest pfork)
        have hswitch : (node.switch T' pindexNew pindexBest pfork).SameChain
            ((node.setGlobals g).switch T' pindexNew pindexBest pfork) := ⟨node.mempool, g, rfl⟩
        have hrest : (vResurrect.foldlM (resurrectTx env io)
            ((node.setGlobals g).switch T' pindexNew pindexBest pfork) >>=
              fun node => vDelete.foldlM (deleteTx env) node) = r := by
          rw [← hr]
          simp only [hcommit', Bool.false_eq_true, if_false, bind, Except.bind]
          rfl
        rw [hrest] at hsame havoids
        rcases r with ⟨e, s⟩ | s
        · have he : e ≠ .reject := by
            rintro rfl
            exact havoids s rfl
          exact .interrupted hdis hconnect he (Node.SameChain.trans _ _ _ hswitch hsame)
        · exact .reorganized hdis hconnect hcommit' (Node.SameChain.trans _ _ _ hswitch hsame)

/-! ## SetBestChain -/

/-- The entry reorganised to lies on the line of the entry asked for. -/
theorem splitPostponed_mem_line (nBestTrust : ℕ) (pindexNew : CBlockIndex) :
    (splitPostponed nBestTrust pindexNew).1 ∈ pindexNew.line := by
  induction pindexNew with
  | root d => simp [splitPostponed]
  | child d p ih =>
      simp only [splitPostponed]
      split
      · exact List.mem_cons_of_mem _ ih
      · simp

theorem postponed_mem_line {nBestTrust : ℕ} {pindex : CBlockIndex}
    (h : pindex ∈ (splitPostponed nBestTrust pindexNew).2) : pindex ∈ pindexNew.line := by
  induction pindexNew with
  | root d => simp [splitPostponed] at h
  | child d p ih =>
      simp only [splitPostponed] at h
      split at h
      · rcases List.mem_append.mp h with h | h
        · exact List.mem_cons_of_mem _ (ih h)
        · rw [List.mem_singleton] at h
          simp [h]
      · simp at h

/-- What the commits of a call of `SetBestChain` for `pindexNew` and the steps between them keep. -/
structure Kept (io : Io) (pindexNew : CBlockIndex) (P : Node → Prop) : Prop where
  sameChain : ∀ a b, P a → a.SameChain b → P b
  attach : ∀ a pindex block T g ln1Db, P a → pindex ∈ pindexNew.line →
    a.files.blocks (CBlockIndex.nFile pindex, CBlockIndex.nBlockPos pindex) = some block →
    block.connectOn env io a pindex = .ok (T, g) →
    P { a.attach T (block.GetHash env) pindex with ln1Db := ln1Db }
  switch : ∀ a pindex pindexBest pfork T T' vResurrect vDelete g, P a → pindex ∈ pindexNew.line →
    Disconnects env io a pindex pindexBest pfork T vResurrect →
    connectAbove env io a pindex pfork T = .ok (T', g, vDelete) →
    P (a.switch T' pindex pindexBest pfork)
  newBest : ∀ a hash, P a → P (newBest a hash pindexNew)

variable {env}

theorem Kept.inner {io : Io} (h : Kept env io pindexNew P) {node : Node} (hP : P node)
    {pindex : CBlockIndex} (hmem : pindex ∈ pindexNew.line) {block : CBlock}
    (hblock : node.files.blocks (pindex.nFile, pindex.nBlockPos) = some block) :
    P (block.SetBestChainInner env io node pindex).final := by
  have hout := setBestChainInner_outcome env io node pindex block
  generalize block.SetBestChainInner env io node pindex = r at hout ⊢
  cases hout with
  | refused _ => exact h.sameChain _ _ hP (sameChain_setGlobals node _)
  | uncommitted _ _ => exact h.sameChain _ _ hP (sameChain_setGlobals node _)
  | interrupted hconnect _ hnode' =>
      exact h.sameChain _ _ (h.attach _ _ _ _ _ _ hP hmem hblock hconnect) hnode'
  | attached hconnect _ _ hnode' =>
      exact h.sameChain _ _ (h.attach _ _ _ _ _ _ hP hmem hblock hconnect) hnode'

theorem Kept.reorganize {io : Io} (h : Kept env io pindexNew P) {node : Node} (hP : P node)
    {pindex : CBlockIndex} (hmem : pindex ∈ pindexNew.line) :
    P (Reorganize env io node pindex).final := by
  have hout := reorganize_outcome env io node pindex
  generalize Reorganize env io node pindex = r at hout ⊢
  cases hout with
  | refused _ => exact hP
  | failed _ _ => exact h.sameChain _ _ hP (sameChain_setGlobals node _)
  | uncommitted _ _ _ => exact h.sameChain _ _ hP (sameChain_setGlobals node _)
  | interrupted hdis hconnect _ hnode' =>
      exact h.sameChain _ _ (h.switch _ _ _ _ _ _ _ _ _ hP hmem hdis hconnect) hnode'
  | reorganized hdis hconnect _ hnode' =>
      exact h.sameChain _ _ (h.switch _ _ _ _ _ _ _ _ _ hP hmem hdis hconnect) hnode'

theorem Kept.postponed {io : Io} (h : Kept env io pindexNew P) {xs : List CBlockIndex} {node : Node}
    (hP : P node) (hmem : ∀ pindex ∈ xs, pindex ∈ pindexNew.line) :
    P (connectPostponed env io xs node).final := by
  induction xs generalizing node with
  | nil => exact hP
  | cons pindex xs ih =>
      rw [connectPostponed]
      split
      · exact hP
      · rename_i block hread
        have hone := h.inner hP (hmem pindex (by simp))
          (visible_blocks (readFromDisk_blocks env hread))
        generalize block.SetBestChainInner env io node pindex = r at hone ⊢
        rcases r with ⟨_ | _ | _ | _, s⟩ | s
        · exact hone
        · exact hone
        · exact hone
        · exact hone
        · exact ih hone fun p hp => hmem p (List.mem_cons_of_mem _ hp)

/-- What the steps keep, a call keeps, however it ends. -/
theorem Kept.setBestChain {io : Io} (h : Kept env io pindexNew P) {node : Node} (hP : P node)
    (hgenesis : node.pindexGenesisBlock.isSome = true) {block : CBlock}
    (hblock : node.files.blocks (pindexNew.nFile, pindexNew.nBlockPos) = some block) :
    P (block.SetBestChain env io node pindexNew).final := by
  have hnot : ¬ (node.pindexGenesisBlock.isNone = true ∧
      block.GetHash env = env.hashGenesisBlock) := by
    cases hg : node.pindexGenesisBlock <;> simp_all
  unfold CBlock.SetBestChain
  simp only
  rw [if_neg hnot]
  split
  · have hinner := h.inner hP (Lineage.mem_line_self pindexNew) hblock
    cases hr : block.SetBestChainInner env io node pindexNew with
    | error s =>
        rw [hr] at hinner
        exact hinner
    | ok node' =>
        rw [hr] at hinner
        exact h.newBest _ _ hinner
  · split
    · exact hP
    · rename_i pindexBest hbest
      have hreorg := h.reorganize hP
        (splitPostponed_mem_line pindexBest.nChainTrust pindexNew)
      cases hr : Reorganize env io node (splitPostponed pindexBest.nChainTrust pindexNew).1 with
      | error s =>
          rw [hr] at hreorg
          simpa only [hr, bind, Except.bind] using hreorg
      | ok node' =>
          rw [hr, Halt.final_ok] at hreorg
          have hpost := h.postponed hreorg fun p
            (hp : p ∈ (splitPostponed pindexBest.nChainTrust pindexNew).2) => postponed_mem_line hp
          simp only [bind, Except.bind]
          cases hr' : connectPostponed env io
              (splitPostponed pindexBest.nChainTrust pindexNew).2 node' with
          | error s =>
              rw [hr'] at hpost
              exact hpost
          | ok node'' =>
              rw [hr'] at hpost
              exact h.newBest _ _ hpost

end Dions
