import Dions.Verification.Mempool.Pending

/-! # Pending names over whole runs

A call that connects blocks takes their transactions out of `mapState` first and out of the pool
later. In between the two differ; when the call goes through they agree again. -/

namespace Dions

open Halting

variable {env : Env} {S : Set CTransaction} {D : Set uint256}
variable {node : Node} {vResurrect : List CTransaction}
variable {pfork pindex pindexBest pindexNew : CBlockIndex} {g : Globals} {tx : CTransaction}
  {files : BlockFile} {vDelete : List CTransaction}

/-! ## The transactions of the blocks -/

theorem postedLoop_subset {view : View} {txdb : TxIndexMap}
    {rest : List (CDiskTxPos × CTransaction)} {queued : TxIndexMap} {t : Tally}
    (h : tx ∈ postedLoop env view txdb pindex rest queued g t) : tx ∈ rest.map Prod.snd := by
  induction rest generalizing queued g t with
  | nil => simp [postedLoop] at h
  | cons p rest ih =>
      obtain ⟨pos, tx'⟩ := p
      simp only [postedLoop, List.mem_append] at h
      rcases h with h | h
      · split at h
        · simp [List.mem_singleton.mp h]
        · simp at h
      · split at h
        · exact List.mem_cons_of_mem _ (ih h)
        · simp at h

theorem posted_subset {view : View} {txdb : TxIndexMap} {block : CBlock}
    (h : tx ∈ block.posted env view txdb g pindex) : tx ∈ block.vtx := by
  unfold CBlock.posted at h
  split at h
  · have hmem := postedLoop_subset h
    rwa [CBlock.positions, txPositions_map_snd] at hmem
  · simp at h

/-- The transactions of every block in the files belong to `S`. -/
def FilesIn (S : Set CTransaction) (files : BlockFile) : Prop :=
  ∀ place block, files.blocks place = some block → ∀ tx ∈ block.vtx, tx ∈ S

theorem FilesIn.read (h : FilesIn S files) {io : Io} {pindex : CBlockIndex} {block : CBlock}
    (hread : (io.visible files).ReadFromDisk env pindex = some block) : ∀ tx ∈ block.vtx, tx ∈ S :=
  h _ _ (visible_blocks (readFromDisk_blocks env hread))

theorem postedBranch_mem {io : Io} (hfiles : FilesIn S node.files) {branch : List CBlockIndex}
    {T : TxIndexMap} {g : Globals} {tx : CTransaction}
    (h : tx ∈ postedBranch env (node.view io) branch T g) : tx ∈ S := by
  induction branch generalizing T g with
  | nil => simp at h
  | cons pindex rest ih =>
      rw [postedBranch_cons] at h
      split at h
      next => simp at h
      next block hread =>
        rcases List.mem_append.mp h with h | h
        · exact hfiles.read hread tx (posted_subset h)
        · split at h
          · exact ih h
          · simp at h

/-- What connecting a branch has queued for deletion when it succeeds. -/
theorem connectBranch_vDelete {io : Io} (hfiles : FilesIn S node.files) {branch : List CBlockIndex}
    {T T' : TxIndexMap} {g g' : Globals} {vDelete vDelete' : List CTransaction}
    (h : connectBranch env (node.view io) branch T g vDelete = .ok (T', g', vDelete'))
    (hdelete : ∀ tx ∈ vDelete, tx ∈ S) :
    (∀ tx ∈ vDelete', tx ∈ S) ∧ (∀ tx ∈ vDelete, tx ∈ vDelete') ∧
      ∀ tx ∈ postedBranch env (node.view io) branch T g, tx ∈ vDelete' := by
  induction branch generalizing T g vDelete with
  | nil =>
      simp only [connectBranch, Except.ok.injEq, Prod.mk.injEq] at h
      obtain ⟨-, -, rfl⟩ := h
      exact ⟨hdelete, fun _ hmem => hmem, by simp⟩
  | cons pindex rest ih =>
      simp only [connectBranch] at h
      split at h
      next => cases h
      next block hread =>
        rw [seq_ok] at h
        obtain ⟨⟨T₁, g₁⟩, hconnect, h⟩ := h
        have hsplit : postedBranch env (node.view io) (pindex :: rest) T g =
            block.posted env (node.view io) T g pindex ++
              postedBranch env (node.view io) rest T₁ g₁ := by
          rw [postedBranch_cons, hread]
          dsimp only
          rw [hconnect]
        have hall : ∀ tx ∈ vDelete ++ block.vtx, tx ∈ S := by
          intro tx hmem
          rcases List.mem_append.mp hmem with hmem | hmem
          · exact hdelete tx hmem
          · exact hfiles.read hread tx hmem
        obtain ⟨hin, hkept, hposted⟩ := ih h hall
        refine ⟨hin, fun tx hmem => hkept tx (List.mem_append_left _ hmem), ?_⟩
        intro tx hmem
        rw [hsplit] at hmem
        rcases List.mem_append.mp hmem with hmem | hmem
        · exact hkept tx (List.mem_append_right _ (posted_subset hmem))
        · exact hposted tx hmem

theorem disconnectBranch_mem {io : Io} (hfiles : FilesIn S files) {branch : List CBlockIndex}
    {T T' : TxIndexMap} {vResurrect vResurrect' : List CTransaction}
    (h : disconnectBranch env (io.visible files) branch T vResurrect = some (T', vResurrect'))
    (hmem : ∀ tx ∈ vResurrect, tx ∈ S) : ∀ tx ∈ vResurrect', tx ∈ S := by
  induction branch generalizing T vResurrect with
  | nil =>
      simp only [disconnectBranch, Option.some.injEq, Prod.mk.injEq] at h
      rwa [← h.2]
  | cons pindex rest ih =>
      simp only [disconnectBranch] at h
      split at h
      next => cases h
      next block hread =>
        split at h
        next => cases h
        next T₁ _ =>
          apply ih h
          intro tx htx
          split at htx
          · rcases List.mem_append.mp htx with htx | htx
            · exact hfiles.read hread tx (List.mem_filter.mp htx).1
            · exact hmem tx htx
          · exact hmem tx htx

/-! ## Taking mined transactions out of the pool -/

def Node.poolState (node : Node) : PoolState := (node.mempool, node.toGlobals)

/-- A call on the pool, made by a node. -/
def Node.onPool (node : Node) (x : Halt PoolState PoolState) : Halt Node Node :=
  x.lift (PoolState.put node) >>= fun s => .ok (PoolState.put node s)

theorem onPool_final (node : Node) (x : Halt PoolState PoolState) :
    (node.onPool x).final.poolState = x.final := by
  cases x with
  | error e => rfl
  | ok s => rfl

theorem onPool_ok {node' : Node} {x : Halt PoolState PoolState} (h : node.onPool x = .ok node') :
    x = .ok node'.poolState := by
  cases x with
  | error e => cases h
  | ok s =>
      cases h
      rfl

theorem removeMined_eq (node : Node) (tx : CTransaction) :
    removeMined env node tx = node.onPool (CTxMemPool.remove env false tx node.poolState) := rfl

theorem deleteTx_eq (node : Node) (tx : CTransaction) :
    deleteTx env node tx = node.onPool (CTxMemPool.remove env false tx node.poolState >>=
      CTxMemPool.removeConflicts env tx) := rfl

/-- A step that takes one transaction out of the pool, and possibly others with it. -/
structure Clears (env : Env) (S : Set CTransaction) (f : Node → CTransaction → Halt Node Node) :
    Prop where
  mirrors : ∀ D node tx, tx ∈ S → Mirrors env S D node.poolState →
    Mirrors env S D (f node tx).final.poolState
  shrinks : ∀ node tx, tx ∈ S → Shrinks env S node.poolState (f node tx).final.poolState
  gone : ∀ node tx node', tx ∈ S → node.mempool.Ok env S → f node tx = .ok node' →
    node'.mempool.lookup (tx.GetHash env) = none

theorem clears_removeMined (hS : HashIdentifies env S) : Clears env S (removeMined env) where
  mirrors := by
    intro D node tx htx h
    rw [removeMined_eq, onPool_final]
    exact (removeTx_mirrors hS false _ tx htx node.poolState h).1
  shrinks := by
    intro node tx htx
    rw [removeMined_eq, onPool_final]
    exact removeTx_shrinks hS.separates false _ tx htx node.poolState
  gone := by
    intro node tx node' _ _ h
    rw [removeMined_eq] at h
    exact removeTx_gone false _ tx node.poolState node'.poolState (onPool_ok h)

theorem clears_deleteTx (hS : HashIdentifies env S) : Clears env S (deleteTx env) where
  mirrors := by
    intro D node tx htx h
    rw [deleteTx_eq, onPool_final]
    have hremove := (removeTx_mirrors hS false node.poolState.1.mapTx.length tx htx
      node.poolState h).1
    unfold CTxMemPool.remove
    cases hrun : removeTx env false node.poolState.1.mapTx.length tx node.poolState with
    | error e =>
        rw [hrun] at hremove
        exact hremove
    | ok s =>
        rw [hrun, Halt.final_ok] at hremove
        obtain ⟨s', hs', hmirrors⟩ := removeConflicts_mirrors hS tx s hremove
        simp only [bind, Except.bind, hs']
        exact hmirrors
  shrinks := by
    intro node tx htx
    rw [deleteTx_eq, onPool_final]
    exact Halt.final_seq Shrinks.trans (removeTx_shrinks hS.separates false _ tx htx node.poolState)
      fun s _ => removeConflicts_shrinks hS.separates tx s
  gone := by
    intro node tx node' htx hok h
    rw [deleteTx_eq] at h
    obtain ⟨s, hremove, hconflicts⟩ := seq_ok.mp (onPool_ok h)
    have hshrinks := removeTx_shrinks hS.separates false node.poolState.1.mapTx.length tx htx
      node.poolState hok
    unfold CTxMemPool.remove at hremove
    have hgone := removeTx_gone false _ tx node.poolState s hremove
    rw [hremove, Halt.final_ok] at hshrinks
    have hrest := removeConflicts_shrinks hS.separates tx s hshrinks.1
    rw [hconflicts, Halt.final_ok] at hrest
    cases hleft : node'.mempool.lookup (tx.GetHash env) with
    | none => rfl
    | some t =>
        have hold := hrest.2 _ t hleft
        rw [hgone] at hold
        cases hold

theorem Clears.foldlM {f : Node → CTransaction → Halt Node Node} (hf : Clears env S f)
    (txs : List CTransaction) (htxs : ∀ tx ∈ txs, tx ∈ S) (node : Node)
    (h : Mirrors env S D node.poolState) :
    Mirrors env S D (txs.foldlM f node).final.poolState ∧
      Shrinks env S node.poolState (txs.foldlM f node).final.poolState ∧
      ∀ node', txs.foldlM f node = .ok node' →
        ∀ tx ∈ txs, node'.mempool.lookup (tx.GetHash env) = none := by
  induction txs generalizing node with
  | nil =>
      refine ⟨h, Shrinks.refl _, ?_⟩
      intro node' _ tx hmem
      cases hmem
  | cons tx txs ih =>
      obtain ⟨htx, htxs⟩ := List.forall_mem_cons.mp htxs
      have hmirrors := hf.mirrors D node tx htx h
      have hshrinks := hf.shrinks node tx htx
      rw [List.foldlM_cons]
      cases hstep : f node tx with
      | error e =>
          rw [hstep] at hmirrors hshrinks
          refine ⟨hmirrors, hshrinks, ?_⟩
          intro node' hnode'
          cases hnode'
      | ok mid =>
          rw [hstep, Halt.final_ok] at hmirrors hshrinks
          obtain ⟨hmirrors', hshrinks', hgone'⟩ := ih htxs mid hmirrors
          refine ⟨hmirrors', hshrinks.trans _ _ _ hshrinks', ?_⟩
          intro node' hnode' t ht
          rcases List.mem_cons.mp ht with rfl | ht
          · have hgone := hf.gone node t mid htx h.ok hstep
            cases hleft : node'.mempool.lookup (t.GetHash env) with
            | none => rfl
            | some t' =>
                change txs.foldlM f mid = .ok node' at hnode'
                rw [hnode', Halt.final_ok] at hshrinks'
                have hold := (hshrinks' hmirrors.ok).2 _ t' hleft
                rw [Node.poolState, hgone] at hold
                cases hold
          · exact hgone' node' hnode' t ht

/-- When the loop ends, nothing is left that was out of `mapState` and in the list. -/
theorem Clears.settles {f : Node → CTransaction → Halt Node Node} (hf : Clears env S f)
    {txs : List CTransaction} (htxs : ∀ tx ∈ txs, tx ∈ S) {node node' : Node}
    (h : Mirrors env S D node.poolState) (hD : ∀ hash ∈ D, ∃ tx ∈ txs, tx.GetHash env = hash)
    (hrun : txs.foldlM f node = .ok node') : Mirrors env S ∅ node'.poolState := by
  obtain ⟨hmirrors, -, hgone⟩ := hf.foldlM txs htxs node h
  rw [hrun, Halt.final_ok] at hmirrors
  apply hmirrors.shift
  intro hash hpooled
  refine iff_of_false ?_ (Set.notMem_empty hash)
  intro hmem
  obtain ⟨tx, htx, rfl⟩ := hD hash hmem
  have hnone := hgone node' hrun tx htx
  change node'.mempool.exists_ (tx.GetHash env) = true at hpooled
  simp [CTxMemPool.exists_, hnone] at hpooled

/-! ## A block on the tip -/

/-- None of the transactions is pooled and has a name. -/
def NoneNamed (env : Env) (pool : CTxMemPool) (posted : List CTransaction) : Prop :=
  ∀ tx ∈ posted, pool.exists_ (tx.GetHash env) = true → pendingKey env tx = none

/-- Then erasing them makes no difference. -/
theorem Mirrors.erased_none (hS : HashIdentifies env S) {pool : CTxMemPool} {g g' : Globals}
    (h : Mirrors env S ∅ (pool, g)) {posted : List CTransaction}
    (hposted : ∀ tx ∈ posted, tx ∈ S) (hnone : NoneNamed env pool posted)
    (hmap : g'.mapState = posted.foldl (erasePending env) g.mapState) :
    Mirrors env S ∅ (pool, g') := by
  have herased := h.erased hS posted hposted hmap
  apply herased.narrow
  intro hash tx htx hkey
  refine iff_of_false ?_ (Set.notMem_empty hash)
  simp only [Set.empty_union, Set.mem_ofPred_eq]
  rintro ⟨tx', hmem, hhash⟩
  obtain ⟨hin, hname⟩ := h.ok.named hash tx htx
  have heq : tx' = tx := hS tx' (hposted tx' hmem) tx hin (by rw [hhash, hname])
  subst heq
  exact hkey (hnone tx' hmem (by simp [CTxMemPool.exists_, hname, htx]))

/-- The call goes through to the point where the transactions of the block have left the pool. -/
def Completes (env : Env) (io : Io) (node : Node) (pindexNew : CBlockIndex) (block : CBlock) :
    Prop :=
  ∃ T g node', block.connectOn env io node pindexNew = .ok (T, g) ∧
    io.commitFails (block.GetHash env) = false ∧
    block.vtx.foldlM (removeMined env)
      ((node.setGlobals g).attach T (block.GetHash env) pindexNew) = .ok node'

def InnerKeeps (env : Env) (io : Io) (node : Node) (pindexNew : CBlockIndex) (block : CBlock) :
    Prop :=
  Completes env io node pindexNew block ∨
    NoneNamed env node.mempool
      (block.posted env (node.view io) node.txdb.txindex node.toGlobals pindexNew)

theorem inner_mirrors (hS : HashIdentifies env S) {io : Io} {node : Node} {pindexNew : CBlockIndex}
    {block : CBlock} (hblock : ∀ tx ∈ block.vtx, tx ∈ S)
    (hkeeps : InnerKeeps env io node pindexNew block) (h : Mirrors env S ∅ node.poolState) :
    Mirrors env S ∅ (block.SetBestChainInner env io node pindexNew).final.poolState := by
  have hmap := connectBlock_mapState env (node.view io) node.txdb.txindex node.toGlobals pindexNew
    block
  have hposted : ∀ tx ∈ block.posted env (node.view io) node.txdb.txindex node.toGlobals pindexNew,
      tx ∈ S := fun tx hmem => hblock tx (posted_subset hmem)
  unfold CBlock.SetBestChainInner
  cases hconnect : block.ConnectBlock env (node.view io) node.txdb.txindex node.toGlobals
      pindexNew with
  | error e =>
      obtain ⟨stop, g⟩ := e
      rw [hconnect, Halt.left_error] at hmap
      rcases hkeeps with hdone | hnone
      · obtain ⟨T, g', node', hrun, -, -⟩ := hdone
        rw [CBlock.connectOn, hconnect] at hrun
        cases hrun
      · exact h.erased_none hS hposted hnone hmap
  | ok r =>
      obtain ⟨T, g⟩ := r
      rw [hconnect, Halt.left_ok] at hmap
      simp only [Halt.lift, bind, Except.bind]
      by_cases hcommit : io.commitFails (block.GetHash env) = true
      · rw [if_pos hcommit]
        rcases hkeeps with hdone | hnone
        · obtain ⟨-, -, -, -, hcommit', -⟩ := hdone
          rw [hcommit] at hcommit'
          cases hcommit'
        · exact h.erased_none hS hposted hnone hmap
      · rw [if_neg hcommit]
        -- what is left of the call after the removals does not touch the pool
        have hremoved : Mirrors env S ∅ (block.vtx.foldlM (removeMined env)
            ((node.setGlobals g).attach T (block.GetHash env) pindexNew)).final.poolState := by
          rcases hkeeps with hdone | hnone
          · obtain ⟨T', g', node', hrun, -, hremove⟩ := hdone
            rw [CBlock.connectOn, hconnect] at hrun
            cases hrun
            have herased : Mirrors env S _
                ((node.setGlobals g).attach T (block.GetHash env) pindexNew).poolState :=
              h.erased hS _ hposted hmap
            rw [hremove]
            refine (clears_removeMined hS).settles hblock herased ?_ hremove
            intro hash hmem
            rw [Set.empty_union] at hmem
            obtain ⟨tx, htx, hhash⟩ := hmem
            exact ⟨tx, posted_subset htx, hhash⟩
          · exact ((clears_removeMined hS).foldlM block.vtx hblock
              ((node.setGlobals g).attach T (block.GetHash env) pindexNew)
              (h.erased_none hS hposted hnone hmap)).1
        simp only [Node.attach] at hremoved
        generalize block.vtx.foldlM (removeMined env) _ = mined at hremoved ⊢
        cases mined with
        | error e => exact hremoved
        | ok mid =>
            simp only
            cases LocatorNodeDB.filter env (io.visible mid.files) mid.txdb.txindex mid.ln1Db
                pindexNew with
            | error e => exact hremoved
            | ok ln1Db => exact hremoved

/-! ## Reorganisation -/

theorem accept_pooled {io : Io} {hash : uint256} (h : node.mempool.exists_ hash = true) :
    (AcceptToMemoryPool env io node tx).final.mempool.exists_ hash = true := by
  rcases accept_mempool io node tx with heq | ⟨-, heq⟩
  · rwa [heq]
  · rw [heq, CTxMemPool.exists_, CTxMemPool.lookup_addUnchecked]
    split
    · rfl
    · exact h

/-- Transactions of the old branch come back while those of the new one are out of `mapState`. -/
theorem resurrect_mirrors {io : Io} (hin : ∀ tx ∈ vResurrect, tx ∈ S)
    (hD : ∀ hash ∈ D, node.mempool.exists_ hash = true) (h : Mirrors env S D node.poolState)
    (hkeeps : Halt.Along (resurrectTx env io) (AcceptKeeps env io) vResurrect node) :
    Mirrors env S D (vResurrect.foldlM (resurrectTx env io) node).final.poolState := by
  induction vResurrect generalizing node with
  | nil => exact h
  | cons tx vResurrect ih =>
      obtain ⟨htx, hin⟩ := List.forall_mem_cons.mp hin
      obtain ⟨hone, hrest⟩ := hkeeps
      have hstep : Mirrors env S D (resurrectTx env io node tx).final.poolState := by
        rw [resurrectTx, Halt.final_attempt]
        exact accept_mirrors htx hone hD h
      have hgrown : ∀ hash ∈ D, (resurrectTx env io node tx).final.mempool.exists_ hash = true := by
        intro hash hmem
        rw [resurrectTx, Halt.final_attempt]
        exact accept_pooled (hD hash hmem)
      rw [List.foldlM_cons]
      cases hrun : resurrectTx env io node tx with
      | error e =>
          rw [hrun] at hstep
          exact hstep
      | ok mid =>
          rw [hrun] at hstep hgrown
          exact ih hin hgrown hstep (hrest mid hrun)

/-- The reorganisation is not left in between, or no pooled transaction of the new branch has a
name; and the transactions that come back are taken up by the hooks. -/
structure ReorganizeKeeps (env : Env) (io : Io) (node : Node) (pindexNew : CBlockIndex) : Prop where
  removes : ∀ pindexBest pfork T vResurrect,
    Disconnects env io node pindexNew pindexBest pfork T vResurrect →
    (∃ node', Reorganize env io node pindexNew = .ok node') ∨
      NoneNamed env node.mempool (postedBranch env (node.view io)
        (Lineage.above pfork pindexNew).reverse T node.toGlobals)
  accepts : ∀ pindexBest pfork T vResurrect T' g vDelete,
    Disconnects env io node pindexNew pindexBest pfork T vResurrect →
    connectAbove env io node pindexNew pfork T = .ok (T', g, vDelete) →
    Halt.Along (resurrectTx env io) (AcceptKeeps env io) vResurrect
      ((node.setGlobals g).switch T' pindexNew pindexBest pfork)

/-- What `Reorganize` does once its branch is connected and committed. -/
theorem reorganize_moves {io : Io} {T T' : TxIndexMap}
    (hdis : Disconnects env io node pindexNew pindexBest pfork T vResurrect)
    (hconnect : connectAbove env io node pindexNew pfork T = .ok (T', g, vDelete))
    (hcommit : io.commitFails pindexNew.GetBlockHash = false) :
    Reorganize env io node pindexNew =
      vResurrect.foldlM (resurrectTx env io)
          ((node.setGlobals g).switch T' pindexNew pindexBest pfork) >>=
        fun node => vDelete.foldlM (deleteTx env) node := by
  rw [connectAbove] at hconnect
  simp only [Reorganize, hdis.best, hdis.fork, hdis.disconnected, hconnect, Halt.lift, hcommit,
    Bool.false_eq_true, ↓reduceIte]
  rfl

theorem reorganize_uncommitted {io : Io} {T T' : TxIndexMap}
    (hdis : Disconnects env io node pindexNew pindexBest pfork T vResurrect)
    (hconnect : connectAbove env io node pindexNew pfork T = .ok (T', g, vDelete))
    (hcommit : io.commitFails pindexNew.GetBlockHash = true) :
    Reorganize env io node pindexNew = .error (.reject, node.setGlobals g) := by
  rw [connectAbove] at hconnect
  simp only [Reorganize, hdis.best, hdis.fork, hdis.disconnected, hconnect, Halt.lift, hcommit,
    ↓reduceIte, bind, Except.bind]

theorem reorganize_mirrors (hS : HashIdentifies env S) {io : Io} {node : Node}
    {pindexNew : CBlockIndex} (hfiles : FilesIn S node.files)
    (hkeeps : ReorganizeKeeps env io node pindexNew) (h : Mirrors env S ∅ node.poolState) :
    Mirrors env S ∅ (Reorganize env io node pindexNew).final.poolState := by
  by_cases hrefused : ∃ pindexBest pfork T vResurrect,
      Disconnects env io node pindexNew pindexBest pfork T vResurrect
  · obtain ⟨pindexBest, pfork, T, vResurrect, hdis⟩ := hrefused
    have hmap := connectBranch_mapState env (node.view io) (Lineage.above pfork pindexNew).reverse T
      node.toGlobals []
    have hremoves := hkeeps.removes pindexBest pfork T vResurrect hdis
    have hposted : ∀ tx ∈ postedBranch env (node.view io) (Lineage.above pfork pindexNew).reverse T
        node.toGlobals, tx ∈ S := fun tx hmem => postedBranch_mem hfiles hmem
    have hin : ∀ tx ∈ vResurrect, tx ∈ S := disconnectBranch_mem hfiles hdis.disconnected (by simp)
    -- a call that stops early has no pooled transaction with a name behind it
    have hearly : ∀ stop g, Reorganize env io node pindexNew = .error (stop, node.setGlobals g) →
        g.mapState = (postedBranch env (node.view io) (Lineage.above pfork pindexNew).reverse T
          node.toGlobals).foldl (erasePending env) node.mapState →
        Mirrors env S ∅ (node.setGlobals g).poolState := by
      intro stop g hstop hg
      rcases hremoves with ⟨node', hdone⟩ | hnone
      · rw [hstop] at hdone
        cases hdone
      · exact h.erased_none hS hposted hnone hg
    cases hconnect : connectAbove env io node pindexNew pfork T with
    | error e =>
        obtain ⟨stop, g⟩ := e
        have hstop := reorganize_failed hdis hconnect
        rw [connectAbove] at hconnect
        rw [hconnect, Halt.left_error] at hmap
        rw [hstop]
        exact hearly stop g hstop hmap
    | ok r =>
        obtain ⟨T', g, vDelete⟩ := r
        have hconnect' := hconnect
        rw [connectAbove] at hconnect'
        rw [hconnect', Halt.left_ok] at hmap
        cases hcommit : io.commitFails pindexNew.GetBlockHash with
        | true =>
            have hstop := reorganize_uncommitted hdis hconnect hcommit
            rw [hstop]
            exact hearly _ g hstop hmap
        | false =>
            have hmoves := reorganize_moves hdis hconnect hcommit
            have halong := hkeeps.accepts _ _ _ _ _ _ _ hdis hconnect
            obtain ⟨hdelete, -, hqueued⟩ := connectBranch_vDelete hfiles hconnect' (by simp)
            rcases hremoves with ⟨node', hdone⟩ | hnone
            · -- the hashes that are out of `mapState` and still in the pool
              let D : Set uint256 := {hash | node.mempool.exists_ hash = true ∧
                ∃ tx ∈ postedBranch env (node.view io) (Lineage.above pfork pindexNew).reverse T
                  node.toGlobals, tx.GetHash env = hash}
              have herased : Mirrors env S D
                  ((node.setGlobals g).switch T' pindexNew pindexBest pfork).poolState := by
                have hall := h.erased hS _ hposted hmap
                apply hall.shift
                intro hash hpooled
                have hpooled' : node.mempool.exists_ hash = true := hpooled
                simp [D, hpooled']
              have hpooled : ∀ hash ∈ D, ((node.setGlobals g).switch T' pindexNew pindexBest
                  pfork).mempool.exists_ hash = true := fun hash hmem => hmem.1
              have hback := resurrect_mirrors hin hpooled herased halong
              rw [hdone]
              rw [hmoves, seq_ok] at hdone
              obtain ⟨mid, hmid, hdone⟩ := hdone
              rw [hmid, Halt.final_ok] at hback
              refine (clears_deleteTx hS).settles hdelete hback ?_ hdone
              intro hash hmem
              obtain ⟨-, tx, htx, hhash⟩ := hmem
              exact ⟨tx, hqueued tx htx, hhash⟩
            · have herased : Mirrors env S ∅
                  ((node.setGlobals g).switch T' pindexNew pindexBest pfork).poolState :=
                h.erased_none hS hposted hnone hmap
              have hback := resurrect_mirrors hin (by simp) herased halong
              rw [hmoves]
              cases hrun : vResurrect.foldlM (resurrectTx env io)
                  ((node.setGlobals g).switch T' pindexNew pindexBest pfork) with
              | error e =>
                  rw [hrun] at hback
                  exact hback
              | ok mid =>
                  rw [hrun, Halt.final_ok] at hback
                  exact ((clears_deleteTx hS).foldlM vDelete hdelete mid hback).1
  · have hout := reorganize_outcome env io node pindexNew
    cases hrun : Reorganize env io node pindexNew with
    | error e =>
        rw [hrun] at hout
        cases hout with
        | refused _ => exact h
        | failed hdis _ => exact absurd ⟨_, _, _, _, hdis⟩ hrefused
        | uncommitted hdis _ _ => exact absurd ⟨_, _, _, _, hdis⟩ hrefused
        | interrupted hdis _ _ _ => exact absurd ⟨_, _, _, _, hdis⟩ hrefused
    | ok node' =>
        rw [hrun] at hout
        cases hout with
        | reorganized hdis _ _ _ => exact absurd ⟨_, _, _, _, hdis⟩ hrefused

/-! ## A call of SetBestChain -/

/-- Every postponed block that is reached keeps the names. -/
def PostponedKeeps (env : Env) (io : Io) : List CBlockIndex → Node → Prop
  | [], _ => True
  | pindex :: rest, node =>
    ∀ block, (io.visible node.files).ReadFromDisk env pindex = some block →
      InnerKeeps env io node pindex block ∧
        ∀ node', block.SetBestChainInner env io node pindex = .ok node' →
          PostponedKeeps env io rest node'

theorem connectPostponed_mirrors (hS : HashIdentifies env S) {io : Io} {rest : List CBlockIndex}
    {node : Node} (hfiles : FilesIn S node.files) (hkeeps : PostponedKeeps env io rest node)
    (h : Mirrors env S ∅ node.poolState) :
    Mirrors env S ∅ (connectPostponed env io rest node).final.poolState := by
  induction rest generalizing node with
  | nil => exact h
  | cons pindex rest ih =>
      unfold connectPostponed
      split
      next => exact h
      next block hread =>
        obtain ⟨hinner, hrest⟩ := hkeeps block hread
        have hone := inner_mirrors hS (hfiles.read hread) hinner h
        cases hrun : block.SetBestChainInner env io node pindex with
        | error e =>
            obtain ⟨stop, node'⟩ := e
            rw [hrun] at hone
            cases stop <;> exact hone
        | ok node' =>
            rw [hrun] at hone
            have hsame := (setBestChainInner_sameFiles hrun).1
            exact ih (by rwa [hsame]) (hrest node' hrun) hone

/-- No part of the call leaves pooled transactions with a name out of `mapState`. -/
def CallKeeps (env : Env) (io : Io) (node : Node) (pindexNew : CBlockIndex) (block : CBlock) :
    Prop :=
  ¬(node.pindexGenesisBlock.isNone = true ∧ block.GetHash env = env.hashGenesisBlock) →
    if block.hashPrevBlock = node.hashBestChain then InnerKeeps env io node pindexNew block
    else
      ReorganizeKeeps env io node (node.split pindexNew).1 ∧
        ∀ node', Reorganize env io node (node.split pindexNew).1 = .ok node' →
          PostponedKeeps env io (node.split pindexNew).2 node'

/-- The transactions that a call can come across: those of its block, and on a side branch those of
the blocks on disk. -/
def CallIn (S : Set CTransaction) (node : Node) (block : CBlock) : Prop :=
  (∀ tx ∈ block.vtx, tx ∈ S) ∧
    (block.hashPrevBlock ≠ node.hashBestChain → FilesIn S node.files)

theorem setBestChain_mirrors (hS : HashIdentifies env S) {io : Io} {node : Node}
    {pindexNew : CBlockIndex} {block : CBlock} (hin : CallIn S node block)
    (hkeeps : CallKeeps env io node pindexNew block) (h : Mirrors env S ∅ node.poolState) :
    Mirrors env S ∅ (block.SetBestChain env io node pindexNew).final.poolState := by
  unfold CBlock.SetBestChain
  simp only
  split
  next =>
    split
    · exact h
    · exact h
  next hgenesis =>
    have hkeeps := hkeeps hgenesis
    split
    next htip =>
      rw [if_pos htip] at hkeeps
      have hinner := inner_mirrors hS hin.1 hkeeps h
      cases hrun : block.SetBestChainInner env io node pindexNew with
      | error e =>
          rw [hrun] at hinner
          exact hinner
      | ok node' =>
          rw [hrun] at hinner
          exact hinner
    next htip =>
      rw [if_neg htip] at hkeeps
      obtain ⟨hreorganize, hpostponed⟩ := hkeeps
      have hfiles := hin.2 htip
      split
      next => exact h
      next pindexBest hbest =>
        have hsplit : splitPostponed pindexBest.nChainTrust pindexNew = node.split pindexNew := by
          rw [Node.split, Node.nBestChainTrust, hbest]
        rw [hsplit]
        have hfirst := reorganize_mirrors hS hfiles hreorganize h
        cases hrun : Reorganize env io node (node.split pindexNew).1 with
        | error e =>
            rw [hrun] at hfirst
            exact hfirst
        | ok mid =>
            rw [hrun, Halt.final_ok] at hfirst
            have hsame := (reorganize_sameFiles hrun).1
            have hrest := connectPostponed_mirrors hS (by rwa [hsame]) (hpostponed mid hrun) hfirst
            simp only [bind, Except.bind]
            cases hlast : connectPostponed env io (node.split pindexNew).2 mid with
            | error e =>
                rw [hlast] at hrest
                exact hrest
            | ok node' =>
                rw [hlast] at hrest
                exact hrest

/-! ## Every run -/

/-- The nodes that runs reach from an empty pool, with transactions of `S`, when every transaction
that is offered to the pool meets `A` and every call of `SetBestChain` meets `C`. -/
inductive PendingRun (env : Env) (S : Set CTransaction) (A : Io → Node → CTransaction → Prop)
    (C : Io → Node → CBlockIndex → CBlock → Prop) : Node → Prop
  | start (node : Node) (hpool : node.mempool = CTxMemPool.empty)
      (hstate : ∀ name, node.mapState name = none) : PendingRun env S A C node
  | accept (io : Io) (node : Node) (tx : CTransaction) (htx : tx ∈ S) (hcond : A io node tx) :
      PendingRun env S A C node → PendingRun env S A C (AcceptToMemoryPool env io node tx).final
  | remove (node : Node) (fRecursive : Bool) (tx : CTransaction) (htx : tx ∈ S) :
      PendingRun env S A C node →
      PendingRun env S A C
        (PoolState.put node (CTxMemPool.remove env fRecursive tx node.poolState).final)
  | removeConflicts (node : Node) (tx : CTransaction) (htx : tx ∈ S) :
      PendingRun env S A C node →
      PendingRun env S A C
        (PoolState.put node (CTxMemPool.removeConflicts env tx node.poolState).final)
  | setBestChain (io : Io) (node : Node) (pindexNew : CBlockIndex) (block : CBlock)
      (hin : CallIn S node block) (hcond : C io node pindexNew block) :
      PendingRun env S A C node →
      PendingRun env S A C (block.SetBestChain env io node pindexNew).final
  | elsewhere (node node' : Node) (hpool : node'.mempool = node.mempool)
      (hstate : ∀ name hash, Holds node'.mapState name hash ↔ Holds node.mapState name hash) :
      PendingRun env S A C node → PendingRun env S A C node'

theorem PendingRun.mirrors (hS : HashIdentifies env S) {node : Node}
    (h : PendingRun env S (AcceptKeeps env) (CallKeeps env) node) :
    Mirrors env S ∅ node.poolState := by
  induction h with
  | start node hpool hstate =>
      have hempty : node.poolState.1 = CTxMemPool.empty := hpool
      refine ⟨?_, ?_, ?_⟩
      · rw [hempty]
        exact CTxMemPool.Ok.empty
      · intro name hash
        rw [hempty]
        simp [Holds, Node.poolState, hstate, CTxMemPool.empty, CTxMemPool.lookup]
      · intro hash tx htx
        rw [hempty] at htx
        simp [CTxMemPool.empty, CTxMemPool.lookup] at htx
  | accept io node tx htx hcond _ ih => exact accept_mirrors htx hcond (by simp) ih
  | remove node fRecursive tx htx _ ih => exact (removeTx_mirrors hS fRecursive _ tx htx _ ih).1
  | removeConflicts node tx htx _ ih =>
      obtain ⟨s', hrun, hmirrors⟩ := removeConflicts_mirrors hS tx node.poolState ih
      rw [hrun]
      exact hmirrors
  | setBestChain io node pindexNew block hin hcond _ ih =>
      exact setBestChain_mirrors hS hin hcond ih
  | elsewhere node node' hpool hstate _ ih =>
      have heq : node'.poolState.1 = node.poolState.1 := hpool
      refine ⟨by rw [heq]; exact ih.ok, ?_, by rw [heq]; exact ih.hooked⟩
      intro name hash
      rw [heq]
      exact (hstate name hash).trans (ih.pending name hash)

/-- Pending under a name are, in every state of such a run, exactly the pooled alias transactions
with that name. -/
theorem pending_mirrors_pool (env : Env) (S : Set CTransaction) (hS : HashIdentifies env S)
    (node : Node) (h : PendingRun env S (AcceptKeeps env) (CallKeeps env) node) (v : vchType)
    (hash : uint256) :
    Holds node.mapState v hash ↔
      ∃ tx, node.mempool.lookup hash = some tx ∧ PendsUnder tx v :=
  (h.mirrors hS).holds_iff v hash

namespace Scenario

/-- The node after a restart: the pool and the pending hashes are not kept. -/
def restarted (node : Node) : Node :=
  { node with mempool := CTxMemPool.empty, mapState := fun _ => none }

theorem restarted_run {S : Set CTransaction} {A : Io → Node → CTransaction → Prop}
    {C : Io → Node → CBlockIndex → CBlock → Prop} (node : Node) :
    PendingRun (timed testNet) S A C (restarted node) := .start _ rfl fun _ => rfl

theorem message_pends : PendsUnder message [0x61] := by
  refine ⟨rfl, ⟨624 * COIN, [0x55, 1, 0x61, 1, 0x61, 1, 0x61, 1, 0x61, 0x75, 0x51]⟩, ?_, ?_, ?_⟩
  · decide +kernel
  · decide +kernel
  · decide +kernel

theorem message_keeps (io : Io) (node : Node) :
    AcceptKeeps (timed testNet) io node message := by
  intro _ _
  refine ⟨?_, ?_⟩
  · intro out hout
    have houts : aliasOutputs message =
        [⟨624 * COIN, [0x55, 1, 0x61, 1, 0x61, 1, 0x61, 1, 0x61, 0x75, 0x51]⟩] := by
      decide +kernel
    rw [houts, List.cons.injEq] at hout
    rw [← hout.1]
    decide +kernel
  · rintro ⟨hset, -⟩
    revert hset
    decide +kernel

/-- A restarted node that has been offered the message. -/
def offered (node : Node) : Node :=
  (AcceptToMemoryPool (timed testNet) io (restarted node) message).final

/-- A block with the message, and after it a transaction that spends nothing known. -/
def refusedBlock (node : Node) : CBlock := blockWith (offered node) [message, orphan]

def beforeRefusal (node : Node) : Node := (offered node).store (timed testNet) (refusedBlock node)

def afterRefusal (node : Node) : Node :=
  ((refusedBlock node).SetBestChain (timed testNet) io (beforeRefusal node)
    ((offered node).entryFor (timed testNet) (refusedBlock node))).final

theorem identifies_of_nodup {txs : List CTransaction}
    (h : (txs.map (CTransaction.GetHash (timed testNet))).Nodup) :
    HashIdentifies (timed testNet) {tx | tx ∈ txs} := by
  intro tx htx tx' htx' heq
  exact List.inj_on_of_nodup_map h htx htx' heq

def messagePooled : Bool :=
  match afterBlocks (firstBlocks 11) with
  | .error _ => false
  | .ok node => decide ((offered node).mempool.lookup 11900 = some message)

end Scenario

open Scenario in
/-- The message is pending as long as it is in the pool. -/
theorem pending_mirrors_pool_message :
    ∃ node : Node, node.mempool.lookup 11900 = some message ∧
      Holds node.mapState [0x61] 11900 := by
  have htest : messagePooled = true := by decide +kernel
  unfold messagePooled at htest
  split at htest
  · simp at htest
  next node _ =>
    rw [decide_eq_true_eq] at htest
    have hS : HashIdentifies (timed testNet) {message} := by
      intro tx htx tx' htx' _
      rw [Set.mem_singleton_iff.mp htx, Set.mem_singleton_iff.mp htx']
    have hrun : PendingRun (timed testNet) {message} (AcceptKeeps (timed testNet))
        (CallKeeps (timed testNet)) (offered node) :=
      .accept io _ message rfl (message_keeps io _) (restarted_run node)
    refine ⟨offered node, htest, ?_⟩
    exact (pending_mirrors_pool (timed testNet) {message} hS (offered node) hrun [0x61] 11900).mpr
      ⟨message, htest, message_pends⟩

namespace Scenario

def messageRefused : Bool :=
  match afterBlocks (firstBlocks 11) with
  | .error _ => false
  | .ok node =>
    (decide (((refusedBlock node).vtx.map (CTransaction.GetHash (timed testNet))).Nodup) &&
      decide (message ∈ (refusedBlock node).vtx)) &&
    (decide ((refusedBlock node).hashPrevBlock = (beforeRefusal node).hashBestChain) &&
      (decide ((afterRefusal node).mempool.lookup 11900 = some message) &&
        decide ((afterRefusal node).mapState [0x61] = some ∅)))

end Scenario

open Scenario in
/-- The message waits in the pool, a block with it is refused because of its last transaction, and
the message is still in the pool but not pending any more. -/
theorem refused_block_unprotects_name :
    ∃ (S : Set CTransaction) (node : Node), HashIdentifies (timed testNet) S ∧
      PendingRun (timed testNet) S (fun _ _ _ => True) (fun _ _ _ _ => True) node ∧
      (∃ tx, node.mempool.lookup 11900 = some tx ∧ PendsUnder tx [0x61]) ∧
      ¬ Holds node.mapState [0x61] 11900 := by
  have htest : messageRefused = true := by decide +kernel
  unfold messageRefused at htest
  split at htest
  · simp at htest
  next node _ =>
    simp only [Bool.and_eq_true, decide_eq_true_eq] at htest
    obtain ⟨⟨hnodup, hmem⟩, htip, hpooled, hstate⟩ := htest
    refine ⟨{tx | tx ∈ (refusedBlock node).vtx}, afterRefusal node, identifies_of_nodup hnodup, ?_,
      ⟨message, hpooled, message_pends⟩, ?_⟩
    · refine .setBestChain io (beforeRefusal node) _ (refusedBlock node) ?_ trivial ?_
      · exact ⟨fun tx htx => htx, fun hside => absurd htip hside⟩
      · refine .elsewhere (offered node) _ rfl (fun name hash => Iff.rfl) ?_
        exact .accept io _ message hmem trivial (restarted_run node)
    · rintro ⟨s, hs, hhash⟩
      rw [hstate, Option.some.injEq] at hs
      rw [← hs] at hhash
      simp at hhash

end Dions
