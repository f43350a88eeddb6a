import Dions.Verification.Chain.BestChain

/-! # The alias database and the active chain

`filter` runs for each block that `SetBestChainInner` attaches and is never undone, and
`Reorganize` connects blocks without it. The alias database is the one that `filter` makes from
the active chain as long as reorganisations leave alias operations alone. -/

namespace Dions

open Halting

variable (env : Env)
variable {files files' : BlockFile} {txdb txdb' : TxIndexMap} {pindex : CBlockIndex}
  {block : CBlock} {node : Node}
variable {pindexNew tip : CBlockIndex}

/-! ## Rebuilding -/

/-- `filter` applied to the blocks of a chain in height order, from an empty database. -/
def rebuild (files : BlockFile) (txdb : TxIndexMap) : CBlockIndex → Halt AliasDb AliasDb
  | .root d => LocatorNodeDB.filter env files txdb (fun _ => none) (.root d)
  | .child d p => do
    let ln1Db ← rebuild files txdb p
    LocatorNodeDB.filter env files txdb ln1Db (.child d p)

/-- `filter` takes the transaction for a set or a relay. -/
def IsAliasOp (tx : CTransaction) : Prop :=
  tx.nVersion = CTransaction.DION_TX_VERSION ∧
    ((aliasTx tx).op.getD (env.unassigned tx) = OP_ALIAS_SET ∨
      (aliasTx tx).op.getD (env.unassigned tx) = OP_ALIAS_RELAY)

/-- The block read for an entry has neither sets nor relays. -/
def AliasFree (files : BlockFile) (pindex : CBlockIndex) : Prop :=
  ∀ tx ∈ filterBlock files pindex, ¬ IsAliasOp env tx

/-- The call can read the block of the entry and its transactions. -/
def Io.Shows (io : Io) (pindex : CBlockIndex) (block : CBlock) : Prop :=
  io.unreadable (pindex.nFile, pindex.nBlockPos) = false ∧
    ∀ p ∈ block.positions pindex, io.unreadable (p.1.nFile, p.1.nTxPos) = false

/-- The entries that a call attaches with `filter` if it succeeds. -/
def Node.attached (node : Node) (pindexNew : CBlockIndex) (block : CBlock) : List CBlockIndex :=
  if block.hashPrevBlock = node.hashBestChain then [pindexNew] else (node.split pindexNew).2

/-- The call is orderly, `filter` can read what it needs, and no set or relay is in a block that
`Reorganize` disconnects or connects. -/
structure Tracked (io : Io) (node : Node) (pindexNew : CBlockIndex) (block : CBlock) : Prop where
  orderly : Orderly env io node pindexNew block
  shown : ∀ pindex ∈ node.attached pindexNew block, ∀ stored,
    node.files.Holds pindex stored → io.Shows pindex stored
  plain : block.hashPrevBlock ≠ node.hashBestChain → ∀ pindexBest pfork,
    node.pindexBest = some pindexBest →
    Lineage.fork? pindexBest (node.split pindexNew).1 = some pfork →
    (∀ pindex ∈ Lineage.above pfork pindexBest, AliasFree env node.files pindex) ∧
      ∀ pindex ∈ Lineage.above pfork (node.split pindexNew).1, AliasFree env node.files pindex

variable {env}

/-! ## What filter depends on -/

/-- The index and the files lead from the hash of the transaction back to it. -/
def FindsItself (env : Env) (files : BlockFile) (txdb : TxIndexMap) (tx : CTransaction) : Prop :=
  ∃ txindex, txdb (tx.GetHash env) = some txindex ∧ files.readTx txindex.pos = some tx

theorem getTransaction_self {tx : CTransaction} (h : FindsItself env files txdb tx) :
    GetTransaction files txdb (tx.GetHash env) = if tx.vout.length ≤ 0 then none else some tx := by
  obtain ⟨txindex, hindex, hread⟩ := h
  unfold GetTransaction CTransaction.ReadFromDisk
  simp only [hindex, hread]
  split <;> rfl

/-- Any two indexes in which a transaction finds itself make no difference to `filter`. -/
theorem filterTx_congr {tx : CTransaction} (h : FindsItself env files txdb tx)
    (h' : FindsItself env files' txdb' tx) (pindex : CBlockIndex) (ln1Db : AliasDb)
    (txPos : CDiskTxPos) :
    filterTx env files txdb pindex ln1Db txPos tx =
      filterTx env files' txdb' pindex ln1Db txPos tx := by
  unfold filterTx
  rw [getTransaction_self h, getTransaction_self h']
  by_cases hout : tx.vout.length ≤ 0
  · simp only [hout, if_true]
  · obtain ⟨txindex, hindex, -⟩ := h
    obtain ⟨txindex', hindex', -⟩ := h'
    simp only [hout, if_false, hindex, hindex', Option.isSome_some]

theorem filterLoop_congr {vtx : List CTransaction} (h : ∀ tx ∈ vtx, FindsItself env files txdb tx)
    (h' : ∀ tx ∈ vtx, FindsItself env files' txdb' tx) (pindex : CBlockIndex) (nTxPos : ℕ)
    (ln1Db : AliasDb) :
    filterLoop env files txdb pindex nTxPos vtx ln1Db =
      filterLoop env files' txdb' pindex nTxPos vtx ln1Db := by
  induction vtx generalizing nTxPos ln1Db with
  | nil => rfl
  | cons tx vtx ih =>
      obtain ⟨htx, hvtx⟩ := List.forall_mem_cons.mp h
      obtain ⟨htx', hvtx'⟩ := List.forall_mem_cons.mp h'
      simp only [filterLoop, filterTx_congr htx htx', ih hvtx hvtx']

theorem filterBlock_eq (h : files.blocks (pindex.nFile, pindex.nBlockPos) = some block) :
    filterBlock files pindex = block.vtx := by
  simp [filterBlock, h]

theorem filter_congr (hblock : filterBlock files' pindex = filterBlock files pindex)
    (h : ∀ tx ∈ filterBlock files pindex, FindsItself env files txdb tx)
    (h' : ∀ tx ∈ filterBlock files' pindex, FindsItself env files' txdb' tx) (ln1Db : AliasDb) :
    LocatorNodeDB.filter env files txdb ln1Db pindex =
      LocatorNodeDB.filter env files' txdb' ln1Db pindex := by
  unfold LocatorNodeDB.filter
  rw [hblock] at h' ⊢
  exact filterLoop_congr h h' _ _ _

theorem filterLoop_aliasFree {vtx : List CTransaction} (h : ∀ tx ∈ vtx, ¬ IsAliasOp env tx)
    (nTxPos : ℕ) (ln1Db : AliasDb) :
    filterLoop env files txdb pindex nTxPos vtx ln1Db = .ok ln1Db := by
  induction vtx generalizing nTxPos with
  | nil => rfl
  | cons tx vtx ih =>
      obtain ⟨htx, hvtx⟩ := List.forall_mem_cons.mp h
      have hone : ∀ txPos, filterTx env files txdb pindex ln1Db txPos tx = .ok (ln1Db, tx) := by
        intro txPos
        unfold filterTx
        by_cases hversion : tx.nVersion = CTransaction.DION_TX_VERSION
        · have hop := fun h => htx ⟨hversion, h⟩
          simp only [hversion, ne_eq, not_true_eq_false, if_false, if_neg hop]
        · simp only [ne_eq, hversion, not_false_eq_true, if_true]
      rw [filterLoop, hone]
      exact ih hvtx _

theorem filter_aliasFree (h : AliasFree env files pindex) (ln1Db : AliasDb) :
    LocatorNodeDB.filter env files txdb ln1Db pindex = .ok ln1Db :=
  filterLoop_aliasFree h _ _

/-! ## What rebuilding depends on -/

/-- The transactions of every block above the genesis block find themselves. -/
def PathFinds (env : Env) (files : BlockFile) (txdb : TxIndexMap) (tip : CBlockIndex) : Prop :=
  ∀ pindex ∈ tip.line, (CBlockIndex.pprev pindex).isSome = true → ∃ block,
    files.blocks (CBlockIndex.nFile pindex, CBlockIndex.nBlockPos pindex) = some block ∧
      ∀ tx ∈ block.vtx, FindsItself env files txdb tx

theorem rebuild_congr
    (hblocks : ∀ pindex ∈ tip.line, filterBlock files' pindex = filterBlock files pindex)
    (hroot : ∀ d, Lineage.root d ∈ tip.line → AliasFree env files (.root d))
    (h : PathFinds env files txdb tip) (h' : PathFinds env files' txdb' tip) :
    rebuild env files txdb tip = rebuild env files' txdb' tip := by
  induction tip with
  | root d =>
      have hfree := hroot d (by simp)
      have hfree' : AliasFree env files' (.root d) := by
        rw [AliasFree, hblocks _ (by simp)]
        exact hfree
      rw [rebuild, rebuild, filter_aliasFree hfree, filter_aliasFree hfree']
  | child d p ih =>
      have hsub : ∀ a ∈ p.line, a ∈ Lineage.line (.child d p) := fun a ha =>
        List.mem_cons_of_mem _ ha
      obtain ⟨block, hblock, hfinds⟩ := h (.child d p) (by simp) rfl
      obtain ⟨block', hblock', hfinds'⟩ := h' (.child d p) (by simp) rfl
      have hvtx := hblocks (.child d p) (by simp)
      have hp := ih (fun a ha => hblocks a (hsub a ha)) (fun d' hd' => hroot d' (hsub _ hd'))
        (fun a ha => h a (hsub a ha)) fun a ha => h' a (hsub a ha)
      have hlast : (LocatorNodeDB.filter env files txdb · (.child d p)) =
          (LocatorNodeDB.filter env files' txdb' · (.child d p)) := by
        funext ln1Db
        rw [← filterBlock_eq hblock] at hfinds
        rw [← filterBlock_eq hblock'] at hfinds'
        exact filter_congr hvtx hfinds hfinds' ln1Db
      rw [rebuild, rebuild, hp, hlast]

/-- Blocks without alias operations at the end of a chain add nothing. -/
theorem rebuild_above {fork : CBlockIndex} (hfork : fork ∈ tip.line)
    (hfree : ∀ pindex ∈ Lineage.above fork tip, AliasFree env files pindex) :
    rebuild env files txdb tip = rebuild env files txdb fork := by
  induction tip with
  | root d =>
      simp only [Lineage.line, List.mem_singleton] at hfork
      rw [hfork]
  | child d p ih =>
      simp only [Lineage.line, List.mem_cons] at hfork
      rcases hfork with rfl | hfork
      · rfl
      · rw [Lineage.above_child_of_mem hfork] at hfree
        obtain ⟨hlast, hbelow⟩ := List.forall_mem_cons.mp hfree
        have hsame : (LocatorNodeDB.filter env files txdb · (.child d p)) = Except.ok :=
          funext fun ln1Db => filter_aliasFree hlast ln1Db
        rw [rebuild, hsame, ← ih hfork hbelow]
        exact bind_pure _

/-! ## The invariant -/

theorem findsItself_of_position (hentry : ∀ p ∈ block.positions pindex, ∃ txindex,
      txdb (p.2.GetHash env) = some txindex ∧ txindex.pos = p.1)
    (hread : ∀ p ∈ block.positions pindex, files.readTx p.1 = some p.2) :
    ∀ tx ∈ block.vtx, FindsItself env files txdb tx := by
  intro tx htx
  rw [← positions_map_snd block pindex] at htx
  obtain ⟨p, hp, rfl⟩ := List.mem_map.mp htx
  obtain ⟨txindex, hindex, hpos⟩ := hentry p hp
  exact ⟨txindex, hindex, hpos ▸ hread p hp⟩

theorem ChainAt.pathFinds (h : ChainAt env node tip)
    (hstored : Stored env node.files node.mapBlockIndex) (hknown : node.Knows tip) :
    PathFinds env node.files node.txdb.txindex tip := by
  intro pindex hmem hprev
  obtain ⟨block, hholds, -⟩ := hstored.held pindex (hstored.knows_line env hknown hmem)
  exact ⟨block, hholds.stored, findsItself_of_position
    (fun p hp => h.listed_entry hmem hprev hholds.stored hp) hholds.txs⟩

/-- The alias database is the one of the chain up to `tip`. -/
def Rebuilt (env : Env) (node : Node) (tip : CBlockIndex) : Prop :=
  rebuild env node.files node.txdb.txindex tip = .ok node.ln1Db

/-- The genesis block has no alias operations. -/
def PlainRoot (env : Env) (node : Node) : Prop :=
  ∀ d, node.Knows (.root d) → AliasFree env node.files (.root d)

/-- Attaching a block extends the chain that the database is made from. -/
theorem Rebuilt.inner {io : Io} {node' : Node} {d : BlockIndexData} {p : CBlockIndex}
    (h : Rebuilt env node p) (hchain : ChainAt env node p)
    (hchain' : ChainAt env node' (.child d p)) (hstored : Stored env node.files node.mapBlockIndex)
    (hknown : node.Knows (.child d p)) (hroot : PlainRoot env node)
    (hshown : ∀ stored, node.files.Holds (.child d p) stored →
      io.Shows (.child d p) stored)
    (hinner : block.SetBestChainInner env io node (.child d p) = .ok node') :
    Rebuilt env node' (.child d p) := by
  have hout := setBestChainInner_outcome env io node (.child d p) block
  rw [hinner] at hout
  cases hout with
  | @attached T _ ln1Db _ hconnect _ hfilter hnode' =>
      obtain ⟨pool, g, rfl⟩ := hnode'
      have hp : node.Knows p := hstored.knows_line env hknown (by simp [Lineage.line])
      obtain ⟨stored, hholds, -⟩ := hstored.held _ hknown
      have hsub : ∀ a ∈ p.line, a ∈ Lineage.line (.child d p) := fun a ha =>
        List.mem_cons_of_mem _ ha
      have hfinds := hchain'.pathFinds hstored hknown
      have hbelow : rebuild env node.files T p = .ok node.ln1Db := by
        have hcongr := rebuild_congr (fun _ _ => rfl)
          (fun d' hd' => hroot d' (hstored.knows_line env hp hd'))
          (hchain.pathFinds hstored hp) fun a ha => hfinds a (hsub a ha)
        exact hcongr.symm.trans h
      obtain ⟨stored', hblock', hself⟩ := hfinds (.child d p) (by simp) rfl
      have heq : stored' = stored := by
        have hs := hblock'.symm.trans hholds.stored
        exact Option.some.inj hs
      subst heq
      obtain ⟨hshowBlock, hshowTxs⟩ := hshown stored' hholds
      have hvisible : (io.visible node.files).blocks
          (CBlockIndex.nFile (.child d p), CBlockIndex.nBlockPos (.child d p)) = some stored' := by
        simp [Io.visible, hshowBlock, hholds.stored]
      have hselfVisible : ∀ tx ∈ stored'.vtx,
          FindsItself env (io.visible node.files) T tx := by
        refine findsItself_of_position
          (fun q hq => hchain'.listed_entry (by simp) rfl hholds.stored hq) fun q hq => ?_
        have hread := hholds.txs q hq
        simpa [Io.visible, BlockFile.readTx, hshowTxs q hq] using hread
      rw [← filterBlock_eq hvisible] at hselfVisible
      rw [← filterBlock_eq hholds.stored] at hself
      have hsame : filterBlock node.files (.child d p) =
          filterBlock (io.visible node.files) (.child d p) := by
        rw [filterBlock_eq hvisible, filterBlock_eq hholds.stored]
      rw [filter_congr hsame hselfVisible hself] at hfilter
      change rebuild env node.files T (.child d p) = .ok ln1Db
      rw [rebuild, hbelow]
      exact hfilter

/-- A reorganisation that leaves alias operations alone needs no change of the database. -/
theorem Rebuilt.reorganized {io : Io} {node node' : Node} {best pindexNew : CBlockIndex}
    (h : Rebuilt env node best) (hbest : BestAt env node best) (hroot : PlainRoot env node)
    (hknown : node.Knows pindexNew) (hchain' : ChainAt env node' pindexNew)
    (hplain : ∀ pfork, Lineage.fork? best pindexNew = some pfork →
      (∀ pindex ∈ Lineage.above pfork best, AliasFree env node.files pindex) ∧
        ∀ pindex ∈ Lineage.above pfork pindexNew, AliasFree env node.files pindex)
    (hreorganize : Reorganize env io node pindexNew = .ok node') :
    Rebuilt env node' pindexNew := by
  have hout := reorganize_outcome env io node pindexNew
  rw [hreorganize] at hout
  cases hout with
  | @reorganized pindexBest pfork T T' _ _ _ _ hdis hconnect _ hnode' =>
      obtain ⟨pool, g, rfl⟩ := hnode'
      have hb := hdis.best
      rw [hbest.pointer, Option.some.injEq] at hb
      subst hb
      obtain ⟨hold, hnew⟩ := hplain pfork hdis.fork
      obtain ⟨hfork, hfork'⟩ := Lineage.fork?_mem hdis.fork
      have hfinds := hbest.chain.pathFinds hbest.stored hbest.known
      have hfinds' := hchain'.pathFinds hbest.stored hknown
      have hcongr : rebuild env node.files T' pfork =
          rebuild env node.files node.txdb.txindex pfork :=
        rebuild_congr (fun _ _ => rfl)
          (fun d hd => hroot d (hbest.stored.knows_line env hknown (Lineage.line_trans hd hfork')))
          (fun a ha => hfinds' a (Lineage.line_trans ha hfork'))
          fun a ha => hfinds a (Lineage.line_trans ha hfork)
      change rebuild env node.files T' pindexNew = .ok node.ln1Db
      calc rebuild env node.files T' pindexNew
          = rebuild env node.files T' pfork := rebuild_above hfork' hnew
        _ = rebuild env node.files node.txdb.txindex pfork := hcongr
        _ = rebuild env node.files node.txdb.txindex best := (rebuild_above hfork hold).symm
        _ = .ok node.ln1Db := h

theorem PlainRoot.sameFiles {a b : Node} (h : PlainRoot env a) (hab : a.SameFiles b) :
    PlainRoot env b := by
  intro d hd
  rw [Node.Knows, hab.2.1] at hd
  rw [AliasFree, filterBlock, hab.1]
  exact h d hd

theorem Rebuilt.setBestChain {io : Io} {best : CBlockIndex} (h : Rebuilt env node best)
    (hbest : BestAt env node best) (hroot : PlainRoot env node) (hknown : node.Knows pindexNew)
    (hprev : (CBlockIndex.pprev pindexNew).isSome = true)
    (hblock : node.files.blocks (pindexNew.nFile, pindexNew.nBlockPos) = some block)
    (htracked : Tracked env io node pindexNew block) :
    PlainRoot env (block.SetBestChain env io node pindexNew).final ∧
      ∃ best', BestAt env (block.SetBestChain env io node pindexNew).final best' ∧
        Rebuilt env (block.SetBestChain env io node pindexNew).final best' := by
  have hdistinct := htracked.orderly.distinct
  have hout := htracked.orderly.outcome hbest hknown hprev hblock
  obtain ⟨best', hbest'⟩ := hbest.setBestChain hknown hprev hblock htracked.orderly
  generalize (block.SetBestChain env io node pindexNew).final = node' at hout hbest' ⊢
  cases hout with
  | refused hsame =>
      obtain ⟨pool, g, rfl⟩ := hsame
      exact ⟨hroot, best, hbest.sameChain ⟨pool, g, rfl⟩, h⟩
  | @extended d _ hnew htip hinner =>
      subst hnew
      have hchain := hbest.chain.inner hbest.stored hknown hblock hdistinct hinner
      have hshown := htracked.shown (.child d best) (by simp [Node.attached, htip])
      have hroot' := hroot.sameFiles (setBestChainInner_sameFiles hinner)
      have hend := h.inner hbest.chain hchain hbest.stored hknown hroot hshown hinner
      refine ⟨hroot', best', hbest', ?_⟩
      have heq := hbest'.pointer
      rw [newBest, Option.some.injEq] at heq
      rw [← heq]
      exact hend
  | @reorganized node₁ node₂ htip hreorganize hrun =>
      obtain ⟨hf, hm, hg⟩ := reorganize_sameFiles hreorganize
      have hstored₁ : Stored env node₁.files node₁.mapBlockIndex := by
        rw [hf, hm]
        exact hbest.stored
      have hmid := hbest.reorganized
        (ids_pathItems_line (splitPostponed_mem_line _ _) hdistinct) hreorganize
      have hmidKnown : node.Knows (node.split pindexNew).1 :=
        hbest.stored.knows_line env hknown (splitPostponed_mem_line _ _)
      have hrebuilt := h.reorganized hbest hroot hmidKnown hmid
        (fun pfork hfork => htracked.plain htip best pfork hbest.pointer hfork) hreorganize
      have hroot₁ : PlainRoot env node₁ := hroot.sameFiles ⟨hf, hm, hg⟩
      have hbase : (ChainAt env node₁ (node.split pindexNew).1 ∧ node₁.SameFiles node₁) ∧
          Rebuilt env node₁ (node.split pindexNew).1 := ⟨⟨hmid, rfl, rfl, rfl⟩, hrebuilt⟩
      have hend := hrun.climb
        (P := fun a tip => (ChainAt env a tip ∧ node₁.SameFiles a) ∧ Rebuilt env a tip) hbase (by
          rintro a b d p attached hmem ⟨⟨hchain, hf', hm', hg'⟩, ha⟩ hattached hinner
          have hline := postponed_mem_line hmem
          have hstored' : Stored env a.files a.mapBlockIndex := by
            rw [hf', hm']
            exact hstored₁
          have hknown' : a.Knows (.child d p) := by
            rw [Node.Knows, hm', hm]
            exact hbest.stored.knows_line env hknown hline
          have hnodup' : (Ledger.ids (pathItems env a.files (.child d p))).Nodup := by
            rw [hf', hf]
            exact ids_pathItems_line hline hdistinct
          have hchain' := hchain.inner hstored' hknown' hattached hnodup' hinner
          refine ⟨⟨hchain', Node.SameFiles.trans ⟨hf', hm', hg'⟩
            (setBestChainInner_sameFiles hinner)⟩, ?_⟩
          refine ha.inner hchain hchain' hstored' hknown' (hroot₁.sameFiles ⟨hf', hm', hg'⟩) ?_ hinner
          rw [hf', hf]
          refine htracked.shown _ ?_
          rw [Node.attached, if_neg htip]
          exact hmem)
      have hroot' := hroot₁.sameFiles hend.1.2
      refine ⟨hroot', best', hbest', ?_⟩
      have heq := hbest'.pointer
      rw [newBest, Option.some.injEq] at heq
      rw [← heq]
      exact hend.2

/-! ## Runs -/

theorem PlainRoot.store (h : PlainRoot env node)
    (hstored : Stored env node.files node.mapBlockIndex)
    (hprev : (node.mapBlockIndex block.hashPrevBlock).isSome = true) :
    PlainRoot env (node.store env block) := by
  intro d hd
  by_cases hhash : CBlockIndex.GetBlockHash (.root d) = block.GetHash env
  · -- the new entry is no root
    rw [Node.Knows, KnownIn, hhash] at hd
    have hnew : node.entryFor env block = .root d := by
      have hself : (node.store env block).mapBlockIndex (block.GetHash env) =
          some (node.entryFor env block) := Function.update_self _ _ _
      exact Option.some.inj (hself.symm.trans hd)
    have hpprev : CBlockIndex.pprev (node.entryFor env block) =
        node.mapBlockIndex block.hashPrevBlock := entryFor_pprev node block
    rw [hnew] at hpprev
    rw [← hpprev] at hprev
    simp [CBlockIndex.pprev] at hprev
  · have hd' : node.Knows (.root d) := by
      have hsame : (node.store env block).mapBlockIndex (CBlockIndex.GetBlockHash (.root d)) =
          node.mapBlockIndex (CBlockIndex.GetBlockHash (.root d)) := Function.update_of_ne hhash _ _
      exact hsame.symm.trans hd
    obtain ⟨old, hholds, -⟩ := hstored.held _ hd'
    have hholds' : (node.store env block).files.Holds (.root d) old :=
      hholds.writeToDisk hstored.ended
    have hfree := h d hd'
    rw [AliasFree, filterBlock_eq hholds.stored] at hfree
    rw [AliasFree, filterBlock_eq hholds'.stored]
    exact hfree

theorem Rebuilt.store {best : CBlockIndex} (h : Rebuilt env node best)
    (hbest : BestAt env node best) (hroot : PlainRoot env node)
    (hnew : node.mapBlockIndex (block.GetHash env) = none) :
    Rebuilt env (node.store env block) best := by
  have hstore : BestAt env (node.store env block) best := hbest.store hnew
  have hblocks : ∀ pindex ∈ best.line,
      filterBlock (node.store env block).files pindex = filterBlock node.files pindex := by
    intro pindex hmem
    obtain ⟨old, hholds, -⟩ := hbest.stored.held _ (hbest.stored.knows_line env hbest.known hmem)
    have hholds' : (node.store env block).files.Holds pindex old :=
      hholds.writeToDisk hbest.stored.ended
    rw [filterBlock_eq hholds.stored, filterBlock_eq hholds'.stored]
  have hcongr := rebuild_congr hblocks
    (fun d hd => hroot d (hbest.stored.knows_line env hbest.known hd))
    (hbest.chain.pathFinds hbest.stored hbest.known)
    (hstore.chain.pathFinds hstore.stored hstore.known)
  exact hcongr.symm.trans h

theorem genesis_plainRoot (hplain : ∀ tx ∈ block.vtx, tx.nVersion ≠ CTransaction.DION_TX_VERSION) :
    PlainRoot env (Node.empty.store env block) := by
  intro d hd
  have hentry : Node.empty.entryFor env block = .root d := by
    have hmap : Function.update (fun _ => none) (block.GetHash env)
        (some (Node.empty.entryFor env block)) (CBlockIndex.GetBlockHash (.root d)) =
          some (Lineage.root d) := hd
    by_cases hhash : CBlockIndex.GetBlockHash (.root d) = block.GetHash env
    · rw [hhash, Function.update_self, Option.some.injEq] at hmap
      exact hmap
    · rw [Function.update_of_ne hhash] at hmap
      simp at hmap
  have hblock : (Node.empty.store env block).files.blocks
      ((Node.empty.entryFor env block).nFile, (Node.empty.entryFor env block).nBlockPos) =
        some block := store_blocks Node.empty block
  rw [hentry] at hblock
  rw [AliasFree, filterBlock_eq hblock]
  exact fun tx htx hop => hplain tx htx hop.1

theorem Reaches.rebuilt (h : Reaches env (Tracked env) node) :
    PlainRoot env node ∧ ∃ best, BestAt env node best ∧ Rebuilt env node best := by
  induction h with
  | @genesis io block node hhash hplain hload hbest =>
      have hat := bestAt_genesis hhash hload hbest
      rw [loadGenesis_ok hhash hload hbest] at hat ⊢
      have hroot : PlainRoot env (Node.empty.store env block) := genesis_plainRoot hplain
      refine ⟨hroot, _, hat, filter_aliasFree (hroot _ hat.known) _⟩
  | store hnode hprev hnew ih =>
      obtain ⟨hroot, best, hbest, hrebuilt⟩ := ih
      exact ⟨hroot.store hbest.stored hprev, best, hbest.store hnew,
        hrebuilt.store hbest hroot hnew⟩
  | setBestChain hnode hknown hprev hblock hcall ih =>
      obtain ⟨hroot, best, hbest, hrebuilt⟩ := ih
      exact hrebuilt.setBestChain hbest hroot hknown hprev hblock hcall
  | @pool io node tx hnode ih =>
      obtain ⟨hroot, best, hbest, hrebuilt⟩ := ih
      have hsame := acceptToMemoryPool_sameChain env io node tx
      have hbest' := hbest.sameChain hsame
      obtain ⟨pool, g, heq⟩ := hsame
      rw [heq] at hbest' ⊢
      exact ⟨hroot, best, hbest', hrebuilt⟩

/-- In every run whose calls of `SetBestChain` are tracked, the alias database is the one that
`filter` makes from the blocks of the active chain. -/
theorem alias_database_rebuilt {node : Node} (h : Reaches env (Tracked env) node) :
    ∃ best, node.pindexBest = some best ∧
      rebuild env node.files node.txdb.txindex best = .ok node.ln1Db := by
  obtain ⟨-, best, hbest, hrebuilt⟩ := h.rebuilt
  exact ⟨best, hbest.pointer, hrebuilt⟩

namespace Scenario

/-- The first block of the network sets a name in its coinbase. -/
def firstSet (node : Node) : CBlock :=
  nextBlock node (rewarded testNet.hashGenesisBlock 1000 aliasSet)

theorem tracked_of_extendsOrderly
    (h : extendsOrderly (timed testNet) io node pindexNew block = true) :
    Tracked (timed testNet) io node pindexNew block where
  orderly := orderly_of_extendsOrderly h
  shown := fun _ _ _ _ => ⟨rfl, fun _ _ => rfl⟩
  plain := by
    intro htip
    simp only [extendsOrderly, Bool.and_eq_true, decide_eq_true_eq] at h
    exact absurd h.1.2 htip

def firstSetOrderly : Bool :=
  match LoadGenesis (timed testNet) io genesisBlock with
  | .error _ => false
  | .ok node =>
    extendsOrderly (timed testNet) io (node.store (timed testNet) (firstSet node))
      (node.entryFor (timed testNet) (firstSet node)) (firstSet node) &&
    match ProcessBlock (timed testNet) io node (firstSet node) with
    | .error _ => false
    | .ok node' => (node'.ln1Db [0x61]).isSome

end Scenario

open Scenario in
/-- One block that sets a name, on top of the genesis block, is a tracked run. -/
theorem alias_database_rebuilt_firstSet :
    ∃ node node' best, LoadGenesis (timed testNet) io genesisBlock = .ok node ∧
      ProcessBlock (timed testNet) io node (firstSet node) = .ok node' ∧
      node'.pindexBest = some best ∧ (node'.ln1Db [0x61]).isSome = true ∧
      rebuild (timed testNet) node'.files node'.txdb.txindex best = .ok node'.ln1Db := by
  have htest : firstSetOrderly = true := by decide +kernel
  unfold firstSetOrderly at htest
  split at htest
  · simp at htest
  rename_i node hload
  rw [Bool.and_eq_true] at htest
  obtain ⟨horderly, htest⟩ := htest
  have hreach : Reaches (timed testNet) (Tracked (timed testNet))
      (ProcessBlock (timed testNet) io node (firstSet node)).final :=
    (loadGenesis_reaches hload).processBlock fun _ => tracked_of_extendsOrderly horderly
  split at htest
  · simp at htest
  rename_i node' hprocess
  rw [hprocess, Halt.final_ok] at hreach
  obtain ⟨best, hbest, hrebuild⟩ := alias_database_rebuilt hreach
  exact ⟨node, node', best, hload, hprocess, hbest, htest, hrebuild⟩

namespace Scenario

/-- A block without alias operations, and a second branch beside it whose first block sets a
name. -/
def twoBranches : Halt Node Node := do
  let node ← afterBlocks (firstBlocks 1)
  mine (timed testNet) io node (rewarded testNet.hashGenesisBlock 1500 aliasSet)

def overtaking : Mining := ⟨1500, 2500, 1, [payTo (625 * COIN)], []⟩

def setLost : Bool :=
  match twoBranches with
  | .error _ => false
  | .ok node =>
    match mine (timed testNet) io node overtaking with
    | .error _ => false
    | .ok node' =>
      match node'.pindexBest with
      | none => false
      | some best =>
        match rebuild (timed testNet) node'.files node'.txdb.txindex best with
        | .error _ => false
        | .ok ln1Db => decide (node'.hashBestChain = 2500) &&
          ((ln1Db [0x61]).isSome && (node'.ln1Db [0x61]).isNone)

end Scenario

open Scenario in
/-- The second branch becomes the active chain, its blocks set a name, and the alias database has
no record of it. -/
theorem reorganised_set_lost :
    ∃ node node' best ln1Db, twoBranches = .ok node ∧ Reaches (timed testNet) AnyCall node' ∧
      mine (timed testNet) io node overtaking = .ok node' ∧ node'.pindexBest = some best ∧
      node'.hashBestChain = 2500 ∧
      rebuild (timed testNet) node'.files node'.txdb.txindex best = .ok ln1Db ∧
      ln1Db ≠ node'.ln1Db := by
  have htest : setLost = true := by decide +kernel
  unfold setLost at htest
  split at htest
  · simp at htest
  rename_i node hbranches
  split at htest
  · simp at htest
  rename_i node' hmine
  split at htest
  · simp at htest
  rename_i best hbest
  split at htest
  · simp at htest
  rename_i ln1Db hrebuild
  simp only [Bool.and_eq_true, decide_eq_true_eq, Option.isNone_iff_eq_none] at htest
  obtain ⟨hhash, hset, hnone⟩ := htest
  have hreach : Reaches (timed testNet) AnyCall node := by
    simp only [twoBranches, seq_ok] at hbranches
    obtain ⟨node₁, h₁, h₂⟩ := hbranches
    exact mine_final_reaches h₂ (afterBlocks_reaches h₁)
  refine ⟨node, node', best, ln1Db, hbranches, mine_final_reaches hmine hreach, hmine, hbest, hhash,
    hrebuild, fun hsame => ?_⟩
  rw [hsame, hnone] at hset
  simp at hset

end Dions
