import Dions.Verification.Alias.History

/-! # Who can change a live record

`filter` replaces the record of a name on any relay of it, and in a block nobody asks whether the
relay spends the transaction behind the record. A live record changes hands by its owner only on
chains without the relays that make use of this. -/

namespace Dions

open Halting

variable (env : Env)
variable {node : Node} {files : BlockFile} {txdb : TxIndexMap} {ln1Db : AliasDb}
  {pindex : CBlockIndex}
variable {block : CBlock} {tip : CBlockIndex} {c : ChainTx} {before chain : List ChainTx}
  {ln1Db' : AliasDb} {nTxPos : ℕ}

/-! ## Safety -/

/-- An input spends an alias output of the name, of the transaction stored at the position. -/
def SpendsAliasAt (files : BlockFile) (v : vchType) (pos : CDiskTxPos) (tx : CTransaction) : Prop :=
  ∃ txPrev out, files.readTx pos = some txPrev ∧ SpendsAlias env v txPrev tx out

/-- Whenever `filter` changes the record of the name, it has come to a relay that spends the alias
output of the transaction the record points to at that moment. -/
def HandedOn (files visible : BlockFile) (txdb : TxIndexMap) (pindex : CBlockIndex) (v : vchType) :
    (nTxPos : ℕ) → List CTransaction → AliasDb → Prop
  | _, [], _ => True
  | nTxPos, tx :: vtx, ln1Db => ∀ ln1Db' tx',
    filterTx env visible txdb pindex ln1Db ⟨pindex.nFile, pindex.nBlockPos, nTxPos⟩ tx =
      .ok (ln1Db', tx') →
    (ln1Db' v ≠ ln1Db v → Performs env OP_ALIAS_RELAY v tx ∧
      ∃ r, aliasRecord ln1Db v = some r ∧ SpendsAliasAt env files v r.txPos tx) ∧
    HandedOn files visible txdb pindex v (nTxPos + tx'.GetSerializeSize) vtx ln1Db'

/-- Only its owner changes the record `r` of the name: the block has a relay that spends the alias
output of the transaction at `r.txPos`, and the record is handed on from owner to owner. -/
structure OwnerOnly (io : Io) (node node' : Node) (pindex : CBlockIndex) (block : CBlock)
    (v : vchType) (r : AliasIndex) : Prop where
  spends : node'.ln1Db v ≠ node.ln1Db v → ∃ tx ∈ block.vtx,
    Performs env OP_ALIAS_RELAY v tx ∧ SpendsAliasAt env node.files v r.txPos tx
  handedOn : HandedOn env node.files (io.visible node.files) node'.txdb.txindex pindex v
    (firstTxPos pindex.nBlockPos block.vtx.length) block.vtx node.ln1Db

/-- The output is the set or relay of the name that `filter` takes the transaction for. -/
def Encodes (v : vchType) (tx : CTransaction) (out : CTxOut) : Prop :=
  ∃ op, (op = OP_ALIAS_SET ∨ op = OP_ALIAS_RELAY) ∧
    (aliasScript out.scriptPubKey none).op = some op ∧ Performs env op v tx

/-- The transaction is a relay of the name, and the chain before it leaves the name a record that has
not expired. -/
def RelaysLive (v : vchType) (before : List ChainTx) (c : ChainTx) : Prop :=
  Performs env OP_ALIAS_RELAY v c.tx ∧
    ∃ old, holderOf env v before = some old ∧ lapsed env.toChainParams c old = false

/-- The chain has none of the relays that take a live name from its owner: a coinbase or coin stake
that spends no recent alias output of the name, and a relay that spends an alias output which `filter`
did not see as a set or relay, a set or relay that `filter` kept out of the records, or a transaction
that a relay before it has spent. -/
structure Guarded (v : vchType) (chain : List ChainTx) : Prop where
  asked : ∀ before c after, chain = before ++ c :: after → RelaysLive env v before c →
    c.tx.IsCoinBase = true ∨ c.tx.IsCoinStake = true → SpendsRecent env v before c
  encoded : ∀ before c after, chain = before ++ c :: after → RelaysLive env v before c →
    ∀ p ∈ before, ∀ out, SpendsAlias env v p.tx c.tx out → Encodes env v p.tx out
  honest : Lease.Honest (lapsed env.toChainParams) (MadeFrom env v) (deeds env v chain)

/-! ## Runs -/

/-- `SetBestChainInner` attaches the block that is stored for the entry; `filter` can read it, and
no txid is repeated on the way to it. -/
structure Attaches (io : Io) (node : Node) (pindex : CBlockIndex) (block : CBlock) (node' : Node) :
    Prop where
  known : node.Knows pindex
  stored : node.files.blocks (pindex.nFile, pindex.nBlockPos) = some block
  distinct : (Ledger.ids (pathItems env node.files pindex)).Nodup
  shown : io.Shows pindex block
  inner : block.SetBestChainInner env io node pindex = .ok node'

/-- `Reorganize` moves from one tip to another, with no set or relay between them and no txid
repeated. -/
structure Switches (io : Io) (node : Node) (best pindexNew : CBlockIndex) (node' : Node) :
    Prop where
  known : node.Knows pindexNew
  distinct : (Ledger.ids (pathItems env node.files pindexNew)).Nodup
  plain : ∀ pfork, Lineage.fork? best pindexNew = some pfork →
    (∀ pindex ∈ Lineage.above pfork best, AliasFree env node.files pindex) ∧
      ∀ pindex ∈ Lineage.above pfork pindexNew, AliasFree env node.files pindex
  reorganize : Reorganize env io node pindexNew = .ok node'

/-- The node stands at the tip: after a call of a run whose calls are tracked, or between the steps
of the next one, which attaches blocks one by one, after a reorganisation or without. -/
inductive AtTip : Node → CBlockIndex → Prop
  | reached {node : Node} {best : CBlockIndex} (h : Reaches env (Tracked env) node)
      (hbest : node.pindexBest = some best) : AtTip node best
  | switched {io : Io} {node node' : Node} {best pindexNew : CBlockIndex}
      (h : Reaches env (Tracked env) node) (hbest : node.pindexBest = some best)
      (hswitch : Switches env io node best pindexNew node') : AtTip node' pindexNew
  | attached {io : Io} {node node' : Node} {d : BlockIndexData} {p : CBlockIndex} {block : CBlock}
      (hnode : AtTip node p) (hattach : Attaches env io node (.child d p) block node') :
      AtTip node' (.child d p)

/-- What is known of a node at its tip. -/
structure Grounded (node : Node) (tip : CBlockIndex) : Prop where
  stored : Stored env node.files node.mapBlockIndex
  known : node.Knows tip
  chain : ChainAt env node tip
  root : PlainRoot env node
  rebuilt : Rebuilt env node tip
  vetted : Vetted env (history node.files tip)

variable {env}

theorem Vetted.inner {io : Io} {node' : Node} {d : BlockIndexData} {p : CBlockIndex}
    (h : Vetted env (history node.files p)) (hchain : ChainAt env node p)
    (hstored : Stored env node.files node.mapBlockIndex) (hknown : node.Knows (.child d p))
    (hblock : node.files.blocks
      (CBlockIndex.nFile (.child d p), CBlockIndex.nBlockPos (.child d p)) = some block)
    (hnodup : (Ledger.ids (pathItems env node.files (.child d p))).Nodup)
    (hinner : block.SetBestChainInner env io node (.child d p) = .ok node') :
    Vetted env (history node'.files (.child d p)) := by
  rw [(setBestChainInner_sameFiles hinner).1]
  have hout := setBestChainInner_outcome env io node (.child d p) block
  rw [hinner] at hout
  cases hout with
  | attached hconnect _ _ _ =>
    exact h.connectBlock hstored hknown (view_reads node io) hblock hnodup hchain.listed hconnect

theorem Vetted.reorganized {io : Io} {node node' : Node} {best pindexNew : CBlockIndex}
    (h : Vetted env (history node.files best)) (hbest : BestAt env node best)
    (hknown : node.Knows pindexNew)
    (hnodup : (Ledger.ids (pathItems env node.files pindexNew)).Nodup)
    (hreorganize : Reorganize env io node pindexNew = .ok node') :
    Vetted env (history node'.files pindexNew) := by
  rw [(reorganize_sameFiles hreorganize).1]
  have hout := reorganize_outcome env io node pindexNew
  rw [hreorganize] at hout
  cases hout with
  | reorganized hdis hconnect _ _ =>
    have hb := hdis.best
    rw [hbest.pointer, Option.some.injEq] at hb
    subst hb
    obtain ⟨hfork, hfork'⟩ := Lineage.fork?_mem hdis.fork
    exact (h.of_mem_line hfork).connectBranch hfork' hbest.stored hknown hnodup
      (lists_disconnectBranch hfork hbest.distinct hbest.chain.listed hdis.disconnected) hconnect

theorem Vetted.setBestChain {io : Io} {best pindexNew : CBlockIndex}
    (h : Vetted env (history node.files best)) (hbest : BestAt env node best)
    (hknown : node.Knows pindexNew) (hprev : (CBlockIndex.pprev pindexNew).isSome = true)
    (hblock : node.files.blocks (pindexNew.nFile, pindexNew.nBlockPos) = some block)
    (horderly : Orderly env io node pindexNew block) :
    ∃ best', BestAt env (block.SetBestChain env io node pindexNew).final best' ∧
      Vetted env (history (block.SetBestChain env io node pindexNew).final.files best') := by
  have hdistinct := horderly.distinct
  have hout := horderly.outcome hbest hknown hprev hblock
  obtain ⟨best', hbest'⟩ := hbest.setBestChain hknown hprev hblock horderly
  generalize (block.SetBestChain env io node pindexNew).final = node' at hout hbest' ⊢
  cases hout with
  | refused hsame =>
    have hsame' := hbest.sameChain hsame
    obtain ⟨pool, g, rfl⟩ := hsame
    exact ⟨best, hsame', h⟩
  | @extended d _ hnew htip hinner =>
    subst hnew
    refine ⟨best', hbest', ?_⟩
    have heq := hbest'.pointer
    rw [newBest, Option.some.injEq] at heq
    rw [← heq]
    have hvetted := h.inner hbest.chain hbest.stored hknown hblock hdistinct hinner
    exact hvetted
  | @reorganized node₁ node₂ htip hreorganize hrun =>
    refine ⟨best', hbest', ?_⟩
    have heq := hbest'.pointer
    rw [newBest, Option.some.injEq] at heq
    rw [← heq]
    have hmem : (node.split pindexNew).1 ∈ pindexNew.line := splitPostponed_mem_line _ _
    have hnodup := ids_pathItems_line hmem hdistinct
    have hsame := reorganize_sameFiles hreorganize
    have hbase : (ChainAt env node₁ (node.split pindexNew).1 ∧ node.SameFiles node₁) ∧
        Vetted env (history node₁.files (node.split pindexNew).1) :=
      ⟨⟨hbest.reorganized hnodup hreorganize, hsame⟩,
        h.reorganized hbest (hbest.stored.knows_line env hknown hmem) hnodup hreorganize⟩
    have hend := hrun.climb
      (P := fun a tip => (ChainAt env a tip ∧ node.SameFiles a) ∧ Vetted env (history a.files tip))
      hbase (by
        rintro a b d p attached hmem ⟨⟨hchain, hf, hm, hg⟩, ha⟩ hattached hinner
        have hline := postponed_mem_line hmem
        have hstored : Stored env a.files a.mapBlockIndex := by
          rw [hf, hm]
          exact hbest.stored
        have hknown' : a.Knows (.child d p) := by
          rw [Node.Knows, hm]
          exact hbest.stored.knows_line env hknown hline
        have hnodup' : (Ledger.ids (pathItems env a.files (.child d p))).Nodup := by
          rw [hf]
          exact ids_pathItems_line hline hdistinct
        exact ⟨⟨hchain.inner hstored hknown' hattached hnodup' hinner,
          Node.SameFiles.trans ⟨hf, hm, hg⟩ (setBestChainInner_sameFiles hinner)⟩,
          ha.inner hchain hstored hknown' hattached hnodup' hinner⟩)
    exact hend.2

/-- The chain of the tip is vetted in every state of an orderly run. -/
theorem Reaches.vetted (h : Reaches env (Orderly env) node) :
    ∃ best, BestAt env node best ∧ Vetted env (history node.files best) := by
  induction h with
  | genesis hhash _ hload hbest =>
    have hat := bestAt_genesis hhash hload hbest
    exact ⟨_, hat, vetted_nil⟩
  | store _ _ hnew ih =>
    obtain ⟨best, hb, hvetted⟩ := ih
    refine ⟨best, hb.store hnew, ?_⟩
    rw [history_store hb.stored hb.known]
    exact hvetted
  | setBestChain _ hknown hprev hblock hcall ih =>
    obtain ⟨best, hb, hvetted⟩ := ih
    exact hvetted.setBestChain hb hknown hprev hblock hcall
  | @pool io node tx _ ih =>
    obtain ⟨best, hb, hvetted⟩ := ih
    have hsame := acceptToMemoryPool_sameChain env io node tx
    have hb' := hb.sameChain hsame
    obtain ⟨pool, g, heq⟩ := hsame
    rw [heq] at hb' ⊢
    exact ⟨best, hb', hvetted⟩

theorem Grounded.attached {io : Io} {node node' : Node} {d : BlockIndexData} {p : CBlockIndex}
    {block : CBlock} (h : Grounded env node p)
    (hattach : Attaches env io node (.child d p) block node') :
    Grounded env node' (.child d p) := by
  obtain ⟨hknown, hblock, hdistinct, hshown, hinner⟩ := hattach
  have hsame := setBestChainInner_sameFiles hinner
  have hchain := h.chain.inner h.stored hknown hblock hdistinct hinner
  refine ⟨?_, ?_, hchain, h.root.sameFiles hsame, ?_,
    h.vetted.inner h.chain h.stored hknown hblock hdistinct hinner⟩
  · rw [hsame.1, hsame.2.1]
    exact h.stored
  · rw [Node.Knows, hsame.2.1]
    exact hknown
  · refine h.rebuilt.inner h.chain hchain h.stored hknown h.root (fun stored hholds => ?_) hinner
    rw [hholds.stored, Option.some.injEq] at hblock
    exact hblock ▸ hshown

theorem AtTip.grounded (h : AtTip env node tip) : Grounded env node tip := by
  have hreached : ∀ {node : Node} {best : CBlockIndex}, Reaches env (Tracked env) node →
      node.pindexBest = some best → BestAt env node best ∧ PlainRoot env node ∧
        Rebuilt env node best ∧ Vetted env (history node.files best) := by
    intro node best hnode hbest
    obtain ⟨hroot, b, hb, hrebuilt⟩ := hnode.rebuilt
    obtain ⟨b', hb', hvetted⟩ := (hnode.mono fun _ _ _ _ hcall => hcall.orderly).vetted
    obtain rfl : b = best := Option.some.inj (hb.pointer.symm.trans hbest)
    obtain rfl : b' = b := Option.some.inj (hb'.pointer.symm.trans hbest)
    exact ⟨hb, hroot, hrebuilt, hvetted⟩
  induction h with
  | reached hnode hbest =>
    obtain ⟨hb, hroot, hrebuilt, hvetted⟩ := hreached hnode hbest
    exact ⟨hb.stored, hb.known, hb.chain, hroot, hrebuilt, hvetted⟩
  | switched hnode hbest hswitch =>
    obtain ⟨hb, hroot, hrebuilt, hvetted⟩ := hreached hnode hbest
    obtain ⟨hknown, hdistinct, hplain, hreorganize⟩ := hswitch
    have hsame := reorganize_sameFiles hreorganize
    have hchain := hb.reorganized hdistinct hreorganize
    refine ⟨?_, ?_, hchain, hroot.sameFiles hsame, ?_,
      hvetted.reorganized hb hknown hdistinct hreorganize⟩
    · rw [hsame.1, hsame.2.1]
      exact hb.stored
    · rw [Node.Knows, hsame.2.1]
      exact hknown
    · exact hrebuilt.reorganized hb hroot hknown hchain hplain hreorganize
  | attached _ hattach ih => exact ih.attached hattach

/-! ## The records of a chain -/

/-- The records are those of the lease of the chain, for each name. -/
theorem records_rebuild {v : vchType} (hfinds : PathFinds env files txdb tip)
    (hroot : ∀ d, Lineage.root d ∈ tip.line → AliasFree env files (.root d))
    (hvout : ∀ c ∈ history files tip, c.tx.vout ≠ [])
    (hrebuild : rebuild env files txdb tip = .ok ln1Db) :
    Records ln1Db v (holderOf env v (history files tip)) := by
  induction tip generalizing ln1Db with
  | root d =>
    rw [rebuild, filter_aliasFree (hroot d (by simp)), Except.ok.injEq] at hrebuild
    rw [← hrebuild]
    exact rfl
  | child d p ih =>
    have hsub : ∀ a ∈ p.line, a ∈ Lineage.line (.child d p) := fun a ha =>
      List.mem_cons_of_mem _ ha
    rw [rebuild, seq_ok] at hrebuild
    obtain ⟨ln1Db₁, hbelow, hlast⟩ := hrebuild
    obtain ⟨block, hblock, hself⟩ := hfinds (.child d p) (by simp) rfl
    rw [history_child hblock] at hvout ⊢
    have hp := ih (fun a ha => hfinds a (hsub a ha)) (fun d' hd' => hroot d' (hsub _ hd'))
      (fun c hc => hvout c (List.mem_append_left _ hc)) hbelow
    rw [LocatorNodeDB.filter, filterBlock_eq hblock] at hlast
    refine hp.filterLoop hself (fun tx htx => ?_) hlast
    rw [← positions_map_snd block (.child d p)] at htx
    obtain ⟨q, hq, rfl⟩ := List.mem_map.mp htx
    exact hvout ⟨_, q.1, q.2⟩ (List.mem_append_right _ (mem_chainTxs.mpr ⟨hq, rfl⟩))

theorem Grounded.records (h : Grounded env node tip) (v : vchType) :
    Records node.ln1Db v (holderOf env v (history node.files tip)) :=
  records_rebuild (h.chain.pathFinds h.stored h.known)
    (fun d hd => h.root d (h.stored.knows_line env h.known hd)) h.vetted.outputs h.rebuilt

/-! ## Owners -/

/-- By the difference that `filter` takes, a record that has lapsed is old. -/
theorem lapsed_old {params : ChainParams} {old : ChainTx} (hle : old.nHeight ≤ c.nHeight)
    (h : lapsed params c old = true) : old.nHeight + params.scaleMonitor ≤ c.nHeight := by
  have hdiff := of_decide_eq_true h
  unfold unsignedDiff at hdiff
  omega

theorem deeds_sorted (v : vchType) (h : chain.Pairwise fun a b => a.nHeight ≤ b.nHeight) :
    (deeds env v chain).Pairwise fun a b => a.record.nHeight ≤ b.record.nHeight := by
  refine h.filterMap _ fun a b hab e he e' he' => ?_
  rw [(event_eq_some he).1, (event_eq_some he').1]
  exact hab

/-- On a vetted chain the relays of a live name spend alias outputs of recent transactions. -/
theorem Guarded.spendsRecent {v : vchType} {after : List ChainTx}
    (h : Guarded env v (before ++ c :: after)) (hvetted : Vetted env (before ++ c :: after))
    (hlive : RelaysLive env v before c) : SpendsRecent env v before c := by
  by_cases hkind : c.tx.IsCoinBase = true ∨ c.tx.IsCoinStake = true
  · exact h.asked before c after rfl hlive hkind
  · rw [not_or, Bool.not_eq_true, Bool.not_eq_true] at hkind
    exact hvetted.relays before c after rfl v ⟨hlive.1, hkind⟩

/-- On a vetted and guarded chain the relays of a live name are renewals from recent sets and relays of
it. -/
theorem Guarded.backed {v : vchType} (h : Guarded env v chain) (hvetted : Vetted env chain) :
    Lease.Backed ChainTx.nHeight (lapsed env.toChainParams) (MadeFrom env v) env.scaleMonitor
      (deeds env v chain) := by
  intro before e after hsplit hrenews hmeets
  obtain ⟨past, rest, rfl, rfl, hrest⟩ := List.filterMap_eq_append_iff.mp hsplit
  obtain ⟨skipped, c, later, rfl, hskipped, hevent, rfl⟩ := List.filterMap_eq_cons_iff.mp hrest
  obtain ⟨hc, hrelay, -⟩ := event_eq_some hevent
  rw [Lease.Meets, hc] at hmeets
  rw [hc]
  rw [← List.append_assoc] at h hvetted
  have hlive : RelaysLive env v (past ++ skipped) c := by
    have hnone : deeds env v skipped = [] := List.filterMap_eq_nil_iff.mpr hskipped
    rw [RelaysLive, holderOf, deeds_append, hnone, List.append_nil]
    exact ⟨hrelay hrenews, hmeets⟩
  obtain ⟨p, hp, ⟨out, hspends⟩, hrecent⟩ := h.spendsRecent hvetted hlive
  obtain ⟨op, hcase, -, hperforms⟩ := h.encoded _ c later rfl hlive p hp out hspends
  have hdeed : ∃ e', p.event env v = some e' := by
    rcases hcase with rfl | rfl
    · exact ⟨_, event_set hperforms⟩
    · exact ⟨_, event_relay hperforms⟩
  obtain ⟨e', he'⟩ := hdeed
  have hpast : p ∈ past := by
    rcases List.mem_append.mp hp with hp | hp
    · exact hp
    · rw [hskipped p hp] at he'
      cases he'
  refine ⟨e', List.mem_filterMap.mpr ⟨p, hpast, he'⟩, ?_⟩
  rw [(event_eq_some he').1]
  exact ⟨⟨out, hspends⟩, hrecent⟩

/-- On a vetted and guarded chain every relay of a live name spends the transaction behind the record
it replaces. -/
theorem Guarded.made_from_holder {v : vchType} {after : List ChainTx}
    (h : Guarded env v (before ++ c :: after)) (hvetted : Vetted env (before ++ c :: after))
    (hsorted : (before ++ c :: after).Pairwise fun a b => a.nHeight ≤ b.nHeight)
    (hlive : RelaysLive env v before c) :
    ∃ old, holderOf env v before = some old ∧ MadeFrom env v old c := by
  have hdeeds : deeds env v (before ++ c :: after) =
      deeds env v before ++ ⟨v, true, c⟩ :: deeds env v after := by
    rw [deeds_append]
    congr 1
    exact List.filterMap_cons_some (event_relay hlive.1)
  have hrising : (deeds env v (before ++ c :: after)).Pairwise _ := deeds_sorted v hsorted
  have hhonest := h.honest
  have hbacked := h.backed hvetted
  rw [hdeeds] at hrising hhonest hbacked
  exact Lease.made_from_holder ChainTx.nHeight (fun _ _ => lapsed_old) hrising hhonest hbacked rfl
    hlive.2

/-! ## One block -/

/-- The name has a record that has not expired at the height of the block. -/
def Live (params : ChainParams) (pindex : CBlockIndex) (v : vchType) (ln1Db : AliasDb) : Prop :=
  ∃ r, aliasRecord ln1Db v = some r ∧
    unsignedDiff pindex.nHeight r.nHeight < params.scaleMonitor

/-- A live record is changed by a relay only, and it is live afterwards. -/
theorem Live.filterTx {txPos : CDiskTxPos} {tx tx' : CTransaction} {v : vchType}
    (h : Live env.toChainParams pindex v ln1Db)
    (hrun : filterTx env files txdb pindex ln1Db txPos tx = .ok (ln1Db', tx')) :
    (ln1Db' v ≠ ln1Db v → Performs env OP_ALIAS_RELAY v tx) ∧
      Live env.toChainParams pindex v ln1Db' := by
  obtain ⟨r, hr, hlive⟩ := h
  have hother : ∀ {w : vchType} {l : Option (List AliasIndex)}, v ≠ w →
      Function.update ln1Db w l v = ln1Db v ∧
        Live env.toChainParams pindex v (Function.update ln1Db w l) := fun hw =>
    ⟨Function.update_of_ne hw _ _, r, (aliasRecord_update_of_ne hw).trans hr, hlive⟩
  cases filterTx_outcome hrun with
  | kept _ _ => exact ⟨fun hchanged => absurd rfl hchanged, r, hr, hlive⟩
  | @set w r' hop hfree _ _ =>
    by_cases hw : v = w
    · subst hw
      exact absurd hlive (not_lt.mpr (hfree r hr))
    · exact ⟨fun hchanged => absurd (hother hw).1 hchanged, (hother hw).2⟩
  | @relay w r' hop _ _ hheight =>
    by_cases hw : v = w
    · subst hw
      refine ⟨fun _ => hop, r', aliasRecord_update_self _ _ _, ?_⟩
      rw [hheight]
      refine unsignedDiff_of_le le_rfl ?_ (scaleMonitor_le _)
      rw [sub_self]
      exact_mod_cast scaleMonitor_pos _
    · exact ⟨fun hchanged => absurd (hother hw).1 hchanged, (hother hw).2⟩

/-- Along a block on which every relay of the live name spends the transaction behind the record, a
live record is handed on. -/
theorem handedOn_of_made {visible : BlockFile} {v : vchType} {vtx : List CTransaction}
    {past : List ChainTx} (hfinds : ∀ tx ∈ vtx, FindsItself env visible txdb tx)
    (hvout : ∀ tx ∈ vtx, tx.vout ≠ []) (hlive : Live env.toChainParams pindex v ln1Db)
    (hrecords : Records ln1Db v (holderOf env v past))
    (hread : ∀ c ∈ past ++ chainTxs pindex.nHeight
      (txPositions pindex.nFile pindex.nBlockPos nTxPos vtx), files.readTx c.txPos = some c.tx)
    (hmade : ∀ before c after, past ++ chainTxs pindex.nHeight
        (txPositions pindex.nFile pindex.nBlockPos nTxPos vtx) = before ++ c :: after →
      RelaysLive env v before c →
      ∃ old, holderOf env v before = some old ∧ MadeFrom env v old c) :
    HandedOn env files visible txdb pindex v nTxPos vtx ln1Db := by
  induction vtx generalizing nTxPos ln1Db past with
  | nil => trivial
  | cons tx vtx ih =>
    intro ln1Db' tx' hrun
    obtain ⟨hself, hselves⟩ := List.forall_mem_cons.mp hfinds
    obtain ⟨hout, houts⟩ := List.forall_mem_cons.mp hvout
    obtain rfl := filterTx_found hself hout hrun
    obtain ⟨hrelay, hlive'⟩ := hlive.filterTx hrun
    have hnext := hrecords.filterTx hself hout hrun
    rw [← holderOf_append_singleton] at hnext
    refine ⟨fun hchanged => ⟨hrelay hchanged, ?_⟩,
      ih hselves houts hlive' hnext (by simpa [chainTxs, txPositions] using hread)
        (by simpa [chainTxs, txPositions] using hmade)⟩
    obtain ⟨r, hr, hage⟩ := hlive
    obtain ⟨old, hheld, hpos, hheight⟩ := hrecords.holds hr
    rw [hheight] at hage
    obtain ⟨old', hheld', out, hspends⟩ := hmade past _ _ rfl
      ⟨hrelay hchanged, old, hheld, decide_eq_false (not_le.mpr hage)⟩
    obtain rfl : old = old' := Option.some.inj (hheld.symm.trans hheld')
    have hmem : old ∈ past := by
      obtain ⟨e, he, rfl⟩ := Lease.holder_mem hheld
      obtain ⟨c, hc, hevent⟩ := List.mem_filterMap.mp he
      exact (event_eq_some hevent).1 ▸ hc
    exact ⟨r, hr, old.tx, out, hpos ▸ hread old (List.mem_append_left _ hmem), hspends⟩

/-- The first change of the record is made by its owner. -/
theorem HandedOn.spends {visible : BlockFile} {v : vchType} {vtx : List CTransaction}
    {r : AliasIndex} (h : HandedOn env files visible txdb pindex v nTxPos vtx ln1Db)
    (hr : aliasRecord ln1Db v = some r)
    (hrun : filterLoop env visible txdb pindex nTxPos vtx ln1Db = .ok ln1Db')
    (hchanged : ln1Db' v ≠ ln1Db v) :
    ∃ tx ∈ vtx, Performs env OP_ALIAS_RELAY v tx ∧ SpendsAliasAt env files v r.txPos tx := by
  induction vtx generalizing nTxPos ln1Db with
  | nil =>
    rw [filterLoop, Except.ok.injEq] at hrun
    exact absurd (congrFun hrun v).symm hchanged
  | cons tx vtx ih =>
    rw [filterLoop, seq_ok] at hrun
    obtain ⟨⟨ln1Db₁, tx₁⟩, hone, hrest⟩ := hrun
    obtain ⟨hstep, hlater⟩ := h ln1Db₁ tx₁ hone
    by_cases hsame : ln1Db₁ v = ln1Db v
    · have hr₁ : aliasRecord ln1Db₁ v = some r := by
        rw [aliasRecord, vtxPosOf, hsame]
        exact hr
      obtain ⟨tx', hmem, hspends⟩ := ih hlater hr₁ hrest (hsame ▸ hchanged)
      exact ⟨tx', List.mem_cons_of_mem _ hmem, hspends⟩
    · obtain ⟨hop, r', hr', hspends⟩ := hstep hsame
      rw [hr, Option.some.injEq] at hr'
      exact ⟨tx, List.mem_cons_self, hop, hr' ▸ hspends⟩

/-- A live record is safe: in every run whose calls are tracked and on whose chain no relay takes the
name from its owner, a block that is attached changes the record of the name only by relays of the
owner, each of which spends the alias output of the transaction behind the record it replaces. -/
theorem live_record_safe {io : Io} {node node' : Node} {d : BlockIndexData} {p : CBlockIndex}
    {block : CBlock} (hnode : AtTip env node p)
    (hattach : Attaches env io node (.child d p) block node') {v : vchType} {r : AliasIndex}
    (hr : aliasRecord node.ln1Db v = some r)
    (hlive : (CBlockIndex.nHeight (.child d p) : ℤ) - r.nHeight < env.scaleMonitor)
    (hguarded : Guarded env v (history node.files (.child d p))) :
    OwnerOnly env io node node' (.child d p) block v r := by
  have hg := hnode.grounded
  have hg' := hg.attached hattach
  obtain ⟨hknown, hblock, hdistinct, hshown, hinner⟩ := hattach
  have hfiles := (setBestChainInner_sameFiles hinner).1
  obtain ⟨stored, hholds, -⟩ := hg.stored.held _ hknown
  obtain rfl : stored = block := Option.some.inj (hholds.stored.symm.trans hblock)
  have hrecords := hg.records v
  obtain ⟨old, hheld, -, hheight⟩ := hrecords.holds hr
  have hage : r.nHeight ≤ CBlockIndex.nHeight (.child d p) := by
    obtain ⟨e, he, rfl⟩ := Lease.holder_mem hheld
    obtain ⟨c, hc, hevent⟩ := List.mem_filterMap.mp he
    rw [hheight, (event_eq_some hevent).1]
    exact Nat.le_succ_of_le (history_nHeight hc)
  have hvetted : Vetted env (history node.files (.child d p)) := hfiles ▸ hg'.vetted
  have hout := setBestChainInner_outcome env io node (.child d p) stored
  rw [hinner] at hout
  cases hout with
  | @attached T g ln1Db _ hconnect _ hfilter hnode' =>
    obtain ⟨pool, g', rfl⟩ := hnode'
    have hvisible : (io.visible node.files).blocks
        (CBlockIndex.nFile (.child d p), CBlockIndex.nBlockPos (.child d p)) = some stored := by
      simp [Io.visible, hshown.1, hblock]
    have hhanded : HandedOn env node.files (io.visible node.files) T (.child d p) v
        (firstTxPos (CBlockIndex.nBlockPos (.child d p)) stored.vtx.length) stored.vtx
          node.ln1Db := by
      refine handedOn_of_made (connectBlock_finds hholds hshown hconnect)
        (checkBlock_vout (connectBlock_ok env hconnect).1)
        ⟨r, hr, unsignedDiff_of_le hage hlive (scaleMonitor_le _)⟩ hrecords ?_ ?_
      · intro c hc
        exact (history_stored hg.stored hknown (history_child hblock ▸ hc)).1
      · intro before c after hsplit hmeets
        have hchain := (history_child hblock).trans hsplit
        exact (hchain ▸ hguarded).made_from_holder (hchain ▸ hvetted)
          (hchain ▸ history_sorted node.files (.child d p)) hmeets
    rw [LocatorNodeDB.filter, filterBlock_eq hvisible] at hfilter
    exact ⟨hhanded.spends hr hfilter, hhanded⟩

namespace Scenario

/-- After the blocks of `ms` the next block is stored and attached, and `p` holds of the node before,
the block, the record of the name, and the node after. -/
def attaches (ms : List Mining) (m : Mining)
    (p : Node → CBlockIndex → CBlock → AliasIndex → Node → Bool) : Bool :=
  match LoadGenesis (timed testNet) io genesisBlock with
  | .error _ => false
  | .ok genesis =>
    match arrivals extendsOrderly genesis ms with
    | none => false
    | some node =>
      let block := nextBlock node m
      let stored := node.store (timed testNet) block
      let pindex := node.entryFor (timed testNet) block
      (((node.mapBlockIndex block.hashPrevBlock).isSome &&
          decide (node.mapBlockIndex block.hashPrevBlock = node.pindexBest)) &&
        ((node.mapBlockIndex (block.GetHash (timed testNet))).isNone &&
          decide (Ledger.ids (pathItems (timed testNet) stored.files pindex)).Nodup)) &&
      match aliasRecord stored.ln1Db [0x61],
        block.SetBestChainInner (timed testNet) io stored pindex with
      | some r, .ok node' => p stored pindex block r node'
      | _, _ => false

theorem attaches_ok {ms : List Mining} {m : Mining}
    {p : Node → CBlockIndex → CBlock → AliasIndex → Node → Bool} (h : attaches ms m p = true) :
    ∃ node d best block r node', AtTip (timed testNet) node best ∧
      Attaches (timed testNet) io node (.child d best) block node' ∧
      aliasRecord node.ln1Db [0x61] = some r ∧ p node (.child d best) block r node' = true := by
  unfold attaches at h
  split at h
  · cases h
  rename_i genesis hload
  split at h
  · cases h
  rename_i node hrun
  simp only [Bool.and_eq_true, decide_eq_true_eq, Option.isNone_iff_eq_none] at h
  obtain ⟨⟨⟨hprev, hbest⟩, hnew, hdistinct⟩, h⟩ := h
  split at h
  swap
  · cases h
  rename_i r node' hr hinner
  obtain ⟨best, hparent⟩ := Option.isSome_iff_exists.mp hprev
  have hentry : CBlockIndex.pprev (node.entryFor (timed testNet) (nextBlock node m)) = _ :=
    entryFor_pprev node (nextBlock node m)
  obtain ⟨d, hd⟩ := Lineage.parent?_eq_some.mp (hentry.trans hparent)
  have hreach := (arrivals_reaches (fun _ _ _ => tracked_of_extendsOrderly)
    (loadGenesis_reaches hload) hrun).store hprev hnew
  refine ⟨_, d, best, nextBlock node m, r, node', .reached hreach (hbest ▸ hparent), ?_, hr, hd ▸ h⟩
  rw [← hd]
  exact ⟨store_knows _ _, store_blocks _ _, hdistinct, ⟨rfl, fun _ _ => rfl⟩, hinner⟩

/-- The first block sets the name in its coinbase, and ten more make the coinbase spendable. -/
def setAndMature : List Mining :=
  rewarded testNet.hashGenesisBlock 1000 aliasSet :: (firstBlocks 10).tail

/-- A block with the relay of the owner, which spends the reward and the alias output of the set. -/
def ownerRelays : Mining :=
  ⟨10000, 11000, 1, [payTo (625 * COIN)],
    [spending 10500 CTransaction.DION_TX_VERSION [⟨999, 0⟩, ⟨999, 1⟩]
      [payTo (624 * COIN), ⟨0, aliasRelay⟩]]⟩

/-- Every relay of the name on the chain is ordinary and spends what `filter` took for a set or relay,
and the chain has one set and one relay behind it. -/
def relaysOnce (chain : List ChainTx) : Bool :=
  (chain.all fun c => decide (Performs (timed testNet) OP_ALIAS_RELAY [0x61] c.tx →
    c.tx.IsCoinBase = false ∧ c.tx.IsCoinStake = false)) &&
  (chain.all fun p => chain.all fun c =>
    decide (¬ Performs (timed testNet) OP_ALIAS_RELAY [0x61] c.tx) || c.tx.vin.all fun txin =>
      decide (txin.prevout.hash ≠ p.tx.GetHash (timed testNet)) ||
        (p.tx.vout[txin.prevout.n]?).all fun out =>
          decide (¬ (aliasScript out.scriptPubKey none).ret = true) ||
            decide ((aliasScript out.scriptPubKey none).op = some OP_ALIAS_SET ∧
              Performs (timed testNet) OP_ALIAS_SET [0x61] p.tx)) &&
  decide ((deeds (timed testNet) [0x61] chain).map Lease.Event.renews = [false, true])

theorem guarded_of_relaysOnce (h : relaysOnce chain = true) :
    Guarded (timed testNet) [0x61] chain := by
  simp only [relaysOnce, Bool.and_eq_true, List.all_eq_true, Bool.or_eq_true, decide_eq_true_eq] at h
  obtain ⟨⟨hordinary, hencoded⟩, hdeeds⟩ := h
  refine ⟨?_, ?_, ?_⟩
  · rintro before c after rfl hlive hkind
    obtain ⟨hcoinbase, hcoinstake⟩ := hordinary c (by simp) hlive.1
    rw [hcoinbase, hcoinstake] at hkind
    cases hkind.elim id id
  · rintro before c after rfl hlive q hq out ⟨txin, hin, hhash, hout, halias, -⟩
    rcases hencoded q (by simp [hq]) c (by simp) with hno | hall
    · exact absurd hlive.1 hno
    rcases hall txin hin with hne | hread
    · exact absurd hhash hne
    rw [hout, Option.all_some, Bool.or_eq_true, decide_eq_true_eq, decide_eq_true_eq] at hread
    rcases hread with hno | ⟨hset, hperforms⟩
    · exact absurd halias hno
    · exact ⟨OP_ALIAS_SET, .inl rfl, hset, hperforms⟩
  · obtain ⟨e, es, heq, hclaim, hes⟩ := List.map_eq_cons_iff.mp hdeeds
    obtain ⟨e', rfl, hrenews⟩ := List.map_eq_singleton_iff.mp hes
    rw [heq]
    exact Lease.honest_claim_renewal hclaim

end Scenario

open Scenario in
/-- The owner relays the name in the eleventh block. -/
theorem live_record_safe_relayed :
    ∃ node d best block r node', AtTip (timed testNet) node best ∧
      Attaches (timed testNet) io node (.child d best) block node' ∧
      aliasRecord node.ln1Db [0x61] = some r ∧
      (CBlockIndex.nHeight (.child d best) : ℤ) - r.nHeight < (timed testNet).scaleMonitor ∧
      Guarded (timed testNet) [0x61] (history node.files (.child d best)) ∧
      node'.ln1Db [0x61] ≠ node.ln1Db [0x61] ∧
      OwnerOnly (timed testNet) io node node' (.child d best) block [0x61] r := by
  have htest : attaches setAndMature ownerRelays (fun node pindex _ r node' =>
      decide ((pindex.nHeight : ℤ) - r.nHeight < (timed testNet).scaleMonitor) &&
        (decide (node'.ln1Db [0x61] ≠ node.ln1Db [0x61]) &&
          relaysOnce (history node.files pindex))) = true := by
    decide +kernel
  obtain ⟨node, d, best, block, r, node', hnode, hattach, hr, h⟩ := attaches_ok htest
  simp only [Bool.and_eq_true, decide_eq_true_eq] at h
  obtain ⟨hlive, hchanged, honce⟩ := h
  have hguarded := guarded_of_relaysOnce honce
  exact ⟨node, d, best, block, r, node', hnode, hattach, hr, hlive, hguarded, hchanged,
    live_record_safe hnode hattach hr hlive hguarded⟩

open Scenario in
/-- The coinbase of the next block relays the name. It spends nothing, and it takes the name. -/
theorem coinbase_takes_live_name :
    ∃ node d best block r node', AtTip (timed testNet) node best ∧
      Attaches (timed testNet) io node (.child d best) block node' ∧
      aliasRecord node.ln1Db [0x61] = some r ∧
      (CBlockIndex.nHeight (.child d best) : ℤ) - r.nHeight < (timed testNet).scaleMonitor ∧
      ¬ OwnerOnly (timed testNet) io node node' (.child d best) block [0x61] r := by
  have htest : attaches [rewarded testNet.hashGenesisBlock 1000 aliasSet]
      (rewarded 1000 2000 aliasRelay) (fun node pindex block r node' =>
        decide ((pindex.nHeight : ℤ) - r.nHeight < (timed testNet).scaleMonitor) &&
          (decide (node'.ln1Db [0x61] ≠ node.ln1Db [0x61]) &&
            block.vtx.all fun tx => tx.vin.all fun txin =>
              (node.files.readTx r.txPos).all fun txPrev =>
                decide (txin.prevout.hash ≠ txPrev.GetHash (timed testNet)))) = true := by
    decide +kernel
  obtain ⟨node, d, best, block, r, node', hnode, hattach, hr, h⟩ := attaches_ok htest
  simp only [Bool.and_eq_true, List.all_eq_true, decide_eq_true_eq] at h
  obtain ⟨hlive, hchanged, hspends⟩ := h
  refine ⟨node, d, best, block, r, node', hnode, hattach, hr, hlive, fun howner => ?_⟩
  obtain ⟨tx, hmem, -, txPrev, out, hread, txin, hin, hhash, -⟩ := howner.spends hchanged
  have hne := hspends tx hmem txin hin
  rw [hread, Option.all_some] at hne
  exact (of_decide_eq_true hne) hhash

end Dions
