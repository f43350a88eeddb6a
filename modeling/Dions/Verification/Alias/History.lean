import Dions.Verification.Alias.Modes
import Dions.Verification.Alias.Records
import Dions.Verification.Chain.Value

/-! # What the blocks of a chain were asked

`ConnectInputsPost` has seen every relay of a chain that is neither coinbase nor coin stake: an input
spends an alias output of the same name, from an earlier transaction of the chain that is less than
`scaleMonitor` blocks old. That this transaction is the one behind the record is not asked. -/

namespace Dions

open Halting

variable (env : Env)
variable {files : BlockFile} {pindex tip : CBlockIndex} {block : CBlock}
  {mapBlockIndex : uint256 → Option CBlockIndex} {g : Globals}
variable {c : ChainTx} {g' : Globals} {T T' queued : TxIndexMap}

/-! ## The transactions of a chain -/

def CDiskTxPos.InBlock (pos : CDiskTxPos) (pindex : CBlockIndex) : Prop :=
  pos.nFile = pindex.nFile ∧ pos.nBlockPos = pindex.nBlockPos

def txsAt (files : BlockFile) (pindex : CBlockIndex) : List ChainTx :=
  match files.blocks (pindex.nFile, pindex.nBlockPos) with
  | none => []
  | some block => chainTxs pindex.nHeight (block.positions pindex)

/-- The transactions of the blocks above the genesis block, in the order of the chain. -/
def history (files : BlockFile) : CBlockIndex → List ChainTx
  | .root _ => []
  | .child d p => history files p ++ txsAt files (.child d p)

/-- An input of the transaction spends the output of `txPrev`, an alias output of the name. -/
def SpendsAlias (v : vchType) (txPrev tx : CTransaction) (out : CTxOut) : Prop :=
  ∃ txin ∈ tx.vin, txin.prevout.hash = txPrev.GetHash env ∧
    txPrev.vout[txin.prevout.n]? = some out ∧ (aliasScript out.scriptPubKey none).ret = true ∧
      (aliasScript out.scriptPubKey none).vvch[0]? = some v

/-- The transaction `c` spends an alias output of `p` with the name. -/
def MadeFrom (v : vchType) (p c : ChainTx) : Prop := ∃ out, SpendsAlias env v p.tx c.tx out

/-- The transaction is a relay of the name that `ConnectInputs` hands to `ConnectInputsPost`. -/
def AskedRelay (v : vchType) (tx : CTransaction) : Prop :=
  Performs env OP_ALIAS_RELAY v tx ∧ tx.IsCoinBase = false ∧ tx.IsCoinStake = false

/-- Among the transactions is one of less than `scaleMonitor` blocks ago, an alias output of which is
spent under the same name. -/
def SpendsRecent (v : vchType) (before : List ChainTx) (c : ChainTx) : Prop :=
  ∃ p ∈ before, MadeFrom env v p c ∧ c.nHeight < p.nHeight + env.scaleMonitor

/-- Every transaction of the chain has outputs, and every relay on it was asked. -/
structure Vetted (chain : List ChainTx) : Prop where
  outputs : ∀ c ∈ chain, c.tx.vout ≠ []
  relays : ∀ before c after, chain = before ++ c :: after → ∀ v, AskedRelay env v c.tx →
    SpendsRecent env v before c

variable {env}

theorem txsAt_of_blocks (h : files.blocks (pindex.nFile, pindex.nBlockPos) = some block) :
    txsAt files pindex = chainTxs pindex.nHeight (block.positions pindex) := by
  simp [txsAt, h]

theorem history_child {d : BlockIndexData} {p : CBlockIndex}
    (h : files.blocks (CBlockIndex.nFile (.child d p), CBlockIndex.nBlockPos (.child d p)) =
      some block) :
    history files (.child d p) = history files p ++
      chainTxs (CBlockIndex.nHeight (.child d p)) (block.positions (.child d p)) := by
  rw [history, txsAt_of_blocks h]

theorem mem_chainTxs {nHeight : ℕ} {ps : List (CDiskTxPos × CTransaction)} :
    c ∈ chainTxs nHeight ps ↔ (c.txPos, c.tx) ∈ ps ∧ c.nHeight = nHeight := by
  rw [chainTxs, List.mem_map]
  constructor
  · rintro ⟨p, hp, rfl⟩
    exact ⟨hp, rfl⟩
  · rintro ⟨hp, rfl⟩
    exact ⟨_, hp, rfl⟩

theorem pathItems_eq (files : BlockFile) (tip : CBlockIndex) :
    pathItems env files tip = (history files tip).map fun c => txItem env (c.txPos, c.tx) := by
  induction tip with
  | root d => rfl
  | child d p ih =>
    have hblock : storedItems env files (.child d p) =
        (txsAt files (.child d p)).map fun c => txItem env (c.txPos, c.tx) := by
      rw [storedItems, txsAt]
      cases files.blocks (CBlockIndex.nFile (.child d p), CBlockIndex.nBlockPos (.child d p)) with
      | none => rfl
      | some block => simp [CBlock.items, chainTxs]
    rw [pathItems, history, List.map_append, ih, hblock]

theorem mem_history :
    c ∈ history files tip ↔ ∃ a ∈ tip.line, (CBlockIndex.pprev a).isSome = true ∧
      c ∈ txsAt files a := by
  induction tip with
  | root d => simp [history, Lineage.line, CBlockIndex.pprev]
  | child d p ih =>
    simp only [history, List.mem_append, ih, Lineage.line, List.mem_cons]
    constructor
    · rintro (⟨a, ha, hprev, hc⟩ | hc)
      · exact ⟨a, .inr ha, hprev, hc⟩
      · exact ⟨_, .inl rfl, rfl, hc⟩
    · rintro ⟨a, rfl | ha, hprev, hc⟩
      · exact .inr hc
      · exact .inl ⟨a, ha, hprev, hc⟩

/-- The transactions up to an entry below come first. -/
theorem history_of_mem_line {a : CBlockIndex} (ha : a ∈ tip.line) :
    ∃ rest, history files tip = history files a ++ rest := by
  induction tip with
  | root d =>
    simp only [Lineage.line, List.mem_singleton] at ha
    exact ⟨[], by rw [ha, List.append_nil]⟩
  | child d p ih =>
    simp only [Lineage.line, List.mem_cons] at ha
    rcases ha with rfl | ha
    · exact ⟨[], by rw [List.append_nil]⟩
    · obtain ⟨rest, hrest⟩ := ih ha
      exact ⟨rest ++ txsAt files (.child d p), by rw [history, hrest, List.append_assoc]⟩

theorem txsAt_nHeight (h : c ∈ txsAt files pindex) : c.nHeight = pindex.nHeight := by
  unfold txsAt at h
  split at h
  · simp at h
  · exact (mem_chainTxs.mp h).2

theorem history_nHeight (h : c ∈ history files tip) : c.nHeight ≤ tip.nHeight := by
  obtain ⟨a, ha, -, hc⟩ := mem_history.mp h
  rw [txsAt_nHeight hc]
  exact Lineage.depth_le_of_mem_line ha

theorem history_sorted (files : BlockFile) (tip : CBlockIndex) :
    (history files tip).Pairwise fun a b => a.nHeight ≤ b.nHeight := by
  induction tip with
  | root d => exact .nil
  | child d p ih =>
    refine List.pairwise_append.mpr ⟨ih, ?_, fun a ha b hb => ?_⟩
    · refine List.pairwise_of_forall_mem_list fun a ha b hb => ?_
      rw [txsAt_nHeight ha, txsAt_nHeight hb]
    · rw [txsAt_nHeight hb]
      exact Nat.le_succ_of_le (history_nHeight ha)

/-- A transaction of a known chain is stored at its position, which is not that of the memory
pool. -/
theorem history_stored (hstored : Stored env files mapBlockIndex) {tip : CBlockIndex}
    (hknown : KnownIn mapBlockIndex tip) {c : ChainTx} (h : c ∈ history files tip) :
    files.readTx c.txPos = some c.tx ∧ c.txPos ≠ CDiskTxPos.memory ∧
      ∃ a ∈ tip.line, c.nHeight = CBlockIndex.nHeight a ∧ c.txPos.InBlock a := by
  obtain ⟨a, ha, -, hc⟩ := mem_history.mp h
  obtain ⟨block, hholds, -⟩ := hstored.held a (hstored.knows_line env hknown ha)
  rw [txsAt_of_blocks hholds.stored, mem_chainTxs] at hc
  obtain ⟨hfile, hblockPos, hle, -⟩ := txPositions_bounds hc.1
  refine ⟨hholds.txs _ hc.1, fun hmemory => ?_, a, ha, hc.2, hfile, hblockPos⟩
  rw [firstTxPos] at hle
  simp only [hmemory, CDiskTxPos.memory] at hle
  omega

/-! ## What a relay is asked -/

/-- A relay that passes spends an alias output of its name that has not expired. -/
theorem connectInputsPost_relay {view : View} {pool : TxIndexMap} {tx : CTransaction}
    {vTxPrev : List CTransaction} {vTxindex : List CTxIndex} {v : vchType}
    (hop : Performs env OP_ALIAS_RELAY v tx)
    (h : ConnectInputsPost env view g pool tx vTxPrev vTxindex (some pindex) true false = .ok g') :
    ∃ (k : ℕ) (txin : CTxIn) (txPrev : CTransaction) (txindex : CTxIndex) (out : CTxOut),
      tx.vin[k]? = some txin ∧ vTxPrev[k]? = some txPrev ∧
      vTxindex[k]? = some txindex ∧ txPrev.vout[txin.prevout.n]? = some out ∧
      (aliasScript out.scriptPubKey none).ret = true ∧
      (aliasScript out.scriptPubKey none).vvch[0]? = some v ∧
      (CheckTransactionAtRelativeDepth (some pindex) txindex env.scaleMonitor).isSome = true := by
  obtain ⟨hversion, hrelay, hname⟩ := hop
  unfold ConnectInputsPost at h
  simp only [hversion, ne_eq, not_true_eq_false, if_false, seq_ok, within_eq_ok, read_eq_ok] at h
  obtain ⟨outs, houts, prev, hloop, -, -, name, hname', -, -, g₁, hswitch, -⟩ := h
  rw [hname, Option.some.injEq] at hname'
  subst hname'
  cases hop : (aliasTx tx).op with
  | none =>
    -- an opcode that was never assigned is zero, which the switch rejects
    rw [hop, Option.getD_none] at hswitch
    simp [connectInputsSwitch, OP_ALIAS_SET, OP_PUBLIC_KEY, OP_VERTEX, OP_ENCRYPTED_MESSAGE,
      OP_MAP_PROJECT, OP_MESSAGE, OP_ALIAS_ENCRYPTED, OP_ALIAS_RELAY] at hswitch
  | some op =>
    rw [hop, Option.getD_some] at hrelay hswitch
    subst hrelay
    obtain ⟨hcheck, txindex, hindex, hdepth, -⟩ :=
      (connectInputsSwitch_relay_iff (.inl rfl)).mp hswitch
    simp only [checkAliasRelay, seq_ok, require_eq_ok, read_eq_ok] at hcheck
    obtain ⟨-, ⟨hfound, -⟩, -, -, -, -, prevName, hprevName, name', hname', hsame⟩ := hcheck
    rw [hname, Option.some.injEq] at hname'
    obtain ⟨out, hmem, halias⟩ := prevAliasLoop_exists hloop rfl hfound
    obtain ⟨k, hk⟩ := List.getElem?_of_mem hmem
    obtain ⟨-, hn, hargs⟩ := prevAliasLoop_at hloop hk halias
    obtain ⟨txin, txPrev, hin, hprev, hread⟩ := (prevOutputs_getElem? houts).mp hk
    rw [hn, Nat.zero_add] at hindex
    rw [hargs, hsame, ← hname'] at hprevName
    exact ⟨k, txin, txPrev, txindex, out, hin, hprev, hindex, hread, halias, hprevName, hdepth⟩

theorem connectTx_relay {view : View} {txdb : TxIndexMap} {pos : CDiskTxPos} {t : Tally}
    {tx : CTransaction} {v : vchType} {r : TxIndexMap × Globals × Tally}
    (hasked : AskedRelay env v tx) (h : connectTx env view txdb pindex pos queued g t tx = .ok r) :
    ∃ txin ∈ tx.vin, ∃ txindex txPrev out,
      writeQueued txdb queued txin.prevout.hash = some txindex ∧
      readPrev view.files view.mempool txin.prevout.hash txindex.pos = some txPrev ∧
      txPrev.vout[txin.prevout.n]? = some out ∧
      (aliasScript out.scriptPubKey none).ret = true ∧
      (aliasScript out.scriptPubKey none).vvch[0]? = some v ∧
      (CheckTransactionAtRelativeDepth (some pindex) txindex env.scaleMonitor).isSome = true := by
  obtain ⟨hop, hcb, hcs⟩ := hasked
  simp only [connectTx, hcb, Bool.false_eq_true, if_false, seq_ok] at h
  obtain ⟨-, -, -, -, h⟩ := h
  split at h
  · cases h
  rename_i inputs hfetch
  simp only [seq_ok] at h
  obtain ⟨-, -, -, -, -, -, -, -, ⟨queued₁, g₁⟩, hconnect, -⟩ := h
  obtain ⟨hfetched, -⟩ := fetchInputs_ok hcb hfetch
  simp only [CTransaction.ConnectInputs, hcb, hcs, Bool.false_eq_true, if_false, seq_ok,
    within_eq_ok] at hconnect
  obtain ⟨s, hchecks, _, -, _, -, _, -, g₂, hpost, -⟩ := hconnect
  obtain ⟨ps, hps, hprevs, hindexes⟩ := inputChecks_lists hchecks
  rw [List.nil_append] at hprevs hindexes
  obtain ⟨k, txin, txPrev, txindex, out, hin, hprev, hindex, hout, halias, hname, hdepth⟩ :=
    connectInputsPost_relay hop hpost
  obtain ⟨q, hq, hinput⟩ := forall₂_getElem? hps hin
  rw [hprevs, List.getElem?_map, hq, Option.map_some, Option.some.injEq] at hprev
  rw [hindexes, List.getElem?_map, hq, Option.map_some, Option.some.injEq] at hindex
  obtain ⟨hentry, hread⟩ := hfetched _ q.1 q.2 hinput
  subst hprev hindex
  exact ⟨txin, List.mem_of_getElem? hin, q.1, q.2, out, hentry, hread, hout, halias, hname, hdepth⟩

theorem connectLoop_middle {view : View} {txdb : TxIndexMap}
    {before after : List (CDiskTxPos × CTransaction)} {p : CDiskTxPos × CTransaction} {t : Tally}
    {r : TxIndexMap × Globals × Tally}
    (h : connectLoop env view txdb pindex (before ++ p :: after) queued g t = .ok r) :
    ∃ queued₁ g₁ t₁ r₁, connectLoop env view txdb pindex before queued g t = .ok (queued₁, g₁, t₁) ∧
      connectTx env view txdb pindex p.1 queued₁ g₁ t₁ p.2 = .ok r₁ := by
  induction before generalizing queued g t with
  | nil =>
    obtain ⟨r₁, hone, -⟩ := seq_ok.mp h
    exact ⟨queued, g, t, r₁, rfl, hone⟩
  | cons q before ih =>
    obtain ⟨⟨queued₁, g₁, t₁⟩, hone, hrest⟩ := seq_ok.mp h
    obtain ⟨queued₂, g₂, t₂, r₂, hbefore, hlast⟩ := ih hrest
    exact ⟨queued₂, g₂, t₂, r₂, seq_ok.mpr ⟨_, hone, hbefore⟩, hlast⟩

/-- A block found within a depth below the tip is not far below it. -/
theorem depth_lt_of_inBlock (hstored : Stored env files mapBlockIndex) {a tip : CBlockIndex}
    (hknown : KnownIn mapBlockIndex tip) (ha : a ∈ tip.line) {txindex : CTxIndex} {maxDepth : ℕ}
    (hin : txindex.pos.InBlock a)
    (h : (CheckTransactionAtRelativeDepth (some tip) txindex maxDepth).isSome = true) :
    CBlockIndex.nHeight tip < CBlockIndex.nHeight a + maxDepth := by
  obtain ⟨n, hn⟩ := Option.isSome_iff_exists.mp h
  simp only [CheckTransactionAtRelativeDepth, depthOf_eq, Nat.zero_add] at hn
  obtain ⟨j, hj, hdepth⟩ := Option.bind_eq_some_iff.mp hn
  split at hdepth
  swap
  · cases hdepth
  rename_i hlt
  obtain ⟨hj', hat, -⟩ := List.findIdx?_eq_some_iff_getElem.mp hj
  have hb : tip.line[j]? = some tip.line[j] := List.getElem?_eq_getElem hj'
  obtain ⟨hblockPos, hfile⟩ := of_decide_eq_true hat
  have hsame : tip.line[j] = a := hstored.place_unique env
    (hstored.knows_line env hknown (List.getElem_mem hj')) (hstored.knows_line env hknown ha)
    (hfile.trans hin.1) (hblockPos.trans hin.2)
  have hheight := Lineage.depth_of_getElem? hb
  rw [hsame] at hheight
  rw [CBlockIndex.nHeight, CBlockIndex.nHeight]
  omega

/-- In a connected block every relay that is asked spends a recent alias output of its name. -/
theorem connectBlock_relay {view : View} {d : BlockIndexData} {p : CBlockIndex}
    (hstored : Stored env files mapBlockIndex) (hknown : KnownIn mapBlockIndex (.child d p))
    (hreads : view.Reads files)
    (hblock : files.blocks (CBlockIndex.nFile (.child d p), CBlockIndex.nBlockPos (.child d p)) =
      some block) (hnodup : (Ledger.ids (pathItems env files (.child d p))).Nodup)
    (hL : Ledger.Lists (ledgerOf T) (pathItems env files p))
    (hconnect : block.ConnectBlock env view T g (.child d p) = .ok (T', g'))
    {before after : List ChainTx} {c : ChainTx}
    (hsplit : chainTxs (CBlockIndex.nHeight (.child d p)) (block.positions (.child d p)) =
      before ++ c :: after) {v : vchType} (hasked : AskedRelay env v c.tx) :
    SpendsRecent env v (history files p ++ before) c := by
  obtain ⟨xs, ys, hpositions, rfl, hys⟩ := List.map_eq_append_iff.mp hsplit
  obtain ⟨q, zs, rfl, rfl, rfl⟩ := List.map_eq_cons_iff.mp hys
  simp only [CBlock.ConnectBlock, seq_ok] at hconnect
  obtain ⟨-, -, r, hloop, -⟩ := hconnect
  rw [hpositions] at hloop
  obtain ⟨queued, g₁, t₁, r₁, hbefore, hone⟩ := connectLoop_middle hloop
  obtain ⟨txin, hin, txindex, txPrev, out, hentry, hread, hout, halias, hname, hdepth⟩ :=
    connectTx_relay hasked hone
  -- what the index lists at this transaction are those of the chain and of the block so far
  have hlists : Ledger.Lists (ledgerOf (writeQueued T queued))
      (pathItems env files p ++ xs.map (txItem env)) := by
    obtain ⟨-, -, hL'⟩ := connectLoop_ok env hbefore
    rw [hL', writeQueued_none]
    refine Ledger.lists_applyAll hL (List.Sublist.nodup ?_ hnodup)
    rw [pathItems, storedItems_of_blocks hblock, CBlock.items, hpositions, List.map_append,
      ← List.append_assoc, Ledger.ids_append _ (List.map _ (q :: zs))]
    exact List.sublist_append_left _ _
  obtain ⟨i, hi, hid, hplace⟩ := (hlists txin.prevout.hash txindex.pos).mp
    ⟨txindex.entry, by simp [ledgerOf, hentry], rfl⟩
  obtain ⟨e, he, rfl⟩ : ∃ e ∈ history files p ++ chainTxs (CBlockIndex.nHeight (.child d p)) xs,
      txItem env (e.txPos, e.tx) = i := by
    rw [pathItems_eq, List.mem_append] at hi
    rcases hi with hi | hi
    · obtain ⟨e, he, heq⟩ := List.mem_map.mp hi
      exact ⟨e, List.mem_append_left _ he, heq⟩
    · obtain ⟨u, hu, heq⟩ := List.mem_map.mp hi
      exact ⟨⟨_, u.1, u.2⟩, List.mem_append_right _ (mem_chainTxs.mpr ⟨hu, rfl⟩), heq⟩
  have hmem : e ∈ history files (.child d p) := by
    rw [history_child hblock, hpositions, chainTxs, List.map_append, ← List.append_assoc]
    exact List.mem_append_left _ he
  obtain ⟨hfile, hmemory, a, ha, hheight, hplaced⟩ := history_stored hstored hknown hmem
  have hpos : e.txPos = txindex.pos := hplace
  rw [hpos] at hfile hmemory hplaced
  rw [readPrev, if_neg hmemory] at hread
  have htx : e.tx = txPrev := Option.some.inj (hfile.symm.trans (hreads _ _ hread))
  refine ⟨e, he, ⟨out, txin, hin, hid.symm, htx ▸ hout, halias, hname⟩, ?_⟩
  rw [hheight]
  exact depth_lt_of_inBlock hstored hknown ha hplaced hdepth

/-! ## Vetted chains -/

theorem cons_mem_append_split {α : Type} {xs ys before after : List α} {c : α}
    (h : xs ++ ys = before ++ c :: after) :
    (∃ mid, xs = before ++ c :: mid) ∨ ∃ mid, before = xs ++ mid ∧ ys = mid ++ c :: after := by
  rcases List.append_eq_append_iff.mp h with ⟨mid, hbefore, hys⟩ | ⟨mid, hxs, hafter⟩
  · exact .inr ⟨mid, hbefore, hys⟩
  · cases mid with
    | nil =>
      rw [List.append_nil] at hxs
      exact .inr ⟨[], by rw [List.append_nil, hxs], hafter.symm⟩
    | cons c' mid =>
      rw [List.cons_append, List.cons.injEq] at hafter
      exact .inl ⟨mid, hafter.1 ▸ hxs⟩

theorem vetted_nil : Vetted env [] where
  outputs := fun c hc => absurd hc List.not_mem_nil
  relays := fun before c after h => by simp at h

theorem Vetted.of_append {xs ys : List ChainTx} (h : Vetted env (xs ++ ys)) : Vetted env xs where
  outputs := fun c hc => h.outputs c (List.mem_append_left _ hc)
  relays := by
    rintro before c after rfl v hasked
    exact h.relays before c (after ++ ys) (by simp) v hasked

theorem Vetted.of_mem_line {a : CBlockIndex} (ha : a ∈ tip.line)
    (h : Vetted env (history files tip)) : Vetted env (history files a) := by
  obtain ⟨rest, hrest⟩ := history_of_mem_line ha
  exact (hrest ▸ h).of_append

/-- After a block has been connected, its transactions are found under their hashes. -/
theorem connectBlock_finds {view : View} {io : Io} (hholds : files.Holds pindex block)
    (hshows : io.Shows pindex block)
    (hconnect : block.ConnectBlock env view T g pindex = .ok (T', g')) :
    ∀ tx ∈ block.vtx, FindsItself env (io.visible files) T' tx := by
  obtain ⟨hcheck, -, -, hT'⟩ := connectBlock_ok env hconnect
  have hnodup : (Ledger.ids (block.items env pindex)).Nodup := by
    rw [ids_items]
    exact checkBlock_nodup env hcheck
  have hentry : ∀ p ∈ block.positions pindex, ∃ txindex,
      T' (p.2.GetHash env) = some txindex ∧ txindex.pos = p.1 := by
    intro p hp
    have hitem : txItem env p ∈ block.items env pindex := List.mem_map_of_mem hp
    have hplaced := Ledger.place_applyAll_of_mem (L := ledgerOf T) hitem hnodup
    rw [← hT'] at hplaced
    obtain ⟨e, he, hplace⟩ := hplaced
    obtain ⟨txindex, hindex, rfl⟩ := Option.map_eq_some_iff.mp he
    exact ⟨txindex, hindex, hplace⟩
  refine findsItself_of_position hentry fun p hp => ?_
  have hread := hholds.txs p hp
  simpa [Io.visible, BlockFile.readTx, hshows.2 p hp] using hread

theorem checkBlock_vout (h : block.CheckBlock env true true false = true) :
    ∀ tx ∈ block.vtx, tx.vout ≠ [] := by
  intro tx hmem hvout
  simp only [CBlock.CheckBlock, Bool.and_eq_true, List.all_eq_true] at h
  have hcheck := (h.1.1.1.2 tx hmem).1
  simp [CTransaction.CheckTransaction, hvout] at hcheck

/-- Connecting the next block keeps the chain vetted. -/
theorem Vetted.connectBlock {files : BlockFile} {mapBlockIndex : uint256 → Option CBlockIndex}
    {view : View} {T T' : TxIndexMap} {g g' : Globals} {d : BlockIndexData} {p : CBlockIndex}
    {block : CBlock} (h : Vetted env (history files p)) (hstored : Stored env files mapBlockIndex)
    (hknown : KnownIn mapBlockIndex (.child d p)) (hreads : view.Reads files)
    (hblock : files.blocks (CBlockIndex.nFile (.child d p), CBlockIndex.nBlockPos (.child d p)) =
      some block)
    (hnodup : (Ledger.ids (pathItems env files (.child d p))).Nodup)
    (hL : Ledger.Lists (ledgerOf T) (pathItems env files p))
    (hconnect : block.ConnectBlock env view T g (.child d p) = .ok (T', g')) :
    Vetted env (history files (.child d p)) := by
  rw [history_child hblock]
  constructor
  · intro c hc
    rcases List.mem_append.mp hc with hc | hc
    · exact h.outputs c hc
    · have hmem : c.tx ∈ (block.positions (.child d p)).map Prod.snd :=
        List.mem_map_of_mem (mem_chainTxs.mp hc).1
      rw [positions_map_snd] at hmem
      exact checkBlock_vout (connectBlock_ok env hconnect).1 c.tx hmem
  · intro before c after hsplit v hasked
    rcases cons_mem_append_split hsplit with ⟨mid, hpast⟩ | ⟨mid, rfl, hnew⟩
    · exact h.relays before c mid hpast v hasked
    · exact connectBlock_relay hstored hknown hreads hblock hnodup hL hconnect hnew hasked

theorem view_reads (node : Node) (io : Io) : (node.view io).Reads node.files := by
  intro pos tx hread
  simp only [Node.view, BlockFile.readTx, Io.visible] at hread
  split at hread
  · cases hread
  · exact hread

/-- Connecting up from the fork keeps the chain vetted. -/
theorem Vetted.connectBranch {io : Io} {node : Node} {fork : CBlockIndex}
    {vDelete vDelete' : List CTransaction} (h : Vetted env (history node.files fork))
    (hfork : fork ∈ tip.line) (hstored : Stored env node.files node.mapBlockIndex)
    (hknown : node.Knows tip) (hnodup : (Ledger.ids (pathItems env node.files tip)).Nodup)
    (hL : Ledger.Lists (ledgerOf T) (pathItems env node.files fork))
    (hconnect : connectBranch env (node.view io) (Lineage.above fork tip).reverse T g vDelete =
      .ok (T', g', vDelete')) : Vetted env (history node.files tip) := by
  induction tip generalizing T' g' vDelete' with
  | root d =>
    simp only [Lineage.line, List.mem_singleton] at hfork
    exact hfork ▸ h
  | child d p ih =>
    simp only [Lineage.line, List.mem_cons] at hfork
    rcases hfork with rfl | hfork
    · exact h
    · rw [Lineage.above_child_of_mem hfork, List.reverse_cons, connectBranch_append] at hconnect
      obtain ⟨T₁, g₁, vDelete₁, hbelow, hlast⟩ := hconnect
      obtain ⟨block, hread, hone⟩ := connectBranch_single hlast
      have hparent := hstored.knows_line env hknown (Lineage.parent_mem_line (Lineage.mem_line_self _))
      have hp := ih hfork hparent (ids_pathItems_child hnodup) hbelow
      exact hp.connectBlock hstored hknown (view_reads node io)
        (visible_blocks (readFromDisk_blocks env hread)) hnodup
        (lists_connectBranch hfork (ids_pathItems_child hnodup) hL hbelow) hone

/-- Storing a block leaves the transactions of known chains as they are. -/
theorem history_store {node : Node} (h : Stored env node.files node.mapBlockIndex)
    (hknown : node.Knows tip) :
    history (node.store env block).files tip = history node.files tip := by
  induction tip with
  | root d => rfl
  | child d p ih =>
    obtain ⟨old, hholds, -, hparent⟩ := h.held _ hknown
    have hnew : (node.store env block).files.Holds (.child d p) old := hholds.writeToDisk h.ended
    rw [history_child hnew.stored, history_child hholds.stored, ih (hparent p rfl).2]

end Dions
