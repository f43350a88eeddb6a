import Dions.Verification.Chain.Amounts
import Dions.Verification.Chain.Reach

/-! # Blocks that are accepted

The other direction of the inversion lemmas: what is enough for a transaction with one input to
connect, and for a block on the tip to become the new tip. -/

namespace Dions

open Halting

variable (env : Env)
variable {nValueOut : ℤ} {node : Node}

/-! ## Transactions with one input -/

/-- The input of the transaction is found in the index `T`, is mature, and is signed for. It has
not been spent, or it has no value. -/
structure SpendsOne (view : View) (T : TxIndexMap) (pindex : CBlockIndex) (flags : ℕ)
    (tx : CTransaction) (txin : CTxIn) (e : CTxIndex) (txPrev : CTransaction) (txout : CTxOut) :
    Prop where
  vin : tx.vin = [txin]
  notNull : txin.prevout.IsNull = false
  entry : T txin.prevout.hash = some e
  read : readPrev view.files view.mempool txin.prevout.hash e.pos = some txPrev
  output : txPrev.vout[txin.prevout.n]? = some txout
  slot : ∃ spent, e.vSpent[txin.prevout.n]? = some spent ∧ ¬(spent.isSome ∧ 0 < txout.nValue)
  mature : (txPrev.IsCoinBase || txPrev.IsCoinStake) = true →
    CheckTransactionAtRelativeDepth (some pindex) e env.nCoinbaseMaturity = none
  time : txPrev.nTime ≤ tx.nTime
  range : MoneyRange txout.nValue = true
  named : txPrev.GetHash env = txin.prevout.hash
  script : env.VerifyScript txin.scriptSig txout.scriptPubKey tx 0 flags = true
  plain : txout.scriptPubKey.IsPayToScriptHash = false

def oneInput (txin : CTxIn) (e : CTxIndex) (txPrev : CTransaction) : MapPrevTx :=
  Function.update (fun _ => none) txin.prevout.hash (some (e, txPrev))

@[simp] theorem oneInput_self (txin : CTxIn) (e : CTxIndex) (txPrev : CTransaction) :
    oneInput txin e txPrev txin.prevout.hash = some (e, txPrev) := Function.update_self _ _ _

namespace SpendsOne

variable {env} {view : View} {T txdb queued : TxIndexMap} {pindex : CBlockIndex} {flags : ℕ}
  {tx : CTransaction} {txin : CTxIn} {e : CTxIndex} {txPrev : CTransaction} {txout : CTxOut}

theorem isCoinBase (h : SpendsOne env view T pindex flags tx txin e txPrev txout) :
    tx.IsCoinBase = false := by
  simp [CTransaction.IsCoinBase, h.vin, h.notNull]

theorem fetchInputs
    (h : SpendsOne env view (writeQueued txdb queued) pindex flags tx txin e txPrev txout)
    (fBlock fMiner : Bool) (hchain : (fBlock || fMiner) = true) :
    tx.FetchInputs view.files view.mempool txdb queued fBlock fMiner =
      .ok (oneInput txin e txPrev) := by
  obtain ⟨spent, hspent, -⟩ := h.slot
  have hfound : (if true && (queued txin.prevout.hash).isSome then queued txin.prevout.hash
      else txdb txin.prevout.hash) = some e := by
    rw [← h.entry, writeQueued]
    cases hq : queued txin.prevout.hash <;> simp
  have hprev : fetchPrev view.files view.mempool txdb queued true txin.prevout.hash =
      some (e, txPrev) := by
    simp only [fetchPrev, hfound, h.read, Option.map_some]
  have hvout : txin.prevout.n < txPrev.vout.length := (List.getElem?_eq_some_iff.mp h.output).1
  have hslot : txin.prevout.n < e.vSpent.length := (List.getElem?_eq_some_iff.mp hspent).1
  have hloop : fetchLoop view.files view.mempool txdb queued true tx.vin (fun _ => none) =
      some (oneInput txin e txPrev) := by
    simp only [h.vin, fetchLoop, Option.isSome_none, Bool.false_eq_true, if_false, hprev]
    rfl
  have hrange : tx.vin.all (prevoutInRange (oneInput txin e txPrev)) = true := by
    simp [h.vin, prevoutInRange, hvout, hslot]
  simp [CTransaction.FetchInputs, h.isCoinBase, hchain, hloop, hrange]

theorem readFromDisk (h : SpendsOne env view T pindex flags tx txin e txPrev txout)
    (hread : view.files.readTx e.pos = some txPrev) :
    CTransaction.ReadFromDisk view.files T txin.prevout = some (e, txPrev) := by
  have hlt : ¬ txPrev.vout.length ≤ txin.prevout.n :=
    Nat.not_le.mpr (List.getElem?_eq_some_iff.mp h.output).1
  simp only [CTransaction.ReadFromDisk, h.entry, hread, if_neg hlt]

theorem getOutputFor (h : SpendsOne env view T pindex flags tx txin e txPrev txout) :
    CTransaction.GetOutputFor txin (oneInput txin e txPrev) = .ok txout := by
  simp [CTransaction.GetOutputFor, h.output]

theorem int64_nValue (h : SpendsOne env view T pindex flags tx txin e txPrev txout) :
    int64 txout.nValue = txout.nValue := by
  have hrange := (moneyRange_iff _).mp h.range
  apply Fits64.int64_eq
  constructor
  · omega
  · exact hrange.2

theorem getValueIn (h : SpendsOne env view T pindex flags tx txin e txPrev txout) :
    tx.GetValueIn (oneInput txin e txPrev) = .ok txout.nValue := by
  simp [CTransaction.GetValueIn, h.isCoinBase, h.vin, CTransaction.valueInFrom, h.getOutputFor,
    h.int64_nValue, bind, Except.bind]

theorem getP2SHSigOpCount (h : SpendsOne env view T pindex flags tx txin e txPrev txout) :
    tx.GetP2SHSigOpCount (oneInput txin e txPrev) = .ok 0 := by
  simp [CTransaction.GetP2SHSigOpCount, h.isCoinBase, h.vin, CTransaction.p2shSigOpsFrom,
    h.getOutputFor, h.plain, bind, Except.bind]

theorem inputChecks (h : SpendsOne env view T pindex flags tx txin e txPrev txout) :
    Dions.inputChecks env (oneInput txin e txPrev) (some pindex) tx.nTime tx.vin ⟨0, [], []⟩ =
      .ok ⟨txout.nValue, [txPrev], [e]⟩ := by
  obtain ⟨spent, hspent, -⟩ := h.slot
  have hslot : txin.prevout.n < e.vSpent.length := (List.getElem?_eq_some_iff.mp hspent).1
  simp only [h.vin, Dions.inputChecks, oneInput_self, h.output, require, if_pos hslot,
    if_pos h.mature, if_pos h.time, zero_add, h.int64_nValue, h.range, Bool.and_self, if_true,
    List.nil_append, bind, Except.bind]

theorem verifySignature (h : SpendsOne env view T pindex flags tx txin e txPrev txout) :
    VerifySignature env txPrev tx 0 flags = true := by
  simp [VerifySignature, h.vin, h.output, h.named, h.script]

theorem spendInputs (h : SpendsOne env view T pindex flags tx txin e txPrev txout)
    (pos : CDiskTxPos) (fBlock fMiner : Bool) (hchain : (fBlock || fMiner) = true) :
    Dions.spendInputs env view tx pos fBlock fMiner flags tx.vin 0 (oneInput txin e txPrev) queued =
      .ok (Function.update queued txin.prevout.hash (some (e.spend txin.prevout.n pos))) := by
  obtain ⟨spent, hspent, hfree⟩ := h.slot
  rw [h.vin, Dions.spendInputs]
  simp only [oneInput_self, access, hspent, h.output, require, if_pos hfree,
    h.verifySignature, or_true, if_true, bind, Except.bind, Dions.spendInputs, hchain]

/-- A coin stake is held to nothing beyond its inputs. -/
theorem connect_coinStake (h : SpendsOne env view T pindex flags tx txin e txPrev txout)
    (hcs : tx.IsCoinStake = true) (g : Globals) (pos : CDiskTxPos) :
    tx.ConnectInputs env view g (oneInput txin e txPrev) queued pos (some pindex) true false
      flags =
      .ok (Function.update queued txin.prevout.hash (some (e.spend txin.prevout.n pos)), g) := by
  simp only [CTransaction.ConnectInputs, h.isCoinBase, Bool.false_eq_true, if_false,
    h.inputChecks, h.spendInputs pos true false rfl, Exec.within, hcs, if_true, bind, Except.bind]

theorem connect_plain (h : SpendsOne env view T pindex flags tx txin e txPrev txout)
    (hcs : tx.IsCoinStake = false) (hversion : tx.nVersion ≠ CTransaction.DION_TX_VERSION)
    {nValueOut : ℤ} (hout : tx.GetValueOut = .ok nValueOut) (hnonneg : 0 ≤ nValueOut)
    (hfee : tx.GetMinFee 1 .GMF_BLOCK 0 ≤ txout.nValue - nValueOut)
    (hmin : 0 ≤ tx.GetMinFee 1 .GMF_BLOCK 0) (g : Globals) (pos : CDiskTxPos)
    (fBlock fMiner : Bool) (hchain : (fBlock || fMiner) = true) :
    tx.ConnectInputs env view g (oneInput txin e txPrev) queued pos (some pindex) fBlock fMiner
      flags =
      .ok (Function.update queued txin.prevout.hash (some (e.spend txin.prevout.n pos)), g) := by
  have hrange := (moneyRange_iff _).mp h.range
  have hexact : int64 (txout.nValue - nValueOut) = txout.nValue - nValueOut := by
    apply Fits64.int64_eq
    constructor
    · omega
    · omega
  have hmoney : MoneyRange (txout.nValue - nValueOut) = true := by
    rw [moneyRange_iff]
    omega
  have hle : nValueOut ≤ txout.nValue := by omega
  have hnonneg' : 0 ≤ txout.nValue - nValueOut := by omega
  simp only [CTransaction.ConnectInputs, h.isCoinBase, Bool.false_eq_true, if_false,
    h.inputChecks, h.spendInputs pos fBlock fMiner hchain, Exec.within, hcs, hout, require,
    if_pos hle, ConnectInputsPost, if_pos hversion, hexact, if_pos hnonneg', if_pos hfee, hmoney,
    if_true, bind, Except.bind]

end SpendsOne

/-! ## Rounds of the loop -/

section Rounds

variable {env} {view : View} {txdb queued : TxIndexMap} {pindex : CBlockIndex} {tx : CTransaction}

theorem connectTx_coinbase {pos : CDiskTxPos} {g : Globals} {t : Tally} (hcb : tx.IsCoinBase = true)
    (hnew : overwritesUnspent txdb (tx.GetHash env) = false)
    (hsig : t.nSigOps + tx.GetLegacySigOpCount ≤ MAX_BLOCK_SIGOPS)
    (hout : tx.GetValueOut = .ok nValueOut) :
    connectTx env view txdb pindex pos queued g t tx =
      .ok (Function.update queued (tx.GetHash env) (some (.new pos tx.vout.length)), g,
        { t with
          nSigOps := t.nSigOps + tx.GetLegacySigOpCount
          nValueOut := int64 (t.nValueOut + nValueOut) }) := by
  simp only [connectTx, require, if_pos hnew, if_pos hsig, hcb, hout, Exec.within, if_true, bind,
    Except.bind]

/-- A round for a transaction with one input, once `ConnectInputs` has let it pass. -/
theorem connectTx_spendsOne {pos : CDiskTxPos} {g : Globals} {t : Tally} {txin : CTxIn}
    {e : CTxIndex} {txPrev : CTransaction} {txout : CTxOut}
    (h : SpendsOne env view (writeQueued txdb queued) pindex (scriptFlags env pindex.nHeight) tx
      txin e txPrev txout) (hnew : overwritesUnspent txdb (tx.GetHash env) = false)
    (hsig : t.nSigOps + tx.GetLegacySigOpCount ≤ MAX_BLOCK_SIGOPS)
    (hout : tx.GetValueOut = .ok nValueOut)
    (hconnect : tx.ConnectInputs env view g (oneInput txin e txPrev) queued pos (some pindex) true
      false (scriptFlags env pindex.nHeight) =
        .ok (Function.update queued txin.prevout.hash (some (e.spend txin.prevout.n pos)), g)) :
    connectTx env view txdb pindex pos queued g t tx =
      .ok (Function.update
          (Function.update queued txin.prevout.hash (some (e.spend txin.prevout.n pos)))
          (tx.GetHash env) (some (.new pos tx.vout.length)), g,
        ({ t with nSigOps := t.nSigOps + tx.GetLegacySigOpCount } : Tally).add env pindex.nHeight tx
          txout.nValue nValueOut) := by
  simp only [connectTx, require, if_pos hnew, if_pos hsig, h.isCoinBase, Bool.false_eq_true,
    if_false, h.fetchInputs true false rfl, h.getP2SHSigOpCount, h.getValueIn, hout, hconnect,
    add_zero, Exec.within, bind, Except.bind]

end Rounds

/-! ## A new tip -/

section Tip

variable {env}

/-- A transaction without an alias that is not in the pool leaves it as it is. -/
theorem removeMined_absent {tx : CTransaction}
    (hversion : tx.nVersion ≠ CTransaction.DION_TX_VERSION)
    (habsent : node.mempool.exists_ (tx.GetHash env) = false) :
    removeMined env node tx = .ok node := by
  have hremove : ∀ fuel, removeTx env false fuel tx (node.mempool, node.toGlobals) =
      .ok (node.mempool, node.toGlobals) := by
    intro fuel
    cases fuel <;>
      simp only [removeTx, RemoveFromMemoryPoolPost, if_pos hversion, Halt.lift, habsent,
        Bool.false_eq_true, if_false, bind, Except.bind]
  simp only [removeMined, CTxMemPool.remove, hremove, Halt.lift, PoolState.put, bind, Except.bind]

theorem removeMined_all {vtx : List CTransaction}
    (hversion : ∀ tx ∈ vtx, tx.nVersion ≠ CTransaction.DION_TX_VERSION)
    (habsent : ∀ tx ∈ vtx, node.mempool.exists_ (tx.GetHash env) = false) :
    vtx.foldlM (removeMined env) node = .ok node := by
  induction vtx with
  | nil => rfl
  | cons tx vtx ih =>
      obtain ⟨hv, hversion⟩ := List.forall_mem_cons.mp hversion
      obtain ⟨ha, habsent⟩ := List.forall_mem_cons.mp habsent
      rw [List.foldlM_cons, removeMined_absent hv ha]
      exact ih hversion habsent

theorem filterLoop_plain {files : BlockFile} {T : TxIndexMap} {pindex : CBlockIndex}
    {vtx : List CTransaction} {nTxPos : ℕ} {ln1Db : AliasDb}
    (hversion : ∀ tx ∈ vtx, tx.nVersion ≠ CTransaction.DION_TX_VERSION) :
    filterLoop env files T pindex nTxPos vtx ln1Db = .ok ln1Db := by
  induction vtx generalizing nTxPos with
  | nil => rfl
  | cons tx vtx ih =>
      obtain ⟨hv, hversion⟩ := List.forall_mem_cons.mp hversion
      rw [filterLoop, filterTx, if_pos hv]
      exact ih hversion

/-- A block of transactions without aliases, none of them in the pool, is attached once it
connects. -/
theorem setBestChainInner_ok {io : Io} {node : Node} {pindexNew : CBlockIndex} {block : CBlock}
    {T : TxIndexMap} {g : Globals}
    (hconnect : block.ConnectBlock env (node.view io) node.txdb.txindex node.toGlobals pindexNew =
      .ok (T, g))
    (hcommit : io.commitFails (block.GetHash env) = false)
    (hplace : (io.visible node.files).blocks (pindexNew.nFile, pindexNew.nBlockPos) = some block)
    (hversion : ∀ tx ∈ block.vtx, tx.nVersion ≠ CTransaction.DION_TX_VERSION)
    (habsent : ∀ tx ∈ block.vtx, node.mempool.exists_ (tx.GetHash env) = false) :
    block.SetBestChainInner env io node pindexNew =
      .ok ((node.setGlobals g).attach T (block.GetHash env) pindexNew) := by
  have hmined : block.vtx.foldlM (removeMined env)
      ((node.setGlobals g).attach T (block.GetHash env) pindexNew) =
        .ok ((node.setGlobals g).attach T (block.GetHash env) pindexNew) :=
    removeMined_all hversion habsent
  have hfilter : LocatorNodeDB.filter env (io.visible node.files) T node.ln1Db pindexNew =
      .ok node.ln1Db := by
    have hvtx : filterBlock (io.visible node.files) pindexNew = block.vtx := by
      simp only [filterBlock, hplace]
    rw [LocatorNodeDB.filter]
    simp only [hvtx]
    exact filterLoop_plain hversion
  simp only [Node.attach] at hmined
  simp only [CBlock.SetBestChainInner, hconnect, Halt.lift, hcommit, Bool.false_eq_true, if_false,
    hmined, bind, Except.bind]
  simp only [Node.setGlobals, hfilter]
  rfl

/-- A block on the tip that passes the checks and adds trust becomes the tip. -/
theorem acceptBlock_tip {io : Io} {node' : Node} {pindexPrev : CBlockIndex} {block : CBlock}
    (hversion : block.nVersion ≤ CBlock.CURRENT_VERSION)
    (hnew : node.mapBlockIndex (block.GetHash env) = none)
    (hprev : node.mapBlockIndex block.hashPrevBlock = some pindexPrev)
    (hchecks : acceptBlockChecks env io node pindexPrev block = .ok ())
    (hindex : io.indexCommitFails = false)
    (htrust : node.nBestChainTrust < (node.entryFor env block).nChainTrust)
    (hgenesis : node.pindexGenesisBlock.isSome = true)
    (htip : block.hashPrevBlock = node.hashBestChain)
    (hinner : block.SetBestChainInner env io (node.store env block) (node.entryFor env block) =
      .ok node') :
    block.AcceptBlock env io node =
      .ok (newBest node' (block.GetHash env) (node.entryFor env block)) := by
  have hset : block.SetBestChain env io (node.store env block) (node.entryFor env block) =
      .ok (newBest node' (block.GetHash env) (node.entryFor env block)) := by
    have hnot : ¬ ((node.store env block).pindexGenesisBlock.isNone = true ∧
        block.GetHash env = env.hashGenesisBlock) := by
      rintro ⟨hnone, -⟩
      have hsame : (node.store env block).pindexGenesisBlock = node.pindexGenesisBlock := rfl
      rw [hsame] at hnone
      cases hg : node.pindexGenesisBlock <;> simp_all
    have htip' : block.hashPrevBlock = (node.store env block).hashBestChain := htip
    simp only [CBlock.SetBestChain, if_neg hnot, if_pos htip', hinner, bind, Except.bind]
  have hadd : block.AddToBlockIndex env io
      { node with files := (node.files.WriteToDisk block).1 } (node.files.WriteToDisk block).2.1
        (node.files.WriteToDisk block).2.2 =
      block.SetBestChain env io (node.store env block) (node.entryFor env block) := by
    simp only [CBlock.AddToBlockIndex, hnew, Option.isSome_none, Bool.false_eq_true, if_false,
      hindex]
    exact if_pos htrust
  rw [acceptBlock_known hversion hnew hprev, hchecks]
  exact hadd.trans hset

end Tip

end Dions
