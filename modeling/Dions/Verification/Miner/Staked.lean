import Dions.Verification.Chain.TallChain
import Dions.Verification.Miner.Mined

/-! # What becomes of a staked block

A template of `CreateNewBlock` gets its coin stake and its time from `SignBlock`. The coin stake has
the time of the search, which is rounded down, and the block the time of its latest transaction. -/

namespace Dions

open Halting

variable {txCoinStake : CTransaction}
variable {block : CBlock} {p pindexBest : CBlockIndex} {env : Env} {node : Node}

/-! ## The coin stake -/

section Stake

variable {env : Env} {Key : Type} {wallet : StakeWallet Key} {files : BlockFile} {node : Node}
  {pindexPrev : CBlockIndex} {nBits nHeight : ℕ} {nSearchInterval nFees : ℤ}

theorem CreateCoinStake_unlocked {tx txNew : CTransaction} {key : Key}
    (h : CreateCoinStake env wallet files node pindexPrev nBits nSearchInterval nFees tx nHeight =
      some (txNew, key)) :
    txNew.nLockTime = tx.nLockTime ∧ txNew.GetSerializeSize < MAX_BLOCK_SIZE_GEN / 5 := by
  rw [CreateCoinStake] at h
  split at h
  · simp at h
  obtain ⟨kernel, -, h⟩ := Option.bind_eq_some_iff.mp h
  split at h
  · simp at h
  obtain ⟨made, hmade, h⟩ := Option.bind_eq_some_iff.mp h
  obtain ⟨rfl, -⟩ := Prod.mk.inj (Option.some.inj h)
  simp only [finishStake, Option.bind_eq_bind, Option.bind_eq_some_iff] at hmade
  obtain ⟨nReward, -, hmade⟩ := hmade
  split at hmade
  · simp at hmade
  obtain ⟨signed, hsigned, hmade⟩ := Option.bind_eq_some_iff.mp hmade
  split at hmade
  · simp at hmade
  rename_i hsize
  obtain rfl : signed = made := Option.some.inj hmade
  exact ⟨(signStake_frame hsigned).nLockTime, Nat.not_le.mp hsize⟩

/-- Under the second version of the protocol the coin stake has the time of the search. -/
theorem Signs.stake {io : Io} {signed : CBlock} {coinbase : CTransaction} {key : Key}
    (h : Signs env wallet io node nFees block pindexBest coinbase txCoinStake key signed)
    (hV2 : IsProtocolV2 (node.nBestHeight + 1) = true) :
    CreateCoinStake env wallet (io.visible node.files) node pindexBest block.nBits 1 nFees
        (CTransaction.null (stakeSearchTime io node)) (pindexBest.nHeight + 1) =
          some (txCoinStake, key) ∧
      txCoinStake.nTime = stakeSearchTime io node ∧ txCoinStake.nLockTime = 0 := by
  obtain ⟨nSearchInterval, hinterval, hcreate⟩ := h.created
  rw [hinterval hV2] at hcreate
  exact ⟨hcreate, CreateCoinStake_masked (stakeSearchTime_lt io node) hcreate,
    (CreateCoinStake_unlocked hcreate).1⟩

end Stake

/-! ## The rules -/

/-- What `CheckBlock` and `AcceptBlock` ask of the times, the locks and the size of a block with a
coin stake. -/
structure StakedRules (io : Io) (nBestHeight : ℤ) (nHeight : ℕ) (block : CBlock)
    (txCoinStake : CTransaction) : Prop where
  stamp : CheckCoinStakeTimestamp nHeight block.nTime txCoinStake.nTime = true
  final : ∀ tx ∈ block.vtx,
    IsFinalTx nBestHeight io.nAdjustedTime tx nHeight block.GetBlockTime = true
  times : ∀ tx ∈ block.vtx, (tx.nTime : ℤ) ≤ block.GetBlockTime
  size : block.vtx.length ≤ MAX_BLOCK_SIZE ∧ block.GetSerializeSize ≤ MAX_BLOCK_SIZE

/-- The template with a coin stake and a signature. -/
def CBlock.withStake (block : CBlock) (txCoinStake : CTransaction) (vchBlockSig : valtype) :
    CBlock :=
  { block with vtx := block.vtx ++ [txCoinStake], vchBlockSig := vchBlockSig }

theorem length_le_GetSerializeSize (block : CBlock) :
    block.vtx.length ≤ block.GetSerializeSize := by
  have hsum : block.vtx.length ≤ (block.vtx.map CTransaction.GetSerializeSize).sum := by
    have hone : ∀ n ∈ block.vtx.map CTransaction.GetSerializeSize, 1 ≤ n := by
      intro n hn
      obtain ⟨tx, -, rfl⟩ := List.mem_map.mp hn
      exact CTransaction.GetSerializeSize_pos tx
    have hle := List.length_le_sum_of_one_le _ hone
    rwa [List.length_map] at hle
  rw [CBlock.GetSerializeSize]
  omega

theorem GetSerializeSize_time (tx : CTransaction) (nTime : ℕ) :
    ({ tx with nTime := nTime } : CTransaction).GetSerializeSize = tx.GetSerializeSize := rfl

/-- A block with a coin stake is as large as its template with the coin stake and the signature. -/
theorem GetSerializeSize_withStake {block' : CBlock} {coinbase : CTransaction}
    {vtx : List CTransaction} {nTime : ℕ} (hblock : block.vtx = coinbase :: vtx)
    (hvtx : block'.vtx = { coinbase with nTime := nTime } :: txCoinStake :: vtx) :
    block'.GetSerializeSize =
      (block.withStake txCoinStake block'.vchBlockSig).GetSerializeSize := by
  have hlength : (block.vtx ++ [txCoinStake]).length = block'.vtx.length := by
    rw [hblock, hvtx]
    simp
  have hsum : ((block.vtx ++ [txCoinStake]).map CTransaction.GetSerializeSize).sum =
      (block'.vtx.map CTransaction.GetSerializeSize).sum := by
    rw [hblock, hvtx]
    simp only [List.map_append, List.map_cons, List.map_nil, List.sum_append, List.sum_cons,
      List.sum_nil, GetSerializeSize_time]
    omega
  rw [CBlock.GetSerializeSize, CBlock.GetSerializeSize, CBlock.withStake]
  dsimp only
  rw [hlength, hsum]

/-! ## The block -/

/-- A template that `SignBlock` signs: what is collected, and the coin stake. -/
theorem template_signs {F : Type} [Add F] [Mul F] [Div F] [IntCast F] [LT F] [DecidableLT F] [BEq F]
    {Key : Type} {heap : TxHeap F} {args : MinerArgs} {reserved : Option uint160}
    {wallet : StakeWallet Key} {io io' : Io} {node node' : Node} {pindexBest : CBlockIndex}
    {block : CBlock} {nFees : ℤ} {g : Globals} {nLast : Option ℤ} {r : SignedBlock}
    (hbest : node.pindexBest = some pindexBest)
    (htimes : ∀ e ∈ node.mempool.mapTx, e.2.nTime < 2 ^ 32)
    (hcreate : CreateNewBlock env heap args reserved io node true = .ok (some (block, nFees), g))
    (htip : node'.pindexBest = some pindexBest)
    (hsign : block.SignBlock env wallet node' io' nLast nFees = .ok r) (hret : r.ret = true) :
    ∃ (s : Collected F) (nCoinbaseTime : ℕ) (coinbase txCoinStake : CTransaction) (key : Key),
      collect env heap args io node pindexBest true nCoinbaseTime = .ok s ∧ nFees = s.nFees ∧
      block.vtx = coinbase :: s.vtx ∧ coinbase.IsCoinBase = true ∧ coinbase.nLockTime = 0 ∧
      block.nBits = GetNextTargetRequired env pindexBest true nFees ∧
      (∀ tx ∈ block.vtx.tail, tx.nTime < 2 ^ 32) ∧
      Signs env wallet io' node' nFees block pindexBest coinbase txCoinStake key r.block := by
  obtain ⟨p, s, hp, hcollect, hfees, hvtx, -, -, -, hbits⟩ := CreateNewBlock_ok hcreate
  obtain rfl : p = pindexBest := Option.some.inj (hp.symm.trans hbest)
  have htail : block.vtx.tail = s.vtx := by rw [hvtx, List.tail_cons]
  have hearly : ∀ tx ∈ block.vtx.tail, tx.nTime < 2 ^ 32 := by
    intro tx htx
    obtain ⟨e, he, rfl⟩ := List.mem_map.mp ((collect_subperm hcollect).subset (htail ▸ htx))
    exact htimes e he
  have hnew : block.IsProofOfStake = false := by
    rw [CBlock.IsProofOfStake, hvtx]
    cases hpacked : s.vtx with
    | nil => rfl
    | cons tx vtx =>
      have hmem : tx ∈ s.vtx := hpacked ▸ List.mem_cons_self
      exact (isCandidate_ordinary ((collect_packed hcollect).candidates tx hmem)).2
  obtain ⟨best, coinbase, txCoinStake, key, hsigns⟩ := SignBlock_true hnew hsign hret
  obtain rfl : best = p := Option.some.inj (hsigns.best.symm.trans htip)
  obtain ⟨vtx, hlist⟩ := hsigns.first
  obtain ⟨rfl, -⟩ := List.cons.inj (hvtx.symm.trans hlist)
  exact ⟨s, _, _, txCoinStake, key, hcollect, hfees, hvtx, finishedCoinbase_isCoinBase _ _ _ _, rfl,
    hbits, hearly, hsigns⟩

/-- A transaction that the miner takes into a template behind what is in the overlay. -/
structure Takes (env : Env) (io : Io) (node : Node) (pindexPrev : CBlockIndex)
    (queued : TxIndexMap) (tx : CTransaction) (txin : CTxIn) (e : CTxIndex)
    (txPrev : CTransaction) (txout : CTxOut) (nValueOut : ℤ) : Prop where
  spends : SpendsOne env (node.view io) (writeQueued node.txdb.txindex queued) pindexPrev
    MANDATORY_SCRIPT_VERIFY_FLAGS tx txin e txPrev txout
  ordinary : tx.IsCoinStake = false
  version : tx.nVersion ≠ CTransaction.DION_TX_VERSION
  unlocked : tx.nLockTime = 0
  valueOut : tx.GetValueOut = .ok nValueOut
  nonneg : 0 ≤ nValueOut
  minFee : 0 ≤ tx.GetMinFee 1 .GMF_BLOCK 0
  pays : tx.GetMinFee 1 .GMF_BLOCK 0 ≤ txout.nValue - nValueOut
  sigOps : tx.GetLegacySigOpCount = 0

/-- In the first half of a block the fee is not raised. -/
theorem getMinFee_early (tx : CTransaction) {nBlockSize : ℕ}
    (h : nBlockSize < MAX_BLOCK_SIZE_GEN / 2) :
    tx.GetMinFee nBlockSize .GMF_BLOCK 0 = tx.GetMinFee 1 .GMF_BLOCK 0 := by
  have hnot : ¬(nBlockSize ≠ 1 ∧ MAX_BLOCK_SIZE_GEN / 2 ≤ nBlockSize) := fun hraised =>
    absurd hraised.2 (Nat.not_le.mpr h)
  simp only [CTransaction.GetMinFee, add_zero, if_neg hnot, ne_eq, not_true_eq_false, false_and,
    if_false]

section Takes

variable {env : Env} {F : Type} {args : MinerArgs} {io : Io} {node : Node}
  {pindexPrev : CBlockIndex} {queued : TxIndexMap} {tx txPrev : CTransaction} {txin : CTxIn}
  {e : CTxIndex} {txout : CTxOut} {nValueOut : ℤ} {s : Collected F}

theorem Takes.candidate (h : Takes env io node pindexPrev queued tx txin e txPrev txout nValueOut)
    (nHeight : ℤ) : isCandidate io node nHeight tx = true := by
  simp [isCandidate, h.spends.isCoinBase, h.ordinary, IsFinalTx, h.unlocked]

/-- The transaction goes into the template, and releases what waits for it. -/
theorem Takes.connect (h : Takes env io node pindexPrev queued tx txin e txPrev txout nValueOut)
    (hqueued : s.mapTestPool = queued) (hsize : s.nBlockSize < MAX_BLOCK_SIZE_GEN / 2)
    (hsigOps : s.nBlockSigOps = 100) :
    s.connect env io node pindexPrev tx =
      ((s.waiting.mapDependers (tx.GetHash env)).foldlM
        (fun (s : Collected F) i => s.releaseOrphan (tx.GetHash env) i)
        (s.add env tx 0 (txout.nValue - nValueOut) (Function.update queued txin.prevout.hash
          (some (e.spend txin.prevout.n CDiskTxPos.memory))) s.g)).within s.g := by
  have hpays := h.pays
  have hexact : int64 (txout.nValue - nValueOut) = txout.nValue - nValueOut := by
    have hrange := (moneyRange_iff _).mp h.spends.range
    have hnonneg := h.nonneg
    have hmin := h.minFee
    exact (show Fits64 _ from ⟨by omega, by omega⟩).int64_eq
  have hconnect : tx.ConnectInputs env (node.view io) s.g (oneInput txin e txPrev) queued
      CDiskTxPos.memory (some pindexPrev) false true MANDATORY_SCRIPT_VERIFY_FLAGS =
        .ok (Function.update queued txin.prevout.hash
          (some (e.spend txin.prevout.n CDiskTxPos.memory)), s.g) :=
    h.spends.connect_plain h.ordinary h.version h.valueOut h.nonneg hpays h.minFee s.g
      CDiskTxPos.memory false true rfl
  have hlimit : ¬ MAX_BLOCK_SIGOPS ≤ 100 := by decide
  simp only [Collected.connect, hqueued, getMinFee_early tx hsize, hsigOps,
    h.spends.fetchInputs false true rfl, h.spends.getValueIn, h.valueOut, hexact,
    if_neg (Int.not_lt.mpr hpays), h.spends.getP2SHSigOpCount, h.sigOps, add_zero, if_neg hlimit,
    hconnect, Exec.within, bind, Except.bind]

/-- The overlay behind a first transaction. -/
def overlayOf (txin : CTxIn) (e : CTxIndex) (hash : uint256) (nOutputs : ℕ) : TxIndexMap :=
  Function.update (Function.update (fun _ => none) txin.prevout.hash
    (some (e.spend txin.prevout.n CDiskTxPos.memory))) hash (some (.new CDiskTxPos.memory nOutputs))

variable {tx₁ tx₂ : CTransaction} {txin₁ txin₂ : CTxIn} {out₁ out₂ : CTxOut} {v₁ v₂ : ℤ}

/-- Of two transactions the first one is queued, and the second one, which spends it, waits. -/
theorem addCandidate_both [Add F] [Mul F] [Div F] [IntCast F]
    (h₁ : Takes env io node pindexPrev (fun _ => none) tx₁ txin₁ e txPrev out₁ v₁)
    (h₂ : Takes env io node pindexPrev (overlayOf txin₁ e txin₂.prevout.hash tx₁.vout.length) tx₂
      txin₂ (.new CDiskTxPos.memory tx₁.vout.length) tx₁ out₂ v₂)
    (hread : (io.visible node.files).readTx e.pos = some txPrev)
    (hpooled : node.mempool.lookup txin₂.prevout.hash = some tx₁)
    (hunmined : node.txdb.txindex txin₂.prevout.hash = none) (nHeight : ℤ) :
    ∃ (d₁ f₁ d₂ f₂ : F), [tx₁, tx₂].foldlM (addCandidate env io node nHeight)
        ⟨⟨[], fun _ => []⟩, []⟩ =
      .ok ⟨⟨[some ⟨tx₂, {txin₂.prevout.hash}, d₂, f₂⟩],
        Function.update (fun _ => []) txin₂.prevout.hash [0]⟩, [⟨d₁, f₁, tx₁⟩]⟩ := by
  have hspends := h₁.spends
  rw [writeQueued_none] at hspends
  have hdisk : CTransaction.ReadFromDisk (io.visible node.files) node.txdb.txindex txin₁.prevout =
      some (e, txPrev) := hspends.readFromDisk hread
  have haccess₁ : access txPrev.vout txin₁.prevout.n = .ok out₁ := by
    rw [access, h₁.spends.output]
  have haccess₂ : access tx₁.vout txin₂.prevout.n = .ok out₂ := by
    rw [access, h₂.spends.output]
  have hmissing : CTransaction.ReadFromDisk (io.visible node.files) node.txdb.txindex
      txin₂.prevout = none := by
    rw [CTransaction.ReadFromDisk, hunmined]
  simp only [List.foldlM_cons, List.foldlM_nil, addCandidate, h₁.candidate nHeight,
    h₂.candidate nHeight, Bool.true_eq_false, if_false, h₁.spends.vin, h₂.spends.vin, scanInputs,
    hdisk, haccess₁, haccess₂, hmissing, hpooled, InputScan.waitFor, Dependers.push_back,
    Dependers.deref, Dependers.assign, h₁.valueOut, h₂.valueOut, Bool.false_eq_true, bind,
    Except.bind, pure, Except.pure, List.nil_append, List.length_nil, List.getElem?_cons_zero,
    List.set_cons_zero, insert_empty_eq]
  exact ⟨_, _, _, _, rfl⟩

variable [IntCast F] [LT F] [DecidableLT F]

/-- It comes to the front of the queue while free transactions are still taken. -/
theorem Takes.collectTx {p : TxPriority F} {fProofOfStake : Bool} {nCoinbaseTime : ℕ}
    (h : Takes env io node pindexPrev queued p.tx txin e txPrev txout nValueOut)
    (hqueued : s.mapTestPool = queued) (hsize : s.nBlockSize < MAX_BLOCK_SIZE_GEN / 2)
    (hsigOps : s.nBlockSigOps = 100)
    (hfree : s.nBlockSize + p.tx.GetSerializeSize < args.nBlockMinSize)
    (htime : (p.tx.nTime : ℤ) ≤ io.nAdjustedTime) (hstake : p.tx.nTime ≤ nCoinbaseTime) :
    s.collectTx env args io node pindexPrev fProofOfStake nCoinbaseTime p =
      ((s.waiting.mapDependers (p.tx.GetHash env)).foldlM
        (fun (s : Collected F) i => s.releaseOrphan (p.tx.GetHash env) i)
        ({ s with fSortedByFee := s.fSortedByFee || s.turnsToFee args p }.add env p.tx 0
          (txout.nValue - nValueOut) (Function.update queued txin.prevout.hash
            (some (e.spend txin.prevout.n CDiskTxPos.memory))) s.g)).within s.g := by
  have hmax : s.nBlockSize + p.tx.GetSerializeSize < args.nBlockMaxSize :=
    hfree.trans_le (min_le_left _ _)
  have hsig : 100 + 0 < MAX_BLOCK_SIGOPS := by decide
  have hwithin : (s.withinLimits args io fProofOfStake nCoinbaseTime p.tx &&
      !s.skipsFree args p) = true := by
    simp [Collected.withinLimits, Collected.skipsFree, hsigOps, hmax, hsig, h.sigOps, htime, hstake,
      Nat.not_le.mpr hfree]
  rw [Collected.collectTx, if_pos hwithin]
  exact h.connect hqueued hsize hsigOps

theorem collect_both [Add F] [Mul F] [Div F] [BEq F] {heap : TxHeap F} {fProofOfStake : Bool}
    {nCoinbaseTime : ℕ}
    (h₁ : Takes env io node pindexPrev (fun _ => none) tx₁ txin₁ e txPrev out₁ v₁)
    (h₂ : Takes env io node pindexPrev (overlayOf txin₁ e txin₂.prevout.hash tx₁.vout.length) tx₂
      txin₂ (.new CDiskTxPos.memory tx₁.vout.length) tx₁ out₂ v₂)
    (hread : (io.visible node.files).readTx e.pos = some txPrev)
    (hpooled : node.mempool.lookup txin₂.prevout.hash = some tx₁)
    (hunmined : node.txdb.txindex txin₂.prevout.hash = none)
    (hother : tx₂.GetHash env ≠ txin₂.prevout.hash)
    (horder : node.mempool.inOrder = [tx₁, tx₂]) (hlength : node.mempool.mapTx.length = 2)
    (hfree : 1000 + tx₁.GetSerializeSize + tx₂.GetSerializeSize < args.nBlockMinSize)
    (hsize : 1000 + tx₁.GetSerializeSize < MAX_BLOCK_SIZE_GEN / 2)
    (htimes : ∀ tx ∈ [tx₁, tx₂], (tx.nTime : ℤ) ≤ io.nAdjustedTime ∧ tx.nTime ≤ nCoinbaseTime) :
    ∃ s, collect env heap args io node pindexPrev fProofOfStake nCoinbaseTime = .ok s ∧
      s.vtx = [tx₁, tx₂] ∧
      s.nFees = int64 (int64 (0 + (out₁.nValue - v₁)) + (out₂.nValue - v₂)) := by
  obtain ⟨d₁, f₁, d₂, f₂, hadd⟩ :=
    addCandidate_both (F := F) h₁ h₂ hread hpooled hunmined (pindexPrev.nHeight + 1)
  obtain ⟨⟨hclock₁, hstake₁⟩, hclock₂, hstake₂⟩ :=
    (List.forall_mem_cons.mp htimes).imp_right List.forall_mem_singleton.mp
  have hfront : ∀ front (p : TxPriority F), takeFront front [p] = some (p, []) := by
    intro front p
    simp [takeFront, Nat.mod_one]
  obtain ⟨fSorted, hround₁⟩ : ∃ fSorted, (⟨⟨⟨[some ⟨tx₂, {txin₂.prevout.hash}, d₂, f₂⟩],
      Function.update (fun _ => []) txin₂.prevout.hash [0]⟩, []⟩, fun _ => none, 1000, 0, 100,
        decide (args.nBlockPrioritySize ≤ 0), 0, [], node.toGlobals⟩ : Collected F).collectTx env
          args io node pindexPrev fProofOfStake nCoinbaseTime ⟨d₁, f₁, tx₁⟩ =
      .ok ⟨⟨⟨[some ⟨tx₂, ∅, d₂, f₂⟩], Function.update (fun _ => []) txin₂.prevout.hash [0]⟩,
        [⟨d₂, f₂, tx₂⟩]⟩, overlayOf txin₁ e txin₂.prevout.hash tx₁.vout.length,
          1000 + tx₁.GetSerializeSize, 1, 100, fSorted, int64 (0 + (out₁.nValue - v₁)), [tx₁],
            node.toGlobals⟩ := by
    apply Exists.intro
    rw [Takes.collectTx h₁ rfl (show 1000 < MAX_BLOCK_SIZE_GEN / 2 by decide) rfl
      (show 1000 + tx₁.GetSerializeSize < args.nBlockMinSize by omega) hclock₁ hstake₁]
    simp only [h₂.spends.named, Function.update_self, List.foldlM_cons, List.foldlM_nil,
      Collected.releaseOrphan, Collected.add, Dependers.deref, Dependers.assign,
      List.getElem?_cons_zero, List.set_cons_zero, Finset.singleton_ne_empty, if_false,
      Finset.erase_singleton, if_true, Exec.within, bind, Except.bind, pure, Except.pure,
      List.nil_append]
    rfl
  obtain ⟨s₂, hround₂, hvtx, hfees⟩ : ∃ s₂, (⟨⟨⟨[some ⟨tx₂, ∅, d₂, f₂⟩],
      Function.update (fun _ => []) txin₂.prevout.hash [0]⟩, []⟩,
        overlayOf txin₁ e txin₂.prevout.hash tx₁.vout.length, 1000 + tx₁.GetSerializeSize, 1, 100,
          fSorted, int64 (0 + (out₁.nValue - v₁)), [tx₁], node.toGlobals⟩ : Collected F).collectTx
            env args io node pindexPrev fProofOfStake nCoinbaseTime ⟨d₂, f₂, tx₂⟩ = .ok s₂ ∧
      s₂.vtx = [tx₁, tx₂] ∧
      s₂.nFees = int64 (int64 (0 + (out₁.nValue - v₁)) + (out₂.nValue - v₂)) := by
    apply Exists.intro
    constructor
    · rw [Takes.collectTx h₂ rfl hsize rfl hfree hclock₂ hstake₂]
      simp only [Function.update_of_ne hother, List.foldlM_nil, Exec.within, pure, Except.pure]
      rfl
    · exact ⟨rfl, rfl⟩
  refine ⟨s₂, ?_, hvtx, hfees⟩
  simp only [collect, horder, hadd, hlength, Exec.within, collectLoop, hfront, hround₁, hround₂,
    bind, Except.bind]

end Takes

/-- A coin stake that is found in time makes a block. -/
theorem SignBlock_ok {Key : Type} {wallet : StakeWallet Key} {io : Io} {coinbase : CTransaction}
    {vtx : List CTransaction} {key : Key} {nFees nLast : ℤ}
    (hbest : node.pindexBest = some pindexBest) (hvtx : block.vtx = coinbase :: vtx)
    (hempty : coinbase.vout = [⟨0, []⟩]) (hnew : block.IsProofOfStake = false)
    (htimes : ∀ tx ∈ block.vtx.tail, tx.nTime < 2 ^ 32) (hlast : nLast < stakeSearchTime io node)
    (hV2 : IsProtocolV2 (node.nBestHeight + 1) = true)
    (hcreate : CreateCoinStake env wallet (io.visible node.files) node pindexBest block.nBits 1
      nFees (CTransaction.null (stakeSearchTime io node)) (pindexBest.nHeight + 1) =
        some (txCoinStake, key)) (hlate : max (pindexBest.GetPastTimeLimit + 1)
      (PastDrift pindexBest.GetBlockTime (pindexBest.nHeight + 1)) ≤ txCoinStake.nTime)
    (hsign : ∀ hash, (wallet.Sign key hash).isSome = true) :
    ∃ r, block.SignBlock env wallet node io (some nLast) nFees = .ok r ∧ r.ret = true := by
  obtain ⟨made, hmade, -⟩ : ∃ made, insertStake env txCoinStake
      (stampBlock pindexBest txCoinStake.nTime coinbase block) = .ok made ∧ _ :=
    insertStake_ok htimes (CreateCoinStake_nTime_lt hcreate) hlate
  obtain ⟨vchBlockSig, hsig⟩ := Option.isSome_iff_exists.mp (hsign (made.GetHash env))
  have hfirst : access block.vtx 0 = .ok coinbase := by
    rw [hvtx]
    rfl
  have hout : access coinbase.vout 0 = .ok ⟨0, []⟩ := by
    rw [hempty]
    rfl
  have hmarker : (⟨0, []⟩ : CTxOut).IsEmpty = true := rfl
  have hlater : ¬ (stakeSearchTime io node : ℤ) ≤ nLast := Int.not_le.mpr hlast
  simp only [CBlock.SignBlock, hfirst, hout, hmarker, hnew, Bool.true_eq_false, Bool.false_eq_true,
    if_false, Option.getD_some, if_neg hlater, hbest, if_pos hV2, hcreate, if_pos hlate, hmade,
    signWith, hsig, bind, Except.bind]
  exact ⟨_, rfl, rfl⟩

/-- What is collected for a proof of stake becomes the template, behind an empty coinbase. -/
theorem CreateNewBlock_stake {F : Type} [Add F] [Mul F] [Div F] [IntCast F] [LT F] [DecidableLT F]
    [BEq F] {heap : TxHeap F} {args : MinerArgs} {io : Io} {node : Node} {pindexPrev : CBlockIndex}
    {s : Collected F} (hbest : node.pindexBest = some pindexPrev)
    (hcollect : collect env heap args io node pindexPrev true (toUInt32 io.nAdjustedTime) = .ok s) :
    ∃ block, CreateNewBlock env heap args none io node true = .ok (some (block, s.nFees), s.g) ∧
      block.vtx = newCoinbase (toUInt32 io.nAdjustedTime) (pindexPrev.nHeight + 1) true 0 :: s.vtx ∧
      block.nBits = GetNextTargetRequired env pindexPrev true s.nFees := by
  have htime : (newCoinbase (toUInt32 io.nAdjustedTime) (pindexPrev.nHeight + 1) true
      0).nTime = toUInt32 io.nAdjustedTime := rfl
  simp only [CreateNewBlock, hbest, Option.getD_none, htime, hcollect, if_true,
    bind, Except.bind]
  exact ⟨_, rfl, rfl, rfl⟩

namespace Scenario

/-! ## A transaction between the search and the clock -/

/-- The reward of the second block as a coin of its owner. -/
def rewardOutput : COutput := ⟨⟨1, WxTx.ofTx stakeCoin, none, 0, by decide⟩, 10⟩

def stakerArgs : MinerArgs := { plainArgs with blockminsize := some 27000 }

def ownStaker : StakeWallet Unit := { staker with vCoins := [rewardOutput] }

def ownKernel (nTime : ℕ) (fSplit : Bool) : StakeKernel Unit :=
  ⟨rewardOutput.toCoin, (), nTime, pushVch coSigner ++ [OP_CHECKSIG.toUInt8], fSplit⟩

def clock (n : ℤ) : Io := { io with nAdjustedTime := n }

namespace Tip

variable {node : Node} {p : CBlockIndex} {nTime : ℕ}

theorem checkKernel (h : Tip node p) {nBits : ℕ} (hbits : 0 ≤ SetCompact nBits)
    (hlate : 1999 ≤ nTime) (hrange : nTime < 2 ^ 32) :
    CheckKernel (timed testNet) node.files node p nBits nTime ⟨1999, 0⟩ = true := by
  obtain ⟨block, hblock⟩ := Option.isSome_iff_exists.mp h.rewardBuried.block
  have hread : CTransaction.ReadFromDisk node.files node.txdb.txindex ⟨1999, 0⟩ =
      some (⟨stakePos, [none]⟩, stakeCoin) := by
    have hslot : ¬ stakeCoin.vout.length ≤ 0 := by decide
    simp only [CTransaction.ReadFromDisk, h.reward, h.rewardBuried.read, if_neg hslot]
  have hout : stakeCoin.vout[0]? = some ⟨625 * COIN, SetBitcoinAddress ownerHash⟩ := rfl
  have htime : ((nTime : ℤ) % 2 ^ 32).toNat = nTime := by omega
  have hafter : ¬ nTime < stakeCoin.nTime := Nat.not_lt.mpr hlate
  have hmin : minBase ⟨stakePos, [none]⟩ p ((timed testNet).nStakeMinConfirmations - 1) = true :=
    Option.isNone_iff_eq_none.mpr h.rewardBuried.deep
  have hhash : (timed testNet).kernelHash p.label.nStakeModifier block.nTime stakeCoin.nTime
      ⟨1999, 0⟩ nTime = 0 := rfl
  have hle : ((0 : ℕ) : ℤ) ≤ SetCompact nBits * (625 * COIN) := mul_nonneg hbits (by decide)
  simp only [CheckKernel, hread, hblock, hout, h.V3, if_true, hmin, htime, CheckStakeKernelHash,
    Bool.true_or, CheckStakeKernelHashV2, if_neg hafter, hhash, decide_eq_true hle, Bool.and_self]

theorem kernelOf (h : Tip node p) {nBits : ℕ} (hbits : 0 ≤ SetCompact nBits)
    (hlate : 1999 ≤ nTime) (hrange : nTime < 2 ^ 32) :
    ∃ fSplit, Dions.kernelOf (timed testNet) ownStaker node.files node p nBits 1 nTime
      rewardOutput.toCoin = some (ownKernel nTime fSplit) := by
  obtain ⟨block, hblock⟩ := Option.isSome_iff_exists.mp h.rewardBuried.block
  have hentry : node.txdb.txindex (rewardOutput.toCoin.tx.GetHash (timed testNet)) =
      some ⟨stakePos, [none]⟩ := h.reward
  have hsame : toUInt32 ((nTime : ℤ) - (0 : ℕ)) = nTime := by
    rw [toUInt32]
    omega
  have hfind : findTime (timed testNet) node.files node p nBits 1 nTime
      (rewardOutput.toCoin.prevout (timed testNet)) = some 0 := by
    have hpasses : CheckKernel (timed testNet) node.files node p nBits
        (toUInt32 ((nTime : ℤ) - (0 : ℕ))) (rewardOutput.toCoin.prevout (timed testNet)) =
          true := by
      rw [hsame]
      exact h.checkKernel hbits hlate hrange
    have hone : List.range (min 1 nMaxStakeSearchInterval).toNat = [0] := rfl
    rw [findTime, hone]
    simp only [List.find?_cons, hpasses]
  have hkey : kernelKey ownStaker rewardOutput.toCoin.scriptPubKey =
      some ((), pushVch coSigner ++ [OP_CHECKSIG.toUInt8]) := by decide +kernel
  simp only [Dions.kernelOf, hentry, hblock, hfind, hkey, hsame, bind, Option.bind]
  exact ⟨_, rfl⟩

theorem createCoinStake (h : Tip node p) {nBits : ℕ} (hbits : 0 ≤ SetCompact nBits)
    (hlate : 1999 ≤ nTime) (hrange : nTime < 2 ^ 32) :
    ∃ txCoinStake nValueOut, CreateCoinStake (timed testNet) ownStaker node.files node p nBits 1
        (3 * COIN) (CTransaction.null nTime) (p.nHeight + 1) = some (txCoinStake, ()) ∧
      txCoinStake.GetValueOut = .ok nValueOut := by
  obtain ⟨fSplit, hkernel⟩ := h.kernelOf hbits hlate hrange
  have hcoins : (SelectCoinsForStaking ownStaker.draws ownStaker.vCoins
      ownStaker.budget).setCoinsRet = [rewardOutput.toCoin] := by decide
  have hbalance : ¬ ownStaker.nBalance ≤ ownStaker.nReserveBalance := by decide
  have hvalue : ¬(rewardOutput.toCoin.nValue = 0 ∨
      ownStaker.budget < rewardOutput.toCoin.nValue) := by decide
  have hinputs : stakeInputs (timed testNet) ownStaker node [rewardOutput.toCoin]
      (ownKernel nTime fSplit) = ⟨[rewardOutput.toCoin], 625 * COIN⟩ := by
    cases fSplit with
    | true => rfl
    | false =>
      have hsame : joinsKernel (timed testNet) (ownKernel nTime false) rewardOutput.toCoin =
          false := by simp [joinsKernel, ownKernel]
      simp only [stakeInputs, ownKernel, Bool.false_eq_true, if_false] at hsame ⊢
      simp only [combineInputs, hsame, if_true]
      rfl
  have hreward : ∀ tx, Dions.stakeReward (timed testNet) node.files node (3 * COIN)
      (p.nHeight + 1) tx = some (150000000 + 3 * COIN) := by
    intro tx
    have hhigh := h.high
    have hV3 : (timed testNet).V3 (p.nHeight + 1 + 1 : ℕ) = true := by
      have hnet : (timed testNet).fTestNet = true := rfl
      simp only [ChainParams.V3, hnet, if_true, decide_eq_true_eq]
      omega
    simp only [Dions.stakeReward, h.V3, if_true, GetProofOfStakeReward, hV3]
    rfl
  have hpositive : ¬ (150000000 + 3 * COIN : ℤ) ≤ 0 := by decide
  obtain ⟨txCoinStake, nValueOut, hmade, hout⟩ : ∃ txCoinStake nValueOut, finishStake (timed testNet)
      ownStaker node.files node (3 * COIN) (p.nHeight + 1) (CTransaction.null nTime)
        (ownKernel nTime fSplit) ⟨[rewardOutput.toCoin], 625 * COIN⟩ = some txCoinStake ∧
      txCoinStake.GetValueOut = .ok nValueOut := by
    simp only [finishStake, hreward, Option.bind_eq_bind, Option.bind_some, if_neg hpositive]
    cases fSplit with
    | true => exact ⟨_, _, rfl, rfl⟩
    | false => exact ⟨_, _, rfl, rfl⟩
  have hcoin : (ownKernel nTime fSplit).coin = rewardOutput.toCoin := rfl
  have htime : (CTransaction.null nTime).nTime = nTime := rfl
  refine ⟨txCoinStake, nValueOut, ?_, hout⟩
  simp only [CreateCoinStake, if_neg hbalance, hcoins, List.findSome?_cons, htime, hkernel,
    Option.bind_eq_bind, Option.bind_some, hcoin, if_neg hvalue, hinputs, hmade]

theorem collect (h : Tip node p) (hearly : p.label.nTime ≤ 10 ^ 8) {n : ℕ}
    (hlow : 10 ^ 8 + 4 ≤ n) (hhigh : n < 2 ^ 32) :
    ∃ s : Collected ℚ, Dions.collect (timed testNet) firstCome stakerArgs (clock n) node p true
      (toUInt32 n) = .ok s ∧ s.vtx = [pending, dependent] ∧ s.nFees = 3 * COIN := by
  have hnow : toUInt32 n = n := by
    rw [toUInt32]
    omega
  obtain ⟨spent, hcoin⟩ := h.coin
  have hpooled : node.mempool.lookup pendingIn.prevout.hash = some pending := by
    rw [CTxMemPool.lookup, h.pool]
    rfl
  have hpending : Takes (timed testNet) (clock n) node p (fun _ => none) pending (coinIn 0)
      ⟨coinPos, [none, spent]⟩ firstCoin (payTo (625 * COIN)) (624 * COIN) := by
    constructor
    case spends =>
      rw [writeQueued_none]
      exact spendsCoin h.buried.read hcoin (fun _ => rfl) h.buried.deep rfl rfl (by decide)
    case version => exact show (1 : ℤ) ≠ 5 by decide
    all_goals decide
  have hdependent : Takes (timed testNet) (clock n) node p (overlayOf (coinIn 0)
      ⟨coinPos, [none, spent]⟩ pendingIn.prevout.hash 1) dependent pendingIn
        (.new CDiskTxPos.memory 1) pending (payTo (624 * COIN)) (622 * COIN) := by
    constructor
    case spends =>
      constructor
      case vin => rfl
      case read => 
        rw [readPrev, CTxIndex.new, if_pos rfl]
        exact hpooled
      case entry => simp [overlayOf, writeQueued]
      case slot => exact ⟨none, rfl, by simp⟩
      case mature => exact fun hcoinbase => absurd hcoinbase (by decide)
      all_goals decide
    case version => exact show (1 : ℤ) ≠ 5 by decide
    all_goals decide
  refine collect_both hpending hdependent h.buried.read hpooled (h.unmined hearly _ (.tail _ (.head _)))
    (by decide) ?_ ?_ (by decide) (by decide) ?_
  · rw [CTxMemPool.inOrder, h.pool]
    rfl
  · rw [h.pool]
    rfl
  · have htimes : ∀ tx ∈ [pending, dependent], tx.nTime ≤ 10 ^ 8 + 4 := by decide
    intro tx htx
    have hle := (htimes tx htx).trans hlow
    exact ⟨Int.ofNat_le.mpr hle, hle.trans hnow.ge⟩

end Tip

theorem nextV2 (hbest : node.pindexBest = some p) (hV2 : IsProtocolV2 p.nHeight = true) :
    IsProtocolV2 (node.nBestHeight + 1) = true := by
  simp only [IsProtocolV2, Node.nBestHeight, hbest, decide_eq_true_eq] at hV2 ⊢
  omega

/-- The search starts at the last multiple of sixteen seconds. -/
theorem search_clock {n : ℕ} (hbest : node.pindexBest = some p)
    (hV2 : IsProtocolV2 p.nHeight = true) (hn : n < 2 ^ 32) :
    stakeSearchTime (clock n) node = n - n % 16 := by
  have hnow : toUInt32 n = n := by
    rw [toUInt32]
    omega
  rw [stakeSearchTime, if_pos (nextV2 hbest hV2)]
  exact congrArg (fun m => m - m % 16) hnow

/-- A run of the staker: the template with the pending transactions, and what is signed. -/
structure StakerRun (n : ℕ) (node : Node) (p : CBlockIndex) (block : CBlock) (r : SignedBlock) :
    Prop where
  reaches : Reaches (timed testNet) AnyCall node
  best : node.pindexBest = some p
  high : IsProtocolV2 p.nHeight = true
  pool : node.mempool.mapTx = poolTxs
  created : ∃ g, CreateNewBlock (timed testNet) firstCome stakerArgs none (clock n) node true =
    .ok (some (block, 3 * COIN), g)
  template : block.vtx = [newCoinbase (toUInt32 n) (p.nHeight + 1) true 0, pending, dependent]
  signed : block.SignBlock (timed testNet) ownStaker node (clock n) (some (10 ^ 8 - 16))
    (3 * COIN) = .ok r
  ret : r.ret = true
  paid : ∃ coinbase txCoinStake nValueOut, r.block.vtx = coinbase :: txCoinStake ::
    [pending, dependent] ∧ coinbase.IsCoinBase = true ∧ txCoinStake.IsCoinStake = true ∧
      txCoinStake.GetValueOut = .ok nValueOut

namespace StakerRun

variable {n : ℕ} {node : Node} {p : CBlockIndex} {block : CBlock} {r : SignedBlock}

theorem tail (h : StakerRun n node p block r) : block.vtx.tail = [pending, dependent] := by
  rw [h.template, List.tail_cons]

theorem unsigned (h : StakerRun n node p block r) : block.IsProofOfStake = false := by
  rw [CBlock.IsProofOfStake, h.template]
  rfl

theorem early (h : StakerRun n node p block r) : ∀ e ∈ node.mempool.mapTx, e.2.nTime < 2 ^ 32 := by
  rw [h.pool]
  decide

/-- The run is one of `SignBlock` that turns the template into a block. -/
theorem signs (h : StakerRun n node p block r) :
    ∃ coinbase txCoinStake key, Signs (timed testNet) ownStaker (clock n) node (3 * COIN) block p
      coinbase txCoinStake key r.block := by
  obtain ⟨best, coinbase, txCoinStake, key, hsigns⟩ := SignBlock_true h.unsigned h.signed h.ret
  obtain rfl : best = p := Option.some.inj (hsigns.best.symm.trans h.best)
  exact ⟨coinbase, txCoinStake, key, hsigns⟩

/-- The coin stake has the time of the search, and the block is no earlier than the pending
transactions. -/
theorem times (h : StakerRun n node p block r) (hn : n < 2 ^ 32) :
    ∃ txCoinStake, r.block.vtx[1]? = some txCoinStake ∧ txCoinStake.nTime = n - n % 16 ∧
      10 ^ 8 + 4 ≤ r.block.nTime := by
  obtain ⟨coinbase, txCoinStake, key, hsigns⟩ := h.signs
  have hearly : ∀ tx ∈ block.vtx.tail, tx.nTime < 2 ^ 32 := by
    rw [h.tail]
    decide
  obtain ⟨hvtx, -, htime⟩ := hsigns.made hearly
  obtain ⟨-, hstake, -⟩ := hsigns.stake (nextV2 h.best h.high)
  have hwithin := ((htime r.block.nTime).mp (le_refl _)).2
  refine ⟨txCoinStake, by rw [hvtx]; rfl, hstake.trans (search_clock h.best h.high hn), ?_⟩
  exact hwithin dependent (by rw [h.tail]; exact .tail _ (.head _))

theorem signature (h : StakerRun n node p block r) : r.block.vchBlockSig = ownerSignature := by
  obtain ⟨coinbase, txCoinStake, key, hsigns⟩ := h.signs
  obtain ⟨made, -, hsign, -⟩ := hsigns.signed
  exact (Option.some.inj hsign).symm

end StakerRun

/-- There is such a run at any time after the pending transactions. -/
theorem Tip.exists_stakerRun (htip : Tip node p) (hV2 : IsProtocolV2 p.nHeight = true)
    (hearly : p.label.nTime < 10 ^ 8)
    (htarget : 0 ≤ SetCompact (GetNextTargetRequired (timed testNet) p true (3 * COIN))) {n : ℕ}
    (hlow : 10 ^ 8 + 4 ≤ n) (hhigh : n < 2 ^ 32) : ∃ block r, StakerRun n node p block r := by
  have hnext := nextV2 htip.best hV2
  have hsearch := search_clock htip.best hV2 hhigh
  obtain ⟨s, hcollect, hvtx, hfees⟩ := htip.collect hearly.le hlow hhigh
  obtain ⟨block, hcreate, hblock, hbits⟩ := CreateNewBlock_stake htip.best hcollect
  rw [hfees] at hcreate hbits
  rw [hvtx] at hblock
  obtain ⟨txCoinStake, nValueOut, hstake, hout⟩ := htip.createCoinStake (hbits ▸ htarget)
    (show 1999 ≤ n - n % 16 by omega) (by omega)
  have hmade : txCoinStake.nTime = n - n % 16 :=
    CreateCoinStake_masked (show n - n % 16 < 2 ^ 32 by omega) hstake
  have hlate : max (p.GetPastTimeLimit + 1) (PastDrift p.GetBlockTime (p.nHeight + 1)) ≤
      txCoinStake.nTime := by
    have hpast := pastTimeLimit_le htip.rising
    have hprotocol : IsProtocolV2 (p.nHeight + 1) = true := by
      simp only [IsProtocolV2, decide_eq_true_eq] at hV2 ⊢
      omega
    rw [PastDrift, if_pos hprotocol, CBlockIndex.GetBlockTime, hmade, max_le_iff]
    omega
  have htimes : ∀ tx ∈ block.vtx.tail, tx.nTime < 2 ^ 32 := by
    rw [hblock, List.tail_cons]
    decide
  have hnew : block.IsProofOfStake = false := by
    rw [CBlock.IsProofOfStake, hblock]
    rfl
  have hlast : ((10 : ℤ) ^ 8 - 16) < stakeSearchTime (clock n) node := by
    rw [hsearch]
    omega
  rw [← hsearch] at hstake
  obtain ⟨r, hsigned, hret⟩ : ∃ r, block.SignBlock (timed testNet) ownStaker node (clock n)
      (some (10 ^ 8 - 16)) (3 * COIN) = .ok r ∧ r.ret = true :=
    SignBlock_ok htip.best hblock rfl hnew htimes hlast hnext hstake hlate fun _ => rfl
  obtain ⟨best, coinbase, made, key, hsigns⟩ := SignBlock_true hnew hsigned hret
  obtain rfl : best = p := Option.some.inj (hsigns.best.symm.trans htip.best)
  obtain ⟨hcreated, -, -⟩ := hsigns.stake hnext
  obtain ⟨rfl, -⟩ := Prod.mk.inj (Option.some.inj (hcreated.symm.trans hstake))
  refine ⟨block, r, ?_⟩
  constructor
  case reaches => exact htip.grown.reaches
  case best => exact htip.best
  case high => exact hV2
  case pool => exact htip.pool
  case created => exact ⟨_, hcreate⟩
  case template =>
    rw [hblock]
    rfl
  case signed => exact hsigned
  case ret => exact hret
  case paid =>
    obtain ⟨kernel, prevouts, -, hcs, -⟩ := CreateCoinStake_first (by decide) (by decide) hstake
    obtain ⟨vtx, hfirst⟩ := hsigns.first
    obtain ⟨rfl, -⟩ := List.cons.inj (hblock.symm.trans hfirst)
    obtain ⟨hvtx, -⟩ := hsigns.made htimes
    rw [hblock, List.tail_cons] at hvtx
    exact ⟨_, _, nValueOut, hvtx, rfl, hcs, hout⟩

theorem exists_stakerRun {n : ℕ} (hlow : 10 ^ 8 + 4 ≤ n) (hhigh : n < 2 ^ 32) :
    ∃ node p block r, StakerRun n node p block r := by
  obtain ⟨node, p, htip, hpaced, hheight, htime⟩ := exists_tall 65000 (by decide)
  have hV2 : IsProtocolV2 p.nHeight = true := decide_eq_true (by omega)
  obtain ⟨block, r, hrun⟩ :=
    htip.exists_stakerRun hV2 (by omega) (hpaced.workable _).2.1.le hlow hhigh
  exact ⟨node, p, block, r, hrun⟩

theorem stakeTemplateCoinbase_size (nTime nHeight : ℕ) :
    (newCoinbase nTime nHeight true 0).GetSerializeSize ≤ 1000 := by
  have hpush := length_pushHeight_le nHeight
  have hsizeIn : sizeOfBytes (pushHeight nHeight ++ COINBASE_FLAGS) ≤ 19 := by
    unfold sizeOfBytes GetSizeOfCompactSize
    simp only [COINBASE_FLAGS, List.append_nil]
    split <;> omega
  have hone : GetSizeOfCompactSize 1 = 1 := rfl
  have hempty : sizeOfBytes [] = 1 := rfl
  have hinfo : ¬CTransaction.VERSION_WITH_INFO ≤ (newCoinbase nTime nHeight true 0).nVersion :=
    show ¬(3 : ℤ) ≤ 1 by decide
  rw [CTransaction.GetSerializeSize, if_neg hinfo]
  simp only [newCoinbase, if_true, List.length_singleton, List.map_singleton, List.sum_singleton,
    CTxIn.GetSerializeSize, CTxOut.GetSerializeSize, hone, hempty]
  omega

end Scenario

end Dions
