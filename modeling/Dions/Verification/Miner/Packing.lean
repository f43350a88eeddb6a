import Dions.Verification.Chain.Amounts
import Dions.Verification.Miner.Selection

/-! # What is packed into a block

The transactions that `CreateNewBlock` collects stay below the limits of the block, pay the minimum
fee each, and spend, one after the other, outputs that stand in the index or in the block. -/

namespace Dions

open Halting

variable {env : Env} {F : Type} {args : MinerArgs} {io : Io} {node : Node}
  {pindexPrev : CBlockIndex} {fProofOfStake : Bool} {nCoinbaseTime : ℕ}
variable {tx : CTransaction}
variable {queued queued' : TxIndexMap} {g : Globals} {txin : CTxIn}

/-! ## Induction over the second loop -/

section Run

variable [IntCast F] [LT F] [DecidableLT F] [BEq F]

/-- What every round keeps, the loop keeps. The transactions are among those that are still to come
at its start. -/
theorem collectLoop_invariant {P : Collected F → Prop} {txs : List CTransaction}
    (hmove : ∀ (s : Collected F) c fSortedByFee g, P s →
      P { s with toTxQueue := c, fSortedByFee := fSortedByFee, g := g })
    (htaken : ∀ s s' tx, tx ∈ txs → P s →
      Taken env args io node pindexPrev fProofOfStake nCoinbaseTime s tx s' → P s')
    {heap : TxHeap F} {fuel : ℕ} {s s' : Collected F}
    (hs : Collecting env io node (fun _ _ => False) s) (hsub : s.txs ⊆ txs)
    (h : collectLoop env heap args io node pindexPrev fProofOfStake nCoinbaseTime fuel s = .ok s')
    (hP : P s) : P s' := by
  induction fuel generalizing s with
  | zero =>
    rw [collectLoop, Except.ok.injEq] at h
    rwa [← h]
  | succ fuel ih =>
    rw [collectLoop] at h
    split at h
    · rw [Except.ok.injEq] at h
      rwa [← h]
    · rename_i p rest hfront
      obtain ⟨s₁, hone, hloop⟩ := seq_ok.mp h
      have hperm := takeFront_some hfront
      have hrest : Collecting env io node (fun _ _ => False) { s with vecPriority := rest } :=
        ⟨fun q hq => hs.queued q (hperm.subset (List.mem_cons_of_mem _ hq)), hs.linked⟩
      have hin : ∀ tx ∈ p.tx :: ({ s with vecPriority := rest } : Collected F).txs, tx ∈ txs := by
        intro tx htx
        refine hsub ?_
        simp only [TxQueue.txs] at htx ⊢
        rw [← List.cons_append, ← List.map_cons] at htx
        exact ((hperm.map _).append_right _).subset htx
      obtain ⟨hs₁, hperm₁, hcases⟩ := collectTx_ok hrest hone
      refine ih hs₁ (fun tx htx => hin tx (List.mem_cons_of_mem _ (hperm₁.subset htx))) hloop ?_
      have hP' := hmove s ⟨s.waiting, rest⟩ s.fSortedByFee s.g hP
      rcases hcases with ⟨fSortedByFee, g, heq⟩ | htake
      · rw [heq]
        exact hmove _ ⟨s.waiting, rest⟩ fSortedByFee g hP'
      · exact htaken _ _ p.tx (hin _ List.mem_cons_self) hP' htake

end Run

/-! ## The limits -/

/-- The sizes and the numbers of signature operations behind the counters, and the times. -/
structure WithinLimits (args : MinerArgs) (io : Io) (fProofOfStake : Bool) (nCoinbaseTime : ℕ)
    (s : Collected F) : Prop where
  size : s.nBlockSize = 1000 + (s.vtx.map CTransaction.GetSerializeSize).sum
  sizeLimit : s.nBlockSize ≤ args.nBlockMaxSize
  sigOps : 100 + (s.vtx.map CTransaction.GetLegacySigOpCount).sum ≤ s.nBlockSigOps
  sigOpLimit : s.nBlockSigOps < MAX_BLOCK_SIGOPS
  times : ∀ tx ∈ s.vtx, (tx.nTime : ℤ) ≤ io.nAdjustedTime ∧
    (fProofOfStake = true → tx.nTime ≤ nCoinbaseTime)

theorem WithinLimits.taken {s s' : Collected F}
    (hs : WithinLimits args io fProofOfStake nCoinbaseTime s)
    (h : Taken env args io node pindexPrev fProofOfStake nCoinbaseTime s tx s') :
    WithinLimits args io fProofOfStake nCoinbaseTime s' := by
  obtain ⟨inputs, nValueIn, nValueOut, nP2SH, pool, g, hjoins, heq⟩ := h.joins
  have hlimits := h.limits
  simp only [Collected.withinLimits, Bool.and_eq_true, decide_eq_true_eq, Bool.not_eq_true',
    Bool.or_eq_false_iff, decide_eq_false_iff_not, Bool.and_eq_false_iff, Int.not_lt,
    Nat.not_lt] at hlimits
  obtain ⟨⟨hsize, -⟩, htime, hstake⟩ := hlimits
  have hsig := hjoins.sigOps
  have hold := hs.size
  have hcount := hs.sigOps
  rw [heq]
  constructor
  case size =>
    simp only [Collected.add, List.map_append, List.map_cons, List.map_nil, List.sum_append,
      List.sum_cons, List.sum_nil]
    omega
  case sizeLimit =>
    simp only [Collected.add]
    omega
  case sigOps =>
    simp only [Collected.add, List.map_append, List.map_cons, List.map_nil, List.sum_append,
      List.sum_cons, List.sum_nil]
    omega
  case sigOpLimit => exact hsig
  case times =>
    intro tx' htx'
    simp only [Collected.add] at htx'
    rcases List.mem_append.mp htx' with hmem | hmem
    · exact hs.times tx' hmem
    · rw [List.mem_singleton.mp hmem]
      refine ⟨htime, fun hpos => ?_⟩
      rcases hstake with hno | hle
      · rw [hno] at hpos
        exact absurd hpos Bool.false_ne_true
      · exact hle

/-! ## The inputs -/

/-- The second loop of `ConnectInputs` asks at least as much of the miner as of a block. -/
theorem spendInputs_of_miner {view : View} {pos : CDiskTxPos} {flags : ℕ} {vin : List CTxIn} {k : ℕ}
    {inputs : MapPrevTx}
    (h : spendInputs env view tx pos false true flags vin k inputs queued = .ok queued') :
    spendInputs env view tx pos true false flags vin k inputs queued = .ok queued' := by
  induction vin generalizing k inputs queued with
  | nil => exact h
  | cons txin vin ih =>
    simp only [spendInputs] at h ⊢
    split at h
    · simp at h
    simp only [seq_ok, require_eq_ok] at h ⊢
    obtain ⟨spent, hspent, txout, hout, _, hfree, _, hverify, hrest⟩ := h
    refine ⟨spent, hspent, txout, hout, (), hfree, (), hverify.imp_left ?_, ih hrest⟩
    intro hskip
    simp [skipSignatures] at hskip

/-- What `ConnectInputs` does for the miner with an ordinary transaction. -/
structure MinerConnects (env : Env) (view : View) (inputs : MapPrevTx) (queued : TxIndexMap)
    (pindexPrev : CBlockIndex) (tx : CTransaction) (queued' : TxIndexMap) : Prop where
  spends : spendInputs env view tx CDiskTxPos.memory false true MANDATORY_SCRIPT_VERIFY_FLAGS
    tx.vin 0 inputs queued = .ok queued'
  pays : ∃ t, inputChecks env inputs (some pindexPrev) tx.nTime tx.vin ⟨0, [], []⟩ = .ok t ∧
    tx.created ≤ t.nValueIn

theorem connectInputs_miner {view : View} {g' : Globals} {inputs : MapPrevTx}
    (hcb : tx.IsCoinBase = false) (hcs : tx.IsCoinStake = false)
    (h : tx.ConnectInputs env view g inputs queued CDiskTxPos.memory (some pindexPrev) false true
      MANDATORY_SCRIPT_VERIFY_FLAGS = .ok (queued', g')) :
    MinerConnects env view inputs queued pindexPrev tx queued' := by
  simp only [CTransaction.ConnectInputs, hcb, hcs, Bool.false_eq_true, if_false, seq_ok,
    within_eq_ok, require_eq_ok, Except.ok.injEq, Prod.mk.injEq] at h
  obtain ⟨t, hchecks, queued₁, hspend, nValueOut, hout, _, hle, _, _, _, _, _, _, _, _, rfl, -⟩ := h
  exact ⟨hspend, t, hchecks, (CTransaction.getValueOut_ok hout).1 ▸ hle⟩

/-- A transaction as an item of the ledger, made where the pool keeps it. -/
def pooledItem (env : Env) (tx : CTransaction) : Ledger.Item uint256 CDiskTxPos :=
  txItem env (CDiskTxPos.memory, tx)

def inputValue (view : View) (L : Ledger uint256 CDiskTxPos) (tx : CTransaction) : ℤ :=
  (tx.vin.map fun txin => (outputValue view L txin.slot).getD 0).sum

def outputBehind (view : View) (L : Ledger uint256 CDiskTxPos) (txin : CTxIn) : Option CTxOut :=
  (L txin.prevout.hash).bind fun e =>
    (readPrev view.files view.mempool txin.prevout.hash e.place).bind fun txPrev =>
      txPrev.vout[txin.prevout.n]?

/-- The signature operations of the redeem script that an input hands over. -/
def redeemSigOps (txin : CTxIn) (prevout : CTxOut) : ℕ :=
  if prevout.scriptPubKey.IsPayToScriptHash then prevout.scriptPubKey.GetSigOpCountP2SH txin.scriptSig
  else 0

/-- The signature operations of a transaction, those of redeem scripts among them. -/
def sigOpsOf (view : View) (L : Ledger uint256 CDiskTxPos) (tx : CTransaction) : ℕ :=
  tx.GetLegacySigOpCount +
    (tx.vin.map fun txin => ((outputBehind view L txin).map (redeemSigOps txin)).getD 0).sum

/-- What each of the transactions comes to when they are connected in order. -/
def eachAlong {α : Type} (env : Env) (f : Ledger uint256 CDiskTxPos → CTransaction → α) :
    Ledger uint256 CDiskTxPos → List CTransaction → List α
  | _, [] => []
  | L, tx :: vtx => f L tx :: eachAlong env f (L.apply (pooledItem env tx)) vtx

theorem eachAlong_append {α : Type} (f : Ledger uint256 CDiskTxPos → CTransaction → α)
    (L : Ledger uint256 CDiskTxPos) (vtx : List CTransaction) (tx : CTransaction) :
    eachAlong env f L (vtx ++ [tx]) = eachAlong env f L vtx ++
      [f (L.applyAll (vtx.map (pooledItem env))) tx] := by
  induction vtx generalizing L with
  | nil => rfl
  | cons u vtx ih =>
    rw [List.cons_append, eachAlong, eachAlong, ih, List.cons_append]
    rfl

/-- What each of the transactions pays. -/
def feesAlong (env : Env) (view : View) : Ledger uint256 CDiskTxPos → List CTransaction → List ℤ :=
  eachAlong env fun L tx => inputValue view L tx - tx.created

def sigOpsAlong (env : Env) (view : View) :
    Ledger uint256 CDiskTxPos → List CTransaction → List ℕ :=
  eachAlong env (sigOpsOf view)

theorem fetched_value {view : View} {T : TxIndexMap} {inputs : MapPrevTx}
    (hin : Fetched view T inputs) (hrange : prevoutInRange inputs txin = true) :
    (outputValue view (ledgerOf T) txin.slot).getD 0 = inputs.valueOf txin := by
  obtain ⟨e, txPrev, he, -, -⟩ := prevoutInRange_iff.mp hrange
  obtain ⟨hT, hread⟩ := hin _ _ _ he
  simp [outputValue, ledgerOf, CTxIn.slot, hT, CTxIndex.entry, hread, MapPrevTx.valueOf, he]

theorem getOutputFor_ok {inputs : MapPrevTx} {prevout : CTxOut}
    (h : CTransaction.GetOutputFor txin inputs = .ok prevout) :
    ((inputs txin.prevout.hash).bind fun p => p.2.vout[txin.prevout.n]?) = some prevout := by
  rw [CTransaction.GetOutputFor] at h
  cases hin : inputs txin.prevout.hash with
  | none =>
    rw [hin] at h
    cases h
  | some p =>
    rw [hin] at h
    dsimp only at h
    rw [Option.bind_some]
    cases hout : p.2.vout[txin.prevout.n]? with
    | none =>
      rw [hout] at h
      cases h
    | some txout =>
      rw [hout] at h
      exact congrArg some (Except.ok.inj h)

theorem p2shSigOpsFrom_eq {inputs : MapPrevTx} {vin : List CTxIn} {n m : ℕ}
    (h : CTransaction.p2shSigOpsFrom inputs vin n = .ok m) :
    m = n + (vin.map fun txin => (((inputs txin.prevout.hash).bind fun p =>
      p.2.vout[txin.prevout.n]?).map (redeemSigOps txin)).getD 0).sum := by
  induction vin generalizing n with
  | nil =>
    rw [CTransaction.p2shSigOpsFrom, Except.ok.injEq] at h
    simp [h]
  | cons txin vin ih =>
    rw [CTransaction.p2shSigOpsFrom, seq_ok] at h
    obtain ⟨prevout, hout, hrest⟩ := h
    rw [ih hrest, List.map_cons, List.sum_cons, getOutputFor_ok hout, Option.map_some, Option.getD_some,
      redeemSigOps]
    split_ifs
    · omega
    · omega

theorem fetched_output {view : View} {T : TxIndexMap} {inputs : MapPrevTx}
    (hin : Fetched view T inputs) (hrange : prevoutInRange inputs txin = true) :
    outputBehind view (ledgerOf T) txin =
      (inputs txin.prevout.hash).bind fun p => p.2.vout[txin.prevout.n]? := by
  obtain ⟨e, txPrev, he, -, -⟩ := prevoutInRange_iff.mp hrange
  obtain ⟨hT, hread⟩ := hin _ _ _ he
  simp [outputBehind, ledgerOf, hT, CTxIndex.entry, hread, he]

/-- The ledger behind the collected transactions: each is accepted on what those before it leave,
and pays the minimum fee. -/
structure Balanced (env : Env) (io : Io) (node : Node) (s : Collected F) : Prop where
  along : Ledger.Along (Accepts (node.view io)) (ledgerOf node.txdb.txindex)
    (s.vtx.map (pooledItem env))
  ledger : ledgerOf (writeQueued node.txdb.txindex s.mapTestPool) =
    Ledger.applyAll (ledgerOf node.txdb.txindex) (s.vtx.map (pooledItem env))
  minimum : ∀ fee ∈ feesAlong env (node.view io) (ledgerOf node.txdb.txindex) s.vtx,
    MIN_TX_FEE ≤ fee
  fees : s.nFees =
    int64 (feesAlong env (node.view io) (ledgerOf node.txdb.txindex) s.vtx).sum
  sigOps : s.nBlockSigOps =
    100 + (sigOpsAlong env (node.view io) (ledgerOf node.txdb.txindex) s.vtx).sum

theorem GetMinFee_block_ge (tx : CTransaction) (nBlockSize : ℕ) :
    MIN_TX_FEE ≤ tx.GetMinFee nBlockSize .GMF_BLOCK 0 := by
  have hmin : MIN_TX_FEE = 10000 := rfl
  have hmax : MAX_MONEY = 2 ^ 63 - 1 := rfl
  have hgen : MAX_BLOCK_SIZE_GEN = 4194304 := rfl
  simp only [CTransaction.GetMinFee, reduceCtorEq, if_false, Nat.zero_div, Nat.cast_zero, add_zero,
    one_mul, lt_irrefl, false_and]
  split_ifs with hlarge hfull hrange
  · rw [hmin, hmax]
    decide
  · have hpos : 1 ≤ MAX_BLOCK_SIZE_GEN / (MAX_BLOCK_SIZE_GEN - nBlockSize) :=
      (Nat.one_le_div_iff (by omega)).mpr (Nat.sub_le _ _)
    exact le_mul_of_one_le_right (by decide) (by exact_mod_cast hpos)
  · rw [hmin, hmax]
    decide
  · exact le_refl _
  · rw [hmin, hmax]
    decide

/-- The fee, as the checks of `ConnectInputs` leave it. -/
theorem Balanced.fee {s : Collected F} {inputs : MapPrevTx} {nValueIn nValueOut : ℤ} {nP2SH : ℕ}
    {pool : TxIndexMap} (hcb : tx.IsCoinBase = false) (hcs : tx.IsCoinStake = false)
    (hs : Balanced env io node s)
    (h : Joins env io node pindexPrev s tx inputs nValueIn nValueOut nP2SH pool g) :
    int64 (nValueIn - nValueOut) = inputValue (node.view io)
      (Ledger.applyAll (ledgerOf node.txdb.txindex) (s.vtx.map (pooledItem env))) tx -
        tx.created := by
  obtain ⟨-, t, hchecks, hpays⟩ := connectInputs_miner hcb hcs h.connected
  have hfetch : tx.FetchInputs (node.view io).files (node.view io).mempool node.txdb.txindex
      s.mapTestPool true false = .ok inputs := h.fetched
  obtain ⟨hfetched, hrange⟩ := fetchInputs_ok hcb hfetch
  obtain ⟨hvalue, hlow, hhigh⟩ := inputChecks_value (by simp) hchecks
  obtain ⟨hout, houtLow, houtHigh⟩ := CTransaction.getValueOut_ok h.valueOut
  have hin : nValueIn = t.nValueIn := by
    have hsum := h.valueIn
    rw [CTransaction.GetValueIn, if_neg (by simp [hcb])] at hsum
    rw [valueInFrom_eq hsum ⟨by decide, by decide⟩, ← hvalue]
    exact (show Fits64 t.nValueIn from ⟨by omega, hhigh⟩).int64_eq
  have hinput : inputValue (node.view io)
      (Ledger.applyAll (ledgerOf node.txdb.txindex) (s.vtx.map (pooledItem env))) tx =
        t.nValueIn := by
    rw [hvalue, zero_add, inputValue, ← hs.ledger]
    exact congrArg List.sum (List.map_congr_left fun txin hmem =>
      fetched_value hfetched (hrange txin hmem))
  rw [hin, hout, hinput]
  exact (show Fits64 _ from ⟨by omega, by omega⟩).int64_eq

theorem Balanced.taken {s s' : Collected F} (hcb : tx.IsCoinBase = false)
    (hcs : tx.IsCoinStake = false) (hs : Balanced env io node s)
    (h : Taken env args io node pindexPrev fProofOfStake nCoinbaseTime s tx s') :
    Balanced env io node s' := by
  obtain ⟨inputs, nValueIn, nValueOut, nP2SH, pool, g, hjoins, heq⟩ := h.joins
  have hspend := (connectInputs_miner hcb hcs hjoins.connected).spends
  have hfetch : tx.FetchInputs (node.view io).files (node.view io).mempool node.txdb.txindex
      s.mapTestPool true false = .ok inputs := hjoins.fetched
  obtain ⟨hfetched, hrange⟩ := fetchInputs_ok hcb hfetch
  obtain ⟨hL, hguard⟩ := spendInputs_ok env hfetched (spendInputs_of_miner hspend)
  rw [hs.ledger] at hL hguard
  have hslots : (pooledItem env tx).inputs = tx.vin.map CTxIn.slot := by
    simp [pooledItem, txItem, CTransaction.slots, hcb]
  have haccepts : Accepts (node.view io)
      (Ledger.applyAll (ledgerOf node.txdb.txindex) (s.vtx.map (pooledItem env)))
      (pooledItem env tx) := by
    constructor
    · intro o ho
      rw [hslots] at ho
      obtain ⟨txin, hmem, rfl⟩ := List.mem_map.mp ho
      obtain ⟨e, txPrev, he, -, hlt⟩ := prevoutInRange_iff.mp (hrange txin hmem)
      refine ⟨e.entry, ?_, hlt⟩
      rw [← hs.ledger]
      simp [ledgerOf, CTxIn.slot, (hfetched _ _ _ he).1]
    · intro o ho
      rw [hslots] at ho
      obtain ⟨txin, hmem, rfl⟩ := List.mem_map.mp ho
      exact hguard txin hmem
  have hfee := hs.fee hcb hcs hjoins
  have hminimum := (GetMinFee_block_ge tx s.nBlockSize).trans hjoins.fee
  rw [hfee] at hminimum
  have hredeem : sigOpsOf (node.view io)
      (Ledger.applyAll (ledgerOf node.txdb.txindex) (s.vtx.map (pooledItem env))) tx =
        tx.GetLegacySigOpCount + nP2SH := by
    have hcount := hjoins.p2sh
    rw [CTransaction.GetP2SHSigOpCount, if_neg (by simp [hcb])] at hcount
    rw [p2shSigOpsFrom_eq hcount, zero_add, sigOpsOf, ← hs.ledger]
    refine congrArg (tx.GetLegacySigOpCount + ·) (congrArg List.sum (List.map_congr_left ?_))
    intro txin hmem
    rw [fetched_output hfetched (hrange txin hmem)]
  rw [heq]
  constructor
  case along =>
    simp only [Collected.add, List.map_append]
    exact Ledger.along_append.mpr ⟨hs.along, haccepts, trivial⟩
  case ledger =>
    simp only [Collected.add, List.map_append, Ledger.applyAll_append]
    rw [writeQueued_update, ledgerOf_update, hL]
    simp only [List.map_cons, List.map_nil, Ledger.applyAll, List.foldl_cons, List.foldl_nil]
    rw [Ledger.apply, hslots]
    rfl
  case minimum =>
    intro fee hmem
    simp only [Collected.add, feesAlong, eachAlong_append] at hmem
    rcases List.mem_append.mp hmem with hmem | hmem
    · exact hs.minimum fee hmem
    · rw [List.mem_singleton.mp hmem]
      exact hminimum
  case fees =>
    simp only [Collected.add, feesAlong, eachAlong_append, hfee, hs.fees, List.sum_append,
      List.sum_cons, List.sum_nil, add_zero]
    rw [int64_int64_add]
  case sigOps =>
    simp only [Collected.add, sigOpsAlong, eachAlong_append, hredeem, hs.sigOps, List.sum_append,
      List.sum_cons, List.sum_nil, add_zero]
    omega

/-! ## The block -/

theorem nBlockMaxSize_bounds (args : MinerArgs) :
    1000 ≤ args.nBlockMaxSize ∧ args.nBlockMaxSize ≤ MAX_BLOCK_SIZE - 1000 := by
  have hmax : MAX_BLOCK_SIZE - 1000 = 4193304 := rfl
  rw [MinerArgs.nBlockMaxSize, hmax]
  omega

theorem isCandidate_ordinary {nHeight : ℤ} (h : isCandidate io node nHeight tx = true) :
    tx.IsCoinBase = false ∧ tx.IsCoinStake = false := by
  simp only [isCandidate, Bool.not_eq_true', Bool.or_eq_false_iff] at h
  exact h.1

structure Packed (env : Env) (args : MinerArgs) (io : Io) (node : Node)
    (pindexPrev : CBlockIndex) (fProofOfStake : Bool) (nCoinbaseTime : ℕ) (s : Collected F) :
    Prop where
  limits : WithinLimits args io fProofOfStake nCoinbaseTime s
  balance : Balanced env io node s
  candidates : ∀ tx ∈ s.vtx, isCandidate io node (pindexPrev.nHeight + 1) tx = true

section Template

variable [Add F] [Mul F] [Div F] [IntCast F] [LT F] [DecidableLT F] [BEq F]

/-- What holds before the second loop, and is kept when a candidate of the pool is taken, holds of what
is collected. -/
theorem collect_invariant {P : Collected F → Prop} {heap : TxHeap F} {s : Collected F}
    (hmove : ∀ (s : Collected F) c fSortedByFee g, P s →
      P { s with toTxQueue := c, fSortedByFee := fSortedByFee, g := g })
    (htaken : ∀ s s' tx, tx ∈ node.mempool.mapTx.map Prod.snd →
      isCandidate io node (pindexPrev.nHeight + 1) tx = true → P s →
      Taken env args io node pindexPrev fProofOfStake nCoinbaseTime s tx s' → P s')
    (hstart : ∀ c fSortedByFee g, P ⟨c, fun _ => none, 1000, 0, 100, fSortedByFee, 0, [], g⟩)
    (h : collect env heap args io node pindexPrev fProofOfStake nCoinbaseTime = .ok s) : P s := by
  simp only [collect, seq_ok, within_eq_ok] at h
  obtain ⟨c, hgather, hloop⟩ := h
  have hgathered : Gathered io node (⟨⟨[], fun _ => []⟩, []⟩ : TxQueue F) :=
    ⟨by simp, fun i porphan hat => by simp at hat⟩
  obtain ⟨hc, hperm⟩ := addCandidates_ok hgathered hgather
  refine collectLoop_invariant hmove (fun s s' tx htx hs => ?_) hc.collecting
    (List.Subset.refl c.txs) hloop (hstart _ _ _)
  have hmem := List.mem_filter.mp ((List.nil_append _).symm ▸ hperm.subset htx)
  exact htaken s s' tx (node.mempool.inOrder_perm.subset hmem.1) (Bool.and_eq_true_iff.mp hmem.2).1 hs

theorem collect_packed {heap : TxHeap F} {s : Collected F}
    (h : collect env heap args io node pindexPrev fProofOfStake nCoinbaseTime = .ok s) :
    Packed env args io node pindexPrev fProofOfStake nCoinbaseTime s := by
  refine collect_invariant ?_ ?_ ?_ h
  · intro s c fSortedByFee g hs
    exact ⟨⟨hs.limits.size, hs.limits.sizeLimit, hs.limits.sigOps, hs.limits.sigOpLimit,
      hs.limits.times⟩, ⟨hs.balance.along, hs.balance.ledger, hs.balance.minimum, hs.balance.fees,
      hs.balance.sigOps⟩, hs.candidates⟩
  · intro s s' tx _ hcandidate hs htaken
    obtain ⟨hcb, hcs⟩ := isCandidate_ordinary hcandidate
    refine ⟨hs.limits.taken htaken, hs.balance.taken hcb hcs htaken, fun tx' htx' => ?_⟩
    obtain ⟨_, _, _, _, _, _, _, heq⟩ := htaken.joins
    rw [heq] at htx'
    rcases List.mem_append.mp htx' with hmem | hmem
    · exact hs.candidates tx' hmem
    · rwa [List.mem_singleton.mp hmem]
  · intro c fSortedByFee g
    constructor
    case limits =>
      refine ⟨rfl, (nBlockMaxSize_bounds args).1, le_refl _, (by decide : 100 < MAX_BLOCK_SIGOPS),
        ?_⟩
      intro tx htx
      exact absurd htx List.not_mem_nil
    case balance => exact ⟨trivial, rfl, fun fee hfee => absurd hfee List.not_mem_nil, rfl, rfl⟩
    case candidates =>
      intro tx htx
      exact absurd htx List.not_mem_nil

/-- The first transaction of the block, with its value. -/
def finishedCoinbase (nAdjustedTime : ℕ) (nHeight : ℕ) (fProofOfStake : Bool)
    (reserved : Option uint160) (nFees : ℤ) : CTransaction :=
  let txNew := newCoinbase nAdjustedTime nHeight fProofOfStake (reserved.getD 0)
  if fProofOfStake then txNew else
    { txNew with vout := txNew.vout.map fun txout =>
        { txout with nValue := GetProofOfWorkReward nHeight nFees } }

/-- What `CreateNewBlock` makes of what is collected. -/
theorem CreateNewBlock_ok {heap : TxHeap F} {reserved : Option uint160} {block : CBlock} {nFees : ℤ}
    (h : CreateNewBlock env heap args reserved io node fProofOfStake =
      .ok (some (block, nFees), g)) :
    ∃ (pindexPrev : CBlockIndex) (s : Collected F), node.pindexBest = some pindexPrev ∧
      collect env heap args io node pindexPrev fProofOfStake
        (newCoinbase (toUInt32 io.nAdjustedTime) (pindexPrev.nHeight + 1) fProofOfStake
          (reserved.getD 0)).nTime = .ok s ∧
      nFees = s.nFees ∧
      block.vtx = finishedCoinbase (toUInt32 io.nAdjustedTime) (pindexPrev.nHeight + 1)
        fProofOfStake reserved s.nFees :: s.vtx ∧
      block.hashPrevBlock = pindexPrev.GetBlockHash ∧ block.vchBlockSig = [] ∧
      block.nTime = newBlockTime io pindexPrev fProofOfStake block.vtx ∧
      block.nBits = GetNextTargetRequired env pindexPrev fProofOfStake nFees := by
  rw [CreateNewBlock] at h
  split at h
  · simp at h
  rename_i pindexPrev hbest
  split at h
  · simp at h
  simp only [seq_ok, Except.ok.injEq, Prod.mk.injEq, Option.some.injEq] at h
  obtain ⟨s, hcollect, ⟨rfl, rfl⟩, -⟩ := h
  exact ⟨pindexPrev, s, hbest, hcollect, rfl, rfl, rfl, rfl, rfl, rfl⟩

theorem newCoinbase_nTime (nAdjustedTime nHeight : ℕ) (reserved : uint160) :
    (newCoinbase nAdjustedTime nHeight fProofOfStake reserved).nTime = nAdjustedTime := by
  cases fProofOfStake
  · rfl
  · rfl

theorem finishedCoinbase_created (nAdjustedTime nHeight : ℕ) (reserved : Option uint160)
    (nFees : ℤ) :
    (finishedCoinbase nAdjustedTime nHeight fProofOfStake reserved nFees).created =
      if fProofOfStake then 0 else GetProofOfWorkReward nHeight nFees := by
  cases fProofOfStake
  · simp [finishedCoinbase, newCoinbase, CTransaction.created]
  · simp [finishedCoinbase, newCoinbase, CTransaction.created]

theorem finishedCoinbase_isCoinBase (nAdjustedTime nHeight : ℕ) (reserved : Option uint160)
    (nFees : ℤ) :
    (finishedCoinbase nAdjustedTime nHeight fProofOfStake reserved nFees).IsCoinBase = true := by
  cases fProofOfStake
  · rfl
  · rfl

end Template

/-- Behind the coinbase, the block that `CreateNewBlock` makes holds ordinary transactions that leave
room for the header and the coinbase, each spending outputs that the best chain and those before it
have, none of positive value that is spent already, and each paying the minimum fee. Their signature
operations, those of redeem scripts among them, stay below the limit. The coinbase of a proof-of-work
block claims the reward with what they pay. -/
theorem CreateNewBlock_packs {env : Env} {F : Type} [Add F] [Mul F] [Div F] [IntCast F] [LT F]
    [DecidableLT F] [BEq F] {heap : TxHeap F} {args : MinerArgs} {reserved : Option uint160}
    {io : Io} {node : Node} {fProofOfStake : Bool} {block : CBlock} {nFees : ℤ} {g : Globals}
    (h : CreateNewBlock env heap args reserved io node fProofOfStake =
      .ok (some (block, nFees), g)) :
    ∃ coinbase vtx pindexPrev, block.vtx = coinbase :: vtx ∧ node.pindexBest = some pindexPrev ∧
      block.hashPrevBlock = pindexPrev.GetBlockHash ∧
      coinbase.IsCoinBase = true ∧
      coinbase.created =
        (if fProofOfStake then 0 else GetProofOfWorkReward (pindexPrev.nHeight + 1) nFees) ∧
      (∀ tx ∈ vtx, tx.IsCoinBase = false ∧ tx.IsCoinStake = false ∧
        IsFinalTx node.nBestHeight io.nAdjustedTime tx (pindexPrev.nHeight + 1) 0 = true) ∧
      (∀ tx ∈ vtx, (tx.nTime : ℤ) ≤ io.nAdjustedTime ∧
        (fProofOfStake = true → tx.nTime ≤ coinbase.nTime)) ∧
      1000 + (vtx.map CTransaction.GetSerializeSize).sum ≤ args.nBlockMaxSize ∧
      args.nBlockMaxSize ≤ MAX_BLOCK_SIZE - 1000 ∧
      100 + (sigOpsAlong env (node.view io) (ledgerOf node.txdb.txindex) vtx).sum <
        MAX_BLOCK_SIGOPS ∧
      Ledger.Along (Accepts (node.view io)) (ledgerOf node.txdb.txindex)
        (vtx.map (pooledItem env)) ∧
      (∀ fee ∈ feesAlong env (node.view io) (ledgerOf node.txdb.txindex) vtx, MIN_TX_FEE ≤ fee) ∧
      nFees = int64 (feesAlong env (node.view io) (ledgerOf node.txdb.txindex) vtx).sum := by
  obtain ⟨pindexPrev, s, hbest, hcollect, rfl, hvtx, hprev, -, -⟩ := CreateNewBlock_ok h
  obtain ⟨hlimits, hbalance, hcandidates⟩ := collect_packed hcollect
  refine ⟨_, s.vtx, pindexPrev, hvtx, hbest, hprev, finishedCoinbase_isCoinBase _ _ _ _,
    finishedCoinbase_created _ _ _ _, ?_, ?_, ?_, (nBlockMaxSize_bounds args).2, ?_,
    hbalance.along, hbalance.minimum, hbalance.fees⟩
  · intro tx htx
    have hcandidate := hcandidates tx htx
    obtain ⟨hcb, hcs⟩ := isCandidate_ordinary hcandidate
    refine ⟨hcb, hcs, ?_⟩
    simpa [isCandidate, hcb, hcs] using hcandidate
  · intro tx htx
    obtain ⟨hadjusted, hstake⟩ := hlimits.times tx htx
    refine ⟨hadjusted, fun hpos => (hstake hpos).trans ?_⟩
    rw [newCoinbase_nTime]
    subst hpos
    exact le_refl _
  · rw [← hlimits.size]
    exact hlimits.sizeLimit
  · rw [← hbalance.sigOps]
    exact hlimits.sigOpLimit

namespace Scenario

def miningNode : Node := { grandchildAccepted with pindexBest := some tipOnly }

def familyPacked : Bool :=
  match CreateNewBlock (timed testNet) firstCome plainArgs (some 7) Scenario.io miningNode false
    with
  | .ok (some (block, nFees), _) =>
    block.vtx.tail == [pooledChild, pooledGrandchild] && nFees == COIN * 3 / 4
  | _ => false

theorem CreateNewBlock_packs_family : ∃ block g,
    CreateNewBlock (timed testNet) firstCome plainArgs (some 7) Scenario.io miningNode false =
      .ok (some (block, COIN * 3 / 4), g) ∧
    block.vtx.tail = [pooledChild, pooledGrandchild] ∧
    Ledger.Along (Accepts (miningNode.view Scenario.io)) (ledgerOf miningNode.txdb.txindex)
      ([pooledChild, pooledGrandchild].map (pooledItem (timed testNet))) := by
  have hrun : familyPacked = true := by decide +kernel
  unfold familyPacked at hrun
  cases hcreate :
      CreateNewBlock (timed testNet) firstCome plainArgs (some 7) Scenario.io miningNode false with
  | error e =>
    rw [hcreate] at hrun
    simp at hrun
  | ok made =>
    obtain ⟨_ | ⟨block, nFees⟩, g⟩ := made
    · rw [hcreate] at hrun
      simp at hrun
    · rw [hcreate] at hrun
      simp only [Bool.and_eq_true, beq_iff_eq] at hrun
      obtain ⟨htail, rfl⟩ := hrun
      obtain ⟨coinbase, vtx, pindexPrev, hvtx, -, -, -, -, -, -, -, -, -, halong, -⟩ :=
        CreateNewBlock_packs hcreate
      rw [hvtx, List.tail_cons] at htail
      exact ⟨block, g, rfl, by rw [hvtx, List.tail_cons, htail], htail ▸ halong⟩

end Scenario

end Dions
