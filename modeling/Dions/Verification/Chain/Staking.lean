import Dions.Verification.Alias.Modes
import Dions.Verification.Chain.Growth

/-! # A chain of staked blocks

On the test network a chain of any length grows from a single worthless output: the test for a
double spend does not look at outputs without value, so the output is staked again and again. The
states of such a chain are what statements about great heights are tried on. -/

namespace Dions

open Halting

variable {p pindex : CBlockIndex} {nTime : ℕ} {tx txPrev : CTransaction} {node : Node}
  {txin : CTxIn} {e : CTxIndex} {txout : CTxOut} {nValueOut : ℤ}
variable {flags : ℕ}

/-! ## Sizes and counts -/

theorem sigOpLoop_le (script : CScript) (fAccurate : Bool) (fuel pc lastOpcode n : ℕ) :
    sigOpLoop script fAccurate fuel pc lastOpcode n ≤ n + 20 * fuel := by
  induction fuel generalizing pc lastOpcode n with
  | zero => simp [sigOpLoop]
  | succ fuel ih =>
      rw [sigOpLoop]
      dsimp only
      split
      · omega
      · refine le_trans (ih _ _ _) ?_
        have hop : OP_16 - (OP_1 - 1) ≤ 20 := by decide
        split
        · omega
        · split
          · split
            · omega
            · omega
          · omega

theorem GetSigOpCount_le (script : CScript) (fAccurate : Bool) :
    script.GetSigOpCount fAccurate ≤ 20 * script.length := by
  have hle := sigOpLoop_le script fAccurate script.length 0 OP_INVALIDOPCODE 0
  unfold CScript.GetSigOpCount
  omega

theorem length_scriptNum_le (fuel n : ℕ) : (scriptNum fuel n).length ≤ fuel + 1 := by
  induction fuel generalizing n with
  | zero => simp [scriptNum]
  | succ fuel ih =>
      rw [scriptNum]
      split
      · simp
      · split
        · simp
        · split
          · simp
          · have hrest := ih (n / 256)
            simp only [List.length_cons]
            omega

theorem length_pushHeight_le (nHeight : ℕ) : (pushHeight nHeight).length ≤ 10 := by
  have hnum := length_scriptNum_le 8 nHeight
  unfold pushHeight
  split
  · simp
  · simp only [List.length_cons]
    omega

/-! ## Times and depths -/

theorem pastTimeLimit_le (h : ∀ x ∈ Lineage.line p, x.label.nTime ≤ p.label.nTime) :
    p.GetPastTimeLimit ≤ p.label.nTime := by
  unfold CBlockIndex.GetPastTimeLimit
  split
  · exact le_rfl
  · unfold CBlockIndex.GetMedianTimePast
    dsimp only
    generalize hmid : (((p.line.take 11).map CBlockIndex.GetBlockTime).insertionSort (· ≤ ·))[
      ((p.line.take 11).map CBlockIndex.GetBlockTime).length / 2]? = mid
    cases mid with
    | none => simp
    | some t =>
        have hmem := List.mem_of_getElem? hmid
        rw [List.mem_insertionSort] at hmem
        obtain ⟨x, hx, rfl⟩ := List.mem_map.mp hmem
        have hle := h x (List.mem_of_mem_take hx)
        rw [Option.getD_some, CBlockIndex.GetBlockTime]
        exact_mod_cast hle

/-- An entry elsewhere puts what lies below it one deeper. -/
theorem depthOf_child_none {nFile nBlockPos nMaxDepth : ℕ} {d : BlockIndexData}
    (hother : ¬(d.nBlockPos = nBlockPos ∧ d.nFile = nFile))
    (h : p.depthOf nFile nBlockPos nMaxDepth 0 = none) :
    CBlockIndex.depthOf nFile nBlockPos (nMaxDepth + 1) (.child d p) 0 = none := by
  have hat : CBlockIndex.IsAt nFile nBlockPos (.child d p) = false := decide_eq_false hother
  rw [depthOf_eq] at h ⊢
  rw [Lineage.line, List.findIdx?_cons, hat]
  cases hfind : (Lineage.line p).findIdx? (CBlockIndex.IsAt nFile nBlockPos) with
  | none => simp
  | some j =>
      rw [hfind] at h
      by_cases hlt : j < nMaxDepth
      · simp [hlt] at h
      · simp [hlt]

theorem depthOf_none_of_le {nFile nBlockPos n m : ℕ} (hle : n ≤ m)
    (h : p.depthOf nFile nBlockPos m 0 = none) : p.depthOf nFile nBlockPos n 0 = none := by
  rw [depthOf_eq] at h ⊢
  cases hfind : (Lineage.line p).findIdx? (CBlockIndex.IsAt nFile nBlockPos) with
  | none => rfl
  | some j =>
      rw [hfind] at h
      by_cases hlt : j < m
      · simp [hlt] at h
      · have hnot : ¬ j < n := by omega
        simp [hnot]

namespace Scenario

/-! ## The blocks -/

/-- A proof-of-stake block with a parent, whose target and Merkle root are the ones required. -/
def stakeBlock (p : CBlockIndex) (nTime : ℕ) (coinstake : CTransaction) : CBlock :=
  let block : CBlock := ⟨7, p.GetBlockHash, 0, nTime,
    GetNextTargetRequired (timed testNet) p true 0, 0,
    [coinbase (p.nHeight + 1) (nTime - 1) 1 [⟨0, []⟩], coinstake], []⟩
  { block with hashMerkleRoot := block.BuildMerkleTree (timed testNet) }

theorem stakeBlock_hash {coinstake : CTransaction} (hpos : 0 < nTime) :
    (stakeBlock p nTime coinstake).GetHash (timed testNet) = nTime := by
  have hne : nTime ≠ 0 := by omega
  simp [CBlock.GetHash, stakeBlock, timed, hne]

theorem coinbase_checks (nHeight nTime : ℕ) {txout : CTxOut}
    (hvalue : MoneyRange txout.nValue = true) (hscript : txout.scriptPubKey.length ≤ 100) :
    (coinbase nHeight nTime 1 [txout]).IsCoinBase = true ∧
      (coinbase nHeight nTime 1 [txout]).GetSerializeSize ≤ 1000 ∧
      (coinbase nHeight nTime 1 [txout]).CheckTransaction = true ∧
      (coinbase nHeight nTime 1 [txout]).GetLegacySigOpCount ≤ 5000 ∧
      (coinbase nHeight nTime 1 [txout]).GetValueOut = .ok txout.nValue := by
  have hpush := length_pushHeight_le nHeight
  have hrange := (moneyRange_iff _).mp hvalue
  have hexact : int64 txout.nValue = txout.nValue := by
    apply Fits64.int64_eq
    constructor
    · omega
    · exact hrange.2
  have hmax : txout.nValue ≤ MAX_MONEY := by
    simp only [MoneyRange, Bool.and_eq_true, decide_eq_true_eq] at hvalue
    exact hvalue.2
  have hcb : (coinbase nHeight nTime 1 [txout]).IsCoinBase = true := rfl
  have hsizeOut : sizeOfBytes txout.scriptPubKey ≤ 109 := by
    unfold sizeOfBytes GetSizeOfCompactSize
    split <;> omega
  have hsizeIn : sizeOfBytes (pushHeight nHeight ++ [0, 0]) ≤ 21 := by
    unfold sizeOfBytes GetSizeOfCompactSize
    simp only [List.length_append, List.length_cons, List.length_nil]
    split <;> omega
  have hsize : (coinbase nHeight nTime 1 [txout]).GetSerializeSize ≤ 1000 := by
    have hone : GetSizeOfCompactSize 1 = 1 := rfl
    have hinfo : ¬ CTransaction.VERSION_WITH_INFO ≤ (coinbase nHeight nTime 1 [txout]).nVersion :=
      show ¬ CTransaction.VERSION_WITH_INFO ≤ 1 by decide
    rw [CTransaction.GetSerializeSize, if_neg hinfo]
    simp only [coinbase, List.length_cons, List.length_nil, List.map_cons, List.map_nil,
      List.sum_cons, List.sum_nil, CTxIn.GetSerializeSize, CTxOut.GetSerializeSize, zero_add, hone]
    omega
  refine ⟨hcb, hsize, ?_, ?_, ?_⟩
  · have hblock : (coinbase nHeight nTime 1 [txout]).GetSerializeSize ≤ MAX_BLOCK_SIZE :=
      le_trans hsize (by decide)
    simp only [CTransaction.CheckTransaction, hcb, hblock]
    simp [coinbase, CTransaction.checkOutputs, hrange.1, hmax, hexact, hvalue]
    omega
  · have hin := GetSigOpCount_le (pushHeight nHeight ++ [0, 0]) false
    have hout := GetSigOpCount_le txout.scriptPubKey false
    simp only [List.length_append, List.length_cons, List.length_nil] at hin
    simp only [CTransaction.GetLegacySigOpCount, coinbase, List.map_cons, List.map_nil,
      List.sum_cons, List.sum_nil]
    omega
  · simp [CTransaction.GetValueOut, coinbase, CTransaction.valueOutFrom, hvalue, hexact]

/-- A coin stake that passes every check which needs no context. -/
structure StakeTx (nTime : ℕ) (tx : CTransaction) : Prop where
  coinStake : tx.IsCoinStake = true
  time : tx.nTime = nTime
  version : tx.nVersion ≠ CTransaction.DION_TX_VERSION
  final : tx.nLockTime = 0
  checked : tx.CheckTransaction = true
  size : tx.GetSerializeSize ≤ 1000
  sigOps : tx.GetLegacySigOpCount ≤ 5000

theorem isCoinBase_of_isCoinStake (h : tx.IsCoinStake = true) : tx.IsCoinBase = false := by
  cases hcb : tx.IsCoinBase with
  | false => rfl
  | true =>
      rw [isCoinStake_of_isCoinBase hcb] at h
      exact absurd h (by decide)

theorem StakeTx.checkBlock (h : StakeTx nTime tx) (hpos : 0 < nTime) (fPOW fSig : Bool) :
    (stakeBlock p nTime tx).CheckBlock (timed testNet) fPOW true fSig = true := by
  obtain ⟨hcb, hsize, hchecked, hsig, -⟩ := coinbase_checks (p.nHeight + 1) (nTime - 1)
    (show MoneyRange (⟨0, []⟩ : CTxOut).nValue = true from rfl) (by simp)
  have hstake : (stakeBlock p nTime tx).IsProofOfStake = true := h.coinStake
  have hwork : (stakeBlock p nTime tx).IsProofOfWork = false := by
    simp [CBlock.IsProofOfWork, hstake]
  have hroot : (stakeBlock p nTime tx).hashMerkleRoot =
      (stakeBlock p nTime tx).BuildMerkleTree (timed testNet) := rfl
  have hsign : (stakeBlock p nTime tx).CheckBlockSignature (timed testNet) = true := by
    simp only [CBlock.CheckBlockSignature, hwork, Bool.false_eq_true, if_false]
    rfl
  have htxsize := h.size
  have hblock : (stakeBlock p nTime tx).GetSerializeSize ≤ MAX_BLOCK_SIZE := by
    have hmax : 4000 ≤ MAX_BLOCK_SIZE := by decide
    have htwo : GetSizeOfCompactSize 2 = 1 := rfl
    have hempty : sizeOfBytes [] = 1 := rfl
    simp only [CBlock.GetSerializeSize, stakeBlock, List.length_cons, List.length_nil,
      List.map_cons, List.map_nil, List.sum_cons, List.sum_nil, zero_add, Nat.reduceAdd, htwo,
      hempty]
    omega
  have hsigops : ((stakeBlock p nTime tx).vtx.map CTransaction.GetLegacySigOpCount).sum ≤
      MAX_BLOCK_SIGOPS := by
    have hmax : 20000 ≤ MAX_BLOCK_SIGOPS := by decide
    have htxsig := h.sigOps
    simp only [stakeBlock, List.map_cons, List.map_nil, List.sum_cons, List.sum_nil]
    omega
  have hhashes :
      ((stakeBlock p nTime tx).vtx.map (CTransaction.GetHash (timed testNet))).Nodup := by
    have hne : nTime - 1 ≠ tx.nTime := by
      rw [h.time]
      omega
    simpa [stakeBlock, CTransaction.GetHash, timed, coinbase] using hne
  have htimes : ∀ tx' ∈ (stakeBlock p nTime tx).vtx, tx'.CheckTransaction = true ∧
      (tx'.nTime : ℤ) ≤ (stakeBlock p nTime tx).GetBlockTime := by
    intro tx' htx'
    simp only [stakeBlock, List.mem_cons, List.not_mem_nil, or_false] at htx'
    rcases htx' with rfl | rfl
    · refine ⟨hchecked, ?_⟩
      simp only [coinbase, CBlock.GetBlockTime, stakeBlock]
      omega
    · refine ⟨h.checked, ?_⟩
      simp only [h.time, CBlock.GetBlockTime, stakeBlock]
      omega
  have hlength : (stakeBlock p nTime tx).vtx.length ≤ MAX_BLOCK_SIZE :=
    show 2 ≤ MAX_BLOCK_SIZE by decide
  have hall : ((stakeBlock p nTime tx).vtx.all fun tx' =>
      tx'.CheckTransaction && (tx'.nTime : ℤ) ≤ (stakeBlock p nTime tx).GetBlockTime) = true := by
    rw [List.all_eq_true]
    intro tx' htx'
    rw [Bool.and_eq_true, decide_eq_true_eq]
    exact htimes tx' htx'
  have htail : (stakeBlock p nTime tx).vtx.tail = [tx] := rfl
  have hhead : (stakeBlock p nTime tx).vtx.head? =
      some (coinbase (p.nHeight + 1) (nTime - 1) 1 [⟨0, []⟩]) := rfl
  have hrest : (stakeBlock p nTime tx).vtx.drop 2 = [] := rfl
  have hsome : (stakeBlock p nTime tx).vtx.isEmpty = false := rfl
  have hfirst : ((coinbase (p.nHeight + 1) (nTime - 1) 1 [⟨0, []⟩]).vout.length == 1 &&
      (coinbase (p.nHeight + 1) (nTime - 1) 1 [⟨0, []⟩]).vout.all CTxOut.IsEmpty) = true := rfl
  simp only [CBlock.CheckBlock, hsome, hlength, hblock, hwork, hhead, Option.map_some,
    Option.getD_some, hcb, hfirst, htail, List.all_cons, List.all_nil,
    isCoinBase_of_isCoinStake h.coinStake, hstake, hrest, hsign, hall, hhashes, hsigops, hroot]
  simp

/-! ## Connecting a staked block -/

/-- The coinbase of a staked block on `p`. -/
def stakeCoinbase (p : CBlockIndex) (nTime : ℕ) : CTransaction :=
  coinbase (p.nHeight + 1) (nTime - 1) 1 [⟨0, []⟩]

theorem stakeCoinbase_checks (p : CBlockIndex) (nTime : ℕ) :
    (stakeCoinbase p nTime).IsCoinBase = true ∧ (stakeCoinbase p nTime).GetSerializeSize ≤ 1000 ∧
      (stakeCoinbase p nTime).CheckTransaction = true ∧
      (stakeCoinbase p nTime).GetLegacySigOpCount ≤ 5000 ∧
      (stakeCoinbase p nTime).GetValueOut = .ok 0 :=
  coinbase_checks (p.nHeight + 1) (nTime - 1) (show MoneyRange (⟨0, []⟩ : CTxOut).nValue = true
    from rfl) (by simp)

def coinbasePos (pindex : CBlockIndex) : CDiskTxPos :=
  ⟨pindex.nFile, pindex.nBlockPos, firstTxPos pindex.nBlockPos 2⟩

def coinStakePos (pindex p : CBlockIndex) (nTime : ℕ) : CDiskTxPos :=
  ⟨pindex.nFile, pindex.nBlockPos,
    firstTxPos pindex.nBlockPos 2 + (stakeCoinbase p nTime).GetSerializeSize⟩

theorem positions_stakeBlock (pindex p : CBlockIndex) (nTime : ℕ) (tx : CTransaction) :
    (stakeBlock p nTime tx).positions pindex =
      [(coinbasePos pindex, stakeCoinbase p nTime), (coinStakePos pindex p nTime, tx)] := rfl

def afterCoinbase (T : TxIndexMap) (pindex : CBlockIndex) (nTime : ℕ) : TxIndexMap :=
  Function.update T (nTime - 1) (some (.new (coinbasePos pindex) 1))

/-- The index behind a staked block. -/
def afterStake (T : TxIndexMap) (pindex p : CBlockIndex) (nTime nOutputs : ℕ) (txin : CTxIn)
    (e : CTxIndex) : TxIndexMap :=
  Function.update
    (Function.update (afterCoinbase T pindex nTime) txin.prevout.hash
      (some (e.spend txin.prevout.n (coinStakePos pindex p nTime))))
    nTime (some (.new (coinStakePos pindex p nTime) nOutputs))

/-- The recorded amounts behind a staked block that creates `nMint` more than it spends. -/
def mintStake (g : Globals) (pindex p : CBlockIndex) (nMint : ℤ) : Globals :=
  { g with
    nMint := Function.update g.nMint pindex nMint
    nMoneySupply := Function.update g.nMoneySupply pindex (int64 (g.nMoneySupply p + nMint)) }

theorem StakeTx.connectBlock {view : View} {T : TxIndexMap} {g : Globals}
    {pindex p : CBlockIndex} {nTime : ℕ} {tx : CTransaction} {txin : CTxIn} {e : CTxIndex}
    {txPrev : CTransaction} {txout : CTxOut} {nValueOut : ℤ} (h : StakeTx nTime tx)
    (hpos : 0 < nTime) (hparent : CBlockIndex.pprev pindex = some p)
    (hV3 : (timed testNet).V3 p.nHeight = true)
    (hV3' : (timed testNet).V3 pindex.nHeight = true)
    (hspends : SpendsOne (timed testNet) view (afterCoinbase T pindex nTime) pindex
      (scriptFlags (timed testNet) pindex.nHeight) tx txin e txPrev txout)
    (hout : tx.GetValueOut = .ok nValueOut)
    (hread : CTransaction.ReadFromDisk view.files T txin.prevout = some (e, txPrev))
    (hnew : overwritesUnspent T (nTime - 1) = false) (hnew' : overwritesUnspent T nTime = false)
    (hreward : int64 (nValueOut - txout.nValue) ≤ 150000000)
    (hfits : Fits64 nValueOut) :
    (stakeBlock p nTime tx).ConnectBlock (timed testNet) view T g pindex =
      .ok (afterStake T pindex p nTime tx.vout.length txin e,
        mintStake g pindex p (int64 (nValueOut - txout.nValue))) := by
  obtain ⟨hcb, -, -, hsig, hzero⟩ := stakeCoinbase_checks p nTime
  have hmax : 20000 ≤ MAX_BLOCK_SIGOPS := by decide
  have htxsig := h.sigOps
  have hhash : (stakeCoinbase p nTime).GetHash (timed testNet) = nTime - 1 := rfl
  have hhash' : tx.GetHash (timed testNet) = nTime := h.time
  have hqueued : writeQueued T (Function.update (fun _ => none) (nTime - 1)
      (some (.new (coinbasePos pindex) 1))) = afterCoinbase T pindex nTime := by
    rw [writeQueued_update, writeQueued_none]
    rfl
  rw [← hqueued] at hspends
  have hfirst : connectTx (timed testNet) view T pindex (coinbasePos pindex) (fun _ => none) g
      ⟨0, 0, 0, 0, 0⟩ (stakeCoinbase p nTime) =
      .ok (Function.update (fun _ => none) (nTime - 1) (some (.new (coinbasePos pindex) 1)), g,
        ⟨0, 0, 0, 0, (stakeCoinbase p nTime).GetLegacySigOpCount⟩) := by
    rw [connectTx_coinbase hcb (hhash ▸ hnew) (by simp only; omega) hzero, hhash]
    simp only [zero_add]
    rfl
  have hround := connectTx_spendsOne
    (t := ⟨0, 0, 0, 0, (stakeCoinbase p nTime).GetLegacySigOpCount⟩) (g := g) hspends (hhash' ▸ hnew') (by simp only; omega) hout
      (hspends.connect_coinStake h.coinStake g (coinStakePos pindex p nTime))
  have hadd : (⟨0, 0, 0, 0, (stakeCoinbase p nTime).GetLegacySigOpCount +
      tx.GetLegacySigOpCount⟩ : Tally).add (timed testNet) pindex.nHeight tx txout.nValue
        nValueOut = ⟨0, int64 txout.nValue, nValueOut, int64 (nValueOut - txout.nValue),
          (stakeCoinbase p nTime).GetLegacySigOpCount + tx.GetLegacySigOpCount⟩ := by
    have hdrift : (timed testNet).lessDriftBuffer nValueOut = nValueOut := rfl
    simp only [Tally.add, h.coinStake, hdrift, ite_self, if_true, zero_add, hfits.int64_eq]
  have hcheckReward : checkReward (timed testNet) view T pindex (stakeBlock p nTime tx)
      ⟨0, int64 txout.nValue, nValueOut, int64 (nValueOut - txout.nValue),
        (stakeCoinbase p nTime).GetLegacySigOpCount + tx.GetLegacySigOpCount⟩ = .ok () := by
    have htime : ¬ tx.nTime < txPrev.nTime := Nat.not_lt.mpr hspends.time
    have hage : tx.GetCoinAge (timed testNet) view.files T p = some 0 := by
      have hone : coinAgeOf (timed testNet) view.files T p tx.nTime txin = some 0 := by
        simp only [coinAgeOf, hread, if_neg htime, hV3, if_true]
      simp only [CTransaction.GetCoinAge, hspends.isCoinBase, Bool.false_eq_true, if_false,
        hspends.vin, coinAgeFrom, hone, Option.map_some]
      rfl
    have hstake : (stakeBlock p nTime tx).IsProofOfStake = true := h.coinStake
    have hsecond : (stakeBlock p nTime tx).vtx[1]? = some tx := rfl
    have hsubsidy : GetProofOfStakeReward (timed testNet) 0 0 pindex.nHeight = 150000000 := by
      rw [GetProofOfStakeReward_V3 hV3' ⟨le_rfl, by decide⟩, add_zero]
    simp only [checkReward, hstake, if_true, hsecond, hparent, hage, hsubsidy, require,
      if_pos hreward]
  have hloop : connectLoop (timed testNet) view T pindex
      ((stakeBlock p nTime tx).positions pindex) (fun _ => none) g ⟨0, 0, 0, 0, 0⟩ = .ok
        (Function.update (Function.update (Function.update (fun _ => none) (nTime - 1)
          (some (.new (coinbasePos pindex) 1))) txin.prevout.hash
            (some (e.spend txin.prevout.n (coinStakePos pindex p nTime)))) nTime
              (some (.new (coinStakePos pindex p nTime) tx.vout.length)), g,
          ⟨0, int64 txout.nValue, nValueOut, int64 (nValueOut - txout.nValue),
            (stakeCoinbase p nTime).GetLegacySigOpCount + tx.GetLegacySigOpCount⟩) := by
    rw [hhash', hadd] at hround
    simp only [positions_stakeBlock, connectLoop, hfirst, hround, bind, Except.bind]
  have hwritten : writeQueued T (Function.update (Function.update (Function.update (fun _ => none)
      (nTime - 1) (some (.new (coinbasePos pindex) 1))) txin.prevout.hash
        (some (e.spend txin.prevout.n (coinStakePos pindex p nTime)))) nTime
          (some (.new (coinStakePos pindex p nTime) tx.vout.length))) =
      afterStake T pindex p nTime tx.vout.length txin e := by
    rw [writeQueued_update, writeQueued_update, hqueued]
    rfl
  have hmint : int64 (nValueOut - int64 txout.nValue + 0) = int64 (nValueOut - txout.nValue) := by
    simp
  have hsupply : int64 (g.nMoneySupply p + nValueOut - int64 txout.nValue) =
      int64 (g.nMoneySupply p + int64 (nValueOut - txout.nValue)) := by
    rw [int64_sub_int64, int64_add_int64, add_sub_assoc]
  simp only [CBlock.ConnectBlock, require, h.checkBlock hpos, if_true, hloop, hcheckReward,
    Exec.within, hparent, Option.map_some, Option.getD_some, hwritten, hmint, hsupply, bind,
    Except.bind]
  rfl

/-! ## Accepting a staked block -/

theorem visible_io (files : BlockFile) : io.visible files = files := rfl

theorem futureDrift_ge (nTime nHeight : ℤ) : nTime + 15 ≤ FutureDrift nTime nHeight := by
  unfold FutureDrift
  split
  · exact le_rfl
  · omega

/-- The output is old enough, and every kernel hash is below the target. -/
theorem CheckProofOfStake_spends {nBits : ℕ}
    (h : SpendsOne (timed testNet) (node.view io) node.txdb.txindex pindex 0 tx txin e txPrev txout)
    (htx : node.files.readTx e.pos = some txPrev) (hcs : tx.IsCoinStake = true)
    (hV3 : (timed testNet).V3 node.nBestHeight = true)
    (hblock : (node.files.blocks (e.pos.nFile, e.pos.nBlockPos)).isSome = true)
    (hdeep : p.depthOf e.pos.nFile e.pos.nBlockPos 9 0 = none) (hbits : 0 ≤ SetCompact nBits) :
    CheckProofOfStake (timed testNet) node.files node p tx nBits = true := by
  have hrange := (moneyRange_iff _).mp h.range
  have hread : CTransaction.ReadFromDisk node.files node.txdb.txindex txin.prevout =
      some (e, txPrev) := h.readFromDisk htx
  have hmin : minBase e p ((timed testNet).nStakeMinConfirmations - 1) = true := by
    unfold minBase
    exact Option.isNone_iff_eq_none.mpr hdeep
  have hkernel : ∀ (blockFrom : CBlock) (nTxPrevOffset : ℕ),
      CheckStakeKernelHash (timed testNet) node p nBits blockFrom nTxPrevOffset txPrev txout
        txin.prevout tx.nTime = true := by
    intro blockFrom nTxPrevOffset
    have htime : ¬ tx.nTime < txPrev.nTime := Nat.not_lt.mpr h.time
    have hzero : (timed testNet).kernelHash p.label.nStakeModifier blockFrom.nTime txPrev.nTime
        txin.prevout tx.nTime = 0 := rfl
    have hle : ((0 : ℕ) : ℤ) ≤ SetCompact nBits * txout.nValue := mul_nonneg hbits hrange.1
    simp only [CheckStakeKernelHash, hV3, Bool.true_or, if_true, CheckStakeKernelHashV2,
      if_neg htime, hzero, decide_eq_true hle]
  obtain ⟨block, hblock⟩ := Option.isSome_iff_exists.mp hblock
  simp only [CheckProofOfStake, hcs, h.vin, hread, h.verifySignature, hblock, h.output, hV3, hmin,
    hkernel]
  rfl

theorem acceptFees_stake {view : View} {T : TxIndexMap} (h : StakeTx nTime tx)
    (hspends : SpendsOne (timed testNet) view T pindex flags tx txin e txPrev txout)
    (hout : tx.GetValueOut = .ok nValueOut) :
    acceptFees view T (stakeBlock p nTime tx).vtx 0 = .ok 0 := by
  have hcb := (stakeCoinbase_checks p nTime).1
  have hvtx : (stakeBlock p nTime tx).vtx = [stakeCoinbase p nTime, tx] := rfl
  rw [← writeQueued_none T] at hspends
  simp only [hvtx, acceptFees, hcb, if_true, hspends.isCoinBase, Bool.false_eq_true, if_false,
    hspends.fetchInputs true false rfl, hspends.getValueIn, hout, h.coinStake, bind, Except.bind]

/-- A block on `p` with the coinbase of a staked block meets what is asked of its times, when its
target and its kernel have been checked. -/
theorem acceptBlockChecks_timed {block : CBlock} {txs : List CTransaction}
    (hvtx : block.vtx = stakeCoinbase p nTime :: txs) (hblockTime : block.nTime = nTime)
    (hnVersion : block.nVersion = 7)
    (hpow : ¬(block.IsProofOfWork = true ∧ LAST_POW_BLOCK < GetPowHeight p + 1))
    (hstamp : block.IsProofOfStake = true → (block.vtx[1]?.map fun tx =>
      CheckCoinStakeTimestamp (p.nHeight + 1 : ℕ) block.nTime tx.nTime) = some true)
    (htarget : checkTarget (timed testNet) io node p block = .ok ())
    (hkernel : checkKernel (timed testNet) io node p block = .ok ())
    (hlock : ∀ tx ∈ block.vtx, tx.nLockTime = 0)
    (hrising : ∀ x ∈ Lineage.line p, x.label.nTime ≤ p.label.nTime) (hlater : p.label.nTime < nTime)
    (hclock : nTime ≤ 10 ^ 8) :
    Dions.acceptBlockChecks (timed testNet) io node p block = .ok () := by
  have hversion : ¬(IsProtocolV2 (p.nHeight + 1 : ℕ) = true ∧ block.nVersion < 7) := by
    rw [hnVersion]
    exact fun hlow => absurd hlow.2 (lt_irrefl 7)
  have hnet : ¬((timed testNet).fTestNet = false ∧ IsProtocolV2 (p.nHeight + 1 : ℕ) = false ∧
      6 < block.nVersion) := fun hmain => absurd hmain.1 (by decide)
  have htime : block.GetBlockTime = nTime := congrArg Nat.cast hblockTime
  have hfuture : block.GetBlockTime ≤ FutureDrift io.nAdjustedTime (p.nHeight + 1 : ℕ) := by
    have hdrift := futureDrift_ge io.nAdjustedTime (p.nHeight + 1 : ℕ)
    have hnow : io.nAdjustedTime = 10 ^ 8 := rfl
    rw [htime]
    omega
  have hcoinbase : block.GetBlockTime ≤
      FutureDrift (stakeCoinbase p nTime).nTime (p.nHeight + 1 : ℕ) := by
    have hdrift := futureDrift_ge (stakeCoinbase p nTime).nTime (p.nHeight + 1 : ℕ)
    have hone : (stakeCoinbase p nTime).nTime = nTime - 1 := rfl
    rw [htime]
    omega
  have hpast : p.GetPastTimeLimit < block.GetBlockTime ∧
      p.GetBlockTime ≤ FutureDrift block.GetBlockTime (p.nHeight + 1 : ℕ) := by
    have hlimit := pastTimeLimit_le hrising
    have hdrift := futureDrift_ge block.GetBlockTime (p.nHeight + 1 : ℕ)
    have hprev : p.GetBlockTime = p.label.nTime := rfl
    rw [htime] at hdrift ⊢
    constructor
    · omega
    · omega
  have hfinal : ∀ tx ∈ block.vtx, IsFinalTx node.nBestHeight io.nAdjustedTime tx
      (p.nHeight + 1 : ℕ) block.GetBlockTime = true := by
    intro tx htx
    simp only [IsFinalTx, hlock tx htx, if_true]
  have hhardened : (timed testNet).CheckHardened (p.nHeight + 1)
      (block.GetHash (timed testNet)) = true := by
    have hlookup : (timed testNet).mapCheckpoints.lookup (p.nHeight + 1) = none := by
      have hcheckpoints : (timed testNet).mapCheckpoints = [(0, testNet.hashGenesisBlock)] := rfl
      rw [hcheckpoints, List.lookup_cons]
      simp
    simp only [ChainParams.CheckHardened, hlookup]
  have hprefix : (pushHeight (p.nHeight + 1)).isPrefixOf (pushHeight (p.nHeight + 1) ++ [0, 0]) =
      true := List.isPrefixOf_iff_prefix.mpr (List.prefix_append _ _)
  have hfirst : access block.vtx 0 = .ok (stakeCoinbase p nTime) := by
    rw [hvtx]
    rfl
  have hcoinbaseIn : access (stakeCoinbase p nTime).vin 0 =
      .ok ⟨COutPoint.null, pushHeight (p.nHeight + 1) ++ [0, 0], UINT_MAX⟩ := rfl
  simp only [Dions.acceptBlockChecks, seq_ok, require_eq_ok]
  exact ⟨_, hfirst, (), hversion, (), hnet, (), hpow, (), hfuture, (), hcoinbase, (), hstamp, (),
    htarget, (), hpast, (), hfinal, (), hhardened, (), hkernel, (), rfl, _, hcoinbaseIn, (),
    hprefix, rfl⟩

theorem StakeTx.checkTarget (h : StakeTx nTime tx)
    (hspends : SpendsOne (timed testNet) (node.view io) node.txdb.txindex pindex flags tx txin e
      txPrev txout) (hout : tx.GetValueOut = .ok nValueOut) :
    Dions.checkTarget (timed testNet) io node p (stakeBlock p nTime tx) = .ok () := by
  have hnBits : (stakeBlock p nTime tx).nBits =
      GetNextTargetRequired (timed testNet) p (stakeBlock p nTime tx).IsProofOfStake 0 := by
    have hstake : (stakeBlock p nTime tx).IsProofOfStake = true := h.coinStake
    rw [hstake]
    rfl
  simp only [Dions.checkTarget, acceptFees_stake h hspends hout, require, if_pos hnBits, bind,
    Except.bind]

theorem StakeTx.checkKernel (h : StakeTx nTime tx)
    (hspends : SpendsOne (timed testNet) (node.view io) node.txdb.txindex pindex 0 tx txin e txPrev
      txout) (htx : node.files.readTx e.pos = some txPrev)
    (hV3 : (timed testNet).V3 node.nBestHeight = true)
    (hblock : (node.files.blocks (e.pos.nFile, e.pos.nBlockPos)).isSome = true)
    (hdeep : p.depthOf e.pos.nFile e.pos.nBlockPos 9 0 = none)
    (hbits : 0 ≤ SetCompact (GetNextTargetRequired (timed testNet) p true 0)) :
    Dions.checkKernel (timed testNet) io node p (stakeBlock p nTime tx) = .ok () := by
  have hstake : (stakeBlock p nTime tx).IsProofOfStake = true := h.coinStake
  have hsecond : (stakeBlock p nTime tx).vtx[1]? = some tx := rfl
  have hproof : CheckProofOfStake (timed testNet) node.files node p tx
      (stakeBlock p nTime tx).nBits = true :=
    CheckProofOfStake_spends hspends htx h.coinStake hV3 hblock hdeep hbits
  simp only [Dions.checkKernel, hstake, if_true, hsecond, require, visible_io, hproof]

theorem StakeTx.acceptBlockChecks (h : StakeTx nTime tx)
    (hspends : SpendsOne (timed testNet) (node.view io) node.txdb.txindex pindex 0 tx txin e txPrev
      txout) (htx : node.files.readTx e.pos = some txPrev) (hout : tx.GetValueOut = .ok nValueOut)
    (hV3 : (timed testNet).V3 node.nBestHeight = true)
    (hblock : (node.files.blocks (e.pos.nFile, e.pos.nBlockPos)).isSome = true)
    (hdeep : p.depthOf e.pos.nFile e.pos.nBlockPos 9 0 = none)
    (hbits : 0 ≤ SetCompact (GetNextTargetRequired (timed testNet) p true 0))
    (hrising : ∀ x ∈ Lineage.line p, x.label.nTime ≤ p.label.nTime) (hlater : p.label.nTime < nTime)
    (hclock : nTime ≤ 10 ^ 8) (hmasked : nTime % 16 = 0) :
    Dions.acceptBlockChecks (timed testNet) io node p (stakeBlock p nTime tx) = .ok () := by
  have hstake : (stakeBlock p nTime tx).IsProofOfStake = true := h.coinStake
  have hwork : (stakeBlock p nTime tx).IsProofOfWork = false := by
    simp [CBlock.IsProofOfWork, hstake]
  have hsecond : (stakeBlock p nTime tx).vtx[1]? = some tx := rfl
  have hpow : ¬((stakeBlock p nTime tx).IsProofOfWork = true ∧
      LAST_POW_BLOCK < GetPowHeight p + 1) := by
    simp [hwork]
  have hstamp : (stakeBlock p nTime tx).IsProofOfStake = true →
      ((stakeBlock p nTime tx).vtx[1]?.map fun tx => CheckCoinStakeTimestamp (p.nHeight + 1 : ℕ)
        (stakeBlock p nTime tx).nTime tx.nTime) = some true := by
    intro _
    have hand : nTime &&& STAKE_TIMESTAMP_MASK = 0 := by
      have hmod := Nat.and_two_pow_sub_one_eq_mod nTime 4
      have hmask : STAKE_TIMESTAMP_MASK = 2 ^ 4 - 1 := rfl
      rw [hmask, hmod]
      exact hmasked
    have hsame : (stakeBlock p nTime tx).nTime = nTime := rfl
    simp only [hsecond, Option.map_some, hsame, h.time, CheckCoinStakeTimestamp, hand]
    simp
  have hlock : ∀ tx' ∈ (stakeBlock p nTime tx).vtx, tx'.nLockTime = 0 := by
    intro tx' htx'
    simp only [stakeBlock, List.mem_cons, List.not_mem_nil, or_false] at htx'
    rcases htx' with rfl | rfl
    · rfl
    · exact h.final
  exact acceptBlockChecks_timed rfl rfl rfl hpow hstamp (h.checkTarget hspends hout)
    (h.checkKernel hspends htx hV3 hblock hdeep hbits) hlock hrising hlater hclock

end Scenario

end Dions
