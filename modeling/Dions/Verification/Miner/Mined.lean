import Dions.Verification.Chain.Staking
import Dions.Verification.Miner.Packing
import Dions.Verification.Script.SigOps
import Dions.Verification.Wallet.CoinStake

/-! # What becomes of a mined block

A block of `CreateNewBlock` gets its coinbase script from `IncrementExtraNonce`, and its nonce and
time from whoever searches for the proof of work. Its own node then accepts it, as far as that is in
the hands of the miner. -/

namespace Dions

open Halting LittleEndian

variable {pindexPrev : CBlockIndex}
variable {env : Env} {pool : CTxMemPool} {tx : CTransaction} {nFees : ℤ}

/-! ## Signature operations of the coinbase -/

section Scan

variable {script a rest : CScript} {fAccurate : Bool} {fuel pc lastOpcode n : ℕ}

theorem sigOpLoop_end (hdrop : script.drop pc = []) :
    sigOpLoop script fAccurate fuel pc lastOpcode n = n := by
  cases fuel with
  | zero => rfl
  | succ fuel =>
    have hfail : (script.GetOp2 pc).ret = false := by
      rw [CScript.GetOp2, hdrop]
      rfl
    rw [sigOpLoop_succ, hfail]
    rfl

/-- An instruction that is no check of a signature adds nothing. -/
theorem sigOpLoop_other {r : GetOpRet} (hread : script.GetOp2 pc = r) (hret : r.ret = true)
    (hop : instructionSigOps fAccurate lastOpcode r.opcodeRet = 0) :
    sigOpLoop script fAccurate (fuel + 1) pc lastOpcode n =
      sigOpLoop script fAccurate fuel r.pc r.opcodeRet n := by
  rw [sigOpLoop_succ, hread, if_pos hret, hop, Nat.add_zero]

theorem instructionSigOps_push {opcode : ℕ} (h : opcode ≤ OP_16) :
    instructionSigOps fAccurate lastOpcode opcode = 0 := by
  simp only [OP_16] at h
  rw [instructionSigOps, if_neg, if_neg]
  · simp only [OP_CHECKMULTISIG, OP_CHECKMULTISIGVERIFY]
    omega
  · simp only [OP_CHECKSIG, OP_CHECKSIGVERIFY]
    omega

theorem sigOpLoop_pushVch (fAccurate : Bool) (fuel lastOpcode n : ℕ)
    (hsize : a.length + rest.length < 2 ^ 32) (hdrop : script.drop pc = pushVch a ++ rest) :
    ∃ opcode, sigOpLoop script fAccurate (fuel + 1) pc lastOpcode n =
      sigOpLoop script fAccurate fuel (pc + (pushVch a).length) opcode n := by
  have hcounted : Counted a.length rest.length := by
    unfold Counted
    rw [Nat.mod_eq_of_lt hsize]
    omega
  obtain ⟨opcode, hop, hread⟩ := (GetOp2_pushVch (by omega) hdrop).1 hcounted
  have hpush : opcode ≤ OP_16 := hop.trans (by decide)
  exact ⟨opcode, sigOpLoop_other hread rfl (instructionSigOps_push hpush)⟩

theorem pushVch_short (h : a.length < 0x4c) : pushVch a = a.length.toUInt8 :: a := by
  unfold pushVch
  rw [if_pos (by simpa [OP_PUSHDATA1] using h)]

theorem sigOps_pushVch (hsize : a.length < 2 ^ 32) (hfuel : 0 < fuel)
    (hdrop : script.drop pc = pushVch a) :
    sigOpLoop script fAccurate fuel pc lastOpcode n = n := by
  obtain ⟨fuel, rfl⟩ : ∃ k, fuel = k + 1 := ⟨fuel - 1, by omega⟩
  obtain ⟨opcode, hloop⟩ := sigOpLoop_pushVch fAccurate fuel lastOpcode n
    (by simpa using hsize : a.length + ([] : CScript).length < 2 ^ 32)
      (by rw [hdrop, List.append_nil])
  rw [hloop]
  apply sigOpLoop_end
  rw [← List.drop_drop, hdrop, List.drop_length]

end Scan

theorem coinbaseScript_eq (nHeight nExtraNonce : ℕ) :
    coinbaseScript nHeight nExtraNonce =
      pushHeight nHeight ++ pushVch (scriptNum 8 nExtraNonce) := by
  have hshort := length_scriptNum_le 8 nExtraNonce
  rw [coinbaseScript, COINBASE_FLAGS, List.append_nil, pushVch_short (by omega)]

theorem length_coinbaseScript (nHeight nExtraNonce : ℕ) :
    2 ≤ (coinbaseScript nHeight nExtraNonce).length ∧
      (coinbaseScript nHeight nExtraNonce).length ≤ 20 := by
  have hheight := length_pushHeight_le nHeight
  have hnonce := length_scriptNum_le 8 nExtraNonce
  have hpos : 1 ≤ (pushHeight nHeight).length := by
    unfold pushHeight
    split
    · exact le_rfl
    · rw [List.length_cons]
      omega
  have hshort : (pushVch (scriptNum 8 nExtraNonce)).length =
      (scriptNum 8 nExtraNonce).length + 1 := by
    rw [pushVch_short (by omega), List.length_cons]
  rw [coinbaseScript_eq, List.length_append, hshort]
  omega

theorem coinbaseScript_sigOps (nHeight nExtraNonce : ℕ) :
    (coinbaseScript nHeight nExtraNonce).GetSigOpCount false = 0 := by
  have hlength := length_coinbaseScript nHeight nExtraNonce
  have hnonce := length_scriptNum_le 8 nExtraNonce
  unfold CScript.GetSigOpCount
  obtain ⟨fuel, hfuel⟩ : ∃ k, (coinbaseScript nHeight nExtraNonce).length = k + 1 + 1 :=
    ⟨(coinbaseScript nHeight nExtraNonce).length - 2, by omega⟩
  rw [hfuel]
  rw [coinbaseScript_eq]
  unfold pushHeight
  split
  · rename_i hsmall
    have hbyte : (OP_1 - 1 + nHeight).toUInt8.toNat = OP_1 - 1 + nHeight := by
      apply toNat_toUInt8
      simp only [OP_1]
      omega
    rw [sigOpLoop_other (GetOp2_op (by rw [List.drop_zero]; rfl)
      (by rw [hbyte]; simp only [OP_1, OP_PUSHDATA4]; omega)) rfl
      (instructionSigOps_push (by rw [hbyte]; simp only [OP_1, OP_16]; omega))]
    exact sigOps_pushVch (by omega) (Nat.succ_pos _) rfl
  · have hheight := length_scriptNum_le 8 nHeight
    rw [← pushVch_short (by omega)]
    have hshort : (pushVch (scriptNum 8 nExtraNonce)).length =
        (scriptNum 8 nExtraNonce).length + 1 := by
      rw [pushVch_short (by omega), List.length_cons]
    have hsize :
        (scriptNum 8 nHeight).length + (pushVch (scriptNum 8 nExtraNonce)).length < 2 ^ 32 := by
      omega
    obtain ⟨opcode, hloop⟩ :=
      sigOpLoop_pushVch false (fuel + 1) OP_INVALIDOPCODE 0 hsize List.drop_zero
    rw [hloop, Nat.zero_add]
    have hnonce' : (scriptNum 8 nExtraNonce).length < 2 ^ 32 := by omega
    exact sigOps_pushVch hnonce' (Nat.succ_pos _) List.drop_left

theorem keyScript_sigOps {hash160 : valtype} (h : hash160.length = 20) :
    (SetBitcoinAddress hash160).GetSigOpCount false = 1 := by
  have hpush : pushVch hash160 = (20 : ℕ).toUInt8 :: hash160 := by
    rw [pushVch_short (by omega), h]
  have hlength : (SetBitcoinAddress hash160).length = 25 := by
    simp [SetBitcoinAddress, hpush, h]
  unfold CScript.GetSigOpCount
  rw [hlength]
  have hfirst : (SetBitcoinAddress hash160).GetOp2 0 = ⟨true, 0x76, [], 1⟩ := rfl
  have hsecond : (SetBitcoinAddress hash160).GetOp2 1 = ⟨true, 0xa9, [], 2⟩ := rfl
  have hrest : (SetBitcoinAddress hash160).drop 2 =
    pushVch hash160 ++ [OP_EQUALVERIFY.toUInt8, OP_CHECKSIG.toUInt8] := rfl
  have hdrop : (SetBitcoinAddress hash160).drop 23 =
      [OP_EQUALVERIFY.toUInt8, OP_CHECKSIG.toUInt8] := by
    have h23 : 23 = 2 + (pushVch hash160).length := by rw [hpush, List.length_cons, h]
    rw [h23, ← List.drop_drop, hrest, List.drop_left]
  have hfourth : (SetBitcoinAddress hash160).GetOp2 23 = ⟨true, 0x88, [], 24⟩ :=
      GetOp2_op hdrop (by decide)
  have hfifth : (SetBitcoinAddress hash160).GetOp2 24 = ⟨true, 0xac, [], 25⟩ := by
    have hdrop' : (SetBitcoinAddress hash160).drop 24 = [OP_CHECKSIG.toUInt8] := by
      rw [show 24 = 23 + 1 from rfl, ← List.drop_drop, hdrop]
      rfl
    exact GetOp2_op hdrop' (by decide)
  rw [sigOpLoop_other hfirst rfl rfl, sigOpLoop_other hsecond rfl rfl]
  obtain ⟨opcode, hloop⟩ := sigOpLoop_pushVch false 22 0xa9 0 (by rw [h]; decide) hrest
  rw [hloop, hpush, List.length_cons, h, sigOpLoop_other hfourth rfl rfl, sigOpLoop_succ, hfifth]
  exact sigOpLoop_end (by rw [List.drop_eq_nil_iff, hlength])

/-! ## What the pool holds -/

/-- Every transaction of the pool has been checked and stands under its hash, once. -/
structure CheckedPool (env : Env) (pool : CTxMemPool) : Prop where
  checked : ∀ e ∈ pool.mapTx, e.2.CheckTransaction = true
  named : ∀ e ∈ pool.mapTx, e.1 = e.2.GetHash env
  nodup : (pool.mapTx.map Prod.fst).Nodup

theorem CheckedPool.sublist {pool' : CTxMemPool} (h : CheckedPool env pool)
    (hsub : pool'.mapTx.Sublist pool.mapTx) : CheckedPool env pool' where
  checked e he := h.checked e (hsub.subset he)
  named e he := h.named e (hsub.subset he)
  nodup := h.nodup.sublist (hsub.map _)

theorem CheckedPool.addUnchecked (h : CheckedPool env pool) (hcheck : tx.CheckTransaction = true) :
      CheckedPool env (pool.addUnchecked (tx.GetHash env) tx) := by
  have hrest : ∀ e ∈ pool.mapTx.filter (·.1 ≠ tx.GetHash env), e ∈ pool.mapTx ∧
      e.1 ≠ tx.GetHash env := by
    intro e he
    simpa using List.mem_filter.mp he
  constructor
  · intro e he
    rcases List.mem_cons.mp he with rfl | he
    · exact hcheck
    · exact h.checked e (hrest e he).1
  · intro e he
    rcases List.mem_cons.mp he with rfl | he
    · rfl
    · exact h.named e (hrest e he).1
  · rw [CTxMemPool.addUnchecked, List.map_cons, List.nodup_cons]
    constructor
    · intro hmem
      obtain ⟨e, he, heq⟩ := List.mem_map.mp hmem
      exact (hrest e he).2 heq
    · exact h.nodup.sublist (List.filter_sublist.map _)

theorem removeConflict_keeps (tx : CTransaction) (s : PoolState) (txin : CTxIn) :
    Keeps s (removeConflict env tx s txin).final := by
  unfold removeConflict
  split
  · exact Keeps.refl _
  · split
    · exact Keeps.refl _
    · split
      · exact Keeps.refl _
      · exact removeTx_keeps true _ _ s

theorem PoolReaches.checked {S : Set CTransaction} (h : PoolReaches env S pool) :
    CheckedPool env pool := by
  induction h with
  | empty =>
    constructor
    · intro e he
      cases he
    · intro e he
      cases he
    · exact List.nodup_nil
  | accept io node tx _ _ ih =>
    rcases accept_mempool io node tx with heq | ⟨⟨g, hg⟩, heq⟩
    · rw [heq]
      exact ih
    · rw [heq]
      exact ih.addUnchecked (acceptChecks_ok io node tx g hg).1
  | remove pool g fRecursive tx _ _ ih =>
    exact ih.sublist (removeTx_keeps fRecursive _ tx (pool, g))
  | removeConflicts pool g tx _ _ ih =>
    exact ih.sublist
      (Halt.final_foldlM Keeps.refl Keeps.trans (removeConflict_keeps tx) tx.vin (pool, g))
  | clear pool _ _ =>
    constructor
    · intro e he
      cases he
    · intro e he
      cases he
    · exact List.nodup_nil

/-! ## The coinbase with its script -/

def minedCoinbase (nTime nHeight nExtraNonce : ℕ) (reserved : uint160) (nReward : ℤ) :
    CTransaction :=
  ⟨CTransaction.CURRENT_VERSION, nTime,
    [⟨COutPoint.null, coinbaseScript nHeight nExtraNonce, UINT_MAX⟩],
    [⟨nReward, CScript.SetDestination (.CKeyID reserved)⟩], 0, []⟩

section Coinbase

variable (nTime nHeight nExtraNonce : ℕ) (reserved : uint160) (nReward : ℤ)

theorem minedCoinbase_size :
    (minedCoinbase nTime nHeight nExtraNonce reserved nReward).GetSerializeSize ≤ 1000 - 90 := by
  have hscript := (length_coinbaseScript nHeight nExtraNonce).2
  have hout : (CScript.SetDestination (.CKeyID reserved)).length = 25 := by
    have hbytes := length_toBytes 20 reserved
    rw [CScript.SetDestination, SetBitcoinAddress, pushVch_short (by omega)]
    simp [hbytes]
  have hsizeIn : sizeOfBytes (coinbaseScript nHeight nExtraNonce) ≤ 29 := by
    unfold sizeOfBytes GetSizeOfCompactSize
    split <;> omega
  have hsizeOut : sizeOfBytes (CScript.SetDestination (.CKeyID reserved)) ≤ 34 := by
    unfold sizeOfBytes GetSizeOfCompactSize
    rw [hout]
    split <;> omega
  have hone : GetSizeOfCompactSize 1 = 1 := rfl
  have hinfo : ¬CTransaction.VERSION_WITH_INFO ≤
      (minedCoinbase nTime nHeight nExtraNonce reserved nReward).nVersion := by
    show ¬(3 : ℤ) ≤ 1
    decide
  unfold CTransaction.GetSerializeSize
  rw [if_neg hinfo]
  simp only [minedCoinbase, List.length_singleton, List.map_singleton, List.sum_singleton,
    CTxIn.GetSerializeSize, CTxOut.GetSerializeSize, hone]
  omega

theorem minedCoinbase_sigOps :
    (minedCoinbase nTime nHeight nExtraNonce reserved nReward).GetLegacySigOpCount = 1 := by
  simp only [CTransaction.GetLegacySigOpCount, minedCoinbase, List.map_singleton,
    List.sum_singleton,
    coinbaseScript_sigOps, CScript.SetDestination, keyScript_sigOps (length_toBytes 20 reserved)]

theorem minedCoinbase_checks :
    (minedCoinbase nTime nHeight nExtraNonce reserved nReward).CheckTransaction =
      MoneyRange nReward := by
  have hsize := minedCoinbase_size nTime nHeight nExtraNonce reserved nReward
  have hscript := length_coinbaseScript nHeight nExtraNonce
  have hlimit : (minedCoinbase nTime nHeight nExtraNonce reserved nReward).GetSerializeSize ≤
      MAX_BLOCK_SIZE := hsize.trans (by decide)
  have hcb : (minedCoinbase nTime nHeight nExtraNonce reserved nReward).IsCoinBase = true := rfl
  have houtputs : CTransaction.checkOutputs false
      [⟨nReward, CScript.SetDestination (.CKeyID reserved)⟩] 0 =
      MoneyRange nReward := by
    by_cases hrange : MoneyRange nReward = true
    · have hexact : int64 nReward = nReward := by
        have hbounds := (moneyRange_iff _).mp hrange
        apply Fits64.int64_eq
        constructor
        · omega
        · exact hbounds.2
      simp only [CTransaction.checkOutputs, zero_add, hexact, hrange, Bool.and_false,
        Bool.not_false,
        Bool.true_and, Bool.and_true]
      exact hrange
    · rw [Bool.not_eq_true] at hrange
      rw [hrange]
      simp only [CTransaction.checkOutputs, Bool.and_false, Bool.not_false, Bool.true_and,
        Bool.and_true]
      rw [Bool.and_eq_false_iff]
      exact .inl hrange
  have hempty : (minedCoinbase nTime nHeight nExtraNonce reserved nReward).CheckTransaction =
      (decide ((minedCoinbase nTime nHeight nExtraNonce reserved nReward).GetSerializeSize ≤
        MAX_BLOCK_SIZE) && CTransaction.checkOutputs false
          [⟨nReward, CScript.SetDestination (.CKeyID reserved)⟩] 0 &&
        (decide (2 ≤ (coinbaseScript nHeight nExtraNonce).length) &&
          decide ((coinbaseScript nHeight nExtraNonce).length ≤ 100))) := by
    rw [CTransaction.CheckTransaction, hcb, if_pos rfl]
    simp [minedCoinbase]
  rw [hempty, houtputs, decide_eq_true hlimit, decide_eq_true hscript.1, decide_eq_true (by omega)]
  simp

end Coinbase

/-! ## What the miner collects -/

theorem valueOutFrom_checked {userTx : Bool} {vout : List CTxOut} {nValueOut : ℤ}
    (h : CTransaction.checkOutputs userTx vout nValueOut = true) :
    ∃ v, CTransaction.valueOutFrom vout nValueOut = some v := by
  induction vout generalizing nValueOut with
  | nil => exact ⟨nValueOut, rfl⟩
  | cons txout vout ih =>
    simp only [CTransaction.checkOutputs, Bool.and_eq_true, decide_eq_true_eq] at h
    have hone : MoneyRange txout.nValue = true := by
      rw [MoneyRange]
      simp [h.1.1.1.2, h.1.1.2]
    have hsum := h.1.2
    obtain ⟨v, hv⟩ := ih h.2
    refine ⟨v, ?_⟩
    rw [CTransaction.valueOutFrom, hone, hsum]
    exact hv

theorem CheckTransaction.valueOut (h : tx.CheckTransaction = true) :
    ∃ v, tx.GetValueOut = .ok v := by
  simp only [CTransaction.CheckTransaction, Bool.and_eq_true] at h
  obtain ⟨v, hv⟩ := valueOutFrom_checked h.1.1.2
  exact ⟨v, by rw [CTransaction.GetValueOut, hv]⟩

theorem valueInFrom_inRange {inputs : MapPrevTx} {vin : List CTxIn} (nResult : ℤ)
    (h : ∀ txin ∈ vin, prevoutInRange inputs txin = true) :
    ∃ v, CTransaction.valueInFrom inputs vin nResult = .ok v := by
  induction vin generalizing nResult with
  | nil => exact ⟨nResult, rfl⟩
  | cons txin vin ih =>
    obtain ⟨e, txPrev, hin, hlt, -⟩ := prevoutInRange_iff.mp (h txin List.mem_cons_self)
    obtain ⟨v, hv⟩ := ih (int64 (nResult + txPrev.vout[txin.prevout.n].nValue))
      fun txin' hmem => h txin' (List.mem_cons_of_mem _ hmem)
    have hout : CTransaction.GetOutputFor txin inputs = .ok txPrev.vout[txin.prevout.n] := by
      rw [CTransaction.GetOutputFor, hin]
      simp only [List.getElem?_eq_getElem hlt]
    refine ⟨v, ?_⟩
    rw [CTransaction.valueInFrom, hout]
    exact hv

/-- The count of the fees raises nothing for transactions that have been checked. -/
theorem acceptFees_checked (view : View) (txdb : TxIndexMap) {vtx : List CTransaction} (nFees : ℤ)
    (h : ∀ tx ∈ vtx, tx.IsCoinBase = false → tx.CheckTransaction = true) :
    ∃ v, acceptFees view txdb vtx nFees = .ok v := by
  induction vtx generalizing nFees with
  | nil => exact ⟨nFees, rfl⟩
  | cons tx vtx ih =>
    have hrest := fun n => ih n fun tx' hmem => h tx' (List.mem_cons_of_mem _ hmem)
    rw [acceptFees]
    by_cases hcb : tx.IsCoinBase = true
    · rw [if_pos hcb]
      exact hrest nFees
    rw [if_neg hcb]
    rw [Bool.not_eq_true] at hcb
    split
    · exact hrest nFees
    · rename_i inputs hfetch
      obtain ⟨-, hrange⟩ := fetchInputs_ok hcb hfetch
      obtain ⟨nOut, hout⟩ := CheckTransaction.valueOut (h tx List.mem_cons_self hcb)
      obtain ⟨nIn, hin⟩ := valueInFrom_inRange 0 hrange
      have hvalueIn : tx.GetValueIn inputs = .ok nIn := by
        rw [CTransaction.GetValueIn, hcb]
        exact hin
      simp only [hvalueIn, hout, bind, Except.bind]
      exact hrest _

theorem IsFinalTx_later {nBestHeight nBestHeight' nAdjustedTime nAdjustedTime' nTime : ℤ}
    {nHeight : ℤ} (hheight : nHeight ≠ 0) (htime : nAdjustedTime ≤ nTime) (hpos : nTime ≠ 0)
    (h : IsFinalTx nBestHeight nAdjustedTime tx nHeight 0 = true) :
    IsFinalTx nBestHeight' nAdjustedTime' tx nHeight nTime = true := by
  unfold IsFinalTx at h ⊢
  simp only [hheight, hpos, if_false, if_true] at h ⊢
  split
  · rfl
  · rename_i hlock
    rw [if_neg hlock] at h
    by_cases hlow : (tx.nLockTime : ℤ) < LOCKTIME_THRESHOLD
    · simp only [hlow, if_true] at h ⊢
      exact h
    · simp only [hlow, if_false] at h ⊢
      split
      · rfl
      · rename_i hlate
        have hearly : ¬(tx.nLockTime : ℤ) < nAdjustedTime := by omega
        rwa [if_neg hearly] at h

section Collect

variable {env : Env} {F : Type} {args : MinerArgs} {io : Io} {node : Node}
  {pindexPrev : CBlockIndex} {fProofOfStake : Bool} {nCoinbaseTime : ℕ}
  [Add F] [Mul F] [Div F] [IntCast F] [LT F] [DecidableLT F] [BEq F]

/-- What is collected stands in the pool, as often as there. -/
theorem collect_subperm {heap : TxHeap F} {s : Collected F}
    (h : collect env heap args io node pindexPrev fProofOfStake nCoinbaseTime = .ok s) :
    List.Subperm s.vtx (node.mempool.mapTx.map Prod.snd) := by
  simp only [collect, seq_ok, within_eq_ok] at h
  obtain ⟨c, hgather, hloop⟩ := h
  have hstart : Gathered io node (⟨⟨[], fun _ => []⟩, []⟩ : TxQueue F) :=
    ⟨by simp, fun i porphan hat => by simp at hat⟩
  obtain ⟨hc, hperm⟩ := addCandidates_ok hstart hgather
  obtain ⟨turns, -, hvtx, hall, -⟩ := collectLoop_turns hc.collecting hloop
  have hfirst : c.txs.Perm
      (node.mempool.inOrder.filter (collectible io node (pindexPrev.nHeight + 1))) := by
    simpa [TxQueue.txs, Dependers.txs] using hperm
  rw [List.nil_append] at hvtx
  rw [hvtx]
  have htaken : List.Subperm (blockTxs turns) (turns.map Prod.fst ++ s.txs) :=
    ((blockTxs_sublist turns).trans (List.sublist_append_left _ _)).subperm
  have hordered : List.Subperm c.txs node.mempool.inOrder :=
    hfirst.subperm.trans List.filter_sublist.subperm
  exact (htaken.trans hall.subperm).trans (hordered.trans node.mempool.inOrder_perm.subperm)

theorem CheckedPool.subperm {vtx : List CTransaction} (hpool : CheckedPool env node.mempool)
    (h : List.Subperm vtx (node.mempool.mapTx.map Prod.snd)) :
    (∀ tx ∈ vtx, tx.CheckTransaction = true) ∧ (vtx.map (CTransaction.GetHash env)).Nodup := by
  have hkeys : (node.mempool.mapTx.map Prod.snd).map (CTransaction.GetHash env) =
      node.mempool.mapTx.map Prod.fst := by
    rw [List.map_map]
    exact List.map_congr_left fun e he => (hpool.named e he).symm
  constructor
  · intro tx htx
    obtain ⟨e, he, rfl⟩ := List.mem_map.mp (h.subset htx)
    exact hpool.checked e he
  · obtain ⟨l, hperm, hsub⟩ := h
    refine (hperm.map _).nodup_iff.mp ?_
    refine (hsub.map (CTransaction.GetHash env)).nodup ?_
    rw [hkeys]
    exact hpool.nodup

end Collect

/-! ## The block that is mined -/

/-- The clock and the times of the chain fit into 32 bits. -/
structure InTime (io : Io) (pindexPrev : CBlockIndex) : Prop where
  clock : 0 < io.nAdjustedTime ∧ io.nAdjustedTime < 2 ^ 32
  past : pindexPrev.GetPastTimeLimit + 1 < 2 ^ 32
  tip : pindexPrev.GetBlockTime < 2 ^ 32

theorem max_toUInt32 {a b : ℤ} (ha : 0 ≤ a ∧ a < 2 ^ 32) (hb : b < 2 ^ 32) :
    (toUInt32 (max a b) : ℤ) = max a b :=
  toUInt32_eq (le_max_of_le_left ha.1) (max_lt ha.2 hb)

/-- The time of a new block is behind those of its transactions and the limit of the chain. -/
theorem newBlockTime_bounds {io : Io} {vtx : List CTransaction} (h : InTime io pindexPrev)
    (hvtx : ∀ tx ∈ vtx, (tx.nTime : ℤ) ≤ io.nAdjustedTime) :
    io.nAdjustedTime ≤ newBlockTime io pindexPrev false vtx ∧
      pindexPrev.GetPastTimeLimit < newBlockTime io pindexPrev false vtx ∧
      PastDrift pindexPrev.GetBlockTime (pindexPrev.nHeight + 1) ≤
        newBlockTime io pindexPrev false vtx := by
  have hclock := h.clock
  have hpast := h.past
  have htip := h.tip
  have hdrift : PastDrift pindexPrev.GetBlockTime (pindexPrev.nHeight + 1) < 2 ^ 32 := by
    unfold PastDrift
    split
    · exact htip
    · omega
  generalize hM : (⟨0, 0, 0, 0, 0, 0, vtx, []⟩ : CBlock).GetMaxTransactionTime = M
  have hbounds : 0 ≤ M ∧ M < 2 ^ 32 := by
    have hle := (GetMaxTransactionTime_le_iff ⟨0, 0, 0, 0, 0, 0, vtx, []⟩ io.nAdjustedTime).mpr
      ⟨hclock.1.le, hvtx⟩
    have hnonneg := ((GetMaxTransactionTime_le_iff ⟨0, 0, 0, 0, 0, 0, vtx, []⟩ _).mp le_rfl).1
    rw [hM] at hle hnonneg
    exact ⟨hnonneg, by omega⟩
  have hfirst := max_toUInt32 hbounds hpast
  have hsecond := max_toUInt32 ⟨le_max_of_le_left hbounds.1, max_lt hbounds.2 hpast⟩ hdrift
  have hthird := max_toUInt32 ⟨le_max_of_le_left (le_max_of_le_left hbounds.1),
    max_lt (max_lt hbounds.2 hpast) hdrift⟩ hclock.2
  have htime : (newBlockTime io pindexPrev false vtx : ℤ) =
      max (max (max M (pindexPrev.GetPastTimeLimit + 1))
        (PastDrift pindexPrev.GetBlockTime (pindexPrev.nHeight + 1))) io.nAdjustedTime := by
    simp only [newBlockTime, hM, Bool.false_eq_true, if_false]
    rw [max_comm (pindexPrev.GetPastTimeLimit + 1) M, hfirst, hsecond, hthird]
  rw [htime]
  refine ⟨le_max_right _ _, ?_, ?_⟩
  · omega
  · omega

/-- The extra nonce changes the coinbase and the Merkle root only. -/
theorem IncrementExtraNonce_ok (env : Env) {block : CBlock} (pindexPrev : CBlockIndex) {nTime : ℕ}
    {reserved : uint160} {nReward : ℤ} {vtx : List CTransaction}
    (h : block.vtx = ⟨CTransaction.CURRENT_VERSION, nTime, [⟨COutPoint.null, [], UINT_MAX⟩],
      [⟨nReward, CScript.SetDestination (.CKeyID reserved)⟩], 0, []⟩ :: vtx) (n : ExtraNonce) :
    ∃ mined n' nExtraNonce, IncrementExtraNonce env block pindexPrev n = some (mined, n') ∧
      mined = { block with
        vtx := minedCoinbase nTime (pindexPrev.nHeight + 1) nExtraNonce reserved nReward :: vtx
        hashMerkleRoot := mined.hashMerkleRoot } ∧
      mined.hashMerkleRoot = mined.BuildMerkleTree env := by
  have hlength := (length_coinbaseScript (pindexPrev.nHeight + 1)
    (n.next block.hashPrevBlock).nExtraNonce).2
  have hshort : ¬100 < (coinbaseScript (pindexPrev.nHeight + 1)
      (n.next block.hashPrevBlock).nExtraNonce).length := by omega
  generalize hcoinbase : minedCoinbase nTime (pindexPrev.nHeight + 1)
    (n.next block.hashPrevBlock).nExtraNonce reserved nReward = coinbase
  have hincrement : IncrementExtraNonce env block pindexPrev n = some
      ({ block with
        vtx := coinbase :: vtx
        hashMerkleRoot := ({ block with vtx := coinbase :: vtx } : CBlock).BuildMerkleTree env },
        n.next block.hashPrevBlock) := by
    simp only [IncrementExtraNonce, h, if_neg hshort, ← hcoinbase]
    rfl
  refine ⟨_, _, (n.next block.hashPrevBlock).nExtraNonce, hincrement, ?_, rfl⟩
  rw [hcoinbase]

/-- A block behind a mined coinbase whose other transactions are ordinary ones of the pool, with
room for the header and the coinbase. -/
structure MinedBlock (env : Env) (coinbase : CTransaction) (vtx : List CTransaction)
    (block : CBlock) : Prop where
  holds : block.vtx = coinbase :: vtx
  merkle : block.hashMerkleRoot = block.BuildMerkleTree env
  unsigned : block.vchBlockSig = []
  checked : ∀ tx ∈ vtx, tx.CheckTransaction = true
  distinct : (vtx.map (CTransaction.GetHash env)).Nodup
  ordinary : ∀ tx ∈ vtx, tx.IsCoinBase = false ∧ tx.IsCoinStake = false
  size : 1000 + (vtx.map CTransaction.GetSerializeSize).sum ≤ MAX_BLOCK_SIZE
  sigOps : 1 + (vtx.map CTransaction.GetLegacySigOpCount).sum ≤ MAX_BLOCK_SIGOPS
  times : ∀ tx ∈ coinbase :: vtx, (tx.nTime : ℤ) ≤ block.GetBlockTime

section MinedBlock

variable {env : Env} {vtx : List CTransaction} {block : CBlock} {nTime nHeight nExtraNonce : ℕ}
  {reserved : uint160} {nReward : ℤ}

theorem MinedBlock.noStake {coinbase : CTransaction} (h : MinedBlock env coinbase vtx block) :
    block.IsProofOfStake = false := by
  rw [CBlock.IsProofOfStake, h.holds]
  cases hrest : vtx with
  | nil => rfl
  | cons tx rest => exact (h.ordinary tx (hrest ▸ List.mem_cons_self)).2

theorem MinedBlock.isProofOfWork {coinbase : CTransaction} (h : MinedBlock env coinbase vtx block) :
    block.IsProofOfWork = true := by
  rw [CBlock.IsProofOfWork, h.noStake]
  rfl

theorem MinedBlock.length_le {coinbase : CTransaction} (h : MinedBlock env coinbase vtx block) :
    block.vtx.length ≤ MAX_BLOCK_SIZE := by
  have hcount : vtx.length ≤ (vtx.map CTransaction.GetSerializeSize).sum := by
    clear h
    induction vtx with
    | nil => exact Nat.zero_le _
    | cons tx rest ih =>
      have hpos := tx.GetSerializeSize_pos
      rw [List.length_cons, List.map_cons, List.sum_cons]
      omega
  have hsize := h.size
  rw [h.holds, List.length_cons]
  omega

theorem MinedBlock.size_le
    (h : MinedBlock env (minedCoinbase nTime nHeight nExtraNonce reserved nReward) vtx block) :
    block.GetSerializeSize ≤ MAX_BLOCK_SIZE := by
  have hcoinbase := minedCoinbase_size nTime nHeight nExtraNonce reserved nReward
  have hcompact : GetSizeOfCompactSize (vtx.length + 1) ≤ 9 := by
    unfold GetSizeOfCompactSize
    split_ifs <;> omega
  have hempty : sizeOfBytes ([] : List UInt8) = 1 := rfl
  have hsize := h.size
  rw [CBlock.GetSerializeSize, h.holds, h.unsigned, hempty, List.length_cons, List.map_cons,
    List.sum_cons]
  omega

/-- A mined block passes the checks without context up to its proof of work, its reward and the
hash of its coinbase. -/
theorem MinedBlock.checkBlock_iff
    (h : MinedBlock env (minedCoinbase nTime nHeight nExtraNonce reserved nReward) vtx block) :
    block.CheckBlock env true true true = true ↔
      CheckProofOfWork env (block.GetPoWHash env) block.nBits = true ∧ MoneyRange nReward = true ∧
        ∀ tx ∈ vtx, tx.GetHash env ≠
          (minedCoinbase nTime nHeight nExtraNonce reserved nReward).GetHash env := by
  generalize hcoinbase : minedCoinbase nTime nHeight nExtraNonce reserved nReward = coinbase at h
  have hcheck : coinbase.CheckTransaction = MoneyRange nReward :=
    hcoinbase ▸ minedCoinbase_checks nTime nHeight nExtraNonce reserved nReward
  have hsigOps : coinbase.GetLegacySigOpCount = 1 :=
    hcoinbase ▸ minedCoinbase_sigOps nTime nHeight nExtraNonce reserved nReward
  have hcb : coinbase.IsCoinBase = true := hcoinbase ▸ rfl
  have hsize := MinedBlock.size_le (hcoinbase ▸ h)
  have hlength := h.length_le
  have hstake := h.noStake
  have hwork := h.isProofOfWork
  have htail : (vtx.all fun tx => !tx.IsCoinBase) = true := by
    rw [List.all_eq_true]
    intro tx htx
    rw [(h.ordinary tx htx).1]
    rfl
  have hchecks : ((coinbase :: vtx).all fun tx =>
      tx.CheckTransaction && decide ((tx.nTime : ℤ) ≤ block.GetBlockTime)) =
        MoneyRange nReward := by
    have hrest : (vtx.all fun tx =>
        tx.CheckTransaction && decide ((tx.nTime : ℤ) ≤ block.GetBlockTime)) = true := by
      rw [List.all_eq_true]
      intro tx htx
      rw [h.checked tx htx, decide_eq_true (h.times tx (List.mem_cons_of_mem _ htx))]
      rfl
    rw [List.all_cons, hrest, hcheck, decide_eq_true (h.times coinbase List.mem_cons_self),
      Bool.and_true, Bool.and_true]
  have hdistinct : ((coinbase :: vtx).map (CTransaction.GetHash env)).Nodup ↔
      ∀ tx ∈ vtx, tx.GetHash env ≠ coinbase.GetHash env := by
    rw [List.map_cons, List.nodup_cons, and_iff_left h.distinct, List.mem_map]
    push Not
    rfl
  have hops : ((coinbase :: vtx).map CTransaction.GetLegacySigOpCount).sum ≤ MAX_BLOCK_SIGOPS := by
    rw [List.map_cons, List.sum_cons, hsigOps]
    exact h.sigOps
  have hvtx := h.holds
  simp only [CBlock.CheckBlock, hvtx, hstake, hwork, htail, hchecks, hcb, h.merkle, hdistinct,
    List.head?_cons, List.tail_cons, Option.map_some, Option.getD_some, List.isEmpty_cons]
  rw [hvtx] at hlength
  simp only [hlength, hsize, hops, Bool.not_false, Bool.not_true, Bool.not_not, Bool.true_and,
    Bool.and_true, Bool.false_or, Bool.true_or, Bool.or_true, Bool.and_eq_true, decide_eq_true_eq,
    decide_true, BEq.rfl, ne_eq]
  tauto

/-- What a mined block depends on beyond the miner: the clocks, the target, the checkpoints, the
end of proof of work and the disk. -/
structure Acceptable (env : Env) (io : Io) (node : Node) (pindexPrev : CBlockIndex)
    (coinbaseTime : ℕ) (block : CBlock) : Prop where
  proofOfWork : GetPowHeight pindexPrev < LAST_POW_BLOCK
  clock : block.GetBlockTime ≤ FutureDrift io.nAdjustedTime (pindexPrev.nHeight + 1 : ℕ)
  coinbaseClock : block.GetBlockTime ≤ FutureDrift coinbaseTime (pindexPrev.nHeight + 1 : ℕ)
  target : pindexPrev.nHeight < POS_v3_DIFFICULTY_HEIGHT ∨
    checkTarget env io node pindexPrev block = .ok ()
  hardened : env.CheckHardened (pindexPrev.nHeight + 1) (block.GetHash env) = true
  synchronized : io.cpSatisfies = true
  disk : io.diskFull = false

/-- The target before the fees count. -/
theorem GetNextTargetRequired_early {fProofOfStake : Bool}
    (h : pindexPrev.nHeight < POS_v3_DIFFICULTY_HEIGHT) (nFees nFees' : ℤ) :
    GetNextTargetRequired env pindexPrev fProofOfStake nFees =
      GetNextTargetRequired env pindexPrev fProofOfStake nFees' := by
  simp only [GetNextTargetRequired, if_pos h]

theorem MinedBlock.checkTarget_early {coinbase : CTransaction} {io : Io} {node : Node}
    (h : MinedBlock env coinbase vtx block) (hcoinbase : coinbase.IsCoinBase = true)
    (hbits : block.nBits = GetNextTargetRequired env pindexPrev false nFees)
    (hearly : pindexPrev.nHeight < POS_v3_DIFFICULTY_HEIGHT) :
    checkTarget env io node pindexPrev block = .ok () := by
  have hall : ∀ tx ∈ block.vtx, tx.IsCoinBase = false → tx.CheckTransaction = true := by
    intro tx htx hcb
    rw [h.holds] at htx
    rcases List.mem_cons.mp htx with rfl | hmem
    · rw [hcoinbase] at hcb
      exact absurd hcb.symm Bool.false_ne_true
    · exact h.checked tx hmem
  obtain ⟨fees, hfees⟩ := acceptFees_checked (node.view io) node.txdb.txindex 0 hall
  simp only [checkTarget, seq_ok, require_eq_ok]
  refine ⟨fees, hfees, ?_⟩
  rw [hbits, h.noStake]
  exact GetNextTargetRequired_early hearly nFees fees

/-- A mined block passes the checks of `AcceptBlock` up to what lies beyond the miner. -/
theorem MinedBlock.acceptBlockChecks_iff {io : Io} {node : Node}
    (h : MinedBlock env (minedCoinbase nTime (pindexPrev.nHeight + 1) nExtraNonce reserved nReward)
      vtx block) (hversion : block.nVersion = if env.fTestNet = false ∧
      IsProtocolV2 (pindexPrev.nHeight + 1 : ℕ) = false then 6 else CBlock.CURRENT_VERSION)
    (hbits : block.nBits = GetNextTargetRequired env pindexPrev false nFees)
    (hpast : pindexPrev.GetPastTimeLimit < block.GetBlockTime)
    (htip : PastDrift pindexPrev.GetBlockTime (pindexPrev.nHeight + 1 : ℕ) ≤ block.GetBlockTime)
    (hfinal : ∀ tx ∈ vtx, IsFinalTx node.nBestHeight io.nAdjustedTime tx
      (pindexPrev.nHeight + 1 : ℕ) block.GetBlockTime = true) :
    acceptBlockChecks env io node pindexPrev block = .ok () ↔
      Acceptable env io node pindexPrev nTime block := by
  have hstake := h.noStake
  have hwork := h.isProofOfWork
  have hfirst : block.vtx[0]? =
      some (minedCoinbase nTime (pindexPrev.nHeight + 1) nExtraNonce reserved nReward) := by
    rw [h.holds]
    rfl
  have hold : ¬(IsProtocolV2 (pindexPrev.nHeight + 1 : ℕ) = true ∧ block.nVersion < 7) := by
    intro hlow
    have hswitch := fun hboth : env.fTestNet = false ∧
        IsProtocolV2 (pindexPrev.nHeight + 1 : ℕ) =
          false => Bool.false_ne_true (hboth.2.symm.trans hlow.1)
    rw [hversion, if_neg hswitch] at hlow
    exact absurd hlow.2 (by decide)
  have hnew : ¬(env.fTestNet = false ∧ IsProtocolV2 (pindexPrev.nHeight + 1 : ℕ) = false ∧
      6 < block.nVersion) := by
    intro hhigh
    rw [hversion, if_pos ⟨hhigh.1, hhigh.2.1⟩] at hhigh
    exact absurd hhigh.2.2 (lt_irrefl 6)
  have hprev : pindexPrev.GetBlockTime ≤
      FutureDrift block.GetBlockTime (pindexPrev.nHeight + 1 : ℕ) := by
    unfold FutureDrift
    unfold PastDrift at htip
    split_ifs at htip ⊢
    · omega
    · omega
  have hfinals : ∀ tx ∈ block.vtx, IsFinalTx node.nBestHeight io.nAdjustedTime tx
      (pindexPrev.nHeight + 1 : ℕ) block.GetBlockTime = true := by
    intro tx htx
    rw [h.holds] at htx
    rcases List.mem_cons.mp htx with rfl | hmem
    · rfl
    · exact hfinal tx hmem
  have hkernel : checkKernel env io node pindexPrev block = .ok () := by
    rw [checkKernel, if_neg (by rw [hstake]; exact Bool.false_ne_true)]
  have hprefix : (pushHeight (pindexPrev.nHeight + 1)).isPrefixOf
      (coinbaseScript (pindexPrev.nHeight + 1) nExtraNonce) = true := by
    rw [coinbaseScript_eq, List.isPrefixOf_iff_prefix]
    exact List.prefix_append _ _
  have hcoinbaseIn :
      (minedCoinbase nTime (pindexPrev.nHeight + 1) nExtraNonce reserved nReward).vin[0]? =
        some ⟨COutPoint.null, coinbaseScript (pindexPrev.nHeight + 1) nExtraNonce, UINT_MAX⟩ := rfl
  simp only [acceptBlockChecks, seq_ok, require_eq_ok, access_eq_ok]
  constructor
  · rintro ⟨coinbase, hat, _, -, _, -, _, hpow, _, hclock, _, hcoinbaseClock, _, -, _, htarget, _,
      -,
      _, -, _, hhardened, _, -, _, hsync, _, -, _, -, hdisk⟩
    rw [hfirst, Option.some.injEq] at hat
    subst hat
    constructor
    case proofOfWork =>
      rw [hwork] at hpow
      simp only [true_and, Nat.not_lt] at hpow
      exact hpow
    case clock => exact hclock
    case coinbaseClock => exact hcoinbaseClock
    case target => exact .inr htarget
    case hardened => exact hhardened
    case synchronized => exact hsync
    case disk => exact hdisk
  · intro hok
    have hpow : ¬(block.IsProofOfWork = true ∧ LAST_POW_BLOCK < GetPowHeight pindexPrev + 1) :=
      fun hboth => absurd hboth.2 (Nat.not_lt.mpr hok.proofOfWork)
    have hstamp : block.IsProofOfStake = true → (block.vtx[1]?.map fun tx =>
        CheckCoinStakeTimestamp (pindexPrev.nHeight + 1 : ℕ) block.nTime tx.nTime) = some true := by
      intro hpos
      rw [hstake] at hpos
      exact absurd hpos Bool.false_ne_true
    have htarget : checkTarget env io node pindexPrev block = .ok () := by
      apply hok.target.elim
      · exact h.checkTarget_early rfl hbits
      · exact id
    exact ⟨_, hfirst, (), hold, (), hnew, (), hpow, (), hok.clock, (), hok.coinbaseClock, (),
      hstamp, (), htarget, (), ⟨hpast, hprev⟩, (), hfinals, (), hok.hardened, (), hkernel, (),
      hok.synchronized, _, hcoinbaseIn, (), hprefix, hok.disk⟩

end MinedBlock

/-- `AcceptBlock` on a new block with a known parent, whose checks ask for `P`. -/
theorem acceptBlock_of_checks_iff {env : Env} {io : Io} {node : Node} {pindexPrev : CBlockIndex}
    {block : CBlock} {P : Prop} (hversion : block.nVersion ≤ CBlock.CURRENT_VERSION)
    (hnew : node.mapBlockIndex (block.GetHash env) = none)
    (hprev : node.mapBlockIndex block.hashPrevBlock = some pindexPrev)
    (hchecks : acceptBlockChecks env io node pindexPrev block = .ok () ↔ P) :
    (P → block.AcceptBlock env io node = block.AddToBlockIndex env io
      { node with files := (node.files.WriteToDisk block).1 }
      (node.files.WriteToDisk block).2.1 (node.files.WriteToDisk block).2.2) ∧
    (¬ P → ∃ e, block.AcceptBlock env io node = .error (e, node)) := by
  rw [acceptBlock_known hversion hnew hprev]
  constructor
  · intro hok
    rw [hchecks.mpr hok]
  · intro hno
    cases hrun : acceptBlockChecks env io node pindexPrev block with
    | ok u => exact absurd (hchecks.mp hrun) hno
    | error e => exact ⟨e, rfl⟩

section Created

variable {env : Env} {F : Type} {args : MinerArgs} {io : Io} {node : Node}
  {pindexPrev : CBlockIndex} {heap : TxHeap F} {block : CBlock} {nFees : ℤ} {g : Globals}
  [Add F] [Mul F] [Div F] [IntCast F] [LT F] [DecidableLT F] [BEq F]

theorem CreateNewBlock_header {reserved : Option uint160} {fProofOfStake : Bool}
    (hbest : node.pindexBest = some pindexPrev)
    (h : CreateNewBlock env heap args reserved io node fProofOfStake =
      .ok (some (block, nFees), g)) :
    (block.nVersion = if env.fTestNet = false ∧
      IsProtocolV2 (pindexPrev.nHeight + 1 : ℕ) = false then 6 else CBlock.CURRENT_VERSION) ∧
    block.nBits = GetNextTargetRequired env pindexPrev fProofOfStake nFees := by
  rw [CreateNewBlock, hbest] at h
  dsimp only at h
  split at h
  · simp at h
  simp only [seq_ok, Except.ok.injEq, Prod.mk.injEq, Option.some.injEq] at h
  obtain ⟨s, -, ⟨rfl, rfl⟩, -⟩ := h
  exact ⟨rfl, rfl⟩

end Created

/-- The block that the miner makes from a pool that any calls have led to gets a coinbase script,
and then passes every check of its own node but the proof of work and what lies beyond the miner:
with any nonce, and any time from its own on, `CheckBlock` asks for the hash below the target, for a
reward in the money range and for a coinbase with a new hash, and `AcceptBlock`, where the tip is
known and the block is new, for what `Acceptable` lists. -/
theorem mined_block_accepted {env : Env} {F : Type} [Add F] [Mul F] [Div F] [IntCast F] [LT F]
    [DecidableLT F] [BEq F] {heap : TxHeap F} {args : MinerArgs} {reserved : Option uint160}
    {S : Set CTransaction} {io : Io} {node : Node} {pindexPrev : CBlockIndex} {block : CBlock}
    {nFees : ℤ} {g : Globals} (hpool : PoolReaches env S node.mempool)
    (hbest : node.pindexBest = some pindexPrev) (htime : InTime io pindexPrev)
    (h : CreateNewBlock env heap args reserved io node false = .ok (some (block, nFees), g))
    (n : ExtraNonce) :
    ∃ mined n' coinbase, IncrementExtraNonce env block pindexPrev n = some (mined, n') ∧
      mined.vtx = coinbase :: block.vtx.tail ∧
      ∀ (io' : Io) (node' : Node) (nNonce nTime : ℕ), block.nTime ≤ nTime →
        let found : CBlock := { mined with nNonce := nNonce, nTime := nTime }
        (found.CheckBlock env true true true = true ↔
          CheckProofOfWork env (found.GetPoWHash env) found.nBits = true ∧
          MoneyRange (GetProofOfWorkReward (pindexPrev.nHeight + 1) nFees) = true ∧
          ∀ tx ∈ block.vtx.tail, tx.GetHash env ≠ coinbase.GetHash env) ∧
        (acceptBlockChecks env io' node' pindexPrev found = .ok () ↔
          Acceptable env io' node' pindexPrev coinbase.nTime found) ∧
        (node'.mapBlockIndex (found.GetHash env) = none →
          node'.mapBlockIndex pindexPrev.GetBlockHash = some pindexPrev →
          (Acceptable env io' node' pindexPrev coinbase.nTime found →
            found.AcceptBlock env io' node' = found.AddToBlockIndex env io'
              { node' with files := (node'.files.WriteToDisk found).1 }
              (node'.files.WriteToDisk found).2.1 (node'.files.WriteToDisk found).2.2) ∧
          (¬ Acceptable env io' node' pindexPrev coinbase.nTime found →
            ∃ e, found.AcceptBlock env io' node' = .error (e, node'))) := by
  obtain ⟨hversion, hbits⟩ := CreateNewBlock_header hbest h
  obtain ⟨pindexPrev', s, hbest', hcollect, rfl, hvtx, hprev, hsig, hnTime, -⟩ := CreateNewBlock_ok h
  obtain rfl : pindexPrev' = pindexPrev := Option.some.inj (hbest'.symm.trans hbest)
  have hpacked := collect_packed hcollect
  obtain ⟨hchecked, hdistinct⟩ := hpool.checked.subperm (collect_subperm hcollect)
  have hclock := htime.clock
  have hnow : (toUInt32 io.nAdjustedTime : ℤ) = io.nAdjustedTime := toUInt32_eq hclock.1.le hclock.2
  have hcoinbase : finishedCoinbase (toUInt32 io.nAdjustedTime) (pindexPrev'.nHeight + 1) false
      reserved
      s.nFees = ⟨CTransaction.CURRENT_VERSION, toUInt32 io.nAdjustedTime,
        [⟨COutPoint.null, [], UINT_MAX⟩],
        [⟨GetProofOfWorkReward (pindexPrev'.nHeight + 1) s.nFees,
          CScript.SetDestination (.CKeyID (reserved.getD 0))⟩], 0, []⟩ := rfl
  rw [hcoinbase] at hvtx
  have htimes : ∀ tx ∈ block.vtx, (tx.nTime : ℤ) ≤ io.nAdjustedTime := by
    intro tx htx
    rw [hvtx] at htx
    rcases List.mem_cons.mp htx with rfl | hmem
    · exact hnow.le
    · exact (hpacked.limits.times tx hmem).1
  obtain ⟨hadjusted, hlimit, htip⟩ := newBlockTime_bounds htime htimes
  rw [← hnTime] at hadjusted hlimit htip
  obtain ⟨mined, n', k, hincrement, hmined, hmerkle⟩ :=
    IncrementExtraNonce_ok env pindexPrev' hvtx n
  refine ⟨mined, n', minedCoinbase (toUInt32 io.nAdjustedTime) (pindexPrev'.nHeight + 1) k
    (reserved.getD 0) (GetProofOfWorkReward (pindexPrev'.nHeight + 1) s.nFees), hincrement, ?_, ?_⟩
  · rw [hmined, hvtx, List.tail_cons]
  intro io' node' nNonce nTime hlater
  dsimp only
  rw [hvtx, List.tail_cons]
  have hbehind : (block.nTime : ℤ) ≤ nTime := Int.ofNat_le.mpr hlater
  have hfound : MinedBlock env
      (minedCoinbase (toUInt32 io.nAdjustedTime) (pindexPrev'.nHeight + 1) k
      (reserved.getD 0) (GetProofOfWorkReward (pindexPrev'.nHeight + 1) s.nFees)) s.vtx
      { mined with nNonce := nNonce, nTime := nTime } := by
    have hmax := (nBlockMaxSize_bounds args).2
    have hsize := hpacked.limits.size
    have hfits := hpacked.limits.sizeLimit
    have hops := hpacked.limits.sigOps
    have hopLimit := hpacked.limits.sigOpLimit
    constructor
    case holds => rw [hmined]
    case merkle => exact hmerkle
    case unsigned => rw [hmined, hsig]
    case checked => exact hchecked
    case distinct => exact hdistinct
    case ordinary =>
      intro tx htx
      exact isCandidate_ordinary (hpacked.candidates tx htx)
    case size => omega
    case sigOps => omega
    case times =>
      intro tx htx
      have hle : (tx.nTime : ℤ) ≤ io.nAdjustedTime := by
        rcases List.mem_cons.mp htx with rfl | hmem
        · exact hnow.le
        · exact (hpacked.limits.times tx hmem).1
      exact hle.trans (hadjusted.trans hbehind)
  have hfinals : ∀ tx ∈ s.vtx, IsFinalTx node'.nBestHeight io'.nAdjustedTime tx
      (pindexPrev'.nHeight + 1 : ℕ) nTime = true := by
    intro tx htx
    have hcandidate := hpacked.candidates tx htx
    have hordinary := isCandidate_ordinary hcandidate
    have hfinal :
        IsFinalTx node.nBestHeight io.nAdjustedTime tx (pindexPrev'.nHeight + 1) 0 = true := by
      simpa [isCandidate, hordinary.1, hordinary.2] using hcandidate
    have hnTimePos : (nTime : ℤ) ≠ 0 := by omega
    exact IsFinalTx_later (Int.natCast_ne_zero.mpr (Nat.succ_ne_zero _)) (hadjusted.trans hbehind)
      hnTimePos hfinal
  have hcurrent : mined.nVersion ≤ CBlock.CURRENT_VERSION := by
    rw [hmined, hversion]
    split
    · decide
    · exact le_rfl
  have hparent : mined.hashPrevBlock = pindexPrev'.GetBlockHash := by rw [hmined, hprev]
  have hchecks := hfound.acceptBlockChecks_iff (by rw [hmined, hversion]) (by rw [hmined, hbits])
    (hlimit.trans_le hbehind) (htip.trans hbehind) hfinals
  refine ⟨hfound.checkBlock_iff, hchecks, fun hnew hknown => ?_⟩
  exact acceptBlock_of_checks_iff hcurrent hnew (hparent ▸ hknown) hchecks

namespace Scenario

def minedFamily : Bool :=
  match CreateNewBlock (timed testNet) firstCome plainArgs (some 7) Scenario.io miningNode false
    with
  | .ok (some (block, nFees), _) =>
    match IncrementExtraNonce (timed testNet) block tipOnly ⟨0, 0⟩ with
    | some (mined, _) =>
      block.nTime == 10 ^ 8 && CheckProofOfWork (timed testNet) (10 ^ 8 : ℕ) mined.nBits &&
        MoneyRange (GetProofOfWorkReward 1 nFees) && mined.vtx.map CTransaction.nTime ==
          [10 ^ 8, 20, 30]
    | none => false
  | _ => false

theorem timed_powHash (block : CBlock) : block.GetPoWHash (timed testNet) = block.nTime := rfl

theorem miningNode_reaches : PoolReaches (timed testNet) Set.univ miningNode.mempool :=
  PoolReaches.accept io childAccepted pooledGrandchild trivial
    (PoolReaches.accept io parentMined pooledChild trivial PoolReaches.empty)

theorem tipOnly_inTime : InTime io tipOnly where
  clock := by decide
  past := by decide
  tip := by decide

theorem mined_block_accepted_family : ∃ block nFees g mined n',
    CreateNewBlock (timed testNet) firstCome plainArgs (some 7) Scenario.io miningNode false =
      .ok (some (block, nFees), g) ∧
    IncrementExtraNonce (timed testNet) block tipOnly ⟨0, 0⟩ = some (mined, n') ∧
    ({ mined with nNonce := 1, nTime := 10 ^ 8 } : CBlock).CheckBlock (timed testNet) true true
      true = true ∧
    acceptBlockChecks (timed testNet) Scenario.io miningNode tipOnly
      { mined with nNonce := 1, nTime := 10 ^ 8 } = .ok () := by
  have hrun : minedFamily = true := by decide +kernel
  unfold minedFamily at hrun
  cases hcreate :
      CreateNewBlock (timed testNet) firstCome plainArgs (some 7) Scenario.io miningNode false with
  | error e =>
    rw [hcreate] at hrun
    simp at hrun
  | ok made =>
    obtain ⟨_ | ⟨block, nFees⟩, g⟩ := made
    · rw [hcreate] at hrun
      simp at hrun
    obtain ⟨mined, n', coinbase, hincrement, hvtx, hfound⟩ :=
      mined_block_accepted miningNode_reaches rfl tipOnly_inTime hcreate ⟨0, 0⟩
    simp only [hcreate, hincrement, Bool.and_eq_true, beq_iff_eq, hvtx, List.map_cons,
      -Nat.reducePow] at hrun
    obtain ⟨⟨⟨htime, hwork⟩, hreward⟩, htimes⟩ := hrun
    obtain ⟨hcoinbase, hrest⟩ := List.cons.inj htimes
    obtain ⟨hcheck, haccept, -⟩ := hfound Scenario.io miningNode 1 (10 ^ 8) htime.le
    refine ⟨block, nFees, g, mined, n', rfl, hincrement, hcheck.mpr ⟨?_, hreward, ?_⟩,
      haccept.mpr ?_⟩
    · rw [timed_powHash]
      exact hwork
    · intro tx htx hsame
      have hmem : tx.nTime ∈ [20, 30] := hrest ▸ List.mem_map_of_mem htx
      have hequal : tx.nTime = 10 ^ 8 := hsame.trans hcoinbase
      rw [hequal] at hmem
      exact absurd hmem (by decide)
    · have hclock : ((10 ^ 8 : ℕ) : ℤ) ≤ FutureDrift (10 ^ 8 : ℕ) (tipOnly.nHeight + 1 : ℕ) :=
        (Int.le_add_of_nonneg_right (by decide)).trans (futureDrift_ge _ _)
      rw [hcoinbase]
      constructor
      case proofOfWork => decide
      case clock => exact hclock
      case coinbaseClock => exact hclock
      case target => exact .inl (by decide)
      case hardened => rfl
      case synchronized => rfl
      case disk => rfl

end Scenario

end Dions
