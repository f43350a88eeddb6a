import Dions.Verification.Chain.TallChain

/-! # The money supply of a chain

The law of the money supply over whole runs. A proof-of-work block may hold a coin stake behind its
second transaction: nothing bounds what it pays, and a node takes such a block. -/

namespace Dions

open Halting

variable {p pindex : CBlockIndex} {nTime : ℕ} {node : Node}

namespace Scenario

/-! ## A coin stake in a proof-of-work block -/

/-- The target of the last mined blocks stays the target of the next one. -/
theorem MinedLast.target (h : MinedLast p) (hhigh : POS_v3_DIFFICULTY_HEIGHT ≤ p.nHeight)
    (nFees : ℤ) : GetNextTargetRequired (timed testNet) p false nFees = 0x207fffff := by
  obtain ⟨d, q, d', r, hlast, hbefore, htime, htime', hbits⟩ := h
  have hbound : POS_v3_DIFFICULTY_HEIGHT = 100000 := rfl
  have hlow : ¬ p.nHeight < 24376 := by omega
  have hV2 : ¬ p.nHeight < POS_v3_DIFFICULTY_HEIGHT := by omega
  have hprotocol : IsProtocolV2 p.nHeight = true := decide_eq_true (by omega)
  have hspacing : GetTargetSpacing p.nHeight = 64 := by rw [GetTargetSpacing, if_pos hprotocol]
  have hV3 : (timed testNet).V3 p.nHeight = true := by
    have hnet : (timed testNet).fTestNet = true := rfl
    simp only [ChainParams.V3, hnet, if_true, decide_eq_true_eq]
    omega
  have hactual : spacingV3 (timed testNet) p.nHeight 64 1000 = 64 := by
    simp [spacingV3, hV3]
  have hmitigate : mitigate (timed testNet).bnProofOfWorkLimit nFees (SetCompact 0x207fffff) =
      SetCompact 0x207fffff := by
    have hpos : ¬(SetCompact 0x207fffff ≤ 0 ∨
        (timed testNet).bnProofOfWorkLimit < SetCompact 0x207fffff) := by decide
    have hquarter : ¬ SetCompact 0x207fffff < (timed testNet).bnProofOfWorkLimit.tdiv 4 := by decide
    rw [mitigate, if_neg hpos, if_neg hquarter]
  have hscaled : (SetCompact 0x207fffff *
      ((nTargetTimespan / 64 - 1) * 64 + 64 + 64)).tdiv ((nTargetTimespan / 64 + 1) * 64) =
        SetCompact 0x207fffff := by decide
  have hdiff : ((11000 : ℕ) : ℤ) - (10000 : ℕ) = 1000 := rfl
  rw [GetNextTargetRequired, if_neg hlow, if_neg hV2, GetNextTargetRequiredV3, retarget, hlast]
  simp only [hbefore, htime, htime', hbits, hspacing, hdiff, hactual, hscaled]
  rw [targetLimit]
  simp only [Bool.false_eq_true, if_false, hmitigate]
  decide

/-- A coin stake that pays a million coins from an output without value. -/
def mintCoins (nTime : ℕ) : CTransaction :=
  ⟨1, nTime, [coinIn 1], [⟨0, []⟩, payTo (10 ^ 6 * COIN)], 0, []⟩

/-- A proof-of-work block with a coin stake behind its second transaction. -/
def mintBlock (p : CBlockIndex) (nTime : ℕ) : CBlock :=
  let block : CBlock := ⟨7, p.GetBlockHash, 0, nTime, 0x207fffff, 0,
    [stakeCoinbase p nTime, payFee (nTime - 2), mintCoins nTime], []⟩
  { block with hashMerkleRoot := block.BuildMerkleTree (timed testNet) }

theorem mintBlock_hash (hpos : 0 < nTime) :
    (mintBlock p nTime).GetHash (timed testNet) = nTime := by
  have hne : nTime ≠ 0 := by omega
  simp [CBlock.GetHash, mintBlock, timed, hne]

theorem mintCoins_checks (nTime : ℕ) :
    (mintCoins nTime).IsCoinBase = false ∧ (mintCoins nTime).IsCoinStake = true ∧
      (mintCoins nTime).GetSerializeSize ≤ 1000 ∧ (mintCoins nTime).CheckTransaction = true ∧
      (mintCoins nTime).GetLegacySigOpCount ≤ 5000 ∧
      (mintCoins nTime).GetValueOut = .ok (10 ^ 6 * COIN) :=
  ⟨rfl, rfl, Nat.le_of_ble_eq_true rfl, rfl, show (0 : ℕ) ≤ 5000 by decide, rfl⟩

theorem mintBlock_checkBlock (hlow : 2 < nTime) (hclock : nTime ≤ 10 ^ 8) (fSig : Bool) :
    (mintBlock p nTime).CheckBlock (timed testNet) true true fSig = true := by
  obtain ⟨hcb, hsize, hchecked, hsig, -⟩ := stakeCoinbase_checks p nTime
  obtain ⟨hcbFee, hcsFee, hsizeFee, hcheckedFee, hsigFee, -⟩ := payFee_checks (nTime - 2)
  obtain ⟨hcbMint, -, hsizeMint, hcheckedMint, hsigMint, -⟩ := mintCoins_checks nTime
  have hstake : (mintBlock p nTime).IsProofOfStake = false := hcsFee
  have hwork : (mintBlock p nTime).IsProofOfWork = true := by
    simp [CBlock.IsProofOfWork, hstake]
  have hproof : CheckProofOfWork (timed testNet) ((mintBlock p nTime).GetPoWHash (timed testNet))
      (mintBlock p nTime).nBits = true := by
    have hhash : (mintBlock p nTime).GetPoWHash (timed testNet) = nTime := rfl
    have hbits : (mintBlock p nTime).nBits = 0x207fffff := rfl
    have htarget : 10 ^ 8 ≤ SetCompact 0x207fffff := by decide
    have hlimit : SetCompact 0x207fffff ≤ (timed testNet).bnProofOfWorkLimit := by decide
    simp only [CheckProofOfWork, hhash, hbits, Bool.and_eq_true, decide_eq_true_eq]
    refine ⟨⟨by omega, hlimit⟩, by omega⟩
  have hroot : (mintBlock p nTime).hashMerkleRoot =
      (mintBlock p nTime).BuildMerkleTree (timed testNet) := rfl
  have hblock : (mintBlock p nTime).GetSerializeSize ≤ MAX_BLOCK_SIZE := by
    have hmax : 4000 ≤ MAX_BLOCK_SIZE := by decide
    have hthree : GetSizeOfCompactSize 3 = 1 := rfl
    have hempty : sizeOfBytes [] = 1 := rfl
    simp only [CBlock.GetSerializeSize, mintBlock, List.length_cons, List.length_nil,
      List.map_cons, List.map_nil, List.sum_cons, List.sum_nil, zero_add, Nat.reduceAdd, hthree,
      hempty]
    omega
  have hsigops : ((mintBlock p nTime).vtx.map CTransaction.GetLegacySigOpCount).sum ≤
      MAX_BLOCK_SIGOPS := by
    have hmax : 20000 ≤ MAX_BLOCK_SIGOPS := by decide
    simp only [mintBlock, List.map_cons, List.map_nil, List.sum_cons, List.sum_nil]
    omega
  have hhashes : ((mintBlock p nTime).vtx.map (CTransaction.GetHash (timed testNet))).Nodup := by
    have hmap : (mintBlock p nTime).vtx.map (CTransaction.GetHash (timed testNet)) =
        [nTime - 1, nTime - 2, nTime] := rfl
    have hne₁ : nTime - 1 ≠ nTime - 2 := by omega
    have hne₂ : nTime - 1 ≠ nTime := by omega
    have hne₃ : nTime - 2 ≠ nTime := by omega
    rw [hmap]
    simp only [List.nodup_cons, List.mem_cons, List.not_mem_nil, or_false, not_or,
      not_false_eq_true, List.nodup_nil, and_true]
    exact ⟨⟨hne₁, hne₂⟩, hne₃⟩
  have hall : ((mintBlock p nTime).vtx.all fun tx =>
      tx.CheckTransaction && (tx.nTime : ℤ) ≤ (mintBlock p nTime).GetBlockTime) = true := by
    have htime : (mintBlock p nTime).GetBlockTime = nTime := rfl
    have hvtx : (mintBlock p nTime).vtx = [stakeCoinbase p nTime, payFee (nTime - 2),
      mintCoins nTime] := rfl
    have h₁ : (stakeCoinbase p nTime).nTime = nTime - 1 := rfl
    have h₂ : (payFee (nTime - 2)).nTime = nTime - 2 := rfl
    have h₃ : (mintCoins nTime).nTime = nTime := rfl
    simp only [hvtx, htime, List.all_cons, List.all_nil, hchecked, hcheckedFee, hcheckedMint, h₁,
      h₂, h₃, Bool.true_and, Bool.and_true, Bool.and_eq_true, decide_eq_true_eq]
    omega
  have hlength : (mintBlock p nTime).vtx.length ≤ MAX_BLOCK_SIZE :=
    show 3 ≤ MAX_BLOCK_SIZE by decide
  have htail : (mintBlock p nTime).vtx.tail = [payFee (nTime - 2), mintCoins nTime] := rfl
  have hhead : (mintBlock p nTime).vtx.head? = some (stakeCoinbase p nTime) := rfl
  have hsome : (mintBlock p nTime).vtx.isEmpty = false := rfl
  simp only [CBlock.CheckBlock, hsome, hlength, hblock, hwork, hproof, hhead, Option.map_some,
    Option.getD_some, hcb, htail, List.all_cons, List.all_nil, hcbFee, hcbMint, hstake, hall,
    hhashes, hsigops, hroot]
  simp

/-- The proof-of-work block connects, and a million coins are created. -/
theorem Tip.mint_connectBlock (h : Tip node p) (hlater : p.label.nTime + 2 < nTime)
    (hclock : nTime ≤ 10 ^ 8) {view : View} (hread : view.files.readTx coinPos = some firstCoin)
    (hparent : CBlockIndex.pprev pindex = some p)
    (hdeep : pindex.depthOf coinPos.nFile coinPos.nBlockPos 10 0 = none) :
    ∃ T, (mintBlock p nTime).ConnectBlock (timed testNet) view node.txdb.txindex node.toGlobals
        pindex =
      .ok (T, { node.toGlobals with
        nMint := Function.update node.nMint pindex (10 ^ 6 * COIN)
        nMoneySupply := Function.update node.nMoneySupply pindex (mined + 999999 * COIN) }) := by
  have hlow := h.late
  obtain ⟨spent, hcoin⟩ := h.coin
  obtain ⟨hcb, -, -, hsig, hzero⟩ := stakeCoinbase_checks p nTime
  obtain ⟨hcbFee, hcsFee, -, -, hsigFee, houtFee, hfee, hmin⟩ := payFee_checks (nTime - 2)
  obtain ⟨hcbMint, hcsMint, -, -, hsigMint, houtMint⟩ := mintCoins_checks nTime
  have hmax : 20000 ≤ MAX_BLOCK_SIGOPS := by decide
  have hstake : (mintBlock p nTime).IsProofOfStake = false := hcsFee
  have hnew : ∀ n : ℕ, nTime ≤ n + 2 → n ≤ nTime → overwritesUnspent node.txdb.txindex n = false :=
    fun n hlo hhi => unspent_of_none
      (h.fresh (show p.label.nTime < n by omega) (hhi.trans hclock)).2
  obtain ⟨pos₁, pos₂, pos₃, hpositions⟩ : ∃ pos₁ pos₂ pos₃, (mintBlock p nTime).positions pindex =
      [(pos₁, stakeCoinbase p nTime), (pos₂, payFee (nTime - 2)), (pos₃, mintCoins nTime)] :=
    ⟨_, _, _, rfl⟩
  -- the coinbase
  have hround₁ : connectTx (timed testNet) view node.txdb.txindex pindex pos₁ (fun _ => none)
      node.toGlobals ⟨0, 0, 0, 0, 0⟩ (stakeCoinbase p nTime) =
      .ok (Function.update (fun _ => none) (nTime - 1) (some (.new pos₁ 1)), node.toGlobals,
        ⟨0, 0, 0, 0, (stakeCoinbase p nTime).GetLegacySigOpCount⟩) := by
    rw [connectTx_coinbase hcb (hnew (nTime - 1) (by omega) (by omega)) (by dsimp only; omega)
      hzero]
    simp only [zero_add]
    rfl
  generalize hqueued₁ : Function.update (fun _ => none) (nTime - 1) (some (CTxIndex.new pos₁ 1)) =
    queued₁ at hround₁
  -- the transaction that pays a fee
  have hfound₁ : writeQueued node.txdb.txindex queued₁ 999 = some ⟨coinPos, [none, spent]⟩ := by
    have hne : (999 : ℕ) ≠ nTime - 1 := by omega
    rw [← hqueued₁, writeQueued_update, writeQueued_none, Function.update_of_ne hne, hcoin]
  have hspends₁ : SpendsOne (timed testNet) view (writeQueued node.txdb.txindex queued₁) pindex
      (scriptFlags (timed testNet) pindex.nHeight) (payFee (nTime - 2)) (coinIn 0)
      ⟨coinPos, [none, spent]⟩ firstCoin (payTo (625 * COIN)) :=
    spendsCoin hread hfound₁ (fun _ => rfl) hdeep rfl rfl (show 999 ≤ nTime - 2 by omega)
  have hround₂ := connectTx_spendsOne
    (t := ⟨0, 0, 0, 0, (stakeCoinbase p nTime).GetLegacySigOpCount⟩) hspends₁
    (hnew (nTime - 2) (by omega) (by omega)) (by dsimp only; omega) houtFee
    (hspends₁.connect_plain hcsFee (show (1 : ℤ) ≠ 5 by decide) houtFee (by decide)
      (show _ ≤ 625 * COIN - 624 * COIN by omega) hmin node.toGlobals pos₂ true false rfl)
  have hsum₁ : (⟨0, 0, 0, 0, (stakeCoinbase p nTime).GetLegacySigOpCount +
      (payFee (nTime - 2)).GetLegacySigOpCount⟩ : Tally).add (timed testNet) pindex.nHeight
        (payFee (nTime - 2)) (payTo (625 * COIN)).nValue (624 * COIN) =
      ⟨COIN, 625 * COIN, 624 * COIN, 0, (stakeCoinbase p nTime).GetLegacySigOpCount +
        (payFee (nTime - 2)).GetLegacySigOpCount⟩ := by
    simp only [Tally.add, hcsFee, Bool.false_eq_true, false_and, if_false]
    rfl
  dsimp only at hround₂
  rw [hsum₁] at hround₂
  generalize hqueued₂ : Function.update (Function.update queued₁ (coinIn 0).prevout.hash
      (some (CTxIndex.spend ⟨coinPos, [none, spent]⟩ (coinIn 0).prevout.n pos₂)))
        ((payFee (nTime - 2)).GetHash (timed testNet))
          (some (CTxIndex.new pos₂ (payFee (nTime - 2)).vout.length)) =
    queued₂ at hround₂
  -- the coin stake
  have hfound₂ : writeQueued node.txdb.txindex queued₂ 999 =
      some ⟨coinPos, [some pos₂, spent]⟩ := by
    have hne : (999 : ℕ) ≠ nTime - 2 := by omega
    rw [← hqueued₂, writeQueued_update, writeQueued_update]
    exact (Function.update_of_ne hne _ _).trans (Function.update_self _ _ _)
  have hspends₂ : SpendsOne (timed testNet) view (writeQueued node.txdb.txindex queued₂) pindex
      (scriptFlags (timed testNet) pindex.nHeight) (mintCoins nTime) (coinIn 1)
      ⟨coinPos, [some pos₂, spent]⟩ firstCoin (payTo 0) :=
    spendsCoin hread hfound₂ (fun hzero => absurd hzero (by decide)) hdeep rfl rfl
      (show 999 ≤ nTime by omega)
  have hround₃ := connectTx_spendsOne (t := ⟨COIN, 625 * COIN, 624 * COIN, 0,
      (stakeCoinbase p nTime).GetLegacySigOpCount + (payFee (nTime - 2)).GetLegacySigOpCount⟩)
    hspends₂ (hnew nTime (by omega) le_rfl) (by dsimp only; omega) houtMint
    (hspends₂.connect_coinStake hcsMint node.toGlobals pos₃)
  have hdrift : ∀ n, (timed testNet).lessDriftBuffer n = n := fun _ => rfl
  have hsum₂ : (⟨COIN, 625 * COIN, 624 * COIN, 0, (stakeCoinbase p nTime).GetLegacySigOpCount +
      (payFee (nTime - 2)).GetLegacySigOpCount + (mintCoins nTime).GetLegacySigOpCount⟩ : Tally).add
        (timed testNet) pindex.nHeight (mintCoins nTime) (payTo 0).nValue (10 ^ 6 * COIN) =
      ⟨COIN, 625 * COIN, 1000624 * COIN, 10 ^ 6 * COIN,
        (stakeCoinbase p nTime).GetLegacySigOpCount +
        (payFee (nTime - 2)).GetLegacySigOpCount + (mintCoins nTime).GetLegacySigOpCount⟩ := by
    simp only [Tally.add, hcsMint, hdrift, ite_self, if_true]
    rfl
  dsimp only at hround₃
  rw [hsum₂] at hround₃
  obtain ⟨queued₃, hround₃⟩ : ∃ queued₃,
    connectTx (timed testNet) view node.txdb.txindex pindex pos₃
      queued₂ node.toGlobals ⟨COIN, 625 * COIN, 624 * COIN, 0,
        (stakeCoinbase p nTime).GetLegacySigOpCount + (payFee (nTime - 2)).GetLegacySigOpCount⟩
        (mintCoins nTime) = .ok (queued₃, node.toGlobals,
          ⟨COIN, 625 * COIN, 1000624 * COIN, 10 ^ 6 * COIN,
          (stakeCoinbase p nTime).GetLegacySigOpCount + (payFee (nTime - 2)).GetLegacySigOpCount +
            (mintCoins nTime).GetLegacySigOpCount⟩) := ⟨_, hround₃⟩
  have hcheckReward : ∀ n,
      checkReward (timed testNet) view node.txdb.txindex pindex (mintBlock p nTime)
      ⟨COIN, 625 * COIN, 1000624 * COIN, 10 ^ 6 * COIN, n⟩ = .ok () := by
    intro n
    have hfirst : (mintBlock p nTime).vtx[0]? = some (stakeCoinbase p nTime) := rfl
    have hreward : 0 ≤ GetProofOfWorkReward (GetPowHeight pindex) COIN := by
      rw [GetProofOfWorkReward]
      split_ifs
      · decide
      · decide
    simp only [checkReward, hstake, Bool.false_eq_true, if_false, hfirst, hzero, require,
      if_pos hreward, bind, Except.bind]
  have hmint : int64 (1000624 * COIN - 625 * COIN + COIN) = 10 ^ 6 * COIN := by decide
  have hsupply : int64 (node.nMoneySupply p + 1000624 * COIN - 625 * COIN) =
      mined + 999999 * COIN := by
    rw [h.supply]
    decide
  refine ⟨writeQueued node.txdb.txindex queued₃, ?_⟩
  simp only [CBlock.ConnectBlock, require, mintBlock_checkBlock (show 2 < nTime by omega) hclock,
    if_true, hpositions, connectLoop, hround₁, hround₂, hround₃, hcheckReward, Exec.within, hparent,
    Option.map_some, Option.getD_some, hmint, hsupply, bind, Except.bind]

/-! ## The block is accepted -/

theorem countPow_mono {n m : ℕ} (hle : n ≤ m) (p : CBlockIndex) : countPow n p ≤ countPow m p := by
  induction n generalizing m p with
  | zero => exact Nat.zero_le _
  | succ n ih =>
    cases m with
    | zero => omega
    | succ m =>
      cases p with
      | root d => exact le_rfl
      | child d p => exact Nat.add_le_add_left (ih (Nat.le_of_succ_le_succ hle) p) _

/-- Above the mined blocks no entry counts. -/
theorem Tip.getPowHeight (h : Tip node p) (hhigh : 12000 < p.nHeight) : GetPowHeight p = 6390 := by
  have hzero : countPow (p.nHeight - 12000) p = 0 := by
    have hle := countPow_mono (show p.nHeight - 12000 ≤ p.nHeight - 11 by omega) p
    rw [h.staked] at hle
    exact Nat.le_zero.mp hle
  rw [GetPowHeight, if_pos hhigh, hzero]

theorem Tip.mint_acceptFees (h : Tip node p) (hlater : p.label.nTime + 2 < nTime)
    (hdeep : pindex.depthOf coinPos.nFile coinPos.nBlockPos 10 0 = none) :
    acceptFees (node.view io) node.txdb.txindex (mintBlock p nTime).vtx 0 = .ok COIN := by
  have hlow := h.late
  obtain ⟨spent, hcoin⟩ := h.coin
  obtain ⟨hcb, -⟩ := stakeCoinbase_checks p nTime
  obtain ⟨hcbFee, hcsFee, -, -, -, houtFee, -⟩ := payFee_checks (nTime - 2)
  obtain ⟨hcbMint, hcsMint, -, -, -, houtMint⟩ := mintCoins_checks nTime
  have hvtx : (mintBlock p nTime).vtx =
      [stakeCoinbase p nTime, payFee (nTime - 2), mintCoins nTime] := rfl
  have hfound : writeQueued node.txdb.txindex (fun _ => none) 999 =
      some ⟨coinPos, [none, spent]⟩ := by
    rw [writeQueued_none, hcoin]
  have hspends₁ : SpendsOne (timed testNet) (node.view io)
      (writeQueued node.txdb.txindex (fun _ => none)) pindex 0 (payFee (nTime - 2)) (coinIn 0)
      ⟨coinPos, [none, spent]⟩ firstCoin (payTo (625 * COIN)) :=
    spendsCoin h.buried.read hfound (fun _ => rfl) hdeep rfl rfl (show 999 ≤ nTime - 2 by omega)
  have hspends₂ : SpendsOne (timed testNet) (node.view io)
      (writeQueued node.txdb.txindex (fun _ => none)) pindex 0 (mintCoins nTime) (coinIn 1)
      ⟨coinPos, [none, spent]⟩ firstCoin (payTo 0) :=
    spendsCoin h.buried.read hfound (by decide) hdeep rfl rfl (show 999 ≤ nTime by omega)
  have hfee : int64 (0 + ((payTo (625 * COIN)).nValue - 624 * COIN)) = COIN := by decide
  simp only [hvtx, acceptFees, hcb, if_true, hcbFee, hcbMint, Bool.false_eq_true, if_false,
    hspends₁.fetchInputs true false rfl, hspends₁.getValueIn, houtFee, hcsFee,
    hspends₂.fetchInputs true false rfl, hspends₂.getValueIn, houtMint, hcsMint, hfee, bind, Except.bind]

theorem entryFor_mintBlock (hknown : node.Knows p) {nTime : ℕ} (hpos : 0 < nTime) :
    ∃ nFile nBlockPos, node.entryFor (timed testNet) (mintBlock p nTime) = .child
        ⟨nTime, nFile, nBlockPos, false, 0, false, nTime, 0x207fffff⟩ p ∧
      (nFile, nBlockPos) = (node.files.WriteToDisk (mintBlock p nTime)).2 := by
  have hprev : node.mapBlockIndex (mintBlock p nTime).hashPrevBlock = some p := hknown
  refine ⟨_, _, ?_, rfl⟩
  simp only [Node.entryFor, CBlock.newIndex, hprev, mintBlock_hash hpos]
  rfl

/-- A node takes the proof-of-work block, and its supply grows by almost a million coins. -/
theorem Tip.mint (h : Tip node p) (hhigh : STAKE_INTEREST_V3 < p.nHeight)
    (hlater : p.label.nTime + 2 < nTime) (hclock : nTime ≤ 10 ^ 8) :
    ∃ node' pindex view, ProcessBlock (timed testNet) io node (mintBlock p nTime) = .ok node' ∧
      node'.pindexBest = some pindex ∧ CBlockIndex.pprev pindex = some p ∧
      node'.files = (node.store (timed testNet) (mintBlock p nTime)).files ∧
      pindex = node.entryFor (timed testNet) (mintBlock p nTime) ∧ view.Reads node'.files ∧
      (mintBlock p nTime).ConnectBlock (timed testNet) view node.txdb.txindex node.toGlobals
        pindex = .ok (node'.txdb.txindex, node'.toGlobals) ∧
      node'.nMoneySupply pindex = mined + 999999 * COIN := by
  have hlow := h.late
  have hbound : STAKE_INTEREST_V3 = 150000 := rfl
  have hV3 : POS_v3_DIFFICULTY_HEIGHT = 100000 := rfl
  have hlast : LAST_POW_BLOCK = 12815 := rfl
  have hpos : 0 < nTime := by omega
  obtain ⟨nFile, nBlockPos, hentry, hplace⟩ := entryFor_mintBlock h.known hpos
  have hread := (h.buried.write h.stored (mintBlock p nTime)).1
  have hdeep : CBlockIndex.depthOf coinPos.nFile coinPos.nBlockPos 10
      (node.entryFor (timed testNet) (mintBlock p nTime)) 0 = none := by
    rw [hentry]
    exact h.deep hplace
  have hparent : CBlockIndex.pprev (node.entryFor (timed testNet) (mintBlock p nTime)) =
      some p := by
    rw [hentry]
    rfl
  have hstake : (mintBlock p nTime).IsProofOfStake = false := (payFee_checks (nTime - 2)).2.1
  have htarget : checkTarget (timed testNet) io node p (mintBlock p nTime) = .ok () := by
    have hnBits : (mintBlock p nTime).nBits =
        GetNextTargetRequired (timed testNet) p (mintBlock p nTime).IsProofOfStake COIN := by
      rw [hstake, h.work.target (by omega) COIN]
      rfl
    simp only [checkTarget, h.mint_acceptFees hlater hdeep, require, if_pos hnBits, bind,
      Except.bind]
  have hkernel : checkKernel (timed testNet) io node p (mintBlock p nTime) = .ok () := by
    simp only [checkKernel, hstake, Bool.false_eq_true, if_false]
  have hpow : ¬((mintBlock p nTime).IsProofOfWork = true ∧
      LAST_POW_BLOCK < GetPowHeight p + 1) := by
    rw [h.getPowHeight (by omega)]
    exact fun hlate => absurd hlate.2 (by decide)
  have hplain : ∀ tx ∈ (mintBlock p nTime).vtx,
      tx.nVersion ≠ CTransaction.DION_TX_VERSION ∧ tx.nLockTime = 0 := by
    intro tx htx
    simp only [mintBlock, List.mem_cons, List.not_mem_nil, or_false] at htx
    rcases htx with rfl | rfl | rfl
    · exact ⟨show (1 : ℤ) ≠ 5 by decide, rfl⟩
    · exact ⟨show (1 : ℤ) ≠ 5 by decide, rfl⟩
    · exact ⟨show (1 : ℤ) ≠ 5 by decide, rfl⟩
  have hchecks : acceptBlockChecks (timed testNet) io node p (mintBlock p nTime) = .ok () :=
    acceptBlockChecks_timed rfl rfl rfl hpow (fun hcs => absurd (hstake.symm.trans hcs) (by decide))
      htarget hkernel (fun tx htx => (hplain tx htx).2) h.rising (by omega) hclock
  have hstored : ((node.store (timed testNet) (mintBlock p nTime)).view io).files.readTx coinPos =
      some firstCoin := hread
  obtain ⟨T, hconnect⟩ := h.mint_connectBlock hlater hclock hstored hparent hdeep
  have habsent : ∀ tx ∈ (mintBlock p nTime).vtx,
      node.mempool.exists_ (tx.GetHash (timed testNet)) = false := by
    intro tx htx
    simp only [mintBlock, List.mem_cons, List.not_mem_nil, or_false] at htx
    rcases htx with rfl | rfl | rfl
    · exact h.idle ((Nat.sub_le nTime 1).trans hclock)
    · exact h.idle ((Nat.sub_le nTime 2).trans hclock)
    · exact h.idle hclock
  have hinner := @setBestChainInner_ok _ io _ _ _ _ _ hconnect rfl (store_blocks node _)
    (fun tx htx => (hplain tx htx).1) habsent
  have htrust : node.nBestChainTrust <
      (node.entryFor (timed testNet) (mintBlock p nTime)).nChainTrust := by
    have hone := @GetBlockTrust_pos (node.entryFor (timed testNet) (mintBlock p nTime))
      (by rw [hentry]; exact ⟨show 0 < SetCompact 0x207fffff by decide,
        show SetCompact 0x207fffff < 2 ^ 256 by decide⟩)
    rw [hentry] at hone ⊢
    simp only [Node.nBestChainTrust, h.best, CBlockIndex.nChainTrust]
    omega
  have hversion : (mintBlock p nTime).nVersion ≤ CBlock.CURRENT_VERSION :=
    show (7 : ℤ) ≤ CBlock.CURRENT_VERSION by decide
  have hnew : node.mapBlockIndex ((mintBlock p nTime).GetHash (timed testNet)) = none := by
    rw [mintBlock_hash hpos]
    exact (h.fresh (show p.label.nTime < nTime by omega) hclock).1
  have hprev : node.mapBlockIndex (mintBlock p nTime).hashPrevBlock = some p := h.known
  have haccept := acceptBlock_tip hversion hnew hprev hchecks rfl htrust
    h.grown.reaches.genesis_isSome h.pointer.symm hinner
  have hprocess : ProcessBlock (timed testNet) io node (mintBlock p nTime) =
      (mintBlock p nTime).AcceptBlock (timed testNet) io node := by
    rw [ProcessBlock, mintBlock_checkBlock (by omega) hclock, require, if_pos rfl]
    rfl
  exact ⟨_, _, _, hprocess.trans haccept, rfl, hparent, rfl, rfl, fun _ _ hread => hread, hconnect,
    Function.update_self _ _ _⟩

end Scenario

variable (env : Env)

/-- Blocks are connected on a chain of a reachable node, and all of them account for their totals:
between any two of them the recorded supply follows the value of the index, and the next block
obeys the law. -/
theorem money_supply_follows_index {C : Io → Node → CBlockIndex → CBlock → Prop} {node : Node}
    {files : BlockFile} {s₀ s s' : SupplyState} (hmaturity : 0 < env.nCoinbaseMaturity)
    (hnode : Reaches env C node)
    (hfiles : ∀ pos tx, node.files.readTx pos = some tx → files.readTx pos = some tx)
    (hindex : s₀.txdb = node.txdb.txindex)
    (hbelow : SupplyRun env files (fun s => s.Accounts env files) s₀ s)
    (hrun : SupplyRun env files (fun s => s.Accounts env files) s s') :
    s'.g.nMoneySupply s'.tip - s'.g.nMoneySupply s.tip =
        unspentValue files s'.txdb - unspentValue files s.txdb ∧
      ∀ view block s'', Connects env files view block s' s'' →
        s'.Accounts env files s''.tip block →
          ∃ t, block.Tallies env view s' s''.tip t ∧ SupplyLaw env files block s' s'' t := by
  have hstart : Standing files (ledgerOf s₀.txdb) := by
    rw [hindex]
    exact hnode.indexed.2.standing hfiles
  have hstanding := hbelow.standing hstart
  obtain ⟨-, hrecorded, hdiff⟩ := supplyRun_law hmaturity hstanding hrun
  constructor
  · rw [hrecorded]
    exact hdiff
  · intro view block s'' hconnects haccounts
    exact hconnects.law hmaturity (hrun.standing hstanding) haccounts

namespace Scenario

/-- The coin stake that spends the first reward and adds a coin to it. -/
def rewardStake (nTime : ℕ) : CTransaction :=
  ⟨1, nTime, [coinIn 0], [⟨0, []⟩, payTo (626 * COIN)], 0, []⟩

theorem rewardStake_stakeTx (nTime : ℕ) : StakeTx nTime (rewardStake nTime) where
  coinStake := rfl
  time := rfl
  version := show (1 : ℤ) ≠ 5 by decide
  final := rfl
  checked := rfl
  size := Nat.le_of_ble_eq_true rfl
  sigOps := show (0 : ℕ) ≤ 5000 by decide

theorem rewardStake_created (p : CBlockIndex) (nTime : ℕ) :
    (stakeBlock p nTime (rewardStake nTime)).created = 626 * COIN := rfl

theorem rewardStake_consumed {files : BlockFile} {T : TxIndexMap} {spent : Option CDiskTxPos}
    (hlate : 1000 < nTime) (hread : files.readTx coinPos = some firstCoin)
    (hcoin : T 999 = some ⟨coinPos, [none, spent]⟩) :
    (stakeBlock p nTime (rewardStake nTime)).consumed (timed testNet) files T pindex =
      625 * COIN := by
  have hfirst : txSpends (timed testNet) files (ledgerOf T)
      (coinbasePos pindex, stakeCoinbase p nTime) = 0 := rfl
  have hentry : Ledger.apply (ledgerOf T) (txItem (timed testNet)
      (coinbasePos pindex, stakeCoinbase p nTime)) 999 =
        some (CTxIndex.entry ⟨coinPos, [none, spent]⟩) := by
    have hne : (999 : ℕ) ≠ nTime - 1 := by omega
    refine (Function.update_of_ne hne _ _).trans ?_
    rw [show (txItem (timed testNet) (coinbasePos pindex, stakeCoinbase p nTime)).inputs = [] from
      rfl, Ledger.setSlots, List.foldl_nil, ledgerOf, hcoin, Option.map_some]
  have hsecond : txSpends (timed testNet) files (Ledger.apply (ledgerOf T) (txItem (timed testNet)
      (coinbasePos pindex, stakeCoinbase p nTime))) (coinStakePos pindex p nTime,
        rewardStake nTime) = 625 * COIN := by
    have hinputs : (txItem (timed testNet) (coinStakePos pindex p nTime,
      rewardStake nTime)).inputs = [(999, 0)] := rfl
    have hworth : outputAt files coinPos 0 = 625 * COIN := by
      rw [outputAt_of_read hread]
      rfl
    rw [txSpends, Ledger.spends, hinputs, List.map_singleton, List.sum_singleton, Ledger.worth,
      hentry, Option.map_some, Option.getD_some]
    exact hworth
  rw [CBlock.consumed, positions_stakeBlock, sumAlong, sumAlong, sumAlong, hfirst, hsecond]
  rfl

theorem Tip.holds (h : Tip node p) {block : CBlock}
    (hnew : node.mapBlockIndex (block.GetHash (timed testNet)) = none) :
    (node.store (timed testNet) block).files.Holds (node.entryFor (timed testNet) block) block ∧
      unspentValue (node.store (timed testNet) block).files node.txdb.txindex ≤ 2 ^ 62 := by
  obtain ⟨hstored, hindexed⟩ := h.grown.reaches.indexed
  constructor
  · exact hstored.holds_store hnew
  · have hmined : mined ≤ 2 ^ 62 := by decide
    exact (unspentValue_store_le block hstored hindexed).trans (h.grown.worth.trans hmined)

/-- The block that stakes the first reward is connected, accounts for its totals and adds one coin to
the supply. -/
theorem Tip.supplyRun (h : Tip node p) (hnext : Next p nTime)
    (hhigh : STAKE_INTEREST_V3 < p.nHeight) :
    ∃ files s', (∀ pos tx, node.files.readTx pos = some tx → files.readTx pos = some tx) ∧
      SupplyRun (timed testNet) files (fun s => s.Accounts (timed testNet) files)
        ⟨node.txdb.txindex, node.toGlobals, p⟩ s' ∧ p.nHeight < s'.tip.nHeight ∧
      s'.g.nMoneySupply s'.tip - s'.g.nMoneySupply p = COIN := by
  obtain ⟨spent, hcoin⟩ := h.coin
  have hlow := h.late
  have hlater := hnext.later
  have hpos : 0 < nTime := by omega
  have hstake : (stakeBlock p nTime (rewardStake nTime)).IsProofOfStake = true :=
    (rewardStake_stakeTx nTime).coinStake
  have hnew : node.mapBlockIndex
      ((stakeBlock p nTime (rewardStake nTime)).GetHash (timed testNet)) = none := by
    rw [stakeBlock_hash hpos]
    exact (h.fresh (show p.label.nTime < nTime by omega) hnext.clock).1
  obtain ⟨hholds, hworth⟩ := h.holds hnew
  have hread := (h.buried.write h.stored (stakeBlock p nTime (rewardStake nTime))).1
  obtain ⟨nFile, nBlockPos, hentry, hplace⟩ :=
    entryFor_stakeBlock h.known hpos (rewardStake_stakeTx nTime).coinStake
  generalize node.entryFor (timed testNet) (stakeBlock p nTime (rewardStake nTime)) = pindex
    at hholds hentry
  have hparent : CBlockIndex.pprev pindex = some p := by
    rw [hentry]
    rfl
  have hup := nHeight_of_pprev hparent
  have hdeep : pindex.depthOf coinPos.nFile coinPos.nBlockPos 10 0 = none := by
    rw [hentry]
    exact h.deep hplace
  have hstored : ((node.store (timed testNet) (stakeBlock p nTime (rewardStake nTime))).view
      io).files.readTx coinPos = some firstCoin := hread
  have hout : (rewardStake nTime).GetValueOut = .ok (626 * COIN) := rfl
  have hconnect := h.connectStake hnext hcoin hstored hparent hup hdeep (rewardStake_stakeTx nTime)
    rfl rfl hout (show (100000000 : ℤ) ≤ 150000000 by decide) ⟨by decide, by decide⟩
  generalize hfiles : (node.store (timed testNet) (stakeBlock p nTime (rewardStake nTime))).files =
    files at hholds hworth
  have hkept : ∀ pos tx, node.files.readTx pos = some tx → files.readTx pos = some tx := by
    intro pos tx hpos
    rw [← hfiles]
    exact h.stored.readTx_write _ hpos
  have hconnects : Connects (timed testNet) files _ _
      ⟨node.txdb.txindex, node.toGlobals, p⟩ ⟨_, _, pindex⟩ :=
    ⟨fun _ _ hread => hfiles ▸ hread, hholds, hparent, by dsimp only; omega, hworth, hconnect⟩
  have haccounts : SupplyState.Accounts (timed testNet) ⟨node.txdb.txindex, node.toGlobals, p⟩
      files pindex (stakeBlock p nTime (rewardStake nTime)) := by
    have hconsumed : (stakeBlock p nTime (rewardStake nTime)).consumed (timed testNet) files
        node.txdb.txindex pindex = 625 * COIN :=
      rewardStake_consumed (by omega) (hkept _ _ h.buried.read) hcoin
    have hsupply : SupplyState.nMoneySupply ⟨node.txdb.txindex, node.toGlobals, p⟩ = mined :=
      h.supply
    constructor
    case work =>
      intro hwork
      simp [CBlock.IsProofOfWork, hstake] at hwork
    case consumed => exact hconsumed.trans_lt (by decide)
    case created =>
      rw [rewardStake_created]
      decide
    case added =>
      rw [hsupply, rewardStake_created]
      exact ⟨by decide, by decide⟩
    case supply =>
      dsimp only
      rw [hsupply, rewardStake_created, hconsumed]
      exact ⟨by decide, by decide⟩
  refine ⟨files, _, hkept, .connect .start hconnects haccounts, by dsimp only; omega, ?_⟩
  have hne : p ≠ pindex := by
    rintro rfl
    omega
  have hminted : int64 (626 * COIN - (payTo (625 * COIN)).nValue) = COIN := by decide
  have hgrown : int64 (mined + COIN) - mined = COIN := by decide
  dsimp only [mintStake]
  rw [Function.update_self, Function.update_of_ne hne, h.supply, hminted]
  exact hgrown

/-- On a chain of height 150001 a staked block spends 625 coins and creates 626. -/
theorem money_supply_follows_index_tall :
    ∃ (files : BlockFile) (s s' : SupplyState),
      SupplyRun (timed testNet) files (fun s => s.Accounts (timed testNet) files) s s' ∧
      s.tip.nHeight < s'.tip.nHeight ∧
      s'.g.nMoneySupply s'.tip - s'.g.nMoneySupply s.tip = COIN ∧
      unspentValue files s'.txdb - unspentValue files s.txdb = COIN := by
  obtain ⟨node, p, htip, hpaced, hheight, htime⟩ := exists_tall 149990 (by decide)
  have hnext : Next p (11008 + 64 * 149991) := ⟨by omega, by decide, by decide, (hpaced.workable 0).2⟩
  have hhigh : STAKE_INTEREST_V3 < p.nHeight := by
    rw [hheight]
    decide
  obtain ⟨files, s', hfiles, hrun, hup, hsupply⟩ := htip.supplyRun hnext hhigh
  obtain ⟨hlaw, -⟩ := money_supply_follows_index (timed testNet) (by decide) htip.grown.reaches
    hfiles rfl .start hrun
  exact ⟨files, _, s', hrun, hup, hsupply, hlaw.symm.trans hsupply⟩

/-- A node of height 150001 takes a proof-of-work block that creates almost a million coins. -/
theorem work_block_mints :
    ∃ (node node' : Node) (view : View) (block : CBlock) (p pindex : CBlockIndex),
      Reaches (timed testNet) AnyCall node ∧ node.pindexBest = some p ∧
      ProcessBlock (timed testNet) io node block = .ok node' ∧ node'.pindexBest = some pindex ∧
      Connects (timed testNet) node'.files view block ⟨node.txdb.txindex, node.toGlobals, p⟩
        ⟨node'.txdb.txindex, node'.toGlobals, pindex⟩ ∧
      block.IsProofOfWork = true ∧
      GetProofOfWorkReward (GetPowHeight pindex) 0 <
        node'.nMoneySupply pindex - node.nMoneySupply p := by
  obtain ⟨node, p, htip, -, hheight, htime⟩ := exists_tall 149990 (by decide)
  have hlow := htip.late
  have hclock : p.label.nTime + 3 ≤ 10 ^ 8 := by omega
  have hhigh : STAKE_INTEREST_V3 < p.nHeight := by
    rw [hheight]
    decide
  have hhash : (mintBlock p (p.label.nTime + 3)).GetHash (timed testNet) = p.label.nTime + 3 :=
    mintBlock_hash (by omega)
  have hnew : node.mapBlockIndex
      ((mintBlock p (p.label.nTime + 3)).GetHash (timed testNet)) = none := by
    rw [hhash]
    exact (htip.fresh (Nat.lt_add_of_pos_right (by decide)) hclock).1
  obtain ⟨hholds, hworth⟩ := htip.holds hnew
  obtain ⟨node', pindex, view, hprocess, hbest, hparent, hfiles, rfl, hreads, hconnect, hsupply⟩ :=
    htip.mint hhigh (Nat.add_lt_add_left (by decide) _) hclock
  have hup : (node.entryFor (timed testNet) (mintBlock p (p.label.nTime + 3))).nHeight =
      p.nHeight + 1 := nHeight_of_pprev hparent
  refine ⟨node, node', view, _, p, _, htip.grown.reaches, htip.best, hprocess, hbest, ?_, ?_, ?_⟩
  · refine ⟨hreads, hfiles ▸ hholds, hparent, ?_, hfiles ▸ hworth, hconnect⟩
    dsimp only
    omega
  · simp [CBlock.IsProofOfWork, CBlock.IsProofOfStake, mintBlock, (payFee_checks _).2.1]
  · rw [hsupply, htip.supply, GetProofOfWorkReward]
    split_ifs
    · decide
    · decide

end Scenario

end Dions
