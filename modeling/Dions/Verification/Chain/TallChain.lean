import Dions.Verification.Alias.Spending
import Dions.Verification.Chain.Staking
import Dions.Verification.Chain.Targets

/-! # Tall chains

A staked block every 64 seconds keeps the target workable, so a chain of any height up to a
million grows on the mined blocks. -/

namespace Dions

open Halting

variable {p : CBlockIndex} {node : Node}
variable {K : Set uint256}

namespace Scenario

/-! ## The pace of a chain -/

/-- A target that a block can have. -/
def Workable (nBits : ℕ) : Prop := 0 < SetCompact nBits ∧ SetCompact nBits < 2 ^ 256

theorem GetBlockTrust_pos {pindex : CBlockIndex} (h : Workable pindex.label.nBits) :
    0 < pindex.GetBlockTrust := by
  obtain ⟨hlow, hhigh⟩ := h
  have hnot : ¬ SetCompact pindex.label.nBits ≤ 0 := by omega
  have hone : 1 ≤ 2 ^ 256 / (SetCompact pindex.label.nBits + 1) := by
    rw [Int.le_ediv_iff_mul_le (by omega)]
    omega
  simp only [CBlockIndex.GetBlockTrust, if_neg hnot]
  omega

theorem workable_compact {x : ℤ} (hpos : 0 < x) (hlt : x < 2 ^ 256) : Workable (GetCompact x) :=
  ⟨rounded_pos hpos, (rounded_le hpos.le).trans_lt hlt⟩

/-- The last two staked blocks are not closer than the spacing, and the last one has a target that no
fees ease. -/
def Paced (p : CBlockIndex) : Prop :=
  ∀ d q, GetLastBlockIndex true p = .child d q → 2 ^ 207 ≤ SetCompact d.nBits ∧
    ∀ d' r, GetLastBlockIndex true q = .child d' r → d'.nTime + 64 ≤ d.nTime

/-- At that pace a target gets no harder. -/
theorem le_retargeted {t a s : ℤ} (ht : 0 ≤ t) (hs : s = 60 ∨ s = 64) (ha : 64 ≤ a) :
    t ≤ (t * ((nTargetTimespan / s - 1) * s + a + a)).tdiv ((nTargetTimespan / s + 1) * s) := by
  have hpos : (0 : ℤ) < (nTargetTimespan / s + 1) * s := by rcases hs with rfl | rfl <;> decide
  have hle : (nTargetTimespan / s + 1) * s ≤ (nTargetTimespan / s - 1) * s + a + a := by
    rcases hs with rfl | rfl
    · have hinterval : nTargetTimespan / 60 = 16 := rfl
      omega
    · have hinterval : nTargetTimespan / 64 = 15 := rfl
      omega
  rw [Int.tdiv_eq_ediv_of_nonneg (mul_nonneg ht (hpos.le.trans hle)), Int.le_ediv_iff_mul_le hpos]
  exact mul_le_mul_of_nonneg_left hle ht

/-- On a paced chain a rule that only limits such targets gives the next one. -/
theorem Paced.retarget (h : Paced p) {bnTargetLimit : ℤ} (hlimit : 2 ^ 207 ≤ bnTargetLimit)
    {spacing : ℤ → ℤ} (hspacing : ∀ a, 64 ≤ a → 64 ≤ spacing a) :
    ∃ x, 2 ^ 207 ≤ x ∧ x ≤ bnTargetLimit ∧ ∀ bound,
      (∀ y, 2 ^ 207 ≤ y → bound y = min y bnTargetLimit) →
        Dions.retarget bnTargetLimit spacing bound p true = GetCompact x := by
  have hs : GetTargetSpacing p.nHeight = 60 ∨ GetTargetSpacing p.nHeight = 64 := by
    rw [GetTargetSpacing]
    split_ifs
    · exact .inr rfl
    · exact .inl rfl
  cases hlast : GetLastBlockIndex true p with
  | root d => exact ⟨_, hlimit, le_rfl, fun bound _ => by rw [Dions.retarget, hlast]⟩
  | child d q =>
    obtain ⟨hbits, hpace⟩ := h d q hlast
    cases hbefore : GetLastBlockIndex true q with
    | root d' => exact ⟨_, hlimit, le_rfl, fun bound _ => by simp only [Dions.retarget, hlast, hbefore]⟩
    | child d' r =>
      have hapart := hpace d' r hbefore
      have hle := le_retargeted ((by decide : (0 : ℤ) ≤ 2 ^ 207).trans hbits) hs
        (hspacing ((d.nTime : ℤ) - d'.nTime) (by omega))
      refine ⟨_, le_min (hbits.trans hle) hlimit, min_le_right _ _, fun bound hbound => ?_⟩
      simp only [Dions.retarget, hlast, hbefore]
      rw [hbound _ (hbits.trans hle)]

/-- Above a quarter of the limit the fees make no difference. -/
theorem mitigate_of_large {bnTargetLimit nFees y : ℤ} (hlimit : bnTargetLimit.tdiv 4 ≤ y)
    (hy : 0 < y) : mitigate bnTargetLimit nFees y = min y bnTargetLimit := by
  rw [mitigate, if_neg (Int.not_lt.mpr hlimit)]
  split_ifs <;> omega

theorem target_tall (hhigh : POS_v3_DIFFICULTY_HEIGHT ≤ p.nHeight) (nFees : ℤ) :
    GetTargetSpacing p.nHeight = 64 ∧ GetNextTargetRequired (timed testNet) p true nFees =
      retarget bnProofOfStakeLimitV2 (spacingV3 (timed testNet) p.nHeight 64)
        (mitigate bnProofOfStakeLimitV2 nFees) p true := by
  have hbound : POS_v3_DIFFICULTY_HEIGHT = 100000 := rfl
  have hV2 : IsProtocolV2 p.nHeight = true := decide_eq_true (by omega)
  have hspacing : GetTargetSpacing p.nHeight = 64 := if_pos hV2
  refine ⟨hspacing, ?_⟩
  rw [GetNextTargetRequired, if_neg (by omega), if_neg (by omega), GetNextTargetRequiredV3,
    targetLimit, if_pos rfl, GetProofOfStakeLimit, if_pos hV2, hspacing]

/-- The next target of a tall paced chain, whatever the fees. -/
theorem Paced.targetTall (h : Paced p) (hhigh : POS_v3_DIFFICULTY_HEIGHT ≤ p.nHeight) :
    ∃ x, 2 ^ 207 ≤ x ∧ x ≤ bnProofOfStakeLimitV2 ∧
      ∀ nFees, GetNextTargetRequired (timed testNet) p true nFees = GetCompact x := by
  obtain ⟨x, hlow, hlimit, hnext⟩ := h.retarget (show 2 ^ 207 ≤ bnProofOfStakeLimitV2 by decide)
    (show ∀ a : ℤ, 64 ≤ a → 64 ≤ spacingV3 (timed testNet) p.nHeight 64 a from fun a ha => by
      rw [spacingV3]
      split_ifs <;> omega)
  refine ⟨x, hlow, hlimit, fun nFees => ?_⟩
  rw [(target_tall hhigh nFees).2]
  refine hnext _ fun y hy => mitigate_of_large ?_ (by omega)
  exact (show bnProofOfStakeLimitV2.tdiv 4 ≤ 2 ^ 207 by decide).trans hy

theorem Paced.target (h : Paced p) : ∃ x, 2 ^ 207 ≤ x ∧ x < 2 ^ 256 ∧
    ∀ nFees, GetNextTargetRequired (timed testNet) p true nFees = GetCompact x := by
  have hold : 2 ^ 207 ≤ bnProofOfStakeLimit ∧ bnProofOfStakeLimit < 2 ^ 256 := by decide
  have hnew : 2 ^ 207 ≤ bnProofOfStakeLimitV2 ∧ bnProofOfStakeLimitV2 < 2 ^ 256 := by decide
  by_cases hV1 : p.nHeight < 24376
  · obtain ⟨x, hlow, hhigh, hnext⟩ :=
      h.retarget hold.1 (show ∀ a : ℤ, 64 ≤ a → 64 ≤ id a from fun _ ha => ha)
    refine ⟨x, hlow, by omega, fun nFees => ?_⟩
    rw [GetNextTargetRequired, if_pos hV1, GetNextTargetRequiredV1, if_pos rfl]
    refine hnext _ fun y hy => ?_
    split_ifs <;> omega
  by_cases hV2 : p.nHeight < POS_v3_DIFFICULTY_HEIGHT
  · have hlimit : 2 ^ 207 ≤ targetLimit (timed testNet) p true ∧
        targetLimit (timed testNet) p true < 2 ^ 256 := by
      rw [targetLimit, if_pos rfl, GetProofOfStakeLimit]
      split_ifs
      · exact hnew
      · exact hold
    obtain ⟨x, hlow, hhigh, hnext⟩ := h.retarget hlimit.1 (show ∀ a : ℤ, 64 ≤ a →
      64 ≤ if a < 0 then GetTargetSpacing p.nHeight else a from fun a ha => by
        rwa [if_neg (by omega)])
    refine ⟨x, hlow, by omega, fun nFees => ?_⟩
    rw [GetNextTargetRequired, if_neg hV1, if_pos hV2, GetNextTargetRequiredV2]
    refine hnext _ fun y hy => ?_
    split_ifs <;> omega
  · obtain ⟨x, hlow, hhigh, hnext⟩ := h.targetTall (Nat.not_lt.mp hV2)
    exact ⟨x, hlow, by omega, hnext⟩

theorem Paced.workable (h : Paced p) (nFees : ℤ) :
    2 ^ 207 ≤ SetCompact (GetNextTargetRequired (timed testNet) p true nFees) ∧
      Workable (GetNextTargetRequired (timed testNet) p true nFees) := by
  obtain ⟨x, hlow, hhigh, htarget⟩ := h.target
  have hpos : (0 : ℤ) < 2 ^ 207 := by decide
  have hsame : rounded (2 ^ 207) = 2 ^ 207 := by decide
  rw [htarget nFees]
  exact ⟨hsame.symm.le.trans (rounded_mono hpos.le hlow), workable_compact (by omega) hhigh⟩

theorem getLastBlockIndex_mem (fProofOfStake : Bool) (p : CBlockIndex) :
    GetLastBlockIndex fProofOfStake p ∈ Lineage.line p := by
  induction p with
  | root d => exact List.mem_cons_self
  | child d p ih =>
    rw [GetLastBlockIndex]
    split
    · exact List.mem_cons_of_mem _ ih
    · exact List.mem_cons_self

theorem paced_child {d : BlockIndexData} (hstake : d.fProofOfStake = true)
    (hbits : 2 ^ 207 ≤ SetCompact d.nBits)
    (hrising : ∀ x ∈ Lineage.line p, x.label.nTime ≤ p.label.nTime)
    (hapart : p.label.nTime + 64 ≤ d.nTime) : Paced (.child d p) := by
  have hself : GetLastBlockIndex true (.child d p) = .child d p := by
    rw [GetLastBlockIndex, if_neg (not_not.mpr hstake)]
  rw [Paced, hself]
  rintro _ _ ⟨rfl, rfl⟩
  refine ⟨hbits, fun d' r hlast => ?_⟩
  have hmem := getLastBlockIndex_mem true p
  rw [hlast] at hmem
  exact (Nat.add_le_add_right (hrising _ hmem) 64).trans hapart

/-! ## The tip -/

/-- The first coin of the chain: a reward, and an output without value. -/
def firstCoin : CTransaction := coinbase 1 999 1 [payTo (625 * COIN), payTo 0]

def coinPos : CDiskTxPos := ⟨1, 98, 179⟩

/-- An input that spends one of its outputs. -/
def coinIn (n : ℕ) : CTxIn := ⟨⟨999, n⟩, [], UINT_MAX⟩

/-- The coin stake that spends the worthless output. -/
def restake (nTime : ℕ) : CTransaction := ⟨1, nTime, [coinIn 1], [⟨0, []⟩, payTo 0], 0, []⟩

theorem restake_stakeTx (nTime : ℕ) : StakeTx nTime (restake nTime) where
  coinStake := rfl
  time := rfl
  version := show (1 : ℤ) ≠ 5 by decide
  final := rfl
  checked := rfl
  size := Nat.le_of_ble_eq_true rfl
  sigOps := show (0 : ℕ) ≤ 5000 by decide

theorem spendsCoin {view : View} {T : TxIndexMap} {pindex : CBlockIndex} {flags n : ℕ}
    {tx : CTransaction} {txout : CTxOut} {first spent : Option CDiskTxPos}
    (hread : view.files.readTx coinPos = some firstCoin)
    (hT : T 999 = some ⟨coinPos, [first, spent]⟩) (hfirst : n = 0 → first = none)
    (hdeep : pindex.depthOf coinPos.nFile coinPos.nBlockPos 10 0 = none)
    (hvin : tx.vin = [coinIn n]) (hout : firstCoin.vout[n]? = some txout)
    (htime : 999 ≤ tx.nTime) :
    SpendsOne (timed testNet) view T pindex flags tx (coinIn n) ⟨coinPos, [first, spent]⟩ firstCoin
      txout := by
  have hcase : n = 0 ∧ txout = payTo (625 * COIN) ∨ n = 1 ∧ txout = payTo 0 := by
    rcases n with _ | _ | n
    · exact .inl ⟨rfl, (Option.some.inj hout).symm⟩
    · exact .inr ⟨rfl, (Option.some.inj hout).symm⟩
    · simp [firstCoin, coinbase] at hout
  refine ⟨hvin, rfl, hT, (if_neg (by decide : coinPos ≠ CDiskTxPos.memory)).trans hread, hout, ?_,
    fun _ => hdeep, htime, ?_, rfl, rfl, ?_⟩
  · rcases hcase with ⟨rfl, rfl⟩ | ⟨rfl, rfl⟩
    · exact ⟨none, by rw [hfirst rfl]; rfl, by simp⟩
    · exact ⟨spent, rfl, by simp [payTo]⟩
  · rcases hcase with ⟨-, rfl⟩ | ⟨-, rfl⟩
    · decide
    · decide
  · rcases hcase with ⟨-, rfl⟩ | ⟨-, rfl⟩
    · rfl
    · rfl

/-- A coin for the owner to stake: the reward of the second block. -/
def stakeCoin : CTransaction := coinbase 2 1999 1 [⟨625 * COIN, SetBitcoinAddress ownerHash⟩]

def stakePos : CDiskTxPos := ⟨1, 266, 347⟩

/-- A transaction that spends the first coin and pays a fee. -/
def payFee (nTime : ℕ) : CTransaction := ⟨1, nTime, [coinIn 0], [payTo (624 * COIN)], 0, []⟩

theorem payFee_checks (nTime : ℕ) :
    (payFee nTime).IsCoinBase = false ∧ (payFee nTime).IsCoinStake = false ∧
      (payFee nTime).GetSerializeSize ≤ 1000 ∧ (payFee nTime).CheckTransaction = true ∧
      (payFee nTime).GetLegacySigOpCount ≤ 5000 ∧
      (payFee nTime).GetValueOut = .ok (624 * COIN) ∧
      (payFee nTime).GetMinFee 1 .GMF_BLOCK 0 ≤ COIN ∧
        0 ≤ (payFee nTime).GetMinFee 1 .GMF_BLOCK 0 := by
  refine ⟨rfl, rfl, Nat.le_of_ble_eq_true rfl, rfl, show (0 : ℕ) ≤ 5000 by decide, rfl, ?_, ?_⟩
  · show (10000 : ℤ) ≤ COIN
    decide
  · show (0 : ℤ) ≤ 10000
    decide

/-- It waits in the pool, later than every block of the chain. -/
def pending : CTransaction := payFee (10 ^ 8 + 3)

/-- The input of the transaction that waits behind it. -/
def pendingIn : CTxIn := ⟨⟨10 ^ 8 + 3, 0⟩, [], UINT_MAX⟩

def dependent : CTransaction := ⟨1, 10 ^ 8 + 4, [pendingIn], [payTo (622 * COIN)], 0, []⟩

def poolTxs : List (uint256 × CTransaction) :=
  [(dependent.nTime, dependent), (pending.nTime, pending)]

/-- The transaction can be read from its place, in a block that is so deep below the entry. -/
structure Buried (node : Node) (p : CBlockIndex) (nDepth : ℕ) (pos : CDiskTxPos)
    (tx : CTransaction) : Prop where
  read : node.files.readTx pos = some tx
  block : (node.files.blocks (pos.nFile, pos.nBlockPos)).isSome = true
  deep : p.depthOf pos.nFile pos.nBlockPos nDepth 0 = none

section Buried

variable {node : Node} {p : CBlockIndex} {nDepth : ℕ} {pos : CDiskTxPos} {tx : CTransaction}

theorem Buried.mono (h : Buried node p nDepth pos tx) {n : ℕ} (hle : n ≤ nDepth) :
    Buried node p n pos tx :=
  ⟨h.read, h.block, depthOf_none_of_le hle h.deep⟩

/-- A new block goes to a new place, and the transaction can still be read. -/
theorem Buried.write {env : Env} (h : Buried node p nDepth pos tx)
    (hstored : Stored env node.files node.mapBlockIndex) (block : CBlock) :
    (node.files.WriteToDisk block).1.readTx pos = some tx ∧
      (node.files.WriteToDisk block).1.blocks (pos.nFile, pos.nBlockPos) =
        node.files.blocks (pos.nFile, pos.nBlockPos) ∧
      (node.files.WriteToDisk block).2 ≠ (pos.nFile, pos.nBlockPos) := by
  have hblock : pos.nBlockPos < node.files.size pos.nFile := by
    by_contra hle
    have hnone := (hstored.ended (pos.nFile, pos.nBlockPos) (Nat.le_of_not_lt hle)).1
    have hsome := h.block
    rw [hnone] at hsome
    simp at hsome
  refine ⟨hstored.readTx_write block h.read, writeToDisk_blocks_of_lt hblock, fun heq => ?_⟩
  have hplace : (node.files.WriteToDisk block).2 =
      (node.files.appendTo, node.files.size node.files.appendTo + 8) := rfl
  rw [hplace, Prod.mk.injEq] at heq
  rw [← heq.1, ← heq.2] at hblock
  omega

/-- One more block puts the transaction one deeper. -/
theorem Buried.next {env : Env} (h : Buried node p nDepth pos tx)
    (hstored : Stored env node.files node.mapBlockIndex) {block : CBlock} {node' : Node}
    {d : BlockIndexData} (hfiles : node'.files = (node.files.WriteToDisk block).1)
    (hplace : (d.nFile, d.nBlockPos) = (node.files.WriteToDisk block).2) :
    Buried node' (.child d p) (nDepth + 1) pos tx := by
  obtain ⟨hread, hkept, hother⟩ := h.write hstored block
  rw [← hplace, ne_eq, Prod.mk.injEq, not_and] at hother
  refine ⟨?_, ?_, depthOf_child_none (fun hat => hother hat.2 hat.1) h.deep⟩
  · rw [hfiles]
    exact hread
  · rw [hfiles, hkept]
    exact h.block

end Buried

def mined : ℤ := 11 * (625 * COIN)

/-- The hashes up to a time, and that of the genesis block. -/
def Seen (nTime : ℕ) : Set uint256 := {hash | hash ≤ nTime ∨ hash = testNet.hashGenesisBlock}

/-- The last two mined blocks below an entry. -/
def MinedLast (p : CBlockIndex) : Prop :=
  ∃ d q d' r, GetLastBlockIndex false p = .child d q ∧ GetLastBlockIndex false q = .child d' r ∧
    d.nTime = 11000 ∧ d'.nTime = 10000 ∧ d.nBits = 0x207fffff

/-- A node of the chain of staked blocks, with its tip. -/
structure Tip (node : Node) (p : CBlockIndex) : Prop where
  grown : Grown (timed testNet) (Seen p.label.nTime) mined node
  best : node.pindexBest = some p
  known : node.Knows p
  named : p.GetBlockHash = p.label.nTime
  rising : ∀ x ∈ Lineage.line p, x.label.nTime ≤ p.label.nTime
  high : 11 ≤ p.nHeight
  late : 11000 ≤ p.label.nTime
  pool : node.mempool.mapTx = poolTxs
  coin : ∃ spent, node.txdb.txindex 999 = some ⟨coinPos, [none, spent]⟩
  buried : Buried node p 10 coinPos firstCoin
  reward : node.txdb.txindex 1999 = some ⟨stakePos, [none]⟩
  rewardBuried : Buried node p 9 stakePos stakeCoin
  work : MinedLast p
  staked : countPow (p.nHeight - 11) p = 0
  supply : node.nMoneySupply p = mined

theorem entryFor_stakeBlock (hknown : node.Knows p) {nTime : ℕ} {tx : CTransaction}
    (hpos : 0 < nTime) (hcs : tx.IsCoinStake = true) :
    ∃ nFile nBlockPos, node.entryFor (timed testNet) (stakeBlock p nTime tx) = .child
        ⟨nTime, nFile, nBlockPos, true, 0, false, nTime,
          GetNextTargetRequired (timed testNet) p true 0⟩ p ∧
      (nFile, nBlockPos) = (node.files.WriteToDisk (stakeBlock p nTime tx)).2 := by
  have hprev : node.mapBlockIndex (stakeBlock p nTime tx).hashPrevBlock = some p := hknown
  refine ⟨_, _, ?_, rfl⟩
  simp only [Node.entryFor, CBlock.newIndex, hprev, stakeBlock_hash hpos]
  have hstake : (stakeBlock p nTime tx).IsProofOfStake = true := hcs
  rw [hstake]
  rfl

/-! ## One more block -/

def stakedNode (node : Node) (p : CBlockIndex) (nTime : ℕ) (spent : Option CDiskTxPos) : Node :=
  let block := stakeBlock p nTime (restake nTime)
  let pindex := node.entryFor (timed testNet) block
  newBest (((node.store (timed testNet) block).setGlobals
    (mintStake node.toGlobals pindex p 0)).attach
      (afterStake node.txdb.txindex pindex p nTime 2 (coinIn 1) ⟨coinPos, [none, spent]⟩) nTime
        pindex) nTime pindex

/-- What the next block of the chain has to meet. -/
structure Next (p : CBlockIndex) (nTime : ℕ) : Prop where
  later : p.label.nTime + 1 < nTime
  clock : nTime ≤ 10 ^ 8
  masked : nTime % 16 = 0
  target : Workable (GetNextTargetRequired (timed testNet) p true 0)

theorem unspent_of_none {T : TxIndexMap} {hash : uint256} (h : T hash = none) :
    overwritesUnspent T hash = false := by
  rw [overwritesUnspent, h]

theorem stakeBlock_created (p : CBlockIndex) (nTime : ℕ) :
    (stakeBlock p nTime (restake nTime)).created = 0 := rfl

namespace Tip

variable {node : Node} {p : CBlockIndex} {nTime : ℕ}

theorem V3 (h : Tip node p) : (timed testNet).V3 node.nBestHeight = true := by
  have hhigh := h.high
  have hnet : (timed testNet).fTestNet = true := rfl
  simp only [Node.nBestHeight, h.best, ChainParams.V3, hnet, if_true, decide_eq_true_eq]
  omega

theorem pointer (h : Tip node p) : node.hashBestChain = p.GetBlockHash := by
  obtain ⟨q, hq, hpointer⟩ := h.grown.pointer
  rw [h.best, Option.some.injEq] at hq
  rw [hpointer, hq]

/-- Hashes beyond the time of the tip are free. -/
theorem unseen (h : Tip node p) {hash : uint256} (hlater : p.label.nTime < hash)
    (hother : hash ≠ testNet.hashGenesisBlock) :
    node.mapBlockIndex hash = none ∧ node.txdb.txindex hash = none := by
  have hseen : hash ∉ Seen p.label.nTime := by
    rintro (hle | heq)
    · exact absurd hlater (Nat.not_lt.mpr hle)
    · exact hother heq
  constructor
  · cases hmap : node.mapBlockIndex hash with
    | none => rfl
    | some q => exact absurd (h.grown.blocks hash (by rw [hmap]; rfl)) hseen
  · cases htx : node.txdb.txindex hash with
    | none => rfl
    | some e =>
        have hentry : ledgerOf node.txdb.txindex hash = some e.entry := by
          simp [ledgerOf, htx]
        exact absurd (h.grown.entries hash e.entry hentry) hseen

theorem fresh (h : Tip node p) {hash : uint256} (hlater : p.label.nTime < hash)
    (hclock : hash ≤ 10 ^ 8) :
    node.mapBlockIndex hash = none ∧ node.txdb.txindex hash = none :=
  h.unseen hlater fun heq => absurd (heq ▸ hclock) (by decide)

theorem unmined (h : Tip node p) (hearly : p.label.nTime ≤ 10 ^ 8) :
    ∀ e ∈ poolTxs, node.txdb.txindex e.1 = none := by
  have hother : ∀ e ∈ poolTxs, 10 ^ 8 < e.1 ∧ e.1 ≠ testNet.hashGenesisBlock := by decide
  exact fun e he => (h.unseen (hearly.trans_lt (hother e he).1) (hother e he).2).2

theorem stored (h : Tip node p) : Stored (timed testNet) node.files node.mapBlockIndex :=
  h.grown.reaches.indexed.1

theorem idle (h : Tip node p) {hash : uint256} (hclock : hash ≤ 10 ^ 8) :
    node.mempool.exists_ hash = false := by
  have hne : hash ≠ pending.nTime := fun heq => absurd hclock (heq ▸ by decide)
  have hne' : hash ≠ dependent.nTime := fun heq => absurd hclock (heq ▸ by decide)
  simp [CTxMemPool.exists_, CTxMemPool.lookup, h.pool, poolTxs, hne, hne']

theorem deep (h : Tip node p) {d : BlockIndexData} {block : CBlock}
    (hplace : (d.nFile, d.nBlockPos) = (node.files.WriteToDisk block).2) :
    CBlockIndex.depthOf coinPos.nFile coinPos.nBlockPos 10 (.child d p) 0 = none := by
  have hnext : Buried { node with files := (node.files.WriteToDisk block).1 } (.child d p) 11
      coinPos firstCoin := h.buried.next h.stored rfl hplace
  exact (hnext.mono (by decide)).deep

/-- A coin stake that spends an output of the first coin is connected. -/
theorem connectStake (h : Tip node p) (hnext : Next p nTime) {spent : Option CDiskTxPos}
    (hcoin : node.txdb.txindex 999 = some ⟨coinPos, [none, spent]⟩) {view : View}
    {pindex : CBlockIndex} (hread : view.files.readTx coinPos = some firstCoin)
    (hparent : CBlockIndex.pprev pindex = some p) (hheight : pindex.nHeight = p.nHeight + 1)
    (hdeep : pindex.depthOf coinPos.nFile coinPos.nBlockPos 10 0 = none) {tx : CTransaction} {n : ℕ}
    {txout : CTxOut} {nValueOut : ℤ} (hstake : StakeTx nTime tx) (hvin : tx.vin = [coinIn n])
    (htxout : firstCoin.vout[n]? = some txout) (hout : tx.GetValueOut = .ok nValueOut)
    (hreward : int64 (nValueOut - txout.nValue) ≤ 150000000) (hfits : Fits64 nValueOut) :
    (stakeBlock p nTime tx).ConnectBlock (timed testNet) view node.txdb.txindex node.toGlobals
        pindex =
      .ok (afterStake node.txdb.txindex pindex p nTime tx.vout.length (coinIn n)
          ⟨coinPos, [none, spent]⟩,
        mintStake node.toGlobals pindex p (int64 (nValueOut - txout.nValue))) := by
  have hlater := hnext.later
  have hclock := hnext.clock
  have hlow := h.late
  have hhigh := h.high
  have hV3 : ∀ n : ℕ, 10 ≤ n → (timed testNet).V3 n = true := by
    intro n hn
    have hnet : (timed testNet).fTestNet = true := rfl
    simp only [ChainParams.V3, hnet, if_true, decide_eq_true_eq]
    omega
  have hfresh : p.label.nTime < nTime - 1 ∧ nTime - 1 ≤ 10 ^ 8 := by omega
  have hbelow : node.txdb.txindex (nTime - 1) = none := (h.fresh hfresh.1 hfresh.2).2
  have habove : node.txdb.txindex nTime = none := (h.fresh (by omega) hnext.clock).2
  have hne : (999 : ℕ) ≠ nTime - 1 := by omega
  have hfound : afterCoinbase node.txdb.txindex pindex nTime 999 =
      some ⟨coinPos, [none, spent]⟩ := by
    rw [afterCoinbase, Function.update_of_ne hne, hcoin]
  have hlate : 999 ≤ tx.nTime := by
    rw [hstake.time]
    omega
  have hspends : SpendsOne (timed testNet) view (afterCoinbase node.txdb.txindex pindex nTime)
      pindex (scriptFlags (timed testNet) pindex.nHeight) tx (coinIn n) ⟨coinPos, [none, spent]⟩
      firstCoin txout := spendsCoin hread hfound (fun _ => rfl) hdeep hvin htxout hlate
  have hdisk : CTransaction.ReadFromDisk view.files node.txdb.txindex (coinIn n).prevout =
      some (⟨coinPos, [none, spent]⟩, firstCoin) := by
    have hslot : ¬ firstCoin.vout.length ≤ (coinIn n).prevout.n :=
      Nat.not_le.mpr (List.getElem?_eq_some_iff.mp htxout).1
    have hhash : (coinIn n).prevout.hash = 999 := rfl
    simp only [CTransaction.ReadFromDisk, hhash, hcoin, hread, if_neg hslot]
  exact hstake.connectBlock (by omega) hparent (hV3 _ (by omega)) (hV3 _ (by omega)) hspends hout
    hdisk (unspent_of_none hbelow) (unspent_of_none habove) hreward hfits

theorem connectBlock (h : Tip node p) (hnext : Next p nTime) {spent : Option CDiskTxPos}
    (hcoin : node.txdb.txindex 999 = some ⟨coinPos, [none, spent]⟩) {view : View}
    {pindex : CBlockIndex} (hread : view.files.readTx coinPos = some firstCoin)
    (hparent : CBlockIndex.pprev pindex = some p) (hheight : pindex.nHeight = p.nHeight + 1)
    (hdeep : pindex.depthOf coinPos.nFile coinPos.nBlockPos 10 0 = none) :
    (stakeBlock p nTime (restake nTime)).ConnectBlock (timed testNet) view node.txdb.txindex
        node.toGlobals pindex =
      .ok (afterStake node.txdb.txindex pindex p nTime 2 (coinIn 1) ⟨coinPos, [none, spent]⟩,
        mintStake node.toGlobals pindex p 0) :=
  h.connectStake hnext hcoin hread hparent hheight hdeep (restake_stakeTx nTime) rfl rfl rfl
    (show (0 : ℤ) ≤ 150000000 by decide) ⟨by decide, by decide⟩

theorem processBlock (h : Tip node p) (hnext : Next p nTime) {spent : Option CDiskTxPos}
    (hcoin : node.txdb.txindex 999 = some ⟨coinPos, [none, spent]⟩) :
    ProcessBlock (timed testNet) io node (stakeBlock p nTime (restake nTime)) =
      .ok (stakedNode node p nTime spent) := by
  have hlater := hnext.later
  have hlow := h.late
  have hpos : 0 < nTime := by omega
  have hstake := restake_stakeTx nTime
  obtain ⟨nFile, nBlockPos, hentry, hplace⟩ := entryFor_stakeBlock h.known hpos hstake.coinStake
  have hread := (h.buried.write h.stored (stakeBlock p nTime (restake nTime))).1
  have hdeep : CBlockIndex.depthOf coinPos.nFile coinPos.nBlockPos 10
      (node.entryFor (timed testNet) (stakeBlock p nTime (restake nTime))) 0 = none := by
    rw [hentry]
    exact h.deep hplace
  have hlate : 999 ≤ (restake nTime).nTime := by
    simp only [restake]
    omega
  have hspends : SpendsOne (timed testNet) (node.view io) node.txdb.txindex
      (node.entryFor (timed testNet) (stakeBlock p nTime (restake nTime))) 0
      (restake nTime) (coinIn 1) ⟨coinPos, [none, spent]⟩ firstCoin (payTo 0) :=
    spendsCoin h.buried.read hcoin (by decide) hdeep rfl rfl hlate
  have hchecks : acceptBlockChecks (timed testNet) io node p (stakeBlock p nTime (restake nTime)) =
      .ok () := by
    refine hstake.acceptBlockChecks hspends h.buried.read rfl h.V3 h.buried.block
      (h.buried.mono (by decide)).deep hnext.target.1.le h.rising ?_ hnext.clock hnext.masked
    omega
  have hhash : (stakeBlock p nTime (restake nTime)).GetHash (timed testNet) = nTime :=
    stakeBlock_hash hpos
  have hconnect := @connectBlock node p nTime h hnext spent hcoin
    ((node.store (timed testNet) (stakeBlock p nTime (restake nTime))).view io)
    (node.entryFor (timed testNet) (stakeBlock p nTime (restake nTime))) hread
    (by rw [hentry]; rfl) (by rw [hentry]; rfl) hdeep
  have hplain : ∀ tx ∈ (stakeBlock p nTime (restake nTime)).vtx,
      tx.nVersion ≠ CTransaction.DION_TX_VERSION := by
    intro tx htx
    simp only [stakeBlock, List.mem_cons, List.not_mem_nil, or_false] at htx
    rcases htx with rfl | rfl
    · exact show (1 : ℤ) ≠ 5 by decide
    · exact hstake.version
  have habsent : ∀ tx ∈ (stakeBlock p nTime (restake nTime)).vtx,
      node.mempool.exists_ (tx.GetHash (timed testNet)) = false := by
    intro tx htx
    simp only [stakeBlock, List.mem_cons, List.not_mem_nil, or_false] at htx
    rcases htx with rfl | rfl
    · exact h.idle ((Nat.sub_le nTime 1).trans hnext.clock)
    · exact h.idle hnext.clock
  have hinner := @setBestChainInner_ok _ io _ _ _ _ _ hconnect rfl (store_blocks node _) hplain
    habsent
  have htrust : node.nBestChainTrust <
      (node.entryFor (timed testNet) (stakeBlock p nTime (restake nTime))).nChainTrust := by
    have hone := @GetBlockTrust_pos
        (node.entryFor (timed testNet) (stakeBlock p nTime (restake nTime)))
      (by rw [hentry]; exact hnext.target)
    rw [hentry] at hone ⊢
    simp only [Node.nBestChainTrust, h.best, CBlockIndex.nChainTrust]
    omega
  have hversion : (stakeBlock p nTime (restake nTime)).nVersion ≤ CBlock.CURRENT_VERSION :=
    show (7 : ℤ) ≤ CBlock.CURRENT_VERSION by decide
  have hnew : node.mapBlockIndex ((stakeBlock p nTime (restake nTime)).GetHash (timed testNet)) =
      none := by
    rw [hhash]
    exact (h.fresh (by omega) hnext.clock).1
  have hprev : node.mapBlockIndex (stakeBlock p nTime (restake nTime)).hashPrevBlock = some p :=
      h.known
  have haccept := acceptBlock_tip hversion hnew hprev hchecks rfl htrust
    h.grown.reaches.genesis_isSome h.pointer.symm hinner
  rw [ProcessBlock, hstake.checkBlock hpos, require, if_pos rfl]
  rw [hhash] at haccept
  exact haccept

theorem next (h : Tip node p) (hnext : Next p nTime) {spent : Option CDiskTxPos}
    (hcoin : node.txdb.txindex 999 = some ⟨coinPos, [none, spent]⟩) :
    Tip (stakedNode node p nTime spent)
      (node.entryFor (timed testNet) (stakeBlock p nTime (restake nTime))) := by
  have hlater := hnext.later
  have hlow := h.late
  have hpos : 0 < nTime := by omega
  have hstake := restake_stakeTx nTime
  have hrun := processBlock h hnext hcoin
  obtain ⟨nFile, nBlockPos, hentry, hplace⟩ := entryFor_stakeBlock h.known hpos hstake.coinStake
  have hhash : (stakeBlock p nTime (restake nTime)).GetHash (timed testNet) = nTime :=
      stakeBlock_hash hpos
  have hgrown : Grown (timed testNet) (Seen nTime) mined (stakedNode node p nTime spent) := by
    have htip : (stakeBlock p nTime (restake nTime)).hashPrevBlock = node.hashBestChain :=
        h.pointer.symm
    refine h.grown.processBlock htip ?_ ?_ ?_ ?_ hrun
    · rintro hash (hle | rfl)
      · exact .inl (hle.trans (show p.label.nTime ≤ nTime by omega))
      · exact .inr rfl
    · exact .inl hhash.le
    · intro tx htx
      simp only [stakeBlock, List.mem_cons, List.not_mem_nil, or_false] at htx
      rcases htx with rfl | rfl
      · exact .inl (Nat.sub_le nTime 1)
      · exact .inl le_rfl
    · rw [stakeBlock_created, add_zero]
  have hfiles : (stakedNode node p nTime spent).files =
      (node.files.WriteToDisk (stakeBlock p nTime (restake nTime))).1 := rfl
  have hsupply : (stakedNode node p nTime spent).nMoneySupply
      (node.entryFor (timed testNet) (stakeBlock p nTime (restake nTime))) =
        int64 (node.nMoneySupply p + 0) :=
    Function.update_self _ _ _
  have hslot : (stakedNode node p nTime spent).txdb.txindex 999 = some ⟨coinPos, [none, some
        (coinStakePos (node.entryFor (timed testNet) (stakeBlock p nTime (restake nTime))) p
          nTime)]⟩ := by
    have hne : (999 : ℕ) ≠ nTime := by omega
    exact (Function.update_of_ne hne _ _).trans (Function.update_self _ _ _)
  constructor
  case grown => rwa [hentry]
  case best => rfl
  case known => exact store_knows node _
  case named =>
    rw [hentry]
    rfl
  case rising =>
    rw [hentry]
    intro x hx
    rcases List.mem_cons.mp hx with rfl | hx
    · exact le_rfl
    · have hle : x.label.nTime ≤ p.label.nTime := h.rising x hx
      exact hle.trans (show p.label.nTime ≤ nTime by omega)
  case high =>
    rw [hentry]
    exact h.high.trans (Nat.le_succ _)
  case late =>
    rw [hentry]
    exact h.late.trans (show p.label.nTime ≤ nTime by omega)
  case pool => exact h.pool
  case coin => exact ⟨_, hslot⟩
  case buried =>
    rw [hentry]
    exact (h.buried.next h.stored hfiles hplace).mono (by decide)
  case reward =>
    have hfar : (1999 : ℕ) ≠ nTime ∧ (1999 : ℕ) ≠ nTime - 1 := by omega
    have hother : (1999 : ℕ) ≠ (coinIn 1).prevout.hash := by decide
    exact (Function.update_of_ne hfar.1 _ _).trans <| (Function.update_of_ne hother _ _).trans <|
      (Function.update_of_ne hfar.2 _ _).trans h.reward
  case rewardBuried =>
    rw [hentry]
    exact (h.rewardBuried.next h.stored hfiles hplace).mono (by decide)
  case work =>
    rw [hentry]
    exact h.work
  case staked =>
    rw [hentry]
    have hheight : CBlockIndex.nHeight (.child ⟨nTime, nFile, nBlockPos, true, 0, false, nTime,
        GetNextTargetRequired (timed testNet) p true 0⟩ p) - 11 = (p.nHeight - 11) + 1 :=
          Nat.sub_add_comm h.high
    rw [hheight]
    exact (Nat.zero_add _).trans h.staked
  case supply =>
    rw [hsupply, h.supply]
    rfl

theorem grow (h : Tip node p) (hnext : Next p nTime) : ∃ node' d, Tip node' (.child d p) ∧
    d.fProofOfStake = true ∧ d.nTime = nTime ∧
    d.nBits = GetNextTargetRequired (timed testNet) p true 0 := by
  obtain ⟨spent, hcoin⟩ := h.coin
  have hlow := h.late
  have hlater := hnext.later
  obtain ⟨nFile, nBlockPos, hentry, -⟩ :=
    entryFor_stakeBlock h.known (show 0 < nTime by omega) (restake_stakeTx nTime).coinStake
  have hnew := h.next hnext hcoin
  rw [hentry] at hnew
  exact ⟨_, _, hnew, rfl, rfl, rfl⟩

end Tip

/-! ## The mined blocks -/

/-- The blocks of a list extend the tip one after the other, and the last node meets `q`. -/
def extendsTip (q : Node → Bool) (node : Node) : List Mining → Bool
  | [] => q node
  | m :: ms =>
    decide (m.hashPrev = node.hashBestChain) &&
      match mine (timed testNet) io node m with
      | .error _ => false
      | .ok node' => extendsTip q node' ms

/-- What the coinbases of the blocks pay. -/
def rewards (ms : List Mining) : ℤ := (ms.map fun m => (m.reward.map CTxOut.nValue).sum).sum

theorem grown_mine {v : ℤ} {node' : Node} {m : Mining} (h : Grown (timed testNet) K v node)
    (htip : m.hashPrev = node.hashBestChain) (htxs : m.txs = []) (hpos : 0 < m.nTime)
    (hK : ∀ n ≤ m.nTime, n ∈ K) (hmine : mine (timed testNet) io node m = .ok node') :
    Grown (timed testNet) K (v + (m.reward.map CTxOut.nValue).sum) node' := by
  unfold mine at hmine
  split at hmine
  · simp at hmine
  · rename_i pprev hprev
    have hhash : (blockOn (timed testNet) pprev m.nTime
        (coinbase (pprev.nHeight + 1) (m.nTime - 1) m.nVersion m.reward :: m.txs)).GetHash
          (timed testNet) = m.nTime := by
      have hne : m.nTime ≠ 0 := by omega
      simp [CBlock.GetHash, blockOn, timed, hne]
    refine h.processBlock ?_ subset_rfl ?_ ?_ ?_ hmine
    · have hnamed := h.reaches.indexed.1.named _ _ hprev
      exact hnamed.trans htip
    · rw [hhash]
      exact hK _ le_rfl
    · intro tx htx
      simp only [blockOn, htxs, List.mem_singleton] at htx
      rw [htx]
      exact hK _ (Nat.sub_le _ _)
    · simp only [CBlock.created, blockOn, htxs, List.map_cons, List.map_nil, List.sum_cons,
        List.sum_nil, add_zero, CTransaction.created, coinbase]
      exact le_rfl

theorem extendsTip_grown {v : ℤ} {q : Node → Bool} {ms : List Mining}
    (h : Grown (timed testNet) K v node)
    (hms : ∀ m ∈ ms, m.txs = [] ∧ 0 < m.nTime ∧ ∀ n ≤ m.nTime, n ∈ K)
    (htest : extendsTip q node ms = true) :
    ∃ node', Grown (timed testNet) K (v + rewards ms) node' ∧ q node' = true := by
  induction ms generalizing node v with
  | nil => exact ⟨node, by simpa [rewards] using h, htest⟩
  | cons m ms ih =>
    obtain ⟨⟨htxs, hpos, hK⟩, hrest⟩ := List.forall_mem_cons.mp hms
    rw [extendsTip, Bool.and_eq_true, decide_eq_true_eq] at htest
    obtain ⟨htip, htest⟩ := htest
    split at htest
    · simp at htest
    · rename_i node' hmine
      obtain ⟨last, hlast, hq⟩ := ih (grown_mine h htip htxs hpos hK hmine) hrest htest
      refine ⟨last, ?_, hq⟩
      rwa [rewards, List.map_cons, List.sum_cons, ← add_assoc]

theorem grown_genesis (hgenesis : testNet.hashGenesisBlock ∈ K)
    (hload : LoadGenesis (timed testNet) io genesisBlock = .ok node)
    (hbest : node.pindexBest.isSome = true) : Grown (timed testNet) K 0 node := by
  have hreaches : Reaches (timed testNet) AnyCall node := loadGenesis_reaches hload
  have hgenesisHash : genesisBlock.GetHash (timed testNet) = testNet.hashGenesisBlock := by decide
  have hnode := loadGenesis_ok hgenesisHash hload hbest
  subst hnode
  constructor
  case reaches => exact hreaches
  case pointer => exact ⟨_, rfl, entryFor_hash Node.empty genesisBlock⟩
  case blocks =>
    intro hash hknown
    by_cases heq : hash = genesisBlock.GetHash (timed testNet)
    · rwa [heq, hgenesisHash]
    · have hnone : (Node.empty.store (timed testNet) genesisBlock).mapBlockIndex hash = none :=
        Function.update_of_ne heq _ _
      rw [newBest, hnone] at hknown
      simp at hknown
  case entries =>
    intro hash e he
    simp [newBest, ledgerOf] at he
  case worth => simp [newBest, unspentValue, Ledger.unspent, Ledger.entryValue, ledgerOf]

/-- The first blocks. The first coinbase has a worthless output beside the reward, and the second
one pays to the owner. -/
def firstCoins : List Mining :=
  ⟨testNet.hashGenesisBlock, 1000, 1, [payTo (625 * COIN), payTo 0], []⟩ ::
    ⟨1000, 2000, 1, [⟨625 * COIN, SetBitcoinAddress ownerHash⟩], []⟩ :: (firstBlocks 11).drop 2

def minedLast (p : CBlockIndex) : Bool :=
  match GetLastBlockIndex false p with
  | .root _ => false
  | .child d q =>
    match GetLastBlockIndex false q with
    | .root _ => false
    | .child d' _ => d.nTime == 11000 && d'.nTime == 10000 && d.nBits == 0x207fffff

def buriedAt (node : Node) (p : CBlockIndex) (nDepth : ℕ) (pos : CDiskTxPos)
    (tx : CTransaction) : Bool :=
  decide (node.files.readTx pos = some tx) &&
    (node.files.blocks (pos.nFile, pos.nBlockPos)).isSome &&
    (p.depthOf pos.nFile pos.nBlockPos nDepth 0).isNone

theorem buriedAt_spec {nDepth : ℕ} {pos : CDiskTxPos} {tx : CTransaction}
    (h : buriedAt node p nDepth pos tx = true) : Buried node p nDepth pos tx := by
  simp only [buriedAt, Bool.and_eq_true, decide_eq_true_eq, Option.isNone_iff_eq_none] at h
  exact ⟨h.1.1, h.1.2, h.2⟩

def readyToStake (node : Node) : Bool :=
  match node.pindexBest with
  | none => false
  | some p =>
    decide (node.mapBlockIndex p.GetBlockHash = some p) && p.GetBlockHash == 11000 &&
      p.label.nTime == 11000 && (Lineage.line p).all (fun x => x.label.nTime ≤ 11000) &&
      p.nHeight == 11 && decide (node.mempool.mapTx = poolTxs) &&
      decide (node.txdb.txindex 999 = some ⟨coinPos, [none, none]⟩) &&
      buriedAt node p 10 coinPos firstCoin &&
      decide (node.txdb.txindex 1999 = some ⟨stakePos, [none]⟩) &&
      buriedAt node p 9 stakePos stakeCoin && minedLast p &&
      decide (node.nMoneySupply p = mined) && (GetLastBlockIndex true p).parent?.isNone

/-- The node takes the two pending transactions, and is then ready for the first staked block. -/
def readyWithPending (node : Node) : Bool :=
  match AcceptToMemoryPool (timed testNet) io node pending with
  | .error _ => false
  | .ok node' =>
    match AcceptToMemoryPool (timed testNet) io node' dependent with
    | .error _ => false
    | .ok node'' => readyToStake node''

/-- The node behind the genesis block extends its tip by the first blocks, and takes the pending
transactions. -/
def minesFirst : Bool :=
  match LoadGenesis (timed testNet) io genesisBlock with
  | .error _ => false
  | .ok node => node.pindexBest.isSome && extendsTip readyWithPending node firstCoins

theorem minedLast_spec (h : minedLast p = true) : MinedLast p := by
  unfold minedLast at h
  split at h
  · simp at h
  · rename_i d q hlast
    split at h
    · simp at h
    · rename_i d' r hbefore
      simp only [Bool.and_eq_true, beq_iff_eq] at h
      exact ⟨d, q, d', r, hlast, hbefore, h.1.1, h.1.2, h.2⟩

theorem tip_of_ready (hgrown : Grown (timed testNet) (Seen 11000) mined node)
    (h : readyToStake node = true) :
    ∃ p, Tip node p ∧ Paced p ∧ p.nHeight = 11 ∧ p.label.nTime = 11000 := by
  unfold readyToStake at h
  split at h
  · simp at h
  rename_i p hbest
  simp only [Bool.and_eq_true, decide_eq_true_eq, beq_iff_eq, List.all_eq_true,
    Option.isNone_iff_eq_none] at h
  obtain ⟨⟨⟨⟨⟨⟨⟨⟨⟨⟨⟨⟨hknown, hnamed⟩, htime⟩, hrising⟩, hheight⟩, hpool⟩, hcoin⟩, hburied⟩,
    hreward⟩, hrewardBuried⟩, hwork⟩, hsupply⟩, hfirst⟩ := h
  refine ⟨p, ?_, ?_, hheight, htime⟩
  · constructor
    case grown => rwa [htime]
    case best => exact hbest
    case known => exact hknown
    case named => rw [hnamed, htime]
    case rising => rwa [htime]
    case high => exact hheight.ge
    case late => exact htime.ge
    case pool => exact hpool
    case coin => exact ⟨none, hcoin⟩
    case buried => exact buriedAt_spec hburied
    case reward => exact hreward
    case rewardBuried => exact buriedAt_spec hrewardBuried
    case work => exact minedLast_spec hwork
    case staked => rw [hheight]; rfl
    case supply => exact hsupply
  · intro d q hlast
    rw [hlast] at hfirst
    simp [Lineage.parent?] at hfirst

theorem exists_first :
    ∃ node p, Tip node p ∧ Paced p ∧ p.nHeight = 11 ∧ p.label.nTime = 11000 := by
  have htest : minesFirst = true := by decide +kernel
  unfold minesFirst at htest
  split at htest
  · simp at htest
  · rename_i node hload
    rw [Bool.and_eq_true] at htest
    have hgrown : Grown (timed testNet) (Seen 11000) 0 node :=
      grown_genesis (.inr rfl) hload htest.1
    have hms : ∀ m ∈ firstCoins, m.txs = [] ∧ 0 < m.nTime ∧ ∀ n ≤ m.nTime, n ∈ Seen 11000 := by
      have hall : ∀ m ∈ firstCoins, m.txs = [] ∧ 0 < m.nTime ∧ m.nTime ≤ 11000 := by decide
      intro m hm
      obtain ⟨htxs, hpos, hle⟩ := hall m hm
      exact ⟨htxs, hpos, fun n hn => .inl (hn.trans hle)⟩
    obtain ⟨last, hlast, hready⟩ := extendsTip_grown hgrown hms htest.2
    have hrewards : 0 + rewards firstCoins = mined := by decide
    rw [hrewards] at hlast
    unfold readyWithPending at hready
    split at hready
    · simp at hready
    · rename_i node' haccept
      split at hready
      · simp at hready
      · rename_i node'' haccept'
        exact ⟨node'', tip_of_ready ((hlast.acceptToMemoryPool haccept).acceptToMemoryPool haccept')
          hready⟩

/-- Chains of any height up to a million. -/
theorem exists_tall (n : ℕ) (hn : n ≤ 10 ^ 6) :
    ∃ node p, Tip node p ∧ Paced p ∧ p.nHeight = 11 + n ∧ p.label.nTime ≤ 11008 + 64 * n := by
  induction n with
  | zero =>
    obtain ⟨node, p, htip, hpaced, hheight, htime⟩ := exists_first
    exact ⟨node, p, htip, hpaced, hheight, by omega⟩
  | succ n ih =>
    obtain ⟨node, p, htip, hpaced, hheight, htime⟩ := ih (by omega)
    have hlow := htip.late
    obtain ⟨hbits, hworkable⟩ := hpaced.workable 0
    obtain ⟨node', d, hnew, hstake, hd, hsame⟩ :=
      htip.grow (show Next p (11008 + 64 * (n + 1)) from ⟨by omega, by omega, by omega, hworkable⟩)
    refine ⟨node', .child d p, hnew, ?_, congrArg (· + 1) hheight, hd.le⟩
    exact paced_child hstake (hsame ▸ hbits) htip.rising (by omega)

end Scenario

end Dions
