import Dions.Verification.Scenario

/-! # The staker's test and the validator's

`CheckKernel` and `CheckProofOfStake` write the same rules out twice: the depth of the staked
output above the height of `V3` or its age below it, and then the kernel hash. They differ in what
they answer for an output that is too young. -/

namespace Dions

open Halting

variable (env : Env)
variable {files : BlockFile} {prevout : COutPoint}

/-- A coin stake with the time `nTime` whose first input spends `prevout` with a valid
signature. -/
structure Stakes (files : BlockFile) (node : Node) (nTime : ℤ) (prevout : COutPoint)
    (tx : CTransaction) : Prop where
  coinStake : tx.IsCoinStake = true
  time : (tx.nTime : ℤ) = nTime
  range : tx.nTime < 2 ^ 32
  spends : ∃ txin vin, tx.vin = txin :: vin ∧ txin.prevout = prevout
  signed : ∀ txindex txPrev, CTransaction.ReadFromDisk files node.txdb.txindex prevout =
    some (txindex, txPrev) → VerifySignature env txPrev tx 0 0 = true

/-- Below the height of `V3`, the block of the output is the minimum age old at the time. -/
def OldEnough (files : BlockFile) (node : Node) (nTime : ℤ) (prevout : COutPoint) : Prop :=
  env.V3 node.nBestHeight = true ∨ ∀ txindex txPrev block,
    CTransaction.ReadFromDisk files node.txdb.txindex prevout = some (txindex, txPrev) →
      files.blocks (txindex.pos.nFile, txindex.pos.nBlockPos) = some block →
        (minAgeTime env block.nTime : ℤ) ≤ nTime

def kernelPasses (node : Node) (pindexPrev : CBlockIndex) (nBits : ℕ) (nTime : ℤ)
    (prevout : COutPoint) (txPrev : CTransaction) (txindex : CTxIndex) (block : CBlock)
    (txout : CTxOut) : Bool :=
  CheckStakeKernelHash env node pindexPrev nBits block
    (txindex.pos.nTxPos - txindex.pos.nBlockPos) txPrev txout prevout (nTime % 2 ^ 32).toNat

variable {env}

theorem ReadFromDisk_output {txdb : TxIndexMap} {txindex : CTxIndex} {txPrev : CTransaction}
    (h : CTransaction.ReadFromDisk files txdb prevout = some (txindex, txPrev)) :
    ∃ txout, txPrev.vout[prevout.n]? = some txout := by
  unfold CTransaction.ReadFromDisk at h
  split at h
  · simp at h
  · split at h
    · simp at h
    · split at h
      · simp at h
      · rename_i hlt
        rw [Option.some.injEq, Prod.mk.injEq] at h
        rw [← h.2]
        exact ⟨_, List.getElem?_eq_getElem (Nat.not_le.mp hlt)⟩

theorem CheckKernel_read {node : Node} {pindexPrev : CBlockIndex} {nBits : ℕ} {nTime : ℤ}
    (h : CheckKernel env files node pindexPrev nBits nTime prevout = true) :
    ∃ txindex txPrev block txout,
      CTransaction.ReadFromDisk files node.txdb.txindex prevout = some (txindex, txPrev) ∧
        files.blocks (txindex.pos.nFile, txindex.pos.nBlockPos) = some block ∧
        txPrev.vout[prevout.n]? = some txout := by
  unfold CheckKernel at h
  cases hread : CTransaction.ReadFromDisk files node.txdb.txindex prevout with
  | none => simp [hread] at h
  | some r =>
    obtain ⟨txindex, txPrev⟩ := r
    obtain ⟨txout, hout⟩ := ReadFromDisk_output hread
    cases hblock : files.blocks (txindex.pos.nFile, txindex.pos.nBlockPos) with
    | none => simp [hread, hblock] at h
    | some block => exact ⟨txindex, txPrev, block, txout, rfl, hblock, hout⟩

section Read

variable {files : BlockFile} {node : Node} {pindexPrev : CBlockIndex} {nBits : ℕ} {nTime : ℤ}
  {prevout : COutPoint} {tx txPrev : CTransaction} {txindex : CTxIndex} {block : CBlock}
  {txout : CTxOut}

/-- What the staker's test asks of an output that has been read. -/
theorem CheckKernel_eq
    (hread : CTransaction.ReadFromDisk files node.txdb.txindex prevout = some (txindex, txPrev))
    (hblock : files.blocks (txindex.pos.nFile, txindex.pos.nBlockPos) = some block)
    (hout : txPrev.vout[prevout.n]? = some txout) :
    CheckKernel env files node pindexPrev nBits nTime prevout =
      if env.V3 node.nBestHeight then
        minBase txindex pindexPrev (env.nStakeMinConfirmations - 1) &&
          kernelPasses env node pindexPrev nBits nTime prevout txPrev txindex block txout
      else if nTime < minAgeTime env block.nTime then true
      else kernelPasses env node pindexPrev nBits nTime prevout txPrev txindex block txout := by
  simp only [CheckKernel, hread, hblock, hout, kernelPasses]

/-- What the validator asks of a signed coin stake whose output has been read. -/
theorem CheckProofOfStake_eq (h : Stakes env files node nTime prevout tx)
    (hread : CTransaction.ReadFromDisk files node.txdb.txindex prevout = some (txindex, txPrev))
    (hblock : files.blocks (txindex.pos.nFile, txindex.pos.nBlockPos) = some block)
    (hout : txPrev.vout[prevout.n]? = some txout) :
    CheckProofOfStake env files node pindexPrev tx nBits =
      ((if env.V3 node.nBestHeight then minBase txindex pindexPrev (env.nStakeMinConfirmations - 1)
        else decide ((minAgeTime env block.nTime : ℤ) ≤ nTime)) &&
          kernelPasses env node pindexPrev nBits nTime prevout txPrev txindex block txout) := by
  obtain ⟨txin, vin, hvin, hprevout⟩ := h.spends
  subst hprevout
  have hsame : (nTime % 2 ^ 32).toNat = tx.nTime := by
    have htime := h.time
    have hrange := h.range
    omega
  have hage : decide (minAgeTime env block.nTime ≤ tx.nTime) =
      decide ((minAgeTime env block.nTime : ℤ) ≤ nTime) := by
    rw [← h.time]
    simp
  simp only [CheckProofOfStake, h.coinStake, hvin, hread, h.signed _ _ hread, hblock, hout, hsame,
    hage, kernelPasses, Bool.not_true, Bool.false_eq_true, if_false]

end Read

/-- Whatever the staker's test lets through the validator lets through, exactly where the staked
output is old enough. -/
theorem checkKernel_checkProofOfStake_iff {files : BlockFile} {node : Node} {nTime : ℤ}
    {prevout : COutPoint} {tx : CTransaction} (h : Stakes env files node nTime prevout tx)
    (pindexPrev : CBlockIndex) (nBits : ℕ) :
    (CheckKernel env files node pindexPrev nBits nTime prevout = true →
      CheckProofOfStake env files node pindexPrev tx nBits = true) ↔
        OldEnough env files node nTime prevout := by
  constructor
  · intro himp
    by_cases hV3 : env.V3 node.nBestHeight = true
    · exact .inl hV3
    · refine .inr fun txindex txPrev block hread hblock => ?_
      obtain ⟨txout, hout⟩ := ReadFromDisk_output hread
      rw [CheckKernel_eq hread hblock hout, CheckProofOfStake_eq h hread hblock hout,
        if_neg hV3, if_neg hV3] at himp
      by_contra hyoung
      rw [if_pos (not_le.mp hyoung)] at himp
      simp [hyoung] at himp
  · intro hold hkernel
    obtain ⟨txindex, txPrev, block, txout, hread, hblock, hout⟩ := CheckKernel_read hkernel
    rw [CheckKernel_eq hread hblock hout] at hkernel
    rw [CheckProofOfStake_eq h hread hblock hout]
    by_cases hV3 : env.V3 node.nBestHeight = true
    · rw [if_pos hV3] at hkernel ⊢
      exact hkernel
    · have hage := (hold.resolve_left hV3) txindex txPrev block hread hblock
      rw [if_neg hV3, if_neg (not_lt.mpr hage)] at hkernel
      rw [if_neg hV3, decide_eq_true hage, Bool.true_and]
      exact hkernel

/-! ## Two rewards -/

namespace Scenario

def modifying : Env := { timed testNet with nextStakeModifier := fun _ => (0, true) }

/-- The node after a block at time 1000 and one at time 30000, with the tip. -/
def twoBlocks : Option (Node × CBlockIndex) :=
  match LoadGenesis modifying io genesisBlock >>= fun node => mineAll modifying io node
      [⟨testNet.hashGenesisBlock, 1000, 1, [payTo (625 * COIN)], []⟩,
        ⟨1000, 30000, 1, [payTo (625 * COIN)], []⟩] with
  | .ok node => node.pindexBest.map fun p => (node, p)
  | .error _ => none

/-- A coin stake, at time 30016, of the reward with this hash. -/
def stakeReward (hash : uint256) : CTransaction :=
  spending 30016 1 [⟨hash, 0⟩] [⟨0, []⟩, payTo (625 * COIN)]

/-- The answers of the two tests, with what the coin stake has to fulfil. -/
def testsAre (hash : uint256) (fKernel fProof : Bool) (node : Node) (p : CBlockIndex) : Bool :=
  (stakeReward hash).IsCoinStake &&
    ((CTransaction.ReadFromDisk node.files node.txdb.txindex ⟨hash, 0⟩).all
      fun r => VerifySignature modifying r.2 (stakeReward hash) 0 0) &&
    CheckKernel modifying node.files node p 0x207fffff 30016 ⟨hash, 0⟩ == fKernel &&
    CheckProofOfStake modifying node.files node p (stakeReward hash) 0x207fffff == fProof

theorem stakes_of_testsAre {hash : uint256} {fKernel fProof : Bool} {node : Node}
    {p : CBlockIndex} (h : testsAre hash fKernel fProof node p = true) :
    Stakes modifying node.files node 30016 ⟨hash, 0⟩ (stakeReward hash) ∧
      CheckKernel modifying node.files node p 0x207fffff 30016 ⟨hash, 0⟩ = fKernel ∧
      CheckProofOfStake modifying node.files node p (stakeReward hash) 0x207fffff = fProof := by
  simp only [testsAre, Bool.and_eq_true, beq_iff_eq] at h
  have hrange : 30016 < 2 ^ 32 := by decide
  refine ⟨⟨h.1.1.1, rfl, hrange, ⟨_, _, rfl, rfl⟩, ?_⟩, h.1.2, h.2⟩
  intro txindex txPrev hread
  have hsigned := h.1.1.2
  rw [hread] at hsigned
  exact hsigned

/-- The reward of the first block is old enough. -/
theorem checkKernel_checkProofOfStake_iff_reward : ∃ node p, twoBlocks = some (node, p) ∧
    CheckKernel modifying node.files node p 0x207fffff 30016 ⟨999, 0⟩ = true ∧
    OldEnough modifying node.files node 30016 ⟨999, 0⟩ := by
  have hrun : twoBlocks.any (fun r => testsAre 999 true true r.1 r.2) = true := by
    decide +kernel
  obtain ⟨⟨node, p⟩, htwo, htests⟩ := (Option.any_eq_true _ _).mp hrun
  obtain ⟨hstakes, hkernel, hproof⟩ := stakes_of_testsAre htests
  exact ⟨node, p, htwo, hkernel,
    (checkKernel_checkProofOfStake_iff hstakes p 0x207fffff).mp fun _ => hproof⟩

/-- The reward of the second block, sixteen seconds old, passes the test of the staker and fails
that of the validator. -/
theorem stakeReward_tooYoung : ∃ node p, twoBlocks = some (node, p) ∧
    Stakes modifying node.files node 30016 ⟨29999, 0⟩ (stakeReward 29999) ∧
    CheckKernel modifying node.files node p 0x207fffff 30016 ⟨29999, 0⟩ = true ∧
    ¬CheckProofOfStake modifying node.files node p (stakeReward 29999) 0x207fffff = true := by
  have hrun : twoBlocks.any (fun r => testsAre 29999 true false r.1 r.2) = true := by
    decide +kernel
  obtain ⟨⟨node, p⟩, htwo, htests⟩ := (Option.any_eq_true _ _).mp hrun
  obtain ⟨hstakes, hkernel, hproof⟩ := stakes_of_testsAre htests
  exact ⟨node, p, htwo, hstakes, hkernel, by simp [hproof]⟩

end Scenario

end Dions
