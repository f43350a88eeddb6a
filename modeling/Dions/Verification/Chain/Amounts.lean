import Dions.Verification.Index.Refinement

/-! # Amounts

The checks of a transaction bound every partial sum of its values, so the 64-bit sums of one
transaction are exact. -/

namespace Dions

open Halting

variable {pindexBlock : Option CBlockIndex}
variable {nValueOut v : ℤ} {tx : CTransaction} {nTime : ℕ} {vin : List CTxIn}

/-! ## 64-bit arithmetic -/

def Fits64 (n : ℤ) : Prop := -2 ^ 63 ≤ n ∧ n < 2 ^ 63

theorem Fits64.int64_eq {n : ℤ} (h : Fits64 n) : int64 n = n := by
  refine Int.bmod_eq_of_le ?_ ?_
  · have hlow := h.1
    omega
  · have hhigh := h.2
    omega

theorem fits64_int64 (n : ℤ) : Fits64 (int64 n) := by
  have hlow : -(2 ^ 64 / 2 : ℕ) ≤ n.bmod (2 ^ 64) := Int.le_bmod (by decide)
  have hhigh : n.bmod (2 ^ 64) < ((2 ^ 64 + 1) / 2 : ℕ) := Int.bmod_lt (by decide)
  unfold Fits64 int64
  omega

@[simp] theorem int64_int64_add (a b : ℤ) : int64 (int64 a + b) = int64 (a + b) := by
  simp [int64]

@[simp] theorem int64_add_int64 (a b : ℤ) : int64 (a + int64 b) = int64 (a + b) := by
  simp [int64]

@[simp] theorem int64_sub_int64 (a b : ℤ) : int64 (a - int64 b) = int64 (a - b) := by
  simp [int64]

theorem moneyRange_iff (n : ℤ) : MoneyRange n = true ↔ 0 ≤ n ∧ n < 2 ^ 63 := by
  have hmax : n ≤ MAX_MONEY ↔ n < 2 ^ 63 := Int.le_sub_one_iff
  simp only [MoneyRange, Bool.and_eq_true, decide_eq_true_eq, hmax]

/-- A sum of two amounts in range that is in range after wrapping has not wrapped. -/
theorem int64_add_in_range {a b : ℤ} (ha : 0 ≤ a ∧ a < 2 ^ 63) (hb : 0 ≤ b ∧ b < 2 ^ 63)
    (h : 0 ≤ int64 (a + b)) : int64 (a + b) = a + b := by
  by_cases hfits : Fits64 (a + b)
  · exact hfits.int64_eq
  · exfalso
    have hwrap : int64 (a + b) = a + b - 2 ^ 64 := by
      have heq : int64 (a + b) = int64 (a + b - 2 ^ 64) := by
        unfold int64
        exact (Int.sub_bmod_right (a + b) (2 ^ 64)).symm
      rw [heq]
      apply Fits64.int64_eq
      unfold Fits64 at hfits ⊢
      omega
    omega

/-! ## Outputs -/

namespace CTransaction

def created (tx : CTransaction) : ℤ := (tx.vout.map CTxOut.nValue).sum

theorem valueOutFrom_eq {vout : List CTxOut} (hacc : 0 ≤ nValueOut ∧ nValueOut < 2 ^ 63)
    (h : valueOutFrom vout nValueOut = some v) :
    v = nValueOut + (vout.map CTxOut.nValue).sum ∧ 0 ≤ v ∧ v < 2 ^ 63 := by
  induction vout generalizing nValueOut with
  | nil =>
      simp only [valueOutFrom, Option.some.injEq] at h
      subst h
      exact ⟨by simp, hacc⟩
  | cons txout vout ih =>
      simp only [valueOutFrom] at h
      split at h
      · rename_i hrange
        rw [Bool.and_eq_true, moneyRange_iff, moneyRange_iff] at hrange
        have hsum := int64_add_in_range hacc hrange.1 hrange.2.1
        obtain ⟨hv, hbounds⟩ := ih hrange.2 h
        refine ⟨?_, hbounds⟩
        rw [hv, hsum, List.map_cons, List.sum_cons, add_assoc]
      · simp at h

theorem getValueOut_ok (h : tx.GetValueOut = .ok v) : v = tx.created ∧ 0 ≤ v ∧ v < 2 ^ 63 := by
  unfold GetValueOut at h
  split at h
  · rename_i v' hv'
    rw [Except.ok.injEq] at h
    subst h
    have heq := valueOutFrom_eq (by decide) hv'
    rw [zero_add] at heq
    exact heq
  · simp at h

theorem checkOutputs_nonneg {userTx : Bool} {vout : List CTxOut}
    (h : checkOutputs userTx vout nValueOut = true) : ∀ txout ∈ vout, 0 ≤ txout.nValue := by
  induction vout generalizing nValueOut with
  | nil => simp
  | cons txout vout ih =>
      simp only [checkOutputs, Bool.and_eq_true, decide_eq_true_eq] at h
      obtain ⟨⟨⟨⟨-, hpos⟩, -⟩, -⟩, hrest⟩ := h
      exact List.forall_mem_cons.mpr ⟨hpos, ih hrest⟩

theorem CheckTransaction.outputs_nonneg (h : tx.CheckTransaction = true) :
    ∀ txout ∈ tx.vout, 0 ≤ txout.nValue := by
  simp only [CTransaction.CheckTransaction, Bool.and_eq_true] at h
  exact checkOutputs_nonneg h.1.1.2

theorem CheckTransaction.prevouts_nodup (h : tx.CheckTransaction = true) :
    (tx.vin.map CTxIn.prevout).Nodup := by
  simp only [CTransaction.CheckTransaction, Bool.and_eq_true, decide_eq_true_eq] at h
  exact h.1.2

end CTransaction

/-! ## Inputs -/

def MapPrevTx.valueOf (inputs : MapPrevTx) (txin : CTxIn) : ℤ :=
  ((inputs txin.prevout.hash).bind fun p => (p.2.vout[txin.prevout.n]?).map CTxOut.nValue).getD 0

variable (env : Env)

/-- What the first loop of `ConnectInputs` says of every input it lets pass. -/
structure InputPasses (inputs : MapPrevTx) (pindexBlock : Option CBlockIndex) (txin : CTxIn)
    (txindex : CTxIndex) (txPrev : CTransaction) (txout : CTxOut) : Prop where
  fetched : inputs txin.prevout.hash = some (txindex, txPrev)
  output : txPrev.vout[txin.prevout.n]? = some txout
  mature : (txPrev.IsCoinBase || txPrev.IsCoinStake) = true →
    CheckTransactionAtRelativeDepth pindexBlock txindex env.nCoinbaseMaturity = none

variable {env}

theorem InputPasses.valueOf {inputs : MapPrevTx} {txin : CTxIn} {txindex : CTxIndex}
    {txPrev : CTransaction} {txout : CTxOut}
    (h : InputPasses env inputs pindexBlock txin txindex txPrev txout) :
    inputs.valueOf txin = txout.nValue := by
  simp [MapPrevTx.valueOf, h.fetched, h.output]

theorem inputChecks_passes {inputs : MapPrevTx} {acc t : InputTally}
    (h : inputChecks env inputs pindexBlock nTime vin acc = .ok t) :
    ∀ txin ∈ vin, ∃ txindex txPrev txout,
      InputPasses env inputs pindexBlock txin txindex txPrev txout := by
  induction vin generalizing acc with
  | nil => simp
  | cons txin vin ih =>
      simp only [inputChecks] at h
      split at h
      · simp at h
      rename_i txindex txPrev hfetched
      split at h
      · simp at h
      rename_i txout hout
      simp only [seq_ok, require_eq_ok] at h
      obtain ⟨_, -, _, hmature, _, -, _, -, hrest⟩ := h
      exact List.forall_mem_cons.mpr ⟨⟨txindex, txPrev, txout, hfetched, hout, hmature⟩, ih hrest⟩

/-- The sum over the inputs is exact and in range. -/
theorem inputChecks_value {inputs : MapPrevTx} {acc t : InputTally}
    (hacc : 0 ≤ acc.nValueIn ∧ acc.nValueIn < 2 ^ 63)
    (h : inputChecks env inputs pindexBlock nTime vin acc = .ok t) :
    t.nValueIn = acc.nValueIn + (vin.map inputs.valueOf).sum ∧ 0 ≤ t.nValueIn ∧
      t.nValueIn < 2 ^ 63 := by
  induction vin generalizing acc with
  | nil =>
      simp only [inputChecks, Except.ok.injEq] at h
      subst h
      exact ⟨by simp, hacc⟩
  | cons txin vin ih =>
      simp only [inputChecks] at h
      split at h
      · simp at h
      rename_i txindex txPrev hfetched
      split at h
      · simp at h
      rename_i txout hout
      simp only [seq_ok, require_eq_ok, Bool.and_eq_true, moneyRange_iff] at h
      obtain ⟨_, -, _, -, _, -, _, ⟨hone, htotal⟩, hrest⟩ := h
      have hsum := int64_add_in_range hacc hone htotal.1
      have hvalue : inputs.valueOf txin = txout.nValue := by
        simp [MapPrevTx.valueOf, hfetched, hout]
      obtain ⟨ht, hbounds⟩ := ih htotal hrest
      refine ⟨?_, hbounds⟩
      rw [ht, hsum, List.map_cons, List.sum_cons, hvalue, add_assoc]

theorem valueInFrom_eq {inputs : MapPrevTx} {nResult : ℤ}
    (h : CTransaction.valueInFrom inputs vin nResult = .ok v) (hacc : Fits64 nResult) :
    v = int64 (nResult + (vin.map inputs.valueOf).sum) := by
  induction vin generalizing nResult with
  | nil =>
      simp only [CTransaction.valueInFrom, Except.ok.injEq] at h
      rw [← h, List.map_nil, List.sum_nil, add_zero, hacc.int64_eq]
  | cons txin vin ih =>
      simp only [CTransaction.valueInFrom, seq_ok] at h
      obtain ⟨txout, hout, hrest⟩ := h
      have hvalue : inputs.valueOf txin = txout.nValue := by
        unfold CTransaction.GetOutputFor at hout
        split at hout
        · simp at hout
        · rename_i p txPrev hfetched
          split at hout
          · simp at hout
          · rename_i txout' hout'
            rw [Except.ok.injEq] at hout
            simp [MapPrevTx.valueOf, hfetched, hout', hout]
      rw [ih hrest (fits64_int64 _), int64_int64_add, List.map_cons, List.sum_cons, hvalue,
        add_assoc]

end Dions
