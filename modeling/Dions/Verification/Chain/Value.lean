import Dions.Library.LedgerValue
import Dions.Verification.Chain.Amounts

/-! # The value of the transaction index

What connecting the transactions of a block does to the total value of the unspent outputs, and to
the sums that `ConnectBlock` keeps. The outputs of the coinbase and of the coin stake of the block
itself are not ripe: no other transaction of the block can spend them. -/

namespace Dions

open Halting

variable (env : Env)
variable {files : BlockFile} {pindex : CBlockIndex} {p : CDiskTxPos × CTransaction}
  {queued queued' txdb : TxIndexMap} {pindexBlock : Option CBlockIndex}
variable {pos : CDiskTxPos} {tx txPrev : CTransaction} {L : Ledger uint256 CDiskTxPos}
  {txindex : CTxIndex} {txout : CTxOut} {g g' : Globals}

/-! ## Values -/

/-- The value of an output of the transaction at a position. -/
def outputAt (files : BlockFile) (pos : CDiskTxPos) (n : ℕ) : ℤ :=
  ((files.readTx pos).bind fun tx => (tx.vout[n]?).map CTxOut.nValue).getD 0

/-- The total value of the unspent outputs of the index. -/
noncomputable def unspentValue (files : BlockFile) (txdb : TxIndexMap) : ℤ :=
  Ledger.unspent (outputAt files) (ledgerOf txdb)

/-- The position belongs to the coinbase or the coin stake of the block. -/
def unripe (files : BlockFile) (pindex : CBlockIndex) (pos : CDiskTxPos) : Bool :=
  pos.nFile == pindex.nFile && pos.nBlockPos == pindex.nBlockPos &&
    ((files.readTx pos).map fun tx => tx.IsCoinBase || tx.IsCoinStake).getD false

def ripeOutputAt (files : BlockFile) (pindex : CBlockIndex) (pos : CDiskTxPos) (n : ℕ) : ℤ :=
  if unripe files pindex pos then 0 else outputAt files pos n

def txSpends (files : BlockFile) (L : Ledger uint256 CDiskTxPos) (p : CDiskTxPos × CTransaction) :
    ℤ := Ledger.spends (outputAt files) L (txItem env p)

/-- The fee of a transaction; a coinbase and a coin stake pay none. -/
def txFee (files : BlockFile) (L : Ledger uint256 CDiskTxPos) (p : CDiskTxPos × CTransaction) :
    ℤ :=
  if p.2.IsCoinBase || p.2.IsCoinStake then 0 else txSpends env files L p - p.2.created

/-- A sum over transactions, each of them looked at on the ledger it comes to. -/
def sumAlong (f : Ledger uint256 CDiskTxPos → CDiskTxPos × CTransaction → ℤ) :
    Ledger uint256 CDiskTxPos → List (CDiskTxPos × CTransaction) → ℤ
  | _, [] => 0
  | L, p :: rest => f L p + sumAlong f (Ledger.apply L (txItem env p)) rest

/-! ## What is known of the index -/

/-- What a call reads is what is stored. -/
def View.Reads (view : View) (files : BlockFile) : Prop :=
  ∀ pos tx, view.files.readTx pos = some tx → files.readTx pos = some tx

/-- A checked transaction is stored at the position, which is not that of the memory pool. -/
def CheckedAt (files : BlockFile) (pos : CDiskTxPos) : Prop :=
  pos ≠ CDiskTxPos.memory ∧ ∃ tx, files.readTx pos = some tx ∧ tx.CheckTransaction = true

structure Standing (files : BlockFile) (L : Ledger uint256 CDiskTxPos) : Prop where
  finite : Ledger.FiniteEntries L
  checked : Ledger.Places (fun _ pos => CheckedAt files pos) L

/-- The transaction of a checked block at its position. -/
structure StoredTx (files : BlockFile) (pindex : CBlockIndex) (p : CDiskTxPos × CTransaction) :
    Prop where
  read : files.readTx p.1 = some p.2
  checked : p.2.CheckTransaction = true
  place : p.1.nFile = pindex.nFile ∧ p.1.nBlockPos = pindex.nBlockPos
  notMemory : p.1 ≠ CDiskTxPos.memory

variable {env}

theorem outputAt_of_read (h : files.readTx pos = some tx) (n : ℕ) :
    outputAt files pos n = ((tx.vout[n]?).map CTxOut.nValue).getD 0 := by
  simp [outputAt, h]

theorem CheckedAt.outputAt_nonneg (h : CheckedAt files pos) (n : ℕ) : 0 ≤ outputAt files pos n := by
  obtain ⟨-, tx, hread, hcheck⟩ := h
  rw [outputAt_of_read hread]
  cases hout : tx.vout[n]? with
  | none => simp
  | some txout =>
      simpa using CTransaction.CheckTransaction.outputs_nonneg hcheck txout
        (List.mem_of_getElem? hout)

theorem Standing.nonNeg (h : Standing files L) : Ledger.NonNeg (outputAt files) L :=
  fun hash e he => (h.checked hash e he).outputAt_nonneg

theorem Standing.ripe_nonNeg (h : Standing files L) (pindex : CBlockIndex) :
    Ledger.NonNeg (ripeOutputAt files pindex) L := by
  intro hash e he n
  unfold ripeOutputAt
  split
  · exact le_rfl
  · exact h.nonNeg hash e he n

theorem StoredTx.checkedAt (h : StoredTx files pindex p) : CheckedAt files p.1 :=
  ⟨h.notMemory, p.2, h.read, h.checked⟩

theorem Standing.apply (h : Standing files L) (hp : StoredTx files pindex p) :
    Standing files (Ledger.apply L (txItem env p)) :=
  ⟨h.finite.apply _, Ledger.places_apply h.checked hp.checkedAt⟩

/-! ## Outputs -/

theorem sum_getElem_range (vout : List CTxOut) :
    ∑ n ∈ Finset.range vout.length, ((vout[n]?).map CTxOut.nValue).getD 0 =
      (vout.map CTxOut.nValue).sum := by
  induction vout with
  | nil => rfl
  | cons txout vout ih =>
      rw [List.length_cons, Finset.sum_range_succ', List.map_cons, List.sum_cons, ← ih]
      simp [add_comm]

theorem makes_txItem (hp : StoredTx files pindex p) :
    Ledger.makes (outputAt files) (txItem env p) = p.2.created := by
  simp only [Ledger.makes, txItem, outputAt_of_read hp.read]
  exact sum_getElem_range p.2.vout

theorem StoredTx.unripe_eq (hp : StoredTx files pindex p) :
    unripe files pindex p.1 = (p.2.IsCoinBase || p.2.IsCoinStake) := by
  simp [unripe, hp.place.1, hp.place.2, hp.read]

theorem ripe_makes_txItem (hp : StoredTx files pindex p) :
    Ledger.makes (ripeOutputAt files pindex) (txItem env p) =
      if p.2.IsCoinBase || p.2.IsCoinStake then 0 else p.2.created := by
  have hripe : ∀ n, ripeOutputAt files pindex (txItem env p).place n =
      if p.2.IsCoinBase || p.2.IsCoinStake then 0 else outputAt files p.1 n := by
    intro n
    rw [← hp.unripe_eq]
    rfl
  simp only [Ledger.makes, hripe]
  split
  · simp
  · exact makes_txItem hp

/-! ## Inputs -/

/-- An input that passes the first loop spends the output behind its entry. -/
theorem InputPasses.worth {view : View} {inputs : MapPrevTx} {txin : CTxIn}
    (hview : view.Reads files) (hfetched : Fetched view (writeQueued txdb queued) inputs)
    (hL : Standing files (ledgerOf (writeQueued txdb queued)))
    (h : InputPasses env inputs pindexBlock txin txindex txPrev txout) :
    ledgerOf (writeQueued txdb queued) txin.slot.1 = some txindex.entry ∧
      files.readTx txindex.pos = some txPrev ∧
      outputAt files txindex.pos txin.prevout.n = txout.nValue ∧ 0 ≤ txout.nValue ∧
      outputValue view (ledgerOf (writeQueued txdb queued)) txin.slot = some txout.nValue := by
  obtain ⟨hentry, hread⟩ := hfetched _ _ _ h.fetched
  have hL' : ledgerOf (writeQueued txdb queued) txin.slot.1 = some txindex.entry := by
    simp [ledgerOf, CTxIn.slot, hentry]
  have hchecked : CheckedAt files txindex.pos := hL.checked _ _ hL'
  have hfile : files.readTx txindex.pos = some txPrev := by
    rw [readPrev, if_neg hchecked.1] at hread
    exact hview _ _ hread
  have hvalue : outputAt files txindex.pos txin.prevout.n = txout.nValue := by
    simp [outputAt_of_read hfile, h.output]
  refine ⟨hL', hfile, hvalue, hvalue ▸ hchecked.outputAt_nonneg _, ?_⟩
  simp only [outputValue, hL', Option.bind_some]
  simp [CTxIn.slot, CTxIndex.entry, hread, h.output]

theorem sum_valueOf {view : View} {inputs : MapPrevTx} {vin : List CTxIn} (hview : view.Reads files)
    (hfetched : Fetched view (writeQueued txdb queued) inputs)
    (hL : Standing files (ledgerOf (writeQueued txdb queued)))
    (h : ∀ txin ∈ vin, ∃ txindex txPrev txout,
      InputPasses env inputs pindexBlock txin txindex txPrev txout) :
    (vin.map inputs.valueOf).sum =
      ((vin.map CTxIn.slot).map
        (Ledger.worth (outputAt files) (ledgerOf (writeQueued txdb queued)))).sum := by
  rw [List.map_map]
  congr 1
  refine List.map_congr_left fun txin htxin => ?_
  obtain ⟨txindex, txPrev, txout, hpass⟩ := h txin htxin
  obtain ⟨hentry, -, hvalue, -⟩ := hpass.worth hview hfetched hL
  rw [hpass.valueOf, ← hvalue, Function.comp, Ledger.worth, hentry]
  rfl

/-- A mature input of another transaction is worth the same when ripe outputs only count. -/
theorem InputPasses.ripe {view : View} {inputs : MapPrevTx} {txin : CTxIn}
    (hmaturity : 0 < env.nCoinbaseMaturity) (hview : view.Reads files)
    (hfetched : Fetched view (writeQueued txdb queued) inputs)
    (hL : Standing files (ledgerOf (writeQueued txdb queued)))
    (h : InputPasses env inputs (some pindex) txin txindex txPrev txout) :
    Ledger.worth (ripeOutputAt files pindex) (ledgerOf (writeQueued txdb queued)) txin.slot =
      Ledger.worth (outputAt files) (ledgerOf (writeQueued txdb queued)) txin.slot := by
  obtain ⟨hentry, hread, -⟩ := h.worth hview hfetched hL
  have hripe : unripe files pindex txindex.pos = false := by
    by_contra htrue
    simp only [unripe, hread, Option.map_some, Option.getD_some, Bool.not_eq_false,
      Bool.and_eq_true, beq_iff_eq] at htrue
    obtain ⟨⟨hfile, hblock⟩, hkind⟩ := htrue
    have hdepth := h.mature hkind
    -- the entry of the block itself is at distance zero
    cases pindex with
    | root d =>
        simp [CheckTransactionAtRelativeDepth, CBlockIndex.depthOf, hmaturity, hfile, hblock,
          CBlockIndex.nFile, CBlockIndex.nBlockPos, Lineage.label] at hdepth
    | child d p =>
        simp [CheckTransactionAtRelativeDepth, CBlockIndex.depthOf, hmaturity, hfile, hblock,
          CBlockIndex.nFile, CBlockIndex.nBlockPos, Lineage.label] at hdepth
  have hworth : ripeOutputAt files pindex txindex.pos txin.prevout.n =
      outputAt files txindex.pos txin.prevout.n := by
    rw [ripeOutputAt, hripe]
    rfl
  simp only [Ledger.worth, hentry, Option.map_some, Option.getD_some]
  exact hworth

/-! ## One transaction -/

theorem isCoinStake_of_isCoinBase (h : tx.IsCoinBase = true) : tx.IsCoinStake = false := by
  unfold CTransaction.IsCoinBase at h
  unfold CTransaction.IsCoinStake
  split at h
  · rename_i txin hvin
    rw [Bool.and_eq_true] at h
    rw [hvin]
    split
    · rename_i txin' vin' txout hcons hvout
      rw [List.cons.injEq] at hcons
      rw [← hcons.1, h.1]
      rfl
    · rfl
  · simp at h

/-- What `ConnectInputs` checks of the sums of a transaction that is no coinbase. -/
theorem connectInputs_checks {view : View} {flags : ℕ} {inputs : MapPrevTx}
    (hcb : tx.IsCoinBase = false)
    (h : tx.ConnectInputs env view g inputs queued pos pindexBlock true false flags =
      .ok (queued', g')) :
    ∃ t, inputChecks env inputs pindexBlock tx.nTime tx.vin ⟨0, [], []⟩ = .ok t ∧
      (tx.IsCoinStake = false → tx.created ≤ t.nValueIn) := by
  simp only [CTransaction.ConnectInputs, hcb, Bool.false_eq_true, if_false, seq_ok,
    within_eq_ok] at h
  obtain ⟨t, hchecks, queued₁, -, h⟩ := h
  refine ⟨t, hchecks, fun hcs => ?_⟩
  rw [hcs] at h
  simp only [Bool.false_eq_true, if_false, seq_ok, within_eq_ok, require_eq_ok] at h
  obtain ⟨nValueOut, hout, _, hle, -⟩ := h
  exact (CTransaction.getValueOut_ok hout).1 ▸ hle

/-- What a transaction of a block does to the totals and to the sums of `ConnectBlock`. -/
structure Moves (env : Env) (files : BlockFile) (pindex : CBlockIndex)
    (L : Ledger uint256 CDiskTxPos) (p : CDiskTxPos × CTransaction) (t t' : Tally) : Prop where
  spends : 0 ≤ txSpends env files L p
  created : 0 ≤ p.2.created
  fee : 0 ≤ txFee env files L p
  coinbase : p.2.IsCoinBase = true → txSpends env files L p = 0
  total : Ledger.unspent (outputAt files) (Ledger.apply L (txItem env p)) =
    Ledger.unspent (outputAt files) L - txSpends env files L p + p.2.created
  ripe : Ledger.unspent (ripeOutputAt files pindex) (Ledger.apply L (txItem env p)) +
    txFee env files L p ≤ Ledger.unspent (ripeOutputAt files pindex) L
  valueIn : ∀ n, t.nValueIn = int64 n → t'.nValueIn = int64 (n + txSpends env files L p)
  valueOut : ∀ n, t.nValueOut = int64 n → t'.nValueOut = int64 (n + p.2.created)
  fees : ∀ n, t.nFees = int64 n → t'.nFees = int64 (n + txFee env files L p)
  reward : t'.nStakeReward =
    if p.2.IsCoinStake then p.2.created - txSpends env files L p else t.nStakeReward

theorem moves_coinbase {view : View} {t t' : Tally}
    (hL : Standing files (ledgerOf (writeQueued txdb queued))) (hp : StoredTx files pindex p)
    (hused : Ledger.UsedUp (ledgerOf (writeQueued txdb queued)) (p.2.GetHash env))
    (hcb : p.2.IsCoinBase = true)
    (h : connectTx env view txdb pindex p.1 queued g t p.2 = .ok (queued', g', t')) :
    Moves env files pindex (ledgerOf (writeQueued txdb queued)) p t t' := by
  simp only [connectTx, hcb, if_true, seq_ok, within_eq_ok, Except.ok.injEq, Prod.mk.injEq] at h
  obtain ⟨_, -, _, -, nValueOut, hout, -, -, rfl⟩ := h
  obtain ⟨rfl, hcreated, -⟩ := CTransaction.getValueOut_ok hout
  have hinputs : (txItem env p).inputs = [] := by simp [txItem, CTransaction.slots, hcb]
  have hzero : txSpends env files (ledgerOf (writeQueued txdb queued)) p = 0 := by
    simp [txSpends, Ledger.spends, hinputs]
  have hfee : txFee env files (ledgerOf (writeQueued txdb queued)) p = 0 := by simp [txFee, hcb]
  have hpays : ∀ value, Ledger.Pays value (ledgerOf (writeQueued txdb queued)) (txItem env p) := by
    intro value
    refine ⟨?_, ?_, ?_, hused⟩
    · simp [Ledger.Finds, hinputs]
    · simp [hinputs]
    · simp [hinputs]
  have hripe := Ledger.unspent_apply _ hL.finite (hpays (ripeOutputAt files pindex))
  rw [ripe_makes_txItem hp, hcb, Ledger.spends, hinputs] at hripe
  have htotal := Ledger.unspent_apply _ hL.finite (hpays (outputAt files))
  rw [makes_txItem hp] at htotal
  refine ⟨hzero.ge, hcreated, hfee.ge, fun _ => hzero, htotal, ?_, ?_, ?_, ?_, ?_⟩
  · rw [hfee, hripe]
    simp
  · intro n hn
    simpa [hzero] using hn
  · intro n hn
    simp [hn]
  · intro n hn
    simpa [hfee] using hn
  · simp [isCoinStake_of_isCoinBase hcb]

/-- A transaction that is no coinbase pays for the slots it spends, whichever outputs count. -/
theorem pays_of_accepts {view : View} {inputs : MapPrevTx} {value : CDiskTxPos → ℕ → ℤ}
    (hview : view.Reads files) (hfetched : Fetched view (writeQueued txdb queued) inputs)
    (hL : Standing files (ledgerOf (writeQueued txdb queued))) (hcb : p.2.IsCoinBase = false)
    (hcheck : p.2.CheckTransaction = true) (hpasses : ∀ txin ∈ p.2.vin, ∃ txindex txPrev txout,
      InputPasses env inputs pindexBlock txin txindex txPrev txout)
    (haccepts : Accepts view (ledgerOf (writeQueued txdb queued)) (txItem env p))
    (hused : Ledger.UsedUp (ledgerOf (writeQueued txdb queued)) (p.2.GetHash env))
    (hvalue : ∀ pos n, value pos n = 0 ∨ value pos n = outputAt files pos n) :
    Ledger.Pays value (ledgerOf (writeQueued txdb queued)) (txItem env p) := by
  have hslots : (txItem env p).inputs = p.2.vin.map CTxIn.slot := by
    simp [txItem, CTransaction.slots, hcb]
  refine ⟨haccepts.finds, ?_, fun o ho hworth => ?_, hused⟩
  · have hpairs : p.2.vin.map CTxIn.slot =
        (p.2.vin.map CTxIn.prevout).map fun o => (o.hash, o.n) := by
      rw [List.map_map]
      rfl
    rw [hslots, hpairs]
    refine (CTransaction.CheckTransaction.prevouts_nodup hcheck).map fun a b hab => ?_
    cases a
    cases b
    simpa using hab
  · have hmem := ho
    rw [hslots] at hmem
    obtain ⟨txin, htxin, rfl⟩ := List.mem_map.mp hmem
    obtain ⟨txindex, txPrev, txout, hpass⟩ := hpasses txin htxin
    obtain ⟨hentry, -, hout, hnonneg, houtput⟩ := hpass.worth hview hfetched hL
    refine haccepts.unspent _ ho _ houtput ?_
    -- a slot that counts has a value, and no value is negative
    simp only [Ledger.worth, hentry, Option.map_some, Option.getD_some] at hworth
    rcases hvalue txindex.entry.place txin.slot.2 with hzero | heq
    · exact absurd hzero hworth
    · rw [heq] at hworth
      have hne : txout.nValue ≠ 0 := hout ▸ hworth
      omega

theorem moves_spending {view : View} {t t' : Tally} (hmaturity : 0 < env.nCoinbaseMaturity)
    (hheight : STAKE_INTEREST_V3 < pindex.nHeight) (hview : view.Reads files)
    (hL : Standing files (ledgerOf (writeQueued txdb queued))) (hp : StoredTx files pindex p)
    (hused : Ledger.UsedUp (ledgerOf (writeQueued txdb queued)) (p.2.GetHash env))
    (hcb : p.2.IsCoinBase = false)
    (h : connectTx env view txdb pindex p.1 queued g t p.2 = .ok (queued', g', t')) :
    Moves env files pindex (ledgerOf (writeQueued txdb queued)) p t t' := by
  have haccepts := (connectTx_ok env h).2.1
  simp only [connectTx, hcb, Bool.false_eq_true, if_false, seq_ok, within_eq_ok] at h
  obtain ⟨_, -, _, -, h⟩ := h
  split at h
  · simp at h
  rename_i inputs hfetch
  simp only [seq_ok, within_eq_ok, Except.ok.injEq, Prod.mk.injEq] at h
  obtain ⟨_, -, _, -, nTxValueIn, hin, nTxValueOut, hout, ⟨queued₁, g₁⟩, hconnect, -, -, rfl⟩ := h
  obtain ⟨hfetched, -⟩ := fetchInputs_ok hcb hfetch
  obtain ⟨s, hchecks, hcovered⟩ := connectInputs_checks hcb hconnect
  obtain ⟨hcreated, hcreated_range⟩ := CTransaction.getValueOut_ok hout
  obtain ⟨hsum, hsum_range⟩ := inputChecks_value (by decide) hchecks
  have hpasses := inputChecks_passes hchecks
  have hslots : (txItem env p).inputs = p.2.vin.map CTxIn.slot := by
    simp [txItem, CTransaction.slots, hcb]
  have hspends : txSpends env files (ledgerOf (writeQueued txdb queued)) p =
      (p.2.vin.map inputs.valueOf).sum := by
    rw [txSpends, Ledger.spends, hslots, sum_valueOf hview hfetched hL hpasses]
  have htallied : s.nValueIn = txSpends env files (ledgerOf (writeQueued txdb queued)) p := by
    rw [hsum, hspends, zero_add]
  have hvalueIn : nTxValueIn = txSpends env files (ledgerOf (writeQueued txdb queued)) p := by
    simp only [CTransaction.GetValueIn, hcb, Bool.false_eq_true, if_false] at hin
    have heq := valueInFrom_eq hin ⟨by decide, by decide⟩
    rw [zero_add, ← hspends, ← htallied, Fits64.int64_eq ⟨by omega, hsum_range.2⟩] at heq
    rw [heq, htallied]
  rw [htallied] at hsum_range hcovered
  generalize hspent : txSpends env files (ledgerOf (writeQueued txdb queued)) p = spent at *
  subst hcreated
  subst hvalueIn
  have hpays : ∀ value : CDiskTxPos → ℕ → ℤ,
      (∀ pos n, value pos n = 0 ∨ value pos n = outputAt files pos n) →
      Ledger.Pays value (ledgerOf (writeQueued txdb queued)) (txItem env p) := fun value hvalue =>
    pays_of_accepts hview hfetched hL hcb hp.checked hpasses haccepts hused hvalue
  have htotal := Ledger.unspent_apply _ hL.finite (hpays (outputAt files) fun _ _ => .inr rfl)
  have hripe := Ledger.unspent_apply _ hL.finite (hpays (ripeOutputAt files pindex) fun pos n => by
    unfold ripeOutputAt
    split
    · exact .inl rfl
    · exact .inr rfl)
  rw [makes_txItem hp, ← txSpends, hspent] at htotal
  rw [ripe_makes_txItem hp, hcb, Bool.false_or] at hripe
  have hfee : txFee env files (ledgerOf (writeQueued txdb queued)) p =
      if p.2.IsCoinStake then 0 else nTxValueIn - p.2.created := by
    rw [txFee, hcb, hspent]
    rfl
  have hlow : ¬(p.2.IsCoinStake = true ∧ pindex.nHeight ≤ STAKE_INTEREST_V3) := by
    rintro ⟨-, hle⟩
    omega
  refine ⟨hspent.symm ▸ hsum_range.1, hcreated_range.1, ?_, ?_, hspent.symm ▸ htotal, ?_, ?_, ?_,
    ?_, ?_⟩
  · rw [hfee]
    split
    · exact le_rfl
    · rename_i hcs
      have hle := hcovered (by simpa using hcs)
      omega
  · rw [hcb]
    simp
  · rw [hfee]
    cases hcs : p.2.IsCoinStake with
    | true =>
        have hnonneg := Ledger.spends_nonneg _ (hL.ripe_nonNeg pindex) (txItem env p)
        rw [hcs] at hripe
        simp only [if_true] at hripe ⊢
        omega
    | false =>
        -- every input of the transaction is ripe
        have hsame : Ledger.spends (ripeOutputAt files pindex)
            (ledgerOf (writeQueued txdb queued)) (txItem env p) = nTxValueIn := by
          rw [← hspent, txSpends, Ledger.spends, Ledger.spends, hslots, List.map_map, List.map_map]
          congr 1
          refine List.map_congr_left fun txin htxin => ?_
          obtain ⟨txindex, txPrev, txout, hpass⟩ := hpasses txin htxin
          exact hpass.ripe hmaturity hview hfetched hL
        rw [hcs] at hripe
        simp only [Bool.false_eq_true, if_false] at hripe ⊢
        omega
  · intro n hn
    simp only [Tally.add, hn, int64_int64_add, hspent]
  · intro n hn
    simp only [Tally.add, if_neg hlow, hn, int64_int64_add]
  · intro n hn
    rw [hfee]
    simp only [Tally.add, if_neg hlow]
    split
    · rw [hn, add_zero]
    · rw [hn, int64_int64_add]
  · simp only [Tally.add, if_neg hlow, hspent]
    split
    · apply Fits64.int64_eq
      constructor
      · omega
      · omega
    · rfl

end Dions
