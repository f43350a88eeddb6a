import Dions.Verification.Chain.Sound
import Dions.Verification.Chain.Value

/-! # The money supply

Blocks are connected one on top of the other above `STAKE_INTEREST_V3`. As long as a proof-of-work
block holds no coin stake and the totals of a block fit their variables, the recorded supply
follows the value of the index, and no block adds more than its subsidy. -/

namespace Dions

open Halting

variable (env : Env)
variable {g g' : Globals} {tx : CTransaction} {pindexBlock : Option CBlockIndex}
  {T queued queued' txdb : TxIndexMap} {pindex : CBlockIndex}
  {rest : List (CDiskTxPos × CTransaction)} {t : Tally} {files : BlockFile} {block : CBlock}
variable {vTxindex : List CTxIndex} {fBlock fMiner fPOW fRoot fSig : Bool} {t' : Tally}
  {L : Ledger uint256 CDiskTxPos} {nFees : ℤ}

/-! ## The totals of a block -/

/-- What the inputs of the block spend, each of them looked up when its transaction comes. -/
def CBlock.consumed (files : BlockFile) (txdb : TxIndexMap) (pindex : CBlockIndex)
    (block : CBlock) : ℤ :=
  sumAlong env (txSpends env files) (ledgerOf txdb) (block.positions pindex)

def CBlock.created (block : CBlock) : ℤ := (block.vtx.map CTransaction.created).sum

def CBlock.fees (files : BlockFile) (txdb : TxIndexMap) (pindex : CBlockIndex)
    (block : CBlock) : ℤ :=
  sumAlong env (txFee env files) (ledgerOf txdb) (block.positions pindex)

/-! ## Chains of connected blocks -/

/-- The index and the globals after some calls of `ConnectBlock`, the last of them for the tip. -/
structure SupplyState where
  txdb : TxIndexMap
  g : Globals
  tip : CBlockIndex

variable {s s' : SupplyState}

namespace SupplyState

variable (s : SupplyState)

def nMoneySupply : ℤ := s.g.nMoneySupply s.tip

/-- What the totals of a block have to meet on a state. -/
structure Accounts (files : BlockFile) (pindex : CBlockIndex) (block : CBlock) : Prop where
  work : block.IsProofOfWork = true → ∀ tx ∈ block.vtx, tx.IsCoinStake = false
  consumed : block.consumed env files s.txdb pindex < 2 ^ 63
  created : block.created < 2 ^ 63
  added : Fits64 (s.nMoneySupply + block.created)
  supply : Fits64 (s.nMoneySupply + block.created - block.consumed env files s.txdb pindex)

end SupplyState

/-- `ConnectBlock` connects a stored block on the tip, above `STAKE_INTEREST_V3`, when the outputs
in the index sum to at most half of the money range. -/
structure Connects (files : BlockFile) (view : View) (block : CBlock) (s s' : SupplyState) :
    Prop where
  reads : view.Reads files
  holds : files.Holds s'.tip block
  parent : CBlockIndex.pprev s'.tip = some s.tip
  height : STAKE_INTEREST_V3 < s'.tip.nHeight
  affordable : unspentValue files s.txdb ≤ 2 ^ 62
  connected : block.ConnectBlock env view s.txdb s.g s'.tip = .ok (s'.txdb, s'.g)

/-- A run of blocks connected one on top of the other that meet `C`. -/
inductive SupplyRun (files : BlockFile) (C : SupplyState → CBlockIndex → CBlock → Prop)
    (start : SupplyState) : SupplyState → Prop
  | start : SupplyRun files C start start
  | connect {view : View} {block : CBlock} {s s' : SupplyState}
      (hrun : SupplyRun files C start s) (hconnects : Connects env files view block s s')
      (hC : C s s'.tip block) : SupplyRun files C start s'

/-- The sums of the loop of `ConnectBlock`. -/
def CBlock.Tallies (view : View) (s : SupplyState) (pindex : CBlockIndex) (block : CBlock)
    (t : Tally) : Prop :=
  ∃ queued g, connectLoop env view s.txdb pindex (block.positions pindex) (fun _ => none) s.g
    ⟨0, 0, 0, 0, 0⟩ = .ok (queued, g, t)

/-- The sums of `ConnectBlock` are those of the block and none has wrapped, the supply follows the
value of the index, and the value grows by no more than the subsidy. -/
structure SupplyLaw (files : BlockFile) (block : CBlock) (s s' : SupplyState) (t : Tally) :
    Prop where
  valueIn : t.nValueIn = block.consumed env files s.txdb s'.tip
  valueOut : t.nValueOut = block.created
  fees : t.nFees = block.fees env files s.txdb s'.tip
  mint : s'.g.nMint s'.tip = t.nValueOut - t.nValueIn + t.nFees
  supply : s'.nMoneySupply = s.nMoneySupply + t.nValueOut - t.nValueIn
  value : unspentValue files s'.txdb = unspentValue files s.txdb + t.nValueOut - t.nValueIn
  minted : t.nValueOut - t.nValueIn + t.nFees =
    if block.IsProofOfStake then t.nStakeReward
    else (block.vtx.head?.map CTransaction.created).getD 0
  work : block.IsProofOfWork = true →
    s'.nMoneySupply - s.nMoneySupply ≤ GetProofOfWorkReward (GetPowHeight s'.tip) 0
  stake : block.IsProofOfStake = true → env.V3 s'.tip.nHeight = true →
    s'.nMoneySupply - s.nMoneySupply ≤ 150000000

variable {env}

/-! ## The globals -/

theorem connectInputsSwitch_supply {pool : TxIndexMap} {prev : PrevAlias} {op : ℕ}
    {args : List vchType}
    (h : connectInputsSwitch env g pool tx prev vTxindex pindexBlock fBlock fMiner op args =
      .ok g') : g'.nMoneySupply = g.nMoneySupply := by
  unfold connectInputsSwitch at h
  split at h
  · simp only [seq_ok, within_eq_ok] at h
    obtain ⟨_, -, _, -, _, -, h⟩ := h
    split at h
    · rw [← Except.ok.inj h]
    · rw [← Except.ok.inj h]
  · split at h
    · simp only [seq_ok, within_eq_ok, Except.ok.injEq] at h
      obtain ⟨_, -, rfl⟩ := h
      rfl
    · split at h
      · simp only [seq_ok, within_eq_ok, Except.ok.injEq] at h
        obtain ⟨_, -, rfl⟩ := h
        rfl
      · split at h
        · simp only [seq_ok, within_eq_ok, Except.ok.injEq] at h
          obtain ⟨_, -, rfl⟩ := h
          rfl
        · split at h
          · simp only [seq_ok, within_eq_ok] at h
            obtain ⟨_, -, _, -, _, -, h⟩ := h
            split at h
            · simp only [seq_ok, within_eq_ok, Except.ok.injEq] at h
              obtain ⟨_, -, _, -, _, -, rfl⟩ := h
              rfl
            · rw [← Except.ok.inj h]
          · split at h
            · simp only [seq_ok, within_eq_ok, Except.ok.injEq] at h
              obtain ⟨_, -, _, -, _, -, rfl⟩ := h
              rfl
            · simp at h

theorem connectInputsPost_supply {view : View} {pool : TxIndexMap} {vTxPrev : List CTransaction}
    (h : ConnectInputsPost env view g pool tx vTxPrev vTxindex pindexBlock fBlock fMiner =
      .ok g') : g'.nMoneySupply = g.nMoneySupply := by
  unfold ConnectInputsPost at h
  split at h
  · rw [← Except.ok.inj h]
  · simp only [seq_ok, within_eq_ok] at h
    obtain ⟨_, -, prev, -, _, -, name, -, _, -, g₁, hswitch, h⟩ := h
    have hsame := connectInputsSwitch_supply hswitch
    split at h
    · simp only [seq_ok, within_eq_ok, Except.ok.injEq] at h
      obtain ⟨_, -, _, -, rfl⟩ := h
      exact hsame
    · split at h
      · rw [← Except.ok.inj h]
        exact hsame
      · rw [← Except.ok.inj h]
        exact hsame

theorem connectInputs_supply {view : View} {pos : CDiskTxPos} {flags : ℕ} {inputs : MapPrevTx}
    (h : tx.ConnectInputs env view g inputs queued pos pindexBlock fBlock fMiner flags =
      .ok (queued', g')) : g'.nMoneySupply = g.nMoneySupply := by
  unfold CTransaction.ConnectInputs at h
  split at h
  · simp only [Except.ok.injEq, Prod.mk.injEq] at h
    rw [h.2]
  · simp only [seq_ok, within_eq_ok] at h
    obtain ⟨_, -, _, -, h⟩ := h
    split at h
    · simp only [Except.ok.injEq, Prod.mk.injEq] at h
      rw [h.2]
    · simp only [seq_ok, within_eq_ok, Except.ok.injEq, Prod.mk.injEq] at h
      obtain ⟨_, -, _, -, _, hpost, _, -, _, -, _, -, -, rfl⟩ := h
      exact connectInputsPost_supply hpost

/-- The loop of `ConnectBlock` leaves the recorded supplies alone. -/
theorem connectLoop_supply {view : View}
    (h : connectLoop env view txdb pindex rest queued g t = .ok (queued', g', t')) :
    g'.nMoneySupply = g.nMoneySupply := by
  induction rest generalizing queued g t with
  | nil =>
      simp only [connectLoop, Except.ok.injEq, Prod.mk.injEq] at h
      rw [h.2.1]
  | cons p rest ih =>
      simp only [connectLoop, seq_ok] at h
      obtain ⟨⟨queued₁, g₁, t₁⟩, hone, hrest⟩ := h
      refine (ih hrest).trans ?_
      simp only [connectTx, seq_ok, within_eq_ok] at hone
      obtain ⟨_, -, _, -, hone⟩ := hone
      split at hone
      · simp only [seq_ok, within_eq_ok, Except.ok.injEq, Prod.mk.injEq] at hone
        obtain ⟨_, -, -, rfl, -⟩ := hone
        rfl
      · split at hone
        · simp at hone
        · simp only [seq_ok, within_eq_ok, Except.ok.injEq, Prod.mk.injEq] at hone
          obtain ⟨_, -, _, -, _, -, _, -, ⟨_, _⟩, hconnect, -, rfl, -⟩ := hone
          exact connectInputs_supply hconnect

/-! ## The loop -/

/-- The transactions that are still to come, on the ledger that the next one finds. -/
structure Coming (env : Env) (files : BlockFile) (pindex : CBlockIndex)
    (L : Ledger uint256 CDiskTxPos) (rest : List (CDiskTxPos × CTransaction)) : Prop where
  standing : Standing files L
  stored : ∀ p ∈ rest, StoredTx files pindex p
  used : ∀ p ∈ rest, Ledger.UsedUp L (p.2.GetHash env)
  distinct : (rest.map fun p => p.2.GetHash env).Nodup

theorem Coming.next {p : CDiskTxPos × CTransaction} (h : Coming env files pindex L (p :: rest)) :
    Coming env files pindex (Ledger.apply L (txItem env p)) rest := by
  obtain ⟨hp, hrest⟩ := List.forall_mem_cons.mp h.stored
  obtain ⟨hnot, hnodup⟩ := List.nodup_cons.mp h.distinct
  refine ⟨h.standing.apply hp, hrest, fun q hq => ?_, hnodup⟩
  refine (h.used q (List.mem_cons_of_mem _ hq)).apply fun heq => hnot ?_
  exact List.mem_map.mpr ⟨q, hq, heq⟩

theorem connectLoop_cons {view : View} {p : CDiskTxPos × CTransaction}
    (hmaturity : 0 < env.nCoinbaseMaturity) (hheight : STAKE_INTEREST_V3 < pindex.nHeight)
    (hview : view.Reads files)
    (hcoming : Coming env files pindex (ledgerOf (writeQueued txdb queued)) (p :: rest))
    (h : connectLoop env view txdb pindex (p :: rest) queued g t = .ok (queued', g', t')) :
    ∃ queued₁ g₁ t₁, Moves env files pindex (ledgerOf (writeQueued txdb queued)) p t t₁ ∧
      ledgerOf (writeQueued txdb queued₁) =
        Ledger.apply (ledgerOf (writeQueued txdb queued)) (txItem env p) ∧
      connectLoop env view txdb pindex rest queued₁ g₁ t₁ = .ok (queued', g', t') := by
  simp only [connectLoop, seq_ok] at h
  obtain ⟨⟨queued₁, g₁, t₁⟩, hone, hrest⟩ := h
  have hp := hcoming.stored p (List.mem_cons_self ..)
  have hused := hcoming.used p (List.mem_cons_self ..)
  refine ⟨queued₁, g₁, t₁, ?_, (connectTx_ok env hone).2.2, hrest⟩
  cases hcb : p.2.IsCoinBase with
  | true => exact moves_coinbase hcoming.standing hp hused hcb hone
  | false => exact moves_spending hmaturity hheight hview hcoming.standing hp hused hcb hone

/-- What the rest of a block does to the totals and to the sums of `ConnectBlock`. -/
structure MovesAll (env : Env) (files : BlockFile) (pindex : CBlockIndex)
    (L : Ledger uint256 CDiskTxPos) (rest : List (CDiskTxPos × CTransaction)) (t t' : Tally) :
    Prop where
  spends : 0 ≤ sumAlong env (txSpends env files) L rest
  created : 0 ≤ (rest.map fun p => p.2.created).sum
  fee : 0 ≤ sumAlong env (txFee env files) L rest
  total : Ledger.unspent (outputAt files) (Ledger.applyAll L (rest.map (txItem env))) =
    Ledger.unspent (outputAt files) L - sumAlong env (txSpends env files) L rest +
      (rest.map fun p => p.2.created).sum
  ripe : Ledger.unspent (ripeOutputAt files pindex)
      (Ledger.applyAll L (rest.map (txItem env))) + sumAlong env (txFee env files) L rest ≤
    Ledger.unspent (ripeOutputAt files pindex) L
  valueIn : ∀ n, t.nValueIn = int64 n →
    t'.nValueIn = int64 (n + sumAlong env (txSpends env files) L rest)
  valueOut : ∀ n, t.nValueOut = int64 n →
    t'.nValueOut = int64 (n + (rest.map fun p => p.2.created).sum)
  fees : ∀ n, t.nFees = int64 n → t'.nFees = int64 (n + sumAlong env (txFee env files) L rest)
  plain : (∀ p ∈ rest, (p.2.IsCoinBase || p.2.IsCoinStake) = false) →
    sumAlong env (txFee env files) L rest = sumAlong env (txSpends env files) L rest -
      (rest.map fun p => p.2.created).sum ∧ t'.nStakeReward = t.nStakeReward

theorem MovesAll.nil : MovesAll env files pindex L [] t t where
  spends := le_rfl
  created := le_rfl
  fee := le_rfl
  total := by simp [sumAlong, Ledger.applyAll]
  ripe := by simp [sumAlong, Ledger.applyAll]
  valueIn n hn := by simp [sumAlong, hn]
  valueOut n hn := by simp [hn]
  fees n hn := by simp [sumAlong, hn]
  plain _ := by simp [sumAlong]

theorem Moves.cons {files : BlockFile} {pindex : CBlockIndex} {L : Ledger uint256 CDiskTxPos}
    {p : CDiskTxPos × CTransaction} {rest : List (CDiskTxPos × CTransaction)}
    {t t₁ t' : Tally} (h : Moves env files pindex L p t t₁)
    (hrest : MovesAll env files pindex (Ledger.apply L (txItem env p)) rest t₁ t') :
    MovesAll env files pindex L (p :: rest) t t' where
  spends := add_nonneg h.spends hrest.spends
  created := add_nonneg h.created hrest.created
  fee := add_nonneg h.fee hrest.fee
  total := by
    have hone := h.total
    have hothers := hrest.total
    simp only [sumAlong, List.map_cons, List.sum_cons, Ledger.applyAll, List.foldl_cons]
      at hothers ⊢
    omega
  ripe := by
    have hone := h.ripe
    have hothers := hrest.ripe
    simp only [sumAlong, List.map_cons, Ledger.applyAll, List.foldl_cons] at hothers ⊢
    omega
  valueIn n hn := by
    rw [hrest.valueIn _ (h.valueIn n hn), sumAlong, add_assoc]
  valueOut n hn := by
    rw [hrest.valueOut _ (h.valueOut n hn), List.map_cons, List.sum_cons, add_assoc]
  fees n hn := by
    rw [hrest.fees _ (h.fees n hn), sumAlong, add_assoc]
  plain hplain := by
    obtain ⟨hp, hothers⟩ := List.forall_mem_cons.mp hplain
    obtain ⟨hsum, hreward⟩ := hrest.plain hothers
    have hfee : txFee env files L p = txSpends env files L p - p.2.created := by
      rw [txFee, hp]
      rfl
    rw [Bool.or_eq_false_iff] at hp
    have hone := h.reward
    rw [hp.2] at hone
    refine ⟨?_, hreward.trans hone⟩
    simp only [sumAlong, List.map_cons, List.sum_cons]
    omega

theorem connectLoop_moves {view : View} (hmaturity : 0 < env.nCoinbaseMaturity)
    (hheight : STAKE_INTEREST_V3 < pindex.nHeight) (hview : view.Reads files)
    (hcoming : Coming env files pindex (ledgerOf (writeQueued txdb queued)) rest)
    (h : connectLoop env view txdb pindex rest queued g t = .ok (queued', g', t')) :
    MovesAll env files pindex (ledgerOf (writeQueued txdb queued)) rest t t' := by
  induction rest generalizing queued g t with
  | nil =>
      simp only [connectLoop, Except.ok.injEq, Prod.mk.injEq] at h
      rw [h.2.2]
      exact .nil
  | cons p rest ih =>
      obtain ⟨queued₁, g₁, t₁, hmoves, hL, hrest⟩ :=
        connectLoop_cons hmaturity hheight hview hcoming h
      have hothers := ih (by rw [hL]; exact hcoming.next) hrest
      rw [hL] at hothers
      exact hmoves.cons hothers

/-! ## The block -/

theorem checkBlock_transactions (h : block.CheckBlock env fPOW fRoot fSig = true) :
    (∀ tx ∈ block.vtx, tx.CheckTransaction = true) ∧
      (block.vtx.map (CTransaction.GetHash env)).Nodup := by
  simp only [CBlock.CheckBlock, Bool.and_eq_true, List.all_eq_true, decide_eq_true_eq] at h
  exact ⟨fun tx htx => (h.1.1.1.2 tx htx).1, h.1.1.2⟩

theorem checkBlock_coinbase (h : block.CheckBlock env fPOW fRoot fSig = true) :
    ∃ coinbase rest, block.vtx = coinbase :: rest ∧ coinbase.IsCoinBase = true ∧
      ∀ tx ∈ rest, tx.IsCoinBase = false := by
  simp only [CBlock.CheckBlock, Bool.and_eq_true, List.all_eq_true] at h
  have hfirst := h.1.1.1.1.1.1.2
  have hothers := h.1.1.1.1.1.2
  cases hvtx : block.vtx with
  | nil => simp [hvtx] at hfirst
  | cons coinbase rest =>
      rw [hvtx] at hfirst hothers
      exact ⟨coinbase, rest, rfl, hfirst, fun tx htx => by simpa using hothers tx htx⟩

/-- The second transaction of a checked proof-of-stake block is its only coin stake, and its
coinbase creates nothing. -/
theorem checkBlock_stake {coinbase : CTransaction} {rest : List CTransaction}
    (h : block.CheckBlock env fPOW fRoot fSig = true) (hvtx : block.vtx = coinbase :: rest)
    (hstake : block.IsProofOfStake = true) :
    coinbase.created = 0 ∧ ∃ coinstake others, rest = coinstake :: others ∧
      coinstake.IsCoinStake = true ∧ ∀ tx ∈ others, tx.IsCoinStake = false := by
  simp only [CBlock.CheckBlock, Bool.and_eq_true, hstake, Bool.not_true, Bool.false_or, hvtx,
    List.head?_cons, Option.map_some, Option.getD_some, List.all_eq_true] at h
  obtain ⟨⟨⟨-, hempty⟩, hothers⟩, -⟩ := h.1.1.1.1.2
  constructor
  · refine List.sum_eq_zero fun v hv => ?_
    obtain ⟨txout, htxout, rfl⟩ := List.mem_map.mp hv
    have hout := hempty txout htxout
    rw [CTxOut.IsEmpty, Bool.and_eq_true, beq_iff_eq] at hout
    exact hout.1
  · rw [CBlock.IsProofOfStake, hvtx] at hstake
    cases rest with
    | nil => simp at hstake
    | cons coinstake others =>
        exact ⟨coinstake, others, rfl, hstake, fun tx htx => by simpa using hothers tx htx⟩

theorem usedUp_of_overwritesUnspent {hash : uint256} (h : overwritesUnspent txdb hash = false) :
    Ledger.UsedUp (ledgerOf txdb) hash := by
  intro e he
  obtain ⟨txindex, htx, rfl⟩ := Option.map_eq_some_iff.mp he
  simp only [overwritesUnspent, htx, CTxIndex.hasUnspent, List.any_eq_false] at h
  intro hmem
  exact h none hmem rfl

theorem coming_block {view : View} {T' : TxIndexMap} (hstanding : Standing files (ledgerOf T))
    (hholds : files.Holds pindex block)
    (hconnect : block.ConnectBlock env view T g pindex = .ok (T', g')) :
    Coming env files pindex (ledgerOf T) (block.positions pindex) := by
  obtain ⟨hcheck, hover, -, -⟩ := connectBlock_ok env hconnect
  obtain ⟨hchecked, hnodup⟩ := checkBlock_transactions hcheck
  have hmem : ∀ p ∈ block.positions pindex, p.2 ∈ block.vtx := by
    intro p hp
    rw [← positions_map_snd block pindex]
    exact List.mem_map_of_mem hp
  refine ⟨hstanding, fun p hp => ?_, fun p hp => ?_, ?_⟩
  · obtain ⟨hfile, hpos, hle, -⟩ := txPositions_bounds hp
    refine ⟨hholds.txs p hp, hchecked p.2 (hmem p hp), ⟨hfile, hpos⟩, fun hmemory => ?_⟩
    rw [hmemory, firstTxPos] at hle
    have hone : CDiskTxPos.memory.nTxPos = 1 := rfl
    omega
  · exact usedUp_of_overwritesUnspent (hover p.2 (hmem p hp))
  · have hmap : (block.positions pindex).map (fun p => p.2.GetHash env) =
        ((block.positions pindex).map Prod.snd).map (CTransaction.GetHash env) := by
      rw [List.map_map]
      rfl
    rw [hmap, positions_map_snd]
    exact hnodup

theorem positions_cons {vtx : List CTransaction} (pindex : CBlockIndex) (h : block.vtx = tx :: vtx) :
    ∃ p ps, block.positions pindex = p :: ps ∧ p.2 = tx ∧ ps.map Prod.snd = vtx := by
  have hmap := positions_map_snd block pindex
  rw [h] at hmap
  obtain ⟨p, ps, hps, htx, hvtx⟩ := List.map_eq_cons_iff.mp hmap
  exact ⟨p, ps, hps, htx, hvtx⟩

theorem created_positions (block : CBlock) (pindex : CBlockIndex) :
    ((block.positions pindex).map fun p => p.2.created).sum = block.created := by
  conv_rhs => rw [CBlock.created, ← positions_map_snd block pindex, List.map_map]
  rfl

/-- What a block adds to the value, fees included: in a proof-of-stake block the reward of its coin
stake. -/
theorem gain_stake {view : View} (hmaturity : 0 < env.nCoinbaseMaturity)
    (hheight : STAKE_INTEREST_V3 < pindex.nHeight) (hview : view.Reads files)
    (hcoming : Coming env files pindex (ledgerOf T) (block.positions pindex))
    (hcheck : block.CheckBlock env true true false = true) (hstake : block.IsProofOfStake = true)
    (h : connectLoop env view T pindex (block.positions pindex) (fun _ => none) g
      ⟨0, 0, 0, 0, 0⟩ = .ok (queued', g', t)) :
    block.created - block.consumed env files T pindex + block.fees env files T pindex =
        t.nStakeReward ∧
      -block.consumed env files T pindex ≤ t.nStakeReward ∧ t.nStakeReward ≤ block.created := by
  obtain ⟨coinbase, rest, hvtx, hcb, hnocb⟩ := checkBlock_coinbase hcheck
  obtain ⟨hzero, coinstake, others, rfl, hcs, hnocs⟩ := checkBlock_stake hcheck hvtx hstake
  obtain ⟨p, ps, hps, rfl, hmap⟩ := positions_cons pindex hvtx
  obtain ⟨q, qs, rfl, rfl, hothers⟩ := List.map_eq_cons_iff.mp hmap
  rw [hps] at h hcoming
  rw [← writeQueued_none T] at hcoming
  obtain ⟨queued₁, g₁, t₁, hp, hL₁, h₁⟩ := connectLoop_cons hmaturity hheight hview hcoming h
  have hcoming₁ := hcoming.next
  rw [writeQueued_none] at hp hL₁ hcoming₁
  rw [← hL₁] at hcoming₁
  obtain ⟨queued₂, g₂, t₂, hq, hL₂, h₂⟩ := connectLoop_cons hmaturity hheight hview hcoming₁ h₁
  have hcoming₂ := hcoming₁.next
  rw [← hL₂] at hcoming₂
  have hqs := connectLoop_moves hmaturity hheight hview hcoming₂ h₂
  have hplain : ∀ r ∈ qs, (r.2.IsCoinBase || r.2.IsCoinStake) = false := by
    intro r hr
    have hmem : r.2 ∈ others := hothers ▸ List.mem_map_of_mem hr
    rw [hnocb r.2 (List.mem_cons_of_mem _ hmem), hnocs r.2 hmem]
    rfl
  obtain ⟨hsum, hreward⟩ := hqs.plain hplain
  have hreward₂ := hq.reward
  rw [hcs, if_pos rfl] at hreward₂
  have hfee₁ : txFee env files (ledgerOf T) p = 0 := by simp [txFee, hcb]
  have hfee₂ : txFee env files (ledgerOf (writeQueued T queued₁)) q = 0 := by simp [txFee, hcs]
  have hspend₁ := hp.coinbase hcb
  have hone := hq.spends
  have htwo := hq.created
  have hthree := hqs.spends
  have hfour := hqs.created
  rw [← created_positions block pindex]
  unfold CBlock.consumed CBlock.fees
  simp only [hps, sumAlong, List.map_cons, List.sum_cons, ← hL₁, ← hL₂]
  omega

/-- In a proof-of-work block without coin stakes it is what the coinbase creates. -/
theorem gain_work {view : View} {coinbase : CTransaction} {rest : List CTransaction}
    (hmaturity : 0 < env.nCoinbaseMaturity) (hheight : STAKE_INTEREST_V3 < pindex.nHeight)
    (hview : view.Reads files)
    (hcoming : Coming env files pindex (ledgerOf T) (block.positions pindex))
    (hvtx : block.vtx = coinbase :: rest) (hcb : coinbase.IsCoinBase = true)
    (hplain : ∀ tx ∈ rest, (tx.IsCoinBase || tx.IsCoinStake) = false)
    (h : connectLoop env view T pindex (block.positions pindex) (fun _ => none) g
      ⟨0, 0, 0, 0, 0⟩ = .ok (queued', g', t)) :
    block.created - block.consumed env files T pindex + block.fees env files T pindex =
        coinbase.created ∧ 0 ≤ coinbase.created ∧ coinbase.created ≤ block.created := by
  obtain ⟨p, ps, hps, rfl, hmap⟩ := positions_cons pindex hvtx
  rw [hps] at h hcoming
  rw [← writeQueued_none T] at hcoming
  obtain ⟨queued₁, g₁, t₁, hp, hL₁, h₁⟩ := connectLoop_cons hmaturity hheight hview hcoming h
  have hcoming₁ := hcoming.next
  rw [writeQueued_none] at hp hL₁ hcoming₁
  rw [← hL₁] at hcoming₁
  have hothers := connectLoop_moves hmaturity hheight hview hcoming₁ h₁
  have hplain' : ∀ r ∈ ps, (r.2.IsCoinBase || r.2.IsCoinStake) = false := by
    intro r hr
    exact hplain r.2 (hmap ▸ List.mem_map_of_mem hr)
  obtain ⟨hsum, -⟩ := hothers.plain hplain'
  have hfee : txFee env files (ledgerOf T) p = 0 := by simp [txFee, hcb]
  have hspend := hp.coinbase hcb
  have hone := hp.created
  have htwo := hothers.created
  rw [← created_positions block pindex]
  unfold CBlock.consumed CBlock.fees
  simp only [hps, sumAlong, List.map_cons, List.sum_cons, ← hL₁]
  omega

/-! ## The law of one block -/

theorem Coming.standing_all (h : Coming env files pindex L rest) :
    Standing files (Ledger.applyAll L (rest.map (txItem env))) := by
  induction rest generalizing L with
  | nil => exact h.standing
  | cons p rest ih => exact ih h.next

/-- The fees of a block are paid from the outputs that were in the index before it. -/
theorem fees_le_unspentValue
    (hcoming : Coming env files pindex (ledgerOf T) (block.positions pindex))
    (hmoves : MovesAll env files pindex (ledgerOf T) (block.positions pindex) t t') :
    block.fees env files T pindex ≤ unspentValue files T := by
  have hafter := Ledger.unspent_nonneg _ (hcoming.standing_all.ripe_nonNeg pindex)
  have hripe := hmoves.ripe
  have hmono : Ledger.unspent (ripeOutputAt files pindex) (ledgerOf T) ≤
      unspentValue files T := by
    refine Ledger.unspent_mono hcoming.standing.finite fun hash e he n => ?_
    unfold ripeOutputAt
    split
    · exact (hcoming.standing.checked hash e he).outputAt_nonneg n
    · exact le_rfl
  unfold CBlock.fees
  omega

theorem checkReward_stake {view : View} {u : Unit} (hstake : block.IsProofOfStake = true)
    (h : checkReward env view txdb pindex block t = .ok u) :
    ∃ nCoinAge, t.nStakeReward ≤ GetProofOfStakeReward env nCoinAge t.nFees pindex.nHeight := by
  simp only [checkReward, hstake, if_true] at h
  split at h
  · split at h
    · simp at h
    · rename_i nCoinAge hage
      exact ⟨nCoinAge, require_eq_ok.mp h⟩
  · simp at h

theorem checkReward_work {view : View} {coinbase : CTransaction} {rest : List CTransaction}
    {u : Unit} (hstake : block.IsProofOfStake = false) (hvtx : block.vtx = coinbase :: rest)
    (h : checkReward env view txdb pindex block t = .ok u) :
    coinbase.created ≤ GetProofOfWorkReward (GetPowHeight pindex) t.nFees := by
  simp only [checkReward, hstake, Bool.false_eq_true, if_false, hvtx, List.getElem?_cons_zero,
    seq_ok, require_eq_ok] at h
  obtain ⟨nValueOut, hout, hle⟩ := h
  exact (CTransaction.getValueOut_ok hout).1 ▸ hle

theorem GetProofOfStakeReward_V3 {nCoinAge nHeight : ℕ} (hV3 : env.V3 nHeight = true)
    (hfees : 0 ≤ nFees ∧ nFees ≤ 2 ^ 62) :
    GetProofOfStakeReward env nCoinAge nFees nHeight = 150000000 + nFees := by
  simp only [GetProofOfStakeReward, hV3, if_true]
  apply Fits64.int64_eq
  constructor
  · omega
  · omega

theorem GetProofOfWorkReward_fees {nPowHeight : ℕ} (hfees : 0 ≤ nFees ∧ nFees ≤ 2 ^ 62) :
    GetProofOfWorkReward nPowHeight nFees = GetProofOfWorkReward nPowHeight 0 + nFees := by
  have hcoin : COIN = 100000000 := rfl
  have hexact : ∀ n : ℤ, 0 ≤ n → n ≤ 2 ^ 62 →
      GetProofOfWorkReward nPowHeight n =
        (if nPowHeight ≤ 30 then 1250 * COIN / 2 else 1250 * COIN) + n := by
    intro n hlow hhigh
    simp only [GetProofOfWorkReward]
    apply Fits64.int64_eq
    rw [hcoin]
    constructor
    · split <;> omega
    · split <;> omega
  rw [hexact nFees hfees.1 hfees.2, hexact 0 le_rfl (by decide), add_zero]

/-- A block that accounts for its totals obeys the law. -/
theorem Connects.law {view : View} (hmaturity : 0 < env.nCoinbaseMaturity)
    (hstanding : Standing files (ledgerOf s.txdb)) (h : Connects env files view block s s')
    (haccounts : s.Accounts env files s'.tip block) :
    ∃ t, block.Tallies env view s s'.tip t ∧ SupplyLaw env files block s s' t := by
  have hcoming := coming_block hstanding h.holds h.connected
  have hledger := (connectBlock_ok env h.connected).2.2.2
  have hconnected := h.connected
  simp only [CBlock.ConnectBlock, seq_ok, within_eq_ok, require_eq_ok, Except.ok.injEq,
    Prod.mk.injEq] at hconnected
  obtain ⟨_, hcheck, ⟨queued, g₁, t⟩, hloop, _, hreward, -, hg⟩ := hconnected
  dsimp only at hreward hg
  have hmoves := connectLoop_moves hmaturity h.height h.reads (by rwa [writeQueued_none]) hloop
  rw [writeQueued_none] at hmoves
  have hfeesLe := fees_le_unspentValue hcoming hmoves
  have haffordable := h.affordable
  have hfeesNonneg : 0 ≤ block.fees env files s.txdb s'.tip := hmoves.fee
  have hspendsNonneg : 0 ≤ block.consumed env files s.txdb s'.tip := hmoves.spends
  have hcreatedNonneg : 0 ≤ block.created := created_positions block s'.tip ▸ hmoves.created
  have hconsumed := haccounts.consumed
  have hcreated := haccounts.created
  -- the sums of the loop are exact, because the totals fit
  have hvalueIn : t.nValueIn = block.consumed env files s.txdb s'.tip := by
    have hin := hmoves.valueIn 0 rfl
    rw [zero_add] at hin
    rw [hin]
    exact Fits64.int64_eq ⟨by unfold CBlock.consumed at hspendsNonneg; omega, hconsumed⟩
  have hvalueOut : t.nValueOut = block.created := by
    have hout := hmoves.valueOut 0 rfl
    rw [zero_add, created_positions] at hout
    rw [hout]
    exact Fits64.int64_eq ⟨by omega, hcreated⟩
  have hfees : t.nFees = block.fees env files s.txdb s'.tip := by
    have hfee := hmoves.fees 0 rfl
    rw [zero_add] at hfee
    rw [hfee]
    exact Fits64.int64_eq ⟨by unfold CBlock.fees at hfeesNonneg; omega,
      by unfold CBlock.fees at hfeesLe; omega⟩
  have hvalue : unspentValue files s'.txdb =
      unspentValue files s.txdb + block.created - block.consumed env files s.txdb s'.tip := by
    have htotal := hmoves.total
    rw [created_positions] at htotal
    unfold unspentValue CBlock.consumed
    rw [hledger, CBlock.items, htotal]
    omega
  have hfeesRange : 0 ≤ t.nFees ∧ t.nFees ≤ 2 ^ 62 := by
    rw [hfees]
    constructor
    · exact hfeesNonneg
    · omega
  have hsupplyBefore : g₁.nMoneySupply s.tip = s.nMoneySupply := by
    rw [connectLoop_supply hloop]
    rfl
  have hsupply : s'.nMoneySupply =
      s.nMoneySupply + block.created - block.consumed env files s.txdb s'.tip := by
    rw [SupplyState.nMoneySupply, ← hg]
    simp only [Function.update_self, h.parent, Option.map_some, Option.getD_some, hsupplyBefore]
    rw [hvalueOut, hvalueIn]
    exact haccounts.supply.int64_eq
  have hmint : s'.g.nMint s'.tip = int64 (t.nValueOut - t.nValueIn + t.nFees) := by
    rw [← hg]
    exact Function.update_self _ _ _
  refine ⟨t, ⟨queued, g₁, hloop⟩, ?_⟩
  cases hstake : block.IsProofOfStake with
  | true =>
      obtain ⟨hgain, hlow, hhigh⟩ :=
        gain_stake hmaturity h.height h.reads hcoming hcheck hstake hloop
      rw [← hfees, ← hvalueIn, ← hvalueOut] at hgain
      refine ⟨hvalueIn, hvalueOut, hfees, ?_, ?_, ?_, ?_, ?_, fun _ hV3 => ?_⟩
      · rw [hmint, hgain]
        apply Fits64.int64_eq
        constructor
        · omega
        · omega
      · omega
      · omega
      · rw [hgain, hstake]
        rfl
      · simp [CBlock.IsProofOfWork, hstake]
      · obtain ⟨nCoinAge, hle⟩ := checkReward_stake hstake hreward
        rw [GetProofOfStakeReward_V3 hV3 hfeesRange] at hle
        omega
  | false =>
      obtain ⟨coinbase, rest, hvtx, hcb, hnocb⟩ := checkBlock_coinbase hcheck
      have hplain : ∀ tx ∈ rest, (tx.IsCoinBase || tx.IsCoinStake) = false := by
        intro tx htx
        have hwork := haccounts.work (by simp [CBlock.IsProofOfWork, hstake]) tx
          (hvtx ▸ List.mem_cons_of_mem _ htx)
        rw [hnocb tx htx, hwork]
        rfl
      obtain ⟨hgain, hlow, hhigh⟩ :=
        gain_work hmaturity h.height h.reads hcoming hvtx hcb hplain hloop
      rw [← hfees, ← hvalueIn, ← hvalueOut] at hgain
      refine ⟨hvalueIn, hvalueOut, hfees, ?_, ?_, ?_, ?_, fun _ => ?_, ?_⟩
      · rw [hmint, hgain]
        apply Fits64.int64_eq
        constructor
        · omega
        · omega
      · omega
      · omega
      · rw [hgain, hstake, hvtx]
        rfl
      · have hle := checkReward_work hstake hvtx hreward
        rw [GetProofOfWorkReward_fees hfeesRange] at hle
        omega
      · simp [hstake]

/-! ## Runs -/

theorem Connects.standing {view : View} (h : Connects env files view block s s')
    (hstanding : Standing files (ledgerOf s.txdb)) : Standing files (ledgerOf s'.txdb) := by
  rw [(connectBlock_ok env h.connected).2.2.2]
  exact (coming_block hstanding h.holds h.connected).standing_all

theorem SupplyRun.standing {C : SupplyState → CBlockIndex → CBlock → Prop}
    (h : SupplyRun env files C s s') (hstanding : Standing files (ledgerOf s.txdb)) :
    Standing files (ledgerOf s'.txdb) := by
  induction h with
  | start => exact hstanding
  | connect _ hconnects _ ih => exact hconnects.standing ih

/-- The entries of the index of a reachable node stand for checked transactions. -/
theorem Indexed.standing {files' : BlockFile} {mapBlockIndex : uint256 → Option CBlockIndex}
    (h : Indexed env files mapBlockIndex T)
    (hfiles : ∀ pos tx, files.readTx pos = some tx → files'.readTx pos = some tx) :
    Standing files' (ledgerOf T) := by
  refine ⟨h.finite, fun hash e he => ?_⟩
  obtain ⟨pindex, block, tx, home⟩ := h.housed hash e he
  have hmem : tx ∈ block.vtx := by
    rw [← positions_map_snd block pindex]
    exact List.mem_map_of_mem home.placed
  refine ⟨fun hmemory => ?_, tx, hfiles _ _ home.read,
    (checkBlock_transactions home.checked).1 tx hmem⟩
  obtain ⟨-, -, hle, -⟩ := txPositions_bounds home.placed
  have hone : CDiskTxPos.memory.nTxPos = 1 := rfl
  simp only [hmemory, firstTxPos] at hle
  omega

theorem nHeight_of_pprev {p : CBlockIndex} (h : CBlockIndex.pprev pindex = some p) :
    pindex.nHeight = p.nHeight + 1 := by
  cases pindex with
  | root d => simp [CBlockIndex.pprev, Lineage.parent?] at h
  | child d q =>
      simp only [CBlockIndex.pprev, Lineage.parent?, Option.some.injEq] at h
      rw [← h]
      rfl

theorem Connects.height_eq {view : View} (h : Connects env files view block s s') :
    s'.tip.nHeight = s.tip.nHeight + 1 := nHeight_of_pprev h.parent

/-- Connecting a block records nothing for the entries below it. -/
theorem Connects.recorded {view : View} (h : Connects env files view block s s')
    {pindex : CBlockIndex} (hbelow : pindex.nHeight ≤ s.tip.nHeight) :
    s'.g.nMoneySupply pindex = s.g.nMoneySupply pindex := by
  have hheight := h.height_eq
  have hconnected := h.connected
  simp only [CBlock.ConnectBlock, seq_ok, within_eq_ok, Except.ok.injEq, Prod.mk.injEq]
    at hconnected
  obtain ⟨_, -, ⟨queued, g₁, t⟩, hloop, _, -, -, hg⟩ := hconnected
  have hne : pindex ≠ s'.tip := by
    rintro rfl
    omega
  rw [← hg]
  simp only [Function.update_of_ne hne]
  rw [connectLoop_supply hloop]

/-- In every run whose blocks account for their totals, the recorded supply of the tip and that of
an entry below differ by the change in value of the index, and every block obeys the law. -/
theorem supplyRun_law (hmaturity : 0 < env.nCoinbaseMaturity)
    (hstanding : Standing files (ledgerOf s.txdb))
    (hrun : SupplyRun env files (fun s => s.Accounts env files) s s') :
    s.tip.nHeight ≤ s'.tip.nHeight ∧ s'.g.nMoneySupply s.tip = s.g.nMoneySupply s.tip ∧
      s'.nMoneySupply - s.nMoneySupply =
        unspentValue files s'.txdb - unspentValue files s.txdb := by
  induction hrun with
  | start => exact ⟨le_rfl, rfl, by omega⟩
  | @connect view block s₁ s₂ hrun hconnects haccounts ih =>
      obtain ⟨hheight, hrecorded, hdiff⟩ := ih
      obtain ⟨t, -, hlaw⟩ := hconnects.law hmaturity (hrun.standing hstanding) haccounts
      have hup := hconnects.height_eq
      have hsupply := hlaw.supply
      have hvalue := hlaw.value
      refine ⟨by omega, ?_, by omega⟩
      rw [hconnects.recorded hheight, hrecorded]

end Dions
