import Dions.Verification.Chain.ArrivalOrder
import Dions.Verification.Miner.Staked

/-! # The target of a staked block

`CreateNewBlock` counts the fees of its template through the pool that it tests on, also those of a
transaction that spends another one of the template. `AcceptBlock` counts them on the index alone. -/

namespace Dions

open Halting

variable {block : CBlock}

section Fees

variable {env : Env} {F : Type} {args : MinerArgs} {io : Io} {node : Node}
  {pindexPrev : CBlockIndex} {fProofOfStake : Bool} {nCoinbaseTime : ℕ} {tx : CTransaction}

/-! ## The fees of both sides -/

/-- Something that the transaction spends is not in the index. -/
def spendsUnindexed (T : TxIndexMap) (tx : CTransaction) : Bool :=
  tx.vin.any fun txin => (T txin.prevout.hash).isNone

/-- What the transactions pay, without those that spend one which is not in the index. -/
def indexedFees (env : Env) (view : View) (T : TxIndexMap) (vtx : List CTransaction) : ℤ :=
  (eachAlong env (fun L tx =>
    if spendsUnindexed T tx then 0 else inputValue view L tx - tx.created) (ledgerOf T) vtx).sum

/-- New transactions leave the entries of the index where they are. -/
theorem indexed_shape {T T' : TxIndexMap} {items : List (Ledger.Item uint256 CDiskTxPos)}
    (hL : ledgerOf T' = Ledger.applyAll (ledgerOf T) items) (hfresh : ∀ i ∈ items, T i.id = none)
    {hash : uint256} {e e' : CTxIndex} (he : T hash = some e) (he' : T' hash = some e') :
    e'.pos = e.pos ∧ e'.vSpent.length = e.vSpent.length := by
  have hshapes : Ledger.Shapes (fun h p n => ∀ e, T h = some e → p = e.pos ∧ n = e.vSpent.length)
      (ledgerOf T') := by
    rw [hL]
    refine Ledger.shapes_applyAll ?_ ?_
    · intro h entry hentry e he
      obtain ⟨e₀, he₀, rfl⟩ := Option.map_eq_some_iff.mp hentry
      obtain rfl : e₀ = e := Option.some.inj (he₀.symm.trans he)
      exact ⟨rfl, rfl⟩
    · intro i hi e he
      rw [hfresh i hi] at he
      cases he
  exact hshapes hash e'.entry (by simp [ledgerOf, he']) e he

theorem foundFees_append {found : uint256 → Option Previous} (vtx vtx' : List CTransaction)
    (nFees : ℤ) :
    foundFees found (vtx ++ vtx') nFees = foundFees found vtx nFees >>= foundFees found vtx' := by
  induction vtx generalizing nFees with
  | nil => rfl
  | cons tx vtx ih =>
    rw [List.cons_append, foundFees, foundFees]
    by_cases hcb : tx.IsCoinBase = true
    · rw [if_pos hcb, if_pos hcb]
      exact ih _
    · rw [if_neg hcb, if_neg hcb]
      cases foundValueIn found tx.vin 0 with
      | none => exact ih _
      | some nTxValueIn =>
        dsimp only
        cases tx.GetValueOut with
        | error e => rfl
        | ok nTxValueOut => exact ih _

/-- The fees that `AcceptBlock` finds for what is collected so far. -/
structure FeesFound (env : Env) (io : Io) (node : Node) (s : Collected F) : Prop where
  balance : Balanced env io node s
  fresh : ∀ tx ∈ s.vtx, node.txdb.txindex (tx.GetHash env) = none
  found : foundFees (node.previous env io) s.vtx 0 =
    .ok (int64 (indexedFees env (node.view io) node.txdb.txindex s.vtx))

/-- What the miner fetches of the index is what `AcceptBlock` finds. -/
theorem FeesFound.isFound {s : Collected F} (hs : FeesFound env io node s)
    (hmemory : ∀ hash e, node.txdb.txindex hash = some e → e.pos ≠ CDiskTxPos.memory)
    {inputs : MapPrevTx}
    (hfetched : Fetched (node.view io) (writeQueued node.txdb.txindex s.mapTestPool) inputs)
    {hash : uint256} {prev : CTxIndex × CTransaction} (hin : inputs hash = some prev)
    (hindexed : node.txdb.txindex hash ≠ none) : IsFound (node.previous env io) hash prev := by
  obtain ⟨e', txPrev⟩ := prev
  obtain ⟨e, he⟩ := Option.ne_none_iff_exists'.mp hindexed
  obtain ⟨he', hread⟩ := hfetched _ _ _ hin
  have hfresh : ∀ i ∈ s.vtx.map (pooledItem env), node.txdb.txindex i.id = none := by
    intro i hi
    obtain ⟨tx, htx, rfl⟩ := List.mem_map.mp hi
    exact hs.fresh tx htx
  obtain ⟨hpos, hlength⟩ := indexed_shape hs.balance.ledger hfresh he he'
  rw [hpos, readPrev, if_neg (hmemory _ _ he)] at hread
  refine ⟨_, by rw [Node.previous, he, Option.map_some], hlength.symm, hread⟩

/-- One more transaction: `AcceptBlock` finds its fee, unless it spends one that is not in the
index. -/
theorem FeesFound.taken {s s' : Collected F} (hcb : tx.IsCoinBase = false)
    (hcs : tx.IsCoinStake = false) (hnew : node.txdb.txindex (tx.GetHash env) = none)
    (hmemory : ∀ hash e, node.txdb.txindex hash = some e → e.pos ≠ CDiskTxPos.memory)
    (hs : FeesFound env io node s)
    (h : Taken env args io node pindexPrev fProofOfStake nCoinbaseTime s tx s') :
    FeesFound env io node s' := by
  have hbalance := hs.balance.taken hcb hcs h
  obtain ⟨inputs, nValueIn, nValueOut, nP2SH, pool, g, hjoins, heq⟩ := h.joins
  have hfee := hs.balance.fee hcb hcs hjoins
  have hfetch : tx.FetchInputs (node.view io).files (node.view io).mempool node.txdb.txindex
      s.mapTestPool true false = .ok inputs := hjoins.fetched
  obtain ⟨hfetched, hrange⟩ := fetchInputs_ok hcb hfetch
  have hvtx : s'.vtx = s.vtx ++ [tx] := by rw [heq]; rfl
  refine ⟨hbalance, ?_, ?_⟩
  · rw [hvtx]
    exact List.forall_mem_append.mpr ⟨hs.fresh, List.forall_mem_singleton.mpr hnew⟩
  have hsplit : indexedFees env (node.view io) node.txdb.txindex (s.vtx ++ [tx]) =
      indexedFees env (node.view io) node.txdb.txindex s.vtx +
        if spendsUnindexed node.txdb.txindex tx then 0 else int64 (nValueIn - nValueOut) := by
    rw [hfee, indexedFees, eachAlong_append, List.sum_append, List.sum_singleton, indexedFees]
  rw [hvtx, foundFees_append, hs.found, hsplit]
  simp only [bind, Except.bind, foundFees, hcb, Bool.false_eq_true, if_false]
  by_cases hmissing : spendsUnindexed node.txdb.txindex tx = true
  · -- an input is not found, and the fee is among those that the miner alone counts
    obtain ⟨txin, hmem, hnone⟩ := List.any_eq_true.mp hmissing
    have hspent : spentOutput (node.previous env io) txin = none := by
      rw [spentOutput, Node.previous, Option.isNone_iff_eq_none.mp hnone]
      rfl
    rw [foundValueIn_eq_none hmem hspent, if_pos hmissing, add_zero]
  · have hfound : ∀ txin ∈ tx.vin, ∀ prev, inputs txin.prevout.hash = some prev →
        IsFound (node.previous env io) txin.prevout.hash prev := by
      intro txin hmem prev hin
      refine hs.isFound hmemory hfetched hin fun hnone => hmissing ?_
      exact List.any_eq_true.mpr ⟨txin, hmem, Option.isNone_iff_eq_none.mpr hnone⟩
    obtain ⟨nFound, hvalue, hsum⟩ := valueInFrom_found hrange hfound 0
    have hin := hjoins.valueIn
    rw [CTransaction.GetValueIn, if_neg (by simp [hcb]), hsum] at hin
    obtain rfl : nFound = nValueIn := Except.ok.inj hin
    rw [hvalue, if_neg hmissing]
    simp only [hjoins.valueOut, hcs, Bool.false_eq_true, if_false]
    rw [int64_int64_add, int64_add_int64]

/-- A pool that is collected from the index of a node: each transaction stands under its hash, and
none of them is in the index. -/
def Unmined (env : Env) (node : Node) : Prop :=
  ∀ e ∈ node.mempool.mapTx, e.1 = e.2.GetHash env ∧ node.txdb.txindex e.1 = none

theorem collect_feesFound [Add F] [Mul F] [Div F] [IntCast F] [LT F] [DecidableLT F] [BEq F]
    {heap : TxHeap F} {s : Collected F} (hpool : Unmined env node)
    (hmemory : ∀ hash e, node.txdb.txindex hash = some e → e.pos ≠ CDiskTxPos.memory)
    (h : collect env heap args io node pindexPrev fProofOfStake nCoinbaseTime = .ok s) :
    FeesFound env io node s := by
  refine collect_invariant ?_ ?_ ?_ h
  · intro s c fSortedByFee g hs
    exact ⟨⟨hs.balance.along, hs.balance.ledger, hs.balance.minimum, hs.balance.fees,
      hs.balance.sigOps⟩, hs.fresh, hs.found⟩
  · intro s s' tx htx hcandidate hs htaken
    obtain ⟨hcb, hcs⟩ := isCandidate_ordinary hcandidate
    obtain ⟨e, he, rfl⟩ := List.mem_map.mp htx
    obtain ⟨hnamed, hnone⟩ := hpool e he
    exact hs.taken hcb hcs (hnamed ▸ hnone) hmemory htaken
  · intro c fSortedByFee g
    exact ⟨⟨trivial, rfl, fun fee hfee => absurd hfee List.not_mem_nil, rfl, rfl⟩,
      fun tx htx => absurd htx List.not_mem_nil, rfl⟩

/-- The coin stake adds nothing to the fees, if what it pays can be summed up. -/
theorem foundFees_staked {found : uint256 → Option Previous} {coinbase txCoinStake : CTransaction}
    {vtx : List CTransaction} (hcb : coinbase.IsCoinBase = true)
    (hcs : txCoinStake.IsCoinStake = true) (hok : ∀ e, txCoinStake.GetValueOut = .error e →
      foundFees found (coinbase :: txCoinStake :: vtx) 0 ≠ .error e) :
    foundFees found (coinbase :: txCoinStake :: vtx) 0 = foundFees found vtx 0 := by
  have hnot : txCoinStake.IsCoinBase = false := Scenario.isCoinBase_of_isCoinStake hcs
  rw [foundFees, if_pos hcb, foundFees, hnot, if_neg Bool.false_ne_true] at hok ⊢
  cases hvalue : foundValueIn found txCoinStake.vin 0 with
  | none => rfl
  | some nTxValueIn =>
    rw [hvalue] at hok
    cases hout : txCoinStake.GetValueOut with
    | error e =>
      refine absurd ?_ (hok e hout)
      simp only [hout]
      rfl
    | ok nTxValueOut =>
      simp only [hcs, if_true]
      rfl

end Fees

namespace Scenario

/-! ## A chain on which fees count -/

/-- A tip of a tall chain whose next target is `x` before the fees ease it. -/
structure Steep (node : Node) (p : CBlockIndex) (x : ℤ) : Prop where
  tip : Tip node p
  last : GetLastBlockIndex true p = p
  high : POS_v3_DIFFICULTY_HEIGHT ≤ p.nHeight
  masked : p.label.nTime % 16 = 0
  range : 2 ^ 195 ≤ x ∧ x ≤ bnProofOfStakeLimitV2
  target : ∀ nFees, GetNextTargetRequired (timed testNet) p true nFees =
    GetCompact (mitigate bnProofOfStakeLimitV2 nFees x)

variable {node : Node} {p : CBlockIndex} {x : ℤ}

theorem mitigate_zero (hpos : 0 < x) (hle : x ≤ bnProofOfStakeLimitV2) :
    mitigate bnProofOfStakeLimitV2 0 x = x := by
  have hone : nFeesMitigation 0 = 1 := rfl
  rw [mitigate, hone, mul_one, if_neg (by omega)]
  dsimp only
  split_ifs <;> omega

theorem Steep.next (h : Steep node p x) (hclock : p.label.nTime + 16 ≤ 10 ^ 8)
    (hlow : 2 ^ 196 ≤ x) : ∃ node' p' x', Steep node' p' x' ∧
      p'.label.nTime = p.label.nTime + 16 ∧ x' + 2 ^ 192 ≤ x := by
  have hlimit : bnProofOfStakeLimitV2 = 2 ^ 208 - 1 := by decide
  obtain ⟨hfloor, hle⟩ := h.range
  have hbits : GetNextTargetRequired (timed testNet) p true 0 = GetCompact x := by
    rw [h.target, mitigate_zero (by omega) hle]
  have hmasked := h.masked
  obtain ⟨node', d, hnew, hstake, htime, hd⟩ := h.tip.grow (show Next p (p.label.nTime + 16) from
    ⟨by omega, hclock, by omega, hbits ▸ workable_compact (by omega) (by omega)⟩)
  have hlast : GetLastBlockIndex true (.child d p) = .child d p :=
    if_neg (not_not.mpr hstake)
  have hhigh : POS_v3_DIFFICULTY_HEIGHT ≤ CBlockIndex.nHeight (.child d p) :=
    h.high.trans (Nat.le_succ _)
  have hdown : rounded (2 ^ 196) ≤ rounded x := rounded_mono (by decide) hlow
  have hsame : rounded (2 ^ 196) = 2 ^ 196 := by decide
  have hup : rounded x ≤ x := rounded_le (by omega)
  have htarget : ∀ nFees, GetNextTargetRequired (timed testNet) (.child d p) true nFees =
      GetCompact (mitigate bnProofOfStakeLimitV2 nFees ((rounded x * 928).tdiv 1024)) := by
    intro nFees
    obtain ⟨hspacing, hrule⟩ := target_tall hhigh nFees
    have hround : SetCompact d.nBits = rounded x := by rw [hd, hbits, rounded]
    cases p with
    | root d' => exact absurd h.tip.high (show ¬ 11 ≤ 0 by decide)
    | child d' q =>
      have hapart : (d.nTime : ℤ) - d'.nTime = 16 := by
        rw [htime]
        exact (by push_cast; exact add_sub_cancel_left _ _)
      have hspaced : spacingV3 (timed testNet) (CBlockIndex.nHeight (.child d (.child d' q))) 64 16 =
          16 := by
        have hnot : ¬ (64 * 10 < if (16 : ℤ) < 0 then (64 : ℤ) else 16) := by decide
        rw [spacingV3, if_neg fun hboth => hnot hboth.2]
        rfl
      rw [hrule, retarget, hlast]
      simp only [h.last, hspacing, hapart, hspaced, hround]
      rfl
  rw [Int.tdiv_eq_ediv_of_nonneg (by omega)] at htarget
  refine ⟨node', .child d p, rounded x * 928 / 1024, ⟨hnew, hlast, hhigh, ?_, by omega, htarget⟩,
    htime, by omega⟩
  show d.nTime % 16 = 0
  omega

theorem Steep.descend {k : ℕ} (h : Steep node p x) (hx : x < 2 ^ 196 + 2 ^ 192 * k)
    (hclock : p.label.nTime + 16 * k < 10 ^ 8) :
    ∃ node' p' x', Steep node' p' x' ∧ x' < 2 ^ 196 ∧ p'.label.nTime < 10 ^ 8 := by
  induction k generalizing node p x with
  | zero => exact ⟨node, p, x, h, by omega, by omega⟩
  | succ k ih =>
    by_cases hlow : 2 ^ 196 ≤ x
    · obtain ⟨node', p', x', hnext, htime, hless⟩ := h.next (by omega) hlow
      exact ih hnext (by omega) (by omega)
    · exact ⟨node, p, x, h, by omega, by omega⟩

/-- Blocks every sixteen seconds bring the target down to where the fees count. -/
theorem exists_steep :
    ∃ node p x, Steep node p x ∧ x < 2 ^ 196 ∧ p.label.nTime < 10 ^ 8 := by
  obtain ⟨node, p, htip, hpaced, hheight, htime⟩ := exists_tall 100000 (by decide)
  obtain ⟨hbits, hworkable⟩ := hpaced.workable 0
  obtain ⟨node', d, hnew, hstake, hd, hsame⟩ :=
    htip.grow (show Next p (11008 + 64 * 100001) from ⟨by omega, by decide, by decide, hworkable⟩)
  have hhigh : POS_v3_DIFFICULTY_HEIGHT ≤ CBlockIndex.nHeight (.child d p) := by
    have hbound : POS_v3_DIFFICULTY_HEIGHT = 100000 := rfl
    exact hbound.le.trans (show 100000 ≤ p.nHeight + 1 by omega)
  have hpaced' : Paced (.child d p) := paced_child hstake (hsame ▸ hbits) htip.rising (by omega)
  obtain ⟨x, hlow, hlimit, htarget⟩ := hpaced'.targetTall hhigh
  have hquarter : bnProofOfStakeLimitV2.tdiv 4 ≤ 2 ^ 207 := by decide
  have hsteep : Steep node' (.child d p) x := by
    refine ⟨hnew, if_neg (not_not.mpr hstake), hhigh, ?_, ⟨by omega, hlimit⟩, fun nFees => ?_⟩
    · show d.nTime % 16 = 0
      rw [hd]
    · rw [htarget, mitigate_of_large (hquarter.trans hlow) (by omega), min_eq_left hlimit]
  have hmax : bnProofOfStakeLimitV2 = 2 ^ 208 - 1 := by decide
  exact @Steep.descend _ _ _ (2 ^ 16) hsteep (by omega) (show d.nTime + 16 * 2 ^ 16 < 10 ^ 8 by omega)

/-- There three coins of fees bring the target up to a quarter of the limit. -/
theorem Steep.threeCoins (h : Steep node p x) (hx : x < 2 ^ 196) :
    GetNextTargetRequired (timed testNet) p true (3 * COIN) = GetCompact (2 ^ 206 - 1) := by
  obtain ⟨hfloor, hle⟩ := h.range
  have hquarter : bnProofOfStakeLimitV2.tdiv 4 = 2 ^ 206 - 1 := by decide
  have hthree : nFeesMitigation (3 * COIN) = 3001 := by decide
  rw [h.target, mitigate, if_neg (by omega), if_pos (by omega), hthree, hquarter,
    if_pos (by omega)]

/-- One coin does not. -/
theorem Steep.oneCoin (h : Steep node p x) (hx : x < 2 ^ 196) :
    SetCompact (GetNextTargetRequired (timed testNet) p true COIN) < rounded (2 ^ 206 - 1) := by
  obtain ⟨hfloor, hle⟩ := h.range
  have hquarter : bnProofOfStakeLimitV2.tdiv 4 = 2 ^ 206 - 1 := by decide
  have hone : nFeesMitigation COIN = 1001 := by decide
  have heased : mitigate bnProofOfStakeLimitV2 COIN x = x * 1001 := by
    rw [mitigate, if_neg (by omega), if_pos (by omega), hone, hquarter, if_neg (by omega)]
  have hlarge : (2 : ℤ) ^ 196 * 1001 < rounded (2 ^ 206 - 1) := by decide
  have hsmall : rounded (x * 1001) ≤ x * 1001 := rounded_le (by omega)
  rw [h.target, heased]
  exact hsmall.trans_lt (by omega)

/-! ## What the two sides find in a run -/

/-- `AcceptBlock` finds the fee of the first pending transaction alone. -/
theorem Tip.acceptFees {r : SignedBlock} {n : ℕ} (h : Tip node p)
    (hrun : StakerRun n node p block r) (hearly : p.label.nTime ≤ 10 ^ 8) :
    Dions.acceptFees (node.view (clock n)) node.txdb.txindex r.block.vtx 0 = .ok COIN := by
  obtain ⟨coinbase, txCoinStake, nValueOut, hvtx, hcb, hcs, hout⟩ := hrun.paid
  have hcoin : spentOutput (node.previous (timed testNet) (clock n)) (coinIn 0) =
      some (payTo (625 * COIN)) := by
    have hprevious : node.previous (timed testNet) (clock n) (coinIn 0).prevout.hash = _ :=
      h.previous
    rw [spentOutput, hprevious]
    rfl
  have hmissing : spentOutput (node.previous (timed testNet) (clock n)) pendingIn = none := by
    have hnone : node.txdb.txindex pendingIn.prevout.hash = none :=
      h.unmined hearly _ (.tail _ (.head _))
    rw [spentOutput, Node.previous, hnone]
    rfl
  have hnot : pending.IsCoinBase = false ∧ dependent.IsCoinBase = false ∧
      pending.IsCoinStake = false := by decide
  have hpays : pending.GetValueOut = .ok (624 * COIN) := by decide
  have hvin : pending.vin = [coinIn 0] ∧ dependent.vin = [pendingIn] := ⟨rfl, rfl⟩
  rw [acceptFees_found (clock n) hrun.reaches, hvtx,
    foundFees_staked hcb hcs fun e herror => by cases hout.symm.trans herror]
  simp only [foundFees, foundValueIn, hnot, hvin, hcoin, hmissing, hpays, Bool.false_eq_true,
    if_false, Option.bind_some, Option.bind_none, bind, Except.bind]
  rfl

theorem StakerRun.target {n : ℕ} {r : SignedBlock} (h : StakerRun n node p block r) :
    r.block.nBits = GetNextTargetRequired (timed testNet) p true (3 * COIN) := by
  obtain ⟨g, hcreate⟩ := h.created
  obtain ⟨s, _, coinbase, txCoinStake, key, -, -, -, -, -, hbits, -, hsigns⟩ :=
    template_signs h.best h.early hcreate h.best h.signed h.ret
  rw [hsigns.target, hbits]

theorem Tip.unmined_pool (h : Tip node p) (hearly : p.label.nTime ≤ 10 ^ 8) :
    Unmined (timed testNet) node := by
  have hnamed : ∀ e ∈ poolTxs, e.1 = e.2.GetHash (timed testNet) := by decide
  rw [Unmined, h.pool]
  exact fun e he => ⟨hnamed e he, h.unmined hearly e he⟩

end Scenario

end Dions
