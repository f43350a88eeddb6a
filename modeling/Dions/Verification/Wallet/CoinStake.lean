import Dions.Model.CoinStake
import Dions.Verification.Chain.StakeKernel
import Dions.Verification.Script.Signing
import Dions.Verification.Wallet.Payments

/-! # What a coin stake spends and pays

The transaction that `CreateCoinStake` builds spends distinct coins of the wallet, not the reserve,
and pays them back with the reward. Its first input is the kernel that was found, at its time. -/

namespace Dions

open Halting txnouttype

variable {env : Env}
variable {setCoins : List Coin} {tx txCoinStake txNew : CTransaction} {block : CBlock}
  {pindexBest : CBlockIndex}
variable {budget nTargetValue : ℤ} {vCoins : List COutput} {coins : List Coin} {nTime : ℕ}
  {s : StakeInputs} {prevout : COutPoint}

/-! ## Selecting -/

theorem stakeCoins_from {sel : CoinSelection} (hholds : sel.Holds coins)
    (hnodup : (vCoins.map COutput.toCoin ++ coins).Nodup) :
    ∃ some : List Coin, some.Nodup ∧ some ⊆ vCoins.map COutput.toCoin ++ coins ∧
      (stakeCoins nTargetValue vCoins sel).Holds some := by
  induction vCoins generalizing coins sel with
  | nil => exact ⟨coins, hnodup, List.Subset.refl _, hholds⟩
  | cons output vCoins ih =>
    rw [List.map_cons, List.cons_append] at hnodup ⊢
    obtain ⟨hnew, hrest⟩ := List.nodup_cons.mp hnodup
    rw [List.mem_append, not_or] at hnew
    have htake := hholds.take hnew.2
    have hmoved : (vCoins.map COutput.toCoin ++ output.toCoin :: coins).Nodup :=
      List.nodup_middle.mpr hnodup
    rw [stakeCoins]
    split_ifs
    · refine ⟨coins, hrest.of_append_right, ?_, hholds⟩
      exact fun _ hmem => List.mem_cons_of_mem _ (List.mem_append_right _ hmem)
    · refine ⟨output.toCoin :: coins, hmoved.of_append_right, ?_, htake⟩
      exact List.cons_subset_cons _ (List.subset_append_right _ _)
    · obtain ⟨some, hsome, hsub, hfound⟩ := ih htake hmoved
      refine ⟨some, hsome, fun _ hmem => ?_, hfound⟩
      exact List.perm_middle.subset (hsub hmem)
    · obtain ⟨some, hsome, hsub, hfound⟩ := ih hholds hrest
      exact ⟨some, hsome, fun _ hmem => List.mem_cons_of_mem _ (hsub hmem), hfound⟩

theorem SelectCoinsForStaking_from {draws : Draws} (hnodup : (vCoins.map COutput.toCoin).Nodup) :
    (SelectCoinsForStaking draws vCoins nTargetValue).From (vCoins.map COutput.toCoin) := by
  have hperm := (draws.shuffled vCoins).map COutput.toCoin
  have hstart : ((draws.random_shuffle vCoins).map COutput.toCoin ++ []).Nodup := by
    rw [List.append_nil]
    exact hperm.nodup_iff.mpr hnodup
  obtain ⟨some, hsome, hsub, hholds⟩ := stakeCoins_from CoinSelection.holds_clear hstart
  refine ⟨some, hsome, fun _ hmem => ?_, hholds⟩
  have hin := hsub hmem
  rw [List.append_nil] at hin
  exact hperm.subset hin

/-! ## The kernel -/

section Stake

variable {Key : Type} {wallet : StakeWallet Key} {files : BlockFile} {node : Node}
  {pindexPrev : CBlockIndex} {nBits : ℕ} {nSearchInterval nFees : ℤ}

theorem toUInt32_lt (n : ℤ) : toUInt32 n < 2 ^ 32 := by
  unfold toUInt32
  omega

/-- What has been found out about a kernel. -/
structure KernelFound (env : Env) (wallet : StakeWallet Key) (files : BlockFile) (node : Node)
    (pindexPrev : CBlockIndex) (nBits : ℕ) (nSearchInterval : ℤ) (nTime : ℕ)
    (kernel : StakeKernel Key) : Prop where
  passes : CheckKernel env files node pindexPrev nBits kernel.nTime (kernel.coin.prevout env) = true
  paid : kernelKey wallet kernel.coin.scriptPubKey = some (kernel.key, kernel.scriptPubKeyOut)
  time : ∃ n : ℕ, (n : ℤ) < min nSearchInterval nMaxStakeSearchInterval ∧
    kernel.nTime = toUInt32 (nTime - n)

theorem findTime_some {n : ℕ} {prevoutStake : COutPoint}
    (h : findTime env files node pindexPrev nBits nSearchInterval nTime prevoutStake = some n) :
    (n : ℤ) < min nSearchInterval nMaxStakeSearchInterval ∧
      CheckKernel env files node pindexPrev nBits (toUInt32 (nTime - n)) prevoutStake = true := by
  unfold findTime at h
  have hmem := List.mem_range.mp (List.mem_of_find?_eq_some h)
  have hpasses := List.find?_some h
  exact ⟨by omega, hpasses⟩

theorem kernelOf_some {coin : Coin} {kernel : StakeKernel Key}
    (h : kernelOf env wallet files node pindexPrev nBits nSearchInterval nTime coin = some kernel) :
    kernel.coin = coin ∧
      KernelFound env wallet files node pindexPrev nBits nSearchInterval nTime kernel := by
  simp only [kernelOf, Option.bind_eq_bind, Option.bind_eq_some_iff, Option.some.injEq,
    Prod.exists] at h
  obtain ⟨txindex, -, block, -, n, hfind, key, scriptPubKeyOut, hkey, rfl⟩ := h
  obtain ⟨hn, hpasses⟩ := findTime_some hfind
  exact ⟨rfl, hpasses, hkey, n, hn, rfl⟩

/-! ## More inputs -/

/-- The inputs that go with a kernel: the kernel first, and coins of its key from other
transactions. -/
structure StakeInputs.Ok (env : Env) (budget : ℤ) (setCoins : List Coin)
    (kernel : StakeKernel Key) (s : StakeInputs) : Prop where
  coins : ∃ more : List Coin, s.coins = kernel.coin :: more ∧ more.Sublist setCoins ∧
    ∀ coin ∈ more, joinsKernel env kernel coin = true
  credit : s.nCredit = (s.coins.map Coin.nValue).sum
  length : s.coins.length ≤ 100
  reserve : s.nCredit ≤ budget

theorem combineInputs_ok {rest more : List Coin} {kernel : StakeKernel Key}
    (hamounts : Amounts setCoins) (hkernel : kernel.coin ∈ setCoins)
    (hcoins : s.coins = kernel.coin :: more) (hrest : (more ++ rest).Sublist setCoins)
    (hjoins : ∀ coin ∈ more, joinsKernel env kernel coin = true)
    (hcredit : s.nCredit = (s.coins.map Coin.nValue).sum) (hlength : s.coins.length ≤ 100)
    (hreserve : s.nCredit ≤ budget) :
    (combineInputs env node budget kernel rest s).Ok env budget setCoins kernel := by
  induction rest generalizing s more with
  | nil =>
    rw [List.append_nil] at hrest
    exact ⟨⟨more, hcoins, hrest, hjoins⟩, hcredit, hlength, hreserve⟩
  | cons coin rest ih =>
    have hstop : s.Ok env budget setCoins kernel :=
      ⟨⟨more, hcoins, (List.sublist_append_left _ _).trans hrest, hjoins⟩, hcredit, hlength,
        hreserve⟩
    have hskip : (more ++ rest).Sublist setCoins :=
      ((List.sublist_cons_self coin rest).append_left more).trans hrest
    rw [combineInputs]
    by_cases hjoin : joinsKernel env kernel coin = false
    · rw [if_pos hjoin]
      exact ih hcoins hskip hjoins hcredit hlength hreserve
    rw [if_neg hjoin]
    rw [Bool.not_eq_false] at hjoin
    split_ifs with hmany hlarge hover hsignificant hyoung
    · exact hstop
    · exact hstop
    · exact hstop
    · exact ih hcoins hskip hjoins hcredit hlength hreserve
    · exact ih hcoins hskip hjoins hcredit hlength hreserve
    · have hmore : (more ++ [coin] ++ rest).Sublist setCoins := by
        rwa [List.append_assoc, List.singleton_append]
      have htaken : (more ++ [coin]).Sublist setCoins :=
        (List.sublist_append_left _ _).trans hmore
      -- the kernel may be counted twice, and the sum still fits
      have hsum : int64 (s.nCredit + coin.nValue) = s.nCredit + coin.nValue := by
        have hparts := hamounts.sublist htaken
        have hlow := hparts.total_nonneg
        have hhigh := hparts.total_lt
        have hone := hamounts.le_total hkernel
        have hall := hamounts.total_lt
        have hnonneg := hamounts.nonneg _ hkernel
        rw [hcoins, List.map_cons, List.sum_cons] at hcredit
        rw [List.map_append, List.sum_append, List.map_cons, List.map_nil, List.sum_cons,
          List.sum_nil] at hlow hhigh
        exact (show Fits64 _ from ⟨by omega, by omega⟩).int64_eq
      refine ih ?_ hmore ?_ ?_ ?_ ?_
      · rw [hcoins]
        rfl
      · intro coin' hmem
        rcases List.mem_append.mp hmem with hmem | hmem
        · exact hjoins coin' hmem
        · rwa [List.mem_singleton.mp hmem]
      · dsimp only
        rw [hsum, hcredit, List.map_append, List.sum_append, List.map_singleton, List.sum_singleton]
      · rw [List.length_append, List.length_singleton]
        omega
      · exact Int.not_lt.mp hover

theorem stakeInputs_ok {kernel : StakeKernel Key} (hamounts : Amounts setCoins)
    (hkernel : kernel.coin ∈ setCoins) (hreserve : kernel.coin.nValue ≤ wallet.budget) :
    (stakeInputs env wallet node setCoins kernel).Ok env wallet.budget setCoins kernel := by
  have hone : kernel.coin.nValue = ([kernel.coin].map Coin.nValue).sum := by simp
  rw [stakeInputs]
  split
  · exact ⟨⟨[], rfl, List.nil_sublist _, by simp⟩, hone, by simp, hreserve⟩
  · exact combineInputs_ok hamounts hkernel rfl (List.Sublist.refl _) (by simp) hone (by simp)
      hreserve

theorem combineInputs_head {kernel : StakeKernel Key} {coin : Coin} {rest more : List Coin}
    (hcoins : s.coins = coin :: more) :
    ∃ more', (combineInputs env node budget kernel rest s).coins = coin :: more' := by
  induction rest generalizing s more with
  | nil => exact ⟨more, hcoins⟩
  | cons coin' rest ih =>
    rw [combineInputs]
    split_ifs
    · exact ih hcoins
    · exact ⟨more, hcoins⟩
    · exact ⟨more, hcoins⟩
    · exact ⟨more, hcoins⟩
    · exact ih hcoins
    · exact ih hcoins
    · have hmore : s.coins ++ [coin'] = coin :: (more ++ [coin']) := by
        rw [hcoins, List.cons_append]
      exact ih hmore

theorem stakeInputs_head (setCoins : List Coin) (kernel : StakeKernel Key) :
    ∃ more, (stakeInputs env wallet node setCoins kernel).coins = kernel.coin :: more := by
  rw [stakeInputs]
  split
  · exact ⟨[], rfl⟩
  · exact combineInputs_head rfl

/-! ## The transaction -/

theorem stakeHalf_bounds (n : ℤ) :
    min n 0 ≤ (n.tdiv 2).tdiv CENT * CENT ∧ (n.tdiv 2).tdiv CENT * CENT ≤ max n 0 := by
  have hcent : CENT = 1000000 := rfl
  have hpos : ∀ m : ℤ, 0 ≤ m →
      0 ≤ (m.tdiv 2).tdiv CENT * CENT ∧ (m.tdiv 2).tdiv CENT * CENT ≤ m := by
    intro m hm
    rw [Int.tdiv_eq_ediv_of_nonneg hm, Int.tdiv_eq_ediv_of_nonneg (by omega), hcent]
    omega
  rcases le_total 0 n with hn | hn
  · rw [min_eq_right hn, max_eq_left hn]
    exact hpos n hn
  · have hneg := hpos (-n) (by omega)
    rw [Int.neg_tdiv, Int.neg_tdiv, neg_mul] at hneg
    rw [min_eq_left hn, max_eq_right hn]
    omega

theorem sum_stakeOutputs (kernel : StakeKernel Key) (n : ℤ) :
    ((stakeOutputs kernel (int64 n)).map CTxOut.nValue).sum = int64 n := by
  have hfits := fits64_int64 n
  obtain ⟨hlow, hhigh⟩ := stakeHalf_bounds (int64 n)
  generalize int64 n = nCredit at hfits hlow hhigh ⊢
  rw [stakeOutputs]
  split
  · have hrest : int64 (nCredit - (nCredit.tdiv 2).tdiv CENT * CENT) =
        nCredit - (nCredit.tdiv 2).tdiv CENT * CENT := by
      have hfrom := hfits.1
      have hto := hfits.2
      exact (show Fits64 _ from ⟨by omega, by omega⟩).int64_eq
    simp only [List.map_cons, List.map_nil, List.sum_cons, List.sum_nil, hrest]
    ring
  · simp

/-- What signing leaves alone. -/
structure SameButScripts (a b : CTransaction) : Prop where
  vout : b.vout = a.vout
  nTime : b.nTime = a.nTime
  nLockTime : b.nLockTime = a.nLockTime
  prevouts : b.vin.map CTxIn.prevout = a.vin.map CTxIn.prevout

theorem signStake_frame {txNew' : CTransaction} (h : signStake wallet coins txNew = some txNew') :
    SameButScripts txNew txNew' := by
  rw [signStake] at h
  generalize coins.zipIdx = entries at h
  induction entries generalizing txNew with
  | nil =>
    rw [List.foldlM_nil] at h
    cases h
    exact ⟨rfl, rfl, rfl, rfl⟩
  | cons entry entries ih =>
    rw [List.foldlM_cons] at h
    obtain ⟨tx, hone, hrest⟩ := Option.bind_eq_some_iff.mp h
    obtain ⟨scriptSig, -, rfl⟩ := Option.map_eq_some_iff.mp hone
    obtain ⟨hvout, htime, hlock, hprevouts⟩ := ih hrest
    exact ⟨hvout, htime, hlock, hprevouts.trans (map_prevout_modify txNew.vin entry.2 scriptSig)⟩

theorem isCoinBase_congr {a b : CTransaction}
    (hprevouts : b.vin.map CTxIn.prevout = a.vin.map CTxIn.prevout)
    (hpays : 1 ≤ b.vout.length ↔ 1 ≤ a.vout.length) : b.IsCoinBase = a.IsCoinBase := by
  have hpaid : decide (1 ≤ b.vout.length) = decide (1 ≤ a.vout.length) := decide_eq_decide.mpr hpays
  rw [CTransaction.IsCoinBase, CTransaction.IsCoinBase, hpaid]
  rcases ha : a.vin with _ | ⟨i, _ | ⟨i', is⟩⟩ <;> rcases hb : b.vin with _ | ⟨j, _ | ⟨j', js⟩⟩ <;>
    simp_all

/-- The reward depends on the time and on what is spent. -/
theorem stakeReward_congr {nHeight : ℕ} {a b : CTransaction} (htime : b.nTime = a.nTime)
    (hprevouts : b.vin.map CTxIn.prevout = a.vin.map CTxIn.prevout)
    (hpays : 1 ≤ b.vout.length ↔ 1 ≤ a.vout.length) :
    stakeReward env files node nFees nHeight b = stakeReward env files node nFees nHeight a := by
  have hages : ∀ tx : CTransaction, tx.vin.mapM (ownAgeOf env files node.txdb.txindex tx.nTime) =
      (tx.vin.map CTxIn.prevout).mapM fun prevout =>
        ownAgeOf env files node.txdb.txindex tx.nTime ⟨prevout, [], 0⟩ := by
    intro tx
    rw [List.mapM_map]
    rfl
  have hsame : b.IsCoinBase = a.IsCoinBase := isCoinBase_congr hprevouts hpays
  rw [stakeReward, stakeReward, CTransaction.GetOwnCoinAge, CTransaction.GetOwnCoinAge, hages b,
    hages a, hprevouts, htime, hsame]

structure StakeMade (env : Env) (files : BlockFile) (node : Node) (nFees : ℤ) (nHeight : ℕ)
    (kernel : StakeKernel Key) (inputs : StakeInputs) (txNew : CTransaction) : Prop where
  nTime : txNew.nTime = kernel.nTime
  prevouts : txNew.vin.map CTxIn.prevout = inputs.coins.map (Coin.prevout env)
  size : txNew.GetSerializeSize < MAX_BLOCK_SIZE_GEN / 5
  reward : ∃ nReward, stakeReward env files node nFees nHeight txNew = some nReward ∧ 0 < nReward ∧
    txNew.vout = stakeOutputs kernel (int64 (inputs.nCredit + nReward))

theorem finishStake_some {nHeight : ℕ} {kernel : StakeKernel Key} {inputs : StakeInputs}
    (h : finishStake env wallet files node nFees nHeight tx kernel inputs = some txNew) :
    StakeMade env files node nFees nHeight kernel inputs txNew := by
  simp only [finishStake, Option.bind_eq_bind, Option.bind_eq_some_iff] at h
  obtain ⟨nReward, hreward, h⟩ := h
  split at h
  · simp at h
  rename_i hpos
  obtain ⟨signed, hsigned, h⟩ := Option.bind_eq_some_iff.mp h
  split at h
  · simp at h
  rename_i hsize
  obtain rfl : signed = txNew := Option.some.inj h
  obtain ⟨hvout, htime, -, hprevouts⟩ := signStake_frame hsigned
  have hpays : 1 ≤ signed.vout.length ↔ 1 ≤ (stakeOutputs kernel 0).length := by
    rw [hvout]
    exact iff_of_true (Nat.succ_pos _) (Nat.succ_pos _)
  refine ⟨htime, hprevouts.trans ?_, Nat.not_le.mp hsize, nReward, ?_, Int.not_le.mp hpos, hvout⟩
  · simp [fillVin]
  · rw [← hreward]
    exact stakeReward_congr htime hprevouts hpays

theorem CreateCoinStake_some {nHeight : ℕ} {key : Key}
    (h : CreateCoinStake env wallet files node pindexPrev nBits nSearchInterval nFees tx nHeight =
      some (txNew, key)) :
    ∃ (kernel : StakeKernel Key) (setCoins : List Coin), key = kernel.key ∧
      setCoins = (SelectCoinsForStaking wallet.draws wallet.vCoins wallet.budget).setCoinsRet ∧
      kernel.coin ∈ setCoins ∧ kernel.coin.nValue ≤ wallet.budget ∧
      KernelFound env wallet files node pindexPrev nBits nSearchInterval tx.nTime kernel ∧
      StakeMade env files node nFees nHeight kernel (stakeInputs env wallet node setCoins kernel)
        txNew := by
  rw [CreateCoinStake] at h
  split at h
  · simp at h
  obtain ⟨kernel, hfind, h⟩ := Option.bind_eq_some_iff.mp h
  split at h
  · simp at h
  rename_i hvalue
  obtain ⟨made, hmade, h⟩ := Option.bind_eq_some_iff.mp h
  obtain ⟨rfl, rfl⟩ := Prod.mk.inj (Option.some.inj h)
  obtain ⟨coin, hmem, hkernel⟩ := List.exists_of_findSome?_eq_some hfind
  obtain ⟨rfl, hfound⟩ := kernelOf_some hkernel
  rw [not_or, Int.not_lt] at hvalue
  exact ⟨kernel, _, rfl, rfl, hmem, hvalue.2, hfound, finishStake_some hmade⟩

theorem isCoinStake_of_outputs {kernel : StakeKernel Key} {nCredit : ℤ} {prevouts : List COutPoint}
    (hnull : prevout.n < UINT_MAX) (hvin : tx.vin.map CTxIn.prevout = prevout :: prevouts)
    (hvout : tx.vout = stakeOutputs kernel nCredit) : tx.IsCoinStake = true := by
  have hnot : prevout.IsNull = false := by
    simp [COutPoint.IsNull, hnull.ne]
  cases hin : tx.vin with
  | nil => simp [hin] at hvin
  | cons txin vin =>
    rw [hin, List.map_cons] at hvin
    obtain ⟨rfl, -⟩ := List.cons.inj hvin
    cases hsplit : kernel.fSplit
    · simp [CTransaction.IsCoinStake, hin, hvout, stakeOutputs, hsplit, hnot, CTxOut.IsEmpty]
    · simp [CTransaction.IsCoinStake, hin, hvout, stakeOutputs, hsplit, hnot, CTxOut.IsEmpty]

/-- Distinct outpoints, since the coins that are added come from other transactions. -/
theorem StakeInputs.Ok.nodup {kernel : StakeKernel Key} (h : s.Ok env budget setCoins kernel)
    (hnodup : (setCoins.map (Coin.prevout env)).Nodup) :
    (s.coins.map (Coin.prevout env)).Nodup := by
  obtain ⟨more, hcoins, hsub, hjoins⟩ := h.coins
  rw [hcoins, List.map_cons]
  refine List.nodup_cons.mpr ⟨fun hmem => ?_, hnodup.sublist (hsub.map _)⟩
  obtain ⟨coin, hcoin, hsame⟩ := List.mem_map.mp hmem
  have hjoin := hjoins coin hcoin
  have hhash : coin.tx.GetHash env = kernel.coin.tx.GetHash env := congrArg COutPoint.hash hsame
  simp [joinsKernel, hhash] at hjoin

end Stake

/-- A transaction that `CreateCoinStake` makes is a coin stake. It spends up to a hundred distinct
coins of the wallet that are worth no more than the balance without the reserve, and pays what they
are worth and the reward, which before the third version goes by its own coin age. Its first input
passes the test for kernels at the time of the transaction, which lies in the interval that is
searched. -/
theorem createCoinStake_accounts {env : Env} {Key : Type} {wallet : StakeWallet Key}
    {files : BlockFile} {node : Node} {pindexPrev : CBlockIndex} {nBits nHeight : ℕ}
    {nSearchInterval nFees : ℤ} {tx txNew : CTransaction} {key : Key}
    (hcoins : (wallet.vCoins.map fun output => output.toCoin.prevout env).Nodup)
    (hamounts : Amounts (wallet.vCoins.map COutput.toCoin))
    (hnull : ∀ output ∈ wallet.vCoins, output.i < UINT_MAX)
    (hbalance : wallet.nBalance < 2 ^ 63) (hreserve : 0 ≤ wallet.nReserveBalance)
    (h : CreateCoinStake env wallet files node pindexPrev nBits nSearchInterval nFees tx nHeight =
      some (txNew, key)) :
    ∃ (kernel : Coin) (more : List Coin) (nReward : ℤ),
      kernel :: more ⊆ wallet.vCoins.map COutput.toCoin ∧
      txNew.vin.map CTxIn.prevout = (kernel :: more).map (Coin.prevout env) ∧
      (txNew.vin.map CTxIn.prevout).Nodup ∧ txNew.vin.length ≤ 100 ∧
      ((kernel :: more).map Coin.nValue).sum ≤ wallet.nBalance - wallet.nReserveBalance ∧
      0 < nReward ∧
      txNew.created = int64 (((kernel :: more).map Coin.nValue).sum + nReward) ∧
      (env.V3 node.nBestHeight = true →
        nReward = GetProofOfStakeReward env 0 nFees (nHeight + 1)) ∧
      (env.V3 node.nBestHeight = false →
        ∃ nCoinAge, txNew.GetOwnCoinAge env files node.txdb.txindex = some nCoinAge ∧
          nReward = GetProofOfStakeReward env nCoinAge nFees (nHeight + 1)) ∧
      txNew.IsCoinStake = true ∧
      CheckKernel env files node pindexPrev nBits txNew.nTime (kernel.prevout env) = true ∧
      ∃ n : ℕ, (n : ℤ) < min nSearchInterval nMaxStakeSearchInterval ∧
        txNew.nTime = toUInt32 (tx.nTime - n) := by
  have hpositive : wallet.nReserveBalance < wallet.nBalance := by
    by_contra hle
    rw [CreateCoinStake, if_pos (Int.not_lt.mp hle)] at h
    simp at h
  have hbudget : wallet.budget = wallet.nBalance - wallet.nReserveBalance :=
    (show Fits64 _ from ⟨by omega, by omega⟩).int64_eq
  have hdistinct : (wallet.vCoins.map COutput.toCoin).Nodup := by
    rw [← Function.comp_def, ← List.map_map] at hcoins
    exact hcoins.of_map _
  obtain ⟨kernel, setCoins, -, rfl, hkernel, hvalue, hfound, hmade⟩ := CreateCoinStake_some h
  have hfrom : (SelectCoinsForStaking wallet.draws wallet.vCoins wallet.budget).From _ :=
    SelectCoinsForStaking_from hdistinct
  have hsubperm : (SelectCoinsForStaking wallet.draws wallet.vCoins
      wallet.budget).setCoinsRet.Subperm (wallet.vCoins.map COutput.toCoin) :=
    hfrom.nodup.subperm hfrom.subset
  obtain ⟨coins, hperm, hsublist⟩ := hsubperm
  have hselected := (hamounts.sublist hsublist).perm hperm.symm
  have hinputs : (stakeInputs env wallet node (SelectCoinsForStaking wallet.draws wallet.vCoins
      wallet.budget).setCoinsRet kernel).Ok env _ _ kernel :=
    stakeInputs_ok hselected hkernel hvalue
  have hprevouts : ((SelectCoinsForStaking wallet.draws wallet.vCoins
      wallet.budget).setCoinsRet.map (Coin.prevout env)).Nodup := by
    rw [← (hperm.map _).nodup_iff]
    refine List.Nodup.sublist (hsublist.map _) ?_
    rwa [List.map_map]
  have hspent := hinputs.nodup hprevouts
  obtain ⟨more, hlist, hmore, -⟩ := hinputs.coins
  obtain ⟨nReward, hreward, hpos, hvout⟩ := hmade.reward
  rw [hlist] at hspent
  have hvin : txNew.vin.map CTxIn.prevout = (kernel.coin :: more).map (Coin.prevout env) := by
    rw [hmade.prevouts, hlist]
  refine ⟨kernel.coin, more, nReward, ?_, hvin, hvin ▸ hspent, ?_, ?_, hpos, ?_, ?_, ?_, ?_, ?_, ?_⟩
  · exact List.cons_subset.mpr ⟨hfrom.subset hkernel, fun _ hmem =>
      hfrom.subset (hmore.subset hmem)⟩
  · have hlength := hinputs.length
    have hsame := congrArg List.length hvin
    rw [List.length_map, List.length_map, ← hlist] at hsame
    omega
  · rw [← hlist, ← hinputs.credit, ← hbudget]
    exact hinputs.reserve
  · rw [CTransaction.created, hvout, sum_stakeOutputs, hinputs.credit, hlist]
  · intro hV3
    rw [stakeReward, if_pos hV3, Option.some.injEq] at hreward
    exact hreward.symm
  · intro hV3
    rw [stakeReward, hV3, if_neg Bool.false_ne_true, Option.map_eq_some_iff] at hreward
    obtain ⟨nCoinAge, hage, hsame⟩ := hreward
    exact ⟨nCoinAge, hage, hsame.symm⟩
  · obtain ⟨output, houtput, hcoin⟩ := List.mem_map.mp (hfrom.subset hkernel)
    refine isCoinStake_of_outputs ?_ hvin hvout
    rw [← hcoin]
    exact hnull output houtput
  · rw [hmade.nTime]
    exact hfound.passes
  · obtain ⟨n, hn, htime⟩ := hfound.time
    exact ⟨n, hn, hmade.nTime.trans htime⟩

namespace Scenario

def ownReward : CTransaction :=
  coinbase 1 999 1 [⟨625 * COIN, SetBitcoinAddress ownerHash⟩]

/-- The node after a block with the reward at time 1000 and one at time 30000, with the tip. -/
def rewardedNode : Option (Node × CBlockIndex) :=
  match LoadGenesis modifying io genesisBlock >>= fun node => mineAll modifying io node
      [⟨testNet.hashGenesisBlock, 1000, 1, ownReward.vout, []⟩,
        ⟨1000, 30000, 1, [payTo (625 * COIN)], []⟩] with
  | .ok node => node.pindexBest.map fun p => (node, p)
  | .error _ => none

def rewardCoin : COutput :=
  ⟨⟨1, WxTx.ofTx ownReward, none, 0, by decide⟩, 2⟩

def staker : StakeWallet Unit where
  crypto := ownCrypto
  keystore := ownKeys
  GetPubKey _ := coSigner
  Sign _ _ := some ownerSignature
  SignSignature _ _ _ := some (pushVch ownerSignature)
  vCoins := [rewardCoin]
  draws := someDraws
  nBalance := 625 * COIN
  nReserveBalance := 0

/-- What the wallet makes at the time 30016, with a fee of one coin to collect. -/
def stakedReward (node : Node) (p : CBlockIndex) : Option (CTransaction × Unit) :=
  CreateCoinStake modifying staker node.files node p 0x207fffff 1 COIN (CTransaction.null 30016) 3

theorem createCoinStake_accounts_reward : ∃ node p tx, rewardedNode = some (node, p) ∧
    stakedReward node p = some (tx, ()) ∧ tx.IsCoinStake = true ∧
    CheckKernel modifying node.files node p 0x207fffff tx.nTime ⟨999, 0⟩ = true := by
  have hrun : rewardedNode.any (fun r => (stakedReward r.1 r.2).isSome) = true := by
    decide +kernel
  obtain ⟨⟨node, p⟩, hnode, hsome⟩ := (Option.any_eq_true _ _).mp hrun
  obtain ⟨⟨tx, key⟩, hmade⟩ := Option.isSome_iff_exists.mp hsome
  have hcoins : (staker.vCoins.map fun output => output.toCoin.prevout modifying).Nodup :=
    List.nodup_singleton _
  obtain ⟨kernel, more, nReward, hsub, -, -, -, -, -, -, -, -, hstake, hkernel, -⟩ :=
    createCoinStake_accounts hcoins ⟨by decide, by decide⟩ (by decide) (by decide) (le_refl 0)
      hmade
  have hcoin : kernel = rewardCoin.toCoin :=
    List.mem_singleton.mp (hsub List.mem_cons_self)
  rw [hcoin] at hkernel
  exact ⟨node, p, tx, hnode, hmade, hstake, hkernel⟩

end Scenario

/-! ## The block around a coin stake -/

section Block

variable {env : Env} {Key : Type} {wallet : StakeWallet Key} {files : BlockFile} {node : Node}
  {pindexPrev : CBlockIndex} {nBits nHeight : ℕ} {nSearchInterval nFees : ℤ}

/-! ## The validator -/

/-- What passes the staker's test passes the validator's exactly where it is old enough. -/
theorem CheckProofOfStake_of_kernel {nTime : ℤ} (hstakes : Stakes env files node nTime prevout tx)
    (hkernel : CheckKernel env files node pindexPrev nBits nTime prevout = true) :
    CheckProofOfStake env files node pindexPrev tx nBits = true ↔
      OldEnough env files node nTime prevout := by
  obtain ⟨txindex, txPrev, block, txout, hread, hblock, hout⟩ := CheckKernel_read hkernel
  rw [CheckKernel_eq hread hblock hout] at hkernel
  rw [CheckProofOfStake_eq hstakes hread hblock hout, OldEnough]
  by_cases hV3 : env.V3 node.nBestHeight = true
  · rw [if_pos hV3] at hkernel ⊢
    simp [hV3, hkernel]
  · rw [if_neg hV3] at hkernel ⊢
    have hage : (∀ txindex txPrev block,
        CTransaction.ReadFromDisk files node.txdb.txindex prevout = some (txindex, txPrev) →
          files.blocks (txindex.pos.nFile, txindex.pos.nBlockPos) = some block →
            (minAgeTime env block.nTime : ℤ) ≤ nTime) ↔
        (minAgeTime env block.nTime : ℤ) ≤ nTime := by
      refine ⟨fun hall => hall txindex txPrev block hread hblock, ?_⟩
      intro hold txindex' txPrev' block' hread' hblock'
      rw [hread, Option.some.injEq, Prod.mk.injEq] at hread'
      rw [← hread'.1, hblock, Option.some.injEq] at hblock'
      rwa [← hblock']
    rw [hage, or_iff_right hV3, Bool.and_eq_true, decide_eq_true_eq]
    refine and_iff_left_of_imp fun hold => ?_
    rwa [if_neg (not_lt.mpr hold)] at hkernel

theorem CreateCoinStake_nTime_lt {key : Key}
    (h : CreateCoinStake env wallet files node pindexPrev nBits nSearchInterval nFees tx nHeight =
      some (txNew, key)) : txNew.nTime < 2 ^ 32 := by
  obtain ⟨kernel, setCoins, -, -, -, -, hfound, hmade⟩ := CreateCoinStake_some h
  obtain ⟨n, -, htime⟩ := hfound.time
  rw [hmade.nTime, htime]
  exact toUInt32_lt _

theorem CreateCoinStake_first {key : Key} (hcoins : (wallet.vCoins.map COutput.toCoin).Nodup)
    (hnull : ∀ output ∈ wallet.vCoins, output.i < UINT_MAX)
    (h : CreateCoinStake env wallet files node pindexPrev nBits nSearchInterval nFees tx nHeight =
      some (txNew, key)) :
    ∃ (kernel : StakeKernel Key) (prevouts : List COutPoint),
      txNew.vin.map CTxIn.prevout = kernel.coin.prevout env :: prevouts ∧
      txNew.IsCoinStake = true ∧
      CheckKernel env files node pindexPrev nBits txNew.nTime (kernel.coin.prevout env) = true := by
  obtain ⟨kernel, setCoins, -, rfl, hkernel, -, hfound, hmade⟩ := CreateCoinStake_some h
  have hfrom : (SelectCoinsForStaking wallet.draws wallet.vCoins wallet.budget).From _ :=
    SelectCoinsForStaking_from hcoins
  obtain ⟨nReward, -, -, hvout⟩ := hmade.reward
  obtain ⟨output, houtput, hcoin⟩ := List.mem_map.mp (hfrom.subset hkernel)
  obtain ⟨more, hlist⟩ : ∃ more, (stakeInputs env wallet node (SelectCoinsForStaking wallet.draws
      wallet.vCoins wallet.budget).setCoinsRet kernel).coins = kernel.coin :: more :=
    stakeInputs_head _ kernel
  have hvin : txNew.vin.map CTxIn.prevout =
      kernel.coin.prevout env :: more.map (Coin.prevout env) := by
    rw [hmade.prevouts, hlist, List.map_cons]
  refine ⟨kernel, _, hvin, isCoinStake_of_outputs ?_ hvin hvout, ?_⟩
  · rw [← hcoin]
    exact hnull output houtput
  · rw [hmade.nTime]
    exact hfound.passes

/-- A coin stake that `CreateCoinStake` makes, signed, passes the proof of stake of the next block
exactly where the staked output is old enough. From the height of `V3` on that is always so. -/
theorem createCoinStake_valid_iff {env : Env} {Key : Type} {wallet : StakeWallet Key}
    {files : BlockFile} {node : Node} {pindexPrev : CBlockIndex} {nBits nHeight : ℕ}
    {nSearchInterval nFees : ℤ} {tx txNew : CTransaction} {key : Key}
    (hcoins : (wallet.vCoins.map COutput.toCoin).Nodup)
    (hnull : ∀ output ∈ wallet.vCoins, output.i < UINT_MAX)
    (h : CreateCoinStake env wallet files node pindexPrev nBits nSearchInterval nFees tx nHeight =
      some (txNew, key)) :
    ∃ prevout, (txNew.vin.map CTxIn.prevout).head? = some prevout ∧
      ((∀ txindex txPrev,
        CTransaction.ReadFromDisk files node.txdb.txindex prevout = some (txindex, txPrev) →
          VerifySignature env txPrev txNew 0 0 = true) →
        (CheckProofOfStake env files node pindexPrev txNew nBits = true ↔
          OldEnough env files node txNew.nTime prevout)) := by
  have hrange := CreateCoinStake_nTime_lt h
  obtain ⟨kernel, prevouts, hvin, hstake, hpasses⟩ := CreateCoinStake_first hcoins hnull h
  refine ⟨kernel.coin.prevout env, by rw [hvin, List.head?_cons], fun hsigned => ?_⟩
  refine CheckProofOfStake_of_kernel ⟨hstake, rfl, hrange, ?_, hsigned⟩ hpasses
  obtain ⟨txin, vin, hin, hprevout, -⟩ := List.map_eq_cons_iff.mp hvin
  exact ⟨txin, vin, hin, hprevout⟩

/-! ## The time of the block -/

/-- The largest of the times, as `GetMaxTransactionTime` finds it. -/
theorem foldl_max_le_iff (vtx : List CTransaction) (n bound : ℤ) :
    vtx.foldl (fun m tx => max m (tx.nTime : ℤ)) n ≤ bound ↔
      n ≤ bound ∧ ∀ tx ∈ vtx, (tx.nTime : ℤ) ≤ bound := by
  induction vtx generalizing n with
  | nil => simp
  | cons tx vtx ih =>
    rw [List.foldl_cons, ih, max_le_iff, List.forall_mem_cons, and_assoc]

theorem GetMaxTransactionTime_le_iff (block : CBlock) (bound : ℤ) :
    block.GetMaxTransactionTime ≤ bound ↔
      0 ≤ bound ∧ ∀ tx ∈ block.vtx, (tx.nTime : ℤ) ≤ bound :=
  foldl_max_le_iff block.vtx 0 bound

theorem le_GetMaxTransactionTime (h : tx ∈ block.vtx) :
    (tx.nTime : ℤ) ≤ block.GetMaxTransactionTime :=
  ((GetMaxTransactionTime_le_iff block _).mp (le_refl _)).2 tx h

theorem toUInt32_eq {n : ℤ} (hlow : 0 ≤ n) (hhigh : n < 2 ^ 32) : (toUInt32 n : ℤ) = n := by
  unfold toUInt32
  omega

theorem le_stampedTime (pindexBest : CBlockIndex) (nTime : ℕ) (coinbase : CTransaction)
    (block : CBlock) :
    (nTime : ℤ) ≤ (stampBlock pindexBest nTime coinbase block).GetMaxTransactionTime := by
  have hfirst : { coinbase with nTime := nTime } ∈
      (stampBlock pindexBest nTime coinbase block).vtx := List.mem_cons_self
  exact le_GetMaxTransactionTime hfirst

/-- The times of a stamped block: it is as late as the latest of its transactions. -/
theorem stampBlock_nTime {pindexBest : CBlockIndex} {nTime : ℕ} {coinbase : CTransaction}
    {block : CBlock} (htimes : ∀ tx ∈ block.vtx.tail, tx.nTime < 2 ^ 32) (hrange : nTime < 2 ^ 32)
    (hlate : max (pindexBest.GetPastTimeLimit + 1)
      (PastDrift pindexBest.GetBlockTime (pindexBest.nHeight + 1)) ≤ nTime) :
    ((stampBlock pindexBest nTime coinbase block).nTime : ℤ) =
      (stampBlock pindexBest nTime coinbase block).GetMaxTransactionTime := by
  have hfirst := le_stampedTime pindexBest nTime coinbase block
  have hbound : (stampBlock pindexBest nTime coinbase block).GetMaxTransactionTime < 2 ^ 32 := by
    rw [Int.lt_iff_add_one_le, ← le_sub_iff_add_le]
    refine (GetMaxTransactionTime_le_iff _ _).mpr ⟨by decide, fun tx htx => ?_⟩
    rcases List.mem_cons.mp htx with rfl | htx
    · dsimp only
      omega
    · have htime := htimes tx htx
      omega
  have hmax : (stampBlock pindexBest nTime coinbase block).nTime =
      toUInt32 (max (toUInt32 (max (pindexBest.GetPastTimeLimit + 1)
        (stampBlock pindexBest nTime coinbase block).GetMaxTransactionTime))
          (PastDrift pindexBest.GetBlockTime (pindexBest.nHeight + 1))) := rfl
  rw [max_le_iff] at hlate
  rw [hmax, max_eq_right (hlate.1.trans hfirst), toUInt32_eq (by omega) hbound,
    max_eq_left (hlate.2.trans hfirst), toUInt32_eq (by omega) hbound]

/-- No transaction is later than the block, so none is erased. -/
theorem insertStake_ok {coinbase : CTransaction} (htimes : ∀ tx ∈ block.vtx.tail, tx.nTime < 2 ^ 32)
    (hrange : txCoinStake.nTime < 2 ^ 32) (hlate : max (pindexBest.GetPastTimeLimit + 1)
      (PastDrift pindexBest.GetBlockTime (pindexBest.nHeight + 1)) ≤ txCoinStake.nTime) :
    ∃ block', insertStake env txCoinStake
        (stampBlock pindexBest txCoinStake.nTime coinbase block) = .ok block' ∧
      block'.vtx = { coinbase with nTime := txCoinStake.nTime } :: txCoinStake :: block.vtx.tail ∧
      block'.hashMerkleRoot = block'.BuildMerkleTree env ∧
      block'.nTime = (stampBlock pindexBest txCoinStake.nTime coinbase block).nTime := by
  have hkept : (stampBlock pindexBest txCoinStake.nTime coinbase block).vtx.filter
      (fun tx => tx.nTime ≤ (stampBlock pindexBest txCoinStake.nTime coinbase block).nTime) =
      { coinbase with nTime := txCoinStake.nTime } :: block.vtx.tail := by
    refine List.filter_eq_self.mpr fun tx htx => ?_
    have hmax := le_GetMaxTransactionTime htx
    rw [← stampBlock_nTime htimes hrange hlate] at hmax
    exact decide_eq_true (by exact_mod_cast hmax)
  rw [insertStake, hkept]
  exact ⟨_, rfl, rfl, rfl, rfl⟩

theorem insertStake_stamped {coinbase : CTransaction} {block' : CBlock}
    (htimes : ∀ tx ∈ block.vtx.tail, tx.nTime < 2 ^ 32) (hrange : txCoinStake.nTime < 2 ^ 32)
    (hlate : max (pindexBest.GetPastTimeLimit + 1)
      (PastDrift pindexBest.GetBlockTime (pindexBest.nHeight + 1)) ≤ txCoinStake.nTime)
    (h : insertStake env txCoinStake (stampBlock pindexBest txCoinStake.nTime coinbase block) =
      .ok block') :
    block'.vtx = { coinbase with nTime := txCoinStake.nTime } :: txCoinStake :: block.vtx.tail ∧
      block'.hashMerkleRoot = block'.BuildMerkleTree env ∧
      block'.nTime = (stampBlock pindexBest txCoinStake.nTime coinbase block).nTime := by
  obtain ⟨made, hmade, hsame⟩ : ∃ made, insertStake env txCoinStake
      (stampBlock pindexBest txCoinStake.nTime coinbase block) = .ok made ∧ _ :=
    insertStake_ok htimes hrange hlate
  rw [hmade, Except.ok.injEq] at h
  rwa [← h]

theorem CreateCoinStake_masked {key : Key} (hrange : tx.nTime < 2 ^ 32)
    (h : CreateCoinStake env wallet files node pindexPrev nBits 1 nFees tx nHeight =
      some (txNew, key)) : txNew.nTime = tx.nTime := by
  obtain ⟨kernel, setCoins, -, -, -, -, hfound, hmade⟩ := CreateCoinStake_some h
  obtain ⟨n, hn, htime⟩ := hfound.time
  have hzero : n = 0 := by
    have hone : (n : ℤ) < 1 := hn.trans_le (min_le_left _ _)
    omega
  rw [hmade.nTime, htime, hzero]
  have hsame := toUInt32_eq (n := (tx.nTime : ℤ) - (0 : ℕ)) (by omega) (by omega)
  omega

theorem stakeSearchTime_lt (io : Io) (node : Node) : stakeSearchTime io node < 2 ^ 32 := by
  refine lt_of_le_of_lt ?_ (toUInt32_lt io.nAdjustedTime)
  rw [stakeSearchTime]
  split
  · exact Nat.sub_le _ _
  · exact le_refl _

theorem stakeSearchTime_masked (io : Io) (node : Node)
    (hV2 : IsProtocolV2 (node.nBestHeight + 1) = true) :
    stakeSearchTime io node &&& STAKE_TIMESTAMP_MASK = 0 := by
  have hmask : ∀ n, n &&& STAKE_TIMESTAMP_MASK = n % 16 :=
      fun n => Nat.and_two_pow_sub_one_eq_mod n 4
  rw [stakeSearchTime, if_pos hV2, hmask]
  have hsixteen : STAKE_TIMESTAMP_MASK + 1 = 16 := rfl
  rw [hsixteen]
  omega

/-- What `SignBlock` does with a template that it turns into a block of its own. -/
structure Signs (env : Env) (wallet : StakeWallet Key) (io : Io) (node : Node) (nFees : ℤ)
    (block : CBlock) (pindexBest : CBlockIndex) (coinbase txCoinStake : CTransaction) (key : Key)
    (signed : CBlock) : Prop where
  best : node.pindexBest = some pindexBest
  first : ∃ vtx, block.vtx = coinbase :: vtx
  created : ∃ nSearchInterval, (IsProtocolV2 (node.nBestHeight + 1) = true → nSearchInterval = 1) ∧
    CreateCoinStake env wallet (io.visible node.files) node pindexBest block.nBits nSearchInterval
      nFees (CTransaction.null (stakeSearchTime io node)) (pindexBest.nHeight + 1) =
        some (txCoinStake, key)
  late : max (pindexBest.GetPastTimeLimit + 1)
    (PastDrift pindexBest.GetBlockTime (pindexBest.nHeight + 1)) ≤ txCoinStake.nTime
  signed : ∃ block', insertStake env txCoinStake
    (stampBlock pindexBest txCoinStake.nTime coinbase block) = .ok block' ∧
      wallet.Sign key (block'.GetHash env) = some signed.vchBlockSig ∧
      signed = { block' with vchBlockSig := signed.vchBlockSig }

theorem SignBlock_true {io : Io} {nLast : Option ℤ} {r : SignedBlock}
    (hnew : block.IsProofOfStake = false)
    (h : block.SignBlock env wallet node io nLast nFees = .ok r) (hret : r.ret = true) :
    ∃ pindexBest coinbase txCoinStake key,
      Signs env wallet io node nFees block pindexBest coinbase txCoinStake key r.block := by
  simp only [CBlock.SignBlock, seq_ok, access_eq_ok] at h
  obtain ⟨coinbase, hfirst, txout, -, h⟩ := h
  have hvtx : ∃ vtx, block.vtx = coinbase :: vtx := by
    cases hlist : block.vtx with
    | nil => simp [hlist] at hfirst
    | cons tx vtx =>
      rw [hlist, List.getElem?_cons_zero, Option.some.injEq] at hfirst
      exact ⟨vtx, by rw [hfirst]⟩
  split at h
  · cases h
    simp at hret
  rw [if_neg (by simp [hnew])] at h
  split at h
  · cases h
    simp at hret
  split at h
  · simp at h
  rename_i pindexBest hbest
  split at h
  · cases h
    simp at hret
  rename_i txCoinStake key hcreate
  split at h
  · rename_i hlate
    obtain ⟨block', hinsert, h⟩ := seq_ok.mp h
    cases hsign : wallet.Sign key (block'.GetHash env) with
    | none =>
      simp only [signWith, hsign, Except.ok.injEq] at h
      rw [← h] at hret
      simp at hret
    | some vchBlockSig =>
      simp only [signWith, hsign, Except.ok.injEq] at h
      subst h
      refine ⟨pindexBest, coinbase, txCoinStake, key, hbest, hvtx, ⟨_, fun hV2 => ?_, hcreate⟩,
        hlate, block', hinsert, hsign, rfl⟩
      rw [if_pos hV2]
  · cases h
    simp at hret

/-- The block that is signed keeps the transactions of the template, and is as late as the latest of
its transactions. -/
theorem Signs.made {io : Io} {signed : CBlock} {coinbase : CTransaction} {key : Key}
    (h : Signs env wallet io node nFees block pindexBest coinbase txCoinStake key signed)
    (htimes : ∀ tx ∈ block.vtx.tail, tx.nTime < 2 ^ 32) :
    signed.vtx = { coinbase with nTime := txCoinStake.nTime } :: txCoinStake :: block.vtx.tail ∧
      signed.hashMerkleRoot = signed.BuildMerkleTree env ∧
      ∀ nTime, signed.nTime ≤ nTime ↔
        txCoinStake.nTime ≤ nTime ∧ ∀ tx ∈ block.vtx.tail, tx.nTime ≤ nTime := by
  obtain ⟨nSearchInterval, -, hcreate⟩ := h.created
  obtain ⟨block', hinsert, -, hsigned⟩ := h.signed
  have hrange := CreateCoinStake_nTime_lt hcreate
  obtain ⟨hvtx, hroot, htime⟩ := insertStake_stamped htimes hrange h.late hinsert
  have hlatest := @stampBlock_nTime pindexBest txCoinStake.nTime coinbase block htimes hrange h.late
  rw [hsigned]
  refine ⟨hvtx, hroot, fun nTime => ?_⟩
  have hle : ((block'.nTime : ℤ) ≤ nTime) ↔ (txCoinStake.nTime : ℤ) ≤ nTime ∧
      ∀ tx ∈ block.vtx.tail, (tx.nTime : ℤ) ≤ nTime := by
    rw [htime, hlatest, GetMaxTransactionTime_le_iff]
    simp [stampBlock]
  exact_mod_cast hle

theorem Signs.target {io : Io} {signed : CBlock} {coinbase : CTransaction} {key : Key}
    (h : Signs env wallet io node nFees block pindexBest coinbase txCoinStake key signed) :
    signed.nBits = block.nBits := by
  obtain ⟨block', hinsert, -, hsigned⟩ := h.signed
  rw [insertStake] at hinsert
  split at hinsert
  · simp at hinsert
  · rw [hsigned, ← Except.ok.inj hinsert]
    rfl

/-- A template that `SignBlock` signs keeps all of its transactions, in front of them the coin stake
that the wallet makes for the time of the search. The block is later than its limit, and it has the
time of the coin stake, as a proof of stake must, exactly where no transaction of the template is
later. -/
theorem signBlock_timestamp_iff {env : Env} {Key : Type} {wallet : StakeWallet Key} {node : Node}
    {io : Io} {nLast : Option ℤ} {nFees : ℤ} {block : CBlock} {r : SignedBlock}
    (hnew : block.IsProofOfStake = false) (htimes : ∀ tx ∈ block.vtx.tail, tx.nTime < 2 ^ 32)
    (h : block.SignBlock env wallet node io nLast nFees = .ok r) (hret : r.ret = true) :
    ∃ pindexBest coinbase txCoinStake key, node.pindexBest = some pindexBest ∧
      r.block.vtx = { coinbase with nTime := txCoinStake.nTime } :: txCoinStake :: block.vtx.tail ∧
      block.vtx.head? = some coinbase ∧
      r.block.hashMerkleRoot = r.block.BuildMerkleTree env ∧
      (∃ nSearchInterval, CreateCoinStake env wallet (io.visible node.files) node pindexBest
        block.nBits nSearchInterval nFees (CTransaction.null (stakeSearchTime io node))
          (pindexBest.nHeight + 1) = some (txCoinStake, key)) ∧
      pindexBest.GetPastTimeLimit < r.block.nTime ∧
      (CheckCoinStakeTimestamp (pindexBest.nHeight + 1) r.block.nTime txCoinStake.nTime = true ↔
        ∀ tx ∈ block.vtx.tail, tx.nTime ≤ txCoinStake.nTime) := by
  obtain ⟨pindexBest, coinbase, txCoinStake, key, hsigns⟩ := SignBlock_true hnew h hret
  obtain ⟨nSearchInterval, hinterval, hcreate⟩ := hsigns.created
  obtain ⟨hvtx, hroot, htime⟩ := hsigns.made htimes
  have hstake : txCoinStake.nTime ≤ r.block.nTime := ((htime _).mp (le_refl _)).1
  have hequal : r.block.nTime = txCoinStake.nTime ↔
      ∀ tx ∈ block.vtx.tail, tx.nTime ≤ txCoinStake.nTime := by
    constructor
    · exact fun heq => ((htime _).mp heq.le).2
    · exact fun hall => le_antisymm ((htime _).mpr ⟨le_refl _, hall⟩) hstake
  refine ⟨pindexBest, coinbase, txCoinStake, key, hsigns.best, hvtx, ?_, hroot, ⟨_, hcreate⟩, ?_, ?_⟩
  · obtain ⟨vtx, hlist⟩ := hsigns.first
    rw [hlist, List.head?_cons]
  · have hlimit := (max_le_iff.mp hsigns.late).1
    omega
  · rw [← hequal, CheckCoinStakeTimestamp]
    by_cases hV2 : IsProtocolV2 (pindexBest.nHeight + 1) = true
    · have hbest : node.nBestHeight = pindexBest.nHeight := by
        rw [Node.nBestHeight, hsigns.best]
      rw [← hbest] at hV2
      rw [hinterval hV2] at hcreate
      have hmasked := CreateCoinStake_masked (stakeSearchTime_lt io node) hcreate
      rw [← hbest, if_pos hV2, hmasked]
      simp [CTransaction.null, stakeSearchTime_masked io node hV2]
    · rw [if_neg hV2, beq_iff_eq]

end Block

namespace Scenario

theorem createCoinStake_valid_iff_reward : ∃ node p tx, rewardedNode = some (node, p) ∧
    stakedReward node p = some (tx, ()) ∧
    CheckProofOfStake modifying node.files node p tx 0x207fffff = true ∧
    OldEnough modifying node.files node tx.nTime ⟨999, 0⟩ := by
  have hrun : rewardedNode.any (fun r => (stakedReward r.1 r.2).any fun made =>
      CheckProofOfStake modifying r.1.files r.1 r.2 made.1 0x207fffff &&
        (made.1.vin.map CTxIn.prevout).head? == some ⟨999, 0⟩ &&
        (CTransaction.ReadFromDisk r.1.files r.1.txdb.txindex ⟨999, 0⟩).all
          fun read => VerifySignature modifying read.2 made.1 0 0) = true := by
    decide +kernel
  obtain ⟨⟨node, p⟩, hnode, hrun⟩ := (Option.any_eq_true _ _).mp hrun
  obtain ⟨⟨tx, key⟩, hmade, hchecks⟩ := (Option.any_eq_true _ _).mp hrun
  simp only [Bool.and_eq_true, beq_iff_eq] at hchecks
  obtain ⟨⟨hproof, hfirst⟩, hsigned⟩ := hchecks
  have hcoins : (staker.vCoins.map COutput.toCoin).Nodup := List.nodup_singleton _
  obtain ⟨prevout, hprevout, hvalid⟩ := createCoinStake_valid_iff hcoins (by decide) hmade
  rw [hfirst, Option.some.injEq] at hprevout
  subst hprevout
  refine ⟨node, p, tx, hnode, hmade, hproof, (hvalid fun txindex txPrev hread => ?_).mp hproof⟩
  rw [hread] at hsigned
  exact hsigned

def ioStaking : Io := { io with nAdjustedTime := 30016 }

/-- A template with an empty coinbase and one transaction of the given time. -/
def stakeTemplate (p : CBlockIndex) (nTime : ℕ) : CBlock :=
  ⟨7, p.GetBlockHash, 0, 30016, 0x207fffff, 0,
    [coinbase 3 30016 1 [⟨0, []⟩], spending nTime 1 [⟨29999, 0⟩] [payTo COIN]], []⟩

def signTemplate (nTime : ℕ) (node : Node) (p : CBlockIndex) : Exec SignedBlock :=
  (stakeTemplate p nTime).SignBlock modifying staker node ioStaking (some 30015) COIN

def templateSigned (nTime : ℕ) (node : Node) (p : CBlockIndex) : Bool :=
  match signTemplate nTime node p with
  | .ok r => r.ret
  | .error _ => false

/-- A transaction of the same second leaves the time of the block alone. -/
theorem signBlock_timestamp_iff_same : ∃ node p r, rewardedNode = some (node, p) ∧
    signTemplate 30016 node p = .ok r ∧ r.block.vtx.length = 3 := by
  have hrun : rewardedNode.any (fun r => templateSigned 30016 r.1 r.2) = true := by
    decide +kernel
  obtain ⟨⟨node, p⟩, hnode, hsigned⟩ := (Option.any_eq_true _ _).mp hrun
  unfold templateSigned at hsigned
  cases hsign : signTemplate 30016 node p with
  | error e => simp [hsign] at hsigned
  | ok r =>
    simp only [hsign] at hsigned
    have hnew : (stakeTemplate p 30016).IsProofOfStake = false := rfl
    have htimes : ∀ tx ∈ (stakeTemplate p 30016).vtx.tail, tx.nTime < 2 ^ 32 := by
      simp [stakeTemplate, spending]
    obtain ⟨_, _, _, _, -, hvtx, -⟩ := signBlock_timestamp_iff hnew htimes hsign hsigned
    exact ⟨node, p, r, hnode, hsign, by rw [hvtx]; rfl⟩

end Scenario

end Dions
