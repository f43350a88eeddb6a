import Dions.Model.Wallet

/-! # Coin selection

Which coins of the wallet pay for a target: `ApproximateBestSubset`, `SelectCoinsMinConf` and
`SelectCoins`. The shuffle, the unstable sort and the random bits come from outside. -/

namespace Dions

open Halting

/-! ## Coins -/

/-- The pair of a pointer to a wallet transaction and the number of an output, together with what
is found behind the pointer: the transaction, and its debit where that is cached. -/
structure Coin where
  pcoin : ℕ
  tx : WxTx
  nDebitCached : Option ℤ
  i : ℕ
  inRange : i < tx.vout.length
  deriving DecidableEq

structure COutput extends Coin where
  nDepth : ℤ
  deriving DecidableEq

def Coin.nValue (coin : Coin) : ℤ := (coin.tx.vout.get ⟨coin.i, coin.inRange⟩).nValue

/-- The order of the pairs in a `set`. -/
def Coin.before (a b : Coin) : Prop := a.pcoin < b.pcoin ∨ a.pcoin = b.pcoin ∧ a.i ≤ b.i

instance : DecidableRel Coin.before := fun a b =>
  inferInstanceAs (Decidable (a.pcoin < b.pcoin ∨ a.pcoin = b.pcoin ∧ a.i ≤ b.i))

/-- `setCoinsRet` and `nValueRet`. -/
structure CoinSelection where
  setCoinsRet : List Coin
  nValueRet : ℤ
  deriving DecidableEq

namespace CoinSelection

def clear : CoinSelection := ⟨[], 0⟩

def insert (coin : Coin) (setCoinsRet : List Coin) : List Coin :=
  if coin ∈ setCoinsRet then setCoinsRet else setCoinsRet.orderedInsert Coin.before coin

def take (sel : CoinSelection) (coin : Coin) : CoinSelection :=
  ⟨insert coin sel.setCoinsRet, int64 (sel.nValueRet + coin.nValue)⟩

end CoinSelection

/-- What chance and the implementation of `std::sort` decide. -/
structure Draws where
  random_shuffle : List COutput → List COutput
  shuffled : ∀ vCoins, (random_shuffle vCoins).Perm vCoins
  /-- Descending order by value; nothing is said about coins of one value. -/
  sort : List Coin → List Coin
  permuted : ∀ vValue, (sort vValue).Perm vValue
  sorted : ∀ vValue, (sort vValue).Pairwise fun a b => b.nValue ≤ a.nValue
  /-- `insecure_rand()&1` in a call of `ApproximateBestSubset`, at a repetition and a coin. -/
  bit : ℕ → ℕ → ℕ → Bool

/-! ## The subset search -/

structure BestSubset where
  vfBest : List Bool
  nBest : ℤ
  deriving DecidableEq, Repr

structure SubsetPass extends BestSubset where
  vfIncluded : List Bool
  nTotal : ℤ
  fReachedTarget : Bool
  deriving DecidableEq, Repr

namespace SubsetPass

/-- A coin is put in; where the target is reached, the total is compared with the best one and the
coin is taken out again. -/
def tryCoin (nTargetValue : ℤ) (p : SubsetPass) (coin : Coin) (i : ℕ) : SubsetPass :=
  let nTotal := int64 (p.nTotal + coin.nValue)
  let vfIncluded := p.vfIncluded.set i true
  if nTargetValue ≤ nTotal then
    { toBestSubset := if nTotal < p.nBest then ⟨vfIncluded, nTotal⟩ else p.toBestSubset
      vfIncluded := vfIncluded.set i false
      nTotal := int64 (nTotal - coin.nValue)
      fReachedTarget := true }
  else { p with vfIncluded := vfIncluded, nTotal := nTotal }

/-- The first pass takes what the random bits say, the second one what is left out. -/
def visit (bit : ℕ → Bool) (nTargetValue : ℤ) (nPass : ℕ) (p : SubsetPass) (entry : Coin × ℕ) :
    SubsetPass :=
  if if nPass = 0 then bit entry.2 else !p.vfIncluded.getD entry.2 false then
    p.tryCoin nTargetValue entry.1 entry.2
  else p

def run (bit : ℕ → Bool) (vValue : List Coin) (nTargetValue : ℤ) (nPass : ℕ) (p : SubsetPass) :
    SubsetPass :=
  vValue.zipIdx.foldl (visit bit nTargetValue nPass) p

end SubsetPass

namespace BestSubset

/-- One repetition: the second pass is made when the first one has not reached the target. -/
def improve (bit : ℕ → Bool) (vValue : List Coin) (nTargetValue : ℤ) (best : BestSubset) :
    BestSubset :=
  let p := SubsetPass.run bit vValue nTargetValue 0
    { toBestSubset := best
      vfIncluded := List.replicate vValue.length false
      nTotal := 0
      fReachedTarget := false }
  if p.fReachedTarget then p.toBestSubset
  else (SubsetPass.run bit vValue nTargetValue 1 p).toBestSubset

def repeated (bit : ℕ → ℕ → Bool) (vValue : List Coin) (nTargetValue : ℤ) :
    (left nRep : ℕ) → BestSubset → BestSubset
  | 0, _, best => best
  | left + 1, nRep, best =>
    if best.nBest = nTargetValue then best
    else repeated bit vValue nTargetValue left (nRep + 1)
      (best.improve (bit nRep) vValue nTargetValue)

end BestSubset

def ApproximateBestSubset (bit : ℕ → ℕ → Bool) (vValue : List Coin) (nTotalLower nTargetValue : ℤ)
    (iterations : ℕ) : BestSubset :=
  BestSubset.repeated bit vValue nTargetValue iterations 0
    ⟨List.replicate vValue.length true, nTotalLower⟩

/-! ## The scan of the coins -/

structure CoinCandidates where
  vValue : List Coin
  nTotalLower : ℤ
  coinLowestLarger : Option Coin
  deriving DecidableEq

namespace CoinCandidates

/-- `coinLowestLarger.first`, which starts at the largest `int64_t`. -/
def lowestLarger (cand : CoinCandidates) : ℤ :=
  match cand.coinLowestLarger with
  | none => 2 ^ 63 - 1
  | some coin => coin.nValue

/-- What is done with a coin of another value than the target. -/
def sift (nTargetValue : ℤ) (cand : CoinCandidates) (coin : Coin) : CoinCandidates :=
  if coin.nValue < int64 (nTargetValue + CENT) then
    { cand with
      vValue := cand.vValue ++ [coin]
      nTotalLower := int64 (cand.nTotalLower + coin.nValue) }
  else if coin.nValue < cand.lowestLarger then { cand with coinLowestLarger := some coin }
  else cand

/-- The choice once all coins have been seen and none has the target's value. -/
def choose (draws : Draws) (nTargetValue : ℤ) (cand : CoinCandidates) : Bool × CoinSelection :=
  if cand.nTotalLower = nTargetValue then (true, cand.vValue.foldl CoinSelection.take .clear)
  else if cand.nTotalLower < nTargetValue then
    match cand.coinLowestLarger with
    | none => (false, .clear)
    | some coin => (true, CoinSelection.clear.take coin)
  else
    let vValue := draws.sort cand.vValue
    let best := ApproximateBestSubset (draws.bit 0) vValue cand.nTotalLower nTargetValue 1000
    let best :=
      if best.nBest ≠ nTargetValue ∧ int64 (nTargetValue + CENT) ≤ cand.nTotalLower then
        ApproximateBestSubset (draws.bit 1) vValue cand.nTotalLower (int64 (nTargetValue + CENT))
          1000
      else best
    let subset := (vValue.zip best.vfBest).foldl
      (fun sel entry => if entry.2 then sel.take entry.1 else sel) CoinSelection.clear
    match cand.coinLowestLarger with
    | none => (true, subset)
    | some coin =>
      -- the bigger coin, where the search found no good subset or the coin is closer
      if (best.nBest ≠ nTargetValue ∧ best.nBest < int64 (nTargetValue + CENT)) ∨
          coin.nValue ≤ best.nBest then
        (true, CoinSelection.clear.take coin)
      else (true, subset)

end CoinCandidates

/-- The loop over the coins ends early at a coin of the target's value. -/
inductive Scan where
  | found (coin : Coin)
  | rest (cand : CoinCandidates)

variable {κ : Type} (ks : WalletKeys κ)

/-- `GetDebit` of a wallet transaction. -/
def Coin.GetDebit (w : Wx κ) (coin : Coin) : Exec ℤ :=
  if coin.tx.vin = [] then .ok 0
  else
    match coin.nDebitCached with
    | some nDebit => .ok nDebit
    | none => w.GetDebit ks coin.tx.toCTransaction

def Coin.IsFromMe (w : Wx κ) (coin : Coin) : Exec Bool := do
  let nDebit ← coin.GetDebit ks w
  .ok (decide (0 < nDebit))

namespace Wx

def scanCoins (w : Wx κ) (nTargetValue : ℤ) (nSpendTime : ℕ) (nConfMine nConfTheirs : ℤ) :
    List COutput → CoinCandidates → Exec Scan
  | [], cand => .ok (.rest cand)
  | output :: vCoins, cand => do
    let fFromMe ← output.IsFromMe ks w
    if output.nDepth < (if fFromMe then nConfMine else nConfTheirs) then
      w.scanCoins nTargetValue nSpendTime nConfMine nConfTheirs vCoins cand
    else if nSpendTime < output.tx.nTime then
      w.scanCoins nTargetValue nSpendTime nConfMine nConfTheirs vCoins cand
    else if output.nValue = nTargetValue then .ok (.found output.toCoin)
    else
      w.scanCoins nTargetValue nSpendTime nConfMine nConfTheirs vCoins
        (cand.sift nTargetValue output.toCoin)

def SelectCoinsMinConf (w : Wx κ) (draws : Draws) (nTargetValue : ℤ) (nSpendTime : ℕ)
    (nConfMine nConfTheirs : ℤ) (vCoins : List COutput) : Exec (Bool × CoinSelection) := do
  let scan ← w.scanCoins ks nTargetValue nSpendTime nConfMine nConfTheirs
    (draws.random_shuffle vCoins) ⟨[], 0, none⟩
  match scan with
  | .found coin => .ok (true, CoinSelection.clear.take coin)
  | .rest cand => .ok (cand.choose draws nTargetValue)

/-- `vCoins` is what `AvailableCoins` finds; where coins were selected by hand, it is these, and all
of them are spent. -/
def SelectCoins (w : Wx κ) (draws : ℕ → Draws) (nTargetValue : ℤ) (nSpendTime : ℕ)
    (fHasSelected : Bool) (vCoins : List COutput) : Exec (Bool × CoinSelection) :=
  if fHasSelected then
    let sel := (vCoins.map COutput.toCoin).foldl CoinSelection.take .clear
    .ok (decide (nTargetValue ≤ sel.nValueRet), sel)
  else do
    let first ← w.SelectCoinsMinConf ks (draws 0) nTargetValue nSpendTime 1 10 vCoins
    if first.1 then .ok first
    else
      let second ← w.SelectCoinsMinConf ks (draws 1) nTargetValue nSpendTime 1 1 vCoins
      if second.1 then .ok second
      else w.SelectCoinsMinConf ks (draws 2) nTargetValue nSpendTime 0 1 vCoins

end Wx

end Dions
