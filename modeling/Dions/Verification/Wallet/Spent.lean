import Mathlib.Data.Set.Insert
import Dions.Verification.Wallet.Flags

/-! # Coins that have been spent

The wallet hears of transactions in blocks, in the memory pool and from itself. As long as none of
them comes after a spender of its outputs, a coin that a transaction of the wallet spends is flagged,
and not offered again. -/

namespace Dions

open Halting

variable {env : Env} {κ : Type} {ks : WalletKeys κ}
variable {wtxIn : WxTx} {coin : COutPoint}

/-! ## The property -/

/-- The wallet beside the transactions in the memory pool and in the active chain. -/
structure WalletNode (κ : Type) extends Wx κ where
  pool : Set uint256
  chain : Set uint256

def WalletNode.live (s : WalletNode κ) : Set uint256 := s.pool ∪ s.chain

/-- The coin is an input of a transaction of the wallet with its hash among `live`. -/
def Wx.Spends (w : Wx κ) (live : Set uint256) (coin : COutPoint) : Prop :=
  ∃ hash ∈ live, ∃ tx, w.txOf hash = some tx ∧ coin ∈ tx.vin.map CTxIn.prevout

def Wx.Holds (w : Wx κ) (coin : COutPoint) : Prop :=
  ∃ tx, w.txOf coin.hash = some tx ∧ coin.n < tx.vout.length

structure SpentOk (env : Env) (w : Wx κ) (live : Set uint256) : Prop where
  keyed : ∀ hash tx, w.txOf hash = some tx → tx.GetHash env = hash
  flagged : ∀ coin, w.Spends live coin → w.Holds coin → w.flag coin = true

/-! ## The condition on a call -/

namespace Wx

/-- The wallet with the entry in its place, when the flags are about to be looked through. -/
def entering (env : Env) (ks : WalletKeys κ) (w : Wx κ) (wtxIn : WxTx) : Wx κ :=
  let wtx := (w.entered (wtxIn.GetHash env) wtxIn).2
  { w.put (wtxIn.GetHash env) wtx with keys := ks.replaceDefaultKey w.keys wtx.vout }

/-- The transaction does not come after one that spends an output of it, neither as a new one nor,
for an output of ours, with its block. -/
structure InOrder (env : Env) (ks : WalletKeys κ) (w : Wx κ) (live : Set uint256)
    (wtxIn : WxTx) : Prop where
  known : ∀ coin, (w.entering env ks wtxIn).Spends live coin →
    coin.hash = wtxIn.GetHash env → (w.entering env ks wtxIn).Holds coin →
      (w.mapWallet (wtxIn.GetHash env)).isSome = true
  unconfirmed : ∀ coin, (w.entering env ks wtxIn).Spends live coin →
    coin.hash = wtxIn.GetHash env → (w.entering env ks wtxIn).ours ks coin = true →
      wtxIn.hashBlock = 0

/-- When `AddToWallet` keeps the flags of spent coins: beside the order, what a transaction of the
memory pool or of the chain spends is ours, or flagged, and its entry can be written. -/
structure Admits (env : Env) (ks : WalletKeys κ) (io : WalletIo) (w : Wx κ) (live : Set uint256)
    (wtxIn : WxTx) : Prop extends InOrder env ks w live wtxIn where
  owned : wtxIn.GetHash env ∈ live →
    ∀ coin ∈ (w.entered (wtxIn.GetHash env) wtxIn).2.vin.map CTxIn.prevout,
      (w.entering env ks wtxIn).Holds coin →
        (w.entering env ks wtxIn).ours ks coin = true ∨ w.flag coin = true
  written : wtxIn.GetHash env ∈ live → (w.entered (wtxIn.GetHash env) wtxIn).1 = true →
    io.writeFails (w.entered (wtxIn.GetHash env) wtxIn).2 = false

/-- The wallet in which a transaction that the wallet hears of is added, if it is. -/
def adding (env : Env) (ks : WalletKeys κ) (w : Wx κ) (tx : CTransaction) (fUpdate : Bool) :
    Option (Wx κ) :=
  if (w.mapWallet (tx.GetHash env)).isSome then if fUpdate then some w else none
  else
    let (fMine, w) := w.IsMineTx ks tx
    if fMine then some w
    else
      match w.GetDebit ks tx with
      | .error _ => none
      | .ok nDebit => if 0 < nDebit ∨ ks.collx w.mapWallet tx = true then some w else none

def heard (env : Env) (tx : CTransaction) (pblock : Option CBlock) : WxTx :=
  match pblock with
  | none => WxTx.ofTx tx
  | some pblock => (WxTx.ofTx tx).SetMerkleBranch env pblock

end Wx

/-- The condition on a transaction that the wallet hears of. -/
def Hears (env : Env) (ks : WalletKeys κ) (io : WalletIo) (w : Wx κ) (live : Set uint256)
    (tx : CTransaction) (pblock : Option CBlock) (fUpdate : Bool) : Prop :=
  ∀ w', w.adding env ks tx fUpdate = some w' →
    w'.Admits env ks io live (Wx.heard env tx pblock)

/-! ## Entering -/

theorem Wx.setMerkleBranch_tx (wtx : WxTx) (pblock : CBlock) :
    (wtx.SetMerkleBranch env pblock).toCTransaction = wtx.toCTransaction := by
  unfold WxTx.SetMerkleBranch
  simp only
  split <;> rfl

theorem Wx.heard_tx (tx : CTransaction) (pblock : Option CBlock) :
    (Wx.heard env tx pblock).toCTransaction = tx := by
  cases pblock with
  | none => rfl
  | some pblock => exact Wx.setMerkleBranch_tx (WxTx.ofTx tx) pblock

theorem Wx.entering_tx (w : Wx κ) (wtxIn : WxTx) :
    (w.entering env ks wtxIn).txOf (wtxIn.GetHash env) =
      some (w.entered (wtxIn.GetHash env) wtxIn).2.toCTransaction := by
  simp only [Wx.entering, Wx.txOf_keys, Wx.txOf_put, Function.update_self]

theorem Wx.entering_other (w : Wx κ) (wtxIn : WxTx) {hash : uint256}
    (h : hash ≠ wtxIn.GetHash env) :
    (w.entering env ks wtxIn).txOf hash = w.txOf hash := by
  simp only [Wx.entering, Wx.txOf_keys, Wx.txOf_put, Function.update_of_ne h]

theorem Wx.entering_flag (env : Env) (ks : WalletKeys κ) {w : Wx κ} {wtxIn : WxTx} {coin : COutPoint}
    (h : coin.hash = wtxIn.GetHash env → (w.mapWallet (wtxIn.GetHash env)).isSome = true)
    (hflag : w.flag coin = true) : (w.entering env ks wtxIn).flag coin = true := by
  simp only [Wx.entering, Wx.flag_keys]
  by_cases hhash : coin.hash = wtxIn.GetHash env
  · obtain ⟨wtx, hwtx⟩ := Option.isSome_iff_exists.mp (h hhash)
    exact Wx.entered_flag hwtx hflag
  · rw [Wx.flag_put, if_neg hhash]
    exact hflag

/-- The entry is named by its hash, whether it is new or not. -/
theorem Wx.entered_hash {w : Wx κ} {live : Set uint256} (h : SpentOk env w live) (wtxIn : WxTx) :
    (w.entered (wtxIn.GetHash env) wtxIn).2.GetHash env = wtxIn.GetHash env := by
  cases hwtx : w.mapWallet (wtxIn.GetHash env) with
  | none => simp only [Wx.entered, hwtx]
  | some wtx =>
      rw [Wx.entered_tx hwtx]
      exact h.keyed _ _ (Wx.txOf_eq_some hwtx)

/-- A spender beside the transaction has been there before. -/
theorem Wx.entering_spends {w : Wx κ} {live : Set uint256}
    (h : (w.entering env ks wtxIn).Spends live coin) :
    (wtxIn.GetHash env ∈ live ∧
        coin ∈ (w.entered (wtxIn.GetHash env) wtxIn).2.vin.map CTxIn.prevout) ∨
      w.Spends (live \ {wtxIn.GetHash env}) coin := by
  obtain ⟨hash, hlive, tx, htx, hcoin⟩ := h
  by_cases hhash : hash = wtxIn.GetHash env
  · subst hhash
    rw [Wx.entering_tx, Option.some.injEq] at htx
    subst htx
    exact .inl ⟨hlive, hcoin⟩
  · rw [Wx.entering_other w wtxIn hhash] at htx
    exact .inr ⟨hash, ⟨hlive, hhash⟩, tx, htx, hcoin⟩

variable {w : Wx κ} {live live₁ : Set uint256}

/-- What held of a coin still holds when the entry is in its place. -/
theorem entering_flagged (h : SpentOk env w live) (hlive : live₁ ⊆ insert (wtxIn.GetHash env) live)
    (hknown : coin.hash = wtxIn.GetHash env →
      (w.mapWallet (wtxIn.GetHash env)).isSome = true)
    (hspends : w.Spends (live₁ \ {wtxIn.GetHash env}) coin)
    (hholds : (w.entering env ks wtxIn).Holds coin) :
    (w.entering env ks wtxIn).flag coin = true := by
  apply Wx.entering_flag env ks hknown
  apply h.flagged
  · obtain ⟨hash, hin, tx, htx, hcoin⟩ := hspends
    rcases hlive hin.1 with rfl | hold
    · exact absurd rfl hin.2
    · exact ⟨hash, hold, tx, htx, hcoin⟩
  · obtain ⟨tx, htx, hn⟩ := hholds
    by_cases hhash : coin.hash = wtxIn.GetHash env
    · obtain ⟨wtx, hwtx⟩ := Option.isSome_iff_exists.mp (hknown hhash)
      rw [hhash, Wx.entering_tx, Option.some.injEq, Wx.entered_tx hwtx] at htx
      refine ⟨tx, ?_, hn⟩
      rw [hhash, Wx.txOf_eq_some hwtx, htx]
    · rw [Wx.entering_other w wtxIn hhash] at htx
      exact ⟨tx, htx, hn⟩

theorem entering_keyed (ks : WalletKeys κ) (h : SpentOk env w live) (wtxIn : WxTx) (hash : uint256)
    (tx : CTransaction) (htx : (w.entering env ks wtxIn).txOf hash = some tx) :
    tx.GetHash env = hash := by
  by_cases hhash : hash = wtxIn.GetHash env
  · subst hhash
    rw [Wx.entering_tx, Option.some.injEq] at htx
    rw [← htx]
    exact Wx.entered_hash h wtxIn
  · rw [Wx.entering_other w wtxIn hhash] at htx
    exact h.keyed hash tx htx

/-- The flags that `AddToWallet` leaves, when the entry can be written. -/
def Wx.addedFlag (env : Env) (ks : WalletKeys κ) (w : Wx κ) (wtxIn : WxTx) (coin : COutPoint) :
    Bool :=
  ((w.entering env ks wtxIn).flag coin ||
    (decide (coin ∈ (w.entered (wtxIn.GetHash env) wtxIn).2.vin.map CTxIn.prevout) &&
      (w.entering env ks wtxIn).ours ks coin)) &&
    !(wtxIn.hashBlock != 0 && (decide (coin.hash = wtxIn.GetHash env) &&
      (w.entering env ks wtxIn).ours ks coin))

/-- `AddToWallet` stops at the entry, or goes on to the flags. -/
theorem addToWallet_cases (ks : WalletKeys κ) (io : WalletIo) (h : SpentOk env w live) (wtxIn : WxTx) :
    ((w.entered (wtxIn.GetHash env) wtxIn).1 = true ∧
        io.writeFails (w.entered (wtxIn.GetHash env) wtxIn).2 = true ∧
        w.AddToWallet env ks io wtxIn = .error (.reject,
          w.put (wtxIn.GetHash env) (w.entered (wtxIn.GetHash env) wtxIn).2)) ∨
      ∃ w', w.AddToWallet env ks io wtxIn = .ok w' ∧
        (w.entering env ks wtxIn).Reflags w' (w.addedFlag env ks wtxIn) := by
  have hhash := Wx.entered_hash h wtxIn
  have htx : (w.entering env ks wtxIn).txOf
      ((w.entered (wtxIn.GetHash env) wtxIn).2.GetHash env) =
        some (w.entered (wtxIn.GetHash env) wtxIn).2.toCTransaction := by
    rw [hhash]
    exact Wx.entering_tx w wtxIn
  unfold Wx.AddToWallet
  simp only
  split
  next hwrite =>
    rw [Bool.and_eq_true] at hwrite
    exact .inl ⟨hwrite.1, hwrite.2, rfl⟩
  next =>
    obtain ⟨w', hok, hr⟩ := Wx.walletUpdateSpent_ok ks (wtxIn.hashBlock != 0) htx
    rw [hhash] at hr
    exact .inr ⟨w', hok, hr⟩

/-- No flag of a coin is lost that a transaction of the wallet spends. -/
theorem addedFlag_of_flag (hord : w.InOrder env ks live₁ wtxIn)
    (hspends : (w.entering env ks wtxIn).Spends live₁ coin)
    (h : ((w.entering env ks wtxIn).flag coin ||
      (decide (coin ∈ (w.entered (wtxIn.GetHash env) wtxIn).2.vin.map CTxIn.prevout) &&
        (w.entering env ks wtxIn).ours ks coin)) = true) :
    w.addedFlag env ks wtxIn coin = true := by
  have hkept : (wtxIn.hashBlock != 0 && (decide (coin.hash = wtxIn.GetHash env) &&
      (w.entering env ks wtxIn).ours ks coin)) = false := by
    by_contra hlost
    simp only [Bool.not_eq_false, Bool.and_eq_true, bne_iff_ne, decide_eq_true_eq] at hlost
    exact hlost.1 (hord.unconfirmed coin hspends hlost.2.1 hlost.2.2)
  rw [Wx.addedFlag, h, hkept]
  rfl

theorem Wx.Spends.mono (h : w.Spends live coin) (hsub : live ⊆ live₁) : w.Spends live₁ coin := by
  obtain ⟨hash, hin, hrest⟩ := h
  exact ⟨hash, hsub hin, hrest⟩

/-- In order, nothing is lost of what the other transactions spend. -/
theorem addToWallet_others (io : WalletIo) {wtxIn : WxTx} (h : SpentOk env w live)
    (hlive : live₁ ⊆ insert (wtxIn.GetHash env) live)
    (hord : w.InOrder env ks live₁ wtxIn) :
    SpentOk env (w.AddToWallet env ks io wtxIn).final (live₁ \ {wtxIn.GetHash env}) ∧
      (w.AddToWallet env ks io wtxIn).final.txOf = (w.entering env ks wtxIn).txOf := by
  have hkept : ∀ coin, (w.entering env ks wtxIn).Spends (live₁ \ {wtxIn.GetHash env}) coin →
      (w.entering env ks wtxIn).Holds coin → (w.entering env ks wtxIn).flag coin = true := by
    intro coin hspends hholds
    rcases Wx.entering_spends hspends with ⟨hin, -⟩ | hother
    · exact absurd rfl hin.2
    · refine entering_flagged h hlive ?_ (hother.mono Set.sdiff_subset) hholds
      exact fun hhash => hord.known coin (hspends.mono Set.sdiff_subset) hhash hholds
  rcases addToWallet_cases ks io h wtxIn with ⟨-, -, hstop⟩ | ⟨w', hok, hr⟩
  · rw [hstop, Halt.final_error]
    exact ⟨⟨entering_keyed ks h wtxIn, hkept⟩, rfl⟩
  · rw [hok, Halt.final_ok]
    refine ⟨⟨?_, ?_⟩, hr.txs⟩
    · rw [hr.txs]
      exact entering_keyed ks h wtxIn
    · intro coin hspends hholds
      have hspends : (w.entering env ks wtxIn).Spends (live₁ \ {wtxIn.GetHash env}) coin := by
        rw [Wx.Spends, ← hr.txs]
        exact hspends
      have hholds : (w.entering env ks wtxIn).Holds coin := by
        rw [Wx.Holds, ← hr.txs]
        exact hholds
      rw [hr.flags]
      apply addedFlag_of_flag hord (hspends.mono Set.sdiff_subset)
      rw [hkept coin hspends hholds, Bool.true_or]

theorem addToWallet_safe {io : WalletIo} (h : SpentOk env w live)
    (hlive : live₁ ⊆ insert (wtxIn.GetHash env) live) (hadm : w.Admits env ks io live₁ wtxIn) :
    SpentOk env (w.AddToWallet env ks io wtxIn).final live₁ := by
  obtain ⟨hothers, htxs⟩ := addToWallet_others io h hlive hadm.toInOrder
  refine ⟨hothers.keyed, ?_⟩
  intro coin hspends hholds
  obtain ⟨hash, hin, tx, htx, hcoin⟩ := hspends
  by_cases hhash : hash = wtxIn.GetHash env
  · subst hhash
    rw [htxs] at htx
    have hspends : (w.entering env ks wtxIn).Spends live₁ coin := ⟨_, hin, tx, htx, hcoin⟩
    have hholds : (w.entering env ks wtxIn).Holds coin := by
      rw [Wx.Holds, ← htxs]
      exact hholds
    rw [Wx.entering_tx, Option.some.injEq] at htx
    subst htx
    rcases addToWallet_cases ks io h wtxIn with ⟨hwrite, hfails, -⟩ | ⟨w', hok, hr⟩
    · rw [hadm.written hin hwrite] at hfails
      cases hfails
    · rw [hok, Halt.final_ok, hr.flags]
      apply addedFlag_of_flag hadm.toInOrder hspends
      rcases hadm.owned hin coin hcoin hholds with hours | hflag
      · simp [hcoin, hours]
      · have hentry := Wx.entering_flag env ks
          (fun hhash => hadm.known coin hspends hhash hholds) hflag
        rw [hentry, Bool.true_or]
  · exact hothers.flagged coin ⟨hash, ⟨hin, hhash⟩, tx, htx, hcoin⟩ hholds

theorem SpentOk.mono (h : SpentOk env w live) (hsub : live₁ ⊆ live) : SpentOk env w live₁ :=
  ⟨h.keyed, fun coin hspends hholds => h.flagged coin (hspends.mono hsub) hholds⟩

/-! ## Hearing of a transaction -/

theorem isMineTx_tx (w : Wx κ) (tx : CTransaction) :
    (w.IsMineTx ks tx).2.mapWallet = w.mapWallet := rfl

theorem SpentOk.congr {w₁ : Wx κ} (h : SpentOk env w live) (hmap : w₁.mapWallet = w.mapWallet) :
    SpentOk env w₁ live := by
  have htx : w₁.txOf = w.txOf := by
    funext hash
    simp only [Wx.txOf, hmap]
  refine ⟨?_, ?_⟩
  · rw [htx]
    exact h.keyed
  · intro coin hspends hholds
    rw [Wx.Spends, htx] at hspends
    rw [Wx.Holds, htx] at hholds
    have hflag := h.flagged coin hspends hholds
    rwa [Wx.flag, hmap]

/-- A transaction that is not in the wallet spends nothing there. -/
theorem SpentOk.insert {hash : uint256} (h : SpentOk env w live) (hnone : w.mapWallet hash = none)
    (hlive : live₁ ⊆ insert hash live) : SpentOk env w live₁ := by
  refine ⟨h.keyed, ?_⟩
  intro coin hspends hholds
  obtain ⟨k, hin, tx, htx, hcoin⟩ := hspends
  refine h.flagged coin ⟨k, ?_, tx, htx, hcoin⟩ hholds
  rcases hlive hin with rfl | hold
  · rw [Wx.txOf, hnone] at htx
    cases htx
  · exact hold

theorem walletUpdateSpent_safe (ks : WalletKeys κ) (tx : CTransaction) (h : SpentOk env w live) :
    ∃ w₁, w.WalletUpdateSpent env ks tx false = .ok w₁ ∧ SpentOk env w₁ live := by
  obtain ⟨w₁, hok, hr⟩ := Wx.spendInputs_ok ks tx.vin w
  refine ⟨w₁, ?_, ?_, ?_⟩
  · unfold Wx.WalletUpdateSpent
    simp only [hok, bind, Except.bind]
    rfl
  · rw [hr.txs]
    exact h.keyed
  · intro coin hspends hholds
    rw [Wx.Spends, hr.txs] at hspends
    rw [Wx.Holds, hr.txs] at hholds
    rw [hr.flags, h.flagged coin hspends hholds, Bool.true_or]

/-- A transaction that the wallet hears of is in the memory pool or the chain from then on, unless
the wallet knows it and is not to update it. -/
theorem addToWalletIfInvolvingMe_safe {io : WalletIo} {tx : CTransaction}
    {pblock : Option CBlock} {fUpdate : Bool} (h : SpentOk env w live)
    (hlive : live₁ ⊆ Insert.insert (tx.GetHash env) live)
    (hold : fUpdate = false → live₁ ⊆ live)
    (hhears : Hears env ks io w live₁ tx pblock fUpdate) :
    SpentOk env (w.AddToWalletIfInvolvingMe env ks io tx pblock fUpdate).final live₁ := by
  have hhash : (Wx.heard env tx pblock).GetHash env = tx.GetHash env := by
    rw [Wx.heard_tx]
  have hadd : ∀ w₁ : Wx κ, w.adding env ks tx fUpdate = some w₁ → w₁.mapWallet = w.mapWallet →
      SpentOk env (w₁.AddToWallet env ks io (Wx.heard env tx pblock)).final live₁ := by
    intro w₁ hw₁ hmap
    refine addToWallet_safe (h.congr hmap) ?_ (hhears w₁ hw₁)
    rw [hhash]
    exact hlive
  unfold Wx.AddToWalletIfInvolvingMe
  simp only
  unfold Wx.adding at hadd
  change SpentOk env (Halt.final (if (w.mapWallet (tx.GetHash env)).isSome = true then
    if fUpdate = true then w.AddToWallet env ks io (Wx.heard env tx pblock)
    else .error (.reject, w) else _)) live₁
  cases hentry : w.mapWallet (tx.GetHash env) with
  | some wtx =>
      simp only [hentry, Option.isSome_some, ↓reduceIte] at hadd ⊢
      cases fUpdate with
      | true => exact hadd w rfl rfl
      | false => exact h.mono (hold rfl)
  | none =>
      have hnew : SpentOk env (w.IsMineTx ks tx).2 live₁ :=
        (h.insert hentry hlive).congr (isMineTx_tx w tx)
      simp only [hentry, Option.isSome_none, Bool.false_eq_true, ↓reduceIte] at hadd ⊢
      cases hmine : (w.IsMineTx ks tx).1 with
      | true =>
          simp only [hmine, ↓reduceIte] at hadd ⊢
          exact hadd _ rfl (isMineTx_tx w tx)
      | false =>
          simp only [hmine, Bool.false_eq_true, ↓reduceIte] at hadd ⊢
          cases hdebit : (w.IsMineTx ks tx).2.GetDebit ks tx with
          | error e => exact hnew
          | ok nDebit =>
              simp only [hdebit] at hadd
              simp only [Exec.within, bind, Except.bind]
              split
              next hfrom =>
                rw [if_pos hfrom] at hadd
                exact hadd _ rfl (isMineTx_tx w tx)
              next =>
                obtain ⟨w₁, hok, hsafe⟩ := walletUpdateSpent_safe ks tx hnew
                rw [hok]
                exact hsafe

/-! ## Sending -/

theorem markCoin_ok {io : WalletIo} {w₁ : Wx κ} {txin : CTxIn}
    (h : Wx.markCoin io w txin = .ok w₁) :
    w.Reflags w₁ fun coin => w.flag coin || decide (coin = txin.prevout) := by
  unfold Wx.markCoin at h
  simp only [bind, Except.bind, WxTx.MarkSpent] at h
  cases hwtx : w.mapWallet txin.prevout.hash with
  | none =>
      -- the new entry has no outputs
      simp [hwtx, WxTx.mark, WxTx.ofTx, CTransaction.null, Exec.within] at h
  | some wtx =>
      have hput : w.put txin.prevout.hash wtx = w := by
        simp only [Wx.put, ← hwtx, Function.update_eq_self]
      simp only [hwtx, Option.getD_some, hput] at h
      by_cases hn : txin.prevout.n < wtx.vout.length
      · obtain ⟨htxs, hflags⟩ := Wx.put_mark true hwtx hn
        rw [WxTx.mark_ok hn] at h
        cases h
        refine ⟨htxs, rfl, ?_⟩
        intro coin
        rw [hflags]
        by_cases hcoin : coin = txin.prevout <;> simp [hcoin]
      · rw [WxTx.mark, if_pos (by omega)] at h
        cases h

/-- A transaction that is sent flags everything it spends. -/
theorem markCoins_ok {io : WalletIo} {w₁ : Wx κ} {vin : List CTxIn}
    (h : Wx.markCoins io vin w = .ok w₁) :
    w.Reflags w₁ fun coin => w.flag coin || decide (coin ∈ vin.map CTxIn.prevout) := by
  induction vin generalizing w with
  | nil =>
      cases h
      exact ⟨rfl, rfl, fun coin => by simp⟩
  | cons txin vin ih =>
      rw [Wx.markCoins, List.foldlM_cons, seq_ok] at h
      obtain ⟨w₂, hone, hrest⟩ := h
      have hr₂ := markCoin_ok hone
      have hr₁ := ih hrest
      refine ⟨hr₁.txs.trans hr₂.txs, hr₁.keys.trans hr₂.keys, ?_⟩
      intro coin
      rw [hr₁.flags, hr₂.flags, List.map_cons]
      by_cases hcoin : coin = txin.prevout <;> simp [hcoin]

/-- The condition on a transaction that is sent: it comes in order, and an entry with its hash is an
entry of it. -/
structure Sends (env : Env) (ks : WalletKeys κ) (w : Wx κ) (live : Set uint256) (wtxNew : WxTx) :
    Prop where
  order : Wx.InOrder env ks { w with keys := (ks.xfa w.keys wtxNew.vout).2 } live wtxNew
  same : ∀ wtx, w.mapWallet (wtxNew.GetHash env) = some wtx → wtx.vin = wtxNew.vin

theorem commitTransaction_safe {io : WalletIo} {wtxNew : WxTx} {w₁ : Wx κ}
    (h : SpentOk env w live) (hlive : live₁ ⊆ Insert.insert (wtxNew.GetHash env) live)
    (hsends : Sends env ks w live₁ wtxNew)
    (hok : w.CommitTransaction env ks io wtxNew = .ok w₁) : SpentOk env w₁ live₁ := by
  unfold Wx.CommitTransaction at hok
  simp only at hok
  have hkeys : SpentOk env { w with keys := (ks.xfa w.keys wtxNew.vout).2 } live := h.congr rfl
  obtain ⟨hothers, htxs⟩ := addToWallet_others io hkeys hlive hsends.order
  rw [seq_ok] at hok
  obtain ⟨w₂, hadd, hok⟩ := hok
  rw [seq_ok] at hok
  obtain ⟨w₃, hmark, hok⟩ := hok
  have hlast : w₃ = w₁ := by
    split at hok
    · exact Except.ok.inj hok
    · cases hok
  subst hlast
  have hfinal : (Wx.AddToWallet env ks io wtxNew
      { w with keys := (ks.xfa w.keys wtxNew.vout).2 }).final = w₂ := by
    rw [← Halt.final_attempt, hadd, Halt.final_ok]
  rw [hfinal] at hothers htxs
  have hr := markCoins_ok hmark
  have hvin : ((Wx.entered { w with keys := (ks.xfa w.keys wtxNew.vout).2 }
      (wtxNew.GetHash env) wtxNew).2).vin = wtxNew.vin := by
    cases hwtx : w.mapWallet (wtxNew.GetHash env) with
    | none => simp only [Wx.entered, hwtx]
    | some wtx =>
        have hsame := hsends.same wtx hwtx
        rw [← hsame]
        exact congrArg CTransaction.vin (Wx.entered_tx hwtx)
  refine ⟨?_, ?_⟩
  · rw [hr.txs]
    exact hothers.keyed
  · intro coin hspends hholds
    rw [Wx.Spends, hr.txs] at hspends
    rw [Wx.Holds, hr.txs] at hholds
    rw [hr.flags, Bool.or_eq_true]
    obtain ⟨hash, hin, tx, htx, hcoin⟩ := hspends
    by_cases hhash : hash = wtxNew.GetHash env
    · right
      subst hhash
      rw [htxs, Wx.entering_tx, Option.some.injEq] at htx
      subst htx
      rw [hvin] at hcoin
      exact decide_eq_true hcoin
    · left
      exact hothers.flagged coin ⟨hash, ⟨hin, hhash⟩, tx, htx, hcoin⟩ hholds

end Dions
