import Dions.Model.Wallet

/-! # What the wallet does with the flags

The wallet as the transactions it holds and the coins flagged as spent, and what each function
does to the two. -/

namespace Dions

open Halting

variable {env : Env} {κ : Type} {ks : WalletKeys κ}
variable {hash : uint256} {wtx : WxTx}
variable {wtxIn : WxTx}

/-! ## Transactions and flags -/

namespace Wx

def txOf (w : Wx κ) (hash : uint256) : Option CTransaction :=
  (w.mapWallet hash).map WxTx.toCTransaction

def flag (w : Wx κ) (coin : COutPoint) : Bool :=
  match w.mapWallet coin.hash with
  | none => false
  | some wtx => decide (coin.n < wtx.vout.length) && wtx.vfSpent.getD coin.n false

/-- Whether the coin is an output of a transaction of the wallet that pays us. -/
def ours (ks : WalletKeys κ) (w : Wx κ) (coin : COutPoint) : Bool :=
  match w.txOf coin.hash with
  | none => false
  | some tx =>
    match tx.vout[coin.n]? with
    | none => false
    | some txout => w.IsMine ks txout

@[simp] theorem txOf_keys (w : Wx κ) (keys : κ) : txOf { w with keys := keys } = w.txOf := rfl

@[simp] theorem flag_keys (w : Wx κ) (keys : κ) : flag { w with keys := keys } = w.flag := rfl

@[simp] theorem put_keys (w : Wx κ) (hash : uint256) (wtx : WxTx) :
    (w.put hash wtx).keys = w.keys := rfl

theorem txOf_eq_some {w : Wx κ} (h : w.mapWallet hash = some wtx) :
    w.txOf hash = some wtx.toCTransaction := by
  rw [txOf, h, Option.map_some]

theorem txOf_put (w : Wx κ) (hash : uint256) (wtx : WxTx) :
    (w.put hash wtx).txOf = Function.update w.txOf hash (some wtx.toCTransaction) := by
  funext k
  by_cases hk : k = hash
  · subst hk
    simp [txOf, put]
  · simp [txOf, put, hk]

theorem txOf_put_same {w : Wx κ} {wtx' : WxTx} (h : w.mapWallet hash = some wtx)
    (hsame : wtx'.toCTransaction = wtx.toCTransaction) : (w.put hash wtx').txOf = w.txOf := by
  rw [txOf_put, hsame, ← txOf_eq_some h, Function.update_eq_self]

theorem flag_put (w : Wx κ) (hash : uint256) (wtx : WxTx) (coin : COutPoint) :
    (w.put hash wtx).flag coin =
      if coin.hash = hash then
        decide (coin.n < wtx.vout.length) && wtx.vfSpent.getD coin.n false
      else w.flag coin := by
  by_cases hk : coin.hash = hash
  · simp [flag, put, hk]
  · simp [flag, put, hk]

theorem ours_congr {w w' : Wx κ} (htx : w'.txOf = w.txOf) (hkeys : w'.keys = w.keys) :
    w'.ours ks = w.ours ks := by
  funext coin
  rw [ours, ours, htx]
  simp only [IsMine, hkeys]

theorem isSpent_of_flag {w : Wx κ} {coin : COutPoint} (hwtx : w.mapWallet coin.hash = some wtx)
    (hn : coin.n < wtx.vout.length) (h : w.flag coin = true) : wtx.IsSpent coin.n = .ok true := by
  rw [flag, hwtx] at h
  simp only [Bool.and_eq_true, decide_eq_true_eq] at h
  rw [WxTx.IsSpent, if_neg (by omega), h.2]

end Wx

/-! ## One flag -/

namespace WxTx

@[simp] theorem resized_length (wtx : WxTx) : wtx.resized.length = wtx.vout.length := by
  simp [resized]

theorem resized_getD (wtx : WxTx) {n : ℕ} (hn : n < wtx.vout.length) :
    wtx.resized.getD n false = wtx.vfSpent.getD n false := by
  simp only [resized, List.getD_eq_getElem?_getD, List.getElem?_take_of_lt hn]
  by_cases hv : n < wtx.vfSpent.length
  · rw [List.getElem?_append_left hv]
  · rw [List.getElem?_append_right (by omega), List.getElem?_eq_none (by omega : _ ≤ n),
      List.getElem?_replicate]
    split <;> rfl

theorem mark_ok {fSpent : Bool} {n : ℕ} (hn : n < wtx.vout.length) :
    mark fSpent wtx n = .ok { wtx with vfSpent := wtx.resized.set n fSpent } := by
  rw [mark, if_neg (by omega)]

theorem mergeSpent_getD {vfNewSpent vfSpent : List Bool} {n : ℕ}
    (h : vfSpent.getD n false = true) : (mergeSpent vfNewSpent vfSpent).getD n false = true := by
  induction vfNewSpent generalizing vfSpent n with
  | nil => exact h
  | cons fNew vfNewSpent ih =>
      cases vfSpent with
      | nil => exact h
      | cons f vfSpent =>
          cases n with
          | zero =>
              simp only [List.getD_cons_zero] at h
              simp [mergeSpent, h]
          | succ n =>
              simp only [List.getD_cons_succ] at h
              simpa [mergeSpent] using ih h

end WxTx

namespace Wx

theorem put_mark (fSpent : Bool) {w : Wx κ} {hash : uint256} {wtx : WxTx} {n : ℕ}
    (h : w.mapWallet hash = some wtx) (hn : n < wtx.vout.length) :
    (w.put hash { wtx with vfSpent := wtx.resized.set n fSpent }).txOf = w.txOf ∧
      ∀ coin, (w.put hash { wtx with vfSpent := wtx.resized.set n fSpent }).flag coin =
        if coin = ⟨hash, n⟩ then fSpent else w.flag coin := by
  refine ⟨txOf_put_same h rfl, ?_⟩
  intro coin
  obtain ⟨k, m⟩ := coin
  rw [flag_put]
  by_cases hk : k = hash
  · subst hk
    simp only [COutPoint.mk.injEq, true_and, ↓reduceIte]
    by_cases hm : m = n
    · subst hm
      simp [hn, List.getD_eq_getElem?_getD]
    · have hother : (wtx.resized.set n fSpent).getD m false = wtx.resized.getD m false := by
        simp only [List.getD_eq_getElem?_getD]
        rw [List.getElem?_set_ne (by omega)]
      rw [hother, if_neg hm, flag, h]
      by_cases hlt : m < wtx.vout.length
      · rw [WxTx.resized_getD wtx hlt]
      · simp [hlt]
  · simp [hk]

/-! ## Inputs -/

/-- What a call does that leaves the transactions and the keys as they are. -/
structure Reflags (w w' : Wx κ) (f : COutPoint → Bool) : Prop where
  txs : w'.txOf = w.txOf
  keys : w'.keys = w.keys
  flags : ∀ coin, w'.flag coin = f coin

theorem spendInput_ok (ks : WalletKeys κ) (w : Wx κ) (txin : CTxIn) :
    ∃ w', spendInput ks w txin = .ok w' ∧ Reflags w w' fun coin =>
      w.flag coin || (decide (coin = txin.prevout) && w.ours ks coin) := by
  have hkeep (hnot : w.ours ks txin.prevout = false) : Reflags w w fun coin =>
      w.flag coin || (decide (coin = txin.prevout) && w.ours ks coin) := by
    refine ⟨rfl, rfl, ?_⟩
    intro coin
    by_cases hcoin : coin = txin.prevout
    · simp [hcoin, hnot]
    · simp [hcoin]
  unfold spendInput
  cases hwtx : w.mapWallet txin.prevout.hash with
  | none =>
      refine ⟨w, rfl, hkeep ?_⟩
      simp [ours, txOf, hwtx]
  | some wtx =>
      cases hout : wtx.vout[txin.prevout.n]? with
      | none =>
          simp only [hout]
          refine ⟨w, rfl, hkeep ?_⟩
          simp [ours, txOf, hwtx, hout]
      | some txout =>
          have hn : txin.prevout.n < wtx.vout.length :=
            (List.getElem?_eq_some_iff.mp hout).1
          have hours : w.ours ks txin.prevout = w.IsMine ks txout := by
            simp [ours, txOf, hwtx, hout]
          have hspent : wtx.IsSpent txin.prevout.n = .ok (w.flag txin.prevout) := by
            rw [WxTx.IsSpent, if_neg (by omega), flag, hwtx]
            simp [hn]
          simp only [hout, hspent, Exec.within, bind, Except.bind]
          cases hmine : w.IsMine ks txout with
          | false =>
              simp only [Bool.and_false, Bool.false_eq_true, ↓reduceIte]
              exact ⟨w, rfl, hkeep (hours.trans hmine)⟩
          | true =>
              cases hflag : w.flag txin.prevout with
              | true =>
                  refine ⟨w, rfl, rfl, rfl, ?_⟩
                  intro coin
                  by_cases hcoin : coin = txin.prevout
                  · simp [hcoin, hflag]
                  · simp [hcoin]
              | false =>
                  obtain ⟨htxs, hflags⟩ := put_mark true hwtx hn
                  simp only [Bool.not_false, Bool.and_true, ↓reduceIte, WxTx.MarkSpent,
                    WxTx.mark_ok hn]
                  refine ⟨_, rfl, htxs, rfl, ?_⟩
                  intro coin
                  rw [hflags]
                  by_cases hcoin : coin = txin.prevout
                  · simp [hcoin, hours, hmine]
                  · simp [hcoin]

/-- Every output of ours that an input spends is flagged. -/
theorem spendInputs_ok (ks : WalletKeys κ) (vin : List CTxIn) (w : Wx κ) :
    ∃ w', spendInputs ks vin w = .ok w' ∧ Reflags w w' fun coin =>
      w.flag coin || (decide (coin ∈ vin.map CTxIn.prevout) && w.ours ks coin) := by
  induction vin generalizing w with
  | nil => exact ⟨w, rfl, rfl, rfl, fun coin => by simp⟩
  | cons txin vin ih =>
      obtain ⟨w₁, hone, hr₁⟩ := spendInput_ok ks w txin
      obtain ⟨w₂, hrest, hr₂⟩ := ih w₁
      refine ⟨w₂, ?_, hr₂.txs.trans hr₁.txs, hr₂.keys.trans hr₁.keys, ?_⟩
      · rw [spendInputs, List.foldlM_cons, hone]
        exact hrest
      · intro coin
        rw [hr₂.flags, hr₁.flags, ours_congr hr₁.txs hr₁.keys, List.map_cons]
        by_cases hcoin : coin = txin.prevout
        · simp only [hcoin, decide_true, Bool.true_and, List.mem_cons, true_or]
          grind
        · simp [hcoin]

/-! ## Outputs -/

theorem unspendOutput_ok (ks : WalletKeys κ) {w : Wx κ} {hash : uint256} {tx : CTransaction}
    {out : CTxOut × ℕ} (htx : w.txOf hash = some tx) (hout : tx.vout[out.2]? = some out.1) :
    ∃ w', unspendOutput ks hash w out = .ok w' ∧ Reflags w w' fun coin =>
      w.flag coin && !(decide (coin = ⟨hash, out.2⟩) && w.ours ks coin) := by
  have hours : w.ours ks ⟨hash, out.2⟩ = w.IsMine ks out.1 := by
    simp [ours, htx, hout]
  obtain ⟨wtx, hwtx, rfl⟩ := Option.map_eq_some_iff.mp htx
  have hn : out.2 < wtx.vout.length := (List.getElem?_eq_some_iff.mp hout).1
  unfold unspendOutput
  split
  next hmine =>
    obtain ⟨htxs, hflags⟩ := put_mark false hwtx hn
    simp only [hwtx, WxTx.MarkUnspent, WxTx.mark_ok hn, Exec.within, bind, Except.bind]
    refine ⟨_, rfl, htxs, rfl, ?_⟩
    intro coin
    rw [hflags]
    by_cases hcoin : coin = ⟨hash, out.2⟩
    · simp [hcoin, hours, hmine]
    · simp [hcoin]
  next hmine =>
    refine ⟨w, rfl, rfl, rfl, ?_⟩
    intro coin
    by_cases hcoin : coin = ⟨hash, out.2⟩
    · simp [hcoin, hours, hmine]
    · simp [hcoin]

/-- Every output of ours is no longer flagged. -/
theorem unspendOutputs_ok (ks : WalletKeys κ) {w : Wx κ} {hash : uint256} {tx : CTransaction}
    (htx : w.txOf hash = some tx) :
    ∃ w', unspendOutputs ks hash tx.vout w = .ok w' ∧ Reflags w w' fun coin =>
      w.flag coin && !(decide (coin.hash = hash) && w.ours ks coin) := by
  have hrun : ∀ (outs : List (CTxOut × ℕ)) (w : Wx κ), w.txOf hash = some tx →
      (∀ out ∈ outs, tx.vout[out.2]? = some out.1) →
      ∃ w', outs.foldlM (unspendOutput ks hash) w = .ok w' ∧ Reflags w w' fun coin =>
        w.flag coin &&
          !(decide (coin ∈ outs.map fun out => COutPoint.mk hash out.2) && w.ours ks coin) := by
    intro outs
    induction outs with
    | nil =>
        intro w _ _
        exact ⟨w, rfl, rfl, rfl, fun coin => by simp⟩
    | cons out outs ih =>
        intro w hw houts
        obtain ⟨hout, hrest⟩ := List.forall_mem_cons.mp houts
        obtain ⟨w₁, hone, hr₁⟩ := unspendOutput_ok ks hw hout
        obtain ⟨w₂, hlast, hr₂⟩ := ih w₁ (by rw [hr₁.txs, hw]) hrest
        refine ⟨w₂, ?_, hr₂.txs.trans hr₁.txs, hr₂.keys.trans hr₁.keys, ?_⟩
        · rw [List.foldlM_cons, hone]
          exact hlast
        · intro coin
          rw [hr₂.flags, hr₁.flags, ours_congr hr₁.txs hr₁.keys, List.map_cons]
          by_cases hcoin : coin = ⟨hash, out.2⟩
          · simp only [hcoin, decide_true, Bool.true_and, List.mem_cons, true_or]
            grind
          · simp only [hcoin, decide_false, Bool.false_and, Bool.not_false, Bool.and_true,
              List.mem_cons, false_or]
  have hindex : ∀ out ∈ tx.vout.zipIdx, tx.vout[out.2]? = some out.1 := by
    intro out hout
    exact List.mem_zipIdx_iff_getElem?.mp hout
  obtain ⟨w', hok, hr⟩ := hrun tx.vout.zipIdx w htx hindex
  refine ⟨w', hok, hr.txs, hr.keys, ?_⟩
  intro coin
  rw [hr.flags]
  by_cases hcoin : coin ∈ tx.vout.zipIdx.map fun out => COutPoint.mk hash out.2
  · obtain ⟨out, -, rfl⟩ := List.mem_map.mp hcoin
    simp [hcoin]
  · -- an output that is not listed is no output at all
    have hnone : coin.hash = hash → w.ours ks coin = false := by
      intro hhash
      rw [ours, hhash, htx]
      cases hget : tx.vout[coin.n]? with
      | none => simp only [hget]
      | some txout =>
          exfalso
          apply hcoin
          refine List.mem_map.mpr ⟨(txout, coin.n), List.mem_zipIdx_iff_getElem?.mpr hget, ?_⟩
          rw [← hhash]
    by_cases hhash : coin.hash = hash
    · simp [hnone hhash]
    · simp [hcoin, hhash]

/-- The flags after a transaction of the wallet has been looked through. -/
theorem walletUpdateSpent_ok (ks : WalletKeys κ) {w : Wx κ} {tx : CTransaction} (fBlock : Bool)
    (htx : w.txOf (tx.GetHash env) = some tx) :
    ∃ w', w.WalletUpdateSpent env ks tx fBlock = .ok w' ∧ Reflags w w' fun coin =>
      (w.flag coin || (decide (coin ∈ tx.vin.map CTxIn.prevout) && w.ours ks coin)) &&
        !(fBlock && (decide (coin.hash = tx.GetHash env) && w.ours ks coin)) := by
  obtain ⟨w₁, hin, hr₁⟩ := spendInputs_ok ks tx.vin w
  unfold WalletUpdateSpent
  simp only [hin, bind, Except.bind]
  cases fBlock with
  | false =>
      refine ⟨w₁, rfl, hr₁.txs, hr₁.keys, ?_⟩
      intro coin
      simp [hr₁.flags]
  | true =>
      obtain ⟨w₂, hout, hr₂⟩ := unspendOutputs_ok ks (w := w₁) (by rw [hr₁.txs]; exact htx)
      refine ⟨w₂, hout, hr₂.txs.trans hr₁.txs, hr₂.keys.trans hr₁.keys, ?_⟩
      intro coin
      rw [hr₂.flags, hr₁.flags, ours_congr hr₁.txs hr₁.keys]
      simp

/-! ## Entering -/

theorem entered_tx {w : Wx κ} (h : w.mapWallet hash = some wtx) :
    (w.entered hash wtxIn).2.toCTransaction = wtx.toCTransaction := by
  rw [entered, h]
  rfl

/-- The flags of an entry that is already there only grow. -/
theorem entered_flag {w : Wx κ} {coin : COutPoint} (h : w.mapWallet hash = some wtx)
    (hflag : w.flag coin = true) : (w.put hash (w.entered hash wtxIn).2).flag coin = true := by
  rw [flag_put]
  split
  next hhash =>
    rw [flag, hhash, h] at hflag
    simp only [Bool.and_eq_true, decide_eq_true_eq] at hflag ⊢
    refine ⟨?_, ?_⟩
    · rw [entered_tx h]
      exact hflag.1
    · rw [entered, h]
      exact WxTx.mergeSpent_getD hflag.2
  next => exact hflag

end Wx

end Dions
