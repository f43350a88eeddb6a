import Dions.Verification.Wallet.SpentRuns

/-! # Commits that are refused

A transaction is recorded, and its inputs are flagged, before the memory pool is asked for it, and
nothing takes this back. The flags of an entry only grow on the way, so the wallet is as before
exactly when there was nothing to record. -/

namespace Dions

open Halting

variable {env : Env} {κ : Type} {ks : WalletKeys κ} {w w₁ w₂ w' : Wx κ}
variable {wtx wtxIn wtxNew : WxTx} {usable : WxTx → Bool} {selected : COutPoint → Bool}

/-! ## Entries that gain flags -/

namespace WxTx

variable {a b c wtx wtx' : WxTx}

/-- The second entry has the flags of the first and perhaps more; its vector of flags is as long as
before, or as the outputs are. -/
structure Gains (a b : WxTx) : Prop where
  rest : b = { a with vfSpent := b.vfSpent }
  kept : ∀ n < a.vout.length, a.vfSpent.getD n false = true → b.vfSpent.getD n false = true
  length : b.vfSpent.length = a.vout.length ∨ b.vfSpent.length = a.vfSpent.length ∧
    ∀ n, a.vfSpent.getD n false = true → b.vfSpent.getD n false = true

theorem Gains.vout (h : a.Gains b) : b.vout = a.vout := by
  rw [h.rest]

theorem Gains.rest_before (h : a.Gains b) : a = { b with vfSpent := a.vfSpent } := by
  rw [h.rest]

theorem Gains.refl (a : WxTx) : a.Gains a := ⟨rfl, fun _ _ h => h, .inr ⟨rfl, fun _ h => h⟩⟩

theorem Gains.trans (h : a.Gains b) (h' : b.Gains c) : a.Gains c where
  rest := by
    rw [h'.rest, h.rest]
  kept n hn hflag := h'.kept n (h.vout ▸ hn) (h.kept n hn hflag)
  length := by
    rcases h'.length with hlong | ⟨hsame, hkept⟩
    · exact .inl (hlong.trans (congrArg List.length h.vout))
    · rcases h.length with hlong | ⟨hsame', hkept'⟩
      · exact .inl (hsame.trans hlong)
      · exact .inr ⟨hsame.trans hsame', fun n hflag => hkept n (hkept' n hflag)⟩

theorem flags_ext {v v' : List Bool} (hlength : v.length = v'.length)
    (h : ∀ n < v.length, v.getD n false = true ↔ v'.getD n false = true) : v = v' := by
  apply List.ext_getElem hlength
  intro n hn hn'
  have hflag := h n hn
  rw [List.getD_eq_getElem?_getD, List.getD_eq_getElem?_getD, List.getElem?_eq_getElem hn,
    List.getElem?_eq_getElem hn'] at hflag
  exact Bool.eq_iff_iff.mpr hflag

theorem Gains.antisymm (h : a.Gains b) (h' : b.Gains a) : b = a := by
  have hvout := congrArg List.length h.vout
  have hflags : b.vfSpent = a.vfSpent := by
    rcases h.length with hlong | ⟨hsame, hkept⟩
    · have hlength : b.vfSpent.length = a.vfSpent.length := by
        rcases h'.length with hlong' | ⟨hsame', -⟩
        · omega
        · exact hsame'.symm
      refine flags_ext hlength fun n hn => ⟨h'.kept n (by omega), h.kept n (by omega)⟩
    · rcases h'.length with hlong' | ⟨-, hkept'⟩
      · exact flags_ext hsame fun n hn => ⟨h'.kept n (by omega), hkept n⟩
      · exact flags_ext hsame fun n _ => ⟨hkept' n, hkept n⟩
  rw [h.rest, hflags]

theorem gains_mark {n : ℕ} (h : wtx.MarkSpent n = .ok wtx') : wtx.Gains wtx' := by
  rw [MarkSpent, mark] at h
  split at h
  next => cases h
  next hn =>
    cases h
    refine ⟨rfl, ?_, .inl (by simp)⟩
    intro m hm hflag
    dsimp only
    by_cases hmn : n = m
    · subst hmn
      rw [List.getD_eq_getElem?_getD, List.getElem?_set_self (by simpa using hm)]
      rfl
    · rw [List.getD_eq_getElem?_getD, List.getElem?_set_ne hmn, ← List.getD_eq_getElem?_getD,
        resized_getD wtx hm]
      exact hflag

theorem mergeSpent_length (vfNewSpent vfSpent : List Bool) :
    (mergeSpent vfNewSpent vfSpent).length = vfSpent.length := by
  induction vfNewSpent generalizing vfSpent with
  | nil => rfl
  | cons fNew vfNewSpent ih =>
    cases vfSpent with
    | nil => rfl
    | cons f vfSpent => rw [mergeSpent, List.length_cons, List.length_cons, ih]

end WxTx

/-! ## Wallets that gain flags and entries -/

namespace Wx

def Gains (w w' : Wx κ) : Prop :=
  ∀ hash wtx, w.mapWallet hash = some wtx → ∃ wtx', w'.mapWallet hash = some wtx' ∧ wtx.Gains wtx'

theorem Gains.refl (w : Wx κ) : w.Gains w := fun _ wtx h => ⟨wtx, h, WxTx.Gains.refl wtx⟩

theorem Gains.trans (h : w.Gains w₁) (h' : w₁.Gains w₂) : w.Gains w₂ := by
  intro hash wtx hwtx
  obtain ⟨wtx₁, hwtx₁, hgains⟩ := h hash wtx hwtx
  obtain ⟨wtx₂, hwtx₂, hgains'⟩ := h' hash wtx₁ hwtx₁
  exact ⟨wtx₂, hwtx₂, hgains.trans hgains'⟩

/-- What lies between a wallet and itself is the same wallet. -/
theorem Gains.squeeze (h : w.Gains w₁) (h' : w₁.Gains w₂) (hback : w₂.mapWallet = w.mapWallet) :
    w₁.mapWallet = w.mapWallet := by
  funext hash
  cases hwtx : w.mapWallet hash with
  | none =>
    cases hwtx₁ : w₁.mapWallet hash with
    | none => rfl
    | some wtx₁ =>
      obtain ⟨wtx₂, hwtx₂, -⟩ := h' hash wtx₁ hwtx₁
      rw [hback, hwtx] at hwtx₂
      cases hwtx₂
  | some wtx =>
    obtain ⟨wtx₁, hwtx₁, hgains⟩ := h hash wtx hwtx
    obtain ⟨wtx₂, hwtx₂, hgains'⟩ := h' hash wtx₁ hwtx₁
    rw [hback, hwtx] at hwtx₂
    cases hwtx₂
    rw [hwtx₁, hgains.antisymm hgains']

theorem gains_put {hash : uint256} {wtx' : WxTx}
    (h : ∀ old, w.mapWallet hash = some old → old.Gains wtx') : w.Gains (w.put hash wtx') := by
  intro k old hold
  by_cases hk : k = hash
  · subst hk
    exact ⟨wtx', Function.update_self _ _ _, h old hold⟩
  · exact ⟨old, (Function.update_of_ne hk _ _).trans hold, .refl old⟩

theorem spendInput_gains (ks : WalletKeys κ) (w : Wx κ) (txin : CTxIn) :
    w.Gains (spendInput ks w txin).final := by
  rw [spendInput]
  cases hwtx : w.mapWallet txin.prevout.hash with
  | none => exact .refl w
  | some wtx =>
    cases hout : wtx.vout[txin.prevout.n]? with
    | none =>
      simp only [hout]
      exact .refl w
    | some txout =>
      simp only [hout]
      refine Halt.final_within_seq (.refl w) fun fSpent _ => ?_
      split
      next =>
        refine Halt.final_within_seq (.refl w) fun wtx' hmark => ?_
        refine gains_put fun old hold => ?_
        rw [hwtx] at hold
        cases hold
        exact WxTx.gains_mark hmark
      next => exact .refl w

theorem spendInputs_gains (ks : WalletKeys κ) (vin : List CTxIn) (w : Wx κ) :
    w.Gains (spendInputs ks vin w).final :=
  Halt.final_foldlM Gains.refl (fun _ _ _ => Gains.trans) (spendInput_gains ks) vin w

theorem markCoin_gains (io : WalletIo) (w : Wx κ) (txin : CTxIn) :
    w.Gains (markCoin io w txin).final := by
  rw [markCoin]
  have hput : w.Gains (w.put txin.prevout.hash ((w.mapWallet txin.prevout.hash).getD
      (WxTx.ofTx (CTransaction.null io.nAdjustedTime)))) := by
    refine gains_put fun old hold => ?_
    rw [hold]
    exact .refl old
  refine Halt.final_within_seq hput fun coin hmark => ?_
  refine hput.trans (gains_put fun old hold => ?_)
  have hold' := (Function.update_self _ _ _).symm.trans hold
  cases hold'
  exact WxTx.gains_mark hmark

theorem markCoins_gains (io : WalletIo) (vin : List CTxIn) (w : Wx κ) :
    w.Gains (markCoins io vin w).final :=
  Halt.final_foldlM Gains.refl (fun _ _ _ => Gains.trans) (markCoin_gains io) vin w

/-- Entering a transaction that no block holds yet gains flags, once the entry is there. -/
theorem addToWallet_gains (ks : WalletKeys κ) (io : WalletIo) {wtxIn : WxTx}
    (hfresh : wtxIn.hashBlock = 0) (w : Wx κ) :
    (w.put (wtxIn.GetHash env) (w.entered (wtxIn.GetHash env) wtxIn).2).Gains
      (w.AddToWallet env ks io wtxIn).final := by
  rw [AddToWallet]
  dsimp only
  split
  next => exact .refl _
  next =>
    have hblock : (wtxIn.hashBlock != 0) = false := by simp [hfresh]
    rw [hblock, WalletUpdateSpent]
    refine Halt.final_seq (R := Gains) (fun _ _ _ => Gains.trans) ?_ fun w' _ => .refl w'
    exact fun hash wtx h => spendInputs_gains ks _ _ hash wtx h

/-! ## Steps that change nothing -/

theorem spendInput_same {txin : CTxIn}
    (h : w.ours ks txin.prevout = true → w.flag txin.prevout = true) :
    spendInput ks w txin = .ok w := by
  rw [spendInput]
  cases hwtx : w.mapWallet txin.prevout.hash with
  | none => rfl
  | some wtx =>
    cases hout : wtx.vout[txin.prevout.n]? with
    | none => simp only [hout]
    | some txout =>
      have hn : txin.prevout.n < wtx.vout.length := (List.getElem?_eq_some_iff.mp hout).1
      have hours : w.ours ks txin.prevout = w.IsMine ks txout := by
        simp [ours, txOf, hwtx, hout]
      have hspent : wtx.IsSpent txin.prevout.n = .ok (w.flag txin.prevout) := by
        rw [WxTx.IsSpent, if_neg (by omega), flag, hwtx]
        simp [hn]
      simp only [hout, hspent, Exec.within, bind, Except.bind]
      apply if_neg
      simp only [Bool.and_eq_true, Bool.not_eq_true', not_and]
      intro hflag hmine
      rw [h (hours.trans hmine)] at hflag
      cases hflag

theorem spendInputs_same {vin : List CTxIn}
    (h : ∀ coin ∈ vin.map CTxIn.prevout, w.ours ks coin = true → w.flag coin = true) :
    spendInputs ks vin w = .ok w := by
  induction vin with
  | nil => rfl
  | cons txin vin ih =>
    rw [List.map_cons, List.forall_mem_cons] at h
    rw [spendInputs, List.foldlM_cons, spendInput_same h.1]
    exact ih h.2

end Wx

namespace WxTx

/-- The output is there, and flagged by an entry of the vector. -/
structure Flagged (wtx : WxTx) (n : ℕ) : Prop where
  exists_out : n < wtx.vout.length
  length : wtx.vfSpent.length = wtx.vout.length
  flag : wtx.vfSpent.getD n false = true

variable {wtx : WxTx} {n : ℕ}

theorem resized_eq_self (h : wtx.vfSpent.length = wtx.vout.length) : wtx.resized = wtx.vfSpent := by
  rw [resized, List.take_append_of_le_length h.ge, ← h, List.take_length]

theorem markSpent_eq_self : wtx.MarkSpent n = .ok wtx ↔ wtx.Flagged n := by
  rw [MarkSpent, mark]
  split
  next hn =>
    constructor
    · intro h
      cases h
    · intro h
      exact absurd h.exists_out (by omega)
  next hn =>
    constructor
    · intro h
      have hv : wtx.resized.set n true = wtx.vfSpent := congrArg vfSpent (Except.ok.inj h)
      refine ⟨by omega, ?_, ?_⟩
      · rw [← hv, List.length_set, resized_length]
      · rw [← hv, List.getD_eq_getElem?_getD, List.getElem?_set_self (by simpa using hn)]
        rfl
    · intro h
      have hlt : n < wtx.vfSpent.length := h.length ▸ h.exists_out
      have hflag := h.flag
      rw [List.getD_eq_getElem?_getD, List.getElem?_eq_getElem hlt, Option.getD_some] at hflag
      rw [resized_eq_self h.length, ← hflag, List.set_getElem_self]

end WxTx

namespace Wx

/-- The coin is that of a transaction of the wallet, and flagged there. -/
def Marked (w : Wx κ) (coin : COutPoint) : Prop :=
  ∃ prev, w.mapWallet coin.hash = some prev ∧ prev.Flagged coin.n

theorem put_same {hash : uint256} (h : w.mapWallet hash = some wtx) : w.put hash wtx = w := by
  rw [put, ← h, Function.update_eq_self]

theorem markCoin_eq_self (io : WalletIo) {txin : CTxIn} :
    markCoin io w txin = .ok w ↔ w.Marked txin.prevout := by
  rw [markCoin]
  cases hwtx : w.mapWallet txin.prevout.hash with
  | none =>
    constructor
    · intro h
      cases h
    · rintro ⟨prev, hprev, -⟩
      rw [hwtx] at hprev
      cases hprev
  | some wtx =>
    dsimp only [Option.getD_some]
    rw [put_same hwtx]
    constructor
    · intro h
      obtain ⟨wtx', hmark, hput⟩ := seq_ok.mp h
      have hmap := congrFun (congrArg mapWallet (Except.ok.inj hput)) txin.prevout.hash
      have hself : (w.put txin.prevout.hash wtx').mapWallet txin.prevout.hash = some wtx' :=
        Function.update_self _ _ _
      have hsame : wtx' = wtx := Option.some.inj (hself.symm.trans (hmap.trans hwtx))
      cases hm : wtx.MarkSpent txin.prevout.n with
      | error e =>
        rw [hm] at hmark
        cases hmark
      | ok marked =>
        rw [hm] at hmark
        cases hmark
        exact ⟨wtx, hwtx, WxTx.markSpent_eq_self.mp (hm.trans (congrArg _ hsame))⟩
    · rintro ⟨prev, hprev, hflagged⟩
      rw [hwtx] at hprev
      cases hprev
      rw [WxTx.markSpent_eq_self.mpr hflagged]
      exact congrArg _ (put_same hwtx)

theorem markCoin_keys (io : WalletIo) (w : Wx κ) (txin : CTxIn) :
    (markCoin io w txin).final.keys = w.keys := by
  rw [markCoin]
  exact @Halt.final_within_seq _ _ (fun w' : Wx κ => w'.keys = w.keys) _ _ _ rfl fun _ _ => rfl

theorem markCoins_keys (io : WalletIo) (vin : List CTxIn) (w : Wx κ) :
    (markCoins io vin w).final.keys = w.keys :=
  @Halt.final_foldlM _ _ (fun a b : Wx κ => b.keys = a.keys) (fun _ => rfl)
    (fun _ _ _ hab hbc => hbc.trans hab) _ (markCoin_keys io) vin w

/-- Coins are marked without a change exactly when all of them are marked before. -/
theorem markCoins_eq_self (io : WalletIo) {vin : List CTxIn} :
    markCoins io vin w = .ok w ↔ ∀ txin ∈ vin, w.Marked txin.prevout := by
  constructor
  · intro h txin hin
    refine (markCoin_eq_self io).mp ?_
    refine Halt.foldlM_still (R := fun a b => a.Gains b ∧ b.keys = a.keys) ?_ ?_ ?_ ?_ h txin hin
    · exact fun a => ⟨.refl a, rfl⟩
    · exact fun a b c hab hbc => ⟨hab.1.trans hbc.1, hbc.2.trans hab.2⟩
    · intro a b hab hba
      obtain ⟨mapWallet, keys⟩ := a
      obtain ⟨mapWallet', keys'⟩ := b
      have hmap : mapWallet' = mapWallet := hab.1.squeeze hba.1 rfl
      have hkeys : keys' = keys := hab.2
      rw [hmap, hkeys]
    · exact fun w txin => ⟨markCoin_gains io w txin, markCoin_keys io w txin⟩
  · intro h
    induction vin with
    | nil => rfl
    | cons txin vin ih =>
      rw [List.forall_mem_cons] at h
      rw [markCoins, List.foldlM_cons, (markCoin_eq_self io).mpr h.1]
      exact ih h.2

/-! ## Entries that are there already -/

/-- A copy of no block that has nothing to add leaves nothing to write. -/
theorem merge_unwritten (hfresh : wtxIn.hashBlock = 0) (h : (merge wtx wtxIn).2 = wtx) :
    (merge wtx wtxIn).1 = false := by
  have hflags : WxTx.mergeSpent wtxIn.vfSpent wtx.vfSpent = wtx.vfSpent :=
    congrArg WxTx.vfSpent h
  have hindex := congrArg WxTx.nIndex h
  have hbranch := congrArg WxTx.vMerkleBranch h
  have hmine := congrArg WxTx.fFromMe h
  simp only [merge] at hindex hbranch hmine
  simp only [merge, WxTx.UpdateSpent, hflags, hfresh, bne_self_eq_false, Bool.or_false,
    decide_eq_false_iff_not]
  grind

/-- Later steps only add flags, so an entry they lead back to was not changed by the merge. -/
theorem merge_same (h : (merge wtx wtxIn).2.Gains wtx) : (merge wtx wtxIn).2 = wtx := by
  refine WxTx.Gains.antisymm ⟨h.rest_before, ?_, .inr ⟨?_, ?_⟩⟩ h
  · exact fun n _ => WxTx.mergeSpent_getD
  · exact WxTx.mergeSpent_length _ _
  · exact fun n => WxTx.mergeSpent_getD

theorem addToWallet_known (ks : WalletKeys κ) (io : WalletIo) {wtx wtxIn : WxTx}
    (hfresh : wtxIn.hashBlock = 0) (hentry : w.mapWallet (wtxIn.GetHash env) = some wtx)
    (hsame : (merge wtx wtxIn).2 = wtx) :
    ∃ w', w.AddToWallet env ks io wtxIn = .ok w' ∧
      spendInputs ks wtx.vin { w with keys := ks.replaceDefaultKey w.keys wtx.vout } = .ok w' := by
  have hblock : (wtxIn.hashBlock != 0) = false := by simp [hfresh]
  obtain ⟨w', hspend, -⟩ := spendInputs_ok ks wtx.vin
    { w with keys := ks.replaceDefaultKey w.keys wtx.vout }
  refine ⟨w', ?_, hspend⟩
  rw [AddToWallet, entered, hentry]
  dsimp only
  rw [hsame, merge_unwritten hfresh hsame, put_same hentry, Bool.false_and, if_neg Bool.false_ne_true,
    WalletUpdateSpent, hspend, hblock]
  rfl

/-! ## What is on offer -/

/-- The output would be offered if it is ours. -/
structure Offerable (ks : WalletKeys κ) (usable : WxTx → Bool) (selected : COutPoint → Bool)
    (w : Wx κ) (coin : COutPoint) (txout : CTxOut) : Prop where
  output : ∃ pcoin, w.mapWallet coin.hash = some pcoin ∧ usable pcoin = true ∧
    pcoin.vout[coin.n]? = some txout ∧ pcoin.vfSpent.getD coin.n false = false
  enough : ks.nMinimumInputValue < txout.nValue
  selected : selected coin = true

theorem availableCoins_same_iff (hmap : w'.mapWallet = w.mapWallet) :
    (∀ coin, w'.AvailableCoins ks usable selected coin = w.AvailableCoins ks usable selected coin) ↔
      ∀ coin txout, w.Offerable ks usable selected coin txout →
        w'.IsMine ks txout = w.IsMine ks txout := by
  have hoffer {coin : COutPoint} {pcoin : WxTx} {txout : CTxOut} (v : Wx κ)
      (hpcoin : v.mapWallet coin.hash = some pcoin) (hout : pcoin.vout[coin.n]? = some txout) :
      v.AvailableCoins ks usable selected coin = .ok (usable pcoin &&
        !pcoin.vfSpent.getD coin.n false && v.IsMine ks txout &&
          ks.nMinimumInputValue < txout.nValue && selected coin) := by
    have hn : coin.n < pcoin.vout.length := (List.getElem?_eq_some_iff.mp hout).1
    rw [AvailableCoins, hpcoin]
    simp only [hout, WxTx.IsSpent]
    rw [if_neg (by omega)]
    rfl
  constructor
  · intro h coin txout hcoin
    obtain ⟨pcoin, hpcoin, husable, hout, hflag⟩ := hcoin.output
    have hsame := h coin
    rw [hoffer w hpcoin hout, hoffer w' (hmap ▸ hpcoin) hout, husable, hflag, hcoin.selected,
      decide_eq_true hcoin.enough] at hsame
    simpa using hsame
  · intro h coin
    cases hpcoin : w.mapWallet coin.hash with
    | none => simp only [AvailableCoins, hmap, hpcoin]
    | some pcoin =>
      cases hout : pcoin.vout[coin.n]? with
      | none => simp only [AvailableCoins, hmap, hpcoin, hout]
      | some txout =>
        rw [hoffer w hpcoin hout, hoffer w' (hmap ▸ hpcoin) hout]
        by_cases hcoin : w.Offerable ks usable selected coin txout
        · rw [h coin txout hcoin]
        · refine congrArg _ (Bool.eq_iff_iff.mpr ?_)
          simp only [Bool.and_eq_true, Bool.not_eq_true', decide_eq_true_eq]
          constructor
          · rintro ⟨⟨⟨⟨husable, hflag⟩, -⟩, henough⟩, hselected⟩
            exact absurd ⟨⟨pcoin, hpcoin, husable, hout, hflag⟩, henough, hselected⟩ hcoin
          · rintro ⟨⟨⟨⟨husable, hflag⟩, -⟩, henough⟩, hselected⟩
            exact absurd ⟨⟨pcoin, hpcoin, husable, hout, hflag⟩, henough, hselected⟩ hcoin

/-! ## Refused commits -/

/-- The entries with their flags, and the coins on offer, are those of before. -/
structure AsBefore (ks : WalletKeys κ) (usable : WxTx → Bool) (selected : COutPoint → Bool)
    (w w' : Wx κ) : Prop where
  entries : w'.mapWallet = w.mapWallet
  coins : ∀ coin,
    w'.AvailableCoins ks usable selected coin = w.AvailableCoins ks usable selected coin

/-- The transaction is in the wallet as `wtx` with all that the commit knows of it, all that it
spends is flagged, and the keys of the call make no coin appear or disappear. -/
structure Recorded (env : Env) (ks : WalletKeys κ) (usable : WxTx → Bool)
    (selected : COutPoint → Bool) (keys : κ) (wtxNew : WxTx) (w : Wx κ) (wtx : WxTx) : Prop where
  entry : w.mapWallet (wtxNew.GetHash env) = some wtx
  known : (merge wtx wtxNew).2 = wtx
  marked : ∀ txin ∈ wtxNew.vin, w.Marked txin.prevout
  spent : ∀ coin ∈ wtx.vin.map CTxIn.prevout,
    ours ks { w with keys := ks.replaceDefaultKey keys wtx.vout } coin = true → w.flag coin = true
  keys : ∀ coin txout, w.Offerable ks usable selected coin txout →
    ks.IsMine (ks.replaceDefaultKey keys wtx.vout) txout.scriptPubKey = w.IsMine ks txout

/-- Both functions, up to the answer of the memory pool; `u` is the wallet with the keys that the
transaction is entered with. -/
theorem recording_same_iff {io : WalletIo} {u : Wx κ} (hfresh : wtxNew.hashBlock = 0)
    (hu : u.mapWallet = w.mapWallet) (hadd : (u.AddToWallet env ks io wtxNew).attempt = .ok w₁)
    (hmark : markCoins io wtxNew.vin w₁ = .ok w') :
    AsBefore ks usable selected w w' ↔
      ∃ wtx, w.Recorded env ks usable selected u.keys wtxNew wtx := by
  constructor
  · intro h
    have hgains := @addToWallet_gains env κ ks io wtxNew hfresh u
    have hmarks := markCoins_gains io wtxNew.vin w₁
    have hmarkKeys := markCoins_keys io wtxNew.vin w₁
    rw [← Halt.final_attempt, hadd, Halt.final_ok] at hgains
    rw [hmark, Halt.final_ok] at hmarks hmarkKeys
    have hback' : w'.mapWallet = u.mapWallet := h.entries.trans hu.symm
    obtain ⟨wtx, hwtx, hback⟩ := (hgains.trans hmarks) _ _ (Function.update_self _ _ _)
    have hentry : u.mapWallet (wtxNew.GetHash env) = some wtx := hback' ▸ hwtx
    rw [entered, hentry] at hback hgains
    have hknown : (merge wtx wtxNew).2 = wtx := merge_same hback
    -- the entry is as before, so what follows lies between the wallet and itself
    dsimp only at hgains
    rw [hknown, put_same hentry] at hgains
    have hmap : w₁.mapWallet = w.mapWallet := (hgains.squeeze hmarks hback').trans hu
    have hstill : w' = w₁ := by
      obtain ⟨mapWallet, keys⟩ := w'
      obtain ⟨mapWallet₁, keys₁⟩ := w₁
      rw [show mapWallet = mapWallet₁ from h.entries.trans hmap.symm,
        show keys = keys₁ from hmarkKeys]
    subst hstill
    obtain ⟨w₂, hok, hspend⟩ := addToWallet_known ks io hfresh hentry hknown
    rw [hok] at hadd
    cases hadd
    obtain ⟨w₂, hspend', hflags⟩ := spendInputs_ok ks wtx.vin
      { u with keys := ks.replaceDefaultKey u.keys wtx.vout }
    rw [hspend] at hspend'
    cases hspend'
    refine ⟨wtx, hu ▸ hentry, hknown, ?_, ?_, ?_⟩
    · intro txin hin
      obtain ⟨prev, hprev, hflagged⟩ := (markCoins_eq_self io).mp hmark txin hin
      exact ⟨prev, hmap ▸ hprev, hflagged⟩
    · intro coin hcoin hours
      have hflag := hflags.flags coin
      rw [hu, decide_eq_true hcoin, hours, Bool.true_and, Bool.or_true] at hflag
      rw [← hflag, flag, flag, hmap]
    · intro coin txout hcoin
      have hmine := (availableCoins_same_iff hmap).mp h.coins coin txout hcoin
      rw [← hmine, IsMine, hflags.keys]
  · rintro ⟨wtx, h⟩
    obtain ⟨w₂, hok, hspend⟩ := addToWallet_known ks io hfresh (hu ▸ h.entry) h.known
    rw [hok] at hadd
    cases hadd
    rw [hu, spendInputs_same h.spent] at hspend
    cases hspend
    have hstill : markCoins io wtxNew.vin
        { w with keys := ks.replaceDefaultKey u.keys wtx.vout } = .ok _ :=
      (markCoins_eq_self io).mpr h.marked
    rw [hstill] at hmark
    cases hmark
    refine ⟨rfl, (availableCoins_same_iff ?_).mpr h.keys⟩
    rfl

/-- The search for coins to flag ends in an exception or runs through. -/
theorem markCoins_avoids (io : WalletIo) (vin : List CTxIn) (w : Wx κ) :
    (markCoins io vin w).Avoids .reject := by
  refine Halt.avoids_foldlM (fun w txin => ?_) vin w
  rw [markCoin, Halt.avoids_seq]
  refine ⟨?_, fun _ _ => Halt.avoids_ok _⟩
  rw [WxTx.MarkSpent, WxTx.mark]
  split
  next => simp
  next => simp

/-- A refused commit has recorded the transaction by then. -/
theorem commit_refused {io : WalletIo} {add : Halt (Wx κ) (Wx κ)} (h : (do
      let w ← add.attempt
      let w ← markCoins io wtxNew.vin w
      if io.accepted then .ok w else .error (.reject, w)) = .error (.reject, w')) :
    ∃ w₁, add.attempt = .ok w₁ ∧ markCoins io wtxNew.vin w₁ = .ok w' := by
  rcases seq_error.mp h with hadd | ⟨w₁, hadd, h⟩
  · exact absurd hadd (Halt.avoids_attempt w')
  · rcases seq_error.mp h with hmark | ⟨w₂, hmark, h⟩
    · exact absurd hmark (markCoins_avoids io wtxNew.vin w₁ w')
    · split at h
      next => cases h
      next =>
        cases h
        exact ⟨w₁, hadd, hmark⟩

end Wx

open Wx

variable {io : WalletIo} {wtxNew : WxTx}

theorem commitTransaction_refused_iff (hfresh : wtxNew.hashBlock = 0) (usable : WxTx → Bool)
    (selected : COutPoint → Bool) :
    (∀ w', w.CommitTransaction env ks io wtxNew = .error (.reject, w') →
      (w.AsBefore ks usable selected w' ↔
        ∃ wtx, w.Recorded env ks usable selected (ks.xfa w.keys wtxNew.vout).2 wtxNew wtx)) ∧
    ∀ w', w.CommitTransaction__ env ks io wtxNew = .error (.reject, w') →
      (w.AsBefore ks usable selected w' ↔
        ∃ wtx, w.Recorded env ks usable selected w.keys wtxNew wtx) := by
  constructor
  · intro w' h
    obtain ⟨w₁, hadd, hmark⟩ := commit_refused h
    have hkeys : mapWallet { w with keys := (ks.xfa w.keys wtxNew.vout).2 } = w.mapWallet := rfl
    exact recording_same_iff hfresh hkeys hadd hmark
  · intro w' h
    obtain ⟨w₁, hadd, hmark⟩ := commit_refused h
    exact recording_same_iff hfresh rfl hadd hmark

namespace Scenario

def refusingIo : WalletIo := ⟨0, fun _ => false, false⟩

def paidWallet : Wx Unit := ⟨Function.update (fun _ => none) 10 (some (WxTx.ofTx income)), ()⟩

/-- What is left of it after the payment was sent on, and refused. -/
def refusedWallet : Wx Unit :=
  (paidWallet.CommitTransaction (timed testNet) oneKey refusingIo (WxTx.ofTx change)).final

/-- The refused transaction is in the wallet as it was sent, and its input is flagged. -/
theorem refusedWallet_recorded : refusedWallet.Recorded (timed testNet) oneKey (fun _ => true)
    (fun _ => true) () (WxTx.ofTx change) (WxTx.ofTx change) := by
  refine ⟨rfl, by decide, ?_, ?_, fun _ _ _ => rfl⟩
  · intro txin hin
    rw [List.mem_singleton.mp hin]
    exact ⟨{ WxTx.ofTx income with vfSpent := [true] }, rfl, by decide, rfl, rfl⟩
  · intro coin hin _
    rw [List.mem_singleton.mp hin]
    rfl

end Scenario

open Scenario

/-- The refused transaction is sent once more. -/
theorem commitTransaction_refused_iff_again :
    (∃ w', refusedWallet.CommitTransaction (timed testNet) oneKey refusingIo (WxTx.ofTx change) =
        .error (.reject, w') ∧
      refusedWallet.AsBefore oneKey (fun _ => true) (fun _ => true) w') ∧
    ∃ w', refusedWallet.CommitTransaction__ (timed testNet) oneKey refusingIo (WxTx.ofTx change) =
        .error (.reject, w') ∧
      refusedWallet.AsBefore oneKey (fun _ => true) (fun _ => true) w' := by
  obtain ⟨hsent, hsent__⟩ := @commitTransaction_refused_iff (timed testNet) Unit oneKey
    refusedWallet refusingIo (WxTx.ofTx change) rfl (fun _ => true) (fun _ => true)
  exact ⟨⟨_, rfl, (hsent _ rfl).mpr ⟨_, refusedWallet_recorded⟩⟩,
    ⟨_, rfl, (hsent__ _ rfl).mpr ⟨_, refusedWallet_recorded⟩⟩⟩

/-- The payment to us is sent on and refused: a new entry, and the coin is not on offer any more. -/
theorem commitTransaction_refused_not_same :
    (∃ w', paidWallet.CommitTransaction (timed testNet) oneKey refusingIo (WxTx.ofTx change) =
        .error (.reject, w') ∧
      paidWallet.mapWallet 20 = none ∧ w'.mapWallet 20 = some (WxTx.ofTx change) ∧
      paidWallet.AvailableCoins oneKey (fun _ => true) (fun _ => true) ⟨10, 0⟩ = .ok true ∧
      w'.AvailableCoins oneKey (fun _ => true) (fun _ => true) ⟨10, 0⟩ = .ok false) ∧
    ∃ w', paidWallet.CommitTransaction__ (timed testNet) oneKey refusingIo (WxTx.ofTx change) =
        .error (.reject, w') ∧
      w'.mapWallet 20 = some (WxTx.ofTx change) ∧
      w'.AvailableCoins oneKey (fun _ => true) (fun _ => true) ⟨10, 0⟩ = .ok false :=
  ⟨⟨_, rfl, rfl, rfl, rfl, rfl⟩, ⟨_, rfl, rfl, rfl⟩⟩

end Dions
