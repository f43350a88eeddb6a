import Mathlib.Logic.Relation
import Dions.Verification.Scenario
import Dions.Verification.Wallet.Spent

/-! # The life of a wallet

Transactions are sent, arrive and are seen again, in any order. -/

namespace Dions

open Halting

variable {env : Env} {κ : Type} {ks : WalletKeys κ}

/-! ## Runs -/

/-- One event in the life of a wallet. A transaction is sent and the memory pool takes it, or the
wallet hears of one in the memory pool, in a block that is connected, or in a rescan; a copy of a
transaction is added; transactions leave the memory pool or the chain. -/
inductive WalletEvent where
  | commit (io : WalletIo) (wtxNew : WxTx)
  | mempool (io : WalletIo) (tx : CTransaction)
  | connect (io : WalletIo) (tx : CTransaction) (block : CBlock)
  | rescan (io : WalletIo) (tx : CTransaction) (block : CBlock) (fUpdate : Bool)
  | merge (io : WalletIo) (wtxIn : WxTx)
  | leave (pool chain : Set uint256)

namespace WalletEvent

def next (env : Env) (ks : WalletKeys κ) (s : WalletNode κ) : WalletEvent → WalletNode κ
  | commit io wtxNew =>
    { s with
      toWx := (s.CommitTransaction env ks io wtxNew).final
      pool := insert (wtxNew.GetHash env) s.pool }
  | mempool io tx =>
    { s with
      toWx := (s.AddToWalletIfInvolvingMe env ks io tx none true).final
      pool := insert (tx.GetHash env) s.pool }
  | connect io tx block =>
    { s with
      toWx := (s.AddToWalletIfInvolvingMe env ks io tx (some block) true).final
      chain := insert (tx.GetHash env) s.chain }
  | rescan io tx block fUpdate =>
    { s with toWx := (s.AddToWalletIfInvolvingMe env ks io tx (some block) fUpdate).final }
  | merge io wtxIn => { s with toWx := (s.AddToWallet env ks io wtxIn).final }
  | leave pool chain => { s with pool := pool, chain := chain }

/-- What makes an event one of its kind. -/
def Occurs (env : Env) (ks : WalletKeys κ) (s : WalletNode κ) : WalletEvent → Prop
  | commit io wtxNew => ∃ w, s.CommitTransaction env ks io wtxNew = .ok w
  | mempool _ _ => True
  | connect _ _ _ => True
  | rescan _ tx _ _ => tx.GetHash env ∈ s.chain
  | merge _ _ => True
  | leave pool chain => pool ∪ chain ⊆ s.live

/-- The condition under which an event keeps the flags of spent coins. -/
def Keeps (env : Env) (ks : WalletKeys κ) (s : WalletNode κ) : WalletEvent → Prop
  | commit _ wtxNew =>
    Sends env ks s.toWx (insert (wtxNew.GetHash env) s.live) wtxNew
  | mempool io tx => Hears env ks io s.toWx (insert (tx.GetHash env) s.live) tx none true
  | connect io tx block =>
    Hears env ks io s.toWx (insert (tx.GetHash env) s.live) tx (some block) true
  | rescan io tx block fUpdate => Hears env ks io s.toWx s.live tx (some block) fUpdate
  | merge io wtxIn => s.Admits env ks io s.live wtxIn
  | leave _ _ => True

end WalletEvent

/-- One step of a run whose events meet a condition. -/
def WalletStep (env : Env) (ks : WalletKeys κ) (C : WalletNode κ → WalletEvent → Prop)
    (s s' : WalletNode κ) : Prop :=
  ∃ e : WalletEvent, e.Occurs env ks s ∧ C s e ∧ s' = e.next env ks s

theorem WalletEvent.next_safe {s : WalletNode κ} {e : WalletEvent}
    (h : SpentOk env s.toWx s.live) (hoccurs : e.Occurs env ks s) (hkeeps : e.Keeps env ks s) :
    SpentOk env (e.next env ks s).toWx (e.next env ks s).live := by
  cases e with
  | commit io wtxNew =>
      obtain ⟨w, hok⟩ := hoccurs
      rw [WalletEvent.next, WalletNode.live, Set.insert_union, hok]
      exact commitTransaction_safe h (Set.Subset.refl _) hkeeps hok
  | mempool io tx =>
      rw [WalletEvent.next, WalletNode.live, Set.insert_union]
      exact addToWalletIfInvolvingMe_safe h (Set.Subset.refl _) nofun hkeeps
  | connect io tx block =>
      rw [WalletEvent.next, WalletNode.live, Set.union_insert]
      exact addToWalletIfInvolvingMe_safe h (Set.Subset.refl _) nofun hkeeps
  | rescan io tx block fUpdate =>
      exact addToWalletIfInvolvingMe_safe h (Set.subset_insert _ _)
        (fun _ => Set.Subset.refl _) hkeeps
  | merge io wtxIn => exact addToWallet_safe h (Set.subset_insert _ _) hkeeps
  | leave pool chain => exact h.mono hoccurs

/-- A wallet without transactions, beside any memory pool and chain. -/
structure WalletStart (s : WalletNode κ) : Prop where
  empty : ∀ hash, s.mapWallet hash = none

theorem WalletStart.spentOk {s : WalletNode κ} (h : WalletStart s) :
    SpentOk env s.toWx s.live := by
  have htx : ∀ hash, s.txOf hash = none := fun hash => by
    rw [Wx.txOf, h.empty, Option.map_none]
  refine ⟨?_, ?_⟩
  · intro hash tx hhash
    rw [htx] at hhash
    cases hhash
  · intro coin hspends
    obtain ⟨hash, -, tx, hhash, -⟩ := hspends
    rw [htx] at hhash
    cases hhash

theorem walletRun_safe {s₀ s : WalletNode κ} (hstart : WalletStart s₀)
    (hrun : Relation.ReflTransGen (WalletStep env ks fun s e => e.Keeps env ks s) s₀ s) :
    SpentOk env s.toWx s.live := by
  induction hrun with
  | refl => exact hstart.spentOk
  | tail _ hstep ih =>
      obtain ⟨e, hoccurs, hkeeps, rfl⟩ := hstep
      exact e.next_safe ih hoccurs hkeeps

/-- An output of a transaction of the wallet that is an input of one in the memory pool or in the
chain is flagged, and never offered. -/
theorem spent_coins_not_offered {s₀ s : WalletNode κ} {hash : uint256} {wtx prev : WxTx}
    {coin : COutPoint} (hstart : WalletStart s₀)
    (hrun : Relation.ReflTransGen (WalletStep env ks fun s e => e.Keeps env ks s) s₀ s)
    (hwtx : s.mapWallet hash = some wtx) (hlive : hash ∈ s.pool ∨ hash ∈ s.chain)
    (hspends : coin ∈ wtx.vin.map CTxIn.prevout) (hprev : s.mapWallet coin.hash = some prev)
    (hn : coin.n < prev.vout.length) :
    prev.IsSpent coin.n = .ok true ∧
      ∀ usable selected, s.AvailableCoins ks usable selected coin = .ok false := by
  have hok := walletRun_safe hstart hrun
  have hflag : s.flag coin = true :=
    hok.flagged coin ⟨hash, hlive, _, Wx.txOf_eq_some hwtx, hspends⟩
      ⟨_, Wx.txOf_eq_some hprev, hn⟩
  have hspent := Wx.isSpent_of_flag hprev hn hflag
  refine ⟨hspent, ?_⟩
  intro usable selected
  rw [Wx.AvailableCoins, hprev]
  simp only [List.getElem?_eq_getElem hn, hspent, bind, Except.bind]
  simp

/-! ## Two wallets -/

namespace Scenario

def oneKey : WalletKeys Unit where
  IsMine := fun _ script => script == [0x51]
  xfa := fun _ _ => (false, ())
  replaceDefaultKey := fun _ _ => ()
  collx := fun _ _ => false
  nMinimumInputValue := 0

def walletIo : WalletIo := ⟨0, fun _ => false, true⟩

def newWallet : WalletNode Unit := { mapWallet := fun _ => none, keys := (), pool := ∅, chain := ∅ }

/-- A payment to us. -/
def income : CTransaction := spending 10 1 [⟨5, 0⟩] [payTo 900]

/-- It is sent on to ourselves. -/
def change : CTransaction := spending 20 1 [⟨10, 0⟩] [payTo 800]

/-- And from there to somebody else. -/
def payment : CTransaction := spending 30 1 [⟨20, 0⟩] [⟨700, [0x52]⟩]

def blockOf (tx : CTransaction) : CBlock := { genesisBlock with nTime := 1, vtx := [tx] }

/-- The wallet after both transactions are sent, and then the block with the first of them. -/
def changeConfirmed : List WalletEvent :=
  [.connect walletIo income (blockOf income), .commit walletIo (WxTx.ofTx change),
    .commit walletIo (WxTx.ofTx payment), .connect walletIo change (blockOf change)]

def afterEvents (s : WalletNode Unit) (events : List WalletEvent) : WalletNode Unit :=
  events.foldl (fun s e => e.next (timed testNet) oneKey s) s

/-- Whether the event takes place; only those of the two wallets are told. -/
def takesPlace (s : WalletNode Unit) : WalletEvent → Bool
  | .commit io wtxNew =>
    match s.CommitTransaction (timed testNet) oneKey io wtxNew with
    | .ok _ => true
    | .error _ => false
  | .connect _ _ _ => true
  | _ => false

def allTakePlace : WalletNode Unit → List WalletEvent → Bool
  | _, [] => true
  | s, e :: events =>
    takesPlace s e && allTakePlace (e.next (timed testNet) oneKey s) events

theorem takesPlace_occurs {s : WalletNode Unit} {e : WalletEvent} (h : takesPlace s e = true) :
    e.Occurs (timed testNet) oneKey s := by
  cases e with
  | commit io wtxNew =>
      simp only [takesPlace] at h
      cases hrun : s.CommitTransaction (timed testNet) oneKey io wtxNew with
      | ok w => exact ⟨w, hrun⟩
      | error e =>
          rw [hrun] at h
          cases h
  | connect io tx block => trivial
  | mempool io tx => cases h
  | rescan io tx block fUpdate => cases h
  | merge io wtxIn => cases h
  | leave pool chain => cases h

theorem events_run {s : WalletNode Unit} {events : List WalletEvent}
    (h : allTakePlace s events = true) :
    Relation.ReflTransGen (WalletStep (timed testNet) oneKey fun _ _ => True) s
      (afterEvents s events) := by
  induction events generalizing s with
  | nil => exact .refl
  | cons e events ih =>
      rw [allTakePlace, Bool.and_eq_true] at h
      exact .head ⟨e, takesPlace_occurs h.1, trivial, rfl⟩ (ih h.2)

theorem newWallet_start : WalletStart newWallet := ⟨fun _ => rfl⟩

end Scenario

open Scenario

theorem Wx.inOrder_of_unspent {w : Wx κ} {live : Set uint256} {wtxIn : WxTx}
    (h : ∀ hash tx, (w.entering env ks wtxIn).txOf hash = some tx →
      ∀ coin ∈ tx.vin.map CTxIn.prevout, coin.hash ≠ wtxIn.GetHash env) :
    w.InOrder env ks live wtxIn := by
  have hnone : ∀ coin, (w.entering env ks wtxIn).Spends live coin →
      coin.hash ≠ wtxIn.GetHash env := by
    intro coin hspends
    obtain ⟨hash, -, tx, htx, hcoin⟩ := hspends
    exact h hash tx htx coin hcoin
  exact ⟨fun coin hspends hhash _ => absurd hhash (hnone coin hspends),
    fun coin hspends hhash _ => absurd hhash (hnone coin hspends)⟩

def incomeEvent : WalletEvent := .connect walletIo income (blockOf income)

def changeEvent : WalletEvent := .commit walletIo (WxTx.ofTx change)

def withIncome : WalletNode Unit := incomeEvent.next (timed testNet) oneKey newWallet

theorem income_entering {hash : uint256} {tx : CTransaction}
    (h : (newWallet.entering (timed testNet) oneKey
      (Wx.heard (timed testNet) income (some (blockOf income)))).txOf hash = some tx) :
    hash = 10 ∧ tx = income := by
  by_cases hhash : hash = 10
  · subst hhash
    exact ⟨rfl, (Option.some.inj h).symm⟩
  · rw [Wx.entering_other _ _ hhash] at h
    cases h

theorem income_inOrder (live : Set uint256) :
    newWallet.InOrder (timed testNet) oneKey live
      (Wx.heard (timed testNet) income (some (blockOf income))) := by
  apply Wx.inOrder_of_unspent
  intro hash tx htx
  rw [(income_entering htx).2]
  decide

theorem income_keeps : incomeEvent.Keeps (timed testNet) oneKey newWallet := by
  intro w hw
  have hsame : newWallet.toWx = w := Option.some.inj hw
  subst hsame
  refine ⟨income_inOrder _, ?_, fun _ _ => rfl⟩
  -- what the payment spends is not in the wallet
  intro _ coin hcoin hholds
  obtain ⟨tx, htx, -⟩ := hholds
  have hin : coin = ⟨5, 0⟩ := List.mem_singleton.mp hcoin
  have hhash := (income_entering htx).1
  rw [hin] at hhash
  cases hhash

theorem withIncome_tx {hash : uint256} {tx : CTransaction}
    (h : withIncome.txOf hash = some tx) : hash = 10 ∧ tx = income := by
  have hempty : SpentOk (timed testNet) newWallet.toWx newWallet.live := newWallet_start.spentOk
  have hothers := addToWallet_others walletIo hempty (Set.Subset.refl _) (income_inOrder _)
  apply income_entering
  rw [← hothers.2]
  exact h

theorem change_keeps : changeEvent.Keeps (timed testNet) oneKey withIncome := by
  refine ⟨?_, ?_⟩
  · apply Wx.inOrder_of_unspent
    intro hash tx htx
    by_cases hhash : hash = 20
    · subst hhash
      rw [← Option.some.inj htx]
      decide
    · rw [Wx.entering_other _ _ hhash] at htx
      rw [(withIncome_tx htx).2]
      decide
  · intro wtx hwtx
    have hhash := (withIncome_tx (Wx.txOf_eq_some hwtx)).1
    cases hhash

def changeSpent : Bool :=
  takesPlace withIncome changeEvent &&
  match (changeEvent.next (timed testNet) oneKey withIncome).mapWallet 20,
      (changeEvent.next (timed testNet) oneKey withIncome).mapWallet 10 with
    | some wtx, some prev =>
      decide (⟨10, 0⟩ ∈ wtx.vin.map CTxIn.prevout ∧ 0 < prev.vout.length)
    | _, _ => false

theorem spent_coins_not_offered_change : ∃ (s : WalletNode Unit) (wtx prev : WxTx),
    Relation.ReflTransGen (WalletStep (timed testNet) oneKey
      fun s e => e.Keeps (timed testNet) oneKey s) newWallet s ∧
      s.mapWallet 20 = some wtx ∧ s.mapWallet 10 = some prev ∧ prev.IsSpent 0 = .ok true ∧
      ∀ usable selected, s.AvailableCoins oneKey usable selected ⟨10, 0⟩ = .ok false := by
  have htest : changeSpent = true := by decide
  unfold changeSpent at htest
  rw [Bool.and_eq_true] at htest
  obtain ⟨hsent, htest⟩ := htest
  have hrun : Relation.ReflTransGen (WalletStep (timed testNet) oneKey
      fun s e => e.Keeps (timed testNet) oneKey s) newWallet
      (changeEvent.next (timed testNet) oneKey withIncome) :=
    .tail (.single ⟨incomeEvent, trivial, income_keeps, rfl⟩)
      ⟨changeEvent, takesPlace_occurs hsent, change_keeps, rfl⟩
  split at htest
  next wtx prev hwtx hprev =>
    rw [decide_eq_true_eq] at htest
    have hin : (⟨10, 0⟩ : COutPoint) ∈ wtx.vin.map CTxIn.prevout := htest.1
    obtain ⟨hspent, hoffered⟩ := spent_coins_not_offered newWallet_start hrun hwtx
      (.inl (.inl rfl)) hin hprev htest.2
    exact ⟨_, wtx, prev, hrun, hwtx, hprev, hspent, hoffered⟩
  next => cases htest

def changeOffered : Bool :=
  match (afterEvents newWallet changeConfirmed).mapWallet 30,
    (afterEvents newWallet changeConfirmed).mapWallet 20 with
  | some wtx, some prev =>
    decide (⟨20, 0⟩ ∈ wtx.vin.map CTxIn.prevout ∧ 0 < prev.vout.length) &&
      (match prev.IsSpent 0 with
        | .ok false => true
        | _ => false) &&
      (match (afterEvents newWallet changeConfirmed).AvailableCoins oneKey (fun _ => true)
          (fun _ => true) ⟨20, 0⟩ with
        | .ok true => true
        | _ => false)
  | _, _ => false

/-- A block takes the flag of our change away although it has been spent, and it is offered. -/
theorem confirmed_change_offered : ∃ (s : WalletNode Unit) (wtx prev : WxTx),
    WalletStart newWallet ∧
      Relation.ReflTransGen (WalletStep (timed testNet) oneKey fun _ _ => True) newWallet s ∧
      s.mapWallet 30 = some wtx ∧ 30 ∈ s.pool ∧ ⟨20, 0⟩ ∈ wtx.vin.map CTxIn.prevout ∧
      s.mapWallet 20 = some prev ∧ 0 < prev.vout.length ∧ prev.IsSpent 0 = .ok false ∧
      s.AvailableCoins oneKey (fun _ => true) (fun _ => true) ⟨20, 0⟩ = .ok true := by
  have hrun : allTakePlace newWallet changeConfirmed = true := by decide
  have htest : changeOffered = true := by decide
  unfold changeOffered at htest
  split at htest
  next wtx prev hwtx hprev =>
    simp only [Bool.and_eq_true, decide_eq_true_eq] at htest
    obtain ⟨⟨⟨hin, hlen⟩, hflag⟩, hoffered⟩ := htest
    refine ⟨_, wtx, prev, newWallet_start, events_run hrun, hwtx, ?_, hin, hprev, hlen, ?_, ?_⟩
    · exact Or.inl rfl
    · split at hflag
      next h => exact h
      next => cases hflag
    · split at hoffered
      next h => exact h
      next => cases hoffered
  next => cases htest

end Dions
