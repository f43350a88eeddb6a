import Dions.Verification.Index.Refinement
import Dions.Verification.Scenario

/-! # Disconnecting a block

`DisconnectBlock` undoes the items of the block on the ledger. It gives back the index that
`ConnectBlock` started from exactly when the block brought no transaction that was indexed before
and spent no output that was marked as spent before. -/

namespace Dions

open Halting

variable (env : Env)
variable {block : CBlock}

/-! ## DisconnectBlock on the ledger -/

theorem unspendInputs_ledger (vin : List CTxIn) (T : TxIndexMap) :
    (unspendInputs vin T).map ledgerOf =
      Ledger.unspendAll (vin.map CTxIn.slot) (ledgerOf T) := by
  induction vin generalizing T with
  | nil => rfl
  | cons txin vin ih =>
      have hslot : ledgerOf T txin.slot.1 = (T txin.prevout.hash).map CTxIndex.entry := rfl
      rw [unspendInputs, List.map_cons, Ledger.unspendAll, hslot]
      cases hT : T txin.prevout.hash with
      | none => rfl
      | some e =>
          by_cases hn : e.vSpent.length ≤ txin.prevout.n
          · have hn' : e.entry.slots.length ≤ txin.slot.2 := hn
            simp [hn, hn']
          · have hn' : ¬ e.entry.slots.length ≤ txin.slot.2 := hn
            simp only [hn, hn', if_false, Option.map_some]
            rw [ih, ledgerOf_update]
            rfl

theorem disconnectInputs_ledger (p : CDiskTxPos × CTransaction) (T : TxIndexMap) :
    (p.2.DisconnectInputs env T).map ledgerOf = Ledger.undo (ledgerOf T) (txItem env p) := by
  have herase : ∀ x : Option TxIndexMap,
      (x.map fun T => Function.update T (p.2.GetHash env) none).map ledgerOf =
        (x.map ledgerOf).map fun L => Function.update L (txItem env p).id none := by
    intro x
    cases x with
    | none => rfl
    | some T => exact congrArg some (ledgerOf_update T _ none)
  rw [CTransaction.DisconnectInputs, herase, Ledger.undo]
  by_cases hcb : p.2.IsCoinBase = true
  · simp [hcb, txItem, CTransaction.slots, Ledger.unspendAll]
  · rw [if_neg hcb, unspendInputs_ledger]
    simp [hcb, txItem, CTransaction.slots]

theorem disconnectLoop_ledger (ps : List (CDiskTxPos × CTransaction)) (T : TxIndexMap) :
    (disconnectLoop env (ps.map Prod.snd) T).map ledgerOf =
      Ledger.undoAll (ps.map (txItem env)) (ledgerOf T) := by
  induction ps with
  | nil => rfl
  | cons p ps ih =>
      rw [List.map_cons, List.map_cons, disconnectLoop, Ledger.undoAll, ← ih]
      cases disconnectLoop env (ps.map Prod.snd) T with
      | none => rfl
      | some T₁ => exact disconnectInputs_ledger env p T₁

/-- Disconnecting a block undoes its items, at whatever positions they are. -/
theorem disconnectBlock_ledger (block : CBlock) (pindex : CBlockIndex) (T : TxIndexMap) :
    (block.DisconnectBlock env T).map ledgerOf =
      Ledger.undoAll (block.items env pindex) (ledgerOf T) := by
  rw [CBlock.DisconnectBlock, CBlock.items, ← disconnectLoop_ledger, positions_map_snd]

theorem disconnectBlock_eq_some_iff (pindex : CBlockIndex) {block : CBlock} {T T₁ : TxIndexMap} :
    block.DisconnectBlock env T₁ = some T ↔
      Ledger.undoAll (block.items env pindex) (ledgerOf T₁) = some (ledgerOf T) := by
  rw [← disconnectBlock_ledger]
  cases block.DisconnectBlock env T₁ with
  | none => simp
  | some T₂ => simp [ledgerOf_injective.eq_iff]

/-! ## The inputs of a block -/

theorem mem_inputs_items {pindex : CBlockIndex} {o : uint256 × ℕ} :
    o ∈ Ledger.inputs (block.items env pindex) ↔
      ∃ tx ∈ block.vtx, tx.IsCoinBase = false ∧ ∃ txin ∈ tx.vin, txin.slot = o := by
  have hmem : ∀ tx, tx ∈ block.vtx ↔ ∃ pos, (pos, tx) ∈ block.positions pindex := by
    intro tx
    rw [← positions_map_snd block pindex]
    simp
  simp only [Ledger.inputs, CBlock.items, List.mem_flatMap, List.mem_map]
  constructor
  · rintro ⟨_, ⟨⟨pos, tx⟩, hp, rfl⟩, ho⟩
    simp only [txItem, CTransaction.slots] at ho
    split at ho
    · simp at ho
    · rename_i hcb
      exact ⟨tx, (hmem tx).mpr ⟨pos, hp⟩, by simpa using hcb, List.mem_map.mp ho⟩
  · rintro ⟨tx, htx, hcb, txin, hin, rfl⟩
    obtain ⟨pos, hp⟩ := (hmem tx).mp htx
    refine ⟨_, ⟨(pos, tx), hp, rfl⟩, ?_⟩
    simp only [txItem, CTransaction.slots, hcb, Bool.false_eq_true, if_false]
    exact List.mem_map_of_mem hin

theorem checkBlock_nodup {fPOW fRoot fSig : Bool} (h : block.CheckBlock env fPOW fRoot fSig = true) :
    (block.vtx.map (CTransaction.GetHash env)).Nodup := by
  simp only [CBlock.CheckBlock, Bool.and_eq_true, decide_eq_true_eq] at h
  exact h.1.1.2

/-! ## Disconnecting what was connected -/

/-- An input of an ordinary transaction names a slot that is marked as spent. -/
def SpendsSpent (T : TxIndexMap) (tx : CTransaction) : Prop :=
  ∃ txin ∈ tx.vin, ∃ txindex pos, T txin.prevout.hash = some txindex ∧
    txindex.vSpent[txin.prevout.n]? = some (some pos)

theorem spent_ledgerOf {T : TxIndexMap} {txin : CTxIn} :
    Ledger.Spent (ledgerOf T) txin.slot ↔ ∃ txindex pos, T txin.prevout.hash = some txindex ∧
      txindex.vSpent[txin.prevout.n]? = some (some pos) := by
  constructor
  · rintro ⟨e, p, he, hp⟩
    obtain ⟨txindex, hT, rfl⟩ := Option.map_eq_some_iff.mp he
    exact ⟨txindex, p, hT, hp⟩
  · rintro ⟨txindex, p, hT, hp⟩
    exact ⟨txindex.entry, p, by simp [ledgerOf, CTxIn.slot, hT], hp⟩

/-- `DisconnectBlock` after `ConnectBlock` restores the index exactly when no transaction of the
block was indexed before and no input of an ordinary transaction named a spent slot. -/
theorem disconnectBlock_connectBlock_iff {view : View} {T T' : TxIndexMap} {g g' : Globals}
    {pindex : CBlockIndex} {block : CBlock}
    (h : block.ConnectBlock env view T g pindex = .ok (T', g')) :
    block.DisconnectBlock env T' = some T ↔
      (∀ tx ∈ block.vtx, T (tx.GetHash env) = none) ∧
        ∀ tx ∈ block.vtx, tx.IsCoinBase = false → ¬ SpendsSpent T tx := by
  obtain ⟨hcheck, -, halong, hL⟩ := connectBlock_ok env h
  have hfinds : Ledger.Along Ledger.Finds (ledgerOf T) (block.items env pindex) :=
    Ledger.along_mono (fun _ _ ha => ha.finds) halong
  have hnodup : (Ledger.ids (block.items env pindex)).Nodup := by
    rw [ids_items]
    exact checkBlock_nodup env hcheck
  rw [disconnectBlock_eq_some_iff env pindex, hL,
    Ledger.undoAll_applyAll_eq_iff hfinds hnodup, ids_items]
  refine and_congr ?_ ?_
  · simp [ledgerOf]
  · constructor
    · rintro hns tx htx hcb ⟨txin, hin, hspent⟩
      exact hns txin.slot ((mem_inputs_items env).mpr ⟨tx, htx, hcb, txin, hin, rfl⟩)
        (spent_ledgerOf.mpr hspent)
    · rintro hns o ho hspent
      obtain ⟨tx, htx, hcb, txin, hin, rfl⟩ := (mem_inputs_items env).mp ho
      exact hns tx htx hcb ⟨txin, hin, spent_ledgerOf.mp hspent⟩

/-! ## A worthless output spent twice -/

namespace Scenario

/-- Spends the matured first reward into an output without value and another one. -/
def worthless : CTransaction :=
  spending 10900 1 [⟨999, 0⟩] [payTo 0, payTo (624 * COIN)]

def firstSpender : CTransaction :=
  spending 10901 1 [⟨10900, 0⟩, ⟨10900, 1⟩] [payTo (623 * COIN)]

/-- Spends the worthless output again, next to the matured second reward. -/
def secondSpender : CTransaction :=
  spending 11900 1 [⟨10900, 0⟩, ⟨1999, 0⟩] [payTo (624 * COIN)]

def spentOnce : List Mining :=
  firstBlocks 10 ++ [⟨10000, 11000, 1, [payTo (625 * COIN)], [worthless, firstSpender]⟩]

def spentTwice : Mining := ⟨11000, 12000, 1, [payTo (625 * COIN)], [secondSpender]⟩

end Scenario

open Scenario in
/-- A reachable node and a block it connects, which disconnecting does not take back: the slot of
the output without value was spent before, and comes back as unspent. -/
theorem disconnectBlock_forgets_spender :
    ∃ node T' g', afterBlocks spentOnce = .ok node ∧
      connectNext node spentTwice = .ok (T', g') ∧
      (nextBlock node spentTwice).DisconnectBlock (timed testNet) T' ≠
        some node.txdb.txindex := by
  have htest : (match afterBlocks spentOnce with
      | .error _ => false
      | .ok node =>
        match connectNext node spentTwice with
        | .error _ => false
        | .ok (T', _) =>
          decide (((nextBlock node spentTwice).DisconnectBlock (timed testNet) T').map
            (fun T => T 10900) ≠ some (node.txdb.txindex 10900))) = true := by
    decide +kernel
  split at htest
  · simp at htest
  · rename_i node hnode
    split at htest
    · simp at htest
    · rename_i T' g' hconnect
      refine ⟨node, T', g', hnode, hconnect, fun heq => ?_⟩
      rw [heq] at htest
      simp at htest

open Scenario in
/-- The equivalence on the block of the scenario. -/
theorem disconnectBlock_connectBlock_iff_spentTwice :
    ∃ node T' g', connectNext node spentTwice = .ok (T', g') ∧
      ((nextBlock node spentTwice).DisconnectBlock (timed testNet) T' =
          some node.txdb.txindex ↔
        (∀ tx ∈ (nextBlock node spentTwice).vtx,
          node.txdb.txindex (tx.GetHash (timed testNet)) = none) ∧
        ∀ tx ∈ (nextBlock node spentTwice).vtx, tx.IsCoinBase = false →
          ¬ SpendsSpent node.txdb.txindex tx) := by
  have htest : (match afterBlocks spentOnce with
      | .error _ => false
      | .ok node =>
        match connectNext node spentTwice with
        | .error _ => false
        | .ok _ => true) = true := by
    decide +kernel
  split at htest
  · simp at htest
  · rename_i node hnode
    split at htest
    · simp at htest
    · rename_i T' g' hconnect
      exact ⟨node, _, _, hconnect, disconnectBlock_connectBlock_iff _ hconnect⟩

end Dions
