import Dions.Verification.Index.Disconnect

/-! # Double spends

Along any sequence of connected blocks an output of positive value is spent at most once for each
time its transaction is created. Outputs without value carry the alias operations and are left
out of the test; nothing keeps them from being spent again. -/

namespace Dions

open Halting

variable (env : Env)
variable {T T' : TxIndexMap}

structure ConnectCall where
  view : View
  g : Globals
  pindex : CBlockIndex
  block : CBlock

variable {calls : List ConnectCall}

def ConnectCall.items (c : ConnectCall) : List (Ledger.Item uint256 CDiskTxPos) :=
  c.block.items env c.pindex

def itemsOf (calls : List ConnectCall) : List (Ledger.Item uint256 CDiskTxPos) :=
  calls.flatMap (ConnectCall.items env)

/-- Successful calls, each on the index that the one before left. -/
inductive ConnectRun : TxIndexMap → List ConnectCall → TxIndexMap → Prop
  | nil (T : TxIndexMap) : ConnectRun T [] T
  | cons {T T' T'' : TxIndexMap} {c : ConnectCall} {g' : Globals} {calls : List ConnectCall}
      (hconnect : c.block.ConnectBlock env c.view T c.g c.pindex = .ok (T', g'))
      (hrest : ConnectRun T' calls T'') : ConnectRun T (c :: calls) T''

/-! ## Runs on the ledger -/

theorem connectRun_applyAll (h : ConnectRun env T calls T') :
    ledgerOf T' = Ledger.applyAll (ledgerOf T) (itemsOf env calls) := by
  induction h with
  | nil T => rfl
  | cons hconnect hrest ih =>
      obtain ⟨-, -, -, hL⟩ := connectBlock_ok env hconnect
      rw [ih, hL, ← Ledger.applyAll_append]
      rfl

/-- Every item of a run finds its slots, on the ledger of all the items before it. -/
theorem connectRun_finds (h : ConnectRun env T calls T') :
    Ledger.Along Ledger.Finds (ledgerOf T) (itemsOf env calls) := by
  induction h with
  | nil T => trivial
  | cons hconnect hrest ih =>
      obtain ⟨-, -, halong, hL⟩ := connectBlock_ok env hconnect
      rw [itemsOf, List.flatMap_cons, Ledger.along_append]
      refine ⟨Ledger.along_mono (fun _ _ ha => ha.finds) halong, ?_⟩
      rw [hL] at ih
      exact ih

theorem connectRun_append {pre : List ConnectCall} (h : ConnectRun env T (pre ++ calls) T') :
    ∃ T₁, ConnectRun env T pre T₁ ∧ ConnectRun env T₁ calls T' := by
  induction pre generalizing T with
  | nil => exact ⟨T, .nil T, h⟩
  | cons c pre ih =>
      rw [List.cons_append] at h
      cases h with
      | cons hconnect hrest =>
          obtain ⟨T₁, hpre, hcalls⟩ := ih hrest
          exact ⟨T₁, .cons hconnect hpre, hcalls⟩

/-! ## Inputs of one transaction -/

theorem checkBlock_checkTransaction {block : CBlock} {fPOW fRoot fSig : Bool}
    (h : block.CheckBlock env fPOW fRoot fSig = true) :
    ∀ tx ∈ block.vtx, tx.CheckTransaction = true := by
  simp only [CBlock.CheckBlock, Bool.and_eq_true, List.all_eq_true] at h
  intro tx htx
  exact (h.1.1.1.2 tx htx).1

theorem slot_injective {a b : CTxIn} (h : a.slot = b.slot) : a.prevout = b.prevout := by
  obtain ⟨hh, hn⟩ := Prod.mk.inj h
  cases ha : a.prevout
  cases hb : b.prevout
  simp only [ha, hb] at hh hn
  rw [hh, hn]

theorem slots_nodup {tx : CTransaction} (h : tx.CheckTransaction = true) : tx.slots.Nodup := by
  simp only [CTransaction.CheckTransaction, Bool.and_eq_true, decide_eq_true_eq] at h
  have hprevouts : (tx.vin.map CTxIn.prevout).Nodup := h.1.2
  unfold CTransaction.slots
  split
  · exact List.nodup_nil
  · have hpair := List.pairwise_map.mp hprevouts
    refine List.pairwise_map.mpr (hpair.imp fun hne heq => ?_)
    exact hne (slot_injective heq)

/-! ## One spend for each creation -/

/-- In any run of connected blocks, an input that names an output of positive value finds its slot
empty, is the only one of its transaction to name it, and comes after a new creation of the
spent transaction if any earlier input of the run named that output. -/
theorem positive_output_spent_once {T T' : TxIndexMap} {pre post : List ConnectCall}
    {c : ConnectCall} (h : ConnectRun env T (pre ++ c :: post) T')
    {xs ys : List (Ledger.Item uint256 CDiskTxPos)} {i : Ledger.Item uint256 CDiskTxPos}
    (hi : c.items env = xs ++ i :: ys) {o : uint256 × ℕ} (ho : o ∈ i.inputs) {v : ℤ}
    (hv : outputValue c.view (Ledger.applyAll (ledgerOf T) (itemsOf env pre ++ xs)) o = some v)
    (hpos : 0 < v) :
    ¬ Ledger.Spent (Ledger.applyAll (ledgerOf T) (itemsOf env pre ++ xs)) o ∧
      i.inputs.Nodup ∧
      ∀ us j vs, itemsOf env pre ++ xs = us ++ j :: vs → o ∈ j.inputs →
        o.1 ∈ Ledger.ids (j :: vs) := by
  obtain ⟨T₁, hpre, hrest⟩ := connectRun_append env h
  cases hrest with
  | cons hconnect hpost =>
      obtain ⟨hcheck, -, halong, -⟩ := connectBlock_ok env hconnect
      have hT₁ := connectRun_applyAll env hpre
      rw [ConnectCall.items] at hi
      rw [hi] at halong
      have haccepts := Ledger.along_middle halong
      rw [hT₁, ← Ledger.applyAll_append] at haccepts
      have hempty := haccepts.unspent o ho v hv hpos
      refine ⟨hempty, ?_, ?_⟩
      · have hmem : i ∈ c.block.items env c.pindex := hi ▸ by simp
        obtain ⟨p, hp, rfl⟩ := List.mem_map.mp hmem
        have htx : p.2 ∈ c.block.vtx := by
          rw [← positions_map_snd c.block c.pindex]
          exact List.mem_map_of_mem hp
        exact slots_nodup (checkBlock_checkTransaction env hcheck p.2 htx)
      · intro us j vs hsplit hj
        have hfinds : Ledger.Along Ledger.Finds (ledgerOf T) (itemsOf env pre ++ xs) := by
          rw [Ledger.along_append]
          refine ⟨connectRun_finds env hpre, ?_⟩
          rw [← hT₁]
          exact Ledger.along_mono (fun _ _ ha => ha.finds) (Ledger.along_append.mp halong).1
        rw [hsplit] at hfinds hempty
        exact Ledger.made_again_of_not_spent hfinds hj hempty

namespace Scenario

/-- The block in which the worthless output is made; it also spends the first reward. -/
def makesWorthless : Mining := ⟨10000, 11000, 1, [payTo (625 * COIN)], [worthless, firstSpender]⟩

def nextCall (node : Node) (m : Mining) : ConnectCall :=
  ⟨(stored node (nextBlock node m)).1.view io, node.toGlobals, (stored node (nextBlock node m)).2,
    nextBlock node m⟩

def firstRewardSpent : Bool :=
  match afterBlocks (firstBlocks 10) with
  | .error _ => false
  | .ok node =>
    match connectNext node makesWorthless with
    | .error _ => false
    | .ok _ =>
      match (nextCall node makesWorthless).items (timed testNet) with
      | [a, i, _] =>
        decide ((999, 0) ∈ i.inputs) &&
          decide (outputValue (nextCall node makesWorthless).view
            (Ledger.applyAll (ledgerOf node.txdb.txindex) [a]) (999, 0) = some (625 * COIN))
      | _ => false

end Scenario

open Scenario in
/-- The rule at the input of the scenario that spends the first reward of 625 coins. -/
theorem positive_output_spent_once_firstReward :
    ∃ (node : Node) (T' : TxIndexMap) (c : ConnectCall)
      (a i b : Ledger.Item uint256 CDiskTxPos),
      ConnectRun (timed testNet) node.txdb.txindex [c] T' ∧
        c.items (timed testNet) = [a, i, b] ∧ (999, 0) ∈ i.inputs ∧
        ¬ Ledger.Spent (Ledger.applyAll (ledgerOf node.txdb.txindex) [a]) (999, 0) ∧
        i.inputs.Nodup ∧
        ∀ us j vs, [a] = us ++ j :: vs → (999, 0) ∈ j.inputs → 999 ∈ Ledger.ids (j :: vs) := by
  have htest : firstRewardSpent = true := by decide +kernel
  unfold firstRewardSpent at htest
  split at htest
  · simp at htest
  rename_i node hnode
  split at htest
  · simp at htest
  rename_i r hconnect
  split at htest
  · rename_i a i b hitems
    simp only [Bool.and_eq_true, decide_eq_true_eq] at htest
    have hrun : ConnectRun (timed testNet) node.txdb.txindex
        ([] ++ nextCall node makesWorthless :: []) r.1 :=
      .cons hconnect (.nil _)
    have hsplit : (nextCall node makesWorthless).items (timed testNet) = [a] ++ i :: [b] := hitems
    obtain ⟨hempty, hnodup, hearlier⟩ := positive_output_spent_once (timed testNet) hrun hsplit
      htest.1 htest.2 (by decide)
    exact ⟨node, r.1, _, a, i, b, hrun, hitems, htest.1, hempty, hnodup, hearlier⟩
  · simp at htest

namespace Scenario

def worthlessSpentTwice : Bool :=
  match afterBlocks spentOnce with
  | .error _ => false
  | .ok node =>
    match connectNext node spentTwice with
    | .error _ => false
    | .ok (T', _) =>
      match node.txdb.txindex 10900, T' 10900 with
      | some txindex, some txindex' =>
        match txindex.vSpent[0]?, txindex'.vSpent[0]? with
        | some (some pos), some (some pos') => decide (pos ≠ pos')
        | _, _ => false
      | _, _ => false

end Scenario

open Scenario in
/-- An output without value that one transaction of the active chain has spent is spent by another
one, whose position takes the place of the first. -/
theorem worthless_output_spent_twice :
    ∃ node T' g' txindex txindex' pos pos', afterBlocks spentOnce = .ok node ∧
      connectNext node spentTwice = .ok (T', g') ∧
      firstSpender.vin.head?.map CTxIn.prevout = secondSpender.vin.head?.map CTxIn.prevout ∧
      node.txdb.txindex 10900 = some txindex ∧ txindex.vSpent[0]? = some (some pos) ∧
      T' 10900 = some txindex' ∧ txindex'.vSpent[0]? = some (some pos') ∧ pos ≠ pos' := by
  have htest : worthlessSpentTwice = true := by decide +kernel
  unfold worthlessSpentTwice at htest
  split at htest
  · simp at htest
  rename_i node hnode
  split at htest
  · simp at htest
  rename_i T' g' hconnect
  split at htest
  · rename_i txindex txindex' h h'
    split at htest
    · rename_i pos pos' hpos hpos'
      exact ⟨node, T', g', txindex, txindex', pos, pos', hnode, hconnect, by decide, h, hpos, h',
        hpos', of_decide_eq_true htest⟩
    · simp at htest
  · simp at htest

end Dions
