import Dions.Library.Ledger
import Dions.Model.Connect

/-! # The transaction index as a ledger

An index entry is a ledger entry, a transaction at its position is an item, and the overlay of a
block laid over the index is the ledger the next transaction finds. `ConnectBlock` then applies
the items of the block, and `DisconnectBlock` undoes them. -/

namespace Dions

open Halting

variable (env : Env)
variable {queued queued' txdb : TxIndexMap} {tx : CTransaction} {pindex : CBlockIndex}
variable {files : BlockFile} {mempool : CTxMemPool} {pos : CDiskTxPos} {flags : ℕ} {g g' : Globals}

/-! ## The correspondence -/

def CTxIndex.entry (txindex : CTxIndex) : Ledger.Entry CDiskTxPos := ⟨txindex.pos, txindex.vSpent⟩

def ledgerOf (txdb : TxIndexMap) : Ledger uint256 CDiskTxPos := fun hash =>
  (txdb hash).map CTxIndex.entry

def CTxIn.slot (txin : CTxIn) : uint256 × ℕ := (txin.prevout.hash, txin.prevout.n)

def CTransaction.slots (tx : CTransaction) : List (uint256 × ℕ) :=
  if tx.IsCoinBase then [] else tx.vin.map CTxIn.slot

def txItem (p : CDiskTxPos × CTransaction) : Ledger.Item uint256 CDiskTxPos :=
  ⟨p.2.GetHash env, p.1, p.2.slots, p.2.vout.length⟩

def CBlock.items (block : CBlock) (pindex : CBlockIndex) :
    List (Ledger.Item uint256 CDiskTxPos) :=
  (block.positions pindex).map (txItem env)

theorem entry_injective : Function.Injective CTxIndex.entry := by
  rintro ⟨p, s⟩ ⟨p', s'⟩ h
  simp only [CTxIndex.entry, Ledger.Entry.mk.injEq] at h
  rw [h.1, h.2]

theorem ledgerOf_injective : Function.Injective ledgerOf := by
  intro T T' h
  funext hash
  exact Option.map_injective entry_injective (congrFun h hash)

@[simp] theorem entry_unspend (e : CTxIndex) (n : ℕ) :
    (e.unspend n).entry = e.entry.setSlot n none := rfl

@[simp] theorem entry_spend (e : CTxIndex) (n : ℕ) (pos : CDiskTxPos) :
    (e.spend n pos).entry = e.entry.setSlot n (some pos) := rfl

@[simp] theorem entry_new (pos : CDiskTxPos) (n : ℕ) :
    (CTxIndex.new pos n).entry = .new pos n := rfl

theorem ledgerOf_update (T : TxIndexMap) (hash : uint256) (e : Option CTxIndex) :
    ledgerOf (Function.update T hash e) =
      Function.update (ledgerOf T) hash (e.map CTxIndex.entry) := by
  funext h
  by_cases hh : h = hash
  · rw [hh]
    simp [ledgerOf]
  · simp [ledgerOf, Function.update_of_ne hh]

theorem writeQueued_update (txdb queued : TxIndexMap) (hash : uint256) (e : CTxIndex) :
    writeQueued txdb (Function.update queued hash (some e)) =
      Function.update (writeQueued txdb queued) hash (some e) := by
  funext h
  by_cases hh : h = hash
  · rw [hh]
    simp [writeQueued]
  · simp [writeQueued, Function.update_of_ne hh]

@[simp] theorem writeQueued_none (txdb : TxIndexMap) : writeQueued txdb (fun _ => none) = txdb :=
  rfl

/-- The value of an output as the checks read it: behind the entry of its transaction. -/
def outputValue (view : View) (L : Ledger uint256 CDiskTxPos) (o : uint256 × ℕ) : Option ℤ :=
  (L o.1).bind fun e =>
    (readPrev view.files view.mempool o.1 e.place).bind fun txPrev =>
      (txPrev.vout[o.2]?).map CTxOut.nValue

/-- What the checks of a transaction leave to rely on: its slots exist, and none that stands for
a positive value is spent. -/
structure Accepts (view : View) (L : Ledger uint256 CDiskTxPos)
    (i : Ledger.Item uint256 CDiskTxPos) : Prop where
  finds : Ledger.Finds L i
  unspent : ∀ o ∈ i.inputs, ∀ v, outputValue view L o = some v → 0 < v → ¬ Ledger.Spent L o

/-! ## FetchInputs -/

/-- In a block an input is found in the overlay over the index. -/
theorem fetchPrev_inChain {hash : uint256} {e : CTxIndex} {txPrev : CTransaction}
    (h : fetchPrev files mempool txdb queued true hash = some (e, txPrev)) :
    writeQueued txdb queued hash = some e ∧ readPrev files mempool hash e.pos = some txPrev := by
  have hfound : (if true && (queued hash).isSome then queued hash else txdb hash) =
      writeQueued txdb queued hash := by
    cases hq : queued hash <;> simp [writeQueued, hq]
  simp only [fetchPrev, hfound] at h
  split at h
  · rename_i e' he'
    obtain ⟨p, hp, heq⟩ := Option.map_eq_some_iff.mp h
    obtain ⟨rfl, rfl⟩ := Prod.mk.inj heq
    exact ⟨he', hp⟩
  · simp at h

theorem fetchLoop_forall {inChain : Bool} {P : uint256 → CTxIndex × CTransaction → Prop}
    (hP : ∀ h p, fetchPrev files mempool txdb queued inChain h = some p → P h p) {vin : List CTxIn}
    {inputs inputs' : MapPrevTx}
    (hfetch : fetchLoop files mempool txdb queued inChain vin inputs = some inputs')
    (hinputs : ∀ h p, inputs h = some p → P h p) : ∀ h p, inputs' h = some p → P h p := by
  induction vin generalizing inputs with
  | nil =>
      simp only [fetchLoop, Option.some.injEq] at hfetch
      exact hfetch ▸ hinputs
  | cons txin vin ih =>
      simp only [fetchLoop] at hfetch
      split at hfetch
      · exact ih hfetch hinputs
      · split at hfetch
        · simp at hfetch
        · rename_i prev hprev
          refine ih hfetch fun h p hp => ?_
          by_cases hh : h = txin.prevout.hash
          · subst hh
            rw [Function.update_self, Option.some.injEq] at hp
            exact hp ▸ hP _ _ hprev
          · rw [Function.update_of_ne hh] at hp
            exact hinputs h p hp

/-- The entries of fetched inputs are those of the overlay over the index. -/
def Fetched (view : View) (T : TxIndexMap) (inputs : MapPrevTx) : Prop :=
  ∀ hash e txPrev, inputs hash = some (e, txPrev) →
    T hash = some e ∧ readPrev view.files view.mempool hash e.pos = some txPrev

theorem fetchInputs_ok {view : View} {inputs : MapPrevTx} (hcb : tx.IsCoinBase = false)
    (h : tx.FetchInputs view.files view.mempool txdb queued true false = .ok inputs) :
    Fetched view (writeQueued txdb queued) inputs ∧
      ∀ txin ∈ tx.vin, prevoutInRange inputs txin = true := by
  simp only [CTransaction.FetchInputs, hcb, Bool.false_eq_true, if_false, Bool.true_or] at h
  split at h
  · simp at h
  · rename_i inputs' hloop
    split at h
    · rename_i hrange
      simp only [Except.ok.injEq] at h
      subst h
      refine ⟨?_, fun txin hmem => List.all_eq_true.mp hrange txin hmem⟩
      have hall : ∀ hash p, inputs' hash = some p → writeQueued txdb queued hash = some p.1 ∧
          readPrev view.files view.mempool hash p.1.pos = some p.2 :=
        fetchLoop_forall (fun hash p hp => fetchPrev_inChain hp) hloop (by simp)
      exact fun hash e txPrev he => hall hash (e, txPrev) he
    · simp at h

theorem prevoutInRange_iff {inputs : MapPrevTx} {txin : CTxIn} :
    prevoutInRange inputs txin = true ↔ ∃ e txPrev, inputs txin.prevout.hash = some (e, txPrev) ∧
      txin.prevout.n < txPrev.vout.length ∧ txin.prevout.n < e.vSpent.length := by
  unfold prevoutInRange
  cases hin : inputs txin.prevout.hash with
  | none => simp
  | some p =>
      obtain ⟨e, txPrev⟩ := p
      simp only [Bool.and_eq_true, decide_eq_true_eq, Option.some.injEq, Prod.mk.injEq]
      constructor
      · intro h
        exact ⟨e, txPrev, ⟨rfl, rfl⟩, h⟩
      · rintro ⟨e', txPrev', ⟨rfl, rfl⟩, h⟩
        exact h

/-! ## Spending the inputs -/

/-- The second loop of `ConnectInputs` in a block: it marks exactly the slots of the inputs, and
finds no spent slot under an output of positive value. -/
theorem spendInputs_ok {view : View} {fMiner : Bool} {vin : List CTxIn} {k : ℕ} {inputs : MapPrevTx}
    (hin : Fetched view (writeQueued txdb queued) inputs)
    (h : spendInputs env view tx pos true fMiner flags vin k inputs queued = .ok queued') :
    ledgerOf (writeQueued txdb queued') =
        Ledger.setSlots (ledgerOf (writeQueued txdb queued)) (vin.map CTxIn.slot) (some pos) ∧
      ∀ txin ∈ vin, ∀ v, outputValue view (ledgerOf (writeQueued txdb queued)) txin.slot = some v →
        0 < v → ¬ Ledger.Spent (ledgerOf (writeQueued txdb queued)) txin.slot := by
  induction vin generalizing k inputs queued with
  | nil =>
      simp only [spendInputs, Except.ok.injEq] at h
      subst h
      exact ⟨rfl, by simp⟩
  | cons txin vin ih =>
      simp only [spendInputs] at h
      split at h
      · simp at h
      rename_i e txPrev he
      obtain ⟨hT, hread⟩ := hin _ _ _ he
      simp only [seq_ok, access_eq_ok, require_eq_ok, Bool.true_or, if_true] at h
      obtain ⟨spent, hspent, txout, htxout, _, hguard, _, _, h⟩ := h
      -- marking one slot keeps the fetched entries equal to those of the overlay
      have hstep : writeQueued txdb (Function.update queued txin.prevout.hash
            (some (e.spend txin.prevout.n pos))) =
          Function.update (writeQueued txdb queued) txin.prevout.hash
            (some (e.spend txin.prevout.n pos)) := writeQueued_update _ _ _ _
      have hin' : Fetched view (writeQueued txdb (Function.update queued txin.prevout.hash
            (some (e.spend txin.prevout.n pos))))
          (Function.update inputs txin.prevout.hash
            (some (e.spend txin.prevout.n pos, txPrev))) := by
        intro hash e' tx' he'
        rw [hstep]
        by_cases hh : hash = txin.prevout.hash
        · subst hh
          rw [Function.update_self, Option.some.injEq, Prod.mk.injEq] at he'
          obtain ⟨rfl, rfl⟩ := he'
          exact ⟨by rw [Function.update_self], hread⟩
        · rw [Function.update_of_ne hh] at he' ⊢
          exact hin _ _ _ he'
      obtain ⟨hL, hrest⟩ := ih hin' h
      have hledger : ledgerOf (writeQueued txdb (Function.update queued txin.prevout.hash
            (some (e.spend txin.prevout.n pos)))) =
          Ledger.setSlot (ledgerOf (writeQueued txdb queued)) txin.slot (some pos) := by
        rw [hstep, ledgerOf_update]
        have hE : ledgerOf (writeQueued txdb queued) txin.prevout.hash = some e.entry := by
          simp [ledgerOf, hT]
        simp [Ledger.setSlot, CTxIn.slot, hE]
      refine ⟨?_, ?_⟩
      · rw [hL, hledger]
        rfl
      · intro txin' hmem v hv hpos hsp
        rcases List.mem_cons.mp hmem with rfl | hmem
        · obtain ⟨e', p, he', hp⟩ := hsp
          have hE : ledgerOf (writeQueued txdb queued) txin'.slot.1 = some e.entry := by
            simp [ledgerOf, CTxIn.slot, hT]
          rw [hE, Option.some.injEq] at he'
          subst he'
          have hsome : spent = some p := by
            have : e.vSpent[txin'.prevout.n]? = some (some p) := hp
            rw [hspent, Option.some.injEq] at this
            exact this
          have hval : outputValue view (ledgerOf (writeQueued txdb queued)) txin'.slot =
              some txout.nValue := by
            simp only [outputValue, hE, Option.bind_some]
            simp [CTxIn.slot, CTxIndex.entry, hread, htxout]
          rw [hval, Option.some.injEq] at hv
          exact hguard ⟨by simp [hsome], hv ▸ hpos⟩
        · -- the slot was spent before the tx started, so it is spent at its own check too
          refine hrest txin' hmem v ?_ hpos ?_
          · rw [hledger]
            simp only [outputValue, Ledger.setSlot_apply] at hv ⊢
            split
            · cases hE : ledgerOf (writeQueued txdb queued) txin'.slot.1 with
              | none => simp [hE] at hv
              | some e' => simpa [hE] using hv
            · exact hv
          · rw [hledger]
            exact (Ledger.spent_setSlots hsp :
              Ledger.Spent (Ledger.setSlots _ [txin.slot] (some pos)) txin'.slot)

/-- `ConnectInputs` in a block, whatever comes after the two loops. -/
theorem connectInputs_ok {view : View} {pindex : Option CBlockIndex} {inputs : MapPrevTx}
    (hcb : tx.IsCoinBase = false)
    (h : tx.ConnectInputs env view g inputs queued pos pindex true false flags =
      .ok (queued', g')) :
    spendInputs env view tx pos true false flags tx.vin 0 inputs queued = .ok queued' := by
  simp only [CTransaction.ConnectInputs, hcb, Bool.false_eq_true, if_false, seq_ok,
    within_eq_ok] at h
  obtain ⟨t, _, queued₁, hspend, h⟩ := h
  split at h
  · simp only [Except.ok.injEq, Prod.mk.injEq] at h
    rw [← h.1]
    exact hspend
  · simp only [seq_ok, within_eq_ok, Except.ok.injEq, Prod.mk.injEq] at h
    obtain ⟨_, _, _, _, _, _, _, _, _, _, _, _, rfl, _⟩ := h
    exact hspend

/-! ## One transaction, the loop, the block -/

theorem connectTx_ok {view : View} {t t' : Tally}
    (h : connectTx env view txdb pindex pos queued g t tx = .ok (queued', g', t')) :
    overwritesUnspent txdb (tx.GetHash env) = false ∧
      Accepts view (ledgerOf (writeQueued txdb queued)) (txItem env (pos, tx)) ∧
      ledgerOf (writeQueued txdb queued') =
        Ledger.apply (ledgerOf (writeQueued txdb queued)) (txItem env (pos, tx)) := by
  simp only [connectTx, seq_ok, within_eq_ok, require_eq_ok] at h
  obtain ⟨_, hover, _, _, h⟩ := h
  refine ⟨hover, ?_⟩
  split at h
  · rename_i hcb
    simp only [seq_ok, within_eq_ok, Except.ok.injEq, Prod.mk.injEq] at h
    obtain ⟨_, _, rfl, _⟩ := h
    have hslots : (txItem env (pos, tx)).inputs = [] := by simp [txItem, CTransaction.slots, hcb]
    refine ⟨⟨by simp [Ledger.Finds, hslots], by simp [hslots]⟩, ?_⟩
    rw [writeQueued_update, ledgerOf_update, Ledger.apply, hslots]
    rfl
  · rename_i hcb
    have hcb' : tx.IsCoinBase = false := by simpa using hcb
    split at h
    · simp at h
    rename_i inputs hfetch
    simp only [seq_ok, within_eq_ok, require_eq_ok, Except.ok.injEq, Prod.mk.injEq] at h
    obtain ⟨_, _, _, _, _, _, _, _, ⟨queued₁, g₁⟩, hconnect, rfl, _⟩ := h
    obtain ⟨hfetched, hrange⟩ := fetchInputs_ok hcb' hfetch
    obtain ⟨hL, hguard⟩ := spendInputs_ok env hfetched (connectInputs_ok env hcb' hconnect)
    have hslots : (txItem env (pos, tx)).inputs = tx.vin.map CTxIn.slot := by
      simp [txItem, CTransaction.slots, hcb']
    refine ⟨⟨?_, ?_⟩, ?_⟩
    · intro o ho
      rw [hslots] at ho
      obtain ⟨txin, hmem, rfl⟩ := List.mem_map.mp ho
      obtain ⟨e, txPrev, he, _, hlt⟩ := prevoutInRange_iff.mp (hrange txin hmem)
      refine ⟨e.entry, ?_, hlt⟩
      simp [ledgerOf, CTxIn.slot, (hfetched _ _ _ he).1]
    · intro o ho
      rw [hslots] at ho
      obtain ⟨txin, hmem, rfl⟩ := List.mem_map.mp ho
      exact hguard txin hmem
    · rw [writeQueued_update, ledgerOf_update, hL, Ledger.apply, hslots]
      rfl

theorem connectLoop_ok {view : View} {rest : List (CDiskTxPos × CTransaction)} {t t' : Tally}
    (h : connectLoop env view txdb pindex rest queued g t = .ok (queued', g', t')) :
    (∀ p ∈ rest, overwritesUnspent txdb (p.2.GetHash env) = false) ∧
      Ledger.Along (Accepts view) (ledgerOf (writeQueued txdb queued)) (rest.map (txItem env)) ∧
      ledgerOf (writeQueued txdb queued') =
        Ledger.applyAll (ledgerOf (writeQueued txdb queued)) (rest.map (txItem env)) := by
  induction rest generalizing queued g t with
  | nil =>
      simp only [connectLoop, Except.ok.injEq, Prod.mk.injEq] at h
      obtain ⟨rfl, _⟩ := h
      exact ⟨by simp, trivial, rfl⟩
  | cons p rest ih =>
      obtain ⟨pos, tx⟩ := p
      simp only [connectLoop, seq_ok] at h
      obtain ⟨⟨queued₁, g₁, t₁⟩, hone, hrest⟩ := h
      obtain ⟨hover, haccepts, hL⟩ := connectTx_ok env hone
      obtain ⟨hovers, halong, hL'⟩ := ih hrest
      rw [hL] at halong hL'
      refine ⟨?_, ⟨haccepts, halong⟩, hL'⟩
      intro p hp
      rcases List.mem_cons.mp hp with rfl | hp
      · exact hover
      · exact hovers p hp

theorem txPositions_map_snd (nFile nBlockPos nTxPos : ℕ) (vtx : List CTransaction) :
    (txPositions nFile nBlockPos nTxPos vtx).map Prod.snd = vtx := by
  induction vtx generalizing nTxPos with
  | nil => rfl
  | cons tx vtx ih => simp [txPositions, ih]

theorem positions_map_snd (block : CBlock) (pindex : CBlockIndex) :
    (block.positions pindex).map Prod.snd = block.vtx :=
  txPositions_map_snd _ _ _ _

theorem ids_items (block : CBlock) (pindex : CBlockIndex) :
    Ledger.ids (block.items env pindex) = block.vtx.map (CTransaction.GetHash env) := by
  conv_rhs => rw [← positions_map_snd block pindex]
  simp [Ledger.ids, CBlock.items, txItem]

/-- Connecting a block applies its items to the index. -/
theorem connectBlock_ok {view : View} {T T' : TxIndexMap} {block : CBlock}
    (h : block.ConnectBlock env view T g pindex = .ok (T', g')) :
    block.CheckBlock env true true false = true ∧
      (∀ tx ∈ block.vtx, overwritesUnspent T (tx.GetHash env) = false) ∧
      Ledger.Along (Accepts view) (ledgerOf T) (block.items env pindex) ∧
      ledgerOf T' = Ledger.applyAll (ledgerOf T) (block.items env pindex) := by
  simp only [CBlock.ConnectBlock, seq_ok, within_eq_ok, require_eq_ok, Except.ok.injEq,
    Prod.mk.injEq] at h
  obtain ⟨_, hcheck, ⟨queued, g₁, t⟩, hloop, _, _, rfl, _⟩ := h
  obtain ⟨hover, halong, hL⟩ := connectLoop_ok env hloop
  refine ⟨hcheck, ?_, halong, hL⟩
  intro tx hmem
  obtain ⟨p, hp, rfl⟩ := List.mem_map.mp ((positions_map_snd block pindex).symm ▸ hmem)
  exact hover p hp

end Dions
