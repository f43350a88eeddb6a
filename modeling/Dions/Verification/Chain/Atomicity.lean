import Dions.Verification.Chain.BestChain

/-! # Failed calls

A call that fails while it connects blocks takes back the index, the pointers, the links, the
memory pool and the alias database. `mapState` is a global: what `ConnectInputsPost` has erased
from it by then stays erased. -/

namespace Dions

open Halting

variable (env : Env)
variable {g : Globals} {m : PendingMap} {node : Node} {pindexNew : CBlockIndex}
variable {block : CBlock}

/-! ## What ConnectInputsPost erases -/

/-- The name and the hash that `ConnectInputsPost` takes out of `mapState` for a transaction of a
block. -/
def pendingKey (tx : CTransaction) : Option (vchType × uint256) :=
  if tx.nVersion = CTransaction.DION_TX_VERSION ∧
      (aliasTx tx).op.getD 0 ≠ OP_ALIAS_ENCRYPTED then
    (aliasTx tx).vvch[0]?.map fun name => (name, tx.GetHash env)
  else none

def erasePending (m : PendingMap) (tx : CTransaction) : PendingMap :=
  match pendingKey env tx with
  | none => m
  | some (name, hash) => m.erase name hash

/-- The hash of the transaction is pending under its name. -/
def IsPending (m : PendingMap) (tx : CTransaction) : Prop :=
  ∃ name hash s, pendingKey env tx = some (name, hash) ∧ m name = some s ∧ hash ∈ s

/-! ### The transactions that get that far -/

/-- `ConnectInputs` in a block up to the end of `ConnectInputsPost`, where a coinbase and a coin
stake never come. -/
def CTransaction.connectInputsToPost (view : View) (g : Globals) (inputs : MapPrevTx)
    (mapTestPool : TxIndexMap) (posThisTx : CDiskTxPos) (pindexBlock : Option CBlockIndex)
    (flags : ℕ) (tx : CTransaction) : Halt Globals Globals :=
  if tx.IsCoinBase then .error (.reject, g)
  else do
    let t ← (inputChecks env inputs pindexBlock tx.nTime tx.vin ⟨0, [], []⟩).within g
    let mapTestPool ←
      (spendInputs env view tx posThisTx true false flags tx.vin 0 inputs mapTestPool).within g
    if tx.IsCoinStake then .error (.reject, g)
    else do
      let nValueOut ← tx.GetValueOut.within g
      (require (nValueOut ≤ t.nValueIn)).within g
      ConnectInputsPost env view g mapTestPool tx t.vTxPrev t.vTxindex pindexBlock true false

/-- One round of `ConnectBlock` up to the end of `ConnectInputsPost`. -/
def connectTxToPost (view : View) (txdb : TxIndexMap) (pindex : CBlockIndex)
    (posThisTx : CDiskTxPos) (queued : TxIndexMap) (g : Globals) (t : Tally) (tx : CTransaction) :
    Halt Globals Globals := do
  (require (overwritesUnspent txdb (tx.GetHash env) = false)).within g
  let nSigOps := t.nSigOps + tx.GetLegacySigOpCount
  (require (nSigOps ≤ MAX_BLOCK_SIGOPS)).within g
  if tx.IsCoinBase then .error (.reject, g)
  else
    match tx.FetchInputs view.files view.mempool txdb queued true false with
    | .error _ => .error (.reject, g)
    | .ok inputs => do
      let p2sh ← (tx.GetP2SHSigOpCount inputs).within g
      (require (nSigOps + p2sh ≤ MAX_BLOCK_SIGOPS)).within g
      let _ ← (tx.GetValueIn inputs).within g
      let _ ← tx.GetValueOut.within g
      tx.connectInputsToPost env view g inputs queued posThisTx (some pindex)
        (scriptFlags env pindex.nHeight)

/-- The transactions of a block for which `ConnectInputsPost` succeeds before `ConnectBlock`
returns, whatever it returns. -/
def postedLoop (view : View) (txdb : TxIndexMap) (pindex : CBlockIndex) :
    List (CDiskTxPos × CTransaction) → TxIndexMap → Globals → Tally → List CTransaction
  | [], _, _, _ => []
  | (pos, tx) :: rest, queued, g, t =>
    (match connectTxToPost env view txdb pindex pos queued g t tx with
      | .ok _ => [tx]
      | .error _ => []) ++
    match connectTx env view txdb pindex pos queued g t tx with
    | .ok (queued, g, t) => postedLoop view txdb pindex rest queued g t
    | .error _ => []

def CBlock.posted (view : View) (txdb : TxIndexMap) (g : Globals) (pindex : CBlockIndex)
    (block : CBlock) : List CTransaction :=
  if block.CheckBlock env true true false = true then
    postedLoop env view txdb pindex (block.positions pindex) (fun _ => none) g ⟨0, 0, 0, 0, 0⟩
  else []

/-- What is posted in the blocks of a branch, up to the one that fails. -/
def postedBranch (view : View) : List CBlockIndex → TxIndexMap → Globals → List CTransaction
  | [], _, _ => []
  | pindex :: rest, T, g =>
    match view.files.ReadFromDisk env pindex with
    | none => []
    | some block =>
      block.posted env view T g pindex ++
        match block.ConnectBlock env view T g pindex with
        | .ok (T, g) => postedBranch view rest T g
        | .error _ => []

@[simp] theorem postedBranch_nil (view : View) (T : TxIndexMap) (g : Globals) :
    postedBranch env view [] T g = [] := rfl

theorem postedBranch_cons (view : View) (pindex : CBlockIndex) (rest : List CBlockIndex) (T : TxIndexMap)
    (g : Globals) :
    postedBranch env view (pindex :: rest) T g = match view.files.ReadFromDisk env pindex with
      | none => []
      | some block => block.posted env view T g pindex ++
        match block.ConnectBlock env view T g pindex with
        | .ok (T, g) => postedBranch env view rest T g
        | .error _ => [] := rfl

/-! ### The map left behind -/

theorem final_mapState {α : Type} {x : Exec α} {next : α → Halt Globals Globals}
    (hg : g.mapState = m) (hnext : ∀ a, (next a).final.mapState = m) :
    (x.within g >>= next).final.mapState = m := by
  cases x with
  | error e => exact hg
  | ok a => exact hnext a

theorem connectInputsSwitch_mapState (g : Globals) (pool : TxIndexMap) (tx : CTransaction)
    (prev : PrevAlias) (vTxindex : List CTxIndex) (pindexBlock : Option CBlockIndex)
    (fBlock : Bool) (op : ℕ) (args : List vchType) :
    (connectInputsSwitch env g pool tx prev vTxindex pindexBlock fBlock false op
      args).final.mapState = g.mapState := by
  unfold connectInputsSwitch
  split
  · refine final_mapState rfl fun _ => final_mapState rfl fun _ => final_mapState rfl fun _ => ?_
    split <;> rfl
  · split
    · exact final_mapState rfl fun _ => rfl
    · split
      · exact final_mapState rfl fun _ => rfl
      · split
        · exact final_mapState rfl fun _ => rfl
        · split
          · exact final_mapState rfl fun _ => final_mapState rfl fun _ => final_mapState rfl
              fun _ => rfl
          · split
            · exact final_mapState rfl fun _ => final_mapState rfl fun _ => final_mapState rfl
                fun _ => rfl
            · rfl

/-- In a block `ConnectInputsPost` erases the pending transaction when it succeeds, and changes
nothing of `mapState` when it does not. -/
theorem connectInputsPost_mapState (view : View) (g : Globals) (pool : TxIndexMap)
    (tx : CTransaction) (vTxPrev : List CTransaction) (vTxindex : List CTxIndex)
    (pindexBlock : Option CBlockIndex) :
    let r := ConnectInputsPost env view g pool tx vTxPrev vTxindex pindexBlock true false
    r.final.mapState = if r.isOk then erasePending env g.mapState tx else g.mapState := by
  intro r
  cases hr : r with
  | ok g' =>
      simp only [r, ConnectInputsPost] at hr
      simp only [Halt.final_ok, Except.isOk, Except.toBool, if_true]
      split at hr
      · rename_i hversion
        rw [← Except.ok.inj hr]
        simp [erasePending, pendingKey, hversion]
      · rename_i hversion
        simp only [seq_ok, within_eq_ok, require_eq_ok, read_eq_ok] at hr
        obtain ⟨_, _, prev, _, _, _, name, hname, _, _, g₁, hswitch, hr⟩ := hr
        have hsame := connectInputsSwitch_mapState env g pool tx prev vTxindex pindexBlock true
          ((aliasTx tx).op.getD 0) (aliasTx tx).vvch
        rw [hswitch, Halt.final_ok] at hsame
        simp only [Bool.not_true, Bool.false_eq_true, false_and, if_false, true_and] at hr
        split at hr
        · rename_i hop
          rw [← Except.ok.inj hr]
          simp [erasePending, pendingKey, not_not.mp hversion, hop, hname, hsame]
        · rename_i hop
          rw [← Except.ok.inj hr, hsame]
          simp [erasePending, pendingKey, not_not.mp hop]
  | error s =>
      obtain ⟨e, g'⟩ := s
      simp only [r, ConnectInputsPost] at hr
      simp only [Halt.final_error, Except.isOk, Except.toBool, Bool.false_eq_true, if_false]
      split at hr
      · simp at hr
      · simp only [seq_error, within_eq_error, within_eq_ok] at hr
        rcases hr with ⟨_, rfl⟩ | ⟨_, _, ⟨_, rfl⟩ | ⟨prev, _, ⟨_, rfl⟩ | ⟨_, _, ⟨_, rfl⟩ |
          ⟨_, _, ⟨_, rfl⟩ | ⟨_, _, hr⟩⟩⟩⟩⟩
        all_goals try rfl
        have hsame := connectInputsSwitch_mapState env g pool tx prev vTxindex pindexBlock true
          ((aliasTx tx).op.getD 0) (aliasTx tx).vvch
        rcases hr with hr | ⟨g₁, _, hr⟩
        · rwa [hr, Halt.final_error] at hsame
        · simp only [Bool.not_true, Bool.false_eq_true, false_and, if_false, true_and] at hr
          split at hr <;> simp at hr

variable {env} in
/-- A call leaves `mapState` without the transaction when the shorter call succeeds, and as it
was when that one fails. -/
def Erases (env : Env) (g : Globals) (tx : CTransaction) {α : Type} (part : α → Globals)
    (x : Halt Globals α) (y : Halt Globals Globals) : Prop :=
  (x.left part).mapState = if y.isOk then erasePending env g.mapState tx else g.mapState

variable {env} in
theorem Erases.within {tx : CTransaction} {α β : Type} {part : α → Globals} {z : Exec β}
    {x : β → Halt Globals α} {y : β → Halt Globals Globals}
    (h : ∀ b, Erases env g tx part (x b) (y b)) :
    Erases env g tx part (z.within g >>= x) (z.within g >>= y) := by
  cases z with
  | error e => rfl
  | ok b => exact h b

theorem connectInputs_erases (view : View) (g : Globals) (inputs : MapPrevTx) (queued : TxIndexMap)
    (pos : CDiskTxPos) (pindexBlock : Option CBlockIndex) (flags : ℕ) (tx : CTransaction) :
    Erases env g tx Prod.snd
      (tx.ConnectInputs env view g inputs queued pos pindexBlock true false flags)
      (tx.connectInputsToPost env view g inputs queued pos pindexBlock flags) := by
  unfold CTransaction.ConnectInputs CTransaction.connectInputsToPost
  split
  · rfl
  refine Erases.within fun c => Erases.within fun queued => ?_
  split
  · rfl
  refine Erases.within fun nValueOut => Erases.within fun _ => ?_
  have hpost := connectInputsPost_mapState env view g queued tx c.vTxPrev c.vTxindex pindexBlock
  simp only at hpost
  unfold Erases
  generalize ConnectInputsPost env view g queued tx c.vTxPrev c.vTxindex pindexBlock true false = y
    at hpost ⊢
  cases y with
  | error s => exact hpost
  | ok g' =>
      -- the fee is checked when the transaction has been erased already
      have hfee : ∀ (P Q R : Prop) [Decidable P] [Decidable Q] [Decidable R],
          Halt.left Prod.snd ((require P).within g' >>= fun _ => (require Q).within g' >>= fun _ =>
            (require R).within g' >>= fun _ => (.ok (queued, g') : Halt Globals
              (TxIndexMap × Globals))) = g' := by
        intro P Q R _ _ _
        by_cases hP : P <;> by_cases hQ : Q <;> by_cases hR : R <;> simp [require, hP, hQ, hR] <;> rfl
      exact (congrArg Globals.mapState (hfee _ _ _)).trans hpost

/-- One round of `ConnectBlock` erases its transaction exactly when `ConnectInputsPost` succeeds
for it, even if the round fails afterwards. -/
theorem connectTx_erases (view : View) (txdb : TxIndexMap) (pindex : CBlockIndex)
    (pos : CDiskTxPos) (queued : TxIndexMap) (g : Globals) (t : Tally) (tx : CTransaction) :
    Erases env g tx (fun r => r.2.1) (connectTx env view txdb pindex pos queued g t tx)
      (connectTxToPost env view txdb pindex pos queued g t tx) := by
  unfold connectTx connectTxToPost
  refine Erases.within fun _ => Erases.within fun _ => ?_
  split
  · cases tx.GetValueOut <;> rfl
  cases tx.FetchInputs view.files view.mempool txdb queued true false with
  | error e => rfl
  | ok inputs =>
  refine Erases.within fun _ => Erases.within fun _ => Erases.within fun _ => Erases.within
    fun _ => ?_
  have hinputs := connectInputs_erases env view g inputs queued pos (some pindex)
    (scriptFlags env pindex.nHeight) tx
  unfold Erases at hinputs ⊢
  rw [← hinputs]
  cases tx.ConnectInputs env view g inputs queued pos (some pindex) true false
    (scriptFlags env pindex.nHeight) <;> rfl

theorem connectLoop_mapState (view : View) (txdb : TxIndexMap) (pindex : CBlockIndex)
    (rest : List (CDiskTxPos × CTransaction)) (queued : TxIndexMap) (g : Globals) (t : Tally) :
    ((connectLoop env view txdb pindex rest queued g t).left fun r => r.2.1).mapState =
      (postedLoop env view txdb pindex rest queued g t).foldl (erasePending env) g.mapState := by
  induction rest generalizing queued g t with
  | nil => rfl
  | cons p rest ih =>
      obtain ⟨pos, tx⟩ := p
      have hone := connectTx_erases env view txdb pindex pos queued g t tx
      unfold Erases at hone
      simp only [connectLoop, postedLoop, List.foldl_append]
      generalize connectTxToPost env view txdb pindex pos queued g t tx = y at hone ⊢
      cases hx : connectTx env view txdb pindex pos queued g t tx with
      | error s =>
          rw [hx] at hone
          cases y <;> exact hone
      | ok r =>
          rw [hx, Halt.left_ok] at hone
          refine (ih r.1 r.2.1 r.2.2).trans ?_
          rw [hone]
          cases y <;> rfl

theorem connectBlock_mapState (view : View) (T : TxIndexMap) (g : Globals) (pindex : CBlockIndex)
    (block : CBlock) :
    ((block.ConnectBlock env view T g pindex).left Prod.snd).mapState =
      (block.posted env view T g pindex).foldl (erasePending env) g.mapState := by
  unfold CBlock.ConnectBlock CBlock.posted require
  split
  · have hloop := connectLoop_mapState env view T pindex (block.positions pindex) (fun _ => none) g
      ⟨0, 0, 0, 0, 0⟩
    rw [← hloop]
    cases connectLoop env view T pindex (block.positions pindex) (fun _ => none) g
        ⟨0, 0, 0, 0, 0⟩ with
    | error s => rfl
    | ok r =>
        obtain ⟨queued, g', t⟩ := r
        simp only [Exec.within, bind, Except.bind]
        cases checkReward env view T pindex block t <;> rfl
  · rfl

theorem connectBranch_mapState (view : View) (branch : List CBlockIndex) (T : TxIndexMap)
    (g : Globals) (vDelete : List CTransaction) :
    ((connectBranch env view branch T g vDelete).left fun r => r.2.1).mapState =
      (postedBranch env view branch T g).foldl (erasePending env) g.mapState := by
  induction branch generalizing T g vDelete with
  | nil => rfl
  | cons pindex rest ih =>
      rw [connectBranch, postedBranch_cons]
      cases view.files.ReadFromDisk env pindex with
      | none => rfl
      | some block =>
          have hblock := connectBlock_mapState env view T g pindex block
          simp only [List.foldl_append]
          rw [← hblock]
          cases block.ConnectBlock env view T g pindex with
          | error s => rfl
          | ok r => exact ih r.1 r.2 (vDelete ++ block.vtx)

/-! ### When nothing is erased -/

def Holds (m : PendingMap) (name : vchType) (hash : uint256) : Prop :=
  ∃ s, m name = some s ∧ hash ∈ s

theorem holds_erase {name name' : vchType} {hash hash' : uint256} :
    Holds (m.erase name hash) name' hash' ↔
      Holds m name' hash' ∧ ¬ (name' = name ∧ hash' = hash) := by
  unfold PendingMap.erase Holds
  cases hm : m name with
  | none =>
      constructor
      · rintro ⟨s, hs, hmem⟩
        refine ⟨⟨s, hs, hmem⟩, ?_⟩
        rintro ⟨rfl, -⟩
        simp [hm] at hs
      · exact fun h => h.1
  | some s =>
      by_cases hn : name' = name
      · subst hn
        simp [hm, and_comm]
      · simp [hn]

theorem erasePending_of_not {tx : CTransaction} (h : ¬ IsPending env m tx) :
    erasePending env m tx = m := by
  unfold erasePending
  split
  · rfl
  · rename_i name hash hkey
    unfold PendingMap.erase
    split
    · rfl
    · rename_i s hs
      have hnot : hash ∉ s := fun hmem => h ⟨name, hash, s, hkey, hs, hmem⟩
      rw [Finset.erase_eq_of_notMem hnot, ← hs, Function.update_eq_self]

/-- Erasing never makes a transaction pending. -/
theorem holds_foldl_erase {posted : List CTransaction} {name : vchType} {hash : uint256}
    (h : Holds (posted.foldl (erasePending env) m) name hash) : Holds m name hash := by
  induction posted generalizing m with
  | nil => exact h
  | cons tx posted ih =>
      have hone := ih h
      unfold erasePending at hone
      split at hone
      · exact hone
      · exact (holds_erase.mp hone).1

/-- Erasing transactions changes nothing exactly when none of them was pending. -/
theorem foldl_erase_eq_self_iff {posted : List CTransaction} :
    posted.foldl (erasePending env) m = m ↔ ∀ tx ∈ posted, ¬ IsPending env m tx := by
  induction posted with
  | nil => simp
  | cons tx posted ih =>
      rw [List.foldl_cons, List.forall_mem_cons]
      constructor
      · intro heq
        have hnot : ¬ IsPending env m tx := by
          rintro ⟨name, hash, s, hkey, hs, hmem⟩
          have hfinal : Holds (posted.foldl (erasePending env) (erasePending env m tx)) name hash := by
            rw [heq]
            exact ⟨s, hs, hmem⟩
          have hone := holds_foldl_erase env hfinal
          simp only [erasePending, hkey] at hone
          exact (holds_erase.mp hone).2 ⟨rfl, rfl⟩
        rw [erasePending_of_not env hnot] at heq
        exact ⟨hnot, ih.mp heq⟩
      · rintro ⟨hnot, hrest⟩
        rw [erasePending_of_not env hnot]
        exact ih.mpr hrest

/-! ## Failing calls -/

/-- Where a call fails: before anything is committed, after the given transactions have passed
`ConnectInputsPost`, or at a block postponed until after the reorganisation. -/
inductive Failure where
  | early (posted : List CTransaction)
  | postponed

/-- The calls of `SetBestChain` in which connecting a block fails. -/
inductive FailsAt (io : Io) (node : Node) (pindexNew : CBlockIndex) (block : CBlock) :
    Failure → Prop
  | tip {g : Globals} (htip : block.hashPrevBlock = node.hashBestChain)
      (hconnect : block.connectOn env io node pindexNew = .error (.reject, g)) :
      FailsAt io node pindexNew block
        (.early (block.posted env (node.view io) node.txdb.txindex node.toGlobals pindexNew))
  | branch {pindexBest pfork : CBlockIndex} {T : TxIndexMap} {vResurrect : List CTransaction}
      {g : Globals} (htip : block.hashPrevBlock ≠ node.hashBestChain)
      (hdis : Disconnects env io node (node.split pindexNew).1 pindexBest pfork T vResurrect)
      (hconnect : connectAbove env io node (node.split pindexNew).1 pfork T = .error (.reject, g)) :
      FailsAt io node pindexNew block
        (.early (postedBranch env (node.view io)
          (Lineage.above pfork (node.split pindexNew).1).reverse T node.toGlobals))
  | postponed {node₁ node₂ : Node} {xs ys : List CBlockIndex} {pindex : CBlockIndex}
      {failing : CBlock} {g : Globals} (htip : block.hashPrevBlock ≠ node.hashBestChain)
      (hreorganize : Reorganize env io node (node.split pindexNew).1 = .ok node₁)
      (hsplit : (node.split pindexNew).2 = xs ++ pindex :: ys)
      (hrun : PostponedRun env io node₁ xs node₂)
      (hread : (io.visible node₂.files).ReadFromDisk env pindex = some failing)
      (hconnect : failing.connectOn env io node₂ pindex = .error (.reject, g)) :
      FailsAt io node pindexNew block .postponed

/-- What a failed call is to leave as it was. -/
structure Node.Unchanged (a b : Node) : Prop where
  index : b.txdb.txindex = a.txdb.txindex
  pindexBest : b.pindexBest = a.pindexBest
  pnext : b.pnext = a.pnext
  mempool : b.mempool = a.mempool
  mapState : b.mapState = a.mapState
  aliases : b.ln1Db = a.ln1Db

/-- No block was postponed, and no transaction that passed was pending. -/
def Failure.Harmless (m : PendingMap) : Failure → Prop
  | .early posted => ∀ tx ∈ posted, ¬ IsPending env m tx
  | .postponed => False

variable {env}

theorem unchanged_setGlobals {posted : List CTransaction}
    (h : g.mapState = posted.foldl (erasePending env) node.mapState) :
    node.Unchanged (node.setGlobals g) ↔ (Failure.early posted).Harmless env node.mapState := by
  rw [Failure.Harmless, ← foldl_erase_eq_self_iff, ← h]
  exact ⟨fun hsame => hsame.mapState, fun hsame => ⟨rfl, rfl, rfl, rfl, hsame, rfl⟩⟩

theorem setBestChainInner_refused {io : Io} {e : Stop}
    (h : block.connectOn env io node pindexNew = .error (e, g)) :
    block.SetBestChainInner env io node pindexNew = .error (e, node.setGlobals g) := by
  rw [CBlock.connectOn] at h
  rw [CBlock.SetBestChainInner, h]
  rfl

theorem reorganize_failed {io : Io} {pindexBest pfork : CBlockIndex} {T : TxIndexMap}
    {vResurrect : List CTransaction} {e : Stop}
    (hdis : Disconnects env io node pindexNew pindexBest pfork T vResurrect)
    (h : connectAbove env io node pindexNew pfork T = .error (e, g)) :
    Reorganize env io node pindexNew = .error (e, node.setGlobals g) := by
  rw [connectAbove] at h
  simp only [Reorganize, hdis.best, hdis.fork, hdis.disconnected, h]
  rfl

theorem PostponedRun.connectPostponed_append {io : Io} {xs ys : List CBlockIndex} {node' : Node}
    (h : PostponedRun env io node xs node') :
    Dions.connectPostponed env io (xs ++ ys) node = Dions.connectPostponed env io ys node' := by
  induction h with
  | nil node => rfl
  | cons hread hinner hrest ih =>
      rw [List.cons_append, Dions.connectPostponed, hread]
      simp only [hinner]
      exact ih

/-- No block of the best chain itself is ever postponed. -/
theorem splitPostponed_self (pindex : CBlockIndex) :
    (splitPostponed pindex.nChainTrust pindex).2 = [] := by
  cases pindex with
  | root d => rfl
  | child d p =>
      have hle : ¬ CBlockIndex.nChainTrust (.child d p) < CBlockIndex.nChainTrust p := by
        simp [CBlockIndex.nChainTrust]
      simp [splitPostponed, hle]

/-- A call that fails while it connects blocks leaves the node unchanged exactly when the failing
block is no postponed one and no transaction that had passed `ConnectInputsPost` was pending. -/
theorem failed_call_unchanged_iff {C : Io → Node → CBlockIndex → CBlock → Prop} {node : Node}
    (hnode : Reaches env C node) {io : Io} {pindexNew : CBlockIndex} {block : CBlock}
    {failure : Failure} (hfails : FailsAt env io node pindexNew block failure) :
    node.Unchanged (block.SetBestChain env io node pindexNew).final ↔
      failure.Harmless env node.mapState := by
  have hnot : ¬ (node.pindexGenesisBlock.isNone = true ∧
      block.GetHash env = env.hashGenesisBlock) := by
    have hgenesis := hnode.genesis_isSome
    cases hg : node.pindexGenesisBlock <;> simp_all
  unfold CBlock.SetBestChain
  simp only
  rw [if_neg hnot]
  cases hfails with
  | tip htip hconnect =>
      have hmap := connectBlock_mapState env (node.view io) node.txdb.txindex node.toGlobals
        pindexNew block
      have hconnect' := hconnect
      rw [CBlock.connectOn] at hconnect'
      rw [hconnect', Halt.left_error] at hmap
      rw [if_pos htip, setBestChainInner_refused hconnect]
      exact unchanged_setGlobals hmap
  | branch htip hdis hconnect =>
      rename_i pindexBest pfork T vResurrect g
      have hbest : node.pindexBest = some pindexBest := hdis.best
      have hsplit : splitPostponed pindexBest.nChainTrust pindexNew = node.split pindexNew := by
        rw [Node.split, Node.nBestChainTrust, hbest]
      have hmap := connectBranch_mapState env (node.view io)
        (Lineage.above pfork (node.split pindexNew).1).reverse T node.toGlobals []
      have hconnect' := hconnect
      rw [connectAbove] at hconnect'
      rw [hconnect', Halt.left_error] at hmap
      rw [if_neg htip, hbest]
      simp only [hsplit, reorganize_failed hdis hconnect]
      exact unchanged_setGlobals hmap
  | postponed htip hreorganize hsplit hrun hread hconnect =>
      rename_i node₁ node₂ xs ys pindex failing g
      obtain ⟨pindexBest, hbest⟩ : ∃ pindexBest, node.pindexBest = some pindexBest := by
        have hout := reorganize_outcome env io node (node.split pindexNew).1
        rw [hreorganize] at hout
        cases hout with
        | reorganized hdis _ _ _ => exact ⟨_, hdis.best⟩
      have hsplit' : splitPostponed pindexBest.nChainTrust pindexNew = node.split pindexNew := by
        rw [Node.split, Node.nBestChainTrust, hbest]
      have hpost : connectPostponed env io (node.split pindexNew).2 node₁ =
          .ok (node₂.setGlobals g) := by
        rw [hsplit, hrun.connectPostponed_append, connectPostponed, hread]
        simp only [setBestChainInner_refused hconnect]
        rfl
      rw [if_neg htip, hbest]
      simp only [hsplit', hreorganize, bind, Except.bind, hpost, Halt.final_ok]
      -- the pointer moves to the new block, which is not the best one since it postpones some
      refine iff_of_false (fun hsame => ?_) id
      have hpointer := hsame.pindexBest
      rw [hbest] at hpointer
      have heq : pindexNew = pindexBest := Option.some.inj hpointer
      rw [← hsplit', heq, splitPostponed_self] at hsplit
      simp at hsplit

namespace Scenario

/-- A message with four arguments, all of them the letter `a`. -/
def message : CTransaction :=
  spending 11900 CTransaction.DION_TX_VERSION [⟨999, 0⟩]
    [⟨624 * COIN, [0x55, 1, 0x61, 1, 0x61, 1, 0x61, 1, 0x61, 0x75, 0x51]⟩]

/-- It spends an output that was never made. -/
def orphan : CTransaction := spending 11950 1 [⟨123456, 0⟩] [payTo COIN]

def withMessage : Halt Node Node :=
  afterBlocks (firstBlocks 11) >>= fun node => AcceptToMemoryPool (timed testNet) io node message

def blockWith (node : Node) (txs : List CTransaction) : CBlock :=
  nextBlock node ⟨0, 12000, 1, [payTo (625 * COIN)], txs⟩

def refuses (e : Env) (io : Io) (node : Node) (pindexNew : CBlockIndex) (block : CBlock) : Bool :=
  decide (block.hashPrevBlock = node.hashBestChain) &&
    match block.connectOn e io node pindexNew with
    | .error (.reject, _) => true
    | _ => false

theorem failsAt_of_refuses {e : Env} {io : Io} (h : refuses e io node pindexNew block = true) :
    FailsAt e io node pindexNew block
      (.early (block.posted e (node.view io) node.txdb.txindex node.toGlobals pindexNew)) := by
  rw [refuses, Bool.and_eq_true, decide_eq_true_eq] at h
  obtain ⟨htip, hconnect⟩ := h
  split at hconnect
  · rename_i g hg
    exact .tip htip hg
  · simp at hconnect

theorem withMessage_reaches (h : withMessage = .ok node) :
    Reaches (timed testNet) AnyCall node := by
  rw [withMessage, seq_ok] at h
  obtain ⟨node₀, h₀, h₁⟩ := h
  have hpool : Reaches (timed testNet) AnyCall
      (AcceptToMemoryPool (timed testNet) io node₀ message).final :=
    .pool (afterBlocks_reaches h₀)
  rwa [h₁] at hpool

def orphanRefused : Bool :=
  match afterBlocks (firstBlocks 11) with
  | .error _ => false
  | .ok node =>
    let block := blockWith node [orphan]
    let stored := node.store (timed testNet) block
    let pindexNew := node.entryFor (timed testNet) block
    ((node.mapBlockIndex block.hashPrevBlock).isSome &&
      (node.mapBlockIndex (block.GetHash (timed testNet))).isNone) &&
    refuses (timed testNet) io stored pindexNew block &&
    (block.posted (timed testNet) (stored.view io) stored.txdb.txindex stored.toGlobals
      pindexNew).all fun tx => (pendingKey (timed testNet) tx).isNone

end Scenario

open Scenario in
/-- A block of ordinary transactions that is refused leaves the node as it was. -/
theorem failed_call_unchanged_iff_orphan :
    ∃ node pindexNew block, Reaches (timed testNet) AnyCall node ∧
      refuses (timed testNet) io node pindexNew block = true ∧
      node.Unchanged (block.SetBestChain (timed testNet) io node pindexNew).final := by
  have htest : orphanRefused = true := by decide +kernel
  unfold orphanRefused at htest
  split at htest
  · simp at htest
  rename_i node hnode
  simp only [Bool.and_eq_true (_ && refuses _ _ _ _ _), Bool.and_eq_true _ (refuses _ _ _ _ _)] at htest
  obtain ⟨⟨hnew, hrefuses⟩, hposted⟩ := htest
  have hreach := store_reaches (afterBlocks_reaches hnode) hnew
  refine ⟨_, _, _, hreach, hrefuses, ?_⟩
  refine (failed_call_unchanged_iff hreach (failsAt_of_refuses hrefuses)).mpr fun tx htx => ?_
  rintro ⟨name, hash, s, hkey, -⟩
  have hnone := List.all_eq_true.mp hposted tx htx
  rw [hkey] at hnone
  simp at hnone

namespace Scenario

def messageForgotten : Bool :=
  match withMessage with
  | .error _ => false
  | .ok node =>
    let block := blockWith node [message, orphan]
    let stored := node.store (timed testNet) block
    let pindexNew := node.entryFor (timed testNet) block
    ((node.mapBlockIndex block.hashPrevBlock).isSome &&
      (node.mapBlockIndex (block.GetHash (timed testNet))).isNone) &&
    refuses (timed testNet) io stored pindexNew block &&
    (decide (stored.mapState [0x61] = some {11900}) &&
      decide ((block.SetBestChain (timed testNet) io stored pindexNew).final.mapState [0x61] =
        some ∅))

end Scenario

open Scenario in
/-- A message waits in the memory pool. A block with that message and a transaction that spends
nothing known is refused, and the message is no longer pending. -/
theorem failed_block_forgets_message :
    ∃ node pindexNew block, Reaches (timed testNet) AnyCall node ∧
      (∃ failure, FailsAt (timed testNet) io node pindexNew block failure) ∧
      node.mapState [0x61] = some {11900} ∧
      (block.SetBestChain (timed testNet) io node pindexNew).final.mapState [0x61] = some ∅ ∧
      ¬ node.Unchanged (block.SetBestChain (timed testNet) io node pindexNew).final := by
  have htest : messageForgotten = true := by decide +kernel
  unfold messageForgotten at htest
  split at htest
  · simp at htest
  rename_i node hnode
  simp only [Bool.and_eq_true (_ && refuses _ _ _ _ _), Bool.and_eq_true _ (refuses _ _ _ _ _)] at htest
  obtain ⟨⟨hnew, hrefuses⟩, hmap⟩ := htest
  rw [Bool.and_eq_true, decide_eq_true_eq, decide_eq_true_eq] at hmap
  have hreach := store_reaches (withMessage_reaches hnode) hnew
  refine ⟨_, _, _, hreach, ⟨_, failsAt_of_refuses hrefuses⟩, hmap.1, hmap.2, fun hsame => ?_⟩
  have hstate := congrFun hsame.mapState [0x61]
  rw [hmap.1, hmap.2, Option.some.injEq] at hstate
  exact absurd hstate (by decide)

end Dions
