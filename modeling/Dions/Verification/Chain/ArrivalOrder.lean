import Dions.Verification.Chain.TallChain

/-! # Arrival order

What the checks of `AcceptBlock` on the target and on the kernel depend on. -/

namespace Dions

open Halting

variable (env : Env)
variable {vin : List CTxIn} {node : Node} {p : CBlockIndex}
  {C : Io → Node → CBlockIndex → CBlock → Prop}
variable {txin : CTxIn} {files : BlockFile} {T queued : TxIndexMap} {hash : uint256} {e : CTxIndex}
  {inChain : Bool} {block : CBlock}

/-! ## What a node finds -/

/-- What a node finds of a previous transaction: how many slots its index entry has, and what can be
read of the transaction and of the hash and the time of its block. -/
structure Previous where
  nSlots : ℕ
  tx : Option CTransaction
  block : Option (uint256 × ℕ)

def Node.previous (io : Io) (node : Node) (hash : uint256) : Option Previous :=
  (node.txdb.txindex hash).map fun e =>
    ⟨e.vSpent.length, (io.visible node.files).readTx e.pos,
      ((io.visible node.files).blocks (e.pos.nFile, e.pos.nBlockPos)).map fun block =>
        (block.GetHash env, block.nTime)⟩

/-! ## The same blocks -/

/-- The entries are of the same block, wherever it is stored. -/
structure SameBlock (d d' : BlockIndexData) : Prop where
  hash : d.hash = d'.hash
  fProofOfStake : d.fProofOfStake = d'.fProofOfStake
  nStakeModifier : d.nStakeModifier = d'.nStakeModifier
  nTime : d.nTime = d'.nTime
  nBits : d.nBits = d'.nBits

/-- The entries are of the same block, and so are their ancestors. -/
inductive SameBlocks : CBlockIndex → CBlockIndex → Prop
  | root {d d' : BlockIndexData} (h : SameBlock d d') : SameBlocks (.root d) (.root d')
  | child {d d' : BlockIndexData} {p p' : CBlockIndex} (h : SameBlock d d')
      (hp : SameBlocks p p') : SameBlocks (.child d p) (.child d' p')

namespace SameBlocks

variable {p p' : CBlockIndex}

theorem label (h : SameBlocks p p') : SameBlock p.label p'.label := by
  cases h with
  | root h => exact h
  | child h _ => exact h

theorem nHeight (h : SameBlocks p p') : p.nHeight = p'.nHeight := by
  induction h with
  | root _ => rfl
  | child _ _ ih => exact congrArg (· + 1) ih

theorem hashes (h : SameBlocks p p') :
    p.line.map CBlockIndex.GetBlockHash = p'.line.map CBlockIndex.GetBlockHash := by
  induction h with
  | root h => exact congrArg (fun hash => [hash]) h.hash
  | child h _ ih =>
    rw [Lineage.line, Lineage.line, List.map_cons, List.map_cons, ih]
    exact congrArg (· :: _) h.hash

theorem getLastBlockIndex (h : SameBlocks p p') (fProofOfStake : Bool) :
    SameBlocks (GetLastBlockIndex fProofOfStake p) (GetLastBlockIndex fProofOfStake p') := by
  induction h with
  | root h => exact .root h
  | child h hp ih =>
    rw [GetLastBlockIndex, GetLastBlockIndex, h.fProofOfStake]
    split
    · exact ih
    · exact .child h hp

theorem retarget (h : SameBlocks p p') (bnTargetLimit : ℤ) (spacing bound : ℤ → ℤ)
    (fProofOfStake : Bool) :
    Dions.retarget bnTargetLimit spacing bound p fProofOfStake =
      Dions.retarget bnTargetLimit spacing bound p' fProofOfStake := by
  rw [Dions.retarget, Dions.retarget, h.nHeight]
  have hlast := h.getLastBlockIndex fProofOfStake
  generalize GetLastBlockIndex fProofOfStake p = last at hlast ⊢
  generalize GetLastBlockIndex fProofOfStake p' = last' at hlast ⊢
  cases hlast with
  | root _ => rfl
  | @child d d' q q' hd hq =>
    have hbefore := hq.getLastBlockIndex fProofOfStake
    dsimp only
    generalize GetLastBlockIndex fProofOfStake q = before at hbefore ⊢
    generalize GetLastBlockIndex fProofOfStake q' = before' at hbefore ⊢
    cases hbefore with
    | root _ => rfl
    | child hd' _ =>
      dsimp only
      rw [hd.nTime, hd.nBits, hd'.nTime]

theorem getNextTargetRequired (h : SameBlocks p p') (fProofOfStake : Bool) (nFees : ℤ) :
    GetNextTargetRequired env p fProofOfStake nFees =
      GetNextTargetRequired env p' fProofOfStake nFees := by
  have hlimit : targetLimit env p fProofOfStake = targetLimit env p' fProofOfStake := by
    rw [targetLimit, targetLimit, h.nHeight]
  rw [GetNextTargetRequired, GetNextTargetRequired, h.nHeight]
  split_ifs
  · rw [GetNextTargetRequiredV1, GetNextTargetRequiredV1]
    exact h.retarget _ _ _ _
  · rw [GetNextTargetRequiredV2, GetNextTargetRequiredV2, hlimit, h.nHeight]
    exact h.retarget _ _ _ _
  · rw [GetNextTargetRequiredV3, GetNextTargetRequiredV3, hlimit, h.nHeight]
    exact h.retarget _ _ _ _

end SameBlocks

/-! ## Looking up previous transactions -/

/-- The output with index `n` of a previous transaction, when the index entry has a slot for it. -/
def Previous.output? (prev : Previous) (n : ℕ) : Option CTxOut :=
  if n < prev.nSlots then prev.tx.bind fun tx => tx.vout[n]? else none

def spentOutput (found : uint256 → Option Previous) (txin : CTxIn) : Option CTxOut :=
  (found txin.prevout.hash).bind fun prev => prev.output? txin.prevout.n

/-- What the inputs of a transaction bring in, when all that they spend is found. -/
def foundValueIn (found : uint256 → Option Previous) : List CTxIn → ℤ → Option ℤ
  | [], nResult => some nResult
  | txin :: vin, nResult =>
    (spentOutput found txin).bind fun txout =>
      foundValueIn found vin (int64 (nResult + txout.nValue))

/-- The fees of the transactions whose inputs are all found. -/
def foundFees (found : uint256 → Option Previous) : List CTransaction → ℤ → Exec ℤ
  | [], nFees => .ok nFees
  | tx :: vtx, nFees =>
    if tx.IsCoinBase then foundFees found vtx nFees
    else
      match foundValueIn found tx.vin 0 with
      | none => foundFees found vtx nFees
      | some nTxValueIn => do
        let nTxValueOut ← tx.GetValueOut
        foundFees found vtx
          (if tx.IsCoinStake then nFees else int64 (nFees + (nTxValueIn - nTxValueOut)))

theorem foundValueIn_eq_none {found : uint256 → Option Previous} (hmem : txin ∈ vin)
    (hnone : spentOutput found txin = none) (nResult : ℤ) :
    foundValueIn found vin nResult = none := by
  induction vin generalizing nResult with
  | nil => exact absurd hmem List.not_mem_nil
  | cons first vin ih =>
    rw [foundValueIn]
    rcases List.mem_cons.mp hmem with rfl | hrest
    · rw [hnone, Option.bind_none]
    · cases spentOutput found first with
      | none => rfl
      | some txout => exact ih hrest _

variable {env}

/-- No entry of the index stands for the memory pool. -/
theorem Indexed.ne_memory {mapBlockIndex : uint256 → Option CBlockIndex}
    (h : Indexed env files mapBlockIndex T) (he : T hash = some e) : e.pos ≠ CDiskTxPos.memory :=
  ((h.standing fun _ _ hread => hread).2 hash e.entry (by simp [ledgerOf, he])).1

theorem fetchPrev_previous (io : Io) {node : Node} (h : Indexed env node.files node.mapBlockIndex
    node.txdb.txindex) (hash : uint256) :
    (fetchPrev (io.visible node.files) node.mempool node.txdb.txindex (fun _ => none) true hash).map
        (fun prev => (prev.1.vSpent.length, prev.2)) =
      (node.previous env io hash).bind fun prev => prev.tx.map (prev.nSlots, ·) := by
  have hfound : (if true && ((fun _ => none : TxIndexMap) hash).isSome then none
      else node.txdb.txindex hash) = node.txdb.txindex hash := rfl
  unfold fetchPrev Node.previous
  dsimp only
  rw [hfound]
  cases he : node.txdb.txindex hash with
  | none => rfl
  | some e =>
    dsimp only
    rw [readPrev, if_neg (h.ne_memory he), Option.map_map, Option.map_some, Option.bind_some]
    rfl

/-- A fetched input is what is found under the hash. -/
def IsFound (found : uint256 → Option Previous) (hash : uint256) (prev : CTxIndex × CTransaction) :
    Prop := ∃ p, found hash = some p ∧ p.nSlots = prev.1.vSpent.length ∧ p.tx = some prev.2

theorem fetchPrev_found {io : Io} (h : Indexed env node.files node.mapBlockIndex
    node.txdb.txindex) {hash : uint256} {prev : CTxIndex × CTransaction}
    (hfetch : fetchPrev (io.visible node.files) node.mempool node.txdb.txindex (fun _ => none) true
      hash = some prev) : IsFound (node.previous env io) hash prev := by
  have hprev := fetchPrev_previous io h hash
  rw [hfetch, Option.map_some] at hprev
  obtain ⟨p, hp, htx⟩ := Option.bind_eq_some_iff.mp hprev.symm
  obtain ⟨tx, htx, heq⟩ := Option.map_eq_some_iff.mp htx
  obtain ⟨hslots, rfl⟩ := Prod.mk.inj heq
  exact ⟨p, hp, hslots, htx⟩

theorem fetchPrev_missing {io : Io} (h : Indexed env node.files node.mapBlockIndex
    node.txdb.txindex) {txin : CTxIn}
    (hfetch : fetchPrev (io.visible node.files) node.mempool node.txdb.txindex (fun _ => none) true
      txin.prevout.hash = none) : spentOutput (node.previous env io) txin = none := by
  have hprev := fetchPrev_previous io h txin.prevout.hash
  rw [hfetch, Option.map_none] at hprev
  rw [spentOutput]
  cases hp : node.previous env io txin.prevout.hash with
  | none => rfl
  | some p =>
    rw [hp, Option.bind_some] at hprev
    rw [Option.bind_some, Previous.output?, Option.map_eq_none_iff.mp hprev.symm, Option.bind_none,
      ite_self]

theorem fetchLoop_none {pool : CTxMemPool} {inputs : MapPrevTx}
    (h : fetchLoop files pool T queued inChain vin inputs = none) :
    ∃ txin ∈ vin, fetchPrev files pool T queued inChain txin.prevout.hash = none := by
  induction vin generalizing inputs with
  | nil => simp [fetchLoop] at h
  | cons txin vin ih =>
    rw [fetchLoop] at h
    split at h
    · obtain ⟨other, hmem, hnone⟩ := ih h
      exact ⟨other, List.mem_cons_of_mem _ hmem, hnone⟩
    · split at h
      · rename_i hnone
        exact ⟨txin, List.mem_cons_self, hnone⟩
      · obtain ⟨other, hmem, hnone⟩ := ih h
        exact ⟨other, List.mem_cons_of_mem _ hmem, hnone⟩

theorem fetchLoop_some {pool : CTxMemPool} {inputs inputs' : MapPrevTx}
    (h : fetchLoop files pool T queued inChain vin inputs = some inputs') :
    (∀ hash, (inputs hash).isSome → (inputs' hash).isSome) ∧
      ∀ txin ∈ vin, (inputs' txin.prevout.hash).isSome := by
  induction vin generalizing inputs with
  | nil =>
    rw [fetchLoop, Option.some.injEq] at h
    subst h
    exact ⟨fun _ hsome => hsome, fun _ hmem => absurd hmem List.not_mem_nil⟩
  | cons txin vin ih =>
    rw [fetchLoop] at h
    split at h
    · rename_i hsome
      obtain ⟨hkept, hrest⟩ := ih h
      exact ⟨hkept, List.forall_mem_cons.mpr ⟨hkept _ hsome, hrest⟩⟩
    · split at h
      · simp at h
      · rename_i prev _
        obtain ⟨hkept, hrest⟩ := ih h
        have hself : (inputs' txin.prevout.hash).isSome := hkept _ (by simp)
        refine ⟨fun hash hsome => ?_, List.forall_mem_cons.mpr ⟨hself, hrest⟩⟩
        by_cases heq : hash = txin.prevout.hash
        · rwa [heq]
        · exact hkept _ (by rwa [Function.update_of_ne heq])

section Inputs

variable {found : uint256 → Option Previous} {inputs : MapPrevTx}

theorem spentOutput_of_inputs {prev : CTxIndex × CTransaction}
    (h : IsFound found txin.prevout.hash prev) : spentOutput found txin =
      if txin.prevout.n < prev.1.vSpent.length then prev.2.vout[txin.prevout.n]? else none := by
  obtain ⟨p, hp, hslots, htx⟩ := h
  rw [spentOutput, hp, Option.bind_some, Previous.output?, hslots, htx, Option.bind_some]

theorem prevoutInRange_found {prev : CTxIndex × CTransaction}
    (hin : inputs txin.prevout.hash = some prev) (h : IsFound found txin.prevout.hash prev) :
    prevoutInRange inputs txin = (spentOutput found txin).isSome := by
  rw [spentOutput_of_inputs h, prevoutInRange, hin]
  by_cases hslot : txin.prevout.n < prev.1.vSpent.length
  · rw [if_pos hslot, Bool.eq_iff_iff]
    simp [hslot]
  · simp [hslot]

theorem valueInFrom_found (hrange : ∀ txin ∈ vin, prevoutInRange inputs txin = true)
    (hfound : ∀ txin ∈ vin, ∀ prev, inputs txin.prevout.hash = some prev →
      IsFound found txin.prevout.hash prev) (nResult : ℤ) :
    ∃ nValueIn, foundValueIn found vin nResult = some nValueIn ∧
      CTransaction.valueInFrom inputs vin nResult = .ok nValueIn := by
  induction vin generalizing nResult with
  | nil => exact ⟨nResult, rfl, rfl⟩
  | cons txin vin ih =>
    obtain ⟨hone, hrest⟩ := List.forall_mem_cons.mp hrange
    obtain ⟨hfirst, hothers⟩ := List.forall_mem_cons.mp hfound
    obtain ⟨e, txPrev, hin, hlt, hslot⟩ := prevoutInRange_iff.mp hone
    have hspent : spentOutput found txin = some txPrev.vout[txin.prevout.n] := by
      rw [spentOutput_of_inputs (hfirst _ hin), if_pos hslot, List.getElem?_eq_getElem hlt]
    have hout : CTransaction.GetOutputFor txin inputs = .ok txPrev.vout[txin.prevout.n] := by
      rw [CTransaction.GetOutputFor, hin]
      simp only [List.getElem?_eq_getElem hlt]
    obtain ⟨nValueIn, hvalue, hloop⟩ :=
      ih hrest hothers (int64 (nResult + txPrev.vout[txin.prevout.n].nValue))
    refine ⟨nValueIn, ?_, ?_⟩
    · rw [foundValueIn, hspent, Option.bind_some, hvalue]
    · rw [CTransaction.valueInFrom, hout]
      exact hloop

end Inputs

/-! ## The fees -/

section Outcome

variable {C : Io → Node → CBlockIndex → CBlock → Prop} (io : Io) {node : Node}

/-- `FetchInputs` succeeds when all that a transaction spends is found. -/
theorem fetchInputs_found (h : Reaches env C node) {tx : CTransaction}
    (hcb : tx.IsCoinBase = false) :
    match tx.FetchInputs (node.view io).files (node.view io).mempool node.txdb.txindex
      (fun _ => none) true false with
    | .error _ => foundValueIn (node.previous env io) tx.vin 0 = none
    | .ok inputs => ∃ nTxValueIn, foundValueIn (node.previous env io) tx.vin 0 = some nTxValueIn ∧
        tx.GetValueIn inputs = .ok nTxValueIn := by
  have hindexed := h.indexed.2
  rw [CTransaction.FetchInputs, if_neg (Bool.eq_false_iff.mp hcb), Bool.true_or]
  cases hloop : fetchLoop (node.view io).files (node.view io).mempool node.txdb.txindex
      (fun _ => none) true tx.vin (fun _ => none) with
  | none =>
    obtain ⟨txin, hmem, hnone⟩ := fetchLoop_none hloop
    exact foundValueIn_eq_none hmem (fetchPrev_missing hindexed hnone) 0
  | some inputs =>
    have hfound : ∀ hash prev, inputs hash = some prev →
        IsFound (node.previous env io) hash prev :=
      fetchLoop_forall (fun _ _ hfetch => fetchPrev_found hindexed hfetch) hloop (by simp)
    dsimp only
    by_cases hrange : tx.vin.all (prevoutInRange inputs) = true
    · rw [if_pos hrange]
      obtain ⟨nTxValueIn, hvalue, hin⟩ :=
        valueInFrom_found (List.all_eq_true.mp hrange) (fun _ _ prev => hfound _ prev) 0
      refine ⟨nTxValueIn, hvalue, ?_⟩
      rw [CTransaction.GetValueIn, if_neg (Bool.eq_false_iff.mp hcb), hin]
    · rw [if_neg hrange]
      simp only [List.all_eq_true, not_forall, exists_prop] at hrange
      obtain ⟨txin, hmem, hout⟩ := hrange
      obtain ⟨prev, hin⟩ := Option.isSome_iff_exists.mp ((fetchLoop_some hloop).2 txin hmem)
      rw [prevoutInRange_found hin (hfound _ _ hin), Option.not_isSome_iff_eq_none] at hout
      exact foundValueIn_eq_none hmem hout 0

theorem acceptFees_found (h : Reaches env C node) (vtx : List CTransaction) (nFees : ℤ) :
    acceptFees (node.view io) node.txdb.txindex vtx nFees =
      foundFees (node.previous env io) vtx nFees := by
  induction vtx generalizing nFees with
  | nil => rfl
  | cons tx vtx ih =>
    rw [acceptFees, foundFees]
    by_cases hcb : tx.IsCoinBase = true
    · rw [if_pos hcb, if_pos hcb, ih]
    · have hfetched := fetchInputs_found io h (Bool.eq_false_iff.mpr hcb)
      rw [if_neg hcb, if_neg hcb]
      generalize tx.FetchInputs (node.view io).files (node.view io).mempool node.txdb.txindex
        (fun _ => none) true false = fetched at hfetched ⊢
      cases fetched with
      | error e =>
        rw [hfetched]
        exact ih nFees
      | ok inputs =>
        obtain ⟨nTxValueIn, hvalue, hin⟩ := hfetched
        rw [hvalue]
        simp only [hin, ih, bind, Except.bind]

end Outcome

/-! ## The kernel -/

/-- The check of a coin stake with the first input `txin`, given what is found of the transaction
that it spends. -/
def stakeOutcome (env : Env) (fV3 : Bool) (pindexPrev : CBlockIndex) (tx : CTransaction)
    (txin : CTxIn) (nBits : ℕ) (prev : Previous) : Bool :=
  match prev.tx, prev.block with
  | some txPrev, some (hashBlock, nTimeBlock) =>
    match txPrev.vout[txin.prevout.n]? with
    | none => false
    | some txout =>
      VerifySignature env txPrev tx 0 0 &&
        ((if fV3 then
          ((pindexPrev.line.map CBlockIndex.GetBlockHash).take (env.nStakeMinConfirmations - 1)).all
            (· != hashBlock)
          else minAgeTime env nTimeBlock ≤ tx.nTime) &&
        CheckStakeKernelHashV2 env pindexPrev nBits nTimeBlock txPrev txout txin.prevout tx.nTime)
  | _, _ => false

/-- The block of an index entry lies at the place of an entry of the block index exactly when it has
its hash. -/
theorem Indexed.isAt_iff {q : CBlockIndex} (hstored : Stored env node.files node.mapBlockIndex)
    (hindexed : Indexed env node.files node.mapBlockIndex node.txdb.txindex)
    (he : node.txdb.txindex hash = some e)
    (hblock : node.files.blocks (e.pos.nFile, e.pos.nBlockPos) = some block) (hq : node.Knows q) :
    CBlockIndex.IsAt e.pos.nFile e.pos.nBlockPos q = true ↔ q.GetBlockHash = block.GetHash env := by
  have hsame : ∀ a : CBlockIndex, node.Knows a →
      (a.nFile, a.nBlockPos) = (e.pos.nFile, e.pos.nBlockPos) →
      a.GetBlockHash = block.GetHash env := by
    intro a ha hplace
    obtain ⟨old, hholds, hhash, -⟩ := hstored.held a ha
    have heq : old = block := by
      have hread := hholds.stored
      rw [hplace, hblock] at hread
      exact (Option.some.inj hread).symm
    rw [← hhash, heq]
  obtain ⟨pindex, home, tx, hhome⟩ := hindexed.housed hash e.entry (by simp [ledgerOf, he])
  obtain ⟨hfile, hpos, -⟩ := txPositions_bounds hhome.placed
  have hplace : (pindex.nFile, pindex.nBlockPos) = (e.pos.nFile, e.pos.nBlockPos) :=
    Prod.ext hfile.symm hpos.symm
  constructor
  · intro hat
    exact hsame q hq (Prod.ext (of_decide_eq_true hat).2 (of_decide_eq_true hat).1)
  · intro hhash
    have heq : pindex = q :=
      knows_unique hhome.known hq ((hsame pindex hhome.known hplace).trans hhash.symm)
    rw [← heq]
    exact decide_eq_true ⟨hpos.symm, hfile.symm⟩

theorem Indexed.minBase_eq (hstored : Stored env node.files node.mapBlockIndex)
    (hindexed : Indexed env node.files node.mapBlockIndex node.txdb.txindex)
    (he : node.txdb.txindex hash = some e)
    (hblock : node.files.blocks (e.pos.nFile, e.pos.nBlockPos) = some block) (hp : node.Knows p)
    (nMaxDepth : ℕ) :
    minBase e p nMaxDepth =
      ((p.line.map CBlockIndex.GetBlockHash).take nMaxDepth).all (· != block.GetHash env) := by
  have hat : ∀ q ∈ p.line, CBlockIndex.IsAt e.pos.nFile e.pos.nBlockPos q =
      (CBlockIndex.GetBlockHash q == block.GetHash env) := by
    intro q hq
    have hiff := hindexed.isAt_iff hstored he hblock (hstored.knows_line env hp hq)
    rw [Bool.eq_iff_iff, beq_iff_eq]
    exact hiff
  have hwalk : p.depthOf e.pos.nFile e.pos.nBlockPos nMaxDepth 0 =
      (p.line.take nMaxDepth).findIdx? (CBlockIndex.IsAt e.pos.nFile e.pos.nBlockPos) := by
    rw [depthOf_eq, List.findIdx?_take]
    simp [Option.guard]
  rw [minBase, hwalk, List.findIdx?_isNone, ← List.map_take, List.all_map, Bool.eq_iff_iff,
    List.all_eq_true, List.all_eq_true]
  refine forall_congr' fun q => forall_congr' fun hq => ?_
  simp [hat q (List.mem_of_mem_take hq)]

/-- What the check of the kernel makes of what is found. -/
theorem checkProofOfStake_previous {io : Io} (h : Reaches env C node) {p : CBlockIndex}
    (hp : node.Knows p) (hhigh : POS_v3_DIFFICULTY_HEIGHT ≤ p.nHeight) (tx : CTransaction)
    (nBits : ℕ) :
    CheckProofOfStake env (io.visible node.files) node p tx nBits =
      (tx.IsCoinStake && (tx.vin.head?.bind fun txin =>
        (node.previous env io txin.prevout.hash).map
          (stakeOutcome env (env.V3 node.nBestHeight) p tx txin nBits)).getD false) := by
  obtain ⟨hstored, hindexed⟩ := h.indexed
  rw [CheckProofOfStake]
  cases hcs : tx.IsCoinStake with
  | false => rfl
  | true =>
    cases hvin : tx.vin with
    | nil => rfl
    | cons txin vin =>
      simp only [CTransaction.ReadFromDisk, Node.previous, List.head?_cons, Option.bind_some,
        Bool.true_and, Bool.not_true, Bool.false_eq_true, if_false]
      cases he : node.txdb.txindex txin.prevout.hash with
      | none => rfl
      | some e =>
        simp only [Option.map_some, Option.getD_some]
        cases hread : (io.visible node.files).readTx e.pos with
        | none =>
          simp only [stakeOutcome]
        | some txPrev =>
          cases hblock : (io.visible node.files).blocks (e.pos.nFile, e.pos.nBlockPos) with
          | none =>
            simp only [Option.map_none, stakeOutcome]
            by_cases hle : txPrev.vout.length ≤ txin.prevout.n
            · simp only [if_pos hle]
            · simp only [if_neg hle, hblock, ite_self]
          | some block =>
            cases hout : txPrev.vout[txin.prevout.n]? with
            | none =>
              have hle : txPrev.vout.length ≤ txin.prevout.n := List.getElem?_eq_none_iff.mp hout
              simp only [if_pos hle, Option.map_some, stakeOutcome, hout]
            | some txout =>
              have hlt : ¬ txPrev.vout.length ≤ txin.prevout.n :=
                Nat.not_le.mpr (List.getElem?_eq_some_iff.mp hout).1
              have hbase := hindexed.minBase_eq hstored he (visible_blocks hblock) hp
                (env.nStakeMinConfirmations - 1)
              have hkernel : CheckStakeKernelHash env node p nBits block
                  (e.pos.nTxPos - e.pos.nBlockPos) txPrev txout txin.prevout tx.nTime =
                    CheckStakeKernelHashV2 env p nBits block.nTime txPrev txout txin.prevout
                      tx.nTime := by
                have hlimit : POS_v3_DIFFICULTY_HEIGHT = 100000 := rfl
                have hprotocol : IsProtocolV2 ((p.nHeight : ℤ) + 1) = true :=
                  decide_eq_true (by omega)
                rw [CheckStakeKernelHash, hprotocol, Bool.or_true, if_pos rfl]
              simp only [if_neg hlt, hblock, hout, hbase, hkernel, Option.map_some, stakeOutcome]
              cases VerifySignature env txPrev tx 0 0 with
              | false => rfl
              | true => simp

theorem stakeOutcome_same {p₁ p₂ : CBlockIndex} (hsame : SameBlocks p₁ p₂) (fV3 : Bool)
    (tx : CTransaction) (txin : CTxIn) (nBits : ℕ) :
    stakeOutcome env fV3 p₁ tx txin nBits = stakeOutcome env fV3 p₂ tx txin nBits := by
  funext prev
  simp only [stakeOutcome, CheckStakeKernelHashV2, hsame.hashes, hsame.label.nStakeModifier]

/-! ## The outcome of the checks -/

/-- The comparison of `nBits`, from what is found of the transactions that a block spends. -/
def targetOutcome (env : Env) (found : uint256 → Option Previous) (pindexPrev : CBlockIndex)
    (block : CBlock) : Exec Unit := do
  let nFees ← foundFees found block.vtx 0
  require (block.nBits = GetNextTargetRequired env pindexPrev block.IsProofOfStake nFees)

/-- The check of the kernel, from what is found of the transactions that a block spends. -/
def kernelOutcome (env : Env) (fV3 : Bool) (found : uint256 → Option Previous)
    (pindexPrev : CBlockIndex) (block : CBlock) : Exec Unit :=
  if block.IsProofOfStake then
    match block.vtx[1]? with
    | none => .error .undefined
    | some tx =>
      require ((tx.IsCoinStake && (tx.vin.head?.bind fun txin =>
        (found txin.prevout.hash).map
          (stakeOutcome env fV3 pindexPrev tx txin block.nBits)).getD false) = true)
  else .ok ()

theorem checkTarget_found {io : Io} (h : Reaches env C node) (p : CBlockIndex) (block : CBlock) :
    checkTarget env io node p block = targetOutcome env (node.previous env io) p block := by
  rw [checkTarget, targetOutcome, acceptFees_found io h]

theorem checkKernel_found {io : Io} (h : Reaches env C node) {p : CBlockIndex} (hp : node.Knows p)
    (hhigh : POS_v3_DIFFICULTY_HEIGHT ≤ p.nHeight) (block : CBlock) :
    checkKernel env io node p block =
      kernelOutcome env (env.V3 node.nBestHeight) (node.previous env io) p block := by
  rw [checkKernel, kernelOutcome]
  split_ifs
  · cases block.vtx[1]? with
    | none => rfl
    | some tx =>
      dsimp only
      rw [checkProofOfStake_previous h hp hhigh]
  · rfl

/-- The same is found of the transactions that the block spends. -/
def AgreeOn (block : CBlock) (found found' : uint256 → Option Previous) : Prop :=
  ∀ tx ∈ block.vtx, tx.IsCoinBase = false → ∀ txin ∈ tx.vin,
    found txin.prevout.hash = found' txin.prevout.hash

section Congruence

variable {found found' : uint256 → Option Previous} {p p' : CBlockIndex} {block : CBlock}

theorem foundValueIn_agree (h : ∀ txin ∈ vin, found txin.prevout.hash = found' txin.prevout.hash)
    (nResult : ℤ) : foundValueIn found vin nResult = foundValueIn found' vin nResult := by
  induction vin generalizing nResult with
  | nil => rfl
  | cons txin vin ih =>
    obtain ⟨hone, hrest⟩ := List.forall_mem_cons.mp h
    rw [foundValueIn, foundValueIn, spentOutput, spentOutput, hone]
    exact congrArg _ (funext fun txout => ih hrest _)

theorem foundFees_agree {vtx : List CTransaction}
    (h : ∀ tx ∈ vtx, tx.IsCoinBase = false → ∀ txin ∈ tx.vin,
      found txin.prevout.hash = found' txin.prevout.hash) (nFees : ℤ) :
    foundFees found vtx nFees = foundFees found' vtx nFees := by
  induction vtx generalizing nFees with
  | nil => rfl
  | cons tx vtx ih =>
    obtain ⟨hone, hrest⟩ := List.forall_mem_cons.mp h
    rw [foundFees, foundFees]
    by_cases hcb : tx.IsCoinBase = true
    · rw [if_pos hcb, if_pos hcb, ih hrest]
    · rw [if_neg hcb, if_neg hcb, foundValueIn_agree (hone (Bool.eq_false_iff.mpr hcb))]
      simp only [ih hrest]

theorem targetOutcome_agree (hsame : SameBlocks p p') (h : AgreeOn block found found') :
    targetOutcome env found p block = targetOutcome env found' p' block := by
  rw [targetOutcome, targetOutcome, foundFees_agree h]
  simp only [hsame.getNextTargetRequired]

theorem kernelOutcome_agree (fV3 : Bool) (hsame : SameBlocks p p')
    (h : AgreeOn block found found') :
    kernelOutcome env fV3 found p block = kernelOutcome env fV3 found' p' block := by
  rw [kernelOutcome, kernelOutcome]
  split_ifs
  · cases hsecond : block.vtx[1]? with
    | none => rfl
    | some tx =>
      dsimp only
      cases hcs : tx.IsCoinStake with
      | false => rfl
      | true =>
        cases hvin : tx.vin with
        | nil => rfl
        | cons txin vin =>
          have hone := h tx (List.mem_of_getElem? hsecond) (Scenario.isCoinBase_of_isCoinStake hcs)
            txin (hvin ▸ List.mem_cons_self)
          rw [List.head?_cons, Option.bind_some, Option.bind_some, hone, stakeOutcome_same hsame]
  · rfl

end Congruence

/-- Two nodes know the previous block and its ancestors, and apply the rules of the same version.
When they find the same for the transactions that a block spends, the checks on its target and its
kernel have the same outcome, whatever else they have in their indices, their pools and their active
chains. -/
theorem proofChecks_agree {C₁ C₂ : Io → Node → CBlockIndex → CBlock → Prop} {io₁ io₂ : Io}
    {node₁ node₂ : Node} {p₁ p₂ : CBlockIndex} {block : CBlock} (h₁ : Reaches env C₁ node₁)
    (h₂ : Reaches env C₂ node₂) (hp₁ : node₁.Knows p₁) (hp₂ : node₂.Knows p₂)
    (hsame : SameBlocks p₁ p₂) (hhigh : POS_v3_DIFFICULTY_HEIGHT ≤ p₁.nHeight)
    (hrules : env.V3 node₁.nBestHeight = env.V3 node₂.nBestHeight)
    (hprev : ∀ tx ∈ block.vtx, tx.IsCoinBase = false → ∀ txin ∈ tx.vin,
      node₁.previous env io₁ txin.prevout.hash = node₂.previous env io₂ txin.prevout.hash) :
    checkTarget env io₁ node₁ p₁ block = checkTarget env io₂ node₂ p₂ block ∧
      checkKernel env io₁ node₁ p₁ block = checkKernel env io₂ node₂ p₂ block := by
  have hhigh₂ : POS_v3_DIFFICULTY_HEIGHT ≤ p₂.nHeight := hsame.nHeight ▸ hhigh
  constructor
  · rw [checkTarget_found h₁, checkTarget_found h₂]
    exact targetOutcome_agree hsame hprev
  · rw [checkKernel_found h₁ hp₁ hhigh, checkKernel_found h₂ hp₂ hhigh₂, hrules]
    exact kernelOutcome_agree _ hsame hprev

/-! ## Two nodes -/

theorem SameBlocks.refl (p : CBlockIndex) : SameBlocks p p := by
  induction p with
  | root d => exact .root ⟨rfl, rfl, rfl, rfl, rfl⟩
  | child d p ih => exact .child ⟨rfl, rfl, rfl, rfl, rfl⟩ ih

namespace Scenario

/-- A node, and the node behind one more staked block. Both know the same tip, and find the same for
the coin of the chain. -/
structure Fork (node next : Node) (p : CBlockIndex) : Prop where
  first : Reaches (timed testNet) AnyCall node
  second : Reaches (timed testNet) AnyCall next
  known : node.Knows p
  kept : next.Knows p
  high : POS_v3_DIFFICULTY_HEIGHT ≤ p.nHeight
  moved : next.pindexBest ≠ node.pindexBest
  rules : (timed testNet).V3 node.nBestHeight = (timed testNet).V3 next.nBestHeight
  found : (node.previous (timed testNet) io 999).isSome = true
  shared : node.previous (timed testNet) io 999 = next.previous (timed testNet) io 999

theorem Tip.previous (h : Tip node p) :
    node.previous (timed testNet) io 999 = some ⟨2, some firstCoin,
      (node.files.blocks (coinPos.nFile, coinPos.nBlockPos)).map fun block =>
        (block.GetHash (timed testNet), block.nTime)⟩ := by
  obtain ⟨spent, hcoin⟩ := h.coin
  rw [Node.previous, hcoin, Option.map_some]
  exact congrArg (fun tx => some (Previous.mk 2 tx _)) h.buried.read

/-- Both nodes find the same for a block that stakes the coin of the chain. -/
theorem Fork.agreeOn {next : Node} (h : Fork node next p) :
    AgreeOn (stakeBlock p 999 (restake 999)) (node.previous (timed testNet) io)
      (next.previous (timed testNet) io) := by
  intro tx htx hcb txin htxin
  simp only [stakeBlock, List.mem_cons, List.not_mem_nil, or_false] at htx
  rcases htx with rfl | rfl
  · simp [coinbase, CTransaction.IsCoinBase, COutPoint.IsNull, COutPoint.null] at hcb
  · have honly : txin = coinIn 1 := List.mem_singleton.mp htxin
    rw [honly]
    exact h.shared

/-- A tall chain, and the time of a next block on it. -/
theorem exists_next : ∃ node p nTime, Tip node p ∧ POS_v3_DIFFICULTY_HEIGHT ≤ p.nHeight ∧
    Next p nTime ∧ nTime + 16 ≤ 10 ^ 8 := by
  obtain ⟨node, p, htip, hpaced, hheight, htime⟩ := exists_tall 100000 (by decide)
  refine ⟨node, p, 11008 + 64 * 100001, htip, ?_, ?_, by decide⟩
  · rw [hheight]
    decide
  · exact ⟨by omega, by decide, by decide, (hpaced.workable 0).2⟩

/-- The node behind one more block still has the tip it grew on. -/
theorem Tip.fork (h : Tip node p) (hhigh : POS_v3_DIFFICULTY_HEIGHT ≤ p.nHeight) {nTime : ℕ}
    (hnext : Next p nTime) {spent : Option CDiskTxPos}
    (hcoin : node.txdb.txindex 999 = some ⟨coinPos, [none, spent]⟩) :
    Fork node (stakedNode node p nTime spent) p := by
  have hlater := hnext.later
  have hpos : 0 < nTime := by omega
  have hnew := h.next hnext hcoin
  obtain ⟨nFile, nBlockPos, hentry, -⟩ :=
    entryFor_stakeBlock h.known hpos (restake_stakeTx nTime).coinStake
  have hfresh : node.mapBlockIndex
      ((stakeBlock p nTime (restake nTime)).GetHash (timed testNet)) = none := by
    rw [stakeBlock_hash hpos]
    exact (h.fresh (show p.label.nTime < nTime by omega) hnext.clock).1
  constructor
  case first => exact h.grown.reaches
  case second => exact hnew.grown.reaches
  case known => exact h.known
  case kept => exact h.known.store hfresh
  case high => exact hhigh
  case moved =>
    rw [h.best]
    intro heq
    have hsame : node.entryFor (timed testNet) (stakeBlock p nTime (restake nTime)) = p :=
      Option.some.inj heq
    have hparent : CBlockIndex.pprev p = some p := by
      rw [hentry] at hsame
      exact (congrArg CBlockIndex.pprev hsame).symm
    exact absurd (nHeight_of_pprev hparent) (by omega)
  case rules => rw [h.V3, hnew.V3]
  case found => rw [h.previous, Option.isSome_some]
  case shared =>
    have hkept := (h.buried.write h.stored (stakeBlock p nTime (restake nTime))).2.1
    rw [h.previous, hnew.previous]
    exact congrArg (fun stored : Option CBlock => some (Previous.mk 2 (some firstCoin)
      (stored.map fun block => (block.GetHash (timed testNet), block.nTime)))) hkept.symm

theorem exists_fork : ∃ node next p, Fork node next p := by
  obtain ⟨node, p, nTime, htip, hhigh, hnext, -⟩ := exists_next
  obtain ⟨spent, hcoin⟩ := htip.coin
  exact ⟨node, _, p, htip.fork hhigh hnext hcoin⟩

/-- A coin stake that spends an output of the coin stake with hash `nTime`. -/
def restakeOf (nTime nTime' : ℕ) : CTransaction :=
  ⟨1, nTime', [⟨⟨nTime, 1⟩, [], UINT_MAX⟩], [⟨0, []⟩, payTo 0], 0, []⟩

/-- Only the node behind the block finds its coin stake. -/
theorem Tip.previous_restake (h : Tip node p) {nTime : ℕ} (hnext : Next p nTime)
    (spent : Option CDiskTxPos) :
    node.previous (timed testNet) io nTime = none ∧
      (stakedNode node p nTime spent).previous (timed testNet) io nTime =
        some ⟨2, some (restake nTime), some (nTime, nTime)⟩ := by
  have hlater := hnext.later
  have hpos : 0 < nTime := by omega
  constructor
  · rw [Node.previous, (h.fresh (show p.label.nTime < nTime by omega) hnext.clock).2,
      Option.map_none]
  have hhash : (stakeBlock p nTime (restake nTime)).GetHash (timed testNet) = nTime :=
    stakeBlock_hash hpos
  have hnew : node.mapBlockIndex
      ((stakeBlock p nTime (restake nTime)).GetHash (timed testNet)) = none := by
    rw [hhash]
    exact (h.fresh (show p.label.nTime < nTime by omega) hnext.clock).1
  obtain ⟨hblock, htxs⟩ := h.grown.reaches.indexed.1.holds_store hnew
  have hindex : (stakedNode node p nTime spent).txdb.txindex nTime = some (.new (coinStakePos
      (node.entryFor (timed testNet) (stakeBlock p nTime (restake nTime))) p nTime) 2) :=
    Function.update_self _ _ _
  generalize node.entryFor (timed testNet) (stakeBlock p nTime (restake nTime)) = pindex
    at hblock htxs hindex
  have hmem : (coinStakePos pindex p nTime, restake nTime) ∈
      (stakeBlock p nTime (restake nTime)).positions pindex := by
    rw [positions_stakeBlock]
    exact List.mem_cons_of_mem _ List.mem_cons_self
  have hread : (stakedNode node p nTime spent).files.readTx (coinStakePos pindex p nTime) =
      some (restake nTime) := htxs _ hmem
  have hstored : (stakedNode node p nTime spent).files.blocks
      ((coinStakePos pindex p nTime).nFile, (coinStakePos pindex p nTime).nBlockPos) =
      some (stakeBlock p nTime (restake nTime)) := hblock
  have hslots : (CTxIndex.new (coinStakePos pindex p nTime) 2).vSpent.length = 2 := rfl
  have hpos' : (CTxIndex.new (coinStakePos pindex p nTime) 2).pos = coinStakePos pindex p nTime :=
    rfl
  rw [Node.previous, hindex, Option.map_some, hslots, hpos', visible_io, hread, hstored,
    Option.map_some, hhash]
  rfl

/-- On the chain that is below the block, the kernel of the spending coin stake is good. -/
theorem Tip.stakeOutcome_restakeOf (h : Tip node p) {nTime : ℕ} (hnext : Next p nTime) {nTime' : ℕ}
    (hle : nTime ≤ nTime') :
    stakeOutcome (timed testNet) true p (restakeOf nTime nTime') ⟨⟨nTime, 1⟩, [], UINT_MAX⟩
      (GetNextTargetRequired (timed testNet) p true 0)
      ⟨2, some (restake nTime), some (nTime, nTime)⟩ = true := by
  have hlater := hnext.later
  have hdeep : ∀ hash ∈ (p.line.map CBlockIndex.GetBlockHash).take
      ((timed testNet).nStakeMinConfirmations - 1), hash ≠ nTime := by
    intro hash hmem heq
    obtain ⟨q, hq, rfl⟩ := List.mem_map.mp (List.mem_of_mem_take hmem)
    have hknown : node.Knows q := h.grown.reaches.indexed.1.knows_line _ h.known hq
    have hnone := (h.fresh (show p.label.nTime < nTime by omega) hnext.clock).1
    rw [← heq] at hnone
    exact absurd (hnone.symm.trans hknown) (by simp)
  have hall : (((p.line.map CBlockIndex.GetBlockHash).take
      ((timed testNet).nStakeMinConfirmations - 1)).all (· != nTime)) = true := by
    rw [List.all_eq_true]
    exact fun hash hmem => bne_iff_ne.mpr (hdeep hash hmem)
  have hsign : VerifySignature (timed testNet) (restake nTime) (restakeOf nTime nTime') 0 0 =
      true := by
    simp [VerifySignature, restake, restakeOf, timed, CTransaction.GetHash]
  have htarget : (0 : ℤ) ≤ SetCompact (GetNextTargetRequired (timed testNet) p true 0) * 0 := by
    rw [mul_zero]
  have hkernel : CheckStakeKernelHashV2 (timed testNet) p
      (GetNextTargetRequired (timed testNet) p true 0) nTime (restake nTime) (payTo 0) ⟨nTime, 1⟩
      (restakeOf nTime nTime').nTime = true := by
    have hnot : ¬ nTime' < (restake nTime).nTime := Nat.not_lt.mpr hle
    have hzero : ∀ nStakeModifier, (timed testNet).kernelHash nStakeModifier nTime
        (restake nTime).nTime ⟨nTime, 1⟩ nTime' = 0 := fun _ => rfl
    simp only [CheckStakeKernelHashV2, restakeOf, if_neg hnot, hzero]
    exact decide_eq_true htarget
  have hout : (restake nTime).vout[1]? = some (payTo 0) := rfl
  simp only [stakeOutcome, hout, hsign, hall, hkernel, if_true, Bool.true_and]

theorem restakeOf_stakeTx (nTime nTime' : ℕ) : StakeTx nTime' (restakeOf nTime nTime') := by
  have hnull : COutPoint.IsNull ⟨nTime, 1⟩ = false := Bool.and_false (nTime == 0)
  have hcs : (restakeOf nTime nTime').IsCoinStake = true := by
    simp [CTransaction.IsCoinStake, restakeOf, hnull]
    rfl
  have hcb : (restakeOf nTime nTime').IsCoinBase = false := isCoinBase_of_isCoinStake hcs
  constructor
  case coinStake => exact hcs
  case time => rfl
  case version => exact show (1 : ℤ) ≠ 5 by decide
  case final => rfl
  case checked =>
    have hsize : (restakeOf nTime nTime').GetSerializeSize ≤ MAX_BLOCK_SIZE :=
      Nat.le_of_ble_eq_true rfl
    have hnotNull : ((restakeOf nTime nTime').vin.all fun txin => !txin.prevout.IsNull) = true := by
      simp [restakeOf, hnull]
    have houts : CTransaction.checkOutputs false (restakeOf nTime nTime').vout 0 = true := rfl
    simp only [CTransaction.CheckTransaction, hcs, hcb, hsize, hnotNull, Bool.not_true,
      Bool.and_false, houts]
    simp [restakeOf]
  case size => exact Nat.le_of_ble_eq_true rfl
  case sigOps => exact show (0 : ℕ) ≤ 5000 by decide

/-- The target of a block with such a coin stake is the one required, at either node. -/
theorem checkTarget_restakeOf (h : Reaches (timed testNet) AnyCall node) (p : CBlockIndex)
    (nTime nTime' : ℕ) :
    checkTarget (timed testNet) io node p (stakeBlock p nTime' (restakeOf nTime nTime')) =
      .ok () := by
  have hstake := restakeOf_stakeTx nTime nTime'
  have hcb := (stakeCoinbase_checks p nTime').1
  have hvtx : (stakeBlock p nTime' (restakeOf nTime nTime')).vtx =
      [stakeCoinbase p nTime', restakeOf nTime nTime'] := rfl
  have hout : (restakeOf nTime nTime').GetValueOut = .ok 0 := rfl
  have hproof : (stakeBlock p nTime' (restakeOf nTime nTime')).IsProofOfStake = true :=
    hstake.coinStake
  have hnBits : (stakeBlock p nTime' (restakeOf nTime nTime')).nBits =
      GetNextTargetRequired (timed testNet) p true 0 := rfl
  have hfees : foundFees (node.previous (timed testNet) io)
      (stakeBlock p nTime' (restakeOf nTime nTime')).vtx 0 = .ok 0 := by
    rw [hvtx, foundFees, if_pos hcb, foundFees,
      if_neg (Bool.eq_false_iff.mp (isCoinBase_of_isCoinStake hstake.coinStake))]
    cases foundValueIn (node.previous (timed testNet) io) (restakeOf nTime nTime').vin 0 with
    | none => rfl
    | some nTxValueIn =>
      simp only [hout, hstake.coinStake, if_true, bind, Except.bind, foundFees]
  rw [checkTarget_found h, targetOutcome, hfees, hproof]
  simp only [require, hnBits, if_true, bind, Except.bind]

theorem proofChecks_agree_fork : ∃ node next p, Fork node next p ∧
    checkTarget (timed testNet) io node p (stakeBlock p 999 (restake 999)) =
      checkTarget (timed testNet) io next p (stakeBlock p 999 (restake 999)) ∧
    checkKernel (timed testNet) io node p (stakeBlock p 999 (restake 999)) =
      checkKernel (timed testNet) io next p (stakeBlock p 999 (restake 999)) := by
  obtain ⟨node, next, p, hfork⟩ := exists_fork
  exact ⟨node, next, p, hfork, proofChecks_agree hfork.first hfork.second hfork.known hfork.kept
    (SameBlocks.refl p) hfork.high hfork.rules hfork.agreeOn⟩

end Scenario

end Dions
