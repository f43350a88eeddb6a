import Dions.Verification.Alias.Commitment

/-! # The miner and the validator

`CreateNewBlock` runs `ConnectInputs` with the tip as reference block, `ConnectBlock` with the
block itself, one higher. Everything the miner accepts passes in the block, except a relay whose
alias is one block short of its expiry. -/

namespace Dions

open Halting

variable {env : Env}
variable {d : BlockIndexData} {p : CBlockIndex} {txindex : CTxIndex} {tx : CTransaction}
  {pool : TxIndexMap}
variable {nTime : ℕ} {vin : List CTxIn} {pindex : Option CBlockIndex} {inputs' : MapPrevTx}
  {pool' : TxIndexMap} {g g₁ : Globals} {vTxindex : List CTxIndex}

/-! ## Depths below a block and below its parent -/

def CBlockIndex.IsAt (nFile nBlockPos : ℕ) (pindex : CBlockIndex) : Bool :=
  decide (pindex.nBlockPos = nBlockPos ∧ pindex.nFile = nFile)

theorem depthOf_eq (nFile nBlockPos nMaxDepth : ℕ) (pindex : CBlockIndex) (distance : ℕ) :
    pindex.depthOf nFile nBlockPos nMaxDepth distance =
      ((Lineage.line pindex).findIdx? (CBlockIndex.IsAt nFile nBlockPos)).bind fun j =>
        if distance + j < nMaxDepth then some (distance + j) else none := by
  induction pindex generalizing distance with
  | root d =>
    have hat : CBlockIndex.IsAt nFile nBlockPos (.root d) =
        decide (d.nBlockPos = nBlockPos ∧ d.nFile = nFile) := rfl
    by_cases h : d.nBlockPos = nBlockPos ∧ d.nFile = nFile
    · simp [CBlockIndex.depthOf, Lineage.line, List.findIdx?_cons, hat, h]
    · simp [CBlockIndex.depthOf, Lineage.line, List.findIdx?_cons, hat, h]
  | child d p ih =>
    have hat : CBlockIndex.IsAt nFile nBlockPos (.child d p) =
        decide (d.nBlockPos = nBlockPos ∧ d.nFile = nFile) := rfl
    rw [CBlockIndex.depthOf, Lineage.line, List.findIdx?_cons, hat]
    by_cases h : d.nBlockPos = nBlockPos ∧ d.nFile = nFile
    · simp [h]
    · simp only [h, decide_false, Bool.false_eq_true, if_false]
      by_cases hlt : distance < nMaxDepth
      · rw [if_pos hlt, ih]
        cases (Lineage.line p).findIdx? (CBlockIndex.IsAt nFile nBlockPos) with
        | none => rfl
        | some j =>
          simp only [Option.map_some, Option.bind_some]
          rw [show distance + 1 + j = distance + (j + 1) by omega]
      · rw [if_neg hlt]
        cases (Lineage.line p).findIdx? (CBlockIndex.IsAt nFile nBlockPos) with
        | none => rfl
        | some j =>
          simp only [Option.map_some, Option.bind_some]
          rw [if_neg (by omega)]

/-- A transaction outside the block itself is one deeper below the block than below its parent. -/
theorem depth_child
    (hout : CBlockIndex.IsAt txindex.pos.nFile txindex.pos.nBlockPos (.child d p) = false)
    (maxDepth : ℕ) :
    CheckTransactionAtRelativeDepth (some (.child d p)) txindex maxDepth =
      (CheckTransactionAtRelativeDepth (some p) txindex maxDepth).bind fun n =>
        if n + 1 < maxDepth then some (n + 1) else none := by
  simp only [CheckTransactionAtRelativeDepth, depthOf_eq, Lineage.line, List.findIdx?_cons, hout,
    Bool.false_eq_true, if_false]
  cases (Lineage.line p).findIdx? _ with
  | none => rfl
  | some j =>
    simp only [Option.map_some, Option.bind_some, Nat.zero_add]
    by_cases h : j < maxDepth
    · simp [h]
    · simp [h, show ¬ j + 1 < maxDepth by omega]

theorem depth_child_none
    (hout : CBlockIndex.IsAt txindex.pos.nFile txindex.pos.nBlockPos (.child d p) = false)
    {maxDepth : ℕ} (h : CheckTransactionAtRelativeDepth (some p) txindex maxDepth = none) :
    CheckTransactionAtRelativeDepth (some (.child d p)) txindex maxDepth = none := by
  rw [depth_child hout, h]
  rfl

theorem depth_lt {maxDepth n : ℕ}
    (h : CheckTransactionAtRelativeDepth (some p) txindex maxDepth = some n) : n < maxDepth := by
  simp only [CheckTransactionAtRelativeDepth, depthOf_eq, Nat.zero_add] at h
  obtain ⟨j, -, hj⟩ := Option.bind_eq_some_iff.mp h
  split at hj
  · rename_i hlt
    exact Option.some.inj hj ▸ hlt
  · simp at hj

/-! ## The two loops of ConnectInputs -/

/-- What the inputs refer to lies outside the block. -/
def OutsideBlock (inputs : MapPrevTx) (pindex : CBlockIndex) (tx : CTransaction) : Prop :=
  ∀ txin ∈ tx.vin, ∀ txindex txPrev, inputs txin.prevout.hash = some (txindex, txPrev) →
    CBlockIndex.IsAt txindex.pos.nFile txindex.pos.nBlockPos pindex = false

theorem inputChecks_child {inputs : MapPrevTx} {acc t : InputTally}
    (hout : ∀ txin ∈ vin, ∀ txindex txPrev, inputs txin.prevout.hash = some (txindex, txPrev) →
      CBlockIndex.IsAt txindex.pos.nFile txindex.pos.nBlockPos (.child d p) = false)
    (h : inputChecks env inputs (some p) nTime vin acc = .ok t) :
    inputChecks env inputs (some (.child d p)) nTime vin acc = .ok t := by
  induction vin generalizing acc with
  | nil => exact h
  | cons txin vin ih =>
    obtain ⟨hhead, htail⟩ := List.forall_mem_cons.mp hout
    simp only [inputChecks] at h ⊢
    split at h
    · simp at h
    rename_i txindex txPrev hin
    split at h
    · simp at h
    simp only [seq_ok, require_eq_ok] at h ⊢
    obtain ⟨_, hrange, _, hmature, _, htime, _, hmoney, hrest⟩ := h
    refine ⟨(), hrange, (), fun hcb => ?_, (), htime, (), hmoney, ih htail hrest⟩
    exact depth_child_none (hhead _ _ hin) (hmature hcb)

theorem inputChecks_lists {inputs : MapPrevTx} {acc t : InputTally}
    (h : inputChecks env inputs pindex nTime vin acc = .ok t) :
    ∃ ps : List (CTxIndex × CTransaction),
      List.Forall₂ (fun txin p => inputs txin.prevout.hash = some p) vin ps ∧
        t.vTxPrev = acc.vTxPrev ++ ps.map Prod.snd ∧
        t.vTxindex = acc.vTxindex ++ ps.map Prod.fst := by
  induction vin generalizing acc with
  | nil =>
    rw [inputChecks, Except.ok.injEq] at h
    exact ⟨[], .nil, by simp [h], by simp [h]⟩
  | cons txin vin ih =>
    simp only [inputChecks] at h
    split at h
    · simp at h
    rename_i txindex txPrev hin
    split at h
    · simp at h
    simp only [seq_ok, require_eq_ok] at h
    obtain ⟨_, _, _, _, _, _, _, _, hrest⟩ := h
    obtain ⟨ps, hps, hprev, hindex⟩ := ih hrest
    exact ⟨(txindex, txPrev) :: ps, .cons hin hps, by simp [hprev], by simp [hindex]⟩

/-- The same transactions with the same outputs spent, at whatever positions. -/
def SameSpent (inputs inputs' : MapPrevTx) : Prop :=
  ∀ hash txindex txPrev, inputs hash = some (txindex, txPrev) → ∃ txindex',
    inputs' hash = some (txindex', txPrev) ∧
      txindex'.vSpent.map Option.isSome = txindex.vSpent.map Option.isSome

theorem SameSpent.refl (inputs : MapPrevTx) : SameSpent inputs inputs := fun _ txindex _ h =>
  ⟨txindex, h, rfl⟩

theorem SameSpent.spend {inputs : MapPrevTx} (h : SameSpent inputs inputs') {hash : uint256}
    {txindex txindex' : CTxIndex} {txPrev : CTransaction}
    (hsame : txindex'.vSpent.map Option.isSome = txindex.vSpent.map Option.isSome) (n : ℕ)
    (pos pos' : CDiskTxPos) :
    SameSpent (Function.update inputs hash (some (txindex.spend n pos, txPrev)))
      (Function.update inputs' hash (some (txindex'.spend n pos', txPrev))) := by
  intro hash' index prev hin
  by_cases hh : hash' = hash
  · subst hh
    rw [Function.update_self, Option.some.injEq, Prod.mk.injEq] at hin
    obtain ⟨rfl, rfl⟩ := hin
    refine ⟨_, Function.update_self _ _ _, ?_⟩
    simp only [CTxIndex.spend, List.map_set, hsame, Option.isSome_some]
  · rw [Function.update_of_ne hh] at hin ⊢
    exact h _ _ _ hin

/-- The second loop only looks at which outputs are spent and at the signatures. -/
theorem spendInputs_block {view : View} {pos pos' : CDiskTxPos} {flags flags' : ℕ} {k : ℕ}
    {inputs : MapPrevTx} {q : TxIndexMap} (hsame : SameSpent inputs inputs')
    (hscripts : ∀ (j : ℕ) txin txindex txPrev, vin[j]? = some txin →
      inputs txin.prevout.hash = some (txindex, txPrev) →
      VerifySignature env txPrev tx (k + j) flags' = true)
    (h : spendInputs env view tx pos false true flags vin k inputs pool = .ok q) :
    ∃ q', spendInputs env view tx pos' true false flags' vin k inputs' pool' = .ok q' := by
  induction vin generalizing k inputs inputs' pool pool' with
  | nil => exact ⟨pool', rfl⟩
  | cons txin vin ih =>
    simp only [spendInputs] at h ⊢
    split at h
    · simp at h
    rename_i txindex txPrev hin
    obtain ⟨txindex', hin', hspent⟩ := hsame _ _ _ hin
    simp only [hin', seq_ok, access_eq_ok, require_eq_ok] at h ⊢
    obtain ⟨spent, hslot, txout, hout, _, hfree, _, _, hrest⟩ := h
    have hslot' : (txindex'.vSpent[txin.prevout.n]?).map Option.isSome = some spent.isSome := by
      rw [← List.getElem?_map, hspent, List.getElem?_map, hslot]
      rfl
    obtain ⟨spent', hget, hisSome⟩ := Option.map_eq_some_iff.mp hslot'
    have hverify := hscripts 0 txin txindex txPrev rfl hin
    have hkept : ∀ (j : ℕ) txin' index prev, vin[j]? = some txin' →
        Function.update inputs txin.prevout.hash (some (txindex.spend txin.prevout.n pos, txPrev))
          txin'.prevout.hash = some (index, prev) →
        VerifySignature env prev tx (k + 1 + j) flags' = true := by
      intro j txin' index prev hj hprev
      rw [show k + 1 + j = k + (j + 1) by omega]
      by_cases hh : txin'.prevout.hash = txin.prevout.hash
      · rw [hh, Function.update_self, Option.some.injEq, Prod.mk.injEq] at hprev
        rw [← hprev.2]
        exact hscripts (j + 1) txin' txindex txPrev hj (hh ▸ hin)
      · rw [Function.update_of_ne hh] at hprev
        exact hscripts (j + 1) txin' index prev hj hprev
    have hnext : ∃ q', spendInputs env view tx pos' true false flags' vin (k + 1)
        (Function.update inputs' txin.prevout.hash
          (some (txindex'.spend txin.prevout.n pos', txPrev)))
        (if true || false then
          Function.update pool' txin.prevout.hash (some (txindex'.spend txin.prevout.n pos'))
        else pool') = .ok q' := ih (hsame.spend hspent txin.prevout.n pos pos') hkept hrest
    obtain ⟨q', hq'⟩ := hnext
    exact ⟨q', spent', hget, txout, hout, (), by rwa [hisSome], (), .inr hverify, hq'⟩

/-! ## ConnectInputsPost -/

/-- A relay whose alias lies as deep below the tip as a record can without being expired there. -/
def RelaysAtExpiry (env : Env) (inputs : MapPrevTx) (p : CBlockIndex) (tx : CTransaction) : Prop :=
  tx.IsCoinBase = false ∧ tx.IsCoinStake = false ∧ (aliasTx tx).op.getD 0 = OP_ALIAS_RELAY ∧
    ∃ txin ∈ tx.vin, ∃ txindex txPrev out, inputs txin.prevout.hash = some (txindex, txPrev) ∧
      txPrev.vout[txin.prevout.n]? = some out ∧ (aliasScript out.scriptPubKey none).ret = true ∧
      CheckTransactionAtRelativeDepth (some p) txindex env.scaleMonitor =
        some (env.scaleMonitor - 1)

/-- What the switch asks of a relay in a block or of the miner: the checks of its arguments, and that
the alias has not expired. -/
theorem connectInputsSwitch_relay_iff {prev : PrevAlias} {fBlock fMiner : Bool}
    {vvchArgs : List vchType} (hmode : fBlock = true ∨ fMiner = true) :
    connectInputsSwitch env g pool tx prev vTxindex pindex fBlock fMiner OP_ALIAS_RELAY vvchArgs =
        .ok g₁ ↔ checkAliasRelay prev vvchArgs = .ok () ∧ ∃ txindex,
      vTxindex[prev.nInput]? = some txindex ∧
        (CheckTransactionAtRelativeDepth pindex txindex env.scaleMonitor).isSome = true ∧ g = g₁ := by
  simp [connectInputsSwitch, OP_ALIAS_SET, OP_PUBLIC_KEY, OP_VERTEX, OP_ENCRYPTED_MESSAGE,
    OP_MAP_PROJECT, OP_MESSAGE, OP_ALIAS_ENCRYPTED, OP_ALIAS_RELAY, seq_ok, hmode,
    Option.isSome_iff_ne_none]
  exact fun _ _ _ _ => ⟨fun h => h.choose_spec, fun hcheck => ⟨(), hcheck⟩⟩

/-- The switch in both modes: they differ in the expiry of a relay only. -/
theorem connectInputsSwitch_block_iff {g' : Globals} {prev : PrevAlias} {op : ℕ}
    {vvchArgs : List vchType} (hout : ∀ txindex, vTxindex[prev.nInput]? = some txindex →
      CBlockIndex.IsAt txindex.pos.nFile txindex.pos.nBlockPos (.child d p) = false)
    (h : connectInputsSwitch env g pool tx prev vTxindex (some p) false true op vvchArgs =
      .ok g₁) :
    (∃ g₂, connectInputsSwitch env g' pool' tx prev vTxindex (some (.child d p)) true false op
        vvchArgs = .ok g₂) ↔
      ¬ (op = OP_ALIAS_RELAY ∧ prev.found = true ∧ ∃ txindex,
        vTxindex[prev.nInput]? = some txindex ∧
          CheckTransactionAtRelativeDepth (some p) txindex env.scaleMonitor =
            some (env.scaleMonitor - 1)) := by
  by_cases hrelay : op = OP_ALIAS_RELAY
  · subst hrelay
    rw [connectInputsSwitch_relay_iff (.inr rfl)] at h
    obtain ⟨hcheck, txindex, hindex, hsome, -⟩ := h
    have hfound : prev.found = true := by
      simp only [checkAliasRelay, seq_ok, require_eq_ok] at hcheck
      exact hcheck.choose_spec.1.1
    obtain ⟨n, hn⟩ := Option.isSome_iff_exists.mp hsome
    have hlt := depth_lt hn
    simp only [connectInputsSwitch_relay_iff (Or.inl rfl), hcheck, true_and, hindex, Option.some.injEq, exists_eq_left',
      exists_eq_right', depth_child (hout txindex hindex), hn, Option.bind_some, hfound]
    split
    · rename_i hnext
      simp only [Option.isSome_some, true_iff]
      omega
    · rename_i hlast
      simp only [Option.isSome_none, Bool.false_eq_true, false_iff, not_not]
      omega
  · simp only [hrelay, false_and, not_false_eq_true, iff_true]
    unfold connectInputsSwitch at h ⊢
    by_cases hkeys : op = OP_PUBLIC_KEY ∨ op = OP_VERTEX
    · rw [if_pos hkeys] at h ⊢
      simp only [seq_ok, within_eq_ok, read_eq_ok] at h ⊢
      obtain ⟨u, hcheck, a, ha, b, hb, -⟩ := h
      by_cases hnew : (g'.k1Export (a ++ b)).isNone = true
      · exact ⟨_, u, hcheck, a, ha, b, hb, if_pos hnew⟩
      · exact ⟨_, u, hcheck, a, ha, b, hb, if_neg hnew⟩
    rw [if_neg hkeys] at h ⊢
    by_cases hencrypted : op = OP_ENCRYPTED_MESSAGE ∨ op = OP_MAP_PROJECT
    · rw [if_pos hencrypted] at h ⊢
      simp only [seq_ok, within_eq_ok] at h ⊢
      obtain ⟨u, hcheck, -⟩ := h
      exact ⟨g', u, hcheck, rfl⟩
    rw [if_neg hencrypted] at h ⊢
    by_cases hmessage : op = OP_MESSAGE
    · rw [if_pos hmessage] at h ⊢
      simp only [seq_ok, within_eq_ok] at h ⊢
      obtain ⟨u, hcheck, -⟩ := h
      exact ⟨g', u, hcheck, rfl⟩
    rw [if_neg hmessage] at h ⊢
    by_cases halias : op = OP_ALIAS_ENCRYPTED
    · rw [if_pos halias] at h ⊢
      simp only [seq_ok, within_eq_ok] at h ⊢
      obtain ⟨u, hcheck, -⟩ := h
      exact ⟨g', u, hcheck, rfl⟩
    rw [if_neg halias] at h ⊢
    by_cases hset : op = OP_ALIAS_SET
    · rw [if_pos hset] at h ⊢
      simp only [seq_ok, within_eq_ok, access_eq_ok, require_eq_ok] at h ⊢
      obtain ⟨u, hcheck, txindex, hindex, -⟩ := h
      refine ⟨g', u, hcheck, txindex, hindex, (), ?_, rfl⟩
      -- only the block itself is less than one deep
      rintro ⟨-, hdepth⟩
      rw [depth_child (hout txindex hindex), MIN_SET_DEPTH] at hdepth
      obtain ⟨n, hn⟩ := Option.isSome_iff_exists.mp hdepth
      obtain ⟨m, -, hm⟩ := Option.bind_eq_some_iff.mp hn
      simp at hm
    · rw [if_neg hset, if_neg hrelay] at h
      simp at h

theorem forall₂_getElem? {α β : Type} {R : α → β → Prop} {xs : List α} {ys : List β}
    (h : List.Forall₂ R xs ys) {k : ℕ} {x : α} (hx : xs[k]? = some x) :
    ∃ y, ys[k]? = some y ∧ R x y := by
  induction h generalizing k with
  | nil => simp at hx
  | @cons x' y xs ys hxy _ ih =>
    cases k with
    | zero =>
      rw [List.getElem?_cons_zero, Option.some.injEq] at hx
      exact ⟨y, rfl, hx ▸ hxy⟩
    | succ k =>
      rw [List.getElem?_cons_succ] at hx ⊢
      exact ih hx

/-- `ConnectInputsPost` in both modes, on the previous transactions that the first loop keeps. -/
theorem connectInputsPost_block_iff {view : View} {g' : Globals} {inputs : MapPrevTx}
    {ps : List (CTxIndex × CTransaction)} (hcb : tx.IsCoinBase = false)
    (hcs : tx.IsCoinStake = false) (hversion : tx.nVersion = CTransaction.DION_TX_VERSION)
    (hps : List.Forall₂ (fun txin q => inputs txin.prevout.hash = some q) tx.vin ps)
    (hout : OutsideBlock inputs (.child d p) tx)
    (h : ConnectInputsPost env view g pool tx (ps.map Prod.snd) (ps.map Prod.fst) (some p) false
      true = .ok g₁) :
    (∃ g₂, ConnectInputsPost env view g' pool' tx (ps.map Prod.snd) (ps.map Prod.fst)
        (some (.child d p)) true false = .ok g₂) ↔ ¬ RelaysAtExpiry env inputs p tx := by
  -- an index in the lists is an index in the inputs
  have hlists : ∀ {k : ℕ} {txindex : CTxIndex}, (ps.map Prod.fst)[k]? = some txindex →
      ∃ txin txPrev, tx.vin[k]? = some txin ∧ (ps.map Prod.snd)[k]? = some txPrev ∧
        inputs txin.prevout.hash = some (txindex, txPrev) := by
    intro k txindex hk
    rw [List.getElem?_map] at hk
    obtain ⟨⟨txindex', txPrev⟩, hp, rfl⟩ := Option.map_eq_some_iff.mp hk
    obtain ⟨txin, hin, hprev⟩ := forall₂_getElem? hps.flip hp
    exact ⟨txin, txPrev, hin, by rw [List.getElem?_map, hp]; rfl, hprev⟩
  have hplaced : ∀ {k : ℕ} {txindex : CTxIndex}, (ps.map Prod.fst)[k]? = some txindex →
      CBlockIndex.IsAt txindex.pos.nFile txindex.pos.nBlockPos (.child d p) = false := by
    intro k txindex hk
    obtain ⟨txin, txPrev, hin, -, hprev⟩ := hlists hk
    exact hout txin (List.mem_of_getElem? hin) _ _ hprev
  unfold ConnectInputsPost at h ⊢
  simp only [hversion, ne_eq, not_true_eq_false, if_false, seq_ok, within_eq_ok,
    require_eq_ok, read_eq_ok] at h ⊢
  obtain ⟨outs, houts, prev, hloop, u, hret, name, hname, v, hlength, g₂, hswitch, -⟩ := h
  have hstep : (∃ g₂, connectInputsSwitch env g' pool' tx prev (ps.map Prod.fst)
      (some (.child d p)) true false ((aliasTx tx).op.getD 0) (aliasTx tx).vvch = .ok g₂) ↔ _ :=
    connectInputsSwitch_block_iff (fun _ hk => hplaced hk) hswitch
  have hexpiry : ((aliasTx tx).op.getD 0 = OP_ALIAS_RELAY ∧ prev.found = true ∧ ∃ txindex,
      (ps.map Prod.fst)[prev.nInput]? = some txindex ∧
        CheckTransactionAtRelativeDepth (some p) txindex env.scaleMonitor =
          some (env.scaleMonitor - 1)) ↔ RelaysAtExpiry env inputs p tx := by
    constructor
    · rintro ⟨hop, hfound, txindex, hindex, hdepth⟩
      obtain ⟨out, hmem, halias⟩ := prevAliasLoop_exists hloop rfl hfound
      obtain ⟨k, hk⟩ := List.getElem?_of_mem hmem
      obtain ⟨-, hn, -⟩ := prevAliasLoop_at hloop hk halias
      obtain ⟨txin, txPrev, hin, hprev, hread⟩ := (prevOutputs_getElem? houts).mp hk
      rw [hn, Nat.zero_add] at hindex
      obtain ⟨txin', txPrev', hin', hprev', hfetched⟩ := hlists hindex
      rw [hin, Option.some.injEq] at hin'
      rw [hprev, Option.some.injEq] at hprev'
      subst hin' hprev'
      exact ⟨hcb, hcs, hop, txin, List.mem_of_getElem? hin, txindex, txPrev, out, hfetched, hread,
        halias, hdepth⟩
    · rintro ⟨-, -, hop, txin, hmem, txindex, txPrev, out, hfetched, hread, halias, hdepth⟩
      obtain ⟨k, hk⟩ := List.getElem?_of_mem hmem
      obtain ⟨q, hq, hfetched'⟩ := forall₂_getElem? hps hk
      rw [hfetched, Option.some.injEq] at hfetched'
      have hfst : (ps.map Prod.fst)[k]? = some txindex := by
        rw [List.getElem?_map, hq, ← hfetched']
        rfl
      have hsnd : (ps.map Prod.snd)[k]? = some txPrev := by
        rw [List.getElem?_map, hq, ← hfetched']
        rfl
      have hspent := (prevOutputs_getElem? houts).mpr ⟨txin, txPrev, hk, hsnd, hread⟩
      obtain ⟨hfound, hn, -⟩ := prevAliasLoop_at hloop hspent halias
      exact ⟨hop, hfound, txindex, by rw [hn, Nat.zero_add]; exact hfst, hdepth⟩
  rw [← hexpiry, ← hstep]
  constructor
  · rintro ⟨_, _, houts', _, hloop', _, _, name', hname', _, _, g₃, hswitch', _⟩
    rw [houts, Except.ok.injEq] at houts'
    subst houts'
    rw [hloop, Except.ok.injEq] at hloop'
    subst hloop'
    exact ⟨g₃, hswitch'⟩
  · rintro ⟨g₃, hswitch'⟩
    by_cases hop : (aliasTx tx).op.getD 0 = OP_ALIAS_ENCRYPTED
    · exact ⟨g₃, outs, houts, prev, hloop, u, hret, name, hname, v, hlength, g₃, hswitch',
        by simp [hop]⟩
    · exact ⟨{ g₃ with mapState := g₃.mapState.erase name (tx.GetHash env) }, outs, houts, prev,
        hloop, u, hret, name, hname, v, hlength, g₃, hswitch', by simp [hop]⟩

/-- What the miner accepts for the next block passes in the block exactly when it is no relay one
block short of the expiry of its alias. -/
theorem miner_block_agree_iff {view : View} {g g' : Globals} {inputs : MapPrevTx}
    {pool pool' : TxIndexMap} {pos pos' : CDiskTxPos} {flags flags' : ℕ} {tx : CTransaction}
    {d : BlockIndexData} {p : CBlockIndex} {r : TxIndexMap × Globals}
    (hversion : tx.nVersion = CTransaction.DION_TX_VERSION)
    (hout : OutsideBlock inputs (.child d p) tx)
    (hscripts : ∀ (k : ℕ) txin txindex txPrev, tx.vin[k]? = some txin →
      inputs txin.prevout.hash = some (txindex, txPrev) →
      VerifySignature env txPrev tx k flags' = true)
    (hminer : tx.ConnectInputs env view g inputs pool pos (some p) false true flags = .ok r) :
    (∃ r', tx.ConnectInputs env view g' inputs pool' pos' (some (.child d p)) true false flags' =
        .ok r') ↔ ¬ RelaysAtExpiry env inputs p tx := by
  by_cases hcb : tx.IsCoinBase = true
  · have hblock : ∃ r', tx.ConnectInputs env view g' inputs pool' pos' (some (.child d p)) true
        false flags' = .ok r' := ⟨(pool', g'), by rw [CTransaction.ConnectInputs, if_pos hcb]⟩
    refine iff_of_true hblock fun hrelay => ?_
    rw [hrelay.1] at hcb
    simp at hcb
  have hcb' : tx.IsCoinBase = false := by simpa using hcb
  simp only [CTransaction.ConnectInputs, hcb', Bool.false_eq_true, if_false, seq_ok,
    within_eq_ok] at hminer ⊢
  obtain ⟨t, hchecks, q, hspend, hminer⟩ := hminer
  have hchecks' := inputChecks_child hout hchecks
  have hscripts' : ∀ (j : ℕ) txin txindex txPrev, tx.vin[j]? = some txin →
      inputs txin.prevout.hash = some (txindex, txPrev) →
      VerifySignature env txPrev tx (0 + j) flags' = true := by
    simpa using hscripts
  have hspend' : ∃ q', spendInputs env view tx pos' true false flags' tx.vin 0 inputs pool' =
      .ok q' := spendInputs_block (SameSpent.refl inputs) hscripts' hspend
  obtain ⟨q', hspend'⟩ := hspend'
  by_cases hcs : tx.IsCoinStake = true
  · refine iff_of_true ⟨(q', g'), t, hchecks', q', hspend', by rw [if_pos hcs]⟩ fun hrelay => ?_
    rw [hrelay.2.1] at hcs
    simp at hcs
  have hcs' : tx.IsCoinStake = false := by simpa using hcs
  simp only [hcs', Bool.false_eq_true, if_false, seq_ok, within_eq_ok, require_eq_ok] at hminer ⊢
  obtain ⟨nValueOut, hvalue, u, henough, g₁, hpost, u', hpositive, u'', hfee, u''', hmoney, -⟩ :=
    hminer
  obtain ⟨ps, hps, hprev, hindex⟩ := inputChecks_lists hchecks
  simp only [List.nil_append] at hprev hindex
  have hstep : (∃ g₂, ConnectInputsPost env view g' q' tx (ps.map Prod.snd) (ps.map Prod.fst)
      (some (.child d p)) true false = .ok g₂) ↔ ¬ RelaysAtExpiry env inputs p tx := by
    rw [hprev, hindex] at hpost
    exact connectInputsPost_block_iff hcb' hcs' hversion hps hout hpost
  rw [← hstep]
  constructor
  · rintro ⟨r', t', hchecks'', q'', hspend'', _, _, _, _, g₂, hpost', _⟩
    rw [hchecks', Except.ok.injEq] at hchecks''
    subst hchecks''
    rw [hspend', Except.ok.injEq] at hspend''
    subst hspend''
    rw [hprev, hindex] at hpost'
    exact ⟨g₂, hpost'⟩
  · rintro ⟨g₂, hpost'⟩
    refine ⟨(q', g₂), t, hchecks', q', hspend', nValueOut, hvalue, u, henough, g₂, ?_, u',
      hpositive, u'', hfee, u''', hmoney, rfl⟩
    rw [hprev, hindex]
    exact hpost'

namespace Scenario

/-- A chain of the given height whose blocks lie one behind the other in the first file. -/
def chainOf : ℕ → CBlockIndex
  | 0 => .root ⟨0, 1, 8, false, 0, true, 0, 0⟩
  | n + 1 => .child ⟨n + 1, 1, 1000 * (n + 1), false, 0, false, n + 1, 0⟩ (chainOf n)

def nextData (n : ℕ) : BlockIndexData := ⟨n + 1, 1, 1000 * (n + 1), false, 0, false, n + 1, 0⟩

def setFirst : CTransaction :=
  spending 900 CTransaction.DION_TX_VERSION [] [⟨10 * COIN, aliasSet⟩]

/-- A relay that spends it. -/
def relaySet : CTransaction :=
  spending 1000 CTransaction.DION_TX_VERSION [⟨900, 0⟩] [⟨9 * COIN, aliasRelay⟩]

def setInputs : MapPrevTx := fun hash =>
  if hash = 900 then some (CTxIndex.new ⟨1, 8, 89⟩ 1, setFirst) else none

def setView : View :=
  { Node.empty.view io with
    ln1Db := fun v => if v = [0x61] then some [⟨⟨1, 8, 89⟩, 0, [], []⟩] else none }

/-- The relay in the miner's mode on top of a chain of height `n`. -/
def minesRelay (n : ℕ) : Halt Globals (TxIndexMap × Globals) :=
  relaySet.ConnectInputs (timed testNet) setView Node.empty.toGlobals setInputs (fun _ => none)
    CDiskTxPos.memory (some (chainOf n)) false true MANDATORY_SCRIPT_VERIFY_FLAGS

def blockRelay (n : ℕ) : Halt Globals (TxIndexMap × Globals) :=
  relaySet.ConnectInputs (timed testNet) setView Node.empty.toGlobals setInputs (fun _ => none)
    ⟨1, 1000 * (n + 1), 1000 * (n + 1) + 89⟩ (some (.child (nextData n) (chainOf n))) true false
    (scriptFlags (timed testNet) (n + 1))

theorem setInputs_eq {txin : CTxIn} {txPrev : CTransaction}
    (h : setInputs txin.prevout.hash = some (txindex, txPrev)) :
    txindex = CTxIndex.new ⟨1, 8, 89⟩ 1 ∧ txPrev = setFirst := by
  unfold setInputs at h
  split at h
  · rw [Option.some.injEq, Prod.mk.injEq] at h
    exact ⟨h.1.symm, h.2.symm⟩
  · simp at h

theorem relaySet_outside (n : ℕ) :
    OutsideBlock setInputs (.child (nextData n) (chainOf n)) relaySet := by
  intro txin _ txindex txPrev h
  obtain ⟨rfl, -⟩ := setInputs_eq h
  have hplace : CBlockIndex.IsAt 1 8 (.child (nextData n) (chainOf n)) =
      decide (1000 * (n + 1) = 8 ∧ 1 = 1) := rfl
  refine hplace.trans (decide_eq_false ?_)
  omega

theorem relaySet_scripts (flags : ℕ) : ∀ (k : ℕ) txin txindex txPrev,
    relaySet.vin[k]? = some txin → setInputs txin.prevout.hash = some (txindex, txPrev) →
      VerifySignature (timed testNet) txPrev relaySet k flags = true := by
  intro k txin txindex txPrev hin h
  obtain ⟨-, rfl⟩ := setInputs_eq h
  cases k with
  | zero => rfl
  | succ k => simp [relaySet, spending] at hin

end Scenario

open Scenario in
/-- Ten blocks above the set the miner and the validator agree. -/
theorem miner_block_agree_iff_young :
    ∃ r r', minesRelay 10 = .ok r ∧ blockRelay 10 = .ok r' := by
  have htest : (match minesRelay 10 with
      | .error _ => false
      | .ok _ => true) = true := by
    decide
  split at htest
  · simp at htest
  rename_i r hminer
  refine ⟨r, ?_⟩
  have hyoung : ¬ RelaysAtExpiry (timed testNet) setInputs (chainOf 10) relaySet := by
    rintro ⟨-, -, -, txin, -, txindex, txPrev, -, hfetched, -, -, hdepth⟩
    obtain ⟨rfl, -⟩ := setInputs_eq hfetched
    exact absurd hdepth (by decide)
  obtain ⟨r', hblock⟩ := (miner_block_agree_iff rfl (relaySet_outside 10)
    (relaySet_scripts (scriptFlags (timed testNet) 11)) hminer).mpr hyoung
  exact ⟨r', hminer, hblock⟩

open Scenario in
/-- On the test network records live for 200 blocks. On top of a chain of height 199 the miner
takes a relay of a set in the first block; in the next block it is refused. -/
theorem miner_takes_expiring_relay :
    (∃ r, minesRelay 199 = .ok r) ∧ (∀ r', blockRelay 199 ≠ .ok r') ∧
      OutsideBlock setInputs (.child (nextData 199) (chainOf 199)) relaySet ∧
      (∃ pindex ∈ Lineage.line (chainOf 199), CBlockIndex.IsAt 1 8 pindex = true) ∧
      ∀ flags (k : ℕ) txin txindex txPrev, relaySet.vin[k]? = some txin →
        setInputs txin.prevout.hash = some (txindex, txPrev) →
        VerifySignature (timed testNet) txPrev relaySet k flags = true := by
  have htest : (match minesRelay 199, blockRelay 199 with
      | .ok _, .error _ => true
      | _, _ => false) = true := by
    decide +kernel
  have honchain : ((Lineage.line (chainOf 199)).any (CBlockIndex.IsAt 1 8)) = true := by
    decide
  split at htest
  · rename_i r e hminer hblock
    refine ⟨⟨r, hminer⟩, fun r' hr' => ?_, relaySet_outside 199, List.any_eq_true.mp honchain,
      relaySet_scripts⟩
    rw [hblock] at hr'
    simp at hr'
  · simp at htest

end Dions
