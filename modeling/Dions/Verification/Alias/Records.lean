import Dions.Library.Lease
import Dions.Verification.Alias.Rebuild

/-! # The records as leases

What `filter` does with one transaction, and what it makes of the transactions of a chain: for each
name the records are those of a lease that sets claim and relays renew. -/

namespace Dions

open Halting

variable (env : Env)
variable {tx : CTransaction} {files : BlockFile} {txdb : TxIndexMap} {pindex : CBlockIndex}
  {ln1Db ln1Db' : AliasDb} {txPos : CDiskTxPos}
variable {tx' : CTransaction}

/-! ## Operations on a name -/

/-- `filter` takes the transaction for the operation `op` on the name `v`. -/
def Performs (op : ℕ) (v : vchType) (tx : CTransaction) : Prop :=
  tx.nVersion = CTransaction.DION_TX_VERSION ∧
    (aliasTx tx).op.getD (env.unassigned tx) = op ∧ (aliasTx tx).vvch[0]? = some v

instance (op : ℕ) (v : vchType) (tx : CTransaction) : Decidable (Performs env op v tx) :=
  inferInstanceAs (Decidable (_ ∧ _ ∧ _))

/-- A transaction of a chain, with the height of its block and its position. -/
structure ChainTx where
  nHeight : ℕ
  txPos : CDiskTxPos
  tx : CTransaction

variable {held : Option ChainTx} {c : ChainTx}

/-- A set claims the name, a relay renews it. -/
def ChainTx.event (v : vchType) (c : ChainTx) : Option (Lease.Event vchType ChainTx) :=
  if Performs env OP_ALIAS_SET v c.tx then some ⟨v, false, c⟩
  else if Performs env OP_ALIAS_RELAY v c.tx then some ⟨v, true, c⟩
  else none

/-- The sets and relays of the name, in the order of the chain. -/
def deeds (v : vchType) (chain : List ChainTx) : List (Lease.Event vchType ChainTx) :=
  chain.filterMap (ChainTx.event env v)

/-- A record from `old` has expired at the height of `c`, by the difference that `filter` takes. -/
def lapsed (params : ChainParams) (c old : ChainTx) : Bool :=
  decide (params.scaleMonitor ≤ unsignedDiff c.nHeight old.nHeight)

/-- The transaction whose record the name has after the chain. -/
def holderOf (v : vchType) (chain : List ChainTx) : Option ChainTx :=
  Lease.holder (lapsed env.toChainParams) (deeds env v chain)

/-- The record of the name in the database is that of the transaction. -/
def Records (ln1Db : AliasDb) (v : vchType) : Option ChainTx → Prop
  | none => ln1Db v = none
  | some c => ∃ r, aliasRecord ln1Db v = some r ∧ r.txPos = c.txPos ∧ r.nHeight = c.nHeight

def chainTxs (nHeight : ℕ) (ps : List (CDiskTxPos × CTransaction)) : List ChainTx :=
  ps.map fun p => ⟨nHeight, p.1, p.2⟩

variable {env}

theorem Performs.unique {op op' : ℕ} {v v' : vchType} (h : Performs env op v tx)
    (h' : Performs env op' v' tx) : op = op' ∧ v = v' := by
  have hname := h.2.2
  rw [h'.2.2, Option.some.injEq] at hname
  exact ⟨h.2.1.symm.trans h'.2.1, hname.symm⟩

/-! ## Differences of heights -/

theorem unsignedDiff_of_le {a b n : ℕ} (hle : b ≤ a) (hlt : (a : ℤ) - b < n) (hn : n ≤ 2 ^ 31) :
    unsignedDiff a b < n := by
  unfold unsignedDiff
  omega

theorem le_unsignedDiff_of_lt {a b n : ℕ} (hlt : a < b) (hb : b < 2 ^ 31) (hn : n ≤ 2 ^ 31) :
    n ≤ unsignedDiff a b := by
  unfold unsignedDiff
  omega

theorem scaleMonitor_pos (params : ChainParams) : 0 < params.scaleMonitor := by
  unfold ChainParams.scaleMonitor
  split <;> decide

theorem scaleMonitor_le (params : ChainParams) : params.scaleMonitor ≤ 2 ^ 31 := by
  unfold ChainParams.scaleMonitor
  split <;> decide

/-! ## One transaction -/

/-- What `filter` does with one transaction, given the database it finds. -/
inductive FilterOutcome (env : Env) (files : BlockFile) (txdb : TxIndexMap) (pindex : CBlockIndex)
    (ln1Db : AliasDb) (txPos : CDiskTxPos) (tx : CTransaction) : AliasDb → Prop
  | kept (hset : FindsItself env files txdb tx → tx.vout ≠ [] → ∀ v,
        Performs env OP_ALIAS_SET v tx → ∃ t, aliasRecord ln1Db v = some t ∧
          unsignedDiff pindex.nHeight t.nHeight < env.scaleMonitor)
      (hrelay : FindsItself env files txdb tx → tx.vout ≠ [] → ∀ v,
        Performs env OP_ALIAS_RELAY v tx → ln1Db v = none) :
      FilterOutcome env files txdb pindex ln1Db txPos tx ln1Db
  | set {v : vchType} {r : AliasIndex} (hop : Performs env OP_ALIAS_SET v tx)
      (hfree : ∀ t, aliasRecord ln1Db v = some t →
        env.scaleMonitor ≤ unsignedDiff pindex.nHeight t.nHeight) (hpos : r.txPos = txPos)
      (hheight : r.nHeight = pindex.nHeight) :
      FilterOutcome env files txdb pindex ln1Db txPos tx (Function.update ln1Db v (some [r]))
  | relay {v : vchType} {r : AliasIndex} (hop : Performs env OP_ALIAS_RELAY v tx)
      (hheld : ln1Db v ≠ none) (hpos : r.txPos = txPos) (hheight : r.nHeight = pindex.nHeight) :
      FilterOutcome env files txdb pindex ln1Db txPos tx (Function.update ln1Db v (some [r]))

theorem putAlias_outcome {op : ℕ} {r : AliasIndex}
    (hversion : tx.nVersion = CTransaction.DION_TX_VERSION)
    (hop : (aliasTx tx).op.getD (env.unassigned tx) = op)
    (hcase : op = OP_ALIAS_SET ∨ op = OP_ALIAS_RELAY) (hpos : r.txPos = txPos)
    (hheight : r.nHeight = pindex.nHeight)
    (h : putAlias env ln1Db op (aliasTx tx).vvch r = .ok ln1Db') :
    FilterOutcome env files txdb pindex ln1Db txPos tx ln1Db' := by
  rw [putAlias, seq_ok] at h
  obtain ⟨name, hname, h⟩ := h
  rw [read_eq_ok] at hname
  have hperforms : Performs env op name tx := ⟨hversion, hop, hname⟩
  by_cases hset : op = OP_ALIAS_SET
  · subst hset
    rw [if_pos rfl] at h
    have hnorelay : ∀ v, ¬ Performs env OP_ALIAS_RELAY v tx := fun v hv =>
      absurd (hperforms.unique hv).1 (by decide)
    cases hdb : ln1Db name with
    | none =>
      rw [hdb] at h
      rw [← Except.ok.inj h]
      exact .set hperforms (by simp [aliasRecord, vtxPosOf, hdb]) hpos hheight
    | some vtxPos =>
      rw [hdb] at h
      cases hlast : vtxPos.getLast? with
      | none => simp [hlast] at h
      | some t =>
        have hrecord : aliasRecord ln1Db name = some t := by simp [aliasRecord, vtxPosOf, hdb, hlast]
        simp only [hlast, hheight] at h
        split at h
        · rename_i hexpired
          rw [← Except.ok.inj h]
          refine .set hperforms (fun t' ht' => ?_) hpos hheight
          rw [hrecord, Option.some.injEq] at ht'
          exact ht' ▸ hexpired
        · rename_i hlive
          rw [← Except.ok.inj h]
          refine .kept (fun _ _ v hv => ?_) fun _ _ v hv => absurd hv (hnorelay v)
          exact (hperforms.unique hv).2 ▸ ⟨t, hrecord, not_le.mp hlive⟩
  · obtain rfl := hcase.resolve_left hset
    rw [if_neg hset] at h
    have hnoset : ∀ v, ¬ Performs env OP_ALIAS_SET v tx := fun v hv =>
      absurd (hperforms.unique hv).1 (by decide)
    cases hdb : ln1Db name with
    | none =>
      rw [hdb] at h
      rw [← Except.ok.inj h]
      refine .kept (fun _ _ v hv => absurd hv (hnoset v)) fun _ _ v hv => ?_
      exact (hperforms.unique hv).2 ▸ hdb
    | some vtxPos =>
      rw [hdb] at h
      simp only [seq_ok, read_eq_ok, Except.ok.injEq] at h
      obtain ⟨value, -, rfl⟩ := h
      exact .relay hperforms (by simp [hdb]) hpos hheight

theorem filterTx_outcome (h : filterTx env files txdb pindex ln1Db txPos tx = .ok (ln1Db', tx')) :
    FilterOutcome env files txdb pindex ln1Db txPos tx ln1Db' := by
  unfold filterTx at h
  by_cases hversion : tx.nVersion = CTransaction.DION_TX_VERSION
  swap
  · simp only [ne_eq, hversion, not_false_eq_true, if_true, Except.ok.injEq, Prod.mk.injEq] at h
    rw [← h.1]
    exact .kept (fun _ _ v hv => absurd hv.1 hversion) fun _ _ v hv => absurd hv.1 hversion
  simp only [ne_eq, hversion, not_true_eq_false, if_false] at h
  generalize hop : (aliasTx tx).op.getD (env.unassigned tx) = op at h
  by_cases hcase : op = OP_ALIAS_SET ∨ op = OP_ALIAS_RELAY
  swap
  · simp only [hcase, if_false, Except.ok.injEq, Prod.mk.injEq] at h
    rw [← h.1]
    exact .kept (fun _ _ v hv => absurd (.inl (hop.symm.trans hv.2.1)) hcase) fun _ _ v hv =>
      absurd (.inr (hop.symm.trans hv.2.1)) hcase
  simp only [hcase, if_true, seq_ok, within_eq_ok, read_eq_ok] at h
  obtain ⟨name, -, h⟩ := h
  -- a transaction that is found again goes on to the database
  have hlost : ∀ ln1Db'', ln1Db = ln1Db'' → (FindsItself env files txdb tx → tx.vout ≠ [] → False) →
      FilterOutcome env files txdb pindex ln1Db txPos tx ln1Db'' := by
    rintro _ rfl hno
    exact .kept (fun hf hv => (hno hf hv).elim) fun hf hv => (hno hf hv).elim
  have hself : FindsItself env files txdb tx → tx.vout ≠ [] →
      GetTransaction files txdb (tx.GetHash env) = some tx := by
    intro hfinds hvout
    rw [getTransaction_self hfinds, if_neg]
    simpa using hvout
  split at h
  · rename_i hnone
    simp only [Except.ok.injEq, Prod.mk.injEq] at h
    refine hlost _ h.1 fun hfinds hvout => ?_
    rw [hself hfinds hvout] at hnone
    simp at hnone
  rename_i tx₁ hget
  split at h
  · simp at h
  split at h
  · simp at h
  split at h
  · simp only [seq_ok, within_eq_ok, Except.ok.injEq, Prod.mk.injEq] at h
    obtain ⟨ln1Db₁, hput, rfl, -⟩ := h
    exact putAlias_outcome hversion hop hcase rfl rfl hput
  · rename_i hindexed
    simp only [Except.ok.injEq, Prod.mk.injEq] at h
    refine hlost _ h.1 fun hfinds hvout => ?_
    rw [hself hfinds hvout, Option.some.injEq] at hget
    obtain ⟨txindex, hindex, -⟩ := hfinds
    rw [← hget, hindex] at hindexed
    simp at hindexed

/-- The variable of `filter` holds the transaction again when that can be found. -/
theorem filterTx_found (hfinds : FindsItself env files txdb tx) (hvout : tx.vout ≠ [])
    (h : filterTx env files txdb pindex ln1Db txPos tx = .ok (ln1Db', tx')) : tx' = tx := by
  have hself : GetTransaction files txdb (tx.GetHash env) = some tx := by
    rw [getTransaction_self hfinds, if_neg]
    simpa using hvout
  unfold filterTx at h
  simp only [hself] at h
  split at h
  · cases h
    rfl
  split at h
  · simp only [seq_ok, within_eq_ok] at h
    obtain ⟨name, -, h⟩ := h
    split at h
    · cases h
    split at h
    · cases h
    split at h
    · simp only [seq_ok, Except.ok.injEq, Prod.mk.injEq] at h
      obtain ⟨_, -, -, rfl⟩ := h
      rfl
    · cases h
      rfl
  · cases h
    rfl

/-! ## The lease of a name -/

theorem aliasRecord_update_of_ne {v w : vchType} {l : Option (List AliasIndex)} (h : v ≠ w) :
    aliasRecord (Function.update ln1Db w l) v = aliasRecord ln1Db v := by
  simp [aliasRecord, vtxPosOf, Function.update_of_ne h]

theorem aliasRecord_update_self (ln1Db : AliasDb) (v : vchType) (r : AliasIndex) :
    aliasRecord (Function.update ln1Db v (some [r])) v = some r := by
  simp [aliasRecord, vtxPosOf]

theorem Records.update_of_ne {v w : vchType} {l : Option (List AliasIndex)}
    (h : Records ln1Db v held) (hw : v ≠ w) : Records (Function.update ln1Db w l) v held := by
  cases held with
  | none =>
    rw [Records, Function.update_of_ne hw]
    exact h
  | some c =>
    rw [Records, aliasRecord_update_of_ne hw]
    exact h

theorem Records.holds {v : vchType} {r : AliasIndex} (h : Records ln1Db v held)
    (hr : aliasRecord ln1Db v = some r) :
    ∃ c, held = some c ∧ r.txPos = c.txPos ∧ r.nHeight = c.nHeight := by
  cases held with
  | none =>
    rw [Records] at h
    simp [aliasRecord, vtxPosOf, h] at hr
  | some c =>
    obtain ⟨r', hr', hpos, hheight⟩ := h
    rw [hr, Option.some.injEq] at hr'
    exact ⟨c, rfl, hr' ▸ hpos, hr' ▸ hheight⟩

@[simp] theorem deeds_append (v : vchType) (xs ys : List ChainTx) :
    deeds env v (xs ++ ys) = deeds env v xs ++ deeds env v ys := List.filterMap_append

theorem event_set {v : vchType} (h : Performs env OP_ALIAS_SET v c.tx) :
    c.event env v = some ⟨v, false, c⟩ := if_pos h

theorem event_relay {v : vchType} (h : Performs env OP_ALIAS_RELAY v c.tx) :
    c.event env v = some ⟨v, true, c⟩ := by
  have hset : ¬ Performs env OP_ALIAS_SET v c.tx := fun hset =>
    absurd (h.unique hset).1 (by decide)
  rw [ChainTx.event, if_neg hset, if_pos h]

theorem event_eq_some {v : vchType} {e : Lease.Event vchType ChainTx} (h : c.event env v = some e) :
    e.record = c ∧
      (e.renews = true → Performs env OP_ALIAS_RELAY v c.tx) ∧
      (e.renews = false → Performs env OP_ALIAS_SET v c.tx) := by
  rw [ChainTx.event] at h
  split at h
  · rename_i hset
    cases h
    exact ⟨rfl, by simp, fun _ => hset⟩
  · split at h
    · rename_i hrelay
      cases h
      exact ⟨rfl, fun _ => hrelay, by simp⟩
    · cases h

def leaseStep (env : Env) (v : vchType) (held : Option ChainTx) (c : ChainTx) : Option ChainTx :=
  (c.event env v).elim held (Lease.take (lapsed env.toChainParams) held)

theorem holderOf_append_singleton (v : vchType) (past : List ChainTx) (c : ChainTx) :
    holderOf env v (past ++ [c]) = leaseStep env v (holderOf env v past) c := by
  rw [holderOf, deeds_append, leaseStep]
  cases hevent : c.event env v with
  | none => simp [deeds, hevent, holderOf]
  | some e =>
    have hone : deeds env v [c] = [e] := by simp [deeds, hevent]
    rw [hone, Lease.holder_append_singleton]
    rfl

/-- `filter` takes one step of the lease of each name. -/
theorem Records.filterTx {v : vchType} (h : Records ln1Db v held)
    (hfinds : FindsItself env files txdb tx) (hvout : tx.vout ≠ [])
    (hrun : filterTx env files txdb pindex ln1Db txPos tx = .ok (ln1Db', tx')) :
    Records ln1Db' v (leaseStep env v held ⟨pindex.nHeight, txPos, tx⟩) := by
  have hwrite : ∀ r : AliasIndex, r.txPos = txPos → r.nHeight = pindex.nHeight →
      Records (Function.update ln1Db v (some [r])) v (some ⟨pindex.nHeight, txPos, tx⟩) :=
    fun r hpos hheight => ⟨r, aliasRecord_update_self ln1Db v r, hpos, hheight⟩
  have hother : ∀ w op, v ≠ w → Performs env op w tx →
      leaseStep env v held ⟨pindex.nHeight, txPos, tx⟩ = held := by
    intro w op hw hop
    have hno : ∀ op', ¬ Performs env op' v tx := fun op' hop' => hw (hop'.unique hop).2
    rw [leaseStep, ChainTx.event, if_neg (hno _), if_neg (hno _)]
    rfl
  cases filterTx_outcome hrun with
  | kept hset hrelay =>
    by_cases hop : Performs env OP_ALIAS_SET v tx
    · obtain ⟨t, ht, hlive⟩ := hset hfinds hvout v hop
      obtain ⟨c, rfl, -, hheight⟩ := h.holds ht
      have hkept : lapsed env.toChainParams ⟨pindex.nHeight, txPos, tx⟩ c = false :=
        decide_eq_false (not_le.mpr (hheight ▸ hlive))
      rw [leaseStep, event_set hop, Option.elim_some, Lease.take, hkept]
      exact h
    · by_cases hop' : Performs env OP_ALIAS_RELAY v tx
      · have hnone := hrelay hfinds hvout v hop'
        cases held with
        | none =>
          rw [leaseStep, event_relay hop', Option.elim_some, Lease.take, if_pos rfl]
          exact h
        | some c =>
          obtain ⟨r, hr, -⟩ := h
          simp [aliasRecord, vtxPosOf, hnone] at hr
      · rw [leaseStep, ChainTx.event, if_neg hop, if_neg hop']
        exact h
  | @set w r hop hfree hpos hheight =>
    by_cases hw : v = w
    · subst hw
      have htake : leaseStep env v held ⟨pindex.nHeight, txPos, tx⟩ =
          some ⟨pindex.nHeight, txPos, tx⟩ := by
        rw [leaseStep, event_set hop, Option.elim_some]
        cases held with
        | none => rfl
        | some c =>
          obtain ⟨t, ht, -, hold⟩ := h
          have hexpired : lapsed env.toChainParams ⟨pindex.nHeight, txPos, tx⟩ c = true :=
            decide_eq_true (hold ▸ hfree t ht)
          rw [Lease.take, hexpired, Bool.or_true, if_pos rfl]
      rw [htake]
      exact hwrite r hpos hheight
    · rw [hother w _ hw hop]
      exact h.update_of_ne hw
  | @relay w r hop hheld hpos hheight =>
    by_cases hw : v = w
    · subst hw
      cases held with
      | none => exact absurd h hheld
      | some c =>
        rw [leaseStep, event_relay hop, Option.elim_some, Lease.take, Bool.true_or, if_pos rfl]
        exact hwrite r hpos hheight
    · rw [hother w _ hw hop]
      exact h.update_of_ne hw

theorem Records.filterLoop {nTxPos : ℕ} {vtx : List CTransaction} {v : vchType}
    {past : List ChainTx} (h : Records ln1Db v (holderOf env v past))
    (hfinds : ∀ tx ∈ vtx, FindsItself env files txdb tx) (hvout : ∀ tx ∈ vtx, tx.vout ≠ [])
    (hrun : filterLoop env files txdb pindex nTxPos vtx ln1Db = .ok ln1Db') :
    Records ln1Db' v (holderOf env v (past ++ chainTxs pindex.nHeight
      (txPositions pindex.nFile pindex.nBlockPos nTxPos vtx))) := by
  induction vtx generalizing nTxPos ln1Db past with
  | nil =>
    rw [Dions.filterLoop, Except.ok.injEq] at hrun
    simpa [txPositions, chainTxs, ← hrun] using h
  | cons tx vtx ih =>
    rw [Dions.filterLoop, seq_ok] at hrun
    obtain ⟨⟨ln1Db₁, tx₁⟩, hone, hrest⟩ := hrun
    obtain ⟨hself, hselves⟩ := List.forall_mem_cons.mp hfinds
    obtain ⟨hout, houts⟩ := List.forall_mem_cons.mp hvout
    obtain rfl := filterTx_found hself hout hone
    have hstep := h.filterTx hself hout hone
    rw [← holderOf_append_singleton] at hstep
    have hend := ih hstep hselves houts hrest
    rw [List.append_assoc] at hend
    exact hend

end Dions
