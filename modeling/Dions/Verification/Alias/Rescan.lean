import Dions.Verification.Alias.Modes
import Dions.Verification.Alias.Records

/-! # Scanning a chain once more

What `filter` takes from a transaction does not depend on the alias database, so a scan is a log of
operations run over it: sets are claims, relays are renewals. In the second scan an early set meets
a later record; the unsigned difference of their heights wraps, and the set takes the name. -/

namespace Dions

open Halting

variable (env : Env)
variable {files : BlockFile} {txdb : TxIndexMap} {pindex : CBlockIndex} {ln1Db ln1Db' : AliasDb}
  {tx' : CTransaction} {chain : List CBlockIndex}
variable {txPos : CDiskTxPos} {tx : CTransaction} {nTxPos : ℕ}
  {pnext : CBlockIndex → Option CBlockIndex}

/-! ## The operations of a chain -/

/-- What `filter` hands on to the database. -/
structure AliasOp where
  op : ℕ
  vvchArgs : List vchType
  record : AliasIndex
  deriving DecidableEq

variable {o : AliasOp} {ops : List AliasOp}

def AliasOp.name (o : AliasOp) : Option vchType := o.vvchArgs[0]?

/-- The operation of a transaction, and the transaction its variable holds afterwards. -/
def filterOp (files : BlockFile) (txdb : TxIndexMap) (pindex : CBlockIndex) (txPos : CDiskTxPos)
    (tx : CTransaction) : Exec (Option AliasOp × CTransaction) :=
  if tx.nVersion ≠ CTransaction.DION_TX_VERSION then .ok (none, tx)
  else
    let t := aliasTx tx
    let op := t.op.getD (env.unassigned tx)
    if op = OP_ALIAS_SET ∨ op = OP_ALIAS_RELAY then do
      let _ ← read t.vvch 0
      match GetTransaction files txdb (tx.GetHash env) with
      | none => .ok (none, CTransaction.null 0)
      | some tx' =>
        match tx'.vout[t.nOut.getD 0]? with
        | none => .error .undefined
        | some txout =>
          match aliasStrip txout.scriptPubKey with
          | none => .error .raised
          | some scriptPubKey =>
            if (txdb (tx'.GetHash env)).isSome then
              .ok (some ⟨op, t.vvch, ⟨txPos, pindex.nHeight, [], env.scriptAddress scriptPubKey⟩⟩,
                tx')
            else .ok (none, tx')
    else .ok (none, tx)

def blockOps (files : BlockFile) (txdb : TxIndexMap) (pindex : CBlockIndex) :
    (nTxPos : ℕ) → List CTransaction → Exec (List AliasOp)
  | _, [] => .ok []
  | nTxPos, tx :: vtx => do
    let (o, tx') ← filterOp env files txdb pindex ⟨pindex.nFile, pindex.nBlockPos, nTxPos⟩ tx
    let rest ← blockOps files txdb pindex (nTxPos + tx'.GetSerializeSize) vtx
    .ok (o.toList ++ rest)

/-- The operations of the blocks, in the order in which `filter` meets them. -/
def chainOps (files : BlockFile) (txdb : TxIndexMap) : List CBlockIndex → Exec (List AliasOp)
  | [] => .ok []
  | pindex :: chain => do
    let vtx := filterBlock files pindex
    let ops ← blockOps env files txdb pindex (firstTxPos pindex.nBlockPos vtx.length) vtx
    let rest ← chainOps files txdb chain
    .ok (ops ++ rest)

def putOp (ln1Db : AliasDb) (o : AliasOp) : Exec AliasDb :=
  putAlias env ln1Db o.op o.vvchArgs o.record

def filterAll (files : BlockFile) (txdb : TxIndexMap) (chain : List CBlockIndex)
    (ln1Db : AliasDb) : Halt AliasDb AliasDb :=
  chain.foldlM (LocatorNodeDB.filter env files txdb) ln1Db

variable {env}

theorem filterOp_plain (h : ¬ IsAliasOp env tx) :
    filterOp env files txdb pindex txPos tx = .ok (none, tx) := by
  rw [filterOp]
  by_cases hversion : tx.nVersion ≠ CTransaction.DION_TX_VERSION
  · rw [if_pos hversion]
  · rw [if_neg hversion]
    exact if_neg fun hop => h ⟨not_not.mp hversion, hop⟩

theorem filterOp_passed {t : CTransaction} :
    (Except.ok (ln1Db, t) : Halt AliasDb (AliasDb × CTransaction)) = .ok (ln1Db', tx') ↔
      ∃ o, (Except.ok (none, t) : Exec (Option AliasOp × CTransaction)) = .ok (o, tx') ∧
        o.toList.foldlM (putOp env) ln1Db = .ok ln1Db' := by
  constructor
  · intro h
    cases h
    exact ⟨none, rfl, rfl⟩
  · intro ⟨o, ho, hput⟩
    cases ho
    cases hput
    rfl

theorem filterOp_stopped {e : Stop} :
    (Except.error (e, ln1Db) : Halt AliasDb (AliasDb × CTransaction)) = .ok (ln1Db', tx') ↔
      ∃ o, (Except.error e : Exec (Option AliasOp × CTransaction)) = .ok (o, tx') ∧
        o.toList.foldlM (putOp env) ln1Db = .ok ln1Db' :=
  iff_of_false (fun h => nomatch h) fun ⟨_, h, _⟩ => nomatch h

theorem filterOp_put {t : CTransaction} (o : AliasOp) :
    ((putOp env ln1Db o).within ln1Db >>= fun ln1Db₁ =>
        (.ok (ln1Db₁, t) : Halt AliasDb (AliasDb × CTransaction))) = .ok (ln1Db', tx') ↔
      ∃ o', (Except.ok (some o, t) : Exec (Option AliasOp × CTransaction)) = .ok (o', tx') ∧
        o'.toList.foldlM (putOp env) ln1Db = .ok ln1Db' := by
  rw [seq_ok]
  constructor
  · intro ⟨ln1Db₁, hput, heq⟩
    cases heq
    refine ⟨some o, rfl, ?_⟩
    rw [Option.toList_some, List.foldlM_cons, within_eq_ok.mp hput]
    rfl
  · intro ⟨o', ho, hput⟩
    cases ho
    rw [Option.toList_some, List.foldlM_cons, seq_ok] at hput
    obtain ⟨ln1Db₁, hone, heq⟩ := hput
    cases heq
    exact ⟨_, within_eq_ok.mpr hone, rfl⟩

/-- `filter` takes an operation from the transaction and puts it into the database. -/
theorem filterTx_ok :
    filterTx env files txdb pindex ln1Db txPos tx = .ok (ln1Db', tx') ↔
      ∃ o, filterOp env files txdb pindex txPos tx = .ok (o, tx') ∧
        o.toList.foldlM (putOp env) ln1Db = .ok ln1Db' := by
  rw [filterTx, filterOp]
  by_cases hversion : tx.nVersion ≠ CTransaction.DION_TX_VERSION
  · rw [if_pos hversion, if_pos hversion]
    exact filterOp_passed
  rw [if_neg hversion, if_neg hversion]
  dsimp only
  generalize (aliasTx tx).op.getD (env.unassigned tx) = op
  by_cases hop : op = OP_ALIAS_SET ∨ op = OP_ALIAS_RELAY
  swap
  · rw [if_neg hop, if_neg hop]
    exact filterOp_passed
  rw [if_pos hop, if_pos hop]
  cases hname : read (aliasTx tx).vvch 0 with
  | error e => exact filterOp_stopped
  | ok name =>
    simp only [Exec.within, bind, Except.bind]
    cases GetTransaction files txdb (tx.GetHash env) with
    | none => exact filterOp_passed
    | some tx₁ =>
      dsimp only
      cases tx₁.vout[(aliasTx tx).nOut.getD 0]? with
      | none => exact filterOp_stopped
      | some txout =>
        dsimp only
        cases aliasStrip txout.scriptPubKey with
        | none => exact filterOp_stopped
        | some scriptPubKey =>
          dsimp only
          cases (txdb (tx₁.GetHash env)).isSome with
          | false => exact filterOp_passed
          | true => exact filterOp_put ⟨op, (aliasTx tx).vvch, _⟩

theorem filterLoop_ok {vtx : List CTransaction} :
    filterLoop env files txdb pindex nTxPos vtx ln1Db = .ok ln1Db' ↔
      ∃ ops, blockOps env files txdb pindex nTxPos vtx = .ok ops ∧
        ops.foldlM (putOp env) ln1Db = .ok ln1Db' := by
  induction vtx generalizing nTxPos ln1Db with
  | nil =>
    constructor
    · intro h
      cases h
      exact ⟨[], rfl, rfl⟩
    · rintro ⟨ops, hops, hput⟩
      cases hops
      cases hput
      rfl
  | cons tx vtx ih =>
    rw [filterLoop, blockOps, seq_ok]
    constructor
    · rintro ⟨⟨ln1Db₁, tx'⟩, hone, hrest⟩
      obtain ⟨o, hop, hput⟩ := filterTx_ok.mp hone
      obtain ⟨ops, hops, hputs⟩ := ih.mp hrest
      refine ⟨o.toList ++ ops, ?_, ?_⟩
      · exact seq_ok.mpr ⟨(o, tx'), hop, seq_ok.mpr ⟨ops, hops, rfl⟩⟩
      · rw [List.foldlM_append]
        exact seq_ok.mpr ⟨ln1Db₁, hput, hputs⟩
    · rintro ⟨ops, hops, hputs⟩
      obtain ⟨⟨o, tx'⟩, hop, htail⟩ := seq_ok.mp hops
      obtain ⟨rest, hrest, heq⟩ := seq_ok.mp htail
      cases heq
      rw [List.foldlM_append, seq_ok] at hputs
      obtain ⟨ln1Db₁, hput, hputs⟩ := hputs
      exact ⟨(ln1Db₁, tx'), filterTx_ok.mpr ⟨o, hop, hput⟩, ih.mpr ⟨rest, hrest, hputs⟩⟩

theorem filterAll_ok :
    filterAll env files txdb chain ln1Db = .ok ln1Db' ↔
      ∃ ops, chainOps env files txdb chain = .ok ops ∧
        ops.foldlM (putOp env) ln1Db = .ok ln1Db' := by
  induction chain generalizing ln1Db with
  | nil =>
    constructor
    · intro h
      cases h
      exact ⟨[], rfl, rfl⟩
    · intro ⟨ops, hops, hput⟩
      cases hops
      cases hput
      rfl
  | cons pindex chain ih =>
    rw [filterAll, List.foldlM_cons, seq_ok, chainOps]
    constructor
    · intro ⟨ln1Db₁, hone, hrest⟩
      obtain ⟨ops, hops, hput⟩ := filterLoop_ok.mp hone
      obtain ⟨rest, hrest, hputs⟩ := ih.mp hrest
      refine ⟨ops ++ rest, seq_ok.mpr ⟨ops, hops, seq_ok.mpr ⟨rest, hrest, rfl⟩⟩, ?_⟩
      rw [List.foldlM_append]
      exact seq_ok.mpr ⟨ln1Db₁, hput, hputs⟩
    · intro ⟨ops, hops, hputs⟩
      obtain ⟨first, hfirst, htail⟩ := seq_ok.mp hops
      obtain ⟨rest, hrest, heq⟩ := seq_ok.mp htail
      cases heq
      rw [List.foldlM_append, seq_ok] at hputs
      obtain ⟨ln1Db₁, hput, hputs⟩ := hputs
      exact ⟨ln1Db₁, filterLoop_ok.mpr ⟨first, hfirst, hput⟩, ih.mpr ⟨rest, hrest, hputs⟩⟩

/-! ## Heights -/

theorem filterOp_nHeight (h : filterOp env files txdb pindex txPos tx = .ok (some o, tx')) :
    o.record.nHeight = pindex.nHeight := by
  rw [filterOp] at h
  split at h
  · cases h
  dsimp only at h
  split at h
  · obtain ⟨name, _, h⟩ := seq_ok.mp h
    split at h
    · cases h
    split at h
    · cases h
    split at h
    · cases h
    split at h
    · cases h
      rfl
    · cases h
  · cases h

theorem mem_blockOps {vtx : List CTransaction}
    (h : blockOps env files txdb pindex nTxPos vtx = .ok ops) {o : AliasOp} (ho : o ∈ ops) :
    ∃ tx ∈ vtx, ∃ txPos tx', filterOp env files txdb pindex txPos tx = .ok (some o, tx') := by
  induction vtx generalizing nTxPos ops with
  | nil =>
    cases h
    exact absurd ho List.not_mem_nil
  | cons tx vtx ih =>
    obtain ⟨⟨o₁, tx'⟩, hop, h⟩ := seq_ok.mp h
    obtain ⟨rest, hrest, heq⟩ := seq_ok.mp h
    cases heq
    rcases List.mem_append.mp ho with ho | ho
    · have hsome : o₁ = some o := Option.mem_toList.mp ho
      exact ⟨tx, List.mem_cons_self, _, tx', hsome ▸ hop⟩
    · obtain ⟨tx₁, htx₁, hfound⟩ := ih hrest ho
      exact ⟨tx₁, List.mem_cons_of_mem _ htx₁, hfound⟩

theorem mem_chainOps (h : chainOps env files txdb chain = .ok ops) {o : AliasOp} (ho : o ∈ ops) :
    ∃ pindex ∈ chain, ∃ tx ∈ filterBlock files pindex, ∃ txPos tx',
      filterOp env files txdb pindex txPos tx = .ok (some o, tx') := by
  induction chain generalizing ops with
  | nil =>
    cases h
    exact absurd ho List.not_mem_nil
  | cons pindex chain ih =>
    obtain ⟨first, hfirst, h⟩ := seq_ok.mp h
    obtain ⟨rest, hrest, heq⟩ := seq_ok.mp h
    cases heq
    rcases List.mem_append.mp ho with ho | ho
    · exact ⟨pindex, List.mem_cons_self, mem_blockOps hfirst ho⟩
    · obtain ⟨p, hp, hfound⟩ := ih hrest ho
      exact ⟨p, List.mem_cons_of_mem _ hp, hfound⟩

theorem chainOps_nHeight (h : chainOps env files txdb chain = .ok ops) :
    ∀ o ∈ ops, ∃ pindex ∈ chain, o.record.nHeight = pindex.nHeight := by
  intro o ho
  obtain ⟨pindex, hp, _, _, _, _, hop⟩ := mem_chainOps h ho
  exact ⟨pindex, hp, filterOp_nHeight hop⟩

theorem chainOps_sorted (hchain : chain.Pairwise fun p q => p.nHeight < q.nHeight)
    (h : chainOps env files txdb chain = .ok ops) :
    ops.Pairwise fun a b => a.record.nHeight ≤ b.record.nHeight := by
  induction chain generalizing ops with
  | nil =>
    cases h
    exact .nil
  | cons pindex chain ih =>
    obtain ⟨hhead, htail⟩ := List.pairwise_cons.mp hchain
    obtain ⟨first, hfirst, h⟩ := seq_ok.mp h
    obtain ⟨rest, hrest, heq⟩ := seq_ok.mp h
    cases heq
    have hblock : ∀ o ∈ first, o.record.nHeight = pindex.nHeight := by
      intro o ho
      obtain ⟨_, _, _, _, hop⟩ := mem_blockOps hfirst ho
      exact filterOp_nHeight hop
    refine List.pairwise_append.mpr ⟨?_, ih htail hrest, fun a ha b hb => ?_⟩
    · refine List.pairwise_of_forall_mem_list fun a ha b hb => ?_
      rw [hblock a ha, hblock b hb]
    · obtain ⟨q, hq, hheight⟩ := chainOps_nHeight hrest b hb
      rw [hblock a ha, hheight]
      exact Nat.le_of_lt (hhead q hq)

/-! ## Operations as events -/

/-- Sets are claims, relays are renewals; a relay without a value raises an exception. -/
def AliasOp.event (o : AliasOp) : Option (Lease.Event vchType AliasIndex) :=
  match o.name with
  | none => none
  | some name =>
    if o.op = OP_ALIAS_SET then some ⟨name, false, o.record⟩
    else o.vvchArgs[1]?.map fun value => ⟨name, true, { o.record with vValue := value }⟩

def expired (params : ChainParams) (r t : AliasIndex) : Bool :=
  decide (params.scaleMonitor ≤ unsignedDiff r.nHeight t.nHeight)

def leaseDb (held : vchType → Option AliasIndex) : AliasDb := fun v => (held v).map fun r => [r]

theorem leaseDb_update (held : vchType → Option AliasIndex) (v : vchType) (r : AliasIndex) :
    Function.update (leaseDb held) v (some [r]) = leaseDb (Function.update held v (some r)) := by
  funext w
  by_cases hw : w = v
  · rw [hw, leaseDb, Function.update_self, Function.update_self]
    rfl
  · rw [leaseDb, Function.update_of_ne hw, Function.update_of_ne hw]
    rfl

theorem putOp_event {e : Lease.Event vchType AliasIndex} (h : o.event = some e)
    (held : vchType → Option AliasIndex) :
    putOp env (leaseDb held) o = .ok (leaseDb (Lease.step (expired env.toChainParams) held e)) := by
  have hkeep : Function.update held e.key (held e.key) = held := Function.update_eq_self _ _
  rw [AliasOp.event, AliasOp.name] at h
  cases hname : o.vvchArgs[0]? with
  | none =>
    rw [hname] at h
    cases h
  | some name =>
    rw [hname] at h
    dsimp only at h
    have hread : read o.vvchArgs 0 = .ok name := read_eq_ok.mpr hname
    rw [putOp, putAlias, hread]
    simp only [bind, Except.bind]
    by_cases hset : o.op = OP_ALIAS_SET
    · rw [if_pos hset] at h ⊢
      cases h
      rw [Lease.step]
      dsimp only at hkeep ⊢
      cases hheld : held name with
      | none =>
        have hdb : leaseDb held name = none := by rw [leaseDb, hheld]; rfl
        rw [hdb, Lease.take, if_neg Bool.false_ne_true, ← leaseDb_update]
      | some t =>
        have hdb : leaseDb held name = some [t] := by rw [leaseDb, hheld]; rfl
        rw [hheld] at hkeep
        rw [hdb, Lease.take]
        simp only [List.getLast?_singleton]
        by_cases hexpired : env.scaleMonitor ≤ unsignedDiff o.record.nHeight t.nHeight
        · have htrue : expired env.toChainParams o.record t = true := decide_eq_true hexpired
          rw [Bool.false_or, if_pos htrue, if_pos hexpired, leaseDb_update]
        · have hfalse : ¬ expired env.toChainParams o.record t = true :=
            fun h => hexpired (of_decide_eq_true h)
          rw [Bool.false_or, if_neg hfalse, if_neg hexpired, hkeep]
    · rw [if_neg hset] at h ⊢
      obtain ⟨value, hvalue, heq⟩ := Option.map_eq_some_iff.mp h
      cases heq
      rw [Lease.step]
      dsimp only at hkeep ⊢
      cases hheld : held name with
      | none =>
        have hdb : leaseDb held name = none := by rw [leaseDb, hheld]; rfl
        rw [hheld] at hkeep
        rw [hdb, Lease.take, if_pos rfl, hkeep]
      | some t =>
        have hdb : leaseDb held name = some [t] := by rw [leaseDb, hheld]; rfl
        have hread' : read o.vvchArgs 1 = .ok value := read_eq_ok.mpr hvalue
        rw [hdb, hread', Lease.take, Bool.true_or, if_pos rfl, ← leaseDb_update]

theorem putOps_events (h : ∀ o ∈ ops, ∃ e, o.event = some e) (held : vchType → Option AliasIndex) :
    ops.foldlM (putOp env) (leaseDb held) =
      .ok (leaseDb (Lease.run (expired env.toChainParams) held (ops.filterMap AliasOp.event))) := by
  induction ops generalizing held with
  | nil => rfl
  | cons o ops ih =>
    obtain ⟨⟨e, hevent⟩, hrest⟩ := List.forall_mem_cons.mp h
    rw [List.foldlM_cons, putOp_event hevent, List.filterMap_cons_some hevent]
    exact ih hrest _

def firstOn (v : vchType) (ops : List AliasOp) : Option AliasOp :=
  ops.find? fun o => o.name = some v

theorem firstOn_cons (v : vchType) (o : AliasOp) (ops : List AliasOp) :
    firstOn v (o :: ops) = if o.name = some v then some o else firstOn v ops := by
  rw [firstOn, List.find?_cons]
  by_cases hv : o.name = some v
  · rw [decide_eq_true hv, if_pos hv]
  · rw [decide_eq_false hv, if_neg hv]
    rfl

theorem firstOn_name {v : vchType} (h : firstOn v ops = some o) : o.name = some v := by
  have hmatch := List.find?_some h
  exact of_decide_eq_true hmatch

def SetsFirst (ops : List AliasOp) : Prop := ∀ v o, firstOn v ops = some o → o.op = OP_ALIAS_SET

theorem event_spec {e : Lease.Event vchType AliasIndex} (h : o.event = some e) :
    o.name = some e.key ∧ (o.op = OP_ALIAS_SET → e.renews = false) ∧
      e.record.nHeight = o.record.nHeight := by
  rw [AliasOp.event] at h
  split at h
  · cases h
  · rename_i name hname
    split at h
    · cases h
      exact ⟨hname, fun _ => rfl, rfl⟩
    · rename_i hset
      obtain ⟨value, _, heq⟩ := Option.map_eq_some_iff.mp h
      cases heq
      exact ⟨hname, fun h => absurd h hset, rfl⟩

/-- The operation can be put, and is an event when its name has a record or it is a set. -/
theorem event_of_putOp {v : vchType} (hput : putOp env ln1Db o = .ok ln1Db')
    (hname : o.name = some v) (hknown : o.op = OP_ALIAS_SET ∨ ln1Db v ≠ none) :
    ∃ e, o.event = some e ∧ e.key = v := by
  rw [AliasOp.event, hname]
  by_cases hset : o.op = OP_ALIAS_SET
  · exact ⟨⟨v, false, o.record⟩, if_pos hset, rfl⟩
  · have hread : read o.vvchArgs 0 = .ok v := read_eq_ok.mpr hname
    rw [putOp, putAlias, hread] at hput
    simp only [bind, Except.bind, if_neg hset] at hput
    cases hdb : ln1Db v with
    | none => exact absurd hdb (hknown.resolve_left hset)
    | some t =>
      rw [hdb] at hput
      dsimp only at hput ⊢
      cases hvalue : o.vvchArgs[1]? with
      | none =>
        rw [show read o.vvchArgs 1 = .error .outOfRange by rw [Halting.read, hvalue]] at hput
        cases hput
      | some value => exact ⟨_, if_neg hset, rfl⟩

theorem putOp_name (h : putOp env ln1Db o = .ok ln1Db') : ∃ v, o.name = some v := by
  obtain ⟨v, hv, _⟩ := seq_ok.mp h
  exact ⟨v, read_eq_ok.mp hv⟩

/-- Operations that were put over free names, sets first, are events. -/
theorem events_of_putOps {held : vchType → Option AliasIndex}
    (hput : ops.foldlM (putOp env) (leaseDb held) = .ok ln1Db)
    (hfirst : ∀ v o, firstOn v ops = some o → o.op = OP_ALIAS_SET ∨ held v ≠ none) :
    ∀ o ∈ ops, ∃ e, o.event = some e := by
  induction ops generalizing held with
  | nil => exact fun o ho => absurd ho List.not_mem_nil
  | cons o ops ih =>
    obtain ⟨ln1Db₁, hone, hrest⟩ := seq_ok.mp hput
    obtain ⟨v, hname⟩ := putOp_name hone
    have hknown : o.op = OP_ALIAS_SET ∨ held v ≠ none :=
      hfirst v o ((firstOn_cons v o ops).trans (if_pos hname))
    have hknown' : o.op = OP_ALIAS_SET ∨ leaseDb held v ≠ none := by
      refine hknown.imp id fun hheld hnone => hheld ?_
      rw [leaseDb, Option.map_eq_none_iff] at hnone
      exact hnone
    obtain ⟨e, hevent, hkey⟩ := event_of_putOp hone hname hknown'
    rw [putOp_event hevent] at hone
    cases hone
    have hlater : ∀ w o', firstOn w ops = some o' →
        o'.op = OP_ALIAS_SET ∨ Lease.step (expired env.toChainParams) held e w ≠ none := by
      intro w o' hfind
      by_cases hw : w = e.key
      · refine .inr ?_
        rw [hw, Lease.step, Function.update_self]
        exact Lease.take_ne_none (hkey ▸ hknown.imp (event_spec hevent).2.1 id)
      · have hother : ¬ o.name = some w := by
          rw [hname, ← hkey]
          exact fun heq => hw (Option.some.inj heq).symm
        rw [Lease.step, Function.update_of_ne hw]
        exact hfirst w o' (((firstOn_cons w o ops).trans (if_neg hother)).trans hfind)
    exact List.forall_mem_cons.mpr ⟨⟨e, hevent⟩, ih hrest hlater⟩

theorem claimsFirst_of_setsFirst (h : ∀ o ∈ ops, ∃ e, o.event = some e) (hfirst : SetsFirst ops) :
    Lease.ClaimsFirst (ops.filterMap AliasOp.event) := by
  intro v e hhead
  have hfind : ∃ o, firstOn v ops = some o ∧ o.event = some e := by
    clear hfirst
    induction ops with
    | nil => cases hhead
    | cons o ops ih =>
      obtain ⟨⟨e', hone⟩, hrest⟩ := List.forall_mem_cons.mp h
      have hname := (event_spec hone).1
      rw [List.filterMap_cons_some hone, Lease.events_cons] at hhead
      by_cases hv : e'.key = v
      · rw [if_pos hv] at hhead
        cases hhead
        exact ⟨o, (firstOn_cons v o ops).trans (if_pos (hv ▸ hname)), hone⟩
      · rw [if_neg hv] at hhead
        have hother : ¬ o.name = some v := by
          rw [hname]
          exact fun heq => hv (Option.some.inj heq)
        rw [firstOn_cons, if_neg hother]
        exact ih hrest hhead
  obtain ⟨o, ho, hevent⟩ := hfind
  exact (event_spec hevent).2.1 (hfirst v o ho)

/-! ## The second scan -/

/-- Operations of rising heights, put once more over what they made of an empty database. -/
theorem putOps_again (hsorted : ops.Pairwise fun a b => a.record.nHeight ≤ b.record.nHeight)
    (hheight : ∀ o ∈ ops, o.record.nHeight < 2 ^ 31) (hfirst : SetsFirst ops)
    (hput : ops.foldlM (putOp env) (fun _ => none) = .ok ln1Db) :
    ops.foldlM (putOp env) ln1Db = .ok ln1Db := by
  have hempty : (fun _ => none : AliasDb) = leaseDb fun _ => none := rfl
  rw [hempty] at hput
  have hevents := events_of_putOps hput fun v o hfind => .inl (hfirst v o hfind)
  rw [putOps_events hevents, Except.ok.injEq] at hput
  rw [← hput, putOps_events hevents]
  refine congrArg (fun held => Except.ok (leaseDb held)) ?_
  refine Lease.run_again AliasIndex.nHeight (fun a b hab r => ?_) ?_
    (claimsFirst_of_setsFirst hevents hfirst) fun a ha b hb hlt => ?_
  · rw [expired, expired, hab]
  · refine hsorted.filterMap _ fun a b hab ea ha eb hb => ?_
    rw [(event_spec ha).2.2, (event_spec hb).2.2]
    exact hab
  · obtain ⟨o, ho, hevent⟩ := List.mem_filterMap.mp hb
    have hbound := hheight o ho
    rw [← (event_spec hevent).2.2] at hbound
    exact decide_eq_true (le_unsignedDiff_of_lt hlt hbound (scaleMonitor_le _))

/-- The entries of a chain up to its tip, each linked to the next one and the parent of it. -/
def Chained (pnext : CBlockIndex → Option CBlockIndex) : List CBlockIndex → Prop
  | [] => True
  | [p] => pnext p = none
  | p :: q :: rest => pnext p = some q ∧ CBlockIndex.pprev q = some p ∧ Chained pnext (q :: rest)

theorem Chained.pairwise (h : Chained pnext chain) :
    chain.Pairwise fun p q => p.nHeight < q.nHeight := by
  induction chain with
  | nil => exact .nil
  | cons p chain ih =>
    cases chain with
    | nil => exact List.pairwise_singleton _ p
    | cons q rest =>
      obtain ⟨_, hprev, hrest⟩ := h
      have hpairs := ih hrest
      have hone : p.nHeight < q.nHeight := by
        obtain ⟨d, rfl⟩ := Lineage.parent?_eq_some.mp hprev
        exact Nat.lt_succ_self _
      refine List.pairwise_cons.mpr ⟨fun r hr => ?_, hpairs⟩
      rcases List.mem_cons.mp hr with rfl | hr
      · exact hone
      · exact Nat.lt_trans hone ((List.pairwise_cons.mp hpairs).1 r hr)

def scanned (env : Env) (chain : List CBlockIndex) : List CBlockIndex :=
  chain.filter fun p => Scanned env p

theorem scanned_cons (p : CBlockIndex) (chain : List CBlockIndex) :
    scanned env (p :: chain) = if Scanned env p then p :: scanned env chain else scanned env chain := by
  rw [scanned, List.filter_cons]
  by_cases hscanned : Scanned env p
  · rw [if_pos (decide_eq_true hscanned), if_pos hscanned]
    rfl
  · rw [if_neg (fun h => hscanned (of_decide_eq_true h)), if_neg hscanned]
    rfl

/-- The scan filters the blocks of the chain from the start height on. -/
theorem xsc_chained {fuel : ℕ} (hchain : Chained pnext chain) (hfuel : chain.length ≤ fuel)
    (ln1Db : AliasDb) :
    xsc env files txdb pnext fuel chain.head? ln1Db =
      filterAll env files txdb (scanned env chain) ln1Db := by
  induction chain generalizing fuel ln1Db with
  | nil => rw [List.head?_nil, xsc]; rfl
  | cons p chain ih =>
    obtain ⟨fuel, rfl⟩ : ∃ n, fuel = n + 1 := Nat.exists_eq_add_one.mpr (Nat.zero_lt_of_lt hfuel)
    have hnext : pnext p = chain.head? ∧ Chained pnext chain := by
      cases chain with
      | nil => exact ⟨hchain, trivial⟩
      | cons q rest => exact ⟨hchain.1, hchain.2.2⟩
    have hrest := ih hnext.2 (Nat.le_of_succ_le_succ hfuel)
    rw [List.head?_cons, xsc, hnext.1, scanned_cons]
    by_cases hscanned : Scanned env p
    · rw [if_pos hscanned, if_pos hscanned, filterAll, List.foldlM_cons]
      exact congrArg _ (funext hrest)
    · rw [if_neg hscanned, if_neg hscanned, hrest]

/-- Blocks without an operation make no difference to the database. -/
theorem filterAll_filter {P : CBlockIndex → Prop} [DecidablePred P] {chain : List CBlockIndex}
    (hplain : ∀ p ∈ chain, ¬ P p → AliasFree env files p) (ln1Db : AliasDb) :
    filterAll env files txdb (chain.filter fun p => P p) ln1Db =
      filterAll env files txdb chain ln1Db := by
  induction chain generalizing ln1Db with
  | nil => rfl
  | cons p chain ih =>
    obtain ⟨hone, hrest⟩ := List.forall_mem_cons.mp hplain
    rw [List.filter_cons]
    by_cases hp : P p
    · rw [if_pos (decide_eq_true hp), filterAll, filterAll, List.foldlM_cons, List.foldlM_cons]
      exact congrArg _ (funext fun ln1Db₁ => ih hrest ln1Db₁)
    · rw [if_neg (fun h => hp (of_decide_eq_true h)), ih hrest, filterAll, filterAll,
        List.foldlM_cons, filter_aliasFree (hone hp)]
      rfl

/-- Where the blocks below the start height have no operation, filtering the whole chain makes the
database that the scan finds. -/
theorem filterAll_scanned (hplain : ∀ p ∈ chain, ¬ Scanned env p → AliasFree env files p)
    (ln1Db : AliasDb) :
    filterAll env files txdb (scanned env chain) ln1Db = filterAll env files txdb chain ln1Db :=
  filterAll_filter hplain ln1Db

/-- A scan of a chain on which a set comes first for every name leaves the database alone that
filtering its blocks has made. -/
theorem xsc_idempotent (files : BlockFile) (txdb : TxIndexMap)
    (pnext : CBlockIndex → Option CBlockIndex) (chain : List CBlockIndex) (ln1Db : AliasDb)
    (fuel : ℕ) (hchain : Chained pnext chain) (hheight : ∀ p ∈ chain, p.nHeight < 2 ^ 31)
    (hfirst : ∀ ops, chainOps env files txdb (scanned env chain) = .ok ops → SetsFirst ops)
    (hdb : filterAll env files txdb (scanned env chain) (fun _ => none) = .ok ln1Db)
    (hfuel : chain.length ≤ fuel) :
    xsc env files txdb pnext fuel chain.head? ln1Db = .ok ln1Db := by
  obtain ⟨ops, hops, hput⟩ := filterAll_ok.mp hdb
  have hsorted := chainOps_sorted (hchain.pairwise.filter _) hops
  have hbound : ∀ o ∈ ops, o.record.nHeight < 2 ^ 31 := by
    intro o ho
    obtain ⟨p, hp, heq⟩ := chainOps_nHeight hops o ho
    rw [heq]
    exact hheight p (List.mem_of_mem_filter hp)
  rw [xsc_chained hchain hfuel]
  exact filterAll_ok.mpr ⟨ops, hops, putOps_again hsorted hbound (hfirst ops hops) hput⟩

theorem setsFirst_of_name {v : vchType} (hset : o.op = OP_ALIAS_SET)
    (hname : ∀ o' ∈ o :: ops, o'.name = some v) : SetsFirst (o :: ops) := by
  intro w o' hfind
  have hw : o'.name = some w := firstOn_name hfind
  rw [hname o' (List.mem_of_find?_eq_some hfind), Option.some.injEq] at hw
  rw [firstOn_cons, if_pos (hw ▸ hname o List.mem_cons_self)] at hfind
  exact Option.some.inj hfind ▸ hset

namespace Scenario

/-- A set of the name, a relay of it in the next block, and a set that comes too early. -/
def scannedTxs : List CTransaction :=
  [spending 900 CTransaction.DION_TX_VERSION [] [⟨10 * COIN, aliasSet⟩],
    spending 1000 CTransaction.DION_TX_VERSION [⟨900, 0⟩] [⟨9 * COIN, aliasRelay⟩],
    spending 1100 CTransaction.DION_TX_VERSION [] [⟨10 * COIN, aliasSet⟩]]

def emptyBlock (nTime : ℕ) (vtx : List CTransaction) : CBlock :=
  ⟨7, 0, 0, nTime, 0x207fffff, 0, vtx, []⟩

/-- The set is in the first block, the other two are in the second one. -/
def scannedFiles : BlockFile where
  blocks := fun p =>
    if p = (1, 1000) then some (emptyBlock 1 (scannedTxs.take 1))
    else if p = (1, 2000) then some (emptyBlock 2 (scannedTxs.drop 1))
    else none
  txs := fun p => scannedTxs.find? fun tx => tx.nTime = p.2
  size := fun _ => 0
  nCurrentBlockFile := 1

def scannedIndex : TxIndexMap := fun hash =>
  (scannedTxs.find? fun tx => tx.nTime = hash).map fun tx => CTxIndex.new ⟨1, 1000, tx.nTime⟩ 1

def scannedNext (p : CBlockIndex) : Option CBlockIndex :=
  if p = chainOf 0 then some (chainOf 1) else if p = chainOf 1 then some (chainOf 2) else none

def scannedChain : List CBlockIndex := [chainOf 0, chainOf 1, chainOf 2]

def scanKept : Bool :=
  match filterAll (timed testNet) scannedFiles scannedIndex (scanned (timed testNet) scannedChain)
      (fun _ => none) with
  | .error _ => false
  | .ok ln1Db => (ln1Db [0x61]).isSome

def scanStartsWithSet : Bool :=
  match chainOps (timed testNet) scannedFiles scannedIndex (scanned (timed testNet) scannedChain) with
  | .error _ => false
  | .ok [] => false
  | .ok (o :: ops) => decide (o.op = OP_ALIAS_SET ∧ ∀ o' ∈ o :: ops, o'.name = some [0x61])

end Scenario

open Scenario in
/-- In the second scan the set of the first block takes the name from the relay above it, and the
relay takes it back. -/
theorem xsc_idempotent_relayed : ∃ ln1Db,
    filterAll (timed testNet) scannedFiles scannedIndex (scanned (timed testNet) scannedChain)
      (fun _ => none) = .ok ln1Db ∧ (ln1Db [0x61]).isSome = true ∧
      xsc (timed testNet) scannedFiles scannedIndex scannedNext 3 (some (chainOf 0)) ln1Db =
        .ok ln1Db := by
  have htest : scanKept = true := by decide
  have hops : scanStartsWithSet = true := by decide
  unfold scanKept at htest
  unfold scanStartsWithSet at hops
  split at htest
  next => cases htest
  next ln1Db hdb =>
    have hchained : Chained scannedNext scannedChain :=
      ⟨by decide, rfl, by decide, rfl, show scannedNext (chainOf 2) = none by decide⟩
    refine ⟨ln1Db, hdb, htest, xsc_idempotent scannedFiles scannedIndex scannedNext scannedChain
      ln1Db 3 hchained (by decide) (fun ops h => ?_) hdb (Nat.le_refl _)⟩
    rw [h] at hops
    cases ops with
    | nil => cases hops
    | cons o ops =>
      have hall := of_decide_eq_true hops
      exact setsFirst_of_name hall.1 hall.2

end Dions
