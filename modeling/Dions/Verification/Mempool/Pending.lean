import Dions.Verification.Alias.Arguments
import Dions.Verification.Alias.Commitment
import Dions.Verification.Chain.Atomicity
import Dions.Verification.Mempool.Bookkeeping

/-! # The names that are pending

`mapState` is to hold, under each name, the hashes of the pooled alias transactions that use it.
Every operation on the pool keeps the two together, transaction by transaction. -/

namespace Dions

open Halting

variable {env : Env}
variable {hash : uint256} {tx : CTransaction} {g : Globals}
variable {m : PendingMap} {vout : List CTxOut} {i : ℕ} {nOut op : Option ℕ} {g' : Globals}
  {s : PoolState} {node : Node}

/-! ## Sets of pending hashes -/

theorem holds_insert {name name' : vchType} {hash' : uint256} :
    Holds (m.insert name hash) name' hash' ↔
      Holds m name' hash' ∨ (name' = name ∧ hash' = hash) := by
  unfold PendingMap.insert Holds
  by_cases hn : name' = name
  · subst hn
    cases hm : m name' with
    | none => simp
    | some s => simp [or_comm]
  · simp [hn]

theorem pendingKey_hash {name : vchType} (h : pendingKey env tx = some (name, hash)) :
    tx.GetHash env = hash := by
  unfold pendingKey at h
  split at h
  · obtain ⟨name', -, heq⟩ := Option.map_eq_some_iff.mp h
    exact (Prod.mk.inj heq).2
  · cases h

theorem holds_erasePending {name : vchType} :
    Holds (erasePending env m tx) name hash ↔
      Holds m name hash ∧ pendingKey env tx ≠ some (name, hash) := by
  unfold erasePending
  cases hkey : pendingKey env tx with
  | none => simp
  | some key =>
      obtain ⟨name', hash'⟩ := key
      simp only
      rw [holds_erase]
      simp [eq_comm]

theorem holds_foldl_erasePending {posted : List CTransaction} {name : vchType} :
    Holds (posted.foldl (erasePending env) m) name hash ↔
      Holds m name hash ∧ ∀ tx ∈ posted, pendingKey env tx ≠ some (name, hash) := by
  induction posted generalizing m with
  | nil => simp
  | cons tx posted ih =>
      rw [List.foldl_cons, ih, holds_erasePending, List.forall_mem_cons, and_assoc]

/-! ## The hooks -/

theorem aliasTxLoop_vvch {found : Bool} {vvch : List vchType}
    (h : (aliasTxLoop vout i found op nOut vvch).ret = false) :
    (aliasTxLoop vout i found op nOut vvch).vvch = [] := by
  induction vout generalizing i found op nOut vvch with
  | nil =>
      have hfound : found = false := h
      simp [aliasTxLoop, hfound]
  | cons out vout ih =>
      unfold aliasTxLoop at h ⊢
      simp only at h ⊢
      split
      next hret =>
        split
        · rfl
        next hfound =>
          rw [if_pos hret, if_neg hfound] at h
          exact ih h
      next hret =>
        rw [if_neg hret] at h
        exact ih h

theorem pendingKey_of_not_ret (h : (aliasTx tx).ret = false) : pendingKey env tx = none := by
  have hvvch : (aliasTx tx).vvch = [] := aliasTxLoop_vvch h
  simp [pendingKey, hvvch]

/-- The last step of the hook, which leaves `mapState` alone. -/
def unhookKeys (env : Env) (g : Globals) (tx : CTransaction) : Halt Globals Globals :=
  if (aliasTx tx).op.getD 0 = OP_PUBLIC_KEY ∨ (aliasTx tx).op.getD 0 = OP_VERTEX then do
    let a ← (Halting.read (aliasTx tx).vvch 0).within g
    let b ← (Halting.read (aliasTx tx).vvch 1).within g
    .ok { g with k1Export := g.k1Export.erase (a ++ b) (tx.GetHash env) }
  else .ok g

theorem unhookKeys_mapState (env : Env) (g : Globals) (tx : CTransaction) :
    (unhookKeys env g tx).final.mapState = g.mapState := by
  unfold unhookKeys
  split
  · exact final_mapState rfl fun _ => final_mapState rfl fun _ => rfl
  · rfl

/-- With a name to erase the hook erases it first; without one only its last step is left. -/
theorem removeFromMemoryPoolPost_eq (g : Globals) (tx : CTransaction)
    (hversion : tx.nVersion = CTransaction.DION_TX_VERSION) (hret : (aliasTx tx).ret = true) :
    RemoveFromMemoryPoolPost env g tx =
      if (aliasTx tx).op.getD 0 = OP_ALIAS_ENCRYPTED then unhookKeys env g tx
      else
        match (aliasTx tx).vvch[0]? with
        | none => .error (.outOfRange, g)
        | some name =>
          unhookKeys env { g with mapState := g.mapState.erase name (tx.GetHash env) } tx := by
  have hvout := vout_length_of_aliasTx hret
  have hout : ¬ tx.vout.length < 1 := by omega
  unfold RemoveFromMemoryPoolPost unhookKeys
  simp only [hversion, ne_eq, not_true_eq_false, ↓reduceIte, hout, hret, Bool.not_true,
    Bool.false_eq_true]
  by_cases henc : (aliasTx tx).op.getD 0 = OP_ALIAS_ENCRYPTED
  · simp only [henc, not_true_eq_false, ↓reduceIte, bind, Except.bind]
  · simp only [henc, not_false_eq_true, ↓reduceIte]
    cases hname : (aliasTx tx).vvch[0]? with
    | none =>
        have hread : Halting.read (aliasTx tx).vvch 0 = .error .outOfRange := by
          rw [read_eq_error]
          exact ⟨List.getElem?_eq_none_iff.mp hname, rfl⟩
        simp only [hread, Exec.within, bind, Except.bind]
    | some name =>
        have hread : Halting.read (aliasTx tx).vvch 0 = .ok name := read_eq_ok.mpr hname
        simp only [hread, Exec.within, bind, Except.bind]

theorem removeFromMemoryPoolPost_of_not (env : Env) (g : Globals) (tx : CTransaction)
    (h : ¬(tx.nVersion = CTransaction.DION_TX_VERSION ∧ (aliasTx tx).ret = true)) :
    RemoveFromMemoryPoolPost env g tx = .ok g ∧ pendingKey env tx = none := by
  by_cases hversion : tx.nVersion = CTransaction.DION_TX_VERSION
  · have hret : (aliasTx tx).ret = false := by
      by_contra hret
      exact h ⟨hversion, by simpa using hret⟩
    refine ⟨?_, pendingKey_of_not_ret hret⟩
    unfold RemoveFromMemoryPoolPost
    simp only [hversion, ne_eq, not_true_eq_false, ↓reduceIte, hret, Bool.not_false, ite_self]
  · exact ⟨by simp [RemoveFromMemoryPoolPost, hversion], by simp [pendingKey, hversion]⟩

theorem erasePending_eq (m : PendingMap) (tx : CTransaction)
    (hversion : tx.nVersion = CTransaction.DION_TX_VERSION) :
    erasePending env m tx =
      if (aliasTx tx).op.getD 0 = OP_ALIAS_ENCRYPTED then m
      else
        match (aliasTx tx).vvch[0]? with
        | none => m
        | some name => m.erase name (tx.GetHash env) := by
  unfold erasePending pendingKey
  by_cases henc : (aliasTx tx).op.getD 0 = OP_ALIAS_ENCRYPTED
  · simp [henc]
  · cases (aliasTx tx).vvch[0]? <;> simp [hversion, henc]

/-- However the hook ends, it has taken the transaction out or done nothing. -/
theorem removeFromMemoryPoolPost_final (env : Env) (g : Globals) (tx : CTransaction) :
    (RemoveFromMemoryPoolPost env g tx).final.mapState = erasePending env g.mapState tx ∨
      (RemoveFromMemoryPoolPost env g tx).final.mapState = g.mapState := by
  by_cases h : tx.nVersion = CTransaction.DION_TX_VERSION ∧ (aliasTx tx).ret = true
  · rw [removeFromMemoryPoolPost_eq g tx h.1 h.2, erasePending_eq _ _ h.1]
    split
    · exact Or.inl (unhookKeys_mapState env g tx)
    · split
      · exact Or.inr rfl
      · exact Or.inl (unhookKeys_mapState env _ tx)
  · rw [(removeFromMemoryPoolPost_of_not env g tx h).1]
    exact Or.inr rfl

/-- The hook goes through when there are arguments enough, and takes the transaction out. -/
theorem removeFromMemoryPoolPost_runs (env : Env) (g : Globals) (tx : CTransaction)
    (h : tx.nVersion = CTransaction.DION_TX_VERSION → RemoveArgs tx) :
    ∃ g', RemoveFromMemoryPoolPost env g tx = .ok g' ∧
      g'.mapState = erasePending env g.mapState tx := by
  by_cases halias : tx.nVersion = CTransaction.DION_TX_VERSION ∧ (aliasTx tx).ret = true
  · obtain ⟨hversion, hret⟩ := halias
    obtain ⟨hpool, hkeys⟩ := h hversion
    have hlast : ∀ g₀, ∃ g', unhookKeys env g₀ tx = .ok g' := by
      intro g₀
      unfold unhookKeys
      split
      next hkey =>
        have hlen := hkeys hret hkey
        obtain ⟨vchAlias, h0⟩ : ∃ v, Halting.read (aliasTx tx).vvch 0 = .ok v :=
          ⟨_, read_eq_ok.mpr (List.getElem?_eq_getElem (by omega))⟩
        obtain ⟨vchRand, h1⟩ : ∃ v, Halting.read (aliasTx tx).vvch 1 = .ok v :=
          ⟨_, read_eq_ok.mpr (List.getElem?_eq_getElem (by omega))⟩
        rw [h0, h1]
        exact ⟨_, rfl⟩
      next => exact ⟨g₀, rfl⟩
    rw [removeFromMemoryPoolPost_eq g tx hversion hret, erasePending_eq _ _ hversion]
    split
    next =>
      obtain ⟨g', hg'⟩ := hlast g
      have hmap := unhookKeys_mapState env g tx
      rw [hg'] at hmap
      exact ⟨g', hg', hmap⟩
    next henc =>
      obtain ⟨name, args, hvvch⟩ := List.exists_cons_of_ne_nil (hpool hret henc)
      have hname : (aliasTx tx).vvch[0]? = some name := by simp [hvvch]
      simp only [hname]
      obtain ⟨g', hg'⟩ := hlast { g with mapState := g.mapState.erase name (tx.GetHash env) }
      have hmap := unhookKeys_mapState env
        { g with mapState := g.mapState.erase name (tx.GetHash env) } tx
      rw [hg'] at hmap
      exact ⟨g', hg', hmap⟩
  · obtain ⟨hrun, hkey⟩ := removeFromMemoryPoolPost_of_not env g tx halias
    exact ⟨g, hrun, by simp [erasePending, hkey]⟩

/-! ## The pool and the pending hashes -/

def HashIdentifies (env : Env) (S : Set CTransaction) : Prop :=
  ∀ tx ∈ S, ∀ tx' ∈ S, tx.GetHash env = tx'.GetHash env → tx = tx'

theorem HashIdentifies.separates {S : Set CTransaction} (h : HashIdentifies env S) :
    HashSeparates env S := by
  intro tx htx tx' htx' heq
  rw [h tx htx tx' htx' heq]

def aliasOutputs (tx : CTransaction) : List CTxOut :=
  tx.vout.filter fun out => (aliasScript out.scriptPubKey none).ret

/-- `op`, which the last output with a first opcode in range decides, and the opcode of the one
alias output are both `OP_ALIAS_ENCRYPTED` or both something else. -/
def OpAgrees (tx : CTransaction) : Prop :=
  ∀ out, aliasOutputs tx = [out] →
    ((aliasTx tx).op.getD 0 = OP_ALIAS_ENCRYPTED ↔
      (aliasScript out.scriptPubKey none).op.getD 0 = OP_ALIAS_ENCRYPTED)

/-- Pending are the pooled alias transactions, except those with a hash in `D`, which a block has
taken out of `mapState` already; and the hook will go through for every pooled transaction. -/
structure Mirrors (env : Env) (S : Set CTransaction) (D : Set uint256) (s : PoolState) :
    Prop where
  ok : s.1.Ok env S
  pending : ∀ name hash, Holds s.2.mapState name hash ↔
    hash ∉ D ∧ ∃ tx, s.1.lookup hash = some tx ∧ pendingKey env tx = some (name, hash)
  hooked : ∀ hash tx, s.1.lookup hash = some tx →
    tx.nVersion = CTransaction.DION_TX_VERSION → RemoveArgs tx ∧ OpAgrees tx

variable {S : Set CTransaction} {D : Set uint256}

theorem Mirrors.congr {pool : CTxMemPool} (h : Mirrors env S D (pool, g))
    (hmap : g'.mapState = g.mapState) : Mirrors env S D (pool, g') := by
  refine ⟨h.ok, ?_, h.hooked⟩
  intro name hash
  rw [hmap]
  exact h.pending name hash

/-- Only the hashes of pooled transactions with a name count in `D`. -/
theorem Mirrors.narrow {D' : Set uint256} (h : Mirrors env S D s)
    (hD : ∀ hash tx, s.1.lookup hash = some tx → pendingKey env tx ≠ none →
      (hash ∈ D ↔ hash ∈ D')) : Mirrors env S D' s := by
  refine ⟨h.ok, ?_, h.hooked⟩
  intro name hash
  rw [h.pending]
  constructor
  · rintro ⟨hnot, tx, htx, hkey⟩
    exact ⟨fun hmem => hnot ((hD hash tx htx (by simp [hkey])).mpr hmem), tx, htx, hkey⟩
  · rintro ⟨hnot, tx, htx, hkey⟩
    exact ⟨fun hmem => hnot ((hD hash tx htx (by simp [hkey])).mp hmem), tx, htx, hkey⟩

/-- Hashes that are not in the pool may be left out of `D`. -/
theorem Mirrors.shift {D' : Set uint256} (h : Mirrors env S D s)
    (hD : ∀ hash, s.1.exists_ hash = true → (hash ∈ D ↔ hash ∈ D')) : Mirrors env S D' s := by
  apply h.narrow
  intro hash tx htx _
  exact hD hash (by simp [CTxMemPool.exists_, htx])

/-- Taking transactions out of `mapState` puts their hashes into `D`. -/
theorem Mirrors.erased (hS : HashIdentifies env S) {pool : CTxMemPool} {g g' : Globals}
    (h : Mirrors env S D (pool, g)) (posted : List CTransaction) (hposted : ∀ tx ∈ posted, tx ∈ S)
    (hmap : g'.mapState = posted.foldl (erasePending env) g.mapState) :
    Mirrors env S (D ∪ {hash | ∃ tx ∈ posted, tx.GetHash env = hash}) (pool, g') := by
  refine ⟨h.ok, ?_, h.hooked⟩
  intro name hash
  simp only [hmap, holds_foldl_erasePending, Set.mem_union, Set.mem_ofPred_eq, not_or]
  rw [h.pending]
  constructor
  · rintro ⟨⟨hD, tx, htx, hkey⟩, hnot⟩
    refine ⟨⟨hD, ?_⟩, tx, htx, hkey⟩
    rintro ⟨tx', hmem, hhash⟩
    obtain ⟨hin, hname⟩ := h.ok.named hash tx htx
    have heq : tx' = tx := hS tx' (hposted tx' hmem) tx hin (by rw [hhash, hname])
    exact hnot tx' hmem (by rw [heq, hkey])
  · rintro ⟨⟨hD, hnot⟩, tx, htx, hkey⟩
    refine ⟨⟨hD, tx, htx, hkey⟩, ?_⟩
    intro tx' hmem hkey'
    exact hnot ⟨tx', hmem, pendingKey_hash hkey'⟩

/-- Erasing a pooled transaction whose hash is in `D` already. -/
theorem Mirrors.eraseTx (h : Mirrors env S D s) (tx : CTransaction) (hD : tx.GetHash env ∈ D)
    (hok : (s.1.eraseTx (tx.GetHash env) tx).Ok env S) :
    Mirrors env S D (s.1.eraseTx (tx.GetHash env) tx, s.2) := by
  refine ⟨hok, ?_, ?_⟩
  · intro name hash
    change Holds s.2.mapState name hash ↔ _
    rw [CTxMemPool.lookup_eraseTx, h.pending]
    by_cases heq : hash = tx.GetHash env
    · simp [heq, hD]
    · rw [if_neg heq]
  · intro hash t ht
    change (s.1.eraseTx (tx.GetHash env) tx).lookup hash = some t at ht
    rw [CTxMemPool.lookup_eraseTx] at ht
    split at ht
    · cases ht
    · exact h.hooked hash t ht

/-- A pooled transaction with the hash of one of `S` is that one. -/
theorem Mirrors.pooled_eq (hS : HashIdentifies env S) {s : PoolState} (h : Mirrors env S D s)
    {tx : CTransaction} (htx : tx ∈ S) (hpooled : s.1.exists_ (tx.GetHash env) = true) :
    s.1.lookup (tx.GetHash env) = some tx := by
  obtain ⟨t, ht⟩ := Option.isSome_iff_exists.mp hpooled
  obtain ⟨hmem, hname⟩ := h.ok.named _ t ht
  have hsame : t = tx := hS t hmem tx htx hname
  rw [hsame] at ht
  exact ht

/-! ## Removing -/

/-- A call keeps the two together when its calls for the spenders run through and do. -/
theorem removeTx_mirrors_step (hS : HashIdentifies env S) (fRecursive : Bool) (fuel : ℕ)
    (tx : CTransaction) (htx : tx ∈ S) (s : PoolState)
    (hspenders : ∀ D' g, Mirrors env S D' (s.1, g) →
      ∃ s', removeSpenders env fRecursive fuel tx (s.1, g) = .ok s' ∧ Mirrors env S D' s')
    (h : Mirrors env S D s) :
    Mirrors env S D (removeTx env fRecursive fuel tx s).final ∧
      ((tx.nVersion = CTransaction.DION_TX_VERSION → RemoveArgs tx) →
        ∃ s', removeTx env fRecursive fuel tx s = .ok s') := by
  have hshrinks := removeTx_shrinks hS.separates fRecursive fuel tx htx s h.ok
  obtain ⟨pool, g⟩ := s
  have hargs : pool.exists_ (tx.GetHash env) = true →
      tx.nVersion = CTransaction.DION_TX_VERSION → RemoveArgs tx := fun hpooled hversion =>
    (h.hooked _ tx (h.pooled_eq hS htx hpooled) hversion).1
  -- without the transaction in the pool its hash makes no difference
  have habsent : ∀ g', pool.exists_ (tx.GetHash env) = false →
      (g'.mapState = erasePending env g.mapState tx ∨ g'.mapState = g.mapState) →
      Mirrors env S D (pool, g') := by
    intro g' hnot hmap
    rcases hmap with hmap | hmap
    · have herased := h.erased hS [tx] (by simpa using htx) hmap
      apply herased.shift
      intro hash hpooled
      have hne : tx.GetHash env ≠ hash := by
        rintro rfl
        rw [hnot] at hpooled
        cases hpooled
      simp [hne.symm]
    · exact h.congr hmap
  have hfinal := removeFromMemoryPoolPost_final env g tx
  rw [removeTx_eq] at hshrinks ⊢
  cases hhook : RemoveFromMemoryPoolPost env g tx with
  | error e =>
      obtain ⟨stop, g'⟩ := e
      rw [hhook] at hfinal
      have hnot : pool.exists_ (tx.GetHash env) = false := by
        by_contra hpooled
        obtain ⟨g₁, hrun, -⟩ := removeFromMemoryPoolPost_runs env g tx
          (hargs (by simpa using hpooled))
        rw [hhook] at hrun
        cases hrun
      refine ⟨habsent g' hnot hfinal, ?_⟩
      intro hrun
      obtain ⟨g₁, hrun, -⟩ := removeFromMemoryPoolPost_runs env g tx hrun
      rw [hhook] at hrun
      cases hrun
  | ok g' =>
      rw [hhook] at hfinal
      rw [hhook] at hshrinks
      simp only [Halt.lift, bind, Except.bind] at hshrinks ⊢
      by_cases hpooled : pool.exists_ (tx.GetHash env) = true
      · rw [if_pos hpooled] at hshrinks ⊢
        obtain ⟨g₁, hrun, hmap⟩ := removeFromMemoryPoolPost_runs env g tx (hargs hpooled)
        rw [hhook] at hrun
        cases hrun
        have hmid := h.erased hS [tx] (by simpa using htx) hmap
        obtain ⟨s', hs', hmirrors⟩ := hspenders _ g' hmid
        rw [hs'] at hshrinks ⊢
        refine ⟨?_, fun _ => ⟨_, rfl⟩⟩
        have herase := hmirrors.eraseTx tx (by simp) hshrinks.1
        apply herase.shift
        intro hash hleft
        have hne : tx.GetHash env ≠ hash := by
          rintro rfl
          simp [CTxMemPool.exists_, CTxMemPool.lookup_eraseTx] at hleft
        simp [hne.symm]
      · rw [if_neg hpooled]
        exact ⟨habsent g' (by simpa using hpooled) hfinal, fun _ => ⟨_, rfl⟩⟩

/-- By induction on the depth: pooled transactions are removed without an exception, so none can
leave a transaction in the pool that is not pending any more. -/
theorem removeTx_mirrors (hS : HashIdentifies env S) (fRecursive : Bool) (fuel : ℕ)
    (tx : CTransaction) (htx : tx ∈ S) (s : PoolState) (h : Mirrors env S D s) :
    Mirrors env S D (removeTx env fRecursive fuel tx s).final ∧
      ((tx.nVersion = CTransaction.DION_TX_VERSION → RemoveArgs tx) →
        ∃ s', removeTx env fRecursive fuel tx s = .ok s') := by
  induction fuel generalizing fRecursive tx s D with
  | zero =>
      exact removeTx_mirrors_step hS fRecursive 0 tx htx s (fun D' g hg => ⟨_, rfl, hg⟩) h
  | succ fuel ih =>
      refine removeTx_mirrors_step hS fRecursive (fuel + 1) tx htx s ?_ h
      intro D' g hg
      cases fRecursive with
      | false => exact ⟨_, rfl, hg⟩
      | true =>
          refine Halt.foldlM_ok ?_ (List.range tx.vout.length) (s.1, g) hg
          intro a i ha
          unfold removeSpender
          split
          · exact ⟨a, rfl, ha⟩
          · split
            · exact ⟨a, rfl, ha⟩
            next child hchild =>
              obtain ⟨hmem, -⟩ := ha.ok.named _ child hchild
              obtain ⟨hmirrors, hruns⟩ := ih true child hmem a ha
              obtain ⟨s', hs'⟩ := hruns fun hversion => (ha.hooked _ child hchild hversion).1
              rw [hs'] at hmirrors
              exact ⟨s', hs', hmirrors⟩

/-- The conflicts that are removed are pooled, so removing them runs through. -/
theorem removeConflicts_mirrors (hS : HashIdentifies env S) (tx : CTransaction) (s : PoolState)
    (h : Mirrors env S D s) :
    ∃ s', CTxMemPool.removeConflicts env tx s = .ok s' ∧ Mirrors env S D s' := by
  refine Halt.foldlM_ok ?_ tx.vin s h
  intro a txin ha
  unfold removeConflict
  split
  · exact ⟨a, rfl, ha⟩
  · split
    · exact ⟨a, rfl, ha⟩
    next txConflict hconflict =>
      split
      · exact ⟨a, rfl, ha⟩
      · obtain ⟨hmem, -⟩ := ha.ok.named _ txConflict hconflict
        obtain ⟨hmirrors, hruns⟩ := removeTx_mirrors hS true a.1.mapTx.length txConflict hmem a ha
        obtain ⟨s', hs'⟩ := hruns fun hversion => (ha.hooked _ txConflict hconflict hversion).1
        rw [hs'] at hmirrors
        exact ⟨s', hs', hmirrors⟩

/-! ## Accepting -/

/-- Outside a block `ConnectInputsPost` leaves `mapState` alone. -/
theorem connectInputsPost_outside (env : Env) (view : View) (g : Globals) (mapTestPool : TxIndexMap)
    (tx : CTransaction) (vTxPrev : List CTransaction) (vTxindex : List CTxIndex)
    (pindexBlock : Option CBlockIndex) :
    (ConnectInputsPost env view g mapTestPool tx vTxPrev vTxindex pindexBlock false
      false).final.mapState = g.mapState := by
  unfold ConnectInputsPost
  split
  · rfl
  · refine final_mapState rfl fun outs => final_mapState rfl fun prev => final_mapState rfl
      fun _ => final_mapState rfl fun name => final_mapState rfl fun _ => ?_
    have hswitch := connectInputsSwitch_mapState env g mapTestPool tx prev vTxindex pindexBlock false
      ((aliasTx tx).op.getD 0) (aliasTx tx).vvch
    simp only [bind, Except.bind]
    cases hrun : connectInputsSwitch env g mapTestPool tx prev vTxindex pindexBlock false false
        ((aliasTx tx).op.getD 0) (aliasTx tx).vvch with
    | error e =>
        obtain ⟨stop, g'⟩ := e
        rw [hrun] at hswitch
        exact hswitch
    | ok g' =>
        rw [hrun] at hswitch
        simp only [Bool.not_false, true_and, Bool.false_eq_true, false_and, ↓reduceIte]
        split
        · exact final_mapState hswitch fun _ => final_mapState hswitch fun _ => hswitch
        · exact hswitch

theorem left_mapState {α β : Type} {part : β → Globals} {x : Exec α} {next : α → Halt Globals β}
    (hg : g.mapState = m) (hnext : ∀ a, ((next a).left part).mapState = m) :
    ((x.within g >>= next).left part).mapState = m := by
  cases x with
  | error e => exact hg
  | ok a => exact hnext a

theorem connectInputs_outside (env : Env) (view : View) (g : Globals) (inputs : MapPrevTx)
    (mapTestPool : TxIndexMap) (pos : CDiskTxPos) (pindexBlock : Option CBlockIndex) (flags : ℕ)
    (tx : CTransaction) :
    ((tx.ConnectInputs env view g inputs mapTestPool pos pindexBlock false false flags).left
      Prod.snd).mapState = g.mapState := by
  unfold CTransaction.ConnectInputs
  split
  · rfl
  refine left_mapState rfl fun t => left_mapState rfl fun mapTestPool => ?_
  split
  · rfl
  refine left_mapState rfl fun nValueOut => left_mapState rfl fun _ => ?_
  have hpost := connectInputsPost_outside env view g mapTestPool tx t.vTxPrev t.vTxindex pindexBlock
  cases hrun : ConnectInputsPost env view g mapTestPool tx t.vTxPrev t.vTxindex pindexBlock false
      false with
  | error e =>
      obtain ⟨stop, g'⟩ := e
      rw [hrun] at hpost
      exact hpost
  | ok g' =>
      rw [hrun] at hpost
      exact left_mapState hpost fun _ => left_mapState hpost fun _ => left_mapState hpost
        fun _ => hpost

theorem acceptChecks_mapState (env : Env) (io : Io) (node : Node) (tx : CTransaction) :
    (acceptChecks env io node tx).final.mapState = node.mapState := by
  unfold acceptChecks
  refine final_mapState rfl fun _ => final_mapState rfl fun _ => final_mapState rfl fun _ =>
    final_mapState rfl fun _ => final_mapState rfl fun _ => final_mapState rfl fun _ =>
    final_mapState rfl fun _ => ?_
  split
  · rfl
  next inputs _ =>
    refine final_mapState rfl fun _ => final_mapState rfl fun _ => final_mapState rfl fun _ =>
      final_mapState rfl fun _ => final_mapState rfl fun _ => ?_
    have hinputs := connectInputs_outside env (node.view io) node.toGlobals inputs (fun _ => none)
      CDiskTxPos.memory node.pindexBest STANDARD_SCRIPT_VERIFY_FLAGS tx
    cases hrun : tx.ConnectInputs env (node.view io) node.toGlobals inputs (fun _ => none)
        CDiskTxPos.memory node.pindexBest false false STANDARD_SCRIPT_VERIFY_FLAGS with
    | error e =>
        obtain ⟨stop, g'⟩ := e
        rw [hrun] at hinputs
        exact hinputs
    | ok r =>
        rw [hrun] at hinputs
        exact hinputs

/-! ### What the checks leave -/

/-- An alias transaction that passes `ConnectInputsPost` has the arguments its hooks read. -/
theorem connectInputsPost_args {view : View} {mapTestPool : TxIndexMap}
    {vTxPrev : List CTransaction} {vTxindex : List CTxIndex} {pindexBlock : Option CBlockIndex}
    {fBlock fMiner : Bool} (hversion : tx.nVersion = CTransaction.DION_TX_VERSION)
    (h : ConnectInputsPost env view g mapTestPool tx vTxPrev vTxindex pindexBlock fBlock fMiner =
      .ok g') :
    (aliasTx tx).ret = true ∧ RemoveArgs tx ∧
      ∃ name, (aliasTx tx).vvch[0]? = some name ∧ name.length ≤ MAX_LOCATOR_LENGTH := by
  unfold ConnectInputsPost at h
  simp only [hversion, ne_eq, not_true_eq_false, ↓reduceIte, seq_ok, within_eq_ok, require_eq_ok,
    exists_const] at h
  obtain ⟨outs, -, prev, -, hret, name, hread, hlen, g₁, hswitch, -⟩ := h
  have hname : (aliasTx tx).vvch[0]? = some name := read_eq_ok.mp hread
  have hpool : PoolArgs tx := by
    intro _ _ hnil
    simp [hnil] at hname
  have hkeys : (aliasTx tx).ret = true →
      (aliasTx tx).op.getD 0 = OP_PUBLIC_KEY ∨ (aliasTx tx).op.getD 0 = OP_VERTEX →
      2 ≤ (aliasTx tx).vvch.length := by
    intro _ hop
    simp only [connectInputsSwitch, hop, ↓reduceIte, seq_ok, within_eq_ok] at hswitch
    obtain ⟨_, -, a, -, b, hb, -⟩ := hswitch
    have hlast := (List.getElem?_eq_some_iff.mp (read_eq_ok.mp hb)).1
    omega
  exact ⟨hret, ⟨hpool, hkeys⟩, name, hname, hlen⟩

theorem acceptChecks_args {io : Io} (hversion : tx.nVersion = CTransaction.DION_TX_VERSION)
    (h : acceptChecks env io node tx = .ok g) :
    (aliasTx tx).ret = true ∧ RemoveArgs tx ∧
      ∃ name, (aliasTx tx).vvch[0]? = some name ∧ name.length ≤ MAX_LOCATOR_LENGTH := by
  simp only [acceptChecks, seq_ok, within_eq_ok, require_eq_ok, exists_const] at h
  obtain ⟨-, ⟨hcoinbase, hcoinstake⟩, -, -, -, -, -, h⟩ := h
  split at h
  next => cases h
  next inputs _ =>
    simp only [seq_ok, within_eq_ok, require_eq_ok, exists_const] at h
    obtain ⟨_, -, -, _, -, _, -, -, r, hconnect, -⟩ := h
    unfold CTransaction.ConnectInputs at hconnect
    simp only [hcoinbase, Bool.false_eq_true, ↓reduceIte, seq_ok, within_eq_ok] at hconnect
    obtain ⟨t, -, pool, -, hconnect⟩ := hconnect
    simp only [hcoinstake, Bool.false_eq_true, ↓reduceIte, seq_ok, within_eq_ok, require_eq_ok,
      exists_const] at hconnect
    obtain ⟨_, -, -, g₁, hpost, -⟩ := hconnect
    exact connectInputsPost_args hversion hpost

/-- The early exit of `AcceptToMemoryPoolPost`: the transaction sets a name whose record is live. -/
def SetsLiveName (env : Env) (node : Node) (tx : CTransaction) : Prop :=
  (aliasTx tx).op.getD 0 = OP_ALIAS_SET ∧
    ∃ name, (aliasTx tx).vvch[0]? = some name ∧ 0 ≤ aliasHeight node.ln1Db name ∧
      unsignedDiff node.nBestHeight (aliasHeight node.ln1Db name) < env.scaleMonitor

/-- Without that exit the hook inserts the transaction. -/
theorem acceptToMemoryPoolPost_holds {io : Io} (hchecks : acceptChecks env io node tx = .ok g')
    (hlive : tx.nVersion = CTransaction.DION_TX_VERSION → ¬ SetsLiveName env node tx) :
    ∃ g₁, AcceptToMemoryPoolPost env (node.view io) g tx = .ok g₁ ∧
      ∀ name hash, Holds g₁.mapState name hash ↔
        Holds g.mapState name hash ∨ pendingKey env tx = some (name, hash) := by
  unfold AcceptToMemoryPoolPost
  by_cases hversion : tx.nVersion = CTransaction.DION_TX_VERSION
  · obtain ⟨hret, hargs, name, hname, hlen⟩ := acceptChecks_args hversion hchecks
    have hvout := vout_length_of_aliasTx hret
    have hread : Halting.read (aliasTx tx).vvch 0 = .ok name := read_eq_ok.mpr hname
    have hnot := hlive hversion
    simp only [hversion, ne_eq, not_true_eq_false, ↓reduceIte, hvout, hret, hread]
    by_cases hset : (aliasTx tx).op.getD 0 = OP_ALIAS_SET
    · have hage : ¬(0 ≤ aliasHeight (node.view io).ln1Db name ∧
          unsignedDiff (node.view io).nBestHeight (aliasHeight (node.view io).ln1Db name) <
            env.scaleMonitor) := by
        rintro ⟨hheight, hyoung⟩
        exact hnot ⟨hset, name, hname, hheight, hyoung⟩
      refine ⟨{ g with mapState := g.mapState.insert name (tx.GetHash env) }, ?_, ?_⟩
      · simp [require, Exec.within, bind, Except.bind, hset, hlen, hage]
      · intro name' hash'
        have hset' : OP_ALIAS_SET ≠ OP_ALIAS_ENCRYPTED := by decide
        simp only [holds_insert]
        simp [pendingKey, hversion, hset, hset', hname, eq_comm]
    · by_cases henc : (aliasTx tx).op.getD 0 = OP_ALIAS_ENCRYPTED
      · have hset' : OP_ALIAS_ENCRYPTED ≠ OP_ALIAS_SET := by decide
        refine ⟨g, ?_, ?_⟩
        · simp [require, Exec.within, bind, Except.bind, hset', henc]
        · intro name' hash'
          simp [pendingKey, henc]
      · refine ⟨{ g with mapState := g.mapState.insert name (tx.GetHash env) }, ?_, ?_⟩
        · simp [require, Exec.within, bind, Except.bind, hset, henc]
        · intro name' hash'
          simp only [holds_insert]
          simp [pendingKey, hversion, henc, hname, eq_comm]
  · refine ⟨g, by simp [hversion], ?_⟩
    intro name hash
    simp [pendingKey, hversion]

/-- What the hooks need of a transaction that passes the checks. -/
def AcceptKeeps (env : Env) (io : Io) (node : Node) (tx : CTransaction) : Prop :=
  (∃ g, acceptChecks env io node tx = .ok g) → tx.nVersion = CTransaction.DION_TX_VERSION →
    OpAgrees tx ∧ ¬ SetsLiveName env node tx

/-- However the call ends, and while hashes of the pool are out of `mapState`. -/
theorem accept_mirrors {io : Io} (htx : tx ∈ S) (hkeeps : AcceptKeeps env io node tx)
    (hD : ∀ hash ∈ D, node.mempool.exists_ hash = true)
    (h : Mirrors env S D (node.mempool, node.toGlobals)) :
    Mirrors env S D ((AcceptToMemoryPool env io node tx).final.mempool,
      (AcceptToMemoryPool env io node tx).final.toGlobals) := by
  have hsame := acceptChecks_mapState env io node tx
  unfold AcceptToMemoryPool
  cases hchecks : acceptChecks env io node tx with
  | error e =>
      obtain ⟨stop, g⟩ := e
      rw [hchecks] at hsame
      exact h.congr hsame
  | ok g =>
      rw [hchecks, Halt.final_ok] at hsame
      obtain ⟨hcheck, hfresh, hfree⟩ := acceptChecks_ok io node tx g hchecks
      obtain ⟨g₁, hrun, hholds⟩ := acceptToMemoryPoolPost_holds (g := g) hchecks
        fun hversion => (hkeeps ⟨g, hchecks⟩ hversion).2
      simp only [Halt.lift, bind, Except.bind, hrun, Halt.attempt, Halt.final_ok]
      refine ⟨h.ok.addUnchecked tx htx hfresh hfree (tx.CheckTransaction_nodup hcheck), ?_, ?_⟩
      · intro name hash
        change Holds g₁.mapState name hash ↔ _
        rw [hholds, hsame, h.pending]
        simp only [CTxMemPool.lookup_addUnchecked]
        by_cases heq : hash = tx.GetHash env
        · subst heq
          have hout : tx.GetHash env ∉ D := by
            intro hmem
            have hpooled := hD _ hmem
            simp [CTxMemPool.exists_, hfresh] at hpooled
          simp [hfresh, hout]
        · have hne : pendingKey env tx ≠ some (name, hash) := fun hkey =>
            heq (pendingKey_hash hkey).symm
          simp [heq, hne]
      · intro hash t ht hversion
        change (node.mempool.addUnchecked (tx.GetHash env) tx).lookup hash = some t at ht
        rw [CTxMemPool.lookup_addUnchecked] at ht
        by_cases heq : hash = tx.GetHash env
        · rw [if_pos heq, Option.some.injEq] at ht
          subst ht
          exact ⟨(acceptChecks_args hversion hchecks).2.1, (hkeeps ⟨g, hchecks⟩ hversion).1⟩
        · rw [if_neg heq] at ht
          exact h.hooked hash t ht hversion

/-! ## The name of a transaction -/

/-- An alias transaction whose one alias output is not encrypted and has `v` as first argument. -/
def PendsUnder (tx : CTransaction) (v : vchType) : Prop :=
  tx.nVersion = CTransaction.DION_TX_VERSION ∧ ∃ out, aliasOutputs tx = [out] ∧
    (aliasScript out.scriptPubKey none).op ≠ some OP_ALIAS_ENCRYPTED ∧
    (aliasScript out.scriptPubKey none).vvch[0]? = some v

theorem aliasTxLoop_found {vvch : List vchType} :
    (aliasTxLoop vout i true op nOut vvch).vvch =
      if vout.filter (fun out => (aliasScript out.scriptPubKey none).ret) = [] then vvch
      else [] := by
  induction vout generalizing i op with
  | nil => simp [aliasTxLoop]
  | cons out vout ih =>
      have hret := (aliasScript_op out.scriptPubKey op none).1
      unfold aliasTxLoop
      cases halias : (aliasScript out.scriptPubKey none).ret with
      | true => simp [hret, halias]
      | false => simp [hret, halias, ih]

/-- The arguments are those of the one alias output, if there is exactly one. -/
theorem aliasTxLoop_vvch_eq {vvch : List vchType} :
    (aliasTxLoop vout i false op nOut vvch).vvch =
      match vout.filter fun out => (aliasScript out.scriptPubKey none).ret with
      | [out] => (aliasScript out.scriptPubKey none).vvch
      | _ => [] := by
  induction vout generalizing i op with
  | nil => simp [aliasTxLoop]
  | cons out vout ih =>
      obtain ⟨hret, hvvch⟩ := aliasScript_op out.scriptPubKey op none
      unfold aliasTxLoop
      cases halias : (aliasScript out.scriptPubKey none).ret with
      | true =>
          simp only [hret, halias, ↓reduceIte, Bool.false_eq_true, aliasTxLoop_found,
            List.filter_cons_of_pos]
          cases vout.filter (fun out => (aliasScript out.scriptPubKey none).ret) with
          | nil => simp [hvvch]
          | cons out' rest => simp
      | false => simp [hret, halias, ih]

theorem aliasTx_vvch (tx : CTransaction) :
    (aliasTx tx).vvch = match aliasOutputs tx with
      | [out] => (aliasScript out.scriptPubKey none).vvch
      | _ => [] := aliasTxLoop_vvch_eq

/-- The key that the hooks use is the first argument of the alias output when the opcodes agree. -/
theorem pendingKey_iff {v : vchType}
    (hagrees : tx.nVersion = CTransaction.DION_TX_VERSION → OpAgrees tx) :
    pendingKey env tx = some (v, hash) ↔ PendsUnder tx v ∧ tx.GetHash env = hash := by
  unfold pendingKey PendsUnder
  by_cases hversion : tx.nVersion = CTransaction.DION_TX_VERSION
  · have hagrees := hagrees hversion
    simp only [hversion, ne_eq, true_and]
    rw [aliasTx_vvch]
    cases houts : aliasOutputs tx with
    | nil => simp
    | cons out rest =>
        cases rest with
        | cons out' rest => simp
        | nil =>
            have hop := hagrees out houts
            have hzero : (aliasScript out.scriptPubKey none).op.getD 0 = OP_ALIAS_ENCRYPTED ↔
                (aliasScript out.scriptPubKey none).op = some OP_ALIAS_ENCRYPTED := by
              cases (aliasScript out.scriptPubKey none).op <;> simp [OP_ALIAS_ENCRYPTED]
            rw [hzero] at hop
            by_cases henc : (aliasTx tx).op.getD 0 = OP_ALIAS_ENCRYPTED
            · simp [henc, hop.mp henc]
            · have hother := fun h => henc (hop.mpr h)
              simp only [henc, not_false_eq_true, ↓reduceIte, List.cons.injEq, and_true,
                exists_eq_left', Option.map_eq_some_iff, Prod.mk.injEq]
              constructor
              · rintro ⟨name, hname, rfl, hhash⟩
                exact ⟨⟨hother, hname⟩, hhash⟩
              · rintro ⟨⟨-, hname⟩, hhash⟩
                exact ⟨v, hname, rfl, hhash⟩
  · simp [hversion]

/-- With nothing out of `mapState`, pending are exactly the hashes of the pooled transactions. -/
theorem Mirrors.holds_iff (h : Mirrors env S ∅ s) (v : vchType) (hash : uint256) :
    Holds s.2.mapState v hash ↔ ∃ tx, s.1.lookup hash = some tx ∧ PendsUnder tx v := by
  rw [h.pending]
  simp only [Set.mem_empty_iff_false, not_false_eq_true, true_and]
  constructor
  · rintro ⟨tx, htx, hkey⟩
    exact ⟨tx, htx, ((pendingKey_iff fun hversion => (h.hooked hash tx htx hversion).2).mp hkey).1⟩
  · rintro ⟨tx, htx, hpends⟩
    refine ⟨tx, htx, ?_⟩
    rw [pendingKey_iff fun hversion => (h.hooked hash tx htx hversion).2]
    exact ⟨hpends, (h.ok.named hash tx htx).2⟩

end Dions
