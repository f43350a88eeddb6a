import Dions.Model.Destination
import Dions.Verification.Alias.Rescan

/-! # Scanning from the start height

On the main network `xsc` passes over the blocks below height 1625000. Where the name of a set below
it has expired and been set anew above it, a set in between that the first scan ignored is the first
one that `xsc` meets. -/

namespace Dions

open Halting

variable {n : ℕ} {tx : CTransaction}
variable {p : CBlockIndex} {c : ℕ × ℕ} {files : BlockFile}

/-! ## Chains that are valid -/

/-- `ConnectInputs` does not ask `ConnectInputsPost`, or in the block it accepts the transaction with
the previous ones that the index leads to. -/
def PassesPost (env : Env) (files : BlockFile) (txdb : TxIndexMap) (pindex : CBlockIndex)
    (tx : CTransaction) : Prop :=
  tx.IsCoinBase = true ∨ tx.IsCoinStake = true ∨ ∃ vTxPrev vTxindex,
    List.Forall₂ (fun txin txindex => txdb txin.prevout.hash = some txindex) tx.vin vTxindex ∧
    List.Forall₂ (fun txindex txPrev => files.readTx txindex.pos = some txPrev) vTxindex vTxPrev ∧
    ∀ view g mapTestPool, ∃ g', ConnectInputsPost env view g mapTestPool tx vTxPrev vTxindex
      (some pindex) true false = .ok g'

/-- Every transaction of the chain is valid under `ConnectInputsPost`. -/
def ChainPasses (env : Env) (files : BlockFile) (txdb : TxIndexMap) (chain : List CBlockIndex) : Prop :=
  ∀ p ∈ chain, ∀ tx ∈ filterBlock files p, PassesPost env files txdb p tx

/-! ## Chains of a given height -/

/-- The numbers of an ascending list are what is left of a range that is long enough. -/
theorem filter_range_of_mem {l : List ℕ} {P : ℕ → Prop} [DecidablePred P]
    (hsorted : l.Pairwise (· < ·)) (hmem : ∀ x, P x ∧ x < n ↔ x ∈ l) :
    (List.range n).filter (fun x => P x) = l := by
  refine List.Perm.eq_of_pairwise' (List.pairwise_lt_range.filter _) hsorted ?_
  refine (List.perm_ext_iff_of_nodup (List.nodup_range.filter _) (hsorted.imp Nat.ne_of_lt)).mpr ?_
  intro x
  rw [List.mem_filter, List.mem_range, decide_eq_true_eq, and_comm]
  exact hmem x

namespace Scenario

theorem nHeight_chainOf (n : ℕ) : CBlockIndex.nHeight (chainOf n) = n := by
  induction n with
  | zero => rfl
  | succ n ih => exact congrArg (· + 1) ih

def chainTo (n : ℕ) : List CBlockIndex := (List.range (n + 1)).map chainOf

def linksTo (n : ℕ) (p : CBlockIndex) : Option CBlockIndex :=
  if CBlockIndex.nHeight p < n then some (chainOf (CBlockIndex.nHeight p + 1)) else none

theorem chained_range' (a k : ℕ) : Chained (linksTo (a + k)) ((List.range' a (k + 1)).map chainOf) := by
  induction k generalizing a with
  | zero =>
    show linksTo a (chainOf a) = none
    rw [linksTo, nHeight_chainOf, if_neg (Nat.lt_irrefl a)]
  | succ k ih =>
    have hrest := ih (a + 1)
    rw [show a + 1 + k = a + (k + 1) by omega] at hrest
    refine ⟨?_, rfl, hrest⟩
    rw [linksTo, nHeight_chainOf, if_pos (by omega)]

theorem chained_chainTo (n : ℕ) : Chained (linksTo n) (chainTo n) := by
  have h := chained_range' 0 n
  rwa [Nat.zero_add, ← List.range_eq_range'] at h

theorem nHeight_le_of_mem (h : p ∈ chainTo n) : CBlockIndex.nHeight p ≤ n := by
  obtain ⟨k, hk, rfl⟩ := List.mem_map.mp h
  rw [nHeight_chainOf]
  exact Nat.le_of_lt_succ (List.mem_range.mp hk)

theorem filter_chainTo {l : List ℕ} {P : CBlockIndex → Prop} [DecidablePred P]
    (hsorted : l.Pairwise (· < ·)) (hmem : ∀ x, P (chainOf x) ∧ x < n + 1 ↔ x ∈ l) :
    (chainTo n).filter (fun p => P p) = l.map chainOf := by
  rw [chainTo, List.filter_map]
  exact congrArg (List.map chainOf) (filter_range_of_mem (P := fun x => P (chainOf x)) hsorted hmem)

/-! ## Three sets of a name -/

/-- Three coins for the registrations. -/
def purse : CTransaction := coinbase 1 20 1 [payTo (3 * COIN), payTo (3 * COIN), payTo (3 * COIN)]

def nonce : vchType := List.replicate 19 0x64

/-- The registration of the name `[0x61]` with the coin `k`; the fourth argument is the hash. -/
def registered (k : ℕ) : CTransaction :=
  spending (21 + k) CTransaction.DION_TX_VERSION [⟨20, k⟩]
    [⟨2 * COIN, registerAlias [0x7a] [0x62] [0x63] (nonce ++ [0x61]) ++ [0x51]⟩]

/-- The set of the name that spends it. -/
def claimed (k : ℕ) : CTransaction :=
  spending (31 + k) CTransaction.DION_TX_VERSION [⟨21 + k, 0⟩]
    [⟨COIN, writePrefix OP_ALIAS_SET [[0x61], [0x62], [0x63], nonce, [0x65]]
      [OP_2DROP, OP_2DROP, OP_DROP] ++ [0x51]⟩]

/-- The last set is 210001 blocks above the first, and 34001 above the second. -/
def aliasTxsAt (n : ℕ) : List CTransaction :=
  if n = 1623000 then [registered 0, registered 1, registered 2]
  else if n = 1624000 then [claimed 0]
  else if n = 1800000 then [claimed 1]
  else if n = 1834001 then [claimed 2]
  else []

def blockAt (n : ℕ) : CBlock :=
  emptyBlock n ((if n = 1 then purse else coinbase n (n + 100) 1 [payTo 0]) :: aliasTxsAt n)

/-- The transactions that others spend or that `filter` reads, at their positions. -/
def placed : List (CDiskTxPos × CTransaction) :=
  [1, 1623000, 1624000, 1800000, 1834001].flatMap fun n =>
    txPositions 1 (1000 * n) (firstTxPos (1000 * n) (blockAt n).vtx.length) (blockAt n).vtx

def tallFiles : BlockFile where
  blocks := fun p =>
    if p = (1, 8) then some genesisBlock
    else if p.1 = 1 ∧ p.2 % 1000 = 0 then some (blockAt (p.2 / 1000))
    else none
  txs := fun p => (placed.find? fun q => q.1.nTxPos = p.2).map Prod.snd
  size := fun _ => 0
  nCurrentBlockFile := 1

def tallIndex : TxIndexMap := fun hash =>
  (placed.find? fun q => q.2.nTime = hash).map fun q => CTxIndex.new q.1 q.2.vout.length

theorem filterBlock_succ (n : ℕ) : filterBlock tallFiles (chainOf (n + 1)) = (blockAt (n + 1)).vtx := by
  have hroot : ¬((1, 1000 * (n + 1)) : ℕ × ℕ) = (1, 8) := by
    intro heq
    cases heq
  have hplace : ((1, 1000 * (n + 1)) : ℕ × ℕ).1 = 1 ∧
      ((1, 1000 * (n + 1)) : ℕ × ℕ).2 % 1000 = 0 := ⟨rfl, Nat.mul_mod_right 1000 (n + 1)⟩
  have hblock : tallFiles.blocks (1, 1000 * (n + 1)) = some (blockAt (n + 1)) := by
    rw [tallFiles]
    dsimp only
    rw [if_neg hroot, if_pos hplace, Nat.mul_div_cancel_left (n + 1) (by decide : 0 < 1000)]
  exact filterBlock_eq hblock

/-- What `filter` takes from the set in the block of an entry. -/
def claimOp (pindex : CBlockIndex) (txPos : CDiskTxPos) : AliasOp :=
  ⟨OP_ALIAS_SET, [[0x61], [0x62], [0x63], nonce, [0x65]],
    ⟨txPos, CBlockIndex.nHeight pindex, [], [0x51]⟩⟩

def claims : List (ℕ × ℕ) := [(1624000, 0), (1800000, 1), (1834001, 2)]

theorem aliasTxsAt_claims (h : c ∈ claims) : aliasTxsAt c.1 = [claimed c.2] ∧ c.1 ≠ 1 := by
  simp only [claims, List.mem_cons, List.not_mem_nil, or_false] at h
  rcases h with rfl | rfl | rfl
  · exact ⟨rfl, by decide⟩
  · exact ⟨rfl, by decide⟩
  · exact ⟨rfl, by decide⟩

theorem filterOp_claimed (h : c ∈ claims) (pindex : CBlockIndex) (txPos : CDiskTxPos) :
    filterOp (timed mainNet) tallFiles tallIndex pindex txPos (claimed c.2) =
      .ok (some (claimOp pindex txPos), claimed c.2) := by
  simp only [claims, List.mem_cons, List.not_mem_nil, or_false] at h
  rcases h with rfl | rfl | rfl
  · rfl
  · rfl
  · rfl

theorem filter_claim (h : c ∈ claims) : ∃ txPos, ∀ ln1Db ln1Db',
    putOp (timed mainNet) ln1Db (claimOp (chainOf c.1) txPos) = .ok ln1Db' →
    LocatorNodeDB.filter (timed mainNet) tallFiles tallIndex ln1Db (chainOf c.1) = .ok ln1Db' := by
  obtain ⟨htxs, hone⟩ := aliasTxsAt_claims h
  obtain ⟨n, hn⟩ : ∃ n, c.1 = n + 1 := by
    simp only [claims, List.mem_cons, List.not_mem_nil, or_false] at h
    rcases h with rfl | rfl | rfl
    · exact ⟨1623999, rfl⟩
    · exact ⟨1799999, rfl⟩
    · exact ⟨1834000, rfl⟩
  have hvtx : filterBlock tallFiles (chainOf c.1) =
      [coinbase c.1 (c.1 + 100) 1 [payTo 0], claimed c.2] := by
    rw [hn, filterBlock_succ, ← hn, blockAt, if_neg hone, htxs]
    rfl
  let txPos : CDiskTxPos := ⟨CBlockIndex.nFile (chainOf c.1), CBlockIndex.nBlockPos (chainOf c.1),
    firstTxPos (CBlockIndex.nBlockPos (chainOf c.1)) 2 +
      (coinbase c.1 (c.1 + 100) 1 [payTo 0]).GetSerializeSize⟩
  refine ⟨txPos, fun ln1Db ln1Db' hput => ?_⟩
  rw [LocatorNodeDB.filter, hvtx]
  refine filterLoop_ok.mpr ⟨[claimOp (chainOf c.1) txPos], ?_, seq_ok.mpr ⟨ln1Db', hput, rfl⟩⟩
  refine seq_ok.mpr ⟨(none, coinbase c.1 (c.1 + 100) 1 [payTo 0]), rfl, seq_ok.mpr ⟨_, ?_, rfl⟩⟩
  exact seq_ok.mpr ⟨_, filterOp_claimed h _ _, rfl⟩

def heldBy (pindex : CBlockIndex) (txPos : CDiskTxPos) : AliasDb :=
  Function.update (fun _ => none) [0x61] (some [(claimOp pindex txPos).record])

/-- A set takes the name when its record has expired. -/
theorem putOp_heldBy (q p : CBlockIndex) (qPos pPos : CDiskTxPos) :
    putOp (timed mainNet) (heldBy q qPos) (claimOp p pPos) =
      .ok (if 210000 ≤ unsignedDiff (CBlockIndex.nHeight p) (CBlockIndex.nHeight q) then heldBy p pPos
        else heldBy q qPos) := by
  have hput : putOp (timed mainNet) (heldBy q qPos) (claimOp p pPos) =
      if 210000 ≤ unsignedDiff (CBlockIndex.nHeight p) (CBlockIndex.nHeight q) then
        .ok (Function.update (heldBy q qPos) [0x61] (some [(claimOp p pPos).record]))
      else .ok (heldBy q qPos) := rfl
  rw [hput]
  by_cases hexpired : 210000 ≤ unsignedDiff (CBlockIndex.nHeight p) (CBlockIndex.nHeight q)
  · rw [if_pos hexpired, if_pos hexpired, heldBy, Function.update_idem]
    rfl
  · rw [if_neg hexpired, if_neg hexpired]

theorem heldBy_ne {q : CBlockIndex} (h : CBlockIndex.nHeight p ≠ CBlockIndex.nHeight q)
    (pPos qPos : CDiskTxPos) : heldBy p pPos ≠ heldBy q qPos := by
  intro heq
  have hrecord := congrFun heq [0x61]
  rw [heldBy, heldBy, Function.update_self, Function.update_self] at hrecord
  exact h (congrArg AliasIndex.nHeight (List.head_eq_of_cons_eq (Option.some.inj hrecord)))

/-! ## The chain of the three sets -/

theorem passesPost_one {env : Env} {txdb : TxIndexMap} {pindex : CBlockIndex}
    {txPrev : CTransaction} {txin : CTxIn} {txindex : CTxIndex} (hvin : tx.vin = [txin])
    (hindex : txdb txin.prevout.hash = some txindex)
    (hread : files.readTx txindex.pos = some txPrev)
    (hpost : ∀ view g mapTestPool, ∃ g', ConnectInputsPost env view g mapTestPool tx [txPrev]
      [txindex] (some pindex) true false = .ok g') : PassesPost env files txdb pindex tx := by
  refine .inr (.inr ⟨[txPrev], [txindex], ?_, .cons hread .nil, hpost⟩)
  rw [hvin]
  exact .cons hindex .nil

theorem registered_passes (pindex : CBlockIndex) :
    ∀ tx ∈ [registered 0, registered 1, registered 2],
      PassesPost (timed mainNet) tallFiles tallIndex pindex tx := by
  have hindex : tallIndex 20 = some (CTxIndex.new ⟨1, 1000, 1081⟩ 3) := by decide +kernel
  have hread : tallFiles.readTx ⟨1, 1000, 1081⟩ = some purse := by decide +kernel
  intro tx htx
  simp only [List.mem_cons, List.not_mem_nil, or_false] at htx
  rcases htx with rfl | rfl | rfl
  · exact passesPost_one rfl hindex hread fun view g pool => ⟨g, rfl⟩
  · exact passesPost_one rfl hindex hread fun view g pool => ⟨g, rfl⟩
  · exact passesPost_one rfl hindex hread fun view g pool => ⟨g, rfl⟩

theorem claimed_passes (h : c ∈ claims) :
    PassesPost (timed mainNet) tallFiles tallIndex (chainOf c.1) (claimed c.2) := by
  simp only [claims, List.mem_cons, List.not_mem_nil, or_false] at h
  rcases h with rfl | rfl | rfl
  · have hindex : tallIndex 21 = some (CTxIndex.new ⟨1, 1623000000, 1623000152⟩ 1) := by decide +kernel
    have hread : tallFiles.readTx ⟨1, 1623000000, 1623000152⟩ = some (registered 0) := by
      decide +kernel
    exact passesPost_one rfl hindex hread fun view g pool => ⟨_, rfl⟩
  · have hindex : tallIndex 22 = some (CTxIndex.new ⟨1, 1623000000, 1623000258⟩ 1) := by decide +kernel
    have hread : tallFiles.readTx ⟨1, 1623000000, 1623000258⟩ = some (registered 1) := by
      decide +kernel
    exact passesPost_one rfl hindex hread fun view g pool => ⟨_, rfl⟩
  · have hindex : tallIndex 23 = some (CTxIndex.new ⟨1, 1623000000, 1623000364⟩ 1) := by decide +kernel
    have hread : tallFiles.readTx ⟨1, 1623000000, 1623000364⟩ = some (registered 2) := by
      decide +kernel
    exact passesPost_one rfl hindex hread fun view g pool => ⟨_, rfl⟩

/-- What stands in the blocks beside the coinbases. -/
theorem mem_aliasTxsAt (h : tx ∈ aliasTxsAt n) :
    tx ∈ [registered 0, registered 1, registered 2] ∨ ∃ c ∈ claims, n = c.1 ∧ tx = claimed c.2 := by
  rw [aliasTxsAt] at h
  by_cases h₀ : n = 1623000
  · rw [if_pos h₀] at h
    exact .inl h
  rw [if_neg h₀] at h
  refine .inr ?_
  by_cases h₁ : n = 1624000
  · rw [if_pos h₁] at h
    exact ⟨(1624000, 0), by decide, h₁, List.mem_singleton.mp h⟩
  rw [if_neg h₁] at h
  by_cases h₂ : n = 1800000
  · rw [if_pos h₂] at h
    exact ⟨(1800000, 1), by decide, h₂, List.mem_singleton.mp h⟩
  rw [if_neg h₂] at h
  by_cases h₃ : n = 1834001
  · rw [if_pos h₃] at h
    exact ⟨(1834001, 2), by decide, h₃, List.mem_singleton.mp h⟩
  · rw [if_neg h₃] at h
    exact absurd h List.not_mem_nil

theorem mem_tallBlock (h : tx ∈ filterBlock tallFiles (chainOf n)) :
    tx.IsCoinBase = true ∧ tx.nVersion = 1 ∨ tx ∈ aliasTxsAt n := by
  cases n with
  | zero => exact absurd h List.not_mem_nil
  | succ n =>
    rw [filterBlock_succ] at h
    rcases List.mem_cons.mp h with rfl | h
    · split_ifs
      · exact .inl ⟨rfl, rfl⟩
      · exact .inl ⟨rfl, rfl⟩
    · exact .inr h

theorem chainPasses_tall (n : ℕ) : ChainPasses (timed mainNet) tallFiles tallIndex (chainTo n) := by
  intro p hp tx htx
  obtain ⟨k, -, rfl⟩ := List.mem_map.mp hp
  rcases mem_tallBlock htx with hbase | halias
  · exact .inl hbase.1
  · rcases mem_aliasTxsAt halias with hregistered | ⟨c, hc, rfl, rfl⟩
    · exact registered_passes (chainOf k) tx hregistered
    · exact claimed_passes hc

theorem aliasOp_tall (htx : tx ∈ filterBlock tallFiles (chainOf n))
    (hop : IsAliasOp (timed mainNet) tx) : ∃ c ∈ claims, n = c.1 ∧ tx = claimed c.2 := by
  rcases mem_tallBlock htx with hbase | halias
  · rw [IsAliasOp, hbase.2] at hop
    exact absurd hop.1 (by decide)
  · refine (mem_aliasTxsAt halias).resolve_left fun hregistered => ?_
    have hnone : ∀ tx ∈ [registered 0, registered 1, registered 2],
        ¬ IsAliasOp (timed mainNet) tx := by
      unfold IsAliasOp
      decide
    exact hnone tx hregistered hop

theorem aliasFree_tall (h : n ∉ claims.map Prod.fst) :
    AliasFree (timed mainNet) tallFiles (chainOf n) := by
  intro tx htx hop
  obtain ⟨c, hc, rfl, -⟩ := aliasOp_tall htx hop
  exact h (List.mem_map_of_mem hc)

theorem setsFirst_tall {ops : List AliasOp}
    (hops : chainOps (timed mainNet) tallFiles tallIndex (chainTo n) = .ok ops) :
    SetsFirst ops := by
  intro v o hfirst
  obtain ⟨p, hp, tx, htx, txPos, tx', hop⟩ := mem_chainOps hops (List.mem_of_find?_eq_some hfirst)
  obtain ⟨k, -, rfl⟩ := List.mem_map.mp hp
  have htaken : IsAliasOp (timed mainNet) tx := by
    by_contra hplain
    rw [filterOp_plain hplain] at hop
    cases hop
  obtain ⟨c, hc, rfl, rfl⟩ := aliasOp_tall htx htaken
  rw [filterOp_claimed hc] at hop
  cases hop
  rfl

/-- Filtering entries of the chain comes down to filtering those of the sets. -/
theorem filterAll_claims {P : CBlockIndex → Prop} [DecidablePred P] {l : List ℕ}
    (hsorted : l.Pairwise (· < ·))
    (hmem : ∀ x, (x ∈ claims.map Prod.fst ∧ P (chainOf x)) ∧ x < n + 1 ↔ x ∈ l) (ln1Db : AliasDb) :
    filterAll (timed mainNet) tallFiles tallIndex ((chainTo n).filter fun p => P p) ln1Db =
      filterAll (timed mainNet) tallFiles tallIndex (l.map chainOf) ln1Db := by
  have hplain : ∀ p ∈ (chainTo n).filter (fun p => P p),
      ¬ CBlockIndex.nHeight p ∈ claims.map Prod.fst → AliasFree (timed mainNet) tallFiles p := by
    intro p hp hnone
    obtain ⟨k, -, rfl⟩ := List.mem_map.mp (List.mem_of_mem_filter hp)
    rw [nHeight_chainOf] at hnone
    exact aliasFree_tall hnone
  have hkept : (chainTo n).filter
      (fun p => CBlockIndex.nHeight p ∈ claims.map Prod.fst ∧ P p) = l.map chainOf := by
    refine filter_chainTo hsorted fun x => ?_
    rw [nHeight_chainOf]
    exact hmem x
  rw [← filterAll_filter hplain, List.filter_filter, ← hkept]
  simp only [Bool.decide_and]

theorem filterAll_cons {env : Env} {txdb : TxIndexMap} {chain : List CBlockIndex}
    {ln1Db ln1Db₁ ln1Db₂ : AliasDb}
    (hone : LocatorNodeDB.filter env files txdb ln1Db p = .ok ln1Db₁)
    (hrest : filterAll env files txdb chain ln1Db₁ = .ok ln1Db₂) :
    filterAll env files txdb (p :: chain) ln1Db = .ok ln1Db₂ := seq_ok.mpr ⟨ln1Db₁, hone, hrest⟩

end Scenario

open Scenario in
/-- Filtering the whole chain leaves the third set: the first has expired, the second came too
early. The scan starts above the first one. To it the second set is 34001 blocks below the record,
an unsigned difference beyond every life time, and the third one comes too early. -/
theorem xsc_rewinds :
    ¬∀ (env : Env) (files : BlockFile) (txdb : TxIndexMap) (pnext : CBlockIndex → Option CBlockIndex)
      (chain : List CBlockIndex) (ln1Db : AliasDb) (fuel : ℕ), Chained pnext chain →
      (∀ p ∈ chain, p.nHeight < 2 ^ 31) → ChainPasses env files txdb chain →
      (∀ ops, chainOps env files txdb chain = .ok ops → SetsFirst ops) →
      filterAll env files txdb chain (fun _ => none) = .ok ln1Db → chain.length ≤ fuel →
      xsc env files txdb pnext fuel chain.head? ln1Db = .ok ln1Db := by
  intro h
  obtain ⟨pos₀, hfilter₀⟩ := filter_claim (c := (1624000, 0)) (by decide)
  obtain ⟨pos₁, hfilter₁⟩ := filter_claim (c := (1800000, 1)) (by decide)
  obtain ⟨pos₂, hfilter₂⟩ := filter_claim (c := (1834001, 2)) (by decide)
  have hfirst := hfilter₀ (fun _ => none) (heldBy (chainOf 1624000) pos₀) rfl
  have hearly := hfilter₁ _ _ (putOp_heldBy (chainOf 1624000) (chainOf 1800000) pos₀ pos₁)
  have hlast := hfilter₂ _ _ (putOp_heldBy (chainOf 1624000) (chainOf 1834001) pos₀ pos₂)
  have hback := hfilter₁ _ _ (putOp_heldBy (chainOf 1834001) (chainOf 1800000) pos₂ pos₁)
  have hkept := hfilter₂ _ _ (putOp_heldBy (chainOf 1800000) (chainOf 1834001) pos₁ pos₂)
  simp only [nHeight_chainOf] at hearly hlast hback hkept
  rw [if_neg (by decide)] at hearly hkept
  rw [if_pos (by decide)] at hlast hback
  -- the height stays a name, so that nothing computes the chain
  obtain ⟨n, hn⟩ : ∃ n : ℕ, n = 1834001 := ⟨1834001, rfl⟩
  have hdb : filterAll (timed mainNet) tallFiles tallIndex (chainTo n) (fun _ => none) =
      .ok (heldBy (chainOf 1834001) pos₂) := by
    have hall := filterAll_claims (n := n) (P := fun _ => True) (l := [1624000, 1800000, 1834001])
      (by decide) (fun x => by simp [claims]; omega) (fun _ => none)
    rw [List.filter_eq_self.mpr (fun _ _ => decide_eq_true trivial)] at hall
    rw [hall, List.map_cons, List.map_cons, List.map_singleton]
    exact filterAll_cons hfirst (filterAll_cons hearly (filterAll_cons hlast rfl))
  have hlength : (chainTo n).length ≤ n + 1 := by
    rw [chainTo, List.length_map, List.length_range]
  have hscan : xsc (timed mainNet) tallFiles tallIndex (linksTo n) (n + 1)
      (chainTo n).head? (heldBy (chainOf 1834001) pos₂) = .ok (heldBy (chainOf 1800000) pos₁) := by
    rw [xsc_chained (chained_chainTo n) hlength, scanned,
      filterAll_claims (n := n) (l := [1800000, 1834001]) (by decide) (fun x => ?_), List.map_cons,
      List.map_singleton]
    · exact filterAll_cons hback (filterAll_cons hkept rfl)
    · simp [claims, Scanned, nHeight_chainOf, timed, mainNet]
      omega
  have hheight : ∀ p ∈ chainTo n, CBlockIndex.nHeight p < 2 ^ 31 := by
    intro p hp
    have hle := nHeight_le_of_mem hp
    omega
  have hsame := h (timed mainNet) tallFiles tallIndex (linksTo n) (chainTo n)
    (heldBy (chainOf 1834001) pos₂) (n + 1) (chained_chainTo n) hheight
    (chainPasses_tall n) (fun _ => setsFirst_tall) hdb hlength
  rw [hscan, Except.ok.injEq] at hsame
  refine heldBy_ne ?_ pos₁ pos₂ hsame
  rw [nHeight_chainOf, nHeight_chainOf]
  decide

end Dions
