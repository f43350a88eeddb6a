import Mathlib.Data.List.TakeWhile
import Dions.Library.BigEndian
import Dions.Model.Wallet
import Dions.Verification.Mempool.Bookkeeping
import Dions.Verification.Wire.Identity

/-! # Equality of transactions

`operator==` leaves the text out that is written from `VERSION_WITH_INFO` on, so that two transactions
with different hashes can be equal. -/

namespace Dions

open CTransaction Halting

variable {a b : CTransaction}

/-! ## The condition -/

/-- Two transactions that differ in nothing but a text that their version has a place for. -/
structure Twins (a b : CTransaction) : Prop where
  version : VERSION_WITH_INFO ≤ a.nVersion
  nVersion : a.nVersion = b.nVersion
  nTime : a.nTime = b.nTime
  vin : a.vin = b.vin
  vout : a.vout = b.vout
  nLockTime : a.nLockTime = b.nLockTime
  strTxInfo : a.strTxInfo ≠ b.strTxInfo

/-- The hash of a transaction is one of its bytes, and different bytes have different ones. -/
def HashesBytes (env : Env) : Prop :=
  ∃ Hash : List UInt8 → uint256, Function.Injective Hash ∧
    ∀ tx : CTransaction, tx.GetHash env = Hash (CTransaction.wire.serialize tx)

theorem HashesBytes.hash_iff {env : Env} (henv : HashesBytes env) (a b : CTransaction) :
    a.GetHash env = b.GetHash env ↔ CTransaction.wire.serialize a = CTransaction.wire.serialize b := by
  obtain ⟨Hash, hinjective, hHash⟩ := henv
  rw [hHash a, hHash b]
  exact hinjective.eq_iff

theorem CTransaction.same_iff (a b : CTransaction) :
    a.same b = true ↔ a.nVersion = b.nVersion ∧ a.nTime = b.nTime ∧ a.vin = b.vin ∧
      a.vout = b.vout ∧ a.nLockTime = b.nLockTime := by
  simp only [CTransaction.same, Bool.and_eq_true, beq_iff_eq, and_assoc]

/-- Equal transactions have the same bytes, unless they are twins. -/
theorem CTransaction.same_iff_serialize (ha : a.Typed) (hb : b.Typed) :
    a.same b = true ↔ CTransaction.wire.serialize a = CTransaction.wire.serialize b ∨ Twins a b := by
  rw [CTransaction.serialize_inj ha hb, CTransaction.written_eq_iff, CTransaction.same_iff]
  constructor
  · rintro ⟨hversion, htime, hvin, hvout, hlock⟩
    by_cases hinfo : VERSION_WITH_INFO ≤ a.nVersion ∧ a.strTxInfo ≠ b.strTxInfo
    · exact Or.inr ⟨hinfo.1, hversion, htime, hvin, hvout, hlock, hinfo.2⟩
    · left
      refine ⟨⟨hversion, htime, hvin, hvout, hlock⟩, fun h => ?_⟩
      by_contra hne
      exact hinfo ⟨h, hne⟩
  · rintro (⟨hsame, -⟩ | h)
    · exact hsame
    · exact ⟨h.nVersion, h.nTime, h.vin, h.vout, h.nLockTime⟩

theorem Twins.serialize_ne (h : Twins a b) (ha : a.Typed) (hb : b.Typed) :
    CTransaction.wire.serialize a ≠ CTransaction.wire.serialize b := by
  rw [Ne, CTransaction.serialize_inj ha hb, CTransaction.written_eq_iff]
  rintro ⟨-, hinfo⟩
  exact h.strTxInfo (hinfo h.version)

/-- Equality agrees with the bytes but for twins. -/
theorem same_agrees_iff (ha : a.Typed) (hb : b.Typed) :
    (a.same b = true ↔ CTransaction.wire.serialize a = CTransaction.wire.serialize b) ↔
      ¬Twins a b := by
  rw [CTransaction.same_iff_serialize ha hb]
  constructor
  · intro h htwins
    exact htwins.serialize_ne ha hb (h.mp (Or.inr htwins))
  · intro hnot
    exact or_iff_left hnot

/-! ## Conflicts -/

section Conflicts

variable {env : Env} {S : Set CTransaction}

theorem HashesBytes.separates (henv : HashesBytes env) (hS : ∀ tx ∈ S, tx.Typed) :
    HashSeparates env S := by
  intro a ha b hb hhash
  have hwritten := (CTransaction.serialize_inj (hS a ha) (hS b hb)).mp ((henv.hash_iff a b).mp hhash)
  exact ((CTransaction.written_eq_iff a b).mp hwritten).1.2.2.1

/-- The hook of a transaction does not fail. -/
def HookReturns (env : Env) (tx : CTransaction) : Prop :=
  ∀ g, ∃ g', RemoveFromMemoryPoolPost env g tx = .ok g'

/-- A pool of which every transaction can be removed. -/
structure Removable (env : Env) (S : Set CTransaction) (s : PoolState) : Prop where
  ok : s.1.Ok env S
  hooks : ∀ hash tx, s.1.lookup hash = some tx → HookReturns env tx

theorem Removable.shrinks {a b : PoolState} (h : Removable env S a) (hb : Shrinks env S a b) :
    Removable env S b := by
  obtain ⟨hok, hkept⟩ := hb h.ok
  exact ⟨hok, fun hash tx htx => h.hooks hash tx (hkept hash tx htx)⟩

theorem removeTx_returns_step {fRecursive : Bool} {fuel : ℕ} {tx : CTransaction} {s : PoolState}
    (hhook : HookReturns env tx)
    (hspenders : ∀ g, ∃ mid, removeSpenders env fRecursive fuel tx (s.1, g) = .ok mid) :
    ∃ s', removeTx env fRecursive fuel tx s = .ok s' := by
  obtain ⟨pool, g⟩ := s
  obtain ⟨g', hg'⟩ := hhook g
  obtain ⟨mid, hmid⟩ := hspenders g'
  rw [removeTx_eq, hg']
  change ∃ s', (if pool.exists_ (tx.GetHash env) then
      removeSpenders env fRecursive fuel tx (pool, g') >>= fun s =>
        .ok (s.1.eraseTx (tx.GetHash env) tx, s.2)
    else .ok (pool, g') : Halt PoolState PoolState) = .ok s'
  split
  · rw [hmid]
    exact ⟨_, rfl⟩
  · exact ⟨_, rfl⟩

/-- By induction on the depth of the calls: every call is made for a pooled transaction. -/
theorem removeTx_returns (hS : HashSeparates env S) (fRecursive : Bool) (fuel : ℕ)
    (tx : CTransaction) (s : PoolState) (h : Removable env S s) (hhook : HookReturns env tx) :
    ∃ s', removeTx env fRecursive fuel tx s = .ok s' := by
  induction fuel generalizing fRecursive tx s with
  | zero => exact removeTx_returns_step hhook fun g => ⟨_, rfl⟩
  | succ fuel ih =>
    refine removeTx_returns_step hhook fun g => ?_
    cases fRecursive with
    | false => exact ⟨_, rfl⟩
    | true =>
      have hround : ∀ (a : PoolState) (i : ℕ), Removable env S a →
          ∃ a', removeSpender env fuel (tx.GetHash env) a i = .ok a' ∧ Removable env S a' := by
        intro a i ha
        have hshrinks := removeSpender_shrinks hS fuel (tx.GetHash env) a i
        have hreturns : ∃ a', removeSpender env fuel (tx.GetHash env) a i = .ok a' := by
          rw [removeSpender]
          split
          · exact ⟨a, rfl⟩
          · split
            · exact ⟨a, rfl⟩
            next child hchild => exact ih true child a ha (ha.hooks _ child hchild)
        obtain ⟨a', ha'⟩ := hreturns
        rw [ha'] at hshrinks
        exact ⟨a', ha', ha.shrinks hshrinks⟩
      obtain ⟨mid, hmid, -⟩ :=
        Halt.foldlM_ok hround (List.range tx.vout.length) (s.1, g) ⟨h.ok, h.hooks⟩
      exact ⟨mid, hmid⟩

theorem removeConflicts_returns (hS : HashSeparates env S) (tx : CTransaction) (s : PoolState)
    (h : Removable env S s) : ∃ s', CTxMemPool.removeConflicts env tx s = .ok s' := by
  have hround : ∀ (a : PoolState) (txin : CTxIn), Removable env S a →
      ∃ a', removeConflict env tx a txin = .ok a' ∧ Removable env S a' := by
    intro a txin ha
    have hshrinks := removeConflict_shrinks hS tx a txin
    have hreturns : ∃ a', removeConflict env tx a txin = .ok a' := by
      rw [removeConflict]
      split
      · exact ⟨a, rfl⟩
      · split
        · exact ⟨a, rfl⟩
        next txConflict hconflict =>
          split
          · exact ⟨a, rfl⟩
          · exact removeTx_returns hS true _ txConflict a ha (ha.hooks _ txConflict hconflict)
    obtain ⟨a', ha'⟩ := hreturns
    rw [ha'] at hshrinks
    exact ⟨a', ha', ha.shrinks hshrinks⟩
  obtain ⟨s', hs', -⟩ := Halt.foldlM_ok hround tx.vin s h
  exact ⟨s', hs'⟩

/-- In the pool only the transaction itself is equal to it. -/
def EqualOnlyItself (env : Env) (tx : CTransaction) (s : PoolState) : Prop :=
  ∀ hash u, s.1.lookup hash = some u → u.same tx = true → hash = tx.GetHash env

/-- Each round leaves its input to the transaction itself. -/
theorem removeConflict_frees (hS : HashSeparates env S) {tx : CTransaction} {s s' : PoolState}
    {txin : CTxIn} (hok : s.1.Ok env S) (honly : EqualOnlyItself env tx s)
    (h : removeConflict env tx s txin = .ok s') :
    ∀ x, s'.1.mapNextTx txin.prevout = some x → x.1 = tx.GetHash env := by
  have hshrinks := removeConflict_shrinks hS tx s txin
  rw [h] at hshrinks
  rintro ⟨hash, i⟩ hlink
  have hold := hshrinks.link hok hlink
  obtain ⟨txConflict, -, hconflict, -, -⟩ := (hok.links _ hash i).mp hold
  obtain ⟨t, -, ht, -, -⟩ := ((hshrinks hok).1.links _ hash i).mp hlink
  simp only [removeConflict, hold, hconflict] at h
  by_cases hsame : txConflict.same tx = true
  · exact honly hash txConflict hconflict hsame
  · rw [if_neg hsame] at h
    have hgone := removeTx_gone true _ txConflict s s' h
    rw [(hok.named hash txConflict hconflict).2] at hgone
    rw [Halt.final_ok, hgone] at ht
    cases ht

theorem removeConflicts_frees (hS : HashSeparates env S) {tx : CTransaction} (vin : List CTxIn)
    {s s' : PoolState} (hok : s.1.Ok env S) (honly : EqualOnlyItself env tx s)
    (h : vin.foldlM (removeConflict env tx) s = .ok s') :
    ∀ txin ∈ vin, ∀ x, s'.1.mapNextTx txin.prevout = some x → x.1 = tx.GetHash env := by
  induction vin generalizing s with
  | nil => simp
  | cons first vin ih =>
    rw [List.foldlM_cons, seq_ok] at h
    obtain ⟨mid, hmid, h⟩ := h
    have hstep := removeConflict_shrinks hS tx s first
    rw [hmid] at hstep
    have hrest : Shrinks env S mid s' := by
      have hloop := Halt.final_foldlM Shrinks.refl Shrinks.trans
        (fun a txin => removeConflict_shrinks hS tx a txin) vin mid
      rwa [h] at hloop
    obtain ⟨hokmid, hkept⟩ := hstep hok
    intro txin htxin x hlink
    rcases List.mem_cons.mp htxin with rfl | htxin
    · exact removeConflict_frees hS hok honly hmid x (hrest.link hokmid hlink)
    · exact ih hokmid (fun hash u hu => honly hash u (hkept hash u hu)) h txin htxin x hlink

/-- A pool with a transaction that is equal to this one stays as it is. -/
theorem removeConflicts_equal {tx u : CTransaction} {hash : uint256} (vin : List CTxIn)
    {s : PoolState} (hok : s.1.Ok env S) (hu : s.1.lookup hash = some u) (hsame : u.same tx = true)
    (hvin : ∀ txin ∈ vin, txin ∈ u.vin) :
    vin.foldlM (removeConflict env tx) s = .ok s := by
  induction vin with
  | nil => rfl
  | cons txin vin ih =>
    obtain ⟨i, hlink⟩ := hok.link_of_mem hu
      (List.mem_map_of_mem (hvin txin List.mem_cons_self))
    have hround : removeConflict env tx s txin = .ok s := by
      simp only [removeConflict, hlink, hu, hsame, if_true]
    rw [List.foldlM_cons, hround]
    exact ih fun other hother => hvin other (List.mem_cons_of_mem txin hother)

/-- What `removeConflicts` should leave: nothing but the transaction itself spends its inputs. -/
def LeavesNoConflict (env : Env) (tx : CTransaction) (s : PoolState) : Prop :=
  ∀ hash u, s.1.lookup hash = some u → hash ≠ tx.GetHash env →
    ∀ txin ∈ tx.vin, txin.prevout ∉ u.vin.map CTxIn.prevout

theorem removeConflicts_leaves (henv : HashesBytes env) (hS : ∀ u ∈ S, u.Typed) {tx : CTransaction}
    (htx : tx.Typed) {s s' : PoolState} (hok : s.1.Ok env S)
    (h : CTxMemPool.removeConflicts env tx s = .ok s')
    (hnone : ∀ hash u, s.1.lookup hash = some u → ¬Twins u tx) : LeavesNoConflict env tx s' := by
  have hseparates := henv.separates hS
  have honly : EqualOnlyItself env tx s := by
    intro hash u hu hsame
    obtain ⟨hmem, rfl⟩ := hok.named hash u hu
    rw [henv.hash_iff]
    exact ((CTransaction.same_iff_serialize (hS u hmem) htx).mp hsame).resolve_right (hnone _ u hu)
  have hshrinks := removeConflicts_shrinks hseparates tx s
  rw [h] at hshrinks
  have hfree := removeConflicts_frees hseparates tx.vin hok honly h
  intro hash u hu hother txin htxin hspends
  obtain ⟨i, hlink⟩ := (hshrinks hok).1.link_of_mem hu hspends
  exact hother (hfree txin htxin (hash, i) hlink)

theorem removeConflicts_twin (henv : HashesBytes env) (hS : ∀ u ∈ S, u.Typed) {tx u : CTransaction}
    (htx : tx.Typed) (hcheck : tx.CheckTransaction = true) {hash : uint256} {s s' : PoolState}
    (hok : s.1.Ok env S) (h : CTxMemPool.removeConflicts env tx s = .ok s')
    (hu : s.1.lookup hash = some u) (htwins : Twins u tx) : ¬LeavesNoConflict env tx s' := by
  obtain ⟨hmem, rfl⟩ := hok.named hash u hu
  have hsame : u.same tx = true :=
    (CTransaction.same_iff_serialize (hS u hmem) htx).mpr (Or.inr htwins)
  have hunchanged := removeConflicts_equal tx.vin hok hu hsame fun txin htxin => htwins.vin ▸ htxin
  rw [CTxMemPool.removeConflicts, hunchanged, Except.ok.injEq] at h
  subst h
  intro hleaves
  -- a connected transaction has an input, and the twin spends it
  have hinput : tx.vin ≠ [] := by
    intro hnil
    simp [CheckTransaction, hnil] at hcheck
  obtain ⟨txin, htxin⟩ := List.exists_mem_of_ne_nil _ hinput
  have hother : u.GetHash env ≠ tx.GetHash env := by
    rw [Ne, henv.hash_iff]
    exact htwins.serialize_ne (hS u hmem) htx
  apply hleaves _ u hu hother txin htxin
  rw [htwins.vin]
  exact List.mem_map_of_mem htxin

end Conflicts

/-! ## Positions in a block -/

/-- A search with a weaker test comes to the same place when nothing in front meets it. -/
theorem findIdx?_eq_iff {α : Type} {p q : α → Bool} {xs : List α}
    (h : ∀ x ∈ xs, q x = true → p x = true) :
    xs.findIdx? p = xs.findIdx? q ↔ ∀ x ∈ xs.takeWhile (fun x => !q x), p x = false := by
  induction xs with
  | nil => simp
  | cons x xs ih =>
    have hrest := ih fun y hy => h y (List.mem_cons_of_mem x hy)
    have hhead := h x List.mem_cons_self
    rw [List.findIdx?_cons, List.findIdx?_cons]
    cases hq : q x with
    | true => simp [hhead hq, hq]
    | false =>
      cases hp : p x with
      | true =>
        simp [hp, hq]
      | false =>
        simp [hp, hq, ← hrest, (Option.map_injective (add_left_injective 1)).eq_iff]

/-- Where the first transaction with the hash stands in the block, `-1` where none does. -/
def CBlock.indexOf (env : Env) (block : CBlock) (hash : uint256) : ℤ :=
  match block.vtx.findIdx? fun tx => tx.GetHash env == hash with
  | some nIndex => nIndex
  | none => -1

theorem setMerkleBranch_index_iff (env : Env) (wtx : WxTx) (block : CBlock) :
    (wtx.SetMerkleBranch env block).nIndex = block.indexOf env (wtx.GetHash env) ↔
      (block.vtx.findIdx? fun tx => tx.same wtx.toCTransaction) =
        block.vtx.findIdx? fun tx => tx.GetHash env == wtx.GetHash env := by
  rw [WxTx.SetMerkleBranch, CBlock.indexOf]
  dsimp only
  cases block.vtx.findIdx? fun tx => tx.same wtx.toCTransaction <;>
    cases block.vtx.findIdx? fun tx => tx.GetHash env == wtx.GetHash env <;> simp

theorem setMerkleBranch_finds_iff {env : Env} (henv : HashesBytes env) {wtx : WxTx} {block : CBlock}
    (hwtx : wtx.toCTransaction.Typed) (hblock : ∀ tx ∈ block.vtx, tx.Typed) :
    (wtx.SetMerkleBranch env block).nIndex = block.indexOf env (wtx.GetHash env) ↔
      ∀ tx ∈ block.vtx.takeWhile (fun tx => !(tx.GetHash env == wtx.GetHash env)),
        ¬Twins tx wtx.toCTransaction := by
  have hweaker : ∀ tx ∈ block.vtx, (tx.GetHash env == wtx.GetHash env) = true →
      tx.same wtx.toCTransaction = true := by
    intro tx htx hhash
    rw [beq_iff_eq, henv.hash_iff] at hhash
    exact (CTransaction.same_iff_serialize (hblock tx htx) hwtx).mpr (Or.inl hhash)
  rw [setMerkleBranch_index_iff, findIdx?_eq_iff hweaker]
  refine forall₂_congr fun tx htx => ?_
  have hmem : tx ∈ block.vtx := (List.takeWhile_sublist _).subset htx
  have hhash : ¬CTransaction.wire.serialize tx = CTransaction.wire.serialize wtx.toCTransaction := by
    have hfront := List.mem_takeWhile_imp htx
    simpa [henv.hash_iff] using hfront
  rw [Bool.eq_false_iff, Ne, CTransaction.same_iff_serialize (hblock tx hmem) hwtx,
    or_iff_right hhash]

/-! ## The uses of equality -/

/-- Equality agrees with the bytes and the hashes, `removeConflicts` leaves no other spender of an
input of a connected transaction, and `SetMerkleBranch` finds the transaction with the hash, each
exactly where no twin is compared; and `removeConflicts` returns where the hooks of the pooled
transactions do. -/
theorem equality_agrees_iff (env : Env) (henv : HashesBytes env) :
    (∀ a b : CTransaction, a.Typed → b.Typed →
      ((a.same b = true ↔ CTransaction.wire.serialize a = CTransaction.wire.serialize b) ↔
        ¬Twins a b) ∧
      ((a.same b = true ↔ a.GetHash env = b.GetHash env) ↔ ¬Twins a b)) ∧
    (∀ (S : Set CTransaction) (pool : CTxMemPool) (g : Globals) (tx : CTransaction),
      (∀ u ∈ S, u.Typed) → PoolReaches env S pool → tx.Typed → tx.CheckTransaction = true →
      (∀ s', CTxMemPool.removeConflicts env tx (pool, g) = .ok s' →
        (LeavesNoConflict env tx s' ↔ ∀ hash u, pool.lookup hash = some u → ¬Twins u tx)) ∧
      ((∀ hash u, pool.lookup hash = some u → HookReturns env u) →
        ∃ s', CTxMemPool.removeConflicts env tx (pool, g) = .ok s')) ∧
    ∀ (wtx : WxTx) (block : CBlock), wtx.toCTransaction.Typed → (∀ tx ∈ block.vtx, tx.Typed) →
      ((wtx.SetMerkleBranch env block).nIndex = block.indexOf env (wtx.GetHash env) ↔
        ∀ tx ∈ block.vtx.takeWhile (fun tx => !(tx.GetHash env == wtx.GetHash env)),
          ¬Twins tx wtx.toCTransaction) := by
  refine ⟨?_, ?_, fun _ _ => setMerkleBranch_finds_iff henv⟩
  · intro a b ha hb
    refine ⟨same_agrees_iff ha hb, ?_⟩
    rw [henv.hash_iff]
    exact same_agrees_iff ha hb
  · intro S pool g tx hS hreach htx hcheck
    have hseparates := henv.separates hS
    have hok : (pool, g).1.Ok env S := hreach.ok hseparates
    refine ⟨?_, fun hhooks => removeConflicts_returns hseparates tx (pool, g) ⟨hok, hhooks⟩⟩
    intro s' hs'
    constructor
    · intro hleaves hash u hu htwins
      exact removeConflicts_twin henv hS htx hcheck hok hs' hu htwins hleaves
    · exact removeConflicts_leaves henv hS htx hok hs'

namespace Scenario

/-- An injective hash that names `minedParent` as the other scenarios do. -/
def bytesHash (bytes : List UInt8) : uint256 :=
  if bytes = CTransaction.wire.serialize minedParent then 10
  else 11 + BigEndian.value (1 :: bytes)

def hashing : Env :=
  { timed testNet with txHash := fun tx => bytesHash (CTransaction.wire.serialize tx) }

theorem bytesHash_injective : Function.Injective bytesHash := by
  have hother (bytes : List UInt8) : 10 ≠ 11 + BigEndian.value (1 :: bytes) := by omega
  intro a b h
  rw [bytesHash, bytesHash] at h
  by_cases ha : a = CTransaction.wire.serialize minedParent
  · by_cases hb : b = CTransaction.wire.serialize minedParent
    · rw [ha, hb]
    · rw [if_pos ha, if_neg hb] at h
      exact absurd h (hother b)
  · by_cases hb : b = CTransaction.wire.serialize minedParent
    · rw [if_neg ha, if_pos hb] at h
      exact absurd h.symm (hother a)
    · rw [if_neg ha, if_neg hb, Nat.add_left_cancel_iff] at h
      exact BigEndian.marked_injective h

theorem hashing_bytes : HashesBytes hashing := ⟨bytesHash, bytesHash_injective, fun _ => rfl⟩

def noted (strTxInfo : List UInt8) : CTransaction :=
  ⟨CTransaction.DION_TX_VERSION, 20, [⟨⟨10, 0⟩, [], UINT_MAX⟩],
    [⟨COIN / 2, [0x55, 1, 0x61, 1, 0x61, 1, 0x61, 1, 0x61, 0x75, 0x51]⟩], 0, strTxInfo⟩

def notedAccepted : Node := (AcceptToMemoryPool hashing io parentMined (noted [65])).final

theorem noted_typed (strTxInfo : List UInt8) (h : strTxInfo.length < 2 ^ 64) :
    (noted strTxInfo).Typed := by
  refine ⟨?_, ?_, ?_, ?_, ?_, ?_, ?_, h⟩ <;>
    simp [noted, CTransaction.DION_TX_VERSION, CTxIn.Typed, CTxOut.Typed, COutPoint.Fits, COIN,
      UINT_MAX]

theorem noted_twins : Twins (noted [65]) (noted []) :=
  ⟨by decide, rfl, rfl, rfl, rfl, rfl, by decide⟩

/-- The connected transaction leaves a pool with its twin as it is. -/
theorem noted_kept {pool : CTxMemPool} (g : Globals)
    (hreach : PoolReaches hashing {noted [65]} pool)
    (hlookup : pool.lookup ((noted [65]).GetHash hashing) = some (noted [65])) :
    CTxMemPool.removeConflicts hashing (noted []) (pool, g) = .ok (pool, g) := by
  have htyped : ∀ tx ∈ ({noted [65]} : Set CTransaction), tx.Typed := by
    rintro tx rfl
    exact noted_typed [65] (by decide)
  have hok := hreach.ok (hashing_bytes.separates htyped)
  have hsame := ((CTransaction.same_iff_serialize (noted_typed [65] (by decide))
    (noted_typed [] (by decide))).mpr (Or.inr noted_twins))
  exact removeConflicts_equal (noted []).vin hok hlookup hsame fun txin htxin => htxin

theorem notedAccepted_reaches : PoolReaches hashing {noted [65]} notedAccepted.mempool :=
  PoolReaches.accept io parentMined (noted [65]) rfl PoolReaches.empty

theorem notedAccepted_lookup :
    notedAccepted.mempool.lookup ((noted [65]).GetHash hashing) = some (noted [65]) := by
  decide +kernel

/-- The block in which the connected transaction comes after its twin. -/
def notedBlock : CBlock :=
  ⟨7, 0, 0, 30, 0, 0, [noted [65], noted []], []⟩

end Scenario

open Scenario in
/-- Two equal transactions with different bytes and different hashes: the one in the pool stays when
the other is connected, although it spends the same input, and it is found in the other's place. -/
theorem equal_transactions_differ :
    HashesBytes hashing ∧ (noted [65]).Typed ∧ (noted []).Typed ∧
      (noted [65]).same (noted []) = true ∧
      CTransaction.wire.serialize (noted [65]) ≠ CTransaction.wire.serialize (noted []) ∧
      (noted [65]).GetHash hashing ≠ (noted []).GetHash hashing ∧
      PoolReaches hashing {noted [65]} notedAccepted.mempool ∧ (noted []).CheckTransaction = true ∧
      CTxMemPool.removeConflicts hashing (noted [])
          (notedAccepted.mempool, notedAccepted.toGlobals) =
        .ok (notedAccepted.mempool, notedAccepted.toGlobals) ∧
      notedAccepted.mempool.lookup ((noted [65]).GetHash hashing) = some (noted [65]) ∧
      (noted [65]).vin = (noted []).vin ∧
      ((WxTx.ofTx (noted [])).SetMerkleBranch hashing notedBlock).nIndex = 0 ∧
      notedBlock.indexOf hashing ((noted []).GetHash hashing) = 1 := by
  refine ⟨hashing_bytes, noted_typed [65] (by decide), noted_typed [] (by decide), by decide,
    by decide +kernel, by decide +kernel, notedAccepted_reaches, by decide +kernel,
    noted_kept _ notedAccepted_reaches notedAccepted_lookup, notedAccepted_lookup, rfl,
    by decide +kernel, by decide +kernel⟩

open Scenario in
theorem equality_agrees_iff_noted :
    ¬LeavesNoConflict hashing (noted []) (notedAccepted.mempool, notedAccepted.toGlobals) := by
  have hpool := (equality_agrees_iff hashing hashing_bytes).2.1 {noted [65]} notedAccepted.mempool
    notedAccepted.toGlobals (noted []) (by rintro u rfl; exact noted_typed [65] (by decide))
    notedAccepted_reaches (noted_typed [] (by decide)) (by decide)
  rw [hpool.1 _ (noted_kept _ notedAccepted_reaches notedAccepted_lookup)]
  intro hnone
  exact hnone _ _ notedAccepted_lookup noted_twins

end Dions
