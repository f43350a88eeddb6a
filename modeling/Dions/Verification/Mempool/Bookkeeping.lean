import Mathlib.Data.Set.Basic
import Dions.Verification.Scenario

/-! # The bookkeeping of the memory pool

The map from outpoints to spending inputs has exactly one entry for each input of a pooled
transaction, after any calls and however each of them ended. -/

namespace Dions

open Halting

variable (env : Env)
variable {pool : CTxMemPool}

/-! ## The two maps -/

theorem lookup_filter {β : Type} (xs : List (uint256 × β)) (hash k : uint256) :
    (xs.filter (·.1 ≠ hash)).lookup k = if k = hash then none else xs.lookup k := by
  induction xs with
  | nil => simp
  | cons x xs ih =>
      obtain ⟨h, t⟩ := x
      by_cases hh : h = hash
      · subst hh
        by_cases hk : k = h
        · simpa [hk] using ih
        · simpa [List.lookup_cons, beq_eq_false_iff_ne.mpr hk, hk] using ih
      · by_cases hk : k = h
        · simp [hh, hk]
        · simpa [hh, List.lookup_cons, beq_eq_false_iff_ne.mpr hk] using ih

namespace CTxMemPool

theorem lookup_addUnchecked (pool : CTxMemPool) (hash k : uint256) (tx : CTransaction) :
    (pool.addUnchecked hash tx).lookup k = if k = hash then some tx else pool.lookup k := by
  by_cases hk : k = hash
  · simp [lookup, addUnchecked, hk]
  · simp only [lookup, addUnchecked, List.lookup_cons, beq_eq_false_iff_ne.mpr hk, hk, ↓reduceIte]
    rw [lookup_filter, if_neg hk]

theorem lookup_eraseTx (pool : CTxMemPool) (hash k : uint256) (tx : CTransaction) :
    (pool.eraseTx hash tx).lookup k = if k = hash then none else pool.lookup k :=
  lookup_filter pool.mapTx hash k

theorem mapNextTx_eraseTx (pool : CTxMemPool) (hash : uint256) (tx : CTransaction) (o : COutPoint) :
    (pool.eraseTx hash tx).mapNextTx o =
      if o ∈ tx.vin.map CTxIn.prevout then none else pool.mapNextTx o := by
  unfold eraseTx
  simp only
  generalize pool.mapNextTx = m
  induction tx.vin generalizing m with
  | nil => simp
  | cons txin vin ih =>
      rw [List.foldl_cons, ih, Function.update_apply]
      by_cases ho : o ∈ vin.map CTxIn.prevout
      · simp [ho]
      · by_cases heq : o = txin.prevout <;> simp [ho, heq]

/-- The links that `addUnchecked` makes of the inputs from number `n` on. -/
def linkInputs (hash : uint256) (vin : List CTxIn) (n : ℕ)
    (m : COutPoint → Option (uint256 × ℕ)) : COutPoint → Option (uint256 × ℕ) :=
  (vin.zipIdx n).foldl (fun m p => Function.update m p.1.prevout (some (hash, p.2))) m

theorem linkInputs_of_notMem (hash : uint256) (vin : List CTxIn) (n : ℕ)
    (m : COutPoint → Option (uint256 × ℕ)) (o : COutPoint)
    (ho : o ∉ vin.map CTxIn.prevout) : linkInputs hash vin n m o = m o := by
  induction vin generalizing n m with
  | nil => rfl
  | cons txin vin ih =>
      simp only [List.map_cons, List.mem_cons, not_or] at ho
      have hstep := ih (n + 1) (Function.update m txin.prevout (some (hash, n))) ho.2
      rw [Function.update_of_ne ho.1] at hstep
      exact hstep

theorem linkInputs_of_nodup (hash : uint256) (vin : List CTxIn) (n : ℕ)
    (m : COutPoint → Option (uint256 × ℕ)) (hnodup : (vin.map CTxIn.prevout).Nodup) (i : ℕ)
    (txin : CTxIn) (hi : vin[i]? = some txin) :
    linkInputs hash vin n m txin.prevout = some (hash, n + i) := by
  induction vin generalizing n m i with
  | nil => simp at hi
  | cons head vin ih =>
      rw [List.map_cons, List.nodup_cons] at hnodup
      cases i with
      | zero =>
          obtain rfl : head = txin := by simpa using hi
          have hstep := linkInputs_of_notMem hash vin (n + 1)
            (Function.update m head.prevout (some (hash, n))) head.prevout hnodup.1
          rw [Function.update_self] at hstep
          exact hstep
      | succ i =>
          have hstep := ih (n + 1) (Function.update m head.prevout (some (hash, n))) hnodup.2 i
            (by simpa using hi)
          rw [show n + (i + 1) = n + 1 + i by omega]
          exact hstep

end CTxMemPool

/-! ## The invariant -/

/-- Among the transactions of `S` the hash tells the inputs apart. -/
def HashSeparates (S : Set CTransaction) : Prop :=
  ∀ tx ∈ S, ∀ tx' ∈ S, tx.GetHash env = tx'.GetHash env → tx.vin = tx'.vin

/-- Every pooled transaction stands under its hash, and the links are those of the inputs. -/
structure CTxMemPool.Ok (S : Set CTransaction) (pool : CTxMemPool) : Prop where
  named : ∀ hash tx, pool.lookup hash = some tx → tx ∈ S ∧ tx.GetHash env = hash
  links : ∀ o hash i, pool.mapNextTx o = some (hash, i) ↔
    ∃ tx txin, pool.lookup hash = some tx ∧ tx.vin[i]? = some txin ∧ txin.prevout = o

namespace CTxMemPool

variable {env} {S : Set CTransaction}

theorem Ok.link_of_mem (h : pool.Ok env S) {hash : uint256} {tx : CTransaction}
    (htx : pool.lookup hash = some tx) {o : COutPoint} (ho : o ∈ tx.vin.map CTxIn.prevout) :
    ∃ i, pool.mapNextTx o = some (hash, i) := by
  obtain ⟨txin, hmem, rfl⟩ := List.mem_map.mp ho
  obtain ⟨i, hi⟩ := List.mem_iff_getElem?.mp hmem
  exact ⟨i, (h.links _ _ _).mpr ⟨tx, txin, htx, hi, rfl⟩⟩

/-- No two pooled transactions share an input. -/
theorem Ok.spender_unique (h : pool.Ok env S) {hash hash' : uint256} {tx tx' : CTransaction}
    (htx : pool.lookup hash = some tx) (htx' : pool.lookup hash' = some tx') {o : COutPoint}
    (ho : o ∈ tx.vin.map CTxIn.prevout) (ho' : o ∈ tx'.vin.map CTxIn.prevout) : hash = hash' := by
  obtain ⟨i, hi⟩ := h.link_of_mem htx ho
  obtain ⟨i', hi'⟩ := h.link_of_mem htx' ho'
  rw [hi] at hi'
  exact (Prod.mk.inj (Option.some.inj hi')).1

theorem Ok.empty : CTxMemPool.empty.Ok env S := by
  constructor <;> simp [CTxMemPool.empty, lookup]

theorem Ok.addUnchecked (h : pool.Ok env S) (tx : CTransaction) (htx : tx ∈ S)
    (hfresh : pool.lookup (tx.GetHash env) = none)
    (hfree : ∀ txin ∈ tx.vin, pool.mapNextTx txin.prevout = none)
    (hnodup : (tx.vin.map CTxIn.prevout).Nodup) :
    (pool.addUnchecked (tx.GetHash env) tx).Ok env S := by
  constructor
  · intro k t hk
    rw [lookup_addUnchecked] at hk
    by_cases heq : k = tx.GetHash env
    · rw [if_pos heq] at hk
      cases hk
      exact ⟨htx, heq.symm⟩
    · rw [if_neg heq] at hk
      exact h.named k t hk
  · intro o k i
    change linkInputs (tx.GetHash env) tx.vin 0 pool.mapNextTx o = some (k, i) ↔ _
    constructor
    · intro hlink
      by_cases ho : o ∈ tx.vin.map CTxIn.prevout
      · obtain ⟨txin, hmem, rfl⟩ := List.mem_map.mp ho
        obtain ⟨j, hj⟩ := List.mem_iff_getElem?.mp hmem
        rw [linkInputs_of_nodup _ _ 0 _ hnodup j txin hj, Nat.zero_add] at hlink
        obtain ⟨rfl, rfl⟩ := Prod.mk.inj (Option.some.inj hlink)
        exact ⟨tx, txin, by rw [lookup_addUnchecked, if_pos rfl], hj, rfl⟩
      · rw [linkInputs_of_notMem _ _ 0 _ o ho] at hlink
        obtain ⟨t, txin, ht, hi, hprev⟩ := (h.links o k i).mp hlink
        have hne : k ≠ tx.GetHash env := by
          rintro rfl
          rw [hfresh] at ht
          cases ht
        exact ⟨t, txin, by rw [lookup_addUnchecked, if_neg hne, ht], hi, hprev⟩
    · rintro ⟨t, txin, ht, hi, rfl⟩
      rw [lookup_addUnchecked] at ht
      by_cases heq : k = tx.GetHash env
      · rw [if_pos heq] at ht
        cases ht
        rw [linkInputs_of_nodup _ _ 0 _ hnodup i txin hi, Nat.zero_add, heq]
      · rw [if_neg heq] at ht
        have hold := (h.links txin.prevout k i).mpr ⟨t, txin, ht, hi, rfl⟩
        rw [linkInputs_of_notMem, hold]
        intro hmem
        obtain ⟨txin', hmem', hprev⟩ := List.mem_map.mp hmem
        rw [← hprev, hfree txin' hmem'] at hold
        cases hold

/-- Erasing a transaction keeps the invariant when no other pooled one shares an input with it. -/
theorem Ok.eraseTx (h : pool.Ok env S) (hash : uint256) (tx : CTransaction)
    (hsame : ∀ t, pool.lookup hash = some t → t.vin = tx.vin)
    (halone : ∀ k t, pool.lookup k = some t → ∀ o ∈ t.vin.map CTxIn.prevout,
      o ∈ tx.vin.map CTxIn.prevout → k = hash) : (pool.eraseTx hash tx).Ok env S := by
  constructor
  · intro k t hk
    rw [lookup_eraseTx] at hk
    split at hk
    · cases hk
    · exact h.named k t hk
  · intro o k i
    rw [mapNextTx_eraseTx]
    by_cases ho : o ∈ tx.vin.map CTxIn.prevout
    · rw [if_pos ho]
      constructor
      · intro hnone
        cases hnone
      · rintro ⟨t, txin, ht, hi, rfl⟩
        rw [lookup_eraseTx] at ht
        split at ht
        next => cases ht
        next hne =>
          have hmem : txin.prevout ∈ t.vin.map CTxIn.prevout :=
            List.mem_map_of_mem (List.mem_of_getElem? hi)
          exact absurd (halone k t ht _ hmem ho) hne
    · rw [if_neg ho, h.links]
      constructor
      · rintro ⟨t, txin, ht, hi, rfl⟩
        have hne : k ≠ hash := by
          rintro rfl
          apply ho
          rw [← hsame t ht]
          exact List.mem_map_of_mem (List.mem_of_getElem? hi)
        exact ⟨t, txin, by rw [lookup_eraseTx, if_neg hne, ht], hi, rfl⟩
      · rintro ⟨t, txin, ht, hi, rfl⟩
        rw [lookup_eraseTx] at ht
        split at ht
        · cases ht
        · exact ⟨t, txin, ht, hi, rfl⟩

end CTxMemPool

/-! ## Removing -/

variable {env} {S : Set CTransaction}

/-- The call keeps the invariant and adds nothing. -/
def Shrinks (env : Env) (S : Set CTransaction) (a b : PoolState) : Prop :=
  a.1.Ok env S → b.1.Ok env S ∧ ∀ k t, b.1.lookup k = some t → a.1.lookup k = some t

def Keeps (a b : PoolState) : Prop := b.1.mapTx.Sublist a.1.mapTx

theorem Keeps.refl (a : PoolState) : Keeps a a := List.Sublist.refl _

theorem Keeps.trans (a b c : PoolState) (hab : Keeps a b) (hbc : Keeps b c) : Keeps a c :=
  List.Sublist.trans hbc hab

theorem Shrinks.refl (a : PoolState) : Shrinks env S a a := fun h => ⟨h, fun _ _ hk => hk⟩

theorem Shrinks.trans (a b c : PoolState) (hab : Shrinks env S a b) (hbc : Shrinks env S b c) :
    Shrinks env S a c := by
  intro ha
  have hb := hab ha
  have hc := hbc hb.1
  exact ⟨hc.1, fun k t hk => hb.2 k t (hc.2 k t hk)⟩

theorem Shrinks.link {a b : PoolState} (h : Shrinks env S a b) (ha : a.1.Ok env S)
    {o : COutPoint} {x : uint256 × ℕ} (hx : b.1.mapNextTx o = some x) :
    a.1.mapNextTx o = some x := by
  obtain ⟨k, i⟩ := x
  obtain ⟨t, txin, ht, hi, hprev⟩ := ((h ha).1.links o k i).mp hx
  exact (ha.links o k i).mpr ⟨t, txin, (h ha).2 k t ht, hi, hprev⟩

/-- One round of the loop of `remove` over the outputs. -/
def removeSpender (env : Env) (fuel : ℕ) (hash : uint256) (s : PoolState) (i : ℕ) :
    Halt PoolState PoolState :=
  match s.1.mapNextTx ⟨hash, i⟩ with
  | none => .ok s
  | some (h, _) =>
    match s.1.lookup h with
    | none => .ok s
    | some child => removeTx env true fuel child s

/-- The calls that `remove` makes before it erases the transaction. -/
def removeSpenders (env : Env) (fRecursive : Bool) (fuel : ℕ) (tx : CTransaction)
    (s : PoolState) : Halt PoolState PoolState :=
  match fuel with
  | 0 => .ok s
  | fuel + 1 =>
    if fRecursive then
      (List.range tx.vout.length).foldlM (removeSpender env fuel (tx.GetHash env)) s
    else .ok s

theorem removeTx_eq (fRecursive : Bool) (fuel : ℕ) (tx : CTransaction) (pool : CTxMemPool)
    (g : Globals) :
    removeTx env fRecursive fuel tx (pool, g) =
      ((RemoveFromMemoryPoolPost env g tx).lift fun g => (pool, g)) >>= fun g' =>
        if pool.exists_ (tx.GetHash env) then
          removeSpenders env fRecursive fuel tx (pool, g') >>= fun s =>
            .ok (s.1.eraseTx (tx.GetHash env) tx, s.2)
        else .ok (pool, g') := by
  cases fuel with
  | zero => rfl
  | succ fuel =>
      rw [removeTx]
      simp only [removeSpenders]
      cases RemoveFromMemoryPoolPost env g tx with
      | error e => rfl
      | ok g' =>
          cases fRecursive with
          | false => rfl
          | true => rfl

/-- A call keeps the invariant when the calls it makes for the spenders do. -/
theorem removeTx_step (hS : HashSeparates env S) (fRecursive : Bool) (fuel : ℕ)
    (tx : CTransaction) (htx : tx ∈ S) (s : PoolState)
    (hspenders : ∀ g, Shrinks env S (s.1, g)
      (removeSpenders env fRecursive fuel tx (s.1, g)).final) :
    Shrinks env S s (removeTx env fRecursive fuel tx s).final := by
  obtain ⟨pool, g⟩ := s
  intro hok
  rw [removeTx_eq]
  cases RemoveFromMemoryPoolPost env g tx with
  | error e => exact ⟨hok, fun _ _ hk => hk⟩
  | ok g' =>
      simp only [Halt.lift, bind, Except.bind]
      by_cases hex : pool.exists_ (tx.GetHash env)
      · rw [if_pos hex]
        have hs := hspenders g' hok
        cases hrun : removeSpenders env fRecursive fuel tx (pool, g') with
        | error e =>
            obtain ⟨stop, s'⟩ := e
            rw [hrun] at hs
            exact hs
        | ok s' =>
            rw [hrun] at hs
            obtain ⟨hok', hsub⟩ := hs
            obtain ⟨tx₀, htx₀⟩ := Option.isSome_iff_exists.mp hex
            obtain ⟨hmem₀, hhash₀⟩ := hok.named _ tx₀ htx₀
            have hvin₀ : tx₀.vin = tx.vin := hS tx₀ hmem₀ tx htx hhash₀
            refine ⟨hok'.eraseTx (tx.GetHash env) tx ?_ ?_, ?_⟩
            · intro t ht
              have hold := hsub _ t ht
              rw [htx₀] at hold
              cases hold
              exact hvin₀
            · intro k t ht o ho ho'
              rw [← hvin₀] at ho'
              exact hok.spender_unique (hsub k t ht) htx₀ ho ho'
            · intro k t hk
              change (s'.1.eraseTx (tx.GetHash env) tx).lookup k = some t at hk
              rw [CTxMemPool.lookup_eraseTx] at hk
              split at hk
              · cases hk
              · exact hsub k t hk
      · rw [if_neg hex]
        exact ⟨hok, fun _ _ hk => hk⟩

/-- By induction on the depth of the calls; a call that an exception ends keeps the invariant, as
each transaction is erased together with its links. -/
theorem removeTx_shrinks (hS : HashSeparates env S) (fRecursive : Bool) (fuel : ℕ)
    (tx : CTransaction) (htx : tx ∈ S) (s : PoolState) :
    Shrinks env S s (removeTx env fRecursive fuel tx s).final := by
  induction fuel generalizing fRecursive tx s with
  | zero =>
      exact removeTx_step hS fRecursive 0 tx htx s fun g => Shrinks.refl (s.1, g)
  | succ fuel ih =>
      refine removeTx_step hS fRecursive (fuel + 1) tx htx s fun g => ?_
      cases fRecursive with
      | false => exact Shrinks.refl (s.1, g)
      | true =>
          apply Halt.final_foldlM Shrinks.refl Shrinks.trans
          intro a i ha
          unfold removeSpender
          split
          · exact ⟨ha, fun _ _ hk => hk⟩
          · split
            · exact ⟨ha, fun _ _ hk => hk⟩
            next child hchild => exact ih true child (ha.named _ _ hchild).1 a ha

theorem removeTx_gone (fRecursive : Bool) (fuel : ℕ) (tx : CTransaction) (s s' : PoolState)
    (h : removeTx env fRecursive fuel tx s = .ok s') :
    s'.1.lookup (tx.GetHash env) = none := by
  obtain ⟨pool, g⟩ := s
  rw [removeTx_eq, seq_ok] at h
  obtain ⟨g', -, h⟩ := h
  by_cases hex : pool.exists_ (tx.GetHash env)
  · rw [if_pos hex, seq_ok] at h
    obtain ⟨mid, -, h⟩ := h
    cases h
    rw [CTxMemPool.lookup_eraseTx, if_pos rfl]
  · rw [if_neg hex] at h
    cases h
    exact Option.not_isSome_iff_eq_none.mp hex

theorem removeSpender_shrinks (hS : HashSeparates env S) (fuel : ℕ) (hash : uint256)
    (s : PoolState) (i : ℕ) : Shrinks env S s (removeSpender env fuel hash s i).final := by
  intro hok
  unfold removeSpender
  split
  · exact ⟨hok, fun _ _ hk => hk⟩
  · split
    · exact ⟨hok, fun _ _ hk => hk⟩
    next child hchild =>
      exact removeTx_shrinks hS true fuel child (hok.named _ _ hchild).1 s hok

/-- Each round leaves its output without a spender. -/
theorem removeSpender_frees (hS : HashSeparates env S) (fuel : ℕ) (hash : uint256)
    (s s' : PoolState) (i : ℕ) (hok : s.1.Ok env S)
    (h : removeSpender env fuel hash s i = .ok s') : s'.1.mapNextTx ⟨hash, i⟩ = none := by
  have hshrinks := removeSpender_shrinks hS fuel hash s i
  rw [h] at hshrinks
  cases hlink : s'.1.mapNextTx ⟨hash, i⟩ with
  | none => rfl
  | some x =>
      obtain ⟨k, j⟩ := x
      have hold := hshrinks.link hok hlink
      obtain ⟨child, txin, hchild, -, -⟩ := (hok.links _ k j).mp hold
      obtain ⟨t, -, ht, -, -⟩ := ((hshrinks hok).1.links _ k j).mp hlink
      simp only [removeSpender, hold, hchild] at h
      have hgone := removeTx_gone true fuel child s s' h
      rw [(hok.named k child hchild).2] at hgone
      rw [Halt.final_ok, hgone] at ht
      cases ht

theorem removeSpenders_free (hS : HashSeparates env S) (fuel : ℕ) (hash : uint256) (is : List ℕ)
    (s s' : PoolState) (hok : s.1.Ok env S)
    (h : is.foldlM (removeSpender env fuel hash) s = .ok s') :
    ∀ i ∈ is, s'.1.mapNextTx ⟨hash, i⟩ = none := by
  induction is generalizing s with
  | nil => simp
  | cons j is ih =>
      rw [List.foldlM_cons, seq_ok] at h
      obtain ⟨mid, hmid, h⟩ := h
      have hstep := removeSpender_shrinks hS fuel hash s j
      rw [hmid] at hstep
      have hrest : Shrinks env S mid s' := by
        have hloop := Halt.final_foldlM Shrinks.refl Shrinks.trans
          (fun a i => removeSpender_shrinks hS fuel hash a i) is mid
        rwa [h] at hloop
      have hokmid := (hstep hok).1
      intro i hi
      rcases List.mem_cons.mp hi with rfl | hi
      · cases hlink : s'.1.mapNextTx ⟨hash, i⟩ with
        | none => rfl
        | some x =>
            have hold := hrest.link hokmid hlink
            rw [removeSpender_frees hS fuel hash s mid i hok hmid] at hold
            cases hold
      · exact ih mid hokmid h i hi

/-- After a recursive removal of a pooled transaction nothing in the pool spends its outputs. -/
theorem removeTx_spenders (hS : HashSeparates env S) (fuel : ℕ) (tx : CTransaction)
    (s s' : PoolState) (hok : s.1.Ok env S) (hpooled : s.1.exists_ (tx.GetHash env) = true)
    (h : removeTx env true (fuel + 1) tx s = .ok s') (htx : tx ∈ S) :
    ∀ k t, s'.1.lookup k = some t → ∀ i < tx.vout.length,
      ⟨tx.GetHash env, i⟩ ∉ t.vin.map CTxIn.prevout := by
  have hshrinks := removeTx_shrinks hS true (fuel + 1) tx htx s
  rw [h] at hshrinks
  obtain ⟨pool, g⟩ := s
  rw [removeTx_eq, seq_ok] at h
  obtain ⟨g', -, h⟩ := h
  rw [if_pos hpooled, seq_ok] at h
  obtain ⟨mid, hmid, h⟩ := h
  cases h
  intro k t hk i hi hspends
  obtain ⟨j, hlink⟩ := (hshrinks hok).1.link_of_mem hk hspends
  have hfree := removeSpenders_free hS fuel (tx.GetHash env) _ (pool, g') mid hok hmid i
    (List.mem_range.mpr hi)
  rw [Halt.final_ok, CTxMemPool.mapNextTx_eraseTx] at hlink
  split at hlink
  · cases hlink
  · rw [hfree] at hlink
    cases hlink

theorem removeConflict_shrinks (hS : HashSeparates env S) (tx : CTransaction) (s : PoolState)
    (txin : CTxIn) : Shrinks env S s (removeConflict env tx s txin).final := by
  intro hok
  unfold removeConflict
  split
  · exact ⟨hok, fun _ _ hk => hk⟩
  · split
    · exact ⟨hok, fun _ _ hk => hk⟩
    next txConflict hconflict =>
      split
      · exact ⟨hok, fun _ _ hk => hk⟩
      · exact removeTx_shrinks hS true _ txConflict (hok.named _ _ hconflict).1 s hok

theorem removeConflicts_shrinks (hS : HashSeparates env S) (tx : CTransaction) (s : PoolState) :
    Shrinks env S s (CTxMemPool.removeConflicts env tx s).final :=
  Halt.final_foldlM Shrinks.refl Shrinks.trans (removeConflict_shrinks hS tx) tx.vin s

/-! ## Accepting -/

theorem CTransaction.CheckTransaction_nodup (tx : CTransaction) (h : tx.CheckTransaction = true) :
    (tx.vin.map CTxIn.prevout).Nodup := by
  simp only [CheckTransaction, Bool.and_eq_true, decide_eq_true_eq] at h
  exact h.1.2

theorem acceptChecks_ok (io : Io) (node : Node) (tx : CTransaction) (g : Globals)
    (h : acceptChecks env io node tx = .ok g) :
    tx.CheckTransaction = true ∧ node.mempool.lookup (tx.GetHash env) = none ∧
      ∀ txin ∈ tx.vin, node.mempool.mapNextTx txin.prevout = none := by
  simp only [acceptChecks, seq_ok, within_eq_ok, require_eq_ok, exists_const] at h
  obtain ⟨hcheck, -, -, -, hfresh, hfree, -⟩ := h
  exact ⟨hcheck, by simpa [CTxMemPool.exists_] using hfresh, hfree⟩

theorem accept_mempool (io : Io) (node : Node) (tx : CTransaction) :
    (AcceptToMemoryPool env io node tx).final.mempool = node.mempool ∨
      (∃ g, acceptChecks env io node tx = .ok g) ∧
        (AcceptToMemoryPool env io node tx).final.mempool =
          node.mempool.addUnchecked (tx.GetHash env) tx := by
  unfold AcceptToMemoryPool
  cases hchecks : acceptChecks env io node tx with
  | error e => exact Or.inl rfl
  | ok g =>
      simp only [Halt.lift, bind, Except.bind]
      cases (AcceptToMemoryPoolPost env (node.view io) g tx).attempt with
      | error e => exact Or.inl rfl
      | ok g' => exact Or.inr ⟨⟨g, rfl⟩, rfl⟩

/-! ## Every sequence of calls -/

/-- The pools that calls with transactions of `S` lead to, however each call ended; in between,
anything else may happen to the node. -/
inductive PoolReaches (env : Env) (S : Set CTransaction) : CTxMemPool → Prop
  | empty : PoolReaches env S CTxMemPool.empty
  | accept (io : Io) (node : Node) (tx : CTransaction) (htx : tx ∈ S) :
      PoolReaches env S node.mempool →
      PoolReaches env S (AcceptToMemoryPool env io node tx).final.mempool
  | remove (pool : CTxMemPool) (g : Globals) (fRecursive : Bool) (tx : CTransaction)
      (htx : tx ∈ S) : PoolReaches env S pool →
      PoolReaches env S (CTxMemPool.remove env fRecursive tx (pool, g)).final.1
  | removeConflicts (pool : CTxMemPool) (g : Globals) (tx : CTransaction) (htx : tx ∈ S) :
      PoolReaches env S pool →
      PoolReaches env S (CTxMemPool.removeConflicts env tx (pool, g)).final.1
  | clear (pool : CTxMemPool) : PoolReaches env S pool → PoolReaches env S pool.clear

theorem PoolReaches.ok (hS : HashSeparates env S) (pool : CTxMemPool)
    (h : PoolReaches env S pool) : pool.Ok env S := by
  induction h with
  | empty => exact CTxMemPool.Ok.empty
  | accept io node tx htx _ ih =>
      rcases accept_mempool io node tx with heq | ⟨⟨g, hg⟩, heq⟩
      · rw [heq]
        exact ih
      · obtain ⟨hcheck, hfresh, hfree⟩ := acceptChecks_ok io node tx g hg
        rw [heq]
        exact ih.addUnchecked tx htx hfresh hfree (tx.CheckTransaction_nodup hcheck)
  | remove pool g fRecursive tx htx _ ih =>
      exact (removeTx_shrinks hS fRecursive _ tx htx (pool, g) ih).1
  | removeConflicts pool g tx _ _ ih => exact (removeConflicts_shrinks hS tx (pool, g) ih).1
  | clear pool _ _ => exact CTxMemPool.Ok.empty

/-- For every pool that a sequence of calls leads to: the links are those of the inputs, no two
transactions share an input, and after the recursive removal of a pooled transaction nothing
spends its outputs. -/
theorem pool_links_inputs (env : Env) (S : Set CTransaction) (hS : HashSeparates env S)
    (pool : CTxMemPool) (h : PoolReaches env S pool) :
    (∀ o hash i, pool.mapNextTx o = some (hash, i) ↔
      ∃ tx txin, pool.lookup hash = some tx ∧ tx.vin[i]? = some txin ∧ txin.prevout = o) ∧
    (∀ hash hash' tx tx' o, pool.lookup hash = some tx → pool.lookup hash' = some tx' →
      o ∈ tx.vin.map CTxIn.prevout → o ∈ tx'.vin.map CTxIn.prevout → hash = hash') ∧
    (∀ g tx s', tx ∈ S → pool.exists_ (tx.GetHash env) = true →
      CTxMemPool.remove env true tx (pool, g) = .ok s' →
      ∀ k t, s'.1.lookup k = some t → ∀ i < tx.vout.length,
        ⟨tx.GetHash env, i⟩ ∉ t.vin.map CTxIn.prevout) := by
  have hok := h.ok hS pool
  refine ⟨hok.links, ?_, ?_⟩
  · intro hash hash' tx tx' o htx htx' ho ho'
    exact hok.spender_unique htx htx' ho ho'
  · intro g tx s' htx hpooled hremove
    have hsize : ∃ n, pool.mapTx.length = n + 1 := by
      cases hmap : pool.mapTx with
      | nil => simp [CTxMemPool.exists_, CTxMemPool.lookup, hmap] at hpooled
      | cons p ps => exact ⟨ps.length, rfl⟩
    obtain ⟨n, hn⟩ := hsize
    rw [CTxMemPool.remove] at hremove
    simp only [hn] at hremove
    exact removeTx_spenders hS n tx (pool, g) s' hok hpooled hremove htx

namespace Scenario

/-- A transaction that stands in the block files and in the index. -/
def minedParent : CTransaction := spending 10 1 [⟨99, 0⟩] [payTo COIN]

def pooledChild : CTransaction := spending 20 1 [⟨10, 0⟩] [payTo (COIN / 2)]

def parentPos : CDiskTxPos := ⟨1, 0, 100⟩

def parentMined : Node :=
  { Node.empty with
    files := { BlockFile.empty with
      txs := fun place => if place = (1, 100) then some minedParent else none }
    txdb := ⟨fun hash => if hash = 10 then some (.new parentPos 1) else none, none⟩ }

def childAccepted : Node := (AcceptToMemoryPool (timed testNet) io parentMined pooledChild).final

def family : Set CTransaction := {minedParent, pooledChild}

theorem family_separates : HashSeparates (timed testNet) family := by
  rintro tx (rfl | rfl) tx' (rfl | rfl) h
  · rfl
  · cases h
  · cases h
  · rfl

theorem childAccepted_reaches : PoolReaches (timed testNet) family childAccepted.mempool :=
  PoolReaches.accept io parentMined pooledChild (by simp [family]) PoolReaches.empty

theorem childAccepted_lookup : childAccepted.mempool.lookup 20 = some pooledChild := by
  decide

end Scenario

open Scenario in
/-- A parent that is not in the pool is removed without its child. -/
theorem removal_leaves_spender :
    PoolReaches (timed testNet) family childAccepted.mempool ∧ minedParent ∈ family ∧
      ∃ s', CTxMemPool.remove (timed testNet) true minedParent
          (childAccepted.mempool, childAccepted.toGlobals) = .ok s' ∧
        s'.1.lookup 20 = some pooledChild ∧
        ⟨minedParent.GetHash (timed testNet), 0⟩ ∈ pooledChild.vin.map CTxIn.prevout := by
  refine ⟨childAccepted_reaches, by simp [family], ?_⟩
  refine ⟨(childAccepted.mempool, childAccepted.toGlobals), ?_, childAccepted_lookup, ?_⟩
  · have habsent : childAccepted.mempool.exists_ (minedParent.GetHash (timed testNet)) = false := by
      decide
    rw [CTxMemPool.remove, removeTx_eq]
    have hpost : RemoveFromMemoryPoolPost (timed testNet) childAccepted.toGlobals minedParent =
        .ok childAccepted.toGlobals := rfl
    rw [hpost]
    simp only [Halt.lift, bind, Except.bind, habsent, Bool.false_eq_true, ↓reduceIte]
  · decide

open Scenario in
theorem pool_links_inputs_child :
    childAccepted.mempool.mapNextTx ⟨10, 0⟩ = some (20, 0) :=
  ((pool_links_inputs (timed testNet) family family_separates childAccepted.mempool
    childAccepted_reaches).1 ⟨10, 0⟩ 20 0).mpr
      ⟨pooledChild, ⟨⟨10, 0⟩, [], UINT_MAX⟩, childAccepted_lookup, rfl, rfl⟩

/-! ## The depth of the calls -/

/-- A hash commits to the hashes that the transaction spends from, so no chain of spending
transactions comes back to its start. -/
def Ranks (env : Env) (S : Set CTransaction) (rank : uint256 → ℕ) : Prop :=
  ∀ tx ∈ S, ∀ txin ∈ tx.vin, rank txin.prevout.hash < rank (tx.GetHash env)

/-- The pooled transactions that can come behind one in a chain. -/
def behind (rank : uint256 → ℕ) (hash : uint256) (pool : CTxMemPool) : ℕ :=
  pool.mapTx.countP fun p => rank hash < rank p.1

theorem behind_lt_of_lookup {rank : uint256 → ℕ} {hash k : uint256} {tx : CTransaction}
    (hk : pool.lookup k = some tx) (hle : rank hash ≤ rank k) :
    behind rank k pool < pool.mapTx.length ∧
      (rank hash < rank k → behind rank k pool < behind rank hash pool) := by
  obtain ⟨pre, post, hmap, -⟩ := List.lookup_eq_some_iff.mp hk
  have hmono : ∀ xs : List (uint256 × CTransaction),
      xs.countP (fun p => decide (rank k < rank p.1)) ≤
        xs.countP (fun p => decide (rank hash < rank p.1)) := by
    intro xs
    apply List.countP_mono_left
    intro p _ hp
    simp only [decide_eq_true_eq] at hp ⊢
    omega
  have hpre := hmono pre
  have hpost := hmono post
  have hlen := List.countP_le_length (p := fun p => decide (rank k < rank p.1)) (l := pre)
  have hlen' := List.countP_le_length (p := fun p => decide (rank k < rank p.1)) (l := post)
  unfold behind
  rw [hmap]
  simp only [List.countP_append, List.countP_cons, List.length_append, List.length_cons,
    lt_irrefl, decide_false, Bool.false_eq_true, ↓reduceIte]
  refine ⟨by omega, ?_⟩
  intro hlt
  simp only [hlt, decide_true, ↓reduceIte]
  omega

theorem behind_le_of_keeps (rank : uint256 → ℕ) (hash : uint256) {a b : PoolState}
    (h : Keeps a b) : behind rank hash b.1 ≤ behind rank hash a.1 := h.countP_le

theorem removeTx_keeps (fRecursive : Bool) (fuel : ℕ) (tx : CTransaction) (s : PoolState) :
    Keeps s (removeTx env fRecursive fuel tx s).final := by
  induction fuel generalizing fRecursive tx s with
  | zero =>
      obtain ⟨pool, g⟩ := s
      rw [removeTx_eq]
      cases RemoveFromMemoryPoolPost env g tx with
      | error e => exact Keeps.refl _
      | ok g' =>
          simp only [Halt.lift, bind, Except.bind]
          split
          · exact List.filter_sublist
          · exact Keeps.refl _
  | succ fuel ih =>
      obtain ⟨pool, g⟩ := s
      rw [removeTx_eq]
      cases RemoveFromMemoryPoolPost env g tx with
      | error e => exact Keeps.refl _
      | ok g' =>
          simp only [Halt.lift, bind, Except.bind]
          split
          · have hspenders : Keeps (pool, g')
                (removeSpenders env fRecursive (fuel + 1) tx (pool, g')).final := by
              cases fRecursive with
              | false => exact Keeps.refl _
              | true =>
                  apply Halt.final_foldlM Keeps.refl Keeps.trans
                  intro a i
                  unfold removeSpender
                  split
                  · exact Keeps.refl _
                  · split
                    · exact Keeps.refl _
                    · exact ih true _ a
            cases hrun : removeSpenders env fRecursive (fuel + 1) tx (pool, g') with
            | error e =>
                rw [hrun] at hspenders
                exact hspenders
            | ok s' =>
                rw [hrun] at hspenders
                exact List.filter_sublist.trans hspenders
          · exact Keeps.refl _

theorem removeSpender_keeps (fuel : ℕ) (hash : uint256) (s : PoolState) (i : ℕ) :
    Keeps s (removeSpender env fuel hash s i).final := by
  unfold removeSpender
  split
  · exact Keeps.refl _
  · split
    · exact Keeps.refl _
    · exact removeTx_keeps true fuel _ s

/-- One call more than there are transactions behind is enough. -/
theorem removeTx_fuel (hS : HashSeparates env S) {rank : uint256 → ℕ}
    (hrank : Ranks env S rank) (fuel fuel' : ℕ) (tx : CTransaction)
    (s : PoolState) (hok : s.1.Ok env S) (hfuel : behind rank (tx.GetHash env) s.1 < fuel)
    (hfuel' : behind rank (tx.GetHash env) s.1 < fuel') :
    removeTx env true fuel tx s = removeTx env true fuel' tx s := by
  induction fuel generalizing fuel' tx s with
  | zero => omega
  | succ n ih =>
      cases fuel' with
      | zero => omega
      | succ m =>
          have hloop : ∀ (is : List ℕ) (a : PoolState), a.1.Ok env S →
              behind rank (tx.GetHash env) a.1 ≤ behind rank (tx.GetHash env) s.1 →
              is.foldlM (removeSpender env n (tx.GetHash env)) a =
                is.foldlM (removeSpender env m (tx.GetHash env)) a := by
            intro is
            induction is with
            | nil => intro a _ _; rfl
            | cons i is ihis =>
                intro a ha hle
                have hround : removeSpender env n (tx.GetHash env) a i =
                    removeSpender env m (tx.GetHash env) a i := by
                  cases hlink : a.1.mapNextTx ⟨tx.GetHash env, i⟩ with
                  | none => simp [removeSpender, hlink]
                  | some x =>
                      obtain ⟨k, j⟩ := x
                      obtain ⟨child, txin, hchild, hj, hprev⟩ := (ha.links _ k j).mp hlink
                      obtain ⟨hmem, hname⟩ := ha.named k child hchild
                      have hlt : rank (tx.GetHash env) < rank k := by
                        have hspends := hrank child hmem txin (List.mem_of_getElem? hj)
                        rwa [hprev, hname] at hspends
                      have hbehind := (behind_lt_of_lookup hchild hlt.le).2 hlt
                      simp only [removeSpender, hlink, hchild]
                      exact ih m child a ha (by rw [hname]; omega) (by rw [hname]; omega)
                rw [List.foldlM_cons, List.foldlM_cons, hround]
                have hshrinks := removeSpender_shrinks hS m (tx.GetHash env) a i ha
                have hkeeps : Keeps a (removeSpender env m (tx.GetHash env) a i).final :=
                  removeSpender_keeps m (tx.GetHash env) a i
                cases hrun : removeSpender env m (tx.GetHash env) a i with
                | error e => rfl
                | ok b =>
                    rw [hrun] at hshrinks hkeeps
                    have hb := behind_le_of_keeps rank (tx.GetHash env) hkeeps
                    rw [Halt.final_ok] at hb
                    exact ihis b hshrinks.1 (by omega)
          obtain ⟨pool, g⟩ := s
          rw [removeTx_eq, removeTx_eq]
          have hspenders : ∀ g', removeSpenders env true (n + 1) tx (pool, g') =
              removeSpenders env true (m + 1) tx (pool, g') := by
            intro g'
            exact hloop (List.range tx.vout.length) (pool, g') hok (le_refl _)
          simp only [hspenders]

/-- The depth that `remove` allows is enough: allowing more changes nothing. -/
theorem remove_depth (hS : HashSeparates env S) {rank : uint256 → ℕ}
    (hrank : Ranks env S rank) (pool : CTxMemPool) (h : PoolReaches env S pool) (g : Globals)
    (tx : CTransaction) (fuel : ℕ) (hfuel : pool.mapTx.length ≤ fuel) :
    removeTx env true fuel tx (pool, g) = CTxMemPool.remove env true tx (pool, g) := by
  have hok := h.ok hS pool
  unfold CTxMemPool.remove
  by_cases hpooled : pool.exists_ (tx.GetHash env) = true
  · obtain ⟨t, ht⟩ := Option.isSome_iff_exists.mp hpooled
    have hbehind := (behind_lt_of_lookup ht (le_refl (rank (tx.GetHash env)))).1
    exact removeTx_fuel hS hrank fuel _ tx (pool, g) hok (by simp only; omega) hbehind
  · rw [removeTx_eq, removeTx_eq]
    simp only [if_neg hpooled]

end Dions
