import Mathlib.Algebra.Order.BigOperators.Group.List
import Mathlib.Algebra.Order.Ring.Nat
import Dions.Verification.Scenario

/-! # The index of the orphan transactions

Storing and erasing an orphan keep the index of the inputs that are waited for exact. What does not is
the handler of an accepted transaction, which reads the index through `operator[]`: where no orphan
waits for the transaction, an empty set stays behind. -/

namespace Dions

variable {env : Env}
variable {s s' : OrphanTxs} {prev : uint256} {nAdjustedTime : ℕ} {m : TxMessage}
variable {hash : uint256} {tx : CTransaction}

namespace OrphanTxs

/-- A stored orphan has an input from the transaction `prev`. -/
def Waits (s : OrphanTxs) (prev hash : uint256) : Prop :=
  ∃ tx, s.mapOrphanTransactions.find hash = some tx ∧
    prev ∈ tx.vin.map fun txin => txin.prevout.hash

/-- What holds of the two maps, empty sets in the index apart. -/
structure Linked (env : Env) (s : OrphanTxs) : Prop where
  own : ∀ hash tx, s.mapOrphanTransactions.find hash = some tx → tx.GetHash env = hash
  small : ∀ hash tx, s.mapOrphanTransactions.find hash = some tx → tx.GetSerializeSize ≤ 5000
  lists_iff : ∀ prev hash, KeyIndex.Lists s.mapOrphanTransactionsByPrev prev hash ↔ s.Waits prev hash

/-- There is an entry exactly for what is waited for, and it is the set of those that wait. -/
structure Indexed (s : OrphanTxs) : Prop where
  entry_iff : ∀ prev,
    (s.mapOrphanTransactionsByPrev.find prev).isSome = true ↔ ∃ hash, s.Waits prev hash
  entry : ∀ prev hashes, s.mapOrphanTransactionsByPrev.find prev = some hashes →
    hashes.keys ≠ [] ∧ ∀ hash, hash ∈ hashes.keys ↔ s.Waits prev hash

theorem Linked.indexed_iff (h : s.Linked env) :
    s.Indexed ↔ KeyIndex.Tight s.mapOrphanTransactionsByPrev := by
  constructor
  · intro hindexed prev hashes hfind hsize
    apply (hindexed.entry prev hashes hfind).1
    rwa [← List.length_eq_zero_iff, OrdMap.length_keys]
  · intro htight
    refine ⟨fun prev => ?_, fun prev hashes hfind => ⟨fun hnil => ?_, fun hash => ?_⟩⟩
    · rw [htight.find_isSome_iff]
      exact exists_congr fun hash => h.lists_iff prev hash
    · apply htight prev hashes hfind
      rw [← OrdMap.length_keys, hnil, List.length_nil]
    · rw [← h.lists_iff, KeyIndex.Lists, KeyIndex.itemsAt, hfind, Option.getD_some]

theorem linked_empty : empty.Linked env where
  own := fun _ _ h => nomatch h
  small := fun _ _ h => nomatch h
  lists_iff := fun prev hash => iff_of_false (KeyIndex.lists_empty prev hash) fun h => nomatch h

/-! ## Storing and erasing -/

variable {s : OrphanTxs}

theorem Linked.AddOrphanTx (h : s.Linked env) (tx : CTransaction) :
    (s.AddOrphanTx env tx).2.Linked env := by
  rw [OrphanTxs.AddOrphanTx]
  split
  · exact h
  · rename_i hnew
    split
    · exact h
    · rename_i hsize
      rw [Bool.not_eq_true, Option.isSome_eq_false_iff, Option.isNone_iff_eq_none] at hnew
      refine ⟨fun hash tx' hfind => ?_, fun hash tx' hfind => ?_, fun prev hash => ?_⟩
      · rw [OrdMap.find_insert] at hfind
        split at hfind
        · rename_i heq
          rw [← Option.some.inj hfind, heq]
        · exact h.own hash tx' hfind
      · rw [OrdMap.find_insert] at hfind
        split at hfind
        · rw [← Option.some.inj hfind]
          omega
        · exact h.small hash tx' hfind
      · rw [KeyIndex.lists_foldl_add, h.lists_iff, Waits, Waits, OrdMap.find_insert]
        by_cases heq : hash = tx.GetHash env
        · rw [if_pos heq, heq, hnew]
          simp
        · rw [if_neg heq]
          simp [heq]

theorem tight_AddOrphanTx (h : KeyIndex.Tight s.mapOrphanTransactionsByPrev) (tx : CTransaction) :
    KeyIndex.Tight (s.AddOrphanTx env tx).2.mapOrphanTransactionsByPrev := by
  rw [OrphanTxs.AddOrphanTx]
  split
  · exact h
  · split
    · exact h
    · exact h.foldl_add _ _

theorem erased_EraseOrphanTx (h : s.mapOrphanTransactions.find hash = some tx) :
    (s.EraseOrphanTx hash).mapOrphanTransactions = s.mapOrphanTransactions.erase hash := by
  rw [EraseOrphanTx, h]

theorem size_EraseOrphanTx {n : ℕ} (s : OrphanTxs) (hash : uint256)
    (h : s.mapOrphanTransactions.size ≤ n) :
    (s.EraseOrphanTx hash).mapOrphanTransactions.size ≤ n := by
  rw [EraseOrphanTx]
  split
  · exact h
  · exact (List.length_filter_le _ _).trans h

theorem Linked.EraseOrphanTx (h : s.Linked env) (hash : uint256) :
    (s.EraseOrphanTx hash).Linked env := by
  rw [OrphanTxs.EraseOrphanTx]
  split
  · exact h
  · rename_i tx hfind
    refine ⟨fun hash' tx' hfind' => ?_, fun hash' tx' hfind' => ?_, fun prev hash' => ?_⟩
    · rw [OrdMap.find_erase] at hfind'
      split at hfind'
      · cases hfind'
      · exact h.own hash' tx' hfind'
    · rw [OrdMap.find_erase] at hfind'
      split at hfind'
      · cases hfind'
      · exact h.small hash' tx' hfind'
    · rw [KeyIndex.lists_foldl_remove, h.lists_iff, Waits, Waits, OrdMap.find_erase]
      by_cases heq : hash' = hash
      · rw [if_pos heq, heq, hfind]
        simp
      · rw [if_neg heq]
        simp [heq]

theorem tight_EraseOrphanTx (h : KeyIndex.Tight s.mapOrphanTransactionsByPrev) (hash : uint256) :
    KeyIndex.Tight (s.EraseOrphanTx hash).mapOrphanTransactionsByPrev := by
  rw [OrphanTxs.EraseOrphanTx]
  split
  · exact h
  · exact h.foldl_remove _ _

/-- An empty set under a key that nothing waits for is not found by erasing orphans. -/
theorem find_EraseOrphanTx (hnone : ∀ hash, ¬s.Waits prev hash) (hash : uint256) :
    (s.EraseOrphanTx hash).mapOrphanTransactionsByPrev.find prev =
      s.mapOrphanTransactionsByPrev.find prev := by
  rw [EraseOrphanTx]
  split
  · rfl
  · rename_i tx hfind
    exact KeyIndex.find_foldl_remove hash (fun hmem => hnone hash ⟨tx, hfind, hmem⟩) _

theorem not_waits_EraseOrphanTx (hnone : ∀ hash, ¬s.Waits prev hash) (hash : uint256) :
    ∀ hash', ¬(s.EraseOrphanTx hash).Waits prev hash' := by
  intro hash' ⟨tx, hfind, hmem⟩
  rw [EraseOrphanTx] at hfind
  split at hfind
  · exact hnone hash' ⟨tx, hfind, hmem⟩
  · rw [OrdMap.find_erase] at hfind
    split at hfind
    · cases hfind
    · exact hnone hash' ⟨tx, hfind, hmem⟩

theorem find_foldl_EraseOrphanTx (vEraseQueue : List uint256) (hnone : ∀ hash, ¬s.Waits prev hash) :
    (vEraseQueue.foldl EraseOrphanTx s).mapOrphanTransactionsByPrev.find prev =
      s.mapOrphanTransactionsByPrev.find prev ∧
    ∀ hash, ¬(vEraseQueue.foldl EraseOrphanTx s).Waits prev hash := by
  induction vEraseQueue generalizing s with
  | nil => exact ⟨rfl, hnone⟩
  | cons hash vEraseQueue ih =>
    obtain ⟨hfind, hwaits⟩ := ih (not_waits_EraseOrphanTx hnone hash)
    exact ⟨hfind.trans (find_EraseOrphanTx hnone hash), hwaits⟩

/-- What erasing one orphan preserves, erasing a list of them preserves. -/
theorem foldl_EraseOrphanTx {P : OrphanTxs → Prop} (hstep : ∀ s hash, P s → P (s.EraseOrphanTx hash))
    (vEraseQueue : List uint256) (h : P s) : P (vEraseQueue.foldl EraseOrphanTx s) := by
  induction vEraseQueue generalizing s with
  | nil => exact h
  | cons hash vEraseQueue ih => exact ih (hstep s hash h)

/-! ## Evicting -/

theorem evict_invariant {P : OrphanTxs → Prop} (hstep : ∀ s hash, P s → P (s.EraseOrphanTx hash))
    {rand : ℕ → uint256} {nMaxOrphans fuel nEvicted : ℕ} (h : P s) :
    P (evict rand nMaxOrphans fuel nEvicted s).2 := by
  induction fuel generalizing nEvicted s with
  | zero => exact h
  | succ fuel ih =>
    rw [evict]
    split
    · exact h
    · split
      · exact h
      · exact ih (hstep s _ h)

/-- With enough rounds the loop ends below the limit, and every round has evicted one orphan. -/
theorem evict_count {rand : ℕ → uint256} {nMaxOrphans fuel nEvicted : ℕ}
    (hfuel : s.mapOrphanTransactions.size ≤ nMaxOrphans + fuel) :
    (evict rand nMaxOrphans fuel nEvicted s).2.mapOrphanTransactions.size ≤ nMaxOrphans ∧
      (evict rand nMaxOrphans fuel nEvicted s).1 =
        nEvicted + (s.mapOrphanTransactions.size - nMaxOrphans) ∧
      (evict rand nMaxOrphans fuel nEvicted s).2.mapOrphanTransactions.size +
        (s.mapOrphanTransactions.size - nMaxOrphans) = s.mapOrphanTransactions.size := by
  induction fuel generalizing nEvicted s with
  | zero =>
    rw [evict]
    dsimp only
    omega
  | succ fuel ih =>
    rw [evict]
    split
    · dsimp only
      omega
    · rename_i hgt
      have hpos : 0 < s.mapOrphanTransactions.size := by omega
      obtain ⟨it, hit⟩ := OrdMap.lowerBoundOrFirst_isSome (rand nEvicted) hpos
      have hfind : s.mapOrphanTransactions.find it.1 = some it.2 :=
        OrdMap.mem_entries.mp (OrdMap.mem_of_lowerBoundOrFirst hit)
      have hsize := OrdMap.size_erase (OrdMap.mem_keys.mpr (by rw [hfind]; rfl))
      rw [← erased_EraseOrphanTx hfind] at hsize
      rw [hit]
      dsimp only
      obtain ⟨hle, hcount, hleft⟩ := @ih (s.EraseOrphanTx it.1) (nEvicted + 1) (by omega)
      exact ⟨hle, by rw [hcount]; omega, by omega⟩

/-- `LimitOrphanTxSize` evicts the excess, counts it, and leaves the other orphans as they are. -/
theorem LimitOrphanTxSize_spec (s : OrphanTxs) (rand : ℕ → uint256) (nMaxOrphans : ℕ) :
    (s.LimitOrphanTxSize rand nMaxOrphans).2.mapOrphanTransactions.size ≤ nMaxOrphans ∧
      (s.LimitOrphanTxSize rand nMaxOrphans).1 = s.mapOrphanTransactions.size - nMaxOrphans ∧
      (s.LimitOrphanTxSize rand nMaxOrphans).2.mapOrphanTransactions.size +
        (s.LimitOrphanTxSize rand nMaxOrphans).1 = s.mapOrphanTransactions.size := by
  obtain ⟨hle, hcount, hleft⟩ := @evict_count s rand nMaxOrphans s.mapOrphanTransactions.size 0
    (by omega)
  rw [Nat.zero_add] at hcount
  rw [← hcount] at hleft
  exact ⟨hle, hcount, hleft⟩

end OrphanTxs

/-! ## The queues of the handler -/

/-- The state of the handler, when the first `i` transactions of the work queue are done: the maps of
the beginning, with an entry for each of the `i`, and an accepted transaction for each in the queue. -/
structure TxQueues.Resolving (env : Env) (s : OrphanTxs) (calls : List (CTransaction × Verdict)) (i : ℕ)
    (q : TxQueues) : Prop where
  stored : q.orphans.mapOrphanTransactions = s.mapOrphanTransactions
  lists_iff : ∀ prev hash, KeyIndex.Lists q.orphans.mapOrphanTransactionsByPrev prev hash ↔
    KeyIndex.Lists s.mapOrphanTransactionsByPrev prev hash
  sub : ∀ call ∈ q.calls, call ∈ calls
  accepted : ∀ hash ∈ q.vWorkQueue, ∃ tx, (tx, Verdict.accepted) ∈ calls ∧ tx.GetHash env = hash
  consumed : ∀ tx, (tx, Verdict.accepted) ∈ calls →
    (tx, Verdict.accepted) ∈ q.calls ∨ tx.GetHash env ∈ q.vWorkQueue
  done : i ≤ q.vWorkQueue.length
  touched : ∀ hash ∈ q.vWorkQueue.take i,
    (q.orphans.mapOrphanTransactionsByPrev.find hash).isSome = true
  tight : KeyIndex.Tight s.mapOrphanTransactionsByPrev →
    (∀ hash ∈ q.vWorkQueue.take i, ∃ hash', s.Waits hash hash') →
      KeyIndex.Tight q.orphans.mapOrphanTransactionsByPrev

namespace TxQueues

variable {s : OrphanTxs} {calls : List (CTransaction × Verdict)} {i : ℕ} {q q' : TxQueues}

theorem Resolving.linked (h : q.Resolving env s calls i) (hs : s.Linked env) :
    q.orphans.Linked env := by
  refine ⟨?_, ?_, fun prev hash => ?_⟩
  · rw [h.stored]
    exact hs.own
  · rw [h.stored]
    exact hs.small
  · rw [h.lists_iff, hs.lists_iff, OrphanTxs.Waits, OrphanTxs.Waits, h.stored]

/-- The next call is taken, and an accepted transaction goes to the end of the queue. -/
theorem Resolving.consume {tx : CTransaction} {verdict : Verdict}
    {rest : List (CTransaction × Verdict)} {work vEraseQueue : List uint256}
    (h : q.Resolving env s calls i) (hcalls : q.calls = (tx, verdict) :: rest)
    (hwork : work = if verdict = .accepted then [tx.GetHash env] else []) :
    Resolving env s calls i ⟨q.orphans, rest, q.vWorkQueue ++ work, vEraseQueue⟩ := by
  have htake : (q.vWorkQueue ++ work).take i = q.vWorkQueue.take i :=
    List.take_append_of_le_length h.done
  have hcall := h.sub (tx, verdict) (by rw [hcalls]; exact List.mem_cons_self)
  refine ⟨h.stored, h.lists_iff, fun call hmem => h.sub call ?_, fun hash hmem => ?_, fun tx' htx' => ?_,
    ?_, ?_, ?_⟩
  · rw [hcalls]
    exact List.mem_cons_of_mem _ hmem
  · rcases List.mem_append.mp hmem with hmem | hmem
    · exact h.accepted hash hmem
    · rw [hwork] at hmem
      split at hmem
      · rename_i haccepted
        rw [haccepted] at hcall
        exact ⟨tx, hcall, (List.mem_singleton.mp hmem).symm⟩
      · cases hmem
  · rcases h.consumed tx' htx' with hmem | hmem
    · rw [hcalls] at hmem
      rcases List.mem_cons.mp hmem with heq | hmem
      · obtain ⟨rfl, rfl⟩ := Prod.mk.inj heq
        right
        rw [hwork, if_pos rfl]
        exact List.mem_append_right _ List.mem_cons_self
      · exact .inl hmem
    · exact .inr (List.mem_append_left _ hmem)
  · have hdone := h.done
    dsimp only
    rw [List.length_append]
    omega
  · dsimp only
    rw [htake]
    exact h.touched
  · dsimp only
    rw [htake]
    exact h.tight

/-- An orphan that waits is one of the stored ones, and the maps stay as they are. -/
theorem Resolving.tryOrphan (h : q.Resolving env s calls i) (hs : s.Linked env)
    (hwaits : s.Waits prev hash) (htry : q.tryOrphan nAdjustedTime hash = some q') :
    q'.Resolving env s calls i := by
  obtain ⟨tx, hfind, _⟩ := hwaits
  have hown := hs.own hash tx hfind
  have horphan : q.orphans.orphanAt nAdjustedTime hash = (tx, q.orphans) := by
    rw [OrphanTxs.orphanAt, h.stored, hfind]
  rw [TxQueues.tryOrphan, horphan] at htry
  obtain ⟨⟨verdict, q₁⟩, haccept, hqueue⟩ := Option.bind_eq_some_iff.mp htry
  cases hcalls : q.calls with
  | nil => simp [AcceptToMemoryPool, hcalls] at haccept
  | cons call rest =>
    obtain ⟨tx', verdict'⟩ := call
    simp only [AcceptToMemoryPool, hcalls] at haccept
    split at haccept
    · rename_i htx
      subst htx
      obtain ⟨rfl, rfl⟩ := Prod.mk.inj (Option.some.inj haccept)
      cases verdict' with
      | accepted =>
        rw [← Option.some.inj hqueue]
        exact h.consume hcalls (by rw [if_pos rfl, hown])
      | missingInputs =>
        rw [← Option.some.inj hqueue]
        have hkept := @consume env s calls i q tx' .missingInputs rest [] q.vEraseQueue h hcalls rfl
        rwa [List.append_nil] at hkept
      | invalid =>
        rw [← Option.some.inj hqueue]
        have hkept := @consume env s calls i q tx' .invalid rest [] (q.vEraseQueue ++ [hash]) h hcalls
          rfl
        rwa [List.append_nil] at hkept
    · cases haccept

theorem Resolving.tryOrphans {hashes : List uint256} (h : q.Resolving env s calls i)
    (hs : s.Linked env) (hwaits : ∀ hash ∈ hashes, s.Waits prev hash)
    (htry : hashes.foldlM (TxQueues.tryOrphan nAdjustedTime) q = some q') :
    q'.Resolving env s calls i := by
  induction hashes generalizing q with
  | nil =>
    rw [← Option.some.inj htry]
    exact h
  | cons hash hashes ih =>
    rw [List.foldlM_cons] at htry
    obtain ⟨q₁, hfirst, hrest⟩ := Option.bind_eq_some_iff.mp htry
    exact ih (h.tryOrphan hs (hwaits hash List.mem_cons_self) hfirst)
      (fun hash' hmem => hwaits hash' (List.mem_cons_of_mem _ hmem)) hrest

/-- The handler reads the entry of the next transaction in the queue. -/
theorem Resolving.touch {hashPrev : uint256} (h : q.Resolving env s calls i) (hs : s.Linked env)
    (hnext : q.vWorkQueue[i]? = some hashPrev) :
    Resolving env s calls (i + 1)
      { q with
        orphans := { q.orphans with
          mapOrphanTransactionsByPrev :=
            KeyIndex.touch q.orphans.mapOrphanTransactionsByPrev hashPrev } } := by
  have htake : q.vWorkQueue.take (i + 1) = q.vWorkQueue.take i ++ [hashPrev] := by
    rw [List.take_add_one, hnext, Option.toList_some]
  refine ⟨h.stored, fun prev hash => ?_, h.sub, h.accepted, h.consumed, ?_, fun hash hmem => ?_,
    fun htight hwaited => ?_⟩
  · rw [KeyIndex.lists_touch, h.lists_iff]
  · have hlt := (List.getElem?_eq_some_iff.mp hnext).1
    dsimp only
    omega
  · dsimp only at hmem ⊢
    rw [KeyIndex.touch, OrdMap.find_insert]
    split
    · rfl
    · rename_i hne
      rw [htake, List.mem_append, List.mem_singleton] at hmem
      exact h.touched hash (hmem.resolve_right hne)
  · dsimp only at hwaited ⊢
    rw [htake] at hwaited
    have hbefore := h.tight htight fun hash hmem => hwaited hash (List.mem_append_left _ hmem)
    obtain ⟨hash, hwaits⟩ := hwaited hashPrev (List.mem_append_right _ List.mem_cons_self)
    refine (KeyIndex.tight_touch_iff hbefore hashPrev).mpr ⟨hash, ?_⟩
    rw [h.lists_iff, hs.lists_iff]
    exact hwaits

/-- The loop ends when every transaction in the queue is done. -/
theorem Resolving.resolve {fuel : ℕ} (h : q.Resolving env s calls i) (hs : s.Linked env)
    (hresolve : q.resolve nAdjustedTime fuel i = some q') :
    q'.Resolving env s calls q'.vWorkQueue.length := by
  induction fuel generalizing i q with
  | zero => cases hresolve
  | succ fuel ih =>
    rw [TxQueues.resolve] at hresolve
    split at hresolve
    · rename_i hend
      rw [← Option.some.inj hresolve]
      rw [List.getElem?_eq_none_iff] at hend
      rwa [← le_antisymm h.done hend]
    · rename_i hashPrev hnext
      obtain ⟨q₁, hfirst, hrest⟩ := Option.bind_eq_some_iff.mp hresolve
      have hwaits : ∀ hash ∈ (KeyIndex.itemsAt (KeyIndex.touch
          q.orphans.mapOrphanTransactionsByPrev hashPrev) hashPrev).keys, s.Waits hashPrev hash := by
        intro hash hmem
        rw [← hs.lists_iff, ← h.lists_iff, ← KeyIndex.lists_touch hashPrev]
        exact hmem
      exact ih ((h.touch hs hnext).tryOrphans hs hwaits hfirst) hrest

theorem length_AcceptToMemoryPool {verdict : Verdict}
    (h : q.AcceptToMemoryPool tx = some (verdict, q')) :
    q'.vWorkQueue = q.vWorkQueue ∧ q'.calls.length + 1 = q.calls.length := by
  rw [AcceptToMemoryPool] at h
  split at h
  · cases h
  · rename_i hcalls
    split at h
    · obtain ⟨_, rfl⟩ := Prod.mk.inj (Option.some.inj h)
      exact ⟨rfl, (congrArg List.length hcalls).symm⟩
    · cases h

theorem length_tryOrphan (htry : q.tryOrphan nAdjustedTime hash = some q') :
    q.vWorkQueue.length ≤ q'.vWorkQueue.length ∧
      q'.vWorkQueue.length + q'.calls.length ≤ q.vWorkQueue.length + q.calls.length := by
  obtain ⟨⟨verdict, q₁⟩, haccept, hqueue⟩ := Option.bind_eq_some_iff.mp htry
  have hcall := length_AcceptToMemoryPool haccept
  dsimp only at hcall
  cases verdict with
  | accepted =>
    rw [← Option.some.inj hqueue]
    dsimp only
    rw [List.length_append, List.length_singleton, hcall.1]
    omega
  | missingInputs =>
    rw [← Option.some.inj hqueue, hcall.1]
    omega
  | invalid =>
    rw [← Option.some.inj hqueue]
    dsimp only
    rw [hcall.1]
    omega

theorem length_tryOrphans {hashes : List uint256}
    (htry : hashes.foldlM (TxQueues.tryOrphan nAdjustedTime) q = some q') :
    q.vWorkQueue.length ≤ q'.vWorkQueue.length ∧
      q'.vWorkQueue.length + q'.calls.length ≤ q.vWorkQueue.length + q.calls.length := by
  induction hashes generalizing q with
  | nil =>
    rw [← Option.some.inj htry]
    exact ⟨le_rfl, le_rfl⟩
  | cons hash hashes ih =>
    rw [List.foldlM_cons] at htry
    obtain ⟨q₁, hfirst, hrest⟩ := Option.bind_eq_some_iff.mp htry
    have h₁ := length_tryOrphan hfirst
    have h₂ := ih hrest
    omega

/-- The handler is never cut short: as many rounds as there are entries and calls are enough. -/
theorem resolve_congr {fuel fuel' : ℕ} (hfuel : q.vWorkQueue.length + q.calls.length < fuel + i)
    (hfuel' : q.vWorkQueue.length + q.calls.length < fuel' + i) (hi : i ≤ q.vWorkQueue.length) :
    q.resolve nAdjustedTime fuel i = q.resolve nAdjustedTime fuel' i := by
  induction fuel generalizing fuel' i q with
  | zero => omega
  | succ fuel ih =>
    obtain ⟨fuel', rfl⟩ : ∃ k, fuel' = k + 1 := ⟨fuel' - 1, by omega⟩
    rw [TxQueues.resolve, TxQueues.resolve]
    cases hnext : q.vWorkQueue[i]? with
    | none => rfl
    | some hashPrev =>
      have hlt := (List.getElem?_eq_some_iff.mp hnext).1
      refine Option.bind_congr fun q₁ hq₁ => ?_
      have hlength := length_tryOrphans hq₁
      dsimp only at hlength
      exact ih (by omega) (by omega) (by omega)

end TxQueues

/-! ## Messages -/

namespace TxMessage

/-- Every transaction that is accepted because of the message is waited for. -/
def Keeps (env : Env) (m : TxMessage) (s : OrphanTxs) : Prop :=
  ∀ tx, (tx, Verdict.accepted) ∈ m.calls → ∃ hash, s.Waits (tx.GetHash env) hash

end TxMessage

/-- The three ways through the handler. -/
theorem processTx_cases (h : ProcessTx env s m = some s') :
    (∃ calls q, m.calls = (m.tx, .accepted) :: calls ∧
      (TxQueues.mk s calls [m.tx.GetHash env] [m.tx.GetHash env]).resolve m.nAdjustedTime
        (m.calls.length + 1) 0 = some q ∧
      q.calls = [] ∧ s' = q.vEraseQueue.foldl OrphanTxs.EraseOrphanTx q.orphans) ∨
    (m.calls = [(m.tx, .missingInputs)] ∧
      s' = ((s.AddOrphanTx env m.tx).2.LimitOrphanTxSize m.rand MAX_ORPHAN_TRANSACTIONS).2) ∨
    (m.calls = [(m.tx, .invalid)] ∧ s' = s) := by
  obtain ⟨⟨verdict, q₀⟩, haccept, hrest⟩ := Option.bind_eq_some_iff.mp h
  cases hcalls : m.calls with
  | nil => simp [TxQueues.AcceptToMemoryPool, hcalls] at haccept
  | cons call calls =>
    obtain ⟨tx, verdict'⟩ := call
    simp only [TxQueues.AcceptToMemoryPool, hcalls] at haccept
    split at haccept
    · rename_i htx
      subst htx
      obtain ⟨rfl, rfl⟩ := Prod.mk.inj (Option.some.inj haccept)
      cases verdict' with
      | accepted =>
        left
        obtain ⟨q, hresolve, hlast⟩ := Option.bind_eq_some_iff.mp hrest
        rw [Option.ite_none_right_eq_some, List.isEmpty_iff, Option.some.injEq] at hlast
        rw [hcalls] at hresolve
        exact ⟨calls, q, rfl, hresolve, hlast.1, hlast.2.symm⟩
      | missingInputs =>
        right
        left
        simp only [Option.ite_none_right_eq_some, List.isEmpty_iff, Option.some.injEq] at hrest
        rw [hrest.1]
        exact ⟨rfl, hrest.2.symm⟩
      | invalid =>
        right
        right
        simp only [Option.ite_none_right_eq_some, List.isEmpty_iff, Option.some.injEq] at hrest
        rw [hrest.1]
        exact ⟨rfl, hrest.2.symm⟩
    · cases haccept

/-- At the end of the handler of an accepted transaction, before orphans are erased. -/
theorem resolving_of_accepted {calls : List (CTransaction × Verdict)} {q : TxQueues}
    (hs : s.Linked env) (hcalls : m.calls = (m.tx, .accepted) :: calls)
    (hresolve : (TxQueues.mk s calls [m.tx.GetHash env] [m.tx.GetHash env]).resolve m.nAdjustedTime
      (m.calls.length + 1) 0 = some q) : q.Resolving env s m.calls q.vWorkQueue.length := by
  have hstart : TxQueues.Resolving env s m.calls 0 ⟨s, m.calls, [], []⟩ :=
    ⟨rfl, fun _ _ => Iff.rfl, fun _ hmem => hmem, fun _ h => (List.not_mem_nil h).elim,
      fun _ hmem => .inl hmem, le_rfl, fun _ h => (List.not_mem_nil h).elim, fun htight _ => htight⟩
  exact (hstart.consume hcalls (by rw [if_pos rfl])).resolve hs hresolve

theorem ProcessTx_linked (hs : s.Linked env) (h : ProcessTx env s m = some s') : s'.Linked env := by
  have herase : ∀ (s : OrphanTxs) (hash : uint256), s.Linked env → (s.EraseOrphanTx hash).Linked env :=
    fun s hash hs => hs.EraseOrphanTx hash
  rcases processTx_cases h with ⟨calls, q, hcalls, hresolve, _, rfl⟩ | ⟨_, rfl⟩ | ⟨_, rfl⟩
  · exact OrphanTxs.foldl_EraseOrphanTx herase _
      ((resolving_of_accepted hs hcalls hresolve).linked hs)
  · exact OrphanTxs.evict_invariant herase (hs.AddOrphanTx m.tx)
  · exact hs

/-- The index stays exact if and only if all accepted transactions were waited for. -/
theorem ProcessTx_tight_iff (hs : s.Linked env)
    (htight : KeyIndex.Tight s.mapOrphanTransactionsByPrev) (h : ProcessTx env s m = some s') :
    KeyIndex.Tight s'.mapOrphanTransactionsByPrev ↔ m.Keeps env s := by
  have hs' := ProcessTx_linked hs h
  have herase : ∀ (s : OrphanTxs) (hash : uint256), KeyIndex.Tight s.mapOrphanTransactionsByPrev →
      KeyIndex.Tight (s.EraseOrphanTx hash).mapOrphanTransactionsByPrev :=
    fun s hash hs => OrphanTxs.tight_EraseOrphanTx hs hash
  have hnone : ∀ verdict, verdict ≠ .accepted → m.calls = [(m.tx, verdict)] → m.Keeps env s := by
    intro verdict hverdict hcalls tx htx
    rw [hcalls, List.mem_singleton] at htx
    exact absurd (Prod.mk.inj htx).2.symm hverdict
  rcases processTx_cases h with ⟨calls, q, hcalls, hresolve, hend, rfl⟩ | ⟨hcalls, rfl⟩ | ⟨hcalls, rfl⟩
  · have hq := resolving_of_accepted hs hcalls hresolve
    have hqueue : q.vWorkQueue.take q.vWorkQueue.length = q.vWorkQueue := List.take_length
    constructor
    · intro htight' tx htx
      by_contra hwaits
      have hmem : tx.GetHash env ∈ q.vWorkQueue.take q.vWorkQueue.length := by
        rw [hqueue]
        refine (hq.consumed tx htx).resolve_left ?_
        rw [hend]
        exact List.not_mem_nil
      have hqwaits : ∀ hash, ¬q.orphans.Waits (tx.GetHash env) hash := by
        intro hash hwait
        rw [OrphanTxs.Waits, hq.stored] at hwait
        exact hwaits ⟨hash, hwait⟩
      -- the empty set made for the transaction is still there at the end
      obtain ⟨hfind, hend'⟩ := OrphanTxs.find_foldl_EraseOrphanTx q.vEraseQueue hqwaits
      have hsome := hq.touched _ hmem
      rw [← hfind] at hsome
      obtain ⟨hash, hlists⟩ := (htight'.find_isSome_iff _).mp hsome
      exact hend' hash ((hs'.lists_iff _ _).mp hlists)
    · intro hkeeps
      refine OrphanTxs.foldl_EraseOrphanTx herase _ (hq.tight htight ?_)
      intro hash hmem
      rw [hqueue] at hmem
      obtain ⟨tx, htx, rfl⟩ := hq.accepted hash hmem
      exact hkeeps tx htx
  · exact iff_of_true (OrphanTxs.evict_invariant herase (OrphanTxs.tight_AddOrphanTx htight m.tx))
      (hnone _ (by decide) hcalls)
  · exact iff_of_true htight (hnone _ (by decide) hcalls)

theorem ProcessTx_size (hs : s.Linked env)
    (hsize : s.mapOrphanTransactions.size ≤ MAX_ORPHAN_TRANSACTIONS)
    (h : ProcessTx env s m = some s') :
    s'.mapOrphanTransactions.size ≤ MAX_ORPHAN_TRANSACTIONS := by
  rcases processTx_cases h with ⟨calls, q, hcalls, hresolve, _, rfl⟩ | ⟨_, rfl⟩ | ⟨_, rfl⟩
  · have hq := resolving_of_accepted hs hcalls hresolve
    apply OrphanTxs.foldl_EraseOrphanTx (P := fun s =>
      s.mapOrphanTransactions.size ≤ MAX_ORPHAN_TRANSACTIONS) OrphanTxs.size_EraseOrphanTx
    rwa [hq.stored]
  · exact (OrphanTxs.LimitOrphanTxSize_spec _ _ _).1
  · exact hsize

/-! ## Runs -/

/-- Every message of a run from `s` on keeps the index. -/
def KeepsAll (env : Env) : OrphanTxs → List TxMessage → Prop
  | _, [] => True
  | s, m :: ms => m.Keeps env s ∧ ∀ s', ProcessTx env s m = some s' → KeepsAll env s' ms

/-- The memory that both maps take is bounded by the orphan limit: an input takes at least 41 of the
5000 bytes of an orphan. -/
structure OrphanTxs.Bounded (s : OrphanTxs) : Prop where
  orphans : s.mapOrphanTransactions.size ≤ MAX_ORPHAN_TRANSACTIONS
  entries : s.mapOrphanTransactionsByPrev.size ≤ 121 * MAX_ORPHAN_TRANSACTIONS
  members : (KeyIndex.pairs s.mapOrphanTransactionsByPrev).length ≤ 121 * MAX_ORPHAN_TRANSACTIONS

theorem CTransaction.length_vin_le (h : tx.GetSerializeSize ≤ 5000) : tx.vin.length ≤ 121 := by
  have hinputs : 41 * tx.vin.length ≤ (tx.vin.map CTxIn.GetSerializeSize).sum := by
    induction tx.vin with
    | nil => simp
    | cons txin vin ih =>
      have hbytes : 1 ≤ GetSizeOfCompactSize txin.scriptSig.length := by
        rw [GetSizeOfCompactSize]
        split_ifs <;> omega
      rw [List.map_cons, List.sum_cons, List.length_cons, CTxIn.GetSerializeSize, sizeOfBytes]
      omega
  rw [CTransaction.GetSerializeSize] at h
  omega

theorem OrphanTxs.Linked.bounded (h : s.Linked env)
    (htight : KeyIndex.Tight s.mapOrphanTransactionsByPrev)
    (hsize : s.mapOrphanTransactions.size ≤ MAX_ORPHAN_TRANSACTIONS) : s.Bounded := by
  let inputs := fun e : uint256 × CTransaction => e.2.vin.map fun txin => (txin.prevout.hash, e.1)
  have hlisted : ∀ prev hash, KeyIndex.Lists s.mapOrphanTransactionsByPrev prev hash →
      (prev, hash) ∈ s.mapOrphanTransactions.entries.flatMap inputs := by
    intro prev hash hlists
    obtain ⟨tx, hfind, hmem⟩ := (h.lists_iff prev hash).mp hlists
    obtain ⟨txin, htxin, rfl⟩ := List.mem_map.mp hmem
    exact List.mem_flatMap.mpr ⟨(hash, tx), OrdMap.mem_entries.mpr hfind,
      List.mem_map.mpr ⟨txin, htxin, rfl⟩⟩
  have hinputs : ∀ n ∈ s.mapOrphanTransactions.entries.map fun e => (inputs e).length, n ≤ 121 := by
    intro n hn
    obtain ⟨e, he, rfl⟩ := List.mem_map.mp hn
    rw [List.length_map]
    exact CTransaction.length_vin_le (h.small e.1 e.2 (OrdMap.mem_entries.mp he))
  have hmembers : (KeyIndex.pairs s.mapOrphanTransactionsByPrev).length ≤
      121 * s.mapOrphanTransactions.size := by
    calc _ ≤ (s.mapOrphanTransactions.entries.flatMap inputs).length :=
          KeyIndex.length_pairs_le _ hlisted
      _ = (s.mapOrphanTransactions.entries.map fun e => (inputs e).length).sum :=
          List.length_flatMap
      _ ≤ _ := List.sum_le_card_nsmul _ 121 hinputs
      _ = 121 * s.mapOrphanTransactions.size := by
          rw [List.length_map, nsmul_eq_mul, Nat.cast_id, Nat.mul_comm, OrdMap.size]
  exact ⟨hsize, htight.size_le.trans (hmembers.trans (Nat.mul_le_mul_left 121 hsize)),
    hmembers.trans (Nat.mul_le_mul_left 121 hsize)⟩

theorem orphans_along {ms : List TxMessage} (hs : s.Linked env)
    (htight : KeyIndex.Tight s.mapOrphanTransactionsByPrev)
    (hsize : s.mapOrphanTransactions.size ≤ MAX_ORPHAN_TRANSACTIONS)
    (hrun : ms.foldlM (ProcessTx env) s = some s') (hkeeps : KeepsAll env s ms) :
    s'.Linked env ∧ KeyIndex.Tight s'.mapOrphanTransactionsByPrev ∧
      s'.mapOrphanTransactions.size ≤ MAX_ORPHAN_TRANSACTIONS := by
  induction ms generalizing s with
  | nil =>
    rw [← Option.some.inj hrun]
    exact ⟨hs, htight, hsize⟩
  | cons m ms ih =>
    rw [List.foldlM_cons] at hrun
    obtain ⟨s₁, hfirst, hrest⟩ := Option.bind_eq_some_iff.mp hrun
    exact ih (ProcessTx_linked hs hfirst) ((ProcessTx_tight_iff hs htight hfirst).mpr hkeeps.1)
      (ProcessTx_size hs hsize hfirst) hrest (hkeeps.2 s₁ hfirst)

theorem OrphanTxs.stored_LimitOrphanTxSize (s : OrphanTxs) (rand : ℕ → uint256) (nMaxOrphans : ℕ) :
    ∀ hash tx, (s.LimitOrphanTxSize rand nMaxOrphans).2.mapOrphanTransactions.find hash = some tx →
      s.mapOrphanTransactions.find hash = some tx := by
  refine evict_invariant (P := fun s' => ∀ hash tx, s'.mapOrphanTransactions.find hash = some tx →
    s.mapOrphanTransactions.find hash = some tx) ?_ fun _ _ h => h
  intro s' hash' h hash tx hfind
  rw [EraseOrphanTx] at hfind
  split at hfind
  · exact h hash tx hfind
  · rw [OrdMap.find_erase] at hfind
    split at hfind
    · cases hfind
    · exact h hash tx hfind

/-- As long as every accepted transaction is waited for, the index is exact and both maps are bounded;
and from there every limit evicts just the excess, which again leaves an exact index. -/
theorem orphans_indexed {ms : List TxMessage} {s : OrphanTxs} (hrun : ProcessTxs env ms = some s)
    (hkeeps : KeepsAll env OrphanTxs.empty ms) :
    s.Indexed ∧ s.Bounded ∧ ∀ (rand : ℕ → uint256) (nMaxOrphans : ℕ),
      let (nEvicted, s') := s.LimitOrphanTxSize rand nMaxOrphans
      s'.mapOrphanTransactions.size ≤ nMaxOrphans ∧
        nEvicted = s.mapOrphanTransactions.size - nMaxOrphans ∧
        s'.mapOrphanTransactions.size + nEvicted = s.mapOrphanTransactions.size ∧
        (∀ hash tx, s'.mapOrphanTransactions.find hash = some tx →
          s.mapOrphanTransactions.find hash = some tx) ∧
        s'.Indexed := by
  obtain ⟨hlinked, htight, hsize⟩ := orphans_along OrphanTxs.linked_empty KeyIndex.tight_empty
    (Nat.zero_le _) hrun hkeeps
  refine ⟨hlinked.indexed_iff.mpr htight, hlinked.bounded htight hsize, fun rand nMaxOrphans => ?_⟩
  obtain ⟨hle, hcount, hleft⟩ := s.LimitOrphanTxSize_spec rand nMaxOrphans
  refine ⟨hle, hcount, hleft, s.stored_LimitOrphanTxSize rand nMaxOrphans, ?_⟩
  have hlinked' : (s.LimitOrphanTxSize rand nMaxOrphans).2.Linked env :=
    OrphanTxs.evict_invariant (fun s hash hs => hs.EraseOrphanTx hash) hlinked
  apply hlinked'.indexed_iff.mpr
  exact OrphanTxs.evict_invariant (P := fun s => KeyIndex.Tight s.mapOrphanTransactionsByPrev)
    (fun s hash hs => OrphanTxs.tight_EraseOrphanTx hs hash) htight

namespace Scenario

/-- The message with the given transaction, and what is answered for it and for others. -/
def txMessage (tx : CTransaction) (calls : List (CTransaction × Verdict)) : TxMessage :=
  ⟨tx, calls, fun _ => 0, 0⟩

def parentTx : CTransaction := spending 1 1 [⟨50, 0⟩] [payTo COIN]

/-- It spends two outputs of `parentTx` and one of a transaction that is not known. -/
def orphanTx : CTransaction := spending 2 1 [⟨1, 0⟩, ⟨1, 1⟩, ⟨60, 0⟩] [payTo COIN]

/-- The maps with `orphanTx` alone. -/
def orphanStored : OrphanTxs where
  mapOrphanTransactions := OrdMap.empty.insert 2 orphanTx
  mapOrphanTransactionsByPrev :=
    KeyIndex.add (KeyIndex.add (KeyIndex.add OrdMap.empty 1 2) 1 2) 60 2

end Scenario

open Scenario in
/-- A transaction for which no orphan waits is accepted. -/
theorem orphans_not_indexed :
    ¬∀ s, ProcessTxs (timed testNet) [txMessage parentTx [(parentTx, .accepted)]] = some s →
      s.Indexed := by
  intro h
  have hindexed := h ⟨OrdMap.empty, OrdMap.empty.insert 1 OrdMap.empty⟩ rfl
  obtain ⟨hash, tx, hfind, _⟩ := (hindexed.entry_iff 1).mp rfl
  cases hfind

open Scenario in
/-- The orphan arrives, then its parent, for which it waits; another input is still missing. -/
theorem orphans_indexed_orphanStored : orphanStored.Indexed ∧ orphanStored.Bounded := by
  have h := @orphans_indexed (timed testNet)
    [txMessage orphanTx [(orphanTx, .missingInputs)],
      txMessage parentTx [(parentTx, .accepted), (orphanTx, .missingInputs)]] orphanStored rfl ?_
  · exact ⟨h.1, h.2.1⟩
  · refine ⟨fun tx htx => ?_, fun s' hs' => ⟨fun tx htx => ?_, fun _ _ => trivial⟩⟩
    · simp [txMessage] at htx
    · have hstored : s' = orphanStored := Option.some.inj (hs'.symm.trans rfl)
      have hparent : tx = parentTx := by simpa [txMessage] using htx
      rw [hstored, hparent]
      exact ⟨2, orphanTx, rfl, by decide⟩

end Dions
