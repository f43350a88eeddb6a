import Dions.Model.Miner
import Dions.Verification.Mempool.Bookkeeping

/-! # The order in which transactions are taken

Every transaction of the pool that a block could hold comes to the front of the queue once, behind
the transactions it depends on, or it waits for one that did not get into the block. -/

namespace Dions

open Halting

variable {tx : CTransaction} {pindexPrev : CBlockIndex}
variable {i nCoinbaseTime : ℕ} {isDone : uint256 → Prop} {keeps : ℕ → uint256 → Prop}
  {hash : uint256} {fProofOfStake : Bool}

/-! ## What waits -/

theorem filterMap_set_perm {α β : Type} (f : α → Option β) {xs : List α} {i : ℕ} {x : α}
    (h : xs[i]? = some x) (y : α) :
    ((f x).toList ++ (xs.set i y).filterMap f).Perm ((f y).toList ++ xs.filterMap f) := by
  have hcons : ∀ (z : α) (zs : List α), (z :: zs).filterMap f = (f z).toList ++ zs.filterMap f := by
    intro z zs
    cases hz : f z with
    | none => simp [hz]
    | some b => simp [hz]
  induction xs generalizing i with
  | nil => simp at h
  | cons z zs ih =>
    cases i with
    | zero =>
      rw [List.getElem?_cons_zero, Option.some.injEq] at h
      rw [List.set_cons_zero, hcons, hcons, h, ← List.append_assoc, ← List.append_assoc]
      exact List.perm_append_comm.append_right _
    | succ i =>
      rw [List.getElem?_cons_succ] at h
      rw [List.set_cons_succ, hcons, hcons]
      refine (List.perm_append_comm_assoc _ _ _).trans ?_
      exact ((ih h).append_left _).trans (List.perm_append_comm_assoc _ _ _)

section Waiting

variable {F : Type}

/-- The transaction of an element that still depends on others. -/
def waits (slot : Option (COrphan F)) : Option CTransaction :=
  slot.bind fun porphan => if porphan.setDependsOn = ∅ then none else some porphan.ptx

theorem waits_some_iff {slot : Option (COrphan F)} :
    waits slot = some tx ↔ ∃ porphan, slot = some porphan ∧ porphan.setDependsOn.Nonempty ∧
      porphan.ptx = tx := by
  cases slot with
  | none => simp [waits]
  | some porphan => simp [waits, Finset.nonempty_iff_ne_empty]

def Dependers.txs (w : Dependers F) : List CTransaction := w.vOrphan.filterMap waits

theorem Dependers.deref_eq_ok {w : Dependers F} {porphan : COrphan F} :
    w.deref i = .ok porphan ↔ w.vOrphan[i]? = some (some porphan) := by
  unfold Dependers.deref
  split
  · rename_i o ho
    simp [ho]
  · rename_i hnone
    simp only [reduceCtorEq, false_iff]
    exact hnone porphan

theorem Dependers.txs_assign {w : Dependers F} {porphan : COrphan F} (h : w.deref i = .ok porphan)
    (left : COrphan F) :
    ((waits (some porphan)).toList ++ (w.assign i left).txs).Perm
      ((waits (some left)).toList ++ w.txs) :=
  filterMap_set_perm waits (Dependers.deref_eq_ok.mp h) (some left)

/-- Everything that is still to come to the front of the queue. -/
def TxQueue.txs (c : TxQueue F) : List CTransaction :=
  c.vecPriority.map TxPriority.tx ++ c.waiting.txs

end Waiting

/-! ## The first loop -/

section FirstLoop

variable {env : Env} {F : Type} {io : Io} {node : Node}

/-- The transaction that the input spends can be read from disk. -/
def onDisk (io : Io) (node : Node) (txin : CTxIn) : Bool :=
  (CTransaction.ReadFromDisk (io.visible node.files) node.txdb.txindex txin.prevout).isSome

/-- The transactions that a block at the height could hold, with inputs on disk or in the pool. -/
def collectible (io : Io) (node : Node) (nHeight : ℤ) (tx : CTransaction) : Bool :=
  isCandidate io node nHeight tx && tx.vin.all fun txin =>
    onDisk io node txin || node.mempool.exists_ txin.prevout.hash

/-- What an element says of the transactions it waits for: those of its inputs that are neither on
disk nor done. `keeps` names the entries that are on their way out. -/
structure Element (node : Node) (onDisk : CTxIn → Bool) (isDone : uint256 → Prop)
    (keeps : ℕ → uint256 → Prop) (mapDependers : uint256 → List ℕ) (i : ℕ)
    (porphan : COrphan F) : Prop where
  supplied : ∀ txin ∈ porphan.ptx.vin,
    onDisk txin = true ∨ txin.prevout.hash ∈ porphan.setDependsOn ∨ isDone txin.prevout.hash
  linked : ∀ h ∈ porphan.setDependsOn, i ∈ mapDependers h ∧ node.mempool.exists_ h = true ∧
    (∃ txin ∈ porphan.ptx.vin, txin.prevout.hash = h) ∧ (isDone h → keeps i h)

def Linked (node : Node) (onDisk : CTxIn → Bool) (isDone : uint256 → Prop)
    (keeps : ℕ → uint256 → Prop) (w : Dependers F) : Prop :=
  ∀ (i : ℕ) porphan, w.vOrphan[i]? = some (some porphan) →
    Element node onDisk isDone keeps w.mapDependers i porphan

theorem Linked.mono {D : CTxIn → Bool} {w w' : Dependers F} (h : Linked node D isDone keeps w)
    (hkept : ∀ h, w.mapDependers h ⊆ w'.mapDependers h) (hlist : w'.vOrphan = w.vOrphan) :
    Linked node D isDone keeps w' := by
  intro i porphan hat
  have hold := h i porphan (hlist ▸ hat)
  refine ⟨hold.supplied, fun k hk => ?_⟩
  obtain ⟨hmem, hrest⟩ := hold.linked k hk
  exact ⟨hkept k hmem, hrest⟩

theorem Linked.append {D : CTxIn → Bool} {w w' : Dependers F} {slot : Option (COrphan F)}
    (h : Linked node D isDone keeps w) (hkept : ∀ h, w.mapDependers h ⊆ w'.mapDependers h)
    (hlist : w'.vOrphan = w.vOrphan ++ [slot]) (hnew : ∀ porphan, slot = some porphan →
      Element node D isDone keeps w'.mapDependers w.vOrphan.length porphan) :
    Linked node D isDone keeps w' := by
  intro i porphan hat
  rw [hlist] at hat
  by_cases hi : i < w.vOrphan.length
  · rw [List.getElem?_append_left hi] at hat
    have hold := h i porphan hat
    refine ⟨hold.supplied, fun k hk => ?_⟩
    obtain ⟨hmem, hrest⟩ := hold.linked k hk
    exact ⟨hkept k hmem, hrest⟩
  · rw [List.getElem?_append_right (Nat.le_of_not_lt hi)] at hat
    have hzero : i - w.vOrphan.length = 0 := by
      have hlt := (List.getElem?_eq_some_iff.mp hat).1
      rw [List.length_singleton] at hlt
      omega
    rw [hzero, List.getElem?_cons_zero, Option.some.injEq] at hat
    have hend : i = w.vOrphan.length := by omega
    rw [hend]
    exact hnew porphan hat

/-- The element that the loop over the inputs makes for a transaction, after some of the inputs. -/
structure Registered (node : Node) (w : Dependers F) (tx : CTransaction) (n : ℕ)
    (porphan : COrphan F) : Prop where
  ptx : porphan.ptx = tx
  nonempty : porphan.setDependsOn.Nonempty
  linked : ∀ h ∈ porphan.setDependsOn, n ∈ w.mapDependers h ∧ node.mempool.exists_ h = true ∧
    ∃ txin ∈ tx.vin, txin.prevout.hash = h

/-- The loop over the inputs, after `past`: a new element exists from the first input on that is not
on disk. -/
structure ScannedInputs (io : Io) (node : Node) (w : Dependers F) (tx : CTransaction)
    (past : List CTxIn) (s : InputScan F) : Prop where
  kept : ∀ h, w.mapDependers h ⊆ s.waiting.mapDependers h
  progress : (s.porphan = none ∧ s.waiting.vOrphan = w.vOrphan ∧
      ∀ txin ∈ past, onDisk io node txin = true) ∨
    ∃ porphan, s.porphan = some w.vOrphan.length ∧
      s.waiting.vOrphan = w.vOrphan ++ [some porphan] ∧
      Registered node s.waiting tx w.vOrphan.length porphan ∧
      ∀ txin ∈ past, onDisk io node txin = true ∨ txin.prevout.hash ∈ porphan.setDependsOn

theorem ScannedInputs.onDisk {w : Dependers F} {past : List CTxIn} {s s' : InputScan F}
    (h : ScannedInputs io node w tx past s) {txin : CTxIn} (hdisk : onDisk io node txin = true)
    (hwaiting : s'.waiting = s.waiting) (hporphan : s'.porphan = s.porphan) :
    ScannedInputs io node w tx (past ++ [txin]) s' := by
  constructor
  · rw [hwaiting]
    exact h.kept
  · rw [hwaiting, hporphan]
    rcases h.progress with ⟨hnone, heq, hpast⟩ | ⟨porphan, hsome, heq, hreg, hpast⟩
    · refine Or.inl ⟨hnone, heq, fun txin' hmem => ?_⟩
      rcases List.mem_append.mp hmem with hmem | hmem
      · exact hpast txin' hmem
      · rwa [List.mem_singleton.mp hmem]
    · refine Or.inr ⟨porphan, hsome, heq, hreg, fun txin' hmem => ?_⟩
      rcases List.mem_append.mp hmem with hmem | hmem
      · exact hpast txin' hmem
      · exact Or.inl (by rwa [List.mem_singleton.mp hmem])

/-- An input of a transaction of the pool adds its hash to the element. -/
theorem ScannedInputs.waitFor [IntCast F] {w : Dependers F} {tx : CTransaction} {past : List CTxIn}
    {s s' : InputScan F} (h : ScannedInputs io node w tx past s) {txin : CTxIn} (hin :
      txin ∈ tx.vin)
    (hpool : node.mempool.exists_ txin.prevout.hash = true)
    (hwait : s.waitFor tx txin.prevout.hash = .ok s') :
    ScannedInputs io node w tx (past ++ [txin]) s' := by
  -- the element before the insertion, whether it is new or not
  obtain ⟨waiting, porphan, hs', hkept, hlist, hptx, hlinked, hpast⟩ :
      ∃ (waiting : Dependers F) (porphan : COrphan F),
        s' = { s with
          waiting :=
            { waiting.assign w.vOrphan.length
                { porphan with
                  setDependsOn := insert txin.prevout.hash porphan.setDependsOn } with
              mapDependers := Function.update waiting.mapDependers txin.prevout.hash
                (waiting.mapDependers txin.prevout.hash ++ [w.vOrphan.length]) }
          porphan := some w.vOrphan.length } ∧
        (∀ h, w.mapDependers h ⊆ waiting.mapDependers h) ∧
        waiting.vOrphan = w.vOrphan ++ [some porphan] ∧ porphan.ptx = tx ∧
        (∀ h ∈ porphan.setDependsOn, w.vOrphan.length ∈ waiting.mapDependers h ∧
          node.mempool.exists_ h = true ∧ ∃ txin ∈ tx.vin, txin.prevout.hash = h) ∧
        ∀ txin ∈ past, Dions.onDisk io node txin = true ∨
          txin.prevout.hash ∈ porphan.setDependsOn := by
    have hkept := h.kept
    rcases h.progress with ⟨hnone, heq, hpast⟩ | ⟨porphan, hsome, heq, hreg, hpast⟩
    · simp only [InputScan.waitFor, hnone, seq_ok, Dependers.deref_eq_ok, Except.ok.injEq,
        Dependers.push_back, heq] at hwait
      obtain ⟨porphan, hat, rfl⟩ := hwait
      rw [List.getElem?_concat_length, Option.some.injEq, Option.some.injEq] at hat
      subst hat
      exact ⟨_, _, rfl, hkept, rfl, rfl, by simp, fun txin hmem => Or.inl (hpast txin hmem)⟩
    · simp only [InputScan.waitFor, hsome, seq_ok, Dependers.deref_eq_ok, Except.ok.injEq,
        heq] at hwait
      obtain ⟨porphan', hat, rfl⟩ := hwait
      rw [List.getElem?_concat_length, Option.some.injEq, Option.some.injEq] at hat
      subst hat
      exact ⟨_, _, rfl, hkept, heq, hreg.ptx, hreg.linked, hpast⟩
  subst hs'
  constructor
  · intro h
    by_cases hh : h = txin.prevout.hash
    · subst hh
      exact fun i hi => by
        simpa using Or.inl (hkept _ hi)
    · simpa [Function.update_of_ne hh] using hkept h
  · refine Or.inr ⟨{ porphan with
      setDependsOn := insert txin.prevout.hash porphan.setDependsOn }, rfl, ?_,
        ⟨hptx, Finset.insert_nonempty _ _, ?_⟩, ?_⟩
    · simp [Dependers.assign, hlist]
    · intro h hmem
      rcases Finset.mem_insert.mp hmem with rfl | hmem
      · exact ⟨by simp, hpool, txin, hin, rfl⟩
      · obtain ⟨hat, hex, hwit⟩ := hlinked h hmem
        refine ⟨?_, hex, hwit⟩
        by_cases hh : h = txin.prevout.hash
        · subst hh
          simp
        · simpa [Function.update_of_ne hh] using hat
    · intro txin' hmem
      rcases List.mem_append.mp hmem with hmem | hmem
      · exact (hpast txin' hmem).imp id (Finset.mem_insert_of_mem ·)
      · rw [List.mem_singleton.mp hmem]
        exact Or.inr (Finset.mem_insert_self _ _)

/-- How the loop over the inputs ends: with all of them scanned, or with one that is neither on disk
nor in the pool. -/
inductive ScanEnds (io : Io) (node : Node) (w : Dependers F) (tx : CTransaction) (vin : List CTxIn)
    (s : InputScan F) : Prop
  | scanned (hfound : s.fMissingInputs = false) (hs : ScannedInputs io node w tx tx.vin s)
      (hall : ∀ txin ∈ vin,
        (onDisk io node txin || node.mempool.exists_ txin.prevout.hash) = true)
  | missing (hmissing : s.fMissingInputs = true)
      (hkept : ∀ h, w.mapDependers h ⊆ s.waiting.mapDependers h)
      (hlist : s.waiting.vOrphan = w.vOrphan ∨ s.waiting.vOrphan = w.vOrphan ++ [none])
      (hone : ∃ txin ∈ vin,
        (onDisk io node txin || node.mempool.exists_ txin.prevout.hash) = false)

theorem ScanEnds.cons {w : Dependers F} {tx : CTransaction} {txin : CTxIn} {vin : List CTxIn}
    {s : InputScan F} (h : ScanEnds io node w tx vin s)
    (hthis : (onDisk io node txin || node.mempool.exists_ txin.prevout.hash) = true) :
    ScanEnds io node w tx (txin :: vin) s := by
  cases h with
  | scanned hfound hs hall => exact .scanned hfound hs (List.forall_mem_cons.mpr ⟨hthis, hall⟩)
  | missing hmissing hkept hlist hone =>
    obtain ⟨txin', hmem, hno⟩ := hone
    exact .missing hmissing hkept hlist ⟨txin', List.mem_cons_of_mem _ hmem, hno⟩

variable [Add F] [Mul F] [IntCast F]

theorem scanInputs_ends {w : Dependers F} {past vin : List CTxIn} {s s' : InputScan F}
    (hvin : past ++ vin = tx.vin) (hs : ScannedInputs io node w tx past s)
    (hfound : s.fMissingInputs = false)
    (h : scanInputs env (io.visible node.files) node tx vin s = .ok s') :
    ScanEnds io node w tx vin s' := by
  induction vin generalizing past s with
  | nil =>
    rw [scanInputs, Except.ok.injEq] at h
    rw [List.append_nil] at hvin
    subst h hvin
    exact .scanned hfound hs (by simp)
  | cons txin vin ih =>
    have hin : txin ∈ tx.vin := hvin ▸ List.mem_append_right _ List.mem_cons_self
    have hnext : past ++ [txin] ++ vin = tx.vin := by
      rw [List.append_assoc]
      exact hvin
    simp only [scanInputs] at h
    split at h
    · rename_i txindex txPrev hread
      have hdisk : onDisk io node txin = true := by simp [onDisk, hread]
      simp only [seq_ok] at h
      obtain ⟨txout, -, hrest⟩ := h
      refine (ih hnext ?_ ?_ hrest).cons (by rw [hdisk, Bool.true_or])
      · exact hs.onDisk hdisk rfl rfl
      · exact hfound
    · rename_i hread
      split at h
      · rename_i hpool
        rw [Except.ok.injEq] at h
        subst h
        refine .missing rfl ?_ ?_ ⟨txin, List.mem_cons_self, by
          simp [onDisk, hread, CTxMemPool.exists_, hpool]⟩
        · intro hash
          dsimp only
          split_ifs
          · exact hs.kept hash
          · exact hs.kept hash
        · rcases hs.progress with ⟨hnone, heq, -⟩ | ⟨porphan, hsome, heq, -, -⟩
          · simp [hnone, heq]
          · simp [hsome, Dependers.pop_back, heq]
      · rename_i txPrev hpool
        have hex : node.mempool.exists_ txin.prevout.hash = true := by
          simp [CTxMemPool.exists_, hpool]
        simp only [seq_ok] at h
        obtain ⟨s₁, hwait, txout, -, hrest⟩ := h
        have hfound₁ : s₁.fMissingInputs = false := by
          simp only [InputScan.waitFor, seq_ok, Except.ok.injEq] at hwait
          obtain ⟨porphan, -, rfl⟩ := hwait
          exact hfound
        have hs₁ := hs.waitFor hin hex hwait
        refine (ih hnext ?_ ?_ hrest).cons (by rw [hex, Bool.or_true])
        · exact ⟨hs₁.kept, hs₁.progress⟩
        · exact hfound₁

variable [Div F]

/-- What the first loop keeps: the transactions of the queue have their inputs on disk, and those
that wait are linked. -/
structure Gathered (io : Io) (node : Node) (c : TxQueue F) : Prop where
  queued : ∀ p ∈ c.vecPriority, ∀ txin ∈ p.tx.vin, onDisk io node txin = true
  linked : Linked node (onDisk io node) (fun _ => False) (fun _ _ => False) c.waiting

theorem addCandidate_ok {nHeight : ℤ} {c c' : TxQueue F} (hc : Gathered io node c)
    (h : addCandidate env io node nHeight c tx = .ok c') :
    Gathered io node c' ∧
      c'.txs.Perm (c.txs ++ if collectible io node nHeight tx then [tx] else []) := by
  rw [addCandidate] at h
  by_cases hcandidate : isCandidate io node nHeight tx = false
  · rw [if_pos hcandidate, Except.ok.injEq] at h
    subst h
    exact ⟨hc, by simp [collectible, hcandidate]⟩
  rw [if_neg hcandidate] at h
  rw [Bool.not_eq_false] at hcandidate
  simp only [seq_ok] at h
  obtain ⟨s, hscan, h⟩ := h
  have hstart : ScannedInputs io node c.waiting tx []
      (⟨c.waiting, none, ((0 : ℤ) : F), 0, false⟩ : InputScan F) :=
    ⟨fun _ _ hmem => hmem, Or.inl ⟨rfl, rfl, by simp⟩⟩
  cases scanInputs_ends rfl hstart rfl hscan with
  | missing hmissing hkept hlist hone =>
    rw [if_pos hmissing, Except.ok.injEq] at h
    subst h
    have hno : collectible io node nHeight tx = false := by
      obtain ⟨txin, hmem, hnot⟩ := hone
      have hall : (tx.vin.all fun txin =>
          onDisk io node txin || node.mempool.exists_ txin.prevout.hash) = false := by
        rw [List.all_eq_false]
        exact ⟨txin, hmem, by rw [hnot]; exact Bool.false_ne_true⟩
      rw [collectible, hall, Bool.and_false]
    refine ⟨⟨hc.queued, ?_⟩, ?_⟩
    · rcases hlist with heq | heq
      · exact hc.linked.mono hkept heq
      · exact hc.linked.append hkept heq (by simp)
    · rw [hno]
      have htxs : s.waiting.txs = c.waiting.txs := by
        rcases hlist with heq | heq
        · simp [Dependers.txs, heq]
        · simp [Dependers.txs, heq, waits]
      simp [TxQueue.txs, htxs]
  | scanned hfound hs hall =>
    have hyes : collectible io node nHeight tx = true := by
      rw [collectible, hcandidate, Bool.true_and, List.all_eq_true]
      exact hall
    rw [if_neg (by simp [hfound])] at h
    simp only [seq_ok] at h
    obtain ⟨nValueOut, -, h⟩ := h
    rw [hyes, if_pos rfl]
    rcases hs.progress with ⟨hnone, heq, hdisk⟩ | ⟨porphan, hsome, heq, hreg, hdisk⟩
    · rw [hnone] at h
      simp only [Except.ok.injEq] at h
      subst h
      refine ⟨⟨?_, hc.linked.mono hs.kept heq⟩, ?_⟩
      · intro p hp
        rcases List.mem_append.mp hp with hp | hp
        · exact hc.queued p hp
        · rw [List.mem_singleton.mp hp]
          exact hdisk
      · simp only [TxQueue.txs, Dependers.txs, heq, List.map_append, List.map_cons, List.map_nil,
          List.append_assoc]
        exact List.Perm.append_left _ List.perm_append_comm
    · rw [hsome] at h
      simp only [seq_ok, Dependers.deref_eq_ok, Except.ok.injEq, heq] at h
      obtain ⟨porphan', hat, rfl⟩ := h
      rw [List.getElem?_concat_length, Option.some.injEq, Option.some.injEq] at hat
      subst hat
      -- the priorities do not matter here
      have hassigned : ∀ a b : F, Gathered io node
          ⟨s.waiting.assign c.waiting.vOrphan.length
            { porphan with dPriority := a, dFeePerKb := b }, c.vecPriority⟩ ∧
          (s.waiting.assign c.waiting.vOrphan.length
            { porphan with dPriority := a, dFeePerKb := b }).txs = c.waiting.txs ++ [tx] := by
        intro a b
        have hlist : (s.waiting.assign c.waiting.vOrphan.length
            { porphan with dPriority := a, dFeePerKb := b }).vOrphan =
              c.waiting.vOrphan ++ [some { porphan with dPriority := a, dFeePerKb := b }] := by
          simp [Dependers.assign, heq]
        have hwaits : waits (some { porphan with dPriority := a, dFeePerKb := b }) = some tx :=
          waits_some_iff.mpr ⟨_, rfl, hreg.nonempty, hreg.ptx⟩
        refine ⟨⟨hc.queued, hc.linked.append hs.kept hlist ?_⟩, ?_⟩
        · intro porphan' hsame
          rw [Option.some.injEq] at hsame
          subst hsame
          refine ⟨fun txin htxin => ?_, fun k hk => ?_⟩
          · exact (hdisk txin (hreg.ptx ▸ htxin)).imp id Or.inl
          · obtain ⟨hmem, hex, hin⟩ := hreg.linked k hk
            exact ⟨hmem, hex, hreg.ptx ▸ hin, False.elim⟩
        · rw [Dependers.txs, hlist, List.filterMap_append, List.filterMap_cons_some hwaits]
          rfl
      obtain ⟨hgathered, htxs⟩ := hassigned (s.dPriority / ((tx.GetSerializeSize : ℤ) : F))
        (((int64 (s.nTotalIn - nValueOut) : ℤ) : F) /
          (((tx.GetSerializeSize : ℤ) : F) / ((1000 : ℤ) : F)))
      refine ⟨hgathered, ?_⟩
      rw [TxQueue.txs, TxQueue.txs, htxs, List.append_assoc]

theorem addCandidates_ok {nHeight : ℤ} {txs : List CTransaction} {c c' : TxQueue F}
    (hc : Gathered io node c) (h : txs.foldlM (addCandidate env io node nHeight) c = .ok c') :
    Gathered io node c' ∧
      c'.txs.Perm (c.txs ++ txs.filter (collectible io node nHeight)) := by
  induction txs generalizing c with
  | nil =>
    rw [List.foldlM_nil] at h
    obtain rfl : c = c' := Except.ok.inj h
    exact ⟨hc, by simp⟩
  | cons tx txs ih =>
    rw [List.foldlM_cons] at h
    obtain ⟨c₁, hone, hrest⟩ := seq_ok.mp h
    obtain ⟨hc₁, hperm₁⟩ := addCandidate_ok hc hone
    obtain ⟨hc', hperm⟩ := ih hc₁ hrest
    refine ⟨hc', hperm.trans ?_⟩
    have hfilter : (tx :: txs).filter (collectible io node nHeight) =
        (if collectible io node nHeight tx then [tx] else []) ++
          txs.filter (collectible io node nHeight) := by
      rw [List.filter_cons]
      split
      · rfl
      · rfl
    rw [hfilter, ← List.append_assoc]
    exact hperm₁.append_right _

end FirstLoop

/-! ## The second loop -/

section SecondLoop

variable {env : Env} {F : Type} {io : Io} {node : Node}

def Made (env : Env) (txs : List CTransaction) (hash : uint256) : Prop :=
  ∃ tx ∈ txs, tx.GetHash env = hash

theorem made_append {txs : List CTransaction} :
    Made env (txs ++ [tx]) hash ↔ Made env txs hash ∨ tx.GetHash env = hash := by
  simp [Made, or_and_right, exists_or]

/-- What the second loop keeps: the transactions of the queue find their inputs on disk or in the
block, and those that wait are linked. -/
structure Collecting (env : Env) (io : Io) (node : Node) (keeps : ℕ → uint256 → Prop)
    (s : Collected F) : Prop where
  queued : ∀ p ∈ s.vecPriority, ∀ txin ∈ p.tx.vin,
    onDisk io node txin = true ∨ Made env s.vtx txin.prevout.hash
  linked : Linked node (onDisk io node) (Made env s.vtx) keeps s.waiting

/-- The entries of a transaction that are on their way out while `left` is still to be visited. -/
def leaving (hash : uint256) (left : List ℕ) : ℕ → uint256 → Prop := fun i h =>
  h = hash ∧ i ∈ left

/-- One visit: the entry of the hash is gone, and a transaction without further entries moves to the
queue. -/
theorem releaseOrphan_ok {left : List ℕ} {s s' : Collected F}
    (hs : Collecting env io node (leaving hash (i :: left)) s) (hmade : Made env s.vtx hash)
    (h : s.releaseOrphan hash i = .ok s') :
    Collecting env io node (leaving hash left) s' ∧ s'.txs.Perm s.txs ∧
      s' = { s with toTxQueue := s'.toTxQueue } := by
  simp only [Collected.releaseOrphan, seq_ok] at h
  obtain ⟨porphan, hderef, h⟩ := h
  have hat := Dependers.deref_eq_ok.mp hderef
  have hold := hs.linked i porphan hat
  have hlt : i < s.waiting.vOrphan.length := (List.getElem?_eq_some_iff.mp hat).1
  by_cases hempty : porphan.setDependsOn = ∅
  · rw [if_pos hempty, Except.ok.injEq] at h
    subst h
    refine ⟨⟨hs.queued, fun j porphan' hat' => ?_⟩, .refl _, rfl⟩
    have hel := hs.linked j porphan' hat'
    refine ⟨hel.supplied, fun k hk => ?_⟩
    obtain ⟨hmem, hex, hin, hkeeps⟩ := hel.linked k hk
    refine ⟨hmem, hex, hin, fun hdone => ?_⟩
    obtain ⟨hsame, hj⟩ := hkeeps hdone
    rcases List.mem_cons.mp hj with rfl | hj
    · rw [hat, Option.some.injEq, Option.some.injEq] at hat'
      rw [← hat', hempty] at hk
      exact absurd hk (Finset.notMem_empty k)
    · exact ⟨hsame, hj⟩
  · rw [if_neg hempty, Except.ok.injEq] at h
    generalize hrest : porphan.setDependsOn.erase hash = rest at h
    have hnew : ∀ txin ∈ porphan.ptx.vin, onDisk io node txin = true ∨
        txin.prevout.hash ∈ rest ∨ Made env s.vtx txin.prevout.hash := by
      intro txin htxin
      rcases hold.supplied txin htxin with hdisk | hmem | hdone
      · exact Or.inl hdisk
      · by_cases hsame : txin.prevout.hash = hash
        · exact Or.inr (Or.inr (hsame ▸ hmade))
        · exact Or.inr (Or.inl (hrest ▸ Finset.mem_erase.mpr ⟨hsame, hmem⟩))
      · exact Or.inr (Or.inr hdone)
    have hlinked : Linked node (onDisk io node) (Made env s.vtx) (leaving hash left)
        (s.waiting.assign i { porphan with setDependsOn := rest }) := by
      intro j porphan' hat'
      by_cases hj : j = i
      · subst hj
        rw [Dependers.assign, List.getElem?_set_self hlt, Option.some.injEq,
          Option.some.injEq] at hat'
        subst hat'
        refine ⟨hnew, fun k hk => ?_⟩
        obtain ⟨hne, hk⟩ := Finset.mem_erase.mp (hrest ▸ hk)
        obtain ⟨hmem, hex, hin, hkeeps⟩ := hold.linked k hk
        exact ⟨hmem, hex, hin, fun hdone => absurd (hkeeps hdone).1 hne⟩
      · rw [Dependers.assign, List.getElem?_set_ne (Ne.symm hj)] at hat'
        have hel := hs.linked j porphan' hat'
        refine ⟨hel.supplied, fun k hk => ?_⟩
        obtain ⟨hmem, hex, hin, hkeeps⟩ := hel.linked k hk
        refine ⟨hmem, hex, hin, fun hdone => ?_⟩
        obtain ⟨hsame, hin'⟩ := hkeeps hdone
        exact ⟨hsame, (List.mem_cons.mp hin').resolve_left hj⟩
    have hwaits : waits (some porphan) = some porphan.ptx :=
      waits_some_iff.mpr ⟨porphan, rfl, Finset.nonempty_iff_ne_empty.mpr hempty, rfl⟩
    have hperm := Dependers.txs_assign hderef { porphan with setDependsOn := rest }
    rw [hwaits] at hperm
    subst h
    by_cases hlast : rest = ∅
    · have hgone : waits (some { porphan with setDependsOn := rest }) = none := by
        simp [waits, hlast]
      rw [hgone] at hperm
      refine ⟨⟨fun p hp => ?_, hlinked⟩, ?_, rfl⟩
      · simp only [if_pos hlast] at hp
        rcases List.mem_append.mp hp with hp | hp
        · exact hs.queued p hp
        · rw [List.mem_singleton.mp hp]
          intro txin htxin
          rcases hnew txin htxin with hdisk | hmem | hdone
          · exact Or.inl hdisk
          · rw [hlast] at hmem
            exact absurd hmem (Finset.notMem_empty _)
          · exact Or.inr hdone
      · simp only [TxQueue.txs, if_pos hlast, List.map_append, List.append_assoc]
        exact hperm.append_left _
    · have hstays : waits (some { porphan with setDependsOn := rest }) = some porphan.ptx :=
        waits_some_iff.mpr ⟨_, rfl, Finset.nonempty_iff_ne_empty.mpr hlast, rfl⟩
      rw [hstays] at hperm
      refine ⟨⟨fun p hp => ?_, hlinked⟩, ?_, rfl⟩
      · simp only [if_neg hlast] at hp
        exact hs.queued p hp
      · simp only [TxQueue.txs, if_neg hlast]
        exact ((List.perm_cons _).mp hperm).append_left _

theorem releaseOrphans_ok {left : List ℕ} {s s' : Collected F}
    (hs : Collecting env io node (leaving hash left) s) (hmade : Made env s.vtx hash)
    (h : left.foldlM (fun (s : Collected F) i => s.releaseOrphan hash i) s = .ok s') :
    Collecting env io node (fun _ _ => False) s' ∧ s'.txs.Perm s.txs ∧
      s' = { s with toTxQueue := s'.toTxQueue } := by
  induction left generalizing s with
  | nil =>
    rw [List.foldlM_nil] at h
    obtain rfl : s = s' := Except.ok.inj h
    refine ⟨⟨hs.queued, fun i porphan hat => ?_⟩, .refl _, rfl⟩
    have hel := hs.linked i porphan hat
    refine ⟨hel.supplied, fun k hk => ?_⟩
    obtain ⟨hmem, hex, hin, hkeeps⟩ := hel.linked k hk
    exact ⟨hmem, hex, hin, fun hdone => List.not_mem_nil (hkeeps hdone).2⟩
  | cons i left ih =>
    rw [List.foldlM_cons] at h
    obtain ⟨s₁, hone, hrest⟩ := seq_ok.mp h
    obtain ⟨hs₁, hperm₁, heq₁⟩ := releaseOrphan_ok hs hmade hone
    have hvtx : s₁.vtx = s.vtx := by rw [heq₁]
    obtain ⟨hs', hperm, heq⟩ := ih hs₁ (hvtx ▸ hmade) hrest
    refine ⟨hs', hperm.trans hperm₁, ?_⟩
    rw [heq, heq₁]

/-- A transaction that passes the checks behind the limits, and what they leave. -/
structure Joins (env : Env) (io : Io) (node : Node) (pindexPrev : CBlockIndex) (s : Collected F)
    (tx : CTransaction) (inputs : MapPrevTx) (nValueIn nValueOut : ℤ) (nP2SH : ℕ)
    (mapTestPool : TxIndexMap) (g : Globals) : Prop where
  fetched : tx.FetchInputs (node.view io).files (node.view io).mempool node.txdb.txindex
    s.mapTestPool false true = .ok inputs
  valueIn : tx.GetValueIn inputs = .ok nValueIn
  valueOut : tx.GetValueOut = .ok nValueOut
  fee : tx.GetMinFee s.nBlockSize .GMF_BLOCK 0 ≤ int64 (nValueIn - nValueOut)
  p2sh : tx.GetP2SHSigOpCount inputs = .ok nP2SH
  sigOps : s.nBlockSigOps + (tx.GetLegacySigOpCount + nP2SH) < MAX_BLOCK_SIGOPS
  connected : tx.ConnectInputs env (node.view io) s.g inputs s.mapTestPool CDiskTxPos.memory
    (some pindexPrev) false true MANDATORY_SCRIPT_VERIFY_FLAGS = .ok (mapTestPool, g)

/-- What `connect` can do: nothing but change the globals, or add the transaction and release what
depends on it. -/
theorem connect_cases {s s' : Collected F} (h : s.connect env io node pindexPrev tx = .ok s') :
    (∃ g, s' = { s with g := g }) ∨
      ∃ inputs nValueIn nValueOut nP2SH mapTestPool g,
        Joins env io node pindexPrev s tx inputs nValueIn nValueOut nP2SH mapTestPool g ∧
        (s.waiting.mapDependers (tx.GetHash env)).foldlM
            (fun (s : Collected F) i => s.releaseOrphan (tx.GetHash env) i)
            (s.add env tx (tx.GetLegacySigOpCount + nP2SH) (int64 (nValueIn - nValueOut))
              mapTestPool g) = .ok s' := by
  simp only [Collected.connect] at h
  split at h
  · rw [Except.ok.injEq] at h
    exact Or.inl ⟨s.g, h.symm⟩
  rename_i inputs hfetch
  simp only [seq_ok, within_eq_ok] at h
  obtain ⟨nValueIn, hin, nValueOut, hout, h⟩ := h
  split at h
  · rw [Except.ok.injEq] at h
    exact Or.inl ⟨s.g, h.symm⟩
  rename_i hfee
  simp only [seq_ok, within_eq_ok] at h
  obtain ⟨nP2SH, hp2sh, h⟩ := h
  split at h
  · rw [Except.ok.injEq] at h
    exact Or.inl ⟨s.g, h.symm⟩
  rename_i hsig
  split at h
  · rename_i g _
    rw [Except.ok.injEq] at h
    exact Or.inl ⟨g, h.symm⟩
  · simp at h
  · rename_i mapTestPool g hconnect
    rw [within_eq_ok] at h
    refine Or.inr ⟨inputs, nValueIn, nValueOut, nP2SH, mapTestPool, g, ?_, h⟩
    exact ⟨hfetch, hin, hout, Int.not_lt.mp hfee, hp2sh, Nat.not_le.mp hsig, hconnect⟩

/-- A transaction that gets into the block, and the state behind it. -/
structure Taken (env : Env) (args : MinerArgs) (io : Io) (node : Node) (pindexPrev : CBlockIndex)
    (fProofOfStake : Bool) (nCoinbaseTime : ℕ) (s : Collected F) (tx : CTransaction)
    (s' : Collected F) : Prop where
  limits : s.withinLimits args io fProofOfStake nCoinbaseTime tx = true
  joins : ∃ inputs nValueIn nValueOut nP2SH mapTestPool g,
    Joins env io node pindexPrev s tx inputs nValueIn nValueOut nP2SH mapTestPool g ∧
    s' = { s.add env tx (tx.GetLegacySigOpCount + nP2SH) (int64 (nValueIn - nValueOut)) mapTestPool
      g with toTxQueue := s'.toTxQueue, fSortedByFee := s'.fSortedByFee }

theorem takeFront_some {front : List (TxPriority F) → ℕ} {v rest : List (TxPriority F)}
    {p : TxPriority F} (h : takeFront front v = some (p, rest)) : (p :: rest).Perm v := by
  obtain ⟨q, hq, heq⟩ := Option.map_eq_some_iff.mp h
  obtain ⟨rfl, rfl⟩ := Prod.mk.inj heq
  obtain ⟨hlt, hget⟩ := List.getElem?_eq_some_iff.mp hq
  rw [← hget]
  exact List.getElem_cons_eraseIdx_perm hlt

theorem takeFront_none {front : List (TxPriority F) → ℕ} {v : List (TxPriority F)}
    (h : takeFront front v = none) : v = [] := by
  have hle := List.getElem?_eq_none_iff.mp (Option.map_eq_none_iff.mp h)
  by_contra hne
  exact absurd (Nat.mod_lt (front v) (List.length_pos_iff.mpr hne)) (Nat.not_lt.mpr hle)

variable [IntCast F] [LT F] [DecidableLT F]

theorem collectTx_ok {args : MinerArgs} {s s' : Collected F} {p : TxPriority F}
    (hs : Collecting env io node (fun _ _ => False) s)
    (h : s.collectTx env args io node pindexPrev fProofOfStake nCoinbaseTime p = .ok s') :
    Collecting env io node (fun _ _ => False) s' ∧ s'.txs.Perm s.txs ∧
      ((∃ fSortedByFee g, s' = { s with fSortedByFee := fSortedByFee, g := g }) ∨
        Taken env args io node pindexPrev fProofOfStake nCoinbaseTime s p.tx s') := by
  rw [Collected.collectTx] at h
  split at h
  · rename_i hpass
    rw [Bool.and_eq_true] at hpass
    rcases connect_cases h with ⟨g, rfl⟩ | ⟨inputs, nValueIn, nValueOut, nP2SH, pool, g, hjoins,
        hfold⟩
    · exact ⟨⟨hs.queued, hs.linked⟩, .refl _, Or.inl ⟨_, g, rfl⟩⟩
    · have hadded : Collecting env io node
          (leaving (p.tx.GetHash env) (s.waiting.mapDependers (p.tx.GetHash env)))
          (({ s with fSortedByFee := s.fSortedByFee || s.turnsToFee args p } : Collected F).add env
            p.tx (p.tx.GetLegacySigOpCount + nP2SH) (int64 (nValueIn - nValueOut)) pool g) := by
        constructor
        · intro q hq txin htxin
          exact (hs.queued q hq txin htxin).imp id fun hmade => made_append.mpr (Or.inl hmade)
        · intro i porphan hat
          have hel := hs.linked i porphan hat
          refine ⟨fun txin htxin => ?_, fun k hk => ?_⟩
          · exact (hel.supplied txin htxin).imp id
              (Or.imp id fun hmade => made_append.mpr (Or.inl hmade))
          · obtain ⟨hmem, hex, hin, hkeeps⟩ := hel.linked k hk
            refine ⟨hmem, hex, hin, fun hdone => ?_⟩
            rcases made_append.mp hdone with hold | hthis
            · exact (hkeeps hold).elim
            · exact ⟨hthis.symm, hthis ▸ hmem⟩
      obtain ⟨hs', hperm, heq⟩ := releaseOrphans_ok hadded
        (made_append.mpr (Or.inr rfl)) hfold
      refine ⟨hs', hperm, Or.inr ⟨hpass.1, inputs, nValueIn, nValueOut, nP2SH, pool, g, ?_, ?_⟩⟩
      · exact ⟨hjoins.fetched, hjoins.valueIn, hjoins.valueOut, hjoins.fee, hjoins.p2sh,
          hjoins.sigOps, hjoins.connected⟩
      · rw [heq]
        rfl
  · rw [Except.ok.injEq] at h
    subst h
    exact ⟨hs, .refl _, Or.inl ⟨s.fSortedByFee, s.g, rfl⟩⟩

/-- The transactions that got into the block, of those that came to the front of the queue. -/
def blockTxs (turns : List (CTransaction × Bool)) : List CTransaction :=
  (turns.filter Prod.snd).map Prod.fst

theorem blockTxs_sublist (turns : List (CTransaction × Bool)) :
    (blockTxs turns).Sublist (turns.map Prod.fst) := List.filter_sublist.map _

variable [BEq F]

/-- The turns of the second loop: each takes the transaction that the heap has in front off the queue
and hands it to `collectTx`, and the transaction gets into the block or not. -/
inductive Turns (env : Env) (heap : TxHeap F) (args : MinerArgs) (io : Io) (node : Node)
    (pindexPrev : CBlockIndex) (fProofOfStake : Bool) (nCoinbaseTime : ℕ) :
    Collected F → List (CTransaction × Bool) → Collected F → Prop where
  | done {s : Collected F} :
      Turns env heap args io node pindexPrev fProofOfStake nCoinbaseTime s [] s
  | turn {s s₁ s' : Collected F} {p : TxPriority F} {rest : List (TxPriority F)} {taken : Bool}
      {turns : List (CTransaction × Bool)}
      (hfront : takeFront (heap (TxPriorityCompare s.fSortedByFee)) s.vecPriority = some (p, rest))
      (hone : ({ s with vecPriority := rest } : Collected F).collectTx env args io node pindexPrev
        fProofOfStake nCoinbaseTime p = .ok s₁)
      (hvtx : s₁.vtx = s.vtx ++ blockTxs [(p.tx, taken)])
      (hrest : Turns env heap args io node pindexPrev fProofOfStake nCoinbaseTime s₁ turns s') :
      Turns env heap args io node pindexPrev fProofOfStake nCoinbaseTime s ((p.tx, taken) :: turns) s'

/-- The second loop takes the transactions one by one, each behind what it depends on, until none is
left. -/
theorem collectLoop_turns {heap : TxHeap F} {args : MinerArgs} {fuel : ℕ} {s s' : Collected F}
    (hs : Collecting env io node (fun _ _ => False) s)
    (h : collectLoop env heap args io node pindexPrev fProofOfStake nCoinbaseTime fuel s =
      .ok s') :
    ∃ turns : List (CTransaction × Bool),
      Turns env heap args io node pindexPrev fProofOfStake nCoinbaseTime s turns s' ∧
      s'.vtx = s.vtx ++ blockTxs turns ∧
      (turns.map Prod.fst ++ s'.txs).Perm s.txs ∧
      (∀ pre t post, turns = pre ++ t :: post → ∀ txin ∈ t.1.vin,
        onDisk io node txin = true ∨ Made env (s.vtx ++ blockTxs pre) txin.prevout.hash) ∧
      Collecting env io node (fun _ _ => False) s' ∧
      (s'.vecPriority = [] ∨ turns.length = fuel) := by
  induction fuel generalizing s with
  | zero =>
    rw [collectLoop, Except.ok.injEq] at h
    subst h
    exact ⟨[], .done, by simp [blockTxs], .refl _, by simp, hs, Or.inr rfl⟩
  | succ fuel ih =>
    rw [collectLoop] at h
    split at h
    · rename_i hnone
      rw [Except.ok.injEq] at h
      subst h
      exact ⟨[], .done, by simp [blockTxs], .refl _, by simp, hs, Or.inl (takeFront_none hnone)⟩
    · rename_i p rest hfront
      obtain ⟨s₁, hone, hloop⟩ := seq_ok.mp h
      have hperm := takeFront_some hfront
      have hrest : Collecting env io node (fun _ _ => False) { s with vecPriority := rest } :=
        ⟨fun q hq => hs.queued q (hperm.subset (List.mem_cons_of_mem _ hq)), hs.linked⟩
      obtain ⟨hs₁, hperm₁, hcases⟩ := collectTx_ok hrest hone
      obtain ⟨turns, hturns, hvtx, hall, horder, hs', hend⟩ := ih hs₁ hloop
      obtain ⟨taken, htaken⟩ : ∃ taken : Bool,
          s₁.vtx = s.vtx ++ blockTxs [(p.tx, taken)] := by
        rcases hcases with ⟨fSortedByFee, g, heq⟩ | htaken
        · exact ⟨false, by rw [heq]; simp [blockTxs]⟩
        · obtain ⟨_, _, _, _, _, _, _, heq⟩ := htaken.joins
          exact ⟨true, by rw [heq]; simp [blockTxs, Collected.add]⟩
      have hchosen : ∀ ts : List (CTransaction × Bool),
          s₁.vtx ++ blockTxs ts = s.vtx ++ blockTxs ((p.tx, taken) :: ts) := by
        intro ts
        rw [htaken, List.append_assoc, blockTxs, blockTxs, blockTxs, ← List.map_append,
          ← List.filter_append]
        rfl
      refine ⟨(p.tx, taken) :: turns, .turn hfront hone htaken hturns, ?_, ?_, ?_, hs', ?_⟩
      · rw [hvtx, hchosen]
      · rw [List.map_cons, List.cons_append]
        refine ((hall.trans hperm₁).cons p.tx).trans ?_
        simp only [TxQueue.txs]
        rw [← List.cons_append, ← List.map_cons]
        exact (hperm.map _).append_right _
      · intro pre t post hsplit txin htxin
        rcases pre with _ | ⟨u, pre⟩
        · obtain ⟨rfl, -⟩ := List.cons.inj hsplit
          have hmade := hs.queued p (hperm.subset List.mem_cons_self) txin htxin
          simpa [blockTxs] using hmade
        · obtain ⟨rfl, htail⟩ := List.cons.inj hsplit
          rw [← hchosen]
          exact horder pre t post htail txin htxin
      · exact hend.imp id fun hlen => by rw [List.length_cons, hlen]

end SecondLoop

/-! ## Both loops -/

theorem CTxMemPool.inOrder_perm (pool : CTxMemPool) :
    pool.inOrder.Perm (pool.mapTx.map Prod.snd) := (List.perm_insertionSort _ _).map _

/-- What the first loop leaves is what the second loop starts with. -/
theorem Gathered.collecting {env : Env} {F : Type} {io : Io} {node : Node} {c : TxQueue F}
    (hc : Gathered io node c) {mapTestPool : TxIndexMap} {nBlockSize nBlockTx nBlockSigOps : ℕ}
    {fSortedByFee : Bool} {nFees : ℤ} {g : Globals} :
    Collecting env io node (fun _ _ => False)
      ⟨c, mapTestPool, nBlockSize, nBlockTx, nBlockSigOps, fSortedByFee, nFees, [], g⟩ := by
  refine ⟨fun p hp txin htxin => Or.inl (hc.queued p hp txin htxin), fun i porphan hat => ?_⟩
  have hel := hc.linked i porphan hat
  refine ⟨fun txin htxin => ?_, fun k hk => ?_⟩
  · exact (hel.supplied txin htxin).imp id (Or.imp id False.elim)
  · obtain ⟨hmem, hex, hin, -⟩ := hel.linked k hk
    refine ⟨hmem, hex, hin, fun hmade => ?_⟩
    obtain ⟨tx, htx, -⟩ := hmade
    exact absurd htx List.not_mem_nil

def TxQueue.start {F : Type} (c : TxQueue F) (args : MinerArgs) (node : Node) : Collected F :=
  ⟨c, fun _ => none, 1000, 0, 100, args.nBlockPrioritySize ≤ 0, 0, [], node.toGlobals⟩

/-- Whatever order the heap gives, the second loop takes the transactions that a block could hold and
whose inputs are on disk or in the pool off the front of the queue once each, until it is empty, or
leaves them to wait. Each comes behind the transactions of the block that make its inputs, and one that
is left waits for a transaction of the pool that did not get into the block. -/
theorem collect_in_order {env : Env} {F : Type} [Add F] [Mul F] [Div F] [IntCast F] [LT F]
    [DecidableLT F] [BEq F] {heap : TxHeap F} {args : MinerArgs} {io : Io} {node : Node}
    {pindexPrev : CBlockIndex} {fProofOfStake : Bool} {nCoinbaseTime : ℕ} {s : Collected F}
    (h : collect env heap args io node pindexPrev fProofOfStake nCoinbaseTime = .ok s) :
    s.vecPriority = [] ∧ ∃ (c : TxQueue F) (turns : List (CTransaction × Bool)),
      node.mempool.inOrder.foldlM (addCandidate env io node (pindexPrev.nHeight + 1))
        (⟨⟨[], fun _ => []⟩, []⟩ : TxQueue F) = .ok c ∧
      Turns env heap args io node pindexPrev fProofOfStake nCoinbaseTime (c.start args node) turns s ∧
      s.vtx = blockTxs turns ∧
      (turns.map Prod.fst ++ s.waiting.txs).Perm ((node.mempool.mapTx.map Prod.snd).filter
        (collectible io node (pindexPrev.nHeight + 1))) ∧
      (∀ pre t post, turns = pre ++ t :: post → ∀ txin ∈ t.1.vin,
        onDisk io node txin = true ∨
          ∃ tx ∈ blockTxs pre, tx.GetHash env = txin.prevout.hash) ∧
      ∀ tx ∈ s.waiting.txs, ∃ txin ∈ tx.vin,
        node.mempool.exists_ txin.prevout.hash = true ∧
          ∀ u ∈ s.vtx, u.GetHash env ≠ txin.prevout.hash := by
  simp only [collect, seq_ok, within_eq_ok] at h
  obtain ⟨c, hgather, hloop⟩ := h
  have hstart : Gathered io node (⟨⟨[], fun _ => []⟩, []⟩ : TxQueue F) :=
    ⟨by simp, fun i porphan hat => by simp at hat⟩
  obtain ⟨hc, hperm⟩ := addCandidates_ok hstart hgather
  obtain ⟨turns, hturns, hvtx, hall, horder, hs', hend⟩ := collectLoop_turns hc.collecting hloop
  have hpool : c.txs.Perm ((node.mempool.mapTx.map Prod.snd).filter
      (collectible io node (pindexPrev.nHeight + 1))) := by
    refine hperm.trans ?_
    exact (node.mempool.inOrder_perm.filter _)
  have hdone : s.vecPriority = [] := by
    rcases hend with hempty | hlen
    · exact hempty
    · have hcount := (hall.trans hpool).length_eq
      have hle : ((node.mempool.mapTx.map Prod.snd).filter
          (collectible io node (pindexPrev.nHeight + 1))).length ≤ node.mempool.mapTx.length :=
        (List.length_filter_le _ _).trans (List.length_map _).le
      rw [List.length_append, List.length_map, hlen] at hcount
      have hnone : s.txs.length = 0 := by omega
      rw [TxQueue.txs, List.length_append, List.length_map] at hnone
      exact List.length_eq_zero_iff.mp (by omega)
  have hleft : s.txs = s.waiting.txs := by simp [TxQueue.txs, hdone]
  rw [List.nil_append] at hvtx
  refine ⟨hdone, c, turns, hgather, hturns, hvtx, ?_, ?_, ?_⟩
  · rw [← hleft]
    exact hall.trans hpool
  · intro pre t post hsplit txin htxin
    have hmade := horder pre t post hsplit txin htxin
    rwa [List.nil_append] at hmade
  · intro tx htx
    obtain ⟨slot, hslot, hwaits⟩ := List.mem_filterMap.mp htx
    obtain ⟨porphan, rfl, ⟨k, hk⟩, rfl⟩ := waits_some_iff.mp hwaits
    obtain ⟨i, hi⟩ := List.mem_iff_getElem?.mp hslot
    obtain ⟨-, hex, ⟨txin, hin, rfl⟩, hkeeps⟩ := (hs'.linked i porphan hi).linked k hk
    exact ⟨txin, hin, hex, fun u hu hsame => hkeeps ⟨u, hu, hsame⟩⟩

namespace Scenario

def pooledGrandchild : CTransaction := spending 30 1 [⟨20, 0⟩] [payTo (COIN / 4)]

def grandchildAccepted : Node :=
  (AcceptToMemoryPool (timed testNet) io childAccepted pooledGrandchild).final

def tipOnly : CBlockIndex := .root ⟨0, 1, 0, false, 0, false, 0, 0x207fffff⟩

/-- The heap that hands out the transactions as they came, with rational numbers for priorities. -/
def firstCome : TxHeap ℚ := fun _ _ => 0

def plainArgs : MinerArgs := ⟨none, none, none, none⟩

def familyCollected : Bool :=
  match collect (timed testNet) firstCome plainArgs io grandchildAccepted tipOnly false 1000 with
  | .ok s => s.vtx == [pooledChild, pooledGrandchild]
  | .error _ => false

theorem collect_in_order_family : ∃ s : Collected ℚ,
    collect (timed testNet) firstCome plainArgs io grandchildAccepted tipOnly false 1000 = .ok s ∧
      s.vtx = [pooledChild, pooledGrandchild] ∧ s.vecPriority = [] := by
  have hrun : familyCollected = true := by decide +kernel
  unfold familyCollected at hrun
  cases hcollect :
      collect (timed testNet) firstCome plainArgs io grandchildAccepted tipOnly false 1000 with
  | error e =>
    rw [hcollect] at hrun
    simp at hrun
  | ok s =>
    rw [hcollect] at hrun
    exact ⟨s, rfl, eq_of_beq hrun, (collect_in_order hcollect).1⟩

end Scenario

end Dions
