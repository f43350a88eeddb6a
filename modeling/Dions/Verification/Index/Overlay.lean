import Dions.Model.LevelDb
import Dions.Verification.Wire.RoundTrip

/-! # Reading inside a database transaction

`Read` answers inside a transaction what it will answer after the commit. `Exists` does so except
for a key that the transaction deletes and that is still on disk. -/

namespace Dions.LevelDb

variable {statusOk : Bool}
variable {before : CTxDB} {cs : List Change}

/-! ## The scanner finds the last operation -/

theorem ScanBatch_concat (batch : WriteBatch) (op : BatchOp Bytes Bytes) (key value : Bytes) :
    ScanBatch (batch ++ [op]) key value = (ScanBatch batch key value).handle op := by
  simp [ScanBatch]

@[simp] theorem ScanBatch_needle (batch : WriteBatch) (key value : Bytes) :
    (ScanBatch batch key value).needle = key := by
  induction batch using List.reverseRecOn with
  | nil => rfl
  | append_singleton batch op ih =>
      rw [ScanBatch_concat]
      cases op <;> simp only [CBatchScanner.handle] <;> split <;> exact ih

/-- The three answers of a scan are one: what the last operation on the key leaves there. -/
theorem ScanBatch_eq (batch : WriteBatch) (key value : Bytes) :
    match Batch.effect key batch with
    | none => (ScanBatch batch key value).foundEntry = false ∧
        (ScanBatch batch key value).deleted = false
    | some none => (ScanBatch batch key value).foundEntry = true ∧
        (ScanBatch batch key value).deleted = true
    | some (some v) => (ScanBatch batch key value).foundEntry = true ∧
        (ScanBatch batch key value).deleted = false ∧
        (ScanBatch batch key value).foundValue = v := by
  induction batch using List.reverseRecOn with
  | nil => exact ⟨rfl, rfl⟩
  | append_singleton batch op ih =>
      rw [ScanBatch_concat, Batch.effect_concat]
      cases op with
      | put k v =>
          by_cases hk : k = key
          · simp [CBatchScanner.handle, BatchOp.key, BatchOp.value, hk]
          · simpa [CBatchScanner.handle, BatchOp.key, hk] using ih
      | delete k =>
          by_cases hk : k = key
          · simp [CBatchScanner.handle, BatchOp.key, BatchOp.value, hk]
          · simpa [CBatchScanner.handle, BatchOp.key, hk] using ih

namespace CTxDB

/-! ## What a reader is answered -/

/-- What the instance shows of a key: its batch first, the disk behind it. -/
def view (db : CTxDB) (ssKey : Bytes) : Option Bytes :=
  (Batch.effect ssKey (db.activeBatch.getD [])).getD (db.pdb ssKey)

theorem Read_eq {T : Type} (unserialize : Bytes → Option T) (db : CTxDB) (ssKey : Bytes) :
    db.Read unserialize ssKey = (db.view ssKey).bind unserialize := by
  unfold Read view
  cases hbatch : db.activeBatch with
  | none => rfl
  | some batch =>
      have hscan := ScanBatch_eq batch ssKey []
      simp only [Option.getD_some]
      cases heff : Batch.effect ssKey batch with
      | none =>
          rw [heff] at hscan
          simp [hscan.1, hscan.2]
      | some v =>
          rw [heff] at hscan
          cases v with
          | none => simp [hscan.2]
          | some v => simp [hscan.1, hscan.2.1, hscan.2.2]

/-- The key is deleted in the batch and still on disk. -/
def DeletedOnly (db : CTxDB) (ssKey : Bytes) : Prop :=
  Batch.effect ssKey (db.activeBatch.getD []) = some none ∧ (db.pdb ssKey).isSome

theorem Exists_eq_iff (db : CTxDB) (ssKey : Bytes) :
    db.Exists ssKey = (db.view ssKey).isSome ↔ ¬db.DeletedOnly ssKey := by
  unfold Exists view DeletedOnly
  cases hbatch : db.activeBatch with
  | none => simp
  | some batch =>
      have hscan := ScanBatch_eq batch ssKey []
      simp only [Option.getD_some]
      cases heff : Batch.effect ssKey batch with
      | none =>
          rw [heff] at hscan
          simp [hscan.1]
      | some v =>
          rw [heff] at hscan
          cases v with
          | none => simp [hscan.2]
          | some v => simp [hscan.1, hscan.2.1]

end CTxDB

/-! ## A transaction -/

def Change.op : Change → BatchOp Bytes Bytes
  | Write ssKey ssValue => .put ssKey ssValue
  | Erase ssKey => .delete ssKey

@[simp] theorem Change.op_key (c : Change) : c.op.key = c.key := by
  cases c <;> rfl

theorem Change.run_batch (statusOk : Bool) (c : Change) (db db' : CTxDB) (batch : WriteBatch)
    (hbatch : db.activeBatch = some batch) (h : c.run statusOk db = some db') :
    db' = { db with activeBatch := some (batch ++ [c.op]) } := by
  cases hro : db.fReadOnly with
  | true => cases c <;> simp [Change.run, CTxDB.Write, CTxDB.Erase, hro] at h
  | false =>
      cases c with
      | Write k v =>
          simp only [Change.run, CTxDB.Write, hro, hbatch, Bool.false_eq_true, ↓reduceIte,
            Option.map_some, Option.some.injEq] at h
          exact h.symm
      | Erase k =>
          simp only [Change.run, CTxDB.Erase, hro, hbatch, Bool.false_eq_true, ↓reduceIte,
            Option.map_some, Option.some.injEq] at h
          exact h.symm

/-- A run inside a transaction collects its calls and leaves the disk alone. -/
theorem runChanges_batch (statusOk : Bool) (cs : List Change) (db db' : CTxDB)
    (batch : WriteBatch) (hbatch : db.activeBatch = some batch)
    (h : runChanges statusOk cs db = some db') :
    db' = { db with activeBatch := some (batch ++ cs.map Change.op) } := by
  induction cs generalizing db batch with
  | nil =>
      cases h
      simp [← hbatch]
  | cons c cs ih =>
      cases hc : c.run statusOk db with
      | none => simp [runChanges, hc] at h
      | some mid =>
          have hmid := c.run_batch statusOk db mid batch hbatch hc
          simp only [runChanges, hc, Option.bind_some] at h
          rw [ih mid (batch ++ [c.op]) (by rw [hmid]) h, hmid]
          simp

/-- The calls are made on `before` after `TxnBegin` and lead to `inside`; committing leads to
`after`. -/
structure Transaction (before inside after : CTxDB) (cs : List Change) (statusOk : Bool) :
    Prop where
  runs : before.TxnBegin.bind (runChanges statusOk cs) = some inside
  commits : inside.TxnCommit true = some (after, true)

theorem Transaction.inside_eq {inside after : CTxDB}
    (h : Transaction before inside after cs statusOk) :
    before.activeBatch = none ∧
      inside = { before with activeBatch := some (cs.map Change.op) } := by
  have hruns := h.runs
  cases hbatch : before.activeBatch with
  | some batch => simp [CTxDB.TxnBegin, hbatch] at hruns
  | none =>
      simp only [CTxDB.TxnBegin, hbatch, Option.isSome_none, Bool.false_eq_true, ↓reduceIte,
        Option.bind_some] at hruns
      have hinside := runChanges_batch statusOk cs { before with activeBatch := some [] } inside []
        rfl hruns
      exact ⟨rfl, hinside⟩

theorem Transaction.after_eq {inside after : CTxDB}
    (h : Transaction before inside after cs statusOk) :
    after = { before with pdb := Batch.apply before.pdb (cs.map Change.op) } := by
  obtain ⟨hnone, hinside⟩ := h.inside_eq
  have hcommit := h.commits
  simp only [hinside, CTxDB.TxnCommit, ↓reduceIte, Option.some.injEq, Prod.mk.injEq, and_true]
    at hcommit
  rw [← hcommit, ← hnone]

theorem Transaction.view_eq {inside after : CTxDB} (h : Transaction before inside after cs statusOk)
    (k : Bytes) : inside.view k = after.view k := by
  obtain ⟨hnone, hinside⟩ := h.inside_eq
  rw [h.after_eq, hinside]
  simp only [CTxDB.view, Option.getD_some, hnone, Option.getD_none, Batch.effect_nil,
    Batch.apply_eq]

/-- The last call on the key erases it. -/
def LastErased (k : Bytes) (cs : List Change) : Prop :=
  ∃ pre post, cs = pre ++ .Erase k :: post ∧ ∀ c ∈ post, c.key ≠ k

theorem lastErased_iff (k : Bytes) (cs : List Change) :
    LastErased k cs ↔ Batch.effect k (cs.map Change.op) = some none := by
  rw [Batch.effect_eq_some_iff]
  constructor
  · rintro ⟨pre, post, rfl, hpost⟩
    refine ⟨pre.map Change.op, .delete k, post.map Change.op, by simp [Change.op], rfl, rfl, ?_⟩
    intro o ho
    obtain ⟨c, hc, rfl⟩ := List.mem_map.mp ho
    rw [c.op_key]
    exact hpost c hc
  · rintro ⟨pre, op, post, hcs, hk, hv, hpost⟩
    obtain ⟨pre', rest, rfl, hpre, hrest⟩ := List.map_eq_append_iff.mp hcs
    obtain ⟨c, post', rfl, hc, hpost'⟩ := List.map_eq_cons_iff.mp hrest
    refine ⟨pre', post', ?_, ?_⟩
    · cases c with
      | Write k' v' => simp [← hc, Change.op, BatchOp.value] at hv
      | Erase k' =>
          rw [← hc] at hk
          rw [show k' = k from hk]
    · intro c' hc'
      rw [← c'.op_key]
      exact hpost _ (hpost' ▸ List.mem_map_of_mem hc')

/-- Inside the transaction every reader is answered as after the commit, and after an abort as
before the transaction. -/
structure AnswersAgree (before inside after : CTxDB) (k : Bytes) : Prop where
  read : ∀ (T : Type) (unserialize : Bytes → Option T),
    inside.Read unserialize k = after.Read unserialize k
  exists_ : inside.Exists k = after.Exists k
  readAborted : ∀ (T : Type) (unserialize : Bytes → Option T),
    inside.TxnAbort.Read unserialize k = before.Read unserialize k
  existsAborted : inside.TxnAbort.Exists k = before.Exists k

/-- The answers agree on every key but those whose last call erases what is on disk. -/
theorem transaction_answers_agree_iff (before inside after : CTxDB) (cs : List Change)
    (statusOk : Bool) (h : Transaction before inside after cs statusOk) (k : Bytes) :
    AnswersAgree before inside after k ↔ ¬(LastErased k cs ∧ (before.pdb k).isSome) := by
  obtain ⟨hnone, hinside⟩ := h.inside_eq
  have habort : inside.TxnAbort = before := by
    rw [hinside, CTxDB.TxnAbort, ← hnone]
  have hafter : after.Exists k = (after.view k).isSome := by
    apply (after.Exists_eq_iff k).mpr
    rw [h.after_eq]
    simp [CTxDB.DeletedOnly, hnone]
  have hexists : inside.Exists k = after.Exists k ↔ ¬inside.DeletedOnly k := by
    rw [hafter, ← h.view_eq k]
    exact inside.Exists_eq_iff k
  have hdeleted : inside.DeletedOnly k ↔ LastErased k cs ∧ (before.pdb k).isSome := by
    rw [lastErased_iff, hinside]
    rfl
  rw [← hdeleted, ← hexists]
  constructor
  · intro hagree
    exact hagree.exists_
  · intro hex
    refine ⟨?_, hex, ?_, ?_⟩
    · intro T unserialize
      rw [CTxDB.Read_eq, CTxDB.Read_eq, h.view_eq k]
    · intro T unserialize
      rw [habort]
    · rw [habort]

def oneRecord : CTxDB := ⟨fun k => if k = [1] then some [2] else none, none, false⟩

def erasing : CTxDB := { oneRecord with activeBatch := some [.delete [1]] }

def erased : CTxDB := { oneRecord with pdb := Batch.apply oneRecord.pdb [.delete [1]] }

/-- A record erased in the transaction still exists inside it, and no longer after the commit. -/
theorem erased_record_exists :
    Transaction oneRecord erasing erased [.Erase [1]] true ∧
      ¬AnswersAgree oneRecord erasing erased [1] := by
  refine ⟨⟨rfl, rfl⟩, ?_⟩
  intro hagree
  have hinside : erasing.Exists [1] = true := by decide
  have hafter : erased.Exists [1] = false := by decide
  have hexists := hagree.exists_
  rw [hinside, hafter] at hexists
  cases hexists

theorem transaction_answers_agree_iff_written :
    AnswersAgree oneRecord { oneRecord with activeBatch := some [.delete [1], .put [1] [3]] }
        { oneRecord with pdb := Batch.apply oneRecord.pdb [.delete [1], .put [1] [3]] } [1] ↔
      ¬(LastErased [1] [.Erase [1], .Write [1] [3]] ∧ (oneRecord.pdb [1]).isSome) :=
  transaction_answers_agree_iff oneRecord _ _ [.Erase [1], .Write [1] [3]] true ⟨rfl, rfl⟩ [1]

/-! ## The transaction index as a map -/

/-- What `ReadTxIndex` answers, as the map that block validation works on. -/
def CTxDB.txindex (db : CTxDB) : TxIndexMap := fun hash => db.ReadTxIndex hash

/-- The positions fit their type, and that of a spending transaction is not null. -/
structure TxIndexFits (txindex : CTxIndex) : Prop where
  pos : wireDiskTxPos.Valid txindex.pos
  length : txindex.vSpent.length ≤ BlockFile.MAX_SIZE
  spent : ∀ pos, some pos ∈ txindex.vSpent → wireDiskTxPos.Valid pos ∧ pos.nFile ≠ UINT_MAX

theorem unserialize_serializeTxIndex (txindex : CTxIndex) (h : TxIndexFits txindex) :
    unserializeTxIndex (serializeTxIndex txindex) = some txindex := by
  have hnull : wireDiskTxPos.Valid CDiskTxPos.null :=
    ⟨by change UINT_MAX < 256 ^ 4; decide, by change 0 < 256 ^ 4; decide,
      by change 0 < 256 ^ 4; decide⟩
  have hversion : (wireSigned 4).Valid CLIENT_VERSION := by
    rw [wireSigned, Codec.int_valid_iff]
    decide
  have hspent : ∀ pos ∈ txindex.vSpent.map (·.getD CDiskTxPos.null), wireDiskTxPos.Valid pos := by
    intro pos hpos
    obtain ⟨o, ho, rfl⟩ := List.mem_map.mp hpos
    cases o with
    | none => exact hnull
    | some pos => exact (h.spent pos ho).1
  have hround := wireTxIndex.round
    (CLIENT_VERSION, txindex.pos, txindex.vSpent.map (·.getD CDiskTxPos.null)) []
    ⟨hversion, h.pos, by rw [List.length_map]; exact h.length, hspent⟩
  have hback : (txindex.vSpent.map (·.getD CDiskTxPos.null)).map spentPos = txindex.vSpent := by
    rw [List.map_map]
    refine (List.map_congr_left fun o ho => ?_).trans (List.map_id _)
    cases o with
    | none => simp [spentPos, CDiskTxPos.null]
    | some pos => simp [spentPos, (h.spent pos ho).2]
  rw [List.append_nil] at hround
  simp only [unserializeTxIndex, serializeTxIndex, hround, hback]

theorem txKey_injective {a b : uint256} (ha : a < 2 ^ 256) (hb : b < 2 ^ 256)
    (h : txKey a = txKey b) : a = b := by
  have hbytes : (wireUnsigned 32).serialize a = (wireUnsigned 32).serialize b :=
    List.append_cancel_left h
  have hround := (wireUnsigned 32).round a [] ((wireUnsigned_valid_hash a).mpr ha)
  rw [hbytes, (wireUnsigned 32).round b [] ((wireUnsigned_valid_hash b).mpr hb)] at hround
  simpa using hround.symm

/-- `UpdateTxIndex` updates the map, inside a transaction and outside one. -/
theorem txindex_UpdateTxIndex (db db' : CTxDB) (hash : uint256) (txindex : CTxIndex)
    (hhash : hash < 2 ^ 256) (hfits : TxIndexFits txindex)
    (h : db.UpdateTxIndex true hash txindex = some (db', true)) (hash' : uint256)
    (hhash' : hash' < 2 ^ 256) :
    db'.txindex hash' = Function.update db.txindex hash (some txindex) hash' := by
  have hview : db'.view (txKey hash') =
      if hash' = hash then some (serializeTxIndex txindex) else db.view (txKey hash') := by
    have hkey : txKey hash = txKey hash' ↔ hash' = hash :=
      ⟨fun heq => (txKey_injective hhash hhash' heq).symm, fun heq => by rw [heq]⟩
    unfold CTxDB.UpdateTxIndex CTxDB.Write at h
    cases hro : db.fReadOnly with
    | true => simp [hro] at h
    | false =>
        cases hbatch : db.activeBatch with
        | none =>
            simp only [hro, hbatch, Bool.false_eq_true, ↓reduceIte, Option.some.injEq,
              Prod.mk.injEq, and_true] at h
            rw [← h]
            simp only [CTxDB.view, hbatch, Option.getD_none, Batch.effect_nil,
              Function.update_apply, eq_comm (a := txKey hash'), hkey]
        | some batch =>
            simp only [hro, hbatch, Bool.false_eq_true, ↓reduceIte, Option.some.injEq,
              Prod.mk.injEq, and_true] at h
            rw [← h]
            simp only [CTxDB.view, hbatch, Option.getD_some, Batch.effect_concat, BatchOp.key,
              BatchOp.value, hkey]
            split <;> rfl
  have hread : ∀ (d : CTxDB) (k : uint256),
      d.txindex k = (d.view (txKey k)).bind unserializeTxIndex := fun d k => CTxDB.Read_eq _ d _
  rw [hread, hview, Function.update_apply]
  split
  · exact unserialize_serializeTxIndex txindex hfits
  · rw [hread]

end Dions.LevelDb
