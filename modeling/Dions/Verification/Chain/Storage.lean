import Dions.Verification.Index.Refinement
import Dions.Model.Accept

/-! # Stored blocks

Every entry of the block index has its block in the files, with each transaction where the
transaction index will look for it. Files only grow, so this stays true. -/

namespace Dions

open Halting

variable (env : Env)
variable {files : BlockFile} {mapBlockIndex : uint256 → Option CBlockIndex} {block : CBlock}
variable {pindex : CBlockIndex} {nTxPos : ℕ} {p : CDiskTxPos × CTransaction}

/-! ## The invariant -/

/-- The files hold the block of an entry, and its transactions at their positions. -/
structure BlockFile.Holds (files : BlockFile) (pindex : CBlockIndex) (block : CBlock) : Prop where
  stored : files.blocks (pindex.nFile, pindex.nBlockPos) = some block
  txs : ∀ p ∈ block.positions pindex, files.readTx p.1 = some p.2

def KnownIn (mapBlockIndex : uint256 → Option CBlockIndex) (pindex : CBlockIndex) : Prop :=
  mapBlockIndex pindex.GetBlockHash = some pindex

structure Stored (files : BlockFile) (mapBlockIndex : uint256 → Option CBlockIndex) : Prop where
  /-- An entry stands under the hash of its block. -/
  named : ∀ hash pindex, mapBlockIndex hash = some pindex → pindex.GetBlockHash = hash
  held : ∀ pindex, KnownIn mapBlockIndex pindex →
    ∃ block, files.Holds pindex block ∧ block.GetHash env = pindex.GetBlockHash ∧
      ∀ pprev : CBlockIndex, pindex.parent? = some pprev →
        block.hashPrevBlock = pprev.GetBlockHash ∧ KnownIn mapBlockIndex pprev
  /-- Nothing is stored behind the end of a file. -/
  ended : ∀ place : ℕ × ℕ, files.size place.1 ≤ place.2 →
    files.blocks place = none ∧ files.txs place = none

def Node.Knows (node : Node) (pindex : CBlockIndex) : Prop := KnownIn node.mapBlockIndex pindex

theorem Stored.knows_line (h : Stored env files mapBlockIndex) {a b : CBlockIndex}
    (hb : KnownIn mapBlockIndex b) (ha : a ∈ b.line) : KnownIn mapBlockIndex a := by
  induction b with
  | root d =>
      simp only [Lineage.line, List.mem_singleton] at ha
      rwa [ha]
  | child d p ih =>
      simp only [Lineage.line, List.mem_cons] at ha
      rcases ha with rfl | ha
      · exact hb
      · obtain ⟨_, _, _, hparent⟩ := h.held _ hb
        exact ih (hparent p rfl).2 ha

theorem knows_unique {a b : CBlockIndex} (ha : KnownIn mapBlockIndex a)
    (hb : KnownIn mapBlockIndex b) (h : a.GetBlockHash = b.GetBlockHash) : a = b := by
  unfold KnownIn at ha hb
  rw [h, hb, Option.some.injEq] at ha
  exact ha.symm

/-- One place holds one block, so the entries with that place are the same. -/
theorem Stored.place_unique (h : Stored env files mapBlockIndex) {a b : CBlockIndex}
    (ha : KnownIn mapBlockIndex a) (hb : KnownIn mapBlockIndex b) (hfile : a.nFile = b.nFile)
    (hblockPos : a.nBlockPos = b.nBlockPos) : a = b := by
  obtain ⟨block, hholds, hhash, -⟩ := h.held a ha
  obtain ⟨block', hholds', hhash', -⟩ := h.held b hb
  have hsame := hholds.stored
  rw [hfile, hblockPos, hholds'.stored, Option.some.injEq] at hsame
  exact knows_unique ha hb (by rw [← hhash, ← hhash', hsame])

/-! ## Reading -/

theorem visible_blocks {io : Io} {place : ℕ × ℕ} (h : (io.visible files).blocks place = some block) :
    files.blocks place = some block := by
  simp only [Io.visible] at h
  split at h
  · simp at h
  · exact h

theorem readFromDisk_blocks (h : files.ReadFromDisk env pindex = some block) :
    files.blocks (pindex.nFile, pindex.nBlockPos) = some block := by
  unfold BlockFile.ReadFromDisk at h
  split at h
  · simp at h
  · rename_i block' hblock
    split at h
    · simp at h
    · split at h
      · simp at h
      · rw [hblock, h]

/-- What is read for a known entry is the block that was written for it. -/
theorem Stored.read (h : Stored env files mapBlockIndex) {pindex : CBlockIndex}
    (hknown : KnownIn mapBlockIndex pindex) {io : Io} {block : CBlock}
    (hread : (io.visible files).ReadFromDisk env pindex = some block) :
    files.Holds pindex block ∧ block.GetHash env = pindex.GetBlockHash := by
  have hplace := visible_blocks (readFromDisk_blocks env hread)
  obtain ⟨block', hholds, hhash, _⟩ := h.held pindex hknown
  rw [hholds.stored, Option.some.injEq] at hplace
  subst hplace
  exact ⟨hholds, hhash⟩

/-! ## Writing -/

theorem txPositions_bounds {nFile nBlockPos : ℕ} {vtx : List CTransaction}
    (hp : p ∈ txPositions nFile nBlockPos nTxPos vtx) :
    p.1.nFile = nFile ∧ p.1.nBlockPos = nBlockPos ∧ nTxPos ≤ p.1.nTxPos ∧
      p.1.nTxPos < nTxPos + (vtx.map CTransaction.GetSerializeSize).sum := by
  induction vtx generalizing nTxPos with
  | nil => simp [txPositions] at hp
  | cons tx vtx ih =>
      have hpos := CTransaction.GetSerializeSize_pos tx
      simp only [txPositions, List.mem_cons] at hp
      simp only [List.map_cons, List.sum_cons]
      rcases hp with rfl | hp
      · exact ⟨rfl, rfl, le_rfl, Nat.lt_add_of_pos_right (by omega)⟩
      · obtain ⟨hfile, hblock, hle, hlt⟩ := ih hp
        exact ⟨hfile, hblock, by omega, by omega⟩

theorem writeTxs_of_forall_ne {txs : ℕ × ℕ → Option CTransaction}
    {ps : List (CDiskTxPos × CTransaction)} {place : ℕ × ℕ}
    (h : ∀ p ∈ ps, (p.1.nFile, p.1.nTxPos) ≠ place) :
    BlockFile.writeTxs txs ps place = txs place := by
  induction ps generalizing txs with
  | nil => rfl
  | cons p ps ih =>
      simp only [BlockFile.writeTxs]
      rw [ih fun q hq => h q (List.mem_cons_of_mem _ hq),
        Function.update_of_ne fun he => h p (List.mem_cons_self) he.symm]

/-- The transactions of a block are written at increasing positions, so none overwrites another. -/
theorem writeTxs_txPositions {txs : ℕ × ℕ → Option CTransaction} {nFile nBlockPos : ℕ}
    {vtx : List CTransaction} (hp : p ∈ txPositions nFile nBlockPos nTxPos vtx) :
    BlockFile.writeTxs txs (txPositions nFile nBlockPos nTxPos vtx) (p.1.nFile, p.1.nTxPos) =
      some p.2 := by
  induction vtx generalizing txs nTxPos with
  | nil => simp [txPositions] at hp
  | cons tx vtx ih =>
      have hsize := CTransaction.GetSerializeSize_pos tx
      simp only [txPositions, List.mem_cons] at hp
      simp only [txPositions, BlockFile.writeTxs]
      rcases hp with rfl | hp
      · rw [writeTxs_of_forall_ne, Function.update_self]
        intro q hq heq
        have hq' := (txPositions_bounds hq).2.2.1
        simp only [Prod.mk.injEq] at heq
        omega
      · exact ih hp

theorem writeToDisk_blocks (files : BlockFile) (block : CBlock) :
    (files.WriteToDisk block).1.blocks =
      Function.update files.blocks ((files.WriteToDisk block).2.1, (files.WriteToDisk block).2.2)
        (some block) := rfl

theorem writeToDisk_bounds (hp : p ∈ txPositions files.appendTo (files.size files.appendTo + 8)
      (firstTxPos (files.size files.appendTo + 8) block.vtx.length) block.vtx) :
    p.1.nFile = files.appendTo ∧ files.size files.appendTo < p.1.nTxPos ∧
      p.1.nTxPos < files.size files.appendTo + 8 + block.GetSerializeSize := by
  obtain ⟨hfile, -, hle, hlt⟩ := txPositions_bounds hp
  simp only [firstTxPos] at hle hlt
  simp only [CBlock.GetSerializeSize]
  exact ⟨hfile, by omega, by omega⟩

theorem writeToDisk_txs_of_lt {place : ℕ × ℕ} (h : place.2 < files.size place.1) :
    (files.WriteToDisk block).1.txs place = files.txs place := by
  refine writeTxs_of_forall_ne fun p hp heq => ?_
  obtain ⟨hfile, hlt, -⟩ := writeToDisk_bounds hp
  rw [← heq] at h
  simp only [hfile] at h
  omega

theorem writeToDisk_blocks_of_lt {place : ℕ × ℕ} (h : place.2 < files.size place.1) :
    (files.WriteToDisk block).1.blocks place = files.blocks place := by
  refine Function.update_of_ne (fun heq => ?_) _ _
  rw [heq] at h
  simp only at h
  omega

/-- What is stored before the end of its file stays where it is. -/
theorem BlockFile.Holds.writeToDisk {new : CBlock}
    (hended : ∀ place : ℕ × ℕ, files.size place.1 ≤ place.2 →
      files.blocks place = none ∧ files.txs place = none) (h : files.Holds pindex block) :
    (files.WriteToDisk new).1.Holds pindex block := by
  refine ⟨?_, fun p hp => ?_⟩
  · rw [writeToDisk_blocks_of_lt, h.stored]
    by_contra hle
    have hnone := (hended (pindex.nFile, pindex.nBlockPos) (Nat.le_of_not_lt hle)).1
    rw [h.stored] at hnone
    simp at hnone
  · have htx := h.txs p hp
    unfold BlockFile.readTx at htx ⊢
    rw [writeToDisk_txs_of_lt, htx]
    by_contra hle
    have hnone := (hended (p.1.nFile, p.1.nTxPos) (Nat.le_of_not_lt hle)).2
    rw [htx] at hnone
    simp at hnone

/-- `AddToBlockIndex` after `WriteToDisk` keeps the blocks and the entries together. -/
theorem Stored.write (h : Stored env files mapBlockIndex) {block : CBlock}
    (hnew : mapBlockIndex (block.GetHash env) = none) :
    Stored env (files.WriteToDisk block).1
      (Function.update mapBlockIndex (block.GetHash env)
        (some (block.newIndex env (files.WriteToDisk block).2.1 (files.WriteToDisk block).2.2
          (mapBlockIndex block.hashPrevBlock)))) := by
  generalize hp : block.newIndex env (files.WriteToDisk block).2.1 (files.WriteToDisk block).2.2
    (mapBlockIndex block.hashPrevBlock) = pindexNew
  have hlabel : pindexNew.GetBlockHash = block.GetHash env ∧
      pindexNew.nFile = files.appendTo ∧ pindexNew.nBlockPos = files.size files.appendTo + 8 ∧
      pindexNew.parent? = mapBlockIndex block.hashPrevBlock := by
    rw [← hp]
    unfold CBlock.newIndex
    cases mapBlockIndex block.hashPrevBlock with
    | none => exact ⟨rfl, rfl, rfl, rfl⟩
    | some p => exact ⟨rfl, rfl, rfl, rfl⟩
  obtain ⟨hhash, hfile, hblockPos, hparent⟩ := hlabel
  have hmono : ∀ pindex, KnownIn mapBlockIndex pindex →
      KnownIn (Function.update mapBlockIndex (block.GetHash env) (some pindexNew)) pindex := by
    intro pindex hk
    unfold KnownIn at hk ⊢
    rw [Function.update_of_ne, hk]
    intro he
    rw [he, hnew] at hk
    simp at hk
  refine ⟨fun hash pindex hk => ?_, fun pindex hk => ?_, fun place hle => ?_⟩
  · by_cases he : hash = block.GetHash env
    · subst he
      rw [Function.update_self, Option.some.injEq] at hk
      rw [← hk, hhash]
    · rw [Function.update_of_ne he] at hk
      exact h.named hash pindex hk
  · unfold KnownIn at hk
    by_cases he : pindex.GetBlockHash = block.GetHash env
    · rw [he, Function.update_self, Option.some.injEq] at hk
      subst hk
      refine ⟨block, ⟨?_, fun p hpos => ?_⟩, hhash.symm, fun pprev hpprev => ?_⟩
      · rw [hfile, hblockPos]
        exact Function.update_self _ _ _
      · rw [CBlock.positions, hfile, hblockPos] at hpos
        exact writeTxs_txPositions hpos
      · rw [hparent] at hpprev
        have hname := h.named _ _ hpprev
        refine ⟨hname.symm, hmono _ ?_⟩
        rw [KnownIn, hname, hpprev]
    · rw [Function.update_of_ne he] at hk
      obtain ⟨old, hholds, hold, hpar⟩ := h.held pindex hk
      exact ⟨old, hholds.writeToDisk h.ended, hold, fun pprev hpprev =>
        ⟨(hpar pprev hpprev).1, hmono _ (hpar pprev hpprev).2⟩⟩
  · -- the new end lies behind everything that was written
    by_cases hf : place.1 = files.appendTo
    · have hsize : (files.WriteToDisk block).1.size place.1 =
          files.size files.appendTo + 8 + block.GetSerializeSize := by
        rw [hf]
        exact Function.update_self _ _ _
      rw [hsize] at hle
      have hold := h.ended place (by rw [hf]; omega)
      refine ⟨?_, ?_⟩
      · rw [writeToDisk_blocks, Function.update_of_ne, hold.1]
        intro heq
        have h2 : place.2 = files.size files.appendTo + 8 := congrArg Prod.snd heq
        have : 80 ≤ block.GetSerializeSize := by
          unfold CBlock.GetSerializeSize
          omega
        omega
      · refine Eq.trans (writeTxs_of_forall_ne fun p hpos heq => ?_) hold.2
        have hlt := (writeToDisk_bounds hpos).2.2
        rw [← heq] at hle
        simp only at hle
        omega
    · have hsize : (files.WriteToDisk block).1.size place.1 = files.size place.1 :=
        Function.update_of_ne hf _ _
      rw [hsize] at hle
      have hold := h.ended place hle
      refine ⟨?_, ?_⟩
      · rw [writeToDisk_blocks, Function.update_of_ne, hold.1]
        intro heq
        exact hf (congrArg Prod.fst heq)
      · refine Eq.trans (writeTxs_of_forall_ne fun p hpos heq => ?_) hold.2
        exact hf ((congrArg Prod.fst heq).symm.trans (writeToDisk_bounds hpos).1)

end Dions
