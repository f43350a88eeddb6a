import Dions.Verification.Chain.Reach
import Dions.Verification.Index.Disconnect

/-! # The connected chain

A tip is in place when the database names it, the links lead to it, and the transaction index
lists exactly the transactions of the blocks up to it. `Reorganize` and `SetBestChainInner` move
from one such tip to another as long as no txid is repeated on the way. -/

namespace Dions

open Halting

variable (env : Env)
variable {files : BlockFile} {pindex tip : CBlockIndex} {block : CBlock} {node : Node}
  {T T' : TxIndexMap} {g : Globals} {vDelete vDelete' : List CTransaction}
variable {d : BlockIndexData} {p : CBlockIndex} {pnext : CBlockIndex → Option CBlockIndex}
  {g' : Globals} {vResurrect : List CTransaction}

def storedItems (files : BlockFile) (pindex : CBlockIndex) :
    List (Ledger.Item uint256 CDiskTxPos) :=
  match files.blocks (pindex.nFile, pindex.nBlockPos) with
  | none => []
  | some block => block.items env pindex

/-- The items of the blocks above the genesis block, in the order of the chain. -/
def pathItems (files : BlockFile) : CBlockIndex → List (Ledger.Item uint256 CDiskTxPos)
  | .root _ => []
  | .child d p => pathItems files p ++ storedItems env files (.child d p)

structure ChainAt (node : Node) (tip : CBlockIndex) : Prop where
  disk : node.txdb.hashBestChain = some tip.GetBlockHash
  linked : Lineage.Linked node.pnext tip
  listed : Ledger.Lists (ledgerOf node.txdb.txindex) (pathItems env node.files tip)

variable {env}

theorem storedItems_of_blocks (h : files.blocks (pindex.nFile, pindex.nBlockPos) = some block) :
    storedItems env files pindex = block.items env pindex := by
  simp [storedItems, h]

theorem ids_pathItems_child (h : (Ledger.ids (pathItems env files (.child d p))).Nodup) :
    (Ledger.ids (pathItems env files p)).Nodup := by
  rw [pathItems, Ledger.ids_append] at h
  exact (List.nodup_append.mp h).1

/-- Txids that are distinct up to a tip are distinct up to every entry below. -/
theorem ids_pathItems_line {a b : CBlockIndex} (ha : a ∈ b.line)
    (h : (Ledger.ids (pathItems env files b)).Nodup) :
    (Ledger.ids (pathItems env files a)).Nodup := by
  induction b with
  | root d =>
      simp only [Lineage.line, List.mem_singleton] at ha
      rwa [ha]
  | child d p ih =>
      simp only [Lineage.line, List.mem_cons] at ha
      rcases ha with rfl | ha
      · exact h
      · exact ih ha (ids_pathItems_child h)

theorem mem_pathItems {i : Ledger.Item uint256 CDiskTxPos} :
    i ∈ pathItems env files pindex ↔ ∃ a ∈ pindex.line, (CBlockIndex.pprev a).isSome = true ∧
      i ∈ storedItems env files a := by
  induction pindex with
  | root d => simp [pathItems, Lineage.line, CBlockIndex.pprev]
  | child d p ih =>
      simp only [pathItems, List.mem_append, ih, Lineage.line, List.mem_cons]
      constructor
      · rintro (⟨a, ha, hprev, hi⟩ | hi)
        · exact ⟨a, .inr ha, hprev, hi⟩
        · exact ⟨_, .inl rfl, rfl, hi⟩
      · rintro ⟨a, rfl | ha, hprev, hi⟩
        · exact .inr hi
        · exact .inl ⟨a, ha, hprev, hi⟩

/-- The index has every transaction of the connected blocks at its position. -/
theorem ChainAt.listed_entry {p : CDiskTxPos × CTransaction} (h : ChainAt env node tip)
    (hmem : pindex ∈ tip.line) (hprev : (CBlockIndex.pprev pindex).isSome = true)
    (hblock : node.files.blocks (pindex.nFile, pindex.nBlockPos) = some block)
    (hp : p ∈ block.positions pindex) :
    ∃ txindex, node.txdb.txindex (p.2.GetHash env) = some txindex ∧ txindex.pos = p.1 := by
  have hi : txItem env p ∈ pathItems env node.files tip := by
    refine mem_pathItems.mpr ⟨pindex, hmem, hprev, ?_⟩
    rw [storedItems_of_blocks hblock]
    exact List.mem_map_of_mem hp
  obtain ⟨e, he, hplace⟩ := (h.listed (p.2.GetHash env) p.1).mpr ⟨_, hi, rfl, rfl⟩
  obtain ⟨txindex, htx, rfl⟩ := Option.map_eq_some_iff.mp he
  exact ⟨txindex, htx, hplace⟩

/-! ## Links -/

@[simp] theorem linkAll_nil (value : CBlockIndex → Option CBlockIndex)
    (pnext : CBlockIndex → Option CBlockIndex) : linkAll value [] pnext = pnext := rfl

theorem linkAll_append (value : CBlockIndex → Option CBlockIndex) (xs ys : List CBlockIndex)
    (pnext : CBlockIndex → Option CBlockIndex) :
    linkAll value (xs ++ ys) pnext = linkAll value ys (linkAll value xs pnext) := by
  induction xs generalizing pnext with
  | nil => rfl
  | cons x xs ih =>
      simp only [List.cons_append, linkAll]
      split <;> exact ih _

theorem linkAll_child (value : CBlockIndex → Option CBlockIndex) (d : BlockIndexData)
    (p : CBlockIndex) (rest : List CBlockIndex) (pnext : CBlockIndex → Option CBlockIndex) :
    linkAll value (.child d p :: rest) pnext =
      linkAll value rest (Function.update pnext p (value (.child d p))) := rfl

/-- Clearing the links above the fork leaves the links that lead to the fork. -/
theorem linked_disconnect {fork : CBlockIndex} (hfork : fork ∈ tip.line)
    (h : Lineage.Linked pnext tip) :
    Lineage.Linked (linkAll (fun _ => none) (Lineage.above fork tip) pnext) fork := by
  induction tip generalizing pnext with
  | root d =>
      simp only [Lineage.line, List.mem_singleton] at hfork
      subst hfork
      simpa using h
  | child d p ih =>
      simp only [Lineage.line, List.mem_cons] at hfork
      rcases hfork with rfl | hfork
      · simpa using h
      · rw [Lineage.above_child_of_mem hfork, linkAll_child]
        exact ih hfork (Lineage.linked_parent h)

/-- Setting the links above the fork leads them on to the new tip. -/
theorem linked_connect {fork : CBlockIndex} (hfork : fork ∈ tip.line)
    (h : Lineage.Linked pnext fork) :
    Lineage.Linked (linkAll some (Lineage.above fork tip).reverse pnext) tip := by
  induction tip with
  | root d =>
      simp only [Lineage.line, List.mem_singleton] at hfork
      subst hfork
      simpa using h
  | child d p ih =>
      simp only [Lineage.line, List.mem_cons] at hfork
      rcases hfork with rfl | hfork
      · simpa using h
      · rw [Lineage.above_child_of_mem hfork, List.reverse_cons, linkAll_append, linkAll_child]
        exact Lineage.linked_child (ih hfork)

/-! ## The index -/

theorem lists_connectBlock {view : View}
    (hblock : files.blocks (CBlockIndex.nFile (.child d p), CBlockIndex.nBlockPos (.child d p)) =
      some block) (hnodup : (Ledger.ids (pathItems env files (.child d p))).Nodup)
    (hL : Ledger.Lists (ledgerOf T) (pathItems env files p))
    (hconnect : block.ConnectBlock env view T g (.child d p) = .ok (T', g')) :
    Ledger.Lists (ledgerOf T') (pathItems env files (.child d p)) := by
  obtain ⟨-, -, -, hT'⟩ := connectBlock_ok env hconnect
  rw [pathItems, storedItems_of_blocks hblock] at hnodup ⊢
  rw [hT']
  exact Ledger.lists_applyAll hL hnodup

theorem lists_disconnectBranch {io : Io} {fork : CBlockIndex} {vResurrect' : List CTransaction}
    (hfork : fork ∈ tip.line) (hnodup : (Ledger.ids (pathItems env files tip)).Nodup)
    (hL : Ledger.Lists (ledgerOf T) (pathItems env files tip))
    (h : disconnectBranch env (io.visible files) (Lineage.above fork tip) T vResurrect =
      some (T', vResurrect')) : Ledger.Lists (ledgerOf T') (pathItems env files fork) := by
  have hself : ∀ {T vResurrect}, disconnectBranch env (io.visible files) [] T vResurrect =
      some (T', vResurrect') → T = T' := by
    intro T vResurrect h
    simp only [disconnectBranch, Option.some.injEq, Prod.mk.injEq] at h
    exact h.1
  induction tip generalizing T vResurrect with
  | root d =>
      simp only [Lineage.line, List.mem_singleton] at hfork
      subst hfork
      rw [Lineage.above_self] at h
      rwa [← hself h]
  | child d p ih =>
      simp only [Lineage.line, List.mem_cons] at hfork
      rcases hfork with rfl | hfork
      · rw [Lineage.above_self] at h
        rwa [← hself h]
      · rw [Lineage.above_child_of_mem hfork, disconnectBranch] at h
        split at h
        · simp at h
        rename_i block hread
        split at h
        · simp at h
        rename_i T₁ hdisconnect
        have hblock := visible_blocks (readFromDisk_blocks env hread)
        rw [disconnectBlock_eq_some_iff env (Lineage.child d p)] at hdisconnect
        have hnodup' := ids_pathItems_child hnodup
        rw [pathItems, storedItems_of_blocks hblock] at hnodup hL
        exact ih hfork hnodup' (Ledger.lists_undoAll hL hnodup hdisconnect) h

theorem connectBranch_append {view : View} {xs ys : List CBlockIndex} :
    connectBranch env view (xs ++ ys) T g vDelete = .ok (T', g', vDelete') ↔
      ∃ T₁ g₁ vDelete₁, connectBranch env view xs T g vDelete = .ok (T₁, g₁, vDelete₁) ∧
        connectBranch env view ys T₁ g₁ vDelete₁ = .ok (T', g', vDelete') := by
  induction xs generalizing T g vDelete with
  | nil => simp [connectBranch]
  | cons x xs ih =>
      simp only [List.cons_append, connectBranch]
      split
      · simp
      · rename_i block hread
        simp only [seq_ok, Prod.exists, ih]
        constructor
        · rintro ⟨T₁, g₁, hblock, T₂, g₂, v₂, hxs, hys⟩
          exact ⟨T₂, g₂, v₂, ⟨T₁, g₁, hblock, hxs⟩, hys⟩
        · rintro ⟨T₂, g₂, v₂, ⟨T₁, g₁, hblock, hxs⟩, hys⟩
          exact ⟨T₁, g₁, hblock, T₂, g₂, v₂, hxs, hys⟩

theorem connectBranch_single {view : View}
    (h : connectBranch env view [pindex] T g vDelete = .ok (T', g', vDelete')) :
    ∃ block, view.files.ReadFromDisk env pindex = some block ∧
      block.ConnectBlock env view T g pindex = .ok (T', g') := by
  simp only [connectBranch] at h
  split at h
  · simp at h
  · rename_i block hread
    simp only [seq_ok, Except.ok.injEq, Prod.mk.injEq] at h
    obtain ⟨⟨T₁, g₁⟩, hconnect, rfl, rfl, -⟩ := h
    exact ⟨block, hread, hconnect⟩

theorem lists_connectBranch {io : Io} {fork : CBlockIndex} (hfork : fork ∈ tip.line)
    (hnodup : (Ledger.ids (pathItems env node.files tip)).Nodup)
    (hL : Ledger.Lists (ledgerOf T) (pathItems env node.files fork))
    (h : connectBranch env (node.view io) (Lineage.above fork tip).reverse T g vDelete =
      .ok (T', g', vDelete')) : Ledger.Lists (ledgerOf T') (pathItems env node.files tip) := by
  induction tip generalizing T' g' vDelete' with
  | root d =>
      simp only [Lineage.line, List.mem_singleton] at hfork
      subst hfork
      simp only [Lineage.above_self, List.reverse_nil, connectBranch, Except.ok.injEq,
        Prod.mk.injEq] at h
      rwa [← h.1]
  | child d p ih =>
      simp only [Lineage.line, List.mem_cons] at hfork
      rcases hfork with rfl | hfork
      · simp only [Lineage.above_self, List.reverse_nil, connectBranch, Except.ok.injEq,
          Prod.mk.injEq] at h
        rwa [← h.1]
      · rw [Lineage.above_child_of_mem hfork, List.reverse_cons, connectBranch_append] at h
        obtain ⟨T₁, g₁, vDelete₁, hbelow, hlast⟩ := h
        obtain ⟨block, hread, hconnect⟩ := connectBranch_single hlast
        exact lists_connectBlock (visible_blocks (readFromDisk_blocks env hread)) hnodup
          (ih hfork (ids_pathItems_child hnodup) hbelow) hconnect

/-! ## From tip to tip -/

theorem ChainAt.sameChain {a b : Node} (h : ChainAt env a tip) (hab : a.SameChain b) :
    ChainAt env b tip := by
  obtain ⟨pool, g, rfl⟩ := hab
  exact ⟨h.disk, h.linked, h.listed⟩

/-- A block attached on top of the tip is the tip. -/
theorem ChainAt.attach {io : Io} {ln1Db : AliasDb} (h : ChainAt env node p)
    (hblock : node.files.blocks
      (CBlockIndex.nFile (.child d p), CBlockIndex.nBlockPos (.child d p)) = some block)
    (hhash : block.GetHash env = CBlockIndex.GetBlockHash (.child d p))
    (hnodup : (Ledger.ids (pathItems env node.files (.child d p))).Nodup)
    (hconnect : block.connectOn env io node (.child d p) = .ok (T, g)) :
    ChainAt env { node.attach T (block.GetHash env) (.child d p) with ln1Db := ln1Db }
      (.child d p) where
  disk := congrArg some hhash
  linked := Lineage.linked_child h.linked
  listed := lists_connectBlock hblock hnodup h.listed hconnect

/-- A reorganisation moves the tip from one branch to the other. -/
theorem ChainAt.switch {io : Io} {pindexNew pindexBest pfork : CBlockIndex}
    (h : ChainAt env node pindexBest)
    (hold : (Ledger.ids (pathItems env node.files pindexBest)).Nodup)
    (hnew : (Ledger.ids (pathItems env node.files pindexNew)).Nodup)
    (hdis : Disconnects env io node pindexNew pindexBest pfork T vResurrect)
    (hconnect : connectAbove env io node pindexNew pfork T = .ok (T', g, vDelete)) :
    ChainAt env (node.switch T' pindexNew pindexBest pfork) pindexNew := by
  obtain ⟨hfork, hfork'⟩ := Lineage.fork?_mem hdis.fork
  have hbelow := lists_disconnectBranch hfork hold h.listed hdis.disconnected
  exact ⟨rfl, linked_connect hfork' (linked_disconnect hfork h.linked),
    lists_connectBranch hfork' hnew hbelow hconnect⟩

end Dions
