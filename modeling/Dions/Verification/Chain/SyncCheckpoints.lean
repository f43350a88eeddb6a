import Mathlib.Logic.Relation
import Dions.Model.Checkpoints
import Dions.Verification.Chain.BestChain

/-! # What a synchronized checkpoint binds

On the main network the checkpoint only moves up the tree of blocks, stays in the main chain, and
every block that is indexed later descends from it. -/

namespace Dions

open Halting Checkpoints

variable {env : Env}
variable {c pindexNew : CBlockIndex} {node : Node} {block : CBlock} {s : SyncNode}
variable {pnext : CBlockIndex → Option CBlockIndex} {a b d : SyncNode}
  {pindex pindexPrev : CBlockIndex}

/-! ## Links of the main chain -/

theorem nChainTrust_le_of_mem_line {a b : CBlockIndex} (h : a ∈ b.line) :
    a.nChainTrust ≤ b.nChainTrust := by
  induction b with
  | root d =>
      simp only [Lineage.line, List.mem_singleton] at h
      rw [h]
  | child d p ih =>
      simp only [Lineage.line, List.mem_cons] at h
      rcases h with rfl | h
      · exact le_refl _
      · have hp := ih h
        simp only [CBlockIndex.nChainTrust]
        omega

/-- An entry with no more trust than the best chain is not among those that are postponed. -/
theorem mem_line_splitPostponed {nBestTrust : ℕ} (h : c ∈ pindexNew.line)
    (htrust : c.nChainTrust ≤ nBestTrust) :
    c ∈ (splitPostponed nBestTrust pindexNew).1.line ∧
      (c = (splitPostponed nBestTrust pindexNew).1 → c = pindexNew) := by
  induction pindexNew with
  | root d =>
      rw [splitPostponed]
      exact ⟨h, fun heq => heq⟩
  | child d p ih =>
      rw [splitPostponed]
      split
      next hpostponed =>
        simp only [Lineage.line, List.mem_cons] at h
        rcases h with rfl | h
        · simp only [CBlockIndex.nChainTrust] at htrust
          omega
        · obtain ⟨hline, htip⟩ := ih h
          refine ⟨hline, ?_⟩
          intro heq
          have hp := htip heq
          subst hp
          omega
      next => exact ⟨h, fun heq => heq⟩

theorem linkAll_isSome {xs : List CBlockIndex}
    (h : (pnext c).isSome = true ∨ ∃ e ∈ xs, CBlockIndex.pprev e = some c) :
    (linkAll some xs pnext c).isSome = true := by
  induction xs generalizing pnext with
  | nil =>
      rcases h with h | ⟨e, he, -⟩
      · exact h
      · cases he
  | cons x xs ih =>
      unfold linkAll
      cases hx : CBlockIndex.pprev x with
      | none =>
          apply ih
          rcases h with h | ⟨e, he, hparent⟩
          · exact .inl h
          · rcases List.mem_cons.mp he with rfl | he
            · rw [hx] at hparent
              cases hparent
            · exact .inr ⟨e, he, hparent⟩
      | some p =>
          apply ih
          by_cases hc : c = p
          · rw [hc, Function.update_self]
            exact .inl rfl
          · rw [Function.update_of_ne hc]
            rcases h with h | ⟨e, he, hparent⟩
            · exact .inl h
            · rcases List.mem_cons.mp he with rfl | he
              · rw [hx, Option.some.injEq] at hparent
                exact absurd hparent.symm hc
              · exact .inr ⟨e, he, hparent⟩

theorem linkAll_other {value : CBlockIndex → Option CBlockIndex} {xs : List CBlockIndex}
    (h : ∀ e ∈ xs, CBlockIndex.pprev e ≠ some c) : linkAll value xs pnext c = pnext c := by
  induction xs generalizing pnext with
  | nil => rfl
  | cons x xs ih =>
      obtain ⟨hx, hrest⟩ := List.forall_mem_cons.mp h
      unfold linkAll
      cases hp : CBlockIndex.pprev x with
      | none => exact ih hrest
      | some p =>
          have hne : c ≠ p := by
            rintro rfl
            exact hx hp
          change linkAll value xs (Function.update pnext p (value x)) c = pnext c
          rw [ih hrest, Function.update_of_ne hne]

/-- Below the tip that is asked for no entry loses its link in a reorganisation. -/
theorem switch_isSome {T : TxIndexMap} {pindexBest pfork : CBlockIndex} (hc : c ∈ pindexNew.line)
    (hne : c ≠ pindexNew)
    (hfork : Lineage.fork? pindexBest (splitPostponed pindexBest.nChainTrust pindexNew).1 =
      some pfork) (h : (node.pnext c).isSome = true) :
    ((node.switch T (splitPostponed pindexBest.nChainTrust pindexNew).1 pindexBest pfork).pnext
      c).isSome = true := by
  obtain ⟨hold, hnew⟩ := Lineage.fork?_mem hfork
  unfold Node.switch
  simp only
  apply linkAll_isSome
  by_cases hbest : c ∈ pindexBest.line
  · obtain ⟨hline, htip⟩ := mem_line_splitPostponed hc (nChainTrust_le_of_mem_line hbest)
    have hbelow : c ∈ pfork.line := Lineage.fork?_highest hfork hbest hline
    by_cases heq : c = pfork
    · right
      have hshort : pfork ≠ (splitPostponed pindexBest.nChainTrust pindexNew).1 := by
        intro hsame
        exact hne (htip (heq.trans hsame))
      obtain ⟨e, he, hparent⟩ := Lineage.exists_above hnew hshort
      exact ⟨e, List.mem_reverse.mpr he, by rw [heq]; exact hparent⟩
    · left
      rw [linkAll_other, h]
      intro e he hparent
      exact heq (Lineage.line_antisymm hbelow (Lineage.parent_of_mem_above hold he hparent).1)
  · left
    rw [linkAll_other, h]
    intro e he hparent
    exact hbest (Lineage.parent_of_mem_above hold he hparent).2

/-! ## Calls that fail -/

/-- The best tip stays, and an entry that is linked to a next one stays linked. -/
def KeepsLink (c : CBlockIndex) (a b : Node) : Prop :=
  b.pindexBest = a.pindexBest ∧ ((a.pnext c).isSome = true → (b.pnext c).isSome = true)

theorem KeepsLink.trans {a b d : Node} (hab : KeepsLink c a b) (hbd : KeepsLink c b d) :
    KeepsLink c a d :=
  ⟨hbd.1.trans hab.1, fun h => hbd.2 (hab.2 h)⟩

theorem keepsLink_of_sameChain {a b : Node} (h : a.SameChain b) : KeepsLink c a b := by
  obtain ⟨pool, g, rfl⟩ := h
  exact ⟨rfl, fun h => h⟩

theorem KeepsLink.main {a b : Node} (h : KeepsLink c a b) (hc : a.IsInMainChain c = true) :
    b.IsInMainChain c = true := by
  simp only [Node.IsInMainChain, Bool.or_eq_true] at hc ⊢
  rcases hc with hc | hc
  · exact .inl (h.2 hc)
  · rw [h.1]
    exact .inr hc

theorem inner_keepsLink (env : Env) (io : Io) (node : Node) (pindex c : CBlockIndex)
    (block : CBlock) : KeepsLink c node (block.SetBestChainInner env io node pindex).final := by
  have hattach : ∀ T hash ln1Db,
      KeepsLink c node { node.attach T hash pindex with ln1Db := ln1Db } := by
    intro T hash ln1Db
    exact ⟨rfl, fun h => linkAll_isSome (.inl h)⟩
  have hout := setBestChainInner_outcome env io node pindex block
  generalize block.SetBestChainInner env io node pindex = r at hout ⊢
  cases hout with
  | refused _ => exact keepsLink_of_sameChain (sameChain_setGlobals node _)
  | uncommitted _ _ => exact keepsLink_of_sameChain (sameChain_setGlobals node _)
  | interrupted _ _ hnode' => exact (hattach _ _ _).trans (keepsLink_of_sameChain hnode')
  | attached _ _ _ hnode' => exact (hattach _ _ _).trans (keepsLink_of_sameChain hnode')

theorem postponed_keepsLink (env : Env) (io : Io) (xs : List CBlockIndex) (node : Node)
    (c : CBlockIndex) : KeepsLink c node (connectPostponed env io xs node).final := by
  induction xs generalizing node with
  | nil => exact ⟨rfl, fun h => h⟩
  | cons pindex xs ih =>
      unfold connectPostponed
      split
      next => exact ⟨rfl, fun h => h⟩
      next block _ =>
        have hone := inner_keepsLink env io node pindex c block
        cases hrun : block.SetBestChainInner env io node pindex with
        | error e =>
            obtain ⟨stop, node'⟩ := e
            rw [hrun] at hone
            cases stop <;> exact hone
        | ok node' =>
            rw [hrun] at hone
            exact hone.trans (ih node')

theorem reorganize_keepsLink (env : Env) (io : Io) {node : Node}
    {c pindexNew pindexBest : CBlockIndex}
    (hbest : node.pindexBest = some pindexBest) (hc : c ∈ pindexNew.line) (hne : c ≠ pindexNew) :
    KeepsLink c node
      (Reorganize env io node (splitPostponed pindexBest.nChainTrust pindexNew).1).final := by
  have hswitch : ∀ best pfork T T' vResurrect,
      Disconnects env io node (splitPostponed pindexBest.nChainTrust pindexNew).1 best pfork T
        vResurrect →
      KeepsLink c node
        (node.switch T' (splitPostponed pindexBest.nChainTrust pindexNew).1 best pfork) := by
    intro best pfork T T' vResurrect hdis
    have hsame := hdis.best
    rw [hbest, Option.some.injEq] at hsame
    subst hsame
    exact ⟨rfl, fun h => switch_isSome hc hne hdis.fork h⟩
  have hout := reorganize_outcome env io node
    (splitPostponed pindexBest.nChainTrust pindexNew).1
  generalize Reorganize env io node (splitPostponed pindexBest.nChainTrust pindexNew).1 = r
    at hout ⊢
  cases hout with
  | refused _ => exact ⟨rfl, fun h => h⟩
  | failed _ _ => exact keepsLink_of_sameChain (sameChain_setGlobals node _)
  | uncommitted _ _ _ => exact keepsLink_of_sameChain (sameChain_setGlobals node _)
  | interrupted hdis _ _ hnode' =>
      exact (hswitch _ _ _ _ _ hdis).trans (keepsLink_of_sameChain hnode')
  | reorganized hdis _ _ hnode' =>
      exact (hswitch _ _ _ _ _ hdis).trans (keepsLink_of_sameChain hnode')

/-- A call that does not return `true` leaves the ancestors of its argument where they were. -/
theorem setBestChain_error_main {io : Io} {node' : Node} {e : Stop} (hc : c ∈ pindexNew.line)
    (hne : c ≠ pindexNew) (hmain : node.IsInMainChain c = true)
    (h : block.SetBestChain env io node pindexNew = .error (e, node')) :
    node'.IsInMainChain c = true := by
  unfold CBlock.SetBestChain at h
  simp only at h
  split at h
  next =>
    split at h
    · cases h
      exact hmain
    · cases h
  next =>
    split at h
    next =>
      have hinner := inner_keepsLink env io node pindexNew c block
      cases hrun : block.SetBestChainInner env io node pindexNew with
      | error s =>
          rw [hrun] at h hinner
          cases h
          exact hinner.main hmain
      | ok node₁ =>
          rw [hrun] at h
          cases h
    next =>
      split at h
      next =>
        cases h
        exact hmain
      next pindexBest hbest =>
        have hfirst := reorganize_keepsLink env io hbest hc hne
        cases hrun : Reorganize env io node
            (splitPostponed pindexBest.nChainTrust pindexNew).1 with
        | error s =>
            rw [hrun] at h hfirst
            cases h
            exact hfirst.main hmain
        | ok mid =>
            rw [hrun, Halt.final_ok] at hfirst
            rw [hrun] at h
            have hrest := postponed_keepsLink env io
              (splitPostponed pindexBest.nChainTrust pindexNew).2 mid c
            simp only [bind, Except.bind] at h
            cases hlast : connectPostponed env io
                (splitPostponed pindexBest.nChainTrust pindexNew).2 mid with
            | error s =>
                rw [hlast] at h hrest
                cases h
                exact (hfirst.trans hrest).main hmain
            | ok node₁ =>
                rw [hlast] at h
                cases h

/-! ## The invariant -/

/-- The entry of the current checkpoint. -/
def SyncNode.Checkpoint (s : SyncNode) (c : CBlockIndex) : Prop :=
  s.mapBlockIndex s.hashSyncCheckpoint = some c

structure SyncOk (env : Env) (s : SyncNode) : Prop where
  index : Stored env s.files s.mapBlockIndex
  genesis : s.pindexGenesisBlock.isSome = true
  equal : s.stored = s.hashSyncCheckpoint
  current : ∃ c, s.Checkpoint c ∧ s.IsInMainChain c = true

/-- The checkpoint has moved up the tree, and what has been indexed descends from the old one. -/
structure Advances (s s' : SyncNode) : Prop where
  known : ∀ pindex, s.Knows pindex → s'.Knows pindex
  bound : ∀ c, s.Checkpoint c → ∃ c', s'.Checkpoint c' ∧ c ∈ c'.line ∧
    ∀ pindex, s'.Knows pindex → ¬ s.Knows pindex → c ∈ pindex.line ∧ pindex ≠ c

theorem Advances.refl : Advances s s := by
  refine ⟨fun _ h => h, ?_⟩
  intro c hc
  exact ⟨c, hc, Lineage.mem_line_self c, fun pindex h hnot => absurd h hnot⟩

theorem Advances.trans (hab : Advances a b) (hbd : Advances b d) : Advances a d := by
  refine ⟨fun pindex h => hbd.known pindex (hab.known pindex h), ?_⟩
  intro c hc
  obtain ⟨c₁, hc₁, hline₁, hnew₁⟩ := hab.bound c hc
  obtain ⟨c₂, hc₂, hline₂, hnew₂⟩ := hbd.bound c₁ hc₁
  refine ⟨c₂, hc₂, Lineage.line_trans hline₁ hline₂, ?_⟩
  intro pindex hknown hnot
  by_cases hmid : b.Knows pindex
  · exact hnew₁ pindex hmid hnot
  · obtain ⟨hline, hne⟩ := hnew₂ pindex hknown hmid
    refine ⟨Lineage.line_trans hline₁ hline, ?_⟩
    rintro rfl
    exact hne (Lineage.line_antisymm hline₁ hline)

/-- A step keeps the invariant and moves the checkpoint up if at all. -/
def SyncSafe (env : Env) (s s' : SyncNode) : Prop :=
  SyncOk env s → SyncOk env s' ∧ Advances s s'

theorem SyncSafe.refl : SyncSafe env s s := fun h => ⟨h, Advances.refl⟩

theorem SyncSafe.trans (hab : SyncSafe env a b) (hbd : SyncSafe env b d) : SyncSafe env a d := by
  intro h
  obtain ⟨hb, hadv⟩ := hab h
  obtain ⟨hd, hadv'⟩ := hbd hb
  exact ⟨hd, hadv.trans hadv'⟩

theorem SyncSafe.congr (hab : SyncSafe env a b) (hnode : d.toNode = b.toNode)
    (hhash : d.hashSyncCheckpoint = b.hashSyncCheckpoint) (hstored : d.stored = b.stored) :
    SyncSafe env a d := by
  intro h
  obtain ⟨⟨hindex, hgenesis, hequal, hcurrent⟩, hadv⟩ := hab h
  refine ⟨⟨?_, ?_, ?_, ?_⟩, ?_, ?_⟩
  · rw [hnode]
    exact hindex
  · rw [hnode]
    exact hgenesis
  · rw [hhash, hstored]
    exact hequal
  · unfold SyncNode.Checkpoint
    rw [hnode, hhash]
    exact hcurrent
  · unfold Node.Knows
    rw [hnode]
    exact hadv.known
  · unfold SyncNode.Checkpoint Node.Knows
    rw [hnode, hhash]
    exact hadv.bound

/-! ## The walks -/

theorem SyncOk.knows (h : SyncOk env s) {hash : uint256} {pindex : CBlockIndex}
    (hp : s.mapBlockIndex hash = some pindex) : s.Knows pindex := by
  rw [Node.Knows, KnownIn, h.index.named hash pindex hp]
  exact hp

/-- A walk down to the height of the checkpoint that finds its hash has found it. -/
theorem SyncOk.walk (h : SyncOk env s) {c pindex : CBlockIndex} (hc : s.Checkpoint c)
    (hknown : s.Knows pindex)
    (hhash : CBlockIndex.GetBlockHash (pindex.dropTo c.nHeight) = s.hashSyncCheckpoint) :
    c ∈ pindex.line := by
  have hline := Lineage.dropTo_mem_line c.nHeight pindex
  have hfound := h.index.knows_line env hknown hline
  have hname := h.index.named _ _ hc
  have heq := knows_unique hfound (h.knows hc) (hhash.trans hname.symm)
  rwa [heq] at hline

/-- What `ValidateSyncCheckpoint` lets through descends from the checkpoint. -/
theorem validate_ok {s' : SyncNode} (h : SyncOk env s) {hash : uint256} {pindex : CBlockIndex}
    (hp : s.mapBlockIndex hash = some pindex) (hok : ValidateSyncCheckpoint s hash = .ok s') :
    s' = s ∧ ∃ c, s.Checkpoint c ∧ c ∈ pindex.line ∧ c ≠ pindex := by
  obtain ⟨c, hc, -⟩ := h.current
  have hsync : s.mapBlockIndex s.hashSyncCheckpoint = some c := hc
  unfold ValidateSyncCheckpoint at hok
  rw [hsync, hp] at hok
  simp only at hok
  split at hok
  next =>
    split at hok
    · cases hok
    · cases hok
  next hheight =>
    split at hok
    next => cases hok
    next hhash =>
      cases hok
      refine ⟨rfl, c, hc, h.walk hc (h.knows hp) (not_not.mp hhash), ?_⟩
      rintro rfl
      exact hheight (le_refl _)

theorem validate_error {s' : SyncNode} {hash : uint256} {e : Stop}
    (h : ValidateSyncCheckpoint s hash = .error (e, s')) : SyncSafe env s s' := by
  have hsame : s' = s ∨ s' = { s with hashInvalidCheckpoint := hash } := by
    unfold ValidateSyncCheckpoint at h
    split at h
    · cases h
      exact .inl rfl
    · cases h
      exact .inl rfl
    · simp only at h
      split at h
      · split at h
        · cases h
          exact .inr rfl
        · cases h
          exact .inl rfl
      · split at h
        · cases h
          exact .inr rfl
        · cases h
  rcases hsame with rfl | rfl
  · exact SyncSafe.refl
  · exact SyncSafe.refl.congr rfl rfl rfl

/-! ## Switching to the chain of a checkpoint -/

/-- When the call returns `true`, its argument is part of the main chain. -/
def MadeMain (env : Env) (io : Io) (node : Node) (pindexNew : CBlockIndex) (block : CBlock) :
    Prop :=
  ∀ node', block.SetBestChain env io node pindexNew = .ok node' →
    ∀ pindex ∈ pindexNew.line, node'.IsInMainChain pindex = true

theorem kept_files (io : Io) (pindexNew : CBlockIndex) (node : Node) :
    Kept env io pindexNew fun a => node.SameFiles a where
  sameChain := by
    rintro a b ha ⟨pool, g, rfl⟩
    exact ha
  attach := fun _ _ _ _ _ _ ha _ _ _ => ha
  switch := fun _ _ _ _ _ _ _ _ _ ha _ _ _ => ha
  newBest := fun _ _ ha => ha

theorem setBestChain_sameFiles (env : Env) (io : Io) {node : Node} {pindexNew : CBlockIndex}
    {block : CBlock}
    (hgenesis : node.pindexGenesisBlock.isSome = true)
    (hblock : node.files.blocks (pindexNew.nFile, pindexNew.nBlockPos) = some block) :
    node.SameFiles (block.SetBestChain env io node pindexNew).final :=
  (kept_files io pindexNew node).setBestChain ⟨rfl, rfl, rfl⟩ hgenesis hblock

/-- A node whose chain has changed, but not its block index. -/
theorem syncSafe_setNode (hfiles : s.toNode.SameFiles node)
    (hmain : ∀ c, s.Checkpoint c → s.IsInMainChain c = true → node.IsInMainChain c = true) :
    SyncSafe env s (s.setNode node) := by
  intro h
  obtain ⟨hf, hm, hg⟩ := hfiles
  have hmap : ∀ hash, (s.setNode node).mapBlockIndex hash = s.mapBlockIndex hash := fun hash =>
    congrFun hm hash
  obtain ⟨c, hc, hin⟩ := h.current
  refine ⟨⟨?_, ?_, h.equal, c, ?_, hmain c hc hin⟩, ?_, ?_⟩
  · change Stored env node.files node.mapBlockIndex
    rw [hf, hm]
    exact h.index
  · change node.pindexGenesisBlock.isSome = true
    rw [hg]
    exact h.genesis
  · exact (hmap _).trans hc
  · intro pindex hknown
    exact (hmap _).trans hknown
  · intro c' hc'
    refine ⟨c', (hmap _).trans hc', Lineage.mem_line_self c', ?_⟩
    intro pindex hknown hnot
    exact absurd ((hmap _).symm.trans hknown) hnot

/-- A call for a descendant of the checkpoint keeps the checkpoint in the main chain: when it
returns `true` by what is given, and when it does not because nothing below its argument is lost. -/
theorem setBestChain_safe {io : Io} (hgenesis : s.pindexGenesisBlock.isSome = true)
    (hc : s.Checkpoint c) (hline : c ∈ pindex.line) (hne : c ≠ pindex)
    (hblock : s.files.blocks (pindex.nFile, pindex.nBlockPos) = some block)
    (hmade : MadeMain env io s.toNode pindex block) :
    SyncSafe env s (s.setNode (block.SetBestChain env io s.toNode pindex).final) := by
  have hfiles := setBestChain_sameFiles env io hgenesis hblock
  refine syncSafe_setNode hfiles ?_
  intro c' hc' hin
  have hsame : c' = c := Option.some.inj (hc'.symm.trans hc)
  subst hsame
  cases hrun : block.SetBestChain env io s.toNode pindex with
  | ok node => exact hmade node hrun c' hline
  | error e => exact setBestChain_error_main hline hne hin hrun

/-- The chain of a descendant of the checkpoint is made the main chain, or nothing is lost. -/
theorem switchTo_safe (io : SyncIo) {s : SyncNode} {c pindex : CBlockIndex} (hash : uint256)
    (h : SyncOk env s) (hc : s.Checkpoint c) (hline : c ∈ pindex.line) (hne : c ≠ pindex)
    (hmade : ∀ block, (io.visible s.files).ReadFromDisk env pindex = some block →
      MadeMain env io.toIo s.toNode pindex block) :
    SyncSafe env s (switchTo env io s pindex hash).final ∧
      ∀ s', switchTo env io s pindex hash = .ok s' →
        s'.IsInMainChain pindex = true ∧ s'.hashPendingCheckpoint = s.hashPendingCheckpoint ∧
          s'.mapBlockIndex = s.mapBlockIndex ∧ s'.hashSyncCheckpoint = s.hashSyncCheckpoint := by
  unfold switchTo
  split
  next hin =>
    refine ⟨SyncSafe.refl, ?_⟩
    intro s' hs'
    cases hs'
    exact ⟨hin, rfl, rfl, rfl⟩
  next =>
    cases hread : (io.visible s.files).ReadFromDisk env pindex with
    | none =>
        refine ⟨SyncSafe.refl, ?_⟩
        intro s' hs'
        cases hs'
    | some block =>
        have hmade := hmade block hread
        have hblock := visible_blocks (readFromDisk_blocks env hread)
        have hsafe := setBestChain_safe h.genesis hc hline hne hblock hmade
        have hfiles := setBestChain_sameFiles env io.toIo h.genesis hblock
        cases hrun : block.SetBestChain env io.toIo s.toNode pindex with
        | ok node =>
            rw [hrun] at hsafe hfiles
            simp only [hrun]
            refine ⟨hsafe, ?_⟩
            intro s' hs'
            cases hs'
            exact ⟨hmade node hrun pindex (Lineage.mem_line_self pindex), rfl, hfiles.2.1, rfl⟩
        | error e =>
            obtain ⟨stop, node⟩ := e
            rw [hrun] at hsafe
            simp only [hrun]
            refine ⟨?_, ?_⟩
            · cases stop with
              | reject => exact hsafe.congr rfl rfl rfl
              | raised => exact hsafe
              | outOfRange => exact hsafe
              | undefined => exact hsafe
            · intro s' hs'
              cases stop <;> cases hs'

/-- A descendant of the checkpoint in the main chain may take its place. -/
theorem writeSyncCheckpoint_safe (env : Env) {io : SyncIo} {s s' : SyncNode} {c pindex : CBlockIndex}
    {hash : uint256} (hc : s.Checkpoint c) (hline : c ∈ pindex.line)
    (hp : s.mapBlockIndex hash = some pindex) (hin : s.IsInMainChain pindex = true)
    (hok : WriteSyncCheckpoint io s hash = .ok s') : SyncSafe env s s' := by
  unfold WriteSyncCheckpoint at hok
  split at hok
  · cases hok
  · cases hok
    intro h
    refine ⟨⟨h.index, h.genesis, rfl, pindex, hp, hin⟩, fun _ hknown => hknown, ?_⟩
    intro c' hc'
    have hsame : c' = c := Option.some.inj (hc'.symm.trans hc)
    rw [hsame]
    exact ⟨pindex, hp, hline, fun _ hknown hnot => absurd hknown hnot⟩

/-! ## The calls -/

/-- What is given of the call of `SetBestChain` for a checkpoint. -/
def SwitchMade (env : Env) (io : SyncIo) (s : SyncNode) (hash : uint256) : Prop :=
  ∀ pindex block, s.mapBlockIndex hash = some pindex →
    (io.visible s.files).ReadFromDisk env pindex = some block →
      MadeMain env io.toIo s.toNode pindex block

/-- From the switch to the chain of a valid checkpoint to the end. -/
theorem take_safe {io : SyncIo} {hash : uint256} (name : SyncNode → uint256)
    (finish : SyncNode → SyncNode) (h : SyncOk env s) (hp : s.mapBlockIndex hash = some pindex)
    (hvalid : ValidateSyncCheckpoint s hash = .ok s) (hmade : SwitchMade env io s hash)
    (hfinish : ∀ s', (finish s').toNode = s'.toNode ∧
      (finish s').hashSyncCheckpoint = s'.hashSyncCheckpoint ∧ (finish s').stored = s'.stored)
    (hname : ∀ s', s'.hashPendingCheckpoint = s.hashPendingCheckpoint → name s' = hash) :
    SyncSafe env s (switchTo env io s pindex hash >>= fun s' =>
      WriteSyncCheckpoint io s' (name s') >>= fun s' => .ok (finish s')).final := by
  obtain ⟨-, c, hc, hline, hne⟩ := validate_ok h hp hvalid
  obtain ⟨hsafe, hdone⟩ := switchTo_safe io hash h hc hline hne
    fun block hread => hmade pindex block hp hread
  cases hswitch : switchTo env io s pindex hash with
  | error e =>
      rw [hswitch] at hsafe
      exact hsafe
  | ok s₁ =>
      rw [hswitch, Halt.final_ok] at hsafe
      obtain ⟨hin, hpending, hmap, hsync⟩ := hdone s₁ hswitch
      have hmap₁ : ∀ k, s₁.mapBlockIndex k = s.mapBlockIndex k := fun k => congrFun hmap k
      simp only [bind, Except.bind, hname s₁ hpending]
      cases hwrite : WriteSyncCheckpoint io s₁ hash with
      | error e =>
          have hsame : e.2 = s₁ := by
            unfold WriteSyncCheckpoint at hwrite
            split at hwrite
            · cases hwrite
              rfl
            · cases hwrite
          change SyncSafe env s e.2
          rw [hsame]
          exact hsafe
      | ok s₂ =>
          have hc₁ : s₁.Checkpoint c := by
            rw [SyncNode.Checkpoint, hsync, hmap₁]
            exact hc
          have hlast := writeSyncCheckpoint_safe env hc₁ hline ((hmap₁ hash).trans hp) hin
            hwrite
          obtain ⟨hnode, hhash, hstored⟩ := hfinish s₂
          exact (hsafe.trans hlast).congr hnode hhash hstored

theorem acceptPending_safe {io : SyncIo} (hmade : SwitchMade env io s s.hashPendingCheckpoint) :
    SyncSafe env s (AcceptPendingSyncCheckpoint env io s).final := by
  intro h
  unfold AcceptPendingSyncCheckpoint
  split
  next => exact SyncSafe.refl h
  next =>
    cases hp : s.mapBlockIndex s.hashPendingCheckpoint with
    | none => exact SyncSafe.refl h
    | some pindex =>
        cases hvalid : ValidateSyncCheckpoint s s.hashPendingCheckpoint with
        | error e =>
            obtain ⟨stop, s'⟩ := e
            exact (validate_error hvalid).congr rfl rfl rfl h
        | ok s' =>
            obtain ⟨rfl, -⟩ := validate_ok h hp hvalid
            exact take_safe (fun s => s.hashPendingCheckpoint) (fun s => { s with
              hashPendingCheckpoint := 0
              checkpointMessage := s.checkpointMessagePending
              checkpointMessagePending := CSyncCheckpoint.null }) h hp hvalid hmade
              (fun _ => ⟨rfl, rfl, rfl⟩) (fun _ hpending => hpending) h

theorem processSyncCheckpoint_safe {Verify : List UInt8 → List UInt8 → Bool} {io : SyncIo}
    {checkpoint : CSyncCheckpoint} (hmade : ∀ read, checkpoint.CheckSignature Verify = .ok read →
      SwitchMade env io s read.hashCheckpoint) :
    SyncSafe env s (checkpoint.ProcessSyncCheckpoint env Verify io s).final := by
  intro h
  unfold CSyncCheckpoint.ProcessSyncCheckpoint
  cases hsig : checkpoint.CheckSignature Verify with
  | error e => exact SyncSafe.refl h
  | ok read =>
      simp only [Exec.within, bind, Except.bind]
      cases hp : s.mapBlockIndex read.hashCheckpoint with
      | none => exact SyncSafe.refl.congr rfl rfl rfl h
      | some pindex =>
          cases hvalid : ValidateSyncCheckpoint s read.hashCheckpoint with
          | error e => exact validate_error hvalid h
          | ok s' =>
              obtain ⟨rfl, -⟩ := validate_ok h hp hvalid
              exact take_safe (fun _ => read.hashCheckpoint) (fun s => { s with
                checkpointMessage := read
                hashPendingCheckpoint := 0
                checkpointMessagePending := CSyncCheckpoint.null }) h hp hvalid (hmade read hsig)
                (fun _ => ⟨rfl, rfl, rfl⟩) (fun _ _ => rfl) h

/-! ### Accepting a block -/

/-- A block that changes anything has passed the test against the checkpoint. -/
theorem acceptBlock_cpSatisfies {io : Io} (h : (block.AcceptBlock env io node).final ≠ node) :
    io.cpSatisfies = true := by
  by_contra hnot
  apply h
  unfold CBlock.AcceptBlock
  cases hversion : (require (env.V4 node.nBestHeight = true ∨
      block.nVersion ≤ CBlock.CURRENT_VERSION)).within node with
  | error e =>
      rw [within_eq_error] at hversion
      exact hversion.2.symm
  | ok _ =>
      cases hnew : (require ((node.mapBlockIndex (block.GetHash env)).isNone = true)).within
          node with
      | error e =>
          rw [within_eq_error] at hnew
          exact hnew.2.symm
      | ok _ =>
          simp only [bind, Except.bind]
          cases node.mapBlockIndex block.hashPrevBlock with
          | none => rfl
          | some pindexPrev =>
              cases hchecks : acceptBlockChecks env io node pindexPrev block with
              | error e => simp only [hchecks, Exec.within, Halt.final_error]
              | ok _ =>
                  simp only [acceptBlockChecks, seq_ok, require_eq_ok, exists_const] at hchecks
                  obtain ⟨_, -, -, -, -, -, -, -, _, -, -, -, -, _, -, hcp, -⟩ := hchecks
                  exact absurd hcp hnot

/-- A new block that the test lets through descends from the checkpoint. -/
theorem checkSync_descends (hmain : env.fTestNet = false) (h : SyncOk env s) {c : CBlockIndex}
    (hc : s.Checkpoint c) (hprev : s.mapBlockIndex block.hashPrevBlock = some pindexPrev)
    (hnew : s.mapBlockIndex (block.GetHash env) = none) (hok : s.cpSatisfies env block = .ok true) :
    c ∈ pindexPrev.line := by
  have hsync : s.mapBlockIndex s.hashSyncCheckpoint = some c := hc
  simp only [SyncNode.cpSatisfies, hprev, CheckSync, hmain, Bool.false_eq_true, ↓reduceIte,
    hsync] at hok
  split at hok
  next => cases hok
  next habove =>
    split at hok
    next => cases hok
    next hsame =>
      split at hok
      next => cases hok
      next hbelow =>
        have hheight : c.nHeight < pindexPrev.nHeight + 1 := by
          rcases Nat.lt_trichotomy (pindexPrev.nHeight + 1) c.nHeight with hlt | heq | hgt
          · exact absurd ⟨hlt, by simp [hnew]⟩ hbelow
          · have hhash : block.GetHash env ≠ s.hashSyncCheckpoint := by
              intro hhash
              rw [hhash, hsync] at hnew
              cases hnew
            exact absurd ⟨heq, hhash⟩ hsame
          · exact hgt
        have hfound : CBlockIndex.GetBlockHash (pindexPrev.dropTo c.nHeight) =
            s.hashSyncCheckpoint := by
          by_contra hother
          exact habove ⟨hheight, .inr hother⟩
        exact h.walk hc (h.knows hprev) hfound

/-- What is given of the calls of `SetBestChain` while a block is accepted: for the block itself,
and for a pending checkpoint afterwards. -/
structure AcceptMade (env : Env) (io : SyncIo) (s : SyncNode) (block : CBlock) : Prop where
  tip : ∀ cpSatisfies, MadeMain env { io.toIo with cpSatisfies := cpSatisfies }
    (s.toNode.store env block) (s.toNode.entryFor env block) block
  pending : ∀ cpSatisfies node, block.AcceptBlock env
      { io.toIo with cpSatisfies := cpSatisfies } s.toNode = .ok node →
    SwitchMade env io (s.setNode node) s.hashPendingCheckpoint

theorem entryFor_descends (env : Env) {node : Node} {block : CBlock}
    {c pindexPrev : CBlockIndex}
    (hline : c ∈ pindexPrev.line)
    (hprev : node.mapBlockIndex block.hashPrevBlock = some pindexPrev) :
    c ∈ (node.entryFor env block).line ∧ c ≠ node.entryFor env block := by
  have hparent : CBlockIndex.pprev (node.entryFor env block) = some pindexPrev := by
    rw [entryFor_pprev, hprev]
  obtain ⟨data, hchild⟩ := Lineage.parent?_eq_some.mp hparent
  rw [hchild]
  refine ⟨List.mem_cons_of_mem _ hline, ?_⟩
  rintro rfl
  exact Lineage.not_mem_line_parent _ _ hline

theorem store_checkpoint (h : SyncOk env s) (hc : s.Checkpoint c)
    (hnew : s.mapBlockIndex (block.GetHash env) = none) :
    (s.setNode (s.toNode.store env block)).Checkpoint c := by
  have hknown : (s.toNode.store env block).Knows c := (h.knows hc).store hnew
  rw [Node.Knows, KnownIn, h.index.named _ _ hc] at hknown
  exact hknown

theorem store_safe (hc : s.Checkpoint c) (hline : c ∈ pindexPrev.line)
    (hprev : s.mapBlockIndex block.hashPrevBlock = some pindexPrev)
    (hnew : s.mapBlockIndex (block.GetHash env) = none) :
    SyncSafe env s (s.setNode (s.toNode.store env block)) := by
  intro h
  obtain ⟨c', hc', hin⟩ := h.current
  have hkept : ∀ pindex, s.Knows pindex → (s.toNode.store env block).Knows pindex :=
    fun _ hknown => hknown.store hnew
  refine ⟨⟨h.index.store hnew, h.genesis, h.equal, c', store_checkpoint h hc' hnew, hin⟩, hkept,
    ?_⟩
  intro d hd
  have hsame : d = c := Option.some.inj (hd.symm.trans hc)
  subst hsame
  refine ⟨d, store_checkpoint h hd hnew, Lineage.mem_line_self d, ?_⟩
  intro pindex hknown hnot
  -- the only new entry is the one of the block
  have hentry : pindex = s.toNode.entryFor env block := by
    change Function.update s.mapBlockIndex (block.GetHash env)
      (some (s.toNode.entryFor env block)) pindex.GetBlockHash = some pindex at hknown
    by_cases hhash : pindex.GetBlockHash = block.GetHash env
    · rw [hhash, Function.update_self, Option.some.injEq] at hknown
      exact hknown.symm
    · rw [Function.update_of_ne hhash] at hknown
      exact absurd hknown hnot
  obtain ⟨hdescends, hne⟩ := entryFor_descends env hline hprev
  rw [hentry]
  exact ⟨hdescends, hne.symm⟩

theorem acceptBlockSync_safe (hmain : env.fTestNet = false) {io : SyncIo} {s : SyncNode}
    {block : CBlock} (hmade : AcceptMade env io s block) :
    SyncSafe env s (block.AcceptBlockSync env .STRICT io s).final := by
  intro h
  unfold CBlock.AcceptBlockSync
  cases hcp : s.cpSatisfies env block with
  | error e => exact SyncSafe.refl h
  | ok cpSatisfies =>
      simp only [Exec.within, bind, Except.bind, true_implies]
      generalize hio : ({ io.toIo with cpSatisfies := decide (cpSatisfies = true) } : Io) = ioCp
      have haccept : SyncSafe env s (s.setNode (block.AcceptBlock env ioCp s.toNode).final) := by
        by_cases hsame : (block.AcceptBlock env ioCp s.toNode).final = s.toNode
        · rw [hsame]
          exact SyncSafe.refl
        · have hpass := acceptBlock_cpSatisfies hsame
          rw [← hio, decide_eq_true_eq] at hpass
          subst hpass
          rcases acceptBlock_cases ioCp s.toNode block with heq | ⟨hprev, hnew, hcases⟩
          · exact absurd heq hsame
          · obtain ⟨pindexPrev, hprev⟩ := Option.isSome_iff_exists.mp hprev
            obtain ⟨c, hc, -⟩ := h.current
            have hline := checkSync_descends hmain h hc hprev hnew hcp
            have hstore : SyncSafe env s (s.setNode (s.toNode.store env block)) :=
              store_safe hc hline hprev hnew
            rcases hcases with hstored | ⟨-, hset⟩
            · rw [hstored]
              exact hstore
            · rw [hset]
              have htip := hmade.tip (decide (true = true))
              rw [hio] at htip
              obtain ⟨hdescends, hne⟩ := entryFor_descends env hline hprev
              exact hstore.trans (setBestChain_safe h.genesis (store_checkpoint h hc hnew) hdescends
                hne (store_blocks s.toNode block) htip)
      have hpending := hmade.pending (decide (cpSatisfies = true))
      rw [hio] at hpending
      cases hrun : block.AcceptBlock env ioCp s.toNode with
      | error e =>
          rw [hrun] at haccept
          exact haccept h
      | ok node =>
          rw [hrun, Halt.final_ok] at haccept
          simp only [Halt.lift, Halt.final_attempt]
          exact haccept.trans (acceptPending_safe (hpending node hrun)) h

end Dions
