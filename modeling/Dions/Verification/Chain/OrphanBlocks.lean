import Dions.Model.OrphanBlocks
import Dions.Verification.Chain.BlockIndex
import Dions.Verification.Chain.SyncRuns

/-! # The pool of orphan blocks

The two maps and the set of stakes agree whenever `ProcessBlock` returns, and what is held waits for
an unknown parent, as long as no call of `AcceptBlock` fails for a block that it has already put into
the block index while others wait for it, and no stake is held twice. -/

namespace Dions

open Halting Checkpoints

variable {env : Env} {mode : CPMode} {Verify : List UInt8 → List UInt8 → Bool}
variable {block : CBlock}
variable {s : BlockNode} {i : ℕ}

/-! ## The pool -/

namespace BlockNode

def Holds (env : Env) (s : BlockNode) (block : CBlock) : Prop :=
  s.mapOrphanBlocks.find (block.GetHash env) = some block

/-- The three containers hold the same blocks. -/
structure Linked (env : Env) (s : BlockNode) : Prop where
  own : ∀ hash block, s.mapOrphanBlocks.find hash = some block → block.GetHash env = hash
  byPrev_iff : ∀ prev block, (prev, block) ∈ s.mapOrphanBlocksByPrev ↔
    s.Holds env block ∧ prev = block.hashPrevBlock
  once : s.mapOrphanBlocksByPrev.Nodup
  stakes : ∀ stake, stake ∈ s.setStakeSeenOrphan ↔
    ∃ block, s.Holds env block ∧ block.IsProofOfStake = true ∧ block.GetProofOfStake = stake

/-- What holds between two calls: every block held waits for an unknown parent. -/
structure PoolsAgree (env : Env) (s : BlockNode) : Prop extends Linked env s where
  waiting : ∀ block, s.Holds env block → s.mapBlockIndex block.hashPrevBlock = none

/-- The pools are those of `s`, and in the block index only the entry of the block may differ. -/
structure Accepts (env : Env) (block : CBlock) (s s' : BlockNode) : Prop where
  orphans : s'.mapOrphanBlocks = s.mapOrphanBlocks
  byPrev : s'.mapOrphanBlocksByPrev = s.mapOrphanBlocksByPrev
  stakes : s'.setStakeSeenOrphan = s.setStakeSeenOrphan
  index : ∀ hash, hash ≠ block.GetHash env → s'.mapBlockIndex hash = s.mapBlockIndex hash

theorem AcceptBlock_accepts (io : SyncIo) (s : BlockNode) (block : CBlock) :
    Accepts env block s (s.AcceptBlock env mode io block).final := by
  have hindex := @acceptBlockSync_mapBlockIndex env mode io s.toSyncNode block
  rw [AcceptBlock]
  generalize block.AcceptBlockSync env mode io s.toSyncNode = r at hindex ⊢
  rcases r with e | sync
  · exact ⟨rfl, rfl, rfl, fun hash hne => hindex hne⟩
  · exact ⟨rfl, rfl, rfl, fun hash hne => hindex hne⟩

theorem Holds.eq {a b : CBlock} (ha : s.Holds env a) (hb : s.Holds env b)
    (h : a.GetHash env = b.GetHash env) : a = b := by
  rw [Holds, h, hb] at ha
  exact (Option.some.inj ha).symm

theorem Accepts.holds_iff {s' : BlockNode} (h : Accepts env block s s') (b : CBlock) :
    s'.Holds env b ↔ s.Holds env b := by
  rw [Holds, Holds, h.orphans]

theorem holds_release (s : BlockNode) (block b : CBlock) :
    (s.release env block).Holds env b ↔
      s.Holds env b ∧ b.GetHash env ≠ block.GetHash env := by
  rw [Holds, Holds, release, OrdMap.find_erase]
  split
  · rename_i h
    exact iff_of_false (fun hnone => nomatch hnone) fun hboth => hboth.2 h
  · rename_i h
    rw [and_iff_left h]

theorem stake_not_null (h : block.IsProofOfStake = true) :
    block.GetProofOfStake.1.IsNull = false := by
  rw [CBlock.GetProofOfStake, if_pos h]
  rw [CBlock.IsProofOfStake] at h
  split at h
  · rename_i first tx rest hvtx
    rw [hvtx, List.getElem?_cons_succ, List.getElem?_cons_zero]
    rw [CTransaction.IsCoinStake] at h
    split at h
    · rename_i txin vin txout txout' vout hvin hvout
      rw [Bool.and_eq_true, Bool.not_eq_true'] at h
      have hstake : (((tx.vin.head?.map CTxIn.prevout).getD COutPoint.null, tx.nTime) :
          ProofOfStake).1.IsNull = false := by
        rw [hvin]
        exact h.1
      exact hstake
    · cases h
  · cases h

/-- A proof-of-work block does not have the stake of a proof-of-stake block. -/
theorem getProofOfStake_ne {block' : CBlock} (h : block.IsProofOfStake = true)
    (h' : ¬block'.IsProofOfStake = true) : block.GetProofOfStake ≠ block'.GetProofOfStake := by
  intro heq
  have hnull := stake_not_null h
  rw [heq, CBlock.GetProofOfStake, if_neg h'] at hnull
  cases hnull

/-! ## Releasing -/

/-- The state while the children of `hashPrev` are tried, those in `rest` still to come: a block held
waits for an unknown parent, for `hashPrev`, or for a block in the queue behind it. -/
structure Releasing (env : Env) (pending : List uint256) (hashPrev : uint256) (rest : List CBlock)
    (s : BlockNode) : Prop where
  own : ∀ hash block, s.mapOrphanBlocks.find hash = some block → block.GetHash env = hash
  holds_iff : ∀ prev block, s.Holds env block ∧ prev = block.hashPrevBlock ↔
    (prev, block) ∈ s.mapOrphanBlocksByPrev ∧ (prev = hashPrev → block ∈ rest)
  children : ∀ block ∈ rest, (hashPrev, block) ∈ s.mapOrphanBlocksByPrev
  once : s.mapOrphanBlocksByPrev.Nodup
  nodup : rest.Nodup
  stakes : ∀ stake, stake ∈ s.setStakeSeenOrphan ↔
    ∃ block, s.Holds env block ∧ block.IsProofOfStake = true ∧ block.GetProofOfStake = stake
  waiting : ∀ block, s.Holds env block → s.mapBlockIndex block.hashPrevBlock = none ∨
    block.hashPrevBlock = hashPrev ∨ block.hashPrevBlock ∈ pending

/-- `AcceptBlock` does not fail for a block it has already put into the index while others wait
for it. -/
def Settles (env : Env) (mode : CPMode) (io : SyncIo) (s : BlockNode) (block : CBlock) : Prop :=
  ∀ s', s.AcceptBlock env mode io block = .error (.reject, s') →
    s.mapBlockIndex (block.GetHash env) = none →
      (s'.mapBlockIndex (block.GetHash env)).isSome = true →
        ∀ b, s.Holds env b → b.hashPrevBlock ≠ block.GetHash env

/-- No other block that is held has the stake of this one. -/
def StakeAlone (env : Env) (s : BlockNode) (block : CBlock) : Prop :=
  ∀ b, s.Holds env b → b.IsProofOfStake = true → block.IsProofOfStake = true →
    b.GetProofOfStake = block.GetProofOfStake → b = block

variable {s s' : BlockNode} {pending pending' : List uint256} {hashPrev : uint256} {block : CBlock}
  {rest : List CBlock}

/-- A child is released after its call; blocks that wait for it come behind it in the queue, or its
hash is still unknown, or nothing waits for it. -/
theorem Releasing.release (h : s.Releasing env pending hashPrev (block :: rest))
    (haccept : Accepts env block s s') (halone : s.StakeAlone env block)
    (hpending : ∀ hash ∈ pending, hash ∈ pending')
    (hwait : s.mapBlockIndex (block.GetHash env) = none →
      s'.mapBlockIndex (block.GetHash env) = none ∨ block.GetHash env ∈ pending' ∨
        ∀ b, s.Holds env b → b.hashPrevBlock ≠ block.GetHash env) :
    (s'.release env block).Releasing env pending' hashPrev rest := by
  have hheld : s.Holds env block ∧ hashPrev = block.hashPrevBlock :=
    (h.holds_iff hashPrev block).mpr ⟨h.children block List.mem_cons_self,
      fun _ => List.mem_cons_self⟩
  have hiff : ∀ b, (s'.release env block).Holds env b ↔
      s.Holds env b ∧ b.GetHash env ≠ block.GetHash env := by
    intro b
    rw [holds_release, haccept.holds_iff]
  have hnodup := List.nodup_cons.mp h.nodup
  refine
    { own := fun hash b hfind => ?_
      holds_iff := fun prev b => ?_
      children := fun b hb => ?_
      once := ?_
      nodup := hnodup.2
      stakes := fun stake => ?_
      waiting := fun b hb => ?_ }
  · rw [BlockNode.release, OrdMap.find_erase, haccept.orphans] at hfind
    split at hfind
    · cases hfind
    · exact h.own hash b hfind
  · rw [hiff, and_right_comm, h.holds_iff]
    have hbyPrev : (s'.release env block).mapOrphanBlocksByPrev = s.mapOrphanBlocksByPrev :=
      haccept.byPrev
    rw [hbyPrev]
    constructor
    · intro ⟨⟨hmem, hrest⟩, hne⟩
      refine ⟨hmem, fun hprev => ?_⟩
      rcases List.mem_cons.mp (hrest hprev) with rfl | hb
      · exact absurd rfl hne
      · exact hb
    · intro ⟨hmem, hrest⟩
      refine ⟨⟨hmem, fun hprev => List.mem_cons_of_mem _ (hrest hprev)⟩, fun hhash => ?_⟩
      have hb := (h.holds_iff prev b).mpr ⟨hmem, fun hprev => List.mem_cons_of_mem _ (hrest hprev)⟩
      have heq : b = block := hb.1.eq hheld.1 hhash
      subst heq
      exact hnodup.1 (hrest (hb.2.trans hheld.2.symm))
  · have hbyPrev : (s'.release env block).mapOrphanBlocksByPrev = s.mapOrphanBlocksByPrev :=
      haccept.byPrev
    rw [hbyPrev]
    exact h.children b (List.mem_cons_of_mem _ hb)
  · exact haccept.byPrev ▸ h.once
  · have hset : stake ∈ (s'.release env block).setStakeSeenOrphan ↔
        stake ≠ block.GetProofOfStake ∧ stake ∈ s.setStakeSeenOrphan := by
      rw [BlockNode.release, Finset.mem_erase, haccept.stakes]
    rw [hset, h.stakes]
    constructor
    · intro ⟨hne, b, hb, hstake, heq⟩
      refine ⟨b, (hiff b).mpr ⟨hb, fun hhash => ?_⟩, hstake, heq⟩
      rw [hb.eq hheld.1 hhash] at heq
      exact hne heq.symm
    · intro ⟨b, hb, hstake, heq⟩
      obtain ⟨hb, hne⟩ := (hiff b).mp hb
      refine ⟨fun hsame => ?_, b, hb, hstake, heq⟩
      by_cases hwork : block.IsProofOfStake = true
      · exact hne (congrArg _ (halone b hb hstake hwork (heq.trans hsame)))
      · exact getProofOfStake_ne hstake hwork (heq.trans hsame)
  · obtain ⟨hb, _⟩ := (hiff b).mp hb
    have hindex : (s'.release env block).mapBlockIndex = s'.mapBlockIndex := rfl
    have hold := h.waiting b hb
    rw [hindex]
    by_cases hhash : b.hashPrevBlock = block.GetHash env
    · rw [hhash] at hold ⊢
      rcases hold with hnone | hprev | hmem
      · rcases hwait hnone with hnone' | hmem | hnobody
        · exact .inl hnone'
        · exact .inr (.inr hmem)
        · exact absurd hhash (hnobody b hb)
      · exact .inr (.inl hprev)
      · exact .inr (.inr (hpending _ hmem))
    · rw [haccept.index _ hhash]
      exact hold.imp id (Or.imp id (hpending _))

/-- What holds between two rounds: a block held waits for an unknown parent or for a block in the
queue. -/
structure Queued (env : Env) (pending : List uint256) (s : BlockNode) : Prop extends Linked env s where
  waiting : ∀ block, s.Holds env block → s.mapBlockIndex block.hashPrevBlock = none ∨
    block.hashPrevBlock ∈ pending

theorem mem_childrenOf {s : BlockNode} {hash : uint256} {block : CBlock} :
    block ∈ s.childrenOf hash ↔ (hash, block) ∈ s.mapOrphanBlocksByPrev := by
  rw [childrenOf, List.mem_map]
  constructor
  · intro ⟨e, he, heq⟩
    have hmem := List.mem_filter.mp he
    have hhash : e.1 = hash := of_decide_eq_true hmem.2
    subst hhash
    subst heq
    exact hmem.1
  · intro hmem
    exact ⟨(hash, block), List.mem_filter.mpr ⟨hmem, decide_eq_true rfl⟩, rfl⟩

theorem Queued.round (h : s.Queued env (hashPrev :: pending)) :
    s.Releasing env pending hashPrev (s.childrenOf hashPrev) := by
  refine
    { own := h.own
      holds_iff := fun prev b => ?_
      children := fun b hb => mem_childrenOf.mp hb
      once := h.once
      nodup := ?_
      stakes := h.stakes
      waiting := fun b hb => ?_ }
  · rw [← h.byPrev_iff]
    constructor
    · intro hmem
      exact ⟨hmem, fun hprev => mem_childrenOf.mpr (hprev ▸ hmem)⟩
    · intro ⟨hmem, _⟩
      exact hmem
  · refine List.Nodup.map_on ?_ (h.once.filter _)
    intro a ha b hb hab
    have hprev : ∀ e ∈ s.mapOrphanBlocksByPrev.filter (fun e => e.1 = hashPrev),
        e.1 = hashPrev := fun e he => of_decide_eq_true (List.mem_filter.mp he).2
    exact Prod.ext ((hprev a ha).trans (hprev b hb).symm) hab
  · exact (h.waiting b hb).imp id List.mem_cons.mp

theorem Releasing.drop (h : s.Releasing env pending hashPrev []) :
    (s.dropChildren hashPrev).Queued env pending := by
  have hprev : ∀ b, s.Holds env b → b.hashPrevBlock ≠ hashPrev := by
    intro b hb heq
    exact List.not_mem_nil (((h.holds_iff b.hashPrevBlock b).mp ⟨hb, rfl⟩).2 heq)
  refine
    { own := h.own
      byPrev_iff := fun prev b => ?_
      once := h.once.filter _
      stakes := h.stakes
      waiting := fun b hb => ?_ }
  · have hholds : (s.dropChildren hashPrev).Holds env b ↔ s.Holds env b := Iff.rfl
    have hmem : (prev, b) ∈ (s.dropChildren hashPrev).mapOrphanBlocksByPrev ↔
        (prev, b) ∈ s.mapOrphanBlocksByPrev ∧ decide (prev ≠ hashPrev) = true := List.mem_filter
    rw [hmem, hholds, h.holds_iff]
    refine and_congr_right fun _ => ?_
    rw [decide_eq_true_iff]
    exact ⟨fun hne heq => absurd heq hne, fun hrest heq => List.not_mem_nil (hrest heq)⟩
  · rcases h.waiting b hb with hnone | heq | hmem
    · exact .inl hnone
    · exact absurd heq (hprev b hb)
    · exact .inr hmem

end BlockNode

namespace BlockQueue

open BlockNode

variable {io : ℕ → SyncIo} {q q' : BlockQueue} {hashPrev : uint256} {pending : List uint256}

theorem tryOrphan_ok (hrun : q.tryOrphan env mode io block = .ok q') :
    ∃ s' new, BlockNode.Accepts env block q.node s' ∧ q'.node = s'.release env block ∧
      q'.vWorkQueue = q.vWorkQueue ++ new ∧
      (new = [block.GetHash env] ∨
        new = [] ∧ q.node.AcceptBlock env mode (io q.nCalls) block = .error (.reject, s')) := by
  have haccept := @AcceptBlock_accepts env mode (io q.nCalls) q.node block
  rw [tryOrphan] at hrun
  cases hcall : q.node.AcceptBlock env mode (io q.nCalls) block with
  | ok s' =>
    rw [hcall] at haccept hrun
    cases hrun
    exact ⟨s', [block.GetHash env], haccept, rfl, rfl, .inl rfl⟩
  | error e =>
    rw [hcall] at haccept hrun
    rcases e with ⟨_ | _ | _ | _, s'⟩
    · cases hrun
      exact ⟨s', [], haccept, rfl, (List.append_nil _).symm, .inr ⟨rfl, rfl⟩⟩
    · cases hrun
    · cases hrun
    · cases hrun

/-- Each child that is tried settles, and has its stake alone. -/
def CalmChildren (env : Env) (mode : CPMode) (io : ℕ → SyncIo) : BlockQueue → List CBlock → Prop
  | _, [] => True
  | q, block :: rest =>
    q.node.Settles env mode (io q.nCalls) block ∧ q.node.StakeAlone env block ∧
      ∀ q', q.tryOrphan env mode io block = .ok q' → CalmChildren env mode io q' rest

theorem tryChildren_grows {rest : List CBlock} {q q' : BlockQueue}
    (hrun : q.tryChildren env mode io rest = .ok q') :
    q'.node.mapOrphanBlocksByPrev = q.node.mapOrphanBlocksByPrev ∧
      ∃ new, q'.vWorkQueue = q.vWorkQueue ++ new ∧ new.length ≤ rest.length := by
  induction rest generalizing q with
  | nil =>
    cases hrun
    exact ⟨rfl, [], (List.append_nil _).symm, Nat.le_refl _⟩
  | cons block rest ih =>
    obtain ⟨q₁, hone, hrest⟩ := seq_ok.mp hrun
    obtain ⟨s', new, haccept, hnode, hqueue, hnew⟩ := tryOrphan_ok hone
    obtain ⟨hbyPrev, new', hqueue', hle⟩ := ih hrest
    have hbyPrev' : q₁.node.mapOrphanBlocksByPrev = q.node.mapOrphanBlocksByPrev := by
      rw [hnode]
      exact haccept.byPrev
    refine ⟨hbyPrev.trans hbyPrev', new ++ new', ?_, ?_⟩
    · rw [hqueue', hqueue, List.append_assoc]
    · have hone : new.length ≤ 1 := by
        rcases hnew with rfl | ⟨rfl, _⟩
        · exact Nat.le_refl _
        · exact Nat.zero_le _
      rw [List.length_append, List.length_cons, Nat.add_comm]
      exact Nat.add_le_add hle hone

theorem tryChildren_releasing {rest : List CBlock} {q q' : BlockQueue} {pending : List uint256}
    (h : q.node.Releasing env pending hashPrev rest) (hcalm : q.CalmChildren env mode io rest)
    (hrun : q.tryChildren env mode io rest = .ok q') :
    ∃ new, q'.vWorkQueue = q.vWorkQueue ++ new ∧
      q'.node.Releasing env (pending ++ new) hashPrev [] := by
  induction rest generalizing q pending with
  | nil =>
    cases hrun
    refine ⟨[], (List.append_nil _).symm, ?_⟩
    rw [List.append_nil]
    exact h
  | cons block rest ih =>
    obtain ⟨q₁, hone, hrest⟩ := seq_ok.mp hrun
    obtain ⟨hsettles, halone, hcalm⟩ := hcalm
    obtain ⟨s', new, haccept, hnode, hqueue, hnew⟩ := tryOrphan_ok hone
    have hround : q₁.node.Releasing env (pending ++ new) hashPrev rest := by
      rw [hnode]
      refine h.release haccept halone (fun hash hmem => List.mem_append_left _ hmem) ?_
      intro hnone
      rcases hnew with rfl | ⟨rfl, herror⟩
      · exact .inr (.inl (List.mem_append_right _ List.mem_cons_self))
      · cases hindex : s'.mapBlockIndex (block.GetHash env) with
        | none => exact .inl rfl
        | some pindex =>
          exact .inr (.inr (hsettles s' herror hnone (hindex ▸ rfl)))
    obtain ⟨new', hqueue', hdone⟩ := ih hround (hcalm q₁ hone) hrest
    refine ⟨new ++ new', ?_, ?_⟩
    · rw [hqueue', hqueue, List.append_assoc]
    · rw [← List.append_assoc]
      exact hdone

/-- The loop over the queue is calm when each of its rounds is. -/
def Calm (env : Env) (mode : CPMode) (io : ℕ → SyncIo) : (fuel i : ℕ) → BlockQueue → Prop
  | 0, _, _ => True
  | fuel + 1, i, q =>
    ∀ hashPrev, q.vWorkQueue[i]? = some hashPrev →
      q.CalmChildren env mode io (q.node.childrenOf hashPrev) ∧
        ∀ q', q.tryChildren env mode io (q.node.childrenOf hashPrev) = .ok q' →
          Calm env mode io fuel (i + 1) { q' with node := q'.node.dropChildren hashPrev }

theorem drop_append_new {α : Type} {xs new : List α} (hi : i < xs.length) :
    (xs ++ new).drop (i + 1) = xs.drop (i + 1) ++ new :=
  List.drop_append_of_le_length hi

/-- When the loop is through, every block held waits for an unknown parent. -/
theorem resolve_poolsAgree {fuel : ℕ} {q q' : BlockQueue}
    (h : q.node.Queued env (q.vWorkQueue.drop i)) (hcalm : q.Calm env mode io fuel i)
    (hrun : q.resolve env mode io fuel i = .ok q') : q'.node.PoolsAgree env := by
  induction fuel generalizing i q with
  | zero => cases hrun
  | succ fuel ih =>
    rw [resolve] at hrun
    cases hhead : q.vWorkQueue[i]? with
    | none =>
      rw [hhead] at hrun
      cases hrun
      rw [List.drop_eq_nil_of_le (List.getElem?_eq_none_iff.mp hhead)] at h
      exact ⟨h.toLinked, fun b hb => (h.waiting b hb).resolve_right List.not_mem_nil⟩
    | some hashPrev =>
      rw [hhead] at hrun
      obtain ⟨q₁, hchildren, hrest⟩ := seq_ok.mp hrun
      obtain ⟨hcalmChildren, hcalmRest⟩ := hcalm hashPrev hhead
      obtain ⟨hi, hget⟩ := List.getElem?_eq_some_iff.mp hhead
      rw [List.drop_eq_getElem_cons hi, hget] at h
      obtain ⟨new, hqueue, hdone⟩ := tryChildren_releasing h.round hcalmChildren hchildren
      refine ih ?_ (hcalmRest q₁ hchildren) hrest
      rw [hqueue, drop_append_new hi]
      exact hdone.drop

theorem tryOrphan_avoids (q : BlockQueue) (block : CBlock) :
    (q.tryOrphan env mode io block).Avoids .reject := by
  rw [tryOrphan]
  rcases q.node.AcceptBlock env mode (io q.nCalls) block with ⟨_ | _ | _ | _, s⟩ | s
  · exact Halt.avoids_ok _
  · exact Halt.avoids_error.mpr (by decide)
  · exact Halt.avoids_error.mpr (by decide)
  · exact Halt.avoids_error.mpr (by decide)
  · exact Halt.avoids_ok _

theorem tryChildren_avoids (children : List CBlock) (q : BlockQueue) :
    (q.tryChildren env mode io children).Avoids .reject := by
  induction children generalizing q with
  | nil => exact Halt.avoids_ok q
  | cons block rest ih => exact Halt.avoids_seq.mpr ⟨tryOrphan_avoids q block, fun q' _ => ih q'⟩

/-- A rejected orphan does not make the loop fail. -/
theorem resolve_avoids (fuel i : ℕ) (q : BlockQueue) :
    (q.resolve env mode io fuel i).Avoids .reject := by
  induction fuel generalizing i q with
  | zero => exact Halt.avoids_error.mpr (by decide)
  | succ fuel ih =>
    rw [resolve]
    cases q.vWorkQueue[i]? with
    | none => exact Halt.avoids_ok q
    | some hashPrev =>
      exact Halt.avoids_seq.mpr ⟨tryChildren_avoids _ q, fun q' _ => ih (i + 1) _⟩

/-- Every round removes the entries of the children it may put into the queue. -/
theorem resolve_fuel (extra : ℕ) {fuel i : ℕ} {q : BlockQueue} (hi : i ≤ q.vWorkQueue.length)
    (hfuel : q.vWorkQueue.length + q.node.mapOrphanBlocksByPrev.length < i + fuel) :
    q.resolve env mode io (fuel + extra) i = q.resolve env mode io fuel i := by
  induction fuel generalizing i q with
  | zero => omega
  | succ fuel ih =>
    rw [Nat.add_right_comm, resolve, resolve]
    cases hhead : q.vWorkQueue[i]? with
    | none => rfl
    | some hashPrev =>
      dsimp only
      cases hchildren : q.tryChildren env mode io (q.node.childrenOf hashPrev) with
      | error e => rfl
      | ok q₁ =>
        obtain ⟨hbyPrev, new, hqueue, hnew⟩ := tryChildren_grows hchildren
        have hi' : i < q.vWorkQueue.length := (List.getElem?_eq_some_iff.mp hhead).1
        have hsplit := List.length_eq_length_filter_add
          (l := q.node.mapOrphanBlocksByPrev) fun e => decide (e.1 = hashPrev)
        rw [childrenOf, List.length_map] at hnew
        refine ih ?_ ?_
        · rw [hqueue, List.length_append]
          omega
        · have hkept : (q₁.node.dropChildren hashPrev).mapOrphanBlocksByPrev =
              q.node.mapOrphanBlocksByPrev.filter fun e => !decide (e.1 = hashPrev) := by
            rw [dropChildren, hbyPrev]
            exact List.filter_congr fun e _ => decide_not
          rw [hqueue, List.length_append, hkept]
          omega

end BlockQueue

namespace BlockNode

variable {s s' : BlockNode} {block : CBlock}

/-! ## One block -/

/-- The loop ends by itself. -/
theorem releaseOrphans_fuel (s : BlockNode) (call : BlockCall) (extra : ℕ) :
    (BlockQueue.mk s [call.block.GetHash env] 1).resolve env mode call.io
      (s.mapOrphanBlocksByPrev.length + 2 + extra) 0 = s.releaseOrphans env mode call :=
  BlockQueue.resolve_fuel extra (Nat.zero_le _) (by
    rw [List.length_singleton, Nat.zero_add, Nat.add_comm]
    exact Nat.lt_succ_self _)

/-- What may go wrong in a call does not: no call of `AcceptBlock` fails for a block it has already
put into the index while others wait for it, and no orphan is freed while another one is held with
its stake. -/
def CallCalm (env : Env) (mode : CPMode) (s : BlockNode) (call : BlockCall) : Prop :=
  s.refuses env call.block = false → (s.mapBlockIndex call.block.hashPrevBlock).isSome = true →
    s.Settles env mode (call.io 0) call.block ∧
      ∀ s', s.AcceptBlock env mode (call.io 0) call.block = .ok s' →
        (BlockQueue.mk s' [call.block.GetHash env] 1).Calm env mode call.io
          (s'.mapOrphanBlocksByPrev.length + 2) 0

theorem PoolsAgree.same (h : s.PoolsAgree env) (horphans : s'.mapOrphanBlocks = s.mapOrphanBlocks)
    (hbyPrev : s'.mapOrphanBlocksByPrev = s.mapOrphanBlocksByPrev)
    (hstakes : s'.setStakeSeenOrphan = s.setStakeSeenOrphan)
    (hwaiting : ∀ b, s.Holds env b → s'.mapBlockIndex b.hashPrevBlock = none) :
    s'.PoolsAgree env := by
  have hholds : ∀ b, s'.Holds env b ↔ s.Holds env b := by
    intro b
    rw [Holds, Holds, horphans]
  refine
    { own := fun hash b hfind => h.own hash b (horphans ▸ hfind)
      byPrev_iff := fun prev b => ?_
      once := hbyPrev ▸ h.once
      stakes := fun stake => ?_
      waiting := fun b hb => hwaiting b ((hholds b).mp hb) }
  · rw [hbyPrev, hholds]
    exact h.byPrev_iff prev b
  · rw [hstakes, h.stakes]
    exact exists_congr fun b => and_congr_left fun _ => (hholds b).symm

/-- A block that is not yet held, whose parent is not known, joins the pool. -/
theorem PoolsAgree.hold (h : s.PoolsAgree env)
    (hnew : s.mapOrphanBlocks.find (block.GetHash env) = none)
    (hprev : s.mapBlockIndex block.hashPrevBlock = none) : (s.hold env block).PoolsAgree env := by
  have hother : ∀ b, s.Holds env b → b.GetHash env ≠ block.GetHash env := by
    intro b hb heq
    rw [Holds, heq, hnew] at hb
    cases hb
  have hholds : ∀ b, (s.hold env block).Holds env b ↔ s.Holds env b ∨ b = block := by
    intro b
    rw [Holds, BlockNode.hold, OrdMap.find_insert]
    split
    · rename_i heq
      constructor
      · intro hsome
        exact .inr (Option.some.inj hsome).symm
      · intro hor
        rcases hor with hb | rfl
        · exact absurd heq (hother b hb)
        · rfl
    · rename_i hne
      constructor
      · exact .inl
      · intro hor
        rcases hor with hb | rfl
        · exact hb
        · exact absurd rfl hne
  refine
    { own := fun hash b hfind => ?_
      byPrev_iff := fun prev b => ?_
      once := ?_
      stakes := fun stake => ?_
      waiting := fun b hb => ?_ }
  · rw [BlockNode.hold, OrdMap.find_insert] at hfind
    split at hfind
    · rename_i heq
      rw [← Option.some.inj hfind]
      exact heq.symm
    · exact h.own hash b hfind
  · have hmem : (prev, b) ∈ (s.hold env block).mapOrphanBlocksByPrev ↔
        (prev, b) ∈ s.mapOrphanBlocksByPrev ∨ (prev, b) = (block.hashPrevBlock, block) := by
      rw [BlockNode.hold, List.mem_append, List.mem_singleton]
    rw [hmem, hholds, h.byPrev_iff, or_and_right]
    refine or_congr_right ?_
    constructor
    · intro heq
      obtain ⟨rfl, rfl⟩ := Prod.mk.inj heq
      exact ⟨rfl, rfl⟩
    · intro ⟨hb, hprev⟩
      rw [hprev, hb]
  · refine h.once.append (List.nodup_singleton _) ?_
    intro e he hmem
    rw [List.mem_singleton] at hmem
    rw [hmem, h.byPrev_iff] at he
    exact hother block he.1 rfl
  · have hset : stake ∈ (s.hold env block).setStakeSeenOrphan ↔
        stake ∈ s.setStakeSeenOrphan ∨
          (block.IsProofOfStake = true ∧ block.GetProofOfStake = stake) := by
      rw [BlockNode.hold]
      dsimp only
      split
      · rename_i hstake
        rw [Finset.mem_insert, or_comm, and_iff_right hstake, eq_comm]
      · rename_i hstake
        rw [or_iff_left fun hboth => hstake hboth.1]
    rw [hset, h.stakes]
    constructor
    · intro hor
      rcases hor with ⟨b, hb, hrest⟩ | hrest
      · exact ⟨b, (hholds b).mpr (.inl hb), hrest⟩
      · exact ⟨block, (hholds block).mpr (.inr rfl), hrest⟩
    · intro ⟨b, hb, hrest⟩
      rcases (hholds b).mp hb with hb | rfl
      · exact .inl ⟨b, hb, hrest⟩
      · exact .inr hrest
  · rcases (hholds b).mp hb with hb | rfl
    · exact h.waiting b hb
    · exact hprev

theorem sendCheckpoint_poolsAgree (h : s.PoolsAgree env) {io : SyncIo}
    {master : Option CSyncCheckpoint}
    (hrun : s.sendCheckpoint env Verify io master = .ok s') : s'.PoolsAgree env := by
  cases master with
  | none =>
    cases hrun
    exact h
  | some checkpoint =>
    have hindex := @processSyncCheckpoint_sameIndex Verify env io s.toSyncNode checkpoint
    obtain ⟨sync, hcall, hput⟩ := seq_ok.mp hrun
    cases hput
    rw [← Halt.final_attempt, lift_eq_ok.mp hcall] at hindex
    exact h.same rfl rfl rfl fun b hb => (congrFun hindex _).trans (h.waiting b hb)

theorem sendCheckpoint_avoids (s : BlockNode) (io : SyncIo) (master : Option CSyncCheckpoint) :
    (s.sendCheckpoint env Verify io master).Avoids .reject := by
  cases master with
  | none => exact Halt.avoids_ok s
  | some checkpoint =>
    exact Halt.avoids_seq.mpr ⟨Halt.avoids_lift.mpr Halt.avoids_attempt, fun _ _ => Halt.avoids_ok _⟩

theorem Settles.waiting {io : SyncIo} (h : s.Settles env mode io block)
    (haccept : Accepts env block s s')
    (hcall : s.AcceptBlock env mode io block = .error (.reject, s')) {b : CBlock}
    (hprev : s.mapBlockIndex b.hashPrevBlock = none) (hb : s.Holds env b) :
    s'.mapBlockIndex b.hashPrevBlock = none := by
  by_cases heq : b.hashPrevBlock = block.GetHash env
  · rw [heq] at hprev ⊢
    cases hindex : s'.mapBlockIndex (block.GetHash env) with
    | none => rfl
    | some pindex => exact absurd heq (h s' hcall hprev (hindex ▸ rfl) b hb)
  · exact (haccept.index _ heq).trans hprev

/-- A block that was accepted is the first one in the queue. -/
theorem PoolsAgree.queued (h : s.PoolsAgree env) (haccept : Accepts env block s s') :
    s'.Queued env [block.GetHash env] := by
  have hholds := haccept.holds_iff
  refine
    { own := fun hash b hfind => h.own hash b (haccept.orphans ▸ hfind)
      byPrev_iff := fun prev b => ?_
      once := haccept.byPrev ▸ h.once
      stakes := fun stake => ?_
      waiting := fun b hb => ?_ }
  · rw [haccept.byPrev, hholds]
    exact h.byPrev_iff prev b
  · rw [haccept.stakes, h.stakes]
    exact exists_congr fun b => and_congr_left fun _ => (hholds b).symm
  · by_cases heq : b.hashPrevBlock = block.GetHash env
    · exact .inr (List.mem_singleton.mpr heq)
    · exact .inl ((haccept.index _ heq).trans (h.waiting b ((hholds b).mp hb)))

theorem ProcessBlock_poolsAgree {call : BlockCall} (h : s.PoolsAgree env)
    (hcalm : s.CallCalm env mode call)
    (hrun : (s.ProcessBlock env mode Verify call).attempt = .ok s') : s'.PoolsAgree env := by
  rw [ProcessBlock] at hrun
  cases hrefuses : s.refuses env call.block with
  | true =>
    rw [hrefuses, if_pos rfl] at hrun
    cases hrun
    exact h
  | false =>
    rw [hrefuses, if_neg Bool.false_ne_true] at hrun
    cases hprev : s.mapBlockIndex call.block.hashPrevBlock with
    | none =>
      rw [hprev, Option.isNone_none, if_pos rfl] at hrun
      split at hrun
      · cases hrun
        exact h
      · cases hrun
        refine h.hold ?_ hprev
        rw [refuses] at hrefuses
        simp only [Bool.or_eq_false_iff, Option.isSome_eq_false_iff, Option.isNone_iff_eq_none]
          at hrefuses
        exact hrefuses.1.1.1.2
    | some pindexPrev =>
      rw [hprev, Option.isNone_some, if_neg Bool.false_ne_true] at hrun
      obtain ⟨hsettles, hcalm⟩ := hcalm hrefuses (hprev ▸ rfl)
      have haccept := @AcceptBlock_accepts env mode (call.io 0) s call.block
      cases hcall : s.AcceptBlock env mode (call.io 0) call.block with
      | error e =>
        rw [hcall] at hrun haccept
        rcases e with ⟨_ | _ | _ | _, s₁⟩
        · cases hrun
          refine h.same haccept.orphans haccept.byPrev haccept.stakes fun b hb => ?_
          exact hsettles.waiting haccept hcall (h.waiting b hb) hb
        · cases hrun
        · cases hrun
        · cases hrun
      | ok s₁ =>
        rw [hcall] at haccept
        have hrest : (s₁.releaseOrphans env mode call >>= fun q =>
            q.node.sendCheckpoint env Verify (call.io q.nCalls) call.master).attempt = .ok s' := by
          rw [hcall] at hrun
          exact hrun
        rcases attempt_eq_ok.mp hrest with hok | hreject
        · obtain ⟨q, hresolve, hsend⟩ := seq_ok.mp hok
          have hqueued : (BlockQueue.mk s₁ [call.block.GetHash env] 1).node.Queued env
              ([call.block.GetHash env].drop 0) := h.queued haccept
          exact sendCheckpoint_poolsAgree
            (BlockQueue.resolve_poolsAgree hqueued (hcalm s₁ hcall) hresolve) hsend
        · rcases seq_error.mp hreject with hresolve | ⟨q, _, hsend⟩
          · exact absurd hresolve (BlockQueue.resolve_avoids _ _ _ _)
          · exact absurd hsend (sendCheckpoint_avoids q.node _ _ _)

theorem start_poolsAgree (sync : SyncNode) (setStakeSeen : Finset ProofOfStake) :
    (start sync setStakeSeen).PoolsAgree env where
  own := fun _ _ hfind => nomatch hfind
  byPrev_iff := fun _ _ => iff_of_false List.not_mem_nil fun hboth => nomatch hboth.1
  once := List.nodup_nil
  stakes := fun stake =>
    iff_of_false (Finset.notMem_empty stake) fun ⟨_, hholds, _⟩ => nomatch hholds
  waiting := fun _ hholds => nomatch hholds

end BlockNode

/-- In every calm run of blocks, in whatever order they arrive, the containers agree and every
block held waits for an unknown parent. -/
theorem orphanBlocks_agree (sync : SyncNode) (setStakeSeen : Finset ProofOfStake)
    (calls : List BlockCall) (s : BlockNode)
    (hcalm : Halt.Along (BlockNode.receive env mode Verify) (BlockNode.CallCalm env mode) calls
      (.start sync setStakeSeen))
    (hrun : calls.foldlM (BlockNode.receive env mode Verify) (.start sync setStakeSeen) = .ok s) :
    s.PoolsAgree env :=
  Halt.ok_along (fun _ _ _ hs hcall hstep => BlockNode.ProcessBlock_poolsAgree hs hcall hstep)
    (BlockNode.start_poolsAgree sync setStakeSeen) hcalm hrun

/-! ## Two runs -/

namespace BlockNode

variable {s s' : BlockNode} {block : CBlock}

theorem settles_of_ok {io : SyncIo} (h : s.AcceptBlock env mode io block = .ok s') :
    s.Settles env mode io block := by
  intro s₁ herror
  rw [h] at herror
  cases herror

theorem settles_of_unwanted {io : SyncIo}
    (h : ∀ b, s.Holds env b → b.hashPrevBlock ≠ block.GetHash env) :
    s.Settles env mode io block :=
  fun _ _ _ _ => h

end BlockNode

/-- The loop is calm while no block is held. -/
theorem BlockQueue.calm_of_nil {io : ℕ → SyncIo} {fuel : ℕ} {q : BlockQueue}
    (h : q.node.mapOrphanBlocksByPrev = []) : q.Calm env mode io fuel i := by
  induction fuel generalizing i q with
  | zero => trivial
  | succ fuel ih =>
    intro hashPrev _
    have hnone : q.node.childrenOf hashPrev = [] := by
      rw [BlockNode.childrenOf, h]
      rfl
    rw [hnone]
    refine ⟨trivial, fun q' hrun => ?_⟩
    cases hrun
    refine ih ?_
    rw [BlockNode.dropChildren, h]
    rfl

namespace Scenario

def sentBlock (block : CBlock) : BlockCall := ⟨block, fun _ => ⟨io, false⟩, none⟩

def blockNode (node : Node) : BlockNode := .start (syncNode testNet node) ∅

def parentBlock (node : Node) (reward : ℤ) : CBlock :=
  nextBlock node ⟨testNet.hashGenesisBlock, 1000, 1, [payTo reward], []⟩

def childBlock (node : Node) : CBlock :=
  blockOn (timed testNet) (stored node (parentBlock node 0)).2 2000
    [coinbase 2 1999 1 [payTo (625 * COIN)]]

def childFirst (node : Node) (reward : ℤ) : List BlockCall :=
  [sentBlock (childBlock node), sentBlock (parentBlock node reward)]

def runBlocks (node : Node) (calls : List BlockCall) : Halt BlockNode BlockNode :=
  calls.foldlM (BlockNode.receive (timed testNet) .STRICT signed) (blockNode node)

end Scenario

open Scenario

/-- A call for a block that one proof-of-work block waits for, and no other is held. -/
theorem BlockNode.callCalm_of_child {s' : BlockNode} {call : BlockCall} {child : CBlock}
    (haccept : s.AcceptBlock env mode (call.io 0) call.block = .ok s')
    (hheld : s.mapOrphanBlocks.entries = [(child.GetHash env, child)])
    (hbyPrev : s.mapOrphanBlocksByPrev = [(call.block.GetHash env, child)])
    (hwork : child.IsProofOfStake = false) (hprev : child.hashPrevBlock ≠ child.GetHash env) :
    s.CallCalm env mode call := by
  intro _ _
  refine ⟨settles_of_ok haccept, fun s₁ hcall => ?_⟩
  rw [haccept] at hcall
  cases hcall
  have hsame := @AcceptBlock_accepts env mode (call.io 0) s call.block
  rw [haccept, Halt.final_ok] at hsame
  have hentries : s'.mapOrphanBlocksByPrev = [(call.block.GetHash env, child)] :=
    hsame.byPrev.trans hbyPrev
  have hchild : ∀ b, s'.Holds env b → b = child := by
    intro b hb
    rw [hsame.holds_iff, Holds, OrdMap.find, hheld, List.lookup_cons] at hb
    split at hb
    · exact (Option.some.inj hb).symm
    · cases hb
  rw [hentries]
  intro hashPrev hhead
  cases hhead
  have hchildren : s'.childrenOf (call.block.GetHash env) = [child] := by
    rw [childrenOf, hentries, List.filter_singleton, decide_eq_true rfl]
    rfl
  rw [hchildren]
  refine ⟨⟨settles_of_unwanted fun b hb => hchild b hb ▸ hprev, ?_, fun _ _ => trivial⟩, ?_⟩
  · intro b _ _ hstake
    rw [hwork] at hstake
    cases hstake
  · intro q' hrun
    refine BlockQueue.calm_of_nil ?_
    have hkept := (BlockQueue.tryChildren_grows hrun).1
    rw [BlockNode.dropChildren, hkept, hentries]
    exact List.filter_eq_nil_iff.mpr fun e he => by simp [List.mem_singleton.mp he]

def childJoins : Bool :=
  match afterBlocks [] with
  | .error _ => false
  | .ok node =>
    let child := childBlock node
    let parent := parentBlock node (625 * COIN)
    decide ((blockNode node).mapBlockIndex child.hashPrevBlock = none ∧
      child.IsProofOfStake = false ∧
      child.hashPrevBlock ≠ child.GetHash (timed testNet)) &&
    match (blockNode node).receive (timed testNet) .STRICT signed (sentBlock child) with
    | .error _ => false
    | .ok s =>
      decide (s.mapOrphanBlocks.entries = [(child.GetHash (timed testNet), child)] ∧
        s.mapOrphanBlocksByPrev = [(parent.GetHash (timed testNet), child)]) &&
      (match s.AcceptBlock (timed testNet) .STRICT ⟨io, false⟩ parent with
        | .error _ => false
        | .ok _ => true) &&
      match s.receive (timed testNet) .STRICT signed (sentBlock parent) with
      | .error _ => false
      | .ok s' => (s'.mapBlockIndex (child.GetHash (timed testNet))).isSome

theorem orphanBlocks_agree_childFirst :
    ∃ node s, afterBlocks [] = .ok node ∧
      runBlocks node (childFirst node (625 * COIN)) = .ok s ∧
      (s.mapBlockIndex ((childBlock node).GetHash (timed testNet))).isSome = true ∧
      s.PoolsAgree (timed testNet) := by
  have htest : childJoins = true := by decide +kernel
  unfold childJoins at htest
  split at htest
  next => cases htest
  next node hload =>
    rw [Bool.and_eq_true, decide_eq_true_eq] at htest
    obtain ⟨⟨hunknown, hwork, hprev⟩, htest⟩ := htest
    split at htest
    next => cases htest
    next s hfirst =>
      simp only [Bool.and_eq_true, decide_eq_true_eq] at htest
      obtain ⟨⟨⟨hheld, hbyPrev⟩, haccept⟩, htest⟩ := htest
      split at haccept
      next => cases haccept
      next s₁ haccepted =>
        split at htest
        next => cases htest
        next s' hsecond =>
          have hrun : runBlocks node (childFirst node (625 * COIN)) = .ok s' := by
            rw [runBlocks, childFirst, List.foldlM_cons]
            exact seq_ok.mpr ⟨s, hfirst, seq_ok.mpr ⟨s', hsecond, rfl⟩⟩
          have hcalm : Halt.Along (BlockNode.receive (timed testNet) .STRICT signed)
              (BlockNode.CallCalm (timed testNet) .STRICT) (childFirst node (625 * COIN))
              (blockNode node) := by
            refine ⟨fun _ hknown => ?_, fun s₂ hstep => ⟨?_, fun _ _ => trivial⟩⟩
            · have hprevKnown : ((blockNode node).mapBlockIndex
                  (childBlock node).hashPrevBlock).isSome = true := hknown
              rw [hunknown] at hprevKnown
              cases hprevKnown
            · rw [hfirst] at hstep
              cases hstep
              exact BlockNode.callCalm_of_child haccepted hheld hbyPrev hwork hprev
          exact ⟨node, s', hload, hrun, htest, orphanBlocks_agree _ _ _ s' hcalm hrun⟩

def childLeft : Bool :=
  match afterBlocks [] with
  | .error _ => false
  | .ok node =>
    match runBlocks node (childFirst node (626 * COIN)) with
    | .error _ => false
    | .ok s => decide (s.mapOrphanBlocks.find ((childBlock node).GetHash (timed testNet)) =
        some (childBlock node)) &&
      (s.mapBlockIndex (childBlock node).hashPrevBlock).isSome

/-- The first block takes too large a reward: it is in the block index when it is refused, and the
block that waits for it stays in the pool. -/
theorem orphanBlocks_disagree :
    ∃ node s, afterBlocks [] = .ok node ∧
      runBlocks node (childFirst node (626 * COIN)) = .ok s ∧ ¬ s.PoolsAgree (timed testNet) := by
  have htest : childLeft = true := by decide +kernel
  unfold childLeft at htest
  split at htest
  next => cases htest
  next node hload =>
    split at htest
    next => cases htest
    next s hrun =>
      rw [Bool.and_eq_true, decide_eq_true_eq] at htest
      refine ⟨node, s, hload, hrun, fun hagree => ?_⟩
      have hwaiting := hagree.waiting _ htest.1
      rw [hwaiting] at htest
      cases htest.2

end Dions
