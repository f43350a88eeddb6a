import Dions.Library.Backoff
import Dions.Verification.Chain.BestChain

/-! # Block locators find the fork

The blocks that a locator names lie at distances whose steps double, so that there are few of them and the
first one on the main chain is not far behind the fork. -/

namespace Dions

variable {j : ℕ}

namespace CBlockLocator

variable {env : Env} {a b : CBlockIndex} {node : Node}

/-! ## The blocks that are visited -/

theorem stepBack_line (a : CBlockIndex) (k : ℕ) : stepBack k (some a) = a.line[k]? := by
  induction k generalizing a with
  | zero => cases a <;> rfl
  | succ k ih =>
    cases a with
    | root x => cases k <;> rfl
    | child x p => exact ih p

theorem stepBack_of_getElem? {k n : ℕ} (h : a.line[k]? = some b) :
    stepBack n (some b) = a.line[k + n]? := by
  rw [stepBack_line, Lineage.line_of_getElem? h, List.getElem?_drop]

/-- The blocks whose hashes the first `j` rounds collect. -/
def visited (a : CBlockIndex) (j : ℕ) : List CBlockIndex :=
  (List.range j).filterMap fun i => a.line[Backoff.reach 10 i]?

theorem visited_succ (h : a.line[Backoff.reach 10 j]? = some b) :
    visited a (j + 1) = visited a j ++ [b] := by
  rw [visited, List.range_succ, List.filterMap_append, List.filterMap_cons, h]
  rfl

theorem mem_visited (h : b ∈ visited a j) : b ∈ a.line := by
  obtain ⟨i, -, hi⟩ := List.mem_filterMap.mp h
  exact List.mem_of_getElem? hi

/-- As long as the branch goes on, a round collects one of its blocks. -/
theorem visited_getElem? {m : ℕ} (hm : ∀ j < m, Backoff.reach 10 j ≤ a.depth) :
    (visited a m).length = m ∧ ∀ j < m, (visited a m)[j]? = a.line[Backoff.reach 10 j]? := by
  induction m with
  | zero => exact ⟨rfl, fun j hj => absurd hj j.not_lt_zero⟩
  | succ m ih =>
    obtain ⟨hlength, hget⟩ := ih fun j hj => hm j (hj.trans m.lt_succ_self)
    have hlt : Backoff.reach 10 m < a.line.length := by
      rw [Lineage.length_line]
      exact Nat.lt_succ_of_le (hm m m.lt_succ_self)
    have hlast := List.getElem?_eq_getElem hlt
    rw [visited_succ hlast]
    refine ⟨by rw [List.length_append, hlength, List.length_singleton], fun j hj => ?_⟩
    rcases Nat.lt_succ_iff_lt_or_eq.mp hj with hlow | rfl
    · rw [List.getElem?_append_left (hlength.symm ▸ hlow), hget j hlow]
    · rw [List.getElem?_append_right hlength.le, hlength, Nat.sub_self, hlast]
      rfl

/-! ## The loop of `Set` -/

/-- While there are blocks left, doubling the step does not leave its type. -/
theorem int32_step (hnext : Backoff.reach 10 (j + 1) < 2 ^ 31) :
    (if 10 < j + 1 then int32 ((Backoff.step 10 j : ℕ) * 2) else ((Backoff.step 10 j : ℕ) : ℤ)) =
      (Backoff.step 10 (j + 1) : ℕ) := by
  by_cases hj : 10 < j + 1
  · have hstep : Backoff.step 10 (j + 1) = Backoff.step 10 j * 2 := Backoff.step_succ (by omega)
    have hreach := Backoff.reach_of_ge (show 10 ≤ j + 1 by omega)
    rw [if_pos hj, int32, Int.bmod_def]
    split <;> omega
  · rw [if_neg hj, Backoff.step_of_le (by omega), Backoff.step_of_le (by omega)]

/-- From the round on that finds the block `reach 10 j` back, the loop collects the blocks that are left. -/
theorem setLoop_eq {m : ℕ} (hbeyond : a.depth < Backoff.reach 10 m)
    (hm : ∀ j < m, Backoff.reach 10 j ≤ a.depth) (hheight : a.depth < 2 ^ 31) {r j fuel : ℕ} (hj : j + r = m)
    (hfuel : r < fuel) {nStep : ℤ} (hstep : j < m → nStep = (Backoff.step 10 j : ℕ)) :
    setLoop fuel (a.line[Backoff.reach 10 j]?) nStep ((visited a j).map CBlockIndex.GetBlockHash) =
      some ((visited a m).map CBlockIndex.GetBlockHash) := by
  induction r generalizing j fuel nStep with
  | zero =>
    obtain ⟨fuel, rfl⟩ := Nat.exists_eq_add_one_of_ne_zero (Nat.ne_of_gt hfuel)
    have hend : a.line[Backoff.reach 10 j]? = none := by
      rw [List.getElem?_eq_none_iff, Lineage.length_line, show j = m by omega]
      exact hbeyond
    rw [hend, setLoop, show j = m by omega]
  | succ r ih =>
    obtain ⟨fuel, rfl⟩ := Nat.exists_eq_add_one_of_ne_zero (Nat.ne_zero_of_lt hfuel)
    have hlt : j < m := by omega
    have hblock : Backoff.reach 10 j < a.line.length := by
      rw [Lineage.length_line]
      exact Nat.lt_succ_of_le (hm j hlt)
    have hget := List.getElem?_eq_getElem hblock
    have hnext : stepBack nStep.toNat (some a.line[Backoff.reach 10 j]) =
        a.line[Backoff.reach 10 (j + 1)]? := by
      rw [hstep hlt, Int.toNat_natCast, stepBack_of_getElem? hget]
      rfl
    have hvisited : (visited a j).map CBlockIndex.GetBlockHash ++
        [CBlockIndex.GetBlockHash a.line[Backoff.reach 10 j]] =
          (visited a (j + 1)).map CBlockIndex.GetBlockHash := by
      rw [visited_succ hget, List.map_append]
      rfl
    have hlength : ((visited a (j + 1)).map CBlockIndex.GetBlockHash).length = j + 1 := by
      rw [List.length_map]
      exact (visited_getElem? fun i hi => hm i (by omega)).1
    rw [hget, setLoop, hnext, hvisited, hlength]
    refine ih (by omega) (by omega) fun hnextlt => ?_
    rw [hstep hlt]
    exact int32_step ((hm (j + 1) hnextlt).trans_lt hheight)

/-! ## The search -/

/-- The entries that a node finds under the hashes of a branch are those of the branch. -/
def Shares (node : Node) (a : CBlockIndex) : Prop :=
  ∀ b ∈ a.line, ∀ pindex, node.mapBlockIndex (CBlockIndex.GetBlockHash b) = some pindex → pindex = b

theorem findLoop_append (hshared : Shares node a)
    (hknown : ∀ b, node.IsInMainChain b = true → node.Knows b) {bs : List CBlockIndex}
    (hbs : ∀ b ∈ bs, b ∈ a.line) (rest : List uint256) :
    findLoop node (bs.map CBlockIndex.GetBlockHash ++ rest) =
      (bs.find? node.IsInMainChain).or (findLoop node rest) := by
  induction bs with
  | nil => rfl
  | cons b bs ih =>
    have hothers := ih fun c hc => hbs c (List.mem_cons_of_mem b hc)
    rw [List.map_cons, List.cons_append, findLoop]
    by_cases hmain : node.IsInMainChain b = true
    · rw [hknown b hmain, List.find?_cons_of_pos hmain]
      exact if_pos hmain
    · rw [List.find?_cons_of_neg hmain]
      cases hfind : node.mapBlockIndex (CBlockIndex.GetBlockHash b) with
      | none => exact hothers
      | some pindex =>
        rw [hshared b (hbs b List.mem_cons_self) pindex hfind]
        exact (if_neg hmain).trans hothers

/-- The first visited block on the main chain lies no more than twice as far back as any other one
that the branch has in common with it. -/
theorem distance_le {m k : ℕ} {p c best : CBlockIndex} (hm : ∀ j < m, Backoff.reach 10 j ≤ a.depth)
    (hmain : ∀ pindex, node.IsInMainChain pindex = true ↔ pindex ∈ best.line)
    (hfirst : (visited a m).find? node.IsInMainChain = some p) (hc : a.line[k]? = some c)
    (hcommon : c ∈ best.line) : ∃ l, a.line[l]? = some p ∧ l ≤ 2 * k := by
  obtain ⟨-, before, after, hsplit, hnone⟩ := List.find?_eq_some_iff_append.mp hfirst
  obtain ⟨hlength, hget⟩ := visited_getElem? hm
  rw [hsplit] at hget hlength
  rw [List.length_append, List.length_cons] at hlength
  have hp := hget before.length (by omega)
  rw [List.getElem?_append_right le_rfl, Nat.sub_self, List.getElem?_cons_zero] at hp
  refine ⟨Backoff.reach 10 before.length, hp.symm, ?_⟩
  rcases Nat.eq_zero_or_pos before.length with hzero | hpos
  · rw [hzero]
    exact Nat.zero_le _
  · obtain ⟨j, hj⟩ := Nat.exists_eq_add_one_of_ne_zero hpos.ne'
    rw [hj]
    refine Backoff.reach_succ_le (Nat.lt_of_not_le fun hle => ?_)
    -- from the common block on the branch is the main chain
    have hlt : j < before.length := by omega
    have hbefore := hget j (by omega)
    rw [List.getElem?_append_left hlt, List.getElem?_eq_getElem hlt] at hbefore
    have hline : before[j] ∈ c.line := by
      rw [Lineage.line_of_getElem? hc]
      refine List.mem_of_getElem? (i := Backoff.reach 10 j - k) ?_
      rw [List.getElem?_drop, Nat.add_sub_cancel' hle]
      exact hbefore.symm
    have hnot := hnone before[j] (List.getElem_mem hlt)
    rw [(hmain _).mpr (Lineage.line_trans hline hcommon)] at hnot
    exact absurd hnot (by decide)

end CBlockLocator

/-- The links describe the chain down from `best`, and its blocks are in the index. -/
structure Node.OnChain (node : Node) (best : CBlockIndex) : Prop where
  linked : ∀ pindex, node.IsInMainChain pindex = true ↔ pindex ∈ best.line
  known : ∀ pindex ∈ best.line, node.Knows pindex

theorem Reaches.onChain {env : Env} {node : Node} (h : Reaches env (Orderly env) node) :
    ∃ best, node.OnChain best := by
  obtain ⟨best, hbest⟩ := h.bestAt
  exact ⟨best, hbest.agrees.mainChain, fun _ hmem => hbest.stored.knows_line env hbest.known hmem⟩

open CBlockLocator in
/-- A locator is complete after a number of rounds that grows like the logarithm of the height, and a node
whose main chain has the genesis block of the branch finds by it a block of the branch on its main chain,
no more than twice as far back as any block that the two have in common, or the genesis block. -/
theorem locator_finds_fork {env : Env} {node : Node} {best a genesis : CBlockIndex}
    (hchain : node.OnChain best) (hshared : Shares node a) (hbranch : genesis ∈ a.line)
    (hgenesis : genesis ∈ best.line)
    (hhash : genesis.GetBlockHash = env.hashGenesisBlock) (hheight : a.nHeight < 2 ^ 31) :
    ∃ locator : CBlockLocator,
      (∀ fuel, 14 + Nat.log 2 (a.nHeight + 1) ≤ fuel → Set env fuel (some a) = some locator) ∧
      locator.vHave.length ≤ 14 + Nat.log 2 (a.nHeight + 1) ∧
      ∃ p, locator.GetBlockIndex node = some p ∧ p ∈ a.line ∧ node.IsInMainChain p = true ∧
        ∀ c : CBlockIndex, c ∈ a.line → node.IsInMainChain c = true →
          a.nHeight - p.nHeight ≤ 2 * (a.nHeight - c.nHeight) ∨ p = genesis := by
  obtain ⟨m, hfew, hbeyond, hm⟩ := Backoff.exists_beyond 10 a.depth
  have hknown : ∀ b, node.IsInMainChain b = true → node.Knows b := fun b hb =>
    hchain.known b ((hchain.linked b).mp hb)
  refine ⟨⟨(visited a m).map CBlockIndex.GetBlockHash ++ [env.hashGenesisBlock]⟩, fun fuel hfuel => ?_,
    ?_, ?_⟩
  · have hrounds : m < fuel := by
      rw [CBlockIndex.nHeight] at hfuel
      omega
    have hloop := setLoop_eq hbeyond hm hheight (Nat.zero_add m) hrounds fun _ => rfl
    have hstart : a.line[Backoff.reach 10 0]? = some a := (stepBack_line a 0).symm
    rw [hstart] at hloop
    rw [CBlockLocator.Set]
    exact congrArg (Option.map fun vHave => (⟨vHave ++ [env.hashGenesisBlock]⟩ : CBlockLocator)) hloop
  · rw [List.length_append, List.length_map, (visited_getElem? hm).1, List.length_singleton,
      CBlockIndex.nHeight]
    omega
  · have hmain := (hchain.linked genesis).mpr hgenesis
    have hlast : findLoop node [env.hashGenesisBlock] = some genesis := by
      have hfound : node.mapBlockIndex env.hashGenesisBlock = some genesis :=
        hhash ▸ hchain.known genesis hgenesis
      rw [findLoop, hfound]
      exact if_pos hmain
    rw [GetBlockIndex, findLoop_append hshared hknown fun b hb => mem_visited hb, hlast]
    cases hfirst : (visited a m).find? node.IsInMainChain with
    | none => exact ⟨genesis, rfl, hbranch, hmain, fun _ _ _ => .inr rfl⟩
    | some p =>
      refine ⟨p, rfl, mem_visited (List.mem_of_find?_eq_some hfirst), List.find?_some hfirst,
        fun c hc hmainc => ?_⟩
      obtain ⟨k, hk⟩ := List.mem_iff_getElem?.mp hc
      obtain ⟨l, hl, hle⟩ := distance_le hm hchain.linked hfirst hk ((hchain.linked c).mp hmainc)
      have hp := Lineage.depth_of_getElem? hl
      have hdepth := Lineage.depth_of_getElem? hk
      rw [CBlockIndex.nHeight, CBlockIndex.nHeight, CBlockIndex.nHeight]
      omega

namespace Scenario

def genesisEntry : CBlockIndex := .root ⟨testNet.hashGenesisBlock, 1, 8, false, 0, true, 0, 0⟩

def forkEntry : CBlockIndex := .child ⟨5, 1, 300, false, 0, true, 10, 0⟩ genesisEntry

def bestEntry : CBlockIndex := .child ⟨6, 1, 500, false, 0, true, 20, 0⟩ forkEntry

def threeBlocks : Node :=
  { Node.empty with
    mapBlockIndex := fun hash =>
      if hash = testNet.hashGenesisBlock then some genesisEntry
      else if hash = 5 then some forkEntry
      else if hash = 6 then some bestEntry
      else none
    pnext := fun pindex =>
      if pindex = genesisEntry then some forkEntry
      else if pindex = forkEntry then some bestEntry
      else none
    pindexBest := some bestEntry }

/-- Blocks that the node does not have, on its first block. -/
def strays : ℕ → CBlockIndex
  | 0 => forkEntry
  | n + 1 => .child ⟨testNet.hashGenesisBlock + n + 1, 1, 700, false, 0, true, 30, 0⟩ (strays n)

theorem threeBlocks_onChain : threeBlocks.OnChain bestEntry := by
  have hline : bestEntry.line = [bestEntry, forkEntry, genesisEntry] := rfl
  constructor
  · intro pindex
    rw [hline, List.mem_cons, List.mem_pair, Node.IsInMainChain]
    by_cases hgenesis : pindex = genesisEntry
    · subst hgenesis
      decide
    by_cases hfork : pindex = forkEntry
    · subst hfork
      decide
    have hnext : threeBlocks.pnext pindex = none := (if_neg hgenesis).trans (if_neg hfork)
    have hbest : threeBlocks.pindexBest = some bestEntry := rfl
    rw [hnext, hbest, Option.isSome_none, Bool.false_or, beq_iff_eq, Option.some.injEq,
      or_iff_left (not_or.mpr ⟨hfork, hgenesis⟩), eq_comm]
  · intro pindex hmem
    rw [hline, List.mem_cons, List.mem_pair] at hmem
    rcases hmem with rfl | rfl | rfl <;> rfl

theorem strays_line (n : ℕ) : forkEntry ∈ (strays n).line ∧ genesisEntry ∈ (strays n).line := by
  induction n with
  | zero => exact ⟨List.mem_cons_self, List.mem_cons_of_mem _ List.mem_cons_self⟩
  | succ n ih => exact ⟨List.mem_cons_of_mem _ ih.1, List.mem_cons_of_mem _ ih.2⟩

theorem strays_nHeight (n : ℕ) : (strays n).nHeight = n + 1 := by
  induction n with
  | zero => rfl
  | succ n ih => exact congrArg Nat.succ ih

theorem strays_shared (n : ℕ) : CBlockLocator.Shares threeBlocks (strays n) := by
  induction n with
  | zero =>
    intro b hb pindex hfind
    have hline : (strays 0).line = [forkEntry, genesisEntry] := rfl
    rw [hline, List.mem_pair] at hb
    rcases hb with rfl | rfl
    · exact (Option.some.inj hfind).symm
    · exact (Option.some.inj hfind).symm
  | succ n ih =>
    intro b hb pindex hfind
    rcases List.mem_cons.mp hb with rfl | hb
    · have hne : ∀ g : ℕ, 6 < g → g + n + 1 ≠ g ∧ g + n + 1 ≠ 5 ∧ g + n + 1 ≠ 6 := by omega
      have hunknown : threeBlocks.mapBlockIndex (testNet.hashGenesisBlock + n + 1) = none := by
        obtain ⟨hgenesis, hfork, hbest⟩ := hne testNet.hashGenesisBlock (by decide)
        exact (if_neg hgenesis).trans ((if_neg hfork).trans (if_neg hbest))
      have hhash : CBlockIndex.GetBlockHash (strays (n + 1)) =
          testNet.hashGenesisBlock + n + 1 := rfl
      exact absurd (hfind.symm.trans (hhash ▸ hunknown)) (Option.some_ne_none pindex)
    · exact ih b hb pindex hfind

/-- Thirty blocks away from the chain of the node. -/
theorem locator_finds_fork_strays :
    ∃ locator : CBlockLocator,
      (∀ fuel, 14 + Nat.log 2 ((strays 30).nHeight + 1) ≤ fuel →
        CBlockLocator.Set (timed testNet) fuel (some (strays 30)) = some locator) ∧
      locator.vHave.length ≤ 14 + Nat.log 2 ((strays 30).nHeight + 1) ∧
      ∃ p, locator.GetBlockIndex threeBlocks = some p ∧ p ∈ (strays 30).line ∧
        threeBlocks.IsInMainChain p = true ∧
        ∀ c : CBlockIndex, c ∈ (strays 30).line → threeBlocks.IsInMainChain c = true →
          (strays 30).nHeight - p.nHeight ≤ 2 * ((strays 30).nHeight - c.nHeight) ∨
            p = genesisEntry := by
  have hheight : (strays 30).nHeight < 2 ^ 31 := by
    rw [strays_nHeight]
    decide
  refine locator_finds_fork threeBlocks_onChain (strays_shared 30) (strays_line 30).2 ?_ rfl hheight
  exact List.mem_cons_of_mem _ (List.mem_cons_of_mem _ List.mem_cons_self)

end Scenario

end Dions
