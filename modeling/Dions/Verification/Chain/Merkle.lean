import Mathlib.Data.Nat.Pairing
import Dions.Library.PairTree
import Dions.Model.Wallet
import Dions.Verification.Scenario

/-! # Merkle trees of blocks

The array that `BuildMerkleTree` fills holds the levels of the tree over the transaction hashes, one
behind the other. From this follow the branches that `GetMerkleBranch` reads out of it and, because
`CheckBlock` refuses a repeated hash, that the root in the header tells the list of the hashes. -/

namespace Dions

open PairTree

variable {env : Env}
variable {level : List uint256}
variable {pre : List uint256} {block : CBlock} {fCheckPOW fCheckSig : Bool}

/-! ## The array -/

namespace MerkleTree

theorem getD_middle {rest : List uint256} {i : ℕ} (h : i < level.length) :
    (pre ++ level ++ rest).getD (pre.length + i) 0 = level.getD i 0 := by
  rw [List.getD_eq_getElem?_getD, List.append_assoc, List.getElem?_append_right (by omega),
    Nat.add_sub_cancel_left, List.getElem?_append_left h, List.getD_eq_getElem?_getD]

theorem pushParent_nextLevel {rest : List uint256} {i : ℕ} (h : 2 * i < level.length) :
    pushParent env pre.length level.length (pre ++ level ++ rest) (2 * i) =
      pre ++ level ++ rest ++ (nextLevel env.hashPair level)[i]?.toList := by
  have hleft := List.getElem?_eq_getElem h
  rw [pushParent, getD_middle h, getD_middle (by omega), getElem?_nextLevel, hleft,
    Option.map_some, Option.toList_some, List.getD_eq_getElem?_getD, hleft, Option.getD_some]
  by_cases hlast : 2 * i + 1 < level.length
  · rw [min_eq_left (by omega), List.getD_eq_getElem?_getD, List.getElem?_eq_getElem hlast,
      Option.getD_some, Option.getD_some]
  · rw [min_eq_right (by omega), show level.length - 1 = 2 * i by omega,
      List.getD_eq_getElem?_getD, hleft, List.getElem?_eq_none (by omega), Option.getD_some,
      Option.getD_none]

/-- The inner loop appends the next level, node by node. -/
theorem foldl_pushParent (m : ℕ) (hm : m ≤ (level.length + 1) / 2) :
    ((List.range m).map (2 * ·)).foldl (pushParent env pre.length level.length) (pre ++ level) =
      pre ++ level ++ (nextLevel env.hashPair level).take m := by
  induction m with
  | zero => rw [List.take_zero, List.append_nil]; rfl
  | succ m ih =>
    rw [List.range_succ, List.map_append, List.foldl_append, ih (by omega), List.map_singleton,
      List.foldl_cons, List.foldl_nil, pushParent_nextLevel (by omega), List.take_add_one,
      List.append_assoc (pre ++ level)]

theorem foldl_pairStarts (pre level : List uint256) :
    (pairStarts level.length).foldl (pushParent env pre.length level.length) (pre ++ level) =
      pre ++ level ++ nextLevel env.hashPair level := by
  rw [pairStarts, foldl_pushParent _ le_rfl, List.take_of_length_le]
  rw [length_nextLevel]

/-- The outer loop appends all levels above the last one. -/
theorem pushLevels_eq (pre level : List uint256) {fuel : ℕ} (hfuel : level.length ≤ fuel + 1) :
    pushLevels env fuel (pre ++ level) pre.length level.length =
      pre ++ (levels env.hashPair level).flatten := by
  induction fuel generalizing pre level with
  | zero =>
    rw [pushLevels, levels_of_le _ hfuel, List.flatten_singleton]
  | succ fuel ih =>
    rw [pushLevels]
    by_cases hlt : 1 < level.length
    · have hnext := length_nextLevel env.hashPair level
      have hrest := ih (pre ++ level) (nextLevel env.hashPair level) (by omega)
      rw [List.length_append, hnext] at hrest
      rw [if_pos hlt, foldl_pairStarts, hrest, levels_of_lt _ hlt, List.flatten_cons,
        List.append_assoc]
    · rw [if_neg hlt, levels_of_le _ (by omega), List.flatten_singleton]

theorem build_eq (vtx : List CTransaction) :
    build env vtx = (levels env.hashPair (vtx.map (CTransaction.GetHash env))).flatten := by
  have hlength : (vtx.map (CTransaction.GetHash env)).length ≤ vtx.length + 1 := by
    rw [List.length_map]
    omega
  have h := @pushLevels_eq env [] _ _ hlength
  rwa [List.length_map] at h

theorem build_getLastD (vtx : List CTransaction) :
    (build env vtx).getLastD 0 =
      (root? env.hashPair (vtx.map (CTransaction.GetHash env))).getD 0 := by
  rw [build_eq, root?, List.getLastD_eq_getLast?]

/-- Behind the levels below, the loop reads the partner of a node and of those above it. -/
theorem readLevels_eq (pre level : List uint256) {fuel : ℕ} (i : ℕ)
    (hfuel : level.length ≤ fuel + 1) :
    readLevels (pre ++ (levels env.hashPair level).flatten) fuel pre.length level.length i =
      branch env.hashPair level i := by
  induction fuel generalizing pre level i with
  | zero => rw [readLevels, branch_of_le _ _ hfuel]
  | succ fuel ih =>
    rw [readLevels]
    by_cases hlt : 1 < level.length
    · have hnext := length_nextLevel env.hashPair level
      have hpartner := partner_lt (i := i) (by omega : 0 < level.length)
      have hrest := ih (pre ++ level) (nextLevel env.hashPair level) (i / 2) (by omega)
      rw [List.length_append, hnext] at hrest
      rw [if_pos hlt, branch_of_lt _ hlt (List.getElem?_eq_getElem hpartner), levels_of_lt _ hlt,
        List.flatten_cons, ← List.append_assoc, hrest]
      refine congrArg₂ List.cons ?_ rfl
      exact (getD_middle hpartner).trans (List.getD_eq_getElem _ _ hpartner)
    · rw [if_neg hlt, branch_of_le _ _ (by omega)]

theorem foldBranch_eq (x : uint256) (vMerkleBranch : List uint256) (i : ℕ) :
    foldBranch env x vMerkleBranch i = climb env.hashPair i x vMerkleBranch := by
  induction vMerkleBranch generalizing x i with
  | nil => rfl
  | cons otherside vMerkleBranch ih =>
    have hhalf : (i : ℤ) / 2 = ((i / 2 : ℕ) : ℤ) := by omega
    have hodd : ((i : ℤ) % 2 = 1) ↔ i % 2 = 1 := by omega
    rw [foldBranch, climb, hhalf, ih]
    simp only [hodd]

end MerkleTree

/-! ## Level by level -/

namespace CBlock

theorem merkleLevel_eq (level : List uint256) :
    merkleLevel env level = nextLevel env.hashPair level := by
  induction level using nextLevel.induct with
  | case1 a b rest ih => rw [merkleLevel, nextLevel, ih]
  | case2 a => rw [merkleLevel, nextLevel]
  | case3 => rw [merkleLevel, nextLevel]

theorem merkleRoot_eq {fuel : ℕ} (hfuel : level.length ≤ fuel + 1) :
    merkleRoot env fuel level = (root? env.hashPair level).getD 0 := by
  induction fuel generalizing level with
  | zero => rw [merkleRoot, root?_of_le _ hfuel, List.headD_eq_head?_getD]
  | succ fuel ih =>
    rw [merkleRoot]
    by_cases hlt : 1 < level.length
    · have hnext := length_nextLevel env.hashPair level
      rw [if_neg (by omega), merkleLevel_eq, ih (by omega), root?_of_lt _ hlt]
    · rw [if_pos (by omega), root?_of_le _ (by omega), List.headD_eq_head?_getD]

theorem merkleBranch_eq {fuel : ℕ} (i : ℕ) (hfuel : level.length ≤ fuel + 1) :
    merkleBranch env fuel level i = branch env.hashPair level i := by
  induction fuel generalizing level i with
  | zero => rw [merkleBranch, branch_of_le _ _ hfuel]
  | succ fuel ih =>
    rw [merkleBranch]
    by_cases hlt : 1 < level.length
    · have hnext := length_nextLevel env.hashPair level
      have hpartner := partner_lt (i := i) (by omega : 0 < level.length)
      rw [if_neg (by omega), branch_of_lt _ hlt (List.getElem?_eq_getElem hpartner), merkleLevel_eq,
        ih _ (by omega)]
      exact congrArg₂ List.cons (List.getD_eq_getElem _ _ hpartner) rfl
    · rw [if_pos (by omega), branch_of_le _ _ (by omega)]

theorem BuildMerkleTree_eq (block : CBlock) :
    block.BuildMerkleTree env =
      (root? env.hashPair (block.vtx.map (CTransaction.GetHash env))).getD 0 :=
  merkleRoot_eq (by rw [List.length_map]; omega)

end CBlock

/-! ## Branches -/

namespace CachedBlock

/-- The array gives the root that is computed level by level. -/
theorem BuildMerkleTree_fst (block : CachedBlock env) :
    block.BuildMerkleTree.1 = block.toCBlock.BuildMerkleTree env := by
  rw [BuildMerkleTree, MerkleTree.build_getLastD, CBlock.BuildMerkleTree_eq]

theorem GetMerkleBranch_fst (block : CachedBlock env) (nIndex : ℕ) :
    (block.GetMerkleBranch nIndex).1 =
      branch env.hashPair (block.vtx.map (CTransaction.GetHash env)) nIndex := by
  have hread : ∀ vtx : List CTransaction,
      MerkleTree.readLevels (MerkleTree.build env vtx) vtx.length 0 vtx.length nIndex =
        branch env.hashPair (vtx.map (CTransaction.GetHash env)) nIndex := by
    intro vtx
    have hlength : (vtx.map (CTransaction.GetHash env)).length ≤ vtx.length + 1 := by
      rw [List.length_map]
      omega
    have h := @MerkleTree.readLevels_eq env [] _ _ nIndex hlength
    rw [List.length_map] at h
    rwa [MerkleTree.build_eq]
  rw [GetMerkleBranch]
  by_cases hempty : block.vMerkleTree.isEmpty
  · rw [if_pos hempty]
    exact hread block.vtx
  · rw [if_neg hempty]
    rcases block.built with hnil | hbuilt
    · rw [hnil] at hempty
      exact absurd rfl hempty
    · rw [hbuilt]
      exact hread block.vtx

/-- The array gives the branch that is computed level by level. -/
theorem GetMerkleBranch_toCBlock (block : CachedBlock env) (nIndex : ℕ) :
    (block.GetMerkleBranch nIndex).1 = block.toCBlock.GetMerkleBranch env nIndex := by
  rw [GetMerkleBranch_fst, CBlock.GetMerkleBranch, CBlock.merkleBranch_eq]
  rw [List.length_map]
  omega

/-- The branch of every transaction leads from its hash to the root, whether the array has been built
before or not. -/
theorem merkleBranch_verifies (block : CachedBlock env) (i : Fin block.vtx.length) :
    CBlock.CheckMerkleBranch env ((block.vtx.get i).GetHash env)
      (block.GetMerkleBranch i).1 (i : ℕ) = block.BuildMerkleTree.1 := by
  have hleaf : (block.vtx.map (CTransaction.GetHash env))[(i : ℕ)]? =
      some ((block.vtx.get i).GetHash env) := by
    rw [List.getElem?_map, List.getElem?_eq_getElem i.isLt]
    rfl
  rw [CBlock.CheckMerkleBranch, if_neg (by omega), MerkleTree.foldBranch_eq, GetMerkleBranch_fst,
    BuildMerkleTree, MerkleTree.build_getLastD, ← climb_branch _ hleaf, Option.getD_some]

end CachedBlock

/-! ## What the header tells -/

theorem CBlock.nodup_of_checkBlock {fCheckMerkleRoot : Bool}
    (h : block.CheckBlock env fCheckPOW fCheckMerkleRoot fCheckSig = true) :
    block.vtx ≠ [] ∧ (block.vtx.map (CTransaction.GetHash env)).Nodup := by
  simp only [CBlock.CheckBlock, Bool.and_eq_true, decide_eq_true_eq, Bool.not_eq_true',
    List.isEmpty_eq_false_iff] at h
  tauto

theorem CBlock.merkleRoot_of_checkBlock (h : block.CheckBlock env fCheckPOW true fCheckSig = true) :
    block.hashMerkleRoot = block.BuildMerkleTree env := by
  simp only [CBlock.CheckBlock, Bool.and_eq_true, Bool.not_true, Bool.false_or, beq_iff_eq] at h
  exact h.2

/-- Two blocks with the same root that pass `CheckBlock` have the same transaction hashes. -/
theorem merkleRoot_tells_txids (hpair : Function.Injective2 env.hashPair)
    (hleaf : ∀ (tx : CTransaction) (a b : uint256), tx.GetHash env ≠ env.hashPair a b)
    {block₁ block₂ : CBlock} {fCheckPOW₁ fCheckSig₁ fCheckPOW₂ fCheckSig₂ : Bool}
    (h₁ : block₁.CheckBlock env fCheckPOW₁ true fCheckSig₁ = true)
    (h₂ : block₂.CheckBlock env fCheckPOW₂ true fCheckSig₂ = true)
    (hroot : block₁.hashMerkleRoot = block₂.hashMerkleRoot) :
    block₁.vtx.map (CTransaction.GetHash env) = block₂.vtx.map (CTransaction.GetHash env) := by
  have hleaves : ∀ vtx : List CTransaction, ∀ x ∈ vtx.map (CTransaction.GetHash env),
      ∀ a b, x ≠ env.hashPair a b := by
    intro vtx x hx
    obtain ⟨tx, _, rfl⟩ := List.mem_map.mp hx
    exact hleaf tx
  obtain ⟨hne₁, hnodup₁⟩ := CBlock.nodup_of_checkBlock h₁
  obtain ⟨hne₂, hnodup₂⟩ := CBlock.nodup_of_checkBlock h₂
  rw [CBlock.merkleRoot_of_checkBlock h₁, CBlock.merkleRoot_of_checkBlock h₂,
    CBlock.BuildMerkleTree_eq, CBlock.BuildMerkleTree_eq] at hroot
  rw [Ne, ← List.map_eq_nil_iff (f := CTransaction.GetHash env)] at hne₁ hne₂
  obtain ⟨_, r₁, hr₁, _⟩ := exists_iterate_root env.hashPair hne₁
  obtain ⟨_, r₂, hr₂, _⟩ := exists_iterate_root env.hashPair hne₂
  apply eq_of_root? hpair hnodup₁ hnodup₂ hne₁ hne₂ (hleaves _) (hleaves _)
  rw [hr₁, hr₂, Option.getD_some, Option.getD_some] at hroot
  rw [hr₁, hr₂, hroot]

namespace Scenario

/-- Even numbers are the hashes of transactions, and every pair has an odd number of its own. -/
def pairing : Env :=
  { timed testNet with
    txHash := fun tx => 2 * tx.nTime
    hashPair := fun a b => 2 * Nat.pair a b + 1 }

theorem pairing_injective : Function.Injective2 pairing.hashPair := by
  intro a₁ a₂ b₁ b₂ h
  have hpair : 2 * Nat.pair a₁ b₁ + 1 = 2 * Nat.pair a₂ b₂ + 1 := h
  exact Nat.pair_eq_pair.mp (by omega)

/-- A block with a payment of the given amount, whose hash does not depend on it. -/
def payingBlock (nValue : ℤ) : CBlock :=
  let block : CBlock := ⟨7, 0, 0, 10, 0x207fffff, 0,
    [coinbase 1 1 1 [payTo (625 * COIN)], spending 2 1 [⟨7, 0⟩] [payTo nValue]], []⟩
  { block with hashMerkleRoot := block.BuildMerkleTree pairing }

end Scenario

open Scenario in
theorem merkleRoot_tells_txids_payingBlock :
    (payingBlock COIN).vtx.map (CTransaction.GetHash pairing) =
      (payingBlock (2 * COIN)).vtx.map (CTransaction.GetHash pairing) := by
  apply merkleRoot_tells_txids pairing_injective _ (by decide : (payingBlock COIN).CheckBlock
    pairing false true true = true) (by decide : (payingBlock (2 * COIN)).CheckBlock pairing true true
      true = true) (by decide)
  intro tx a b h
  have heven : 2 * tx.nTime = 2 * Nat.pair a b + 1 := h
  omega

end Dions
