import Mathlib.Data.Nat.Bitwise
import Dions.Model.Kernel

/-! # The blocks behind a stake modifier

Every round of `ComputeNextStakeModifier` finds a block: there are no more rounds than candidates,
and each round takes one that no round before has taken. It is the one with the least selection
hash among those up to the stop time of the round, or the earliest one left if there is none. -/

namespace Dions

open CBlockIndex (GetBlockHash GetBlockTime)

variable {pindexPrev : CBlockIndex} {items : List (ℤ × uint256)}
variable {blocks bs : List CBlockIndex}

/-- Every entry of the line is found in the index under its hash. -/
def LineIndexed (mapBlockIndex : uint256 → Option CBlockIndex) (pindexPrev : CBlockIndex) : Prop :=
  ∀ x ∈ Lineage.line pindexPrev, mapBlockIndex (GetBlockHash x) = some x

/-- The pair under which a block is a candidate. -/
def candidateItem (x : CBlockIndex) : ℤ × uint256 := (GetBlockTime x, GetBlockHash x)

variable (sel : Selection) (mapBlockIndex : uint256 → Option CBlockIndex)

/-! ## One round -/

/-- The candidates that have not been selected. -/
def unselected (bs selected : List CBlockIndex) : List CBlockIndex :=
  bs.filter fun b => GetBlockHash b ∉ selected.map GetBlockHash

/-- The candidates of a round: those not selected up to its stop time. -/
def eligible (bs selected : List CBlockIndex) (stop : ℤ) : List CBlockIndex :=
  (unselected bs selected).filter fun b => GetBlockTime b ≤ stop

/-- What a round has to select: the first with the least selection hash among the candidates of
the round; where there is none, the first of all blocks not selected. -/
def roundChoice (bs selected : List CBlockIndex) (stop : ℤ) (prev : ℕ) : Option CBlockIndex :=
  ((eligible bs selected stop).argmin (selectionHash sel prev)).or
    (unselected bs selected).head?

section Round

variable {sel mapBlockIndex} {selected bs : List CBlockIndex} {b : CBlockIndex} {stop : ℤ}
  {prev : ℕ}

theorem unselected_cons_mem (h : GetBlockHash b ∈ selected.map GetBlockHash) :
    unselected (b :: bs) selected = unselected bs selected :=
  List.filter_cons_of_neg (by simpa using h)

theorem unselected_cons_notMem (h : GetBlockHash b ∉ selected.map GetBlockHash) :
    unselected (b :: bs) selected = b :: unselected bs selected :=
  List.filter_cons_of_pos (by simpa using h)

theorem eligible_eq_nil (hsorted : ∀ c ∈ bs, stop < GetBlockTime c) :
    eligible bs selected stop = [] := by
  rw [eligible, List.filter_eq_nil_iff]
  intro c hc
  have hlate := hsorted c (List.mem_of_mem_filter hc)
  simpa using hlate

/-- Once something is selected, the loop runs through the eligible blocks. -/
theorem selectLoop_some (hfound : ∀ b ∈ bs, mapBlockIndex (GetBlockHash b) = some b)
    (hsorted : bs.Pairwise fun b c => GetBlockTime b ≤ GetBlockTime c) (best : CBlockIndex) :
    selectLoop sel mapBlockIndex selected stop prev (bs.map candidateItem) (some best) =
      (eligible bs selected stop).foldl
        (List.argAux fun b c => selectionHash sel prev b < selectionHash sel prev c)
        (some best) := by
  induction bs generalizing best with
  | nil => rfl
  | cons b bs ih =>
    obtain ⟨hb, hfound⟩ := List.forall_mem_cons.mp hfound
    obtain ⟨hle, hsorted⟩ := List.pairwise_cons.mp hsorted
    have hitem : mapBlockIndex (candidateItem b).2 = some b := hb
    rw [List.map_cons, selectLoop, hitem]
    by_cases hlate : stop < GetBlockTime b
    · have hnone : eligible (b :: bs) selected stop = [] :=
        eligible_eq_nil (List.forall_mem_cons.mpr
          ⟨hlate, fun c hc => lt_of_lt_of_le hlate (hle c hc)⟩)
      rw [hnone]
      simp [hlate]
    · by_cases hsel : GetBlockHash b ∈ selected.map GetBlockHash
      · have hsame : eligible (b :: bs) selected stop = eligible bs selected stop := by
          rw [eligible, eligible, unselected_cons_mem hsel]
        rw [hsame, ← ih hfound hsorted best]
        simp only [hlate, and_false, if_false, if_pos hsel]
      · have hcons : eligible (b :: bs) selected stop = b :: eligible bs selected stop := by
          rw [eligible, eligible, unselected_cons_notMem hsel, List.filter_cons_of_pos]
          simpa using hlate
        rw [hcons, List.foldl_cons]
        simp only [hlate, and_false, if_false, if_neg hsel, List.argAux]
        split
        · exact ih hfound hsorted b
        · exact ih hfound hsorted best

theorem foldl_argAux_isSome {α : Type} (r : α → α → Prop) [DecidableRel r] (l : List α) (a : α) :
    (l.foldl (List.argAux r) (some a)).isSome = true := by
  rw [Option.isSome_iff_ne_none]
  simp

/-- The loop selects what the round has to select. -/
theorem selectLoop_none (hfound : ∀ b ∈ bs, mapBlockIndex (GetBlockHash b) = some b)
    (hsorted : bs.Pairwise fun b c => GetBlockTime b ≤ GetBlockTime c) :
    selectLoop sel mapBlockIndex selected stop prev (bs.map candidateItem) none =
      roundChoice sel bs selected stop prev := by
  induction bs with
  | nil => rfl
  | cons b bs ih =>
    obtain ⟨hb, hfound⟩ := List.forall_mem_cons.mp hfound
    obtain ⟨hle, hsorted⟩ := List.pairwise_cons.mp hsorted
    have hitem : mapBlockIndex (candidateItem b).2 = some b := hb
    rw [List.map_cons, selectLoop, hitem]
    by_cases hsel : GetBlockHash b ∈ selected.map GetBlockHash
    · have hsame : roundChoice sel (b :: bs) selected stop prev =
          roundChoice sel bs selected stop prev := by
        rw [roundChoice, roundChoice, eligible, eligible, unselected_cons_mem hsel]
      rw [hsame, ← ih hfound hsorted]
      simp only [Option.isSome_none, Bool.false_eq_true, false_and, if_false, if_pos hsel]
    · -- the first block left: it is compared with the eligible ones behind it
      have hhead : (unselected (b :: bs) selected).head? = some b := by
        rw [unselected_cons_notMem hsel, List.head?_cons]
      simp only [Option.isSome_none, Bool.false_eq_true, false_and, if_false, if_neg hsel]
      rw [selectLoop_some hfound hsorted, roundChoice, hhead]
      by_cases hlate : stop < GetBlockTime b
      · have hall : ∀ c ∈ bs, stop < GetBlockTime c := fun c hc => lt_of_lt_of_le hlate (hle c hc)
        rw [eligible_eq_nil hall, eligible_eq_nil (List.forall_mem_cons.mpr ⟨hlate, hall⟩)]
        rfl
      · have hcons : eligible (b :: bs) selected stop = b :: eligible bs selected stop := by
          rw [eligible, eligible, unselected_cons_notMem hsel, List.filter_cons_of_pos]
          simpa using hlate
        rw [hcons, List.argmin, List.foldl_cons]
        have hsome := foldl_argAux_isSome
          (fun b c => selectionHash sel prev b < selectionHash sel prev c)
          (eligible bs selected stop) b
        exact (Option.or_of_isSome hsome).symm

/-- What a round selects is a candidate that no round has selected. -/
theorem roundChoice_mem (h : roundChoice sel bs selected stop prev = some b) :
    b ∈ bs ∧ GetBlockHash b ∉ selected.map GetBlockHash := by
  have hmem : b ∈ unselected bs selected := by
    unfold roundChoice at h
    cases Option.or_eq_some_iff.mp h with
    | inl hmin => exact List.mem_of_mem_filter (List.argmin_mem hmin)
    | inr hhead => exact List.mem_of_mem_head? hhead.2
  have h' := List.mem_filter.mp hmem
  exact ⟨h'.1, by simpa using h'.2⟩

/-- While fewer blocks are selected than there are candidates, a round finds one. -/
theorem roundChoice_isSome (sel : Selection) (stop : ℤ) (prev : ℕ)
    (hnodup : (bs.map GetBlockHash).Nodup) (hfew : selected.length < bs.length) :
    ∃ b, roundChoice sel bs selected stop prev = some b := by
  cases hchoice : roundChoice sel bs selected stop prev with
  | some b => exact ⟨b, rfl⟩
  | none =>
    have hempty : unselected bs selected = [] := by
      unfold roundChoice at hchoice
      exact List.head?_eq_none_iff.mp (Option.or_eq_none_iff.mp hchoice).2
    have hsub : bs.map GetBlockHash ⊆ selected.map GetBlockHash := by
      intro hash hmem
      obtain ⟨c, hc, rfl⟩ := List.mem_map.mp hmem
      by_contra hnot
      have hin : c ∈ unselected bs selected := List.mem_filter.mpr ⟨hc, by simpa using hnot⟩
      rw [hempty] at hin
      simp at hin
    have hle := (hnodup.subperm hsub).length_le
    rw [List.length_map, List.length_map] at hle
    omega

end Round

/-! ## The candidates -/

theorem timestampLe_total (a b : ℤ × uint256) : timestampLe a b ∨ timestampLe b a := by
  cases lt_trichotomy a.1 b.1 with
  | inl hlt => exact .inl (.inl hlt)
  | inr hge =>
    cases hge with
    | inl heq =>
      cases Nat.le_total a.2 b.2 with
      | inl hle => exact .inl (.inr ⟨heq, hle⟩)
      | inr hle => exact .inr (.inr ⟨heq.symm, hle⟩)
    | inr hgt => exact .inr (.inl hgt)

theorem timestampLe_trans {a b c : ℤ × uint256} (hab : timestampLe a b) (hbc : timestampLe b c) :
    timestampLe a c := by
  cases hab with
  | inl hab =>
    cases hbc with
    | inl hbc => exact .inl (hab.trans hbc)
    | inr hbc => exact .inl (hbc.1 ▸ hab)
  | inr hab =>
    cases hbc with
    | inl hbc => exact .inl (hab.1 ▸ hbc)
    | inr hbc => exact .inr ⟨hab.1.trans hbc.1, hab.2.trans hbc.2⟩

instance : Std.Total timestampLe := ⟨timestampLe_total⟩

instance : IsTrans (ℤ × uint256) timestampLe := ⟨fun _ _ _ => timestampLe_trans⟩

/-- The walk collects an upper part of the line. -/
theorem collectCandidates_eq (start : ℤ) (pindexPrev : CBlockIndex) :
    ∃ bs : List CBlockIndex, collectCandidates start pindexPrev = bs.map candidateItem ∧
      bs.Sublist (Lineage.line pindexPrev) := by
  induction pindexPrev with
  | root d =>
    rw [collectCandidates]
    split
    · exact ⟨[.root d], rfl, List.Sublist.refl _⟩
    · exact ⟨[], rfl, List.nil_sublist _⟩
  | child d p ih =>
    rw [collectCandidates]
    split
    · obtain ⟨bs, hbs, hsub⟩ := ih
      exact ⟨.child d p :: bs, by rw [hbs]; rfl, hsub.cons_cons _⟩
    · exact ⟨[], rfl, List.nil_sublist _⟩

/-- The candidates of the modifier behind `pindexPrev` as entries, in the order of time and hash. -/
structure Candidates (items : List (ℤ × uint256)) (bs : List CBlockIndex) : Prop where
  items_eq : items = bs.map candidateItem
  found : ∀ b ∈ bs, mapBlockIndex (GetBlockHash b) = some b
  sorted : items.Pairwise timestampLe
  nodup : (bs.map GetBlockHash).Nodup

variable {mapBlockIndex}

theorem nodup_hashes_line (h : LineIndexed mapBlockIndex pindexPrev) :
    ((Lineage.line pindexPrev).map GetBlockHash).Nodup := by
  induction pindexPrev with
  | root d => simp [Lineage.line]
  | child d p ih =>
    obtain ⟨hself, hparent⟩ := List.forall_mem_cons.mp h
    rw [Lineage.line, List.map_cons, List.nodup_cons]
    refine ⟨fun hmem => ?_, ih hparent⟩
    obtain ⟨x, hx, hash⟩ := List.mem_map.mp hmem
    have hxx := hparent x hx
    rw [hash, hself, Option.some.injEq] at hxx
    rw [← hxx] at hx
    exact Lineage.not_mem_line_parent d p hx

/-- A list of pairs under which blocks are candidates comes from a list of blocks. -/
theorem exists_candidateBlocks {up : List CBlockIndex}
    (h : ∀ item ∈ items, item ∈ up.map candidateItem) :
    ∃ bs : List CBlockIndex, items = bs.map candidateItem ∧ ∀ b ∈ bs, b ∈ up := by
  induction items with
  | nil => exact ⟨[], rfl, by simp⟩
  | cons item items ih =>
    obtain ⟨hitem, hitems⟩ := List.forall_mem_cons.mp h
    obtain ⟨b, hb, rfl⟩ := List.mem_map.mp hitem
    obtain ⟨bs, rfl, hbs⟩ := ih hitems
    exact ⟨b :: bs, rfl, List.forall_mem_cons.mpr ⟨hb, hbs⟩⟩

theorem candidates_of_indexed (h : LineIndexed mapBlockIndex pindexPrev) (start : ℤ) :
    ∃ bs, Candidates mapBlockIndex (sortedCandidates start pindexPrev) bs := by
  obtain ⟨up, hup, hsub⟩ := collectCandidates_eq start pindexPrev
  have hperm : (sortedCandidates start pindexPrev).Perm (up.map candidateItem) := by
    rw [sortedCandidates, hup]
    exact (List.perm_insertionSort _ _).trans (List.reverse_perm _)
  obtain ⟨bs, hbs, hmem⟩ := exists_candidateBlocks fun item hitem => hperm.mem_iff.mp hitem
  refine ⟨bs, hbs, fun b hb => h b (hsub.subset (hmem b hb)), ?_, ?_⟩
  · exact List.pairwise_insertionSort _ _
  · have hhashes : ∀ l : List CBlockIndex,
        (l.map candidateItem).map Prod.snd = l.map GetBlockHash := by
      intro l
      rw [List.map_map]
      rfl
    rw [hbs] at hperm
    have hperm' := hperm.map Prod.snd
    rw [hhashes, hhashes] at hperm'
    exact hperm'.nodup_iff.mpr ((hsub.map GetBlockHash).nodup (nodup_hashes_line h))

theorem Candidates.length_eq (h : Candidates mapBlockIndex items bs) :
    items.length = bs.length := by
  rw [h.items_eq, List.length_map]

/-- `SelectBlockFromCandidates` selects what the round has to select. -/
theorem Candidates.select_eq (h : Candidates mapBlockIndex items bs) (selected : List CBlockIndex)
    (stop : ℤ) (prev : ℕ) :
    SelectBlockFromCandidates sel mapBlockIndex items selected stop prev =
      roundChoice sel bs selected stop prev := by
  have hsorted : bs.Pairwise fun b c => GetBlockTime b ≤ GetBlockTime c := by
    have hpairs := h.sorted
    rw [h.items_eq, List.pairwise_map] at hpairs
    refine hpairs.imp fun {b c} hbc => ?_
    cases hbc with
    | inl hlt => exact hlt.le
    | inr heq => exact heq.1.le
  rw [SelectBlockFromCandidates, h.items_eq]
  exact selectLoop_none h.found hsorted

/-! ## The rounds -/

/-- The stop time of the round before `nRound`, or the start of the interval. -/
def stopBefore (start : ℤ) (nRound : ℕ) : ℤ :=
  start + (((List.range nRound).map GetStakeModifierSelectionIntervalSection).sum : ℕ)

theorem stopBefore_succ (start : ℤ) (nRound : ℕ) :
    stopBefore start (nRound + 1) =
      stopBefore start nRound + GetStakeModifierSelectionIntervalSection nRound := by
  simp only [stopBefore, List.range_succ, List.map_append, List.sum_append, List.map_cons,
    List.map_nil, List.sum_cons, List.sum_nil, Nat.add_zero, Nat.cast_add, Int.add_assoc]

/-- Round by round, the blocks are what the rounds have to select. -/
def Rounds (bs : List CBlockIndex) (start : ℤ) (prev : ℕ) (blocks : List CBlockIndex) : Prop :=
  ∀ n b, blocks[n]? = some b →
    roundChoice sel bs (blocks.take n) (stopBefore start (n + 1)) prev = some b

/-- The bits of the number are the entropy bits of the blocks, and no more. -/
def Wrote (blocks : List CBlockIndex) (nStakeModifierNew : ℕ) : Prop :=
  ∀ n, nStakeModifierNew.testBit n = (blocks[n]?.map sel.GetStakeEntropyBit).getD false

variable {sel}

theorem Rounds.snoc {start : ℤ} {prev : ℕ} {b : CBlockIndex} (h : Rounds sel bs start prev blocks)
    (hb : roundChoice sel bs blocks (stopBefore start (blocks.length + 1)) prev = some b) :
    Rounds sel bs start prev (blocks ++ [b]) := by
  intro n c hc
  by_cases hn : n < blocks.length
  · rw [List.getElem?_append_left hn] at hc
    rw [List.take_append_of_le_length hn.le]
    exact h n c hc
  · have hlast : n = blocks.length := by
      have hlt := (List.getElem?_eq_some_iff.mp hc).1
      rw [List.length_append, List.length_singleton] at hlt
      omega
    subst hlast
    rw [List.getElem?_concat_length, Option.some.injEq] at hc
    rw [List.take_left, ← hc]
    exact hb

theorem Wrote.snoc {nStakeModifierNew : ℕ} (h : Wrote sel blocks nStakeModifierNew)
    (b : CBlockIndex) :
    Wrote sel (blocks ++ [b])
      (nStakeModifierNew ||| ((sel.GetStakeEntropyBit b).toNat <<< blocks.length)) := by
  intro n
  rw [Nat.testBit_or, h n, Nat.testBit_shiftLeft]
  by_cases hn : n < blocks.length
  · rw [List.getElem?_append_left hn]
    simp [hn]
  · have hnone : blocks[n]? = none := List.getElem?_eq_none (by omega)
    by_cases hlast : n = blocks.length
    · subst hlast
      rw [hnone, List.getElem?_concat_length]
      cases hbit : sel.GetStakeEntropyBit b <;> simp [hbit]
    · obtain ⟨k, rfl⟩ : ∃ k, n = blocks.length + (k + 1) := ⟨n - blocks.length - 1, by omega⟩
      have hbeyond : (blocks ++ [b])[blocks.length + (k + 1)]? = none :=
        List.getElem?_eq_none (by rw [List.length_append, List.length_singleton]; omega)
      rw [hnone, hbeyond, Nat.add_sub_cancel_left]
      cases sel.GetStakeEntropyBit b <;> simp [Nat.testBit_succ]

/-- As long as there are candidates left, every round finds a block and writes its bit. -/
theorem modifierRounds_spec (sel : Selection) {items : List (ℤ × uint256)} {bs : List CBlockIndex}
    (h : Candidates mapBlockIndex items bs) (start : ℤ) (prev rounds : ℕ)
    (blocks : List CBlockIndex) (new : ℕ) (henough : blocks.length + rounds ≤ bs.length)
    (hrounds : Rounds sel bs start prev blocks) (hwrote : Wrote sel blocks new) :
    ∃ blocks' new', modifierRounds sel mapBlockIndex items prev rounds blocks.length
        (stopBefore start blocks.length) blocks new = some new' ∧
      blocks'.length = blocks.length + rounds ∧ Rounds sel bs start prev blocks' ∧
        Wrote sel blocks' new' := by
  induction rounds generalizing blocks new with
  | zero => exact ⟨blocks, new, rfl, rfl, hrounds, hwrote⟩
  | succ rounds ih =>
    have hfew : blocks.length < bs.length := by omega
    obtain ⟨b, hb⟩ := roundChoice_isSome sel (stopBefore start (blocks.length + 1)) prev
      h.nodup hfew
    have hlength : (blocks ++ [b]).length = blocks.length + 1 := by
      rw [List.length_append, List.length_singleton]
    obtain ⟨blocks', new', hrun, hlen, hrounds', hwrote'⟩ :=
      ih _ _ (by omega) (hrounds.snoc hb) (hwrote.snoc b)
    refine ⟨blocks', new', ?_, by omega, hrounds', hwrote'⟩
    rw [hlength] at hrun
    rw [modifierRounds, ← stopBefore_succ, h.select_eq, hb]
    exact hrun

variable (sel) (mapBlockIndex)

/-- What the rounds behind `pindexPrev` do with the bits of the new modifier: no more rounds than 64
and than candidates, each of which selects a block that none before has selected, by the rule. -/
structure SelectedBy (pindexPrev : CBlockIndex) (prev nStakeModifierNew : ℕ)
    (blocks : List CBlockIndex) : Prop where
  length : blocks.length =
    min 64 (sortedCandidates (selectionIntervalStart pindexPrev) pindexPrev).length
  selects : ∀ n b, blocks[n]? = some b →
    SelectBlockFromCandidates sel mapBlockIndex
      (sortedCandidates (selectionIntervalStart pindexPrev) pindexPrev) (blocks.take n)
      (stopBefore (selectionIntervalStart pindexPrev) (n + 1)) prev = some b
  fresh : ∀ n b, blocks[n]? = some b →
    GetBlockHash b ∉ (blocks.take n).map GetBlockHash
  rule : ∃ bs, Candidates mapBlockIndex
      (sortedCandidates (selectionIntervalStart pindexPrev) pindexPrev) bs ∧
    ∀ n b, blocks[n]? = some b → roundChoice sel bs (blocks.take n)
      (stopBefore (selectionIntervalStart pindexPrev) (n + 1)) prev = some b
  bits : ∀ n b, blocks[n]? = some b →
    nStakeModifierNew.testBit n = sel.GetStakeEntropyBit b
  zero : ∀ n, blocks.length ≤ n → nStakeModifierNew.testBit n = false

theorem exists_selectedBy (h : LineIndexed mapBlockIndex pindexPrev) (prev : ℕ) :
    ∃ nStakeModifierNew blocks, modifierRounds sel mapBlockIndex
        (sortedCandidates (selectionIntervalStart pindexPrev) pindexPrev) prev
        (min 64 (sortedCandidates (selectionIntervalStart pindexPrev) pindexPrev).length) 0
        (selectionIntervalStart pindexPrev) [] 0 = some nStakeModifierNew ∧
      SelectedBy sel mapBlockIndex pindexPrev prev nStakeModifierNew blocks := by
  obtain ⟨bs, hbs⟩ := candidates_of_indexed h (selectionIntervalStart pindexPrev)
  have hlength := hbs.length_eq
  have hstart : stopBefore (selectionIntervalStart pindexPrev) 0 =
      selectionIntervalStart pindexPrev := Int.add_zero _
  obtain ⟨blocks, new, hrun, hlen, hrounds, hwrote⟩ := modifierRounds_spec sel hbs
    (selectionIntervalStart pindexPrev) prev
    (min 64 (sortedCandidates (selectionIntervalStart pindexPrev) pindexPrev).length)
    [] 0 (by rw [List.length_nil]; omega) (by simp [Rounds])
    (by simp [Wrote])
  rw [List.length_nil, hstart] at hrun
  rw [List.length_nil, Nat.zero_add] at hlen
  refine ⟨new, blocks, hrun, hlen, ?_, ?_, ⟨bs, hbs, hrounds⟩, ?_, ?_⟩
  · intro n b hb
    rw [hbs.select_eq]
    exact hrounds n b hb
  · intro n b hb
    exact (roundChoice_mem (hrounds n b hb)).2
  · intro n b hb
    rw [hwrote n, hb]
    rfl
  · intro n hn
    rw [hwrote n, List.getElem?_eq_none hn]
    rfl

/-- On an indexed line `ComputeNextStakeModifier` fails only where no entry has a modifier yet, and
a new modifier is made of the entropy bits of the blocks that the rounds have to select. -/
theorem stake_modifier_selection {pindexPrev : CBlockIndex}
    (h : LineIndexed mapBlockIndex pindexPrev) :
    (ComputeNextStakeModifier sel mapBlockIndex (some pindexPrev) = none ↔
      GetLastStakeModifier pindexPrev = none) ∧
    ∀ nStakeModifier, ComputeNextStakeModifier sel mapBlockIndex (some pindexPrev) =
        some (nStakeModifier, true) →
      ∃ prev nModifierTime blocks, GetLastStakeModifier pindexPrev = some (prev, nModifierTime) ∧
        SelectedBy sel mapBlockIndex pindexPrev prev nStakeModifier blocks := by
  cases hlast : GetLastStakeModifier pindexPrev with
  | none => simp [ComputeNextStakeModifier, hlast]
  | some last =>
    obtain ⟨prev, nModifierTime⟩ := last
    obtain ⟨new, blocks, hrun, hblocks⟩ := exists_selectedBy sel mapBlockIndex h prev
    by_cases hrecent : GetBlockTime pindexPrev / nModifierInterval ≤
        nModifierTime / nModifierInterval
    · simp [ComputeNextStakeModifier, hlast, hrecent]
    · have hcompute : ComputeNextStakeModifier sel mapBlockIndex (some pindexPrev) =
          some (new, true) := by
        simp only [ComputeNextStakeModifier, hlast, if_neg hrecent, hrun]
      refine ⟨by simp [hcompute], fun nStakeModifier hnew => ?_⟩
      rw [hcompute, Option.some.injEq, Prod.mk.injEq] at hnew
      exact ⟨prev, nModifierTime, blocks, rfl, hnew.1 ▸ hblocks⟩

/-- Two blocks eleven minutes apart, on a genesis block at the time of the first one. -/
def elevenMinutes : CBlockIndex :=
  let entry (nTime : ℕ) (generated : Bool) : BlockIndexData :=
    ⟨nTime + 1, 1, nTime, false, 0, generated, nTime, 0⟩
  .child (entry 661 false) (.child (entry 1 false) (.root (entry 0 true)))

theorem stake_modifier_selection_elevenMinutes : ∃ nStakeModifier blocks,
    SelectedBy ⟨fun _ => 0, fun x => GetBlockHash x % 2 == 1, fun _ _ => 0⟩
      (fun hash => (Lineage.line elevenMinutes).find? fun x => GetBlockHash x == hash)
      elevenMinutes 0 nStakeModifier blocks := by
  have hindexed : LineIndexed
      (fun hash => (Lineage.line elevenMinutes).find? fun x => GetBlockHash x == hash)
      elevenMinutes := by
    unfold LineIndexed
    decide
  have hlast : GetLastStakeModifier elevenMinutes = some (0, 0) := by decide
  obtain ⟨prev, t, blocks, hprev, hselected⟩ := (stake_modifier_selection
    ⟨fun _ => 0, fun x => GetBlockHash x % 2 == 1, fun _ _ => 0⟩ _ hindexed).2 1 (by decide)
  rw [hlast, Option.some.injEq, Prod.mk.injEq] at hprev
  exact ⟨1, blocks, hprev.1 ▸ hselected⟩

end Dions
