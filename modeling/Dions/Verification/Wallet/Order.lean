import Mathlib.Data.List.Induction
import Dions.Model.Wallet

/-! # Positions of a reordered wallet

An item that has a position is moved up once for each new place at or below its old position. The
places are those of the new order, so the item can come to stand on one of them. -/

namespace Dions

open Halting

variable {p : ℤ} {i : ℕ}

/-! ## Places for what has none -/

/-- A position, moved up by the places at or below it. -/
def lifted (places : List ℤ) (p : ℤ) : ℤ := p + places.countP (· ≤ p)

/-- The largest of the positions of what has one; `-1` if nothing has. -/
def lastPos (ps : List ℤ) : ℤ := ps.foldl max (-1)

/-- The place behind the last one, and behind the largest position after it is moved up. -/
def nextPlace (places ps : List ℤ) : ℤ :=
  max (places.getLastD (-1)) (lifted places (lastPos ps)) + 1

/-- The places for those of a sequence that have no position, one after the other: each is behind
the place before and behind all positions of the sequence so far. -/
def placesFrom : (places seen : List ℤ) → List ℤ → List ℤ
  | places, _, [] => places
  | places, seen, p :: ps =>
    placesFrom (if p = -1 then places ++ [nextPlace places seen] else places) (seen ++ [p]) ps

def places (ps : List ℤ) : List ℤ := placesFrom [] [] ps

theorem placesFrom_append (O seen ps ps' : List ℤ) :
    placesFrom O seen (ps ++ ps') = placesFrom (placesFrom O seen ps) (seen ++ ps) ps' := by
  induction ps generalizing O seen with
  | nil => rw [List.nil_append, List.append_nil, placesFrom]
  | cons p ps ih =>
      rw [List.cons_append, placesFrom, placesFrom, ih, List.append_assoc, List.singleton_append]

theorem places_concat (ps : List ℤ) (p : ℤ) :
    places (ps ++ [p]) = if p = -1 then places ps ++ [nextPlace (places ps) ps] else places ps := by
  rw [places, placesFrom_append, placesFrom, placesFrom]
  rfl

theorem lastPos_concat (ps : List ℤ) (p : ℤ) : lastPos (ps ++ [p]) = max (lastPos ps) p := by
  rw [lastPos, List.foldl_append]
  rfl

theorem neg_one_le_lastPos (ps : List ℤ) : -1 ≤ lastPos ps := by
  induction ps using List.reverseRecOn with
  | nil => exact le_rfl
  | append_singleton ps p ih =>
      rw [lastPos_concat]
      omega

theorem le_lastPos {ps : List ℤ} (h : p ∈ ps) : p ≤ lastPos ps := by
  induction ps using List.reverseRecOn with
  | nil => cases h
  | append_singleton ps q ih =>
      rw [lastPos_concat]
      rcases List.mem_append.mp h with h | h
      · have := ih h
        omega
      · rw [List.mem_singleton.mp h]
        omega

theorem lifted_mono {O : List ℤ} {p q : ℤ} (h : p ≤ q) : lifted O p ≤ lifted O q := by
  have hcount : O.countP (· ≤ p) ≤ O.countP (· ≤ q) := by
    apply List.countP_mono_left
    intro o _ ho
    rw [decide_eq_true_eq] at ho ⊢
    omega
  rw [lifted, lifted]
  omega

theorem lifted_lt {O : List ℤ} {q : ℤ} (h : p < q) : lifted O p < lifted O q := by
  have := @lifted_mono O p (q - 1) (by omega)
  have hcount : O.countP (· ≤ q - 1) ≤ O.countP (· ≤ q) := by
    apply List.countP_mono_left
    intro o _ ho
    rw [decide_eq_true_eq] at ho ⊢
    omega
  rw [lifted] at this ⊢
  rw [lifted] at this ⊢
  omega

theorem le_lifted (O : List ℤ) (p : ℤ) : p ≤ lifted O p := by
  rw [lifted]
  omega

/-- A place above a position does not move it. -/
theorem lifted_concat {O : List ℤ} {o : ℤ} (h : p < o) : lifted (O ++ [o]) p = lifted O p := by
  rw [lifted, lifted, List.countP_append, List.countP_singleton, if_neg]
  · rw [Nat.add_zero]
  · rw [decide_eq_true_eq]
    omega

theorem lifted_last_lt (O ps : List ℤ) : lifted O (lastPos ps) < nextPlace O ps := by
  rw [nextPlace]
  omega

/-- The places go up, and no one is negative. -/
theorem places_increasing (ps : List ℤ) :
    (places ps).Pairwise (· < ·) ∧ (∀ o ∈ places ps, 0 ≤ o ∧ o < nextPlace (places ps) ps) := by
  induction ps using List.reverseRecOn with
  | nil => exact ⟨.nil, nofun⟩
  | append_singleton ps p ih =>
      obtain ⟨hup, hrange⟩ := ih
      have hlast := neg_one_le_lastPos ps
      have hlifted := le_lifted (places ps) (lastPos ps)
      rw [places_concat]
      split
      next hp =>
        subst hp
        constructor
        · rw [List.pairwise_append]
          refine ⟨hup, List.pairwise_singleton _ _, ?_⟩
          intro o ho o' ho'
          rw [List.mem_singleton.mp ho']
          exact (hrange o ho).2
        · intro o ho
          have hnext : nextPlace (places ps) ps <
              nextPlace (places ps ++ [nextPlace (places ps) ps]) (ps ++ [-1]) := by
            rw [nextPlace.eq_def (_ ++ _), List.getLastD_concat]
            omega
          rcases List.mem_append.mp ho with ho | ho
          · exact ⟨(hrange o ho).1, (hrange o ho).2.trans hnext⟩
          · rw [List.mem_singleton.mp ho]
            refine ⟨?_, hnext⟩
            rw [nextPlace]
            omega
      next hp =>
        refine ⟨hup, ?_⟩
        intro o ho
        have hmono := @lifted_mono (places ps) (lastPos ps) (lastPos (ps ++ [p])) (by
          rw [lastPos_concat]
          omega)
        refine ⟨(hrange o ho).1, (hrange o ho).2.trans_le ?_⟩
        rw [nextPlace, nextPlace]
        omega

theorem nextPlace_free (ps : List ℤ) :
    nextPlace (places ps ++ [nextPlace (places ps) ps]) (ps ++ [-1]) =
      nextPlace (places ps) ps + 1 := by
  have hlast := neg_one_le_lastPos ps
  have hlt := lifted_last_lt (places ps) ps
  have hle := le_lifted (places ps) (lastPos ps)
  rw [nextPlace.eq_def (_ ++ _), List.getLastD_concat, lastPos_concat, max_eq_left hlast,
    lifted_concat (by omega)]
  omega

theorem nextPlace_moved (O ps : List ℤ) (p : ℤ) :
    nextPlace O (ps ++ [p]) = max (nextPlace O ps) (lifted O p + 1) := by
  rw [nextPlace, nextPlace, lastPos_concat]
  rcases le_total (lastPos ps) p with h | h
  · have := @lifted_mono O _ _ h
    rw [max_eq_right h]
    omega
  · have := @lifted_mono O _ _ h
    rw [max_eq_left h]
    omega

/-- No position is moved up onto a place. -/
def Clear (ps : List ℤ) : Prop := ∀ p ∈ ps, p ≠ -1 → lifted (places ps) p ∉ places ps

/-! ## Order of the visits -/

theorem insertByTime_perm (m : List (ℤ × ℕ)) (x : ℤ × ℕ) : (insertByTime m x).Perm (x :: m) := by
  have hperm : (insertByTime m x).Perm
      (x :: (m.takeWhile (fun y => y.1 ≤ x.1) ++ m.dropWhile fun y => y.1 ≤ x.1)) :=
    List.perm_middle
  rwa [List.takeWhile_append_dropWhile] at hperm

theorem foldl_insertByTime_perm (xs m : List (ℤ × ℕ)) :
    (xs.foldl insertByTime m).Perm (xs ++ m) := by
  induction xs generalizing m with
  | nil => exact .refl m
  | cons x xs ih =>
      refine (ih (insertByTime m x)).trans ?_
      exact ((insertByTime_perm m x).append_left xs).trans List.perm_middle

theorem txByTime_perm (items : List OrderItem) :
    (txByTime items).Perm (List.range items.length) := by
  have hperm := (foldl_insertByTime_perm (items.zipIdx.map fun x => (x.1.nTime, x.2)) []).map Prod.snd
  rw [List.append_nil, List.map_map] at hperm
  have hidx : items.zipIdx.map (Prod.snd ∘ fun x => (x.1.nTime, x.2)) = List.range items.length := by
    rw [List.range_eq_range', ← List.zipIdx_map_snd 0 items]
    rfl
  rwa [hidx] at hperm

/-! ## Rounds -/

def posAt (items : List OrderItem) (i : ℕ) : ℤ := ((items[i]?).map OrderItem.nOrderPos).getD (-1)

variable {items : List OrderItem} {before order : List ℕ} {s s' : Reordering} {fails : WriteFails}

theorem posAt_some {item : OrderItem} (h : items[i]? = some item) :
    posAt items i = item.nOrderPos := by
  rw [posAt, h, Option.map_some, Option.getD_some]

theorem posAt_set {j : ℕ} (hi : i < items.length) (item : OrderItem) :
    posAt (items.set i item) j = if j = i then item.nOrderPos else posAt items j := by
  by_cases hj : j = i
  · subst hj
    rw [if_pos rfl, posAt_some (List.getElem?_set_self hi)]
  · rw [if_neg hj, posAt, List.getElem?_set_ne (Ne.symm hj), posAt]

structure Visited (items : List OrderItem) (before : List ℕ) (s : Reordering) : Prop where
  length : s.items.length = items.length
  rest : ∀ i ∉ before, posAt s.items i = posAt items i
  offsets : s.nOrderPosOffsets = places (before.map (posAt items))
  next : s.nOrderPosNext =
    nextPlace (places (before.map (posAt items))) (before.map (posAt items))
  moved : ∀ i ∈ before, posAt items i ≠ -1 →
    posAt s.items i = lifted (places (before.map (posAt items))) (posAt items i)
  placed : (before.filter fun i => posAt items i = -1).map (posAt s.items) =
    places (before.map (posAt items))

theorem visited_start (items : List OrderItem) : Visited items [] ⟨items, 0, []⟩ :=
  ⟨rfl, fun _ _ => rfl, rfl, rfl, nofun, rfl⟩

/-- What a round does that does not stop the loop. -/
theorem reorderItem_ok (h : reorderItem fails s i = .ok s') :
    ∃ item, s.items[i]? = some item ∧
      (item.nOrderPos = -1 ∧ s' = ⟨s.items.set i { item with nOrderPos := s.nOrderPosNext },
        s.nOrderPosNext + 1, s.nOrderPosOffsets ++ [s.nOrderPosNext]⟩ ∨
      item.nOrderPos ≠ -1 ∧ s' =
        ⟨s.items.set i { item with nOrderPos := lifted s.nOrderPosOffsets item.nOrderPos },
          max s.nOrderPosNext (lifted s.nOrderPosOffsets item.nOrderPos + 1),
          s.nOrderPosOffsets⟩) := by
  rw [reorderItem] at h
  cases hitem : s.items[i]? with
  | none =>
      rw [hitem] at h
      cases h
  | some item =>
      rw [hitem] at h
      dsimp only at h
      refine ⟨item, rfl, ?_⟩
      by_cases hpos : item.nOrderPos = -1
      · rw [if_pos hpos] at h
        split at h
        next => cases h
        next =>
          cases h
          exact .inl ⟨hpos, rfl⟩
      · rw [if_neg hpos] at h
        split at h
        next => cases h
        next =>
          cases h
          exact .inr ⟨hpos, rfl⟩

theorem Visited.step {i : ℕ} (h : Visited items before s) (hi : i ∉ before)
    (hround : reorderItem fails s i = .ok s') : Visited items (before ++ [i]) s' := by
  obtain ⟨item, hitem, hcase⟩ := reorderItem_ok hround
  have hlt := (List.getElem?_eq_some_iff.mp hitem).1
  have hpos : posAt items i = item.nOrderPos := (h.rest i hi).symm.trans (posAt_some hitem)
  have hother : ∀ j ∈ before, j ≠ i := fun j hj hji => hi (hji ▸ hj)
  have hmap : (before ++ [i]).map (posAt items) = before.map (posAt items) ++ [posAt items i] := by
    rw [List.map_append]
    rfl
  obtain ⟨-, hrange⟩ := places_increasing (before.map (posAt items))
  rcases hcase with ⟨hfree, rfl⟩ | ⟨hplaced, rfl⟩
  · have hfree' : posAt items i = -1 := hpos.trans hfree
    have hplaces := places_concat (before.map (posAt items)) (-1)
    rw [if_pos rfl] at hplaces
    refine ⟨?_, ?_, ?_, ?_, ?_, ?_⟩
    · rw [List.length_set, h.length]
    · intro j hj
      rw [List.mem_append, List.mem_singleton, not_or] at hj
      rw [posAt_set hlt, if_neg hj.2, h.rest j hj.1]
    · rw [hmap, hfree', hplaces, ← h.next, h.offsets]
    · rw [hmap, hfree', hplaces, nextPlace_free, ← h.next]
    · intro j hj hjpos
      rcases List.mem_append.mp hj with hj | hj
      · have hlast : posAt items j ≤ lastPos (before.map (posAt items)) :=
          le_lastPos (List.mem_map_of_mem hj)
        have hle := le_lifted (places (before.map (posAt items))) (lastPos (before.map (posAt items)))
        have hlt' := lifted_last_lt (places (before.map (posAt items))) (before.map (posAt items))
        rw [posAt_set hlt, if_neg (hother j hj), hmap, hfree', hplaces, lifted_concat (by omega)]
        exact h.moved j hj hjpos
      · rw [List.mem_singleton.mp hj] at hjpos
        exact absurd hfree' hjpos
    · have hold : (before.filter fun j => posAt items j = -1).map
          (posAt (s.items.set i { item with nOrderPos := s.nOrderPosNext })) =
          (before.filter fun j => posAt items j = -1).map (posAt s.items) := by
        apply List.map_congr_left
        intro j hj
        rw [posAt_set hlt, if_neg (hother j (List.mem_filter.mp hj).1)]
      have hself : [i].filter (fun j => posAt items j = -1) = [i] := by simp [hfree']
      rw [List.filter_append, hself, List.map_append, hold, h.placed, List.map_singleton,
        posAt_set hlt, if_pos rfl, hmap, hfree', hplaces, h.next]
  · have hplaced' : posAt items i ≠ -1 := hpos ▸ hplaced
    have hplaces := places_concat (before.map (posAt items)) (posAt items i)
    rw [if_neg hplaced'] at hplaces
    refine ⟨?_, ?_, ?_, ?_, ?_, ?_⟩
    · rw [List.length_set, h.length]
    · intro j hj
      rw [List.mem_append, List.mem_singleton, not_or] at hj
      rw [posAt_set hlt, if_neg hj.2, h.rest j hj.1]
    · rw [hmap, hplaces, h.offsets]
    · rw [hmap, hplaces, nextPlace_moved, ← h.next, h.offsets, hpos]
    · intro j hj hjpos
      rw [posAt_set hlt, hmap, hplaces]
      rcases List.mem_append.mp hj with hj | hj
      · rw [if_neg (hother j hj)]
        exact h.moved j hj hjpos
      · rw [List.mem_singleton.mp hj, if_pos rfl, h.offsets, hpos]
    · have hold : (before.filter fun j => posAt items j = -1).map (posAt (s.items.set i
          { item with nOrderPos := lifted s.nOrderPosOffsets item.nOrderPos })) =
          (before.filter fun j => posAt items j = -1).map (posAt s.items) := by
        apply List.map_congr_left
        intro j hj
        rw [posAt_set hlt, if_neg (hother j (List.mem_filter.mp hj).1)]
      have hself : [i].filter (fun j => posAt items j = -1) = [] := by simp [hplaced']
      rw [List.filter_append, hself, List.append_nil, hold, h.placed, hmap, hplaces]

theorem Visited.run {rest : List ℕ} (h : Visited items before s) (hnodup : (before ++ rest).Nodup)
    (hrun : rest.foldlM (reorderItem fails) s = .ok s') : Visited items (before ++ rest) s' := by
  induction rest generalizing before s with
  | nil =>
      cases hrun
      rw [List.append_nil]
      exact h
  | cons i rest ih =>
      rw [List.foldlM_cons] at hrun
      obtain ⟨mid, hround, hrun⟩ := seq_ok.mp hrun
      have hi : i ∉ before := by
        intro hmem
        exact (List.nodup_append.mp hnodup).2.2 i hmem i List.mem_cons_self rfl
      rw [List.append_cons] at hnodup ⊢
      exact ih (h.step hi hround) hnodup hrun

/-! ## The order after a run -/

/-- No two items that have a position have the same one. -/
def OrderedApart (items : List OrderItem) : Prop :=
  ∀ i < items.length, ∀ j < items.length, posAt items i ≠ -1 →
    posAt items i = posAt items j → i = j

/-- The positions after a run: all different, below the next free one, in the same order where there
was one; and another run leaves them. -/
structure WellOrdered (items : List OrderItem) (s : Reordering) : Prop where
  distinct : (s.items.map OrderItem.nOrderPos).Nodup
  below : ∀ item ∈ s.items, item.nOrderPos < s.nOrderPosNext
  kept : ∀ i j, i < items.length → j < items.length → posAt items i ≠ -1 →
    posAt items i < posAt items j → posAt s.items i < posAt s.items j
  again : ∀ fails, ∃ s', reorder fails s.items = .ok s' ∧ s'.items = s.items

theorem map_posAt (items : List OrderItem) :
    (List.range items.length).map (posAt items) = items.map OrderItem.nOrderPos := by
  apply List.ext_getElem (by simp)
  intro n hn hn'
  rw [List.getElem_map, List.getElem_map, List.getElem_range,
    posAt_some (List.getElem?_eq_getElem (by simpa using hn))]

/-- Where everything has a position, nothing is done. -/
theorem reorderItem_again {i : ℕ} (hoffsets : s.nOrderPosOffsets = []) (hi : i < s.items.length)
    (hpos : posAt s.items i ≠ -1) :
    ∃ nNext, reorderItem fails s i = .ok ⟨s.items, nNext, []⟩ := by
  have hitem := List.getElem?_eq_getElem hi
  rw [posAt_some hitem] at hpos
  refine ⟨max s.nOrderPosNext (s.items[i].nOrderPos + 1), ?_⟩
  rw [reorderItem, hitem]
  dsimp only
  rw [if_neg hpos, hoffsets, List.countP_nil, if_neg (fun h => h.1 rfl), Nat.cast_zero, add_zero,
    List.set_getElem_self]

theorem reorderItems_again (hoffsets : s.nOrderPosOffsets = [])
    (horder : ∀ i ∈ order, i < s.items.length ∧ posAt s.items i ≠ -1) :
    ∃ nNext, order.foldlM (reorderItem fails) s = .ok ⟨s.items, nNext, []⟩ := by
  induction order generalizing s with
  | nil => exact ⟨s.nOrderPosNext, by rw [List.foldlM_nil, ← hoffsets]; rfl⟩
  | cons i order ih =>
      rw [List.forall_mem_cons] at horder
      obtain ⟨nNext, hround⟩ := @reorderItem_again s fails i hoffsets horder.1.1 horder.1.2
      rw [List.foldlM_cons, hround]
      exact @ih ⟨s.items, nNext, []⟩ rfl horder.2

theorem mem_order (hperm : order.Perm (List.range items.length)) {i : ℕ} (hi : i < items.length) :
    i ∈ order :=
  hperm.mem_iff.mpr (List.mem_range.mpr hi)

namespace Visited

variable (h : Visited items order s) (hperm : order.Perm (List.range items.length))

include h hperm

theorem moved_lt (hi : i < items.length) (hpos : posAt items i ≠ -1) :
    posAt s.items i = lifted (places (order.map (posAt items))) (posAt items i) ∧
      posAt s.items i < s.nOrderPosNext := by
  have hmoved := h.moved i (mem_order hperm hi) hpos
  have hle := @lifted_mono (places (order.map (posAt items))) _ _
    (le_lastPos (List.mem_map_of_mem (f := posAt items) (mem_order hperm hi)))
  have hlt := lifted_last_lt (places (order.map (posAt items))) (order.map (posAt items))
  refine ⟨hmoved, ?_⟩
  rw [hmoved, h.next]
  omega

theorem placed_mem (hi : i < items.length) (hpos : posAt items i = -1) :
    posAt s.items i ∈ places (order.map (posAt items)) := by
  rw [← h.placed]
  apply List.mem_map_of_mem
  rw [List.mem_filter, decide_eq_true_eq]
  exact ⟨mem_order hperm hi, hpos⟩

theorem posAt_range (hneg : ∀ i < items.length, -1 ≤ posAt items i) {i : ℕ}
    (hi : i < items.length) : 0 ≤ posAt s.items i ∧ posAt s.items i < s.nOrderPosNext := by
  have hnext := h.next
  by_cases hpos : posAt items i = -1
  · have hrange := (places_increasing _).2 _ (h.placed_mem hperm hi hpos)
    omega
  · obtain ⟨hmoved, hlt⟩ := h.moved_lt hperm hi hpos
    have hle := le_lifted (places (order.map (posAt items))) (posAt items i)
    have := hneg i hi
    omega

/-- The new positions are all different exactly when none is moved onto a place. -/
theorem distinct_iff (hapart : OrderedApart items) :
    (s.items.map OrderItem.nOrderPos).Nodup ↔ Clear (order.map (posAt items)) := by
  have hnodup : order.Nodup := hperm.nodup_iff.mpr List.nodup_range
  have hlt {i : ℕ} (hi : i ∈ order) : i < items.length := List.mem_range.mp (hperm.mem_iff.mp hi)
  have hpositions : (s.items.map OrderItem.nOrderPos).Nodup ↔ (order.map (posAt s.items)).Nodup := by
    rw [← map_posAt, h.length]
    exact ((hperm.map _).nodup_iff).symm
  rw [hpositions]
  constructor
  · intro hdistinct p hp hpos hplace
    obtain ⟨i, hi, rfl⟩ := List.mem_map.mp hp
    rw [← h.moved i hi hpos, ← h.placed] at hplace
    obtain ⟨j, hj, hsame⟩ := List.mem_map.mp hplace
    rw [List.mem_filter, decide_eq_true_eq] at hj
    have hji : j = i := List.inj_on_of_nodup_map hdistinct hj.1 hi hsame
    exact hpos (hji ▸ hj.2)
  · intro hclear
    have hmoved {i j : ℕ} (hi : i ∈ order) (hj : j ∈ order) (hpos : posAt items i ≠ -1)
        (hpos' : posAt items j = -1) : posAt s.items i ≠ posAt s.items j := by
      intro hsame
      have hplace := h.placed_mem hperm (hlt hj) hpos'
      rw [← hsame, h.moved i hi hpos] at hplace
      exact hclear _ (List.mem_map_of_mem hi) hpos hplace
    refine List.Nodup.map_on ?_ hnodup
    intro i hi j hj hsame
    by_cases hpos : posAt items i = -1
    · by_cases hpos' : posAt items j = -1
      · have hup := (places_increasing (order.map (posAt items))).1.imp (fun hlt => ne_of_lt hlt)
        rw [← h.placed] at hup
        refine List.inj_on_of_nodup_map hup ?_ ?_ hsame
        · rw [List.mem_filter, decide_eq_true_eq]
          exact ⟨hi, hpos⟩
        · rw [List.mem_filter, decide_eq_true_eq]
          exact ⟨hj, hpos'⟩
      · exact absurd hsame.symm (hmoved hj hi hpos' hpos)
    · by_cases hpos' : posAt items j = -1
      · exact absurd hsame (hmoved hi hj hpos hpos')
      · rw [h.moved i hi hpos, h.moved j hj hpos'] at hsame
        refine hapart i (hlt hi) j (hlt hj) hpos ?_
        rcases lt_trichotomy (posAt items i) (posAt items j) with hij | hij | hij
        · exact absurd hsame (ne_of_lt (lifted_lt hij))
        · exact hij
        · exact absurd hsame.symm (ne_of_lt (lifted_lt hij))

end Visited

def positionsByTime (items : List OrderItem) : List ℤ := (txByTime items).map (posAt items)

def consideredItems (mapWallet : List ReceivedTx) (records : List CAccountingEntry) :
    List OrderItem :=
  orderItems mapWallet (ListAccountCreditDebit [] records)

theorem reorderTransactions_ordered_iff (fails : WriteFails) {mapWallet : List ReceivedTx}
    {records : List CAccountingEntry}
    (hneg : ∀ item ∈ consideredItems mapWallet records, -1 ≤ item.nOrderPos)
    (hapart : OrderedApart (consideredItems mapWallet records))
    (hrun : ReorderTransactions fails mapWallet records = .ok s) :
    WellOrdered (consideredItems mapWallet records) s ↔
      Clear (positionsByTime (consideredItems mapWallet records)) := by
  have hperm := txByTime_perm (consideredItems mapWallet records)
  have hnodup : (txByTime (consideredItems mapWallet records)).Nodup :=
    hperm.nodup_iff.mpr List.nodup_range
  have h : Visited (consideredItems mapWallet records) (txByTime (consideredItems mapWallet records))
      s := (visited_start _).run hnodup hrun
  have hneg' : ∀ i < (consideredItems mapWallet records).length,
      -1 ≤ posAt (consideredItems mapWallet records) i := by
    intro i hi
    rw [posAt_some (List.getElem?_eq_getElem hi)]
    exact hneg _ (List.getElem_mem hi)
  constructor
  · intro hordered
    exact (h.distinct_iff hperm hapart).mp hordered.distinct
  · intro hclear
    refine ⟨(h.distinct_iff hperm hapart).mpr hclear, ?_, ?_, ?_⟩
    · intro item hmem
      obtain ⟨i, hi⟩ := List.mem_iff_getElem?.mp hmem
      have hlt := (List.getElem?_eq_some_iff.mp hi).1
      rw [← posAt_some hi]
      exact (h.posAt_range hperm hneg' (h.length ▸ hlt)).2
    · intro i j hi hj hpos hlt
      have hpos' : posAt (consideredItems mapWallet records) j ≠ -1 := by
        have := hneg' i hi
        omega
      rw [(h.moved_lt hperm hi hpos).1, (h.moved_lt hperm hj hpos').1]
      exact lifted_lt hlt
    · intro fails
      obtain ⟨nNext, hagain⟩ := @reorderItems_again (txByTime s.items) ⟨s.items, 0, []⟩ fails rfl (by
        intro i hi
        have hi' : i < s.items.length :=
          List.mem_range.mp ((txByTime_perm s.items).mem_iff.mp hi)
        have := (h.posAt_range hperm hneg' (h.length ▸ hi')).1
        exact ⟨hi', by dsimp only; omega⟩)
      exact ⟨_, hagain, rfl⟩

/-- An entry before all transactions, and one between them. -/
def oldEntries : List CAccountingEntry := [⟨[], 1, 5, -1⟩, ⟨[], 2, 25, -1⟩, ⟨[0x61], 1, 7, -1⟩]

theorem reorderTransactions_ordered_iff_between : ∃ s,
    ReorderTransactions (fun _ => false) [⟨10, 0⟩, ⟨20, 1⟩, ⟨30, 4⟩] oldEntries = .ok s ∧
      WellOrdered (consideredItems [⟨10, 0⟩, ⟨20, 1⟩, ⟨30, 4⟩] oldEntries) s := by
  refine ⟨⟨[⟨false, 10, 1⟩, ⟨false, 20, 2⟩, ⟨false, 30, 6⟩, ⟨true, 5, 0⟩, ⟨true, 25, 3⟩], 7, [0, 3]⟩,
    by decide, ?_⟩
  refine (reorderTransactions_ordered_iff (fun _ => false) (by decide) ?_ (by decide)).mpr ?_
  · rw [OrderedApart]
    decide
  · rw [Clear]
    decide

/-- Two entries before the first transaction: it is moved up by one, onto the second of them. -/
theorem reorderTransactions_not_ordered : ∃ s,
    ReorderTransactions (fun _ => false) [⟨30, 0⟩] [⟨[], 1, 10, -1⟩, ⟨[], 2, 20, -1⟩] = .ok s ∧
      s.items = [⟨false, 30, 1⟩, ⟨true, 10, 0⟩, ⟨true, 20, 1⟩] ∧
      ¬ WellOrdered (consideredItems [⟨30, 0⟩] [⟨[], 1, 10, -1⟩, ⟨[], 2, 20, -1⟩]) s := by
  refine ⟨⟨[⟨false, 30, 1⟩, ⟨true, 10, 0⟩, ⟨true, 20, 1⟩], 2, [0, 1]⟩, by decide, rfl, ?_⟩
  intro h
  have hdistinct := h.distinct
  revert hdistinct
  decide

end Dions
