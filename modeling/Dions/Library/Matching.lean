import Dions.Library.OrdMap
import Mathlib.Data.List.Forall2

/-! # Giving items to keys

Items are gone through in order, and each is put at the first key that it fits and that has none yet.
Where an item fits one key at most, every key ends up with the first item that fits it. -/

namespace Matching

variable {κ α : Type} [LinearOrder κ] (fits : α → κ → Bool)

/-- The item is put at the first of the keys that it fits and that has no item. -/
def place (x : α) (m : OrdMap κ α) : List κ → OrdMap κ α
  | [] => m
  | k :: ks =>
    if (m.find k).isSome then place x m ks
    else if fits x k then m.insert k x
    else place x m ks

def placeAll (xs : List α) (ks : List κ) : OrdMap κ α :=
  xs.foldl (fun m x => place fits x m ks) OrdMap.empty

/-- The items of the keys that have one, in the order of the keys. -/
def placed (m : OrdMap κ α) (ks : List κ) : List α := ks.filterMap m.find

/-- The item fits at most one of the keys. -/
def FitsOne (ks : List κ) (x : α) : Prop :=
  ∀ k ∈ ks, ∀ k' ∈ ks, fits x k = true → fits x k' = true → k = k'

variable {fits}

theorem find_place {x : α} {ks : List κ} {k : κ} (m : OrdMap κ α)
    (hone : fits x k = true → ∀ k' ∈ ks, fits x k' = true → k = k') :
    (place fits x m ks).find k =
      if k ∈ ks ∧ fits x k = true ∧ m.find k = none then some x else m.find k := by
  induction ks with
  | nil => simp [place]
  | cons k' ks ih =>
    have hrest := ih fun hfit k'' hk'' => hone hfit k'' (List.mem_cons_of_mem _ hk'')
    rw [place]
    by_cases hk : k = k'
    · subst hk
      split
      · rename_i hsome
        have hnot : m.find k ≠ none := Option.isSome_iff_ne_none.mp hsome
        rw [hrest, if_neg fun h => hnot h.2.2, if_neg fun h => hnot h.2.2]
      · rename_i hnone
        have hfree : m.find k = none := by simpa using hnone
        split
        · rename_i hfit
          rw [OrdMap.find_insert, if_pos rfl, if_pos ⟨List.mem_cons_self, hfit, hfree⟩]
        · rename_i hfit
          rw [hrest, if_neg fun h => hfit h.2.1, if_neg fun h => hfit h.2.1]
    · have hmem : k ∈ k' :: ks ↔ k ∈ ks := by simp [hk]
      simp only [hmem]
      split
      · exact hrest
      · split
        · rename_i hfit
          have hnot : ¬fits x k = true := fun h => hk (hone h k' List.mem_cons_self hfit)
          rw [OrdMap.find_insert, if_neg hk, if_neg fun h => hnot h.2.1]
        · exact hrest

theorem find_foldl_place {xs : List α} {ks : List κ} (hone : ∀ x ∈ xs, FitsOne fits ks x) {k : κ}
    (hk : k ∈ ks) (m : OrdMap κ α) :
    (xs.foldl (fun m x => place fits x m ks) m).find k =
      (m.find k).or (xs.find? fun x => fits x k) := by
  induction xs generalizing m with
  | nil => simp
  | cons x xs ih =>
    rw [List.foldl_cons, ih fun x' hx' => hone x' (List.mem_cons_of_mem _ hx'),
      find_place m fun hfit k' hk' => hone x List.mem_cons_self k hk k' hk' hfit, List.find?_cons]
    cases hfind : m.find k with
    | some y => simp
    | none => cases hfit : fits x k <;> simp [hk]

/-- Every key has the first item that fits it. -/
theorem find_placeAll {xs : List α} {ks : List κ} (hone : ∀ x ∈ xs, FitsOne fits ks x) {k : κ}
    (hk : k ∈ ks) : (placeAll fits xs ks).find k = xs.find? fun x => fits x k := by
  rw [placeAll, find_foldl_place hone hk, OrdMap.find_empty, Option.none_or]

theorem placed_placeAll {xs : List α} {ks : List κ} (hone : ∀ x ∈ xs, FitsOne fits ks x) :
    placed (placeAll fits xs ks) ks = ks.filterMap fun k => xs.find? fun x => fits x k :=
  List.filterMap_congr fun _ hk => find_placeAll hone hk

/-- What is found first in an ordered list is the smallest that can be found. -/
theorem le_of_find_ordered {xs : List κ} (hordered : xs.Pairwise (· < ·)) {p : κ → Bool} {x y : κ}
    (hx : xs.find? p = some x) (hy : y ∈ xs) (hp : p y = true) : x ≤ y := by
  induction xs with
  | nil => cases hy
  | cons z xs ih =>
    obtain ⟨hfirst, hrest⟩ := List.pairwise_cons.mp hordered
    rw [List.find?_cons] at hx
    cases hz : p z with
    | true =>
      rw [hz] at hx
      obtain rfl := Option.some.inj hx
      cases hy with
      | head => exact le_rfl
      | tail _ hy => exact (hfirst y hy).le
    | false =>
      rw [hz] at hx
      cases hy with
      | head => exact absurd (hp.symm.trans hz) (by simp)
      | tail _ hy => exact ih hrest hx hy

/-- The items stand for some of the keys, in their order. -/
theorem sublistForall₂_filterMap {β : Type} {r : α → β → Prop} {f : β → Option α} {ks : List β}
    (h : ∀ k ∈ ks, ∀ x, f k = some x → r x k) : List.SublistForall₂ r (ks.filterMap f) ks := by
  induction ks with
  | nil => exact .nil
  | cons k ks ih =>
    have hrest := ih fun k' hk' => h k' (List.mem_cons_of_mem _ hk')
    cases hf : f k with
    | none =>
      rw [List.filterMap_cons_none hf]
      exact .cons_right hrest
    | some x =>
      rw [List.filterMap_cons_some hf]
      exact .cons (h k List.mem_cons_self x hf) hrest

theorem sublistForall₂_take {β : Type} {r : α → β → Prop} {xs : List α} {ks : List β}
    (h : List.SublistForall₂ r xs ks) (n : ℕ) : List.SublistForall₂ r (xs.take n) ks := by
  obtain ⟨used, hused, hsub⟩ := List.sublistForall₂_iff.mp h
  exact List.sublistForall₂_iff.mpr
    ⟨used.take n, List.forall₂_take n hused, (List.take_sublist n used).trans hsub⟩

theorem sublistForall₂_of_imp {β : Type} {p : α → Prop} {r : α → β → Prop} {xs : List α}
    {ks : List β} (h : List.SublistForall₂ (fun x k => p x → r x k) xs ks) (hp : ∀ x ∈ xs, p x) :
    List.SublistForall₂ r xs ks := by
  induction h with
  | nil => exact .nil
  | cons hfirst _ ih =>
    exact .cons (hfirst (hp _ List.mem_cons_self)) (ih fun x hx => hp x (List.mem_cons_of_mem _ hx))
  | cons_right _ ih => exact .cons_right (ih hp)

theorem exists_of_sublistForall₂ {β : Type} {r : α → β → Prop} {xs : List α} {ks : List β}
    (h : List.SublistForall₂ r xs ks) {x : α} (hx : x ∈ xs) : ∃ k ∈ ks, r x k := by
  induction h with
  | nil => cases hx
  | @cons x' k xs ks hfirst _ ih =>
    cases hx with
    | head => exact ⟨k, List.mem_cons_self, hfirst⟩
    | tail _ hx =>
      obtain ⟨k', hk', hr⟩ := ih hx
      exact ⟨k', List.mem_cons_of_mem _ hk', hr⟩
  | @cons_right k xs ks _ ih =>
    obtain ⟨k', hk', hr⟩ := ih hx
    exact ⟨k', List.mem_cons_of_mem _ hk', hr⟩

theorem sublistForall₂_reverse {β : Type} {r : α → β → Prop} {xs : List α} {ks : List β}
    (h : List.SublistForall₂ r xs ks) : List.SublistForall₂ r xs.reverse ks.reverse := by
  obtain ⟨used, hused, hsub⟩ := List.sublistForall₂_iff.mp h
  exact List.sublistForall₂_iff.mpr ⟨used.reverse, List.rel_reverse hused, hsub.reverse⟩

end Matching
