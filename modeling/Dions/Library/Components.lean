import Mathlib.Data.Finset.Lattice.Fold
import Mathlib.Logic.Relation

/-! # Connected components of a family of groups

Groups that share a member belong together. The components are found one group at a time: those that
meet the new group become one with it. -/

namespace Components

variable {δ : Type}

/-- A chain of groups, of which each shares a member with the next one, leads from `a` to `b`. -/
def Linked (G : Set (Finset δ)) : δ → δ → Prop :=
  Relation.TransGen fun a b => ∃ g ∈ G, a ∈ g ∧ b ∈ g

variable {G G' : Set (Finset δ)} {a b c : δ} {g : Finset δ}

theorem Linked.of_mem (hg : g ∈ G) (ha : a ∈ g) (hb : b ∈ g) : Linked G a b :=
  .single ⟨g, hg, ha, hb⟩

theorem Linked.symm (h : Linked G a b) : Linked G b a := by
  induction h with
  | single h =>
    obtain ⟨g, hg, ha, hb⟩ := h
    exact Linked.of_mem hg hb ha
  | tail _ h ih =>
    obtain ⟨g, hg, ha, hb⟩ := h
    exact Relation.TransGen.trans (Linked.of_mem hg hb ha) ih

theorem Linked.mono (hsub : G ⊆ G') (h : Linked G a b) : Linked G' a b := by
  induction h with
  | single h =>
    obtain ⟨g, hg, ha, hb⟩ := h
    exact Linked.of_mem (hsub hg) ha hb
  | tail _ h ih =>
    obtain ⟨g, hg, ha, hb⟩ := h
    exact Relation.TransGen.trans ih (Linked.of_mem (hsub hg) ha hb)

theorem Linked.mem_left (h : Linked G a b) : ∃ g ∈ G, a ∈ g := by
  induction h with
  | single h =>
    obtain ⟨g, hg, ha, -⟩ := h
    exact ⟨g, hg, ha⟩
  | tail _ _ ih => exact ih

/-- The member is in the group or linked to one that is. -/
def Reaches (G : Set (Finset δ)) (g : Finset δ) (a : δ) : Prop := a ∈ g ∨ ∃ c ∈ g, Linked G c a

/-- A new group links what reaches it. -/
theorem linked_insert : Linked (insert g G) a b ↔ Linked G a b ∨ (Reaches G g a ∧ Reaches G g b) := by
  have hold : G ⊆ insert g G := Set.subset_insert g G
  have hnew : g ∈ insert g G := Set.mem_insert g G
  have hstep {x : δ} (h : Reaches G g x) {c : δ} (hc : c ∈ g) : Linked (insert g G) c x := by
    rcases h with hx | ⟨d, hd, hlink⟩
    · exact Linked.of_mem hnew hc hx
    · exact Relation.TransGen.trans (Linked.of_mem hnew hc hd) (hlink.mono hold)
  constructor
  · intro h
    induction h with
    | single h =>
      obtain ⟨g', hg', ha, hb⟩ := h
      rcases Set.mem_insert_iff.mp hg' with heq | hg'
      · exact .inr ⟨.inl (heq ▸ ha), .inl (heq ▸ hb)⟩
      · exact .inl (Linked.of_mem hg' ha hb)
    | @tail b c _ h ih =>
      obtain ⟨g', hg', hb, hc⟩ := h
      rcases Set.mem_insert_iff.mp hg' with heq | hg'
      · rw [heq] at hb hc
        rcases ih with hlink | ⟨ha, -⟩
        · exact .inr ⟨.inr ⟨b, hb, hlink.symm⟩, .inl hc⟩
        · exact .inr ⟨ha, .inl hc⟩
      · have hbc : Linked G b c := Linked.of_mem hg' hb hc
        rcases ih with hlink | ⟨ha, hreach⟩
        · exact .inl (Relation.TransGen.trans hlink hbc)
        · refine .inr ⟨ha, ?_⟩
          rcases hreach with hb' | ⟨d, hd, hlink⟩
          · exact .inr ⟨b, hb', hbc⟩
          · exact .inr ⟨d, hd, Relation.TransGen.trans hlink hbc⟩
  · rintro (hlink | ⟨ha, hb⟩)
    · exact hlink.mono hold
    · rcases ha with ha | ⟨c, hc, hlink⟩
      · exact hstep hb ha
      · exact Relation.TransGen.trans (hlink.mono hold).symm (hstep hb hc)

/-- The family `P` consists of the components of `G`. -/
structure IsComponents (G : Set (Finset δ)) (P : Finset (Finset δ)) : Prop where
  disjoint : ∀ p ∈ P, ∀ q ∈ P, p ≠ q → Disjoint p q
  cover : ∀ d, (∃ p ∈ P, d ∈ p) ↔ ∃ g ∈ G, d ∈ g
  same : ∀ d d', (∃ p ∈ P, d ∈ p ∧ d' ∈ p) ↔ Linked G d d'

variable {P : Finset (Finset δ)}

theorem IsComponents.empty : IsComponents (∅ : Set (Finset δ)) ∅ where
  disjoint := by simp
  cover := by simp
  same d d' := by
    refine iff_of_false (by simp) fun h => ?_
    obtain ⟨_, hg, -⟩ := h.mem_left
    exact hg

variable [DecidableEq δ]

/-- The components that meet the group are replaced by one that holds them and the group. -/
def merge (P : Finset (Finset δ)) (g : Finset δ) : Finset (Finset δ) :=
  insert (g ∪ (P.filter fun p => ¬Disjoint p g).sup id) (P.filter fun p => Disjoint p g)

theorem mem_merged (h : IsComponents G P) {d : δ} :
    d ∈ g ∪ (P.filter fun p => ¬Disjoint p g).sup id ↔ Reaches G g d := by
  rw [Finset.mem_union, Finset.mem_sup, Reaches]
  refine or_congr_right ⟨?_, ?_⟩
  · rintro ⟨p, hp, hd⟩
    obtain ⟨hp, hmeet⟩ := Finset.mem_filter.mp hp
    obtain ⟨c, hc, hcg⟩ := Finset.not_disjoint_iff.mp hmeet
    exact ⟨c, hcg, (h.same c d).mp ⟨p, hp, hc, hd⟩⟩
  · rintro ⟨c, hcg, hlink⟩
    obtain ⟨p, hp, hc, hd⟩ := (h.same c d).mpr hlink
    exact ⟨p, Finset.mem_filter.mpr ⟨hp, Finset.not_disjoint_iff.mpr ⟨c, hc, hcg⟩⟩, hd⟩

/-- A component that does not meet the group has no member that reaches it. -/
theorem not_reaches (h : IsComponents G P) {p : Finset δ} (hp : p ∈ P) (hmiss : Disjoint p g) {d : δ}
    (hd : d ∈ p) : ¬Reaches G g d := by
  rintro (hdg | ⟨c, hcg, hlink⟩)
  · exact Finset.disjoint_left.mp hmiss hd hdg
  · obtain ⟨q, hq, hc, hdq⟩ := (h.same c d).mpr hlink
    have hpq : p = q := by
      by_contra hne
      exact Finset.disjoint_left.mp (h.disjoint p hp q hq hne) hd hdq
    exact Finset.disjoint_left.mp hmiss (hpq ▸ hc) hcg

theorem IsComponents.merge (h : IsComponents G P) (g : Finset δ) :
    IsComponents (insert g G) (merge P g) := by
  have hmem (p : Finset δ) : p ∈ Components.merge P g ↔
      p = g ∪ (P.filter fun p => ¬Disjoint p g).sup id ∨ p ∈ P ∧ Disjoint p g := by
    rw [Components.merge, Finset.mem_insert, Finset.mem_filter]
  have hsame : ∀ d d', (∃ p ∈ Components.merge P g, d ∈ p ∧ d' ∈ p) ↔ Linked (insert g G) d d' := by
    intro d d'
    rw [linked_insert]
    constructor
    · rintro ⟨p, hp, hd, hd'⟩
      rcases (hmem p).mp hp with heq | ⟨hp, -⟩
      · rw [heq] at hd hd'
        exact .inr ⟨(mem_merged h).mp hd, (mem_merged h).mp hd'⟩
      · exact .inl ((h.same d d').mp ⟨p, hp, hd, hd'⟩)
    · rintro (hlink | ⟨hd, hd'⟩)
      · obtain ⟨p, hp, hd, hd'⟩ := (h.same d d').mpr hlink
        by_cases hmiss : Disjoint p g
        · exact ⟨p, (hmem p).mpr (.inr ⟨hp, hmiss⟩), hd, hd'⟩
        · have hhit : p ⊆ (P.filter fun p => ¬Disjoint p g).sup id :=
            Finset.le_sup (f := id) (Finset.mem_filter.mpr ⟨hp, hmiss⟩)
          exact ⟨_, (hmem _).mpr (.inl rfl), Finset.mem_union_right _ (hhit hd),
            Finset.mem_union_right _ (hhit hd')⟩
      · exact ⟨_, (hmem _).mpr (.inl rfl), (mem_merged h).mpr hd, (mem_merged h).mpr hd'⟩
  refine ⟨?_, ?_, hsame⟩
  · have hmiss {p : Finset δ} (hp : p ∈ P) (hdis : Disjoint p g) :
        Disjoint p (g ∪ (P.filter fun p => ¬Disjoint p g).sup id) :=
      Finset.disjoint_left.mpr fun _ hd hd' => not_reaches h hp hdis hd ((mem_merged h).mp hd')
    intro p hp q hq hne
    rcases (hmem p).mp hp with hp | ⟨hp, hpg⟩
    · rcases (hmem q).mp hq with hq | ⟨hq, hqg⟩
      · exact absurd (hp.trans hq.symm) hne
      · exact hp ▸ (hmiss hq hqg).symm
    · rcases (hmem q).mp hq with hq | ⟨hq, -⟩
      · exact hq ▸ hmiss hp hpg
      · exact h.disjoint p hp q hq hne
  · intro d
    constructor
    · rintro ⟨p, hp, hd⟩
      exact ((hsame d d).mp ⟨p, hp, hd, hd⟩).mem_left
    · rintro ⟨g', hg', hd⟩
      obtain ⟨p, hp, hd, -⟩ := (hsame d d).mpr (Linked.of_mem hg' hd hd)
      exact ⟨p, hp, hd⟩

/-! ## One group at a time -/

theorem isComponents_foldl (h : IsComponents G P) (gs : List (Finset δ)) :
    IsComponents ({g | g ∈ gs} ∪ G) (gs.foldl Components.merge P) := by
  induction gs generalizing G P with
  | nil => simpa using h
  | cons g gs ih =>
    have heq : {g' | g' ∈ g :: gs} ∪ G = {g' | g' ∈ gs} ∪ insert g G := by
      ext g'
      simp only [List.mem_cons, Set.mem_union, Set.mem_ofPred_eq, Set.mem_insert_iff]
      tauto
    rw [heq]
    exact ih (h.merge g)

theorem mem_foldl {α β : Type} {add : Finset β → α → Finset β} {R : α → β → Prop}
    (hadd : ∀ s a b, b ∈ add s a ↔ b ∈ s ∨ R a b) (xs : List α) (s : Finset β) (b : β) :
    b ∈ xs.foldl add s ↔ b ∈ s ∨ ∃ a ∈ xs, R a b := by
  induction xs generalizing s with
  | nil => simp
  | cons x xs ih => rw [List.foldl_cons, ih, hadd, or_assoc, List.exists_mem_cons_iff]

end Components
