import Mathlib.Data.List.Nodup
import Mathlib.Logic.Function.Basic

/-! # Ledgers of spendable slots

A ledger maps an id to an entry: the place the entry was made at, and one slot for each of its
outputs, empty until some place spends it. An item spends slots and then makes an entry of its
own; it keeps no record of what a slot held before, so undoing it can only empty the slot. -/

structure Ledger.Entry (P : Type) where
  place : P
  slots : List (Option P)

abbrev Ledger (I P : Type) := I → Option (Ledger.Entry P)

namespace Ledger

/-- The slots an item spends, and the entry it makes. -/
structure Item (I P : Type) where
  id : I
  place : P
  inputs : List (I × ℕ)
  outs : ℕ

variable {I P : Type} [DecidableEq I]

def Entry.new (place : P) (outs : ℕ) : Entry P := ⟨place, List.replicate outs none⟩

def Entry.setSlot (e : Entry P) (n : ℕ) (v : Option P) : Entry P :=
  { e with slots := e.slots.set n v }

/-- Write a slot of an entry; nothing happens when there is no entry. -/
def setSlot (L : Ledger I P) (o : I × ℕ) (v : Option P) : Ledger I P :=
  match L o.1 with
  | none => L
  | some e => Function.update L o.1 (some (e.setSlot o.2 v))

def setSlots (L : Ledger I P) (os : List (I × ℕ)) (v : Option P) : Ledger I P :=
  os.foldl (fun L o => setSlot L o v) L

/-- A slot exists. -/
def HasSlot (L : Ledger I P) (o : I × ℕ) : Prop := ∃ e, L o.1 = some e ∧ o.2 < e.slots.length

/-- A slot is spent. -/
def Spent (L : Ledger I P) (o : I × ℕ) : Prop :=
  ∃ e p, L o.1 = some e ∧ e.slots[o.2]? = some (some p)

def apply (L : Ledger I P) (i : Item I P) : Ledger I P :=
  Function.update (setSlots L i.inputs (some i.place)) i.id (some (.new i.place i.outs))

def applyAll (L : Ledger I P) (items : List (Item I P)) : Ledger I P := items.foldl apply L

/-- Every item meets `Q` on the ledger it comes to. -/
def Along (Q : Ledger I P → Item I P → Prop) : Ledger I P → List (Item I P) → Prop
  | _, [] => True
  | L, i :: items => Q L i ∧ Along Q (apply L i) items

/-- The item finds the slots it spends. -/
def Finds (L : Ledger I P) (i : Item I P) : Prop := ∀ o ∈ i.inputs, HasSlot L o

/-- Empty the slots of one item; it fails when one of them does not exist. -/
def unspendAll : List (I × ℕ) → Ledger I P → Option (Ledger I P)
  | [], L => some L
  | o :: os, L =>
    match L o.1 with
    | none => none
    | some e =>
      if e.slots.length ≤ o.2 then none
      else unspendAll os (Function.update L o.1 (some (e.setSlot o.2 none)))

def undo (L : Ledger I P) (i : Item I P) : Option (Ledger I P) :=
  (unspendAll i.inputs L).map fun L => Function.update L i.id none

/-- Undo the items from the last to the first. -/
def undoAll : List (Item I P) → Ledger I P → Option (Ledger I P)
  | [], L => some L
  | i :: items, L =>
    match undoAll items L with
    | none => none
    | some L => undo L i

def ids (items : List (Item I P)) : List I := items.map Item.id

def inputs (items : List (Item I P)) : List (I × ℕ) := items.flatMap Item.inputs

/-! ## Slots of one entry -/

@[simp] theorem Entry.setSlot_place (e : Entry P) (n : ℕ) (v : Option P) :
    (e.setSlot n v).place = e.place := rfl

@[simp] theorem Entry.length_setSlot (e : Entry P) (n : ℕ) (v : Option P) :
    (e.setSlot n v).slots.length = e.slots.length := by
  simp [Entry.setSlot]

/-- The slots of the given numbers, written one after the other. -/
def Entry.setSlots (e : Entry P) (ns : List ℕ) (v : Option P) : Entry P :=
  ns.foldl (fun e n => e.setSlot n v) e

@[simp] theorem Entry.setSlots_place (e : Entry P) (ns : List ℕ) (v : Option P) :
    (e.setSlots ns v).place = e.place := by
  induction ns generalizing e with
  | nil => rfl
  | cons n ns ih =>
      simp only [Entry.setSlots, List.foldl_cons]
      exact (ih _).trans rfl

theorem Entry.getElem?_setSlots (e : Entry P) (ns : List ℕ) (v : Option P) (k : ℕ) :
    (e.setSlots ns v).slots[k]? =
      if k ∈ ns ∧ k < e.slots.length then some v else e.slots[k]? := by
  induction ns generalizing e with
  | nil => simp [Entry.setSlots]
  | cons n ns ih =>
      simp only [Entry.setSlots, List.foldl_cons]
      rw [← Entry.setSlots, ih, Entry.length_setSlot]
      simp only [Entry.setSlot, List.getElem?_set, List.mem_cons]
      by_cases hk : k < e.slots.length
      · by_cases hn : n = k
        · subst hn
          simp [hk]
        · have hn' : ¬ k = n := fun h => hn h.symm
          simp [hk, hn, hn']
      · have hnone : e.slots[k]? = none := List.getElem?_eq_none (Nat.le_of_not_lt hk)
        by_cases hn : n = k
        · subst hn
          simp [hk]
        · simp [hk, hn]

@[simp] theorem Entry.length_setSlots (e : Entry P) (ns : List ℕ) (v : Option P) :
    (e.setSlots ns v).slots.length = e.slots.length := by
  induction ns generalizing e with
  | nil => rfl
  | cons n ns ih =>
      simp only [Entry.setSlots, List.foldl_cons]
      exact (ih _).trans (by simp)

theorem Entry.ext_getElem? {e e' : Entry P} (hp : e.place = e'.place)
    (hs : ∀ k : ℕ, e.slots[k]? = e'.slots[k]?) : e = e' := by
  cases e
  cases e'
  simp only at hp hs
  rw [hp, List.ext_getElem? hs]

/-! ## Writing slots -/

/-- The numbers of the slots of `h` among the given slots. -/
def slotsOf (os : List (I × ℕ)) (h : I) : List ℕ :=
  (os.filter fun o => o.1 = h).map Prod.snd

theorem mem_slotsOf {os : List (I × ℕ)} {h : I} {n : ℕ} : n ∈ slotsOf os h ↔ (h, n) ∈ os := by
  simp only [slotsOf, List.mem_map, List.mem_filter, decide_eq_true_eq]
  constructor
  · rintro ⟨⟨h', n'⟩, ⟨hmem, rfl⟩, rfl⟩
    exact hmem
  · intro hmem
    exact ⟨(h, n), ⟨hmem, rfl⟩, rfl⟩

theorem setSlot_apply (L : Ledger I P) (o : I × ℕ) (v : Option P) (h : I) :
    setSlot L o v h = if o.1 = h then (L h).map (·.setSlot o.2 v) else L h := by
  unfold setSlot
  by_cases ho : o.1 = h
  · subst ho
    cases hL : L o.1 <;> simp [hL]
  · have ho' : h ≠ o.1 := fun e => ho e.symm
    cases hL : L o.1 <;> simp [ho, Function.update_of_ne ho']

theorem setSlots_apply (L : Ledger I P) (os : List (I × ℕ)) (v : Option P) (h : I) :
    setSlots L os v h = (L h).map (·.setSlots (slotsOf os h) v) := by
  induction os generalizing L with
  | nil => cases hL : L h <;> simp [setSlots, slotsOf, hL, Entry.setSlots]
  | cons o os ih =>
      simp only [setSlots, List.foldl_cons]
      rw [← setSlots, ih, setSlot_apply]
      by_cases ho : o.1 = h
      · subst ho
        cases hL : L o.1 <;> simp [slotsOf, Entry.setSlots]
      · cases hL : L h <;> simp [slotsOf, ho]

theorem setSlots_eq_none {L : Ledger I P} {os : List (I × ℕ)} {v : Option P} {h : I} :
    setSlots L os v h = none ↔ L h = none := by
  rw [setSlots_apply]
  simp

theorem hasSlot_setSlots {L : Ledger I P} {os : List (I × ℕ)} {v : Option P} {o : I × ℕ} :
    HasSlot (setSlots L os v) o ↔ HasSlot L o := by
  unfold HasSlot
  rw [setSlots_apply]
  constructor
  · rintro ⟨e, he, hlt⟩
    obtain ⟨e', he', rfl⟩ := Option.map_eq_some_iff.mp he
    exact ⟨e', he', by simpa using hlt⟩
  · rintro ⟨e, he, hlt⟩
    exact ⟨_, by rw [he]; rfl, by simpa using hlt⟩

theorem unspendAll_eq {os : List (I × ℕ)} {L : Ledger I P} (h : ∀ o ∈ os, HasSlot L o) :
    unspendAll os L = some (setSlots L os none) := by
  induction os generalizing L with
  | nil => rfl
  | cons o os ih =>
      obtain ⟨e, he, hlt⟩ := h o (by simp)
      have hset : Function.update L o.1 (some (e.setSlot o.2 none)) = setSlot L o none := by
        simp [setSlot, he]
      simp only [unspendAll, he, Nat.not_le.mpr hlt, if_false, hset]
      refine ih fun o' ho' => ?_
      have hone : setSlot L o none = setSlots L [o] none := rfl
      rw [hone]
      exact hasSlot_setSlots.mpr (h o' (by simp [ho']))

theorem unspendAll_none_at {os : List (I × ℕ)} {L L' : Ledger I P} {h : I}
    (hu : unspendAll os L = some L') (hL : L h = none) : L' h = none := by
  induction os generalizing L with
  | nil =>
      simp only [unspendAll, Option.some.injEq] at hu
      rwa [← hu]
  | cons o os ih =>
      unfold unspendAll at hu
      split at hu
      · simp at hu
      · rename_i e he
        split at hu
        · simp at hu
        · refine ih hu ?_
          have hne : h ≠ o.1 := by
            rintro rfl
            simp [he] at hL
          rwa [Function.update_of_ne hne]

/-! ## Undoing -/

/-- Whatever undoing leaves has no entry under the ids of the items. -/
theorem undoAll_none_at {items : List (Item I P)} {L L' : Ledger I P}
    (hu : undoAll items L = some L') : ∀ h ∈ ids items, L' h = none := by
  induction items generalizing L' with
  | nil => simp [ids]
  | cons i items ih =>
      unfold undoAll at hu
      split at hu
      · simp at hu
      · rename_i L₁ hL₁
        obtain ⟨L₂, hL₂, rfl⟩ := Option.map_eq_some_iff.mp hu
        intro h hh
        simp only [ids, List.map_cons, List.mem_cons] at hh
        by_cases he : h = i.id
        · rw [he, Function.update_self]
        · rw [Function.update_of_ne he]
          exact unspendAll_none_at hL₂ (ih hL₁ h (hh.resolve_left he))

/-- An item on a ledger that does not know its id leaves the slots it did not name. -/
theorem apply_of_ne {L : Ledger I P} {i : Item I P} {h : I} (hne : h ≠ i.id) :
    apply L i h = setSlots L i.inputs (some i.place) h := by
  rw [apply, Function.update_of_ne hne]

theorem apply_eq_none {L : Ledger I P} {i : Item I P} {h : I} :
    apply L i h = none ↔ h ≠ i.id ∧ L h = none := by
  by_cases hne : h = i.id
  · simp [apply, hne]
  · rw [apply_of_ne hne, setSlots_eq_none]
    simp [hne]

/-- Undoing fresh items empties the slots they spent and erases their entries. -/
theorem undoAll_applyAll {items : List (Item I P)} {L : Ledger I P} (hv : Along Finds L items)
    (hfresh : ∀ h ∈ ids items, L h = none) (hnodup : (ids items).Nodup) :
    undoAll items (applyAll L items) = some (setSlots L (inputs items) none) := by
  induction items generalizing L with
  | nil => rfl
  | cons i items ih =>
      have hi : L i.id = none := hfresh i.id (by simp [ids])
      obtain ⟨hnot, hnodup'⟩ := List.nodup_cons.mp hnodup
      have hfresh' : ∀ h ∈ ids items, apply L i h = none := by
        intro h hh
        have hne : h ≠ i.id := by
          rintro rfl
          exact hnot hh
        exact apply_eq_none.mpr ⟨hne, hfresh h (List.mem_cons_of_mem _ hh)⟩
      have hrest := ih hv.2 hfresh' hnodup'
      have hslots : ∀ o ∈ i.inputs, HasSlot (setSlots (apply L i) (inputs items) none) o := by
        intro o ho
        obtain ⟨e, he, hlt⟩ := hv.1 o ho
        have hne : o.1 ≠ i.id := by
          intro hid
          rw [hid, hi] at he
          simp at he
        rw [hasSlot_setSlots]
        have hL : HasSlot (setSlots L i.inputs (some i.place)) o :=
          hasSlot_setSlots.mpr ⟨e, he, hlt⟩
        simpa only [HasSlot, apply_of_ne hne] using hL
      simp only [applyAll, List.foldl_cons]
      rw [← applyAll, undoAll, hrest]
      simp only [undo, unspendAll_eq hslots, Option.map_some, Option.some.injEq]
      funext h
      by_cases hne : h = i.id
      · rw [hne, Function.update_self]
        exact (setSlots_eq_none.mpr hi).symm
      · rw [Function.update_of_ne hne]
        simp only [setSlots_apply, apply_of_ne hne, Option.map_map]
        -- slot by slot: the slots of the item are emptied last, the others of the rest before
        cases hL : L h with
        | none => rfl
        | some e =>
            simp only [Option.map_some, Function.comp, Option.some.injEq]
            refine Entry.ext_getElem? (by simp) fun k => ?_
            simp only [Entry.getElem?_setSlots, Entry.length_setSlots, mem_slotsOf, inputs,
              List.flatMap_cons, List.mem_append]
            by_cases hk : k < e.slots.length <;> by_cases h₁ : (h, k) ∈ i.inputs <;>
              by_cases h₂ : (h, k) ∈ items.flatMap Item.inputs <;> simp [hk, h₁, h₂]

/-- Emptying slots changes nothing exactly when none of them was spent. -/
theorem setSlots_none_eq_self {L : Ledger I P} {os : List (I × ℕ)} :
    setSlots L os none = L ↔ ∀ o ∈ os, ¬ Spent L o := by
  constructor
  · rintro heq ⟨h, n⟩ ho ⟨e, p, he, hp⟩
    have hL := congrFun heq h
    rw [setSlots_apply, he, Option.map_some, Option.some.injEq] at hL
    have hslot := Entry.getElem?_setSlots e (slotsOf os h) none n
    have hlt : n < e.slots.length := (List.getElem?_eq_some_iff.mp hp).1
    rw [hL, hp, if_pos ⟨mem_slotsOf.mpr ho, hlt⟩] at hslot
    simp at hslot
  · intro hns
    funext h
    rw [setSlots_apply]
    cases hL : L h with
    | none => rfl
    | some e =>
        rw [Option.map_some, Option.some.injEq]
        refine Entry.ext_getElem? (by simp) fun k => ?_
        rw [Entry.getElem?_setSlots]
        by_cases hk : k ∈ slotsOf os h ∧ k < e.slots.length
        · rw [if_pos hk]
          cases hs : e.slots[k]? with
          | none =>
              simp at hs
              omega
          | some s =>
              cases s with
              | none => rfl
              | some p => exact absurd ⟨e, p, hL, hs⟩ (hns (h, k) (mem_slotsOf.mp hk.1))
        · rw [if_neg hk]

/-- Undoing gives the ledger back exactly when the items were new and spent no spent slot. -/
theorem undoAll_applyAll_eq_iff {items : List (Item I P)} {L : Ledger I P} (hv : Along Finds L items)
    (hnodup : (ids items).Nodup) :
    undoAll items (applyAll L items) = some L ↔
      (∀ h ∈ ids items, L h = none) ∧ ∀ o ∈ inputs items, ¬ Spent L o := by
  constructor
  · intro hu
    have hfresh := undoAll_none_at hu
    rw [undoAll_applyAll hv hfresh hnodup, Option.some.injEq] at hu
    exact ⟨hfresh, setSlots_none_eq_self.mp hu⟩
  · rintro ⟨hfresh, hns⟩
    rw [undoAll_applyAll hv hfresh hnodup, setSlots_none_eq_self.mpr hns]

/-! ## Runs of items -/

@[simp] theorem applyAll_append (L : Ledger I P) (xs ys : List (Item I P)) :
    applyAll L (xs ++ ys) = applyAll (applyAll L xs) ys := List.foldl_append

omit [DecidableEq I] in
@[simp] theorem ids_append (xs ys : List (Item I P)) : ids (xs ++ ys) = ids xs ++ ids ys :=
  List.map_append

theorem along_append {Q : Ledger I P → Item I P → Prop} {L : Ledger I P}
    {xs ys : List (Item I P)} :
    Along Q L (xs ++ ys) ↔ Along Q L xs ∧ Along Q (applyAll L xs) ys := by
  induction xs generalizing L with
  | nil => simp [Along, applyAll]
  | cons x xs ih =>
      simp only [List.cons_append, Along, ih, applyAll, List.foldl_cons]
      exact and_assoc.symm

theorem along_mono {Q R : Ledger I P → Item I P → Prop} (hQR : ∀ L i, Q L i → R L i)
    {L : Ledger I P} {items : List (Item I P)} (h : Along Q L items) : Along R L items := by
  induction items generalizing L with
  | nil => trivial
  | cons i items ih => exact ⟨hQR _ _ h.1, ih h.2⟩

/-- What holds along a list of items holds of the one in the middle. -/
theorem along_middle {Q : Ledger I P → Item I P → Prop} {L : Ledger I P}
    {xs ys : List (Item I P)} {i : Item I P} (h : Along Q L (xs ++ i :: ys)) :
    Q (applyAll L xs) i := (along_append.mp h).2.1

theorem spent_setSlots {L : Ledger I P} {os : List (I × ℕ)} {o : I × ℕ} {place : P}
    (h : Spent L o) : Spent (setSlots L os (some place)) o := by
  obtain ⟨e, p, he, hp⟩ := h
  have hlt : o.2 < e.slots.length := (List.getElem?_eq_some_iff.mp hp).1
  have hentry : setSlots L os (some place) o.1 =
      some (e.setSlots (slotsOf os o.1) (some place)) := by
    rw [setSlots_apply, he, Option.map_some]
  by_cases hmem : o.2 ∈ slotsOf os o.1
  · exact ⟨_, place, hentry, by rw [Entry.getElem?_setSlots, if_pos ⟨hmem, hlt⟩]⟩
  · exact ⟨_, p, hentry, by rw [Entry.getElem?_setSlots, if_neg (fun h => hmem h.1), hp]⟩

theorem spent_apply {L : Ledger I P} {i : Item I P} {o : I × ℕ} (h : Spent L o)
    (hne : o.1 ≠ i.id) : Spent (apply L i) o := by
  have hset : Spent (setSlots L i.inputs (some i.place)) o := spent_setSlots h
  obtain ⟨e, p, he, hp⟩ := hset
  exact ⟨e, p, by rw [apply_of_ne hne, he], hp⟩

theorem spent_applyAll {items : List (Item I P)} {L : Ledger I P} {o : I × ℕ} (h : Spent L o)
    (hnot : o.1 ∉ ids items) : Spent (applyAll L items) o := by
  induction items generalizing L with
  | nil => exact h
  | cons i items ih =>
      simp only [ids, List.map_cons, List.mem_cons, not_or] at hnot
      exact ih (spent_apply h hnot.1) hnot.2

/-- An item spends the slots it names, unless it makes their entry itself. -/
theorem spent_of_mem_inputs {L : Ledger I P} {i : Item I P} {o : I × ℕ} (hfinds : Finds L i)
    (ho : o ∈ i.inputs) (hne : o.1 ≠ i.id) : Spent (apply L i) o := by
  obtain ⟨e, he, hlt⟩ := hfinds o ho
  refine ⟨_, i.place, by rw [apply_of_ne hne, setSlots_apply, he, Option.map_some], ?_⟩
  rw [Entry.getElem?_setSlots, if_pos ⟨mem_slotsOf.mpr ho, hlt⟩]

/-- A slot named by an earlier item is empty later only when its entry was made again. -/
theorem made_again_of_not_spent {L : Ledger I P} {us vs : List (Item I P)} {j : Item I P}
    {o : I × ℕ} (hv : Along Finds L (us ++ j :: vs)) (ho : o ∈ j.inputs)
    (hempty : ¬ Spent (applyAll L (us ++ j :: vs)) o) : o.1 ∈ ids (j :: vs) := by
  by_contra hnot
  simp only [ids, List.map_cons, List.mem_cons, not_or] at hnot
  refine hempty ?_
  rw [applyAll_append]
  change Spent (applyAll (apply (applyAll L us) j) vs) o
  exact spent_applyAll (spent_of_mem_inputs (along_middle hv) ho hnot.1) hnot.2

/-! ## The items behind the entries -/

/-- The entries of the ledger are those that the items made, at their places. -/
def Lists (L : Ledger I P) (items : List (Item I P)) : Prop :=
  ∀ h p, (∃ e, L h = some e ∧ e.place = p) ↔ ∃ i ∈ items, i.id = h ∧ i.place = p

theorem setSlots_place {L : Ledger I P} {os : List (I × ℕ)} {v : Option P} {h : I} {p : P} :
    (∃ e, setSlots L os v h = some e ∧ e.place = p) ↔ ∃ e, L h = some e ∧ e.place = p := by
  rw [setSlots_apply]
  cases hL : L h <;> simp

theorem unspendAll_place {os : List (I × ℕ)} {L L' : Ledger I P} (hu : unspendAll os L = some L')
    (h : I) (p : P) : (∃ e, L' h = some e ∧ e.place = p) ↔ ∃ e, L h = some e ∧ e.place = p := by
  induction os generalizing L with
  | nil =>
      simp only [unspendAll, Option.some.injEq] at hu
      rw [hu]
  | cons o os ih =>
      unfold unspendAll at hu
      split at hu
      · simp at hu
      · rename_i e he
        split at hu
        · simp at hu
        · rw [ih hu]
          by_cases ho : h = o.1
          · subst ho
            rw [Function.update_self, he]
            simp
          · rw [Function.update_of_ne ho]

theorem lists_apply {L : Ledger I P} {items : List (Item I P)} {i : Item I P}
    (hL : Lists L items) (hnew : i.id ∉ ids items) : Lists (apply L i) (items ++ [i]) := by
  intro h p
  simp only [List.mem_append, List.mem_singleton]
  by_cases hh : h = i.id
  · subst hh
    simp only [apply, Function.update_self, Option.some.injEq, exists_eq_left']
    constructor
    · intro hp
      exact ⟨i, .inr rfl, rfl, hp⟩
    · rintro ⟨j, hj | rfl, hid, hp⟩
      · exact absurd (hid ▸ List.mem_map_of_mem hj) hnew
      · exact hp
  · rw [apply_of_ne hh, setSlots_place, hL h p]
    constructor
    · rintro ⟨j, hj, hid, hp⟩
      exact ⟨j, .inl hj, hid, hp⟩
    · rintro ⟨j, hj | rfl, hid, hp⟩
      · exact ⟨j, hj, hid, hp⟩
      · exact absurd hid.symm hh

theorem lists_applyAll {L : Ledger I P} {xs ys : List (Item I P)} (hL : Lists L xs)
    (hnodup : (ids (xs ++ ys)).Nodup) : Lists (applyAll L ys) (xs ++ ys) := by
  induction ys generalizing L xs with
  | nil => simpa [applyAll] using hL
  | cons y ys ih =>
      have hsplit : xs ++ y :: ys = (xs ++ [y]) ++ ys := by simp
      have hy : y.id ∉ ids xs := by
        intro hmem
        rw [ids_append, List.nodup_append] at hnodup
        exact hnodup.2.2 _ hmem _ (by simp [ids]) rfl
      rw [hsplit] at hnodup ⊢
      exact ih (lists_apply hL hy) hnodup

theorem lists_undo {L L' : Ledger I P} {items : List (Item I P)} {i : Item I P}
    (hL : Lists L (items ++ [i])) (hnew : i.id ∉ ids items) (hu : undo L i = some L') :
    Lists L' items := by
  obtain ⟨L₁, hL₁, rfl⟩ := Option.map_eq_some_iff.mp hu
  intro h p
  by_cases hh : h = i.id
  · subst hh
    simp only [Function.update_self, reduceCtorEq, false_and, exists_false, false_iff]
    rintro ⟨j, hj, hid, _⟩
    exact hnew (hid ▸ List.mem_map_of_mem hj)
  · rw [Function.update_of_ne hh, unspendAll_place hL₁, hL h p]
    constructor
    · rintro ⟨j, hj, hid, hp⟩
      rcases List.mem_append.mp hj with hj | hj
      · exact ⟨j, hj, hid, hp⟩
      · rw [List.mem_singleton] at hj
        exact absurd (hj ▸ hid.symm) hh
    · rintro ⟨j, hj, hid, hp⟩
      exact ⟨j, List.mem_append_left _ hj, hid, hp⟩

theorem lists_undoAll {L L' : Ledger I P} {xs ys : List (Item I P)} (hL : Lists L (xs ++ ys))
    (hnodup : (ids (xs ++ ys)).Nodup) (hu : undoAll ys L = some L') : Lists L' xs := by
  induction ys generalizing xs L' with
  | nil =>
      simp only [undoAll, Option.some.injEq] at hu
      rw [← hu]
      simpa using hL
  | cons y ys ih =>
      unfold undoAll at hu
      split at hu
      · simp at hu
      · rename_i L₁ hL₁
        have hsplit : xs ++ y :: ys = (xs ++ [y]) ++ ys := by simp
        have hy : y.id ∉ ids xs := by
          intro hmem
          rw [ids_append, List.nodup_append] at hnodup
          exact hnodup.2.2 _ hmem _ (by simp [ids]) rfl
        rw [hsplit] at hL hnodup
        exact lists_undo (ih hL hnodup hL₁) hy hu

/-- Items that make other entries leave an entry where it is. -/
theorem place_applyAll {L : Ledger I P} {items : List (Item I P)} {h : I} {p : P}
    (hnot : h ∉ ids items) :
    (∃ e, applyAll L items h = some e ∧ e.place = p) ↔ ∃ e, L h = some e ∧ e.place = p := by
  induction items generalizing L with
  | nil => rfl
  | cons i items ih =>
      simp only [ids, List.map_cons, List.mem_cons, not_or] at hnot
      have hrest := ih (L := apply L i) hnot.2
      rw [apply_of_ne hnot.1, setSlots_place] at hrest
      exact hrest

/-- After all items have been applied every one of them stands at its place. -/
theorem place_applyAll_of_mem {L : Ledger I P} {items : List (Item I P)} {i : Item I P}
    (hmem : i ∈ items) (hnodup : (ids items).Nodup) :
    ∃ e, applyAll L items i.id = some e ∧ e.place = i.place := by
  obtain ⟨us, vs, rfl⟩ := List.append_of_mem hmem
  have hvs : i.id ∉ ids vs := by
    rw [ids, List.map_append, List.map_cons, List.nodup_append] at hnodup
    exact (List.nodup_cons.mp hnodup.2.1).1
  rw [applyAll_append]
  change ∃ e, applyAll (apply (applyAll L us) i) vs i.id = some e ∧ e.place = i.place
  rw [place_applyAll hvs]
  exact ⟨.new i.place i.outs, Function.update_self _ _ _, rfl⟩

/-! ## The shape of the entries -/

/-- The place and the number of slots of every entry are good for its identifier. -/
def Shapes (Q : I → P → ℕ → Prop) (L : Ledger I P) : Prop :=
  ∀ h e, L h = some e → Q h e.place e.slots.length

/-- The place of every entry is good for its identifier. -/
def Places (Q : I → P → Prop) (L : Ledger I P) : Prop := ∀ h e, L h = some e → Q h e.place

theorem shapes_setSlots {Q : I → P → ℕ → Prop} {L : Ledger I P} (hL : Shapes Q L)
    (os : List (I × ℕ)) (v : Option P) : Shapes Q (setSlots L os v) := by
  intro h e he
  rw [setSlots_apply] at he
  obtain ⟨e', he', rfl⟩ := Option.map_eq_some_iff.mp he
  rw [Entry.setSlots_place, Entry.length_setSlots]
  exact hL h e' he'

theorem shapes_update {Q : I → P → ℕ → Prop} {L : Ledger I P} (hL : Shapes Q L) {h : I}
    {e : Option (Entry P)} (he : ∀ e', e = some e' → Q h e'.place e'.slots.length) :
    Shapes Q (Function.update L h e) := by
  intro k e' he'
  by_cases hk : k = h
  · subst hk
    rw [Function.update_self] at he'
    exact he e' he'
  · rw [Function.update_of_ne hk] at he'
    exact hL k e' he'

theorem shapes_apply {Q : I → P → ℕ → Prop} {L : Ledger I P} {i : Item I P} (hL : Shapes Q L)
    (hi : Q i.id i.place i.outs) : Shapes Q (apply L i) := by
  refine shapes_update (shapes_setSlots hL _ _) ?_
  rintro e' ⟨⟩
  simpa [Entry.new] using hi

theorem shapes_applyAll {Q : I → P → ℕ → Prop} {L : Ledger I P} {items : List (Item I P)}
    (hL : Shapes Q L) (hitems : ∀ i ∈ items, Q i.id i.place i.outs) :
    Shapes Q (applyAll L items) := by
  induction items generalizing L with
  | nil => exact hL
  | cons i items ih =>
      obtain ⟨hi, hrest⟩ := List.forall_mem_cons.mp hitems
      exact ih (shapes_apply hL hi) hrest

theorem shapes_unspendAll {Q : I → P → ℕ → Prop} {os : List (I × ℕ)} {L L' : Ledger I P}
    (hL : Shapes Q L) (hu : unspendAll os L = some L') : Shapes Q L' := by
  induction os generalizing L with
  | nil =>
      simp only [unspendAll, Option.some.injEq] at hu
      exact hu ▸ hL
  | cons o os ih =>
      unfold unspendAll at hu
      split at hu
      · simp at hu
      · rename_i e he
        split at hu
        · simp at hu
        · refine ih (shapes_update hL ?_) hu
          rintro e' ⟨⟩
          simpa using hL o.1 e he

theorem shapes_undoAll {Q : I → P → ℕ → Prop} {L L' : Ledger I P} {items : List (Item I P)}
    (hL : Shapes Q L) (hu : undoAll items L = some L') : Shapes Q L' := by
  induction items generalizing L' with
  | nil =>
      simp only [undoAll, Option.some.injEq] at hu
      exact hu ▸ hL
  | cons i items ih =>
      unfold undoAll at hu
      split at hu
      · simp at hu
      · rename_i L₁ hL₁
        obtain ⟨L₂, hL₂, rfl⟩ := Option.map_eq_some_iff.mp hu
        refine shapes_update (shapes_unspendAll (ih hL₁) hL₂) ?_
        rintro e' ⟨⟩

theorem places_apply {Q : I → P → Prop} {L : Ledger I P} {i : Item I P} (hL : Places Q L)
    (hi : Q i.id i.place) : Places Q (apply L i) :=
  shapes_apply (Q := fun h p _ => Q h p) hL hi

end Ledger
