import Mathlib.Algebra.BigOperators.Group.List.Basic
import Mathlib.Data.List.Perm.Subperm
import Dions.Library.OrdMap

/-! # An index from keys to sets

A map that lists under each key the items that have it. Taking items out drops the sets that become
empty; only reading a key that has no entry leaves an empty set behind. -/

abbrev KeyIndex (κ ι : Type) [LinearOrder κ] [LinearOrder ι] := OrdMap κ (OrdSet ι)

namespace KeyIndex

variable {κ ι : Type} [LinearOrder κ] [LinearOrder ι]

/-- The set of a key, empty where there is no entry. -/
def itemsAt (m : KeyIndex κ ι) (k : κ) : OrdSet ι := (m.find k).getD OrdMap.empty

/-- Reading through `operator[]`, which makes the entry. -/
def touch (m : KeyIndex κ ι) (k : κ) : KeyIndex κ ι := m.insert k (itemsAt m k)

def add (m : KeyIndex κ ι) (k : κ) (i : ι) : KeyIndex κ ι := m.insert k ((itemsAt m k).insert i ())

/-- The item is taken out of the set, and an empty set out of the map. -/
def remove (m : KeyIndex κ ι) (k : κ) (i : ι) : KeyIndex κ ι :=
  let items := (itemsAt m k).erase i
  if items.size = 0 then m.erase k else m.insert k items

def Lists (m : KeyIndex κ ι) (k : κ) (i : ι) : Prop := i ∈ (itemsAt m k).keys

/-- There are no empty sets. -/
def Tight (m : KeyIndex κ ι) : Prop := ∀ k items, m.find k = some items → items.size ≠ 0

variable {m : KeyIndex κ ι}

@[simp] theorem itemsAt_insert (k k' : κ) (items : OrdSet ι) :
    itemsAt (m.insert k items) k' = if k' = k then items else itemsAt m k' := by
  rw [itemsAt, OrdMap.find_insert]
  split
  · rfl
  · rfl

@[simp] theorem itemsAt_erase (k k' : κ) :
    itemsAt (m.erase k) k' = if k' = k then OrdMap.empty else itemsAt m k' := by
  rw [itemsAt, OrdMap.find_erase]
  split
  · rfl
  · rfl

theorem size_eq_zero_iff {items : OrdSet ι} : items.size = 0 ↔ ∀ i, i ∉ items.keys := by
  rw [← OrdMap.length_keys, List.length_eq_zero_iff, List.eq_nil_iff_forall_not_mem]

@[simp] theorem lists_empty (k : κ) (i : ι) : ¬Lists (OrdMap.empty : KeyIndex κ ι) k i :=
  List.not_mem_nil

@[simp] theorem lists_touch (k k' : κ) (i : ι) : Lists (touch m k) k' i ↔ Lists m k' i := by
  rw [Lists, touch, itemsAt_insert]
  split
  · rename_i h
    rw [h, Lists]
  · rfl

@[simp] theorem lists_add (k k' : κ) (i i' : ι) :
    Lists (add m k i) k' i' ↔ (k' = k ∧ i' = i) ∨ Lists m k' i' := by
  rw [Lists, add, itemsAt_insert]
  split
  · rename_i h
    rw [OrdMap.mem_keys_insert, h, Lists, and_iff_right rfl]
  · rename_i h
    rw [or_iff_right fun hboth => h hboth.1, Lists]

@[simp] theorem lists_remove (k k' : κ) (i i' : ι) :
    Lists (remove m k i) k' i' ↔ Lists m k' i' ∧ ¬(k' = k ∧ i' = i) := by
  have hset : ∀ items : OrdSet ι, items = (itemsAt m k).erase i →
      (i' ∈ items.keys ↔ Lists m k i' ∧ i' ≠ i) := by
    intro items hitems
    rw [hitems, OrdMap.mem_keys_erase, Lists]
  rw [remove]
  split
  · rename_i hempty
    rw [Lists, itemsAt_erase]
    split
    · rename_i h
      rw [h, and_iff_right rfl, ← hset _ rfl]
      exact iff_of_false List.not_mem_nil (size_eq_zero_iff.mp hempty i')
    · rename_i h
      rw [and_iff_left fun hboth => h hboth.1, Lists]
  · rw [Lists, itemsAt_insert]
    split
    · rename_i h
      rw [h, and_iff_right rfl, hset _ rfl]
    · rename_i h
      rw [and_iff_left fun hboth => h hboth.1, Lists]

theorem tight_empty : Tight (OrdMap.empty : KeyIndex κ ι) := by
  intro k items h
  cases h

theorem Tight.insert (h : Tight m) (k : κ) {items : OrdSet ι} (hitems : items.size ≠ 0) :
    Tight (m.insert k items) := by
  intro k' items' hfind
  rw [OrdMap.find_insert] at hfind
  split at hfind
  · rwa [← Option.some.inj hfind]
  · exact h k' items' hfind

theorem Tight.erase (h : Tight m) (k : κ) : Tight (m.erase k) := by
  intro k' items' hfind
  rw [OrdMap.find_erase] at hfind
  split at hfind
  · cases hfind
  · exact h k' items' hfind

theorem Tight.add (h : Tight m) (k : κ) (i : ι) : Tight (add m k i) := by
  apply h.insert
  intro hsize
  exact size_eq_zero_iff.mp hsize i (OrdMap.mem_keys_insert.mpr (.inl rfl))

theorem Tight.remove (h : Tight m) (k : κ) (i : ι) : Tight (remove m k i) := by
  rw [KeyIndex.remove]
  split
  · exact h.erase k
  · rename_i hsize
    exact h.insert k hsize

/-- Reading the key of a listed item makes no entry. -/
theorem tight_touch_iff (h : Tight m) (k : κ) : Tight (touch m k) ↔ ∃ i, Lists m k i := by
  constructor
  · intro htight
    have hsize := htight k (itemsAt m k) (by rw [touch, OrdMap.find_insert, if_pos rfl])
    by_contra hnone
    exact hsize (size_eq_zero_iff.mpr fun i hi => hnone ⟨i, hi⟩)
  · intro ⟨i, hi⟩
    exact h.insert k fun hsize => size_eq_zero_iff.mp hsize i hi

/-- Without empty sets, the keys with an entry are those under which something is listed. -/
theorem Tight.find_isSome_iff (h : Tight m) (k : κ) :
    (m.find k).isSome = true ↔ ∃ i, Lists m k i := by
  constructor
  · intro hsome
    obtain ⟨items, hfind⟩ := Option.isSome_iff_exists.mp hsome
    by_contra hnone
    refine h k items hfind (size_eq_zero_iff.mpr fun i hi => hnone ⟨i, ?_⟩)
    rwa [Lists, itemsAt, hfind]
  · intro ⟨i, hi⟩
    by_contra hnone
    rw [Bool.not_eq_true, Option.isSome_eq_false_iff, Option.isNone_iff_eq_none] at hnone
    rw [Lists, itemsAt, hnone] at hi
    exact List.not_mem_nil hi

theorem find_remove_of_ne {k k' : κ} (i : ι) (h : k' ≠ k) :
    (remove m k i).find k' = m.find k' := by
  rw [remove]
  split
  · rw [OrdMap.find_erase, if_neg h]
  · rw [OrdMap.find_insert, if_neg h]

/-! ## All keys of an item -/

theorem find_foldl_remove {ks : List κ} {k' : κ} (i : ι) (h : k' ∉ ks) (m : KeyIndex κ ι) :
    (ks.foldl (fun m k => remove m k i) m).find k' = m.find k' := by
  induction ks generalizing m with
  | nil => rfl
  | cons k ks ih =>
    rw [List.mem_cons, not_or] at h
    rw [List.foldl_cons, ih h.2, find_remove_of_ne i h.1]

theorem lists_foldl_add (ks : List κ) (i : ι) (k' : κ) (i' : ι) (m : KeyIndex κ ι) :
    Lists (ks.foldl (fun m k => add m k i) m) k' i' ↔ (k' ∈ ks ∧ i' = i) ∨ Lists m k' i' := by
  induction ks generalizing m with
  | nil => simp
  | cons k ks ih =>
    rw [List.foldl_cons, ih, lists_add, List.mem_cons]
    tauto

theorem lists_foldl_remove (ks : List κ) (i : ι) (k' : κ) (i' : ι) (m : KeyIndex κ ι) :
    Lists (ks.foldl (fun m k => remove m k i) m) k' i' ↔ Lists m k' i' ∧ ¬(k' ∈ ks ∧ i' = i) := by
  induction ks generalizing m with
  | nil => simp
  | cons k ks ih =>
    rw [List.foldl_cons, ih, lists_remove, List.mem_cons]
    tauto

theorem Tight.foldl_add (ks : List κ) (i : ι) (h : Tight m) :
    Tight (ks.foldl (fun m k => KeyIndex.add m k i) m) := by
  induction ks generalizing m with
  | nil => exact h
  | cons k ks ih => exact ih (h.add k i)

theorem Tight.foldl_remove (ks : List κ) (i : ι) (h : Tight m) :
    Tight (ks.foldl (fun m k => KeyIndex.remove m k i) m) := by
  induction ks generalizing m with
  | nil => exact h
  | cons k ks ih => exact ih (h.remove k i)

/-! ## What an index takes -/

/-- The pairs that an index lists. -/
def pairs (m : KeyIndex κ ι) : List (κ × ι) :=
  m.entries.flatMap fun e => e.2.keys.map fun i => (e.1, i)

theorem mem_pairs {k : κ} {i : ι} : (k, i) ∈ pairs m ↔ Lists m k i := by
  rw [pairs, List.mem_flatMap, Lists, itemsAt]
  constructor
  · intro ⟨e, he, hmem⟩
    obtain ⟨i', hi', heq⟩ := List.mem_map.mp hmem
    obtain ⟨rfl, rfl⟩ := Prod.mk.inj heq
    rw [OrdMap.mem_entries.mp he]
    exact hi'
  · intro hi
    cases hfind : m.find k with
    | none =>
      rw [hfind] at hi
      exact absurd hi List.not_mem_nil
    | some items =>
      rw [hfind] at hi
      exact ⟨(k, items), OrdMap.mem_entries.mpr hfind, List.mem_map.mpr ⟨i, hi, rfl⟩⟩

theorem nodup_pairs (m : KeyIndex κ ι) : (pairs m).Nodup := by
  rw [pairs, List.nodup_flatMap]
  constructor
  · intro e _
    exact (OrdMap.nodup_keys e.2).map fun i i' h => (Prod.mk.inj h).2
  · apply (List.pairwise_map.mp m.ordered).imp
    intro e e' hlt p hp hp'
    obtain ⟨i, _, rfl⟩ := List.mem_map.mp hp
    obtain ⟨i', _, heq⟩ := List.mem_map.mp hp'
    exact hlt.ne (Prod.mk.inj heq).1.symm

theorem Tight.size_le (h : Tight m) : m.size ≤ (pairs m).length := by
  have hpos : ∀ n ∈ m.entries.map fun e => (e.2.keys.map fun i => (e.1, i)).length, 1 ≤ n := by
    intro n hn
    obtain ⟨e, he, rfl⟩ := List.mem_map.mp hn
    have hsize := h e.1 e.2 (OrdMap.mem_entries.mp he)
    rw [List.length_map, OrdMap.length_keys]
    omega
  calc m.size = (m.entries.map fun e => (e.2.keys.map fun i => (e.1, i)).length).length :=
        (List.length_map _).symm
    _ ≤ _ := List.length_le_sum_of_one_le _ hpos
    _ = (pairs m).length := by rw [pairs, List.length_flatMap]

/-- An index is no larger than any list of the pairs it may list. -/
theorem length_pairs_le (ps : List (κ × ι)) (h : ∀ k i, Lists m k i → (k, i) ∈ ps) :
    (pairs m).length ≤ ps.length := by
  apply ((nodup_pairs m).subperm _).length_le
  intro p hp
  exact h p.1 p.2 (mem_pairs.mp hp)

end KeyIndex
