import Mathlib.Data.List.Sort

/-! # Ordered maps

A finite map that is walked through from the smallest key to the largest, as `std::map` is. -/

/-- The entries of a map, in strictly increasing order of their keys. -/
structure OrdMap (κ α : Type) [LinearOrder κ] where
  entries : List (κ × α)
  ordered : (entries.map Prod.fst).Pairwise (· < ·)

namespace OrdMap

variable {κ α : Type} [LinearOrder κ]

def empty : OrdMap κ α := ⟨[], .nil⟩

def keys (m : OrdMap κ α) : List κ := m.entries.map Prod.fst

def find (m : OrdMap κ α) (k : κ) : Option α := m.entries.lookup k

/-- The entry of a key is put in its place, or at the place of the one that is there. -/
def insertEntry (k : κ) (a : α) : List (κ × α) → List (κ × α)
  | [] => [(k, a)]
  | e :: es =>
    if k < e.1 then (k, a) :: e :: es
    else if k = e.1 then (k, a) :: es
    else e :: insertEntry k a es

theorem mem_insertEntry {k : κ} {a : α} {es : List (κ × α)} {k' : κ} :
    k' ∈ (insertEntry k a es).map Prod.fst ↔ k' = k ∨ k' ∈ es.map Prod.fst := by
  induction es with
  | nil => simp [insertEntry]
  | cons e es ih =>
      unfold insertEntry
      split
      next => simp
      next =>
        split
        next heq => simp [heq]
        next =>
          rw [List.map_cons, List.mem_cons, ih, List.map_cons, List.mem_cons]
          exact or_left_comm

theorem insertEntry_ordered (k : κ) (a : α) {es : List (κ × α)}
    (h : (es.map Prod.fst).Pairwise (· < ·)) :
    ((insertEntry k a es).map Prod.fst).Pairwise (· < ·) := by
  induction es with
  | nil => simp [insertEntry]
  | cons e es ih =>
      rw [List.map_cons, List.pairwise_cons] at h
      obtain ⟨hfirst, hrest⟩ := h
      unfold insertEntry
      split
      next hlt =>
        rw [List.map_cons, List.pairwise_cons]
        refine ⟨?_, List.pairwise_cons.mpr ⟨hfirst, hrest⟩⟩
        intro k' hk'
        rcases List.mem_cons.mp hk' with rfl | hk'
        · exact hlt
        · exact hlt.trans (hfirst k' hk')
      next hle =>
        split
        next heq =>
          rw [List.map_cons, List.pairwise_cons, heq]
          exact ⟨hfirst, hrest⟩
        next hne =>
          rw [List.map_cons, List.pairwise_cons]
          refine ⟨?_, ih hrest⟩
          intro k' hk'
          rcases mem_insertEntry.mp hk' with rfl | hk'
          · exact lt_of_le_of_ne (not_lt.mp hle) (Ne.symm hne)
          · exact hfirst k' hk'

theorem lookup_cons (k : κ) (e : κ × α) (es : List (κ × α)) :
    (e :: es).lookup k = if k = e.1 then some e.2 else es.lookup k := by
  obtain ⟨k', a⟩ := e
  by_cases h : k = k'
  · subst h
    simp
  · have hbeq : (k == k') = false := beq_eq_false_iff_ne.mpr h
    simp [List.lookup_cons, hbeq, h]

theorem lookup_insertEntry (k k' : κ) (a : α) (es : List (κ × α)) :
    (insertEntry k a es).lookup k' = if k' = k then some a else es.lookup k' := by
  induction es with
  | nil => exact lookup_cons k' (k, a) []
  | cons e es ih =>
      unfold insertEntry
      split
      next => exact lookup_cons k' (k, a) (e :: es)
      next =>
        split
        next heq =>
          rw [lookup_cons, lookup_cons, ← heq]
          by_cases h : k' = k <;> simp [h]
        next hne =>
          rw [lookup_cons, lookup_cons, ih]
          by_cases h : k' = k
          · simp [h, hne]
          · simp [h]

def insert (m : OrdMap κ α) (k : κ) (a : α) : OrdMap κ α :=
  ⟨insertEntry k a m.entries, insertEntry_ordered k a m.ordered⟩

@[simp] theorem find_empty (k : κ) : (empty : OrdMap κ α).find k = none := rfl

theorem find_insert (m : OrdMap κ α) (k k' : κ) (a : α) :
    (m.insert k a).find k' = if k' = k then some a else m.find k' :=
  lookup_insertEntry k k' a m.entries

@[simp] theorem mem_keys_insert {m : OrdMap κ α} {k k' : κ} {a : α} :
    k' ∈ (m.insert k a).keys ↔ k' = k ∨ k' ∈ m.keys := mem_insertEntry

theorem mem_keys {m : OrdMap κ α} {k : κ} : k ∈ m.keys ↔ (m.find k).isSome = true := by
  rw [keys, find]
  induction m.entries with
  | nil => simp
  | cons e es ih =>
      rw [List.map_cons, List.mem_cons, lookup_cons, ih]
      by_cases h : k = e.1 <;> simp [h]

/-- The keys in their order are known by their members. -/
theorem eq_of_mem_keys_iff {xs ys : List κ} (hxs : xs.Pairwise (· < ·))
    (hys : ys.Pairwise (· < ·)) (h : ∀ k, k ∈ xs ↔ k ∈ ys) : xs = ys :=
  hxs.eq_of_mem_iff hys h

theorem le_of_head {m : OrdMap κ α} {e : κ × α} (h : m.entries.head? = some e) {k : κ}
    (hk : k ∈ m.keys) : e.1 ≤ k := by
  have hsorted := m.ordered
  rw [keys] at hk
  cases hes : m.entries with
  | nil =>
      rw [hes] at h
      cases h
  | cons first es =>
      rw [hes] at h hk hsorted
      rw [List.head?_cons, Option.some.injEq] at h
      rw [h, List.map_cons] at hk hsorted
      rcases List.mem_cons.mp hk with rfl | hk
      · exact le_refl _
      · exact ((List.pairwise_cons.mp hsorted).1 k hk).le

theorem find_of_head {m : OrdMap κ α} {e : κ × α} (h : m.entries.head? = some e) :
    m.find e.1 = some e.2 := by
  rw [find]
  cases hes : m.entries with
  | nil =>
      rw [hes] at h
      cases h
  | cons first es =>
      rw [hes, List.head?_cons, Option.some.injEq] at h
      rw [h, lookup_cons, if_pos rfl]

theorem lookup_eq_some_of_ordered {k : κ} {a : α} {es : List (κ × α)}
    (h : (es.map Prod.fst).Pairwise (· < ·)) : es.lookup k = some a ↔ (k, a) ∈ es := by
  induction es with
  | nil => simp
  | cons e es ih =>
      rw [List.map_cons, List.pairwise_cons] at h
      obtain ⟨hfirst, hrest⟩ := h
      rw [lookup_cons, List.mem_cons]
      by_cases hk : k = e.1
      · have hnot : (k, a) ∉ es := by
          intro hmem
          exact lt_irrefl _ (hk ▸ hfirst k (List.mem_map.mpr ⟨(k, a), hmem, rfl⟩))
        rw [if_pos hk, hk, Option.some.injEq, or_iff_left (hk ▸ hnot)]
        constructor
        · intro heq
          rw [← heq]
        · intro heq
          rw [← heq]
      · rw [if_neg hk, ih hrest, or_iff_right]
        intro heq
        exact hk (by rw [← heq])

theorem mem_entries {m : OrdMap κ α} {k : κ} {a : α} : (k, a) ∈ m.entries ↔ m.find k = some a :=
  (lookup_eq_some_of_ordered m.ordered).symm

/-! ## Removal and size -/

def erase (m : OrdMap κ α) (k : κ) : OrdMap κ α where
  entries := m.entries.filter fun e => e.1 ≠ k
  ordered := m.ordered.sublist (List.filter_sublist.map Prod.fst)

def size (m : OrdMap κ α) : ℕ := m.entries.length

theorem keys_erase (m : OrdMap κ α) (k : κ) : (m.erase k).keys = m.keys.filter (· ≠ k) := by
  simp only [keys, erase, List.filter_map]
  rfl

@[simp] theorem mem_keys_erase {m : OrdMap κ α} {k k' : κ} :
    k' ∈ (m.erase k).keys ↔ k' ∈ m.keys ∧ k' ≠ k := by
  rw [keys_erase, List.mem_filter, decide_eq_true_iff]

theorem find_erase (m : OrdMap κ α) (k k' : κ) :
    (m.erase k).find k' = if k' = k then none else m.find k' := by
  simp only [find, erase]
  induction m.entries with
  | nil => simp
  | cons e es ih =>
    rw [lookup_cons]
    by_cases he : e.1 = k
    · rw [List.filter_cons_of_neg (by simpa using he), ih]
      by_cases hk : k' = k
      · simp [hk]
      · simp [he, hk]
    · rw [List.filter_cons_of_pos (by simpa using he), lookup_cons, ih]
      by_cases hk : k' = e.1
      · simp [hk, he]
      · simp [hk]

theorem length_keys (m : OrdMap κ α) : m.keys.length = m.size := List.length_map _

theorem nodup_keys (m : OrdMap κ α) : m.keys.Nodup :=
  m.ordered.imp fun hlt => ne_of_lt hlt

/-- The keys without the one that was put in. -/
theorem perm_keys_insert {m : OrdMap κ α} {k : κ} (a : α) (h : k ∉ m.keys) :
    (m.insert k a).keys.Perm (k :: m.keys) := by
  apply (List.perm_ext_iff_of_nodup (m.insert k a).nodup_keys
    (List.nodup_cons.mpr ⟨h, m.nodup_keys⟩)).mpr
  intro k'
  rw [mem_keys_insert, List.mem_cons]

theorem perm_keys_erase {m : OrdMap κ α} {k : κ} (h : k ∈ m.keys) :
    m.keys.Perm (k :: (m.erase k).keys) := by
  apply (List.perm_ext_iff_of_nodup m.nodup_keys
    (List.nodup_cons.mpr ⟨fun hmem => (mem_keys_erase.mp hmem).2 rfl,
      (m.erase k).nodup_keys⟩)).mpr
  intro k'
  rw [List.mem_cons, mem_keys_erase]
  by_cases hk : k' = k
  · simp [hk, h]
  · simp [hk]

theorem size_insert {m : OrdMap κ α} {k : κ} (a : α) (h : k ∉ m.keys) :
    (m.insert k a).size = m.size + 1 := by
  rw [← length_keys, (perm_keys_insert a h).length_eq, List.length_cons, length_keys]

theorem size_erase {m : OrdMap κ α} {k : κ} (h : k ∈ m.keys) :
    (m.erase k).size + 1 = m.size := by
  rw [← length_keys, ← length_keys, (perm_keys_erase h).length_eq, List.length_cons]

theorem size_eq_zero {m : OrdMap κ α} (h : ∀ k, m.find k = none) : m.size = 0 := by
  rw [← length_keys, List.length_eq_zero_iff, List.eq_nil_iff_forall_not_mem]
  intro k hmem
  rw [mem_keys, h k] at hmem
  cases hmem

/-! ## Search -/

/-- The first entry whose key is not below the given one. -/
def lowerBound (m : OrdMap κ α) (k : κ) : Option (κ × α) := m.entries.find? fun e => k ≤ e.1

/-- The first entry not below the key, and behind the last one the first of all. -/
def lowerBoundOrFirst (m : OrdMap κ α) (k : κ) : Option (κ × α) :=
  (m.lowerBound k).or m.entries.head?

theorem mem_of_lowerBoundOrFirst {m : OrdMap κ α} {k : κ} {e : κ × α}
    (h : m.lowerBoundOrFirst k = some e) : e ∈ m.entries := by
  rcases Option.or_eq_some_iff.mp h with hfound | ⟨_, hfirst⟩
  · exact List.mem_of_find?_eq_some hfound
  · exact List.mem_of_mem_head? hfirst

theorem lowerBoundOrFirst_isSome {m : OrdMap κ α} (k : κ) (h : 0 < m.size) :
    ∃ e, m.lowerBoundOrFirst k = some e := by
  obtain ⟨e, he⟩ : ∃ e, m.entries.head? = some e := by
    rw [← Option.isSome_iff_exists, List.isSome_head?]
    simpa [size, List.length_pos_iff] using h
  rw [lowerBoundOrFirst, he]
  cases m.lowerBound k with
  | none => exact ⟨e, rfl⟩
  | some e' => exact ⟨e', rfl⟩

end OrdMap

/-- A set that is walked through in order, as `std::set` is. -/
abbrev OrdSet (κ : Type) [LinearOrder κ] := OrdMap κ Unit
