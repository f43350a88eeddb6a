import Mathlib.Algebra.BigOperators.Finprod
import Mathlib.Algebra.Order.BigOperators.Group.Finset
import Dions.Library.Ledger

/-! # The value of a ledger

Every output at a place has a value, and the empty slots of a ledger add up to a total. An item
takes away what its slots are worth and adds what it makes, as long as it spends no slot of value
twice and overwrites nothing that is left to spend. -/

namespace Ledger

variable {I P : Type} [DecidableEq I] (value : P → ℕ → ℤ)

/-! ## Entries -/

/-- What is left in a slot of an entry. -/
def Entry.left (e : Entry P) (n : ℕ) : ℤ :=
  match e.slots[n]? with
  | some none => value e.place n
  | _ => 0

def Entry.unspent (e : Entry P) : ℤ := ∑ n ∈ Finset.range e.slots.length, e.left value n

theorem Entry.left_setSlot (e : Entry P) (n k : ℕ) (p : P) :
    (e.setSlot n (some p)).left value k = if n = k then 0 else e.left value k := by
  simp only [Entry.left, Entry.setSlot, List.getElem?_set]
  by_cases hnk : n = k
  · subst hnk
    by_cases hlt : n < e.slots.length
    · simp [hlt]
    · simp [hlt]
  · simp [hnk]

theorem Entry.left_eq_zero {e : Entry P} {n : ℕ} (h : e.slots.length ≤ n) :
    e.left value n = 0 := by
  simp [Entry.left, List.getElem?_eq_none h]

theorem Entry.unspent_setSlot (e : Entry P) (n : ℕ) (p : P) :
    (e.setSlot n (some p)).unspent value + e.left value n = e.unspent value := by
  have hsplit : ∀ k, e.left value k =
      (e.setSlot n (some p)).left value k + if n = k then e.left value n else 0 := by
    intro k
    rw [Entry.left_setSlot]
    by_cases hnk : n = k
    · subst hnk
      simp
    · simp [hnk]
  unfold Entry.unspent
  rw [Finset.sum_congr rfl fun k _ => hsplit k, Finset.sum_add_distrib, Finset.sum_ite_eq,
    Entry.length_setSlot]
  by_cases hlt : n < e.slots.length
  · simp [hlt]
  · simp [hlt, Entry.left_eq_zero value (Nat.le_of_not_lt hlt)]

theorem Entry.unspent_new (place : P) (outs : ℕ) :
    (Entry.new place outs).unspent value = ∑ n ∈ Finset.range outs, value place n := by
  simp only [Entry.unspent, Entry.new, List.length_replicate]
  refine Finset.sum_congr rfl fun n hn => ?_
  simp [Entry.left, Finset.mem_range.mp hn]

/-- No slot of the entry is empty. -/
def Entry.Used (e : Entry P) : Prop := none ∉ e.slots

theorem Entry.Used.left {e : Entry P} (h : e.Used) (n : ℕ) : e.left value n = 0 := by
  unfold Entry.left
  split
  · rename_i hslot
    exact absurd (List.mem_of_getElem? hslot) h
  · rfl

theorem Entry.Used.unspent {e : Entry P} (h : e.Used) : e.unspent value = 0 :=
  Finset.sum_eq_zero fun n _ => h.left value n

theorem Entry.Used.setSlot {e : Entry P} (h : e.Used) (n : ℕ) (p : P) :
    (e.setSlot n (some p)).Used := by
  intro hmem
  rcases List.mem_or_eq_of_mem_set hmem with hold | hnew
  · exact h hold
  · cases hnew

theorem Entry.Used.setSlots {e : Entry P} (h : e.Used) (ns : List ℕ) (p : P) :
    (e.setSlots ns (some p)).Used := by
  induction ns generalizing e with
  | nil => exact h
  | cons n ns ih => exact ih (h.setSlot n p)

/-! ## Totals -/

/-- The ledger has finitely many entries. -/
def FiniteEntries (L : Ledger I P) : Prop := {h | L h ≠ none}.Finite

def entryValue (L : Ledger I P) (h : I) : ℤ := ((L h).map (Entry.unspent value)).getD 0

/-- The sum of what is left in all slots. -/
noncomputable def unspent (L : Ledger I P) : ℤ := ∑ᶠ h, entryValue value L h

omit [DecidableEq I] in
theorem support_entryValue (L : Ledger I P) :
    Function.support (entryValue value L) ⊆ {h | L h ≠ none} := by
  intro h hh hnone
  exact hh (by simp [entryValue, hnone])

theorem FiniteEntries.update {L : Ledger I P} (hL : FiniteEntries L) (h : I)
    (e : Option (Entry P)) : FiniteEntries (Function.update L h e) := by
  refine (hL.insert h).subset fun k hk => ?_
  by_cases hkh : k = h
  · exact .inl hkh
  · refine .inr ?_
    simpa [Function.update_of_ne hkh] using hk

/-- Replacing one entry changes the total by the difference. -/
theorem unspent_update {L : Ledger I P} (hL : FiniteEntries L) (h : I) (e : Option (Entry P)) :
    unspent value (Function.update L h e) + entryValue value L h =
      unspent value L + (e.map (Entry.unspent value)).getD 0 := by
  have hsum : ∀ {M : Ledger I P}, {k | M k ≠ none} ⊆ insert h {k | L k ≠ none} →
      unspent value M = ∑ k ∈ (hL.insert h).toFinset, entryValue value M k := by
    intro M hM
    refine finsum_eq_sum_of_support_subset _ fun k hk => ?_
    rw [Set.Finite.coe_toFinset]
    exact hM (support_entryValue value M hk)
  have hsub : {k | Function.update L h e k ≠ none} ⊆ insert h {k | L k ≠ none} := by
    intro k hk
    by_cases hkh : k = h
    · exact .inl hkh
    · refine .inr ?_
      simpa [Function.update_of_ne hkh] using hk
  have hmem : h ∈ (hL.insert h).toFinset := by simp
  have hnew := Finset.add_sum_erase _ (entryValue value (Function.update L h e)) hmem
  have hold := Finset.add_sum_erase _ (entryValue value L) hmem
  have hrest : ∑ k ∈ (hL.insert h).toFinset.erase h, entryValue value (Function.update L h e) k =
      ∑ k ∈ (hL.insert h).toFinset.erase h, entryValue value L k := by
    refine Finset.sum_congr rfl fun k hk => ?_
    simp [entryValue, Function.update_of_ne (Finset.ne_of_mem_erase hk)]
  have hself : entryValue value (Function.update L h e) h =
      (e.map (Entry.unspent value)).getD 0 := by
    simp [entryValue]
  rw [hsum hsub, hsum (Set.subset_insert _ _)]
  omega

/-- What is left in a slot of the ledger. -/
def left (L : Ledger I P) (o : I × ℕ) : ℤ := ((L o.1).map (Entry.left value · o.2)).getD 0

/-- What a slot of the ledger is worth, spent or not. -/
def worth (L : Ledger I P) (o : I × ℕ) : ℤ := ((L o.1).map fun e => value e.place o.2).getD 0

omit [DecidableEq I] in
theorem left_eq_worth {L : Ledger I P} {o : I × ℕ} (hslot : HasSlot L o)
    (hunspent : worth value L o ≠ 0 → ¬Spent L o) : left value L o = worth value L o := by
  obtain ⟨e, he, hlt⟩ := hslot
  have hworth : worth value L o = value e.place o.2 := by simp [worth, he]
  simp only [left, he, Option.map_some, Option.getD_some, hworth, Entry.left]
  cases hs : e.slots[o.2]? with
  | none =>
      rw [List.getElem?_eq_none_iff] at hs
      omega
  | some s =>
      cases s with
      | none => rfl
      | some p =>
          by_contra hne
          rw [hworth] at hunspent
          exact hunspent (fun hzero => hne hzero.symm) ⟨e, p, he, hs⟩

/-! ## Spending -/

theorem FiniteEntries.setSlot {L : Ledger I P} (hL : FiniteEntries L) (o : I × ℕ)
    (v : Option P) : FiniteEntries (setSlot L o v) := by
  unfold Ledger.setSlot
  split
  · exact hL
  · exact hL.update _ _

theorem FiniteEntries.setSlots {L : Ledger I P} (hL : FiniteEntries L) (os : List (I × ℕ))
    (v : Option P) : FiniteEntries (setSlots L os v) := by
  induction os generalizing L with
  | nil => exact hL
  | cons o os ih => exact ih (hL.setSlot o v)

theorem unspent_setSlot {L : Ledger I P} (hL : FiniteEntries L) (o : I × ℕ) (p : P) :
    unspent value (setSlot L o (some p)) + left value L o = unspent value L := by
  unfold setSlot left
  cases he : L o.1 with
  | none => simp
  | some e =>
      have hupdate := unspent_update value hL o.1 (some (e.setSlot o.2 (some p)))
      have hslot := e.unspent_setSlot value o.2 p
      simp only [entryValue, he, Option.map_some, Option.getD_some] at hupdate ⊢
      omega

theorem left_setSlot_of_ne {L : Ledger I P} {o o' : I × ℕ} (p : P) (hne : o ≠ o') :
    left value (setSlot L o (some p)) o' = left value L o' := by
  simp only [left, setSlot_apply]
  by_cases hid : o.1 = o'.1
  · have hn : o.2 ≠ o'.2 := fun hn => hne (Prod.ext hid hn)
    cases L o'.1 <;> simp [hid, Entry.left_setSlot, hn]
  · simp [hid]

theorem unspent_setSlots {L : Ledger I P} (hL : FiniteEntries L) {os : List (I × ℕ)}
    (hnodup : os.Nodup) (p : P) :
    unspent value (setSlots L os (some p)) + (os.map (left value L)).sum = unspent value L := by
  induction os generalizing L with
  | nil => simp [setSlots]
  | cons o os ih =>
      obtain ⟨hnot, hnodup⟩ := List.nodup_cons.mp hnodup
      have hone := unspent_setSlot value hL o p
      have hrest := ih (hL.setSlot o (some p)) hnodup
      have hleft : os.map (left value (setSlot L o (some p))) = os.map (left value L) := by
        refine List.map_congr_left fun o' ho' => left_setSlot_of_ne value p ?_
        rintro rfl
        exact hnot ho'
      rw [hleft] at hrest
      simp only [setSlots, List.foldl_cons, List.map_cons, List.sum_cons] at hrest ⊢
      omega

theorem FiniteEntries.undoAll {L L' : Ledger I P} {items : List (Item I P)}
    (hL : FiniteEntries L) (hu : undoAll items L = some L') : FiniteEntries L' := by
  have hspend : ∀ {os : List (I × ℕ)} {M M' : Ledger I P}, FiniteEntries M →
      unspendAll os M = some M' → FiniteEntries M' := by
    intro os
    induction os with
    | nil =>
        intro M M' hM hM'
        simp only [unspendAll, Option.some.injEq] at hM'
        exact hM' ▸ hM
    | cons o os ih =>
        intro M M' hM hM'
        unfold unspendAll at hM'
        split at hM'
        · simp at hM'
        · split at hM'
          · simp at hM'
          · exact ih (hM.update _ _) hM'
  induction items generalizing L' with
  | nil =>
      simp only [Ledger.undoAll, Option.some.injEq] at hu
      exact hu ▸ hL
  | cons i items ih =>
      unfold Ledger.undoAll at hu
      split at hu
      · simp at hu
      · rename_i L₁ hL₁
        obtain ⟨L₂, hL₂, rfl⟩ := Option.map_eq_some_iff.mp hu
        exact (hspend (ih hL₁) hL₂).update _ _

/-! ## Items -/

/-- What the inputs of an item are worth. -/
def spends (L : Ledger I P) (i : Item I P) : ℤ := (i.inputs.map (worth value L)).sum

/-- What the outputs of an item are worth. -/
def makes (i : Item I P) : ℤ := ∑ n ∈ Finset.range i.outs, value i.place n

/-- Nothing is left to spend under an id. -/
def UsedUp (L : Ledger I P) (h : I) : Prop := ∀ e, L h = some e → e.Used

/-- The item spends slots that exist, none of them twice and none of value that is spent already,
and nothing is left under its own id. -/
structure Pays (L : Ledger I P) (i : Item I P) : Prop where
  finds : Finds L i
  distinct : i.inputs.Nodup
  unspent : ∀ o ∈ i.inputs, worth value L o ≠ 0 → ¬Spent L o
  usedUp : UsedUp L i.id

theorem UsedUp.apply {L : Ledger I P} {i : Item I P} {h : I} (hused : UsedUp L h)
    (hne : h ≠ i.id) : UsedUp (apply L i) h := by
  intro e he
  rw [apply_of_ne hne, setSlots_apply] at he
  obtain ⟨e', he', rfl⟩ := Option.map_eq_some_iff.mp he
  exact (hused e' he').setSlots _ _

theorem FiniteEntries.apply {L : Ledger I P} (hL : FiniteEntries L) (i : Item I P) :
    FiniteEntries (apply L i) := (hL.setSlots _ _).update _ _

theorem FiniteEntries.applyAll {L : Ledger I P} (hL : FiniteEntries L)
    (items : List (Item I P)) : FiniteEntries (applyAll L items) := by
  induction items generalizing L with
  | nil => exact hL
  | cons i items ih => exact ih (hL.apply i)

/-- An item takes away what it spends and adds what it makes. -/
theorem unspent_apply {L : Ledger I P} (hL : FiniteEntries L) {i : Item I P}
    (h : Pays value L i) :
    unspent value (apply L i) = unspent value L - spends value L i + makes value i := by
  have hspent := unspent_setSlots value hL h.distinct i.place
  have hleft : i.inputs.map (left value L) = i.inputs.map (worth value L) :=
    List.map_congr_left fun o ho => left_eq_worth value (h.finds o ho) (h.unspent o ho)
  have hmade := unspent_update value (hL.setSlots i.inputs (some i.place)) i.id
    (some (.new i.place i.outs))
  -- the entry that is overwritten had nothing left
  have hgone : entryValue value (setSlots L i.inputs (some i.place)) i.id = 0 := by
    unfold entryValue
    rw [setSlots_apply]
    cases he : L i.id with
    | none => rfl
    | some e => simpa using ((h.usedUp e he).setSlots _ i.place).unspent value
  rw [hleft] at hspent
  rw [hgone, Option.map_some, Option.getD_some, Entry.unspent_new] at hmade
  unfold apply spends makes
  omega

/-! ## Bounds -/

omit [DecidableEq I]

theorem Entry.left_nonneg {e : Entry P} (h : ∀ n, 0 ≤ value e.place n) (n : ℕ) :
    0 ≤ e.left value n := by
  unfold Entry.left
  split
  · exact h n
  · exact le_rfl

/-- The value of every entry is not negative. -/
def NonNeg (L : Ledger I P) : Prop := Places (fun _ p => ∀ n, 0 ≤ value p n) L

theorem unspent_nonneg {L : Ledger I P} (h : NonNeg value L) : 0 ≤ unspent value L := by
  refine finsum_nonneg fun k => ?_
  unfold entryValue
  cases he : L k with
  | none => exact le_rfl
  | some e =>
      rw [Option.map_some, Option.getD_some]
      exact Finset.sum_nonneg fun n _ => Entry.left_nonneg value (h k e he) n

theorem worth_nonneg {L : Ledger I P} (h : NonNeg value L) (o : I × ℕ) : 0 ≤ worth value L o := by
  unfold worth
  cases he : L o.1 with
  | none => exact le_rfl
  | some e => exact h o.1 e he o.2

theorem spends_nonneg {L : Ledger I P} (h : NonNeg value L) (i : Item I P) :
    0 ≤ spends value L i := by
  refine List.sum_nonneg fun v hv => ?_
  obtain ⟨o, -, rfl⟩ := List.mem_map.mp hv
  exact worth_nonneg value h o

theorem NonNeg.setSlot [DecidableEq I] {L : Ledger I P} (h : NonNeg value L) (o : I × ℕ)
    (v : Option P) : NonNeg value (setSlot L o v) := by
  intro k e he
  rw [setSlot_apply] at he
  split at he
  · obtain ⟨e', he', rfl⟩ := Option.map_eq_some_iff.mp he
    exact h k e' he'
  · exact h k e he

theorem unspent_setSlots_le [DecidableEq I] {L : Ledger I P} (hL : FiniteEntries L)
    (h : NonNeg value L) (os : List (I × ℕ)) (p : P) :
    NonNeg value (setSlots L os (some p)) ∧
      unspent value (setSlots L os (some p)) ≤ unspent value L := by
  induction os generalizing L with
  | nil => exact ⟨h, le_rfl⟩
  | cons o os ih =>
      have hone := unspent_setSlot value hL o p
      obtain ⟨hnonneg, hrest⟩ := ih (hL.setSlot o (some p)) (h.setSlot value o (some p))
      have hleft : 0 ≤ left value L o := by
        unfold left
        cases he : L o.1 with
        | none => exact le_rfl
        | some e =>
            rw [Option.map_some, Option.getD_some]
            exact Entry.left_nonneg value (h o.1 e he) o.2
      refine ⟨hnonneg, ?_⟩
      simp only [setSlots, List.foldl_cons] at hrest ⊢
      omega

/-- Whatever an item spends, it adds no more than it makes. -/
theorem unspent_apply_le [DecidableEq I] {L : Ledger I P} (hL : FiniteEntries L)
    (h : NonNeg value L) (i : Item I P) :
    unspent value (apply L i) ≤ unspent value L + makes value i := by
  obtain ⟨hnonneg, hspent⟩ := unspent_setSlots_le value hL h i.inputs i.place
  have hmade := unspent_update value (hL.setSlots i.inputs (some i.place)) i.id
    (some (.new i.place i.outs))
  have hgone : 0 ≤ entryValue value (setSlots L i.inputs (some i.place)) i.id := by
    unfold entryValue
    cases he : setSlots L i.inputs (some i.place) i.id with
    | none => exact le_rfl
    | some e =>
        rw [Option.map_some, Option.getD_some]
        exact Finset.sum_nonneg fun n _ => Entry.left_nonneg value (hnonneg i.id e he) n
  rw [Option.map_some, Option.getD_some, Entry.unspent_new] at hmade
  unfold apply makes
  omega

variable {value}

theorem unspent_mono {value' : P → ℕ → ℤ} {L : Ledger I P} (hL : FiniteEntries L)
    (h : Places (fun _ p => ∀ n, value' p n ≤ value p n) L) :
    unspent value' L ≤ unspent value L := by
  refine finsum_le_finsum' (hL.subset (support_entryValue value' L))
    (hL.subset (support_entryValue value L)) fun k => ?_
  unfold entryValue
  cases he : L k with
  | none => exact le_rfl
  | some e =>
      rw [Option.map_some, Option.map_some, Option.getD_some, Option.getD_some]
      refine Finset.sum_le_sum fun n _ => ?_
      unfold Entry.left
      split
      · exact h k e he n
      · exact le_rfl

end Ledger
