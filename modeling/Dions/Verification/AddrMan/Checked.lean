import Dions.Verification.AddrMan.Runs

/-! # What the consistency check tells

`Check_` finds nothing wrong exactly where the entries are in order and the buckets hold what the
entries say. It does not look at how large a bucket is. -/

namespace Dions

variable {it : List ℕ} {setTried : OrdSet ℕ} {mapNew : OrdMap ℕ ℤ}
variable {e : ℤ}

/-- The walk through the "new" buckets meets an id in each bucket that it is in. -/
theorem count_flatMap_keys (vvNew : List (OrdSet ℕ)) (k : ℕ) :
    (vvNew.flatMap OrdMap.keys).count k = occurrences vvNew k := by
  induction vvNew with
  | nil => rfl
  | cons vNew vvNew ih =>
    have hcons : occurrences (vNew :: vvNew) k =
        occurrences vvNew k + if k ∈ vNew.keys then 1 else 0 := by
      simp only [occurrences, List.countP_cons, decide_eq_true_eq]
    rw [List.flatMap_cons, List.count_append, ih, hcons, vNew.nodup_keys.count, Nat.add_comm]

namespace CAddrMan

variable {s : CAddrMan}

/-! ## Entries -/

structure EntryOk (s : CAddrMan) (n : ℕ) (info : CAddrInfo) : Prop where
  triedSuccess : info.fInTried = true → info.nLastSuccess ≠ 0
  triedRefs : info.fInTried = true → info.nRefCount = 0
  newRefs : info.fInTried = false →
    1 ≤ info.nRefCount ∧ info.nRefCount ≤ ADDRMAN_NEW_BUCKETS_PER_ADDRESS
  addr : (s.mapAddr info.toCNetAddr).getD 0 = n
  place : 0 ≤ info.nRandomPos ∧ s.vRandom[info.nRandomPos.toNat]? = some n
  nLastTry : 0 ≤ info.nLastTry
  nLastSuccess : 0 ≤ info.nLastSuccess

theorem code_eq_zero {c : Prop} [Decidable c] {code rest : ℤ} (hcode : code ≠ 0) :
    (if c then code else rest) = 0 ↔ ¬c ∧ rest = 0 := by
  by_cases h : c
  · rw [if_pos h]
    exact iff_of_false hcode fun hand => hand.1 h
  · rw [if_neg h, and_iff_right h]

theorem checkInfo_iff {n : ℕ} {info : CAddrInfo} : s.checkInfo n info = 0 ↔ s.EntryOk n info := by
  rw [checkInfo, code_eq_zero (by decide), code_eq_zero (by decide), code_eq_zero (by decide),
    code_eq_zero (by decide), code_eq_zero (by decide), code_eq_zero (by decide),
    code_eq_zero (by decide), code_eq_zero (by decide)]
  constructor
  · rintro ⟨h1, h2, h3, h4, h5, h6, h7, h8, -⟩
    rw [not_or, not_or, not_not] at h6
    refine ⟨fun ht hz => h1 ⟨ht, hz⟩, fun ht => not_not.mp fun hz => h2 ⟨ht, hz⟩, ?_,
      not_not.mp h5, ⟨not_lt.mp h6.1, h6.2.2⟩, not_lt.mp h7, not_lt.mp h8⟩
    intro hnew
    rw [hnew] at h3 h4
    have hrange : ¬(info.nRefCount < 0 ∨ ADDRMAN_NEW_BUCKETS_PER_ADDRESS < info.nRefCount) :=
      fun h => h3 ⟨Bool.false_ne_true, h⟩
    have hzero : ¬info.nRefCount = 0 := fun h => h4 ⟨Bool.false_ne_true, h⟩
    omega
  · intro h
    have hlt := (List.getElem?_eq_some_iff.mp h.place.2).1
    have hpos := h.place.1
    refine ⟨fun hand => h.triedSuccess hand.1 hand.2, fun hand => hand.2 (h.triedRefs hand.1), ?_, ?_,
      not_not.mpr h.addr, ?_, not_lt.mpr h.nLastTry, not_lt.mpr h.nLastSuccess, rfl⟩
    · rintro ⟨hnew, hrefs⟩
      have := h.newRefs (eq_false_of_ne_true hnew)
      omega
    · rintro ⟨hnew, hrefs⟩
      have := h.newRefs (eq_false_of_ne_true hnew)
      omega
    · rw [not_or, not_or, not_not]
      exact ⟨by omega, by omega, h.place.2⟩

/-! ## The walks -/

/-- What an entry adds to `mapNew`. -/
def newRefs (info : CAddrInfo) : Option ℤ := if info.fInTried then none else some info.nRefCount

theorem exists_tried_cons {n k : ℕ} {info : CAddrInfo} {it : List (ℕ × CAddrInfo)} :
    (∃ info', (k, info') ∈ (n, info) :: it ∧ info'.fInTried = true) ↔
      (k = n ∧ info.fInTried = true) ∨ ∃ info', (k, info') ∈ it ∧ info'.fInTried = true := by
  simp only [List.mem_cons, Prod.mk.injEq, or_and_right, exists_or, and_assoc, exists_and_left,
    exists_eq_left]

theorem checkInfos_spec {it : List (ℕ × CAddrInfo)} {setTried : OrdSet ℕ} {mapNew : OrdMap ℕ ℤ}
    (hgood : ∀ e ∈ it, s.checkInfo e.1 e.2 = 0) (hnodup : (it.map Prod.fst).Nodup) :
    ∃ setTried' mapNew', s.checkInfos it setTried mapNew = .ok (setTried', mapNew') ∧
      (∀ k, k ∈ setTried'.keys ↔ k ∈ setTried.keys ∨
        ∃ info, (k, info) ∈ it ∧ info.fInTried = true) ∧
      ∀ k, mapNew'.find k = ((it.lookup k).bind newRefs).or (mapNew.find k) := by
  induction it generalizing setTried mapNew with
  | nil => exact ⟨setTried, mapNew, rfl, by simp, by simp⟩
  | cons e it ih =>
    obtain ⟨n, info⟩ := e
    rw [List.map_cons, List.nodup_cons] at hnodup
    have hzero := hgood (n, info) List.mem_cons_self
    have hrest : ∀ e ∈ it, s.checkInfo e.1 e.2 = 0 :=
      fun e hmem => hgood e (List.mem_cons_of_mem _ hmem)
    have hnone : it.lookup n = none := by
      rw [List.lookup_eq_none_iff]
      intro e hmem
      rw [bne_iff_ne]
      intro heq
      exact hnodup.1 (List.mem_map.mpr ⟨e, hmem, heq.symm⟩)
    simp only [checkInfos, if_neg (not_not_intro hzero)]
    by_cases htried : info.fInTried = true
    · rw [if_pos htried]
      obtain ⟨setTried', mapNew', hrun, hset, hmap⟩ :=
        @ih (setTried.insert n ()) mapNew hrest hnodup.2
      refine ⟨setTried', mapNew', hrun, fun k => ?_, fun k => ?_⟩
      · rw [hset k, OrdMap.mem_keys_insert, exists_tried_cons, and_iff_left htried,
          or_comm (a := k = n), or_assoc]
      · rw [hmap k, OrdMap.lookup_cons]
        by_cases hk : k = n
        · rw [if_pos hk, hk, hnone]
          simp [newRefs, htried]
        · rw [if_neg hk]
    · rw [if_neg htried]
      obtain ⟨setTried', mapNew', hrun, hset, hmap⟩ :=
        @ih setTried (mapNew.insert n info.nRefCount) hrest hnodup.2
      refine ⟨setTried', mapNew', hrun, fun k => ?_, fun k => ?_⟩
      · rw [hset k, exists_tried_cons, or_iff_right (a := k = n ∧ _) fun hand => htried hand.2]
      · rw [hmap k, OrdMap.lookup_cons, OrdMap.find_insert]
        by_cases hk : k = n
        · rw [if_pos hk, if_pos hk, hk, hnone]
          simp [newRefs, htried]
        · rw [if_neg hk, if_neg hk]

theorem checkTried_spec {it : List ℕ} {setTried : OrdSet ℕ} (hperm : it.Perm setTried.keys) :
    ∃ setTried', checkTried it setTried = .ok setTried' ∧ setTried'.size = 0 := by
  induction it generalizing setTried with
  | nil => exact ⟨setTried, rfl, by rw [← OrdMap.length_keys, ← hperm.length_eq]; rfl⟩
  | cons nId it ih =>
    have hmem : nId ∈ setTried.keys := hperm.mem_iff.mp List.mem_cons_self
    have hrest : it.Perm (setTried.erase nId).keys :=
      (hperm.trans (OrdMap.perm_keys_erase hmem)).cons_inv
    rw [checkTried, if_neg (not_not_intro hmem)]
    exact ih hrest

/-- The map counts how often every id is still to come. -/
theorem checkNew_spec {it : List ℕ} {mapNew : OrdMap ℕ ℤ}
    (hcount : ∀ k, mapNew.find k = if it.count k = 0 then none else some (it.count k : ℤ)) :
    ∃ mapNew', checkNew it mapNew = .ok mapNew' ∧ mapNew'.size = 0 := by
  induction it generalizing mapNew with
  | nil => exact ⟨mapNew, rfl, OrdMap.size_eq_zero fun k => by rw [hcount k]; rfl⟩
  | cons nId it ih =>
    have hfind : mapNew.find nId = some (it.count nId + 1 : ℤ) := by
      rw [hcount nId, List.count_cons_self, if_neg (Nat.succ_ne_zero _)]
      rfl
    simp only [checkNew, hfind]
    have hother : ∀ k, k ≠ nId →
        mapNew.find k = if it.count k = 0 then none else some (it.count k : ℤ) := by
      intro k hk
      rw [hcount k, List.count_cons_of_ne (Ne.symm hk)]
    apply ih
    intro k
    by_cases hlast : (it.count nId : ℤ) + 1 - 1 = 0
    · rw [if_pos hlast, OrdMap.find_erase]
      by_cases hk : k = nId
      · rw [if_pos hk, hk, if_pos (by omega)]
      · rw [if_neg hk, hother k hk]
    · rw [if_neg hlast, OrdMap.find_insert]
      by_cases hk : k = nId
      · rw [if_pos hk, hk, if_neg (by omega), add_sub_cancel_right]
      · rw [if_neg hk, hother k hk]

/-! ## The walks, back from their results -/

theorem checkInfo_of_checkInfos {it : List (ℕ × CAddrInfo)} {r : OrdSet ℕ × OrdMap ℕ ℤ}
    (h : s.checkInfos it setTried mapNew = .ok r) : ∀ e ∈ it, s.checkInfo e.1 e.2 = 0 := by
  induction it generalizing setTried mapNew with
  | nil => exact List.forall_mem_nil _
  | cons e it ih =>
    obtain ⟨n, info⟩ := e
    rw [checkInfos] at h
    by_cases hzero : s.checkInfo n info = 0
    · rw [if_neg (not_not_intro hzero)] at h
      refine List.forall_mem_cons.mpr ⟨hzero, ?_⟩
      split at h
      next => exact ih h
      next => exact ih h
    · rw [if_pos hzero] at h
      cases h

theorem checkInfos_error {it : List (ℕ × CAddrInfo)}
    (h : s.checkInfos it setTried mapNew = .error e) : e ≠ 0 := by
  induction it generalizing setTried mapNew with
  | nil => cases h
  | cons entry it ih =>
    obtain ⟨n, info⟩ := entry
    rw [checkInfos] at h
    by_cases hzero : s.checkInfo n info = 0
    · rw [if_neg (not_not_intro hzero)] at h
      split at h
      next => exact ih h
      next => exact ih h
    · rw [if_pos hzero] at h
      rw [← Except.error.inj h]
      exact hzero

theorem checkTried_error (h : checkTried it setTried = .error e) : e ≠ 0 := by
  induction it generalizing setTried with
  | nil => cases h
  | cons nId it ih =>
    rw [checkTried] at h
    split at h
    next =>
      rw [← Except.error.inj h]
      decide
    next => exact ih h

theorem checkNew_error (h : checkNew it mapNew = .error e) : e ≠ 0 := by
  induction it generalizing mapNew with
  | nil => cases h
  | cons nId it ih =>
    rw [checkNew] at h
    split at h
    next =>
      rw [← Except.error.inj h]
      decide
    next => exact ih h

theorem perm_of_checkTried {setTried' : OrdSet ℕ} (h : checkTried it setTried = .ok setTried')
    (hempty : setTried'.size = 0) : it.Perm setTried.keys := by
  induction it generalizing setTried with
  | nil =>
    cases h
    rw [← OrdMap.length_keys, List.length_eq_zero_iff] at hempty
    rw [hempty]
  | cons nId it ih =>
    rw [checkTried] at h
    by_cases hmem : nId ∈ setTried.keys
    · rw [if_neg (not_not_intro hmem)] at h
      exact ((ih h).cons nId).trans (OrdMap.perm_keys_erase hmem).symm
    · rw [if_pos hmem] at h
      cases h

theorem count_of_checkNew {mapNew' : OrdMap ℕ ℤ} (h : checkNew it mapNew = .ok mapNew')
    (hempty : mapNew'.size = 0) (k : ℕ) :
    mapNew.find k = if it.count k = 0 then none else some (it.count k : ℤ) := by
  induction it generalizing mapNew with
  | nil =>
    rw [← Except.ok.inj h, ← OrdMap.length_keys, List.length_eq_zero_iff] at hempty
    cases hfind : mapNew.find k with
    | none => rfl
    | some r =>
      have hmem : k ∈ mapNew.keys := OrdMap.mem_keys.mpr (by rw [hfind]; rfl)
      rw [hempty] at hmem
      cases hmem
  | cons nId it ih =>
    rw [checkNew] at h
    cases hfind : mapNew.find nId with
    | none =>
      rw [hfind] at h
      cases h
    | some n =>
      rw [hfind] at h
      have hrest := ih h
      by_cases hlast : n - 1 = 0
      · rw [if_pos hlast, OrdMap.find_erase] at hrest
        by_cases hk : k = nId
        · have hzero : it.count k = 0 := by
            by_contra hne
            rw [if_pos hk, if_neg hne] at hrest
            cases hrest
          have hone : n = 1 := by omega
          rw [hk] at hzero ⊢
          rw [hfind, List.count_cons_self, hzero, hone]
          rfl
        · rw [if_neg hk] at hrest
          rw [hrest, List.count_cons_of_ne fun heq => hk heq.symm]
      · rw [if_neg hlast, OrdMap.find_insert] at hrest
        by_cases hk : k = nId
        · have hcount : it.count k ≠ 0 := by
            intro hzero
            rw [if_pos hk, if_pos hzero] at hrest
            cases hrest
          rw [if_pos hk, if_neg hcount, Option.some.injEq] at hrest
          rw [hk] at hcount hrest ⊢
          rw [hfind, List.count_cons_self, if_neg (Nat.succ_ne_zero _), Option.some.injEq]
          push_cast
          omega
        · rw [if_neg hk] at hrest
          rw [hrest, List.count_cons_of_ne fun heq => hk heq.symm]

/-! ## The check as a whole -/

def idsOf (s : CAddrMan) (fInTried : Bool) : List ℕ :=
  (s.mapInfo.entries.filter fun e => e.2.fInTried == fInTried).map Prod.fst

theorem nodup_idsOf (fInTried : Bool) : (s.idsOf fInTried).Nodup :=
  s.mapInfo.nodup_keys.sublist (List.filter_sublist.map Prod.fst)

theorem mem_idsOf {fInTried : Bool} {k : ℕ} :
    k ∈ s.idsOf fInTried ↔ ∃ info, s.mapInfo.find k = some info ∧ info.fInTried = fInTried := by
  simp only [idsOf, List.mem_map, List.mem_filter, beq_iff_eq, Prod.exists, exists_and_right,
    exists_eq_right, OrdMap.mem_entries]

theorem length_idsOf (fInTried : Bool) :
    (s.idsOf fInTried).length = s.mapInfo.entries.countP fun e => e.2.fInTried == fInTried := by
  rw [idsOf, List.length_map, List.countP_eq_length_filter]

structure Checked (s : CAddrMan) : Prop where
  total : (s.vRandom.length : ℤ) = s.nTried + s.nNew
  entry : ∀ n info, s.mapInfo.find n = some info → s.EntryOk n info
  nTried : s.nTried = (s.idsOf true).length
  nNew : s.nNew = (s.idsOf false).length
  tried : s.vvTried.flatten.Perm (s.idsOf true)
  new : ∀ k, (s.mapInfo.find k).bind newRefs =
    if occurrences s.vvNew k = 0 then none else some (occurrences s.vvNew k : ℤ)

/-- The two walks through the entries come to the ids of the two tables. -/
theorem tables_of_checkInfos
    (hset : ∀ k, k ∈ setTried.keys ↔ ∃ info, s.mapInfo.find k = some info ∧ info.fInTried = true)
    (hmap : ∀ k, mapNew.find k = (s.mapInfo.find k).bind newRefs) :
    setTried.keys.Perm (s.idsOf true) ∧ mapNew.keys.Perm (s.idsOf false) := by
  constructor
  · refine (List.perm_ext_iff_of_nodup setTried.nodup_keys (nodup_idsOf true)).mpr fun k => ?_
    rw [hset, mem_idsOf]
  · refine (List.perm_ext_iff_of_nodup mapNew.nodup_keys (nodup_idsOf false)).mpr fun k => ?_
    rw [mem_idsOf, OrdMap.mem_keys, hmap]
    cases s.mapInfo.find k with
    | none => simp
    | some info => simp [newRefs]

theorem checkInfos_entries (hgood : ∀ e ∈ s.mapInfo.entries, s.checkInfo e.1 e.2 = 0) :
    ∃ setTried mapNew, s.checkInfos s.mapInfo.entries .empty .empty = .ok (setTried, mapNew) ∧
      setTried.keys.Perm (s.idsOf true) ∧ mapNew.keys.Perm (s.idsOf false) ∧
      ∀ k, mapNew.find k = (s.mapInfo.find k).bind newRefs := by
  obtain ⟨setTried, mapNew, hinfos, hset, hmap⟩ :=
    @checkInfos_spec s s.mapInfo.entries .empty .empty hgood s.mapInfo.nodup_keys
  have htried : ∀ k, k ∈ setTried.keys ↔
      ∃ info, s.mapInfo.find k = some info ∧ info.fInTried = true := by
    intro k
    rw [hset k, or_iff_right (nofun)]
    simp only [OrdMap.mem_entries]
  have hnew : ∀ k, mapNew.find k = (s.mapInfo.find k).bind newRefs := by
    intro k
    rw [hmap k, OrdMap.find_empty, Option.or_none]
    rfl
  obtain ⟨hperm, hperm'⟩ := tables_of_checkInfos htried hnew
  exact ⟨setTried, mapNew, hinfos, hperm, hperm', hnew⟩

theorem Checked.check (h : s.Checked) : s.Check_ = 0 := by
  obtain ⟨setTried, mapNew, hinfos, hperm, hperm', hnew⟩ :=
    checkInfos_entries fun e he => checkInfo_iff.mpr (h.entry _ _ (OrdMap.mem_entries.mp he))
  have hsize : (setTried.size : ℤ) = s.nTried := by
    rw [← OrdMap.length_keys, hperm.length_eq, h.nTried]
  have hsizeNew : (mapNew.size : ℤ) = s.nNew := by
    rw [← OrdMap.length_keys, hperm'.length_eq, h.nNew]
  obtain ⟨setTried', hcheckTried, hempty⟩ := checkTried_spec (h.tried.trans hperm.symm)
  obtain ⟨mapNew', hcheckNew, hempty'⟩ := checkNew_spec fun k => by
    rw [count_flatMap_keys]
    exact (hnew k).trans (h.new k)
  rw [Check_, if_neg (not_not_intro h.total)]
  simp only [hinfos, if_neg (not_not_intro hsize), if_neg (not_not_intro hsizeNew), hcheckTried,
    hcheckNew, if_neg (not_not_intro hempty), if_neg (not_not_intro hempty')]

theorem checked_of_check (h : s.Check_ = 0) : s.Checked := by
  rw [Check_, code_eq_zero (by decide), not_not] at h
  obtain ⟨htotal, h⟩ := h
  cases hinfos : s.checkInfos s.mapInfo.entries .empty .empty with
  | error e =>
    rw [hinfos] at h
    exact absurd h (checkInfos_error hinfos)
  | ok r =>
    have hgood := checkInfo_of_checkInfos hinfos
    obtain ⟨setTried, mapNew, hinfos', hperm, hperm', hnew⟩ := checkInfos_entries hgood
    rw [hinfos'] at h
    dsimp only at h
    rw [code_eq_zero (by decide), not_not, code_eq_zero (by decide), not_not] at h
    obtain ⟨hsize, hsizeNew, h⟩ := h
    cases hcheckTried : checkTried s.vvTried.flatten setTried with
    | error e =>
      rw [hcheckTried] at h
      exact absurd h (checkTried_error hcheckTried)
    | ok setTried' =>
      cases hcheckNew : checkNew (s.vvNew.flatMap OrdMap.keys) mapNew with
      | error e =>
        rw [hcheckTried, hcheckNew] at h
        exact absurd h (checkNew_error hcheckNew)
      | ok mapNew' =>
        rw [hcheckTried, hcheckNew] at h
        dsimp only at h
        rw [code_eq_zero (by decide), not_not, code_eq_zero (by decide), not_not] at h
        obtain ⟨hempty, hempty', -⟩ := h
        refine ⟨htotal, fun n info hinfo => checkInfo_iff.mp
          (hgood (n, info) (OrdMap.mem_entries.mpr hinfo)), ?_, ?_, ?_, ?_⟩
        · rw [← hsize, ← OrdMap.length_keys, hperm.length_eq]
        · rw [← hsizeNew, ← OrdMap.length_keys, hperm'.length_eq]
        · exact (perm_of_checkTried hcheckTried hempty).trans hperm
        · intro k
          rw [← hnew, count_of_checkNew hcheckNew hempty', count_flatMap_keys]

theorem Check_iff : s.Check_ = 0 ↔ s.Checked := ⟨checked_of_check, Checked.check⟩

end CAddrMan

end Dions
