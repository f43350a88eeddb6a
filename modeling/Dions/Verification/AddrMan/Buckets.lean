import Dions.Verification.AddrMan.Table

/-! # The buckets

What the buckets hold is told by the status of every id: it is tried, or it is counted for the
"new" buckets it lies in. -/

namespace Dions

variable {vvNew : List (OrdSet ℕ)} {vNew : OrdSet ℕ} {nId : ℕ} {vvTried : List (List ℕ)}
  {m : OrdMap ℕ CAddrInfo}
variable {i : ℕ}

/-- Whether an id is tried, and its reference count; `none` for an id without entry. -/
abbrev Status := Option (Bool × ℤ)

def Status.tried : Status → ℕ
  | some (true, _) => 1
  | _ => 0

def Status.refs : Status → ℤ
  | some (_, r) => r
  | none => 0

def CAddrInfo.status (info : CAddrInfo) : Bool × ℤ := (info.fInTried, info.nRefCount)

def statusOf (m : OrdMap ℕ CAddrInfo) (nId : ℕ) : Status := (m.find nId).map CAddrInfo.status

/-- In how many "new" buckets an id is. -/
def occurrences (vvNew : List (OrdSet ℕ)) (nId : ℕ) : ℕ := vvNew.countP (nId ∈ OrdMap.keys ·)

/-- One more than its buckets is counted for the id that is on its way into one. -/
structure Booked (status : ℕ → Status) (vvTried : List (List ℕ)) (vvNew : List (OrdSet ℕ))
    (pending : Option ℕ) : Prop where
  tried : ∀ k, vvTried.flatten.count k = (status k).tried
  new : ∀ k, (occurrences vvNew k : ℤ) + (if pending = some k then 1 else 0) = (status k).refs
  triedRefs : ∀ k r, status k = some (true, r) → r = 0
  newRefs : ∀ k r, status k = some (false, r) → 1 ≤ r ∧ r ≤ ADDRMAN_NEW_BUCKETS_PER_ADDRESS
  triedCount : vvTried.length = ADDRMAN_TRIED_BUCKET_COUNT
  newCount : vvNew.length = ADDRMAN_NEW_BUCKET_COUNT
  triedSize : ∀ vTried ∈ vvTried, vTried.length ≤ ADDRMAN_TRIED_BUCKET_SIZE
  newSize : ∀ vNew ∈ vvNew, vNew.size ≤ ADDRMAN_NEW_BUCKET_SIZE

/-! ## Occurrences -/

theorem occurrences_pos (hbucket : vNew ∈ vvNew) (hmem : nId ∈ vNew.keys) :
    0 < occurrences vvNew nId :=
  List.countP_pos_iff.mpr ⟨vNew, hbucket, by simpa using hmem⟩

theorem occurrences_set (vNew' : OrdSet ℕ) (h : vvNew[i]? = some vNew) (k : ℕ) :
    occurrences (vvNew.set i vNew') k + (if k ∈ vNew.keys then 1 else 0) =
      occurrences vvNew k + (if k ∈ vNew'.keys then 1 else 0) := by
  have hset := Slots.countP_set (fun b : OrdSet ℕ => decide (k ∈ b.keys)) vNew' h
  simpa only [occurrences, decide_eq_true_eq] using hset

theorem occurrences_insert (h : vvNew[i]? = some vNew) (hmem : nId ∉ vNew.keys) (k : ℕ) :
    occurrences (vvNew.set i (vNew.insert nId ())) k =
      occurrences vvNew k + (if k = nId then 1 else 0) := by
  have hset := occurrences_set (vNew.insert nId ()) h k
  simp only [OrdMap.mem_keys_insert] at hset
  by_cases hk : k = nId
  · rw [if_pos hk]
    rw [hk, if_neg hmem, if_pos (.inl rfl)] at hset
    rw [hk]
    omega
  · rw [if_neg hk]
    simp only [hk, false_or] at hset
    omega

theorem occurrences_erase (h : vvNew[i]? = some vNew) (hmem : nId ∈ vNew.keys) (k : ℕ) :
    occurrences (vvNew.set i (vNew.erase nId)) k + (if k = nId then 1 else 0) =
      occurrences vvNew k := by
  have hset := occurrences_set (vNew.erase nId) h k
  simp only [OrdMap.mem_keys_erase] at hset
  by_cases hk : k = nId
  · rw [hk] at hset ⊢
    rw [if_pos hmem, if_neg (by simp)] at hset
    rw [if_pos rfl]
    omega
  · rw [if_neg hk]
    simp only [hk, ne_eq, not_false_eq_true, and_true] at hset
    omega

theorem occurrences_erase_all (vvNew : List (OrdSet ℕ)) (nId k : ℕ) :
    occurrences (vvNew.map (OrdMap.erase · nId)) k = if k = nId then 0 else occurrences vvNew k := by
  rw [occurrences, List.countP_map]
  by_cases hk : k = nId
  · rw [if_pos hk, List.countP_eq_zero]
    intro vNew _
    simp [hk]
  · rw [if_neg hk, occurrences]
    congr 1
    funext vNew
    simp [hk]

/-! ## Changes -/

theorem Booked.count {status : ℕ → Status} (h : Booked status vvTried vvNew none) {nId : ℕ}
    (htried : (status nId).tried = 0) (hmax : (status nId).refs < ADDRMAN_NEW_BUCKETS_PER_ADDRESS) :
    Booked (Function.update status nId (some (false, (status nId).refs + 1))) vvTried vvNew
      (some nId) := by
  have hnonneg : 0 ≤ (status nId).refs := by
    have hnew := h.new nId
    rw [if_neg (by simp)] at hnew
    omega
  refine ⟨?_, ?_, ?_, ?_, h.triedCount, h.newCount, h.triedSize, h.newSize⟩
  · intro k
    rw [h.tried k]
    by_cases hk : k = nId
    · rw [hk, Function.update_self, htried]
      rfl
    · rw [Function.update_of_ne hk]
  · intro k
    have hnew := h.new k
    rw [if_neg (by simp)] at hnew
    by_cases hk : k = nId
    · rw [hk] at hnew ⊢
      rw [if_pos rfl, Function.update_self]
      change _ = (status nId).refs + 1
      omega
    · rw [if_neg (by simpa using Ne.symm hk), Function.update_of_ne hk, hnew]
  · intro k r hstatus
    by_cases hk : k = nId
    · rw [hk, Function.update_self] at hstatus
      cases hstatus
    · rw [Function.update_of_ne hk] at hstatus
      exact h.triedRefs k r hstatus
  · intro k r hstatus
    by_cases hk : k = nId
    · rw [hk, Function.update_self] at hstatus
      cases hstatus
      omega
    · rw [Function.update_of_ne hk] at hstatus
      exact h.newRefs k r hstatus

/-- The id that is counted already is put into a bucket that has room. -/
theorem Booked.insert {status : ℕ → Status} (h : Booked status vvTried vvNew (some nId)) {i : ℕ}
    {vNew : OrdSet ℕ} (hbucket : vvNew[i]? = some vNew) (hmem : nId ∉ vNew.keys)
    (hroom : vNew.size < ADDRMAN_NEW_BUCKET_SIZE) :
    Booked status vvTried (vvNew.set i (vNew.insert nId ())) none := by
  refine ⟨h.tried, ?_, h.triedRefs, h.newRefs, h.triedCount, ?_, h.triedSize, ?_⟩
  · intro k
    have hnew := h.new k
    have hcount := occurrences_insert hbucket hmem k
    rw [if_neg (by simp), hcount]
    by_cases hk : k = nId
    · rw [if_pos hk]
      rw [if_pos (by rw [hk])] at hnew
      omega
    · rw [if_neg hk]
      rw [if_neg (by simpa using Ne.symm hk)] at hnew
      omega
  · rw [List.length_set, h.newCount]
  · apply Slots.forall_mem_set h.newSize
    rw [OrdMap.size_insert () hmem]
    exact hroom

/-- An id is taken out of a bucket and counted down, or forgotten if it was in no other. -/
theorem Booked.release {status : ℕ → Status} {pending : Option ℕ}
    (h : Booked status vvTried vvNew pending) {i nId : ℕ} {vNew : OrdSet ℕ}
    (hbucket : vvNew[i]? = some vNew) (hmem : nId ∈ vNew.keys) {r : ℤ}
    (hstatus : status nId = some (false, r)) :
    Booked (Function.update status nId (if r - 1 = 0 then none else some (false, r - 1))) vvTried
      (vvNew.set i (vNew.erase nId)) pending := by
  have hbounds := h.newRefs nId r hstatus
  refine ⟨?_, ?_, ?_, ?_, h.triedCount, ?_, h.triedSize, ?_⟩
  · intro k
    rw [h.tried k]
    by_cases hk : k = nId
    · rw [hk, Function.update_self, hstatus]
      split <;> rfl
    · rw [Function.update_of_ne hk]
  · intro k
    have hnew := h.new k
    have hcount := occurrences_erase hbucket hmem k
    by_cases hk : k = nId
    · rw [hk] at hnew hcount ⊢
      rw [hstatus] at hnew
      change _ = r at hnew
      rw [if_pos rfl] at hcount
      rw [Function.update_self]
      have hrefs : (Status.refs (if r - 1 = 0 then none else some (false, r - 1))) = r - 1 := by
        split
        next hzero => rw [hzero]; rfl
        next => rfl
      rw [hrefs]
      omega
    · rw [if_neg hk] at hcount
      rw [Function.update_of_ne hk, ← hnew, ← hcount, Nat.add_zero]
  · intro k r' hstatus'
    by_cases hk : k = nId
    · rw [hk, Function.update_self] at hstatus'
      split at hstatus' <;> cases hstatus'
    · rw [Function.update_of_ne hk] at hstatus'
      exact h.triedRefs k r' hstatus'
  · intro k r' hstatus'
    by_cases hk : k = nId
    · rw [hk, Function.update_self] at hstatus'
      split at hstatus'
      · cases hstatus'
      · cases hstatus'
        omega
    · rw [Function.update_of_ne hk] at hstatus'
      exact h.newRefs k r' hstatus'
  · rw [List.length_set, h.newCount]
  · have hsize := OrdMap.size_erase hmem
    have hle := h.newSize vNew (List.mem_of_getElem? hbucket)
    exact Slots.forall_mem_set h.newSize (by omega)

theorem Booked.push {status : ℕ → Status} {vvTried : List (List ℕ)} {vvNew : List (OrdSet ℕ)}
    (h : Booked status vvTried vvNew none) {nId : ℕ} (htried : (status nId).tried = 0) {i : ℕ}
    {vTried : List ℕ} (hbucket : vvTried[i]? = some vTried)
    (hroom : vTried.length < ADDRMAN_TRIED_BUCKET_SIZE) :
    Booked (Function.update status nId (some (true, 0))) (vvTried.set i (vTried ++ [nId]))
      (vvNew.map (OrdMap.erase · nId)) none := by
  refine ⟨?_, ?_, ?_, ?_, ?_, ?_, ?_, ?_⟩
  · intro k
    have hcount := Slots.count_flatten_set k (vTried ++ [nId]) hbucket
    rw [h.tried k, List.count_append, List.count_singleton] at hcount
    by_cases hk : k = nId
    · rw [hk] at hcount ⊢
      rw [htried] at hcount
      rw [Function.update_self]
      simp only [BEq.rfl, if_true] at hcount
      change _ = 1
      omega
    · rw [Function.update_of_ne hk]
      rw [if_neg (by simpa using Ne.symm hk)] at hcount
      omega
  · intro k
    have hnew := h.new k
    rw [if_neg (by simp)] at hnew ⊢
    rw [occurrences_erase_all]
    by_cases hk : k = nId
    · rw [if_pos hk, hk, Function.update_self]
      rfl
    · rw [if_neg hk, Function.update_of_ne hk, hnew]
  · intro k r hstatus
    by_cases hk : k = nId
    · rw [hk, Function.update_self] at hstatus
      cases hstatus
      rfl
    · rw [Function.update_of_ne hk] at hstatus
      exact h.triedRefs k r hstatus
  · intro k r hstatus
    by_cases hk : k = nId
    · rw [hk, Function.update_self] at hstatus
      cases hstatus
    · rw [Function.update_of_ne hk] at hstatus
      exact h.newRefs k r hstatus
  · rw [List.length_set, h.triedCount]
  · rw [List.length_map, h.newCount]
  · apply Slots.forall_mem_set h.triedSize
    rw [List.length_append, List.length_singleton]
    exact hroom
  · intro vNew hvNew
    obtain ⟨vOld, hvOld, rfl⟩ := List.mem_map.mp hvNew
    exact (List.length_filter_le _ _).trans (h.newSize vOld hvOld)

/-- The place of a tried entry goes to another id, and it goes back to a "new" bucket. -/
theorem Booked.evict {status : ℕ → Status} (h : Booked status vvTried vvNew none) {nId nOld : ℕ}
    (htried : (status nId).tried = 0) {i : ℕ} {vTried vTried' : List ℕ}
    (hbucket : vvTried[i]? = some vTried) (hperm : vTried'.Perm vTried) {nPos : ℕ}
    (hpos : vTried'[nPos]? = some nOld) {j : ℕ} {vNew : OrdSet ℕ}
    (hnew : (vvNew.map (OrdMap.erase · nId))[j]? = some vNew)
    (hroom : vNew.size < ADDRMAN_NEW_BUCKET_SIZE) :
    Booked (Function.update (Function.update status nOld (some (false, 1))) nId (some (true, 0)))
      (vvTried.set i (vTried'.set nPos nId))
      ((vvNew.map (OrdMap.erase · nId)).set j (vNew.insert nOld ())) none := by
  have hold : (status nOld).tried = 1 := by
    have hmem : nOld ∈ vvTried.flatten :=
      List.mem_flatten.mpr ⟨vTried, List.mem_of_getElem? hbucket,
        hperm.mem_iff.mp (List.mem_of_getElem? hpos)⟩
    have hcount := List.count_pos_iff.mpr hmem
    rw [h.tried nOld] at hcount
    generalize status nOld = x at hcount ⊢
    match x with
    | some (true, _) => rfl
    | some (false, _) => cases hcount
    | none => cases hcount
  have hne : nOld ≠ nId := by
    intro heq
    rw [heq, htried] at hold
    cases hold
  -- the entry that goes back is in no "new" bucket
  have hrefs : occurrences vvNew nOld = 0 := by
    have hcount := h.new nOld
    rw [if_neg (by simp)] at hcount
    generalize hx : status nOld = x at hold hcount
    match x with
    | some (true, r) =>
      have hzero := h.triedRefs nOld r hx
      change _ = r at hcount
      omega
    | some (false, _) => cases hold
    | none => cases hold
  have hout : nOld ∉ vNew.keys := by
    intro hmem
    have hpos' := occurrences_pos (List.mem_of_getElem? hnew) hmem
    rw [occurrences_erase_all, if_neg hne, hrefs] at hpos'
    cases hpos'
  refine ⟨?_, ?_, ?_, ?_, ?_, ?_, ?_, ?_⟩
  · intro k
    have hcount := Slots.count_flatten_set k (vTried'.set nPos nId) hbucket
    have hplace := Slots.countP_set (· == k) nId hpos
    simp only [← List.count_eq_countP] at hplace
    rw [h.tried k, ← hperm.count_eq k] at hcount
    by_cases hk : k = nId
    · rw [hk] at hcount hplace ⊢
      rw [htried] at hcount
      rw [if_neg (by simpa using hne), if_pos (by simp)] at hplace
      rw [Function.update_self]
      change _ = 1
      omega
    · rw [Function.update_of_ne hk]
      by_cases hk' : k = nOld
      · rw [hk'] at hcount hplace ⊢
        rw [hold] at hcount
        rw [if_pos (by simp), if_neg (by simpa using Ne.symm hne)] at hplace
        rw [Function.update_self]
        change _ = 0
        omega
      · rw [Function.update_of_ne hk']
        rw [if_neg (by simpa using Ne.symm hk'), if_neg (by simpa using Ne.symm hk)] at hplace
        omega
  · intro k
    have hcount := h.new k
    rw [if_neg (by simp)] at hcount ⊢
    rw [occurrences_insert hnew hout, occurrences_erase_all]
    by_cases hk : k = nId
    · rw [if_pos hk, if_neg (by rw [hk]; exact Ne.symm hne), hk, Function.update_self]
      rfl
    · rw [if_neg hk, Function.update_of_ne hk]
      by_cases hk' : k = nOld
      · rw [if_pos hk', hk', Function.update_self, hrefs]
        rfl
      · rw [if_neg hk', Function.update_of_ne hk', Nat.add_zero]
        exact hcount
  · intro k r hstatus
    by_cases hk : k = nId
    · rw [hk, Function.update_self] at hstatus
      cases hstatus
      rfl
    · rw [Function.update_of_ne hk] at hstatus
      by_cases hk' : k = nOld
      · rw [hk', Function.update_self] at hstatus
        cases hstatus
      · rw [Function.update_of_ne hk'] at hstatus
        exact h.triedRefs k r hstatus
  · intro k r hstatus
    by_cases hk : k = nId
    · rw [hk, Function.update_self] at hstatus
      cases hstatus
    · rw [Function.update_of_ne hk] at hstatus
      by_cases hk' : k = nOld
      · rw [hk', Function.update_self] at hstatus
        cases hstatus
        exact ⟨le_refl _, by decide⟩
      · rw [Function.update_of_ne hk'] at hstatus
        exact h.newRefs k r hstatus
  · rw [List.length_set, h.triedCount]
  · rw [List.length_set, List.length_map, h.newCount]
  · apply Slots.forall_mem_set h.triedSize
    rw [List.length_set, hperm.length_eq]
    exact h.triedSize vTried (List.mem_of_getElem? hbucket)
  · apply Slots.forall_mem_set
    · intro b hb
      obtain ⟨bOld, hbOld, rfl⟩ := List.mem_map.mp hb
      exact (List.length_filter_le _ _).trans (h.newSize bOld hbOld)
    · rw [OrdMap.size_insert () hout]
      exact hroom

/-! ## Entries -/

theorem statusOf_some {info : CAddrInfo} (h : m.find nId = some info) :
    statusOf m nId = some info.status := by
  rw [statusOf, h]
  rfl

theorem exists_entry {x : Bool × ℤ} (h : statusOf m nId = some x) :
    ∃ info, m.find nId = some info ∧ info.status = x := by
  rw [statusOf] at h
  exact Option.map_eq_some_iff.mp h

theorem Sets.statusOf {m' : OrdMap ℕ CAddrInfo} {info : Option CAddrInfo} (h : Sets m m' nId info) :
    Dions.statusOf m' = Function.update (Dions.statusOf m) nId (info.map CAddrInfo.status) := by
  funext k
  rw [Dions.statusOf, h k]
  by_cases hk : k = nId
  · rw [if_pos hk, hk, Function.update_self]
  · rw [if_neg hk, Function.update_of_ne hk]
    rfl

theorem SameEntries.statusOf {m' : OrdMap ℕ CAddrInfo} (h : SameEntries m m') :
    Dions.statusOf m' = Dions.statusOf m := by
  funext k
  have hk := congrArg (Option.map CAddrInfo.status) (h k)
  rw [Option.map_map, Option.map_map] at hk
  exact hk

/-- An id in a "new" bucket has an entry, and it is not tried. -/
theorem Booked.new_entry {pending : Option ℕ} (h : Booked (statusOf m) vvTried vvNew pending)
    {vNew : OrdSet ℕ} {nId : ℕ} (hbucket : vNew ∈ vvNew) (hmem : nId ∈ vNew.keys) :
    ∃ info, m.find nId = some info ∧ info.fInTried = false := by
  have hpos := occurrences_pos hbucket hmem
  have hnew := h.new nId
  generalize hx : statusOf m nId = x at hnew
  match x with
  | none =>
    change _ = 0 at hnew
    split at hnew <;> omega
  | some (true, r) =>
    have hzero := h.triedRefs nId r hx
    change _ = r at hnew
    split at hnew <;> omega
  | some (false, r) =>
    obtain ⟨info, hinfo, hstatus⟩ := exists_entry hx
    exact ⟨info, hinfo, congrArg Prod.fst hstatus⟩

theorem Booked.tried_entry {pending : Option ℕ} (h : Booked (statusOf m) vvTried vvNew pending)
    {vTried : List ℕ} {nId : ℕ} (hbucket : vTried ∈ vvTried) (hmem : nId ∈ vTried) :
    ∃ info, m.find nId = some info ∧ info.fInTried = true := by
  have hcount := List.count_pos_iff.mpr (List.mem_flatten.mpr ⟨vTried, hbucket, hmem⟩)
  rw [h.tried nId] at hcount
  generalize hx : statusOf m nId = x at hcount
  match x with
  | none => cases hcount
  | some (false, _) => cases hcount
  | some (true, r) =>
    obtain ⟨info, hinfo, hstatus⟩ := exists_entry hx
    exact ⟨info, hinfo, congrArg Prod.fst hstatus⟩

end Dions
