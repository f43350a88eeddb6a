import Dions.Verification.AddrMan.Buckets

/-! # The operations of the address manager

Every operation keeps the table and the buckets together, and none of its assertions fails. -/

namespace Dions

/-- The times of an entry; that of the last try is looked at only if `strict`. -/
structure CAddrInfo.Timely (strict : Bool) (info : CAddrInfo) : Prop where
  nLastSuccess : 0 ≤ info.nLastSuccess
  tried : info.fInTried = true → info.nLastSuccess ≠ 0
  nLastTry : strict = true → 0 ≤ info.nLastTry

theorem CAddrInfo.Timely.bare {strict : Bool} {info info' : CAddrInfo} (h : info.Timely strict)
    (hbare : info'.bare = info.bare) : info'.Timely strict := by
  obtain ⟨haddr, htried, -, hsuccess⟩ := CAddrInfo.bare_fields hbare
  exact ⟨by rw [hsuccess]; exact h.nLastSuccess, by rw [htried, hsuccess]; exact h.tried,
    by rw [haddr]; exact h.nLastTry⟩

namespace CAddrMan

/-- The table, the number of entries and their times. -/
structure Filed (strict : Bool) (s : CAddrMan) : Prop where
  indexed : Tabled s.mapInfo s.mapAddr s.vRandom
  total : (s.vRandom.length : ℤ) = s.nTried + s.nNew
  fresh : ∀ nId info, s.mapInfo.find nId = some info → nId < s.nIdCount
  timely : ∀ nId info, s.mapInfo.find nId = some info → info.Timely strict

/-- What holds between two operations, and within one while the id `pending` is on its way into a
"new" bucket. -/
structure Inv (strict : Bool) (pending : Option ℕ) (s : CAddrMan) : Prop
    extends Filed strict s where
  booked : Booked (statusOf s.mapInfo) s.vvTried s.vvNew pending
  nTried : s.nTried = s.vvTried.flatten.length

theorem empty_inv (strict : Bool) (nKey : List UInt8) : (empty nKey).Inv strict none := by
  have hstatus : ∀ k, statusOf (empty nKey).mapInfo k = none := fun _ => rfl
  have hflatten : (empty nKey).vvTried.flatten = [] := by
    simp [empty]
  have hocc : ∀ k, occurrences (empty nKey).vvNew k = 0 := by
    intro k
    apply List.countP_eq_zero.mpr
    intro vNew hmem
    rw [List.eq_of_mem_replicate hmem]
    simp [OrdMap.keys, OrdMap.empty]
  refine ⟨⟨⟨.nil, ?_, ?_, ?_⟩, rfl, ?_, ?_⟩, ⟨?_, ?_, ?_, ?_, ?_, ?_, ?_, ?_⟩, ?_⟩
  · intro nId
    simp [empty]
  · intro nId info hfind
    cases hfind
  · intro a nId
    simp [empty]
  · intro nId info hfind
    cases hfind
  · intro nId info hfind
    cases hfind
  · intro k
    rw [hflatten, hstatus k]
    rfl
  · intro k
    rw [hocc k, hstatus k]
    rfl
  · intro k r h
    rw [hstatus k] at h
    cases h
  · intro k r h
    rw [hstatus k] at h
    cases h
  · exact List.length_replicate
  · exact List.length_replicate
  · intro vTried hmem
    rw [List.eq_of_mem_replicate hmem]
    decide
  · intro vNew hmem
    rw [List.eq_of_mem_replicate hmem]
    decide
  · rw [hflatten]
    rfl

variable {strict : Bool} {pending : Option ℕ} {s : CAddrMan}

theorem Find_spec (h : s.Filed strict) {a : CNetAddr} {nId : ℕ} {info : CAddrInfo}
    (hfind : s.Find a = some (nId, info)) :
    s.mapInfo.find nId = some info ∧ info.toCNetAddr = a := by
  unfold Find at hfind
  split at hfind
  · cases hfind
  next k hmap =>
    obtain ⟨info', hinfo', ha⟩ := (h.indexed.addr a k).mp hmap
    rw [hinfo', Option.map_some, Option.some.injEq] at hfind
    cases hfind
    exact ⟨hinfo', ha⟩

theorem Find_none (h : s.Filed strict) {a : CNetAddr} (hfind : s.Find a = none) :
    s.mapAddr a = none := by
  cases hmap : s.mapAddr a with
  | none => rfl
  | some nId =>
    obtain ⟨info, hinfo, -⟩ := (h.indexed.addr a nId).mp hmap
    simp only [Find, hmap, hinfo] at hfind
    cases hfind

/-! ## Changes of one entry -/

/-- An entry keeps its address and its place. -/
theorem Filed.entry (h : s.Filed strict) {nId : ℕ} {info : CAddrInfo} (info' : CAddrInfo)
    (hinfo : s.mapInfo.find nId = some info) (haddr : info'.toCNetAddr = info.toCNetAddr)
    (hpos : info'.nRandomPos = info.nRandomPos) (htimely : info'.Timely strict) :
    (s.setInfo nId info').Filed strict := by
  have hsets := sets_insert s.mapInfo nId info'
  refine ⟨h.indexed.update hinfo hsets haddr hpos, h.total, ?_, ?_⟩
  · exact hsets.forall h.fresh fun _ _ => h.fresh nId info hinfo
  · refine hsets.forall h.timely fun info₁ heq => ?_
    rw [← Option.some.inj heq]
    exact htimely

theorem statusOf_setInfo (s : CAddrMan) (nId : ℕ) (info : CAddrInfo) :
    statusOf (s.setInfo nId info).mapInfo =
      Function.update (statusOf s.mapInfo) nId (some info.status) :=
  (sets_insert s.mapInfo nId info).statusOf

/-- Another time, another number of attempts, other services. -/
theorem Inv.setInfo (h : s.Inv strict pending) {nId : ℕ} {info : CAddrInfo} (info' : CAddrInfo)
    (hinfo : s.mapInfo.find nId = some info) (haddr : info'.toCNetAddr = info.toCNetAddr)
    (hpos : info'.nRandomPos = info.nRandomPos) (hstatus : info'.status = info.status)
    (htimely : info'.Timely strict) : (s.setInfo nId info').Inv strict pending := by
  refine ⟨h.entry info' hinfo haddr hpos htimely, ?_, h.nTried⟩
  rw [statusOf_setInfo, hstatus, ← statusOf_some hinfo, Function.update_eq_self]
  exact h.booked

theorem Inv.count (h : s.Inv strict none) {nId : ℕ} {info : CAddrInfo}
    (hinfo : s.mapInfo.find nId = some info) (htried : info.fInTried = false)
    (hmax : info.nRefCount < ADDRMAN_NEW_BUCKETS_PER_ADDRESS) :
    (s.setInfo nId { info with nRefCount := info.nRefCount + 1 }).Inv strict (some nId) := by
  have hstatus : statusOf s.mapInfo nId = some (false, info.nRefCount) := by
    rw [statusOf_some hinfo, CAddrInfo.status, htried]
  have hcount := h.booked.count (by rw [hstatus]; rfl) (by rw [hstatus]; exact hmax)
  have htimely := h.timely nId info hinfo
  refine ⟨h.entry _ hinfo rfl rfl ⟨htimely.nLastSuccess, htimely.tried, htimely.nLastTry⟩, ?_,
    h.nTried⟩
  rw [hstatus] at hcount
  rw [statusOf_setInfo, CAddrInfo.status, htried]
  exact hcount

/-! ## Exchange -/

theorem SwapRandom_spec {nRndPos1 nRndPos2 : ℕ} (h : Tabled s.mapInfo s.mapAddr s.vRandom)
    (h₁ : nRndPos1 < s.vRandom.length) (h₂ : nRndPos2 < s.vRandom.length) :
    ∃ m vRandom, s.SwapRandom nRndPos1 nRndPos2 = .ok { s with mapInfo := m, vRandom } ∧
      Tabled m s.mapAddr vRandom ∧ SameEntries s.mapInfo m ∧ vRandom.Perm s.vRandom ∧
      vRandom[nRndPos2]? = s.vRandom[nRndPos1]? := by
  unfold SwapRandom
  by_cases heq : nRndPos1 = nRndPos2
  · rw [if_pos heq]
    exact ⟨s.mapInfo, s.vRandom, rfl, h, fun _ => rfl, .refl _, by rw [heq]⟩
  · rw [if_neg heq]
    have hi := List.getElem?_eq_getElem h₁
    have hj := List.getElem?_eq_getElem h₂
    obtain ⟨info₁, hinfo₁⟩ := (h.mem _).mp (List.mem_of_getElem? hi)
    obtain ⟨info₂, hinfo₂⟩ := (h.mem _).mp (List.mem_of_getElem? hj)
    obtain ⟨hindexed, hsame⟩ := h.swap heq hi hj hinfo₁ hinfo₂
    simp only [hi, hj, hinfo₁, hinfo₂]
    refine ⟨_, _, rfl, hindexed, hsame, Slots.swap_perm hi hj, ?_⟩
    rw [Slots.getElem?_swap hi hj, if_pos rfl]

/-- The other parts do not see where an entry lies in `vRandom`. -/
theorem Filed.places (h : s.Filed strict) {m : OrdMap ℕ CAddrInfo} {vRandom : List ℕ}
    (hindexed : Tabled m s.mapAddr vRandom) (hsame : SameEntries s.mapInfo m)
    (hperm : vRandom.Perm s.vRandom) : Filed strict { s with mapInfo := m, vRandom } := by
  refine ⟨hindexed, ?_, ?_, ?_⟩
  · change (vRandom.length : ℤ) = _
    rw [hperm.length_eq]
    exact h.total
  · intro nId info hfind
    obtain ⟨info', hinfo', -⟩ := hsame.find' hfind
    exact h.fresh nId info' hinfo'
  · intro nId info hfind
    obtain ⟨info', hinfo', hbare⟩ := hsame.find' hfind
    exact (h.timely nId info' hinfo').bare hbare

theorem Inv.swap (h : s.Inv strict pending) {nRndPos1 nRndPos2 : ℕ}
    (h₁ : nRndPos1 < s.vRandom.length) (h₂ : nRndPos2 < s.vRandom.length) :
    ∃ s', s.SwapRandom nRndPos1 nRndPos2 = .ok s' ∧ s'.Inv strict pending ∧
      s'.vRandom.length = s.vRandom.length := by
  obtain ⟨m, vRandom, hswap, hindexed, hsame, hperm, -⟩ := SwapRandom_spec h.indexed h₁ h₂
  refine ⟨_, hswap, ⟨h.places hindexed hsame hperm, ?_, h.nTried⟩, hperm.length_eq⟩
  change Booked (statusOf m) _ _ _
  rw [hsame.statusOf]
  exact h.booked

/-! ## `ShrinkNew` -/

/-- An entry is exchanged with the last one and taken off. -/
theorem Filed.forget (h : s.Filed strict) {nId : ℕ} {info : CAddrInfo}
    (hinfo : s.mapInfo.find nId = some info) :
    ∃ m vRandom, s.SwapRandom info.nRandomPos.toNat (s.vRandom.length - 1) =
        .ok { s with mapInfo := m, vRandom } ∧
      Filed strict
        { s with
          vRandom := vRandom.dropLast
          mapAddr := Function.update s.mapAddr info.toCNetAddr none
          mapInfo := m.erase nId
          nNew := s.nNew - 1 } ∧
      statusOf (m.erase nId) = Function.update (statusOf s.mapInfo) nId none := by
  obtain ⟨p, hp, hplace⟩ := h.indexed.pos nId info hinfo
  have hlt := (List.getElem?_eq_some_iff.mp hplace).1
  have hlast : s.vRandom.length - 1 < s.vRandom.length := by omega
  obtain ⟨m, vRandom, hswap, hindexed, hsame, hperm, hend⟩ := SwapRandom_spec h.indexed hlt hlast
  have hlen := hperm.length_eq
  have hsplit : vRandom.dropLast ++ [nId] = vRandom := by
    apply List.dropLast_append_getLast?
    rw [List.getLast?_eq_getElem?, hlen, hend, hplace]
    rfl
  obtain ⟨info', hinfo', hbare⟩ := hsame.find hinfo
  have haddr : info'.toCNetAddr = info.toCNetAddr := by rw [(CAddrInfo.bare_fields hbare).1]
  have hremoved := sets_erase m nId
  have hplaces := h.places hindexed hsame hperm
  refine ⟨m, vRandom, by rw [hp, Int.toNat_natCast, hswap], ⟨?_, ?_, ?_, ?_⟩, ?_⟩
  · rw [← hsplit] at hindexed
    rw [← haddr]
    exact hindexed.remove hinfo' hremoved
  · change (vRandom.dropLast.length : ℤ) = s.nTried + (s.nNew - 1)
    have htotal := h.total
    rw [List.length_dropLast, hlen]
    omega
  · exact hremoved.forall hplaces.fresh fun _ heq => nomatch heq
  · exact hremoved.forall hplaces.timely fun _ heq => nomatch heq
  · rw [hremoved.statusOf, hsame.statusOf]
    rfl

theorem dropNew_spec (h : s.Inv strict pending) {nUBucket nId : ℕ} {vNew : OrdSet ℕ}
    (hbucket : s.vvNew[nUBucket]? = some vNew) (hmem : nId ∈ vNew.keys) :
    ∃ s', s.dropNew nUBucket vNew nId = .ok s' ∧ s'.Inv strict pending ∧
      s'.vvNew = s.vvNew.set nUBucket (vNew.erase nId) := by
  obtain ⟨info, hinfo, htried⟩ := h.booked.new_entry (List.mem_of_getElem? hbucket) hmem
  have hstatus : statusOf s.mapInfo nId = some (false, info.nRefCount) := by
    rw [statusOf_some hinfo, CAddrInfo.status, htried]
  have hreleased := h.booked.release hbucket hmem hstatus
  have htimely := h.timely nId info hinfo
  have hfiled := h.entry { info with nRefCount := info.nRefCount - 1 } hinfo rfl rfl
    ⟨htimely.nLastSuccess, htimely.tried, htimely.nLastTry⟩
  simp only [dropNew, hinfo]
  by_cases hzero : info.nRefCount - 1 = 0
  · rw [if_pos hzero] at hreleased ⊢
    obtain ⟨m, vRandom, hswap, hforget, hnone⟩ :=
      hfiled.forget (sets_insert s.mapInfo nId { info with nRefCount := info.nRefCount - 1 }).self
    dsimp only at hswap
    rw [hswap]
    refine ⟨_, rfl, ⟨⟨hforget.indexed, hforget.total, hforget.fresh, hforget.timely⟩, ?_,
      h.nTried⟩, rfl⟩
    change Booked (statusOf (m.erase nId)) s.vvTried _ pending
    rw [hnone, statusOf_setInfo, Function.update_idem]
    exact hreleased
  · rw [if_neg hzero] at hreleased ⊢
    refine ⟨_, rfl, ⟨⟨hfiled.indexed, hfiled.total, hfiled.fresh, hfiled.timely⟩, ?_, h.nTried⟩,
      rfl⟩
    change Booked (statusOf (s.setInfo nId _).mapInfo) s.vvTried _ pending
    rw [statusOf_setInfo, CAddrInfo.status, htried]
    exact hreleased

theorem firstTerrible_spec (s : CAddrMan) (now : ℕ → ℤ) {k : ℕ} {it : List ℕ}
    (h : ∀ nId ∈ it, ∃ info, s.mapInfo.find nId = some info) :
    ∃ found, s.firstTerrible now k it = .ok found ∧ ∀ nId, found = some nId → nId ∈ it := by
  induction it generalizing k with
  | nil => exact ⟨none, rfl, fun _ heq => nomatch heq⟩
  | cons nId it ih =>
    obtain ⟨info, hinfo⟩ := h nId List.mem_cons_self
    simp only [firstTerrible, hinfo]
    by_cases hterrible : info.IsTerrible (now k) = true
    · rw [if_pos hterrible]
      refine ⟨some nId, rfl, fun nId' heq => ?_⟩
      rw [← Option.some.inj heq]
      exact List.mem_cons_self
    · rw [if_neg hterrible]
      obtain ⟨found, hrun, hfound⟩ := @ih (k + 1) fun nId' hmem => h nId' (List.mem_cons_of_mem _ hmem)
      exact ⟨found, hrun, fun nId' heq => List.mem_cons_of_mem _ (hfound nId' heq)⟩

/-- One of the entries at the positions is found if a position is in the bucket. -/
theorem oldestAmong_spec (s : CAddrMan) (n : List ℕ) {nI : ℕ} {nOldest : Option ℕ} {it : List ℕ}
    (h : ∀ nId ∈ it, ∃ info, s.mapInfo.find nId = some info)
    (hold : ∀ nId, nOldest = some nId → ∃ info, s.mapInfo.find nId = some info) :
    ∃ found, s.oldestAmong n nI nOldest it = .ok found ∧
      (∀ nId, found = some nId → nId ∈ it ∨ nOldest = some nId) ∧
      (nOldest ≠ none ∨ (∃ k, k < it.length ∧ nI + k ∈ n) → found ≠ none) := by
  induction it generalizing nI nOldest with
  | nil =>
    refine ⟨nOldest, rfl, fun _ heq => .inr heq, ?_⟩
    intro hor
    cases hor with
    | inl hne => exact hne
    | inr hex =>
      obtain ⟨k, hk, -⟩ := hex
      cases hk
  | cons nId it ih =>
    have hrest : ∀ nId' ∈ it, ∃ info, s.mapInfo.find nId' = some info :=
      fun nId' hmem => h nId' (List.mem_cons_of_mem _ hmem)
    obtain ⟨info, hinfo⟩ := h nId List.mem_cons_self
    have hthis : ∀ nId', some nId = some nId' → ∃ info, s.mapInfo.find nId' = some info := by
      intro nId' heq
      rw [← Option.some.inj heq]
      exact ⟨info, hinfo⟩
    -- the rest of the walk, with or without this entry
    obtain ⟨found₁, hrun₁, hfound₁, hsome₁⟩ := @ih (nI + 1) (some nId) hrest hthis
    obtain ⟨found₂, hrun₂, hfound₂, hsome₂⟩ := @ih (nI + 1) nOldest hrest hold
    have htake : ∃ found, s.oldestAmong n (nI + 1) (some nId) it = .ok found ∧
        (∀ nId', found = some nId' → nId' ∈ nId :: it ∨ nOldest = some nId') ∧ found ≠ none := by
      refine ⟨found₁, hrun₁, ?_, hsome₁ (.inl nofun)⟩
      intro nId' heq
      cases hfound₁ nId' heq with
      | inl hmem => exact .inl (List.mem_cons_of_mem _ hmem)
      | inr heq' => rw [← Option.some.inj heq']; exact .inl List.mem_cons_self
    have hkeep : ∀ nId', found₂ = some nId' → nId' ∈ nId :: it ∨ nOldest = some nId' := by
      intro nId' heq
      cases hfound₂ nId' heq with
      | inl hmem => exact .inl (List.mem_cons_of_mem _ hmem)
      | inr heq' => exact .inr heq'
    by_cases hpos : nI ∈ n
    · simp only [oldestAmong, if_pos hpos]
      cases nOldest with
      | none =>
        obtain ⟨found, hrun, hfound, hne⟩ := htake
        exact ⟨found, hrun, hfound, fun _ => hne⟩
      | some nOld =>
        obtain ⟨infoOld, hinfoOld⟩ := hold nOld rfl
        simp only [hinfo, hinfoOld]
        by_cases hlt : info.nTime < infoOld.nTime
        · rw [if_pos hlt]
          obtain ⟨found, hrun, hfound, hne⟩ := htake
          exact ⟨found, hrun, hfound, fun _ => hne⟩
        · rw [if_neg hlt]
          exact ⟨found₂, hrun₂, hkeep, fun _ => hsome₂ (.inl nofun)⟩
    · simp only [oldestAmong, if_neg hpos]
      refine ⟨found₂, hrun₂, hkeep, fun hor => hsome₂ ?_⟩
      cases hor with
      | inl hne => exact .inl hne
      | inr hex =>
        obtain ⟨k, hk, hmem⟩ := hex
        cases k with
        | zero => exact absurd hmem hpos
        | succ k =>
          rw [List.length_cons] at hk
          exact .inr ⟨k, by omega, by rwa [Nat.add_assoc, Nat.add_comm 1 k]⟩

theorem GetRandInt_lt (r : ℕ) {nMax : ℕ} (h : 0 < nMax) : GetRandInt r nMax < nMax := by
  rw [GetRandInt, if_neg (by omega)]
  exact Nat.mod_lt r h

/-- An entry of the bucket is taken out of it. -/
theorem ShrinkNew_spec (h : s.Inv strict pending) {nUBucket : ℕ} {vNew : OrdSet ℕ}
    (hbucket : s.vvNew[nUBucket]? = some vNew) (hsize : 0 < vNew.size) (rand : ℕ → ℕ)
    (now : ℕ → ℤ) :
    ∃ s' result nId, s.ShrinkNew nUBucket rand now = .ok (s', result) ∧ s'.Inv strict pending ∧
      nId ∈ vNew.keys ∧ s'.vvNew = s.vvNew.set nUBucket (vNew.erase nId) := by
  have hentry : ∀ nId ∈ vNew.keys, ∃ info, s.mapInfo.find nId = some info := by
    intro nId hmem
    obtain ⟨info, hinfo, -⟩ := h.booked.new_entry (List.mem_of_getElem? hbucket) hmem
    exact ⟨info, hinfo⟩
  obtain ⟨found, hfirst, hfound⟩ := @firstTerrible_spec s now 0 _ hentry
  simp only [ShrinkNew, hbucket, hfirst]
  cases found with
  | some nId =>
    have hmem := hfound nId rfl
    obtain ⟨s', hdrop, hinv, hnew⟩ := dropNew_spec h hbucket hmem
    exact ⟨s', 0, nId, by simp only [hdrop]; rfl, hinv, hmem, hnew⟩
  | none =>
    obtain ⟨found, hrun, hfound, hsome⟩ := @oldestAmong_spec s
      [GetRandInt (rand 0) vNew.size, GetRandInt (rand 1) vNew.size, GetRandInt (rand 2) vNew.size,
        GetRandInt (rand 3) vNew.size] 0 none _ hentry fun _ heq => nomatch heq
    simp only [hrun]
    have hne := hsome (.inr ⟨GetRandInt (rand 0) vNew.size, by
      rw [OrdMap.length_keys]; exact GetRandInt_lt _ hsize, by simp⟩)
    cases found with
    | none => exact absurd rfl hne
    | some nOldest =>
      have hmem : nOldest ∈ vNew.keys := by
        cases hfound nOldest rfl with
        | inl hmem => exact hmem
        | inr heq => cases heq
      obtain ⟨s', hdrop, hinv, hnew⟩ := dropNew_spec h hbucket hmem
      exact ⟨s', 1, nOldest, by simp only [hdrop]; rfl, hinv, hmem, hnew⟩

end CAddrMan

end Dions
