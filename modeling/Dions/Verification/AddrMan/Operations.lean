import Dions.Verification.AddrMan.Steps

/-! # Adding and moving entries -/

namespace Dions

namespace CAddrMan

variable {strict : Bool} {pending : Option ℕ} {s : CAddrMan}

/-! ## Into a "new" bucket -/

theorem Inv.insert {nId : ℕ} (h : s.Inv strict (some nId)) {i : ℕ} {vNew : OrdSet ℕ}
    (hbucket : s.vvNew[i]? = some vNew) (hmem : nId ∉ vNew.keys)
    (hroom : vNew.size < ADDRMAN_NEW_BUCKET_SIZE) :
    Inv strict none { s with vvNew := s.vvNew.set i (vNew.insert nId ()) } :=
  ⟨⟨h.indexed, h.total, h.fresh, h.timely⟩, h.booked.insert hbucket hmem hroom, h.nTried⟩

theorem GetNewBucket_lt (Hash : List UInt8 → ℕ) (nKey : List UInt8) (info : CAddrInfo)
    (src : CNetAddr) : info.GetNewBucket Hash nKey src < ADDRMAN_NEW_BUCKET_COUNT :=
  Nat.mod_lt _ (by decide)

theorem GetTriedBucket_lt (Hash : List UInt8 → ℕ) (nKey : List UInt8) (info : CAddrInfo) :
    info.GetTriedBucket Hash nKey < ADDRMAN_TRIED_BUCKET_COUNT :=
  Nat.mod_lt _ (by decide)

theorem placeNew_spec (Hash : List UInt8 → ℕ) {nId : ℕ} {info : CAddrInfo} (source : CNetAddr)
    (rand : ℕ → ℕ) (now : ℕ → ℤ)
    (hstay : ∀ vNew ∈ s.vvNew, nId ∈ vNew.keys → s.Inv strict none)
    (hup : (s.setInfo nId { info with nRefCount := info.nRefCount + 1 }).Inv strict (some nId)) :
    ∃ s', s.placeNew Hash nId info source rand now = .ok s' ∧ s'.Inv strict none := by
  have hlt : info.GetNewBucket Hash s.nKey source < s.vvNew.length := by
    have hcount : s.vvNew.length = ADDRMAN_NEW_BUCKET_COUNT := hup.booked.newCount
    rw [hcount]
    exact GetNewBucket_lt Hash s.nKey info source
  obtain ⟨vNew, hbucket⟩ : ∃ vNew, s.vvNew[info.GetNewBucket Hash s.nKey source]? = some vNew :=
    ⟨_, List.getElem?_eq_getElem hlt⟩
  simp only [placeNew, hbucket]
  by_cases hmem : nId ∈ vNew.keys
  · rw [if_pos hmem]
    exact ⟨s, rfl, hstay vNew (List.mem_of_getElem? hbucket) hmem⟩
  · rw [if_neg hmem]
    have hbucket' : (s.setInfo nId { info with nRefCount := info.nRefCount + 1 }).vvNew[
        info.GetNewBucket Hash s.nKey source]? = some vNew := hbucket
    by_cases hfull : vNew.size = ADDRMAN_NEW_BUCKET_SIZE
    · have hpos : 0 < vNew.size := by
        rw [hfull]
        decide
      obtain ⟨s', result, nOut, hshrink, hinv, hout, hnew⟩ :=
        ShrinkNew_spec hup hbucket' hpos rand now
      have hplace : s'.vvNew[info.GetNewBucket Hash s.nKey source]? = some (vNew.erase nOut) := by
        rw [hnew, Slots.getElem?_set_some _ hbucket', if_pos rfl]
      have hsize := OrdMap.size_erase hout
      have hinsert := hinv.insert hplace (fun hin => hmem (OrdMap.mem_keys_erase.mp hin).1)
        (by omega)
      exact ⟨_, by simp only [if_pos hfull, hshrink, hplace], hinsert⟩
    · have hle := hup.booked.newSize vNew (List.mem_of_getElem? hbucket')
      exact ⟨_, by simp only [if_neg hfull, hbucket'], hup.insert hbucket' hmem (by omega)⟩

theorem Create_spec (h : s.Inv strict none) {addr : CAddress} (source : CNetAddr)
    (haddr : s.mapAddr addr.toCNetAddr = none) :
    (s.Create addr source = .error .overflow ∧ 2 ^ 31 - 1 ≤ s.nIdCount) ∨
      ∃ s' info, s.Create addr source = .ok (s', s.nIdCount) ∧
        s'.mapInfo.find s.nIdCount = some info ∧ (∀ vNew ∈ s'.vvNew, s.nIdCount ∉ vNew.keys) ∧
        ∀ nTime, Inv strict (some s.nIdCount)
          { (s'.setInfo s.nIdCount { info with nTime }).setInfo s.nIdCount
              { info with nTime, nRefCount := info.nRefCount + 1 } with
            nNew := s'.nNew + 1 } := by
  by_cases hmax : 2 ^ 31 - 1 ≤ s.nIdCount
  · exact .inl ⟨if_pos hmax, hmax⟩
  right
  have hnone : s.mapInfo.find s.nIdCount = none := by
    cases hfind : s.mapInfo.find s.nIdCount with
    | none => rfl
    | some info => exact absurd (h.fresh _ info hfind) (lt_irrefl _)
  have hstatus : statusOf s.mapInfo s.nIdCount = none := by
    rw [statusOf, hnone]
    rfl
  let info : CAddrInfo :=
    { CAddrInfo.ofAddress addr source with nRandomPos := s.vRandom.length }
  refine ⟨_, info, if_neg hmax, ?_, ?_, ?_⟩
  · rw [OrdMap.find_insert, if_pos rfl]
  · intro vNew hbucket hmem
    obtain ⟨old, hold, -⟩ := h.booked.new_entry hbucket hmem
    rw [hnone] at hold
    cases hold
  · intro nTime
    have hsets : Sets s.mapInfo (((s.mapInfo.insert s.nIdCount info).insert s.nIdCount
        { info with nTime }).insert s.nIdCount { info with nTime, nRefCount := info.nRefCount + 1 })
        s.nIdCount (some { info with nTime, nRefCount := info.nRefCount + 1 }) :=
      ((sets_insert s.mapInfo s.nIdCount info).insert _).insert _
    have hcount := h.booked.count (show (statusOf s.mapInfo s.nIdCount).tried = 0 by
      rw [hstatus]; rfl) (show (statusOf s.mapInfo s.nIdCount).refs < _ by rw [hstatus]; decide)
    rw [hstatus] at hcount
    refine ⟨⟨h.indexed.create hnone haddr hsets rfl, ?_, ?_, ?_⟩, ?_, h.nTried⟩
    · change ((s.vRandom ++ [s.nIdCount]).length : ℤ) = s.nTried + (s.nNew + 1)
      have htotal := h.total
      rw [List.length_append, List.length_singleton]
      omega
    · refine hsets.forall (fun k info' hfind => ?_) fun _ _ => Nat.lt_succ_self _
      exact Nat.lt_succ_of_lt (h.fresh k info' hfind)
    · refine hsets.forall h.timely fun info' heq => ?_
      rw [← Option.some.inj heq]
      refine ⟨le_refl _, fun hfalse => ?_, fun _ => le_refl _⟩
      cases hfalse
    · change Booked (statusOf (((s.mapInfo.insert s.nIdCount info).insert s.nIdCount
        { info with nTime }).insert s.nIdCount _)) _ _ _
      rw [hsets.statusOf]
      exact hcount

theorem Add_spec (Hash : List UInt8 → ℕ) (h : s.Inv strict none) (addr : CAddress)
    (source : CNetAddr) (nTimePenalty : ℤ) (rand : ℕ → ℕ) (now : ℕ → ℤ) :
    (s.Add_ Hash addr source nTimePenalty rand now = .error .overflow ∧
        2 ^ 31 - 1 ≤ s.nIdCount) ∨
      ∃ s' fNew, s.Add_ Hash addr source nTimePenalty rand now = .ok (s', fNew) ∧
        s'.Inv strict none := by
  unfold Add_
  by_cases hroutable : addr.IsRoutable = true
  · rw [if_neg (by simp [hroutable])]
    cases hfind : s.Find addr.toCNetAddr with
    | none =>
      cases Create_spec h source (Find_none h.toFiled hfind) with
      | inl hover =>
        left
        exact ⟨by simp only [hover.1], hover.2⟩
      | inr hcreate =>
        right
        obtain ⟨s₁, info, hcreate, hinfo, hout, hup⟩ := hcreate
        simp only [hcreate, hinfo]
        let s₂ : CAddrMan :=
          { s₁.setInfo s.nIdCount { info with nTime := penalized info.nTime nTimePenalty } with
            nNew := s₁.nNew + 1 }
        obtain ⟨s', hplace, hinv'⟩ := @placeNew_spec strict s₂ Hash s.nIdCount
          { info with nTime := penalized info.nTime nTimePenalty } source (fun k => rand (k + 1))
          (fun k => now (k + 1)) (fun vNew hbucket hmem => absurd hmem (hout vNew hbucket))
          (hup (penalized info.nTime nTimePenalty))
        exact ⟨s', true, by rw [hplace]; rfl, hinv'⟩
    | some entry =>
      right
      obtain ⟨nId, info⟩ := entry
      obtain ⟨hinfo, haddr⟩ := Find_spec h.toFiled hfind
      dsimp only
      generalize (if addr.nTime ≠ 0 ∧ (info.nTime = 0 ∨ (info.nTime : ℤ) < addr.nTime -
        (if (decide (now 0 - addr.nTime < 24 * 60 * 60)) = true then 60 * 60 else 24 * 60 * 60) -
          nTimePenalty) then penalized addr.nTime nTimePenalty else info.nTime) = nTime
      have htimely := h.timely nId info hinfo
      have hinv := h.setInfo { info with nTime, nServices := info.nServices ||| addr.nServices }
        hinfo rfl rfl rfl ⟨htimely.nLastSuccess, htimely.tried, htimely.nLastTry⟩
      split
      next => exact ⟨_, false, rfl, hinv⟩
      split
      next => exact ⟨_, false, rfl, hinv⟩
      next htried =>
      split
      next => exact ⟨_, false, rfl, hinv⟩
      next hmax =>
      split
      next => exact ⟨_, false, rfl, hinv⟩
      have hinfo' := (sets_insert s.mapInfo nId
        { info with nTime, nServices := info.nServices ||| addr.nServices }).self
      have htried' : info.fInTried = false := by simpa using htried
      have hrefs := h.booked.newRefs nId info.nRefCount (by
        rw [statusOf_some hinfo, CAddrInfo.status, htried'])
      have hup := hinv.count hinfo' htried' (lt_of_le_of_ne hrefs.2 hmax)
      obtain ⟨s', hplace, hinv'⟩ := placeNew_spec Hash source (fun k => rand (k + 1))
        (fun k => now (k + 1)) (fun _ _ _ => hinv) hup
      exact ⟨s', false, by rw [hplace]; rfl, hinv'⟩
  · rw [if_pos (by simp [hroutable])]
    exact .inr ⟨s, false, rfl, h⟩

end CAddrMan

/-! ## Into a tried bucket -/

namespace CAddrMan

variable {strict : Bool} {pending : Option ℕ} {s : CAddrMan}

/-! ## `SelectTried` -/

/-- The oldest so far has an entry, and the position kept for it is in the bucket. -/
def Kept (s : CAddrMan) (n : ℕ) (nOldest : Option (ℕ × ℕ)) : Prop :=
  ∀ nId nPos, nOldest = some (nId, nPos) →
    (∃ info, s.mapInfo.find nId = some info) ∧ nPos < n

theorem kept_some {n nId nPos : ℕ} {info : CAddrInfo} (hinfo : s.mapInfo.find nId = some info)
    (hpos : nPos < n) : s.Kept n (some (nId, nPos)) := by
  intro nId' nPos' heq
  cases heq
  exact ⟨⟨info, hinfo⟩, hpos⟩

theorem selectRound_spec (r : ℕ) {i : ℕ} {vTried : List ℕ} {nOldest : Option (ℕ × ℕ)}
    (hentry : ∀ nId ∈ vTried, ∃ info, s.mapInfo.find nId = some info) (hi : i < vTried.length)
    (hkept : s.Kept vTried.length nOldest) :
    ∃ vTried' found, s.selectRound r i vTried nOldest = .ok (vTried', found) ∧
      vTried'.Perm vTried ∧ s.Kept vTried.length found ∧ found ≠ none := by
  have hpos : GetRandInt r (vTried.length - i) + i < vTried.length := by
    have hlt := GetRandInt_lt r (show 0 < vTried.length - i by omega)
    omega
  generalize hnPos : GetRandInt r (vTried.length - i) + i = nPos at hpos
  have htemp := List.getElem?_eq_getElem hpos
  have hfirst := List.getElem?_eq_getElem hi
  have hperm := Slots.swap_perm htemp hfirst
  obtain ⟨info, hinfo⟩ := hentry vTried[nPos] (List.getElem_mem hpos)
  have htake := kept_some hinfo hpos
  simp only [selectRound, hnPos, htemp, hfirst]
  cases nOldest with
  | none => exact ⟨_, _, rfl, hperm, htake, nofun⟩
  | some entry =>
    obtain ⟨nId, nOldestPos⟩ := entry
    obtain ⟨⟨infoOldest, hinfoOldest⟩, -⟩ := hkept nId nOldestPos rfl
    simp only [hinfo, hinfoOldest]
    by_cases hlt : info.nLastSuccess < infoOldest.nLastSuccess
    · rw [if_pos hlt]
      exact ⟨_, _, rfl, hperm, htake, nofun⟩
    · rw [if_neg hlt]
      exact ⟨_, _, rfl, hperm, hkept, nofun⟩

theorem selectLoop_spec (rand : ℕ → ℕ) (rounds i : ℕ) {vTried : List ℕ} {nOldest : Option (ℕ × ℕ)}
    (hentry : ∀ nId ∈ vTried, ∃ info, s.mapInfo.find nId = some info)
    (hrounds : i + rounds ≤ vTried.length) (hkept : s.Kept vTried.length nOldest) :
    ∃ vTried' found, s.selectLoop rand rounds i vTried nOldest = .ok (vTried', found) ∧
      vTried'.Perm vTried ∧ s.Kept vTried.length found ∧
      (nOldest ≠ none ∨ rounds ≠ 0 → found ≠ none) := by
  induction rounds generalizing i vTried nOldest with
  | zero => exact ⟨vTried, nOldest, rfl, .refl _, hkept, fun hor => hor.resolve_right (· rfl)⟩
  | succ rounds ih =>
    have hi : i < vTried.length := by omega
    obtain ⟨vTried₁, found₁, hround, hperm₁, hkept₁, hne⟩ :=
      selectRound_spec (rand i) hentry hi hkept
    have hlen := hperm₁.length_eq
    rw [← hlen] at hkept₁
    obtain ⟨vTried', found, hloop, hperm, hkept', hfound⟩ := ih (i + 1)
      (fun nId hmem => hentry nId (hperm₁.mem_iff.mp hmem)) (by omega) hkept₁
    refine ⟨vTried', found, ?_, hperm.trans hperm₁, hlen ▸ hkept', fun _ => hfound (.inl hne)⟩
    simp only [selectLoop, hround, hloop]

theorem SelectTried_spec (rand : ℕ → ℕ) {vTried : List ℕ}
    (hentry : ∀ nId ∈ vTried, ∃ info, s.mapInfo.find nId = some info) (hne : 0 < vTried.length) :
    ∃ vTried' nPos nOld, s.SelectTried rand vTried = .ok (vTried', some nPos) ∧
      vTried'.Perm vTried ∧ vTried'[nPos]? = some nOld := by
  have hstart : s.Kept vTried.length none := fun _ _ heq => nomatch heq
  obtain ⟨vTried', found, hloop, hperm, hkept, hfound⟩ :=
    selectLoop_spec rand (min ADDRMAN_TRIED_ENTRIES_INSPECT_ON_EVICT vTried.length) 0 hentry
      (by omega) hstart
  have hrounds : min ADDRMAN_TRIED_ENTRIES_INSPECT_ON_EVICT vTried.length ≠ 0 := by
    rw [ADDRMAN_TRIED_ENTRIES_INSPECT_ON_EVICT]
    omega
  cases found with
  | none => exact absurd rfl (hfound (.inr hrounds))
  | some entry =>
    obtain ⟨nId, nPos⟩ := entry
    have hlt := (hkept nId nPos rfl).2
    rw [← hperm.length_eq] at hlt
    exact ⟨vTried', nPos, vTried'[nPos], by simp only [SelectTried, hloop]; rfl, hperm,
      List.getElem?_eq_getElem hlt⟩

/-! ## `MakeTried` -/

/-- The state of `MakeTried` when the id has been taken out of every "new" bucket. -/
def erased (s : CAddrMan) (nId : ℕ) (info : CAddrInfo) : CAddrMan :=
  { s.setInfo nId info with
    vvNew := s.vvNew.map (OrdMap.erase · nId)
    nNew := s.nNew - 1 }

theorem Filed.recount (h : s.Filed strict) {nTried nNew : ℤ} (vvTried : List (List ℕ))
    (vvNew : List (OrdSet ℕ)) (htotal : nTried + nNew = s.nTried + s.nNew) :
    Filed strict { s with nTried, vvTried, nNew, vvNew } :=
  ⟨h.indexed, h.total.trans htotal.symm, h.fresh, h.timely⟩

section

variable (h : s.Inv strict none) {nId : ℕ} {info : CAddrInfo}
  (hinfo : s.mapInfo.find nId = some info) (htried : info.fInTried = false)
  (hsuccess : 0 < info.nLastSuccess)

include h hinfo htried hsuccess

theorem push_inv {i : ℕ} {vTried : List ℕ} (hbucket : s.vvTried[i]? = some vTried)
    (hroom : vTried.length < ADDRMAN_TRIED_BUCKET_SIZE) :
    Inv strict none
      { (s.erased nId { info with nRefCount := 0 }).setInfo nId
          { info with nRefCount := 0, fInTried := true } with
        vvTried := s.vvTried.set i (vTried ++ [nId])
        nTried := s.nTried + 1 } := by
  have htimely := h.timely nId info hinfo
  have hstatus : (statusOf s.mapInfo nId).tried = 0 := by
    rw [statusOf_some hinfo, CAddrInfo.status, htried]
    rfl
  have hfiled := h.entry { info with nRefCount := 0 } hinfo rfl rfl
    ⟨htimely.nLastSuccess, htimely.tried, htimely.nLastTry⟩
  have hfiled' := hfiled.entry { info with nRefCount := 0, fInTried := true }
    (sets_insert s.mapInfo nId { info with nRefCount := 0 }).self rfl rfl
    ⟨htimely.nLastSuccess, fun _ => hsuccess.ne', htimely.nLastTry⟩
  refine ⟨hfiled'.recount _ _ ?_, ?_, ?_⟩
  · change s.nTried + 1 + (s.nNew - 1) = s.nTried + s.nNew
    omega
  · change Booked (statusOf ((s.setInfo nId _).setInfo nId _).mapInfo) _ _ none
    rw [statusOf_setInfo, statusOf_setInfo, Function.update_idem]
    exact h.booked.push hstatus hbucket hroom
  · change s.nTried + 1 = ((s.vvTried.set i (vTried ++ [nId])).flatten.length : ℤ)
    have hlen := Slots.length_flatten_set (vTried ++ [nId]) hbucket
    have hcount := h.nTried
    rw [List.length_append, List.length_singleton] at hlen
    omega

theorem evict_inv {nOld : ℕ} {infoOld : CAddrInfo} (hinfoOld : s.mapInfo.find nOld = some infoOld)
    (hold : nOld ≠ nId) {i : ℕ} {vTried vTried' : List ℕ} (hbucket : s.vvTried[i]? = some vTried)
    (hperm : vTried'.Perm vTried) {nPos : ℕ} (hpos : vTried'[nPos]? = some nOld) {j : ℕ}
    {vNew : OrdSet ℕ} (hnew : (s.vvNew.map (OrdMap.erase · nId))[j]? = some vNew)
    (hroom : vNew.size < ADDRMAN_NEW_BUCKET_SIZE) :
    Inv strict none
      { ((s.erased nId { info with nRefCount := 0 }).setInfo nOld
            { infoOld with fInTried := false, nRefCount := 1 }).setInfo nId
          { info with nRefCount := 0, fInTried := true } with
        vvNew := (s.vvNew.map (OrdMap.erase · nId)).set j (vNew.insert nOld ())
        nNew := s.nNew - 1 + 1
        vvTried := s.vvTried.set i (vTried'.set nPos nId) } := by
  have htimely := h.timely nId info hinfo
  have htimelyOld := h.timely nOld infoOld hinfoOld
  have hstatus : (statusOf s.mapInfo nId).tried = 0 := by
    rw [statusOf_some hinfo, CAddrInfo.status, htried]
    rfl
  -- the three entries that change, one after the other
  have hsets := sets_insert s.mapInfo nId { info with nRefCount := 0 }
  have hfiled := h.entry { info with nRefCount := 0 } hinfo rfl rfl
    ⟨htimely.nLastSuccess, htimely.tried, htimely.nLastTry⟩
  have hsetsOld := sets_insert (s.mapInfo.insert nId { info with nRefCount := 0 }) nOld
    { infoOld with fInTried := false, nRefCount := 1 }
  have hfiledOld := hfiled.entry { infoOld with fInTried := false, nRefCount := 1 }
    ((hsets.other hold).trans hinfoOld) rfl rfl ⟨htimelyOld.nLastSuccess, fun hfalse => absurd hfalse Bool.false_ne_true, htimelyOld.nLastTry⟩
  have hfiled' := hfiledOld.entry { info with nRefCount := 0, fInTried := true }
    ((hsetsOld.other hold.symm).trans hsets.self) rfl rfl
    ⟨htimely.nLastSuccess, fun _ => hsuccess.ne', htimely.nLastTry⟩
  refine ⟨hfiled'.recount _ _ ?_, ?_, ?_⟩
  · change s.nTried + (s.nNew - 1 + 1) = s.nTried + s.nNew
    omega
  · change Booked (statusOf (((s.setInfo nId _).setInfo nOld _).setInfo nId _).mapInfo) _ _ none
    rw [statusOf_setInfo, statusOf_setInfo, statusOf_setInfo, Function.update_comm hold.symm,
      Function.update_idem]
    exact h.booked.evict hstatus hbucket hperm hpos hnew hroom
  · change s.nTried = ((s.vvTried.set i (vTried'.set nPos nId)).flatten.length : ℤ)
    have hlen := Slots.length_flatten_set (vTried'.set nPos nId) hbucket
    have hcount := h.nTried
    rw [List.length_set, hperm.length_eq] at hlen
    omega

theorem evictTried_spec (Hash : List UInt8 → ℕ) {nOrigin : ℕ} {vOrigin : OrdSet ℕ}
    (horigin : s.vvNew[nOrigin]? = some vOrigin) (hmem : nId ∈ vOrigin.keys) {nKBucket : ℕ}
    {vTried : List ℕ} (hbucket : s.vvTried[nKBucket]? = some vTried) (hne : 0 < vTried.length)
    (rand : ℕ → ℕ) :
    ∃ s', (s.erased nId { info with nRefCount := 0 }).evictTried Hash { info with nRefCount := 0 }
        nId nOrigin nKBucket vTried rand = .ok s' ∧ s'.Inv strict none := by
  have hsets := sets_insert s.mapInfo nId { info with nRefCount := 0 }
  -- what lies in the bucket is another id
  have hentry : ∀ k ∈ vTried, k ≠ nId ∧ ∃ infoOld, s.mapInfo.find k = some infoOld ∧
      infoOld.fInTried = true := by
    intro k hk
    obtain ⟨infoOld, hinfoOld, htriedOld⟩ :=
      h.booked.tried_entry (List.mem_of_getElem? hbucket) hk
    refine ⟨fun heq => ?_, infoOld, hinfoOld, htriedOld⟩
    rw [heq, hinfo, Option.some.injEq] at hinfoOld
    rw [← hinfoOld, htried] at htriedOld
    cases htriedOld
  obtain ⟨vTried', nPos, nOld, hselect, hperm, hpos⟩ :=
    @SelectTried_spec (s.erased nId { info with nRefCount := 0 }) rand vTried (by
      intro k hk
      obtain ⟨hk', infoOld, hinfoOld, -⟩ := hentry k hk
      exact ⟨infoOld, (hsets.other hk').trans hinfoOld⟩) hne
  obtain ⟨hold, infoOld, hinfoOld, htriedOld⟩ :=
    hentry nOld (hperm.mem_iff.mp (List.mem_of_getElem? hpos))
  have hinfoOld' : (s.erased nId { info with nRefCount := 0 }).mapInfo.find nOld = some infoOld :=
    (hsets.other hold).trans hinfoOld
  have horigin' : (s.vvNew.map (OrdMap.erase · nId))[nOrigin]? = some (vOrigin.erase nId) := by
    rw [List.getElem?_map, horigin]
    rfl
  have hlt : infoOld.GetNewBucket Hash s.nKey infoOld.source <
      (s.vvNew.map (OrdMap.erase · nId)).length := by
    rw [List.length_map, h.booked.newCount]
    exact GetNewBucket_lt Hash s.nKey infoOld infoOld.source
  obtain ⟨vNew, hvNew⟩ : ∃ vNew, (s.vvNew.map (OrdMap.erase · nId))[
      infoOld.GetNewBucket Hash s.nKey infoOld.source]? = some vNew :=
    ⟨_, List.getElem?_eq_getElem hlt⟩
  have hbuckets : (s.erased nId { info with nRefCount := 0 }).vvNew =
      s.vvNew.map (OrdMap.erase · nId) := rfl
  have hkey : (s.erased nId { info with nRefCount := 0 }).nKey = s.nKey := rfl
  simp only [evictTried, hselect, hpos, hinfoOld', hbuckets, hkey, hvNew, horigin']
  by_cases hroom : vNew.size < ADDRMAN_NEW_BUCKET_SIZE
  · rw [if_pos hroom]
    exact ⟨_, rfl, evict_inv h hinfo htried hsuccess hinfoOld hold hbucket hperm hpos hvNew
      hroom⟩
  · -- the bucket that the id came from has room
    rw [if_neg hroom]
    have hsize := OrdMap.size_erase hmem
    have hle := h.booked.newSize vOrigin (List.mem_of_getElem? horigin)
    exact ⟨_, rfl, evict_inv h hinfo htried hsuccess hinfoOld hold hbucket hperm hpos horigin'
      (by omega)⟩

/-- The entry is in as many "new" buckets as it is counted for. -/
theorem MakeTried_spec (Hash : List UInt8 → ℕ) {nOrigin : ℕ} {vOrigin : OrdSet ℕ}
    (horigin : s.vvNew[nOrigin]? = some vOrigin) (hmem : nId ∈ vOrigin.keys) (rand : ℕ → ℕ) :
    ∃ s', s.MakeTried Hash info nId nOrigin rand = .ok s' ∧ s'.Inv strict none := by
  have hrefs : info.nRefCount - (s.vvNew.countP (nId ∈ OrdMap.keys ·) : ℕ) = 0 := by
    have hnew := h.booked.new nId
    rw [statusOf_some hinfo, if_neg nofun] at hnew
    change (s.vvNew.countP (nId ∈ OrdMap.keys ·) : ℤ) + 0 = info.nRefCount at hnew
    omega
  have hlt : CAddrInfo.GetTriedBucket Hash s.nKey { info with nRefCount := 0 } <
      s.vvTried.length := by
    rw [h.booked.triedCount]
    exact GetTriedBucket_lt Hash s.nKey _
  obtain ⟨vTried, hbucket⟩ : ∃ vTried, s.vvTried[
      CAddrInfo.GetTriedBucket Hash s.nKey { info with nRefCount := 0 }]? = some vTried :=
    ⟨_, List.getElem?_eq_getElem hlt⟩
  have hrun : s.MakeTried Hash info nId nOrigin rand =
      if vTried.length < ADDRMAN_TRIED_BUCKET_SIZE then
        .ok { (s.erased nId { info with nRefCount := 0 }).setInfo nId
            { info with nRefCount := 0, fInTried := true } with
          vvTried := s.vvTried.set (CAddrInfo.GetTriedBucket Hash s.nKey { info with nRefCount := 0 })
            (vTried ++ [nId])
          nTried := s.nTried + 1 }
      else
        (s.erased nId { info with nRefCount := 0 }).evictTried Hash { info with nRefCount := 0 } nId
          nOrigin (CAddrInfo.GetTriedBucket Hash s.nKey { info with nRefCount := 0 }) vTried rand := by
    simp only [MakeTried, horigin, if_neg (not_not_intro hmem), hrefs, setInfo, hbucket]
    rfl
  rw [hrun]
  by_cases hroom : vTried.length < ADDRMAN_TRIED_BUCKET_SIZE
  · rw [if_pos hroom]
    exact ⟨_, rfl, push_inv h hinfo htried hsuccess hbucket hroom⟩
  · rw [if_neg hroom]
    have hne : 0 < vTried.length := by
      rw [ADDRMAN_TRIED_BUCKET_SIZE] at hroom
      omega
    exact evictTried_spec h hinfo htried hsuccess Hash horigin hmem hbucket hne rand

end

theorem Good_spec (Hash : List UInt8 → ℕ) (h : s.Inv strict none) (addr : CService) {nTime : ℤ}
    (htime : 0 < nTime) (rand : ℕ → ℕ) :
    ∃ s', s.Good_ Hash addr nTime rand = .ok s' ∧ s'.Inv strict none := by
  unfold Good_
  cases hfind : s.Find addr.toCNetAddr with
  | none => exact ⟨s, rfl, h⟩
  | some entry =>
    obtain ⟨nId, info⟩ := entry
    obtain ⟨hinfo, -⟩ := Find_spec h.toFiled hfind
    dsimp only
    by_cases hservice : info.toCService ≠ addr
    · rw [if_pos hservice]
      exact ⟨s, rfl, h⟩
    · rw [if_neg hservice]
      have hinv := h.setInfo
        { info with
          nLastSuccess := nTime, nLastTry := nTime, nTime := (nTime % 2 ^ 32).toNat, nAttempts := 0 }
        hinfo rfl rfl rfl ⟨htime.le, fun _ => htime.ne', fun _ => htime.le⟩
      by_cases htried : info.fInTried = true
      · rw [if_pos htried]
        exact ⟨_, rfl, hinv⟩
      · rw [if_neg htried]
        split
        next => exact ⟨_, rfl, hinv⟩
        next nUBucket hbucket =>
          have hfound := List.find?_some hbucket
          obtain ⟨vNew, hvNew, hmem⟩ := (Option.any_eq_true _ _).mp hfound
          exact MakeTried_spec hinv (sets_insert s.mapInfo nId _).self (by simpa using htried) htime
            Hash hvNew (by simpa using hmem) _

end CAddrMan

end Dions
