import Mathlib.Combinatorics.Pigeonhole
import Dions.Verification.AddrMan.Saving
import Dions.Verification.Wire.RoundTrip

/-! # The room in the tried buckets

A reader puts no more into a tried bucket than it has room for, whatever the file is. So what was
written is found again exactly where no bucket was larger, which the check does not look at. -/

namespace Dions

open Codec

variable {nUBuckets : ℤ} {is rest : List UInt8}
variable {b n rounds : ℕ}

namespace CAddrMan

variable {s s' : CAddrMan} {nVersion : ℤ} {Hash : List UInt8 → ℕ}

/-! ## What a reader makes -/

def Roomy (s : CAddrMan) : Prop := ∀ vTried ∈ s.vvTried, vTried.length ≤ ADDRMAN_TRIED_BUCKET_SIZE

theorem putNew_vvTried {info : CAddrInfo} (h : putNew Hash nUBuckets s n info = .ok s') :
    s'.vvTried = s.vvTried := by
  rw [putNew] at h
  dsimp only at h
  split at h
  next =>
    split at h
    next => cases h
    next =>
      rw [← Except.ok.inj h]
      rfl
  next => rw [← Except.ok.inj h]

theorem loadNew_vvTried (h : loadNew Hash nUBuckets rounds n s is = .ok (s', rest)) :
    s'.vvTried = s.vvTried := by
  induction rounds generalizing n s is with
  | zero =>
    cases h
    rfl
  | succ rounds ih =>
    rw [loadNew] at h
    split at h
    next => cases h
    next =>
      split at h
      next => cases h
      next hput => exact (ih h).trans (putNew_vvTried hput)

theorem Roomy.putTried (hs : s.Roomy) {nLost nLost' : ℕ} {info : CAddrInfo}
    (h : putTried Hash s nLost info = .ok (s', nLost')) : s'.Roomy := by
  rw [CAddrMan.putTried] at h
  cases hbucket : s.vvTried[info.GetTriedBucket Hash s.nKey]? with
  | none =>
    rw [hbucket] at h
    cases h
  | some vTried =>
    rw [hbucket] at h
    dsimp only at h
    by_cases hroom : vTried.length < ADDRMAN_TRIED_BUCKET_SIZE
    · rw [if_pos hroom] at h
      cases h
      refine Slots.forall_mem_set hs ?_
      rw [List.length_append, List.length_singleton]
      exact hroom
    · rw [if_neg hroom] at h
      cases h
      exact hs

theorem Roomy.loadTried (hs : s.Roomy) {rounds nLost nLost' : ℕ} {is rest : List UInt8}
    (h : loadTried Hash rounds nLost s is = .ok ((s', nLost'), rest)) : s'.Roomy := by
  induction rounds generalizing nLost s is with
  | zero =>
    cases h
    exact hs
  | succ rounds ih =>
    rw [CAddrMan.loadTried] at h
    split at h
    next => cases h
    next =>
      split at h
      next => cases h
      next hput => exact ih (hs.putTried hput) h

theorem putIndex_vvTried (h : putIndex nUBuckets b s n = .ok s') : s'.vvTried = s.vvTried := by
  rw [putIndex] at h
  dsimp only at h
  split at h
  next =>
    split at h
    next => cases h
    next =>
      rw [← Except.ok.inj h]
      rfl
  next =>
    rw [← Except.ok.inj h]
    rfl

theorem loadIndices_vvTried (h : loadIndices nUBuckets b rounds s is = .ok (s', rest)) :
    s'.vvTried = s.vvTried := by
  induction rounds generalizing s is with
  | zero =>
    cases h
    rfl
  | succ rounds ih =>
    rw [loadIndices] at h
    split at h
    next => cases h
    next =>
      split at h
      next => cases h
      next =>
        split at h
        next => cases h
        next hput => exact (ih h).trans (putIndex_vvTried hput)

theorem loadBuckets_vvTried (h : loadBuckets nUBuckets rounds b s is = .ok (s', rest)) :
    s'.vvTried = s.vvTried := by
  induction rounds generalizing b s is with
  | zero =>
    cases h
    rfl
  | succ rounds ih =>
    rw [loadBuckets] at h
    split at h
    next => cases h
    next =>
      split at h
      next => cases h
      next hload => exact (ih h).trans (loadIndices_vvTried hload)

theorem Unserialize_roomy (h : Unserialize Hash is = .ok (s', rest)) : s'.Roomy := by
  rw [Unserialize] at h
  split at h
  next => cases h
  next =>
    rw [loadTables] at h
    dsimp only at h
    split at h
    next => cases h
    next s₁ _ hnew =>
      split at h
      next => cases h
      next s₂ _ _ htried =>
        have hroomy : Roomy s₁ := by
          intro vTried hmem
          rw [loadNew_vvTried hnew] at hmem
          rw [List.eq_of_mem_replicate hmem]
          exact Nat.zero_le _
        have hroomy₂ : Roomy s₂ := by
          refine Roomy.loadTried ?_ htried
          exact hroomy
        intro vTried hmem
        rw [loadBuckets_vvTried h] at hmem
        exact hroomy₂ vTried hmem

/-- Renaming the ids keeps the sizes of the tried buckets. -/
theorem Renumbered.roomy {ρ : ℕ → ℕ} (r : Renumbered ρ s s') (h : s.Checked) (hs' : s'.Roomy) :
    s.Roomy := by
  intro vTried hmem
  obtain ⟨b, hbucket⟩ := List.getElem?_of_mem hmem
  have hknown {k : ℕ} (hk : k ∈ vTried) : (s.mapInfo.find k).isSome := by
    obtain ⟨info, hinfo, -⟩ := mem_idsOf.mp (h.mem_vvTried.mp ⟨b, vTried, hbucket, hk⟩)
    exact Option.isSome_of_mem hinfo
  have hnodup : (vTried.map ρ).Nodup := by
    have hflat : s.vvTried.flatten.Nodup := h.tried.nodup_iff.mpr (nodup_idsOf true)
    refine List.Nodup.map_on (fun k hk k' hk' heq => ?_) ((List.nodup_flatten.mp hflat).1 vTried hmem)
    exact r.injective k k' (hknown hk) (hknown hk') heq
  cases hfirst : vTried with
  | nil => exact Nat.zero_le _
  | cons k₀ ks =>
    have hk₀ : k₀ ∈ vTried := hfirst ▸ List.mem_cons_self ..
    obtain ⟨vTried', hbucket', -⟩ := (r.tried b (ρ k₀)).mpr ⟨k₀, ⟨vTried, hbucket, hk₀⟩, rfl⟩
    have hsub : vTried.map ρ ⊆ vTried' := by
      intro i hi
      obtain ⟨k, hk, heq⟩ := List.mem_map.mp hi
      obtain ⟨vTried₁, hbucket₁, hmem₁⟩ := (r.tried b i).mpr ⟨k, ⟨vTried, hbucket, hk⟩, heq⟩
      rw [hbucket', Option.some.injEq] at hbucket₁
      exact hbucket₁ ▸ hmem₁
    have hle := (hnodup.subperm hsub).length_le
    rw [List.length_map, hfirst] at hle
    exact hle.trans (hs' vTried' (List.mem_of_getElem? hbucket'))

/-! ## Managers with one bucket -/

def triedInfo (addr : CService) (n : ℕ) : CAddrInfo where
  toCService := addr
  nServices := 1
  nTime := 100000000
  nLastTry := 0
  source := addr.toCNetAddr
  nLastSuccess := 1
  nAttempts := 0
  nRefCount := 0
  fInTried := true
  nRandomPos := n

theorem triedInfo_valid {addr : CService} (hversion : (wireSigned 4).Valid nVersion)
    (hport : addr.port < 256 ^ 2) (n : ℕ) :
    CAddrInfo.wire.Valid (nVersion, (triedInfo addr n).stored) := by
  have htime : (wireUnsigned 4).Valid 100000000 := by
    change 100000000 < 256 ^ 4
    decide
  have hservices : (wireUnsigned 8).Valid 1 := by
    change 1 < 256 ^ 8
    decide
  have hsuccess : (wireSigned 8).Valid 1 := (Codec.int_valid_iff _ 7 1).mpr (by decide)
  have hattempts : (wireSigned 4).Valid 0 := (Codec.int_valid_iff _ 3 0).mpr (by decide)
  exact ⟨⟨hversion, htime, hservices, ⟨trivial, hport⟩, trivial, hsuccess, hattempts⟩, rfl⟩

def crowdedEntries (addrs : List CService) : List (ℕ × CAddrInfo) :=
  addrs.zipIdx.map fun p => (p.2, triedInfo p.1 p.2)

theorem map_crowdedEntries (addrs : List CService) :
    (crowdedEntries addrs).map Prod.fst = List.range addrs.length := by
  rw [crowdedEntries, List.map_map, List.range_eq_range', ← List.zipIdx_map_snd]
  rfl

def crowded (nKey : List UInt8) (b : ℕ) (addrs : List CService) : CAddrMan where
  nKey
  nIdCount := addrs.length
  mapInfo := ⟨crowdedEntries addrs, by
    rw [map_crowdedEntries]
    exact List.pairwise_lt_range⟩
  mapAddr := fun addr => (addrs.map CService.toCNetAddr).idxOf? addr
  vRandom := List.range addrs.length
  nTried := addrs.length
  vvTried := (List.replicate ADDRMAN_TRIED_BUCKET_COUNT []).set b (List.range addrs.length)
  nNew := 0
  vvNew := List.replicate ADDRMAN_NEW_BUCKET_COUNT .empty

section Crowded

variable {nKey : List UInt8} {b : ℕ} {addrs : List CService}

theorem crowded_find {k : ℕ} {info : CAddrInfo} :
    (crowded nKey b addrs).mapInfo.find k = some info ↔
      ∃ addr, addrs[k]? = some addr ∧ info = triedInfo addr k := by
  rw [← OrdMap.mem_entries]
  refine List.mem_map.trans ?_
  constructor
  · rintro ⟨⟨addr, k'⟩, hmem, heq⟩
    cases heq
    exact ⟨addr, List.mem_zipIdx_iff_getElem?.mp hmem, rfl⟩
  · rintro ⟨addr, haddr, heq⟩
    exact ⟨(addr, k), List.mem_zipIdx_iff_getElem?.mpr haddr, heq ▸ rfl⟩

theorem crowded_idsOf_true : (crowded nKey b addrs).idsOf true = List.range addrs.length := by
  rw [← map_crowdedEntries, idsOf]
  congr 1
  refine List.filter_eq_self.mpr fun e he => ?_
  obtain ⟨p, -, heq⟩ := List.mem_map.mp he
  rw [← heq]
  rfl

theorem crowded_idsOf_false : (crowded nKey b addrs).idsOf false = [] := by
  rw [List.eq_nil_iff_forall_not_mem]
  intro k hk
  obtain ⟨info, hinfo, hnew⟩ := mem_idsOf.mp hk
  obtain ⟨addr, -, heq⟩ := crowded_find.mp hinfo
  rw [heq] at hnew
  cases hnew

theorem crowded_checked (hb : b < ADDRMAN_TRIED_BUCKET_COUNT)
    (hnodup : (addrs.map CService.toCNetAddr).Nodup) : (crowded nKey b addrs).Checked where
  total := by
    change ((List.range addrs.length).length : ℤ) = addrs.length + 0
    rw [List.length_range, add_zero]
  entry k info hinfo := by
    obtain ⟨addr, haddr, heq⟩ := crowded_find.mp hinfo
    rw [heq]
    refine ⟨fun _ => one_ne_zero, fun _ => rfl, nofun, ?_, ⟨Int.natCast_nonneg k, ?_⟩, le_rfl,
      zero_le_one⟩
    · have hplace : (addrs.map CService.toCNetAddr)[k]? = some addr.toCNetAddr := by
        rw [List.getElem?_map, haddr, Option.map_some]
      obtain ⟨hlt, hget⟩ := List.getElem?_eq_some_iff.mp hplace
      have hfirst : (addrs.map CService.toCNetAddr).idxOf? addr.toCNetAddr = some k := by
        refine List.idxOf?_eq_some_iff.mpr ⟨hlt, hget, fun j hj heq => ?_⟩
        have hsame := (hnodup.getElem_inj_iff).mp (heq.trans hget.symm)
        omega
      exact congrArg (fun o => o.getD 0) hfirst
    · exact List.getElem?_range (List.getElem?_eq_some_iff.mp haddr).1
  nTried := by rw [crowded_idsOf_true, List.length_range]; rfl
  nNew := by rw [crowded_idsOf_false]; rfl
  tried := by
    have hbucket : (List.replicate ADDRMAN_TRIED_BUCKET_COUNT ([] : List ℕ))[b]? = some [] := by
      rw [List.getElem?_replicate, if_pos hb]
    rw [crowded_idsOf_true]
    refine List.perm_iff_count.mpr fun k => ?_
    have hcount := Slots.count_flatten_set k (List.range addrs.length) hbucket
    rw [List.count_nil, List.flatten_replicate_nil, List.count_nil, Nat.zero_add] at hcount
    exact hcount
  new k := by
    have hzero : occurrences (crowded nKey b addrs).vvNew k = 0 := by
      refine List.countP_eq_zero.mpr fun vNew hmem => ?_
      rw [List.eq_of_mem_replicate hmem]
      exact of_decide_eq_false rfl
    rw [hzero, if_pos rfl, Option.bind_eq_none_iff]
    intro info hinfo
    obtain ⟨addr, -, heq⟩ := crowded_find.mp hinfo
    rw [heq]
    rfl

theorem crowded_placed
    (hbucket : ∀ addr ∈ addrs, (triedInfo addr 0).GetTriedBucket Hash nKey = b) :
    Placed Hash (crowded nKey b addrs) := by
  intro b' vTried hget k hk info hinfo
  obtain ⟨addr, haddr, heq⟩ := crowded_find.mp hinfo
  have hplace : info.GetTriedBucket Hash nKey = b := by
    rw [heq, ← hbucket addr (List.mem_of_getElem? haddr)]
    rfl
  refine hplace.trans ?_
  by_contra hne
  have hother : (List.replicate ADDRMAN_TRIED_BUCKET_COUNT ([] : List ℕ))[b']? = some vTried := by
    rw [← hget]
    exact (List.getElem?_set_ne hne).symm
  rw [List.eq_of_mem_replicate (List.mem_of_getElem? hother)] at hk
  cases hk

theorem crowded_fits (hversion : (wireSigned 4).Valid nVersion) (hkey : wireBytes.Valid nKey)
    (hlength : addrs.length < 2 ^ 31) (hport : ∀ addr ∈ addrs, addr.port < 256 ^ 2) :
    Fits nVersion (crowded nKey b addrs) where
  version := hversion
  nKey := hkey
  nNew := wireSigned_valid_natCast (Nat.two_pow_pos 31)
  nTried := wireSigned_valid_natCast hlength
  info k info hinfo := by
    obtain ⟨addr, haddr, heq⟩ := crowded_find.mp hinfo
    rw [heq]
    exact triedInfo_valid hversion (hport addr (List.mem_of_getElem? haddr)) k
  vvTried := by
    refine List.length_set.trans ?_
    rw [List.length_replicate]
  vvNew := List.length_replicate

end Crowded

def groupAddr (i : ℕ) : CService where
  ip := List.replicate 10 0 ++ [0xFF, 0xFF, 1, 2, UInt8.ofNat (i / 256), UInt8.ofNat i]
  length_ip := rfl
  port := 8333

theorem groupAddr_injective {i j : ℕ} (hi : i < 65536) (hj : j < 65536)
    (h : (groupAddr i).toCNetAddr = (groupAddr j).toCNetAddr) : i = j := by
  have hip : (groupAddr i).ip = (groupAddr j).ip := congrArg CNetAddr.ip h
  have htail := List.append_cancel_left hip
  simp only [List.cons.injEq, true_and, and_true] at htail
  have hhigh := congrArg UInt8.toNat htail.1
  have hlow := congrArg UInt8.toNat htail.2
  rw [UInt8.toNat_ofNat', UInt8.toNat_ofNat'] at hhigh hlow
  omega

/-- There are more addresses than a tried bucket has room for that all go to the same one. -/
theorem exists_crowd (Hash : List UInt8 → ℕ) (nKey : List UInt8) :
    ∃ b < ADDRMAN_TRIED_BUCKET_COUNT, ∃ addrs : List CService,
      (addrs.map CService.toCNetAddr).Nodup ∧ ADDRMAN_TRIED_BUCKET_SIZE < addrs.length ∧
      addrs.length < 2 ^ 31 ∧ ∀ addr ∈ addrs, addr.port < 256 ^ 2 ∧
        (triedInfo addr 0).GetTriedBucket Hash nKey = b := by
  have hmaps : ∀ i ∈ Finset.range 4097,
      (triedInfo (groupAddr i) 0).GetTriedBucket Hash nKey ∈
        Finset.range ADDRMAN_TRIED_BUCKET_COUNT := by
    intro i _
    exact Finset.mem_range.mpr (Nat.mod_lt _ (by decide))
  have hmany : (Finset.range ADDRMAN_TRIED_BUCKET_COUNT).card * ADDRMAN_TRIED_BUCKET_SIZE <
      (Finset.range 4097).card := by
    rw [Finset.card_range, Finset.card_range]
    decide
  obtain ⟨b, hb, hcard⟩ := Finset.exists_lt_card_fiber_of_mul_lt_card_of_maps_to hmaps hmany
  generalize hfiber : (Finset.range 4097).filter
    (fun i => (triedInfo (groupAddr i) 0).GetTriedBucket Hash nKey = b) = fiber at hcard
  have hmem {i : ℕ} (hi : i ∈ fiber) :
      i < 4097 ∧ (triedInfo (groupAddr i) 0).GetTriedBucket Hash nKey = b := by
    rw [← hfiber, Finset.mem_filter, Finset.mem_range] at hi
    exact hi
  refine ⟨b, Finset.mem_range.mp hb, fiber.toList.map groupAddr, ?_, ?_, ?_, ?_⟩
  · rw [List.map_map]
    refine List.Nodup.map_on (fun i hi j hj heq => ?_) fiber.nodup_toList
    have hi' := (hmem (Finset.mem_toList.mp hi)).1
    have hj' := (hmem (Finset.mem_toList.mp hj)).1
    exact groupAddr_injective (by omega) (by omega) heq
  · rw [List.length_map, Finset.length_toList]
    exact hcard
  · rw [List.length_map, Finset.length_toList]
    have hle : fiber.card ≤ (Finset.range 4097).card := by
      rw [← hfiber]
      exact Finset.card_filter_le _ _
    rw [Finset.card_range] at hle
    omega
  · intro addr haddr
    obtain ⟨i, hi, heq⟩ := List.mem_map.mp haddr
    rw [← heq]
    exact ⟨show 8333 < 256 ^ 2 by decide, (hmem (Finset.mem_toList.mp hi)).2⟩

/-! ## Saving and loading -/

/-- Where `Check_` finds nothing wrong and the tried entries are in their buckets, the file brings back
the same manager under other ids exactly if no tried bucket holds more than a reader has room for. -/
theorem addrman_roundTrip (hcheck : s.Check_ = 0) (hfits : s.Fits nVersion)
    (hplaced : Placed Hash s) (rest : List UInt8) :
    (∃ s' ρ, Unserialize Hash (s.Serialize nVersion ++ rest) = .ok (s', rest) ∧ s'.Check_ = 0 ∧
      Renumbered ρ s s') ↔
    ∀ vTried ∈ s.vvTried, vTried.length ≤ ADDRMAN_TRIED_BUCKET_SIZE := by
  have hchecked := Check_iff.mp hcheck
  constructor
  · rintro ⟨s', ρ, hread, -, r⟩
    exact r.roomy hchecked (Unserialize_roomy hread)
  · intro hroom
    obtain ⟨s', hread, r⟩ := Unserialize_Serialize hchecked hfits hplaced hroom rest
    exact ⟨s', s.number, hread, Check_iff.mpr (r.checked hchecked hfits.vvNew),
      r.renumbered hchecked hplaced hfits⟩

/-- What the hash function gives for the key and for the group of the tried entry of `twoEntries`. -/
def twoHashes (ss : List UInt8) : ℕ :=
  if ss.length = 52 then
    106181023137908041137154704290073458656575376279320494337530246171281612427005
  else 76260655158949819053996653028107949091297875412150169161057724217901852858959

def twoEntries : CAddrMan where
  nKey := List.replicate 32 0
  nIdCount := 9
  mapInfo := (OrdMap.empty.insert 8
    { triedInfo (groupAddr 1) 0 with fInTried := false, nRefCount := 2 }).insert 3
    (triedInfo (groupAddr 0) 1)
  mapAddr := Function.update (Function.update (fun _ => none) (groupAddr 1).toCNetAddr (some 8))
    (groupAddr 0).toCNetAddr (some 3)
  vRandom := [8, 3]
  nTried := 1
  vvTried := (List.replicate ADDRMAN_TRIED_BUCKET_COUNT []).set 15 [3]
  nNew := 1
  vvNew := ((List.replicate ADDRMAN_NEW_BUCKET_COUNT .empty).set 7 (OrdMap.empty.insert 8 ())).set 200
    (OrdMap.empty.insert 8 ())

theorem twoEntries_find (k : ℕ) :
    twoEntries.mapInfo.find k =
      if k = 3 then some (triedInfo (groupAddr 0) 1)
      else if k = 8 then some { triedInfo (groupAddr 1) 0 with fInTried := false, nRefCount := 2 }
      else none := by
  rw [twoEntries, OrdMap.find_insert, OrdMap.find_insert, OrdMap.find_empty]

theorem version_valid : (wireSigned 4).Valid 1000000 := (Codec.int_valid_iff _ 3 _).mpr (by decide)

theorem key_valid : wireBytes.Valid (List.replicate 32 0) := by
  rw [wireBytes_valid, List.length_replicate]
  decide

theorem twoEntries_fits : Fits 1000000 twoEntries where
  version := version_valid
  nKey := key_valid
  nNew := wireSigned_valid_natCast (Nat.one_lt_two_pow (by decide))
  nTried := wireSigned_valid_natCast (Nat.one_lt_two_pow (by decide))
  info k info hinfo := by
    rw [twoEntries_find] at hinfo
    split at hinfo
    next =>
      rw [← Option.some.inj hinfo]
      exact triedInfo_valid version_valid (show 8333 < 256 ^ 2 by decide) 1
    next =>
      split at hinfo
      next =>
        rw [← Option.some.inj hinfo]
        exact @triedInfo_valid 1000000 (groupAddr 1) version_valid (show 8333 < 256 ^ 2 by decide) 0
      next => cases hinfo
  vvTried := by rw [twoEntries, List.length_set, List.length_replicate]
  vvNew := by rw [twoEntries, List.length_set, List.length_set, List.length_replicate]

theorem twoEntries_placed : Placed twoHashes twoEntries := by
  intro b vTried hget k hk info hinfo
  have hbucket : (List.replicate ADDRMAN_TRIED_BUCKET_COUNT ([] : List ℕ))[15]? = some [] := rfl
  rw [twoEntries, Slots.getElem?_set_some _ hbucket] at hget
  by_cases hb : b = 15
  · rw [if_pos hb, Option.some.injEq] at hget
    rw [← hget, List.mem_singleton] at hk
    rw [twoEntries_find, if_pos hk, Option.some.injEq] at hinfo
    rw [← hinfo, hb]
    decide +kernel
  · rw [if_neg hb] at hget
    rw [List.eq_of_mem_replicate (List.mem_of_getElem? hget)] at hk
    cases hk

theorem addrman_roundTrip_twoEntries :
    ∃ s' ρ, Unserialize twoHashes (twoEntries.Serialize 1000000 ++ []) = .ok (s', []) ∧
      s'.Check_ = 0 ∧ Renumbered ρ twoEntries s' :=
  (addrman_roundTrip (by decide +kernel) twoEntries_fits twoEntries_placed []).mpr (by decide +kernel)

/-- Whatever the hash function is, there is a manager that is not found again. -/
theorem addrman_roundTrip_crowded :
    ¬∃ Hash : List UInt8 → ℕ, ∀ (s : CAddrMan) (nVersion : ℤ), s.Check_ = 0 → s.Fits nVersion →
      Placed Hash s → ∃ s' ρ, Unserialize Hash (s.Serialize nVersion) = .ok (s', []) ∧
        s'.Check_ = 0 ∧ Renumbered ρ s s' := by
  rintro ⟨Hash, hall⟩
  obtain ⟨b, hb, addrs, hnodup, hmany, hlength, haddrs⟩ := exists_crowd Hash (List.replicate 32 0)
  have hchecked := @crowded_checked (List.replicate 32 0) b addrs hb hnodup
  obtain ⟨s', ρ, hread, -, r⟩ := hall (crowded (List.replicate 32 0) b addrs) 1000000 hchecked.check
    (crowded_fits version_valid key_valid hlength fun addr haddr => (haddrs addr haddr).1)
    (crowded_placed fun addr haddr => (haddrs addr haddr).2)
  have hroomy := r.roomy hchecked (Unserialize_roomy hread)
  have hbucket : List.range addrs.length ∈ (crowded (List.replicate 32 0) b addrs).vvTried :=
    List.mem_set (by rw [List.length_replicate]; exact hb) _
  have hle := hroomy _ hbucket
  rw [List.length_range] at hle
  omega

end CAddrMan

end Dions
