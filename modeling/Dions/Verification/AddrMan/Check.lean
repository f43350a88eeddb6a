import Dions.Verification.AddrMan.Checked

/-! # The consistency check

What `Check_` goes through in every state of a run. -/

namespace Dions

variable {vvTried : List (List ℕ)} {vvNew : List (OrdSet ℕ)}

/-- A tried id is once in the tried buckets, any other is not there. -/
theorem Booked.mem_tried {m : OrdMap ℕ CAddrInfo} {pending : Option ℕ}
    (h : Booked (statusOf m) vvTried vvNew pending) (k : ℕ) :
    k ∈ vvTried.flatten ↔ ∃ info, m.find k = some info ∧ info.fInTried = true := by
  constructor
  · intro hmem
    obtain ⟨vTried, hbucket, hk⟩ := List.mem_flatten.mp hmem
    exact h.tried_entry hbucket hk
  · intro hex
    obtain ⟨info, hinfo, htried⟩ := hex
    apply List.count_pos_iff.mp
    rw [h.tried k, statusOf_some hinfo, CAddrInfo.status, htried]
    exact Nat.one_pos

theorem Status.tried_le_one (x : Status) : x.tried ≤ 1 := by
  match x with
  | some (true, _) => exact le_refl _
  | some (false, _) => exact Nat.zero_le _
  | none => exact Nat.zero_le _

theorem Booked.tried_nodup {status : ℕ → Status} {pending : Option ℕ}
    (h : Booked status vvTried vvNew pending) : vvTried.flatten.Nodup := by
  apply List.nodup_iff_count_le_one.mpr
  intro k
  rw [h.tried k]
  exact (status k).tried_le_one

namespace CAddrMan

variable {strict : Bool} {s : CAddrMan}

/-! ## The check -/

theorem Inv.entryOk (h : s.Inv true none) {n : ℕ} {info : CAddrInfo}
    (hinfo : s.mapInfo.find n = some info) : s.EntryOk n info := by
  have htimely := h.timely n info hinfo
  have hstatus := statusOf_some hinfo
  obtain ⟨p, hp, hplace⟩ := h.indexed.pos n info hinfo
  refine ⟨htimely.tried, ?_, ?_, ?_, ?_, htimely.nLastTry rfl, htimely.nLastSuccess⟩
  · intro htried
    rw [CAddrInfo.status, htried] at hstatus
    exact h.booked.triedRefs n _ hstatus
  · intro hnew
    rw [CAddrInfo.status, hnew] at hstatus
    exact h.booked.newRefs n _ hstatus
  · rw [(h.indexed.addr info.toCNetAddr n).mpr ⟨info, hinfo, rfl⟩]
    rfl
  · rw [hp, Int.toNat_natCast]
    exact ⟨Int.natCast_nonneg p, hplace⟩

/-- The entries that are not tried are those that the walk through the "new" buckets meets. -/
theorem count_newRefs (h : s.Inv strict none) (k : ℕ) :
    (s.mapInfo.find k).bind newRefs =
      if occurrences s.vvNew k = 0 then none else some (occurrences s.vvNew k : ℤ) := by
  have hnew := h.booked.new k
  rw [if_neg (Option.some_ne_none k).symm, add_zero] at hnew
  cases hfind : s.mapInfo.find k with
  | none =>
    rw [statusOf, hfind] at hnew
    rw [if_pos (Int.natCast_eq_zero.mp hnew)]
    rfl
  | some info =>
    have hstatus := statusOf_some hfind
    rw [hstatus] at hnew
    rw [CAddrInfo.status] at hstatus hnew
    rw [Option.bind_some, newRefs]
    cases htried : info.fInTried with
    | true =>
      rw [htried] at hstatus
      have hrefs := h.booked.triedRefs k _ hstatus
      rw [if_pos rfl, if_pos]
      exact Int.natCast_eq_zero.mp (hnew.trans hrefs)
    | false =>
      rw [htried] at hstatus
      have hrefs := h.booked.newRefs k _ hstatus
      have hoccurrences : (occurrences s.vvNew k : ℤ) = info.nRefCount := hnew
      rw [if_neg Bool.false_ne_true, if_neg (by omega), hoccurrences]

theorem perm_tried (h : s.Inv strict none) : s.vvTried.flatten.Perm (s.idsOf true) := by
  apply (List.perm_ext_iff_of_nodup h.booked.tried_nodup (nodup_idsOf true)).mpr
  intro k
  rw [h.booked.mem_tried, mem_idsOf]

theorem length_vRandom (h : s.Inv strict none) :
    s.vRandom.length = (s.idsOf true).length + (s.idsOf false).length := by
  have hperm : s.vRandom.Perm s.mapInfo.keys := by
    apply (List.perm_ext_iff_of_nodup h.indexed.nodup s.mapInfo.nodup_keys).mpr
    intro k
    rw [h.indexed.mem k, OrdMap.mem_keys, Option.isSome_iff_exists]
  have hsplit := List.length_eq_countP_add_countP (fun e : ℕ × CAddrInfo => e.2.fInTried)
    (l := s.mapInfo.entries)
  rw [hperm.length_eq, OrdMap.keys, List.length_map, hsplit, length_idsOf, length_idsOf]
  simp

theorem nTried_eq (h : s.Inv strict none) : s.nTried = (s.idsOf true).length := by
  rw [h.nTried, (perm_tried h).length_eq]

theorem nNew_eq (h : s.Inv strict none) : s.nNew = (s.idsOf false).length := by
  have htotal := h.total
  rw [length_vRandom h, nTried_eq h] at htotal
  omega

theorem Inv.checked (h : s.Inv true none) : s.Checked :=
  ⟨h.total, fun _ _ => h.entryOk, nTried_eq h, nNew_eq h, perm_tried h, count_newRefs h⟩

/-! ## What the containers say about each other -/

structure Consistent (s : CAddrMan) : Prop where
  nodup : s.vRandom.Nodup
  mem_vRandom : ∀ nId, nId ∈ s.vRandom ↔ nId ∈ s.mapInfo.keys
  nRandomPos : ∀ nId info, s.mapInfo.find nId = some info →
    0 ≤ info.nRandomPos ∧ s.vRandom[info.nRandomPos.toNat]? = some nId
  mapAddr : ∀ addr nId, s.mapAddr addr = some nId ↔
    ∃ info, s.mapInfo.find nId = some info ∧ info.toCNetAddr = addr
  nTried : s.nTried = s.mapInfo.entries.countP fun e => e.2.fInTried
  nNew : s.nNew = s.mapInfo.entries.countP fun e => !e.2.fInTried
  tried : ∀ nId info, s.mapInfo.find nId = some info → info.fInTried = true →
    s.vvTried.flatten.count nId = 1 ∧ occurrences s.vvNew nId = 0
  new : ∀ nId info, s.mapInfo.find nId = some info → info.fInTried = false →
    nId ∉ s.vvTried.flatten ∧ occurrences s.vvNew nId = info.nRefCount ∧ 1 ≤ info.nRefCount ∧
      info.nRefCount ≤ ADDRMAN_NEW_BUCKETS_PER_ADDRESS
  triedEntry : ∀ vTried ∈ s.vvTried, ∀ nId ∈ vTried, nId ∈ s.mapInfo.keys
  newEntry : ∀ vNew ∈ s.vvNew, ∀ nId ∈ vNew.keys, nId ∈ s.mapInfo.keys
  triedSize : ∀ vTried ∈ s.vvTried, vTried.length ≤ ADDRMAN_TRIED_BUCKET_SIZE
  newSize : ∀ vNew ∈ s.vvNew, vNew.size ≤ ADDRMAN_NEW_BUCKET_SIZE

theorem Inv.consistent (h : s.Inv strict none) : s.Consistent := by
  refine ⟨h.indexed.nodup, ?_, ?_, h.indexed.addr, ?_, ?_, ?_, ?_, ?_, ?_, h.booked.triedSize,
    h.booked.newSize⟩
  · intro nId
    rw [h.indexed.mem nId, OrdMap.mem_keys, Option.isSome_iff_exists]
  · intro nId info hinfo
    obtain ⟨p, hp, hplace⟩ := h.indexed.pos nId info hinfo
    rw [hp, Int.toNat_natCast]
    exact ⟨Int.natCast_nonneg p, hplace⟩
  · simpa [length_idsOf] using nTried_eq h
  · simpa [length_idsOf] using nNew_eq h
  · intro nId info hinfo htried
    have hstatus := statusOf_some hinfo
    rw [CAddrInfo.status, htried] at hstatus
    have hnew := h.booked.new nId
    rw [if_neg (Option.some_ne_none nId).symm, add_zero, hstatus] at hnew
    rw [h.booked.tried nId, hstatus]
    exact ⟨rfl, Int.natCast_eq_zero.mp (hnew.trans (h.booked.triedRefs nId _ hstatus))⟩
  · intro nId info hinfo htried
    have hstatus := statusOf_some hinfo
    rw [CAddrInfo.status, htried] at hstatus
    have hnew := h.booked.new nId
    rw [if_neg (Option.some_ne_none nId).symm, add_zero, hstatus] at hnew
    refine ⟨?_, hnew, h.booked.newRefs nId _ hstatus⟩
    rw [← List.count_eq_zero, h.booked.tried nId, hstatus]
    rfl
  · intro vTried hbucket nId hmem
    obtain ⟨info, hinfo, -⟩ := h.booked.tried_entry hbucket hmem
    rw [OrdMap.mem_keys, hinfo]
    rfl
  · intro vNew hbucket nId hmem
    obtain ⟨info, hinfo, -⟩ := h.booked.new_entry hbucket hmem
    rw [OrdMap.mem_keys, hinfo]
    rfl

end CAddrMan

/-- A run ends with all containers in agreement, unless the ids are used up; no assertion fails. -/
theorem addrRun_consistent (Hash : List UInt8 → ℕ) (nKey : List UInt8) (ops : List AddrOp)
    (hpositive : ∀ op ∈ ops, op.Positive) :
    (addrRun Hash (.empty nKey) ops = .error .overflow ∧
        ∃ n s, addrRun Hash (.empty nKey) (ops.take n) = .ok s ∧ 2 ^ 31 - 1 ≤ s.nIdCount) ∨
      ∃ s, addrRun Hash (.empty nKey) ops = .ok s ∧ s.Consistent ∧
        ((∀ op ∈ ops, op.Dated) → s.Check_ = 0) := by
  have hrun := addrRun_spec Hash (CAddrMan.empty_inv false nKey) ops hpositive nofun
  cases hrun with
  | inl hover => exact .inl hover
  | inr hok =>
    right
    obtain ⟨s, hrun, hinv⟩ := hok
    refine ⟨s, hrun, hinv.consistent, fun hdated => ?_⟩
    have hstrict := addrRun_spec Hash (CAddrMan.empty_inv true nKey) ops hpositive fun _ => hdated
    rw [hrun] at hstrict
    cases hstrict with
    | inl hover => exact nomatch hover.1
    | inr hok =>
      obtain ⟨s', heq, hinv'⟩ := hok
      rw [Except.ok.injEq] at heq
      rw [heq]
      exact hinv'.checked.check

/-- 8.0.1.1, with the port of the network. -/
def peerAddress : CAddress where
  ip := [0, 0, 0, 0, 0, 0, 0, 0, 0, 0, 0xff, 0xff, 8, 0, 1, 1]
  length_ip := rfl
  port := 33847
  nServices := 1
  nTime := 1000000
  nLastTry := 0

def peerSource : CNetAddr where
  ip := [0, 0, 0, 0, 0, 0, 0, 0, 0, 0, 0xff, 0xff, 9, 9, 9, 9]
  length_ip := rfl

def addPeer : AddrOp := .Add_ peerAddress peerSource 0 (fun _ => 0) fun _ => 1000000

def neighbour (n : ℕ) : CAddress where
  ip := [0, 0, 0, 0, 0, 0, 0, 0, 0, 0, 0xff, 0xff, 8, 0, 1, n.toUInt8]
  length_ip := rfl
  port := 33847
  nServices := 1
  nTime := 1000000
  nLastTry := 0

/-- One address more than a bucket holds is added; then one is tried, connected and shown to others. -/
def neighbourOps : List AddrOp :=
  (List.range 65).map (fun n => .Add_ (neighbour n) peerSource 0 (fun _ => 0) fun _ => 1000000) ++
    [.Attempt_ (neighbour 40).toCService 1000010, .Good_ (neighbour 40).toCService 1000020 id,
      .Connected_ (neighbour 40).toCService 1003000, .GetAddr_ id,
      .Select_ true [{ bucket := 0, pos := 2, accepted := true }]]

theorem neighbourOps_times {op : AddrOp} (h : op ∈ neighbourOps) : op.Positive ∧ op.Dated := by
  simp only [neighbourOps, List.mem_append, List.mem_map, List.mem_cons, List.not_mem_nil,
    or_false] at h
  rcases h with ⟨n, -, rfl⟩ | rfl | rfl | rfl | rfl | rfl <;>
    simp [AddrOp.Positive, AddrOp.Dated]

/-- All addresses come to one bucket, and one of them is thrown out. -/
theorem addrRun_consistent_neighbours :
    ∃ s, addrRun (fun _ => 0) (.empty []) neighbourOps = .ok s ∧ s.Consistent ∧
      (s.nIdCount = 65 ∧ s.nNew = 63 ∧ s.nTried = 1) ∧ s.Check_ = 0 := by
  have hpositive : ∀ op ∈ neighbourOps, op.Positive := fun op hop => (neighbourOps_times hop).1
  have hdated : ∀ op ∈ neighbourOps, op.Dated := fun op hop => (neighbourOps_times hop).2
  have hcounts : (addrRun (fun _ => 0) (.empty []) neighbourOps).map
      (fun s => (s.nIdCount, s.nNew, s.nTried)) = .ok (65, 63, 1) := by
    decide +kernel
  cases addrRun_consistent (fun _ => 0) [] neighbourOps hpositive with
  | inl hover =>
    rw [hover.1] at hcounts
    cases hcounts
  | inr hok =>
    obtain ⟨s, hrun, hconsistent, hcheck⟩ := hok
    rw [hrun] at hcounts
    simp only [Except.map, Except.ok.injEq, Prod.mk.injEq] at hcounts
    exact ⟨s, hrun, hconsistent, hcounts, hcheck hdated⟩

/-- An attempt with a negative time leaves an entry that `Check_` objects to. -/
theorem Attempt_negative_time :
    (addrRun (fun _ => 0) (.empty []) [addPeer, .Attempt_ peerAddress.toCService (-1)]).map
      CAddrMan.Check_ = .ok (-6) := by
  decide

end Dions
