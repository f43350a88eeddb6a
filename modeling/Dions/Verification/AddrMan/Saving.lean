import Dions.Verification.AddrMan.Loading

/-! # Saving and loading the address manager

The ids are numbered anew. With these numbers a reader finds the entries, the counts and the buckets
that were written, as long as no tried bucket is larger than what it has room for. -/

namespace Dions

open Codec

namespace CAddrMan

variable {s s' : CAddrMan} {nVersion : ℤ} {Hash : List UInt8 → ℕ}

/-! ## The entries in the order of the file -/

/-- An entry as it is found again, up to its references and its place. -/
def restored (info : CAddrInfo) : CAddrInfo := { info.stored with fInTried := info.fInTried }

def entriesSaved (s : CAddrMan) : List (ℕ × CAddrInfo) := s.entriesOf false ++ s.entriesOf true

def infosSaved (s : CAddrMan) : List CAddrInfo := s.entriesSaved.map fun e => restored e.2

theorem map_entriesSaved (s : CAddrMan) : s.entriesSaved.map Prod.fst = s.saved := by
  rw [entriesSaved, List.map_append, map_entriesOf, map_entriesOf, saved]

theorem length_infosSaved (s : CAddrMan) : s.infosSaved.length = s.saved.length := by
  rw [infosSaved, List.length_map, ← map_entriesSaved, List.length_map]

theorem find_of_mem_entriesSaved {e : ℕ × CAddrInfo} (h : e ∈ s.entriesSaved) :
    s.mapInfo.find e.1 = some e.2 := by
  refine OrdMap.mem_entries.mp ?_
  rcases List.mem_append.mp h with hmem | hmem
  · exact List.mem_of_mem_filter hmem
  · exact List.mem_of_mem_filter hmem

theorem infosSaved_eq_some {i : ℕ} {info' : CAddrInfo} :
    s.infosSaved[i]? = some info' ↔
      ∃ k info, s.mapInfo.find k = some info ∧ s.number k = i ∧ info' = restored info := by
  rw [infosSaved, List.getElem?_map, Option.map_eq_some_iff]
  constructor
  · rintro ⟨e, he, heq⟩
    have hsaved : s.saved[i]? = some e.1 := by
      rw [← map_entriesSaved, List.getElem?_map, he, Option.map_some]
    exact ⟨e.1, e.2, find_of_mem_entriesSaved (List.mem_of_getElem? he), number_of_saved hsaved,
      heq.symm⟩
  · rintro ⟨k, info, hinfo, hnumber, heq⟩
    have hsaved : s.saved[i]? = some k :=
      hnumber ▸ saved_number (mem_saved.mpr (Option.isSome_of_mem hinfo))
    rw [← map_entriesSaved, List.getElem?_map, Option.map_eq_some_iff] at hsaved
    obtain ⟨e, he, hk⟩ := hsaved
    have hfind := find_of_mem_entriesSaved (List.mem_of_getElem? he)
    rw [hk, hinfo, Option.some.injEq] at hfind
    exact ⟨e, he, hfind ▸ heq.symm⟩

theorem number_inj {k k' : ℕ} (hk : k ∈ s.saved) (hk' : k' ∈ s.saved)
    (heq : s.number k = s.number k') : k = k' := by
  have hplace := saved_number hk
  rw [heq, saved_number hk', Option.some.injEq] at hplace
  exact hplace.symm

/-! ## Counts -/

theorem Checked.refs (h : s.Checked) {k : ℕ} {info : CAddrInfo} (hinfo : s.mapInfo.find k = some info) :
    info.nRefCount = occurrences s.vvNew k := by
  have hnew := h.new k
  rw [hinfo, Option.bind_some, newRefs] at hnew
  cases htried : info.fInTried with
  | true =>
    rw [if_pos htried] at hnew
    by_cases hzero : occurrences s.vvNew k = 0
    · rw [(h.entry k info hinfo).triedRefs htried, hzero]
      rfl
    · rw [if_neg hzero] at hnew
      cases hnew
  | false =>
    rw [if_neg (by rw [htried]; exact Bool.false_ne_true)] at hnew
    by_cases hzero : occurrences s.vvNew k = 0
    · rw [if_pos hzero] at hnew
      cases hnew
    · rw [if_neg hzero] at hnew
      exact Option.some.inj hnew

def bucketsSaved (s : CAddrMan) : List (List ℕ) := s.vvNew.map fun vNew => vNew.keys.map s.number

theorem count_flatten_of_nodup {xss : List (List ℕ)} (h : ∀ xs ∈ xss, xs.Nodup) (i : ℕ) :
    xss.flatten.count i = xss.countP (i ∈ ·) := by
  induction xss with
  | nil => rfl
  | cons xs xss ih =>
    rw [List.forall_mem_cons] at h
    rw [List.flatten_cons, List.count_append, ih h.2, List.countP_cons, Nat.add_comm]
    congr 1
    by_cases hmem : i ∈ xs
    · rw [List.count_eq_one_of_mem h.1 hmem, if_pos (decide_eq_true hmem)]
    · rw [List.count_eq_zero_of_not_mem hmem, if_neg (by simpa using hmem)]

theorem countP_eq_of_getElem? {α β : Type} {p : α → Bool} {q : β → Bool} {xs : List α} {ys : List β}
    (hlength : xs.length = ys.length)
    (h : ∀ (b : ℕ) (x : α) (y : β), xs[b]? = some x → ys[b]? = some y → p x = q y) : xs.countP p = ys.countP q := by
  induction xs generalizing ys with
  | nil => rw [List.eq_nil_of_length_eq_zero hlength.symm, List.countP_nil, List.countP_nil]
  | cons x xs ih =>
    cases ys with
    | nil => cases hlength
    | cons y ys =>
      rw [List.countP_cons, List.countP_cons, h 0 x y rfl rfl,
        ih (Nat.succ.inj hlength) fun b x' y' hx hy => h (b + 1) x' y' hx hy]

theorem Checked.mem_saved_of_new (h : s.Checked) {vNew : OrdSet ℕ} (hbucket : vNew ∈ s.vvNew) {k : ℕ}
    (hk : k ∈ vNew.keys) : k ∈ s.saved :=
  List.mem_append_left _ (h.mem_new hbucket hk)

theorem Checked.count_bucketsSaved (h : s.Checked) (i : ℕ) :
    s.bucketsSaved.flatten.count i = s.bucketsSaved.countP (i ∈ ·) := by
  refine count_flatten_of_nodup (fun ns hns => ?_) i
  obtain ⟨vNew, hbucket, hmap⟩ := List.mem_map.mp hns
  rw [← hmap]
  refine List.Nodup.map_on (fun k hk k' hk' heq => ?_) vNew.nodup_keys
  exact number_inj (h.mem_saved_of_new hbucket hk) (h.mem_saved_of_new hbucket hk') heq

/-- An id is in as many "new" buckets as its number is. -/
theorem Checked.count_number (h : s.Checked) {k : ℕ} (hk : k ∈ s.saved) :
    s.bucketsSaved.flatten.count (s.number k) = occurrences s.vvNew k := by
  rw [h.count_bucketsSaved, bucketsSaved, List.countP_map, occurrences]
  refine List.countP_congr fun vNew hbucket => ?_
  rw [Function.comp_apply, decide_eq_true_iff, decide_eq_true_iff, List.mem_map]
  constructor
  · rintro ⟨k', hk', heq⟩
    rw [← number_inj (h.mem_saved_of_new hbucket hk') hk heq]
    exact hk'
  · exact fun hmem => ⟨k, hmem, rfl⟩

/-! ## What is asked of the manager -/

/-- The values are of the types of the program. -/
structure Fits (nVersion : ℤ) (s : CAddrMan) : Prop where
  version : (wireSigned 4).Valid nVersion
  nKey : wireBytes.Valid s.nKey
  nNew : (wireSigned 4).Valid s.nNew
  nTried : (wireSigned 4).Valid s.nTried
  info : ∀ k info, s.mapInfo.find k = some info → CAddrInfo.wire.Valid (nVersion, info.stored)
  vvTried : s.vvTried.length = ADDRMAN_TRIED_BUCKET_COUNT
  vvNew : s.vvNew.length = ADDRMAN_NEW_BUCKET_COUNT

/-- The tried entries are in the buckets that `GetTriedBucket` gives them. -/
def Placed (Hash : List UInt8 → ℕ) (s : CAddrMan) : Prop :=
  ∀ b vTried, s.vvTried[b]? = some vTried → ∀ k ∈ vTried, ∀ info, s.mapInfo.find k = some info →
    info.GetTriedBucket Hash s.nKey = b

theorem Checked.mem_vvTried (h : s.Checked) {k : ℕ} :
    (∃ (b : ℕ) (vTried : List ℕ), s.vvTried[b]? = some vTried ∧ k ∈ vTried) ↔ k ∈ s.idsOf true := by
  rw [← h.tried.mem_iff, List.mem_flatten]
  constructor
  · rintro ⟨b, vTried, hbucket, hmem⟩
    exact ⟨vTried, List.mem_of_getElem? hbucket, hmem⟩
  · rintro ⟨vTried, hbucket, hmem⟩
    obtain ⟨b, hb⟩ := List.getElem?_of_mem hbucket
    exact ⟨b, vTried, hb, hmem⟩

theorem Checked.mem_bucket (h : s.Checked) (hplaced : Placed Hash s) {k b : ℕ} {info : CAddrInfo}
    (hinfo : s.mapInfo.find k = some info) :
    (∃ vTried, s.vvTried[b]? = some vTried ∧ k ∈ vTried) ↔ inTried Hash s.nKey b info = true := by
  rw [inTried, Bool.and_eq_true, decide_eq_true_iff]
  constructor
  · rintro ⟨vTried, hbucket, hmem⟩
    obtain ⟨info', hinfo', htried⟩ := mem_idsOf.mp (h.mem_vvTried.mp ⟨b, vTried, hbucket, hmem⟩)
    rw [hinfo, Option.some.injEq] at hinfo'
    exact ⟨hinfo' ▸ htried, hplaced b vTried hbucket k hmem info hinfo⟩
  · rintro ⟨htried, hb⟩
    obtain ⟨b', vTried, hbucket, hmem⟩ := h.mem_vvTried.mpr (mem_idsOf.mpr ⟨info, hinfo, htried⟩)
    have heq := hplaced b' vTried hbucket k hmem info hinfo
    rw [hb] at heq
    exact ⟨vTried, heq ▸ hbucket, hmem⟩

/-- What a reader wants to put into a tried bucket is what the bucket holds. -/
theorem Checked.countP_inTried (h : s.Checked) (hplaced : Placed Hash s)
    (hroom : ∀ vTried ∈ s.vvTried, vTried.length ≤ ADDRMAN_TRIED_BUCKET_SIZE) (b : ℕ) :
    s.infosSaved.countP (inTried Hash s.nKey b) ≤ ADDRMAN_TRIED_BUCKET_SIZE := by
  have hkeys : (s.infosSaved.countP (inTried Hash s.nKey b)) =
      ((s.entriesSaved.filter fun e => inTried Hash s.nKey b e.2).map Prod.fst).length := by
    rw [infosSaved, List.countP_map, List.length_map, List.countP_eq_length_filter]
    rfl
  have hnodup : ((s.entriesSaved.filter fun e => inTried Hash s.nKey b e.2).map Prod.fst).Nodup := by
    refine List.Nodup.sublist (List.filter_sublist.map Prod.fst) ?_
    rw [map_entriesSaved]
    exact s.nodup_saved
  have hmem : ∀ k ∈ (s.entriesSaved.filter fun e => inTried Hash s.nKey b e.2).map Prod.fst,
      ∃ vTried, s.vvTried[b]? = some vTried ∧ k ∈ vTried := by
    intro k hk
    obtain ⟨e, he, heq⟩ := List.mem_map.mp hk
    obtain ⟨hentry, hin⟩ := List.mem_filter.mp he
    rw [← heq]
    exact (h.mem_bucket hplaced (find_of_mem_entriesSaved hentry)).mpr hin
  rw [hkeys]
  cases hbucket : s.vvTried[b]? with
  | none =>
    have hnil : (s.entriesSaved.filter fun e => inTried Hash s.nKey b e.2).map Prod.fst = [] := by
      refine List.eq_nil_iff_forall_not_mem.mpr fun k hk => ?_
      obtain ⟨vTried, hsome, -⟩ := hmem k hk
      rw [hbucket] at hsome
      cases hsome
    rw [hnil]
    exact Nat.zero_le _
  | some vTried =>
    refine le_trans (hnodup.subperm fun k hk => ?_).length_le
      (hroom vTried (List.mem_of_getElem? hbucket))
    obtain ⟨vTried', hsome, hk'⟩ := hmem k hk
    rw [hbucket, Option.some.injEq] at hsome
    exact hsome ▸ hk'

/-! ## Reading back what was written -/

/-- The tables are those that were written, with the numbers in place of the ids. -/
structure Reloaded (Hash : List UInt8 → ℕ) (s s' : CAddrMan) : Prop where
  loaded : Loaded s.infosSaved s.bucketsSaved.flatten s'
  tried : TriedBuckets Hash s.infosSaved s'
  new : BucketsWith (fun b i => ∃ ns, s.bucketsSaved[b]? = some ns ∧ i ∈ ns)
    (List.replicate ADDRMAN_NEW_BUCKET_COUNT .empty) s'.vvNew
  beside : Beside s s'

/-- The entries of one table, as a reader first has them. -/
def storedOf (s : CAddrMan) (fInTried : Bool) : List CAddrInfo :=
  (s.entriesOf fInTried).map fun e => e.2.stored

theorem length_storedOf (s : CAddrMan) (fInTried : Bool) :
    (s.storedOf fInTried).length = (s.idsOf fInTried).length := by
  rw [storedOf, List.length_map, ← map_entriesOf, List.length_map]

theorem Fits.storedOf (h : s.Fits nVersion) (fInTried : Bool) :
    ∀ info ∈ s.storedOf fInTried, CAddrInfo.wire.Valid (nVersion, info) := by
  intro info hinfo
  obtain ⟨e, he, heq⟩ := List.mem_map.mp hinfo
  rw [← heq]
  exact h.info e.1 e.2 (OrdMap.mem_entries.mp (List.mem_of_mem_filter he))

theorem fInTried_storedOf {fInTried : Bool} : ∀ info ∈ s.storedOf fInTried, info.fInTried = false := by
  intro info hinfo
  obtain ⟨e, -, heq⟩ := List.mem_map.mp hinfo
  rw [← heq]
  rfl

/-- What is in memory only is not written. -/
theorem writeInfos_storedOf (s : CAddrMan) (fInTried : Bool) :
    writeInfos nVersion (s.storedOf fInTried) =
      writeInfos nVersion ((s.entriesOf fInTried).map Prod.snd) := by
  rw [writeInfos, storedOf, writeInfos, List.flatMap_map, List.flatMap_map]
  rfl

theorem flatMap_writeBucket (s : CAddrMan) :
    s.vvNew.flatMap (writeBucket s.number) =
      s.bucketsSaved.flatMap fun (ns : List ℕ) => (wireSigned 4).serialize (ns.length : ℤ) ++
        ns.flatMap fun (n : ℕ) => (wireSigned 4).serialize (n : ℤ) := by
  rw [bucketsSaved, List.flatMap_map]
  refine List.flatMap_congr fun vNew _ => ?_
  rw [writeBucket, List.length_map, OrdMap.length_keys, List.flatMap_map]

theorem infosSaved_eq (s : CAddrMan) :
    s.infosSaved = s.storedOf false ++ (s.storedOf true).map tried := by
  rw [infosSaved, entriesSaved, List.map_append, storedOf, storedOf, List.map_map]
  congr 1
  · refine List.map_congr_left fun e he => ?_
    have hnew := beq_iff_eq.mp (List.mem_filter.mp he).2
    rw [restored, hnew]
    rfl
  · refine List.map_congr_left fun e he => ?_
    have htried := beq_iff_eq.mp (List.mem_filter.mp he).2
    rw [restored, htried]
    rfl

theorem Checked.nodup_addr (h : s.Checked) : (s.infosSaved.map fun i => i.toCNetAddr).Nodup := by
  rw [infosSaved, List.map_map]
  refine List.Nodup.map_on ?_ (List.Nodup.of_map Prod.fst (s.map_entriesSaved ▸ s.nodup_saved))
  intro e he e' he' heq
  have hfind := find_of_mem_entriesSaved he
  have hfind' := find_of_mem_entriesSaved he'
  have haddr := (h.entry e.1 e.2 hfind).addr
  have haddr' := (h.entry e'.1 e'.2 hfind').addr
  have hsame : e.2.toCNetAddr = e'.2.toCNetAddr := heq
  rw [hsame, haddr'] at haddr
  rw [haddr, hfind, Option.some.injEq] at hfind'
  exact Prod.ext haddr.symm hfind'

theorem Checked.bucketsSaved_fits (h : s.Checked) (hnNew : (wireSigned 4).Valid s.nNew) :
    ∀ ns ∈ s.bucketsSaved, ns.length < 2 ^ 31 ∧
      ∀ n ∈ ns, n < (s.idsOf false).length ∧ n < 2 ^ 31 := by
  have hlt : (s.idsOf false).length < 2 ^ 31 := by
    have hrange := (Codec.int_valid_iff _ 3 _).mp hnNew
    rw [h.nNew] at hrange
    norm_num at hrange
    omega
  intro ns hns
  obtain ⟨vNew, hbucket, hmap⟩ := List.mem_map.mp hns
  rw [← hmap, List.length_map]
  refine ⟨?_, ?_⟩
  · exact (vNew.nodup_keys.subperm fun k hk => h.mem_new hbucket hk).length_le.trans_lt hlt
  · intro n hn
    obtain ⟨k, hk, heq⟩ := List.mem_map.mp hn
    have hmem := h.mem_new hbucket hk
    have hplace : n < (s.idsOf false).length := by
      rw [← heq, number, saved, List.idxOf_append_of_mem hmem]
      exact List.idxOf_lt_length_of_mem hmem
    exact ⟨hplace, hplace.trans hlt⟩

theorem Checked.mem_bucketsSaved (h : s.Checked) {n : ℕ} (hn : n ∈ s.bucketsSaved.flatten) :
    ∃ k ∈ s.idsOf false, s.number k = n := by
  obtain ⟨ns, hns, hmem⟩ := List.mem_flatten.mp hn
  obtain ⟨vNew, hbucket, hmap⟩ := List.mem_map.mp hns
  rw [← hmap] at hmem
  obtain ⟨k, hk, heq⟩ := List.mem_map.mp hmem
  exact ⟨k, h.mem_new hbucket hk, heq⟩

theorem Checked.bucketsSaved_refs (h : s.Checked) (n : ℕ) :
    (s.bucketsSaved.flatten.count n : ℤ) ≤ ADDRMAN_NEW_BUCKETS_PER_ADDRESS := by
  by_cases hmem : n ∈ s.bucketsSaved.flatten
  · obtain ⟨k, hk, heq⟩ := h.mem_bucketsSaved hmem
    obtain ⟨info, hinfo, hnew⟩ := mem_idsOf.mp hk
    rw [← heq, h.count_number (mem_saved.mpr (Option.isSome_of_mem hinfo)), ← h.refs hinfo]
    exact ((h.entry k info hinfo).newRefs hnew).2
  · rw [List.count_eq_zero_of_not_mem hmem]
    decide

theorem Unserialize_Serialize (h : s.Checked) (hfits : s.Fits nVersion) (hplaced : Placed Hash s)
    (hroom : ∀ vTried ∈ s.vvTried, vTried.length ≤ ADDRMAN_TRIED_BUCKET_SIZE) (rest : List UInt8) :
    ∃ s', Unserialize Hash (s.Serialize nVersion ++ rest) = .ok (s', rest) ∧ Reloaded Hash s s' := by
  have hfresh := h.nodup_addr
  have hcount := h.countP_inTried hplaced hroom
  rw [infosSaved_eq] at hfresh hcount
  have hbucketsLength : s.bucketsSaved.length = ADDRMAN_NEW_BUCKET_COUNT := by
    rw [bucketsSaved, List.length_map, hfits.vvNew]
  have hns : ∀ ns ∈ s.bucketsSaved, ns.length < 2 ^ 31 ∧
      ∀ n ∈ ns, n < (s.storedOf false).length ∧ n < 2 ^ 31 := by
    rw [length_storedOf]
    exact h.bucketsSaved_fits hfits.nNew
  obtain ⟨s', hload, hloaded, htried, hbuckets, hkey, hnNew, hnTried⟩ :=
    loadTables_spec (h.nNew.trans (congrArg Nat.cast (length_storedOf s false).symm))
      (h.nTried.trans (congrArg Nat.cast (length_storedOf s true).symm)) (hfits.storedOf false)
      (hfits.storedOf true) fInTried_storedOf hfresh hcount hbucketsLength hns h.bucketsSaved_refs rest
  rw [← infosSaved_eq] at hloaded htried
  refine ⟨s', ?_, hloaded, htried, hbuckets, hkey, hnTried, hnNew⟩
  rw [writeInfos_storedOf, writeInfos_storedOf, ← flatMap_writeBucket] at hload
  have hzero : (wireUnsigned 1).Valid 0 := Nat.zero_lt_succ _
  have hheader : ((wireUnsigned 1).seq fun _ => wireBytes.seq fun _ => (wireSigned 4).seq fun _ =>
      (wireSigned 4).seq fun _ => wireSigned 4).Valid
        (0, s.nKey, s.nNew, s.nTried, (ADDRMAN_NEW_BUCKET_COUNT : ℤ)) :=
    ⟨hzero, hfits.nKey, hfits.nNew, hfits.nTried, wireSigned_valid_natCast (by decide)⟩
  rw [Unserialize, Serialize_eq h]
  simp only [List.append_assoc]
  have hread := load_serialize hheader (writeInfos nVersion ((s.entriesOf false).map Prod.snd) ++
    (writeInfos nVersion ((s.entriesOf true).map Prod.snd) ++
      (s.vvNew.flatMap (writeBucket s.number) ++ rest)))
  simp only [Codec.seq_serialize, List.append_assoc] at hread
  rw [hread]
  exact hload

/-! ## The manager that was read -/

def MemNew (s : CAddrMan) (b k : ℕ) : Prop := ∃ vNew, s.vvNew[b]? = some vNew ∧ k ∈ vNew.keys

def MemTried (s : CAddrMan) (b k : ℕ) : Prop := ∃ vTried, s.vvTried[b]? = some vTried ∧ k ∈ vTried

/-- `s'` is `s` with the ids renamed by `ρ`. -/
structure Renumbered (ρ : ℕ → ℕ) (s s' : CAddrMan) : Prop where
  injective : ∀ k k', (s.mapInfo.find k).isSome → (s.mapInfo.find k').isSome → ρ k = ρ k' → k = k'
  entry : ∀ k info, s.mapInfo.find k = some info → ∃ info', s'.mapInfo.find (ρ k) = some info' ∧
    info'.stored = info.stored ∧ info'.fInTried = info.fInTried ∧ info'.nRefCount = info.nRefCount
  onto : ∀ i, (s'.mapInfo.find i).isSome → ∃ k, (s.mapInfo.find k).isSome ∧ ρ k = i
  addr : ∀ k info, s.mapInfo.find k = some info → s'.mapAddr info.toCNetAddr = some (ρ k)
  new : ∀ b i, s'.MemNew b i ↔ ∃ k, s.MemNew b k ∧ ρ k = i
  tried : ∀ b i, s'.MemTried b i ↔ ∃ k, s.MemTried b k ∧ ρ k = i
  nKey : s'.nKey = s.nKey
  nNew : s'.nNew = s.nNew
  nTried : s'.nTried = s.nTried

def reread (i : ℕ) (info : CAddrInfo) : CAddrInfo :=
  { restored info with nRandomPos := i, nRefCount := info.nRefCount }

namespace Reloaded

theorem find (r : Reloaded Hash s s') (h : s.Checked) {i : ℕ} {info' : CAddrInfo} :
    s'.mapInfo.find i = some info' ↔
      ∃ k info, s.mapInfo.find k = some info ∧ s.number k = i ∧ info' = reread i info := by
  have hcount {k : ℕ} {info : CAddrInfo} (hinfo : s.mapInfo.find k = some info)
      (hnumber : s.number k = i) : (s.bucketsSaved.flatten.count i : ℤ) = info.nRefCount := by
    rw [← hnumber, h.count_number (mem_saved.mpr (Option.isSome_of_mem hinfo)), h.refs hinfo]
  rw [r.loaded.find, Option.map_eq_some_iff]
  constructor
  · rintro ⟨info₁, hsaved, heq⟩
    obtain ⟨k, info, hinfo, hnumber, hrestored⟩ := infosSaved_eq_some.mp hsaved
    refine ⟨k, info, hinfo, hnumber, ?_⟩
    rw [← heq, hrestored, hcount hinfo hnumber, reread]
  · rintro ⟨k, info, hinfo, hnumber, heq⟩
    refine ⟨restored info, infosSaved_eq_some.mpr ⟨k, info, hinfo, hnumber, rfl⟩, ?_⟩
    rw [heq, hcount hinfo hnumber, reread]

theorem mem_new_iff (r : Reloaded Hash s s') {b i : ℕ} {vNew' : OrdSet ℕ}
    (hbucket : s'.vvNew[b]? = some vNew') :
    i ∈ vNew'.keys ↔ ∃ ns, s.bucketsSaved[b]? = some ns ∧ i ∈ ns := by
  obtain ⟨vNew, hempty, hmem⟩ := r.new.2 b vNew' hbucket
  rw [hmem, List.eq_of_mem_replicate (List.mem_of_getElem? hempty)]
  exact or_iff_right nofun

theorem mem_new (r : Reloaded Hash s s') (hlength : s.vvNew.length = ADDRMAN_NEW_BUCKET_COUNT)
    (b i : ℕ) : s'.MemNew b i ↔ ∃ k, s.MemNew b k ∧ s.number k = i := by
  constructor
  · rintro ⟨vNew', hbucket, hmem⟩
    obtain ⟨ns, hns, hi⟩ := (r.mem_new_iff hbucket).mp hmem
    rw [bucketsSaved, List.getElem?_map, Option.map_eq_some_iff] at hns
    obtain ⟨vNew, hvNew, heq⟩ := hns
    rw [← heq] at hi
    obtain ⟨k, hk, hnumber⟩ := List.mem_map.mp hi
    exact ⟨k, ⟨vNew, hvNew, hk⟩, hnumber⟩
  · rintro ⟨k, ⟨vNew, hvNew, hk⟩, hnumber⟩
    have hlt : b < s'.vvNew.length := by
      rw [r.new.1, List.length_replicate, ← hlength]
      exact (List.getElem?_eq_some_iff.mp hvNew).1
    refine ⟨_, List.getElem?_eq_getElem hlt, (r.mem_new_iff (List.getElem?_eq_getElem hlt)).mpr ?_⟩
    refine ⟨vNew.keys.map s.number, ?_, hnumber ▸ List.mem_map_of_mem hk⟩
    rw [bucketsSaved, List.getElem?_map, hvNew, Option.map_some]

theorem mem_tried (r : Reloaded Hash s s') (h : s.Checked) (hplaced : Placed Hash s)
    (hlength : s.vvTried.length = ADDRMAN_TRIED_BUCKET_COUNT) (b i : ℕ) :
    s'.MemTried b i ↔ ∃ k, s.MemTried b k ∧ s.number k = i := by
  constructor
  · rintro ⟨vTried, hbucket, hmem⟩
    obtain ⟨info', hsaved, hin⟩ := (r.tried.mem b vTried hbucket i).mp hmem
    obtain ⟨k, info, hinfo, hnumber, heq⟩ := infosSaved_eq_some.mp hsaved
    rw [heq, r.beside.nKey] at hin
    exact ⟨k, (h.mem_bucket hplaced hinfo).mpr hin, hnumber⟩
  · rintro ⟨k, ⟨vTried, hbucket, hmem⟩, hnumber⟩
    have hlt : b < s'.vvTried.length := by
      rw [r.tried.length, ← hlength]
      exact (List.getElem?_eq_some_iff.mp hbucket).1
    obtain ⟨info, hinfo, -⟩ := mem_idsOf.mp (h.mem_vvTried.mp ⟨b, vTried, hbucket, hmem⟩)
    have hin := (h.mem_bucket hplaced hinfo).mp ⟨vTried, hbucket, hmem⟩
    rw [← r.beside.nKey] at hin
    refine ⟨_, List.getElem?_eq_getElem hlt, ?_⟩
    exact (r.tried.mem b _ (List.getElem?_eq_getElem hlt) i).mpr
      ⟨restored info, infosSaved_eq_some.mpr ⟨k, info, hinfo, hnumber, rfl⟩, hin⟩

theorem renumbered (r : Reloaded Hash s s') (h : s.Checked) (hplaced : Placed Hash s)
    (hfits : s.Fits nVersion) : Renumbered s.number s s' where
  injective k k' hk hk' heq := number_inj (mem_saved.mpr hk) (mem_saved.mpr hk') heq
  entry k info hinfo :=
    ⟨reread (s.number k) info, (r.find h).mpr ⟨k, info, hinfo, rfl, rfl⟩, rfl, rfl, rfl⟩
  onto i hi := by
    obtain ⟨info', hinfo'⟩ := Option.isSome_iff_exists.mp hi
    obtain ⟨k, info, hinfo, hnumber, -⟩ := (r.find h).mp hinfo'
    exact ⟨k, Option.isSome_of_mem hinfo, hnumber⟩
  addr k info hinfo :=
    r.loaded.addr _ (restored info) (infosSaved_eq_some.mpr ⟨k, info, hinfo, rfl, rfl⟩)
  new := r.mem_new hfits.vvNew
  tried := r.mem_tried h hplaced hfits.vvTried
  nKey := r.beside.nKey
  nNew := r.beside.nNew
  nTried := r.beside.nTried

/-! ## The check of the manager that was read -/

theorem occurrences_new (r : Reloaded Hash s s') (h : s.Checked)
    (hlength : s.vvNew.length = ADDRMAN_NEW_BUCKET_COUNT) (i : ℕ) :
    occurrences s'.vvNew i = s.bucketsSaved.flatten.count i := by
  rw [h.count_bucketsSaved, occurrences]
  refine countP_eq_of_getElem? ?_ fun b vNew' ns hbucket hns => ?_
  · rw [r.new.1, List.length_replicate, bucketsSaved, List.length_map, hlength]
  · rw [decide_eq_decide, r.mem_new_iff hbucket, hns]
    simp only [Option.some.injEq, exists_eq_left']

theorem idsOf_perm (r : Reloaded Hash s s') (h : s.Checked) (fInTried : Bool) :
    (s'.idsOf fInTried).Perm ((s.idsOf fInTried).map s.number) := by
  have hnodup : ((s.idsOf fInTried).map s.number).Nodup := by
    refine List.Nodup.map_on (fun k hk k' hk' heq => ?_) (nodup_idsOf fInTried)
    have hsaved {k : ℕ} (hk : k ∈ s.idsOf fInTried) : k ∈ s.saved := by
      obtain ⟨info, hinfo, -⟩ := mem_idsOf.mp hk
      exact mem_saved.mpr (Option.isSome_of_mem hinfo)
    exact number_inj (hsaved hk) (hsaved hk') heq
  refine (List.perm_ext_iff_of_nodup (nodup_idsOf fInTried) hnodup).mpr fun i => ?_
  rw [mem_idsOf, List.mem_map]
  constructor
  · rintro ⟨info', hinfo', htried⟩
    obtain ⟨k, info, hinfo, hnumber, heq⟩ := (r.find h).mp hinfo'
    exact ⟨k, mem_idsOf.mpr ⟨info, hinfo, by rw [← htried, heq]; rfl⟩, hnumber⟩
  · rintro ⟨k, hk, hnumber⟩
    obtain ⟨info, hinfo, htried⟩ := mem_idsOf.mp hk
    exact ⟨reread i info, (r.find h).mpr ⟨k, info, hinfo, hnumber, rfl⟩, htried⟩

theorem entry (r : Reloaded Hash s s') (h : s.Checked) {i : ℕ} {info' : CAddrInfo}
    (hinfo' : s'.mapInfo.find i = some info') : s'.EntryOk i info' := by
  obtain ⟨k, info, hinfo, hnumber, heq⟩ := (r.find h).mp hinfo'
  have hok := h.entry k info hinfo
  have hsaved : s.infosSaved[i]? = some (restored info) :=
    infosSaved_eq_some.mpr ⟨k, info, hinfo, hnumber, rfl⟩
  rw [heq]
  refine ⟨hok.triedSuccess, hok.triedRefs, hok.newRefs, ?_, ⟨Int.natCast_nonneg i, ?_⟩, le_rfl,
    hok.nLastSuccess⟩
  · rw [show (reread i info).toCNetAddr = (restored info).toCNetAddr from rfl,
      r.loaded.addr i _ hsaved, Option.getD_some]
  · rw [r.loaded.vRandom]
    exact List.getElem?_range (List.getElem?_eq_some_iff.mp hsaved).1

theorem perm_tried (r : Reloaded Hash s s') : s'.vvTried.flatten.Perm (s'.idsOf true) := by
  have hnodup : s'.vvTried.flatten.Nodup := by
    refine List.nodup_iff_count_le_one.mpr fun i => ?_
    rw [r.tried.count i]
    split <;> omega
  refine (List.perm_ext_iff_of_nodup hnodup (nodup_idsOf true)).mpr fun i => ?_
  rw [← List.count_pos_iff, r.tried.count i, mem_idsOf, r.loaded.find i]
  cases s.infosSaved[i]? with
  | none => simp
  | some info => cases htried : info.fInTried <;> simp [htried]

theorem checked (r : Reloaded Hash s s') (h : s.Checked)
    (hlength : s.vvNew.length = ADDRMAN_NEW_BUCKET_COUNT) : s'.Checked where
  total := by
    rw [r.loaded.vRandom, List.length_range, length_infosSaved, saved, List.length_append,
      r.beside.nTried, r.beside.nNew, h.nTried, h.nNew, Nat.cast_add, add_comm]
  entry _ _ hinfo' := r.entry h hinfo'
  nTried := by
    rw [r.beside.nTried, h.nTried, (r.idsOf_perm h true).length_eq, List.length_map]
  nNew := by
    rw [r.beside.nNew, h.nNew, (r.idsOf_perm h false).length_eq, List.length_map]
  tried := r.perm_tried
  new i := by
    rw [r.occurrences_new h hlength]
    cases hfind : s'.mapInfo.find i with
    | none =>
      have hnot : i ∉ s.bucketsSaved.flatten := by
        intro hmem
        obtain ⟨k, hk, hnumber⟩ := h.mem_bucketsSaved hmem
        obtain ⟨info, hinfo, -⟩ := mem_idsOf.mp hk
        rw [(r.find h).mpr ⟨k, info, hinfo, hnumber, rfl⟩] at hfind
        cases hfind
      rw [List.count_eq_zero_of_not_mem hnot]
      rfl
    | some info' =>
      obtain ⟨k, info, hinfo, hnumber, heq⟩ := (r.find h).mp hfind
      have hsame : newRefs info' = newRefs info := by
        rw [heq]
        rfl
      have hnew := h.new k
      rw [hinfo, Option.bind_some, ← h.count_number (mem_saved.mpr (Option.isSome_of_mem hinfo)),
        hnumber] at hnew
      rw [Option.bind_some, hsame, hnew]

end Reloaded

end CAddrMan

end Dions
