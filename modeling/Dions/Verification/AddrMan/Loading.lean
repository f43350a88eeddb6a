import Dions.Verification.AddrMan.Writing

/-! # What the address manager reads back

After each entry and each index the tables hold what has been read so far, under ids that count on. -/

namespace Dions

open Codec

variable {added added' : ℕ → ℕ → Prop} {vvNew vvNew' : List (OrdSet ℕ)}

theorem load_serialize {α : Type} {c : Wire α} {x : α} (h : c.Valid x) (rest : List UInt8) :
    CAddrMan.load c (c.serialize x ++ rest) = .ok (x, rest) := by
  rw [CAddrMan.load, c.round x rest h]

namespace CAddrMan

variable {s s' : CAddrMan} {nVersion : ℤ} {Hash : List UInt8 → ℕ}

/-! ## The tables so far -/

theorem getElem?_snoc {α : Type} (xs : List α) (x : α) (i : ℕ) :
    (xs ++ [x])[i]? = if i = xs.length then some x else xs[i]? := by
  by_cases hi : i = xs.length
  · rw [if_pos hi, hi, List.getElem?_concat_length]
  · rw [if_neg hi, List.getElem?_append]
    by_cases hlt : i < xs.length
    · rw [if_pos hlt]
    · rw [if_neg hlt, List.getElem?_eq_none (by rw [List.length_singleton]; omega),
        List.getElem?_eq_none (by omega)]

/-- The entries `done` have been read, and the indices `seen` behind them. -/
structure Loaded (done : List CAddrInfo) (seen : List ℕ) (s : CAddrMan) : Prop where
  find : ∀ i, s.mapInfo.find i =
    done[i]?.map fun info => { info with nRandomPos := i, nRefCount := seen.count i }
  addr : ∀ i info, done[i]? = some info → s.mapAddr info.toCNetAddr = some i
  vRandom : s.vRandom = List.range done.length

/-- What is read with the tables is not touched while they are filled. -/
structure Beside (s s' : CAddrMan) : Prop where
  nKey : s'.nKey = s.nKey
  nTried : s'.nTried = s.nTried
  nNew : s'.nNew = s.nNew

theorem Beside.trans {s₁ : CAddrMan} (h : Beside s s₁) (h' : Beside s₁ s') : Beside s s' :=
  ⟨h'.nKey.trans h.nKey, h'.nTried.trans h.nTried, h'.nNew.trans h.nNew⟩

theorem Loaded.push {done : List CAddrInfo} (h : Loaded done [] s) {info : CAddrInfo}
    (hrefs : info.nRefCount = 0) (hfresh : info.toCNetAddr ∉ done.map fun i => i.toCNetAddr)
    (hmap : s'.mapInfo = s.mapInfo.insert done.length { info with nRandomPos := done.length })
    (haddr : s'.mapAddr = Function.update s.mapAddr info.toCNetAddr (some done.length))
    (hrandom : s'.vRandom = s.vRandom ++ [done.length]) : Loaded (done ++ [info]) [] s' := by
  refine ⟨?_, ?_, ?_⟩
  · intro i
    rw [hmap, OrdMap.find_insert, getElem?_snoc]
    by_cases hi : i = done.length
    · rw [if_pos hi, if_pos hi, hi, Option.map_some, List.count_nil, Nat.cast_zero, ← hrefs]
    · rw [if_neg hi, if_neg hi, h.find i]
  · intro i info' hinfo
    rw [haddr]
    rw [getElem?_snoc] at hinfo
    by_cases hi : i = done.length
    · rw [if_pos hi, Option.some.injEq] at hinfo
      rw [← hinfo, Function.update_self, hi]
    · rw [if_neg hi] at hinfo
      have hne : info'.toCNetAddr ≠ info.toCNetAddr := by
        intro heq
        exact hfresh (heq ▸ List.mem_map.mpr ⟨info', List.mem_of_getElem? hinfo, rfl⟩)
      rw [Function.update_of_ne hne, h.addr i info' hinfo]
  · rw [hrandom, h.vRandom, List.length_append, List.length_singleton, List.range_succ]

/-! ## The "new" table -/

theorem stored_of_valid {info : CAddrInfo} (h : CAddrInfo.wire.Valid (nVersion, info)) :
    info.stored = info := h.2

theorem putNew_spec {done : List CAddrInfo} (h : Loaded done [] s) {info : CAddrInfo}
    (hrefs : info.nRefCount = 0) (hfresh : info.toCNetAddr ∉ done.map fun i => i.toCNetAddr) :
    ∃ s', putNew Hash ADDRMAN_NEW_BUCKET_COUNT s done.length info = .ok s' ∧
      Loaded (done ++ [info]) [] s' ∧ Beside s s' ∧ s'.vvTried = s.vvTried ∧ s'.vvNew = s.vvNew := by
  rw [putNew]
  dsimp only
  rw [if_neg (not_not_intro rfl)]
  refine ⟨_, rfl, h.push hrefs hfresh ?_ rfl rfl, ⟨rfl, rfl, rfl⟩, rfl, rfl⟩
  rw [h.vRandom, List.length_range]

theorem loadNew_spec {done infos : List CAddrInfo} (h : Loaded done [] s)
    (hvalid : ∀ info ∈ infos, CAddrInfo.wire.Valid (nVersion, info))
    (hfresh : ((done ++ infos).map fun i => i.toCNetAddr).Nodup) (rest : List UInt8) :
    ∃ s', loadNew Hash ADDRMAN_NEW_BUCKET_COUNT infos.length done.length s
        (writeInfos nVersion infos ++ rest) = .ok (s', rest) ∧
      Loaded (done ++ infos) [] s' ∧ Beside s s' ∧ s'.vvTried = s.vvTried ∧ s'.vvNew = s.vvNew := by
  induction infos generalizing done s with
  | nil =>
    rw [List.append_nil]
    exact ⟨s, rfl, h, ⟨rfl, rfl, rfl⟩, rfl, rfl⟩
  | cons info infos ih =>
    rw [List.forall_mem_cons] at hvalid
    have hrefs : info.nRefCount = 0 :=
      (congrArg CAddrInfo.nRefCount (stored_of_valid hvalid.1)).symm
    have hnot : info.toCNetAddr ∉ done.map fun i => i.toCNetAddr := by
      rw [List.map_append, List.map_cons] at hfresh
      intro hmem
      exact (List.nodup_append.mp hfresh).2.2 _ hmem _ (List.mem_cons_self ..) rfl
    obtain ⟨s₁, hput, hloaded, hbeside, htried, hnew⟩ := @putNew_spec s Hash done h info hrefs hnot
    have hfresh' : ((done ++ [info] ++ infos).map fun i => i.toCNetAddr).Nodup := by
      rw [List.append_assoc]
      exact hfresh
    obtain ⟨s', hload, hloaded', hbeside', htried', hnew'⟩ := ih hloaded hvalid.2 hfresh'
    rw [List.length_append, List.length_singleton] at hload
    refine ⟨s', ?_, ?_, hbeside.trans hbeside', htried'.trans htried, hnew'.trans hnew⟩
    · rw [List.length_cons, loadNew, writeInfos_cons, List.append_assoc, load_serialize hvalid.1]
      dsimp only
      rw [hput]
      exact hload
    · rw [List.append_assoc] at hloaded'
      exact hloaded'

/-! ## The tried table -/

def inTried (Hash : List UInt8 → ℕ) (nKey : List UInt8) (b : ℕ) (info : CAddrInfo) : Bool :=
  info.fInTried && decide (info.GetTriedBucket Hash nKey = b)

/-- What the tried buckets hold of the entries read so far. -/
structure TriedBuckets (Hash : List UInt8 → ℕ) (done : List CAddrInfo) (s : CAddrMan) : Prop where
  length : s.vvTried.length = ADDRMAN_TRIED_BUCKET_COUNT
  count : ∀ i, s.vvTried.flatten.count i = if done[i]?.any CAddrInfo.fInTried = true then 1 else 0
  mem : ∀ b vTried, s.vvTried[b]? = some vTried →
    ∀ i, i ∈ vTried ↔ ∃ info, done[i]? = some info ∧ inTried Hash s.nKey b info = true
  size : ∀ b vTried, s.vvTried[b]? = some vTried →
    vTried.length = done.countP (inTried Hash s.nKey b)

theorem TriedBuckets.empty {infos : List CAddrInfo} (hnew : ∀ info ∈ infos, info.fInTried = false)
    (hempty : s.vvTried = List.replicate ADDRMAN_TRIED_BUCKET_COUNT []) :
    TriedBuckets Hash infos s := by
  have hbucket {b : ℕ} {vTried : List ℕ} (h : s.vvTried[b]? = some vTried) : vTried = [] := by
    rw [hempty] at h
    exact List.eq_of_mem_replicate (List.mem_of_getElem? h)
  have hnot (b : ℕ) : ∀ info ∈ infos, ¬inTried Hash s.nKey b info = true := by
    intro info hinfo hin
    rw [inTried, hnew info hinfo] at hin
    cases hin
  refine ⟨?_, ?_, ?_, ?_⟩
  · rw [hempty, List.length_replicate]
  · intro i
    have hany : ¬infos[i]?.any CAddrInfo.fInTried = true := by
      intro hany
      obtain ⟨info, hinfo, htried⟩ := (Option.any_eq_true _ _).mp hany
      rw [hnew info (List.mem_of_getElem? hinfo)] at htried
      cases htried
    rw [hempty, if_neg hany, List.count_eq_zero]
    intro hmem
    obtain ⟨vTried, hvTried, hi⟩ := List.mem_flatten.mp hmem
    rw [List.eq_of_mem_replicate hvTried] at hi
    cases hi
  · intro b vTried h i
    rw [hbucket h]
    refine iff_of_false (List.not_mem_nil) ?_
    rintro ⟨info, hinfo, hin⟩
    exact hnot b info (List.mem_of_getElem? hinfo) hin
  · intro b vTried h
    rw [hbucket h, List.countP_eq_zero.mpr (hnot b), List.length_nil]

theorem TriedBuckets.same {done : List CAddrInfo} (h : TriedBuckets Hash done s)
    (hkey : s'.nKey = s.nKey) (htried : s'.vvTried = s.vvTried) : TriedBuckets Hash done s' := by
  refine ⟨?_, ?_, ?_, ?_⟩
  · rw [htried]
    exact h.length
  · rw [htried]
    exact h.count
  · rw [hkey, htried]
    exact h.mem
  · rw [hkey, htried]
    exact h.size

theorem TriedBuckets.push {done : List CAddrInfo} (h : TriedBuckets Hash done s) {b : ℕ}
    {vTried : List ℕ} (hbucket : s.vvTried[b]? = some vTried) {info : CAddrInfo}
    (hb : inTried Hash s.nKey b info = true) (hkey : s'.nKey = s.nKey)
    (hset : s'.vvTried = s.vvTried.set b (vTried ++ [done.length])) :
    TriedBuckets Hash (done ++ [info]) s' := by
  obtain ⟨htried, hplace⟩ := Bool.and_eq_true_iff.mp hb
  have hplace' := of_decide_eq_true hplace
  have hother {b' : ℕ} (hne : b' ≠ b) : inTried Hash s.nKey b' info = false := by
    rw [inTried, hplace', decide_eq_false fun heq => hne heq.symm, Bool.and_false]
  have hnone : done[done.length]? = none := List.getElem?_eq_none le_rfl
  refine ⟨?_, ?_, ?_, ?_⟩
  · rw [hset, List.length_set, h.length]
  · intro i
    have hcount := Slots.count_flatten_set i (vTried ++ [done.length]) hbucket
    rw [List.count_append, h.count i] at hcount
    rw [hset, getElem?_snoc]
    by_cases hi : i = done.length
    · rw [hi, hnone, List.count_singleton_self] at hcount
      rw [if_pos hi, hi, Option.any_some, if_pos htried]
      rw [Option.any_none, if_neg Bool.false_ne_true] at hcount
      omega
    · have hne : ¬(done.length == i) = true := fun heq => hi (beq_iff_eq.mp heq).symm
      rw [List.count_singleton, if_neg hne] at hcount
      rw [if_neg hi]
      omega
  · intro b' vTried' hbucket' i
    rw [hset, Slots.getElem?_set_some _ hbucket] at hbucket'
    rw [hkey]
    by_cases hb' : b' = b
    · rw [if_pos hb', Option.some.injEq] at hbucket'
      rw [← hbucket', List.mem_append, List.mem_singleton, h.mem b vTried hbucket, getElem?_snoc, hb']
      by_cases hi : i = done.length
      · rw [if_pos hi]
        exact iff_of_true (.inr hi) ⟨info, rfl, hb⟩
      · rw [if_neg hi, or_iff_left hi]
    · rw [if_neg hb'] at hbucket'
      rw [h.mem b' vTried' hbucket', getElem?_snoc]
      by_cases hi : i = done.length
      · rw [if_pos hi, hi, hnone]
        refine iff_of_false (fun hex => ?_) (fun hex => ?_)
        · obtain ⟨_, hcontra, -⟩ := hex
          cases hcontra
        · obtain ⟨info', hinfo, hin⟩ := hex
          rw [← Option.some.inj hinfo, hother hb'] at hin
          cases hin
      · rw [if_neg hi]
  · intro b' vTried' hbucket'
    rw [hset, Slots.getElem?_set_some _ hbucket] at hbucket'
    rw [hkey, List.countP_append, List.countP_singleton]
    by_cases hb' : b' = b
    · rw [if_pos hb', Option.some.injEq] at hbucket'
      rw [← hbucket', hb', if_pos hb, List.length_append, List.length_singleton,
        h.size b vTried hbucket]
    · rw [if_neg hb'] at hbucket'
      rw [hother hb', if_neg Bool.false_ne_true, Nat.add_zero, h.size b' vTried' hbucket']

def tried (info : CAddrInfo) : CAddrInfo := { info with fInTried := true }

theorem putTried_spec {done : List CAddrInfo} (h : Loaded done [] s)
    (hbuckets : TriedBuckets Hash done s) (hnext : s.nIdCount = done.length) {info : CAddrInfo}
    (hrefs : info.nRefCount = 0) (hfresh : info.toCNetAddr ∉ done.map fun i => i.toCNetAddr)
    (hroom : done.countP (inTried Hash s.nKey (info.GetTriedBucket Hash s.nKey)) <
      ADDRMAN_TRIED_BUCKET_SIZE) (nLost : ℕ) :
    ∃ s', putTried Hash s nLost info = .ok (s', nLost) ∧ Loaded (done ++ [tried info]) [] s' ∧
      TriedBuckets Hash (done ++ [tried info]) s' ∧ s'.nIdCount = done.length + 1 ∧
      Beside s s' ∧ s'.vvNew = s.vvNew := by
  have hlt : info.GetTriedBucket Hash s.nKey < s.vvTried.length := by
    rw [hbuckets.length]
    exact Nat.mod_lt _ (by decide)
  obtain ⟨vTried, hbucket⟩ : ∃ vTried, s.vvTried[info.GetTriedBucket Hash s.nKey]? = some vTried :=
    ⟨_, List.getElem?_eq_getElem hlt⟩
  have hin : inTried Hash s.nKey (info.GetTriedBucket Hash s.nKey) (tried info) = true :=
    Bool.and_eq_true_iff.mpr ⟨rfl, decide_eq_true rfl⟩
  rw [putTried, hbucket]
  dsimp only
  rw [if_pos (by rw [hbuckets.size _ _ hbucket]; exact hroom), hnext]
  refine ⟨_, rfl, @Loaded.push s _ done h (tried info) hrefs hfresh ?_ rfl rfl,
    hbuckets.push hbucket hin rfl rfl, rfl, ⟨rfl, rfl, rfl⟩, rfl⟩
  rw [h.vRandom, List.length_range]
  rfl

theorem loadTried_spec {done infos : List CAddrInfo} (h : Loaded done [] s)
    (hbuckets : TriedBuckets Hash done s) (hnext : s.nIdCount = done.length)
    (hvalid : ∀ info ∈ infos, CAddrInfo.wire.Valid (nVersion, info))
    (hfresh : ((done ++ infos.map tried).map fun i => i.toCNetAddr).Nodup)
    (hroom : ∀ b, (done ++ infos.map tried).countP (inTried Hash s.nKey b) ≤
      ADDRMAN_TRIED_BUCKET_SIZE) (nLost : ℕ) (rest : List UInt8) :
    ∃ s', loadTried Hash infos.length nLost s (writeInfos nVersion infos ++ rest) =
        .ok ((s', nLost), rest) ∧
      Loaded (done ++ infos.map tried) [] s' ∧ TriedBuckets Hash (done ++ infos.map tried) s' ∧
      Beside s s' ∧ s'.vvNew = s.vvNew := by
  induction infos generalizing done s with
  | nil =>
    rw [List.map_nil, List.append_nil]
    exact ⟨s, rfl, h, hbuckets, ⟨rfl, rfl, rfl⟩, rfl⟩
  | cons info infos ih =>
    rw [List.forall_mem_cons] at hvalid
    have hrefs : info.nRefCount = 0 :=
      (congrArg CAddrInfo.nRefCount (stored_of_valid hvalid.1)).symm
    have hnot : info.toCNetAddr ∉ done.map fun i => i.toCNetAddr := by
      rw [List.map_append, List.map_cons, List.map_cons] at hfresh
      intro hmem
      exact (List.nodup_append.mp hfresh).2.2 _ hmem _ (List.mem_cons_self ..) rfl
    rw [List.map_cons, List.append_cons] at hfresh hroom ⊢
    have hroom' : done.countP (inTried Hash s.nKey (info.GetTriedBucket Hash s.nKey)) <
        ADDRMAN_TRIED_BUCKET_SIZE := by
      have hin : inTried Hash s.nKey (info.GetTriedBucket Hash s.nKey) (tried info) = true :=
        Bool.and_eq_true_iff.mpr ⟨rfl, decide_eq_true rfl⟩
      have hall := hroom (info.GetTriedBucket Hash s.nKey)
      rw [List.countP_append, List.countP_append, List.countP_singleton, if_pos hin] at hall
      omega
    obtain ⟨s₁, hput, hloaded, hbuckets₁, hnext₁, hbeside, hnew⟩ :=
      @putTried_spec s Hash done h hbuckets hnext info hrefs hnot hroom' nLost
    obtain ⟨s', hload, hloaded', hbuckets', hbeside', hnew'⟩ :=
      ih hloaded hbuckets₁ (by rw [hnext₁, List.length_append, List.length_singleton]) hvalid.2 hfresh
        (by rw [hbeside.nKey]; exact hroom)
    refine ⟨s', ?_, hloaded', hbuckets', hbeside.trans hbeside', hnew'.trans hnew⟩
    rw [List.length_cons, loadTried, writeInfos_cons, List.append_assoc, load_serialize hvalid.1]
    dsimp only
    rw [hput]
    exact hload

/-! ## The "new" buckets -/

/-- The buckets that were there, with the ids that were added to some of them. -/
def BucketsWith (added : ℕ → ℕ → Prop) (vvNew vvNew' : List (OrdSet ℕ)) : Prop :=
  vvNew'.length = vvNew.length ∧ ∀ b vNew', vvNew'[b]? = some vNew' →
    ∃ vNew, vvNew[b]? = some vNew ∧ ∀ i, i ∈ vNew'.keys ↔ i ∈ vNew.keys ∨ added b i

theorem BucketsWith.refl (vvNew : List (OrdSet ℕ)) : BucketsWith (fun _ _ => False) vvNew vvNew :=
  ⟨rfl, fun _ vNew h => ⟨vNew, h, fun _ => (or_iff_left not_false).symm⟩⟩

theorem BucketsWith.trans {vvNew₁ : List (OrdSet ℕ)} (h : BucketsWith added vvNew vvNew₁)
    (h' : BucketsWith added' vvNew₁ vvNew') :
    BucketsWith (fun b i => added b i ∨ added' b i) vvNew vvNew' := by
  refine ⟨h'.1.trans h.1, fun b vNew' hbucket' => ?_⟩
  obtain ⟨vNew₁, hbucket₁, hmem'⟩ := h'.2 b vNew' hbucket'
  obtain ⟨vNew, hbucket, hmem⟩ := h.2 b vNew₁ hbucket₁
  exact ⟨vNew, hbucket, fun i => by rw [hmem', hmem, or_assoc]⟩

theorem BucketsWith.congr (h : BucketsWith added vvNew vvNew')
    (hsame : ∀ b i, added b i ↔ added' b i) : BucketsWith added' vvNew vvNew' := by
  refine ⟨h.1, fun b vNew' hbucket' => ?_⟩
  obtain ⟨vNew, hbucket, hmem⟩ := h.2 b vNew' hbucket'
  exact ⟨vNew, hbucket, fun i => by rw [hmem, hsame]⟩

theorem putIndex_spec {done : List CAddrInfo} {seen : List ℕ} (h : Loaded done seen s) {b n : ℕ}
    (hb : b < s.vvNew.length) (hn : n < done.length)
    (hrefs : (seen.count n : ℤ) < ADDRMAN_NEW_BUCKETS_PER_ADDRESS) :
    ∃ s', putIndex ADDRMAN_NEW_BUCKET_COUNT b s n = .ok s' ∧ Loaded done (seen ++ [n]) s' ∧
      Beside s s' ∧ s'.vvTried = s.vvTried ∧
      BucketsWith (fun b' i => b' = b ∧ i = n) s.vvNew s'.vvNew := by
  have hentry : s.mapInfo.find n =
      some { done[n] with nRandomPos := n, nRefCount := seen.count n } := by
    rw [h.find n, List.getElem?_eq_getElem hn, Option.map_some]
  have hbucket : s.vvNew[b]? = some s.vvNew[b] := List.getElem?_eq_getElem hb
  rw [putIndex, hentry, Option.getD_some]
  dsimp only
  rw [if_pos ⟨rfl, hrefs⟩]
  simp only [setInfo, hbucket]
  refine ⟨_, rfl, ⟨?_, h.addr, h.vRandom⟩, ⟨rfl, rfl, rfl⟩, rfl, List.length_set, ?_⟩
  · intro i
    rw [OrdMap.find_insert, OrdMap.find_insert, h.find i, List.count_append]
    by_cases hi : i = n
    · rw [if_pos hi, hi, List.getElem?_eq_getElem hn, List.count_singleton_self, Nat.cast_add]
      rfl
    · have hne : ¬(n == i) = true := fun heq => hi (beq_iff_eq.mp heq).symm
      rw [if_neg hi, if_neg hi, List.count_singleton, if_neg hne, Nat.add_zero]
  · intro b' vNew' hbucket'
    rw [Slots.getElem?_set_some _ hbucket] at hbucket'
    by_cases hb' : b' = b
    · rw [if_pos hb', Option.some.injEq] at hbucket'
      refine ⟨s.vvNew[b], by rw [hb', hbucket], fun i => ?_⟩
      rw [← hbucket', OrdMap.mem_keys_insert, or_comm]
      exact or_congr_right (and_iff_right hb').symm
    · rw [if_neg hb'] at hbucket'
      refine ⟨vNew', hbucket', fun i => (or_iff_left ?_).symm⟩
      exact fun hand => hb' hand.1

theorem wireSigned_valid_natCast {n : ℕ} (h : n < 2 ^ 31) : (wireSigned 4).Valid (n : ℤ) := by
  refine (Codec.int_valid_iff _ 3 _).mpr ?_
  norm_num
  omega

theorem loadIndices_spec {done : List CAddrInfo} {seen : List ℕ} (h : Loaded done seen s) {b : ℕ}
    (hb : b < s.vvNew.length) {ns : List ℕ} (hns : ∀ n ∈ ns, n < done.length ∧ n < 2 ^ 31)
    (hrefs : ∀ n, ((seen ++ ns).count n : ℤ) ≤ ADDRMAN_NEW_BUCKETS_PER_ADDRESS)
    (rest : List UInt8) :
    ∃ s', loadIndices ADDRMAN_NEW_BUCKET_COUNT b ns.length s
        ((ns.flatMap fun (n : ℕ) => (wireSigned 4).serialize (n : ℤ)) ++ rest) = .ok (s', rest) ∧
      Loaded done (seen ++ ns) s' ∧ Beside s s' ∧ s'.vvTried = s.vvTried ∧
      BucketsWith (fun b' i => b' = b ∧ i ∈ ns) s.vvNew s'.vvNew := by
  induction ns generalizing seen s with
  | nil =>
    rw [List.append_nil]
    exact ⟨s, rfl, h, ⟨rfl, rfl, rfl⟩, rfl, (BucketsWith.refl _).congr fun b' i =>
      iff_of_false not_false fun hand => nomatch hand.2⟩
  | cons n ns ih =>
    rw [List.forall_mem_cons] at hns
    have hcount : (seen.count n : ℤ) < ADDRMAN_NEW_BUCKETS_PER_ADDRESS := by
      have hall := hrefs n
      rw [List.count_append, List.count_cons_self] at hall
      push_cast at hall
      omega
    obtain ⟨s₁, hput, hloaded, hbeside, htried, hbuckets⟩ := putIndex_spec h hb hns.1.1 hcount
    rw [List.append_cons] at hrefs
    obtain ⟨s', hload, hloaded', hbeside', htried', hbuckets'⟩ :=
      ih hloaded (by rw [hbuckets.1]; exact hb) hns.2 hrefs
    have hvalid : (wireSigned 4).Valid (n : ℤ) := wireSigned_valid_natCast hns.1.2
    refine ⟨s', ?_, ?_, hbeside.trans hbeside', htried'.trans htried,
      (hbuckets.trans hbuckets').congr fun b' i => ?_⟩
    · rw [List.length_cons, loadIndices, List.flatMap_cons, List.append_assoc, load_serialize hvalid]
      dsimp only
      rw [if_neg (by omega), Int.toNat_natCast, hput]
      exact hload
    · rw [List.append_cons]
      exact hloaded'
    · rw [List.mem_cons, and_or_left]

theorem loadBuckets_spec {done : List CAddrInfo} {seen : List ℕ} (h : Loaded done seen s) {b : ℕ}
    {buckets : List (List ℕ)} (hb : b + buckets.length ≤ s.vvNew.length)
    (hns : ∀ ns ∈ buckets, ns.length < 2 ^ 31 ∧ ∀ n ∈ ns, n < done.length ∧ n < 2 ^ 31)
    (hrefs : ∀ n, ((seen ++ buckets.flatten).count n : ℤ) ≤ ADDRMAN_NEW_BUCKETS_PER_ADDRESS)
    (rest : List UInt8) :
    ∃ s', loadBuckets ADDRMAN_NEW_BUCKET_COUNT buckets.length b s
        ((buckets.flatMap fun (ns : List ℕ) => (wireSigned 4).serialize (ns.length : ℤ) ++
          ns.flatMap fun (n : ℕ) => (wireSigned 4).serialize (n : ℤ)) ++ rest) = .ok (s', rest) ∧
      Loaded done (seen ++ buckets.flatten) s' ∧ Beside s s' ∧ s'.vvTried = s.vvTried ∧
      BucketsWith (fun b' i => ∃ ns, b ≤ b' ∧ buckets[b' - b]? = some ns ∧ i ∈ ns) s.vvNew
        s'.vvNew := by
  induction buckets generalizing seen s b with
  | nil =>
    rw [List.flatten_nil, List.append_nil]
    refine ⟨s, rfl, h, ⟨rfl, rfl, rfl⟩, rfl, (BucketsWith.refl _).congr fun b' i => ?_⟩
    exact iff_of_false not_false fun hex => nomatch hex
  | cons ns buckets ih =>
    rw [List.forall_mem_cons] at hns
    rw [List.length_cons] at hb
    rw [List.flatten_cons, ← List.append_assoc] at hrefs ⊢
    have hcount (n : ℕ) : ((seen ++ ns).count n : ℤ) ≤ ADDRMAN_NEW_BUCKETS_PER_ADDRESS := by
      have hall := hrefs n
      rw [List.count_append] at hall
      omega
    obtain ⟨s₁, hload, hloaded, hbeside, htried, hbuckets⟩ :=
      @loadIndices_spec s done seen h b (by omega) ns hns.1.2 hcount
        ((buckets.flatMap fun (ns : List ℕ) => (wireSigned 4).serialize (ns.length : ℤ) ++
          ns.flatMap fun (n : ℕ) => (wireSigned 4).serialize (n : ℤ)) ++ rest)
    obtain ⟨s', hload', hloaded', hbeside', htried', hbuckets'⟩ :=
      @ih s₁ (seen ++ ns) hloaded (b + 1) (by rw [hbuckets.1]; omega) hns.2 hrefs
    refine ⟨s', ?_, hloaded', hbeside.trans hbeside', htried'.trans htried,
      (hbuckets.trans hbuckets').congr fun b' i => ?_⟩
    · rw [List.length_cons, loadBuckets, List.flatMap_cons, List.append_assoc, List.append_assoc,
        load_serialize (wireSigned_valid_natCast hns.1.1)]
      dsimp only
      rw [Int.toNat_natCast, hload]
      exact hload'
    · rcases Nat.lt_trichotomy b' b with hlt | heq | hgt
      · refine iff_of_false ?_ ?_
        · rintro (hand | ⟨_, hle, -⟩) <;> omega
        · rintro ⟨_, hle, -⟩
          omega
      · rw [heq, Nat.sub_self, List.getElem?_cons_zero]
        constructor
        · rintro (hand | ⟨_, hle, -⟩)
          · exact ⟨ns, le_rfl, rfl, hand.2⟩
          · omega
        · rintro ⟨ns', -, hns', hmem⟩
          exact .inl ⟨rfl, Option.some.inj hns' ▸ hmem⟩
      · have hplace : b' - b = (b' - (b + 1)) + 1 := by omega
        rw [hplace, List.getElem?_cons_succ]
        constructor
        · rintro (hand | ⟨ns', hle, hex⟩)
          · omega
          · exact ⟨ns', by omega, hex⟩
        · rintro ⟨ns', -, hex⟩
          exact .inr ⟨ns', hgt, hex⟩

/-! ## The three tables -/

theorem loadTables_spec {news trieds : List CAddrInfo} {buckets : List (List ℕ)} {nKey : List UInt8}
    {nNew nTried : ℤ} (hnNew : nNew = news.length) (hnTried : nTried = trieds.length)
    (hvalidNew : ∀ info ∈ news, CAddrInfo.wire.Valid (nVersion, info))
    (hvalidTried : ∀ info ∈ trieds, CAddrInfo.wire.Valid (nVersion, info))
    (hnew : ∀ info ∈ news, info.fInTried = false)
    (hfresh : ((news ++ trieds.map tried).map fun i => i.toCNetAddr).Nodup)
    (hroom : ∀ b, (news ++ trieds.map tried).countP (inTried Hash nKey b) ≤
      ADDRMAN_TRIED_BUCKET_SIZE)
    (hlength : buckets.length = ADDRMAN_NEW_BUCKET_COUNT)
    (hns : ∀ ns ∈ buckets, ns.length < 2 ^ 31 ∧ ∀ n ∈ ns, n < news.length ∧ n < 2 ^ 31)
    (hrefs : ∀ n, (buckets.flatten.count n : ℤ) ≤ ADDRMAN_NEW_BUCKETS_PER_ADDRESS)
    (rest : List UInt8) :
    ∃ s', loadTables Hash nKey nNew nTried ADDRMAN_NEW_BUCKET_COUNT
        (writeInfos nVersion news ++ (writeInfos nVersion trieds ++
          ((buckets.flatMap fun (ns : List ℕ) => (wireSigned 4).serialize (ns.length : ℤ) ++
            ns.flatMap fun (n : ℕ) => (wireSigned 4).serialize (n : ℤ)) ++ rest))) = .ok (s', rest) ∧
      Loaded (news ++ trieds.map tried) buckets.flatten s' ∧
      TriedBuckets Hash (news ++ trieds.map tried) s' ∧
      BucketsWith (fun b i => ∃ ns, buckets[b]? = some ns ∧ i ∈ ns)
        (List.replicate ADDRMAN_NEW_BUCKET_COUNT .empty) s'.vvNew ∧
      s'.nKey = nKey ∧ s'.nNew = nNew ∧ s'.nTried = nTried := by
  have hlengthNew : nNew.toNat = news.length := by rw [hnNew, Int.toNat_natCast]
  have hlengthTried : nTried.toNat = trieds.length := by rw [hnTried, Int.toNat_natCast]
  have hfreshNew := (List.nodup_append.mp (List.map_append ▸ hfresh)).1
  generalize hbytes : (buckets.flatMap fun (ns : List ℕ) => (wireSigned 4).serialize (ns.length : ℤ) ++
    ns.flatMap fun (n : ℕ) => (wireSigned 4).serialize (n : ℤ)) = bytes
  -- The "new" entries.
  obtain ⟨s₁, hload₁, hloaded₁, hbeside₁, htried₁, hnew₁⟩ :=
    @loadNew_spec { CAddrMan.empty nKey with nNew := nNew, nTried := nTried } nVersion Hash [] news
      ⟨fun i => rfl, nofun, rfl⟩ hvalidNew hfreshNew (writeInfos nVersion trieds ++ (bytes ++ rest))
  rw [List.nil_append] at hloaded₁
  rw [List.length_nil, ← hlengthNew] at hload₁
  -- The tried entries.
  have hkey₁ : s₁.nKey = nKey := hbeside₁.nKey
  obtain ⟨s₂, hload₂, hloaded₂, hbuckets₂, hbeside₂, hnew₂⟩ :=
    @loadTried_spec { s₁ with nIdCount := nNew.toNat } nVersion Hash news trieds
      ⟨hloaded₁.find, hloaded₁.addr, hloaded₁.vRandom⟩ (.empty hnew htried₁) hlengthNew hvalidTried
      hfresh (by rw [hkey₁]; exact hroom) 0 (bytes ++ rest)
  rw [← hlengthTried] at hload₂
  -- The "new" buckets.
  have hempty : s₂.vvNew = List.replicate ADDRMAN_NEW_BUCKET_COUNT .empty := hnew₂.trans hnew₁
  obtain ⟨s', hload, hloaded, hbeside, htried, hbuckets⟩ :=
    @loadBuckets_spec { s₂ with nTried := s₂.nTried - (0 : ℕ) } (news ++ trieds.map tried) []
      ⟨hloaded₂.find, hloaded₂.addr, hloaded₂.vRandom⟩ 0 buckets
      (by rw [hempty, List.length_replicate, hlength, Nat.zero_add])
      (fun ns h => ⟨(hns ns h).1, fun n hn => ⟨by
        rw [List.length_append]
        exact Nat.lt_add_right _ ((hns ns h).2 n hn).1, ((hns ns h).2 n hn).2⟩⟩) hrefs rest
  rw [hbytes, hlength] at hload
  rw [List.nil_append] at hloaded
  refine ⟨s', ?_, hloaded, ?_, ?_, ?_, ?_, ?_⟩
  · rw [loadTables]
    dsimp only
    rw [hload₁]
    dsimp only
    rw [hload₂]
    exact hload
  · exact hbuckets₂.same hbeside.nKey htried
  · rw [hempty] at hbuckets
    refine hbuckets.congr fun b i => ?_
    rw [Nat.sub_zero]
    simp only [Nat.zero_le, true_and]
  · exact hbeside.nKey.trans (hbeside₂.nKey.trans hkey₁)
  · exact hbeside.nNew.trans (hbeside₂.nNew.trans hbeside₁.nNew)
  · rw [hbeside.nTried, Nat.cast_zero, sub_zero]
    exact hbeside₂.nTried.trans hbeside₁.nTried

end CAddrMan

end Dions
