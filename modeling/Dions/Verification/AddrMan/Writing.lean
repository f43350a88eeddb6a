import Dions.Model.AddrManFile
import Dions.Verification.AddrMan.Checked

/-! # What the address manager writes

The counters are right where the check finds nothing wrong, so neither loop of the writer ends early:
the entries come table by table, each with the number of its place. -/

namespace Dions

open Codec

variable {k : ℕ}

namespace CAddrMan

variable {s : CAddrMan} {nVersion : ℤ}

/-! ## Entries -/

def entriesOf (s : CAddrMan) (fInTried : Bool) : List (ℕ × CAddrInfo) :=
  s.mapInfo.entries.filter fun e => e.2.fInTried == fInTried

def writeInfos (nVersion : ℤ) (infos : List CAddrInfo) : List UInt8 :=
  infos.flatMap fun info => CAddrInfo.wire.serialize (nVersion, info)

theorem writeInfos_cons (info : CAddrInfo) (infos : List CAddrInfo) :
    writeInfos nVersion (info :: infos) =
      CAddrInfo.wire.serialize (nVersion, info) ++ writeInfos nVersion infos :=
  List.flatMap_cons

/-- In the "new" table are the entries with a reference. -/
theorem writeNew_spec {nNew : ℤ} {it : List (ℕ × CAddrInfo)} {nIds : ℕ} {mapUnkIds : ℕ → ℕ}
    (hrefs : ∀ e ∈ it, e.2.nRefCount ≠ 0 ↔ e.2.fInTried = false)
    (hcount : nNew = nIds + (it.filter fun e => e.2.fInTried == false).length)
    (hnodup : (it.map Prod.fst).Nodup) :
    (writeNew nVersion nNew it nIds mapUnkIds).1 =
      writeInfos nVersion ((it.filter fun e => e.2.fInTried == false).map Prod.snd) ∧
    (∀ k ∉ it.map Prod.fst, (writeNew nVersion nNew it nIds mapUnkIds).2 k = mapUnkIds k) ∧
    ∀ i k, ((it.filter fun e => e.2.fInTried == false).map Prod.fst)[i]? = some k →
      (writeNew nVersion nNew it nIds mapUnkIds).2 k = nIds + i := by
  induction it generalizing nIds mapUnkIds with
  | nil => exact ⟨rfl, fun _ _ => rfl, fun i k h => by cases h⟩
  | cons e it ih =>
    obtain ⟨n, info⟩ := e
    rw [List.forall_mem_cons] at hrefs
    rw [List.map_cons, List.nodup_cons] at hnodup
    rw [writeNew]
    by_cases hdone : (nIds : ℤ) = nNew
    · have hnone : (((n, info) :: it).filter fun e => e.2.fInTried == false) = [] := by
        rw [← List.length_eq_zero_iff]
        omega
      rw [if_pos hdone, hnone]
      exact ⟨rfl, fun _ _ => rfl, fun i k h => by cases h⟩
    · rw [if_neg hdone]
      dsimp only
      by_cases hnew : info.nRefCount ≠ 0
      · have htried : info.fInTried = false := hrefs.1.mp hnew
        have hfilter : (((n, info) :: it).filter fun e => e.2.fInTried == false) =
            (n, info) :: it.filter fun e => e.2.fInTried == false :=
          List.filter_cons_of_pos (by rw [htried]; rfl)
        rw [hfilter, List.length_cons] at hcount
        obtain ⟨hwritten, hother, hplace⟩ := @ih (nIds + 1) (Function.update mapUnkIds n nIds) hrefs.2
          (by push_cast at hcount ⊢; omega) hnodup.2
        rw [if_pos hnew, hfilter]
        dsimp only
        refine ⟨?_, ?_, ?_⟩
        · rw [hwritten, List.map_cons, writeInfos_cons]
        · intro k hk
          rw [List.map_cons, List.mem_cons, not_or] at hk
          rw [hother k hk.2, Function.update_of_ne hk.1]
        · intro i k hk
          cases i with
          | zero =>
            cases hk
            rw [hother n hnodup.1, Function.update_self]
            rfl
          | succ i =>
            rw [hplace i k hk]
            omega
      · have htried : info.fInTried ≠ false := fun h => hnew (hrefs.1.mpr h)
        have hfilter : (((n, info) :: it).filter fun e => e.2.fInTried == false) =
            it.filter fun e => e.2.fInTried == false :=
          List.filter_cons_of_neg (by simpa using htried)
        rw [hfilter] at hcount
        obtain ⟨hwritten, hother, hplace⟩ := @ih nIds (Function.update mapUnkIds n nIds) hrefs.2 hcount
          hnodup.2
        rw [if_neg hnew, hfilter]
        refine ⟨hwritten, ?_, hplace⟩
        intro k hk
        rw [List.map_cons, List.mem_cons, not_or] at hk
        rw [hother k hk.2, Function.update_of_ne hk.1]

theorem writeTried_spec {nTried : ℤ} {it : List (ℕ × CAddrInfo)} {nIds : ℕ}
    (hcount : nTried = nIds + (it.filter fun e => e.2.fInTried == true).length) :
    writeTried nVersion nTried it nIds =
      writeInfos nVersion ((it.filter fun e => e.2.fInTried == true).map Prod.snd) := by
  induction it generalizing nIds with
  | nil => rfl
  | cons e it ih =>
    obtain ⟨n, info⟩ := e
    rw [writeTried]
    by_cases hdone : (nIds : ℤ) = nTried
    · have hnone : (((n, info) :: it).filter fun e => e.2.fInTried == true) = [] := by
        rw [← List.length_eq_zero_iff]
        omega
      rw [if_pos hdone, hnone]
      rfl
    · rw [if_neg hdone]
      by_cases htried : info.fInTried = true
      · have hfilter : (((n, info) :: it).filter fun e => e.2.fInTried == true) =
            (n, info) :: it.filter fun e => e.2.fInTried == true :=
          List.filter_cons_of_pos (by rw [htried]; rfl)
        rw [hfilter, List.length_cons] at hcount
        rw [if_pos htried, hfilter, ih (by push_cast at hcount ⊢; omega), List.map_cons,
          writeInfos_cons]
      · have hfilter : (((n, info) :: it).filter fun e => e.2.fInTried == true) =
            it.filter fun e => e.2.fInTried == true :=
          List.filter_cons_of_neg (by simpa using htried)
        rw [hfilter] at hcount
        rw [if_neg htried, hfilter, ih hcount]

/-! ## Numbers for the ids -/

theorem map_entriesOf (s : CAddrMan) (fInTried : Bool) :
    (s.entriesOf fInTried).map Prod.fst = s.idsOf fInTried := rfl

/-- The ids in the order in which their entries are written. -/
def saved (s : CAddrMan) : List ℕ := s.idsOf false ++ s.idsOf true

def number (s : CAddrMan) (nId : ℕ) : ℕ := s.saved.idxOf nId

theorem nodup_saved (s : CAddrMan) : s.saved.Nodup := by
  refine List.nodup_append.mpr ⟨nodup_idsOf false, nodup_idsOf true, ?_⟩
  intro k hk k' hk' heq
  obtain ⟨info, hinfo, hnew⟩ := mem_idsOf.mp hk
  obtain ⟨info', hinfo', htried⟩ := mem_idsOf.mp hk'
  rw [← heq, hinfo, Option.some.injEq] at hinfo'
  rw [← hinfo', hnew] at htried
  cases htried

theorem mem_saved : k ∈ s.saved ↔ (s.mapInfo.find k).isSome := by
  rw [saved, List.mem_append, mem_idsOf, mem_idsOf]
  cases s.mapInfo.find k with
  | none => simp
  | some info => cases h : info.fInTried <;> simp [h]

theorem saved_number (h : k ∈ s.saved) : s.saved[s.number k]? = some k := by
  have hlt : s.number k < s.saved.length := List.idxOf_lt_length_of_mem h
  rw [List.getElem?_eq_getElem hlt]
  exact congrArg some (List.getElem_idxOf hlt)

theorem number_of_saved {i : ℕ} (h : s.saved[i]? = some k) : s.number k = i :=
  Slots.nodup_place s.nodup_saved (saved_number (List.mem_of_getElem? h)) h

theorem Checked.mem_new (h : s.Checked) {vNew : OrdSet ℕ} (hbucket : vNew ∈ s.vvNew) {k : ℕ}
    (hk : k ∈ vNew.keys) : k ∈ s.idsOf false := by
  have hpos := occurrences_pos hbucket hk
  have hnew := h.new k
  rw [if_neg (by omega)] at hnew
  cases hinfo : s.mapInfo.find k with
  | none =>
    rw [hinfo] at hnew
    cases hnew
  | some info =>
    rw [hinfo, Option.bind_some, newRefs] at hnew
    refine mem_idsOf.mpr ⟨info, hinfo, ?_⟩
    by_contra htried
    rw [if_pos (eq_true_of_ne_false htried)] at hnew
    cases hnew

/-! ## The file as a whole -/

theorem Serialize_eq (h : s.Checked) :
    s.Serialize nVersion =
      (wireUnsigned 1).serialize 0 ++ wireBytes.serialize s.nKey ++
        (wireSigned 4).serialize s.nNew ++ (wireSigned 4).serialize s.nTried ++
        (wireSigned 4).serialize ADDRMAN_NEW_BUCKET_COUNT ++
        writeInfos nVersion ((s.entriesOf false).map Prod.snd) ++
        writeInfos nVersion ((s.entriesOf true).map Prod.snd) ++
        s.vvNew.flatMap (writeBucket s.number) := by
  have hrefs : ∀ e ∈ s.mapInfo.entries, e.2.nRefCount ≠ 0 ↔ e.2.fInTried = false := by
    intro e he
    have hentry := h.entry _ _ (OrdMap.mem_entries.mp he)
    cases htried : e.2.fInTried with
    | true => exact iff_of_false (not_not_intro (hentry.triedRefs htried)) nofun
    | false =>
      have := hentry.newRefs htried
      exact iff_of_true (by omega) rfl
  have hnNew : s.nNew = (0 : ℕ) + (s.entriesOf false).length := by
    rw [h.nNew, ← map_entriesOf, List.length_map, Nat.cast_zero, zero_add]
  have hnTried : s.nTried = (0 : ℕ) + (s.entriesOf true).length := by
    rw [h.nTried, ← map_entriesOf, List.length_map, Nat.cast_zero, zero_add]
  obtain ⟨hwritten, -, hplace⟩ :=
    @writeNew_spec nVersion s.nNew s.mapInfo.entries 0 (fun _ => 0) hrefs hnNew s.mapInfo.nodup_keys
  have hbuckets : s.vvNew.flatMap (writeBucket
      (writeNew nVersion s.nNew s.mapInfo.entries 0 fun _ => 0).2) =
      s.vvNew.flatMap (writeBucket s.number) := by
    refine List.flatMap_congr fun vNew hbucket => ?_
    rw [writeBucket, writeBucket]
    congr 1
    refine List.flatMap_congr fun k hk => ?_
    have hmem := h.mem_new hbucket hk
    have hlt : (s.idsOf false).idxOf k < (s.idsOf false).length := List.idxOf_lt_length_of_mem hmem
    have hnumber : s.number k = (s.idsOf false).idxOf k := List.idxOf_append_of_mem hmem
    have hfound : (s.idsOf false)[(s.idsOf false).idxOf k]? = some k := by
      rw [List.getElem?_eq_getElem hlt]
      exact congrArg some (List.getElem_idxOf hlt)
    rw [hplace _ k hfound, hnumber, Nat.zero_add]
  rw [Serialize]
  dsimp only
  rw [hwritten, hbuckets, writeTried_spec hnTried]
  rfl

end CAddrMan

end Dions
