import Dions.Verification.AddrMan.Operations

/-! # The entry to evict

`SelectTried` remembers the place an entry was drawn from, and the exchange moves the entry away
from there. It returns the right place exactly when the oldest entry was drawn where it stays. -/

namespace Dions

variable {vTried : List ℕ}

namespace CAddrMan

variable {s : CAddrMan} {rand : ℕ → ℕ}

/-! ## What is inspected -/

/-- The place that round `i` draws in a bucket of `n` entries. -/
def drawnPos (rand : ℕ → ℕ) (n i : ℕ) : ℕ := GetRandInt (rand i) (n - i) + i

/-- The entry at place `i` and the one that is drawn change places. -/
def exchange (rand : ℕ → ℕ) (i : ℕ) (vTried : List ℕ) : List ℕ :=
  match vTried[drawnPos rand vTried.length i]?, vTried[i]? with
  | some nTemp, some nFirst => (vTried.set (drawnPos rand vTried.length i) nFirst).set i nTemp
  | _, _ => vTried

/-- The ids that the rounds from `i` on inspect: in each round, the one at the place drawn. -/
def inspected (rand : ℕ → ℕ) : (rounds i : ℕ) → List ℕ → List ℕ
  | 0, _, _ => []
  | rounds + 1, i, vTried =>
    vTried.getD (drawnPos rand vTried.length i) 0 ::
      inspected rand rounds (i + 1) (exchange rand i vTried)

def exchanged (rand : ℕ → ℕ) : (rounds i : ℕ) → List ℕ → List ℕ
  | 0, _, vTried => vTried
  | rounds + 1, i, vTried => exchanged rand rounds (i + 1) (exchange rand i vTried)

theorem drawnPos_lt {n i : ℕ} (hi : i < n) : drawnPos rand n i < n := by
  have hlt := GetRandInt_lt (rand i) (show 0 < n - i by omega)
  rw [drawnPos]
  omega

theorem le_drawnPos (n i : ℕ) : i ≤ drawnPos rand n i := Nat.le_add_left _ _

theorem exchange_eq {i : ℕ} {vTried : List ℕ} (hi : i < vTried.length) :
    ∃ nTemp nFirst, vTried[drawnPos rand vTried.length i]? = some nTemp ∧
      vTried[i]? = some nFirst ∧
      exchange rand i vTried = (vTried.set (drawnPos rand vTried.length i) nFirst).set i nTemp := by
  have htemp := List.getElem?_eq_getElem (@drawnPos_lt rand _ _ hi)
  have hfirst := List.getElem?_eq_getElem hi
  refine ⟨_, _, htemp, hfirst, ?_⟩
  rw [exchange, htemp, hfirst]

theorem exchange_perm {i : ℕ} {vTried : List ℕ} (hi : i < vTried.length) :
    (exchange rand i vTried).Perm vTried := by
  obtain ⟨nTemp, nFirst, htemp, hfirst, heq⟩ := @exchange_eq rand _ _ hi
  rw [heq]
  exact Slots.swap_perm htemp hfirst

theorem length_exchange {i : ℕ} {vTried : List ℕ} (hi : i < vTried.length) :
    (exchange rand i vTried).length = vTried.length :=
  (exchange_perm hi).length_eq

theorem length_inspected (rounds i : ℕ) (vTried : List ℕ) :
    (inspected rand rounds i vTried).length = rounds := by
  induction rounds generalizing i vTried with
  | zero => rfl
  | succ rounds ih => rw [inspected, List.length_cons, ih]

theorem exchanged_perm {rounds i : ℕ} {vTried : List ℕ} (h : i + rounds ≤ vTried.length) :
    (exchanged rand rounds i vTried).Perm vTried := by
  induction rounds generalizing i vTried with
  | zero => exact .refl _
  | succ rounds ih =>
    have hi : i < vTried.length := by omega
    have hlen := @length_exchange rand _ _ hi
    exact (ih (by omega)).trans (exchange_perm hi)

/-- Later rounds leave alone what is in front of them. -/
theorem exchanged_front {rounds i k : ℕ} (h : i + rounds ≤ vTried.length) (hk : k < i) :
    (exchanged rand rounds i vTried)[k]? = vTried[k]? := by
  induction rounds generalizing i vTried with
  | zero => rfl
  | succ rounds ih =>
    have hi : i < vTried.length := by omega
    have hlen := @length_exchange rand _ _ hi
    obtain ⟨nTemp, nFirst, htemp, hfirst, heq⟩ := @exchange_eq rand _ _ hi
    have hle := @le_drawnPos rand vTried.length i
    rw [exchanged, ih (by omega) (by omega), heq, Slots.getElem?_swap htemp hfirst,
      if_neg (by omega), if_neg (by omega)]

/-- What is inspected comes to stand in front, in the order of the rounds. -/
theorem exchanged_inspected {rounds i k : ℕ} {vTried : List ℕ} (h : i + rounds ≤ vTried.length)
    (hk : k < rounds) :
    (exchanged rand rounds i vTried)[i + k]? = (inspected rand rounds i vTried)[k]? := by
  induction rounds generalizing i k vTried with
  | zero => omega
  | succ rounds ih =>
    have hi : i < vTried.length := by omega
    have hlen := @length_exchange rand _ _ hi
    cases k with
    | zero =>
      obtain ⟨nTemp, nFirst, htemp, hfirst, heq⟩ := @exchange_eq rand _ _ hi
      rw [exchanged, exchanged_front (by omega) (by omega), heq,
        Slots.getElem?_swap htemp hfirst, if_pos (Nat.add_zero i), inspected, List.getElem?_cons_zero,
        List.getD_eq_getElem?_getD, htemp, Option.getD_some]
    | succ k =>
      rw [exchanged, inspected, List.getElem?_cons_succ,
        show i + (k + 1) = i + 1 + k by omega]
      exact ih (by omega) (by omega)

/-! ## What is remembered -/

def lastSuccess (s : CAddrMan) (nId : ℕ) : ℤ :=
  ((s.mapInfo.find nId).map CAddrInfo.nLastSuccess).getD 0

/-- Round `b` inspects `nId`, and no round something older, nor an earlier one something as old. -/
structure FirstOldest (s : CAddrMan) (seen : List ℕ) (b nId : ℕ) : Prop where
  at_round : seen[b]? = some nId
  least : ∀ k ∈ seen, s.lastSuccess nId ≤ s.lastSuccess k
  first : ∀ c < b, ∀ k, seen[c]? = some k → s.lastSuccess nId < s.lastSuccess k

variable {seen : List ℕ} {b nId nTemp : ℕ}

theorem FirstOldest.keep (h : s.FirstOldest seen b nId)
    (hle : s.lastSuccess nId ≤ s.lastSuccess nTemp) : s.FirstOldest (seen ++ [nTemp]) b nId where
  at_round := by
    rw [List.getElem?_append_left (List.getElem?_eq_some_iff.mp h.at_round).1]
    exact h.at_round
  least := by
    intro k hk
    rcases List.mem_append.mp hk with hk | hk
    · exact h.least k hk
    · rw [List.mem_singleton.mp hk]
      exact hle
  first := by
    intro c hc k hk
    have hb := (List.getElem?_eq_some_iff.mp h.at_round).1
    rw [List.getElem?_append_left (by omega)] at hk
    exact h.first c hc k hk

theorem FirstOldest.replace (h : ∀ k ∈ seen, s.lastSuccess nTemp < s.lastSuccess k) :
    s.FirstOldest (seen ++ [nTemp]) seen.length nTemp where
  at_round := by rw [List.getElem?_append_right le_rfl, Nat.sub_self, List.getElem?_cons_zero]
  least := by
    intro k hk
    rcases List.mem_append.mp hk with hk | hk
    · exact (h k hk).le
    · rw [List.mem_singleton.mp hk]
  first := by
    intro c hc k hk
    rw [List.getElem?_append_left hc] at hk
    exact h k (List.mem_of_getElem? hk)

/-- The first of the oldest is one entry of one round. -/
theorem FirstOldest.unique {c k : ℕ} (h : s.FirstOldest seen b nId) (h' : s.FirstOldest seen c k) :
    c = b := by
  rcases Nat.lt_trichotomy c b with hlt | heq | hlt
  · have := h.first c hlt k h'.at_round
    have := h'.least nId (List.mem_of_getElem? h.at_round)
    omega
  · exact heq
  · have := h'.first b hlt nId h.at_round
    have := h.least k (List.mem_of_getElem? h'.at_round)
    omega

/-- What the loop remembers after it has inspected `seen`, in a bucket of `n` entries. -/
def Remembered (s : CAddrMan) (rand : ℕ → ℕ) (n : ℕ) (seen : List ℕ) :
    Option (ℕ × ℕ) → Prop
  | none => seen = []
  | some (nId, nPos) => ∃ b, s.FirstOldest seen b nId ∧ nPos = drawnPos rand n b

theorem selectRound_remembered {nOldest : Option (ℕ × ℕ)}
    (hentry : ∀ nId ∈ vTried, ∃ info, s.mapInfo.find nId = some info)
    (hseen : ∀ nId ∈ seen, nId ∈ vTried) (hi : seen.length < vTried.length)
    (h : s.Remembered rand vTried.length seen nOldest) :
    ∃ nOldest', s.selectRound (rand seen.length) seen.length vTried nOldest =
        .ok (exchange rand seen.length vTried, nOldest') ∧
      s.Remembered rand vTried.length
        (seen ++ [vTried.getD (drawnPos rand vTried.length seen.length) 0]) nOldest' := by
  obtain ⟨nTemp, nFirst, htemp, hfirst, heq⟩ := @exchange_eq rand _ _ hi
  obtain ⟨info, hinfo⟩ := hentry nTemp (List.mem_of_getElem? htemp)
  have hsuccess : s.lastSuccess nTemp = info.nLastSuccess := by simp [lastSuccess, hinfo]
  rw [List.getD_eq_getElem?_getD, htemp, Option.getD_some, selectRound, heq]
  dsimp only
  rw [drawnPos] at htemp
  rw [htemp, hfirst]
  dsimp only
  cases nOldest with
  | none =>
    have hnone : seen = [] := h
    refine ⟨_, rfl, seen.length, .replace ?_, rfl⟩
    rw [hnone]
    simp
  | some oldest =>
    obtain ⟨nId, nPos⟩ := oldest
    obtain ⟨b, holdest, hpos⟩ := h
    obtain ⟨infoOldest, hinfoOldest⟩ :=
      hentry nId (hseen nId (List.mem_of_getElem? holdest.at_round))
    have hsuccess' : s.lastSuccess nId = infoOldest.nLastSuccess := by
      simp [lastSuccess, hinfoOldest]
    simp only [hinfo, hinfoOldest]
    by_cases hlt : info.nLastSuccess < infoOldest.nLastSuccess
    · rw [if_pos hlt]
      refine ⟨_, rfl, seen.length, .replace ?_, rfl⟩
      intro k hk
      have := holdest.least k hk
      omega
    · rw [if_neg hlt]
      exact ⟨_, rfl, b, holdest.keep (by omega), hpos⟩

theorem selectLoop_remembered {rounds : ℕ} {vTried : List ℕ} {nOldest : Option (ℕ × ℕ)}
    (hentry : ∀ nId ∈ vTried, ∃ info, s.mapInfo.find nId = some info)
    (hseen : ∀ nId ∈ seen, nId ∈ vTried) (hrounds : seen.length + rounds ≤ vTried.length)
    (h : s.Remembered rand vTried.length seen nOldest) :
    ∃ nOldest', s.selectLoop rand rounds seen.length vTried nOldest =
        .ok (exchanged rand rounds seen.length vTried, nOldest') ∧
      s.Remembered rand vTried.length (seen ++ inspected rand rounds seen.length vTried)
        nOldest' := by
  induction rounds generalizing seen vTried nOldest with
  | zero =>
    refine ⟨nOldest, rfl, ?_⟩
    rw [inspected, List.append_nil]
    exact h
  | succ rounds ih =>
    have hi : seen.length < vTried.length := by omega
    have hperm := @exchange_perm rand _ _ hi
    obtain ⟨nOldest₁, hround, h₁⟩ := selectRound_remembered hentry hseen hi h
    have hmem : vTried.getD (drawnPos rand vTried.length seen.length) 0 ∈ vTried := by
      rw [List.getD_eq_getElem?_getD, List.getElem?_eq_getElem (drawnPos_lt hi), Option.getD_some]
      exact List.getElem_mem _
    have h₁' : s.Remembered rand (exchange rand seen.length vTried).length
        (seen ++ [vTried.getD (drawnPos rand vTried.length seen.length) 0]) nOldest₁ := by
      rw [hperm.length_eq]
      exact h₁
    have hloop := @ih (seen ++ [vTried.getD (drawnPos rand vTried.length seen.length) 0])
      (exchange rand seen.length vTried) nOldest₁
      (fun nId hk => hentry nId (hperm.mem_iff.mp hk)) ?_ ?_ h₁'
    · rw [List.length_append, List.length_singleton, hperm.length_eq, List.append_assoc,
        List.singleton_append] at hloop
      rw [selectLoop, hround, exchanged, inspected]
      exact hloop
    · intro nId hk
      rw [hperm.mem_iff]
      rcases List.mem_append.mp hk with hk | hk
      · exact hseen nId hk
      · rw [List.mem_singleton.mp hk]
        exact hmem
    · rw [List.length_append, List.length_singleton, hperm.length_eq]
      omega

/-! ## What is returned -/

def inspectedRounds (vTried : List ℕ) : ℕ :=
  min ADDRMAN_TRIED_ENTRIES_INSPECT_ON_EVICT vTried.length

/-- The bucket is permuted, and the place returned holds one of the inspected entries that is as
old as any of them. -/
def ReturnsOldest (s : CAddrMan) (rand : ℕ → ℕ) (vTried : List ℕ) : Prop :=
  ∃ vTried' nPos nId, s.SelectTried rand vTried = .ok (vTried', some nPos) ∧
    vTried'.Perm vTried ∧ vTried'[nPos]? = some nId ∧
    nId ∈ inspected rand (inspectedRounds vTried) 0 vTried ∧
    ∀ k ∈ inspected rand (inspectedRounds vTried) 0 vTried, s.lastSuccess nId ≤ s.lastSuccess k

/-- The round that is the first to inspect an oldest entry draws the place of a round, its own or
another one, and the entry that this round inspects is as old. -/
def DrawnInFront (s : CAddrMan) (rand : ℕ → ℕ) (vTried : List ℕ) : Prop :=
  ∃ b nId nId', s.FirstOldest (inspected rand (inspectedRounds vTried) 0 vTried) b nId ∧
    (inspected rand (inspectedRounds vTried) 0 vTried)[drawnPos rand vTried.length b]? = some nId' ∧
    s.lastSuccess nId' = s.lastSuccess nId

theorem selectTried_oldest_iff {vTried : List ℕ}
    (hentry : ∀ nId ∈ vTried, ∃ info, s.mapInfo.find nId = some info) (hnodup : vTried.Nodup)
    (rand : ℕ → ℕ) : s.ReturnsOldest rand vTried ↔ s.DrawnInFront rand vTried := by
  have hrounds : 0 + inspectedRounds vTried ≤ vTried.length := by
    rw [inspectedRounds]
    omega
  obtain ⟨nOldest, hloop, hkept⟩ := @selectLoop_remembered s rand [] _ vTried none hentry
    (by simp) hrounds rfl
  rw [List.nil_append, List.length_nil] at hkept
  have hperm := @exchanged_perm rand _ _ _ hrounds
  have hfront {k : ℕ} (hk : k < inspectedRounds vTried) := @exchanged_inspected rand _ _ _ _ hrounds hk
  have hselect : s.SelectTried rand vTried = .ok (exchanged rand (inspectedRounds vTried) 0 vTried,
      nOldest.map Prod.snd) := by
    rw [SelectTried]
    rw [List.length_nil, inspectedRounds] at hloop
    rw [hloop]
    rfl
  have hlength := @length_inspected rand (inspectedRounds vTried) 0 vTried
  constructor
  · rintro ⟨vTried', nPos, nId', hret, -, hpos, hmem, hleast⟩
    rw [hselect] at hret
    cases nOldest with
    | none => cases hret
    | some oldest =>
      obtain ⟨nId, nPos₁⟩ := oldest
      cases hret
      obtain ⟨b, hfirst, rfl⟩ := hkept
      refine ⟨b, nId, nId', hfirst, ?_, ?_⟩
      · -- an inspected entry stands in front, and nowhere else
        obtain ⟨k, hk⟩ := List.mem_iff_getElem?.mp hmem
        have hlt := (List.getElem?_eq_some_iff.mp hk).1
        have hplace := hfront (hlength ▸ hlt)
        rw [Nat.zero_add, hk] at hplace
        have hsame : drawnPos rand vTried.length b = k :=
          Slots.nodup_place (hperm.nodup_iff.mpr hnodup) hpos hplace
        rw [hsame]
        exact hk
      · have := hfirst.least nId' hmem
        have := hleast nId (List.mem_of_getElem? hfirst.at_round)
        omega
  · rintro ⟨b, nId, nId', hfirst, hplace, hsame⟩
    cases nOldest with
    | none =>
      rw [show inspected rand (inspectedRounds vTried) 0 vTried = [] from hkept] at hplace
      cases hplace
    | some oldest =>
      obtain ⟨nId₁, nPos₁⟩ := oldest
      obtain ⟨c, hfirst', rfl⟩ := hkept
      have hcb := hfirst.unique hfirst'
      subst hcb
      have hlt := (List.getElem?_eq_some_iff.mp hplace).1
      have hstands := hfront (hlength ▸ hlt)
      rw [Nat.zero_add] at hstands
      refine ⟨_, _, nId', hselect, hperm, hstands.trans hplace, List.mem_of_getElem? hplace, ?_⟩
      intro k hk
      rw [hsame]
      exact hfirst.least k hk

end CAddrMan

/-! ## A full bucket -/

def seenAfter (n : ℕ) : CAddrInfo :=
  { CAddrInfo.ofAddress CAddrMan.noAddress CAddrMan.noAddress.toCNetAddr with
    nLastSuccess := n + 1, fInTried := true }

/-- The ids are those of 64 tried entries, the oldest first. -/
def fullManager : CAddrMan :=
  { CAddrMan.empty [] with
    mapInfo := (List.range 64).foldl (fun m n => m.insert n (seenAfter n)) .empty }

theorem fullManager_entries :
    ∀ nId ∈ List.range 64, ∃ info, fullManager.mapInfo.find nId = some info := by
  have hsome : ∀ nId ∈ List.range 64, (fullManager.mapInfo.find nId).isSome = true := by
    decide +kernel
  intro nId hmem
  exact Option.isSome_iff_exists.mp (hsome nId hmem)

/-- The first round puts the entry 1 in front of the oldest one, and the others draw their own places. -/
def oneExchange (round : ℕ) : ℕ := if round = 0 then 1 else 0

theorem selectTried_oldest_iff_exchanged :
    (List.range 64).Nodup ∧ CAddrMan.inspected oneExchange 4 0 (List.range 64) = [1, 0, 2, 3] ∧
      fullManager.ReturnsOldest oneExchange (List.range 64) := by
  have hinspected : CAddrMan.inspected oneExchange 4 0 (List.range 64) = [1, 0, 2, 3] := by
    decide +kernel
  refine ⟨List.nodup_range, hinspected, ?_⟩
  refine (CAddrMan.selectTried_oldest_iff fullManager_entries List.nodup_range _).mpr ?_
  refine ⟨1, 0, 0, ⟨by decide +kernel, by decide +kernel, ?_⟩, by decide +kernel, rfl⟩
  decide +kernel

/-- The rounds draw the entries 5 to 8, and the place returned is that of entry 0, which was not
inspected. -/
theorem selectTried_not_oldest :
    ¬ fullManager.ReturnsOldest (fun _ => 5) (List.range 64) := by
  rintro ⟨vTried', nPos, nId, hret, -, hpos, hmem, -⟩
  have hrun : (fullManager.SelectTried (fun _ => 5) (List.range 64)).map
      (fun found => (found.1[5]?, found.2)) = .ok (some 0, some 5) := by
    decide +kernel
  rw [hret] at hrun
  obtain ⟨hplace, hnPos⟩ := Prod.mk.inj (Except.ok.inj hrun)
  cases hnPos
  rw [hplace] at hpos
  cases hpos
  have hdrawn : 0 ∉ CAddrMan.inspected (fun _ => 5) 4 0 (List.range 64) := by
    decide +kernel
  exact hdrawn hmem

end Dions
