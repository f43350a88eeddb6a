import Dions.Library.Slots
import Dions.Model.AddrMan

/-! # The table of ids

`mapInfo`, `mapAddr` and `vRandom` hold the same ids: an entry is found under its address, and lies
in the vector at the place that it says. -/

namespace Dions

variable {m m' : OrdMap ℕ CAddrInfo} {nId : ℕ} {mapAddr : CNetAddr → Option ℕ} {vRandom : List ℕ}
variable {info : Option CAddrInfo}

/-- Two maps that differ at one id. -/
def Sets (m m' : OrdMap ℕ CAddrInfo) (nId : ℕ) (info : Option CAddrInfo) : Prop :=
  ∀ k, m'.find k = if k = nId then info else m.find k

theorem sets_insert (m : OrdMap ℕ CAddrInfo) (nId : ℕ) (info : CAddrInfo) :
    Sets m (m.insert nId info) nId (some info) := fun k => OrdMap.find_insert m nId k info

theorem sets_erase (m : OrdMap ℕ CAddrInfo) (nId : ℕ) : Sets m (m.erase nId) nId none :=
  fun k => OrdMap.find_erase m nId k

theorem Sets.self (h : Sets m m' nId info) :
    m'.find nId = info := by rw [h nId, if_pos rfl]

theorem Sets.other {k : ℕ} (h : Sets m m' nId info) (hk : k ≠ nId) :
    m'.find k = m.find k := by rw [h k, if_neg hk]

/-- What was put under the id before does not matter. -/
theorem Sets.insert {old : Option CAddrInfo} (h : Sets m m' nId old) (info : CAddrInfo) :
    Sets m (m'.insert nId info) nId (some info) := by
  intro k
  rw [OrdMap.find_insert, h k]
  split <;> rfl

theorem Sets.forall (h : Sets m m' nId info) {P : ℕ → CAddrInfo → Prop}
    (hall : ∀ k info, m.find k = some info → P k info)
    (hnew : ∀ info', info = some info' → P nId info') (k : ℕ) (info' : CAddrInfo)
    (hfind : m'.find k = some info') : P k info' := by
  rw [h k] at hfind
  by_cases hk : k = nId
  · rw [if_pos hk] at hfind
    rw [hk]
    exact hnew info' hfind
  · rw [if_neg hk] at hfind
    exact hall k info' hfind

/-- The entry without its place in `vRandom`. -/
def CAddrInfo.bare (info : CAddrInfo) : CAddrInfo := { info with nRandomPos := 0 }

/-- The entries are the same up to their places. -/
def SameEntries (m m' : OrdMap ℕ CAddrInfo) : Prop :=
  ∀ k, (m'.find k).map CAddrInfo.bare = (m.find k).map CAddrInfo.bare

theorem SameEntries.find (h : SameEntries m m') {k : ℕ} {info : CAddrInfo}
    (hinfo : m.find k = some info) : ∃ info', m'.find k = some info' ∧ info'.bare = info.bare := by
  have hk := h k
  rw [hinfo] at hk
  cases hfind : m'.find k with
  | none => rw [hfind] at hk; cases hk
  | some info' =>
    rw [hfind] at hk
    exact ⟨info', rfl, Option.some.inj hk⟩

theorem SameEntries.find' (h : SameEntries m m') {k : ℕ} {info' : CAddrInfo}
    (hinfo : m'.find k = some info') : ∃ info, m.find k = some info ∧ info'.bare = info.bare := by
  obtain ⟨info, hfind, hbare⟩ := SameEntries.find (fun k => (h k).symm) hinfo
  exact ⟨info, hfind, hbare.symm⟩

/-- Two entries that are the same up to their places have the same other fields. -/
theorem CAddrInfo.bare_fields {info info' : CAddrInfo} (h : info'.bare = info.bare) :
    info'.toCAddress = info.toCAddress ∧ info'.fInTried = info.fInTried ∧
      info'.nRefCount = info.nRefCount ∧ info'.nLastSuccess = info.nLastSuccess := by
  have haddr := congrArg CAddrInfo.toCAddress h
  have htried := congrArg CAddrInfo.fInTried h
  have hrefs := congrArg CAddrInfo.nRefCount h
  have hsuccess := congrArg CAddrInfo.nLastSuccess h
  exact ⟨haddr, htried, hrefs, hsuccess⟩

/-! ## The invariant -/

structure Tabled (m : OrdMap ℕ CAddrInfo) (mapAddr : CNetAddr → Option ℕ) (vRandom : List ℕ) :
    Prop where
  nodup : vRandom.Nodup
  mem : ∀ nId, nId ∈ vRandom ↔ ∃ info, m.find nId = some info
  pos : ∀ nId info, m.find nId = some info →
    ∃ k : ℕ, info.nRandomPos = k ∧ vRandom[k]? = some nId
  addr : ∀ a nId, mapAddr a = some nId ↔ ∃ info, m.find nId = some info ∧ info.toCNetAddr = a

/-- An entry is changed but for its address and its place. -/
theorem Tabled.update (h : Tabled m mapAddr vRandom) {nId : ℕ} {info info' : CAddrInfo}
    (hinfo : m.find nId = some info) (hsets : Sets m m' nId (some info'))
    (haddr : info'.toCNetAddr = info.toCNetAddr) (hpos : info'.nRandomPos = info.nRandomPos) :
    Tabled m' mapAddr vRandom := by
  refine ⟨h.nodup, ?_, ?_, ?_⟩
  · intro k
    rw [h.mem k, hsets k]
    by_cases hk : k = nId
    · simp [hk, hinfo]
    · simp [hk]
  · intro k info₁ hfind
    rw [hsets k] at hfind
    by_cases hk : k = nId
    · rw [if_pos hk, Option.some.injEq] at hfind
      rw [← hfind, hpos, hk]
      exact h.pos nId info hinfo
    · rw [if_neg hk] at hfind
      exact h.pos k info₁ hfind
  · intro a k
    rw [h.addr a k, hsets k]
    by_cases hk : k = nId
    · simp [hk, hinfo, haddr]
    · simp [hk]

theorem Tabled.create (h : Tabled m mapAddr vRandom) {nId : ℕ} {info : CAddrInfo}
    (hfresh : m.find nId = none) (haddr : mapAddr info.toCNetAddr = none)
    (hsets : Sets m m' nId (some info)) (hpos : info.nRandomPos = vRandom.length) :
    Tabled m' (Function.update mapAddr info.toCNetAddr (some nId)) (vRandom ++ [nId]) := by
  have hnot : nId ∉ vRandom := by
    intro hmem
    obtain ⟨old, hold⟩ := (h.mem nId).mp hmem
    rw [hfresh] at hold
    cases hold
  refine ⟨?_, ?_, ?_, ?_⟩
  · exact List.nodup_append.mpr ⟨h.nodup, List.nodup_singleton nId, by
      intro k hk k' hk'
      rw [List.mem_singleton.mp hk']
      exact fun heq => hnot (heq ▸ hk)⟩
  · intro k
    rw [List.mem_append, List.mem_singleton, h.mem k, hsets k]
    by_cases hk : k = nId
    · simp [hk]
    · simp [hk]
  · intro k info₁ hfind
    rw [hsets k] at hfind
    by_cases hk : k = nId
    · rw [if_pos hk, Option.some.injEq] at hfind
      exact ⟨vRandom.length, by rw [← hfind, hpos], by rw [hk, List.getElem?_concat_length]⟩
    · rw [if_neg hk] at hfind
      obtain ⟨i, hi, hplace⟩ := h.pos k info₁ hfind
      have hlt := (List.getElem?_eq_some_iff.mp hplace).1
      exact ⟨i, hi, by rw [List.getElem?_append_left hlt, hplace]⟩
  · intro a k
    rw [hsets k]
    by_cases ha : a = info.toCNetAddr
    · rw [ha, Function.update_self]
      by_cases hk : k = nId
      · simp [hk]
      · have hother : ¬∃ info₁, m.find k = some info₁ ∧ info₁.toCNetAddr = info.toCNetAddr := by
          intro hex
          rw [← h.addr, haddr] at hex
          cases hex
        rw [if_neg hk]
        exact iff_of_false (fun heq => hk (Option.some.inj heq).symm) hother
    · rw [Function.update_of_ne ha, h.addr a k]
      by_cases hk : k = nId
      · simp [hk, hfresh, Ne.symm ha]
      · simp [hk]

/-! ## Exchange and removal -/

/-- What `SwapRandom` does with two different places. -/
theorem Tabled.swap (h : Tabled m mapAddr vRandom) {i j nId₁ nId₂ : ℕ} {info₁ info₂ : CAddrInfo}
    (hne : i ≠ j) (hi : vRandom[i]? = some nId₁) (hj : vRandom[j]? = some nId₂)
    (hfind₁ : m.find nId₁ = some info₁) (hfind₂ : m.find nId₂ = some info₂) :
    Tabled ((m.insert nId₁ { info₁ with nRandomPos := j }).insert nId₂
        { info₂ with nRandomPos := i }) mapAddr ((vRandom.set i nId₂).set j nId₁) ∧
      SameEntries m ((m.insert nId₁ { info₁ with nRandomPos := j }).insert nId₂
        { info₂ with nRandomPos := i }) := by
  have hids : nId₁ ≠ nId₂ := fun heq => hne (Slots.nodup_place h.nodup hi (heq ▸ hj))
  have hperm := Slots.swap_perm hi hj
  have hfind : ∀ k, ((m.insert nId₁ { info₁ with nRandomPos := (j : ℤ) }).insert nId₂
      { info₂ with nRandomPos := (i : ℤ) }).find k =
        if k = nId₂ then some { info₂ with nRandomPos := (i : ℤ) }
        else if k = nId₁ then some { info₁ with nRandomPos := (j : ℤ) } else m.find k := by
    intro k
    rw [OrdMap.find_insert, OrdMap.find_insert]
  have hsame : SameEntries m ((m.insert nId₁ { info₁ with nRandomPos := (j : ℤ) }).insert nId₂
      { info₂ with nRandomPos := (i : ℤ) }) := by
    intro k
    rw [hfind k]
    by_cases hk₂ : k = nId₂
    · rw [if_pos hk₂, hk₂, hfind₂]
      rfl
    · by_cases hk₁ : k = nId₁
      · rw [if_neg hk₂, if_pos hk₁, hk₁, hfind₁]
        rfl
      · rw [if_neg hk₂, if_neg hk₁]
  refine ⟨⟨hperm.nodup_iff.mpr h.nodup, ?_, ?_, ?_⟩, hsame⟩
  · intro k
    rw [hperm.mem_iff, h.mem k]
    constructor
    · intro hex
      obtain ⟨info, hinfo⟩ := hex
      obtain ⟨info', hinfo', -⟩ := hsame.find hinfo
      exact ⟨info', hinfo'⟩
    · intro hex
      obtain ⟨info', hinfo'⟩ := hex
      obtain ⟨info, hinfo, -⟩ := hsame.find' hinfo'
      exact ⟨info, hinfo⟩
  · intro k info hinfo
    rw [hfind k] at hinfo
    by_cases hk₂ : k = nId₂
    · rw [if_pos hk₂, Option.some.injEq] at hinfo
      refine ⟨i, by rw [← hinfo], ?_⟩
      rw [Slots.getElem?_swap hi hj, if_neg hne, if_pos rfl, hk₂]
    · by_cases hk₁ : k = nId₁
      · rw [if_neg hk₂, if_pos hk₁, Option.some.injEq] at hinfo
        refine ⟨j, by rw [← hinfo], ?_⟩
        rw [Slots.getElem?_swap hi hj, if_pos rfl, hk₁]
      · rw [if_neg hk₂, if_neg hk₁] at hinfo
        obtain ⟨p, hp, hplace⟩ := h.pos k info hinfo
        refine ⟨p, hp, ?_⟩
        have hpj : p ≠ j := by
          intro heq
          rw [heq, hj] at hplace
          exact hk₂ (Option.some.inj hplace).symm
        have hpi : p ≠ i := by
          intro heq
          rw [heq, hi] at hplace
          exact hk₁ (Option.some.inj hplace).symm
        rw [Slots.getElem?_swap hi hj, if_neg hpj, if_neg hpi, hplace]
  · intro a k
    rw [h.addr a k]
    constructor
    · intro hex
      obtain ⟨info, hinfo, ha⟩ := hex
      obtain ⟨info', hinfo', hbare⟩ := hsame.find hinfo
      refine ⟨info', hinfo', ?_⟩
      rw [(CAddrInfo.bare_fields hbare).1, ha]
    · intro hex
      obtain ⟨info', hinfo', ha⟩ := hex
      obtain ⟨info, hinfo, hbare⟩ := hsame.find' hinfo'
      refine ⟨info, hinfo, ?_⟩
      rw [← (CAddrInfo.bare_fields hbare).1, ha]

theorem Tabled.remove (h : Tabled m mapAddr (vRandom ++ [nId])) {info : CAddrInfo}
    (hinfo : m.find nId = some info) (hsets : Sets m m' nId none) :
    Tabled m' (Function.update mapAddr info.toCNetAddr none) vRandom := by
  obtain ⟨hnodup, -, hdisjoint⟩ := List.nodup_append.mp h.nodup
  have hnot : nId ∉ vRandom := fun hmem => hdisjoint nId hmem nId (by simp) rfl
  refine ⟨hnodup, ?_, ?_, ?_⟩
  · intro k
    have hk := h.mem k
    rw [List.mem_append, List.mem_singleton] at hk
    rw [hsets k]
    by_cases heq : k = nId
    · simp [heq, hnot]
    · simpa [heq] using hk
  · intro k info₁ hfind
    rw [hsets k] at hfind
    by_cases heq : k = nId
    · rw [if_pos heq] at hfind
      cases hfind
    · rw [if_neg heq] at hfind
      obtain ⟨p, hp, hplace⟩ := h.pos k info₁ hfind
      refine ⟨p, hp, ?_⟩
      have hlt := (List.getElem?_eq_some_iff.mp hplace).1
      rw [List.length_append, List.length_singleton] at hlt
      have hp' : p ≠ vRandom.length := by
        intro hlast
        rw [hlast, List.getElem?_concat_length, Option.some.injEq] at hplace
        exact heq hplace.symm
      rwa [List.getElem?_append_left (by omega)] at hplace
  · intro a k
    rw [hsets k]
    by_cases ha : a = info.toCNetAddr
    · rw [ha, Function.update_self]
      have hmap := (h.addr info.toCNetAddr nId).mpr ⟨info, hinfo, rfl⟩
      by_cases heq : k = nId
      · simp [heq]
      · rw [if_neg heq, ← h.addr, hmap, Option.some.injEq]
        exact iff_of_false (by simp) (fun hid => heq hid.symm)
    · rw [Function.update_of_ne ha, h.addr a k]
      by_cases heq : k = nId
      · rw [if_pos heq, heq, hinfo]
        simp [Ne.symm ha]
      · rw [if_neg heq]

end Dions
