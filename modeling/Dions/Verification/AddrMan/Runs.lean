import Dions.Verification.AddrMan.Operations

/-! # Runs of the address manager -/

namespace Dions

namespace CAddrMan

variable {strict : Bool} {s : CAddrMan}

/-! ## Times -/

theorem Attempt_spec (h : s.Inv strict none) (addr : CService) {nTime : ℤ}
    (htime : strict = true → 0 ≤ nTime) : (s.Attempt_ addr nTime).Inv strict none := by
  unfold Attempt_
  cases hfind : s.Find addr.toCNetAddr with
  | none => exact h
  | some entry =>
    obtain ⟨nId, info⟩ := entry
    obtain ⟨hinfo, -⟩ := Find_spec h.toFiled hfind
    have htimely := h.timely nId info hinfo
    dsimp only
    by_cases hservice : info.toCService ≠ addr
    · rw [if_pos hservice]
      exact h
    · rw [if_neg hservice]
      exact h.setInfo _ hinfo rfl rfl rfl ⟨htimely.nLastSuccess, htimely.tried, htime⟩

theorem Connected_spec (h : s.Inv strict none) (addr : CService) (nTime : ℤ) :
    (s.Connected_ addr nTime).Inv strict none := by
  unfold Connected_
  cases hfind : s.Find addr.toCNetAddr with
  | none => exact h
  | some entry =>
    obtain ⟨nId, info⟩ := entry
    obtain ⟨hinfo, -⟩ := Find_spec h.toFiled hfind
    have htimely := h.timely nId info hinfo
    dsimp only
    by_cases hservice : info.toCService ≠ addr
    · rw [if_pos hservice]
      exact h
    · rw [if_neg hservice]
      by_cases hlate : 20 * 60 < nTime - info.nTime
      · rw [if_pos hlate]
        exact h.setInfo _ hinfo rfl rfl rfl
          ⟨htimely.nLastSuccess, htimely.tried, htimely.nLastTry⟩
      · rw [if_neg hlate]
        exact h

/-! ## Choices -/

theorem getAddrLoop_spec (rand : ℕ → ℕ) (rounds n : ℕ) (vAddr : List CAddress)
    (h : s.Inv strict none) (hrounds : n + rounds ≤ s.vRandom.length) :
    ∃ s' vAddr', getAddrLoop rand rounds n s vAddr = .ok (s', vAddr') ∧ s'.Inv strict none := by
  induction rounds generalizing n s vAddr with
  | zero => exact ⟨s, vAddr, rfl, h⟩
  | succ rounds ih =>
    have hn : n < s.vRandom.length := by omega
    have hpos : GetRandInt (rand n) (s.vRandom.length - n) + n < s.vRandom.length := by
      have hlt := GetRandInt_lt (rand n) (show 0 < s.vRandom.length - n by omega)
      omega
    obtain ⟨s₁, hswap, hinv, hlen⟩ := h.swap hn hpos
    have hplace := List.getElem?_eq_getElem (hlen.symm ▸ hn)
    obtain ⟨info, hinfo⟩ := (hinv.indexed.mem _).mp (List.mem_of_getElem? hplace)
    obtain ⟨s', vAddr', hloop, hinv'⟩ := ih (n + 1) (vAddr ++ [info.toCAddress]) hinv (by omega)
    exact ⟨s', vAddr', by simp only [getAddrLoop, hswap, hplace, hinfo, hloop], hinv'⟩

theorem GetAddr_spec (h : s.Inv strict none) (rand : ℕ → ℕ) :
    ∃ s' vAddr, s.GetAddr_ rand = .ok (s', vAddr) ∧ s'.Inv strict none := by
  apply getAddrLoop_spec rand _ 0 [] h
  rw [ADDRMAN_GETADDR_MAX_PCT]
  omega

theorem chooseFrom_spec {buckets : List (List ℕ)} (hne : 0 < buckets.length)
    (hentry : ∀ bucket ∈ buckets, ∀ nId ∈ bucket, ∃ info, s.mapInfo.find nId = some info)
    (rounds : List SelectRound) : ∃ found, s.chooseFrom buckets rounds = .ok found := by
  induction rounds with
  | nil => exact ⟨none, rfl⟩
  | cons round rounds ih =>
    obtain ⟨bucket, hbucket⟩ : ∃ bucket,
        buckets[GetRandInt round.bucket buckets.length]? = some bucket :=
      ⟨_, List.getElem?_eq_getElem (GetRandInt_lt round.bucket hne)⟩
    simp only [chooseFrom, hbucket]
    by_cases hempty : bucket.length = 0
    · rw [if_pos hempty]
      exact ih
    · rw [if_neg hempty]
      have hpos := GetRandInt_lt round.pos (Nat.pos_of_ne_zero hempty)
      have hplace := List.getElem?_eq_getElem hpos
      obtain ⟨info, hinfo⟩ := hentry bucket (List.mem_of_getElem? hbucket) _
        (List.mem_of_getElem? hplace)
      simp only [hplace, hinfo]
      by_cases haccepted : round.accepted = true
      · rw [if_pos haccepted]
        exact ⟨_, rfl⟩
      · rw [if_neg haccepted]
        exact ih

theorem Select_spec (h : s.Inv strict none) (fTried : Bool) (rounds : List SelectRound) :
    ∃ found, s.Select_ fTried rounds = .ok found := by
  unfold Select_
  by_cases hempty : s.vRandom.length = 0
  · rw [if_pos hempty]
    exact ⟨_, rfl⟩
  rw [if_neg hempty]
  by_cases htable : fTried = true
  · rw [if_pos htable]
    apply chooseFrom_spec
    · rw [h.booked.triedCount]
      decide
    · intro bucket hbucket nId hmem
      obtain ⟨info, hinfo, -⟩ := h.booked.tried_entry hbucket hmem
      exact ⟨info, hinfo⟩
  · rw [if_neg htable]
    apply chooseFrom_spec
    · rw [List.length_map, h.booked.newCount]
      decide
    · intro bucket hbucket nId hmem
      obtain ⟨vNew, hvNew, rfl⟩ := List.mem_map.mp hbucket
      obtain ⟨info, hinfo, -⟩ := h.booked.new_entry hvNew hmem
      exact ⟨info, hinfo⟩

end CAddrMan

/-! ## Runs -/

open CAddrMan

def AddrOp.Positive : AddrOp → Prop
  | .Good_ _ nTime _ => 0 < nTime
  | _ => True

def AddrOp.Dated : AddrOp → Prop
  | .Attempt_ _ nTime => 0 ≤ nTime
  | _ => True

theorem AddrOp.run_spec (Hash : List UInt8 → ℕ) {strict : Bool} {s : CAddrMan}
    (h : s.Inv strict none) (op : AddrOp) (hpositive : op.Positive)
    (hdated : strict = true → op.Dated) :
    (op.run Hash s = .error .overflow ∧ 2 ^ 31 - 1 ≤ s.nIdCount) ∨
      ∃ s', op.run Hash s = .ok s' ∧ s'.Inv strict none := by
  cases op with
  | Add_ addr source nTimePenalty rand now =>
    cases Add_spec Hash h addr source nTimePenalty rand now with
    | inl hover => exact .inl ⟨by rw [AddrOp.run, hover.1]; rfl, hover.2⟩
    | inr hadd =>
      obtain ⟨s', fNew, hadd, hinv⟩ := hadd
      exact .inr ⟨s', by rw [AddrOp.run, hadd]; rfl, hinv⟩
  | Good_ addr nTime rand => exact .inr (Good_spec Hash h addr hpositive rand)
  | Attempt_ addr nTime => exact .inr ⟨_, rfl, Attempt_spec h addr hdated⟩
  | Connected_ addr nTime => exact .inr ⟨_, rfl, Connected_spec h addr nTime⟩
  | GetAddr_ rand =>
    obtain ⟨s', vAddr, hget, hinv⟩ := GetAddr_spec h rand
    exact .inr ⟨s', by rw [AddrOp.run, hget]; rfl, hinv⟩
  | Select_ fTried rounds =>
    obtain ⟨found, hselect⟩ := Select_spec h fTried rounds
    exact .inr ⟨s, by rw [AddrOp.run, hselect]; rfl, h⟩

/-- A run that stops has used up the ids. -/
theorem addrRun_spec (Hash : List UInt8 → ℕ) {strict : Bool} {s : CAddrMan}
    (h : s.Inv strict none) (ops : List AddrOp) (hpositive : ∀ op ∈ ops, op.Positive)
    (hdated : strict = true → ∀ op ∈ ops, op.Dated) :
    (addrRun Hash s ops = .error .overflow ∧
        ∃ n s', addrRun Hash s (ops.take n) = .ok s' ∧ 2 ^ 31 - 1 ≤ s'.nIdCount) ∨
      ∃ s', addrRun Hash s ops = .ok s' ∧ s'.Inv strict none := by
  induction ops generalizing s with
  | nil => exact .inr ⟨s, rfl, h⟩
  | cons op ops ih =>
    cases op.run_spec Hash h (hpositive op List.mem_cons_self)
      (fun heq => hdated heq op List.mem_cons_self) with
    | inl hover =>
      left
      refine ⟨?_, 0, s, rfl, hover.2⟩
      rw [addrRun, List.foldlM_cons, hover.1]
      rfl
    | inr hstep =>
      obtain ⟨s₁, hrun, hinv⟩ := hstep
      have hcons : ∀ ops', addrRun Hash s (op :: ops') = addrRun Hash s₁ ops' := by
        intro ops'
        rw [addrRun, List.foldlM_cons, hrun]
        rfl
      cases ih hinv (fun op' hmem => hpositive op' (List.mem_cons_of_mem _ hmem))
        (fun heq op' hmem => hdated heq op' (List.mem_cons_of_mem _ hmem)) with
      | inl hover =>
        left
        obtain ⟨hover, n, s', htake, hids⟩ := hover
        exact ⟨(hcons ops).trans hover, n + 1, s', (hcons (ops.take n)).trans htake, hids⟩
      | inr hrest =>
        right
        obtain ⟨s', hrest, hinv'⟩ := hrest
        exact ⟨s', (hcons ops).trans hrest, hinv'⟩

end Dions
