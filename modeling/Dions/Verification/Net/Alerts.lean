import Dions.Model.Alert
import Dions.Verification.Scenario

/-! # Alerts

What a node holds is signed with the key for alerts, and nothing that it holds cancels another
alert. -/

namespace Dions

variable {vchMsg : List UInt8}

section Alerts

variable {env : AlertEnv} {now now' : ℤ} {alert : CAlert} {m : AlertMap} {item : uint256 × CAlert}

/-- The number is one of those that the alert cancels, as long as it is in effect. -/
def CUnsignedAlert.names (alert : CUnsignedAlert) (nID : ℤ) : Bool :=
  nID ≤ alert.nCancel || alert.setCancel.contains nID

theorem CAlert.Cancels_eq (other : CAlert) :
    alert.Cancels now other = (alert.IsInEffect now && alert.names other.nID) := rfl

theorem CAlert.IsInEffect.earlier (h : alert.IsInEffect now' = true) (hle : now ≤ now') :
    alert.IsInEffect now = true := by
  simp only [CAlert.IsInEffect, decide_eq_true_eq] at h ⊢
  omega

/-- The alert may enter: it is in effect, and it has the greatest number only if it is the urgent
one. -/
structure CAlert.Allowed (now : ℤ) (alert : CAlert) : Prop where
  inEffect : alert.IsInEffect now = true
  reserved : alert.nID = maxInt → alert.isUrgent = true

theorem enter_of_not_allowed (h : ¬alert.Allowed now) : alert.enter env now m = (false, m) := by
  unfold CAlert.enter
  split
  · rfl
  · rename_i heffect
    rw [Bool.not_eq_true', Bool.not_eq_false] at heffect
    rw [if_pos]
    by_contra hreserved
    refine h ⟨heffect, fun hid => ?_⟩
    by_contra hurgent
    exact hreserved ⟨hid, by simpa using hurgent⟩

theorem enter_of_allowed (h : alert.Allowed now) :
    alert.enter env now m =
      if (AlertMap.cancel now alert m).entries.any fun item => item.2.Cancels now alert then
        (false, AlertMap.cancel now alert m)
      else (true, AlertMap.add env alert (AlertMap.cancel now alert m)) := by
  unfold CAlert.enter
  rw [if_neg (by simp [h.inEffect]), if_neg]
  intro hreserved
  simp [h.reserved hreserved.1] at hreserved

theorem mem_cancel : item ∈ (AlertMap.cancel now alert m).entries ↔
    item ∈ m.entries ∧ alert.Cancels now item.2 = false ∧ item.2.IsInEffect now = true := by
  simp [AlertMap.cancel, List.mem_filter]

theorem mem_add_of_mem (h : item ∈ m.entries) : item ∈ (AlertMap.add env alert m).entries := by
  unfold AlertMap.add
  split
  · exact h
  · rename_i hnone
    have hfind := OrdMap.mem_entries.mp h
    refine OrdMap.mem_entries.mpr ?_
    rw [OrdMap.find_insert, if_neg]
    · exact hfind
    · intro heq
      rw [heq, hnone] at hfind
      cases hfind

theorem mem_of_mem_add (h : item ∈ (AlertMap.add env alert m).entries) :
    item = (alert.GetHash env, alert) ∨ item ∈ m.entries := by
  unfold AlertMap.add at h
  split at h
  · exact .inr h
  · have hfind := OrdMap.mem_entries.mp h
    rw [OrdMap.find_insert] at hfind
    split at hfind
    · rename_i heq
      exact .inl (Prod.ext heq (Option.some.inj hfind).symm)
    · exact .inr (OrdMap.mem_entries.mpr hfind)

theorem exists_mem_add (env : AlertEnv) (alert : CAlert) (m : AlertMap) :
    ∃ other, (alert.GetHash env, other) ∈ (AlertMap.add env alert m).entries := by
  unfold AlertMap.add
  split
  · rename_i other hsome
    exact ⟨other, OrdMap.mem_entries.mpr hsome⟩
  · exact ⟨alert, OrdMap.mem_entries.mpr (by rw [OrdMap.find_insert, if_pos rfl])⟩

/-! ## What is signed -/

def readAlert (vchMsg : List UInt8) : Option CUnsignedAlert :=
  (CUnsignedAlert.wire.unserialize vchMsg).toOption.map Prod.fst

/-- The alert is the one that the holder of the key wrote. -/
structure Genuine (env : AlertEnv) (alert : CAlert) : Prop where
  signed : env.Verify (alert.GetHash env) alert.vchSig = true
  read : readAlert alert.vchMsg = some alert.toCUnsignedAlert

theorem CheckSignature_genuine {vchSig : List UInt8}
    (h : CAlert.CheckSignature env vchMsg vchSig = .ok (some alert)) :
    Genuine env alert ∧ alert.vchMsg = vchMsg := by
  unfold CAlert.CheckSignature at h
  split at h
  · cases h
  · rename_i hverify
    rw [Bool.not_eq_true', Bool.not_eq_false] at hverify
    split at h
    · cases h
    · rename_i fields rest hread
      obtain rfl := Option.some.inj (Except.ok.inj h)
      refine ⟨⟨hverify, ?_⟩, rfl⟩
      rw [readAlert, hread]
      rfl

theorem nID_le_of_read {fields : CUnsignedAlert} (h : readAlert vchMsg = some fields) :
    fields.nID ≤ maxInt := by
  unfold readAlert at h
  cases hread : CUnsignedAlert.wire.unserialize vchMsg with
  | error e =>
    rw [hread] at h
    cases h
  | ok r =>
    rw [hread] at h
    obtain rfl := Option.some.inj h
    obtain ⟨hvalid, -⟩ := CUnsignedAlert.wire.canonical vchMsg r.1 r.2 hread
    have hid : (wireSigned 4).Valid r.1.nID := hvalid.2.2.2.1
    have hrange := (Codec.int_valid_iff _ 3 r.1.nID).mp hid
    unfold maxInt
    omega

/-- Every alert stands under its hash, is genuine, and has the greatest number only as the urgent
one. -/
structure AlertMap.Ok (env : AlertEnv) (m : AlertMap) : Prop where
  key : ∀ item ∈ m.entries, item.1 = item.2.GetHash env
  genuine : ∀ item ∈ m.entries, Genuine env item.2
  reserved : ∀ item ∈ m.entries, item.2.nID = maxInt → item.2.isUrgent = true

theorem AlertMap.Ok.empty : AlertMap.Ok env .empty where
  key _ h := absurd h List.not_mem_nil
  genuine _ h := absurd h List.not_mem_nil
  reserved _ h := absurd h List.not_mem_nil

theorem AlertMap.Ok.cancel (h : AlertMap.Ok env m) :
    AlertMap.Ok env (AlertMap.cancel now alert m) where
  key item hitem := h.key item (mem_cancel.mp hitem).1
  genuine item hitem := h.genuine item (mem_cancel.mp hitem).1
  reserved item hitem := h.reserved item (mem_cancel.mp hitem).1

theorem AlertMap.Ok.add (h : AlertMap.Ok env m) (hgenuine : Genuine env alert)
    (hreserved : alert.nID = maxInt → alert.isUrgent = true) :
      AlertMap.Ok env (AlertMap.add env alert m) where
  key item hitem := by
    rcases mem_of_mem_add hitem with rfl | hitem
    · rfl
    · exact h.key item hitem
  genuine item hitem := by
    rcases mem_of_mem_add hitem with rfl | hitem
    · exact hgenuine
    · exact h.genuine item hitem
  reserved item hitem := by
    rcases mem_of_mem_add hitem with rfl | hitem
    · exact hreserved
    · exact h.reserved item hitem

theorem AlertMap.Ok.enter (h : AlertMap.Ok env m) (hgenuine : Genuine env alert) :
    AlertMap.Ok env (alert.enter env now m).2 := by
  by_cases hallowed : alert.Allowed now
  · rw [enter_of_allowed hallowed]
    split
    · exact h.cancel
    · exact h.cancel.add hgenuine hallowed.reserved
  · rw [enter_of_not_allowed hallowed]
    exact h

/-! ## No alert cancels another one -/

/-- Of two alerts that are held neither cancels the other. -/
def AlertMap.Apart (now : ℤ) (m : AlertMap) : Prop :=
  ∀ item ∈ m.entries, ∀ item' ∈ m.entries, item.1 ≠ item'.1 → item.2.Cancels now item'.2 = false

theorem AlertMap.Apart.later (h : AlertMap.Apart now m) (hle : now ≤ now') :
    AlertMap.Apart now' m := by
  intro item hitem item' hitem' hne
  have hcancels := h item hitem item' hitem' hne
  rw [CAlert.Cancels_eq, Bool.and_eq_false_iff] at hcancels ⊢
  rcases hcancels with hexpired | hnames
  · left
    by_contra heffect
    rw [Bool.not_eq_false] at heffect
    rw [CAlert.IsInEffect.earlier heffect hle] at hexpired
    cases hexpired
  · exact .inr hnames

theorem AlertMap.Apart.enter (h : AlertMap.Apart now m) :
    AlertMap.Apart now (alert.enter env now m).2 := by
  by_cases hallowed : alert.Allowed now
  · have hcancel : AlertMap.Apart now (AlertMap.cancel now alert m) := by
      intro item hitem item' hitem' hne
      exact h item (mem_cancel.mp hitem).1 item' (mem_cancel.mp hitem').1 hne
    rw [enter_of_allowed hallowed]
    split
    · exact hcancel
    · rename_i hnone
      intro item hitem item' hitem' hne
      rcases mem_of_mem_add hitem with rfl | hold
      · rcases mem_of_mem_add hitem' with rfl | hold'
        · exact absurd rfl hne
        · exact (mem_cancel.mp hold').2.1
      · rcases mem_of_mem_add hitem' with rfl | hold'
        · by_contra hcancels
          rw [Bool.not_eq_false] at hcancels
          exact hnone (List.any_eq_true.mpr ⟨item, hold, hcancels⟩)
        · exact hcancel item hold item' hold' hne
  · rw [enter_of_not_allowed hallowed]
    exact h

end Alerts

/-! ## Entering -/

section Entering

variable {env : AlertEnv} {now : ℤ} {alert : CAlert} {m m' : AlertMap} {vchMsg vchSig : List UInt8}

theorem mem_of_mem_enter {item : uint256 × CAlert} (h : item ∈ (alert.enter env now m).2.entries) :
    ((alert.enter env now m).1 = true ∧ item = (alert.GetHash env, alert)) ∨ item ∈ m.entries := by
  by_cases hallowed : alert.Allowed now
  · rw [enter_of_allowed hallowed] at h ⊢
    split at h
    · exact .inr (mem_cancel.mp h).1
    · rename_i hnone
      rcases mem_of_mem_add h with hnew | hold
      · rw [if_neg hnone]
        exact .inl ⟨rfl, hnew⟩
      · exact .inr (mem_cancel.mp hold).1
  · rw [enter_of_not_allowed hallowed] at h
    exact .inr h

theorem ProcessAlert_some (h : ProcessAlert env now vchMsg vchSig m = .ok (some alert, m')) :
    Genuine env alert ∧ alert.vchMsg = vchMsg ∧ (alert.enter env now m).1 = true ∧
      m' = (alert.enter env now m).2 := by
  unfold ProcessAlert at h
  split at h
  · cases h
  · cases h
  · rename_i read hcheck
    obtain ⟨hgenuine, hmsg⟩ := CheckSignature_genuine hcheck
    obtain ⟨hsome, hm⟩ := Prod.mk.inj (Except.ok.inj h)
    split at hsome
    · rename_i hentered
      obtain rfl := Option.some.inj hsome
      exact ⟨hgenuine, hmsg, hentered, hm.symm⟩
    · cases hsome

theorem ProcessAlert_none (h : ProcessAlert env now vchMsg vchSig m = .ok (none, m')) :
    m' = m ∨ ∃ alert, Genuine env alert ∧ (alert.enter env now m).1 = false ∧
      m' = (alert.enter env now m).2 := by
  unfold ProcessAlert at h
  split at h
  · cases h
  · exact .inl (Prod.mk.inj (Except.ok.inj h)).2.symm
  · rename_i read hcheck
    obtain ⟨hnone, hm⟩ := Prod.mk.inj (Except.ok.inj h)
    split at hnone
    · cases hnone
    · rename_i hrefused
      exact .inr ⟨read, (CheckSignature_genuine hcheck).1, by simpa using hrefused, hm.symm⟩

end Entering

/-! ## Messages one after the other -/

/-- A message that comes in, with the adjusted time then. -/
structure SignedMessage where
  now : ℤ
  vchMsg : List UInt8
  vchSig : List UInt8

namespace AlertMap

variable {env : AlertEnv} {now : ℤ} {alert : CAlert} {m : AlertMap} {r : SignedMessage}

/-- A message that is malformed leaves the alerts as they are. -/
def receive (env : AlertEnv) (m : AlertMap) (r : SignedMessage) : AlertMap :=
  match ProcessAlert env r.now r.vchMsg r.vchSig m with
  | .error _ => m
  | .ok (_, m') => m'

/-- A message is refused unread, or what stands in it enters. -/
theorem receive_cases (env : AlertEnv) (m : AlertMap) (r : SignedMessage) :
    (receive env m r = m ∧
        ∀ alert, CAlert.CheckSignature env r.vchMsg r.vchSig ≠ .ok (some alert)) ∨
      ∃ alert, CAlert.CheckSignature env r.vchMsg r.vchSig = .ok (some alert) ∧
        receive env m r = (alert.enter env r.now m).2 := by
  unfold receive ProcessAlert
  cases hcheck : CAlert.CheckSignature env r.vchMsg r.vchSig with
  | error e =>
    left
    constructor
    · rfl
    · intro alert h
      cases h
  | ok read =>
    cases read with
    | none =>
      left
      constructor
      · rfl
      · intro alert h
        cases h
    | some alert => exact .inr ⟨alert, rfl, rfl⟩

theorem Ok.receive (h : AlertMap.Ok env m) (r : SignedMessage) :
    AlertMap.Ok env (m.receive env r) := by
  rcases receive_cases env m r with ⟨hsame, -⟩ | ⟨alert, hcheck, henter⟩
  · rw [hsame]
    exact h
  · rw [henter]
    exact h.enter (CheckSignature_genuine hcheck).1

theorem Ok.foldl_receive (h : AlertMap.Ok env m) (rs : List SignedMessage) :
    AlertMap.Ok env (rs.foldl (AlertMap.receive env) m) := by
  induction rs generalizing m with
  | nil => exact h
  | cons r rs ih => exact ih (h.receive r)

end AlertMap

namespace Scenario

/-- The hash of a message is its number, and a signature is one byte. -/
def alertKey : AlertEnv := ⟨byteCode, fun _ vchSig => vchSig == [1]⟩

def signedMessage (now : ℤ) (fields : CUnsignedAlert) : SignedMessage :=
  ⟨now, CUnsignedAlert.wire.serialize fields, [1]⟩

/-- An alert that cancels everything below its number. -/
def numbered (nID : ℤ) : CUnsignedAlert :=
    ⟨1, 100, 200, nID, nID - 1, [], 0, 70000, [], 0, [], [0x61], []⟩

end Scenario

end Dions
