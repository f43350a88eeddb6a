import Dions.Verification.Net.Alerts

/-! # The alert that has the greatest number

It is the last word of the key: the node holds it, and nothing else, until its time runs out. -/

namespace Dions

namespace AlertMap

variable {env : AlertEnv} {now : ℤ} {alert : CAlert} {m : AlertMap} {r : SignedMessage}

/-- There is an alert, and all that there are have the greatest number. -/
structure Urgent (m : AlertMap) : Prop where
  exists_alert : ∃ item, item ∈ m.entries
  urgent : ∀ item ∈ m.entries, item.2.nID = maxInt ∧ item.2.isUrgent = true

theorem isUrgent_fields (h : alert.isUrgent = true) :
    alert.nExpiration = maxInt ∧ alert.nCancel = maxInt - 1 ∧
      alert.strStatusBar = urgentStatus := by
  simp only [CAlert.isUrgent, Bool.and_eq_true, decide_eq_true_eq] at h
  exact ⟨h.1.1.1.1.1.1, h.1.1.1.1.1.2, h.2⟩

/-- The urgent alert takes the place of all the others. -/
theorem Urgent.of_urgent (h : AlertMap.Ok env m) (hid : alert.nID = maxInt)
    (hurgent : alert.isUrgent = true) (hnow : now < maxInt) : Urgent (alert.enter env now m).2 := by
  obtain ⟨hexpiration, hcancel, -⟩ := isUrgent_fields hurgent
  have heffect : alert.IsInEffect now = true := by
    rw [CAlert.IsInEffect, hexpiration]
    exact decide_eq_true hnow
  have hleft : ∀ item ∈ (AlertMap.cancel now alert m).entries,
      item.2.nID = maxInt ∧ item.2.isUrgent = true := by
    intro item hitem
    obtain ⟨hin, hnot, -⟩ := mem_cancel.mp hitem
    rw [CAlert.Cancels_eq, heffect, Bool.true_and, CUnsignedAlert.names, Bool.or_eq_false_iff,
      hcancel] at hnot
    have hge := of_decide_eq_false hnot.1
    have hle := nID_le_of_read (h.genuine item hin).read
    have hmax : item.2.nID = maxInt := by omega
    exact ⟨hmax, h.reserved item hin hmax⟩
  rw [enter_of_allowed ⟨heffect, fun _ => hurgent⟩]
  split
  · rename_i hany
    obtain ⟨item, hitem, -⟩ := List.any_eq_true.mp hany
    exact ⟨⟨item, hitem⟩, hleft⟩
  · obtain ⟨other, hother⟩ := exists_mem_add env alert (AlertMap.cancel now alert m)
    refine ⟨⟨_, hother⟩, fun item hitem => ?_⟩
    rcases mem_of_mem_add hitem with rfl | hitem
    · exact ⟨hid, hurgent⟩
    · exact hleft item hitem

/-- Then what does not name the greatest number changes nothing, unless it has that number. -/
theorem Urgent.enter (env : AlertEnv) (h : Urgent m) (hnow : now < maxInt)
    (hnames : alert.names maxInt = false) (hle : alert.nID ≤ maxInt) :
    Urgent (alert.enter env now m).2 ∧
      (alert.nID ≠ maxInt → alert.enter env now m = (false, m)) := by
  by_cases hallowed : alert.Allowed now
  · have heffects : ∀ item ∈ m.entries, item.2.IsInEffect now = true := by
      intro item hitem
      rw [CAlert.IsInEffect, (isUrgent_fields (h.urgent item hitem).2).1]
      exact decide_eq_true hnow
    have hcancel : AlertMap.cancel now alert m = m := by
      have hall : ∀ item ∈ m.entries,
          (!(alert.Cancels now item.2 || !item.2.IsInEffect now)) = true := by
        intro item hitem
        rw [CAlert.Cancels_eq, (h.urgent item hitem).1, hnames, heffects item hitem]
        simp
      obtain ⟨entries, ordered⟩ := m
      unfold AlertMap.cancel
      congr 1
      exact List.filter_eq_self.mpr hall
    rw [enter_of_allowed hallowed, hcancel]
    by_cases hid : alert.nID = maxInt
    · refine ⟨?_, fun hne => absurd hid hne⟩
      split
      · exact h
      · obtain ⟨other, hother⟩ := exists_mem_add env alert m
        refine ⟨⟨_, hother⟩, fun item hitem => ?_⟩
        rcases mem_of_mem_add hitem with rfl | hitem
        · exact ⟨hid, hallowed.reserved hid⟩
        · exact h.urgent item hitem
    · obtain ⟨item, hitem⟩ := h.exists_alert
      have hany : (m.entries.any fun item => item.2.Cancels now alert) = true := by
        refine List.any_eq_true.mpr ⟨item, hitem, ?_⟩
        rw [CAlert.Cancels_eq, heffects item hitem, Bool.true_and, CUnsignedAlert.names,
          (isUrgent_fields (h.urgent item hitem).2).2.1, Bool.or_eq_true]
        exact .inl (decide_eq_true (by omega))
      rw [if_pos hany]
      exact ⟨h, fun _ => rfl⟩
  · rw [enter_of_not_allowed hallowed]
    exact ⟨h, fun _ => rfl⟩

theorem Urgent.receive (h : Urgent m) (hnow : r.now < maxInt)
    (hnames : ∀ alert, CAlert.CheckSignature env r.vchMsg r.vchSig = .ok (some alert) →
      alert.names maxInt = false) : Urgent (m.receive env r) := by
  rcases receive_cases env m r with ⟨hsame, -⟩ | ⟨alert, hcheck, henter⟩
  · rw [hsame]
    exact h
  · rw [henter]
    have hle := nID_le_of_read (CheckSignature_genuine hcheck).1.read
    exact (h.enter env hnow (hnames alert hcheck) hle).1

/-- Once the alert that the key is compromised has come in, then until its time runs out nothing but
such alerts is held, whatever else is signed with the key: only an alert that names the greatest
number among those it cancels can change that, and all others are refused. -/
theorem urgent_alert_stands (env : AlertEnv) (before after : List SignedMessage) (r : SignedMessage)
    (alert : CAlert) (hcheck : CAlert.CheckSignature env r.vchMsg r.vchSig = .ok (some alert))
    (hid : alert.nID = maxInt) (hurgent : alert.isUrgent = true) (hnow : r.now < maxInt)
    (hafter : ∀ r' ∈ after, r'.now < maxInt ∧
      ∀ other, CAlert.CheckSignature env r'.vchMsg r'.vchSig = .ok (some other) →
        other.names maxInt = false) :
    let m := (before ++ r :: after).foldl (receive env) OrdMap.empty
    (∃ item, item ∈ m.entries) ∧
      (∀ item ∈ m.entries, item.2.nID = maxInt ∧ item.2.strStatusBar = urgentStatus) ∧
      ∀ (last : SignedMessage) other, last.now < maxInt →
        CAlert.CheckSignature env last.vchMsg last.vchSig = .ok (some other) →
        other.names maxInt = false → other.nID ≠ maxInt →
        ProcessAlert env last.now last.vchMsg last.vchSig m = .ok (none, m) := by
  intro m
  have hrun : Urgent m := by
    change Urgent ((before ++ r :: after).foldl (AlertMap.receive env) OrdMap.empty)
    rw [List.foldl_append, List.foldl_cons]
    have hbefore := AlertMap.Ok.foldl_receive (.empty : AlertMap.Ok env OrdMap.empty) before
    generalize before.foldl (AlertMap.receive env) OrdMap.empty = m₀ at hbefore ⊢
    have hfirst : Urgent (m₀.receive env r) := by
      rcases receive_cases env m₀ r with ⟨-, hno⟩ | ⟨read, hread, henter⟩
      · exact absurd hcheck (hno alert)
      · rw [hcheck] at hread
        obtain rfl := Option.some.inj (Except.ok.inj hread)
        rw [henter]
        exact .of_urgent hbefore hid hurgent hnow
    generalize m₀.receive env r = m₁ at hfirst ⊢
    clear hbefore
    induction after generalizing m₁ with
    | nil => exact hfirst
    | cons r' after ih =>
      obtain ⟨hnow', hnames'⟩ := hafter r' List.mem_cons_self
      exact ih (fun r'' hr'' => hafter r'' (List.mem_cons_of_mem _ hr'')) _
        (hfirst.receive hnow' hnames')
  refine ⟨hrun.exists_alert, fun item hitem => ?_, fun last other hlast hread hnames hne => ?_⟩
  · obtain ⟨hmax, hstatus⟩ := hrun.urgent item hitem
    exact ⟨hmax, (isUrgent_fields hstatus).2.2⟩
  · have hle := nID_le_of_read (CheckSignature_genuine hread).1.read
    have hrefused := (hrun.enter env hlast hnames hle).2 hne
    unfold ProcessAlert
    rw [hread]
    dsimp only
    rw [hrefused]
    rfl

end AlertMap

namespace Scenario

def urgent : CUnsignedAlert :=
  ⟨1, maxInt, maxInt, maxInt, maxInt - 1, [], 0, maxInt, [], maxInt, [], urgentStatus, []⟩

def signedAlert (fields : CUnsignedAlert) : CAlert :=
  { fields with vchMsg := CUnsignedAlert.wire.serialize fields, vchSig := [1] }

def checksTest (fields : CUnsignedAlert) : Bool :=
  match CAlert.CheckSignature alertKey (CUnsignedAlert.wire.serialize fields) [1] with
  | .ok (some alert) => alert = signedAlert fields
  | _ => false

theorem checked {fields : CUnsignedAlert} (h : checksTest fields = true) (now : ℤ) :
    CAlert.CheckSignature alertKey (signedMessage now fields).vchMsg
      (signedMessage now fields).vchSig = .ok (some (signedAlert fields)) := by
  unfold checksTest at h
  split at h
  · rename_i alert hcheck
    rw [of_decide_eq_true h] at hcheck
    exact hcheck
  · cases h

/-- The key signs two more alerts, and the last one of them is refused. -/
theorem urgent_alert_stands_signed :
    let m := [signedMessage 5 (numbered 3), signedMessage 6 urgent, signedMessage 7 (numbered 4)].foldl
      (AlertMap.receive alertKey) OrdMap.empty
    let last := signedMessage 8 (numbered 5)
    ProcessAlert alertKey 8 last.vchMsg last.vchSig m = .ok (none, m) := by
  have hstands := AlertMap.urgent_alert_stands alertKey [signedMessage 5 (numbered 3)]
    [signedMessage 7 (numbered 4)] (signedMessage 6 urgent) (signedAlert urgent)
    (checked (by decide +kernel) 6) rfl (by decide +kernel) (by decide)
    (fun r' hr' => by
      obtain rfl := List.mem_singleton.mp hr'
      refine ⟨by decide, fun other hother => ?_⟩
      rw [checked (by decide +kernel)] at hother
      obtain rfl := Option.some.inj (Except.ok.inj hother)
      decide)
  exact hstands.2.2 (signedMessage 8 (numbered 5)) _ (by decide) (checked (by decide +kernel) 8)
    (by decide) (by decide)

end Scenario

end Dions
