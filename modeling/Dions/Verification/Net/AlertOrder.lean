import Dions.Library.Supersede
import Dions.Verification.Net.Alerts

/-! # The order in which alerts arrive

The alerts end up the same whatever order they come in: those that nothing else supersedes. -/

namespace Dions

/-- What stands in one message cancels what stands in another one. -/
def cancelsMessage (b a : List UInt8) : Prop :=
  ∃ fields other, readAlert b = some fields ∧ readAlert a = some other ∧
    fields.names other.nID = true

/-- The message is signed and well formed, and has the greatest number only if it is urgent. -/
def validMessage (env : AlertEnv) (r : SignedMessage) : Bool :=
  match CAlert.CheckSignature env r.vchMsg r.vchSig with
  | .ok (some alert) => !(alert.nID = maxInt && !alert.isUrgent)
  | _ => false

def validMessages (env : AlertEnv) (rs : List SignedMessage) : List (List UInt8) :=
  (rs.filter (validMessage env)).map SignedMessage.vchMsg

/-- Messages of different hashes, all of them in effect all along. -/
structure InEffect (env : AlertEnv) (rs : List SignedMessage) : Prop where
  hash : ∀ r ∈ rs, ∀ r' ∈ rs, env.Hash r.vchMsg = env.Hash r'.vchMsg → r.vchMsg = r'.vchMsg
  time : ∀ r ∈ rs, ∀ r' ∈ rs, ∀ fields, readAlert r'.vchMsg = some fields →
    r.now < fields.nExpiration

namespace AlertMap

variable {env : AlertEnv} {alert : CAlert} {m : AlertMap} {r : SignedMessage}

def messages (m : AlertMap) : Set (List UInt8) := {msg | ∃ item ∈ m.entries, item.2.vchMsg = msg}

theorem cancelsMessage_iff {now : ℤ} {other : CAlert} (h : Genuine env alert)
    (hother : Genuine env other) (heffect : alert.IsInEffect now = true) :
    cancelsMessage alert.vchMsg other.vchMsg ↔ alert.Cancels now other = true := by
  rw [CAlert.Cancels_eq, heffect, Bool.true_and]
  constructor
  · rintro ⟨fields, fields', hread, hread', hnames⟩
    rw [h.read] at hread
    rw [hother.read] at hread'
    obtain rfl := Option.some.inj hread
    obtain rfl := Option.some.inj hread'
    exact hnames
  · exact fun hnames => ⟨_, _, h.read, hother.read, hnames⟩

/-- One message: what is held is superseded as the messages are. -/
theorem messages_receive (h : AlertMap.Ok env m)
    (hheld : ∀ item ∈ m.entries, item.2.IsInEffect r.now = true)
    (hhash : ∀ item ∈ m.entries, item.1 = env.Hash r.vchMsg → item.2.vchMsg = r.vchMsg)
    (htime : ∀ fields, readAlert r.vchMsg = some fields → r.now < fields.nExpiration) :
    (m.receive env r).messages =
      if validMessage env r then Supersede.arrive cancelsMessage m.messages r.vchMsg
      else m.messages := by
  rcases receive_cases env m r with ⟨hsame, hno⟩ | ⟨alert, hcheck, henter⟩
  · have hinvalid : validMessage env r = false := by
      unfold validMessage
      split
      · rename_i alert hcheck
        exact absurd hcheck (hno alert)
      · rfl
    rw [hsame, hinvalid]
    rfl
  · obtain ⟨hgenuine, hmsg⟩ := CheckSignature_genuine hcheck
    have heffect : alert.IsInEffect r.now = true := by
      have hread := hgenuine.read
      rw [hmsg] at hread
      exact decide_eq_true (htime _ hread)
    have hvalid : validMessage env r = true ↔ alert.Allowed r.now := by
      unfold validMessage
      rw [hcheck]
      dsimp only
      rw [Bool.not_eq_true', Bool.and_eq_false_iff]
      constructor
      · intro hreserved
        refine ⟨heffect, fun hid => ?_⟩
        simpa [hid] using hreserved
      · intro hallowed
        by_cases hid : alert.nID = maxInt
        · right
          rw [hallowed.reserved hid]
          rfl
        · exact .inl (decide_eq_false hid)
    by_cases hallowed : alert.Allowed r.now
    · rw [if_pos (hvalid.mpr hallowed), henter, enter_of_allowed hallowed, ← hmsg]
      -- what the alert leaves of the others
      have hkept : ∀ item ∈ m.entries, (item ∈ (AlertMap.cancel r.now alert m).entries ↔
          item.2.vchMsg ∈ Supersede.kept cancelsMessage m.messages alert.vchMsg) := by
        intro item hitem
        rw [mem_cancel, Supersede.kept, Set.mem_ofPred_eq,
          cancelsMessage_iff hgenuine (h.genuine item hitem) heffect, Bool.not_eq_true]
        constructor
        · exact fun hleft => ⟨⟨item, hitem, rfl⟩, hleft.2.1⟩
        · exact fun hleft => ⟨hitem, hleft.2, hheld item hitem⟩
      have hmessages : (AlertMap.cancel r.now alert m).messages =
          Supersede.kept cancelsMessage m.messages alert.vchMsg := by
        ext msg
        constructor
        · rintro ⟨item, hitem, rfl⟩
          exact (hkept item (mem_cancel.mp hitem).1).mp hitem
        · intro hmsg'
          obtain ⟨item, hitem, rfl⟩ := hmsg'.1
          exact ⟨item, (hkept item hitem).mpr hmsg', rfl⟩
      have hany : ((AlertMap.cancel r.now alert m).entries.any fun item =>
          item.2.Cancels r.now alert) = true ↔
          ∃ b ∈ Supersede.kept cancelsMessage m.messages alert.vchMsg,
            cancelsMessage b alert.vchMsg := by
        rw [List.any_eq_true, ← hmessages]
        constructor
        · rintro ⟨item, hitem, hcancels⟩
          have hin := (mem_cancel.mp hitem).1
          exact ⟨_, ⟨item, hitem, rfl⟩, (cancelsMessage_iff (h.genuine item hin) hgenuine
            (hheld item hin)).mpr hcancels⟩
        · rintro ⟨_, ⟨item, hitem, rfl⟩, hcancels⟩
          have hin := (mem_cancel.mp hitem).1
          exact ⟨item, hitem,
            (cancelsMessage_iff (h.genuine item hin) hgenuine (hheld item hin)).mp hcancels⟩
      split
      · rename_i hbeaten
        obtain ⟨b, hb, hcancels⟩ := hany.mp hbeaten
        rw [hmessages]
        ext msg
        constructor
        · exact .inl
        · rintro (hkeep | ⟨-, hall⟩)
          · exact hkeep
          · exact absurd hcancels (hall b hb)
      · rename_i hfree
        have hnone : ∀ b ∈ Supersede.kept cancelsMessage m.messages alert.vchMsg,
            ¬cancelsMessage b alert.vchMsg :=
              fun b hb hcancels => hfree (hany.mpr ⟨b, hb, hcancels⟩)
        ext msg
        constructor
        · rintro ⟨item, hitem, rfl⟩
          rcases mem_of_mem_add hitem with rfl | hold
          · exact .inr ⟨rfl, hnone⟩
          · exact .inl (hmessages ▸ ⟨item, hold, rfl⟩)
        · rintro (hkeep | ⟨rfl, -⟩)
          · rw [← hmessages] at hkeep
            obtain ⟨item, hitem, rfl⟩ := hkeep
            exact ⟨item, mem_add_of_mem hitem, rfl⟩
          · obtain ⟨other, hother⟩ := exists_mem_add env alert (AlertMap.cancel r.now alert m)
            refine ⟨_, hother, ?_⟩
            rcases mem_of_mem_add hother with hnew | hold
            · rw [(Prod.mk.inj hnew).2]
            · rw [hmsg]
              refine hhash _ (mem_cancel.mp hold).1 ?_
              change alert.GetHash env = env.Hash r.vchMsg
              rw [CAlert.GetHash, hmsg]
    · rw [if_neg (fun hv => hallowed (hvalid.mp hv)), henter, enter_of_not_allowed hallowed]

/-- What is held is what came in and counts, and what no other message that counts cancels. -/
theorem messages_foldl {rs : List SignedMessage} (h : InEffect env rs)
    (hstrict : Supersede.StrictOn cancelsMessage {msg | msg ∈ validMessages env rs}) :
    (rs.foldl (receive env) OrdMap.empty).messages =
      Supersede.top cancelsMessage {msg | msg ∈ validMessages env rs} := by
  induction rs using List.reverseRecOn with
  | nil =>
    ext msg
    simp [messages, Supersede.top, OrdMap.empty, validMessages]
  | append_singleton rs r ih =>
    have hsub : ∀ {x}, x ∈ rs → x ∈ rs ++ [r] := fun hx => List.mem_append_left _ hx
    have hr : r ∈ rs ++ [r] := List.mem_append_right _ List.mem_cons_self
    have hvalid : validMessages env (rs ++ [r]) = validMessages env rs ++
        if validMessage env r then [r.vchMsg] else [] := by
      unfold validMessages
      rw [List.filter_append, List.map_append]
      cases hcounts : validMessage env r with
      | false | true => simp [hcounts]
    have hrest := ih ⟨fun x hx y hy => h.hash x (hsub hx) y (hsub hy),
      fun x hx y hy => h.time x (hsub hx) y (hsub hy)⟩ (hstrict.mono fun msg hmsg => by
        rw [Set.mem_ofPred_eq, hvalid]
        exact List.mem_append_left _ hmsg)
    have hok := AlertMap.Ok.foldl_receive (.empty : AlertMap.Ok env OrdMap.empty) rs
    rw [List.foldl_append, List.foldl_cons, List.foldl_nil]
    generalize rs.foldl (AlertMap.receive env) OrdMap.empty = m at hrest hok ⊢
    -- every alert that is held came in
    have hcame : ∀ item ∈ m.entries, ∃ r' ∈ rs, r'.vchMsg = item.2.vchMsg := by
      intro item hitem
      have hin : item.2.vchMsg ∈ messages m := ⟨item, hitem, rfl⟩
      rw [hrest] at hin
      obtain ⟨r', hr', heq⟩ := List.mem_map.mp hin.1
      exact ⟨r', List.mem_of_mem_filter hr', heq⟩
    rw [messages_receive hok (fun item hitem => ?_) (fun item hitem heq => ?_)
      (fun fields hread => ?_), hrest,
      hvalid]
    · split
      · rename_i hcounts
        rw [hvalid, if_pos hcounts] at hstrict
        have hset : {msg | msg ∈ validMessages env rs ++ [r.vchMsg]} =
            {msg | msg ∈ r.vchMsg :: validMessages env rs} := by
          ext msg
          simp [or_comm]
        rw [hset] at hstrict ⊢
        exact Supersede.arrive_top hstrict
      · rw [List.append_nil]
    · obtain ⟨r', hr', heq⟩ := hcame item hitem
      refine decide_eq_true (h.time r hr r' (hsub hr') _ ?_)
      rw [heq]
      exact (hok.genuine item hitem).read
    · obtain ⟨r', hr', hmsg⟩ := hcame item hitem
      rw [← hmsg]
      refine h.hash r' (hsub hr') r hr ?_
      rw [hmsg, ← heq, hok.key item hitem, CAlert.GetHash]
    · exact h.time r hr r hr fields hread

/-- Alerts of the same messages stand under the same hashes. -/
theorem Ok.find_some {m' : AlertMap} (h : AlertMap.Ok env m) (h' : AlertMap.Ok env m')
    (heq : m.messages = m'.messages) {hash : uint256} (hfind : m.find hash = some alert) :
    ∃ other, m'.find hash = some other ∧ other.vchMsg = alert.vchMsg := by
  have hitem := OrdMap.mem_entries.mpr hfind
  have hin : alert.vchMsg ∈ m'.messages := heq ▸ ⟨_, hitem, rfl⟩
  obtain ⟨item', hitem', hmsg⟩ := hin
  have hhash : item'.1 = hash := by
    calc item'.1 = env.Hash item'.2.vchMsg := h'.key item' hitem'
      _ = env.Hash alert.vchMsg := by rw [hmsg]
      _ = hash := (h.key _ hitem).symm
  exact ⟨item'.2, OrdMap.mem_entries.mp (hhash ▸ hitem'), hmsg⟩

theorem Ok.find_messages {m' : AlertMap} (h : AlertMap.Ok env m) (h' : AlertMap.Ok env m')
    (heq : m.messages = m'.messages) (hash : uint256) :
    (m.find hash).map CAlert.vchMsg = (m'.find hash).map CAlert.vchMsg := by
  cases hfind : m.find hash with
  | some alert =>
    obtain ⟨other, hother, hmsg⟩ := h.find_some h' heq hfind
    rw [hother, Option.map_some, Option.map_some, hmsg]
  | none =>
    cases hfind' : m'.find hash with
    | none => rfl
    | some other =>
      obtain ⟨alert, halert, -⟩ := h'.find_some h heq.symm hfind'
      rw [hfind] at halert
      cases halert

/-- Two nodes that heard the same alerts in whatever order, and however often, hold the same ones:
those that no other one cancels, as long as all are in effect and cancelling is a strict order among
them. -/
theorem alerts_converge (env : AlertEnv) (rs rs' : List SignedMessage) (h : InEffect env rs)
    (h' : InEffect env rs')
    (hstrict : Supersede.StrictOn cancelsMessage {msg | msg ∈ validMessages env rs})
    (hsame : ∀ msg, msg ∈ validMessages env rs ↔ msg ∈ validMessages env rs') :
    (∀ hash, ((rs.foldl (receive env) OrdMap.empty).find hash).map CAlert.vchMsg =
      ((rs'.foldl (receive env) OrdMap.empty).find hash).map CAlert.vchMsg) ∧
    ∀ msg, (∃ item ∈ (rs.foldl (receive env) OrdMap.empty).entries, item.2.vchMsg = msg) ↔
      msg ∈ validMessages env rs ∧ ∀ other ∈ validMessages env rs, ¬cancelsMessage other msg := by
  have hset : {msg | msg ∈ validMessages env rs} = {msg | msg ∈ validMessages env rs'} :=
      Set.ext hsame
  have heq := messages_foldl h hstrict
  have heq' := messages_foldl h' (hset ▸ hstrict)
  refine ⟨Ok.find_messages (.foldl_receive .empty rs) (.foldl_receive .empty rs') ?_, fun msg => ?_⟩
  · rw [heq, heq', hset]
  · exact Set.ext_iff.mp heq msg

/-- An alert that cancels all numbers up to one below its own. -/
def CancelsBelow (fields : CUnsignedAlert) : Prop := fields.setCancel = [] ∧
    fields.nCancel < fields.nID

instance : DecidablePred CancelsBelow := fun fields =>
  inferInstanceAs (Decidable (fields.setCancel = [] ∧ fields.nCancel < fields.nID))

theorem strictOn_of_cancelsBelow {seen : Set (List UInt8)}
    (h : ∀ msg ∈ seen, ∀ fields, readAlert msg = some fields → CancelsBelow fields) :
    Supersede.StrictOn cancelsMessage seen := by
  have hbelow : ∀ b ∈ seen, ∀ a, cancelsMessage b a → ∃ fields other, readAlert b = some fields ∧
      readAlert a = some other ∧ other.nID ≤ fields.nCancel ∧ fields.nCancel < fields.nID := by
    rintro b hb a ⟨fields, other, hread, hread', hnames⟩
    obtain ⟨hset, hlt⟩ := h b hb fields hread
    rw [CUnsignedAlert.names, hset, List.contains_nil, Bool.or_false, decide_eq_true_eq] at hnames
    exact ⟨fields, other, hread, hread', hnames, hlt⟩
  constructor
  · intro a ha hself
    obtain ⟨fields, other, hread, hread', hle, hlt⟩ := hbelow a ha a hself
    rw [hread] at hread'
    obtain rfl := Option.some.inj hread'
    omega
  · intro a ha b hb c _ hab hbc
    obtain ⟨fa, fb, hreada, hreadb, hle, hlt⟩ := hbelow a ha b hab
    obtain ⟨fb', fc, hreadb', hreadc, hle', hlt'⟩ := hbelow b hb c hbc
    rw [hreadb] at hreadb'
    obtain rfl := Option.some.inj hreadb'
    refine ⟨fa, fc, hreada, hreadc, ?_⟩
    rw [CUnsignedAlert.names, Bool.or_eq_true]
    exact .inl (decide_eq_true (by omega))

end AlertMap

namespace Scenario

def inOrder : List SignedMessage :=
    [signedMessage 4 (numbered 1), signedMessage 5 (numbered 2), signedMessage 6 (numbered 3)]

def outOfOrder : List SignedMessage :=
  [signedMessage 4 (numbered 2), signedMessage 5 (numbered 3), signedMessage 6 (numbered 1),
    signedMessage 7 (numbered 3)]

theorem inEffect_of_numbered {rs : List SignedMessage}
    (htime : ∀ r ∈ rs, ∀ r' ∈ rs, ∀ fields ∈ readAlert r'.vchMsg, r.now < fields.nExpiration) :
    InEffect alertKey rs where
  hash _ _ _ _ heq := byteCode_injective heq
  time := htime

/-- The same three alerts in two orders. -/
theorem alerts_converge_numbered :
    (fun hash => ((inOrder.foldl (AlertMap.receive alertKey) OrdMap.empty).find hash).map
      CAlert.vchMsg) =
    fun hash => ((outOfOrder.foldl (AlertMap.receive alertKey) OrdMap.empty).find hash).map
      CAlert.vchMsg := by
  have hbelow : ∀ msg ∈ validMessages alertKey inOrder, ∀ fields ∈ readAlert msg,
      AlertMap.CancelsBelow fields := by
    decide +kernel
  have hsame : (∀ msg ∈ validMessages alertKey inOrder, msg ∈ validMessages alertKey outOfOrder) ∧
      ∀ msg ∈ validMessages alertKey outOfOrder, msg ∈ validMessages alertKey inOrder := by
    decide +kernel
  exact funext (AlertMap.alerts_converge alertKey inOrder outOfOrder
    (inEffect_of_numbered (by decide +kernel))
    (inEffect_of_numbered (by decide +kernel)) (AlertMap.strictOn_of_cancelsBelow hbelow)
    fun msg => ⟨hsame.1 msg, hsame.2 msg⟩).1

end Scenario

end Dions
