import Dions.Verification.Net.Alerts

/-! # Alerts and the peers of a node

What a node does with its peers keeps every one of them informed, and tells it nothing twice. -/

namespace Dions

open Halting

section Peers

variable {env : AlertEnv} {now now' : ℤ} {alert : CAlert} {pnode : AlertPeer}

/-- The peer is sent each alert once, and only alerts that are genuine. -/
structure AlertPeer.Ok (env : AlertEnv) (pnode : AlertPeer) : Prop where
  once : (pnode.pushed.map (CAlert.GetHash env)).Nodup
  known : ∀ alert ∈ pnode.pushed, alert.GetHash env ∈ pnode.setKnown
  genuine : ∀ alert ∈ pnode.pushed, Genuine env alert

theorem AlertPeer.Ok.start : AlertPeer.Ok env .start where
  once := List.nodup_nil
  known _ h := absurd h List.not_mem_nil
  genuine _ h := absurd h List.not_mem_nil

theorem AlertPeer.Ok.relayTo (h : pnode.Ok env) (hgenuine : Genuine env alert) :
    (alert.RelayTo env now pnode).Ok env := by
  unfold CAlert.RelayTo
  split
  · exact h
  · split
    · exact h
    · rename_i hnew
      have hfresh : alert.GetHash env ∉ pnode.setKnown := by simpa using hnew
      dsimp only
      split
      · refine ⟨?_, ?_, ?_⟩
        · rw [List.map_append, List.map_singleton, List.nodup_append]
          refine ⟨h.once, List.nodup_singleton _, ?_⟩
          rintro hash hhash _ hlast rfl
          obtain ⟨other, hother, heq⟩ := List.mem_map.mp hhash
          rw [List.mem_singleton.mp hlast] at heq
          exact hfresh (heq ▸ h.known other hother)
        · intro other hother
          rcases List.mem_append.mp hother with hother | hother
          · exact List.mem_cons_of_mem _ (h.known other hother)
          · rw [List.mem_singleton.mp hother]
            exact List.mem_cons_self
        · intro other hother
          rcases List.mem_append.mp hother with hother | hother
          · exact h.genuine other hother
          · rw [List.mem_singleton.mp hother]
            exact hgenuine
      · exact ⟨h.once, fun other hother => List.mem_cons_of_mem _ (h.known other hother), h.genuine⟩

theorem setKnown_relayTo {hash : uint256} (h : hash ∈ pnode.setKnown) :
    hash ∈ (alert.RelayTo env now pnode).setKnown := by
  unfold CAlert.RelayTo
  split
  · exact h
  · split
    · exact h
    · dsimp only
      split
      · exact List.mem_cons_of_mem _ h
      · exact List.mem_cons_of_mem _ h

theorem mem_setKnown_relayTo (heffect : alert.IsInEffect now = true) :
    alert.GetHash env ∈ (alert.RelayTo env now pnode).setKnown := by
  unfold CAlert.RelayTo
  rw [if_neg (by simp [heffect])]
  split
  · rename_i hknown
    simpa using hknown
  · dsimp only
    split
    · exact List.mem_cons_self
    · exact List.mem_cons_self

@[simp] theorem fSuccessfullyConnected_relayTo :
    (alert.RelayTo env now pnode).fSuccessfullyConnected = pnode.fSuccessfullyConnected := by
  unfold CAlert.RelayTo
  split
  · rfl
  · split
    · rfl
    · dsimp only
      split <;> rfl

end Peers

/-! ## The version message -/

namespace AlertPeer

/-- What the peer has been told is as before, and so is whether it has introduced itself. -/
structure ToldAs (pnode pnode' : AlertPeer) : Prop where
  setKnown : pnode'.setKnown = pnode.setKnown
  pushed : pnode'.pushed = pnode.pushed
  fSuccessfullyConnected : pnode'.fSuccessfullyConnected = pnode.fSuccessfullyConnected

variable {env : AlertEnv} {pnode pnode' : AlertPeer} {vRecv rest : List UInt8}

theorem ToldAs.refl (pnode : AlertPeer) : pnode.ToldAs pnode := ⟨rfl, rfl, rfl⟩

theorem ToldAs.trans {pnode'' : AlertPeer} (h : pnode.ToldAs pnode') (h' : pnode'.ToldAs pnode'') :
    pnode.ToldAs pnode'' where
  setKnown := h'.setKnown.trans h.setKnown
  pushed := h'.pushed.trans h.pushed
  fSuccessfullyConnected := h'.fSuccessfullyConnected.trans h.fSuccessfullyConnected

theorem ToldAs.ok (h : pnode.ToldAs pnode') (hok : pnode.Ok env) : pnode'.Ok env where
  once := by
    rw [h.pushed]
    exact hok.once
  known := by
    rw [h.pushed, h.setKnown]
    exact hok.known
  genuine := by
    rw [h.pushed]
    exact hok.genuine

theorem skip_error {n : ℕ} (h : pnode.skip n vRecv = .error pnode') : pnode' = pnode := by
  unfold skip at h
  split at h
  · exact (Except.error.inj h).symm
  · cases h

theorem readNonce_error (h : pnode.readNonce vRecv = .error pnode') : pnode' = pnode := by
  unfold readNonce at h
  split at h
  · cases h
  · rcases seq_error.mp h with h | ⟨rest, -, h⟩
    · exact skip_error h
    · split at h
      · exact (Except.error.inj h).symm
      · cases h

theorem readSubVer_error (h : pnode.readSubVer vRecv = .error pnode') : pnode.ToldAs pnode' := by
  unfold readSubVer at h
  split at h
  · cases h
  · split at h
    · rw [← Except.error.inj h]
      exact .refl pnode
    · split at h
      · rw [← Except.error.inj h]
        exact ⟨rfl, rfl, rfl⟩
      · cases h

theorem readSubVer_ok (h : pnode.readSubVer vRecv = .ok (pnode', rest)) : pnode.ToldAs pnode' := by
  unfold readSubVer at h
  split at h
  · obtain ⟨rfl, -⟩ := Prod.mk.inj (Except.ok.inj h)
    exact .refl pnode
  · split at h
    · cases h
    · split at h
      · cases h
      · obtain ⟨rfl, -⟩ := Prod.mk.inj (Except.ok.inj h)
        exact ⟨rfl, rfl, rfl⟩

theorem readStartingHeight_error (h : pnode.readStartingHeight vRecv = .error pnode') :
    pnode' = pnode := by
  unfold readStartingHeight at h
  split at h
  · cases h
  · exact skip_error h

variable {nLocalHostNonce : ℕ}

theorem readOptional_told (h : pnode.readOptional nLocalHostNonce vRecv = .error pnode' ∨
    pnode.readOptional nLocalHostNonce vRecv = .ok pnode') : pnode.ToldAs pnode' := by
  unfold readOptional at h
  rw [seq_error, seq_ok] at h
  rcases h with (h | ⟨⟨nNonce, rest⟩, -, h⟩) | ⟨⟨nNonce, rest⟩, -, h⟩
  · rw [readNonce_error h]
    exact .refl pnode
  · rcases seq_error.mp h with h | ⟨⟨pnode₁, rest⟩, hsub, h⟩
    · exact readSubVer_error h
    · refine (readSubVer_ok hsub).trans ?_
      rcases seq_error.mp h with h | ⟨_, -, h⟩
      · rw [readStartingHeight_error h]
        exact .refl pnode₁
      · split at h
        · rw [← Except.error.inj h]
          exact ⟨rfl, rfl, rfl⟩
        · cases h
  · obtain ⟨⟨pnode₁, rest⟩, hsub, h⟩ := seq_ok.mp h
    obtain ⟨_, -, h⟩ := seq_ok.mp h
    refine (readSubVer_ok hsub).trans ?_
    split at h
    · cases h
    · rw [← Except.ok.inj h]
      exact .refl pnode₁

/-- Wherever the reading of a version message ends, nothing has been told yet. -/
theorem readVersion_told (h : pnode.readVersion nLocalHostNonce vRecv = .error pnode' ∨
    pnode.readVersion nLocalHostNonce vRecv = .ok pnode') : pnode.ToldAs pnode' := by
  unfold readVersion at h
  split at h
  · rcases h with h | h
    · rw [← Except.error.inj h]
      exact .refl pnode
    · cases h
  · rename_i nVersion fields hread
    have hversion : pnode.ToldAs { pnode with nVersion := nVersion } := ⟨rfl, rfl, rfl⟩
    have hrenamed : pnode.ToldAs (if nVersion = 10300 then { pnode with nVersion := 300 }
        else { pnode with nVersion := nVersion }) := by
      split
      · exact ⟨rfl, rfl, rfl⟩
      · exact hversion
    rw [seq_error, seq_ok] at h
    rcases h with (h | h) | h
    · rw [skip_error h]
      exact hversion
    · obtain ⟨rest, -, h⟩ := h
      split at h
      · rw [← Except.error.inj h]
        exact ⟨rfl, rfl, rfl⟩
      · exact hrenamed.trans (readOptional_told (.inl h))
    · obtain ⟨rest, -, h⟩ := h
      split at h
      · cases h
      · exact hrenamed.trans (readOptional_told (.inr h))

end AlertPeer

structure VersionMessage where
  nVersion : ℤ
  /-- `nServices`, `nTime` and `addrMe`. -/
  fixed : List UInt8
  addrFrom : List UInt8
  nNonce : ℕ
  strSubVer : List UInt8
  nStartingHeight : List UInt8
  current : MIN_PEER_PROTO_VERSION ≤ nVersion ∧ nVersion < 2 ^ 31
  length_fixed : fixed.length = 8 + 8 + 26
  length_addrFrom : addrFrom.length = 26
  nNonce_lt : nNonce < 2 ^ 64
  length_strSubVer : strSubVer.length ≤ BlockFile.MAX_SIZE
  length_nStartingHeight : nStartingHeight.length = 4

namespace VersionMessage

variable (msg : VersionMessage)

/-- What stands behind the fields that every version message has. -/
def optional : List UInt8 :=
  msg.addrFrom ++ ((wireUnsigned 8).serialize msg.nNonce ++
    (wireBytes.serialize msg.strSubVer ++ msg.nStartingHeight))

def bytes : List UInt8 := (wireSigned 4).serialize msg.nVersion ++ (msg.fixed ++ msg.optional)

end VersionMessage

theorem serialize_wireBytes (bs : List UInt8) :
    wireBytes.serialize bs = WriteCompactSize bs.length ++ bs := by
  have hbs : bs.flatMap (fun b => [b]) = bs := by simp
  exact congrArg (WriteCompactSize bs.length ++ ·) hbs

theorem isEmpty_append {xs ys : List UInt8} (h : 0 < xs.length) : (xs ++ ys).isEmpty = false := by
  rw [List.isEmpty_eq_false_iff]
  exact List.append_ne_nil_of_left_ne_nil (List.ne_nil_of_length_pos h) ys

namespace AlertPeer

variable {pnode : AlertPeer} {msg : VersionMessage} {nLocalHostNonce : ℕ}

theorem skip_append (pnode : AlertPeer) {n : ℕ} {field : List UInt8} (h : field.length = n)
    (rest : List UInt8) : pnode.skip n (field ++ rest) = .ok rest := by
  unfold skip
  rw [if_neg (by rw [List.length_append]; omega), ← h, List.drop_left]

theorem readNonce_append (pnode : AlertPeer) (msg : VersionMessage) :
    pnode.readNonce msg.optional =
      .ok (msg.nNonce, wireBytes.serialize msg.strSubVer ++ msg.nStartingHeight) := by
  have hread := (wireUnsigned 8).round msg.nNonce
    (wireBytes.serialize msg.strSubVer ++ msg.nStartingHeight)
    (by change msg.nNonce < 256 ^ 8; have := msg.nNonce_lt; omega)
  have hlength := msg.length_addrFrom
  unfold readNonce VersionMessage.optional
  rw [isEmpty_append (by omega)]
  simp only [skip_append _ hlength, hread, bind, Except.bind, Bool.false_eq_true, if_false]

theorem readSubVer_append (pnode : AlertPeer) (msg : VersionMessage) :
    pnode.readSubVer (wireBytes.serialize msg.strSubVer ++ msg.nStartingHeight) =
      .ok ({ pnode with strSubVer := msg.strSubVer }, msg.nStartingHeight) := by
  have hread : ReadCompactSize (WriteCompactSize msg.strSubVer.length ++
      (msg.strSubVer ++ msg.nStartingHeight)) =
        .ok (msg.strSubVer.length, msg.strSubVer ++ msg.nStartingHeight) :=
    wireCompactSize.round msg.strSubVer.length _ msg.length_strSubVer
  have hsize : 0 < (WriteCompactSize msg.strSubVer.length).length := by
    rw [length_WriteCompactSize]
    unfold GetSizeOfCompactSize
    split_ifs <;> decide
  unfold readSubVer
  rw [serialize_wireBytes, List.append_assoc, isEmpty_append hsize, hread]
  simp only [Bool.false_eq_true, if_false, List.length_append, List.take_left, List.drop_left]
  rw [if_neg (by omega)]

theorem readStartingHeight_append (pnode : AlertPeer) (msg : VersionMessage) :
    pnode.readStartingHeight msg.nStartingHeight = .ok [] := by
  have hlength := msg.length_nStartingHeight
  have hskip := pnode.skip_append hlength []
  rw [List.append_nil] at hskip
  have hne : msg.nStartingHeight.isEmpty = false := by
    rw [List.isEmpty_eq_false_iff]
    exact List.ne_nil_of_length_pos (by omega)
  unfold readStartingHeight
  rw [hne]
  exact hskip

/-- A version message with all of its fields is read to its end, unless the node has sent it. -/
theorem readVersion_bytes (pnode : AlertPeer)
    (hother : msg.nNonce ≠ nLocalHostNonce ∨ msg.nNonce ≤ 1) :
    pnode.readVersion nLocalHostNonce msg.bytes =
      .ok { pnode with nVersion := msg.nVersion, strSubVer := msg.strSubVer } := by
  have hmin : (60022 : ℤ) ≤ msg.nVersion := msg.current.1
  have hread := (wireSigned 4).round msg.nVersion (msg.fixed ++ msg.optional)
    ((Codec.int_valid_iff _ 3 msg.nVersion).mpr ⟨by omega, msg.current.2⟩)
  unfold readVersion VersionMessage.bytes
  rw [hread]
  simp only [skip_append _ msg.length_fixed, bind, Except.bind]
  rw [if_neg (by unfold MIN_PEER_PROTO_VERSION PROTOCOL_VERSION; omega), if_neg (by omega)]
  unfold readOptional
  simp only [readNonce_append, readSubVer_append, readStartingHeight_append, bind, Except.bind]
  rw [if_neg (by omega)]

end AlertPeer

/-! ## A node and its peers -/

namespace AlertNode

variable {ι : Type} [DecidableEq ι] {env : AlertEnv} {now now' : ℤ} {s s' : AlertNode ι}
  {alert : CAlert}

/-- The peers in the list have heard of the alert, and nothing else has changed. -/
structure Relayed (env : AlertEnv) (now : ℤ) (alert : CAlert) (is : List ι)
    (s s' : AlertNode ι) : Prop where
  alerts : s'.mapAlerts = s.mapAlerts
  nodes : s'.vNodes = s.vNodes
  ok : Genuine env alert → (∀ i, (s.peer i).Ok env) → ∀ i, (s'.peer i).Ok env
  known : ∀ i, ∀ hash ∈ (s.peer i).setKnown, hash ∈ (s'.peer i).setKnown
  offered : alert.IsInEffect now = true → ∀ i ∈ is, alert.GetHash env ∈ (s'.peer i).setKnown
  introduced : ∀ i,
    (s'.peer i).fSuccessfullyConnected = (s.peer i).fSuccessfullyConnected

theorem peer_put (s : AlertNode ι) (i j : ι) (pnode : AlertPeer) :
    (s.put i pnode).peer j = if j = i then pnode else s.peer j :=
      Function.update_apply s.peer i pnode j

theorem relayed_foldl (env : AlertEnv) (now : ℤ) (alert : CAlert) (is : List ι) (s : AlertNode ι) :
    Relayed env now alert is s
        (is.foldl (fun s i => s.put i (alert.RelayTo env now (s.peer i))) s) := by
  induction is generalizing s with
  | nil => exact ⟨rfl, rfl, fun _ h => h, fun _ _ h => h, fun _ _ h => absurd h List.not_mem_nil,
      fun _ => rfl⟩
  | cons i is ih =>
    have hrest := ih (s.put i (alert.RelayTo env now (s.peer i)))
    refine ⟨hrest.alerts, hrest.nodes, fun hgenuine hok => hrest.ok hgenuine fun j => ?_,
      fun j hash hhash => hrest.known j hash ?_, fun heffect j hj => ?_,
      fun j => (hrest.introduced j).trans ?_⟩
    · rw [peer_put]
      split
      · exact (hok i).relayTo hgenuine
      · exact hok j
    · rw [peer_put]
      split
      · rename_i heq
        exact setKnown_relayTo (heq ▸ hhash)
      · exact hhash
    · rcases List.mem_cons.mp hj with rfl | hj
      · refine hrest.known j _ ?_
        rw [peer_put, if_pos rfl]
        exact mem_setKnown_relayTo heffect
      · exact hrest.offered heffect j hj
    · rw [peer_put]
      split
      · rename_i heq
        rw [fSuccessfullyConnected_relayTo, heq]
      · rfl

/-- A peer that has heard of the alerts in a list. -/
structure Introduced (env : AlertEnv) (now : ℤ) (items : List (uint256 × CAlert))
    (p p' : AlertPeer) : Prop where
  ok : (∀ item ∈ items, Genuine env item.2) → p.Ok env → p'.Ok env
  known : ∀ hash ∈ p.setKnown, hash ∈ p'.setKnown
  offered : ∀ item ∈ items, item.2.IsInEffect now = true → item.2.GetHash env ∈ p'.setKnown

theorem introduced_foldl (env : AlertEnv) (now : ℤ) (items : List (uint256 × CAlert))
    (p : AlertPeer) :
    Introduced env now items p (items.foldl (fun p item => item.2.RelayTo env now p) p) := by
  induction items generalizing p with
  | nil => exact ⟨fun _ h => h, fun _ h => h, fun _ h => absurd h List.not_mem_nil⟩
  | cons item items ih =>
    have hrest := ih (item.2.RelayTo env now p)
    refine ⟨fun hgenuine hok => hrest.ok
      (fun other hother => hgenuine other (List.mem_cons_of_mem _ hother))
      (hok.relayTo (hgenuine item List.mem_cons_self)),
        fun hash hhash => hrest.known hash (setKnown_relayTo hhash),
      fun other hother heffect => ?_⟩
    rcases List.mem_cons.mp hother with rfl | hother
    · exact hrest.known _ (mem_setKnown_relayTo heffect)
    · exact hrest.offered other hother heffect

/-- What every node keeps. -/
structure Ok (env : AlertEnv) (now : ℤ) (s : AlertNode ι) : Prop where
  alerts : AlertMap.Ok env s.mapAlerts
  apart : AlertMap.Apart now s.mapAlerts
  peers : ∀ i, (s.peer i).Ok env
  /-- A peer whose version message has been read to its end has been offered every alert that is in
  effect. -/
  offered : ∀ i ∈ s.vNodes, (s.peer i).fSuccessfullyConnected = true →
    ∀ item ∈ s.mapAlerts.entries, item.2.IsInEffect now = true → item.1 ∈ (s.peer i).setKnown

omit [DecidableEq ι] in
theorem Ok.start : Ok env now (start : AlertNode ι) where
  alerts := .empty
  apart _ h := absurd h List.not_mem_nil
  peers _ := .start
  offered _ h := absurd h List.not_mem_nil

omit [DecidableEq ι] in
theorem Ok.later (h : Ok env now s) (hle : now ≤ now') : Ok env now' s where
  alerts := h.alerts
  apart := h.apart.later hle
  peers := h.peers
  offered i hi hintroduced item hitem heffect :=
    h.offered i hi hintroduced item hitem (CAlert.IsInEffect.earlier heffect hle)

/-- One peer changes, and is not offered less than before. -/
theorem Ok.put (h : Ok env now s) {i : ι} {pnode : AlertPeer} (hok : pnode.Ok env)
    (hoffered : i ∈ s.vNodes → pnode.fSuccessfullyConnected = true →
      ∀ item ∈ s.mapAlerts.entries, item.2.IsInEffect now = true → item.1 ∈ pnode.setKnown) :
    Ok env now (s.put i pnode) where
  alerts := h.alerts
  apart := h.apart
  peers j := by
    rw [peer_put]
    split
    · exact hok
    · exact h.peers j
  offered j hj := by
    rw [peer_put]
    split
    · rename_i heq
      exact hoffered (heq ▸ hj)
    · exact h.offered j hj

theorem Ok.misbehaving (h : Ok env now s) (i : ι) (howmuch : ℤ) :
    Ok env now (s.put i ((s.peer i).Misbehaving howmuch)) :=
  h.put ⟨(h.peers i).once, (h.peers i).known, (h.peers i).genuine⟩ (h.offered i)

theorem Ok.version (h : Ok env now s) (i : ι) (nLocalHostNonce : ℕ) (vRecv : List UInt8) :
    Ok env now (s.version env now i nLocalHostNonce vRecv) := by
  unfold AlertNode.version
  dsimp only
  split
  · exact h.misbehaving i 1
  · split
    · rename_i pnode hread
      have htold := AlertPeer.readVersion_told (.inl hread)
      refine h.put (htold.ok (h.peers i)) fun hi hintroduced => ?_
      rw [htold.setKnown]
      exact h.offered i hi (htold.fSuccessfullyConnected.symm.trans hintroduced)
    · rename_i pnode hread
      have hok := (AlertPeer.readVersion_told (.inr hread)).ok (h.peers i)
      have hheard := introduced_foldl env now s.mapAlerts.entries pnode
      have hok' := hheard.ok h.alerts.genuine hok
      refine h.put ⟨hok'.once, hok'.known, hok'.genuine⟩ fun _ _ item hitem heffect => ?_
      rw [h.alerts.key item hitem]
      exact hheard.offered item hitem heffect

omit [DecidableEq ι] in
/-- The alerts change to what is left of them, and what is new has been offered to every peer. -/
theorem Ok.entered (h : Ok env now s) (hgenuine : Genuine env alert)
    (hnone : (alert.enter env now s.mapAlerts).1 = false) :
    Ok env now { s with mapAlerts := (alert.enter env now s.mapAlerts).2 } where
  alerts := h.alerts.enter hgenuine
  apart := h.apart.enter
  peers := h.peers
  offered i hi hintroduced item hitem heffect := by
    rcases mem_of_mem_enter hitem with ⟨hentered, -⟩ | hold
    · rw [hnone] at hentered
      cases hentered
    · exact h.offered i hi hintroduced item hold heffect

/-- What a peer knows grows, and nothing else of it changes. -/
structure Learns (env : AlertEnv) (p p' : AlertPeer) : Prop extends AlertPeer.Ok env p' where
  more : ∀ hash ∈ p.setKnown, hash ∈ p'.setKnown
  introduced : p'.fSuccessfullyConnected = p.fSuccessfullyConnected

/-- An alert enters, and is relayed to all the peers. -/
theorem Ok.accepted {s₁ : AlertNode ι} (h : Ok env now s) (hgenuine : Genuine env alert)
    (hnodes : s₁.vNodes = s.vNodes) (hpeers : ∀ j, Learns env (s.peer j) (s₁.peer j)) :
    Ok env now
      (relay env now { s₁ with mapAlerts := (alert.enter env now s.mapAlerts).2 } alert) := by
  have hheard := relayed_foldl env now alert s₁.vNodes
    { s₁ with mapAlerts := (alert.enter env now s.mapAlerts).2 }
  have halerts : (relay env now { s₁ with mapAlerts := (alert.enter env now s.mapAlerts).2 }
      alert).mapAlerts =
    (alert.enter env now s.mapAlerts).2 := hheard.alerts
  refine ⟨by rw [halerts]; exact h.alerts.enter hgenuine, by rw [halerts]; exact h.apart.enter,
    hheard.ok hgenuine fun j => (hpeers j).toOk, fun j hj hintroduced item hitem heffect => ?_⟩
  have hj₁ : j ∈ s₁.vNodes := hheard.nodes ▸ hj
  have hintroduced' : (s.peer j).fSuccessfullyConnected = true :=
    (hpeers j).introduced.symm.trans ((hheard.introduced j).symm.trans hintroduced)
  rw [halerts] at hitem
  rcases mem_of_mem_enter hitem with ⟨-, rfl⟩ | hold
  · exact hheard.offered heffect j hj₁
  · exact hheard.known j _ ((hpeers j).more _
      (h.offered j (hnodes ▸ hj₁) hintroduced' item hold heffect))

theorem Ok.message (h : Ok env now s) (i : ι) (vchMsg vchSig : List UInt8) :
    Ok env now (s.alert env now i vchMsg vchSig) := by
  unfold AlertNode.alert
  dsimp only
  split
  · exact h.misbehaving i 1
  · split
    · exact h
    · split
      · exact h
      · rename_i read m' hprocess
        obtain ⟨hgenuine, -, -, rfl⟩ := ProcessAlert_some hprocess
        have hlearned : ∀ j, Learns env (s.peer j) ((s.put i { s.peer i with
            setKnown := env.Hash vchMsg :: (s.peer i).setKnown }).peer j) := by
          intro j
          rw [peer_put]
          split
          · rename_i heq
            rw [heq]
            exact ⟨⟨(h.peers i).once,
              fun other hother => List.mem_cons_of_mem _ ((h.peers i).known other hother),
              (h.peers i).genuine⟩, fun hash hhash => List.mem_cons_of_mem _ hhash, rfl⟩
          · exact ⟨h.peers j, fun _ hhash => hhash, rfl⟩
        exact h.accepted hgenuine rfl hlearned
      · rename_i m' hprocess
        rcases ProcessAlert_none hprocess with rfl | ⟨read, hgenuine, hrefused, rfl⟩
        · exact h.misbehaving i 10
        · exact (h.misbehaving i 10).entered hgenuine hrefused

theorem Ok.step (h : Ok env now s) (e : AlertEvent ι) : Ok env now (s.step env now e) := by
  cases e with
  | connect i =>
    unfold AlertNode.step
    dsimp only
    split
    · exact h
    · have hput : Ok env now (s.put i .start) := h.put .start fun _ hnew => by cases hnew
      refine ⟨hput.alerts, hput.apart, hput.peers, fun j hj hintroduced item hitem heffect => ?_⟩
      rcases List.mem_append.mp hj with hold | hnew
      · exact hput.offered j hold hintroduced item hitem heffect
      · have hstart : (s.put i .start).peer i = .start := by rw [peer_put, if_pos rfl]
        have hintroduced' : ((s.put i .start).peer j).fSuccessfullyConnected = true := hintroduced
        rw [List.mem_singleton.mp hnew, hstart] at hintroduced'
        cases hintroduced'
  | disconnect i =>
    exact ⟨h.alerts, h.apart, h.peers, fun j hj => h.offered j (List.mem_of_mem_filter hj)⟩
  | version i nLocalHostNonce vRecv =>
    unfold AlertNode.step
    dsimp only
    split
    · exact h.version i nLocalHostNonce vRecv
    · exact h
  | alert i vchMsg vchSig =>
    unfold AlertNode.step
    dsimp only
    split
    · exact h.message i vchMsg vchSig
    · exact h

/-- The events, each with the adjusted time at which it happens. -/
def run (env : AlertEnv) (s : AlertNode ι) (es : List (ℤ × AlertEvent ι)) : AlertNode ι :=
  es.foldl (fun s e => s.step env e.1 e.2) s

theorem Ok.run {es : List (ℤ × AlertEvent ι)} (h : Ok env now s) (hfirst : ∀ e ∈ es, now ≤ e.1)
    (hlast : ∀ e ∈ es, e.1 ≤ now') (hle : now ≤ now') (htime : (es.map Prod.fst).Pairwise (· ≤ ·)) :
    Ok env now' (s.run env es) := by
  induction es generalizing s now with
  | nil => exact h.later hle
  | cons e es ih =>
    rw [List.map_cons, List.pairwise_cons] at htime
    have hstep := (h.later (hfirst e List.mem_cons_self)).step e.2
    refine ih hstep (fun other hother => htime.1 other.1 (List.mem_map_of_mem hother))
      (fun other hother => hlast other (List.mem_cons_of_mem _ hother)) (hlast e List.mem_cons_self)
        htime.2

/-- A complete version message introduces a peer that has not said its version yet. -/
theorem introduced_of_bytes {i : ι} {nLocalHostNonce : ℕ} {msg : VersionMessage}
    (hi : i ∈ s.vNodes) (hversion : (s.peer i).nVersion = 0)
    (hopen : (s.peer i).fDisconnect = false)
    (hother : msg.nNonce ≠ nLocalHostNonce ∨ msg.nNonce ≤ 1) :
    ((s.step env now (.version i nLocalHostNonce msg.bytes)).peer i).fSuccessfullyConnected =
      true := by
  unfold AlertNode.step
  dsimp only
  rw [if_pos ⟨hi, by rw [hopen]; rfl⟩, AlertNode.version]
  dsimp only
  rw [if_neg (not_not.mpr hversion), AlertPeer.readVersion_bytes _ hother]
  dsimp only
  rw [peer_put, if_pos rfl]

end AlertNode

namespace Scenario

def introduction (nVersion : ℤ) (nNonce : ℕ)
    (h : (MIN_PEER_PROTO_VERSION ≤ nVersion ∧ nVersion < 2 ^ 31) ∧ nNonce < 2 ^ 64) :
    VersionMessage where
  nVersion := nVersion
  fixed := List.replicate 42 0
  addrFrom := List.replicate 26 0
  nNonce := nNonce
  strSubVer := strSubVersion
  nStartingHeight := List.replicate 4 0
  current := h.1
  length_fixed := rfl
  length_addrFrom := rfl
  nNonce_lt := h.2
  length_strSubVer := by decide
  length_nStartingHeight := rfl

/-- The version message of the second peer ends behind the version. The first one sends three
alerts, of which the second outlives the others, and the third peer comes when they are there. -/
def heardAlerts : List (ℤ × AlertEvent ℕ) :=
  [(1, .connect 0), (2, .connect 1), (3, .version 0 5 (introduction 60022 7 (by decide)).bytes),
    (3, .version 1 5 ((introduction 60022 8 (by decide)).bytes.take 4)),
    (4, .alert 0 (signedMessage 4 (numbered 1)).vchMsg [1]),
    (5, .alert 0 (signedMessage 5 (numbered 3)).vchMsg [1]),
    (6, .alert 0 (signedMessage 6 (numbered 2)).vchMsg [1]),
    (6, .connect 2), (7, .version 2 5 (introduction 70001 9 (by decide)).bytes)]

end Scenario

end Dions
