import Dions.Verification.Wallet.ExchangeSteps

/-! # Two wallets read each other's messages

One address invites, the other one replies with a key. Where every pair of addresses keeps to that,
a message that was sent under the key is read as it was written, by the one who sent it too,
whatever order the transactions arrive in. -/

namespace Dions

open Halting LittleEndian

namespace Exchange

variable {ι : Type} [DecidableEq ι] {env : MessageEnv} {owner : CKeyID → Option ι}
  {s : Exchange ι}

/-- The wallet has the key of the address. -/
def Holds (owner : CKeyID → Option ι) (env : MessageEnv) (i : ι) (a : vchType) : Prop :=
  ∃ id, Held env owner a i id

/-- Every reply that a text to the wallet needs has arrived. -/
def Arrived (env : MessageEnv) (owner : CKeyID → Option ι) (s : Exchange ι) (i : ι) : Prop :=
  ∀ t ∈ s.texts, t.wtx ∈ (s.wallets i).txs →
    Holds owner env i t.recipient → ¬Holds owner env i t.sender →
      ∀ k ∈ s.keys, k.sender = t.sender → k.recipient = t.recipient → k.wtx ∈ (s.wallets i).txs

theorem Ok.hk_eq (h : Ok env owner s) {a : vchType} (ha : PlainAddress env a) (i : ι) :
    (s.wallets i).hk env a = true ↔ Holds owner env i a := by
  unfold MessagingWallet.hk
  dsimp only
  rw [ha.valid, Bool.true_and]
  constructor
  · intro hkey
    cases hid : cba.GetKeyID env (cba.ofString env.Hash a) with
    | none =>
      rw [hid] at hkey
      cases hkey
    | some id =>
      rw [hid] at hkey
      exact ⟨id, h.held hid hkey⟩
  · rintro ⟨id, hheld⟩
    have hid : cba.GetKeyID env (cba.ofString env.Hash a) = some id := hheld.refers
    rw [hid]
    have hkey := h.GetKey i id
    rw [hheld.owned, beq_self_eq_true] at hkey
    exact hkey

/-- A text is read as it was written, by the wallet of either address, and passed over by the
others. -/
theorem Ok.listedMessage_text (h : Ok env owner s) (haes : env.Decrypts) {i : ι}
    (harrived : Arrived env owner s i) {t : SentText} (ht : t ∈ s.texts)
    (hin : t.wtx ∈ (s.wallets i).txs) :
    ((Holds owner env i t.sender ∨ Holds owner env i t.recipient) ∧ ∃ e,
        (s.wallets i).listedMessage env t.wtx = .ok (some e) ∧ e.sender = t.sender ∧
          e.recipient = t.recipient ∧ e.plain_text = t.text) ∨
      (¬(Holds owner env i t.sender ∨ Holds owner env i t.recipient) ∧
        (s.wallets i).listedMessage env t.wtx = .ok none) := by
  obtain ⟨ha, hb, ⟨jd, hjd⟩, key, iv128, sig, hlength, hiv, hupdate, k, hk, hkey, hside⟩ :=
    h.textOk t ht
  have hdecrypt := DecryptMessageAES_encrypted haes hlength hiv t.text
  unfold MessagingWallet.listedMessage
  have hencrypted : GetEncryptedMessageUpdate t.wtx = .ok (some ⟨t.sender, t.recipient,
    EncodeBase64 (env.encrypt key iv128 t.text), EncodeBase64 iv128, sig⟩) := hupdate
  simp only [hencrypted, defined, MessagingWallet.keeping, bind, Except.bind]
  by_cases hsender : Holds owner env i t.sender
  · rw [if_pos ((h.hk_eq ha i).mpr hsender)]
    left
    refine ⟨.inl hsender, ?_⟩
    obtain ⟨id, hheld⟩ := hsender
    have hid : cba.GetKeyID env (cba.ofString env.Hash t.sender) = some id := hheld.refers
    have hGetKey := h.GetKey i id
    rw [hheld.owned, beq_self_eq_true] at hGetKey
    have hshared : (s.wallets i).sharedKey env id t.sender t.recipient = .ok key := by
      rcases hside with ⟨hs, hr⟩ | ⟨hs, hr, i', id', hheld', hin'⟩
      · rw [← hs, ← hr]
        exact h.sharedKey_own hk hkey (hs ▸ hheld)
      · obtain ⟨rfl, rfl⟩ := hheld.unique hheld'
        rw [← hs, ← hr]
        exact h.sharedKey_imported hk hkey (hr ▸ hheld) hin'
    simp only [ha.valid, hid, hGetKey, hshared, hdecrypt, MessagingWallet.need, Bool.not_true,
      Bool.false_eq_true, if_false]
    exact ⟨_, rfl, rfl, rfl, rfl⟩
  · have hhk : ¬(s.wallets i).hk env t.sender = true := fun hhk => hsender ((h.hk_eq ha i).mp hhk)
    rw [if_neg hhk]
    by_cases hrecipient : Holds owner env i t.recipient
    · left
      refine ⟨.inr hrecipient, ?_⟩
      have hreplies := harrived t ht hin hrecipient hsender
      obtain ⟨id, hheld⟩ := hrecipient
      have hid : cba.GetKeyID env (cba.ofString env.Hash t.recipient) = some id := hheld.refers
      have hGetKey := h.GetKey i id
      rw [hheld.owned, beq_self_eq_true] at hGetKey
      have hshared : (s.wallets i).sharedKey env id t.recipient t.sender = .ok key := by
        rcases hside with ⟨hs, hr⟩ | ⟨hs, hr, -⟩
        · rw [← hs, ← hr]
          exact h.sharedKey_imported hk hkey (hr ▸ hheld) (hreplies k hk hs hr)
        · rw [← hs, ← hr]
          exact h.sharedKey_own hk hkey (hs ▸ hheld)
      simp only [hb.valid, hid, hGetKey, hshared, hdecrypt, MessagingWallet.need, Bool.not_true,
        Bool.false_eq_true, if_false]
      exact ⟨_, rfl, rfl, rfl, rfl⟩
    · right
      refine ⟨fun hor => hor.elim hsender hrecipient, ?_⟩
      have hid : cba.GetKeyID env (cba.ofString env.Hash t.recipient) = some jd := hjd
      have hGetKey : (s.wallets i).GetKey jd = false := by
        rw [Bool.eq_false_iff]
        exact fun hkey' => hrecipient ⟨jd, h.held hjd hkey'⟩
      simp only [hb.valid, hid, hGetKey, MessagingWallet.need, Bool.not_true, Bool.not_false,
        Bool.false_eq_true, if_false, if_true]

/-- What is no text is passed over. -/
theorem Ok.listedMessage_other (h : Ok env owner s) {i : ι} {tx : CTransaction}
    (htx : tx ∈ (s.wallets i).txs) (hno : ∀ t ∈ s.texts, t.wtx ≠ tx) :
    (s.wallets i).listedMessage env tx = .ok none := by
  have hnone : GetEncryptedMessageUpdate tx = .ok none := by
    rcases h.known i tx htx with (⟨k, hk, rfl⟩ | ⟨t, ht, heq⟩) | hno'
    · obtain ⟨_, _, _, _, _, -, -, -, hupdate, -⟩ := h.keyOk k hk
      exact messageUpdate_other hupdate (by decide)
    · exact absurd heq (hno t ht)
    · exact hno'.2
  unfold MessagingWallet.listedMessage
  simp only [hnone, defined, MessagingWallet.keeping, bind, Except.bind]

end Exchange

theorem listMessages_ok {env : MessageEnv} {w : MessagingWallet}
    {es : List (uint256 × CTransaction)}
    {listed : CTransaction → Option MessagingWallet.ListedMessage}
    (h : ∀ tx ∈ es.map Prod.snd, w.listedMessage env tx = .ok (listed tx)) :
    w.listMessages env es = .ok ((es.map Prod.snd).filterMap listed) := by
  induction es with
  | nil => rfl
  | cons e es ih =>
    obtain ⟨hfirst, hrest⟩ := List.forall_mem_cons.mp h
    simp only [MessagingWallet.listMessages, hfirst, ih hrest, bind, Except.bind, List.map_cons]
    cases hlisted : listed e.2 with
    | none => rw [List.filterMap_cons_none hlisted]; rfl
    | some m => rw [List.filterMap_cons_some hlisted]; rfl

namespace Exchange

variable {ι : Type} [DecidableEq ι] {env : MessageEnv} {owner : CKeyID → Option ι} {s : Exchange ι}

/-- The entry shows the text as it was written, between the two addresses. -/
structure Shows (e : MessagingWallet.ListedMessage) (t : SentText) : Prop where
  sender : e.sender = t.sender
  recipient : e.recipient = t.recipient
  plain_text : e.plain_text = t.text

/-- What is listed for a transaction of the wallet: a text that the wallet is a party of, or
nothing. -/
theorem Ok.listedMessage_eq (h : Ok env owner s) (haes : env.Decrypts) {i : ι}
    (harrived : Arrived env owner s i) {tx : CTransaction} (htx : tx ∈ (s.wallets i).txs) :
    ∃ listed, (s.wallets i).listedMessage env tx = .ok listed ∧
      (∀ e ∈ listed, ∃ t ∈ s.texts, t.wtx = tx ∧
        (Holds owner env i t.sender ∨ Holds owner env i t.recipient) ∧ Shows e t) ∧
      ∀ t ∈ s.texts, t.wtx = tx → Holds owner env i t.sender ∨ Holds owner env i t.recipient →
        ∃ e ∈ listed, Shows e t := by
  have hparty {t : SentText} (ht : t ∈ s.texts) (heq : t.wtx = tx)
      (hparty : Holds owner env i t.sender ∨ Holds owner env i t.recipient) :
      ∃ e, (s.wallets i).listedMessage env tx = .ok (some e) ∧ Shows e t := by
    subst heq
    rcases h.listedMessage_text haes harrived ht htx with ⟨-, e, he, hsender, hrecipient,
        hplain⟩ | ⟨hno, -⟩
    · exact ⟨e, he, hsender, hrecipient, hplain⟩
    · exact absurd hparty hno
  by_cases htext : ∃ t ∈ s.texts, t.wtx = tx ∧
    (Holds owner env i t.sender ∨ Holds owner env i t.recipient)
  · obtain ⟨t, ht, heq, hholds⟩ := htext
    obtain ⟨e, he, hshows⟩ := hparty ht heq hholds
    refine ⟨some e, he, fun e' he' => ?_, fun t' ht' heq' hholds' => ?_⟩
    · obtain rfl := Option.some.inj he'
      exact ⟨t, ht, heq, hholds, hshows⟩
    · obtain ⟨e', he', hshows'⟩ := hparty ht' heq' hholds'
      rw [he] at he'
      exact ⟨e', Except.ok.inj he', hshows'⟩
  · have hnone : (s.wallets i).listedMessage env tx = .ok none := by
      by_cases hsent : ∃ t ∈ s.texts, t.wtx = tx
      · obtain ⟨t, ht, heq⟩ := hsent
        subst heq
        rcases h.listedMessage_text haes harrived ht htx with ⟨hholds, -⟩ | ⟨-, hnone⟩
        · exact absurd ⟨t, ht, rfl, hholds⟩ htext
        · exact hnone
      · exact h.listedMessage_other htx fun t ht heq => hsent ⟨t, ht, heq⟩
    refine ⟨none, hnone, fun e he => ?_, fun t ht heq hholds => absurd ⟨t, ht, heq, hholds⟩ htext⟩
    cases he

/-- In an orderly exchange a call to send a text is refused or sends it, and a wallet that every
reply it needs has reached lists the texts that it wrote or received, as they were written, and no
others. -/
theorem messages_read (haes : env.Decrypts) (h : Reached env owner s) (i : ι) :
    (∀ payer iv128 a text b, Orderly env s i (.sendMessage payer iv128 a text b) →
      Refused (s.wallets i) ((s.wallets i).sendMessage env payer.SendMoney__ iv128.1 a text b) ∨
        ∃ wtx, (s.wallets i).sendMessage env payer.SendMoney__ iv128.1 a text b =
          .ok (wtx, (s.wallets i).AddToWallet env wtx)) ∧
    (Arrived env owner s i →
      ∃ oRes, (s.wallets i).decryptedMessageList env = .ok oRes ∧
        (∀ e ∈ oRes, ∃ t ∈ s.texts, t.wtx ∈ (s.wallets i).txs ∧
          (Holds owner env i t.sender ∨ Holds owner env i t.recipient) ∧ Shows e t) ∧
        ∀ t ∈ s.texts, t.wtx ∈ (s.wallets i).txs →
          Holds owner env i t.sender ∨ Holds owner env i t.recipient → ∃ e ∈ oRes, Shows e t) := by
  have hok := h.ok
  constructor
  · intro payer iv128 a text b hc
    rcases hok.sendMessage_cases i hc with hrefused | ⟨wtx, hsent, -⟩
    · exact .inl hrefused
    · exact .inr ⟨wtx, hsent⟩
  · intro harrived
    have hlisted (tx : CTransaction) (htx : tx ∈ (s.wallets i).txs) :=
      hok.listedMessage_eq haes harrived htx
    choose! listed heq honly hall using hlisted
    refine ⟨_, listMessages_ok heq, fun e he => ?_, fun t ht hin hholds => ?_⟩
    · obtain ⟨tx, htx, hsome⟩ := List.mem_filterMap.mp he
      obtain ⟨t, ht, rfl, hholds, hshows⟩ := honly tx htx e hsome
      exact ⟨t, ht, htx, hholds, hshows⟩
    · obtain ⟨e, he, hshows⟩ := hall t.wtx hin t ht rfl hholds
      exact ⟨e, List.mem_filterMap.mpr ⟨t.wtx, hin, he⟩, hshows⟩

end Exchange

namespace Scenario

/-- Every byte is moved by the first byte of the key. -/
def shifts : MessageEnv where
  toEnv := timed mainNet
  Hash _ := 0
  publicEncrypt rsaPubKey _ message := some (message.map (· + rsaPubKey.headD 0))
  privateDecrypt rsaPrivKey encrypted := some (encrypted.map (· - rsaPrivKey.headD 0))
  encrypt key _ plaintext := plaintext.map (· + key.headD 0)
  decrypt key _ ciphertext := some (ciphertext.map (· - key.headD 0))
  SignCompact _ text := some (text.take 2)

theorem map_shift (message : List UInt8) (n : UInt8) :
    (message.map (· + n)).map (· - n) = message := by
  simp [Function.comp_def]

theorem shifts_decrypts : shifts.Decrypts := fun key _ plaintext _ _ =>
  congrArg some (map_shift plaintext (key.headD 0))

def shiftPair (n : UInt8) : RSAPair shifts where
  domainImage := [n]
  codomainImage := [n]
  decrypts _ message _ := ⟨_, rfl, congrArg some (map_shift message n)⟩

def paysAt (nTime : ℕ) : Payer where
  SendMoney__ scriptPubKey :=
    if scriptPubKey.length < 2 ^ 32 then
      .ok ⟨CTransaction.DION_TX_VERSION, nTime, [], [⟨0, scriptPubKey⟩], 0, []⟩
    else .error "too long"
  paid scriptPubKey wtx h := by
    split at h
    · rename_i hsize
      obtain rfl := Except.ok.inj h
      exact ⟨rfl, hsize, [], [], _, rfl, rfl, fun other hother => absurd hother List.not_mem_nil⟩
    · cases h

def twoOwners (id : CKeyID) : Option Bool :=
  if id = 1 then some false else if id = 2 then some true else none

def inviter : vchType := keyAddress shifts 1

def replier : vchType := keyAddress shifts 2

open Exchange

def aKey : {key : List UInt8 // key.length = 32} := ⟨List.replicate 32 1, rfl⟩

def aVector : {iv : List UInt8 // iv.length = 16} := ⟨List.replicate 16 1, rfl⟩

def lastKey (s : Exchange Bool) : CTransaction :=
    (s.keys.head?.map SentKey.wtx).getD ⟨0, 0, [], [], 0, []⟩

def drawn : Exchange Bool :=
  ((start twoOwners).step shifts false (.publicKey inviter (shiftPair 3))).step shifts true
    (.publicKey replier (shiftPair 5))

def invited : Exchange Bool :=
  drawn.step shifts false (.sendPublicKey (fun _ => none) (paysAt 1) aKey [] inviter replier)

def heard : Exchange Bool := invited.step shifts true (.receive (lastKey invited))

def replied : Exchange Bool :=
  heard.step shifts true (.sendPublicKey (fun _ => none) (paysAt 2) aKey [] replier inviter)

def agreed : Exchange Bool := replied.step shifts false (.receive (lastKey replied))

def written : Exchange Bool :=
  agreed.step shifts false (.sendMessage (paysAt 3) aVector inviter [72, 105] replier)

def lastText (s : Exchange Bool) : CTransaction :=
  (s.texts.head?.map SentText.wtx).getD ⟨0, 0, [], [], 0, []⟩

def delivered : Exchange Bool := written.step shifts true (.receive (lastText written))

theorem plain_inviter : PlainAddress shifts inviter := plainAddress_keyAddress (by decide)

theorem plain_replier : PlainAddress shifts replier := plainAddress_keyAddress (by decide)

theorem inviter_ne_replier : inviter ≠ replier := by decide +kernel

theorem heard_reached : Reached shifts twoOwners heard := by
  have hdrawn : Reached shifts twoOwners drawn := .step (.step .start trivial) trivial
  have hinvited : Reached shifts twoOwners invited := .step hdrawn
    ⟨plain_inviter, plain_replier, inviter_ne_replier, by decide +kernel, by decide +kernel⟩
  exact .step hinvited (.inl (by decide +kernel))

/-- What the steps after the reply ask for, and what they leave. -/
theorem delivered_checks :
    ((∃ k ∈ replied.keys, k.wtx = lastKey replied) ∧
      ∀ k ∈ agreed.keys, k.sender = replier → k.recipient = inviter → k.key = none →
        ∃ k' ∈ agreed.keys, k'.sender = inviter ∧ k'.recipient = replier) ∧
    (∃ t ∈ written.texts, t.wtx = lastText written) ∧
    (∀ k ∈ delivered.keys, k.wtx ∈ (delivered.wallets true).txs) ∧
    ∃ t ∈ delivered.texts, t.wtx ∈ (delivered.wallets true).txs ∧ t.sender = inviter ∧
      t.recipient = replier ∧ t.text = [72, 105] := by
  decide +kernel

theorem delivered_reached : Reached shifts twoOwners delivered := by
  have hreplied : Reached shifts twoOwners replied := .step heard_reached
    ⟨plain_replier, plain_inviter, inviter_ne_replier.symm, by decide +kernel, by decide +kernel⟩
  have hagreed : Reached shifts twoOwners agreed := .step hreplied (.inl delivered_checks.1.1)
  have hwritten : Reached shifts twoOwners written := .step hagreed
    ⟨plain_inviter, plain_replier, inviter_ne_replier,
      fun k hk hsender hrecipient hkey _ => delivered_checks.1.2 k hk hsender hrecipient hkey⟩
  exact .step hwritten (.inr (.inl delivered_checks.2.1))

/-- The text is read by the one it was written to. -/
theorem messages_read_delivered :
    ∃ oRes, (delivered.wallets true).decryptedMessageList shifts = .ok oRes ∧
      ∃ e ∈ oRes, e.sender = inviter ∧ e.recipient = replier ∧ e.plain_text = [72, 105] := by
  have harrived : Arrived shifts twoOwners delivered true := by
    intro t _ _ _ _ k hk _ _
    exact delivered_checks.2.2.1 k hk
  obtain ⟨oRes, hread, -, hall⟩ := (messages_read shifts_decrypts delivered_reached true).2 harrived
  obtain ⟨t, ht, hin, hsender, hrecipient, htext⟩ := delivered_checks.2.2.2
  have hholds : Exchange.Holds twoOwners shifts true t.recipient := by
    rw [hrecipient]
    exact ⟨2, idOf_keyAddress (by decide), rfl⟩
  obtain ⟨e, he, hshows⟩ := hall t ht hin (.inr hholds)
  exact ⟨oRes, hread, e, he, hshows.sender.trans hsender, hshows.recipient.trans hrecipient,
    hshows.plain_text.trans htext⟩

end Scenario

end Dions
