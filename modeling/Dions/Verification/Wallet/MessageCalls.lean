import Dions.Verification.Wallet.MessageScripts

/-! # What the calls of a messaging wallet come to

For each call the ways that it may end: refused with the wallet left alone, or with one transaction
that is paid for and goes into the wallet. -/

namespace Dions

open Halting LittleEndian

def Messaging.left {α : Type} : Messaging (α × MessagingWallet) → MessagingWallet
  | .ok (_, w) => w
  | .error (_, w) => w

/-- The value of a call that ends well. -/
def Messaging.value {α : Type} : Messaging (α × MessagingWallet) → Option α
  | .ok (a, _) => some a
  | .error _ => none

section Calls

variable (env : MessageEnv) (w : MessagingWallet)

/-- The call ends with an error and leaves the wallet alone. -/
def Refused {α : Type} (w : MessagingWallet) (r : Messaging α) : Prop :=
  ∃ code message, r = w.fail code message

theorem refused_or_need {α β : Type} (code : ℤ) (message : String) (o : Option α)
    (next : α → Messaging β) :
    Refused w (w.need code message o >>= next) ∨
      ∃ x, o = some x ∧ w.need code message o >>= next = next x := by
  cases o with
  | none => exact .inl ⟨code, message, rfl⟩
  | some x => exact .inr ⟨x, rfl, rfl⟩

theorem refused_or_ownKey {β : Type} (text : String) (addr : CBase58Data)
    (next : CKeyID → Messaging β) :
    Refused w (w.ownKey env text addr >>= next) ∨
      ∃ id, cba.GetKeyID env addr = some id ∧ w.GetKey id = true ∧
        w.ownKey env text addr >>= next = next id := by
  cases hid : cba.GetKeyID env addr with
  | none =>
    left
    refine ⟨RPC_TYPE_ERROR, text, ?_⟩
    rw [MessagingWallet.ownKey, hid]
    rfl
  | some id =>
    cases hkey : w.GetKey id with
    | true =>
      right
      refine ⟨id, rfl, hkey, ?_⟩
      rw [MessagingWallet.ownKey, hid, MessagingWallet.need]
      simp only [bind, Except.bind, hkey, if_true]
    | false =>
      left
      refine ⟨RPC_WALLET_ERROR, "Private key not available", ?_⟩
      rw [MessagingWallet.ownKey, hid, MessagingWallet.need]
      simp only [bind, Except.bind, hkey, Bool.false_eq_true, if_false, MessagingWallet.fail]

theorem pay_cases (payer : Payer) (scriptPubKey : CScript) :
    Refused w (w.pay env payer.SendMoney__ scriptPubKey) ∨
      ∃ wtx, PaidFor scriptPubKey wtx ∧
        w.pay env payer.SendMoney__ scriptPubKey = .ok (wtx, w.AddToWallet env wtx) := by
  cases hsend : payer.SendMoney__ scriptPubKey with
  | error strError =>
    left
    refine ⟨RPC_WALLET_ERROR, strError, ?_⟩
    rw [MessagingWallet.pay, hsend]
  | ok wtx =>
    right
    refine ⟨wtx, payer.paid scriptPubKey wtx hsend, ?_⟩
    rw [MessagingWallet.pay, hsend]

/-- What `sendPublicKey` may come to, for two plain addresses. -/
inductive KeyOutcome (env : MessageEnv) (w : MessagingWallet) (aes256Key padding : List UInt8)
    (a b : vchType) : Messaging ((CTransaction × vchType) × MessagingWallet) → Prop where
  | refused {r} (h : Refused w r) : KeyOutcome env w aes256Key padding a b r
  /-- The key of the recipient cannot be read, or nothing can be encrypted with it. -/
  | stopped {e : MessageStop} (h : w.getImportedPubKey a b = .error e ∨
      ∃ imported fourth, w.getImportedPubKey a b = .ok (some (imported, fourth)) ∧
        EncryptMessage env imported (EncodeBase64 aes256Key) padding = .error e) :
      KeyOutcome env w aes256Key padding a b (.error (e, w))
  | invited {id : CKeyID} {pub vchSig : vchType} {hash160 : uint160} {wtx : CTransaction}
      (hid : idOf env a = some id) (hkey : w.GetKey id = true) (hpub : w.envCP1 id = some pub)
      (himported : w.getImportedPubKey a b = .ok none)
      (hpaid : PaidFor (messageScript OP_PUBLIC_KEY [OP_2DROP, OP_2DROP, OP_2DROP] a b pub [0x49]
        vchSig hash160) wtx) :
      KeyOutcome env w aes256Key padding a b
        (.ok ((wtx, EncodeBase64 vchSig), w.AddToWallet env wtx))
  /-- The wallet keeps the new key, and nothing goes out. -/
  | unsent {id : CKeyID} {imported fourth : vchType} {r} (hid : idOf env a = some id)
      (hkey : w.GetKey id = true)
      (himported : w.getImportedPubKey a b = .ok (some (imported, fourth)))
      (h : Refused (w.aes id b (EncodeBase64 aes256Key)) r) :
      KeyOutcome env w aes256Key padding a b r
  | replied {id : CKeyID} {pub imported fourth encrypted vchSig : vchType} {hash160 : uint160}
      {wtx : CTransaction} (hid : idOf env a = some id) (hkey : w.GetKey id = true)
      (hpub : w.envCP1 id = some pub)
      (himported : w.getImportedPubKey a b = .ok (some (imported, fourth)))
      (hencrypted : EncryptMessage env imported (EncodeBase64 aes256Key) padding = .ok encrypted)
      (hpaid : PaidFor (messageScript OP_PUBLIC_KEY [OP_2DROP, OP_2DROP, OP_2DROP] a b pub encrypted
        vchSig hash160) wtx) :
      KeyOutcome env w aes256Key padding a b (.ok ((wtx, EncodeBase64 vchSig),
        (w.aes id b (EncodeBase64 aes256Key)).AddToWallet env wtx))

theorem sendSigned_cases (payer : Payer) (keyID : CKeyID) (a b pub fourth : vchType)
    (hash160 : uint160) :
    Refused w (w.sendSigned env payer.SendMoney__ keyID a b pub fourth hash160) ∨
      ∃ vchSig wtx, PaidFor (messageScript OP_PUBLIC_KEY [OP_2DROP, OP_2DROP, OP_2DROP] a b pub
          fourth vchSig hash160) wtx ∧
        w.sendSigned env payer.SendMoney__ keyID a b pub fourth hash160 =
          .ok ((wtx, EncodeBase64 vchSig), w.AddToWallet env wtx) := by
  unfold MessagingWallet.sendSigned
  rcases refused_or_need w _ _ (env.SignCompact keyID (pub ++ fourth)) _ with h | ⟨vchSig, -, h⟩
  · exact .inl h
  · rw [h]
    rcases pay_cases env w payer (messageScript OP_PUBLIC_KEY [OP_2DROP, OP_2DROP, OP_2DROP] a b pub
      fourth vchSig hash160) with ⟨code, message, h⟩ | ⟨wtx, hpaid, h⟩
    · left
      refine ⟨code, message, ?_⟩
      rw [h]
      rfl
    · right
      refine ⟨vchSig, wtx, hpaid, ?_⟩
      rw [h]
      rfl

variable {env} {w} in
theorem sendPublicKey_cases {a b : vchType} (ha : PlainAddress env a) (hb : PlainAddress env b)
    (ln1Db : AliasDb) (payer : Payer) (aes256Key padding : List UInt8) :
    KeyOutcome env w aes256Key padding a b
      (w.sendPublicKey env ln1Db payer.SendMoney__ aes256Key padding a b) := by
  unfold MessagingWallet.sendPublicKey
  rw [ha.checkAddress_eq, hb.checkAddress_eq]
  change KeyOutcome env w aes256Key padding a b (w.ownKey env _ _ >>= _)
  rcases refused_or_ownKey env w "Address does not refer to key" (cba.ofString env.Hash a) _ with
    h | ⟨id, hid, hkey, h⟩
  · exact .refused h
  rw [h, hb.shown]
  rcases refused_or_need w _ _ (w.envCP1 id) _ with h | ⟨pub, hpub, h⟩
  · exact .refused h
  rw [h]
  rcases refused_or_need w _ _ (AddressToHash160 env b) _ with h | ⟨hash160, -, h⟩
  · exact .refused h
  rw [h]
  cases himported : w.getImportedPubKey a b with
  | error e => exact .stopped (.inl himported)
  | ok found =>
    cases found with
    | none =>
      change KeyOutcome env w aes256Key padding a b
        (w.sendSigned env payer.SendMoney__ id a b pub [0x49] hash160)
      rcases sendSigned_cases env w payer id a b pub [0x49] hash160 with h | ⟨vchSig, wtx, hpaid, h⟩
      · exact .refused h
      · rw [h]
        exact .invited hid hkey hpub himported hpaid
    | some found =>
      obtain ⟨imported, fourth⟩ := found
      cases hencrypted : EncryptMessage env imported (EncodeBase64 aes256Key) padding with
      | error e =>
        have hstopped := KeyOutcome.stopped (.inr ⟨imported, fourth, himported, hencrypted⟩)
        simpa only [MessagingWallet.keeping, hencrypted, bind, Except.bind] using hstopped
      | ok encrypted =>
        simp only [MessagingWallet.keeping, hencrypted, bind, Except.bind]
        rcases sendSigned_cases env (w.aes id b (EncodeBase64 aes256Key)) payer id a b pub encrypted
          hash160 with h | ⟨vchSig, wtx, hpaid, h⟩
        · exact .unsent hid hkey himported h
        · rw [h]
          exact .replied hid hkey hpub himported hencrypted hpaid

/-- A pair that is drawn is put into the metadata where there was none. -/
theorem publicKey_left (a : vchType) (drawn : RSAKey) :
    (w.publicKey env a drawn).left = w ∨
      ∃ id, idOf env a = some id ∧ (w.kd id).patch = none ∧
        (w.publicKey env a drawn).left =
        { w with kd := Function.update w.kd id { w.kd id with patch := some drawn } } := by
  have hrefused {r : Messaging ((vchType × vchType) × MessagingWallet)} (h : Refused w r) :
      r.left = w := by
    obtain ⟨code, message, rfl⟩ := h
    rfl
  unfold MessagingWallet.publicKey
  by_cases hvalid : (!cba.IsValid env.fTestNet (cba.ofString env.Hash a)) = true
  · rw [if_pos hvalid]
    exact .inl rfl
  rw [if_neg hvalid]
  rcases refused_or_ownKey env w "Address does not refer to key" (cba.ofString env.Hash a) _ with
    h | ⟨id, hid, -, h⟩
  · exact .inl (hrefused h)
  rw [h]
  rcases refused_or_need w _ _ (w.SetRSAMetadata id drawn) _ with h | ⟨w', hset, h⟩
  · exact .inl (hrefused h)
  rw [h]
  unfold MessagingWallet.SetRSAMetadata at hset
  cases hpatch : (w.kd id).patch with
  | some _ =>
    rw [hpatch] at hset
    cases hset
  | none =>
    rw [hpatch] at hset
    cases hset
    refine .inr ⟨id, hid, hpatch, ?_⟩
    simp [MessagingWallet.envCP1, MessagingWallet.envCP0, MessagingWallet.need, bind, Except.bind,
      Messaging.left]

theorem sharedKey_left {id : CKeyID} {a b : vchType} {e : MessageStop} {w' : MessagingWallet}
    (h : w.sharedKey env id a b = .error (e, w')) : w' = w := by
  unfold MessagingWallet.sharedKey at h
  split at h
  · cases h
  · cases himported : w.getImportedPubKey a b with
    | error e' =>
      rw [himported] at h
      exact (congrArg Prod.snd (Except.error.inj h)).symm
    | ok found =>
      rw [himported] at h
      cases found with
      | none => exact (congrArg Prod.snd (Except.error.inj h)).symm
      | some found =>
        cases hpriv : w.envCP0 id with
        | none =>
          simp only [MessagingWallet.keeping, MessagingWallet.need, hpriv, bind, Except.bind] at h
          exact (congrArg Prod.snd (Except.error.inj h)).symm
        | some priv =>
          simp only [MessagingWallet.keeping, MessagingWallet.need, hpriv, bind, Except.bind] at h
          cases h

/-- What `sendMessage` may come to. -/
inductive TextOutcome (env : MessageEnv) (w : MessagingWallet) (iv128 : List UInt8)
    (a text b : vchType) :
    Messaging (CTransaction × MessagingWallet) → Prop where
  | refused {r} (h : Refused w r) : TextOutcome env w iv128 a text b r
  /-- There is no key, or none that the cipher can do with. -/
  | stopped {e : MessageStop} {id : CKeyID} (hid : idOf env a = some id) (hkey : w.GetKey id = true)
      (h : w.sharedKey env id a b = .error (e, w) ∨
        ∃ key, w.sharedKey env id a b = .ok key ∧ EncryptMessageAES env text key iv128 = .error e) :
      TextOutcome env w iv128 a text b (.error (e, w))
  | sent {id jd : CKeyID} {key encrypted iv128Base64 vchSig : vchType} {hash160 : uint160}
      {wtx : CTransaction} (hid : idOf env a = some id) (hkey : w.GetKey id = true)
      (hjd : idOf env b = some jd) (hshared : w.sharedKey env id a b = .ok key)
      (hencrypted : EncryptMessageAES env text key iv128 = .ok (encrypted, iv128Base64))
      (hpaid : PaidFor (messageScript OP_ENCRYPTED_MESSAGE [OP_2DROP, OP_2DROP, OP_DROP] a b
        encrypted iv128Base64 vchSig hash160) wtx) :
      TextOutcome env w iv128 a text b (.ok (wtx, w.AddToWallet env wtx))

variable {env} {w} in
theorem sendMessage_cases (payer : Payer) (iv128 : List UInt8) (a text b : vchType) :
    TextOutcome env w iv128 a text b (w.sendMessage env payer.SendMoney__ iv128 a text b) := by
  unfold MessagingWallet.sendMessage
  by_cases hvalid : (!cba.IsValid env.fTestNet (cba.ofString env.Hash b)) = true
  · rw [if_pos hvalid]
    exact .refused ⟨_, _, rfl⟩
  rw [if_neg hvalid]
  rcases refused_or_need w _ _ (cba.GetKeyID env (cba.ofString env.Hash b)) _ with h | ⟨jd, hjd, h⟩
  · exact .refused h
  rw [h]
  by_cases hvalid' : (!cba.IsValid env.fTestNet (cba.ofString env.Hash a)) = true
  · rw [if_pos hvalid']
    exact .refused ⟨_, _, rfl⟩
  rw [if_neg hvalid']
  rcases refused_or_ownKey env w "senderAddr does not refer to key" (cba.ofString env.Hash a) _ with
    h | ⟨id, hid, hkey, h⟩
  · exact .refused h
  rw [h]
  cases hshared : w.sharedKey env id a b with
  | error stop =>
    obtain ⟨e, w'⟩ := stop
    have hw := sharedKey_left env w hshared
    subst hw
    exact .stopped hid hkey (.inl hshared)
  | ok key =>
    cases hencrypted : EncryptMessageAES env text key iv128 with
    | error e =>
      simp only [MessagingWallet.keeping, hencrypted, bind, Except.bind]
      exact .stopped hid hkey (.inr ⟨key, hshared, hencrypted⟩)
    | ok pair =>
      obtain ⟨encrypted, iv128Base64⟩ := pair
      simp only [MessagingWallet.keeping, hencrypted, bind, Except.bind]
      change TextOutcome env w iv128 a text b (w.need _ _ _ >>= _)
      rcases refused_or_need w _ _ (env.SignCompact id (encrypted ++ iv128Base64)) _ with
        h | ⟨vchSig, -, h⟩
      · exact .refused h
      rw [h]
      change TextOutcome env w iv128 a text b (w.need _ _ _ >>= _)
      rcases refused_or_need w _ _ (AddressToHash160 env b) _ with h | ⟨hash160, -, h⟩
      · exact .refused h
      rw [h]
      rcases pay_cases env w payer (messageScript OP_ENCRYPTED_MESSAGE [OP_2DROP, OP_2DROP, OP_DROP]
        a b encrypted iv128Base64 vchSig hash160) with h | ⟨wtx, hpaid, h⟩
      · exact .refused h
      · rw [h]
        exact .sent hid hkey hjd hshared hencrypted hpaid

end Calls

end Dions
