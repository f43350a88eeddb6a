import Dions.Verification.Wallet.MessageCalls

/-! # Exchanges between wallets

The wallets take turns in calling and in receiving. In an orderly exchange every key that went out
is kept by the one who sent it, and the other one can decrypt it once it has arrived. -/

namespace Dions

open Halting LittleEndian

/-- What happens to one of the wallets. -/
inductive MessageStep (env : MessageEnv) where
  | publicKey (myAddress : vchType) (drawn : RSAPair env)
  | sendPublicKey (ln1Db : AliasDb) (payer : Payer)
      (aes256Key : {key : List UInt8 // key.length = 32}) (padding : List UInt8)
      (myAddress f : vchType)
  | sendMessage (payer : Payer) (iv128 : {iv : List UInt8 // iv.length = 16})
      (myAddress strMessage f : vchType)
  | receive (tx : CTransaction)

/-- A public key that went out, and the key for AES beside it: without one it is an invitation. -/
structure SentKey where
  sender : vchType
  recipient : vchType
  key : Option (List UInt8)
  wtx : CTransaction

structure SentText where
  sender : vchType
  recipient : vchType
  text : vchType
  wtx : CTransaction

/-- The wallets, and all that went out so far. -/
structure Exchange (ι : Type) where
  wallets : ι → MessagingWallet
  keys : List SentKey
  texts : List SentText

def MessagingWallet.txs (w : MessagingWallet) : List CTransaction :=
    w.mapWallet.entries.map Prod.snd

namespace Exchange

variable {ι : Type} [DecidableEq ι] (env : MessageEnv)

def put (s : Exchange ι) (i : ι) (w : MessagingWallet) : Exchange ι :=
  { s with wallets := Function.update s.wallets i w }

def step (i : ι) : MessageStep env → Exchange ι → Exchange ι
  | .publicKey myAddress drawn, s =>
    s.put i ((s.wallets i).publicKey env myAddress drawn.toRSAKey).left
  | .sendPublicKey ln1Db payer aes256Key padding myAddress f, s =>
    let w := s.wallets i
    let r := w.sendPublicKey env ln1Db payer.SendMoney__ aes256Key.1 padding myAddress f
    let key := match w.getImportedPubKey myAddress f with
      | .ok (some _) => some aes256Key.1
      | _ => none
    { s.put i r.left with
      keys := (r.value.map fun v => ⟨myAddress, f, key, v.1⟩).toList ++ s.keys }
  | .sendMessage payer iv128 myAddress strMessage f, s =>
    let r := (s.wallets i).sendMessage env payer.SendMoney__ iv128.1 myAddress strMessage f
    { s.put i r.left with
      texts := (r.value.map fun wtx => ⟨myAddress, f, strMessage, wtx⟩).toList ++ s.texts }
  | .receive tx, s => s.put i ((s.wallets i).AddToWallet env tx)

/-- Nothing has gone out, and every key is in the wallet of its owner. -/
def start (owner : CKeyID → Option ι) : Exchange ι where
  wallets i := ⟨fun id => owner id == some i, fun _ => ⟨none, fun _ => []⟩, .empty⟩
  keys := []
  texts := []

/-- The transaction has nothing to do with messages. -/
def NoMessage (tx : CTransaction) : Prop :=
  GetPublicKeyUpdate tx = .ok none ∧ GetEncryptedMessageUpdate tx = .ok none

/-- An address sends its public key to another one once, and not while the key of the other one is
still on its way to it: invitations do not cross. Nor does it send a text to an address whose
invitation has arrived and is unanswered. -/
def Orderly (s : Exchange ι) (i : ι) : MessageStep env → Prop
  | .publicKey .. => True
  | .sendPublicKey _ _ _ _ a b => PlainAddress env a ∧ PlainAddress env b ∧ a ≠ b ∧
      (∀ k ∈ s.keys, ¬(k.sender = a ∧ k.recipient = b)) ∧
      ∀ k ∈ s.keys, k.sender = b → k.recipient = a → k.wtx ∈ (s.wallets i).txs
  | .sendMessage _ _ a _ b => PlainAddress env a ∧ PlainAddress env b ∧ a ≠ b ∧
      ∀ k ∈ s.keys, k.sender = b → k.recipient = a → k.key = none → k.wtx ∈ (s.wallets i).txs →
        ∃ k' ∈ s.keys, k'.sender = a ∧ k'.recipient = b
  | .receive tx => (∃ k ∈ s.keys, k.wtx = tx) ∨ (∃ t ∈ s.texts, t.wtx = tx) ∨ NoMessage tx

/-- The states of an orderly exchange. -/
inductive Reached (owner : CKeyID → Option ι) : Exchange ι → Prop where
  | start : Reached owner (start owner)
  | step {s : Exchange ι} {i : ι} {c : MessageStep env} (h : Reached owner s)
      (hc : Orderly env s i c) : Reached owner (s.step env i c)

end Exchange

/-! ## What the wallets keep -/

theorem importedPubKey_cases (a b : vchType) {es : List (uint256 × CTransaction)}
    (hdefined : ∀ tx ∈ es.map Prod.snd, ∃ u, GetPublicKeyUpdate tx = .ok u) :
    (importedPubKey a b es = .ok none ∧ ∀ tx ∈ es.map Prod.snd, ∀ u,
        GetPublicKeyUpdate tx = .ok (some u) → ¬(u.vchRecipient = a ∧ u.vchSender = b)) ∨
      ∃ tx ∈ es.map Prod.snd, ∃ u, GetPublicKeyUpdate tx = .ok (some u) ∧ u.vchRecipient = a ∧
        u.vchSender = b ∧ importedPubKey a b es = .ok (some (u.vchKey, u.vchFourth)) := by
  induction es with
  | nil => exact .inl ⟨rfl, fun tx htx => absurd htx List.not_mem_nil⟩
  | cons e es ih =>
    obtain ⟨⟨u, hu⟩, hrest⟩ := List.forall_mem_cons.mp hdefined
    by_cases hmatch : ∃ v, u = some v ∧ v.vchRecipient = a ∧ v.vchSender = b
    · obtain ⟨v, rfl, hrecipient, hsender⟩ := hmatch
      refine .inr ⟨e.2, List.mem_cons_self, v, hu, hrecipient, hsender, ?_⟩
      simp only [importedPubKey, hu, defined, bind, Except.bind, hrecipient, hsender, and_self,
        if_true]
    · have hnext : importedPubKey a b (e :: es) = importedPubKey a b es := by
        cases u with
        | none => simp only [importedPubKey, hu, defined, bind, Except.bind]
        | some v =>
          have hv : ¬(v.vchRecipient = a ∧ v.vchSender = b) := fun hv => hmatch ⟨v, rfl, hv⟩
          simp only [importedPubKey, hu, defined, bind, Except.bind, hv, if_false]
      rw [hnext]
      rcases ih hrest with ⟨hnone, hall⟩ | ⟨tx, htx, hfound⟩
      · refine .inl ⟨hnone, List.forall_mem_cons.mpr ⟨?_, hall⟩⟩
        intro v hv hmatched
        rw [hu] at hv
        exact hmatch ⟨v, Except.ok.inj hv, hmatched⟩
      · exact .inr ⟨tx, List.mem_cons_of_mem _ htx, hfound⟩

section Transactions

variable {env : MessageEnv} {w : MessagingWallet} {tx tx' : CTransaction}

theorem mem_txs : tx ∈ w.txs ↔ ∃ hash, w.mapWallet.find hash = some tx := by
  simp only [MessagingWallet.txs, List.mem_map, Prod.exists, exists_eq_right, OrdMap.mem_entries]

theorem mem_txs_AddToWallet (h : tx' ∈ (w.AddToWallet env tx).txs) : tx' = tx ∨ tx' ∈ w.txs := by
  unfold MessagingWallet.AddToWallet at h
  dsimp only at h
  split at h
  · exact .inr h
  · obtain ⟨hash, hfind⟩ := mem_txs.mp h
    rw [OrdMap.find_insert] at hfind
    split at hfind
    · exact .inl (Option.some.inj hfind).symm
    · exact .inr (mem_txs.mpr ⟨hash, hfind⟩)

theorem mem_txs_of_mem (h : tx' ∈ w.txs) : tx' ∈ (w.AddToWallet env tx).txs := by
  unfold MessagingWallet.AddToWallet
  dsimp only
  split
  · exact h
  · rename_i hnone
    obtain ⟨hash, hfind⟩ := mem_txs.mp h
    refine mem_txs.mpr ⟨hash, ?_⟩
    rw [OrdMap.find_insert, if_neg]
    · exact hfind
    · intro hhash
      rw [hhash, hnone] at hfind
      cases hfind

@[simp] theorem AddToWallet_kd : (w.AddToWallet env tx).kd = w.kd := by
  unfold MessagingWallet.AddToWallet
  dsimp only
  split <;> rfl

@[simp] theorem AddToWallet_GetKey : (w.AddToWallet env tx).GetKey = w.GetKey := by
  unfold MessagingWallet.AddToWallet
  dsimp only
  split <;> rfl

end Transactions

namespace Exchange

variable {ι : Type} (env : MessageEnv) (owner : CKeyID → Option ι)

/-- The address belongs to a key of the wallet. -/
structure Held (a : vchType) (i : ι) (id : CKeyID) : Prop where
  refers : idOf env a = some id
  owned : owner id = some i

variable {env owner} in
theorem Held.unique {a : vchType} {i j : ι} {id jd : CKeyID} (h : Held env owner a i id)
    (h' : Held env owner a j jd) : i = j ∧ id = jd := by
  have hid : id = jd := Option.some.inj (h.refers.symm.trans h'.refers)
  subst hid
  exact ⟨Option.some.inj (h.owned.symm.trans h'.owned), rfl⟩

/-- The sender has the private key for what went out, and has kept the key for AES that went with
it, which the recipient can decrypt. -/
def KeyOk (s : Exchange ι) (k : SentKey) : Prop :=
  ∃ (i : ι) (id : CKeyID) (rsa : RSAPair env) (fourth sig : vchType),
    Held env owner k.sender i id ∧
    ((s.wallets i).kd id).patch = some rsa.toRSAKey ∧
    ((s.wallets i).kd id).m k.recipient = (k.key.map EncodeBase64).getD [] ∧
    GetPublicKeyUpdate k.wtx = .ok (some ⟨k.sender, k.recipient, rsa.codomainImage, fourth, sig⟩) ∧
    ∀ key, k.key = some key → key.length = 32 ∧
      ∃ (c : List UInt8) (j : ι) (jd : CKeyID) (rsa' : RSAPair env), fourth = EncodeBase64 c ∧
        Held env owner k.recipient j jd ∧ ((s.wallets j).kd jd).patch = some rsa'.toRSAKey ∧
        env.privateDecrypt rsa'.domainImage c = some (EncodeBase64 key)

/-- The key is the one of the two addresses, and where the recipient drew it, it has arrived. -/
def Shared (s : Exchange ι) (a b : vchType) (key : List UInt8) : Prop :=
  ∃ k ∈ s.keys, k.key = some key ∧ ((k.sender = a ∧ k.recipient = b) ∨
    (k.sender = b ∧ k.recipient = a ∧ ∃ i id, Held env owner a i id ∧ k.wtx ∈ (s.wallets i).txs))

/-- What went out as a message is the text, under the key of the two addresses. -/
def TextOk (s : Exchange ι) (t : SentText) : Prop :=
  PlainAddress env t.sender ∧ PlainAddress env t.recipient ∧
    (∃ jd, idOf env t.recipient = some jd) ∧
    ∃ (key iv128 : List UInt8) (sig : vchType), key.length = 32 ∧ iv128.length = 16 ∧
      GetEncryptedMessageUpdate t.wtx = .ok (some ⟨t.sender, t.recipient,
        EncodeBase64 (env.encrypt key iv128 t.text), EncodeBase64 iv128, sig⟩) ∧
      Shared env owner s t.sender t.recipient key

/-- The transaction was sent by one of the wallets. -/
def Sent (s : Exchange ι) (tx : CTransaction) : Prop :=
  (∃ k ∈ s.keys, k.wtx = tx) ∨ (∃ t ∈ s.texts, t.wtx = tx)

variable [DecidableEq ι]

/-- What every orderly exchange keeps. -/
structure Ok (s : Exchange ι) : Prop where
  GetKey : ∀ i id, (s.wallets i).GetKey id = (owner id == some i)
  pairs : ∀ i id key, ((s.wallets i).kd id).patch = some key →
    ∃ rsa : RSAPair env, rsa.toRSAKey = key
  plain : ∀ k ∈ s.keys, PlainAddress env k.sender ∧ PlainAddress env k.recipient ∧
    k.sender ≠ k.recipient
  once : ∀ k ∈ s.keys, ∀ k' ∈ s.keys, k.sender = k'.sender → k.recipient = k'.recipient → k = k'
  keyOk : ∀ k ∈ s.keys, KeyOk env owner s k
  /-- A reply follows an invitation. -/
  replied : ∀ k ∈ s.keys, k.key ≠ none →
    ∃ k' ∈ s.keys, k'.sender = k.recipient ∧ k'.recipient = k.sender ∧ k'.key = none
  /-- What follows an invitation is a reply. -/
  answered : ∀ k ∈ s.keys, ∀ k' ∈ s.keys, k'.sender = k.recipient → k'.recipient = k.sender →
    k.key = none → k'.key ≠ none
  /-- A key is drawn for an address whose public key has arrived. -/
  prompted : ∀ a i id b, PlainAddress env a → Held env owner a i id →
    ((s.wallets i).kd id).m b ≠ [] →
      ∃ k ∈ s.keys, k.sender = b ∧ k.recipient = a ∧ k.wtx ∈ (s.wallets i).txs
  textOk : ∀ t ∈ s.texts, TextOk env owner s t
  known : ∀ i, ∀ tx ∈ (s.wallets i).txs, Sent s tx ∨ NoMessage tx

variable {env owner} {s : Exchange ι}

/-! ### Reading a key -/

theorem Ok.update_of_mem (h : Ok env owner s) {i : ι} {tx : CTransaction}
    (htx : tx ∈ (s.wallets i).txs) :
    GetPublicKeyUpdate tx = .ok none ∨ ∃ k ∈ s.keys, k.wtx = tx := by
  rcases h.known i tx htx with (hkey | ⟨t, ht, rfl⟩) | hno
  · exact .inr hkey
  · obtain ⟨-, -, -, key, iv128, sig, -, -, hupdate, -⟩ := h.textOk t ht
    exact .inl (messageUpdate_other hupdate (by decide))
  · exact .inl hno.1

theorem Ok.update_defined (h : Ok env owner s) {i : ι} {tx : CTransaction}
    (htx : tx ∈ (s.wallets i).txs) :
    ∃ u, GetPublicKeyUpdate tx = .ok u := by
  rcases h.update_of_mem htx with hnone | ⟨k, hk, rfl⟩
  · exact ⟨none, hnone⟩
  · obtain ⟨i, id, rsa, fourth, sig, -, -, -, hupdate, -⟩ := h.keyOk k hk
    exact ⟨_, hupdate⟩

/-- The loop finds the public key that went out from one address to the other, if it has arrived. -/
theorem Ok.imported_cases (h : Ok env owner s) (i : ι) (a b : vchType) :
    ((s.wallets i).getImportedPubKey a b = .ok none ∧
        ∀ k ∈ s.keys, k.sender = b → k.recipient = a → k.wtx ∉ (s.wallets i).txs) ∨
      ∃ k ∈ s.keys, k.sender = b ∧ k.recipient = a ∧ k.wtx ∈ (s.wallets i).txs ∧
        ∃ u, GetPublicKeyUpdate k.wtx = .ok (some u) ∧
          (s.wallets i).getImportedPubKey a b = .ok (some (u.vchKey, u.vchFourth)) := by
  rcases importedPubKey_cases a b (fun tx htx => h.update_defined htx) with
    ⟨hnone, hall⟩ | ⟨tx, htx, u, hu, hrecipient, hsender, hfound⟩
  · refine .inl ⟨hnone, fun k hk hsender hrecipient hin => ?_⟩
    obtain ⟨i, id, rsa, fourth, sig, -, -, -, hupdate, -⟩ := h.keyOk k hk
    exact hall k.wtx hin _ hupdate ⟨hrecipient, hsender⟩
  · rcases h.update_of_mem htx with hno | ⟨k, hk, rfl⟩
    · rw [hno] at hu
      cases hu
    · obtain ⟨i, id, rsa, fourth, sig, -, -, -, hupdate, -⟩ := h.keyOk k hk
      rw [hupdate] at hu
      have hu' := Option.some.inj (Except.ok.inj hu)
      subst hu'
      exact .inr ⟨k, hk, hsender, hrecipient, htx, _, hupdate, hfound⟩

theorem Ok.sharedKey_own (h : Ok env owner s) {k : SentKey} (hk : k ∈ s.keys) {key : List UInt8}
    (hkey : k.key = some key) {i : ι} {id : CKeyID} (hheld : Held env owner k.sender i id) :
    (s.wallets i).sharedKey env id k.sender k.recipient = .ok key := by
  obtain ⟨i', id', rsa, fourth, sig, hheld', hpatch, hm, hupdate, hreply⟩ := h.keyOk k hk
  obtain ⟨rfl, rfl⟩ := hheld.unique hheld'
  obtain ⟨hlength, -⟩ := hreply key hkey
  rw [hkey] at hm
  have hne := (length_EncodeBase64_key hlength).2
  have haes : (s.wallets i).aes_ id k.recipient = some (EncodeBase64 key) := by
    rw [MessagingWallet.aes_, hm]
    exact if_pos hne
  rw [MessagingWallet.sharedKey, haes]
  simp only [c_str_EncodeBase64, DecodeBase64_EncodeBase64]

/-- The one who invited decrypts the key that came with the reply. -/
theorem Ok.sharedKey_imported (h : Ok env owner s) {k : SentKey} (hk : k ∈ s.keys)
    {key : List UInt8} (hkey : k.key = some key) {j : ι} {jd : CKeyID}
    (hheld : Held env owner k.recipient j jd) (hin : k.wtx ∈ (s.wallets j).txs) :
    (s.wallets j).sharedKey env jd k.recipient k.sender = .ok key := by
  obtain ⟨i, id, rsa, fourth, sig, -, -, -, hupdate, hreply⟩ := h.keyOk k hk
  obtain ⟨hlength, c, j', jd', rsa', rfl, hheld', hpatch', hdecrypt⟩ := hreply key hkey
  obtain ⟨rfl, rfl⟩ := hheld.unique hheld'
  -- the invitation, beside which nothing was kept
  obtain ⟨k', hk', hsender', hrecipient', hnone⟩ :=
    h.replied k hk (by rw [hkey]; exact Option.some_ne_none _)
  obtain ⟨j', jd', rsa'', fourth', sig', hheld'', -, hm, -, -⟩ := h.keyOk k' hk'
  rw [hsender'] at hheld''
  obtain ⟨rfl, rfl⟩ := hheld.unique hheld''
  rw [hnone, hrecipient'] at hm
  have haes : (s.wallets j).aes_ jd k.sender = none := by
    rw [MessagingWallet.aes_, hm]
    rfl
  have himported : (s.wallets j).getImportedPubKey k.recipient k.sender =
      .ok (some (rsa.codomainImage, EncodeBase64 c)) := by
    rcases h.imported_cases j k.recipient k.sender with ⟨-, hall⟩ | ⟨k'', hk'', hs, hr, -, u, hu,
        hfound⟩
    · exact absurd hin (hall k hk rfl rfl)
    · have hsame := h.once k'' hk'' k hk hs hr
      subst hsame
      rw [hupdate] at hu
      have hu' := Option.some.inj (Except.ok.inj hu)
      subst hu'
      exact hfound
  have hpriv : (s.wallets j).envCP0 jd = some rsa'.domainImage := by
    rw [MessagingWallet.envCP0, hpatch']
    rfl
  rw [MessagingWallet.sharedKey, haes]
  simp only [himported, hpriv, MessagingWallet.keeping, MessagingWallet.need, bind, Except.bind,
    DecryptMessage, c_str_EncodeBase64, DecodeBase64_EncodeBase64, hdecrypt, Option.map_some,
    Option.getD_some]

/-- A key that a wallet can use is the one of the two addresses, unless an invitation that has
arrived is unanswered. -/
theorem Ok.shared_of_sharedKey (h : Ok env owner s) {a b : vchType} (ha : PlainAddress env a)
    {i : ι} {id : CKeyID} (hheld : Held env owner a i id)
    (hanswered : ∀ k ∈ s.keys, k.sender = b → k.recipient = a → k.key = none →
      k.wtx ∈ (s.wallets i).txs → ∃ k' ∈ s.keys, k'.sender = a ∧ k'.recipient = b)
    {key : List UInt8} (hok : (s.wallets i).sharedKey env id a b = .ok key) :
    key.length = 32 ∧ Shared env owner s a b key := by
  -- beside a reply of its own, a wallet keeps the key that went with it
  have hreply : ∀ k ∈ s.keys, k.sender = b → k.recipient = a → k.key = none →
      k.wtx ∈ (s.wallets i).txs →
        ∃ k' ∈ s.keys, ∃ key', k'.sender = a ∧ k'.recipient = b ∧ k'.key = some key' := by
    intro k hk hsender hrecipient hnone hin
    obtain ⟨k', hk', hsender', hrecipient'⟩ := hanswered k hk hsender hrecipient hnone hin
    obtain ⟨key', hkey'⟩ := Option.ne_none_iff_exists'.mp (h.answered k hk k' hk'
      (hsender'.trans hrecipient.symm) (hrecipient'.trans hsender.symm) hnone)
    exact ⟨k', hk', key', hsender', hrecipient', hkey'⟩
  have hlength : ∀ k ∈ s.keys, ∀ key', k.key = some key' → key'.length = 32 := by
    intro k hk key' hkey'
    obtain ⟨_, _, _, _, _, -, -, -, -, hdrawn⟩ := h.keyOk k hk
    exact (hdrawn key' hkey').1
  have hkept : ∀ k ∈ s.keys, k.sender = a → k.recipient = b →
      ((s.wallets i).kd id).m b = (k.key.map EncodeBase64).getD [] := by
    intro k hk hsender hrecipient
    obtain ⟨j, jd, -, -, -, hheld', -, hm, -, -⟩ := h.keyOk k hk
    rw [hsender] at hheld'
    obtain ⟨rfl, rfl⟩ := hheld.unique hheld'
    rw [← hrecipient]
    exact hm
  by_cases hm : ((s.wallets i).kd id).m b = []
  · have haes : (s.wallets i).aes_ id b = none := by
      rw [MessagingWallet.aes_, hm]
      rfl
    rcases h.imported_cases i a b with ⟨hnone, -⟩ | ⟨k, hk, hsender, hrecipient, hin, -⟩
    · rw [MessagingWallet.sharedKey, haes] at hok
      simp only [hnone, MessagingWallet.keeping, MessagingWallet.need, MessagingWallet.fail, bind,
        Except.bind] at hok
      cases hok
    · cases hkey : k.key with
      | none =>
        obtain ⟨k', hk', key', hsender', hrecipient', hkey'⟩ :=
          hreply k hk hsender hrecipient hkey hin
        have hm' := hkept k' hk' hsender' hrecipient'
        rw [hm, hkey'] at hm'
        exact absurd hm'.symm (length_EncodeBase64_key (hlength k' hk' key' hkey')).2
      | some key' =>
        have hshared := h.sharedKey_imported hk hkey (hrecipient ▸ hheld) hin
        rw [hsender, hrecipient, hok] at hshared
        obtain rfl := Except.ok.inj hshared
        exact ⟨hlength k hk _ hkey, k, hk, hkey, .inr ⟨hsender, hrecipient, i, id, hheld, hin⟩⟩
  · obtain ⟨k, hk, hsender, hrecipient, hin⟩ := h.prompted a i id b ha hheld hm
    cases hkey : k.key with
    | none =>
      obtain ⟨k', hk', key', hsender', hrecipient', hkey'⟩ :=
        hreply k hk hsender hrecipient hkey hin
      have hshared := h.sharedKey_own hk' hkey' (hsender' ▸ hheld)
      rw [hsender', hrecipient', hok] at hshared
      obtain rfl := Except.ok.inj hshared
      exact ⟨hlength k' hk' _ hkey', k', hk', hkey', .inl ⟨hsender', hrecipient'⟩⟩
    | some key' =>
      obtain ⟨k', hk', hsender', hrecipient', hnone⟩ := h.replied k hk
        (by rw [hkey]; exact Option.some_ne_none _)
      have hm' := hkept k' hk' (hsender'.trans hrecipient) (hrecipient'.trans hsender)
      rw [hnone] at hm'
      exact absurd hm' hm

/-- Without a key the call is refused, and nothing worse. -/
theorem Ok.sharedKey_refused (h : Ok env owner s) {a b : vchType} {i : ι} {id : CKeyID}
    {e : MessageStop} {w' : MessagingWallet}
    (herror : (s.wallets i).sharedKey env id a b = .error (e, w')) :
    Refused (s.wallets i) (.error (e, w') : Messaging (CTransaction × MessagingWallet)) := by
  unfold MessagingWallet.sharedKey at herror
  split at herror
  · cases herror
  · rcases h.imported_cases i a b with ⟨hnone, -⟩ | ⟨k, -, -, -, -, u, -, hfound⟩
    · rw [hnone] at herror
      exact ⟨_, _, congrArg Except.error (Except.error.inj herror).symm⟩
    · rw [hfound] at herror
      cases hpriv : (s.wallets i).envCP0 id with
      | none =>
        simp only [MessagingWallet.keeping, MessagingWallet.need, hpriv, bind,
          Except.bind] at herror
        exact ⟨_, _, congrArg Except.error (Except.error.inj herror).symm⟩
      | some priv =>
        simp only [MessagingWallet.keeping, MessagingWallet.need, hpriv, bind,
          Except.bind] at herror
        cases herror

end Exchange

end Dions
