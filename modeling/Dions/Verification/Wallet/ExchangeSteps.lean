import Dions.Verification.Wallet.Exchange

/-! # The steps of an orderly exchange

Every step of an orderly exchange adds to what went out, and leaves the rest as it was. -/

namespace Dions

open Halting LittleEndian

variable {w' : MessagingWallet}

namespace Exchange

variable {ι : Type} [DecidableEq ι] {env : MessageEnv} {owner : CKeyID → Option ι}
  {s s' : Exchange ι}

/-- Nothing that went out or was drawn is lost, and the keys beside what went out stay. -/
structure Grows (env : MessageEnv) (owner : CKeyID → Option ι) (s s' : Exchange ι) : Prop where
  keys : ∀ k ∈ s.keys, k ∈ s'.keys
  texts : ∀ t ∈ s.texts, t ∈ s'.texts
  txs : ∀ i, ∀ tx ∈ (s.wallets i).txs, tx ∈ (s'.wallets i).txs
  patch : ∀ i id rsa, ((s.wallets i).kd id).patch = some rsa →
    ((s'.wallets i).kd id).patch = some rsa
  kept : ∀ k ∈ s.keys, ∀ i id, Held env owner k.sender i id →
    ((s'.wallets i).kd id).m k.recipient = ((s.wallets i).kd id).m k.recipient

omit [DecidableEq ι] in
theorem KeyOk.grows {k : SentKey} (h : KeyOk env owner s k) (hk : k ∈ s.keys)
    (hg : Grows env owner s s') : KeyOk env owner s' k := by
  obtain ⟨i, id, rsa, fourth, sig, hheld, hpatch, hm, hupdate, hreply⟩ := h
  refine ⟨i, id, rsa, fourth, sig, hheld, hg.patch i id _ hpatch, ?_, hupdate, fun key hkey => ?_⟩
  · rw [hg.kept k hk i id hheld, hm]
  · obtain ⟨hlength, c, j, jd, rsa', hfourth, hheld', hpatch', hdecrypt⟩ := hreply key hkey
    exact ⟨hlength, c, j, jd, rsa', hfourth, hheld', hg.patch j jd _ hpatch', hdecrypt⟩

omit [DecidableEq ι] in
theorem Shared.grows {a b : vchType} {key : List UInt8} (h : Shared env owner s a b key)
    (hg : Grows env owner s s') : Shared env owner s' a b key := by
  obtain ⟨k, hk, hkey, hown | ⟨hsender, hrecipient, i, id, hheld, hin⟩⟩ := h
  · exact ⟨k, hg.keys k hk, hkey, .inl hown⟩
  · exact ⟨k, hg.keys k hk, hkey, .inr ⟨hsender, hrecipient, i, id, hheld, hg.txs i _ hin⟩⟩

omit [DecidableEq ι] in
theorem TextOk.grows {t : SentText} (h : TextOk env owner s t) (hg : Grows env owner s s') :
    TextOk env owner s' t := by
  obtain ⟨hsender, hrecipient, hjd, key, iv128, sig, hlength, hiv, hupdate, hshared⟩ := h
  exact ⟨hsender, hrecipient, hjd, key, iv128, sig, hlength, hiv, hupdate, hshared.grows hg⟩

omit [DecidableEq ι] in
theorem Sent.grows {tx : CTransaction} (h : Sent s tx) (hg : Grows env owner s s') :
    Sent s' tx := by
  rcases h with ⟨k, hk, htx⟩ | ⟨t, ht, htx⟩
  · exact .inl ⟨k, hg.keys k hk, htx⟩
  · exact .inr ⟨t, hg.texts t ht, htx⟩

/-- What a step does to the wallet of the caller, as far as the exchange goes. -/
structure WalletStep (env : MessageEnv) (owner : CKeyID → Option ι) (s : Exchange ι) (i : ι)
    (w' : MessagingWallet) : Prop where
  GetKey : w'.GetKey = (s.wallets i).GetKey
  txs : ∀ tx ∈ (s.wallets i).txs, tx ∈ w'.txs
  patch : ∀ id rsa, ((s.wallets i).kd id).patch = some rsa → (w'.kd id).patch = some rsa
  pairs : ∀ id key, (w'.kd id).patch = some key → ∃ rsa : RSAPair env, rsa.toRSAKey = key
  kept : ∀ k ∈ s.keys, ∀ id, Held env owner k.sender i id →
    (w'.kd id).m k.recipient = ((s.wallets i).kd id).m k.recipient
  prompted : ∀ a id b, PlainAddress env a → Held env owner a i id → (w'.kd id).m b ≠ [] →
    ∃ k ∈ s.keys, k.sender = b ∧ k.recipient = a ∧ k.wtx ∈ (s.wallets i).txs

def next (s : Exchange ι) (i : ι) (w' : MessagingWallet) (ks : List SentKey)
    (ts : List SentText) : Exchange ι :=
  { wallets := Function.update s.wallets i w', keys := ks ++ s.keys, texts := ts ++ s.texts }

theorem WalletStep.grows {i : ι} (h : WalletStep env owner s i w') (ks : List SentKey)
    (ts : List SentText) : Grows env owner s (s.next i w' ks ts) where
  keys k hk := List.mem_append_right ks hk
  texts t ht := List.mem_append_right ts ht
  txs j tx htx := by
    by_cases hj : j = i
    · subst hj
      simpa [next] using h.txs tx htx
    · simpa [next, hj] using htx
  patch j id rsa hpatch := by
    by_cases hj : j = i
    · subst hj
      simpa [next] using h.patch id rsa hpatch
    · simpa [next, hj] using hpatch
  kept k hk j id hheld := by
    by_cases hj : j = i
    · subst hj
      simpa [next] using h.kept k hk id hheld
    · simp [next, hj]

/-- A key that goes out is in order with those that went out before. -/
structure NewKey (env : MessageEnv) (owner : CKeyID → Option ι) (s s' : Exchange ι)
    (k : SentKey) : Prop where
  plain : PlainAddress env k.sender ∧ PlainAddress env k.recipient ∧ k.sender ≠ k.recipient
  first : ∀ k' ∈ s.keys, ¬(k'.sender = k.sender ∧ k'.recipient = k.recipient)
  keyOk : KeyOk env owner s' k
  replied : k.key ≠ none → ∃ k' ∈ s.keys, k'.sender = k.recipient ∧ k'.recipient = k.sender ∧
    k'.key = none
  unprompted : k.key = none → ∀ k' ∈ s.keys, ¬(k'.sender = k.recipient ∧ k'.recipient = k.sender)

theorem Ok.next (h : Ok env owner s) {i : ι} {w' : MessagingWallet}
    (hw : WalletStep env owner s i w') {ks : List SentKey} {ts : List SentText}
    (hks : ks = [] ∨ ∃ k, ks = [k] ∧ NewKey env owner s (s.next i w' ks ts) k)
    (hts : ∀ t ∈ ts, TextOk env owner (s.next i w' ks ts) t)
    (hknown : ∀ tx ∈ w'.txs, tx ∈ (s.wallets i).txs ∨ Sent (s.next i w' ks ts) tx ∨ NoMessage tx) :
    Ok env owner (s.next i w' ks ts) := by
  have hg := hw.grows ks ts
  have hnew : ∀ k ∈ (s.next i w' ks ts).keys, k ∈ s.keys ∨
      (NewKey env owner s (s.next i w' ks ts) k ∧ ∀ k' ∈ (s.next i w' ks ts).keys,
        k' ∈ s.keys ∨ k' = k) := by
    intro k hk
    rcases hks with rfl | ⟨k₀, rfl, hk₀⟩
    · exact .inl hk
    · rcases List.mem_cons.mp hk with rfl | hk
      · exact .inr ⟨hk₀, fun k' hk' => (List.mem_cons.mp hk').symm⟩
      · exact .inl hk
  refine ⟨fun j id => ?_, fun j id key hpatch => ?_, fun k hk => ?_,
    fun k hk k' hk' hsender hrecipient => ?_, fun k hk => ?_,
    fun k hk hkey => ?_, fun k hk k' hk' hsender hrecipient hkey => ?_,
      fun a j id b ha hheld hm => ?_,
    fun t ht => ?_, fun j tx htx => ?_⟩
  · by_cases hj : j = i
    · subst hj
      simpa [Exchange.next, hw.GetKey] using h.GetKey j id
    · simpa [Exchange.next, hj] using h.GetKey j id
  · by_cases hj : j = i
    · subst hj
      exact hw.pairs id key (by simpa [Exchange.next] using hpatch)
    · exact h.pairs j id key (by simpa [Exchange.next, hj] using hpatch)
  · rcases hnew k hk with hk | ⟨hk, -⟩
    · exact h.plain k hk
    · exact hk.plain
  · rcases hnew k hk with hk | ⟨hk, hothers⟩
    · rcases hnew k' hk' with hk' | ⟨hk', -⟩
      · exact h.once k hk k' hk' hsender hrecipient
      · exact absurd ⟨hsender, hrecipient⟩ (hk'.first k hk)
    · rcases hothers k' hk' with hk' | rfl
      · exact absurd ⟨hsender.symm, hrecipient.symm⟩ (hk.first k' hk')
      · rfl
  · rcases hnew k hk with hk | ⟨hk, -⟩
    · exact (h.keyOk k hk).grows hk hg
    · exact hk.keyOk
  · rcases hnew k hk with hk | ⟨hk, -⟩
    · obtain ⟨k', hk', hreverse⟩ := h.replied k hk hkey
      exact ⟨k', hg.keys k' hk', hreverse⟩
    · obtain ⟨k', hk', hreverse⟩ := hk.replied hkey
      exact ⟨k', hg.keys k' hk', hreverse⟩
  · rcases hnew k hk with hk | ⟨hk, hothers⟩
    · rcases hnew k' hk' with hk' | ⟨hk', -⟩
      · exact h.answered k hk k' hk' hsender hrecipient hkey
      · intro hnone
        exact hk'.unprompted hnone k hk ⟨hrecipient.symm, hsender.symm⟩
    · rcases hothers k' hk' with hk' | rfl
      · exact absurd ⟨hsender, hrecipient⟩ (hk.unprompted hkey k' hk')
      · exact absurd hsender hk.plain.2.2
  · by_cases hj : j = i
    · subst hj
      obtain ⟨k, hk, hsender, hrecipient, hin⟩ :=
        hw.prompted a id b ha hheld (by simpa [Exchange.next] using hm)
      exact ⟨k, hg.keys k hk, hsender, hrecipient, hg.txs j _ hin⟩
    · obtain ⟨k, hk, hsender, hrecipient, hin⟩ :=
        h.prompted a j id b ha hheld (by simpa [Exchange.next, hj] using hm)
      exact ⟨k, hg.keys k hk, hsender, hrecipient, hg.txs j _ hin⟩
  · rcases List.mem_append.mp ht with ht | ht
    · exact hts t ht
    · exact (h.textOk t ht).grows hg
  · by_cases hj : j = i
    · subst hj
      rcases hknown tx (by simpa [Exchange.next] using htx) with htx | hsent
      · rcases h.known j tx htx with hsent | hno
        · exact .inl (hsent.grows hg)
        · exact .inr hno
      · exact hsent
    · rcases h.known j tx (by simpa [Exchange.next, hj] using htx) with hsent | hno
      · exact .inl (hsent.grows hg)
      · exact .inr hno

/-! ## Steps of a wallet -/

theorem Ok.stay (h : Ok env owner s) (i : ι) : WalletStep env owner s i (s.wallets i) :=
  ⟨rfl, fun _ htx => htx, fun _ _ hpatch => hpatch, h.pairs i, fun _ _ _ _ => rfl,
    fun a id b ha hheld hm => h.prompted a i id b ha hheld hm⟩

omit [DecidableEq ι] in
theorem WalletStep.addToWallet {i : ι} (h : WalletStep env owner s i w') (tx : CTransaction) :
    WalletStep env owner s i (w'.AddToWallet env tx) := by
  refine ⟨?_, fun tx' htx => mem_txs_of_mem (h.txs tx' htx), ?_, ?_, ?_, ?_⟩
  · rw [AddToWallet_GetKey, h.GetKey]
  · rw [AddToWallet_kd]
    exact h.patch
  · rw [AddToWallet_kd]
    exact h.pairs
  · rw [AddToWallet_kd]
    exact h.kept
  · rw [AddToWallet_kd]
    exact h.prompted

theorem Ok.drawn (h : Ok env owner s) (i : ι) {id : CKeyID}
    (hnone : ((s.wallets i).kd id).patch = none) (drawn : RSAPair env) :
    WalletStep env owner s i { s.wallets i with
      kd := Function.update (s.wallets i).kd id
        { (s.wallets i).kd id with patch := some drawn.toRSAKey } } := by
  have hm (jd : CKeyID) : (Function.update (s.wallets i).kd id
      { (s.wallets i).kd id with patch := some drawn.toRSAKey } jd).m =
        ((s.wallets i).kd jd).m := by
    by_cases hjd : jd = id
    · subst hjd
      rw [Function.update_self]
    · rw [Function.update_of_ne hjd]
  refine ⟨rfl, fun _ htx => htx, fun jd rsa hpatch => ?_, fun jd key hpatch => ?_,
    fun k hk jd hheld => ?_,
    fun a jd b ha hheld hne => ?_⟩
  · have hjd : jd ≠ id := by
      intro hjd
      rw [hjd, hnone] at hpatch
      cases hpatch
    simpa [Function.update_of_ne hjd] using hpatch
  · by_cases hjd : jd = id
    · subst hjd
      simp only [Function.update_self] at hpatch
      exact ⟨drawn, Option.some.inj hpatch⟩
    · exact h.pairs i jd key (by simpa [Function.update_of_ne hjd] using hpatch)
  · exact congrFun (hm jd) _
  · refine h.prompted a i jd b ha hheld ?_
    rw [← hm jd]
    exact hne

/-- A key is kept for a reply, before there is one. -/
theorem Ok.kept (h : Ok env owner s) {a b : vchType} (ha : PlainAddress env a) {i : ι} {id : CKeyID}
    (hheld : Held env owner a i id) (hfirst : ∀ k ∈ s.keys, ¬(k.sender = a ∧ k.recipient = b))
    (hprompt : ∃ k ∈ s.keys, k.sender = b ∧ k.recipient = a ∧ k.wtx ∈ (s.wallets i).txs)
    (key : vchType) :
    WalletStep env owner s i ((s.wallets i).aes id b key) := by
  have hm {jd : CKeyID} {f : vchType} (hne : ¬(jd = id ∧ f = b)) :
      (((s.wallets i).aes id b key).kd jd).m f = ((s.wallets i).kd jd).m f := by
    by_cases hjd : jd = id
    · subst hjd
      have hf : f ≠ b := fun hf => hne ⟨rfl, hf⟩
      simp [MessagingWallet.aes, Function.update_of_ne hf]
    · simp [MessagingWallet.aes, Function.update_of_ne hjd]
  have hpatch (jd : CKeyID) :
      (((s.wallets i).aes id b key).kd jd).patch = ((s.wallets i).kd jd).patch := by
    by_cases hjd : jd = id
    · subst hjd
      simp [MessagingWallet.aes]
    · simp [MessagingWallet.aes, Function.update_of_ne hjd]
  refine ⟨rfl, fun _ htx => htx, fun jd rsa hrsa => ?_, fun jd key' hkey' => ?_,
    fun k hk jd hheld' => ?_,
    fun a' jd b' ha' hheld' hne => ?_⟩
  · rw [hpatch]
    exact hrsa
  · rw [hpatch] at hkey'
    exact h.pairs i jd key' hkey'
  · apply hm
    intro hboth
    obtain ⟨rfl, hrecipient⟩ := hboth
    have hsender := (h.plain k hk).1.eq_of_idOf ha hheld'.refers hheld.refers
    exact hfirst k hk ⟨hsender, hrecipient⟩
  · by_cases hboth : jd = id ∧ b' = b
    · obtain ⟨rfl, rfl⟩ := hboth
      rw [ha'.eq_of_idOf ha hheld'.refers hheld.refers]
      exact hprompt
    · rw [hm hboth] at hne
      exact h.prompted a' i jd b' ha' hheld' hne

theorem left_of_refused {α : Type} {w : MessagingWallet} {r : Messaging (α × MessagingWallet)}
    (h : Refused w r) : r.left = w ∧ r.value = none := by
  obtain ⟨code, message, rfl⟩ := h
  exact ⟨rfl, rfl⟩

theorem Ok.held (h : Ok env owner s) {a : vchType} {i : ι} {id : CKeyID}
    (hid : idOf env a = some id) (hkey : (s.wallets i).GetKey id = true) :
    Held env owner a i id := by
  rw [h.GetKey i id, beq_iff_eq] at hkey
  exact ⟨hid, hkey⟩

theorem Ok.quiet (h : Ok env owner s) {i : ι} {w' : MessagingWallet}
    (hw : WalletStep env owner s i w')
    (hknown : ∀ tx ∈ w'.txs, tx ∈ (s.wallets i).txs ∨ Sent s tx ∨ NoMessage tx) :
    Ok env owner (s.next i w' [] []) := by
  refine h.next hw (.inl rfl) (fun t ht => absurd ht List.not_mem_nil) fun tx htx => ?_
  rcases hknown tx htx with hin | hsent | hno
  · exact .inl hin
  · exact .inr (.inl (hsent.grows (hw.grows [] [])))
  · exact .inr (.inr hno)

theorem Ok.publicKey (h : Ok env owner s) (i : ι) (a : vchType) (drawn : RSAPair env) :
    Ok env owner (s.step env i (.publicKey a drawn)) := by
  change Ok env owner (s.next i ((s.wallets i).publicKey env a drawn.toRSAKey).left [] [])
  rcases publicKey_left env (s.wallets i) a drawn.toRSAKey with hsame | ⟨id, -, hnone, hdrawn⟩
  · rw [hsame]
    exact h.quiet (h.stay i) fun tx htx => .inl htx
  · rw [hdrawn]
    exact h.quiet (h.drawn i hnone drawn) fun tx htx => .inl htx

theorem Ok.receive (h : Ok env owner s) (i : ι) {tx : CTransaction}
    (hc : Orderly env s i (.receive tx)) :
    Ok env owner (s.step env i (.receive tx)) := by
  change Ok env owner (s.next i ((s.wallets i).AddToWallet env tx) [] [])
  refine h.quiet ((h.stay i).addToWallet tx) fun tx' htx' => ?_
  rcases mem_txs_AddToWallet htx' with rfl | hin
  · rcases hc with hkey | htext | hno
    · exact .inr (.inl (.inl hkey))
    · exact .inr (.inl (.inr htext))
    · exact .inr (.inr hno)
  · exact .inl hin

theorem Ok.encrypted (h : Ok env owner s) {i : ι} {a b imported fourth key : vchType}
    (himported : (s.wallets i).getImportedPubKey a b = .ok (some (imported, fourth)))
    (hlength : key.length = 32) (padding : List UInt8) :
    ∃ k ∈ s.keys, (k.sender = b ∧ k.recipient = a ∧ k.wtx ∈ (s.wallets i).txs) ∧
      ∃ c j jd, ∃ rsa : RSAPair env,
      EncryptMessage env imported (EncodeBase64 key) padding = .ok (EncodeBase64 c) ∧
      Held env owner b j jd ∧ ((s.wallets j).kd jd).patch = some rsa.toRSAKey ∧
      env.privateDecrypt rsa.domainImage c = some (EncodeBase64 key) := by
  rcases h.imported_cases i a b with ⟨hnone, -⟩ | ⟨k, hk, hsender, hrecipient, hin, u, hu, hfound⟩
  · rw [hnone] at himported
    cases himported
  · obtain ⟨j, jd, rsa, fourth', sig, hheld, hpatch, -, hupdate, -⟩ := h.keyOk k hk
    rw [hupdate] at hu
    obtain rfl := Option.some.inj (Except.ok.inj hu)
    rw [hfound] at himported
    have hpub : rsa.codomainImage = imported :=
      congrArg Prod.fst (Option.some.inj (Except.ok.inj himported))
    obtain ⟨c, hencrypt, hdecrypt⟩ := rsa.decrypts padding (EncodeBase64 key)
      (length_EncodeBase64_key hlength).1
    refine ⟨k, hk, ⟨hsender, hrecipient, hin⟩, c, j, jd, rsa, ?_, hsender ▸ hheld, hpatch, hdecrypt⟩
    rw [EncryptMessage, ← hpub, hencrypt]

@[simp] theorem wallets_next (s : Exchange ι) (i : ι) (w' : MessagingWallet) (ks : List SentKey)
    (ts : List SentText) : (s.next i w' ks ts).wallets i = w' := by
  change Function.update s.wallets i w' i = w'
  exact Function.update_self i w' s.wallets

theorem Ok.pair_of_pub (h : Ok env owner s) {i : ι} {id : CKeyID} {pub : vchType}
    (hpub : (s.wallets i).envCP1 id = some pub) :
    ∃ rsa : RSAPair env, ((s.wallets i).kd id).patch = some rsa.toRSAKey ∧
      rsa.codomainImage = pub := by
  obtain ⟨key, hpatch, hkey⟩ := Option.map_eq_some_iff.mp hpub
  obtain ⟨rsa, rfl⟩ := h.pairs i id key hpatch
  exact ⟨rsa, hpatch, hkey⟩

omit [DecidableEq ι] in
/-- The transaction of what goes out is the only new one of the wallet. -/
theorem known_of_sent {i : ι} {tx₀ : CTransaction} {s' : Exchange ι}
    (hw : w'.txs = (s.wallets i).txs) (hsent : Sent s' tx₀) :
    ∀ tx ∈ (w'.AddToWallet env tx₀).txs, tx ∈ (s.wallets i).txs ∨ Sent s' tx ∨ NoMessage tx := by
  intro tx htx
  rcases mem_txs_AddToWallet htx with rfl | hin
  · exact .inr (.inl hsent)
  · exact .inl (hw ▸ hin)

theorem Ok.sendPublicKey (h : Ok env owner s) (i : ι) {ln1Db : AliasDb} {payer : Payer}
    {aes256Key : {key : List UInt8 // key.length = 32}} {padding : List UInt8} {a b : vchType}
    (hc : Orderly env s i (.sendPublicKey ln1Db payer aes256Key padding a b)) :
    Ok env owner (s.step env i (.sendPublicKey ln1Db payer aes256Key padding a b)) := by
  obtain ⟨ha, hb, hab, hfirst, harrived⟩ := hc
  have houtcome := sendPublicKey_cases (w := s.wallets i) ha hb ln1Db payer aes256Key.1 padding
  unfold Exchange.step
  dsimp only
  generalize (s.wallets i).sendPublicKey env ln1Db payer.SendMoney__ aes256Key.1 padding a b =
    r at houtcome ⊢
  cases houtcome with
  | refused hrefused =>
    obtain ⟨hleft, hvalue⟩ := left_of_refused hrefused
    rw [hleft, hvalue]
    exact h.quiet (h.stay i) fun tx htx => .inl htx
  | stopped hstopped => exact h.quiet (h.stay i) fun tx htx => .inl htx
  | @invited id pub vchSig hash160 wtx hid hkey hpub himported hpaid =>
    have hheld := h.held hid hkey
    have hunprompted : ∀ k ∈ s.keys, ¬(k.sender = b ∧ k.recipient = a) := by
      intro k hk hreverse
      rcases h.imported_cases i a b with ⟨-, hnot⟩ | ⟨-, -, -, -, -, u, -, hfound⟩
      · exact hnot k hk hreverse.1 hreverse.2 (harrived k hk hreverse.1 hreverse.2)
      · rw [himported] at hfound
        cases hfound
    have hm : ((s.wallets i).kd id).m b = [] := by
      by_contra hne
      obtain ⟨k, hk, hreverse⟩ := h.prompted a i id b ha hheld hne
      exact hunprompted k hk ⟨hreverse.1, hreverse.2.1⟩
    obtain ⟨rsa, hpatch, rfl⟩ := h.pair_of_pub hpub
    have hw := (h.stay i).addToWallet wtx
    rw [himported]
    change Ok env owner (s.next i ((s.wallets i).AddToWallet env wtx) [⟨a, b, none, wtx⟩] [])
    refine h.next hw (.inr ⟨_, rfl, ⟨⟨ha, hb, hab⟩, hfirst, ?_, fun hkey => absurd rfl hkey,
      fun _ => hunprompted⟩⟩) (fun t ht => absurd ht List.not_mem_nil)
        (known_of_sent rfl (.inl ⟨_, List.mem_cons_self, rfl⟩))
    refine ⟨i, id, rsa, [0x49], EncodeBase64 vchSig, hheld, ?_, ?_, ?_,
      fun key hkey => by cases hkey⟩
    · rw [wallets_next, AddToWallet_kd]
      exact hpatch
    · rw [wallets_next, AddToWallet_kd]
      exact hm
    · exact messageUpdate_paid rfl (List.cons_ne_nil _ _) (by decide) hpaid
  | @unsent id imported fourth r hid hkey himported hrefused =>
    obtain ⟨hleft, hvalue⟩ := left_of_refused hrefused
    obtain ⟨k, hk, hprompt, -⟩ := h.encrypted himported aes256Key.2 padding
    rw [hleft, hvalue]
    exact h.quiet (h.kept ha (h.held hid hkey) hfirst ⟨k, hk, hprompt⟩ _) fun tx htx => .inl htx
  | @replied id pub imported fourth encrypted vchSig hash160 wtx hid hkey hpub himported hencrypted
    hpaid =>
    have hheld := h.held hid hkey
    obtain ⟨rsa, hpatch, rfl⟩ := h.pair_of_pub hpub
    obtain ⟨k, hk, hprompt, c, j, jd, rsa', hencrypted', hheld', hpatch', hdecrypt⟩ :=
      h.encrypted himported aes256Key.2 padding
    have hsender := hprompt.1
    have hrecipient := hprompt.2.1
    rw [hencrypted] at hencrypted'
    obtain rfl := Except.ok.inj hencrypted'
    have hinvited : k.key = none := by
      by_contra hne
      obtain ⟨k', hk', hsender', hrecipient', -⟩ := h.replied k hk hne
      exact hfirst k' hk' ⟨hsender'.trans hrecipient, hrecipient'.trans hsender⟩
    have hw := (h.kept ha hheld hfirst ⟨k, hk, hprompt⟩ (EncodeBase64 aes256Key.1)).addToWallet wtx
    have hg := hw.grows [⟨a, b, some aes256Key.1, wtx⟩] []
    rw [himported]
    change Ok env owner (s.next i
      (((s.wallets i).aes id b (EncodeBase64 aes256Key.1)).AddToWallet env wtx)
      [⟨a, b, some aes256Key.1, wtx⟩] [])
    refine h.next hw (.inr ⟨_, rfl,
      ⟨⟨ha, hb, hab⟩, hfirst, ?_, fun _ => ⟨k, hk, hsender, hrecipient, hinvited⟩,
      fun hnone => by cases hnone⟩⟩) (fun t ht => absurd ht List.not_mem_nil)
      (known_of_sent rfl (.inl ⟨_, List.mem_cons_self, rfl⟩))
    refine ⟨i, id, rsa, EncodeBase64 c, EncodeBase64 vchSig, hheld, hg.patch i id _ hpatch, ?_, ?_,
      fun key hkey => ?_⟩
    · rw [wallets_next, AddToWallet_kd]
      simp [MessagingWallet.aes]
    · exact messageUpdate_paid rfl (List.cons_ne_nil _ _) (by decide) hpaid
    · obtain rfl := Option.some.inj hkey
      exact ⟨aes256Key.2, c, j, jd, rsa', rfl, hheld', hg.patch j jd _ hpatch', hdecrypt⟩

/-- Where no invitation that has arrived is unanswered, a text goes out under the key of the two
addresses, or the call is refused. -/
theorem Ok.sendMessage_cases (h : Ok env owner s) (i : ι) {payer : Payer}
    {iv128 : {iv : List UInt8 // iv.length = 16}} {a text b : vchType}
    (hc : Orderly env s i (.sendMessage payer iv128 a text b)) :
    Refused (s.wallets i) ((s.wallets i).sendMessage env payer.SendMoney__ iv128.1 a text b) ∨
      ∃ wtx, (s.wallets i).sendMessage env payer.SendMoney__ iv128.1 a text b =
          .ok (wtx, (s.wallets i).AddToWallet env wtx) ∧
        TextOk env owner s ⟨a, b, text, wtx⟩ := by
  obtain ⟨ha, hb, hab, hanswered⟩ := hc
  have houtcome := @Dions.sendMessage_cases env (s.wallets i) payer iv128.1 a text b
  generalize (s.wallets i).sendMessage env payer.SendMoney__ iv128.1 a text b = r at houtcome ⊢
  have hcipher {id : CKeyID} {key : vchType} (hid : idOf env a = some id)
      (hkey : (s.wallets i).GetKey id = true)
      (hshared : (s.wallets i).sharedKey env id a b = .ok key) :
      key.length = 32 ∧ Shared env owner s a b key ∧ EncryptMessageAES env text key iv128.1 =
        .ok (EncodeBase64 (env.encrypt key iv128.1 text), EncodeBase64 iv128.1) := by
    obtain ⟨hlength, hof⟩ := h.shared_of_sharedKey ha (h.held hid hkey) hanswered hshared
    refine ⟨hlength, hof, ?_⟩
    rw [EncryptMessageAES, if_neg (by omega), List.take_of_length_le hlength.le]
  cases houtcome with
  | refused hrefused => exact .inl hrefused
  | stopped hid hkey hstopped =>
    rcases hstopped with herror | ⟨key, hshared, herror⟩
    · exact .inl (h.sharedKey_refused herror)
    · obtain ⟨-, -, hencrypt⟩ := hcipher hid hkey hshared
      rw [hencrypt] at herror
      cases herror
  | sent hid hkey hjd hshared hencrypted hpaid =>
    obtain ⟨hlength, hof, hencrypt⟩ := hcipher hid hkey hshared
    rw [hencrypt] at hencrypted
    obtain ⟨rfl, rfl⟩ := Prod.mk.inj (Except.ok.inj hencrypted)
    exact .inr ⟨_, rfl, ha, hb, ⟨_, hjd⟩, _, iv128.1, _, hlength, iv128.2,
      messageUpdate_paid rfl (List.cons_ne_nil _ _) (by decide) hpaid, hof⟩

theorem Ok.sendMessage (h : Ok env owner s) (i : ι) {payer : Payer}
    {iv128 : {iv : List UInt8 // iv.length = 16}} {a text b : vchType}
    (hc : Orderly env s i (.sendMessage payer iv128 a text b)) :
    Ok env owner (s.step env i (.sendMessage payer iv128 a text b)) := by
  unfold Exchange.step
  dsimp only
  rcases h.sendMessage_cases i hc with hrefused | ⟨wtx, hsent, htext⟩
  · obtain ⟨hleft, hvalue⟩ := left_of_refused hrefused
    rw [hleft, hvalue]
    exact h.quiet (h.stay i) fun tx htx => .inl htx
  · rw [hsent]
    change Ok env owner (s.next i ((s.wallets i).AddToWallet env wtx) [] [⟨a, b, text, wtx⟩])
    have hw := (h.stay i).addToWallet wtx
    have hg := hw.grows [] [⟨a, b, text, wtx⟩]
    refine h.next hw (.inl rfl) (fun t ht => ?_)
      (known_of_sent rfl (.inr ⟨_, List.mem_cons_self, rfl⟩))
    obtain rfl := List.mem_singleton.mp ht
    exact htext.grows hg

theorem Ok.start (env : MessageEnv) (owner : CKeyID → Option ι) : Ok env owner (start owner) where
  GetKey _ _ := rfl
  pairs _ _ _ h := by cases h
  plain _ h := by cases h
  once _ h := by cases h
  keyOk _ h := by cases h
  replied _ h := by cases h
  answered _ h := by cases h
  prompted _ _ _ _ _ _ h := absurd rfl h
  textOk _ h := by cases h
  known _ _ h := by cases h

theorem Reached.ok (h : Reached env owner s) : Ok env owner s := by
  induction h with
  | start => exact .start env owner
  | @step s i c _ hc ih =>
    cases c with
    | publicKey a drawn => exact ih.publicKey i a drawn
    | sendPublicKey ln1Db payer aes256Key padding a b => exact ih.sendPublicKey i hc
    | sendMessage payer iv128 a text b => exact ih.sendMessage i hc
    | receive tx => exact ih.receive i hc

end Exchange

end Dions
