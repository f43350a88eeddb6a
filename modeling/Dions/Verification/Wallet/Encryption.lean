import Dions.Library.Simulation
import Dions.Model.Crypter
import Dions.Verification.Scenario

/-! # The wallet as a vault

What the encrypted wallet is for, without ciphers: keys, a passphrase, and a lock. Every run of calls
gets the answers of the vault, as long as the cipher refuses wrong passphrases. -/

namespace Dions

open LittleEndian

/-! ## The vault -/

structure Vault where
  keys : CKeyID → Option CKey
  /-- There is none before the wallet is encrypted. -/
  passphrase : Option SecureString
  isLocked : Bool

namespace Vault

variable (crypto : KeyCrypto)

def empty : Vault := ⟨fun _ => none, none, false⟩

def put (v : Vault) (key : CKey) : Vault :=
  { v with keys := Function.update v.keys (crypto.GetID (crypto.GetPubKey key)) (some key) }

/-- The answers of the vault. A passphrase is asked for in two calls: the wrong one leaves the vault
locked, also where a passphrase was to be changed while the vault was open. -/
def run : WalletCall → Vault → WalletAnswer × Vault
  | .ak key, v => if v.isLocked then (.done false, v) else (.done true, v.put crypto key)
  | .HaveKey address, v => (.done (v.keys address).isSome, v)
  | .GetKey address, v => (.key (if v.isLocked then none else v.keys address), v)
  | .GetPubKey address, v => (.pubKey ((v.keys address).map crypto.GetPubKey), v)
  | .encryptwallet strWalletPass draw, v =>
    if v.passphrase.isSome || strWalletPass.isEmpty then (.done false, v)
    else
      (.done true,
        { draw.keyPool.foldl (put crypto) v with
          passphrase := some strWalletPass, isLocked := true })
  | .walletpassphrase strWalletPass, v =>
    if v.isLocked && !strWalletPass.isEmpty && v.passphrase == some strWalletPass then
      (.done true, { v with isLocked := false })
    else (.done false, v)
  | .walletlock, v =>
    if v.passphrase.isSome then (.done true, { v with isLocked := true }) else (.done false, v)
  | .walletpassphrasechange strOldWalletPass strNewWalletPass _, v =>
    if v.passphrase.isNone || strOldWalletPass.isEmpty || strNewWalletPass.isEmpty then
      (.done false, v)
    else if v.passphrase = some strOldWalletPass then
      (.done true, { v with passphrase := some strNewWalletPass })
    else (.done false, { v with isLocked := true })
  | .walletlockstatus, v => (.status v.passphrase.isSome v.isLocked, v)

end Vault

/-! ## The cipher -/

structure KeyCrypto.Laws (crypto : KeyCrypto) : Prop where
  decrypt_encrypt : ∀ key iv plain, crypto.decrypt key iv (crypto.encrypt key iv plain) = some plain
  derived : ∀ passphrase salt n,
    (crypto.BytesToKey passphrase salt n).1.length = WALLET_CRYPTO_KEY_SIZE
  compressed : ∀ key, (crypto.GetPubKey key).length = 33 ↔ key.fCompressed = true

section Cipher

variable {crypto : KeyCrypto} {m : CKeyingMaterial}

/-- How a key is kept. -/
def sealedEntry (crypto : KeyCrypto) (m : CKeyingMaterial) (key : CKey) : CPubKey × List UInt8 :=
  (crypto.GetPubKey key, crypto.encrypt m
    (toBytes WALLET_CRYPTO_KEY_SIZE (crypto.GetHash (crypto.GetPubKey key))) key.vchSecret)

def CCryptoKeyStore.putSealed (crypto : KeyCrypto) (m : CKeyingMaterial) (s : CCryptoKeyStore)
    (key : CKey) : CCryptoKeyStore :=
  { s with
    mapCryptedKeys := s.mapCryptedKeys.insert (crypto.GetID (crypto.GetPubKey key))
      (sealedEntry crypto m key) }

theorem EncryptSecret_eq (hm : m.length = WALLET_CRYPTO_KEY_SIZE) (secret : CSecret) (n : uint256) :
    EncryptSecret crypto m secret n =
      some (crypto.encrypt m (toBytes WALLET_CRYPTO_KEY_SIZE n) secret) := by
  simp [EncryptSecret, CCrypter.SetKey, CCrypter.Encrypt, hm]

theorem openKey_sealed (laws : crypto.Laws) (hm : m.length = WALLET_CRYPTO_KEY_SIZE) (key : CKey) :
    CCryptoKeyStore.openKey crypto m (sealedEntry crypto m key).1 (sealedEntry crypto m key).2 =
      some key := by
  have hdecrypt : DecryptSecret crypto m (sealedEntry crypto m key).2
      (crypto.GetHash (crypto.GetPubKey key)) = some key.vchSecret := by
    simp [DecryptSecret, CCrypter.SetKey, CCrypter.Decrypt, sealedEntry, hm, laws.decrypt_encrypt]
  have hcompressed : ((crypto.GetPubKey key).length == 33) = key.fCompressed := by
    rw [Bool.eq_iff_iff, beq_iff_eq, laws.compressed key]
  simp only [CCryptoKeyStore.openKey, sealedEntry] at hdecrypt ⊢
  simp only [hdecrypt, key.size, hcompressed, dite_true]

/-- Nothing can be opened without a master key. -/
theorem openKey_nil (vchPubKey : CPubKey) (vchCryptedSecret : List UInt8) :
    CCryptoKeyStore.openKey crypto [] vchPubKey vchCryptedSecret = none := by
  simp [CCryptoKeyStore.openKey, DecryptSecret, CCrypter.SetKey, WALLET_CRYPTO_KEY_SIZE]

/-! ## The encrypted store -/

/-- The store holds the keys of the vault under a master key, none in the clear, and the master key
itself exactly while the vault is open. -/
structure SealedStore (crypto : KeyCrypto) (m : CKeyingMaterial) (s : CCryptoKeyStore) (v : Vault) :
    Prop where
  crypted : s.fUseCrypto = true
  noneClear : s.mapKeys.entries = []
  size : m.length = WALLET_CRYPTO_KEY_SIZE
  master : s.vMasterKey = if v.isLocked then [] else m
  keys : ∀ id, s.mapCryptedKeys.find id = (v.keys id).map (sealedEntry crypto m)

namespace SealedStore

variable {s : CCryptoKeyStore} {v : Vault}

theorem as_eq (h : SealedStore crypto m s v) : s.as = v.isLocked := by
  have hm : m.isEmpty = false := by
    have hsize := h.size
    cases m with
    | nil => simp [WALLET_CRYPTO_KEY_SIZE] at hsize
    | cons b m => rfl
  cases hlocked : v.isLocked <;>
    simp [CCryptoKeyStore.as, CCryptoKeyStore.IsCrypted, h.crypted, h.master, hlocked, hm]

theorem HaveKey_eq (h : SealedStore crypto m s v) (address : CKeyID) :
    s.HaveKey address = (v.keys address).isSome := by
  simp [CCryptoKeyStore.HaveKey, CCryptoKeyStore.IsCrypted, h.crypted, h.keys]

theorem GetPubKey_eq (h : SealedStore crypto m s v) (address : CKeyID) :
    s.GetPubKey crypto address = (v.keys address).map crypto.GetPubKey := by
  simp only [CCryptoKeyStore.GetPubKey, CCryptoKeyStore.IsCrypted, h.crypted, h.keys, Bool.not_true,
    Bool.false_eq_true, if_false, Option.map_map]
  rfl

theorem GetKey_eq (laws : crypto.Laws) (h : SealedStore crypto m s v) (address : CKeyID) :
    s.GetKey crypto address = if v.isLocked then none else v.keys address := by
  simp only [CCryptoKeyStore.GetKey, CCryptoKeyStore.IsCrypted, h.crypted, h.keys, Bool.not_true,
    Bool.false_eq_true, if_false]
  cases hkey : v.keys address with
  | none => simp
  | some key =>
    cases hlocked : v.isLocked
    · have hopen := openKey_sealed laws h.size key
      simpa [h.master, hlocked] using hopen
    · simp [h.master, hlocked, openKey_nil]

theorem fits (laws : crypto.Laws) (h : SealedStore crypto m s v) : s.fits crypto m = true := by
  rw [CCryptoKeyStore.fits]
  cases hhead : s.mapCryptedKeys.entries.head? with
  | none => rfl
  | some e =>
    have hfind := h.keys e.1
    rw [OrdMap.find_of_head hhead] at hfind
    obtain ⟨key, -, hentry⟩ := Option.map_eq_some_iff.mp hfind.symm
    obtain ⟨id, vchPubKey, vchCryptedSecret⟩ := e
    have hopen := openKey_sealed laws h.size key
    rw [hentry] at hopen
    have hpub : crypto.GetPubKey key = vchPubKey := congrArg Prod.fst hentry
    simp [hopen, hpub]

theorem Lock (h : SealedStore crypto m s v) :
    SealedStore crypto m s.Lock.2 { v with isLocked := true } := by
  simp only [CCryptoKeyStore.Lock, CCryptoKeyStore.SetCrypted, h.crypted, if_true]
  exact ⟨rfl, h.noneClear, h.size, rfl, h.keys⟩

theorem Unlock_true (h : SealedStore crypto m s v) (laws : crypto.Laws) :
    s.Unlock crypto m = (true, { s with vMasterKey := m }) := by
  simp [CCryptoKeyStore.Unlock, CCryptoKeyStore.SetCrypted, h.crypted, h.fits laws]

theorem unlocked (h : SealedStore crypto m s v) :
    SealedStore crypto m { s with vMasterKey := m } { v with isLocked := false } :=
  ⟨h.crypted, h.noneClear, h.size, rfl, h.keys⟩

theorem rekey (h : SealedStore crypto m s v) (passphrase : Option SecureString) :
    SealedStore crypto m s { v with passphrase := passphrase } :=
  ⟨h.crypted, h.noneClear, h.size, h.master, h.keys⟩

theorem Unlock_false (h : SealedStore crypto m s v) {m' : CKeyingMaterial}
    (hfits : s.fits crypto m' = false) : s.Unlock crypto m' = (false, s) := by
  simp [CCryptoKeyStore.Unlock, CCryptoKeyStore.SetCrypted, h.crypted, hfits]

theorem ak_locked (h : SealedStore crypto m s v) (hlocked : v.isLocked = true) (key : CKey) :
    s.ak crypto key = (false, s) := by
  have has := h.as_eq
  rw [hlocked] at has
  simp [CCryptoKeyStore.ak, CCryptoKeyStore.IsCrypted, h.crypted, has]

theorem ak_unlocked (h : SealedStore crypto m s v) (hlocked : v.isLocked = false) (key : CKey) :
    (s.ak crypto key).1 = true ∧ SealedStore crypto m (s.ak crypto key).2 (v.put crypto key) := by
  have has := h.as_eq
  have hmaster := h.master
  rw [hlocked] at has
  rw [hlocked, if_neg Bool.false_ne_true] at hmaster
  have hak : s.ak crypto key = (true, s.putSealed crypto m key) := by
    simp [CCryptoKeyStore.putSealed, CCryptoKeyStore.ak, CCryptoKeyStore.IsCrypted, CCryptoKeyStore.sync,
      CCryptoKeyStore.SetCrypted, h.crypted, has, hmaster, EncryptSecret_eq h.size, sealedEntry]
  rw [hak]
  refine ⟨rfl, h.crypted, h.noneClear, h.size, ?_, fun id => ?_⟩
  · simp [Vault.put, CCryptoKeyStore.putSealed, hlocked, hmaster]
  · simp only [CCryptoKeyStore.putSealed, OrdMap.find_insert, h.keys, Vault.put,
      Function.update_apply]
    split
    · rfl
    · rfl

theorem foldl_put (v : Vault) (keys : List CKey) (passphrase : Option SecureString)
    (isLocked : Bool) :
    keys.foldl (Vault.put crypto) { v with passphrase := passphrase, isLocked := isLocked } =
      { keys.foldl (Vault.put crypto) v with passphrase := passphrase, isLocked := isLocked } := by
  induction keys generalizing v with
  | nil => rfl
  | cons key keys ih => exact ih (v.put crypto key)

theorem addKeys (h : SealedStore crypto m s v) (hlocked : v.isLocked = false) (keys : List CKey) :
    SealedStore crypto m (keys.foldl (fun s key => (s.ak crypto key).2) s)
      (keys.foldl (Vault.put crypto) v) := by
  induction keys generalizing s v with
  | nil => exact h
  | cons key keys ih => exact ih (h.ak_unlocked hlocked key).2 hlocked

end SealedStore

/-! ## Encrypting the keys -/

theorem encryptEach_eq (hm : m.length = WALLET_CRYPTO_KEY_SIZE) (es : List (CKeyID × CKey))
    {s : CCryptoKeyStore} (hcrypted : s.fUseCrypto = true) :
    CCryptoKeyStore.encryptEach crypto m es s = (true, { s with
      mapCryptedKeys := es.foldl (fun M e =>
        M.insert (crypto.GetID (crypto.GetPubKey e.2)) (sealedEntry crypto m e.2))
          s.mapCryptedKeys }) := by
  induction es generalizing s with
  | nil => rfl
  | cons e es ih =>
    have hsync : s.sync crypto (crypto.GetPubKey e.2) (sealedEntry crypto m e.2).2 =
        (true, s.putSealed crypto m e.2) := by
      simp [CCryptoKeyStore.sync, CCryptoKeyStore.SetCrypted, CCryptoKeyStore.putSealed, hcrypted,
        sealedEntry]
    simp only [CCryptoKeyStore.encryptEach, EncryptSecret_eq hm]
    have hrest := ih (s := s.putSealed crypto m e.2) hcrypted
    simp only [sealedEntry] at hsync
    simp only [hsync]
    exact hrest

theorem find_sealed {es : List (CKeyID × CKey)} (hordered : (es.map Prod.fst).Pairwise (· < ·))
    (hnamed : ∀ e ∈ es, crypto.GetID (crypto.GetPubKey e.2) = e.1)
    (M : OrdMap CKeyID (CPubKey × List UInt8)) (id : CKeyID) :
    (es.foldl (fun M e => M.insert (crypto.GetID (crypto.GetPubKey e.2))
      (sealedEntry crypto m e.2)) M).find id =
        ((es.lookup id).map (sealedEntry crypto m)).or (M.find id) := by
  induction es generalizing M with
  | nil => rfl
  | cons e es ih =>
    rw [List.map_cons, List.pairwise_cons] at hordered
    rw [List.foldl_cons, ih hordered.2 fun e' he' => hnamed e' (List.mem_cons_of_mem _ he'),
      OrdMap.find_insert, hnamed e List.mem_cons_self, OrdMap.lookup_cons]
    by_cases hid : id = e.1
    · have hnone : es.lookup id = none := by
        rw [List.lookup_eq_none_iff]
        intro e' he'
        rw [bne_iff_ne, hid]
        exact (hordered.1 e'.1 (List.mem_map_of_mem he')).ne
      rw [hnone, if_pos hid, if_pos hid]
      rfl
    · rw [if_neg hid, if_neg hid]

/-! ## The wallet -/

/-- A master key that is kept under a passphrase. -/
structure CMasterKey.Seals (crypto : KeyCrypto) (kMasterKey : CMasterKey) (p : SecureString)
    (m : CKeyingMaterial) : Prop where
  salt : kMasterKey.vchSalt.length = WALLET_CRYPTO_SALT_SIZE
  rounds : 1 ≤ kMasterKey.nDeriveIterations
  crypted : kMasterKey.vchCryptedKey =
    crypto.encrypt (crypto.BytesToKey p kMasterKey.vchSalt kMasterKey.nDeriveIterations).1
      (crypto.BytesToKey p kMasterKey.vchSalt kMasterKey.nDeriveIterations).2 m

theorem SetKeyFromPassphrase_eq (laws : crypto.Laws) {p : SecureString} {chSalt : List UInt8}
    {nRounds : ℕ} (hsalt : chSalt.length = WALLET_CRYPTO_SALT_SIZE) (hrounds : 1 ≤ nRounds) :
    CCrypter.SetKeyFromPassphrase crypto p chSalt nRounds =
      some ⟨(crypto.BytesToKey p chSalt nRounds).1, (crypto.BytesToKey p chSalt nRounds).2⟩ := by
  rw [CCrypter.SetKeyFromPassphrase, if_neg (by omega)]
  exact if_neg (not_not.mpr (laws.derived p chSalt nRounds))

theorem CMasterKey.Seals.open (laws : crypto.Laws) {kMasterKey : CMasterKey} {p : SecureString}
    (h : kMasterKey.Seals crypto p m) : kMasterKey.open crypto p = some m := by
  rw [CMasterKey.open, SetKeyFromPassphrase_eq laws h.salt h.rounds, Option.bind_some,
    CCrypter.Decrypt, h.crypted]
  exact laws.decrypt_encrypt _ _ _

theorem deriveIterations_pos (nMeasured : ℕ) : 1 ≤ LockableWallet.deriveIterations nMeasured := by
  rw [LockableWallet.deriveIterations]
  split
  · decide
  · omega

/-- The wallet before it is encrypted. -/
structure PlainWallet (crypto : KeyCrypto) (w : LockableWallet) (v : Vault) : Prop where
  crypted : w.fUseCrypto = false
  noneSealed : w.mapCryptedKeys.entries = []
  noMaster : w.vMasterKey = [] ∧ w.mapMasterKeys = []
  keys : ∀ id, w.mapKeys.find id = v.keys id
  named : ∀ id key, w.mapKeys.find id = some key → crypto.GetID (crypto.GetPubKey key) = id
  plain : v.passphrase = none ∧ v.isLocked = false

/-- The wallet after it is encrypted, with one master key. -/
structure SealedWallet (crypto : KeyCrypto) (m : CKeyingMaterial) (p : SecureString) (id : ℕ)
    (kMasterKey : CMasterKey) (w : LockableWallet) (v : Vault) : Prop where
  store : SealedStore crypto m w.toCCryptoKeyStore v
  passphrase : v.passphrase = some p
  masters : w.mapMasterKeys = [(id, kMasterKey)]
  seals : kMasterKey.Seals crypto p m

/-- The wallet holds what the vault holds. -/
def Represents (crypto : KeyCrypto) (w : LockableWallet) (v : Vault) : Prop :=
  PlainWallet crypto w v ∨ ∃ m p id kMasterKey, SealedWallet crypto m p id kMasterKey w v

/-- No master key that the passphrase happens to decrypt fits the keys. -/
def FitsNone (crypto : KeyCrypto) (w : LockableWallet) (p : SecureString) : Prop :=
  ∀ e ∈ w.mapMasterKeys, ∀ m, e.2.open crypto p = some m → w.fits crypto m = false

/-- A call that comes with a wrong passphrase comes with one that is refused. -/
def WrongRefused (crypto : KeyCrypto) : WalletCall → LockableWallet → Vault → Prop
  | .walletpassphrase p, w, v => v.passphrase ≠ some p → FitsNone crypto w p
  | .walletpassphrasechange p _ _, w, v => v.passphrase ≠ some p → FitsNone crypto w p
  | _, _, _ => True

/-- The wallet and the vault answer a call alike, and the wallet still holds what the vault holds. -/
def Agrees (crypto : KeyCrypto) (call : WalletCall) (w : LockableWallet) (v : Vault) : Prop :=
  (call.run crypto w).1 = (Vault.run crypto call v).1 ∧
    Represents crypto (call.run crypto w).2 (Vault.run crypto call v).2

namespace SealedWallet

variable {p : SecureString} {id : ℕ} {kMasterKey : CMasterKey} {w : LockableWallet} {v : Vault}

theorem IsCrypted_eq (h : SealedWallet crypto m p id kMasterKey w v) : w.IsCrypted = true :=
  h.store.crypted

theorem unlockWith_right (laws : crypto.Laws) (h : SealedWallet crypto m p id kMasterKey w v) :
    LockableWallet.unlockWith crypto p w.mapMasterKeys w.toCCryptoKeyStore =
      (some (id, kMasterKey, m), { w.toCCryptoKeyStore with vMasterKey := m }) := by
  rw [h.masters, LockableWallet.unlockWith, h.seals.open laws]
  simp only [h.store.Unlock_true laws]

theorem unlockWith_wrong (h : SealedWallet crypto m p id kMasterKey w v) {p' : SecureString}
    (hrefuses : FitsNone crypto w p') :
    LockableWallet.unlockWith crypto p' w.mapMasterKeys w.toCCryptoKeyStore =
      (none, w.toCCryptoKeyStore) := by
  have hall := hrefuses (id, kMasterKey) (by rw [h.masters]; exact List.mem_singleton_self _)
  rw [h.masters, LockableWallet.unlockWith]
  cases hopen : kMasterKey.open crypto p' with
  | none => rfl
  | some m' => simp only [h.store.Unlock_false (hall m' hopen), LockableWallet.unlockWith]

theorem lock (h : SealedWallet crypto m p id kMasterKey w v) :
    SealedWallet crypto m p id kMasterKey w.lock { v with isLocked := true } :=
  ⟨h.store.Lock, h.passphrase, h.masters, h.seals⟩

theorem fitsNone_lock (h : SealedWallet crypto m p id kMasterKey w v) {p' : SecureString}
    (hrefuses : FitsNone crypto w p') : FitsNone crypto w.lock p' := by
  intro e he m' hopen
  have hfits := hrefuses e he m' hopen
  simpa only [LockableWallet.lock, CCryptoKeyStore.Lock, CCryptoKeyStore.SetCrypted,
    h.store.crypted, if_true, CCryptoKeyStore.fits] using hfits

theorem keep (h : SealedWallet crypto m p id kMasterKey w v) : Represents crypto w v :=
  .inr ⟨m, p, id, kMasterKey, h⟩

theorem walletpassphrase (laws : crypto.Laws) (h : SealedWallet crypto m p id kMasterKey w v)
    {p' : SecureString} (hwrong : v.passphrase ≠ some p' → FitsNone crypto w p') :
    Agrees crypto (.walletpassphrase p') w v := by
  have has := h.store.as_eq
  rw [Agrees, WalletCall.run, Vault.run, h.IsCrypted_eq, has, h.passphrase]
  cases hlocked : v.isLocked with
  | false => exact ⟨rfl, h.keep⟩
  | true =>
    cases p' with
    | nil => exact ⟨rfl, h.keep⟩
    | cons b p' =>
      by_cases hp : p = b :: p'
      · subst hp
        simp only [LockableWallet.Unlock, has, hlocked, h.unlockWith_right laws, Bool.not_true,
          Bool.false_or, List.length_cons, Bool.true_and, beq_self_eq_true, Bool.not_false,
          List.isEmpty_cons, if_true, Bool.false_eq_true, if_false, decide_eq_true_eq,
          Option.isSome_some]
        rw [if_neg (by omega)]
        exact ⟨rfl, .inr ⟨m, _, id, kMasterKey, h.store.unlocked.rekey _, rfl, h.masters, h.seals⟩⟩
      · have hne : v.passphrase ≠ some (b :: p') := by
          rw [h.passphrase]
          simpa using hp
        have hbeq : (some p == some (b :: p')) = false := by simpa using hp
        simp only [LockableWallet.Unlock, has, hlocked, h.unlockWith_wrong (hwrong hne),
          Bool.not_true, Bool.false_or, List.length_cons, hbeq, Bool.and_false,
          Bool.false_eq_true, if_false, decide_eq_true_eq, Option.isSome_none]
        rw [if_neg (by omega)]
        exact ⟨rfl, h.keep⟩

/-- The right passphrase: the master key is kept under the new one, and the lock is as it was. -/
theorem changed (laws : crypto.Laws) (h : SealedWallet crypto m p id kMasterKey w v)
    (pNew : SecureString) (nMeasured : ℕ) :
    (w.ChangeWalletPassphrase crypto p pNew nMeasured).1 = true ∧
      Represents crypto (w.ChangeWalletPassphrase crypto p pNew nMeasured).2
        { v with passphrase := some pNew } := by
  have hlock := h.lock
  have hrounds := deriveIterations_pos nMeasured
  have hkey := SetKeyFromPassphrase_eq (p := pNew) laws h.seals.salt hrounds
  have has := h.store.as_eq
  simp only [LockableWallet.ChangeWalletPassphrase, hlock.unlockWith_right laws, hkey]
  generalize hmade : ({ kMasterKey with
    vchCryptedKey := CCrypter.Encrypt crypto _ m
    nDeriveIterations := LockableWallet.deriveIterations nMeasured } : CMasterKey) = kNew
  have hseals : kNew.Seals crypto pNew m := by
    rw [← hmade]
    exact ⟨h.seals.salt, hrounds, rfl⟩
  generalize hw' : ({ w.lock with
    toCCryptoKeyStore := { w.lock.toCCryptoKeyStore with vMasterKey := m }
    mapMasterKeys := w.lock.mapMasterKeys.map fun e => if e.1 = id then (id, kNew) else e } :
      LockableWallet) = w'
  have hopen : SealedWallet crypto m pNew id kNew w'
      { v with passphrase := some pNew, isLocked := false } := by
    rw [← hw']
    refine ⟨hlock.store.unlocked.rekey _, rfl, ?_, hseals⟩
    simp [hlock.masters]
  refine ⟨trivial, .inr ⟨m, pNew, id, kNew, ?_⟩⟩
  cases hlocked : v.isLocked with
  | false =>
    rw [has, hlocked, if_neg Bool.false_ne_true]
    exact hlocked ▸ hopen
  | true =>
    rw [has, hlocked, if_pos rfl]
    exact hlocked ▸ hopen.lock

theorem walletpassphrasechange (laws : crypto.Laws)
    (h : SealedWallet crypto m p id kMasterKey w v) {p' pNew : SecureString} {nMeasured : ℕ}
    (hwrong : v.passphrase ≠ some p' → FitsNone crypto w p') :
    Agrees crypto (.walletpassphrasechange p' pNew nMeasured) w v := by
  have has := h.store.as_eq
  rw [Agrees, WalletCall.run, Vault.run, h.IsCrypted_eq, h.passphrase]
  cases p' with
  | nil => exact ⟨rfl, h.keep⟩
  | cons b p' =>
    cases pNew with
    | nil => exact ⟨rfl, h.keep⟩
    | cons b' pNew =>
      have hlock := h.lock
      simp only [Bool.not_true, Bool.false_or, List.length_cons, Option.isNone_some,
        List.isEmpty_cons, Bool.or_self, Bool.false_eq_true, if_false]
      rw [if_neg (by simp)]
      by_cases hp : p = b :: p'
      · subst hp
        rw [if_pos rfl]
        obtain ⟨hanswer, hnext⟩ := h.changed laws (b' :: pNew) nMeasured
        rw [hanswer]
        exact ⟨rfl, hnext⟩
      · have hne : v.passphrase ≠ some (b :: p') := by
          rw [h.passphrase]
          simpa using hp
        have hwrongLock := hlock.unlockWith_wrong (h.fitsNone_lock (hwrong hne))
        rw [if_neg (by simpa using hp)]
        simp only [LockableWallet.ChangeWalletPassphrase, hwrongLock]
        exact ⟨trivial, .inr ⟨m, p, id, kMasterKey, hlock.store.rekey _, rfl, h.masters, h.seals⟩⟩

theorem ak (h : SealedWallet crypto m p id kMasterKey w v) (key : CKey) :
    Agrees crypto (.ak key) w v := by
  cases hlocked : v.isLocked with
  | true =>
    simp only [Agrees, WalletCall.run, Vault.run, h.store.ak_locked hlocked, hlocked, if_true]
    exact ⟨trivial, h.keep⟩
  | false =>
    obtain ⟨hdone, hstore⟩ := h.store.ak_unlocked hlocked key
    simp only [Agrees, WalletCall.run, Vault.run, hdone, hlocked, Bool.false_eq_true, if_false]
    exact ⟨trivial, .inr ⟨m, p, id, kMasterKey, hstore, h.passphrase, h.masters, h.seals⟩⟩

theorem step (laws : crypto.Laws) (h : SealedWallet crypto m p id kMasterKey w v)
    (call : WalletCall) (hwrong : WrongRefused crypto call w v) : Agrees crypto call w v := by
  have hcrypted : v.passphrase.isSome = true := by rw [h.passphrase, Option.isSome_some]
  cases call with
  | ak key => exact h.ak key
  | HaveKey address =>
    exact ⟨congrArg WalletAnswer.done (h.store.HaveKey_eq address), h.keep⟩
  | GetKey address =>
    exact ⟨congrArg WalletAnswer.key (h.store.GetKey_eq laws address), h.keep⟩
  | GetPubKey address =>
    exact ⟨congrArg WalletAnswer.pubKey (h.store.GetPubKey_eq address), h.keep⟩
  | encryptwallet strWalletPass draw =>
    simp only [Agrees, WalletCall.run, Vault.run, h.IsCrypted_eq, hcrypted, Bool.true_or, if_true]
    exact ⟨trivial, h.keep⟩
  | walletpassphrase strWalletPass => exact h.walletpassphrase laws hwrong
  | walletlock =>
    simp only [Agrees, WalletCall.run, Vault.run, h.IsCrypted_eq, hcrypted, Bool.not_true,
      Bool.false_eq_true, if_false, if_true]
    exact ⟨trivial, h.lock.keep⟩
  | walletpassphrasechange strOldWalletPass strNewWalletPass nMeasured =>
    exact h.walletpassphrasechange laws hwrong
  | walletlockstatus =>
    refine ⟨?_, h.keep⟩
    simp only [WalletCall.run, Vault.run, h.IsCrypted_eq, hcrypted, h.store.as_eq]

end SealedWallet

namespace PlainWallet

variable {w : LockableWallet} {v : Vault}

theorem IsCrypted_eq (h : PlainWallet crypto w v) : w.IsCrypted = false := h.crypted

def sealedKeys (crypto : KeyCrypto) (m : CKeyingMaterial) (s : CCryptoKeyStore) : CCryptoKeyStore :=
  { s with
    mapKeys := .empty
    mapCryptedKeys := s.mapKeys.entries.foldl (fun M e =>
      M.insert (crypto.GetID (crypto.GetPubKey e.2)) (sealedEntry crypto m e.2)) s.mapCryptedKeys
    fUseCrypto := true }

theorem EncryptKeys_eq (h : PlainWallet crypto w v) (hm : m.length = WALLET_CRYPTO_KEY_SIZE) :
    w.toCCryptoKeyStore.EncryptKeys crypto m = (true, sealedKeys crypto m w.toCCryptoKeyStore) := by
  have hplain := h.IsCrypted_eq
  rw [CCryptoKeyStore.EncryptKeys, h.noneSealed, hplain, if_neg (by simp), encryptEach_eq hm _ rfl]
  rfl

theorem sealed (h : PlainWallet crypto w v) (hm : m.length = WALLET_CRYPTO_KEY_SIZE) :
    SealedStore crypto m (sealedKeys crypto m w.toCCryptoKeyStore) { v with isLocked := true } := by
  refine ⟨rfl, rfl, hm, h.noMaster.1, fun id => ?_⟩
  have hnamed : ∀ e ∈ w.mapKeys.entries, crypto.GetID (crypto.GetPubKey e.2) = e.1 := fun e he =>
    h.named e.1 e.2 ((OrdMap.lookup_eq_some_of_ordered w.mapKeys.ordered).mpr he)
  have hempty : w.mapCryptedKeys.find id = none := by
    rw [OrdMap.find, h.noneSealed]
    rfl
  have hkeys : w.mapKeys.entries.lookup id = v.keys id := h.keys id
  rw [sealedKeys, find_sealed w.mapKeys.ordered hnamed, hempty, hkeys, Option.or_none]

def newMasterKey (crypto : KeyCrypto) (p : SecureString) (draw : EncryptionDraw) : CMasterKey :=
  let nDeriveIterations := LockableWallet.deriveIterations draw.nDeriveIterations
  let (chKey, chIV) := crypto.BytesToKey p draw.vchSalt nDeriveIterations
  ⟨crypto.encrypt chKey chIV draw.vMasterKey, draw.vchSalt, nDeriveIterations⟩

/-- The wallet between its encryption and its new pool of keys. -/
def justEncrypted (crypto : KeyCrypto) (p : SecureString) (draw : EncryptionDraw)
    (w : LockableWallet) : LockableWallet :=
  { sealedKeys crypto draw.vMasterKey w.toCCryptoKeyStore with
    mapMasterKeys := w.mapMasterKeys ++ [(w.nMasterKeyMaxID + 1, newMasterKey crypto p draw)]
    nMasterKeyMaxID := w.nMasterKeyMaxID + 1 }

/-- Encryption leaves every key behind the passphrase, and none in the clear. -/
theorem encryptwallet (laws : crypto.Laws) (h : PlainWallet crypto w v) {p : SecureString}
    (hp : p ≠ []) (draw : EncryptionDraw) : Agrees crypto (.encryptwallet p draw) w v := by
  obtain ⟨hpassphrase, hlocked⟩ := h.plain
  have hrounds := deriveIterations_pos draw.nDeriveIterations
  have hkey := SetKeyFromPassphrase_eq (p := p) laws draw.saltSize hrounds
  have hmade : w.EncryptWallet crypto p draw = some (true,
      (((justEncrypted crypto p draw w).lock.Unlock crypto p).2.addKeys crypto
        draw.keyPool).lock) := by
    simp only [LockableWallet.EncryptWallet, h.IsCrypted_eq, Bool.false_eq_true, if_false, hkey,
      h.EncryptKeys_eq draw.masterSize]
    rfl
  have hsealed : SealedWallet crypto draw.vMasterKey p (w.nMasterKeyMaxID + 1)
      (newMasterKey crypto p draw) (justEncrypted crypto p draw w)
      { v with passphrase := some p, isLocked := true } := by
    refine ⟨(h.sealed draw.masterSize).rekey _, rfl, ?_, draw.saltSize, hrounds, rfl⟩
    rw [justEncrypted, h.noMaster.2]
    rfl
  have hlock := hsealed.lock
  have hopen : SealedStore crypto draw.vMasterKey
      ((justEncrypted crypto p draw w).lock.Unlock crypto p).2.toCCryptoKeyStore
      { v with passphrase := some p, isLocked := false } := by
    have has := hlock.store.as_eq
    simp only [LockableWallet.Unlock, has, hlock.unlockWith_right laws, Bool.not_true,
      Bool.false_eq_true, if_false]
    exact hlock.store.unlocked
  have hmasters : ((justEncrypted crypto p draw w).lock.Unlock crypto p).2.mapMasterKeys =
      (justEncrypted crypto p draw w).mapMasterKeys := by
    rw [LockableWallet.Unlock]
    split
    · rfl
    · rfl
  have hadded := hopen.addKeys rfl draw.keyPool
  have hcall : Vault.run crypto (.encryptwallet p draw) v = (.done true,
      { draw.keyPool.foldl (Vault.put crypto) { v with passphrase := some p, isLocked := false } with
        isLocked := true }) := by
    have hne : p.isEmpty = false := by simpa using hp
    simp only [Vault.run, hpassphrase, hne, Option.isSome_none, Bool.or_self, Bool.false_eq_true,
      if_false, SealedStore.foldl_put]
  have hlength : ¬p.length < 1 := by
    rw [Nat.not_lt, Nat.one_le_iff_ne_zero]
    exact fun hzero => hp (List.length_eq_zero_iff.mp hzero)
  rw [Agrees, hcall]
  simp only [WalletCall.run, h.IsCrypted_eq, Bool.false_or, hlength, decide_false,
    Bool.false_eq_true, if_false, hmade]
  refine ⟨trivial, .inr ⟨draw.vMasterKey, p, _, _, ?_, ?_, hmasters.trans hsealed.masters,
    hsealed.seals⟩⟩
  · exact hadded.Lock
  · rw [SealedStore.foldl_put]

theorem step (laws : crypto.Laws) (h : PlainWallet crypto w v) (call : WalletCall) :
    Agrees crypto call w v := by
  have hplain := h.IsCrypted_eq
  have hunlocked : w.as = false := by simp [CCryptoKeyStore.as, hplain]
  obtain ⟨hpassphrase, hlocked⟩ := h.plain
  cases call with
  | ak key =>
    simp only [Agrees, WalletCall.run, Vault.run, CCryptoKeyStore.ak, hplain, hlocked,
      Bool.not_false, if_true, Bool.false_eq_true, if_false]
    refine ⟨trivial, .inl ⟨h.crypted, h.noneSealed, h.noMaster, fun id => ?_, ?_, h.plain⟩⟩
    · simp only [OrdMap.find_insert, h.keys, Vault.put, Function.update_apply]
    · intro id key' hfind
      rw [OrdMap.find_insert] at hfind
      split at hfind
      · rename_i hid
        rw [hid, ← Option.some.inj hfind]
      · exact h.named id key' hfind
  | HaveKey address =>
    simp only [Agrees, WalletCall.run, Vault.run, CCryptoKeyStore.HaveKey, hplain, h.keys,
      Bool.not_false, if_true]
    exact ⟨trivial, .inl h⟩
  | GetKey address =>
    simp only [Agrees, WalletCall.run, Vault.run, CCryptoKeyStore.GetKey, hplain, h.keys, hlocked,
      Bool.not_false, if_true, Bool.false_eq_true, if_false]
    exact ⟨trivial, .inl h⟩
  | GetPubKey address =>
    simp only [Agrees, WalletCall.run, Vault.run, CCryptoKeyStore.GetPubKey, hplain, h.keys,
      Bool.not_false, if_true]
    exact ⟨trivial, .inl h⟩
  | encryptwallet strWalletPass draw =>
    cases strWalletPass with
    | nil =>
      simp only [Agrees, WalletCall.run, Vault.run, hplain, List.length_nil, List.isEmpty_nil,
        Bool.or_true, if_true, Nat.lt_one_iff, decide_true]
      exact ⟨trivial, .inl h⟩
    | cons b p => exact h.encryptwallet laws (List.cons_ne_nil b p) draw
  | walletpassphrase strWalletPass =>
    simp only [Agrees, WalletCall.run, Vault.run, hplain, hlocked, Bool.not_false, Bool.true_or,
      Bool.false_and, if_true, Bool.false_eq_true, if_false]
    exact ⟨trivial, .inl h⟩
  | walletlock =>
    simp only [Agrees, WalletCall.run, Vault.run, hplain, hpassphrase, Bool.not_false, if_true,
      Option.isSome_none, Bool.false_eq_true, if_false]
    exact ⟨trivial, .inl h⟩
  | walletpassphrasechange strOldWalletPass strNewWalletPass nMeasured =>
    simp only [Agrees, WalletCall.run, Vault.run, hplain, hpassphrase, Bool.not_false, Bool.true_or,
      Option.isNone_none, if_true]
    exact ⟨trivial, .inl h⟩
  | walletlockstatus =>
    refine ⟨?_, .inl h⟩
    simp only [WalletCall.run, Vault.run, hplain, hunlocked, hpassphrase, hlocked,
      Option.isSome_none]

end PlainWallet

theorem Represents.step (laws : crypto.Laws) {w : LockableWallet} {v : Vault}
    (h : Represents crypto w v) (call : WalletCall) (hwrong : WrongRefused crypto call w v) :
    Agrees crypto call w v := by
  rcases h with h | ⟨m, p, id, kMasterKey, h⟩
  · exact h.step laws call
  · exact h.step laws call hwrong

theorem represents_new : Represents crypto .new .empty := by
  refine .inl ⟨rfl, rfl, ⟨rfl, rfl⟩, fun _ => rfl, ?_, ⟨rfl, rfl⟩⟩
  intro id key hfind
  cases hfind

end Cipher

/-- Every run of calls on a new wallet gets the answers of a vault: the keys that were added come
back as they were, from a locked wallet none of them, and only the last passphrase opens it. At the
end no key of an encrypted wallet is in the clear, and the master key is in memory only while the
wallet is encrypted and open. What the cipher has to grant for this is that a wrong passphrase does
not happen to decrypt a master key that fits the keys. -/
theorem wallet_refines_vault {crypto : KeyCrypto} (laws : crypto.Laws) {calls : List WalletCall}
    (hwrong : Simulation.AlongBoth (WalletCall.run crypto) (Vault.run crypto)
      (WrongRefused crypto) calls .new .empty) :
    (Simulation.trace (WalletCall.run crypto) calls .new).1 =
        (Simulation.trace (Vault.run crypto) calls .empty).1 ∧
      ∀ w, w = (Simulation.trace (WalletCall.run crypto) calls .new).2 →
        (w.IsCrypted = true → w.mapKeys.entries = []) ∧
        (w.IsCrypted = false → w.mapCryptedKeys.entries = []) ∧
        (w.vMasterKey = [] ↔ (w.IsCrypted = false ∨ w.as = true)) := by
  obtain ⟨hanswers, hlast⟩ := hwrong.trace_eq
    (fun call w v hw hcall => hw.step laws call hcall) represents_new
  refine ⟨hanswers, fun w hw => ?_⟩
  rw [← hw] at hlast
  rcases hlast with hplain | ⟨m, p, id, kMasterKey, hsealed⟩
  · have hno := hplain.IsCrypted_eq
    simp [hno, hplain.noneSealed, hplain.noMaster.1]
  · have hyes := hsealed.IsCrypted_eq
    simp [hyes, hsealed.store.noneClear, CCryptoKeyStore.as]

namespace Scenario

/-- A cipher that puts the key in front of the plaintext. -/
def openCipher : KeyCrypto where
  GetPubKey key := (if key.fCompressed then [2] else [4, 4]) ++ key.vchSecret
  GetID := byteCode
  GetHash _ := 0
  BytesToKey passphrase _ _ := ((passphrase ++ List.replicate 32 0).take 32, [])
  encrypt key _ plain := key ++ plain
  decrypt key _ cipher := if key.isPrefixOf cipher then some (cipher.drop key.length) else none

theorem openCipher_laws : openCipher.Laws where
  decrypt_encrypt key iv plain := by simp [openCipher]
  derived passphrase salt n := by simp [openCipher, WALLET_CRYPTO_KEY_SIZE]
  compressed key := by
    have hsize := key.size
    cases hc : key.fCompressed <;> simp [openCipher, hc, hsize]

def someKey : CKey := ⟨List.replicate 32 7, true, rfl⟩

def someDraw : EncryptionDraw := ⟨List.replicate 32 9, rfl, List.replicate 8 1, rfl, 0, []⟩

/-- A key is added, the wallet is encrypted, and it is opened on the second attempt. -/
def openedCalls : List WalletCall :=
  [.ak someKey, .encryptwallet [1] someDraw, .GetKey (byteCode (openCipher.GetPubKey someKey)),
    .walletpassphrase [2], .walletpassphrase [1],
    .GetKey (byteCode (openCipher.GetPubKey someKey))]

def fitsNoneTest (w : LockableWallet) (p : SecureString) : Bool :=
  w.mapMasterKeys.all fun e => (e.2.open openCipher p).all fun m => !w.fits openCipher m

theorem fitsNone_of_test {w : LockableWallet} {p : SecureString} (h : fitsNoneTest w p = true) :
    FitsNone openCipher w p := by
  intro e he m hopen
  have hall := List.all_eq_true.mp h e he
  rw [hopen] at hall
  simpa using hall

theorem wallet_refines_vault_opened :
    (Simulation.trace (WalletCall.run openCipher) openedCalls .new).1 =
      [.done true, .done true, .key none, .done false, .done true, .key (some someKey)] := by
  have hwrong : Simulation.AlongBoth (WalletCall.run openCipher) (Vault.run openCipher)
      (WrongRefused openCipher) openedCalls .new .empty :=
    ⟨trivial, trivial, trivial, fun _ => fitsNone_of_test (by decide +kernel),
      fun hne => absurd rfl hne, trivial, trivial⟩
  rw [(wallet_refines_vault openCipher_laws hwrong).1]
  decide +kernel

end Scenario

end Dions
