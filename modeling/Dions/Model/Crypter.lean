import Dions.Library.Wire
import Dions.Model.KeyStore

/-! # The encrypted wallet

`CCrypter`, the key store that keeps its keys in the clear or encrypted under a master key, and the
wallet around it, which keeps the master key encrypted under a passphrase. -/

namespace Dions

open LittleEndian

def WALLET_CRYPTO_KEY_SIZE : ℕ := 32
def WALLET_CRYPTO_SALT_SIZE : ℕ := 8

abbrev CKeyingMaterial := List UInt8

abbrev SecureString := List UInt8

/-- A private key. `GetSecret` always returns 32 bytes. -/
structure CKey where
  vchSecret : CSecret
  fCompressed : Bool
  size : vchSecret.length = 32
  deriving DecidableEq

/-- The curve, the hashes and the cipher. -/
structure KeyCrypto where
  GetPubKey : CKey → CPubKey
  GetID : CPubKey → CKeyID
  GetHash : CPubKey → uint256
  /-- `EVP_BytesToKey` for a passphrase, a salt and a number of rounds: the key and the vector. -/
  BytesToKey : SecureString → List UInt8 → ℕ → CKeyingMaterial × List UInt8
  /-- AES in CBC mode, with the key, the vector and the plaintext. -/
  encrypt : CKeyingMaterial → List UInt8 → List UInt8 → List UInt8
  decrypt : CKeyingMaterial → List UInt8 → List UInt8 → Option (List UInt8)

/-! ## CCrypter -/

structure CCrypter where
  chKey : CKeyingMaterial
  chIV : List UInt8

variable (crypto : KeyCrypto)

namespace CCrypter

/-- An answer `false` is `none`; the parameter `nDerivationMethod` is not looked at. -/
def SetKeyFromPassphrase (strKeyData : SecureString) (chSalt : List UInt8) (nRounds : ℕ) :
    Option CCrypter :=
  if nRounds < 1 ∨ chSalt.length ≠ WALLET_CRYPTO_SALT_SIZE then none
  else
    let (chKey, chIV) := crypto.BytesToKey strKeyData chSalt nRounds
    if chKey.length ≠ WALLET_CRYPTO_KEY_SIZE then none else some ⟨chKey, chIV⟩

def SetKey (chNewKey : CKeyingMaterial) (chNewIV : List UInt8) : Option CCrypter :=
  if chNewKey.length ≠ WALLET_CRYPTO_KEY_SIZE ∨ chNewIV.length ≠ WALLET_CRYPTO_KEY_SIZE then none
  else some ⟨chNewKey, chNewIV⟩

def Encrypt (c : CCrypter) (vchPlaintext : List UInt8) : List UInt8 :=
  crypto.encrypt c.chKey c.chIV vchPlaintext

def Decrypt (c : CCrypter) (vchCiphertext : List UInt8) : Option (List UInt8) :=
  crypto.decrypt c.chKey c.chIV vchCiphertext

end CCrypter

def EncryptSecret (vMasterKey : CKeyingMaterial) (vchPlaintext : CSecret) (nIV : uint256) :
    Option (List UInt8) :=
  (CCrypter.SetKey vMasterKey (toBytes WALLET_CRYPTO_KEY_SIZE nIV)).map fun c =>
    c.Encrypt crypto vchPlaintext

def DecryptSecret (vMasterKey : CKeyingMaterial) (vchCiphertext : List UInt8) (nIV : uint256) :
    Option CSecret :=
  (CCrypter.SetKey vMasterKey (toBytes WALLET_CRYPTO_KEY_SIZE nIV)).bind fun c =>
    c.Decrypt crypto vchCiphertext

/-! ## The key store -/

structure CCryptoKeyStore where
  mapKeys : OrdMap CKeyID CKey
  mapCryptedKeys : OrdMap CKeyID (CPubKey × List UInt8)
  vMasterKey : CKeyingMaterial
  fUseCrypto : Bool

namespace CCryptoKeyStore

variable (s : CCryptoKeyStore)

def new : CCryptoKeyStore := ⟨.empty, .empty, [], false⟩

def IsCrypted : Bool := s.fUseCrypto

/-- Whether the store is locked. -/
def as : Bool := s.IsCrypted && s.vMasterKey.isEmpty

def SetCrypted : Option CCryptoKeyStore :=
  if s.fUseCrypto then some s
  else if s.mapKeys.entries.isEmpty then some { s with fUseCrypto := true }
  else none

def Lock : Bool × CCryptoKeyStore :=
  match s.SetCrypted with
  | none => (false, s)
  | some s => (true, { s with vMasterKey := [] })

/-- The key behind an entry: its compression follows the size of its public key. -/
def openKey (vMasterKey : CKeyingMaterial) (vchPubKey : CPubKey) (vchCryptedSecret : List UInt8) :
    Option CKey :=
  match DecryptSecret crypto vMasterKey vchCryptedSecret (crypto.GetHash vchPubKey) with
  | none => none
  | some vchSecret =>
    if h : vchSecret.length = 32 then some ⟨vchSecret, vchPubKey.length == 33, h⟩ else none

/-- The master key is tried on the first of the keys only. -/
def fits (vMasterKeyIn : CKeyingMaterial) : Bool :=
  match s.mapCryptedKeys.entries.head? with
  | none => true
  | some (_, vchPubKey, vchCryptedSecret) =>
    match openKey crypto vMasterKeyIn vchPubKey vchCryptedSecret with
    | none => false
    | some key => crypto.GetPubKey key == vchPubKey

def Unlock (vMasterKeyIn : CKeyingMaterial) : Bool × CCryptoKeyStore :=
  match s.SetCrypted with
  | none => (false, s)
  | some s =>
    if s.fits crypto vMasterKeyIn then (true, { s with vMasterKey := vMasterKeyIn }) else (false, s)

def sync (vchPubKey : CPubKey) (vchCryptedSecret : List UInt8) : Bool × CCryptoKeyStore :=
  match s.SetCrypted with
  | none => (false, s)
  | some s =>
    (true, { s with mapCryptedKeys :=
      s.mapCryptedKeys.insert (crypto.GetID vchPubKey) (vchPubKey, vchCryptedSecret) })

/-- `AddKey`. -/
def ak (key : CKey) : Bool × CCryptoKeyStore :=
  let vchPubKey := crypto.GetPubKey key
  if !s.IsCrypted then (true, { s with mapKeys := s.mapKeys.insert (crypto.GetID vchPubKey) key })
  else if s.as then (false, s)
  else
    match EncryptSecret crypto s.vMasterKey key.vchSecret (crypto.GetHash vchPubKey) with
    | none => (false, s)
    | some vchCryptedSecret => s.sync crypto vchPubKey vchCryptedSecret

def HaveKey (address : CKeyID) : Bool :=
  if !s.IsCrypted then (s.mapKeys.find address).isSome else (s.mapCryptedKeys.find address).isSome

def GetKey (address : CKeyID) : Option CKey :=
  if !s.IsCrypted then s.mapKeys.find address
  else
    match s.mapCryptedKeys.find address with
    | none => none
    | some (vchPubKey, vchCryptedSecret) => openKey crypto s.vMasterKey vchPubKey vchCryptedSecret

def GetPubKey (address : CKeyID) : Option CPubKey :=
  if !s.IsCrypted then (s.mapKeys.find address).map crypto.GetPubKey
  else (s.mapCryptedKeys.find address).map Prod.fst

/-- The loop over the keys, up to one that cannot be encrypted. -/
def encryptEach (vMasterKeyIn : CKeyingMaterial) :
    List (CKeyID × CKey) → CCryptoKeyStore → Bool × CCryptoKeyStore
  | [], s => (true, s)
  | (_, key) :: keys, s =>
    let vchPubKey := crypto.GetPubKey key
    match EncryptSecret crypto vMasterKeyIn key.vchSecret (crypto.GetHash vchPubKey) with
    | none => (false, s)
    | some vchCryptedSecret =>
      match s.sync crypto vchPubKey vchCryptedSecret with
      | (false, s) => (false, s)
      | (true, s) => encryptEach vMasterKeyIn keys s

def EncryptKeys (vMasterKeyIn : CKeyingMaterial) : Bool × CCryptoKeyStore :=
  if !s.mapCryptedKeys.entries.isEmpty || s.IsCrypted then (false, s)
  else
    match encryptEach crypto vMasterKeyIn s.mapKeys.entries { s with fUseCrypto := true } with
    | (false, s) => (false, s)
    | (true, s) => (true, { s with mapKeys := .empty })

end CCryptoKeyStore

/-! ## The wallet -/

structure CMasterKey where
  vchCryptedKey : List UInt8
  vchSalt : List UInt8
  nDeriveIterations : ℕ

/-- The master key that a passphrase decrypts. -/
def CMasterKey.open (kMasterKey : CMasterKey) (strWalletPassphrase : SecureString) :
    Option CKeyingMaterial :=
  (CCrypter.SetKeyFromPassphrase crypto strWalletPassphrase kMasterKey.vchSalt
    kMasterKey.nDeriveIterations).bind fun c => c.Decrypt crypto kMasterKey.vchCryptedKey

/-- The wallet as far as its keys go, with `mapMasterKeys` in its order. -/
structure LockableWallet extends CCryptoKeyStore where
  mapMasterKeys : List (ℕ × CMasterKey)
  nMasterKeyMaxID : ℕ

/-- What chance and the clock decide when a wallet is encrypted, and the keys of the new pool. -/
structure EncryptionDraw where
  vMasterKey : CKeyingMaterial
  masterSize : vMasterKey.length = WALLET_CRYPTO_KEY_SIZE
  vchSalt : List UInt8
  saltSize : vchSalt.length = WALLET_CRYPTO_SALT_SIZE
  /-- The number of rounds that takes about a tenth of a second. -/
  nDeriveIterations : ℕ
  keyPool : List CKey

namespace LockableWallet

variable (w : LockableWallet)

def new : LockableWallet := { CCryptoKeyStore.new with mapMasterKeys := [], nMasterKeyMaxID := 0 }

/-- `nDeriveIterations`, raised to its least value. -/
def deriveIterations (nMeasured : ℕ) : ℕ := if nMeasured < 25000 then 25000 else nMeasured

/-- The loop over the master keys. It ends with one that cannot be decrypted. -/
def unlockWith (strWalletPassphrase : SecureString) :
    List (ℕ × CMasterKey) → CCryptoKeyStore → Option (ℕ × CMasterKey × CKeyingMaterial) × CCryptoKeyStore
  | [], s => (none, s)
  | (id, kMasterKey) :: rest, s =>
    match kMasterKey.open crypto strWalletPassphrase with
    | none => (none, s)
    | some vMasterKey =>
      match s.Unlock crypto vMasterKey with
      | (true, s) => (some (id, kMasterKey, vMasterKey), s)
      | (false, s) => unlockWith strWalletPassphrase rest s

def Unlock (strWalletPassphrase : SecureString) : Bool × LockableWallet :=
  if !w.as then (false, w)
  else
    let (found, s) := unlockWith crypto strWalletPassphrase w.mapMasterKeys w.toCCryptoKeyStore
    (found.isSome, { w with toCCryptoKeyStore := s })

def lock : LockableWallet := { w with toCCryptoKeyStore := w.toCCryptoKeyStore.Lock.2 }

/-- The keys of a new pool. -/
def addKeys (keys : List CKey) : LockableWallet :=
  { w with toCCryptoKeyStore :=
      keys.foldl (fun s key => (s.ak crypto key).2) w.toCCryptoKeyStore }

/-- A wallet whose keys are encrypted half is given up with the process, and `none` is the answer. -/
def EncryptWallet (strWalletPassphrase : SecureString) (draw : EncryptionDraw) :
    Option (Bool × LockableWallet) :=
  if w.IsCrypted then some (false, w)
  else
    let nDeriveIterations := deriveIterations draw.nDeriveIterations
    match CCrypter.SetKeyFromPassphrase crypto strWalletPassphrase draw.vchSalt nDeriveIterations with
    | none => some (false, w)
    | some c =>
      let kMasterKey : CMasterKey :=
        { vchCryptedKey := c.Encrypt crypto draw.vMasterKey
          vchSalt := draw.vchSalt
          nDeriveIterations := nDeriveIterations }
      match w.toCCryptoKeyStore.EncryptKeys crypto draw.vMasterKey with
      | (false, _) => none
      | (true, s) =>
        let w : LockableWallet :=
          { s with
            mapMasterKeys := w.mapMasterKeys ++ [(w.nMasterKeyMaxID + 1, kMasterKey)]
            nMasterKeyMaxID := w.nMasterKeyMaxID + 1 }
        let w := (w.lock.Unlock crypto strWalletPassphrase).2
        some (true, (w.addKeys crypto draw.keyPool).lock)

/-- The master key is encrypted under the new passphrase, with a number of rounds measured anew. -/
def ChangeWalletPassphrase (strOldWalletPassphrase strNewWalletPassphrase : SecureString)
    (nMeasured : ℕ) : Bool × LockableWallet :=
  let fWasLocked := w.as
  let w := w.lock
  match unlockWith crypto strOldWalletPassphrase w.mapMasterKeys w.toCCryptoKeyStore with
  | (none, s) => (false, { w with toCCryptoKeyStore := s })
  | (some (id, kMasterKey, vMasterKey), s) =>
    let w := { w with toCCryptoKeyStore := s }
    let nDeriveIterations := deriveIterations nMeasured
    match CCrypter.SetKeyFromPassphrase crypto strNewWalletPassphrase kMasterKey.vchSalt
        nDeriveIterations with
    | none => (false, w)
    | some c =>
      let kMasterKey :=
        { kMasterKey with
          vchCryptedKey := c.Encrypt crypto vMasterKey
          nDeriveIterations := nDeriveIterations }
      let w := { w with mapMasterKeys := w.mapMasterKeys.map fun e =>
        if e.1 = id then (id, kMasterKey) else e }
      (true, if fWasLocked then w.lock else w)

end LockableWallet

/-! ## The calls -/

/-- The calls that reach the keys of the wallet, among them those of the RPC server. -/
inductive WalletCall where
  | ak (key : CKey)
  | HaveKey (address : CKeyID)
  | GetKey (address : CKeyID)
  | GetPubKey (address : CKeyID)
  | encryptwallet (strWalletPass : SecureString) (draw : EncryptionDraw)
  | walletpassphrase (strWalletPass : SecureString)
  | walletlock
  | walletpassphrasechange (strOldWalletPass strNewWalletPass : SecureString) (nMeasured : ℕ)
  | walletlockstatus

/-- What a call answers. An error of the RPC server is the answer `false`. -/
inductive WalletAnswer where
  | done (ret : Bool)
  | key (key : Option CKey)
  | pubKey (vchPubKey : Option CPubKey)
  | status (isEncrypted isLocked : Bool)
  /-- The process has ended. -/
  | exit
  deriving DecidableEq

/-- One call. -/
def WalletCall.run : WalletCall → LockableWallet → WalletAnswer × LockableWallet
  | ak key, w =>
    let (ret, s) := w.toCCryptoKeyStore.ak crypto key
    (.done ret, { w with toCCryptoKeyStore := s })
  | HaveKey address, w => (.done (w.HaveKey address), w)
  | GetKey address, w => (.key (w.GetKey crypto address), w)
  | GetPubKey address, w => (.pubKey (w.GetPubKey crypto address), w)
  | encryptwallet strWalletPass draw, w =>
    if w.IsCrypted || strWalletPass.length < 1 then (.done false, w)
    else
      match w.EncryptWallet crypto strWalletPass draw with
      | none => (.exit, w)
      | some (ret, w) => (.done ret, w)
  | walletpassphrase strWalletPass, w =>
    if !w.IsCrypted || !w.as || strWalletPass.length < 1 then (.done false, w)
    else
      let (ret, w) := w.Unlock crypto strWalletPass
      (.done ret, w)
  | walletlock, w => if !w.IsCrypted then (.done false, w) else (.done true, w.lock)
  | walletpassphrasechange strOldWalletPass strNewWalletPass nMeasured, w =>
    if !w.IsCrypted || strOldWalletPass.length < 1 || strNewWalletPass.length < 1 then
      (.done false, w)
    else
      let (ret, w) := w.ChangeWalletPassphrase crypto strOldWalletPass strNewWalletPass nMeasured
      (.done ret, w)
  | walletlockstatus, w => (.status w.IsCrypted w.as, w)

end Dions
