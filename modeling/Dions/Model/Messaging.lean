import Dions.Model.AliasLookup
import Dions.Model.Uint256

/-! # Messages between wallets

Two wallets agree on a key of AES in outputs `OP_PUBLIC_KEY`, and send each other texts under it in
outputs `OP_ENCRYPTED_MESSAGE`. What a wallet knows of the exchange is what stands in its
transactions and in the metadata of its own keys. -/

namespace Dions

open Halting LittleEndian

/-- A pair of keys in their text form: the private one, and the public one. -/
structure RSAKey where
  domainImage : vchType
  codomainImage : vchType
  deriving DecidableEq

/-- The ciphers and the signatures, beside what validation asks for. -/
structure MessageEnv extends Env where
  Hash : List UInt8 → uint256
  /-- `RSA_public_encrypt` with a public key in its text form, and the padding that is drawn. -/
  publicEncrypt : (rsaPubKey padding message : List UInt8) → Option (List UInt8)
  /-- `RSA_private_decrypt`; `-1` is `none`. -/
  privateDecrypt : (rsaPrivKey encrypted : List UInt8) → Option (List UInt8)
  /-- AES in CBC mode, with a key of 32 bytes and a vector of 16 bytes. -/
  encrypt : (key iv plaintext : List UInt8) → List UInt8
  decrypt : (key iv ciphertext : List UInt8) → Option (List UInt8)
  /-- `SignCompact` with the key of an address, over the hash of the serialized text. -/
  SignCompact : CKeyID → vchType → Option (List UInt8)

def RPC_WALLET_ERROR : ℤ := -4
def RPC_INVALID_ADDRESS_OR_KEY : ℤ := -5

/-- Why a call ends early. -/
inductive MessageStop where
  | JSONRPCError (code : ℤ) (message : String)
  | undefined
  /-- The cipher ends the process. -/
  | abort
  deriving DecidableEq

/-- The metadata of a key. There is no entry of `m` where the text is empty. -/
structure MessageKeys where
  patch : Option RSAKey
  m : vchType → vchType

/-- An unlocked wallet. -/
structure MessagingWallet where
  /-- Whether `GetKey` finds the key. -/
  GetKey : CKeyID → Bool
  kd : CKeyID → MessageKeys
  mapWallet : OrdMap uint256 CTransaction

/-- How a call ends: with a value, or early, and with the wallet that it leaves. -/
abbrev Messaging (α : Type) := Except (MessageStop × MessagingWallet) α

/-! ## The ciphers -/

section Ciphers

variable (env : MessageEnv)

/-- Where the encryption fails, as many bytes as `-1` says are written in base 64. -/
def EncryptMessage (rsaPubKey message padding : vchType) : Except MessageStop vchType :=
  match env.publicEncrypt rsaPubKey padding message with
  | none => .error .undefined
  | some encrypted => .ok (EncodeBase64 encrypted)

/-- The text is what stands in front of the first zero byte; `none` leaves it alone. -/
def DecryptMessage (rsaPrivKey encrypted : vchType) : Option vchType :=
  (env.privateDecrypt rsaPrivKey (DecodeBase64 (c_str encrypted)).1).map c_str

/-- The encrypted message, and the vector that was drawn. -/
def EncryptMessageAES (message key iv128 : vchType) : Except MessageStop (vchType × vchType) :=
  if key.length < 32 then .error .undefined
  else .ok (EncodeBase64 (env.encrypt (key.take 32) iv128 message), EncodeBase64 iv128)

def DecryptMessageAES (encryptedMsg key iv128Base64 : vchType) : Except MessageStop vchType :=
  let msg := (DecodeBase64 (c_str encryptedMsg)).1
  let iv128 := (DecodeBase64 (c_str iv128Base64)).1
  if key.length < 32 ∨ iv128.length < 16 then .error .undefined
  else
    match env.decrypt (key.take 32) (iv128.take 16) msg with
    | none => .error .abort
    | some plain => .ok plain

end Ciphers

/-! ## Addresses -/

section Addresses

variable (env : MessageEnv)

def cba.GetKeyID (a : CBase58Data) : Option CKeyID :=
  match cba.Get env.fTestNet a with
  | .CKeyID id => some id
  | _ => none

def AddressToHash160 (psz : vchType) : Option uint160 :=
  match DecodeBase58Check env.Hash (c_str psz) with
  | none | some [] => none
  | some (nVersion :: vch) =>
    if vch.length = 20 ∧ nVersion =
      (if env.fTestNet then cba.PUBKEY_ADDRESS_TEST else cba.PUBKEY_ADDRESS)
    then some (uint160OfVch vch) else none

/-- An address, or the address on record under an alias. The four negative answers are one. -/
def checkAddress (ln1Db : AliasDb) (addr : vchType) : Option CBase58Data :=
  let address := cba.ofString env.Hash addr
  if cba.IsValid env.fTestNet address then some address
  else
    match aliasRecord ln1Db (addr.map base_uint.tolower) with
    | none => none
    | some txPos =>
      let address := cba.ofString env.Hash txPos.vAddress
      if cba.IsValid env.fTestNet address then some address else none

end Addresses

/-! ## Transactions of the wallet -/

/-- The five arguments of an output. The fourth is an encrypted key, or the vector of a message. -/
structure MessageUpdate where
  vchSender : vchType
  vchRecipient : vchType
  vchKey : vchType
  vchFourth : vchType
  vchSignature : vchType
  deriving DecidableEq

/-- What `GetPublicKeyUpdate` and `GetEncryptedMessageUpdate` share. -/
def messageUpdate (op : ℕ) (tx : CTransaction) : Exec (Option MessageUpdate) :=
  if tx.nVersion ≠ CTransaction.DION_TX_VERSION then .ok none
  else
    let t := aliasTx tx
    if t.ret ∧ t.op = some op then do
      let vchSender ← read t.vvch 0
      let vchRecipient ← read t.vvch 1
      let vchKey ← read t.vvch 2
      let vchFourth ← read t.vvch 3
      let vchSignature ← read t.vvch 4
      .ok (some ⟨vchSender, vchRecipient, vchKey, vchFourth, vchSignature⟩)
    else .ok none

/-- The output with its signature over the third and the fourth argument, in front of the script
that pays to the recipient. -/
def messageScript (op : ℕ) (drops : List ℕ) (myAddress f third fourth : vchType)
    (vchSig : List UInt8) (hash160 : uint160) : CScript :=
  writePrefix op [myAddress, f, third, fourth, EncodeBase64 vchSig] drops ++
    SetBitcoinAddress (toBytes 20 hash160)

def GetPublicKeyUpdate : CTransaction → Exec (Option MessageUpdate) := messageUpdate OP_PUBLIC_KEY

def GetEncryptedMessageUpdate : CTransaction → Exec (Option MessageUpdate) :=
  messageUpdate OP_ENCRYPTED_MESSAGE

/-- A read past the end of the arguments has no defined meaning. -/
def defined {α : Type} : Exec α → Except MessageStop α
  | .ok a => .ok a
  | .error _ => .error .undefined

/-- The walk through the transactions, to the first one that matches. -/
def importedPubKey (myAddress fKey : vchType) :
    List (uint256 × CTransaction) → Except MessageStop (Option (vchType × vchType))
  | [] => .ok none
  | (_, tx) :: rest => do
    let update ← defined (GetPublicKeyUpdate tx)
    match update with
    | none => importedPubKey myAddress fKey rest
    | some u =>
      if u.vchRecipient = myAddress ∧ u.vchSender = fKey then .ok (some (u.vchKey, u.vchFourth))
      else importedPubKey myAddress fKey rest

namespace MessagingWallet

variable (env : MessageEnv) (w : MessagingWallet)

/-- The public key, and the encrypted key beside it. -/
def getImportedPubKey (myAddress fKey : vchType) :
    Except MessageStop (Option (vchType × vchType)) :=
  importedPubKey myAddress fKey w.mapWallet.entries

/-! ## The metadata of the keys -/

def envCP0 (id : CKeyID) : Option vchType := (w.kd id).patch.map RSAKey.domainImage

def envCP1 (id : CKeyID) : Option vchType := (w.kd id).patch.map RSAKey.codomainImage

/-- A pair is drawn once. -/
def SetRSAMetadata (id : CKeyID) (drawn : RSAKey) : Option MessagingWallet :=
  match (w.kd id).patch with
  | none => some { w with kd := Function.update w.kd id { w.kd id with patch := some drawn } }
  | some _ => none

def aes_ (id : CKeyID) (f : vchType) : Option vchType :=
  if (w.kd id).m f ≠ [] then some ((w.kd id).m f) else none

def aes (id : CKeyID) (f aes256KeyBase64 : vchType) : MessagingWallet :=
  { w with
    kd := Function.update w.kd id
      { w.kd id with m := Function.update (w.kd id).m f aes256KeyBase64 } }

/-- A transaction that is already there stays as it is. -/
def AddToWallet (tx : CTransaction) : MessagingWallet :=
  let hash := tx.GetHash env.toEnv
  match w.mapWallet.find hash with
  | some _ => w
  | none => { w with mapWallet := w.mapWallet.insert hash tx }

/-! ## The calls -/

def fail {α : Type} (code : ℤ) (message : String) : Messaging α :=
  .error (.JSONRPCError code message, w)

/-- An answer that has to be there. -/
def need {α : Type} (code : ℤ) (message : String) : Option α → Messaging α
  | none => w.fail code message
  | some a => .ok a

/-- A computation that leaves the wallet alone. -/
def keeping {α : Type} : Except MessageStop α → Messaging α
  | .ok a => .ok a
  | .error e => .error (e, w)

/-- The key of the address, if the wallet has it. -/
def ownKey (text : String) (addr : CBase58Data) : Messaging CKeyID := do
  let keyID ← w.need RPC_TYPE_ERROR text (cba.GetKeyID env addr)
  if w.GetKey keyID then .ok keyID else w.fail RPC_WALLET_ERROR "Private key not available"

/-- The two keys of the pair that is drawn for the address. -/
def publicKey (myAddress : vchType) (drawn : RSAKey) :
    Messaging ((vchType × vchType) × MessagingWallet) := do
  let addr := cba.ofString env.Hash myAddress
  if !cba.IsValid env.fTestNet addr then w.fail RPC_TYPE_ERROR "Invalid address"
  else do
    let keyID ← w.ownKey env "Address does not refer to key" addr
    let w' ← w.need RPC_TYPE_ERROR "Failed set" (w.SetRSAMetadata keyID drawn)
    let testKey ← w'.need RPC_TYPE_ERROR "Failed load alpha" (w'.envCP1 keyID)
    let pKey ← w'.need RPC_TYPE_ERROR "Failed load beta" (w'.envCP0 keyID)
    .ok ((pKey, testKey), w')

/-- The output is paid for, and the transaction, whose hash is shown, goes into the wallet. The text
of an error is the other answer of `SendMoney__`. -/
def pay (SendMoney__ : CScript → Except String CTransaction) (scriptPubKey : CScript) :
    Messaging (CTransaction × MessagingWallet) :=
  match SendMoney__ scriptPubKey with
  | .error strError => w.fail RPC_WALLET_ERROR strError
  | .ok wtx => .ok (wtx, w.AddToWallet env wtx)

/-- The public key is signed together with the fourth argument, and sent. -/
def sendSigned (SendMoney__ : CScript → Except String CTransaction) (keyID : CKeyID)
    (myAddress f rsaPubKeyStr fourth : vchType) (hash160 : uint160) :
    Messaging ((CTransaction × vchType) × MessagingWallet) := do
  let vchSig ← w.need RPC_INVALID_ADDRESS_OR_KEY "Sign failed"
    (env.SignCompact keyID (rsaPubKeyStr ++ fourth))
  let (wtx, w') ← w.pay env SendMoney__ (messageScript OP_PUBLIC_KEY [OP_2DROP, OP_2DROP, OP_2DROP]
    myAddress f rsaPubKeyStr fourth vchSig hash160)
  .ok ((wtx, EncodeBase64 vchSig), w')

/-- The key that the wallet has of the recipient decides what is sent: a new key for AES, which the
wallet keeps for itself, or without it the letter `I`. -/
def sendPublicKey (ln1Db : AliasDb) (SendMoney__ : CScript → Except String CTransaction)
    (aes256Key padding : List UInt8) (myAddress f : vchType) :
    Messaging ((CTransaction × vchType) × MessagingWallet) := do
  let addr ← w.need RPC_TYPE_ERROR "Invalid address" (checkAddress env ln1Db myAddress)
  let aRecipient ← w.need RPC_TYPE_ERROR "Invalid recipient address" (checkAddress env ln1Db f)
  let f := aRecipient.ToString env.Hash
  let keyID ← w.ownKey env "Address does not refer to key" addr
  let rsaPubKeyStr ← w.need RPC_WALLET_ERROR "no rsa key available for address" (w.envCP1 keyID)
  let hash160 ← w.need RPC_INVALID_ADDRESS_OR_KEY "Invalid dions address" (AddressToHash160 env f)
  let imported ← w.keeping (w.getImportedPubKey myAddress f)
  match imported with
  | none => w.sendSigned env SendMoney__ keyID myAddress f rsaPubKeyStr [0x49] hash160
  | some (recipientPubKeyVch, _) => do
    let aesKeyStr := EncodeBase64 aes256Key
    let encrypted ← w.keeping (EncryptMessage env recipientPubKeyVch aesKeyStr padding)
    (w.aes keyID f aesKeyStr).sendSigned env SendMoney__ keyID myAddress f rsaPubKeyStr encrypted
      hash160

/-- The key that an address of the wallet shares with another one: its own, or else the one that
came with the public key of the other. A key that cannot be decrypted is an empty one. -/
def sharedKey (keyID : CKeyID) (myAddress fKey : vchType) : Messaging vchType :=
  match w.aes_ keyID fKey with
  | some aesBase64Plain => .ok (DecodeBase64 (c_str aesBase64Plain)).1
  | none => do
    let imported ← w.keeping (w.getImportedPubKey myAddress fKey)
    let (_, aesKeyBase64Encrypted) ← w.need RPC_WALLET_ERROR
      "No local symmetric key and no imported symmetric key found for recipient" imported
    let privRSAKey ← w.need RPC_TYPE_ERROR "Failed to retrieve private RSA key" (w.envCP0 keyID)
    let decryptedAESKeyBase64 := (DecryptMessage env privRSAKey aesKeyBase64Encrypted).getD []
    .ok (DecodeBase64 (c_str decryptedAESKeyBase64)).1

/-- The call with all of its three parameters. -/
def sendMessage (SendMoney__ : CScript → Except String CTransaction) (iv128 : List UInt8)
    (myAddress strMessage f : vchType) : Messaging (CTransaction × MessagingWallet) := do
  let recipientAddr := cba.ofString env.Hash f
  if !cba.IsValid env.fTestNet recipientAddr then w.fail RPC_TYPE_ERROR "Invalid recipient address"
  else do
    let _ ← w.need RPC_TYPE_ERROR "recipientAddr does not refer to key"
      (cba.GetKeyID env recipientAddr)
    let senderAddr := cba.ofString env.Hash myAddress
    if !cba.IsValid env.fTestNet senderAddr then w.fail RPC_TYPE_ERROR "Invalid sender address"
    else do
      let keyID ← w.ownKey env "senderAddr does not refer to key" senderAddr
      let aesRawVector ← w.sharedKey env keyID myAddress f
      let (encrypted, iv128Base64) ← w.keeping (EncryptMessageAES env strMessage aesRawVector iv128)
      let vchSig ← w.need RPC_INVALID_ADDRESS_OR_KEY "Sign failed"
        (env.SignCompact keyID (encrypted ++ iv128Base64))
      let hash160 ← w.need RPC_INVALID_ADDRESS_OR_KEY "Invalid dions address"
        (AddressToHash160 env f)
      w.pay env SendMoney__ (messageScript OP_ENCRYPTED_MESSAGE [OP_2DROP, OP_2DROP, OP_DROP]
        myAddress f encrypted iv128Base64 vchSig hash160)

/-! ## The list of messages -/

/-- One entry of the list. -/
structure ListedMessage where
  sender : vchType
  recipient : vchType
  encrypted_message : vchType
  plain_text : vchType
  iv128Base64 : vchType
  signature : vchType
  deriving DecidableEq

def hk (addrStr : vchType) : Bool :=
  let r := cba.ofString env.Hash addrStr
  cba.IsValid env.fTestNet r && ((cba.GetKeyID env r).map w.GetKey).getD false

/-- What is listed for a transaction. -/
def listedMessage (tx : CTransaction) : Messaging (Option ListedMessage) := do
  let update ← w.keeping (defined (GetEncryptedMessageUpdate tx))
  match update with
  | none => .ok none
  | some u =>
    let (myAddr, fKey) := if w.hk env u.vchSender then (u.vchSender, u.vchRecipient)
      else (u.vchRecipient, u.vchSender)
    let r := cba.ofString env.Hash myAddr
    if !cba.IsValid env.fTestNet r then .ok none
    else do
      let keyID ← w.need RPC_TYPE_ERROR "Address does not refer to key" (cba.GetKeyID env r)
      if !w.GetKey keyID then .ok none
      else do
        let aesRawVector ← w.sharedKey env keyID myAddr fKey
        let decrypted ← w.keeping (DecryptMessageAES env u.vchKey aesRawVector u.vchFourth)
        .ok (some ⟨u.vchSender, u.vchRecipient, u.vchKey, decrypted, u.vchFourth, u.vchSignature⟩)

/-- The loop over the transactions, which an exception ends. -/
def listMessages : List (uint256 × CTransaction) → Messaging (List ListedMessage)
  | [] => .ok []
  | (_, tx) :: rest => do
    let listed ← w.listedMessage env tx
    let oRes ← listMessages rest
    .ok (listed.toList ++ oRes)

def decryptedMessageList : Messaging (List ListedMessage) := w.listMessages env w.mapWallet.entries

end MessagingWallet

end Dions
