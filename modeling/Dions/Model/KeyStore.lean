import Dions.Library.OrdMap
import Dions.Model.Transaction

/-! # Stealth payments

The encrypted keys of the wallet with their metadata, and how a payment to a stealth address is
recognised: at once, or in two steps when the wallet is locked. -/

namespace Dions

abbrev CKeyID := uint160

abbrev CPubKey := List UInt8

abbrev CSecret := List UInt8

/-! ## Metadata -/

/-- The role of a key in a stealth address; both keys of a pair have the same path. -/
structure RayShade where
  l7_ : ℤ
  o_ : uint160
  stream_id : List UInt8
  deriving DecidableEq, Repr

namespace RayShade

def RAY_VTX : ℤ := 0xa1
def RAY_SET : ℤ := 0xc2

def ctrlExternalAngle (r : RayShade) : Bool := r.l7_ == RAY_VTX

def ctrlExternalDtx (r : RayShade) : Bool := r.l7_ == RAY_SET

def ctrlPath (r : RayShade) : uint160 := r.o_

def streamID (r : RayShade) : List UInt8 := r.stream_id

end RayShade

structure CKeyMetadata where
  nCreateTime : ℤ
  z : uint160
  k : CPubKey
  rs_ : RayShade
  deriving DecidableEq, Repr

/-- What the constructor leaves; it does not initialize `l7_`. -/
def CKeyMetadata.created (nCreateTime : ℤ) (l7_ : ℤ) : CKeyMetadata :=
  ⟨nCreateTime, 0, [], ⟨l7_, 0, []⟩⟩

/-- `RelayForward`: a key with this `z` is written over its placeholder. -/
def FORM : uint160 := 1

/-! ## The curve, the cipher and the scripts -/

/-- What `Solver` says of an output script, with the data pushed behind `OP_RETURN`. -/
inductive ScriptClass where
  | nullData (vch : List UInt8)
  | pubKeyHash (hash : CKeyID)
  | other
  deriving DecidableEq, Repr

structure KeyOps where
  /-- `SetSecret(.., true)` and then `GetPubKey`. -/
  pubOf : CSecret → CPubKey
  GetID : CPubKey → CKeyID
  GetHash : CPubKey → uint256
  /-- The parameters are the master key, the secret and the initialization vector. -/
  EncryptSecret : List UInt8 → CSecret → uint256 → List UInt8
  DecryptSecret : List UInt8 → List UInt8 → uint256 → Option CSecret
  /-- `__synth_piv__conv71__intern`: the secret key of a payment. -/
  intern : List UInt8 → CPubKey → CSecret → CSecret
  /-- `__synth_piv__conv71__outer`: the public key of a payment. -/
  outer : List UInt8 → CPubKey → CPubKey → CPubKey
  Solver : CScript → ScriptClass
  /-- What the uninitialized field of the metadata of a key holds. -/
  l7_ : CKeyID → ℤ

/-! ## The key store -/

/-- The encrypted key store of a wallet with the metadata of its keys. It is locked while there is
no master key. -/
structure CryptedKeys where
  mapCryptedKeys : OrdMap CKeyID (CPubKey × List UInt8)
  vMasterKey : List UInt8
  kd : OrdMap CKeyID CKeyMetadata

variable (ops : KeyOps)

namespace CryptedKeys

/-- `kd[i]`, which makes an entry where there is none. -/
def keyData (w : CryptedKeys) (i : CKeyID) : CKeyMetadata :=
  (w.kd.find i).getD (.created 0 (ops.l7_ i))

def rs_ (w : CryptedKeys) (i : CKeyID) : RayShade := (w.keyData ops i).rs_

def as (w : CryptedKeys) : Bool := w.vMasterKey.isEmpty

def Lock (w : CryptedKeys) : CryptedKeys := { w with vMasterKey := [] }

def HaveKey (w : CryptedKeys) (i : CKeyID) : Bool := (w.mapCryptedKeys.find i).isSome

/-- An empty public key where there is none. -/
def GetPubKey (w : CryptedKeys) (i : CKeyID) : CPubKey :=
  ((w.mapCryptedKeys.find i).map Prod.fst).getD []

def GetSecret (w : CryptedKeys) (i : CKeyID) : Option CSecret :=
  match w.mapCryptedKeys.find i with
  | none => none
  | some (vchPubKey, vchCryptedSecret) =>
    match ops.DecryptSecret w.vMasterKey vchCryptedSecret (ops.GetHash vchPubKey) with
    | none => none
    | some vchSecret => if vchSecret.length ≠ 32 then none else some vchSecret

/-- The keys with metadata that has a time, and those of the store. -/
def kt (w : CryptedKeys) : List CKeyID :=
  (((w.kd.keys.filter fun i => (w.keyData ops i).nCreateTime ≠ 0) ++
    w.mapCryptedKeys.keys).foldl (fun mapKeyBirth i => mapKeyBirth.insert i ())
      OrdMap.empty).keys

def setKeyData (w : CryptedKeys) (i : CKeyID) (data : CKeyMetadata) : CryptedKeys :=
  { w with kd := w.kd.insert i data }

/-- Into the store and to disk; writing forgets the mark of a key that replaces its placeholder. -/
def sync (w : CryptedKeys) (vchPubKey : CPubKey) (vchCryptedSecret : List UInt8) : CryptedKeys :=
  let i := ops.GetID vchPubKey
  let w := { w with mapCryptedKeys := w.mapCryptedKeys.insert i (vchPubKey, vchCryptedSecret) }
  if (w.keyData ops i).z = FORM then w.setKeyData i { w.keyData ops i with z := 0 } else w

/-- Only called while the store is unlocked, where it does not fail. -/
def ak (w : CryptedKeys) (key : CSecret) : CryptedKeys :=
  let vchPubKey := ops.pubOf key
  w.sync ops vchPubKey (ops.EncryptSecret w.vMasterKey key (ops.GetHash vchPubKey))

/-! ## Recognising payments -/

/-- The pairs of a key that looks and a key that spends, in the order in which they are tried. -/
def stealthPairs (w : CryptedKeys) : List (CKeyID × CKeyID) :=
  (w.kt ops).flatMap fun ck =>
    if (w.rs_ ops ck).ctrlExternalAngle then
      ((w.kt ops).filter fun ck_ => (w.rs_ ops ck_).ctrlExternalDtx &&
        (w.rs_ ops ck_).ctrlPath == (w.rs_ ops ck).ctrlPath).map fun ck_ => (ck, ck_)
    else []

/-- The public key of the payment, from one pair. -/
def matchLocked (w : CryptedKeys) (i : CKeyID) (j : CPubKey) (pair : CKeyID × CKeyID) :
    Option (CPubKey × uint160) :=
  let t := (w.rs_ ops pair.1).streamID
  if t.isEmpty then none
  else
    let x := ops.outer t j (w.GetPubKey pair.2)
    if ops.GetID x = i then some (x, (w.rs_ ops pair.2).ctrlPath) else none

/-- The secret key of the payment, from one pair. -/
def matchUnlocked (w : CryptedKeys) (i : CKeyID) (j : CPubKey) (pair : CKeyID × CKeyID) :
    Option CSecret :=
  match w.GetSecret ops pair.2 with
  | none => none
  | some s2 =>
    let t := (w.rs_ ops pair.1).streamID
    if t.isEmpty then none
    else
      let ks_x := ops.intern t j s2
      if ops.GetID (ops.pubOf ks_x) = i then some ks_x else none

/-- A payment that is recognised while the store is locked leaves its public key, without a secret,
and what is needed to derive one. -/
def intersect (nTime : ℤ) (w : CryptedKeys) (i : CKeyID) (j : CPubKey) : Bool × CryptedKeys :=
  if w.as then
    match (w.stealthPairs ops).findSome? (w.matchLocked ops i j) with
    | none => (false, w)
    | some (x, path) =>
      let w := w.setKeyData i { w.keyData ops i with k := j, z := path }
      (true, w.sync ops x [])
  else
    match (w.stealthPairs ops).findSome? (w.matchUnlocked ops i j) with
    | none => (false, w)
    | some ks_x =>
      let id := ops.GetID (ops.pubOf ks_x)
      let w := w.setKeyData id (.created nTime (ops.l7_ id))
      (true, w.ak ops ks_x)

/-- The key that a transaction announces: the last of the right size. -/
def ephemeral (vout : List CTxOut) : Option CPubKey :=
  (vout.filterMap fun txout =>
    match ops.Solver txout.scriptPubKey with
    | .nullData vch => if vch.length = 0x21 then some vch else none
    | _ => none).getLast?

/-- The first output that is recognised ends the search. -/
def searchOutputs (nTime : ℤ) (e : CPubKey) : List CTxOut → CryptedKeys → Bool × CryptedKeys
  | [], w => (false, w)
  | txout :: vout, w =>
    match ops.Solver txout.scriptPubKey with
    | .pubKeyHash p =>
      if w.HaveKey p then searchOutputs nTime e vout w
      else
        let (found, w) := w.intersect ops nTime p e
        if found then (true, w) else searchOutputs nTime e vout w
    | _ => searchOutputs nTime e vout w

/-- `__xfa`. -/
def xfa (nTime : ℤ) (w : CryptedKeys) (vout : List CTxOut) : Bool × CryptedKeys :=
  match ephemeral ops vout with
  | none => (false, w)
  | some e => searchOutputs ops nTime e vout w

/-! ## Unlocking -/

/-- The secret of a payment that was recognised while the store was locked, from the first keys
with its path. -/
def derive (mk : List CKeyID) (w : CryptedKeys) (ck : CKeyID) : Option CSecret :=
  let i := (w.keyData ops ck).z
  let vID := mk.find? fun v => (w.rs_ ops v).ctrlExternalAngle && (w.rs_ ops v).ctrlPath == i
  let exID := mk.find? fun ex =>
    !(w.rs_ ops ex).ctrlExternalAngle && (w.rs_ ops ex).ctrlPath == i
  match vID, exID with
  | some vID, some exID =>
    match w.GetSecret ops exID with
    | none => none
    | some s2 => some (ops.intern (w.rs_ ops vID).streamID (w.keyData ops ck).k s2)
  | _, _ => none

def transientKey (nTime : ℤ) (mk : List CKeyID) (w : CryptedKeys) (ck : CKeyID) : CryptedKeys :=
  if (w.keyData ops ck).z = 0 then w
  else
    match w.derive ops mk ck with
    | none => w
    | some ks_x =>
      let id := ops.GetID (ops.pubOf ks_x)
      if id = ck then
        let w := w.setKeyData id { CKeyMetadata.created nTime (ops.l7_ id) with z := FORM }
        w.ak ops ks_x
      else w

/-- `__transient`. -/
def transient (nTime : ℤ) (w : CryptedKeys) : CryptedKeys :=
  (w.kt ops).foldl (transientKey ops nTime (w.kt ops)) w

/-- The master key is tried on the first key of the map. -/
def unlockStore (vMasterKeyIn : List UInt8) (w : CryptedKeys) : Option CryptedKeys :=
  match w.mapCryptedKeys.entries.head? with
  | none => some { w with vMasterKey := vMasterKeyIn }
  | some (_, vchPubKey, vchCryptedSecret) =>
    match ops.DecryptSecret vMasterKeyIn vchCryptedSecret (ops.GetHash vchPubKey) with
    | none => none
    | some vchSecret =>
      if vchSecret.length ≠ 32 then none
      else if ops.pubOf vchSecret = vchPubKey then some { w with vMasterKey := vMasterKeyIn }
      else none

/-- `Unlock` with the passphrase that decrypts to the master key. -/
def Unlock (nTime : ℤ) (vMasterKey : List UInt8) (w : CryptedKeys) : Option CryptedKeys :=
  if w.as then (w.unlockStore ops vMasterKey).map (transient ops nTime) else none

end CryptedKeys

end Dions
