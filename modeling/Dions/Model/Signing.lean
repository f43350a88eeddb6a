import Dions.Model.Destination
import Dions.Model.Interpreter
import Dions.Model.KeyStore
import Dions.Library.Matching
import Mathlib.Data.List.Lex

/-! # The wallet's own scripts

`IsMine`, which says whether a script can be signed for with the keys of a wallet, and `SignSignature`,
which signs. Each goes through the script on its own. -/

namespace Dions

open txnouttype

/-- What both ask of a key store. An answer `false` is `none`. -/
structure CKeyStore (Key : Type) where
  HaveKey : CKeyID → Bool
  GetKey : CKeyID → Option Key
  GetPubKey : CKeyID → Option CPubKey
  GetCScript : uint160 → Option CScript

def CPubKey.GetID (crypto : ScriptCrypto) (vchPubKey : CPubKey) : CKeyID :=
  uint160OfVch (crypto.HASH160 vchPubKey)

def CScript.GetID (crypto : ScriptCrypto) (script : CScript) : uint160 :=
  uint160OfVch (crypto.HASH160 script)

/-- The script behind the prefix, or all of a script without one. -/
def rawScript (scriptPubKey : CScript) : CScript :=
  let r := aliasScript scriptPubKey none
  if r.ret then scriptPubKey.drop r.pc else scriptPubKey

/-- The first solution, which is there for every type that it is read for. -/
def firstSolution (vSolutions : List valtype) : valtype := vSolutions.head?.getD []

section Context

variable {Key : Type} (crypto : ScriptCrypto) (keystore : CKeyStore Key)

/-! ## IsMine -/

def HaveKeys (pubkeys : List valtype) : ℕ :=
  pubkeys.countP fun pubkey => keystore.HaveKey (CPubKey.GetID crypto pubkey)

/-- The recursion over script hashes, `none` where the fuel runs out. -/
def IsMine : (fuel : ℕ) → (scriptPubKey : CScript) → Option Bool
  | 0, _ => none
  | fuel + 1, scriptPubKey =>
    let (solved, whichType, vSolutions) := Solver (rawScript scriptPubKey)
    if !solved then some false
    else
      match whichType with
      | TX_NONSTANDARD | TX_NULL_DATA => some false
      | TX_PUBKEY => some (keystore.HaveKey (CPubKey.GetID crypto (firstSolution vSolutions)))
      | TX_PUBKEYHASH => some (keystore.HaveKey (uint160OfVch (firstSolution vSolutions)))
      | TX_SCRIPTHASH =>
        match keystore.GetCScript (uint160OfVch (firstSolution vSolutions)) with
        | none => some false
        | some subscript => IsMine fuel subscript
      | TX_MULTISIG =>
        let keys := (vSolutions.drop 1).take (vSolutions.length - 2)
        some (HaveKeys crypto keystore keys == keys.length)

/-! ## Signing -/

-- `CKey::Sign`
variable (Sign : Key → uint256 → Option valtype)

/-- The answer, with the script that the signature is appended to. -/
def Sign1 (address : CKeyID) (hash : uint256) (nHashType : ℕ) (scriptSigRet : CScript) :
    Bool × CScript :=
  match keystore.GetKey address with
  | none => (false, scriptSigRet)
  | some key =>
    match Sign key hash with
    | none => (false, scriptSigRet)
    | some vchSig => (true, scriptSigRet ++ pushVch (vchSig ++ [nHashType.toUInt8]))

/-- The loop over the keys. It ends with enough signatures. -/
def signKeys (hash : uint256) (nHashType nRequired : ℕ) :
    (pubkeys : List valtype) → (nSigned : ℕ) → (scriptSigRet : CScript) → ℕ × CScript
  | [], nSigned, scriptSigRet => (nSigned, scriptSigRet)
  | pubkey :: pubkeys, nSigned, scriptSigRet =>
    if nSigned < nRequired then
      let (signed, scriptSigRet) :=
        Sign1 keystore Sign (CPubKey.GetID crypto pubkey) hash nHashType scriptSigRet
      signKeys hash nHashType nRequired pubkeys (if signed then nSigned + 1 else nSigned) scriptSigRet
    else (nSigned, scriptSigRet)

def SignN (multisigdata : List valtype) (hash : uint256) (nHashType : ℕ) (scriptSigRet : CScript) :
    Bool × CScript :=
  let nRequired := ((multisigdata.head?.bind List.head?).map UInt8.toNat).getD 0
  let pubkeys := (multisigdata.drop 1).take (multisigdata.length - 2)
  let (nSigned, scriptSigRet) :=
    signKeys crypto keystore Sign hash nHashType nRequired pubkeys 0 scriptSigRet
  (nSigned == nRequired, scriptSigRet)

/-- The overload of `Solver` that signs: the answer, the type and the script for the input. For the
hash of a script that is the script itself. -/
def CKeyStore.Solver (scriptPubKey : CScript) (hash : uint256) (nHashType : ℕ) :
    Bool × txnouttype × CScript :=
  let (solved, whichType, vSolutions) := Dions.Solver scriptPubKey
  if !solved then (false, whichType, [])
  else
    match whichType with
    | TX_NONSTANDARD | TX_NULL_DATA => (false, whichType, [])
    | TX_PUBKEY =>
      let keyID := CPubKey.GetID crypto (firstSolution vSolutions)
      let (signed, scriptSigRet) := Sign1 keystore Sign keyID hash nHashType []
      (signed, whichType, scriptSigRet)
    | TX_PUBKEYHASH =>
      let keyID := uint160OfVch (firstSolution vSolutions)
      let (signed, scriptSigRet) := Sign1 keystore Sign keyID hash nHashType []
      if !signed then (false, whichType, scriptSigRet)
      else (true, whichType, scriptSigRet ++ pushVch ((keystore.GetPubKey keyID).getD []))
    | TX_SCRIPTHASH =>
      match keystore.GetCScript (uint160OfVch (firstSolution vSolutions)) with
      | none => (false, whichType, [])
      | some subscript => (true, whichType, subscript)
    | TX_MULTISIG =>
      let (signed, scriptSigRet) :=
        SignN crypto keystore Sign vSolutions hash nHashType [OP_0.toUInt8]
      (signed, whichType, scriptSigRet)

/-- The answer with the transaction that is left, `none` where the assertion fails. -/
def SignSignature (fromPubKey : CScript) (txTo : CTransaction) (nIn nHashType : ℕ) :
    Option (Bool × CTransaction) :=
  if txTo.vin.length ≤ nIn then none
  else
    let hash := SignatureHash crypto fromPubKey txTo nIn nHashType
    let (solved, whichType, scriptSig) :=
      keystore.Solver crypto Sign (rawScript fromPubKey) hash nHashType
    let txTo := txTo.setScriptSig nIn scriptSig
    if !solved then some (false, txTo)
    else if whichType = TX_SCRIPTHASH then
      let subscript := scriptSig
      let hash2 := SignatureHash crypto subscript txTo nIn nHashType
      let (solved, subType, scriptSig) := keystore.Solver crypto Sign subscript hash2 nHashType
      let fSolved := solved && subType != TX_SCRIPTHASH
      -- the script is appended whether or not it is completely signed
      let scriptSig := scriptSig ++ pushVch subscript
      let txTo := txTo.setScriptSig nIn scriptSig
      if !fSolved then some (false, txTo)
      else
        some (VerifyScript crypto txTo nIn STANDARD_SCRIPT_VERIFY_FLAGS 0 scriptSig fromPubKey, txTo)
    else
      some (VerifyScript crypto txTo nIn STANDARD_SCRIPT_VERIFY_FLAGS 0 scriptSig fromPubKey, txTo)

end Context

/-! ## Combining signatures

`CombineSignatures` makes one input script of two that each hold a part of the signatures. A stack has
its top first, as in the interpreter. -/

/-- Bytes in their order, in which `set` and `map` compare vectors. -/
instance instLinearOrderUInt8 : LinearOrder UInt8 where
  le_refl := UInt8.le_refl
  le_trans _ _ _ := UInt8.le_trans
  lt_iff_le_not_ge a b := by
    rw [UInt8.not_le]
    exact ⟨fun h => ⟨UInt8.le_of_lt h, h⟩, fun h => h.2⟩
  le_antisymm _ _ := UInt8.le_antisymm
  le_total := UInt8.le_total
  toDecidableLE := inferInstance
  toDecidableEq := inferInstance
  toDecidableLT := inferInstance

def PushAll (values : List valtype) : CScript := values.reverse.flatMap pushVch

/-- The loop that puts the signatures of a stack into the set, but for the empty ones. -/
def insertSigs (sigs : List valtype) (allsigs : OrdSet valtype) : OrdSet valtype :=
  sigs.foldr (fun v allsigs => if v.isEmpty then allsigs else allsigs.insert v ()) allsigs

/-- The loop that merges, with the placeholders behind it. -/
def mergeSigs (sigs : OrdMap valtype valtype) (nSigsRequired : ℕ) :
    (pubkeys : List valtype) → (nSigsHave : ℕ) → (result : CScript) → CScript
  | [], nSigsHave, result => result ++ List.replicate (nSigsRequired - nSigsHave) OP_0.toUInt8
  | pubkey :: pubkeys, nSigsHave, result =>
    if nSigsHave < nSigsRequired then
      match sigs.find pubkey with
      | none => mergeSigs sigs nSigsRequired pubkeys nSigsHave result
      | some sig => mergeSigs sigs nSigsRequired pubkeys (nSigsHave + 1) (result ++ pushVch sig)
    else result ++ List.replicate (nSigsRequired - nSigsHave) OP_0.toUInt8

section Context

variable (crypto : ScriptCrypto) (txTo : CTransaction) (nIn : ℕ)

/-- The map from a key to its signature is built by matching the signatures, in their order, to the
keys. -/
def CombineMultisig (scriptPubKey : CScript) (vSolutions sigs1 sigs2 : List valtype) : CScript :=
  let allsigs := insertSigs sigs2 (insertSigs sigs1 OrdMap.empty)
  let nSigsRequired := ((vSolutions.head?.bind List.head?).map UInt8.toNat).getD 0
  let nPubKeys := vSolutions.length - 2
  let pubkeys := (vSolutions.drop 1).take nPubKeys
  let sigs := Matching.placeAll
    (fun sig pubkey => CheckSig crypto sig pubkey scriptPubKey txTo nIn 0) allsigs.keys pubkeys
  mergeSigs sigs nSigsRequired pubkeys 0 [OP_0.toUInt8]

/-- The overload that works on stacks. With `TX_SCRIPTHASH` the last case cannot be reached. -/
def combineStacks (sigs1 sigs2 : List valtype) (scriptPubKey : CScript) (txType : txnouttype)
    (vSolutions : List valtype) : CScript :=
  match txType with
  | TX_NONSTANDARD | TX_NULL_DATA =>
    if sigs2.length ≤ sigs1.length then PushAll sigs1 else PushAll sigs2
  | TX_PUBKEY | TX_PUBKEYHASH =>
    if sigs1.getLast?.all List.isEmpty then PushAll sigs2 else PushAll sigs1
  | TX_SCRIPTHASH =>
    if sigs1.head?.all List.isEmpty then PushAll sigs2
    else if sigs2.head?.all List.isEmpty then PushAll sigs1
    else
      match sigs1, sigs2 with
      | spk :: sigs1, _ :: sigs2 =>
        let pubKey2 : CScript := spk
        let (_, txType2, vSolutions2) := Solver pubKey2
        combineStacks sigs1 sigs2 pubKey2 txType2 vSolutions2 ++ pushVch spk
      | _, _ => []
  | TX_MULTISIG => CombineMultisig crypto txTo nIn scriptPubKey vSolutions sigs1 sigs2

/-- The overload that works on input scripts, for scripts that the interpreter accepts: of another
one it takes what the interpreter has left on the stack, and this is `none` here. -/
def CombineSignatures (nAdjustedTime : ℕ) (scriptPubKey scriptSig1 scriptSig2 : CScript) :
    Option CScript :=
  let (_, txType, vSolutions) := Solver scriptPubKey
  match EvalScript crypto (CTransaction.null nAdjustedTime) 0 SCRIPT_VERIFY_NONE 0 [] scriptSig1,
    EvalScript crypto (CTransaction.null nAdjustedTime) 0 SCRIPT_VERIFY_NONE 0 [] scriptSig2 with
  | some stack1, some stack2 =>
    some (combineStacks crypto txTo nIn stack1 stack2 scriptPubKey txType vSolutions)
  | _, _ => none

end Context

end Dions
