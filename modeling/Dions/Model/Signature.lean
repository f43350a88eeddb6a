import Dions.Model.Serialize
import Dions.Model.Solver

/-! # Signatures in scripts

The form that keys and signatures must have, the hash that a signature signs, and `CheckSig`. -/

namespace Dions

open LittleEndian

/-- The digests that scripts compute, and the verification of signatures. -/
structure ScriptCrypto where
  /-- `Hash` of a string of bytes. -/
  Hash : List UInt8 → uint256
  RIPEMD160 : valtype → valtype
  SHA1 : valtype → valtype
  SHA256 : valtype → valtype
  HASH160 : valtype → valtype
  HASH256 : valtype → valtype
  /-- `SetPubKey` accepts the key and `Verify` the signature of the hash. The cache of valid
  signatures repeats earlier answers. -/
  Verify : (vchPubKey : valtype) → (sighash : uint256) → (vchSig : valtype) → Bool

/-! ## Canonical forms -/

def SIGHASH_ALL : ℕ := 1
def SIGHASH_NONE : ℕ := 2
def SIGHASH_SINGLE : ℕ := 3
def SIGHASH_ANYONECANPAY : ℕ := 0x80

/-- The byte at a position that the code has checked to exist. -/
def byteAt (vch : valtype) (i : ℕ) : ℕ := (vch[i]?.map UInt8.toNat).getD 0

def IsCanonicalPubKey (vchPubKey : valtype) : Bool :=
  33 ≤ vchPubKey.length &&
    (if byteAt vchPubKey 0 = 0x04 then vchPubKey.length == 65
    else if byteAt vchPubKey 0 = 0x02 ∨ byteAt vchPubKey 0 = 0x03 then vchPubKey.length == 33
    else false)

/-- Half of the order of the generator of the curve, minus one. -/
def vchMaxModHalfOrder : ℕ :=
  0x7FFFFFFFFFFFFFFFFFFFFFFFFFFFFFFF5D576E7357A4501DDFE92F46681B20A0

/-- `CheckSignatureElement` with `half`: the bytes are a positive number in the lower half. -/
def CheckSignatureElement (vch : valtype) : Bool :=
  let n := ofBytes vch.reverse
  0 < n && n ≤ vchMaxModHalfOrder

/-- The checks that the two numbers of a signature share: the type in front of them, some bytes,
no sign and no needless padding. -/
def isCanonicalElement (vchSig : valtype) (start nLen : ℕ) : Bool :=
  byteAt vchSig (start - 2) == 0x02 && nLen != 0 && byteAt vchSig start < 0x80 &&
    !(1 < nLen && byteAt vchSig start == 0x00 && byteAt vchSig (start + 1) < 0x80)

/-- A signature `<30> <total len> <02> <len R> <R> <02> <len S> <S> <hashtype>`. -/
def IsCanonicalSignature (vchSig : valtype) : Bool :=
  let size := vchSig.length
  let nHashType := byteAt vchSig (size - 1) &&& (0xff - SIGHASH_ANYONECANPAY)
  let nLenR := byteAt vchSig 3
  let nLenS := byteAt vchSig (5 + nLenR)
  9 ≤ size && size ≤ 73 && SIGHASH_ALL ≤ nHashType && nHashType ≤ SIGHASH_SINGLE &&
    byteAt vchSig 0 == 0x30 && byteAt vchSig 1 == size - 3 && 5 + nLenR < size &&
    nLenR + nLenS + 7 == size &&
    isCanonicalElement vchSig 4 nLenR && isCanonicalElement vchSig (6 + nLenR) nLenS &&
    CheckSignatureElement ((vchSig.drop (6 + nLenR)).take nLenS)

/-! ## FindAndDelete -/

/-- The loop from an instruction on: every round deletes a match or reads an instruction. -/
def findAndDeleteFrom (b : CScript) : (fuel : ℕ) → (script : CScript) → (pc : ℕ) → CScript
  | 0, script, _ => script
  | fuel + 1, script, pc =>
    if b.isPrefixOf (script.drop pc) then
      findAndDeleteFrom b fuel (script.take pc ++ script.drop (pc + b.length)) pc
    else
      let r := CScript.GetOp2 script pc
      if r.ret then findAndDeleteFrom b fuel script r.pc else script

/-- Deletes the pattern wherever an instruction starts with it. -/
def CScript.FindAndDelete (script b : CScript) : CScript :=
  if b.isEmpty then script else findAndDeleteFrom b (script.length + 1) script 0

/-! ## SignatureHash -/

def OP_CODESEPARATOR : ℕ := 0xab

def CTxOut.null : CTxOut := ⟨-1, []⟩

/-- The transaction with another script in one input. -/
def CTransaction.setScriptSig (tx : CTransaction) (nIn : ℕ) (scriptSig : CScript) : CTransaction :=
  { tx with vin := tx.vin.modify nIn fun txin => { txin with scriptSig := scriptSig } }

/-- The copy of the transaction that is hashed, `none` where the answer is the error value. -/
def signatureTx (scriptCode : CScript) (txTo : CTransaction) (nIn nHashType : ℕ) :
    Option CTransaction :=
  let scriptCode := scriptCode.FindAndDelete [OP_CODESEPARATOR.toUInt8]
  let vin := txTo.vin.mapIdx fun i txin =>
    { txin with scriptSig := if i = nIn then scriptCode else [] }
  let others := vin.mapIdx fun i txin => if i = nIn then txin else { txin with nSequence := 0 }
  let blanked : Option CTransaction :=
    if nHashType &&& 0x1f = SIGHASH_NONE then some { txTo with vin := others, vout := [] }
    else if nHashType &&& 0x1f = SIGHASH_SINGLE then
      match txTo.vout[nIn]? with
      | none => none
      | some txout =>
        some { txTo with vin := others, vout := List.replicate nIn CTxOut.null ++ [txout] }
    else some { txTo with vin := vin }
  if nHashType &&& SIGHASH_ANYONECANPAY ≠ 0 then
    blanked.map fun tx => { tx with vin := tx.vin[nIn]?.toList }
  else blanked

def SignatureHash (crypto : ScriptCrypto) (scriptCode : CScript) (txTo : CTransaction)
    (nIn nHashType : ℕ) : uint256 :=
  if txTo.vin.length ≤ nIn then 1
  else
    match signatureTx scriptCode txTo nIn nHashType with
    | none => 1
    | some txTmp => crypto.Hash (CTransaction.wire.serialize txTmp ++ toBytes 4 nHashType)

/-- The hash type is the last byte of the signature; `nHashType` zero takes it from there. -/
def CheckSig (crypto : ScriptCrypto) (vchSig vchPubKey : valtype) (scriptCode : CScript)
    (txTo : CTransaction) (nIn nHashType : ℕ) : Bool :=
  match vchSig.getLast? with
  | none => false
  | some last =>
    (nHashType == 0 || nHashType == last.toNat) &&
      crypto.Verify vchPubKey (SignatureHash crypto scriptCode txTo nIn last.toNat) vchSig.dropLast

/-! ## The checks of a signature, byte by byte

`IsCanonicalSignature` with the positions that it reads. A pointer is a string of bytes with a
position, and `none` is a read outside of the string. -/

namespace Bytewise

/-- `vch[i]`. -/
def readByte (vch : valtype) (i : ℕ) : Option ℕ := vch[i]?.map UInt8.toNat

/-- `return false` where a check fails. -/
def failIf (fails : Bool) (rest : Option Bool) : Option Bool :=
  if fails then some false else rest

/-! ## CompareBigEndian -/

/-- The first two loops: whether one of the bytes that the longer number has in front is not zero. -/
def compareExcess (c : valtype) : (len p : ℕ) → Option Bool
  | 0, _ => some false
  | len + 1, p => do
    let b ← readByte c p
    if b ≠ 0 then some true else compareExcess c len (p + 1)

/-- The third loop, over numbers of one length. -/
def compareBytes (c1 c2 : valtype) : (len p1 p2 : ℕ) → Option ℤ
  | 0, _, _ => some 0
  | len + 1, p1, p2 => do
    let b1 ← readByte c1 p1
    let b2 ← readByte c2 p2
    if b2 < b1 then some 1
    else if b1 < b2 then some (-1)
    else compareBytes c1 c2 len (p1 + 1) (p2 + 1)

def CompareBigEndian (c1 : valtype) (p1 c1len : ℕ) (c2 : valtype) (p2 c2len : ℕ) : Option ℤ := do
  let excess1 := c1len - c2len
  if ← compareExcess c1 excess1 p1 then some 1
  else
    let excess2 := c2len - c1len
    if ← compareExcess c2 excess2 p2 then some (-1)
    else compareBytes c1 c2 (c1len - excess1) (p1 + excess1) (p2 + excess2)

/-- The order of the generator of the curve, minus one. -/
def vchMaxModOrder : valtype :=
  [0xFF, 0xFF, 0xFF, 0xFF, 0xFF, 0xFF, 0xFF, 0xFF, 0xFF, 0xFF, 0xFF, 0xFF, 0xFF, 0xFF, 0xFF, 0xFE,
   0xBA, 0xAE, 0xDC, 0xE6, 0xAF, 0x48, 0xA0, 0x3B, 0xBF, 0xD2, 0x5E, 0x8C, 0xD0, 0x36, 0x41, 0x40]

def vchMaxModHalfOrder : valtype :=
  [0x7F, 0xFF, 0xFF, 0xFF, 0xFF, 0xFF, 0xFF, 0xFF, 0xFF, 0xFF, 0xFF, 0xFF, 0xFF, 0xFF, 0xFF, 0xFF,
   0x5D, 0x57, 0x6E, 0x73, 0x57, 0xA4, 0x50, 0x1D, 0xDF, 0xE9, 0x2F, 0x46, 0x68, 0x1B, 0x20, 0xA0]

def vchZero : valtype := []

/-- The second comparison is made where the first one allows it. -/
def CheckSignatureElement (vch : valtype) (p len : ℕ) (half : Bool) : Option Bool := do
  if (← CompareBigEndian vch p len vchZero 0 0) ≤ 0 then some false
  else
    let order := if half then vchMaxModHalfOrder else vchMaxModOrder
    return (← CompareBigEndian vch p len order 0 32) ≤ 0

/-! ## IsCanonicalSignature -/

/-- The checks of the number of `nLen` bytes at `p`, which may be `R` or `S`. -/
def checkElement (vchSig : valtype) (p nLen : ℕ) (rest : Option Bool) : Option Bool := do
  failIf ((← readByte vchSig (p - 2)) != 0x02) <|
  failIf (nLen == 0) <| do
  let b ← readByte vchSig p
  failIf (b &&& 0x80 != 0) <|
  if 1 < nLen ∧ b = 0x00 then do
    failIf ((← readByte vchSig (p + 1)) &&& 0x80 == 0) rest
  else rest

def IsCanonicalSignature (vchSig : valtype) : Option Bool :=
  failIf (vchSig.length < 9) <|
  failIf (73 < vchSig.length) <| do
  let nHashType := (← readByte vchSig (vchSig.length - 1)) &&& (0xff - SIGHASH_ANYONECANPAY)
  failIf (nHashType < SIGHASH_ALL || SIGHASH_SINGLE < nHashType) <| do
  failIf ((← readByte vchSig 0) != 0x30) <| do
  failIf ((← readByte vchSig 1) != vchSig.length - 3) <| do
  let nLenR ← readByte vchSig 3
  failIf (vchSig.length ≤ 5 + nLenR) <| do
  let nLenS ← readByte vchSig (5 + nLenR)
  failIf (nLenR + nLenS + 7 != vchSig.length) <|
  checkElement vchSig 4 nLenR <|
  checkElement vchSig (6 + nLenR) nLenS <|
  CheckSignatureElement vchSig (6 + nLenR) nLenS true

end Bytewise

end Dions
