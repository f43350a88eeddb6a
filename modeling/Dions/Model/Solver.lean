import Dions.Library.Wire
import Dions.Model.Script

/-! # Building scripts and recognising them

`CScript::operator<<`, and `Solver`, which matches a script against the templates of the standard
output types. -/

namespace Dions

open LittleEndian

/-! ## operator<< -/

/-- `operator<<` of a vector: the shortest of the four push forms. -/
def pushVch (b : valtype) : CScript :=
  if b.length < OP_PUSHDATA1 then b.length.toUInt8 :: b
  else if b.length ≤ 0xff then OP_PUSHDATA1.toUInt8 :: b.length.toUInt8 :: b
  else if b.length ≤ 0xffff then OP_PUSHDATA2.toUInt8 :: (toBytes 2 b.length ++ b)
  else OP_PUSHDATA4.toUInt8 :: (toBytes 4 b.length ++ b)

/-- `operator<<` of a small integer: one of the opcodes `OP_1` to `OP_16`. -/
def pushSmallInt (n : ℕ) : CScript := [(n + (OP_1 - 1)).toUInt8]

/-! ## Templates -/

def OP_DUP : ℕ := 0x76
def OP_EQUALVERIFY : ℕ := 0x88
def OP_RETURN : ℕ := 0x6a

/-! Opcodes that only stand in templates. -/

def OP_SMALLDATA : ℕ := 0xf9
def OP_SMALLINTEGER : ℕ := 0xfa
def OP_PUBKEYS : ℕ := 0xfb
def OP_PUBKEYHASH : ℕ := 0xfd
def OP_PUBKEY : ℕ := 0xfe

def MAX_OP_RETURN_RELAY : ℕ := 40

inductive txnouttype where
  | TX_NONSTANDARD
  | TX_PUBKEY
  | TX_PUBKEYHASH
  | TX_SCRIPTHASH
  | TX_MULTISIG
  | TX_NULL_DATA
  deriving DecidableEq, Repr

open txnouttype

/-- The multimap in the order of its keys. -/
def mTemplates : List (txnouttype × CScript) :=
  [(TX_PUBKEY, [OP_PUBKEY, OP_CHECKSIG]),
    (TX_PUBKEYHASH, [OP_DUP, OP_HASH160, OP_PUBKEYHASH, OP_EQUALVERIFY, OP_CHECKSIG]),
    (TX_MULTISIG, [OP_SMALLINTEGER, OP_PUBKEYS, OP_SMALLINTEGER, OP_CHECKMULTISIG]),
    (TX_NULL_DATA, [OP_RETURN, OP_SMALLDATA]),
    (TX_NULL_DATA, [OP_RETURN])].map fun t => (t.1, t.2.map Nat.toUInt8)

/-- A push with the size of a public key. -/
def isPubKeySize (vch : valtype) : Bool := 33 ≤ vch.length && vch.length ≤ 120

/-- The loop over the keys for `OP_PUBKEYS`: the first instruction that is no key, or the one that
cannot be read, with the keys before it. -/
def takePubKeys (script1 : CScript) : (fuel : ℕ) → GetOpRet → List valtype →
    GetOpRet × List valtype
  | 0, r, vSolutions => (r, vSolutions)
  | fuel + 1, r, vSolutions =>
    if isPubKeySize r.vchRet then
      let r' := CScript.GetOp2 script1 r.pc
      if r'.ret then takePubKeys script1 fuel r' (vSolutions ++ [r.vchRet])
      else (r', vSolutions ++ [r.vchRet])
    else (r, vSolutions)

/-- What one instruction adds to the solutions, `none` where it does not match. -/
def matchInstruction (r1 r2 : GetOpRet) (vSolutions : List valtype) : Option (List valtype) :=
  if r2.opcodeRet = OP_PUBKEY then
    if isPubKeySize r1.vchRet then some (vSolutions ++ [r1.vchRet]) else none
  else if r2.opcodeRet = OP_PUBKEYHASH then
    if r1.vchRet.length = 20 then some (vSolutions ++ [r1.vchRet]) else none
  else if r2.opcodeRet = OP_SMALLINTEGER then
    if r1.opcodeRet = OP_0 then some (vSolutions ++ [[0]])
    else if OP_1 ≤ r1.opcodeRet ∧ r1.opcodeRet ≤ OP_16 then
      some (vSolutions ++ [[(r1.opcodeRet - (OP_1 - 1)).toUInt8]])
    else none
  else if r2.opcodeRet = OP_SMALLDATA then
    if r1.vchRet.length ≤ MAX_OP_RETURN_RELAY then some vSolutions else none
  else if r1.opcodeRet = r2.opcodeRet ∧ r1.vchRet = r2.vchRet then some vSolutions
  else none

/-- The comparison with one template; every round reads at least one byte of `script1`. -/
def matchTemplate (script1 script2 : CScript) : (fuel pc1 pc2 : ℕ) → List valtype →
    Option (List valtype)
  | 0, _, _, _ => none
  | fuel + 1, pc1, pc2, vSolutions =>
    if pc1 = script1.length ∧ pc2 = script2.length then some vSolutions
    else
      let r1 := CScript.GetOp2 script1 pc1
      let r2 := CScript.GetOp2 script2 pc2
      if !r1.ret || !r2.ret then none
      else if r2.opcodeRet = OP_PUBKEYS then
        let (r1, vSolutions) := takePubKeys script1 script1.length r1 vSolutions
        let r2 := CScript.GetOp2 script2 r2.pc
        if !r2.ret then none
        else
          match matchInstruction r1 r2 vSolutions with
          | none => none
          | some vSolutions => matchTemplate script1 script2 fuel r1.pc r2.pc vSolutions
      else
        match matchInstruction r1 r2 vSolutions with
        | none => none
        | some vSolutions => matchTemplate script1 script2 fuel r1.pc r2.pc vSolutions

/-- The additional checks for `TX_MULTISIG`. -/
def multisigCounts (vSolutions : List valtype) : Bool :=
  let m := ((vSolutions.head?.bind List.head?).map UInt8.toNat).getD 0
  let n := ((vSolutions.getLast?.bind List.head?).map UInt8.toNat).getD 0
  1 ≤ m && 1 ≤ n && m ≤ n && vSolutions.length - 2 == n

/-- The first template that matches decides, also when its counts are refused. -/
def solveTemplates (script1 : CScript) : List (txnouttype × CScript) →
    Bool × txnouttype × List valtype
  | [] => (false, TX_NONSTANDARD, [])
  | (type, script2) :: rest =>
    match matchTemplate script1 script2 (script1.length + 1) 0 0 [] with
    | some vSolutions =>
      (type != TX_MULTISIG || multisigCounts vSolutions, type, vSolutions)
    | none => solveTemplates script1 rest

/-- The answer, the type and the solutions. -/
def Solver (scriptPubKey : CScript) : Bool × txnouttype × List valtype :=
  if scriptPubKey.IsPayToScriptHash then
    (true, TX_SCRIPTHASH, [(scriptPubKey.drop 2).take 20])
  else solveTemplates scriptPubKey mTemplates

/-! ## Standard outputs -/

/-- The script that pays to the hash of a key. -/
def SetBitcoinAddress (hash160 : valtype) : CScript :=
  OP_DUP.toUInt8 :: OP_HASH160.toUInt8 ::
    (pushVch hash160 ++ [OP_EQUALVERIFY.toUInt8, OP_CHECKSIG.toUInt8])

end Dions
