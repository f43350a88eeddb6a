import Mathlib.Algebra.Order.Ring.Int
import Mathlib.Data.List.Basic

/-! # Scripts and the alias prefix

Byte-level decoding of scripts, and the decoder of the prefix `op args drops` that every
DIONS output carries in front of its destination script. An iterator into a script is its
distance from `begin()`. -/

namespace Dions

abbrev valtype := List UInt8

abbrev vchType := valtype

abbrev CScript := List UInt8

/-! ## Opcodes -/

def OP_0 : ℕ := 0x00
def OP_PUSHDATA1 : ℕ := 0x4c
def OP_PUSHDATA2 : ℕ := 0x4d
def OP_PUSHDATA4 : ℕ := 0x4e
def OP_1 : ℕ := 0x51
def OP_16 : ℕ := 0x60
def OP_NOP : ℕ := 0x61
def OP_2DROP : ℕ := 0x6d
def OP_DROP : ℕ := 0x75
def OP_EQUAL : ℕ := 0x87
def OP_HASH160 : ℕ := 0xa9
def OP_CHECKSIG : ℕ := 0xac
def OP_CHECKSIGVERIFY : ℕ := 0xad
def OP_CHECKMULTISIG : ℕ := 0xae
def OP_CHECKMULTISIGVERIFY : ℕ := 0xaf
def OP_INVALIDOPCODE : ℕ := 0xff

/-! Values of the variable `op` that the alias code compares with. -/

def OP_ALIAS_ENCRYPTED : ℕ := 0x01
def OP_ALIAS_SET : ℕ := 0x02
def OP_ALIAS_RELAY : ℕ := 0x03
def OP_MESSAGE : ℕ := 0x05
def OP_ENCRYPTED_MESSAGE : ℕ := 0x06
def OP_PUBLIC_KEY : ℕ := 0x07
def OP_VERTEX : ℕ := 0x09
def OP_MAP_PROJECT : ℕ := 0x10

/-! ## Flags of the script verification -/

def SCRIPT_VERIFY_NONE : ℕ := 0
def SCRIPT_VERIFY_NOCACHE : ℕ := 1
def SCRIPT_VERIFY_NULLDUMMY : ℕ := 2
def SCRIPT_VERIFY_DISCOURAGE_UPGRADABLE_NOPS : ℕ := 4
def SCRIPT_VERIFY_STRICTENC : ℕ := 8
def SCRIPT_VERIFY_ALLOW_EMPTY_SIG : ℕ := 16
def SCRIPT_VERIFY_FIX_HASHTYPE : ℕ := 32
def SCRIPT_VERIFY_CHECKLOCKTIMEVERIFY : ℕ := 64

def MANDATORY_SCRIPT_VERIFY_FLAGS : ℕ :=
  SCRIPT_VERIFY_NULLDUMMY ||| SCRIPT_VERIFY_STRICTENC ||| SCRIPT_VERIFY_ALLOW_EMPTY_SIG |||
    SCRIPT_VERIFY_FIX_HASHTYPE ||| SCRIPT_VERIFY_CHECKLOCKTIMEVERIFY

def STANDARD_SCRIPT_VERIFY_FLAGS : ℕ :=
  MANDATORY_SCRIPT_VERIFY_FLAGS ||| SCRIPT_VERIFY_DISCOURAGE_UPGRADABLE_NOPS

/-! ## Reading one instruction -/

/-- What `GetOp` leaves behind: its answer, the opcode and operand, and the iterator, which
moves even when the answer is `false`. -/
structure GetOpRet where
  ret : Bool
  opcodeRet : ℕ
  vchRet : valtype
  pc : ℕ
  deriving DecidableEq, Repr

def getOpFail (pc : ℕ) : GetOpRet := ⟨false, OP_INVALIDOPCODE, [], pc⟩

/-- The operand of a push of `nSize` bytes, `rest` being what follows the length. The bytes left are
counted in an `unsigned int`. -/
def getOpPush (opcode nSize : ℕ) (rest : CScript) (pc : ℕ) : GetOpRet :=
  if rest.length % 2 ^ 32 < nSize then getOpFail pc
  else ⟨true, opcode, rest.take nSize, pc + nSize⟩

def CScript.GetOp2 (script : CScript) (pc : ℕ) : GetOpRet :=
  match script.drop pc with
  | [] => getOpFail pc
  | b :: rest =>
    let opcode := b.toNat
    if opcode ≤ OP_PUSHDATA4 then
      if opcode < OP_PUSHDATA1 then getOpPush opcode opcode rest (pc + 1)
      else if opcode = OP_PUSHDATA1 then
        match rest with
        | n :: rest => getOpPush opcode n.toNat rest (pc + 2)
        | [] => getOpFail (pc + 1)
      else if opcode = OP_PUSHDATA2 then
        match rest with
        | n₀ :: n₁ :: rest =>
          getOpPush opcode (n₀.toNat + 256 * n₁.toNat) rest (pc + 3)
        | _ => getOpFail (pc + 1)
      else
        match rest with
        | n₀ :: n₁ :: n₂ :: n₃ :: rest =>
          getOpPush opcode
            (n₀.toNat + 256 * n₁.toNat + 65536 * n₂.toNat + 16777216 * n₃.toNat) rest (pc + 5)
        | _ => getOpFail (pc + 1)
    else ⟨true, opcode, [], pc + 1⟩

/-! ## Signature operation counts -/

def sigOpLoop (script : CScript) (fAccurate : Bool) :
    (fuel pc lastOpcode n : ℕ) → ℕ
  | 0, _, _, n => n
  | fuel + 1, pc, lastOpcode, n =>
    let r := CScript.GetOp2 script pc
    if !r.ret then n
    else
      let n' :=
        if r.opcodeRet = OP_CHECKSIG ∨ r.opcodeRet = OP_CHECKSIGVERIFY then n + 1
        else if r.opcodeRet = OP_CHECKMULTISIG ∨ r.opcodeRet = OP_CHECKMULTISIGVERIFY then
          if fAccurate ∧ OP_1 ≤ lastOpcode ∧ lastOpcode ≤ OP_16 then n + (lastOpcode - (OP_1 - 1))
          else n + 20
        else n
      sigOpLoop script fAccurate fuel r.pc r.opcodeRet n'

/-- Every instruction has at least one byte, so as many rounds as bytes are enough. -/
def CScript.GetSigOpCount (script : CScript) (fAccurate : Bool) : ℕ :=
  sigOpLoop script fAccurate script.length 0 OP_INVALIDOPCODE 0

def CScript.IsPayToScriptHash (script : CScript) : Bool :=
  script.length == 23 && (script[0]?.map UInt8.toNat == some OP_HASH160) &&
    (script[1]?.map UInt8.toNat == some 0x14) && (script[22]?.map UInt8.toNat == some OP_EQUAL)

/-- The last item pushed by a script of pushes, `none` once something else is met. -/
def lastPush (scriptSig : CScript) : (fuel pc : ℕ) → valtype → Option valtype
  | 0, _, data => some data
  | fuel + 1, pc, data =>
    if scriptSig.length ≤ pc then some data
    else
      let r := CScript.GetOp2 scriptSig pc
      if !r.ret ∨ OP_16 < r.opcodeRet then none
      else lastPush scriptSig fuel r.pc r.vchRet

def CScript.GetSigOpCountP2SH (script scriptSig : CScript) : ℕ :=
  if !script.IsPayToScriptHash then script.GetSigOpCount true
  else
    match lastPush scriptSig scriptSig.length 0 [] with
    | some data => CScript.GetSigOpCount data true
    | none => 0

/-! ## The alias prefix -/

def isDrop (opcode : ℕ) : Bool :=
  opcode == OP_DROP || opcode == OP_2DROP || opcode == OP_NOP

/-- The pushes up to the first drop, and the iterator behind that drop. -/
def aliasArgs (script : CScript) :
    (fuel pc : ℕ) → List vchType → Option (List vchType × ℕ)
  | 0, _, _ => none
  | fuel + 1, pc, vvch =>
    let r := CScript.GetOp2 script pc
    if !r.ret then none
    else if isDrop r.opcodeRet then some (vvch, r.pc)
    else if r.opcodeRet ≤ OP_PUSHDATA4 then aliasArgs script fuel r.pc (vvch ++ [r.vchRet])
    else none

/-- The iterator behind the first instruction that is no drop, or where reading it failed. -/
def skipDrops (script : CScript) : (fuel pc : ℕ) → ℕ
  | 0, pc => pc
  | fuel + 1, pc =>
    let r := CScript.GetOp2 script pc
    if r.ret && isDrop r.opcodeRet then skipDrops script fuel r.pc else r.pc

/-- The table of argument counts: only three opcodes are constrained. -/
def aliasArity (op nArgs : ℕ) : Bool :=
  (op == OP_ALIAS_ENCRYPTED && nArgs == 8) ||
  (op == OP_ALIAS_SET && nArgs == 5) ||
  op == OP_MESSAGE || op == OP_ENCRYPTED_MESSAGE || op == OP_MAP_PROJECT ||
  op == OP_PUBLIC_KEY || op == OP_VERTEX ||
  (op == OP_ALIAS_RELAY && nArgs == 2)

/-- What `aliasScript` leaves in its reference arguments. `op` is `none` while the caller's
variable has not been assigned at all. -/
structure AliasScriptRet where
  ret : Bool
  op : Option ℕ
  vvch : List vchType
  pc : ℕ
  deriving DecidableEq, Repr

/-- `op` is assigned as soon as the first opcode is in range, before anything else is checked;
a script that fails later has overwritten the caller's variable all the same. -/
def aliasScript (script : CScript) (op : Option ℕ) : AliasScriptRet :=
  let r := CScript.GetOp2 script 0
  if !r.ret then ⟨false, op, [], r.pc⟩
  else if r.opcodeRet < OP_1 ∨ OP_16 < r.opcodeRet then ⟨false, op, [], r.pc⟩
  else
    let op' := r.opcodeRet - OP_1 + 1
    match aliasArgs script script.length r.pc [] with
    | none => ⟨false, some op', [], r.pc⟩
    | some (vvch, pc) =>
      ⟨aliasArity op' vvch.length, some op', vvch, skipDrops script script.length pc - 1⟩

/-- The script behind the prefix; an exception when there is no prefix. -/
def aliasStrip (scriptIn : CScript) : Option CScript :=
  let r := aliasScript scriptIn none
  if r.ret then some (scriptIn.drop r.pc) else none

end Dions
