import Dions.Model.Signature

/-! # The script interpreter

`EvalScript` and `VerifyScript`. A stack is a list with its top first, and `vfExec` a list with the
innermost condition first. An exception of the interpreter is caught and makes its answer `false`, so
both are `none` here. -/

namespace Dions

open LittleEndian

/-! ## Numbers on the stack -/

/-- A number in sign-magnitude form, the lowest byte first and the sign in the highest bit. -/
def setvch (vch : valtype) : ℤ :=
  match vch.getLast? with
  | none => 0
  | some b =>
    if b.toNat < 0x80 then ofBytes vch
    else -((ofBytes vch - 0x80 * 256 ^ (vch.length - 1) : ℕ) : ℤ)

/-- The shortest form that leaves a bit for the sign. -/
def getvch (n : ℤ) : valtype :=
  if n = 0 then []
  else
    let size := (n.natAbs.log2 + 1) / 8 + 1
    toBytes size (n.natAbs + if n < 0 then 2 ^ (8 * size - 1) else 0)

/-- The range of `int`. -/
def getint (n : ℤ) : ℤ := max (-2 ^ 31) (min (2 ^ 31 - 1) n)

def nMaxNumSize : ℕ := 4

def CastToBigNum (vch : valtype) : Option ℤ :=
  if nMaxNumSize < vch.length then none else some (setvch vch)

/-- Zero is false in every length, and so is negative zero. -/
def CastToBool : valtype → Bool
  | [] => false
  | [b] => b.toNat != 0 && b.toNat != 0x80
  | b :: vch => b.toNat != 0 || CastToBool vch

def vchFalse : valtype := []

def vchTrue : valtype := [1]

def ofBool (fValue : Bool) : valtype := if fValue then vchTrue else vchFalse

namespace CScriptNum

def nDefaultMaxNumSize : ℕ := 4

def set_vch (vch : valtype) : ℤ := setvch vch

/-- The number has the fewest bytes possible. -/
def isMinimal (vch : valtype) : Bool :=
  vch.isEmpty || byteAt vch (vch.length - 1) &&& 0x7f != 0 ||
    (1 < vch.length && byteAt vch (vch.length - 2) &&& 0x80 != 0)

/-- The constructor from bytes, `none` where it throws. -/
def ofVch (vch : valtype) (fRequireMinimal : Bool) (nMaxNumSize : ℕ) : Option ℤ :=
  if nMaxNumSize < vch.length then none
  else if fRequireMinimal && !isMinimal vch then none
  else some (set_vch vch)

end CScriptNum

def MAX_SCRIPT_ELEMENT_SIZE : ℕ := 1000000

/-! ## Opcodes -/

def OP_CHECKLOCKTIMEVERIFY : ℕ := 0xb1

def OP_NOP2 : ℕ := OP_CHECKLOCKTIMEVERIFY

/-- The opcodes that fail wherever they stand in a script, also when they are not executed. -/
def disabledOpcodes : List ℕ :=
  [0x7e, 0x7f, 0x80, 0x81, 0x83, 0x84, 0x85, 0x86, 0x8d, 0x8e, 0x95, 0x96, 0x97, 0x98, 0x99]

/-- The cases of the switch that can be reached. `OP_N` is `OP_1NEGATE` and `OP_1` to `OP_16` with
their values; `OP_NOP` is also the other opcodes without effect. -/
inductive Opcode where
  | OP_N (n : ℤ)
  | OP_NOP | OP_NOP2
  | OP_IF | OP_NOTIF | OP_ELSE | OP_ENDIF | OP_VERIFY | OP_RETURN
  | OP_TOALTSTACK | OP_FROMALTSTACK
  | OP_2DROP | OP_2DUP | OP_3DUP | OP_2OVER | OP_2ROT | OP_2SWAP | OP_IFDUP | OP_DEPTH | OP_DROP
  | OP_DUP | OP_NIP | OP_OVER | OP_PICK | OP_ROLL | OP_ROT | OP_SWAP | OP_TUCK
  | OP_SIZE | OP_EQUAL | OP_EQUALVERIFY
  | OP_1ADD | OP_1SUB | OP_NEGATE | OP_ABS | OP_NOT | OP_0NOTEQUAL
  | OP_ADD | OP_SUB | OP_BOOLAND | OP_BOOLOR | OP_NUMEQUAL | OP_NUMEQUALVERIFY | OP_NUMNOTEQUAL
  | OP_LESSTHAN | OP_GREATERTHAN | OP_LESSTHANOREQUAL | OP_GREATERTHANOREQUAL | OP_MIN | OP_MAX
  | OP_WITHIN
  | OP_RIPEMD160 | OP_SHA1 | OP_SHA256 | OP_HASH160 | OP_HASH256
  | OP_CODESEPARATOR | OP_CHECKSIG | OP_CHECKSIGVERIFY | OP_CHECKMULTISIG | OP_CHECKMULTISIGVERIFY
  deriving DecidableEq, Repr

/-- The case of an opcode, `none` for the default. -/
def Opcode.ofNat (opcode : ℕ) : Option Opcode :=
  if opcode = 0x4f ∨ 0x51 ≤ opcode ∧ opcode ≤ 0x60 then some (.OP_N (opcode - 0x50 : ℤ))
  else match opcode with
  | 0x61 => some .OP_NOP
  | 0x63 => some .OP_IF
  | 0x64 => some .OP_NOTIF
  | 0x67 => some .OP_ELSE
  | 0x68 => some .OP_ENDIF
  | 0x69 => some .OP_VERIFY
  | 0x6a => some .OP_RETURN
  | 0x6b => some .OP_TOALTSTACK
  | 0x6c => some .OP_FROMALTSTACK
  | 0x6d => some .OP_2DROP
  | 0x6e => some .OP_2DUP
  | 0x6f => some .OP_3DUP
  | 0x70 => some .OP_2OVER
  | 0x71 => some .OP_2ROT
  | 0x72 => some .OP_2SWAP
  | 0x73 => some .OP_IFDUP
  | 0x74 => some .OP_DEPTH
  | 0x75 => some .OP_DROP
  | 0x76 => some .OP_DUP
  | 0x77 => some .OP_NIP
  | 0x78 => some .OP_OVER
  | 0x79 => some .OP_PICK
  | 0x7a => some .OP_ROLL
  | 0x7b => some .OP_ROT
  | 0x7c => some .OP_SWAP
  | 0x7d => some .OP_TUCK
  | 0x82 => some .OP_SIZE
  | 0x87 => some .OP_EQUAL
  | 0x88 => some .OP_EQUALVERIFY
  | 0x8b => some .OP_1ADD
  | 0x8c => some .OP_1SUB
  | 0x8f => some .OP_NEGATE
  | 0x90 => some .OP_ABS
  | 0x91 => some .OP_NOT
  | 0x92 => some .OP_0NOTEQUAL
  | 0x93 => some .OP_ADD
  | 0x94 => some .OP_SUB
  | 0x9a => some .OP_BOOLAND
  | 0x9b => some .OP_BOOLOR
  | 0x9c => some .OP_NUMEQUAL
  | 0x9d => some .OP_NUMEQUALVERIFY
  | 0x9e => some .OP_NUMNOTEQUAL
  | 0x9f => some .OP_LESSTHAN
  | 0xa0 => some .OP_GREATERTHAN
  | 0xa1 => some .OP_LESSTHANOREQUAL
  | 0xa2 => some .OP_GREATERTHANOREQUAL
  | 0xa3 => some .OP_MIN
  | 0xa4 => some .OP_MAX
  | 0xa5 => some .OP_WITHIN
  | 0xa6 => some .OP_RIPEMD160
  | 0xa7 => some .OP_SHA1
  | 0xa8 => some .OP_SHA256
  | 0xa9 => some .OP_HASH160
  | 0xaa => some .OP_HASH256
  | 0xab => some .OP_CODESEPARATOR
  | 0xac => some .OP_CHECKSIG
  | 0xad => some .OP_CHECKSIGVERIFY
  | 0xae => some .OP_CHECKMULTISIG
  | 0xaf => some .OP_CHECKMULTISIGVERIFY
  | 0xb0 => some .OP_NOP
  | 0xb1 => some .OP_NOP2
  | 0xb2 => some .OP_NOP
  | 0xb3 => some .OP_NOP
  | 0xb4 => some .OP_NOP
  | 0xb5 => some .OP_NOP
  | 0xb6 => some .OP_NOP
  | 0xb7 => some .OP_NOP
  | 0xb8 => some .OP_NOP
  | 0xb9 => some .OP_NOP
  | _ => none

/-- The opcodes from `OP_IF` to `OP_ENDIF` run also in a branch that is not taken. -/
def isConditional (opcode : ℕ) : Bool := 0x63 ≤ opcode && opcode ≤ 0x68

/-! ## The state of a run -/

structure EvalState where
  stack : List valtype
  altstack : List valtype
  vfExec : List Bool
  nOpCount : ℕ
  pbegincodehash : ℕ
  deriving DecidableEq, Repr

namespace EvalState

/-- An operation that reads and writes the stack alone. -/
def onStack (f : List valtype → Option (List valtype)) (s : EvalState) : Option EvalState :=
  (f s.stack).map fun stack => { s with stack := stack }

/-- The verifying form of an opcode: its answer is taken off the stack again, or fails the script. -/
def leave (fVerify fSuccess : Bool) (stack : List valtype) (s : EvalState) : Option EvalState :=
  if fVerify then if fSuccess then some { s with stack := stack } else none
  else some { s with stack := ofBool fSuccess :: stack }

end EvalState

/-- `OP_PICK` and `OP_ROLL`. -/
def pick (fRoll : Bool) : List valtype → Option (List valtype)
  | top :: x :: rest =>
    let stack := x :: rest
    match (CastToBigNum top).map getint with
    | none => none
    | some n =>
      if n < 0 ∨ (stack.length : ℤ) ≤ n then none
      else
        stack[n.toNat]?.map fun vch =>
          vch :: if fRoll then stack.eraseIdx n.toNat else stack
  | _ => none

/-- The numeric opcodes with one operand. -/
def unaryNumeric (f : ℤ → ℤ) : List valtype → Option (List valtype)
  | vch :: rest => (CastToBigNum vch).map fun bn => getvch (f bn) :: rest
  | [] => none

/-- The numeric opcodes with two operands, the second one on top. -/
def binaryNumeric (f : ℤ → ℤ → ℤ) : List valtype → Option (List valtype)
  | vch2 :: vch1 :: rest =>
    match CastToBigNum vch1, CastToBigNum vch2 with
    | some bn1, some bn2 => some (getvch (f bn1 bn2) :: rest)
    | _, _ => none
  | _ => none

/-- A truth value as the number that the numeric opcodes push. -/
def bnOfBool (fValue : Bool) : ℤ := if fValue then 1 else 0

/-- The opcodes that replace the top by its digest. -/
def hashTop (f : valtype → valtype) : List valtype → Option (List valtype)
  | vch :: rest => some (f vch :: rest)
  | [] => none

/-! ## Lock times and signatures -/

section Context

variable (crypto : ScriptCrypto) (txTo : CTransaction) (nIn flags nHashType : ℕ)

/-- The four conditions on a lock time that was read from the stack. -/
def lockTimeReached (nLockTime : ℤ) : Bool :=
  match txTo.vin[nIn]? with
  | none => false
  | some txin =>
    0 ≤ nLockTime &&
      ((txTo.nLockTime < LOCKTIME_THRESHOLD && nLockTime < LOCKTIME_THRESHOLD) ||
        (LOCKTIME_THRESHOLD ≤ txTo.nLockTime && LOCKTIME_THRESHOLD ≤ nLockTime)) &&
      nLockTime ≤ txTo.nLockTime && !txin.IsFinal

/-- `OP_NOP2`. The constructor takes the 5 for `fRequireMinimal`, and the length for the default. -/
def checkLockTimeVerify (s : EvalState) : Option EvalState :=
  if flags &&& SCRIPT_VERIFY_CHECKLOCKTIMEVERIFY = 0 then some s
  else
    match s.stack with
    | [] => none
    | vch :: _ =>
      match CScriptNum.ofVch vch true CScriptNum.nDefaultMaxNumSize with
      | none => none
      | some nLockTime => if lockTimeReached txTo nIn nLockTime then some s else none

/-- A canonical signature of the transaction by a canonical key. -/
def checkSignature (scriptCode : CScript) (vchSig vchPubKey : valtype) : Bool :=
  IsCanonicalSignature vchSig && IsCanonicalPubKey vchPubKey &&
    CheckSig crypto vchSig vchPubKey scriptCode txTo nIn nHashType

/-- The script behind the last code separator without the signatures. -/
def signedScript (script : CScript) (pbegincodehash : ℕ) (sigs : List valtype) : CScript :=
  sigs.foldl (fun scriptCode vchSig => scriptCode.FindAndDelete (pushVch vchSig))
    (script.drop pbegincodehash)

/-- `OP_CHECKSIG` and its verifying form. -/
def checkSigOp (script : CScript) (fVerify : Bool) (s : EvalState) : Option EvalState :=
  match s.stack with
  | vchPubKey :: vchSig :: rest =>
    let scriptCode := signedScript script s.pbegincodehash [vchSig]
    s.leave fVerify (checkSignature crypto txTo nIn nHashType scriptCode vchSig vchPubKey) rest
  | _ => none

/-- The loop over the keys: every signature must match a key behind those of the signatures before
it, and the loop gives up once more signatures are left than keys. -/
def matchSigs (scriptCode : CScript) : (sigs keys : List valtype) → Bool
  | [], _ => true
  | _ :: _, [] => false
  | vchSig :: sigs, vchPubKey :: keys =>
    let sigs' :=
      if checkSignature crypto txTo nIn nHashType scriptCode vchSig vchPubKey then sigs
      else vchSig :: sigs
    if keys.length < sigs'.length then false else matchSigs scriptCode sigs' keys

/-- A count and that many elements behind it; there must be one more element on the stack. -/
def takeCounted (nMax : ℤ) : List valtype → Option (List valtype × List valtype)
  | [] => none
  | top :: stack =>
    match (CastToBigNum top).map getint with
    | none => none
    | some n =>
      if n < 0 ∨ nMax < n then none
      else if stack.length ≤ n.toNat then none
      else some (stack.take n.toNat, stack.drop n.toNat)

/-- `OP_CHECKMULTISIG` and its verifying form. The element below the signatures is dropped. -/
def checkMultiSigOp (script : CScript) (fVerify : Bool) (s : EvalState) : Option EvalState :=
  match takeCounted 20 s.stack with
  | none => none
  | some (keys, stack) =>
    let s := { s with nOpCount := s.nOpCount + keys.length }
    if 201 < s.nOpCount then none
    else
      match takeCounted keys.length stack with
      | none => none
      | some (sigs, stack) =>
        let scriptCode := signedScript script s.pbegincodehash sigs
        s.leave fVerify (matchSigs crypto txTo nIn nHashType scriptCode sigs keys) stack.tail

/-! ## EvalScript -/

/-- One round of the switch, for an instruction that ends at `pc`. -/
def Opcode.execute (script : CScript) (pc : ℕ) (fExec : Bool) (s : EvalState) :
    Opcode → Option EvalState
  | .OP_N n => some { s with stack := getvch n :: s.stack }
  | .OP_NOP => some s
  | .OP_NOP2 => checkLockTimeVerify txTo nIn flags s
  | .OP_IF => branch false
  | .OP_NOTIF => branch true
  | .OP_ELSE =>
    match s.vfExec with
    | [] => none
    | fValue :: vfExec => some { s with vfExec := (!fValue) :: vfExec }
  | .OP_ENDIF =>
    match s.vfExec with
    | [] => none
    | _ :: vfExec => some { s with vfExec := vfExec }
  | .OP_VERIFY =>
    s.onStack fun
      | vch :: rest => if CastToBool vch then some rest else none
      | [] => none
  | .OP_RETURN => none
  | .OP_TOALTSTACK =>
    match s.stack with
    | vch :: rest => some { s with stack := rest, altstack := vch :: s.altstack }
    | [] => none
  | .OP_FROMALTSTACK =>
    match s.altstack with
    | vch :: rest => some { s with stack := vch :: s.stack, altstack := rest }
    | [] => none
  | .OP_2DROP => s.onStack fun
      | _ :: _ :: rest => some rest
      | _ => none
  | .OP_2DUP => s.onStack fun
      | x2 :: x1 :: rest => some (x2 :: x1 :: x2 :: x1 :: rest)
      | _ => none
  | .OP_3DUP => s.onStack fun
      | x3 :: x2 :: x1 :: rest => some (x3 :: x2 :: x1 :: x3 :: x2 :: x1 :: rest)
      | _ => none
  | .OP_2OVER => s.onStack fun
      | x4 :: x3 :: x2 :: x1 :: rest => some (x2 :: x1 :: x4 :: x3 :: x2 :: x1 :: rest)
      | _ => none
  | .OP_2ROT => s.onStack fun
      | x6 :: x5 :: x4 :: x3 :: x2 :: x1 :: rest =>
        some (x2 :: x1 :: x6 :: x5 :: x4 :: x3 :: rest)
      | _ => none
  | .OP_2SWAP => s.onStack fun
      | x4 :: x3 :: x2 :: x1 :: rest => some (x2 :: x1 :: x4 :: x3 :: rest)
      | _ => none
  | .OP_IFDUP => s.onStack fun
      | x :: rest => some (if CastToBool x then x :: x :: rest else x :: rest)
      | [] => none
  | .OP_DEPTH => s.onStack fun stack => some (getvch stack.length :: stack)
  | .OP_DROP => s.onStack fun
      | _ :: rest => some rest
      | [] => none
  | .OP_DUP => s.onStack fun
      | x :: rest => some (x :: x :: rest)
      | [] => none
  | .OP_NIP => s.onStack fun
      | x2 :: _ :: rest => some (x2 :: rest)
      | _ => none
  | .OP_OVER => s.onStack fun
      | x2 :: x1 :: rest => some (x1 :: x2 :: x1 :: rest)
      | _ => none
  | .OP_PICK => s.onStack (pick false)
  | .OP_ROLL => s.onStack (pick true)
  | .OP_ROT => s.onStack fun
      | x3 :: x2 :: x1 :: rest => some (x1 :: x3 :: x2 :: rest)
      | _ => none
  | .OP_SWAP => s.onStack fun
      | x2 :: x1 :: rest => some (x1 :: x2 :: rest)
      | _ => none
  | .OP_TUCK => s.onStack fun
      | x2 :: x1 :: rest => some (x2 :: x1 :: x2 :: rest)
      | _ => none
  | .OP_SIZE => s.onStack fun
      | vch :: rest => some (getvch vch.length :: vch :: rest)
      | [] => none
  | .OP_EQUAL => equal false
  | .OP_EQUALVERIFY => equal true
  | .OP_1ADD => s.onStack (unaryNumeric (· + 1))
  | .OP_1SUB => s.onStack (unaryNumeric (· - 1))
  | .OP_NEGATE => s.onStack (unaryNumeric (- ·))
  | .OP_ABS => s.onStack (unaryNumeric fun bn => if bn < 0 then -bn else bn)
  | .OP_NOT => s.onStack (unaryNumeric fun bn => bnOfBool (bn = 0))
  | .OP_0NOTEQUAL => s.onStack (unaryNumeric fun bn => bnOfBool (bn ≠ 0))
  | .OP_ADD => s.onStack (binaryNumeric (· + ·))
  | .OP_SUB => s.onStack (binaryNumeric (· - ·))
  | .OP_BOOLAND => s.onStack (binaryNumeric fun bn1 bn2 => bnOfBool (bn1 ≠ 0 ∧ bn2 ≠ 0))
  | .OP_BOOLOR => s.onStack (binaryNumeric fun bn1 bn2 => bnOfBool (bn1 ≠ 0 ∨ bn2 ≠ 0))
  | .OP_NUMEQUAL => s.onStack (binaryNumeric fun bn1 bn2 => bnOfBool (bn1 = bn2))
  | .OP_NUMEQUALVERIFY =>
    s.onStack fun stack =>
      match binaryNumeric (fun bn1 bn2 => bnOfBool (bn1 = bn2)) stack with
      | some (vch :: rest) => if CastToBool vch then some rest else none
      | _ => none
  | .OP_NUMNOTEQUAL => s.onStack (binaryNumeric fun bn1 bn2 => bnOfBool (bn1 ≠ bn2))
  | .OP_LESSTHAN => s.onStack (binaryNumeric fun bn1 bn2 => bnOfBool (bn1 < bn2))
  | .OP_GREATERTHAN => s.onStack (binaryNumeric fun bn1 bn2 => bnOfBool (bn2 < bn1))
  | .OP_LESSTHANOREQUAL => s.onStack (binaryNumeric fun bn1 bn2 => bnOfBool (bn1 ≤ bn2))
  | .OP_GREATERTHANOREQUAL => s.onStack (binaryNumeric fun bn1 bn2 => bnOfBool (bn2 ≤ bn1))
  | .OP_MIN => s.onStack (binaryNumeric fun bn1 bn2 => if bn1 < bn2 then bn1 else bn2)
  | .OP_MAX => s.onStack (binaryNumeric fun bn1 bn2 => if bn2 < bn1 then bn1 else bn2)
  | .OP_WITHIN => s.onStack fun
      | vch3 :: vch2 :: vch1 :: rest =>
        match CastToBigNum vch1, CastToBigNum vch2, CastToBigNum vch3 with
        | some bn1, some bn2, some bn3 => some (ofBool (bn2 ≤ bn1 ∧ bn1 < bn3) :: rest)
        | _, _, _ => none
      | _ => none
  | .OP_RIPEMD160 => s.onStack (hashTop crypto.RIPEMD160)
  | .OP_SHA1 => s.onStack (hashTop crypto.SHA1)
  | .OP_SHA256 => s.onStack (hashTop crypto.SHA256)
  | .OP_HASH160 => s.onStack (hashTop crypto.HASH160)
  | .OP_HASH256 => s.onStack (hashTop crypto.HASH256)
  | .OP_CODESEPARATOR => some { s with pbegincodehash := pc }
  | .OP_CHECKSIG => checkSigOp crypto txTo nIn nHashType script false s
  | .OP_CHECKSIGVERIFY => checkSigOp crypto txTo nIn nHashType script true s
  | .OP_CHECKMULTISIG => checkMultiSigOp crypto txTo nIn nHashType script false s
  | .OP_CHECKMULTISIGVERIFY => checkMultiSigOp crypto txTo nIn nHashType script true s
where
  /-- The condition of a branch is read only where the branch itself is executed. -/
  branch (fNot : Bool) : Option EvalState :=
    if fExec then
      match s.stack with
      | vch :: rest =>
        some { s with stack := rest, vfExec := (CastToBool vch != fNot) :: s.vfExec }
      | [] => none
    else some { s with vfExec := false :: s.vfExec }
  equal (fVerify : Bool) : Option EvalState :=
    match s.stack with
    | vch2 :: vch1 :: rest => s.leave fVerify (vch1 == vch2) rest
    | _ => none

/-- What one instruction does to the state. -/
def evalInstruction (script : CScript) (r : GetOpRet) (s : EvalState) : Option EvalState :=
  let fExec := s.vfExec.all id
  let s := if OP_16 < r.opcodeRet then { s with nOpCount := s.nOpCount + 1 } else s
  if !r.ret then none
  else if MAX_SCRIPT_ELEMENT_SIZE < r.vchRet.length then none
  else if OP_16 < r.opcodeRet ∧ 201 < s.nOpCount then none
  else if r.opcodeRet ∈ disabledOpcodes then none
  else
    let next :=
      if fExec ∧ r.opcodeRet ≤ OP_PUSHDATA4 then some { s with stack := r.vchRet :: s.stack }
      else if fExec ∨ isConditional r.opcodeRet then
        match Opcode.ofNat r.opcodeRet with
        | none => none
        | some opcode => opcode.execute crypto txTo nIn flags nHashType script r.pc fExec s
      else some s
    next.bind fun s =>
      if 1000 < s.stack.length + s.altstack.length then none else some s

/-- The loop over the instructions; each has at least one byte. -/
def evalLoop (script : CScript) : (fuel pc : ℕ) → EvalState → Option EvalState
  | 0, _, s => some s
  | fuel + 1, pc, s =>
    if script.length ≤ pc then some s
    else
      let r := CScript.GetOp2 script pc
      match evalInstruction crypto txTo nIn flags nHashType script r s with
      | none => none
      | some s => evalLoop script fuel r.pc s

/-- The stack that the script leaves, `none` where the answer is `false`. -/
def EvalScript (stack : List valtype) (script : CScript) : Option (List valtype) :=
  if 1000000 < script.length then none
  else
    match evalLoop crypto txTo nIn flags nHashType script script.length 0
      ⟨stack, [], [], 0, 0⟩ with
    | none => none
    | some s => if s.vfExec.isEmpty then some s.stack else none

/-! ## VerifyScript -/

def pushOnlyLoop (script : CScript) : (fuel pc : ℕ) → Bool
  | 0, _ => true
  | fuel + 1, pc =>
    if script.length ≤ pc then true
    else
      let r := CScript.GetOp2 script pc
      if !r.ret ∨ OP_16 < r.opcodeRet then false else pushOnlyLoop script fuel r.pc

def CScript.IsPushOnly (script : CScript) : Bool := pushOnlyLoop script script.length 0

/-- The script leaves a stack with a true value on top. -/
def accepts (stack : Option (List valtype)) : Bool :=
  match stack with
  | some (vch :: _) => CastToBool vch
  | _ => false

def VerifyScript (scriptSig scriptPubKey : CScript) : Bool :=
  match EvalScript crypto txTo nIn flags nHashType [] scriptSig with
  | none => false
  | some stackCopy =>
    if !accepts (EvalScript crypto txTo nIn flags nHashType stackCopy scriptPubKey) then false
    else if scriptPubKey.IsPayToScriptHash then
      if !scriptSig.IsPushOnly then false
      else
        match stackCopy with
        | [] => false
        | pubKey2 :: stackCopy =>
          accepts (EvalScript crypto txTo nIn flags nHashType stackCopy pubKey2)
    else true

end Context

end Dions
