import Dions.Library.Positions
import Dions.Model.Interpreter

/-! # The script interpreter, position by position

`EvalScript` with every position of a stack that it reads, erases, swaps or inserts at. `stacktop(-k)`
and `stack.end() - k` are the position `k`. -/

namespace Dions

open Stop

namespace Positional

/-- How the interpreter fails a script by itself: by `return false`, or by an exception of the checks
of an operand, which the handler around the loop turns into that. -/
inductive Failure where
  | returned
  | operand
  deriving DecidableEq, Repr

abbrev Eval := Except (Stop Failure)

/-- `if (...) return false`. -/
def returnIf (p : Prop) [Decidable p] : Eval Unit := stopIf p .returned

/-- `CastToBigNum`, which throws. -/
def castToBigNum (vch : valtype) : Eval ℤ := orElse (CastToBigNum vch) .operand

/-- `CastToBigNum(...).getint()`. -/
def castToInt (vch : valtype) : Eval ℤ := do
  let bn ← castToBigNum vch
  .ok (getint bn)

section Context

variable (crypto : ScriptCrypto) (txTo : CTransaction) (nIn flags nHashType : ℕ)

/-! ## Families of opcodes -/

def unaryNumeric (f : ℤ → ℤ) (stack : List valtype) : Eval (List valtype) := do
  returnIf (stack.length < 1)
  let bn ← castToBigNum (← peek stack 1)
  let stack ← pop stack
  .ok (getvch (f bn) :: stack)

/-- The verifying form reads what it has pushed. -/
def binaryNumeric (fVerify : Bool) (f : ℤ → ℤ → ℤ) (stack : List valtype) :
    Eval (List valtype) := do
  returnIf (stack.length < 2)
  let bn1 ← castToBigNum (← peek stack 2)
  let bn2 ← castToBigNum (← peek stack 1)
  let stack ← pop stack
  let stack ← pop stack
  let stack := getvch (f bn1 bn2) :: stack
  if fVerify then do
    returnIf (CastToBool (← peek stack 1) = false)
    pop stack
  else .ok stack

def hashTop (f : valtype → valtype) (stack : List valtype) : Eval (List valtype) := do
  returnIf (stack.length < 1)
  let vch ← peek stack 1
  let stack ← pop stack
  .ok (f vch :: stack)

/-- The answer of an opcode on top of the stack, which its verifying form takes off again. -/
def leave (fVerify fSuccess : Bool) (stack : List valtype) : Eval (List valtype) := do
  let stack := ofBool fSuccess :: stack
  if fVerify then do
    returnIf (fSuccess = false)
    pop stack
  else .ok stack

def pickOrRoll (fRoll : Bool) (stack : List valtype) : Eval (List valtype) := do
  returnIf (stack.length < 2)
  let n ← castToInt (← peek stack 1)
  let stack ← pop stack
  returnIf (n < 0 ∨ (stack.length : ℤ) ≤ n)
  let vch ← peek stack (n.toNat + 1)
  let stack ← if fRoll then erase stack (n.toNat + 1) n.toNat else .ok stack
  .ok (vch :: stack)

def equal (fVerify : Bool) (stack : List valtype) : Eval (List valtype) := do
  returnIf (stack.length < 2)
  let vch1 ← peek stack 2
  let vch2 ← peek stack 1
  let stack ← pop stack
  let stack ← pop stack
  leave fVerify (vch1 == vch2) stack

/-! ## Lock times and signatures -/

/-- The conditions on a lock time that was read from the stack. -/
def lockTimeChecks (nLockTime : ℤ) : Eval Unit := do
  returnIf (nLockTime < 0)
  returnIf (¬((txTo.nLockTime < LOCKTIME_THRESHOLD ∧ nLockTime < LOCKTIME_THRESHOLD) ∨
    (LOCKTIME_THRESHOLD ≤ txTo.nLockTime ∧ LOCKTIME_THRESHOLD ≤ nLockTime)))
  returnIf ((txTo.nLockTime : ℤ) < nLockTime)
  match txTo.vin[nIn]? with
  | none => .error .outside
  | some txin => returnIf (txin.IsFinal = true)

def checkLockTimeVerify (stack : List valtype) : Eval Unit :=
  if flags &&& SCRIPT_VERIFY_CHECKLOCKTIMEVERIFY = 0 then .ok ()
  else do
    returnIf (stack.length < 1)
    let nLockTime ← orElse
      (CScriptNum.ofVch (← peek stack 1) true CScriptNum.nDefaultMaxNumSize) .operand
    lockTimeChecks txTo nIn nLockTime

def checkSig (script : CScript) (pbegincodehash : ℕ) (fVerify : Bool) (stack : List valtype) :
    Eval (List valtype) := do
  returnIf (stack.length < 2)
  let vchSig ← peek stack 2
  let vchPubKey ← peek stack 1
  let scriptCode := CScript.FindAndDelete (script.drop pbegincodehash) (pushVch vchSig)
  let fSuccess := checkSignature crypto txTo nIn nHashType scriptCode vchSig vchPubKey
  let stack ← pop stack
  let stack ← pop stack
  leave fVerify fSuccess stack

/-- The loop that drops the signatures from the script, from the one at `isig` on. -/
def dropSignatures (stack : List valtype) :
    (nSigsCount isig : ℕ) → CScript → Eval CScript
  | 0, _, scriptCode => .ok scriptCode
  | n + 1, isig, scriptCode => do
    let vchSig ← peek stack isig
    dropSignatures stack n (isig + 1) (scriptCode.FindAndDelete (pushVch vchSig))

/-- The loop over the keys. With no key left a round still reads, and is the last one. -/
def matchSignatures (scriptCode : CScript) (stack : List valtype) :
    (nKeysCount ikey nSigsCount isig : ℕ) → Eval Bool
  | _, _, 0, _ => .ok true
  | 0, ikey, _ + 1, isig => do
    let _ ← peek stack isig
    let _ ← peek stack ikey
    .ok false
  | nKeysCount + 1, ikey, nSigsCount + 1, isig => do
    let vchSig ← peek stack isig
    let vchPubKey ← peek stack ikey
    let fOk := checkSignature crypto txTo nIn nHashType scriptCode vchSig vchPubKey
    let isig' := if fOk then isig + 1 else isig
    let nSigsCount' := if fOk then nSigsCount else nSigsCount + 1
    if nKeysCount < nSigsCount' then .ok false
    else matchSignatures scriptCode stack nKeysCount (ikey + 1) nSigsCount' isig'

/-- The position `i` goes from the number of keys over the keys to the number of signatures, over
these and to the element below them. -/
def checkMultiSig (script : CScript) (fVerify : Bool) (s : EvalState) : Eval EvalState := do
  let i := 1
  returnIf (s.stack.length < i)
  let nKeysCount ← castToInt (← peek s.stack i)
  returnIf (nKeysCount < 0 ∨ 20 < nKeysCount)
  let nOpCount := s.nOpCount + nKeysCount.toNat
  returnIf (201 < nOpCount)
  let ikey := i + 1
  let i := ikey + nKeysCount.toNat
  returnIf (s.stack.length < i)
  let nSigsCount ← castToInt (← peek s.stack i)
  returnIf (nSigsCount < 0 ∨ nKeysCount < nSigsCount)
  let isig := i + 1
  let i := isig + nSigsCount.toNat
  returnIf (s.stack.length < i)
  let scriptCode ← dropSignatures s.stack nSigsCount.toNat isig (script.drop s.pbegincodehash)
  let fSuccess ← matchSignatures crypto txTo nIn nHashType scriptCode s.stack nKeysCount.toNat ikey
    nSigsCount.toNat isig
  let stack ← pops i s.stack
  let stack ← leave fVerify fSuccess stack
  .ok { s with stack := stack, nOpCount := nOpCount }

/-! ## EvalScript -/

/-- A case of the switch that works on the stack alone. -/
def onStack (f : List valtype → Eval (List valtype)) (s : EvalState) : Eval EvalState := do
  let stack ← f s.stack
  .ok { s with stack := stack }

/-- The condition of a branch. -/
def branch (fExec fNot : Bool) (s : EvalState) : Eval EvalState :=
  if fExec then do
    returnIf (s.stack.length < 1)
    let fValue := CastToBool (← peek s.stack 1)
    let stack ← pop s.stack
    .ok { s with stack := stack, vfExec := (fValue != fNot) :: s.vfExec }
  else .ok { s with vfExec := false :: s.vfExec }

def execute (script : CScript) (pc : ℕ) (fExec : Bool) (s : EvalState) :
    Opcode → Eval EvalState
  | .OP_N n => .ok { s with stack := getvch n :: s.stack }
  | .OP_NOP => .ok s
  | .OP_NOP2 => do
    checkLockTimeVerify txTo nIn flags s.stack
    .ok s
  | .OP_IF => branch fExec false s
  | .OP_NOTIF => branch fExec true s
  | .OP_ELSE => do
    returnIf (s.vfExec.length < 1)
    let fValue ← peek s.vfExec 1
    .ok { s with vfExec := s.vfExec.set 0 (!fValue) }
  | .OP_ENDIF => do
    returnIf (s.vfExec.length < 1)
    let vfExec ← pop s.vfExec
    .ok { s with vfExec := vfExec }
  | .OP_VERIFY => s |> onStack fun stack => do
    returnIf (stack.length < 1)
    let fValue := CastToBool (← peek stack 1)
    if fValue then pop stack else .error (.because .returned)
  | .OP_RETURN => .error (.because .returned)
  | .OP_TOALTSTACK => do
    returnIf (s.stack.length < 1)
    let vch ← peek s.stack 1
    let stack ← pop s.stack
    .ok { s with stack := stack, altstack := vch :: s.altstack }
  | .OP_FROMALTSTACK => do
    returnIf (s.altstack.length < 1)
    let vch ← peek s.altstack 1
    let altstack ← pop s.altstack
    .ok { s with stack := vch :: s.stack, altstack := altstack }
  | .OP_2DROP => s |> onStack fun stack => do
    returnIf (stack.length < 2)
    let stack ← pop stack
    pop stack
  | .OP_2DUP => s |> onStack fun stack => do
    returnIf (stack.length < 2)
    let vch1 ← peek stack 2
    let vch2 ← peek stack 1
    .ok (vch2 :: vch1 :: stack)
  | .OP_3DUP => s |> onStack fun stack => do
    returnIf (stack.length < 3)
    let vch1 ← peek stack 3
    let vch2 ← peek stack 2
    let vch3 ← peek stack 1
    .ok (vch3 :: vch2 :: vch1 :: stack)
  | .OP_2OVER => s |> onStack fun stack => do
    returnIf (stack.length < 4)
    let vch1 ← peek stack 4
    let vch2 ← peek stack 3
    .ok (vch2 :: vch1 :: stack)
  | .OP_2ROT => s |> onStack fun stack => do
    returnIf (stack.length < 6)
    let vch1 ← peek stack 6
    let vch2 ← peek stack 5
    let stack ← erase stack 6 4
    .ok (vch2 :: vch1 :: stack)
  | .OP_2SWAP => s |> onStack fun stack => do
    returnIf (stack.length < 4)
    let stack ← swap stack 4 2
    swap stack 3 1
  | .OP_IFDUP => s |> onStack fun stack => do
    returnIf (stack.length < 1)
    let vch ← peek stack 1
    .ok (if CastToBool vch then vch :: stack else stack)
  | .OP_DEPTH => s |> onStack fun stack => .ok (getvch stack.length :: stack)
  | .OP_DROP => s |> onStack fun stack => do
    returnIf (stack.length < 1)
    pop stack
  | .OP_DUP => s |> onStack fun stack => do
    returnIf (stack.length < 1)
    let vch ← peek stack 1
    .ok (vch :: stack)
  | .OP_NIP => s |> onStack fun stack => do
    returnIf (stack.length < 2)
    erase stack 2 1
  | .OP_OVER => s |> onStack fun stack => do
    returnIf (stack.length < 2)
    let vch ← peek stack 2
    .ok (vch :: stack)
  | .OP_PICK => s |> onStack (pickOrRoll false)
  | .OP_ROLL => s |> onStack (pickOrRoll true)
  | .OP_ROT => s |> onStack fun stack => do
    returnIf (stack.length < 3)
    let stack ← swap stack 3 2
    swap stack 2 1
  | .OP_SWAP => s |> onStack fun stack => do
    returnIf (stack.length < 2)
    swap stack 2 1
  | .OP_TUCK => s |> onStack fun stack => do
    returnIf (stack.length < 2)
    let vch ← peek stack 1
    insert stack 2 vch
  | .OP_SIZE => s |> onStack fun stack => do
    returnIf (stack.length < 1)
    let vch ← peek stack 1
    .ok (getvch vch.length :: stack)
  | .OP_EQUAL => s |> onStack (equal false)
  | .OP_EQUALVERIFY => s |> onStack (equal true)
  | .OP_1ADD => s |> onStack (unaryNumeric (· + 1))
  | .OP_1SUB => s |> onStack (unaryNumeric (· - 1))
  | .OP_NEGATE => s |> onStack (unaryNumeric (- ·))
  | .OP_ABS => s |> onStack (unaryNumeric fun bn => if bn < 0 then -bn else bn)
  | .OP_NOT => s |> onStack (unaryNumeric fun bn => bnOfBool (bn = 0))
  | .OP_0NOTEQUAL => s |> onStack (unaryNumeric fun bn => bnOfBool (bn ≠ 0))
  | .OP_ADD => s |> onStack (binaryNumeric false (· + ·))
  | .OP_SUB => s |> onStack (binaryNumeric false (· - ·))
  | .OP_BOOLAND =>
    s |> onStack (binaryNumeric false fun bn1 bn2 => bnOfBool (bn1 ≠ 0 ∧ bn2 ≠ 0))
  | .OP_BOOLOR =>
    s |> onStack (binaryNumeric false fun bn1 bn2 => bnOfBool (bn1 ≠ 0 ∨ bn2 ≠ 0))
  | .OP_NUMEQUAL => s |> onStack (binaryNumeric false fun bn1 bn2 => bnOfBool (bn1 = bn2))
  | .OP_NUMEQUALVERIFY => s |> onStack (binaryNumeric true fun bn1 bn2 => bnOfBool (bn1 = bn2))
  | .OP_NUMNOTEQUAL => s |> onStack (binaryNumeric false fun bn1 bn2 => bnOfBool (bn1 ≠ bn2))
  | .OP_LESSTHAN => s |> onStack (binaryNumeric false fun bn1 bn2 => bnOfBool (bn1 < bn2))
  | .OP_GREATERTHAN => s |> onStack (binaryNumeric false fun bn1 bn2 => bnOfBool (bn2 < bn1))
  | .OP_LESSTHANOREQUAL =>
    s |> onStack (binaryNumeric false fun bn1 bn2 => bnOfBool (bn1 ≤ bn2))
  | .OP_GREATERTHANOREQUAL =>
    s |> onStack (binaryNumeric false fun bn1 bn2 => bnOfBool (bn2 ≤ bn1))
  | .OP_MIN => s |> onStack (binaryNumeric false fun bn1 bn2 => if bn1 < bn2 then bn1 else bn2)
  | .OP_MAX => s |> onStack (binaryNumeric false fun bn1 bn2 => if bn2 < bn1 then bn1 else bn2)
  | .OP_WITHIN => s |> onStack fun stack => do
    returnIf (stack.length < 3)
    let bn1 ← castToBigNum (← peek stack 3)
    let bn2 ← castToBigNum (← peek stack 2)
    let bn3 ← castToBigNum (← peek stack 1)
    let stack ← pop stack
    let stack ← pop stack
    let stack ← pop stack
    .ok (ofBool (bn2 ≤ bn1 ∧ bn1 < bn3) :: stack)
  | .OP_RIPEMD160 => s |> onStack (hashTop crypto.RIPEMD160)
  | .OP_SHA1 => s |> onStack (hashTop crypto.SHA1)
  | .OP_SHA256 => s |> onStack (hashTop crypto.SHA256)
  | .OP_HASH160 => s |> onStack (hashTop crypto.HASH160)
  | .OP_HASH256 => s |> onStack (hashTop crypto.HASH256)
  | .OP_CODESEPARATOR => .ok { s with pbegincodehash := pc }
  | .OP_CHECKSIG =>
    s |> onStack (checkSig crypto txTo nIn nHashType script s.pbegincodehash false)
  | .OP_CHECKSIGVERIFY =>
    s |> onStack (checkSig crypto txTo nIn nHashType script s.pbegincodehash true)
  | .OP_CHECKMULTISIG => checkMultiSig crypto txTo nIn nHashType script false s
  | .OP_CHECKMULTISIGVERIFY => checkMultiSig crypto txTo nIn nHashType script true s

/-- An opcode that pushes, one of the switch, or one that is skipped. -/
def evalOpcode (script : CScript) (r : GetOpRet) (fExec : Bool) (s : EvalState) : Eval EvalState :=
  if fExec ∧ r.opcodeRet ≤ OP_PUSHDATA4 then .ok { s with stack := r.vchRet :: s.stack }
  else if fExec ∨ isConditional r.opcodeRet then
    match Opcode.ofNat r.opcodeRet with
    | none => .error (.because .returned)
    | some opcode => execute crypto txTo nIn flags nHashType script r.pc fExec s opcode
  else .ok s

/-- One round of the loop, for the instruction that `GetOp` has read. -/
def evalInstruction (script : CScript) (r : GetOpRet) (s : EvalState) : Eval EvalState := do
  let fExec := s.vfExec.all id
  returnIf (r.ret = false)
  returnIf (MAX_SCRIPT_ELEMENT_SIZE < r.vchRet.length)
  let s := if OP_16 < r.opcodeRet then { s with nOpCount := s.nOpCount + 1 } else s
  returnIf (OP_16 < r.opcodeRet ∧ 201 < s.nOpCount)
  returnIf (r.opcodeRet ∈ disabledOpcodes)
  let s ← evalOpcode crypto txTo nIn flags nHashType script r fExec s
  returnIf (1000 < s.stack.length + s.altstack.length)
  .ok s

def evalLoop (script : CScript) : (fuel pc : ℕ) → EvalState → Eval EvalState
  | 0, _, s => .ok s
  | fuel + 1, pc, s =>
    if script.length ≤ pc then .ok s
    else do
      let r := CScript.GetOp2 script pc
      let s ← evalInstruction crypto txTo nIn flags nHashType script r s
      evalLoop script fuel r.pc s

def EvalScript (stack : List valtype) (script : CScript) : Eval (List valtype) := do
  returnIf (1000000 < script.length)
  let s ← evalLoop crypto txTo nIn flags nHashType script script.length 0 ⟨stack, [], [], 0, 0⟩
  returnIf (s.vfExec.isEmpty = false)
  .ok s.stack

end Context

end Positional

end Dions
