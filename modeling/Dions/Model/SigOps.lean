import Dions.Model.Interpreter

/-! # Counting signature checks

The interpreter once more, with the number of calls of `CheckSig` next to each answer. The call is the
last of three conditions, so it is not made for a key or a signature that is not canonical. -/

namespace Dions

section Context

variable (crypto : ScriptCrypto) (txTo : CTransaction) (nIn flags nHashType : ℕ)

def checkSignatureCounted (scriptCode : CScript) (vchSig vchPubKey : valtype) : ℕ × Bool :=
  if IsCanonicalSignature vchSig && IsCanonicalPubKey vchPubKey then
    (1, CheckSig crypto vchSig vchPubKey scriptCode txTo nIn nHashType)
  else (0, false)

def checkSigOpCounted (script : CScript) (fVerify : Bool) (s : EvalState) : ℕ × Option EvalState :=
  match s.stack with
  | vchPubKey :: vchSig :: rest =>
    let scriptCode := signedScript script s.pbegincodehash [vchSig]
    let checked := checkSignatureCounted crypto txTo nIn nHashType scriptCode vchSig vchPubKey
    (checked.1, s.leave fVerify checked.2 rest)
  | _ => (0, none)

def matchSigsCounted (scriptCode : CScript) : (sigs keys : List valtype) → ℕ × Bool
  | [], _ => (0, true)
  | _ :: _, [] => (0, false)
  | vchSig :: sigs, vchPubKey :: keys =>
    let checked := checkSignatureCounted crypto txTo nIn nHashType scriptCode vchSig vchPubKey
    let sigs' := if checked.2 then sigs else vchSig :: sigs
    if keys.length < sigs'.length then (checked.1, false)
    else
      let rest := matchSigsCounted scriptCode sigs' keys
      (checked.1 + rest.1, rest.2)

def checkMultiSigOpCounted (script : CScript) (fVerify : Bool) (s : EvalState) :
    ℕ × Option EvalState :=
  match takeCounted 20 s.stack with
  | none => (0, none)
  | some (keys, stack) =>
    let s := { s with nOpCount := s.nOpCount + keys.length }
    if 201 < s.nOpCount then (0, none)
    else
      match takeCounted keys.length stack with
      | none => (0, none)
      | some (sigs, stack) =>
        let scriptCode := signedScript script s.pbegincodehash sigs
        let matched := matchSigsCounted crypto txTo nIn nHashType scriptCode sigs keys
        (matched.1, s.leave fVerify matched.2 stack.tail)

/-- Four opcodes check signatures. -/
def Opcode.executeCounted (script : CScript) (pc : ℕ) (fExec : Bool) (s : EvalState) :
    Opcode → ℕ × Option EvalState
  | .OP_CHECKSIG => checkSigOpCounted crypto txTo nIn nHashType script false s
  | .OP_CHECKSIGVERIFY => checkSigOpCounted crypto txTo nIn nHashType script true s
  | .OP_CHECKMULTISIG => checkMultiSigOpCounted crypto txTo nIn nHashType script false s
  | .OP_CHECKMULTISIGVERIFY => checkMultiSigOpCounted crypto txTo nIn nHashType script true s
  | opcode => (0, opcode.execute crypto txTo nIn flags nHashType script pc fExec s)

def evalInstructionCounted (script : CScript) (r : GetOpRet) (s : EvalState) :
    ℕ × Option EvalState :=
  let fExec := s.vfExec.all id
  let s := if OP_16 < r.opcodeRet then { s with nOpCount := s.nOpCount + 1 } else s
  if !r.ret then (0, none)
  else if MAX_SCRIPT_ELEMENT_SIZE < r.vchRet.length then (0, none)
  else if OP_16 < r.opcodeRet ∧ 201 < s.nOpCount then (0, none)
  else if r.opcodeRet ∈ disabledOpcodes then (0, none)
  else
    let next :=
      if fExec ∧ r.opcodeRet ≤ OP_PUSHDATA4 then (0, some { s with stack := r.vchRet :: s.stack })
      else if fExec ∨ isConditional r.opcodeRet then
        match Opcode.ofNat r.opcodeRet with
        | none => (0, none)
        | some opcode => opcode.executeCounted crypto txTo nIn flags nHashType script r.pc fExec s
      else (0, some s)
    (next.1, next.2.bind fun s =>
      if 1000 < s.stack.length + s.altstack.length then none else some s)

def evalLoopCounted (script : CScript) : (fuel pc : ℕ) → EvalState → ℕ × Option EvalState
  | 0, _, s => (0, some s)
  | fuel + 1, pc, s =>
    if script.length ≤ pc then (0, some s)
    else
      let r := CScript.GetOp2 script pc
      match evalInstructionCounted crypto txTo nIn flags nHashType script r s with
      | (calls, none) => (calls, none)
      | (calls, some s) =>
        let rest := evalLoopCounted script fuel r.pc s
        (calls + rest.1, rest.2)

def EvalScriptCounted (stack : List valtype) (script : CScript) : ℕ × Option (List valtype) :=
  if 1000000 < script.length then (0, none)
  else
    match evalLoopCounted crypto txTo nIn flags nHashType script script.length 0
      ⟨stack, [], [], 0, 0⟩ with
    | (calls, none) => (calls, none)
    | (calls, some s) => (calls, if s.vfExec.isEmpty then some s.stack else none)

end Context

end Dions
