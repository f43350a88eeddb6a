import Dions.Model.StackPositions
import Dions.Verification.Script.Run

/-! # The positions of the interpreter

The interpreter that reads its stacks by position does the same as the one that matches them, so that
no position outside of a stack is used. -/

namespace Dions

open Stop

variable {stack : List valtype}

namespace Positional

variable {crypto : ScriptCrypto} {txTo : CTransaction} {nIn flags nHashType : ℕ}

/-! ## Families of opcodes -/

theorem onStack_refines {f : List valtype → Eval (List valtype)}
    {g : List valtype → Option (List valtype)} {s : EvalState} (h : Refines (f s.stack) (g s.stack)) :
    Refines (onStack f s) (s.onStack g) := by
  rw [EvalState.onStack, Option.map_eq_bind]
  exact h.bind fun stack _ => Refines.ok _

theorem castToBigNum_refines (vch : valtype) : Refines (castToBigNum vch) (CastToBigNum vch) :=
  Refines.orElse _ _

theorem castToInt_refines (vch : valtype) :
    Refines (castToInt vch) ((CastToBigNum vch).map getint) := by
  rw [Option.map_eq_bind]
  exact (castToBigNum_refines vch).bind fun bn _ => Refines.ok _

theorem unaryNumeric_refines (f : ℤ → ℤ) (stack : List valtype) :
    Refines (unaryNumeric f stack) (Dions.unaryNumeric f stack) := by
  match stack with
  | [] => exact Refines.because _
  | vch :: rest =>
    rw [Dions.unaryNumeric, Option.map_eq_bind]
    exact (castToBigNum_refines vch).bind fun bn _ => Refines.ok _

theorem binaryNumeric_refines (f : ℤ → ℤ → ℤ) (stack : List valtype) :
    Refines (binaryNumeric false f stack) (Dions.binaryNumeric f stack) := by
  match stack with
  | [] => exact Refines.because _
  | [_] => exact Refines.because _
  | vch2 :: vch1 :: rest =>
    apply Refines.congr (o := (CastToBigNum vch1).bind fun bn1 => (CastToBigNum vch2).bind fun bn2 =>
      some (getvch (f bn1 bn2) :: rest))
    swap
    · rw [Dions.binaryNumeric]
      cases CastToBigNum vch1 <;> cases CastToBigNum vch2 <;> rfl
    refine (castToBigNum_refines vch1).bind fun bn1 _ => ?_
    refine (castToBigNum_refines vch2).bind fun bn2 _ => ?_
    exact Refines.ok _

theorem hashTop_refines (f : valtype → valtype) (stack : List valtype) :
    Refines (hashTop f stack) (Dions.hashTop f stack) := by
  match stack with
  | [] => exact Refines.because _
  | vch :: rest => exact Refines.ok _

theorem leave_refines (fVerify fSuccess : Bool) (stack : List valtype) (s : EvalState) :
    Refines (leave fVerify fSuccess stack >>= fun stack => .ok { s with stack := stack })
      (s.leave fVerify fSuccess stack) := by
  cases fVerify with
  | false => exact Refines.ok _
  | true =>
    cases fSuccess with
    | false => exact Refines.because _
    | true => exact Refines.ok _

theorem numEqualVerify_refines (f : ℤ → ℤ → ℤ) (stack : List valtype) :
    Refines (binaryNumeric true f stack)
      (match Dions.binaryNumeric f stack with
      | some (vch :: rest) => if CastToBool vch then some rest else none
      | _ => none) := by
  match stack with
  | [] => exact Refines.because _
  | [_] => exact Refines.because _
  | vch2 :: vch1 :: rest =>
    have heq : (match Dions.binaryNumeric f (vch2 :: vch1 :: rest) with
        | some (vch :: rest) => if CastToBool vch then some rest else none
        | _ => none) =
        (CastToBigNum vch1).bind fun bn1 => (CastToBigNum vch2).bind fun bn2 =>
          if CastToBool (getvch (f bn1 bn2)) = false then none else some rest := by
      rw [Dions.binaryNumeric]
      cases CastToBigNum vch1 with
      | none => rfl
      | some bn1 =>
        cases CastToBigNum vch2 with
        | none => rfl
        | some bn2 => cases hb : CastToBool (getvch (f bn1 bn2)) <;> simp [hb]
    rw [heq]
    refine (castToBigNum_refines vch1).bind fun bn1 _ => ?_
    refine (castToBigNum_refines vch2).bind fun bn2 _ => ?_
    exact Refines.check fun _ => Refines.ok _

theorem pickOrRoll_refines (fRoll : Bool) (stack : List valtype) :
    Refines (pickOrRoll fRoll stack) (pick fRoll stack) := by
  match stack with
  | [] => exact Refines.because _
  | [_] => exact Refines.because _
  | top :: x :: rest =>
    have heq : pick fRoll (top :: x :: rest) = ((CastToBigNum top).map getint).bind fun n =>
        if n < 0 ∨ ((x :: rest).length : ℤ) ≤ n then none
        else (x :: rest)[n.toNat]?.map fun vch =>
          vch :: if fRoll then (x :: rest).eraseIdx n.toNat else x :: rest := by
      rw [pick]
      cases (CastToBigNum top).map getint <;> rfl
    rw [heq]
    refine (castToInt_refines top).bind fun n _ => Refines.check fun hn => ?_
    have hinside : n.toNat < (x :: rest).length := by
      rw [not_or] at hn
      omega
    rw [List.getElem?_eq_getElem hinside, peek_inside hinside]
    cases fRoll with
    | false => exact Refines.ok _
    | true =>
      have herase : (erase (x :: rest) (n.toNat + 1) n.toNat : Eval (List valtype)) =
          .ok ((x :: rest).eraseIdx n.toNat) := erase_inside hinside
      change Refines ((erase (x :: rest) (n.toNat + 1) n.toNat : Eval (List valtype)) >>= fun stack =>
        .ok ((x :: rest)[n.toNat] :: stack)) _
      rw [herase]
      exact Refines.ok _

theorem equal_refines (fVerify : Bool) (s : EvalState) :
    Refines (onStack (equal fVerify) s) (Opcode.execute.equal s fVerify) := by
  obtain ⟨stack, altstack, vfExec, nOpCount, pbegincodehash⟩ := s
  match stack with
  | [] => exact Refines.because _
  | [_] => exact Refines.because _
  | vch2 :: vch1 :: rest =>
    exact leave_refines fVerify (vch1 == vch2) rest
      ⟨vch2 :: vch1 :: rest, altstack, vfExec, nOpCount, pbegincodehash⟩

theorem branch_refines (fExec fNot : Bool) (s : EvalState) :
    Refines (branch fExec fNot s) (Opcode.execute.branch fExec s fNot) := by
  obtain ⟨stack, altstack, vfExec, nOpCount, pbegincodehash⟩ := s
  cases fExec with
  | false => exact Refines.ok _
  | true =>
    match stack with
    | [] => exact Refines.because _
    | vch :: rest => exact Refines.ok _

/-! ## Lock times and signatures -/

theorem lockTimeChecks_refines (hnIn : nIn < txTo.vin.length) (nLockTime : ℤ) (s : EvalState) :
    Refines (lockTimeChecks txTo nIn nLockTime >>= fun _ => .ok s)
      (if lockTimeReached txTo nIn nLockTime then some s else none) := by
  rw [lockTimeChecks, lockTimeReached, List.getElem?_eq_getElem hnIn]
  simp only [bind_assoc]
  refine Refines.stopIf (fun hneg => ?_) fun hneg => ?_
  · simp [Int.not_le.mpr hneg]
  refine Refines.stopIf (fun hkind => ?_) fun hkind => ?_
  · rw [if_neg]
    intro h
    simp only [Bool.and_eq_true, Bool.or_eq_true, decide_eq_true_eq] at h
    exact hkind h.1.1.2
  refine Refines.stopIf (fun hlate => ?_) fun hlate => ?_
  · simp [Int.not_le.mpr hlate]
  refine Refines.stopIf (fun hfinal => ?_) fun hfinal => ?_
  · simp [hfinal]
  · rw [if_pos]
    · exact Refines.ok _
    · simp only [Bool.and_eq_true, Bool.or_eq_true, decide_eq_true_eq]
      refine ⟨⟨⟨Int.not_lt.mp hneg, not_not.mp hkind⟩, Int.not_lt.mp hlate⟩, ?_⟩
      simpa using hfinal

theorem checkLockTimeVerify_refines (hnIn : nIn < txTo.vin.length) (s : EvalState) :
    Refines (checkLockTimeVerify txTo nIn flags s.stack >>= fun _ => .ok s)
      (Dions.checkLockTimeVerify txTo nIn flags s) := by
  rw [checkLockTimeVerify, Dions.checkLockTimeVerify]
  by_cases hflag : flags &&& SCRIPT_VERIFY_CHECKLOCKTIMEVERIFY = 0
  · rw [if_pos hflag, if_pos hflag]
    exact Refines.ok _
  · rw [if_neg hflag, if_neg hflag]
    match hstack : s.stack with
    | [] => exact Refines.because _
    | vch :: rest =>
      change Refines ((orElse (CScriptNum.ofVch vch true CScriptNum.nDefaultMaxNumSize)
        Failure.operand >>= fun nLockTime => lockTimeChecks txTo nIn nLockTime) >>= fun _ => .ok s) _
      dsimp only
      cases CScriptNum.ofVch vch true CScriptNum.nDefaultMaxNumSize with
      | none => exact Refines.because _
      | some nLockTime => exact lockTimeChecks_refines hnIn nLockTime s

theorem checkSig_refines (script : CScript) (fVerify : Bool) (s : EvalState) :
    Refines (onStack (checkSig crypto txTo nIn nHashType script s.pbegincodehash fVerify) s)
      (checkSigOp crypto txTo nIn nHashType script fVerify s) := by
  obtain ⟨stack, altstack, vfExec, nOpCount, pbegincodehash⟩ := s
  match stack with
  | [] => exact Refines.because _
  | [_] => exact Refines.because _
  | vchPubKey :: vchSig :: rest =>
    exact leave_refines fVerify _ rest
      ⟨vchPubKey :: vchSig :: rest, altstack, vfExec, nOpCount, pbegincodehash⟩

/-! ## Several signatures -/

theorem dropSignatures_inside {n k : ℕ} (h : k + n ≤ stack.length) (scriptCode : CScript) :
    dropSignatures stack n (k + 1) scriptCode =
      .ok (((stack.drop k).take n).foldl
        (fun scriptCode vchSig => scriptCode.FindAndDelete (pushVch vchSig)) scriptCode) := by
  induction n generalizing k scriptCode with
  | zero => rfl
  | succ n ih =>
    have hk : k < stack.length := by omega
    rw [dropSignatures, peek_inside hk, List.drop_eq_getElem_cons hk, List.take_succ_cons,
      List.foldl_cons]
    exact ih (by omega) _

/-- The positions stay inside, as a signature is only looked for while there are as many keys. -/
theorem matchSignatures_inside {scriptCode : CScript} {nKeysCount nSigsCount k l : ℕ}
    (hkeys : k + nKeysCount ≤ stack.length) (hsigs : l + nSigsCount ≤ stack.length)
    (hle : nSigsCount ≤ nKeysCount) :
    matchSignatures crypto txTo nIn nHashType scriptCode stack nKeysCount (k + 1) nSigsCount (l + 1) =
      .ok (matchSigs crypto txTo nIn nHashType scriptCode ((stack.drop l).take nSigsCount)
        ((stack.drop k).take nKeysCount)) := by
  induction nKeysCount generalizing k l nSigsCount with
  | zero =>
    obtain rfl : nSigsCount = 0 := Nat.le_zero.mp hle
    rw [matchSignatures, List.take_zero, matchSigs]
  | succ nKeysCount ih =>
    match nSigsCount with
    | 0 => rw [matchSignatures, List.take_zero, matchSigs]
    | nSigsCount + 1 =>
      have hk : k < stack.length := by omega
      have hl : l < stack.length := by omega
      have hkeysLength : ((stack.drop (k + 1)).take nKeysCount).length = nKeysCount := by
        rw [List.length_take, List.length_drop]
        omega
      have hsigsLength : ((stack.drop (l + 1)).take nSigsCount).length = nSigsCount := by
        rw [List.length_take, List.length_drop]
        omega
      rw [matchSignatures, peek_inside hl, peek_inside hk, List.drop_eq_getElem_cons hk,
        List.take_succ_cons, List.drop_eq_getElem_cons hl, List.take_succ_cons, matchSigs]
      dsimp only [bind, Except.bind]
      cases hcheck : checkSignature crypto txTo nIn nHashType scriptCode stack[l] stack[k] with
      | true =>
        simp only [if_true, hkeysLength, hsigsLength]
        split
        · rfl
        · exact ih (by omega) (by omega) (by omega)
      | false =>
        simp only [Bool.false_eq_true, if_false, hkeysLength, hsigsLength, List.length_cons]
        split
        · rfl
        · rw [← List.take_succ_cons, ← List.drop_eq_getElem_cons hl]
          exact ih (by omega) (by omega) (by omega)

theorem takeCounted_cons {nMax : ℤ} {top : valtype} :
    takeCounted nMax (top :: stack) = ((CastToBigNum top).map getint).bind fun n =>
      if n < 0 ∨ nMax < n then none
      else if stack.length ≤ n.toNat then none
      else some (stack.take n.toNat, stack.drop n.toNat) := by
  rw [takeCounted]
  cases (CastToBigNum top).map getint <;> rfl

/-- What follows the keys: their number and they themselves have been read. -/
theorem countedSignatures_refines {top : valtype} {rest : List valtype} {n : ℤ} (hn : 0 ≤ n)
    (hkeys : n.toNat < rest.length) (script : CScript) (fVerify : Bool) (s : EvalState) :
    Refines (do
      let nSigsCount ← castToInt (← peek (top :: rest) (1 + 1 + n.toNat))
      returnIf (nSigsCount < 0 ∨ n < nSigsCount)
      returnIf ((top :: rest).length < 1 + 1 + n.toNat + 1 + nSigsCount.toNat)
      let scriptCode ← dropSignatures (top :: rest) nSigsCount.toNat (1 + 1 + n.toNat + 1)
        (script.drop s.pbegincodehash)
      let fSuccess ← matchSignatures crypto txTo nIn nHashType scriptCode (top :: rest) n.toNat (1 + 1)
        nSigsCount.toNat (1 + 1 + n.toNat + 1)
      let stack ← pops (1 + 1 + n.toNat + 1 + nSigsCount.toNat) (top :: rest)
      let stack ← leave fVerify fSuccess stack
      .ok { s with stack := stack })
      (match takeCounted n (rest.drop n.toNat) with
      | none => none
      | some (sigs, stack) =>
        s.leave fVerify (matchSigs crypto txTo nIn nHashType (signedScript script s.pbegincodehash sigs)
          sigs (rest.take n.toNat)) stack.tail) := by
  have hpeek : (peek (top :: rest) (1 + 1 + n.toNat) : Eval valtype) = .ok rest[n.toNat] := by
    rw [show 1 + 1 + n.toNat = (n.toNat + 1) + 1 by omega]
    exact peek_inside (Nat.succ_lt_succ hkeys)
  rw [hpeek, List.drop_eq_getElem_cons hkeys, takeCounted_cons]
  have hcast := castToInt_refines rest[n.toNat]
  generalize (CastToBigNum rest[n.toNat]).map getint = o at hcast ⊢
  change Refines (castToInt rest[n.toNat] >>= _) _
  cases o with
  | none =>
    obtain ⟨e, he⟩ := hcast
    rw [he]
    exact Refines.because e
  | some m =>
    have hok : castToInt rest[n.toNat] = .ok m := hcast
    rw [hok]
    dsimp only [Option.bind_some]
    refine Refines.stopIf (fun hrange => ?_) fun hrange => ?_
    · rw [if_pos hrange]
    rw [if_neg hrange]
    have hlength : (rest.drop (n.toNat + 1)).length = rest.length - (n.toNat + 1) := List.length_drop
    have hcons : (top :: rest).length = rest.length + 1 := List.length_cons
    refine Refines.stopIf (fun hsize => ?_) fun hsize => ?_
    · rw [if_pos (by omega)]
    rw [if_neg (by omega), dropSignatures_inside (by omega)]
    dsimp only [bind, Except.bind]
    rw [matchSignatures_inside (by omega) (by omega) (by omega)]
    dsimp only
    rw [pops_inside (by omega)]
    have hsigs : (top :: rest).drop (1 + 1 + n.toNat) = rest.drop (n.toNat + 1) := by
      rw [show 1 + 1 + n.toNat = (n.toNat + 1) + 1 by omega, List.drop_succ_cons]
    have hbelow : (top :: rest).drop (1 + 1 + n.toNat + 1 + m.toNat) =
        ((rest.drop (n.toNat + 1)).drop m.toNat).tail := by
      rw [List.drop_drop, List.tail_drop,
        show 1 + 1 + n.toNat + 1 + m.toNat = (n.toNat + 1 + m.toNat + 1) + 1 by omega,
        List.drop_succ_cons]
    rw [hsigs, hbelow]
    exact leave_refines fVerify _ _ s

theorem checkMultiSig_refines (script : CScript) (fVerify : Bool) (s : EvalState) :
    Refines (checkMultiSig crypto txTo nIn nHashType script fVerify s)
      (checkMultiSigOp crypto txTo nIn nHashType script fVerify s) := by
  obtain ⟨stack, altstack, vfExec, nOpCount, pbegincodehash⟩ := s
  match stack with
  | [] => exact Refines.because _
  | top :: rest =>
    rw [checkMultiSigOp, takeCounted_cons]
    have hcast := castToInt_refines top
    generalize (CastToBigNum top).map getint = o at hcast ⊢
    change Refines (castToInt top >>= _) _
    cases o with
    | none =>
      obtain ⟨e, he⟩ := hcast
      rw [he]
      exact Refines.because e
    | some n =>
      have hok : castToInt top = .ok n := hcast
      rw [hok]
      dsimp only [Option.bind_some]
      refine Refines.stopIf (fun hrange => ?_) fun hrange => ?_
      · rw [if_pos hrange]
      rw [if_neg hrange]
      refine Refines.stopIf (fun hops => ?_) fun hops => ?_
      · by_cases hsize : rest.length ≤ n.toNat
        · rw [if_pos hsize]
        · rw [if_neg hsize]
          dsimp only
          rw [List.length_take_of_le (Nat.le_of_not_le hsize), if_pos hops]
      refine Refines.stopIf (fun hsize => ?_) fun hsize => ?_
      · rw [if_pos]
        simp only [List.length_cons] at hsize
        omega
      have hinside : n.toNat < rest.length := by
        simp only [List.length_cons] at hsize
        omega
      rw [if_neg (Nat.not_le.mpr hinside)]
      dsimp only
      rw [List.length_take_of_le (Nat.le_of_lt hinside), if_neg hops]
      have hn : 0 ≤ n := by omega
      rw [Int.toNat_of_nonneg hn]
      exact countedSignatures_refines hn hinside script fVerify
        ⟨top :: rest, altstack, vfExec, nOpCount + n.toNat, pbegincodehash⟩

/-! ## Instructions -/

theorem within_refines (script : CScript) (pc : ℕ) (fExec : Bool) (s : EvalState) :
    Refines (execute crypto txTo nIn flags nHashType script pc fExec s .OP_WITHIN)
      (Opcode.execute crypto txTo nIn flags nHashType script pc fExec s .OP_WITHIN) := by
  rw [execute, Opcode.execute]
  apply onStack_refines
  rcases s.stack with _ | ⟨vch3, _ | ⟨vch2, _ | ⟨vch1, rest⟩⟩⟩
  · exact Refines.because _
  · exact Refines.because _
  · exact Refines.because _
  · apply Refines.congr (o := (CastToBigNum vch1).bind fun bn1 => (CastToBigNum vch2).bind fun bn2 =>
      (CastToBigNum vch3).bind fun bn3 => some (ofBool (bn2 ≤ bn1 ∧ bn1 < bn3) :: rest))
    swap
    · dsimp only
      cases CastToBigNum vch1 <;> cases CastToBigNum vch2 <;> cases CastToBigNum vch3 <;> rfl
    refine (castToBigNum_refines vch1).bind fun bn1 _ => ?_
    refine (castToBigNum_refines vch2).bind fun bn2 _ => ?_
    refine (castToBigNum_refines vch3).bind fun bn3 _ => ?_
    exact Refines.ok _

theorem execute_refines (hnIn : nIn < txTo.vin.length) (script : CScript) (pc : ℕ) (fExec : Bool)
    (s : EvalState) (opcode : Opcode) :
    Refines (execute crypto txTo nIn flags nHashType script pc fExec s opcode)
      (opcode.execute crypto txTo nIn flags nHashType script pc fExec s) := by
  cases opcode with
  | OP_N n => exact Refines.ok _
  | OP_NOP => exact Refines.ok _
  | OP_NOP2 => exact checkLockTimeVerify_refines hnIn s
  | OP_IF => exact branch_refines fExec false s
  | OP_NOTIF => exact branch_refines fExec true s
  | OP_ELSE =>
    obtain ⟨stack, altstack, vfExec, nOpCount, pbegincodehash⟩ := s
    cases vfExec with
    | nil => exact Refines.because _
    | cons fValue vfExec => exact Refines.ok _
  | OP_ENDIF =>
    obtain ⟨stack, altstack, vfExec, nOpCount, pbegincodehash⟩ := s
    cases vfExec with
    | nil => exact Refines.because _
    | cons fValue vfExec => exact Refines.ok _
  | OP_VERIFY =>
    rw [execute, Opcode.execute]
    apply onStack_refines
    cases s.stack with
    | nil => exact Refines.because _
    | cons vch rest =>
      change Refines (if CastToBool vch = true then _ else _) (if CastToBool vch = true then _ else _)
      cases CastToBool vch with
      | false => exact Refines.because _
      | true => exact Refines.ok _
  | OP_RETURN => exact Refines.because _
  | OP_TOALTSTACK =>
    obtain ⟨stack, altstack, vfExec, nOpCount, pbegincodehash⟩ := s
    cases stack with
    | nil => exact Refines.because _
    | cons vch rest => exact Refines.ok _
  | OP_FROMALTSTACK =>
    obtain ⟨stack, altstack, vfExec, nOpCount, pbegincodehash⟩ := s
    cases altstack with
    | nil => exact Refines.because _
    | cons vch rest => exact Refines.ok _
  | OP_IFDUP | OP_DROP | OP_DUP | OP_SIZE =>
    rw [execute, Opcode.execute]
    apply onStack_refines
    cases s.stack with
    | nil => exact Refines.because _
    | cons vch rest => exact Refines.ok _
  | OP_2DROP | OP_2DUP | OP_NIP | OP_OVER | OP_SWAP | OP_TUCK =>
    rw [execute, Opcode.execute]
    apply onStack_refines
    rcases s.stack with _ | ⟨_, _ | ⟨_, rest⟩⟩
    · exact Refines.because _
    · exact Refines.because _
    · exact Refines.ok _
  | OP_3DUP | OP_ROT =>
    rw [execute, Opcode.execute]
    apply onStack_refines
    rcases s.stack with _ | ⟨_, _ | ⟨_, _ | ⟨_, rest⟩⟩⟩
    · exact Refines.because _
    · exact Refines.because _
    · exact Refines.because _
    · exact Refines.ok _
  | OP_2OVER | OP_2SWAP =>
    rw [execute, Opcode.execute]
    apply onStack_refines
    rcases s.stack with _ | ⟨_, _ | ⟨_, _ | ⟨_, _ | ⟨_, rest⟩⟩⟩⟩
    · exact Refines.because _
    · exact Refines.because _
    · exact Refines.because _
    · exact Refines.because _
    · exact Refines.ok _
  | OP_2ROT =>
    rw [execute, Opcode.execute]
    apply onStack_refines
    rcases s.stack with _ | ⟨_, _ | ⟨_, _ | ⟨_, _ | ⟨_, _ | ⟨_, _ | ⟨_, rest⟩⟩⟩⟩⟩⟩
    · exact Refines.because _
    · exact Refines.because _
    · exact Refines.because _
    · exact Refines.because _
    · exact Refines.because _
    · exact Refines.because _
    · exact Refines.ok _
  | OP_DEPTH => exact Refines.ok _
  | OP_PICK => exact onStack_refines (pickOrRoll_refines false s.stack)
  | OP_ROLL => exact onStack_refines (pickOrRoll_refines true s.stack)
  | OP_EQUAL => exact equal_refines false s
  | OP_EQUALVERIFY => exact equal_refines true s
  | OP_1ADD | OP_1SUB | OP_NEGATE | OP_ABS | OP_NOT | OP_0NOTEQUAL =>
    exact onStack_refines (unaryNumeric_refines _ s.stack)
  | OP_ADD | OP_SUB | OP_BOOLAND | OP_BOOLOR | OP_NUMEQUAL | OP_NUMNOTEQUAL | OP_LESSTHAN
  | OP_GREATERTHAN | OP_LESSTHANOREQUAL | OP_GREATERTHANOREQUAL | OP_MIN | OP_MAX =>
    exact onStack_refines (binaryNumeric_refines _ s.stack)
  | OP_NUMEQUALVERIFY =>
    rw [execute, Opcode.execute]
    apply onStack_refines
    exact numEqualVerify_refines _ s.stack
  | OP_WITHIN => exact within_refines script pc fExec s
  | OP_RIPEMD160 | OP_SHA1 | OP_SHA256 | OP_HASH160 | OP_HASH256 =>
    exact onStack_refines (hashTop_refines _ s.stack)
  | OP_CODESEPARATOR => exact Refines.ok _
  | OP_CHECKSIG => exact checkSig_refines script false s
  | OP_CHECKSIGVERIFY => exact checkSig_refines script true s
  | OP_CHECKMULTISIG => exact checkMultiSig_refines script false s
  | OP_CHECKMULTISIGVERIFY => exact checkMultiSig_refines script true s

theorem evalInstruction_refines (hnIn : nIn < txTo.vin.length) (script : CScript) (r : GetOpRet)
    (s : EvalState) :
    Refines (evalInstruction crypto txTo nIn flags nHashType script r s)
      (Dions.evalInstruction crypto txTo nIn flags nHashType script r s) := by
  rw [Dions.evalInstruction]
  generalize hcounted : (if OP_16 < r.opcodeRet then { s with nOpCount := s.nOpCount + 1 } else s) = s'
  rw [evalInstruction, hcounted]
  refine Refines.stopIf (fun hret => ?_) fun hret => ?_
  · simp [hret]
  rw [if_neg (by simpa using hret)]
  refine Refines.check fun hsize => ?_
  refine Refines.check fun hops => ?_
  refine Refines.check fun hdisabled => ?_
  refine Refines.bind ?_ ?_
  swap
  · intro s _
    exact Refines.check fun _ => Refines.ok s
  rw [evalOpcode]
  by_cases hpush : (s.vfExec.all id = true) ∧ r.opcodeRet ≤ OP_PUSHDATA4
  · rw [if_pos hpush, if_pos hpush]
    exact Refines.ok _
  rw [if_neg hpush, if_neg hpush]
  by_cases hexec : (s.vfExec.all id = true) ∨ isConditional r.opcodeRet = true
  · rw [if_pos hexec, if_pos hexec]
    cases Opcode.ofNat r.opcodeRet with
    | none => exact Refines.because _
    | some opcode => exact execute_refines hnIn script r.pc _ s' opcode
  · rw [if_neg hexec, if_neg hexec]
    exact Refines.ok _

theorem evalLoop_refines (hnIn : nIn < txTo.vin.length) (script : CScript) (fuel pc : ℕ)
    (s : EvalState) :
    Refines (evalLoop crypto txTo nIn flags nHashType script fuel pc s)
      (Dions.evalLoop crypto txTo nIn flags nHashType script fuel pc s) := by
  induction fuel generalizing pc s with
  | zero => exact Refines.ok _
  | succ fuel ih =>
    rw [evalLoop, Dions.evalLoop]
    by_cases hend : script.length ≤ pc
    · rw [if_pos hend, if_pos hend]
      exact Refines.ok _
    · rw [if_neg hend, if_neg hend]
      apply Refines.congr (o := (Dions.evalInstruction crypto txTo nIn flags nHashType script
        (CScript.GetOp2 script pc) s).bind
          (Dions.evalLoop crypto txTo nIn flags nHashType script fuel (CScript.GetOp2 script pc).pc))
      · exact (evalInstruction_refines hnIn script _ s).bind fun s _ => ih _ s
      · dsimp only
        cases Dions.evalInstruction crypto txTo nIn flags nHashType script (CScript.GetOp2 script pc) s <;>
          rfl

/-- No position outside of a stack is used in a run, and the answer is the one of the interpreter
without positions. -/
theorem EvalScript_refines (hnIn : nIn < txTo.vin.length) (stack : List valtype) (script : CScript) :
    Refines (EvalScript crypto txTo nIn flags nHashType stack script)
      (Dions.EvalScript crypto txTo nIn flags nHashType stack script) := by
  rw [EvalScript, Dions.EvalScript]
  refine Refines.check fun _ => ?_
  apply Refines.congr (o := (Dions.evalLoop crypto txTo nIn flags nHashType script script.length 0
    ⟨stack, [], [], 0, 0⟩).bind fun s => if s.vfExec.isEmpty = false then none else some s.stack)
  · refine (evalLoop_refines hnIn script _ 0 _).bind fun s _ => ?_
    exact Refines.check fun _ => Refines.ok _
  · cases Dions.evalLoop crypto txTo nIn flags nHashType script script.length 0 ⟨stack, [], [], 0, 0⟩ with
    | none => rfl
    | some s =>
      change (if s.vfExec.isEmpty = false then none else some s.stack) =
        if s.vfExec.isEmpty = true then some s.stack else none
      cases s.vfExec.isEmpty <;> rfl

end Positional

end Dions
