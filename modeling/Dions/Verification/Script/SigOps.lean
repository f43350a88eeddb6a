import Dions.Model.SigOps
import Dions.Verification.Script.Multisig

/-! # The count of signature operations

The scan of the bytes and the interpreter read the same instructions, whether a branch is taken or
not, so each instruction can be compared with what the scan adds for it. -/

namespace Dions

variable {stack : List valtype} {script : CScript} {s : EvalState}
variable {taken : List valtype} {lastOpcode n : ℕ} {opcode : Opcode}
  {pubKey2 scriptPubKey scriptSig : CScript}

section Context

variable {crypto : ScriptCrypto} {txTo : CTransaction} {nIn flags nHashType : ℕ}

/-! ## The counted run is the run -/

theorem checkSignatureCounted_snd (scriptCode : CScript) (vchSig vchPubKey : valtype) :
    (checkSignatureCounted crypto txTo nIn nHashType scriptCode vchSig vchPubKey).2 =
      checkSignature crypto txTo nIn nHashType scriptCode vchSig vchPubKey := by
  rw [checkSignatureCounted, checkSignature]
  cases IsCanonicalSignature vchSig && IsCanonicalPubKey vchPubKey <;> rfl

theorem checkSignatureCounted_le (scriptCode : CScript) (vchSig vchPubKey : valtype) :
    (checkSignatureCounted crypto txTo nIn nHashType scriptCode vchSig vchPubKey).1 ≤ 1 := by
  rw [checkSignatureCounted]
  split <;> simp

theorem checkSigOpCounted_snd (script : CScript) (fVerify : Bool) (s : EvalState) :
    (checkSigOpCounted crypto txTo nIn nHashType script fVerify s).2 =
      checkSigOp crypto txTo nIn nHashType script fVerify s := by
  rw [checkSigOpCounted, checkSigOp]
  match s.stack with
  | [] => rfl
  | [_] => rfl
  | vchPubKey :: vchSig :: rest =>
    dsimp only
    rw [checkSignatureCounted_snd]

theorem checkSigOpCounted_le (script : CScript) (fVerify : Bool) (s : EvalState) :
    (checkSigOpCounted crypto txTo nIn nHashType script fVerify s).1 ≤ 1 := by
  rw [checkSigOpCounted]
  split
  · exact checkSignatureCounted_le _ _ _
  · exact Nat.zero_le 1

theorem matchSigsCounted_snd (scriptCode : CScript) (sigs keys : List valtype) :
    (matchSigsCounted crypto txTo nIn nHashType scriptCode sigs keys).2 =
      matchSigs crypto txTo nIn nHashType scriptCode sigs keys := by
  induction keys generalizing sigs with
  | nil => cases sigs <;> rfl
  | cons vchPubKey keys ih =>
    cases sigs with
    | nil => rfl
    | cons vchSig sigs =>
      simp only [matchSigsCounted, matchSigs, checkSignatureCounted_snd]
      by_cases hleft : keys.length < (if checkSignature crypto txTo nIn nHashType scriptCode vchSig
          vchPubKey = true then sigs else vchSig :: sigs).length
      · rw [if_pos hleft, if_pos hleft]
      · rw [if_neg hleft, if_neg hleft]
        exact ih _

/-- Every call uses up a key. -/
theorem matchSigsCounted_le (scriptCode : CScript) (sigs keys : List valtype) :
    (matchSigsCounted crypto txTo nIn nHashType scriptCode sigs keys).1 ≤ keys.length := by
  induction keys generalizing sigs with
  | nil => cases sigs <;> exact le_rfl
  | cons vchPubKey keys ih =>
    cases sigs with
    | nil => exact Nat.zero_le _
    | cons vchSig sigs =>
      have hone := @checkSignatureCounted_le crypto txTo nIn nHashType scriptCode vchSig vchPubKey
      rw [matchSigsCounted, List.length_cons]
      dsimp only
      generalize checkSignatureCounted crypto txTo nIn nHashType scriptCode vchSig vchPubKey =
        checked at hone ⊢
      have hrest := ih (if checked.2 = true then sigs else vchSig :: sigs)
      by_cases hleft : keys.length < (if checked.2 = true then sigs else vchSig :: sigs).length
      · rw [if_pos hleft]
        dsimp only
        omega
      · rw [if_neg hleft]
        dsimp only
        omega

theorem checkMultiSigOpCounted_snd (script : CScript) (fVerify : Bool) (s : EvalState) :
    (checkMultiSigOpCounted crypto txTo nIn nHashType script fVerify s).2 =
      checkMultiSigOp crypto txTo nIn nHashType script fVerify s := by
  rw [checkMultiSigOpCounted, checkMultiSigOp]
  cases takeCounted 20 s.stack with
  | none => rfl
  | some taken =>
    obtain ⟨keys, stack⟩ := taken
    dsimp only
    by_cases hops : 201 < s.nOpCount + keys.length
    · rw [if_pos hops, if_pos hops]
    · rw [if_neg hops, if_neg hops]
      cases takeCounted keys.length stack with
      | none => rfl
      | some taken =>
        dsimp only
        rw [matchSigsCounted_snd]

theorem executeCounted_snd (script : CScript) (pc : ℕ) (fExec : Bool) (s : EvalState)
    (opcode : Opcode) :
    (opcode.executeCounted crypto txTo nIn flags nHashType script pc fExec s).2 =
      opcode.execute crypto txTo nIn flags nHashType script pc fExec s := by
  cases opcode with
  | OP_CHECKSIG => exact checkSigOpCounted_snd script false s
  | OP_CHECKSIGVERIFY => exact checkSigOpCounted_snd script true s
  | OP_CHECKMULTISIG => exact checkMultiSigOpCounted_snd script false s
  | OP_CHECKMULTISIGVERIFY => exact checkMultiSigOpCounted_snd script true s
  | _ => rfl

theorem evalInstructionCounted_snd (script : CScript) (r : GetOpRet) (s : EvalState) :
    (evalInstructionCounted crypto txTo nIn flags nHashType script r s).2 =
      evalInstruction crypto txTo nIn flags nHashType script r s := by
  simp only [evalInstructionCounted, evalInstruction, apply_ite Prod.snd]
  congr 5
  split
  · rfl
  · split
    · cases Opcode.ofNat r.opcodeRet with
      | none => rfl
      | some opcode => exact executeCounted_snd _ _ _ _ opcode
    · rfl

theorem evalLoopCounted_snd (script : CScript) (fuel pc : ℕ) (s : EvalState) :
    (evalLoopCounted crypto txTo nIn flags nHashType script fuel pc s).2 =
      evalLoop crypto txTo nIn flags nHashType script fuel pc s := by
  induction fuel generalizing pc s with
  | zero => rfl
  | succ fuel ih =>
    rw [evalLoopCounted, evalLoop]
    split
    · rfl
    · dsimp only
      rw [← evalInstructionCounted_snd]
      cases evalInstructionCounted crypto txTo nIn flags nHashType script (script.GetOp2 pc) s with
      | mk calls next =>
        cases next with
        | none => rfl
        | some t => exact ih _ t

theorem EvalScriptCounted_snd (stack : List valtype) (script : CScript) :
    (EvalScriptCounted crypto txTo nIn flags nHashType stack script).2 =
      EvalScript crypto txTo nIn flags nHashType stack script := by
  rw [EvalScriptCounted, EvalScript]
  split
  · rfl
  · rw [← evalLoopCounted_snd]
    cases evalLoopCounted crypto txTo nIn flags nHashType script script.length 0
        ⟨stack, [], [], 0, 0⟩ with
    | mk calls next =>
      cases next with
      | none => rfl
      | some t => rfl

/-! ## Counts from the stack -/

theorem takeCounted_le {nMax : ℤ} {left : List valtype}
    (h : takeCounted nMax stack = some (taken, left)) : taken.length ≤ nMax.toNat := by
  cases stack with
  | nil => simp [takeCounted] at h
  | cons top stack =>
    simp only [takeCounted] at h
    cases hn : (CastToBigNum top).map getint with
    | none => simp [hn] at h
    | some n =>
      simp only [hn] at h
      split at h
      · simp at h
      · rename_i hrange
        split at h
        · simp at h
        · simp only [Option.some.injEq, Prod.mk.injEq] at h
          rw [← h.1, List.length_take]
          omega

theorem getint_getvch (h : n ≤ 16) : (CastToBigNum (getvch n)).map getint = some (n : ℤ) := by
  have hall : ∀ n < 17, (CastToBigNum (getvch (n : ℕ))).map getint = some (n : ℤ) := by
    decide
  exact hall n (Nat.lt_succ_of_le h)

/-- A small number on top of the stack is the count that is taken. -/
theorem takeCounted_getvch {nMax : ℤ} {left : List valtype} (hn : n ≤ 16)
    (h : takeCounted nMax (getvch n :: stack) = some (taken, left)) : taken.length ≤ n := by
  simp only [takeCounted, getint_getvch hn] at h
  split at h
  · simp at h
  · split at h
    · simp at h
    · simp only [Option.some.injEq, Prod.mk.injEq] at h
      rw [← h.1, List.length_take, Int.toNat_natCast]
      exact Nat.min_le_left _ _

/-- The calls of an opcode with several keys are no more than its keys. -/
theorem checkMultiSigOpCounted_le {fVerify : Bool} {bound : ℕ}
    (hkeys : ∀ keys left, takeCounted 20 s.stack = some (keys, left) → keys.length ≤ bound) :
    (checkMultiSigOpCounted crypto txTo nIn nHashType script fVerify s).1 ≤ bound := by
  rw [checkMultiSigOpCounted]
  cases htaken : takeCounted 20 s.stack with
  | none => exact Nat.zero_le _
  | some taken =>
    obtain ⟨keys, left⟩ := taken
    dsimp only
    split
    · exact Nat.zero_le _
    · cases takeCounted keys.length left with
      | none => exact Nat.zero_le _
      | some taken =>
        exact (matchSigsCounted_le _ _ keys).trans (hkeys keys left htaken)

/-! ## One instruction -/

/-- What the scan adds for an opcode behind another one. -/
def instructionSigOps (fAccurate : Bool) (lastOpcode opcode : ℕ) : ℕ :=
  if opcode = OP_CHECKSIG ∨ opcode = OP_CHECKSIGVERIFY then 1
  else if opcode = OP_CHECKMULTISIG ∨ opcode = OP_CHECKMULTISIGVERIFY then
    if fAccurate ∧ OP_1 ≤ lastOpcode ∧ lastOpcode ≤ OP_16 then lastOpcode - (OP_1 - 1) else 20
  else 0

theorem sigOpLoop_succ (script : CScript) (fAccurate : Bool) (fuel pc lastOpcode n : ℕ) :
    sigOpLoop script fAccurate (fuel + 1) pc lastOpcode n =
      if (script.GetOp2 pc).ret then
        sigOpLoop script fAccurate fuel (script.GetOp2 pc).pc (script.GetOp2 pc).opcodeRet
          (n + instructionSigOps fAccurate lastOpcode (script.GetOp2 pc).opcodeRet)
      else n := by
  rw [sigOpLoop, instructionSigOps]
  dsimp only
  cases (script.GetOp2 pc).ret with
  | false => rfl
  | true =>
    simp only [Bool.not_true, Bool.false_eq_true, if_false, if_true]
    congr 1
    split
    · rfl
    · split
      · split <;> rfl
      · rfl

/-- In a branch that is taken, a small number that was read last is on top of the stack. -/
def LastOnTop (lastOpcode : ℕ) (s : EvalState) : Prop :=
  OP_1 ≤ lastOpcode → lastOpcode ≤ OP_16 → s.vfExec.all id = true →
    ∃ rest, s.stack = getvch ((lastOpcode - (OP_1 - 1) : ℕ) : ℤ) :: rest

theorem Opcode.ofNat_large {opcode : ℕ} (h : 256 ≤ opcode) : Opcode.ofNat opcode = none := by
  unfold Opcode.ofNat
  rw [if_neg (by omega)]
  split <;> first | omega | rfl

theorem Opcode.ofNat_checks (h : Opcode.ofNat n = some opcode) :
    (opcode = .OP_CHECKSIG → n = Dions.OP_CHECKSIG) ∧
      (opcode = .OP_CHECKSIGVERIFY → n = Dions.OP_CHECKSIGVERIFY) ∧
      (opcode = .OP_CHECKMULTISIG → n = Dions.OP_CHECKMULTISIG) ∧
      (opcode = .OP_CHECKMULTISIGVERIFY → n = Dions.OP_CHECKMULTISIGVERIFY) := by
  have hlow : n < 256 := by
    by_contra hlarge
    rw [Opcode.ofNat_large (Nat.not_lt.mp hlarge)] at h
    simp at h
  have hall : ∀ n < 256,
      (Opcode.ofNat n = some .OP_CHECKSIG → n = Dions.OP_CHECKSIG) ∧
      (Opcode.ofNat n = some .OP_CHECKSIGVERIFY → n = Dions.OP_CHECKSIGVERIFY) ∧
      (Opcode.ofNat n = some .OP_CHECKMULTISIG → n = Dions.OP_CHECKMULTISIG) ∧
      (Opcode.ofNat n = some .OP_CHECKMULTISIGVERIFY → n = Dions.OP_CHECKMULTISIGVERIFY) := by
    decide +kernel
  obtain ⟨hsig, hsigVerify, hmulti, hmultiVerify⟩ := hall n hlow
  exact ⟨fun e => hsig (e ▸ h), fun e => hsigVerify (e ▸ h), fun e => hmulti (e ▸ h),
    fun e => hmultiVerify (e ▸ h)⟩

/-- The keys that are taken are covered by the number in front of the opcode. -/
theorem multisigKeys_le (hlast : LastOnTop lastOpcode s) (hexec : s.vfExec.all id = true)
    {keys left : List valtype} (h : takeCounted 20 s.stack = some (keys, left)) :
    keys.length ≤ instructionSigOps true lastOpcode OP_CHECKMULTISIG := by
  have hscan : instructionSigOps true lastOpcode OP_CHECKMULTISIG =
      if OP_1 ≤ lastOpcode ∧ lastOpcode ≤ OP_16 then lastOpcode - (OP_1 - 1) else 20 := by
    simp [instructionSigOps, OP_CHECKSIG, OP_CHECKSIGVERIFY, OP_CHECKMULTISIG,
      OP_CHECKMULTISIGVERIFY]
  rw [hscan]
  split
  · rename_i hsmall
    obtain ⟨rest, hstack⟩ := hlast hsmall.1 hsmall.2 hexec
    rw [hstack] at h
    apply takeCounted_getvch _ h
    have := hsmall.2
    simp only [OP_16, OP_1] at this ⊢
    omega
  · exact takeCounted_le h

/-- An opcode makes no more calls than the scan adds for it. -/
theorem executeCounted_le {pc : ℕ} {fExec : Bool} (hlast : LastOnTop lastOpcode s)
    (hcase : Opcode.ofNat n = some opcode) (hexec : s.vfExec.all id = true ∨ isConditional n = true) :
    (opcode.executeCounted crypto txTo nIn flags nHashType script pc fExec s).1 ≤
      instructionSigOps true lastOpcode n := by
  obtain ⟨hsig, hsigVerify, hmulti, hmultiVerify⟩ := Opcode.ofNat_checks hcase
  have hkeys : ∀ op, (op = OP_CHECKMULTISIG ∨ op = OP_CHECKMULTISIGVERIFY) → n = op →
      ∀ keys left, takeCounted 20 s.stack = some (keys, left) →
        keys.length ≤ instructionSigOps true lastOpcode OP_CHECKMULTISIG := by
    intro op hop hn keys left htaken
    cases hexec with
    | inl htaken' => exact multisigKeys_le hlast htaken' htaken
    | inr hconditional =>
      simp only [isConditional, Bool.and_eq_true, decide_eq_true_eq, OP_CHECKMULTISIG,
        OP_CHECKMULTISIGVERIFY] at hconditional hop
      omega
  cases opcode with
  | OP_CHECKSIG =>
    rw [hsig rfl]
    exact checkSigOpCounted_le script false s
  | OP_CHECKSIGVERIFY =>
    rw [hsigVerify rfl]
    exact checkSigOpCounted_le script true s
  | OP_CHECKMULTISIG =>
    have hn := hmulti rfl
    rw [hn]
    exact checkMultiSigOpCounted_le (hkeys _ (.inl rfl) hn)
  | OP_CHECKMULTISIGVERIFY =>
    have hn := hmultiVerify rfl
    rw [hn]
    exact checkMultiSigOpCounted_le (hkeys _ (.inr rfl) hn)
  | _ => exact Nat.zero_le _

theorem evalInstructionCounted_le {script : CScript} {r : GetOpRet} {s : EvalState}
    {lastOpcode : ℕ} (hlast : LastOnTop lastOpcode s) :
    (evalInstructionCounted crypto txTo nIn flags nHashType script r s).1 ≤
      instructionSigOps true lastOpcode r.opcodeRet := by
  unfold evalInstructionCounted
  generalize hcount : (if OP_16 < r.opcodeRet then { s with nOpCount := s.nOpCount + 1 } else s) = t
  have hlast' : LastOnTop lastOpcode t := by
    rw [← hcount]
    split
    · exact hlast
    · exact hlast
  have hvfExec : t.vfExec = s.vfExec := by
    rw [← hcount]
    split <;> rfl
  dsimp only
  split
  · exact Nat.zero_le _
  · split
    · exact Nat.zero_le _
    · split
      · exact Nat.zero_le _
      · split
        · exact Nat.zero_le _
        · dsimp only
          split
          · exact Nat.zero_le _
          · split
            · rename_i hbranch
              split
              · exact Nat.zero_le _
              · rename_i opcode hcase
                exact executeCounted_le hlast' hcase (hvfExec ▸ hbranch)
            · exact Nat.zero_le _

/-- The number that an instruction reads is on top of the stack behind it. -/
theorem lastOnTop_evalInstruction {r : GetOpRet} {t : EvalState}
    (h : evalInstruction crypto txTo nIn flags nHashType script r s = some t) :
    LastOnTop r.opcodeRet t := by
  intro hlow hhigh hexec
  have hret := evalInstruction_read h
  have hop : ¬OP_16 < r.opcodeRet := Nat.not_lt.mpr hhigh
  have hpush : ¬r.opcodeRet ≤ OP_PUSHDATA4 := by
    simp only [OP_1, OP_PUSHDATA4] at hlow ⊢
    omega
  have hconditional : isConditional r.opcodeRet = false := by
    simp only [OP_16] at hhigh
    simp only [isConditional, Bool.and_eq_false_iff, decide_eq_false_iff_not]
    omega
  have hcase : Opcode.ofNat r.opcodeRet =
      some (.OP_N ((r.opcodeRet - (OP_1 - 1) : ℕ) : ℤ)) := by
    simp only [OP_1, OP_16] at hlow hhigh ⊢
    rw [Opcode.ofNat_value (by omega)]
    congr 2
    omega
  simp only [evalInstruction, hret, hpush, hconditional, hcase, Bool.not_true,
    Bool.false_eq_true, if_false, and_false, or_false, hop, false_and] at h
  split at h
  · simp at h
  · split at h
    · simp at h
    · obtain ⟨u, hu, hlimit⟩ := Option.bind_eq_some_iff.mp h
      have hsame : t = u := by
        split at hlimit
        · simp at hlimit
        · exact (Option.some.inj hlimit).symm
      rw [hsame] at hexec ⊢
      split at hu
      · rw [← Option.some.inj hu]
        exact ⟨_, rfl⟩
      · rename_i hskipped
        rw [← Option.some.inj hu] at hexec
        exact absurd hexec hskipped

/-! ## Whole scripts -/

theorem sigOpLoop_add (script : CScript) (fAccurate : Bool) (fuel pc lastOpcode n : ℕ) :
    sigOpLoop script fAccurate fuel pc lastOpcode n =
      n + sigOpLoop script fAccurate fuel pc lastOpcode 0 := by
  induction fuel generalizing pc lastOpcode n with
  | zero => rfl
  | succ fuel ih =>
    rw [sigOpLoop_succ, sigOpLoop_succ]
    split
    · rw [ih, ih _ _ (0 + _)]
      omega
    · rfl

theorem evalInstructionCounted_unread {r : GetOpRet} (h : r.ret = false) :
    evalInstructionCounted crypto txTo nIn flags nHashType script r s = (0, none) := by
  simp [evalInstructionCounted, h]

/-- From any instruction on, the rest of the run makes no more calls than the rest of the scan adds. -/
theorem evalLoopCounted_le {script : CScript} {fuel pc lastOpcode : ℕ} {s : EvalState}
    (hlast : LastOnTop lastOpcode s) :
    (evalLoopCounted crypto txTo nIn flags nHashType script fuel pc s).1 ≤
      sigOpLoop script true fuel pc lastOpcode 0 := by
  induction fuel generalizing pc lastOpcode s with
  | zero => exact le_rfl
  | succ fuel ih =>
    have hcalls := @evalInstructionCounted_le crypto txTo nIn flags nHashType script
      (script.GetOp2 pc) s lastOpcode hlast
    have hnext := @evalInstructionCounted_snd crypto txTo nIn flags nHashType script
      (script.GetOp2 pc) s
    rw [evalLoopCounted, sigOpLoop_succ]
    split
    · exact Nat.zero_le _
    · cases hret : (script.GetOp2 pc).ret with
      | false =>
        simp only [evalInstructionCounted_unread hret]
        exact Nat.zero_le _
      | true =>
        rw [if_pos rfl, sigOpLoop_add, Nat.zero_add]
        dsimp only
        generalize evalInstructionCounted crypto txTo nIn flags nHashType script
          (script.GetOp2 pc) s = counted at hcalls hnext ⊢
        obtain ⟨calls, next⟩ := counted
        cases next with
        | none => exact hcalls.trans (Nat.le_add_right _ _)
        | some t => exact Nat.add_le_add hcalls (ih (lastOnTop_evalInstruction hnext.symm))

theorem EvalScriptCounted_le (stack : List valtype) (script : CScript) :
    (EvalScriptCounted crypto txTo nIn flags nHashType stack script).1 ≤
      script.GetSigOpCount true := by
  have hstart : LastOnTop OP_INVALIDOPCODE ⟨stack, [], [], 0, 0⟩ :=
    fun _ h => absurd h (by decide)
  have hcalls := @evalLoopCounted_le crypto txTo nIn flags nHashType script script.length 0 _ _ hstart
  rw [EvalScriptCounted, CScript.GetSigOpCount]
  split
  · exact Nat.zero_le _
  · generalize evalLoopCounted crypto txTo nIn flags nHashType script script.length 0
      ⟨stack, [], [], 0, 0⟩ = counted at hcalls ⊢
    obtain ⟨calls, next⟩ := counted
    cases next with
    | none => exact hcalls
    | some t => exact hcalls

theorem instructionSigOps_le (lastOpcode opcode : ℕ) :
    instructionSigOps true lastOpcode opcode ≤ instructionSigOps false lastOpcode opcode := by
  simp only [instructionSigOps, OP_1, OP_16, true_and, Bool.false_eq_true, false_and, if_false]
  split
  · exact le_rfl
  · split
    · split
      · omega
      · exact le_rfl
    · exact le_rfl

theorem sigOpLoop_accurate (script : CScript) (fuel pc lastOpcode : ℕ) :
    sigOpLoop script true fuel pc lastOpcode 0 ≤ sigOpLoop script false fuel pc lastOpcode 0 := by
  induction fuel generalizing pc lastOpcode with
  | zero => exact le_rfl
  | succ fuel ih =>
    rw [sigOpLoop_succ, sigOpLoop_succ]
    split
    · rw [sigOpLoop_add, sigOpLoop_add script false]
      have hone := instructionSigOps_le lastOpcode (script.GetOp2 pc).opcodeRet
      have hrest := ih (script.GetOp2 pc).pc (script.GetOp2 pc).opcodeRet
      omega
    · exact le_rfl

theorem GetSigOpCount_accurate (script : CScript) :
    script.GetSigOpCount true ≤ script.GetSigOpCount false :=
  sigOpLoop_accurate script script.length 0 OP_INVALIDOPCODE

/-! ## The redeem script -/

/-- The last round of `VerifyScript`, which evaluates `pubKey2` on the stack below it. -/
structure ReachesRedeemScript (crypto : ScriptCrypto) (txTo : CTransaction)
    (nIn flags nHashType : ℕ) (scriptSig scriptPubKey pubKey2 : CScript) (stack : List valtype) :
    Prop where
  input : EvalScript crypto txTo nIn flags nHashType [] scriptSig = some (pubKey2 :: stack)
  output : accepts (EvalScript crypto txTo nIn flags nHashType (pubKey2 :: stack) scriptPubKey) = true
  scriptHash : scriptPubKey.IsPayToScriptHash = true
  pushOnly : scriptSig.IsPushOnly = true

theorem ReachesRedeemScript.verify
    (h : ReachesRedeemScript crypto txTo nIn flags nHashType scriptSig scriptPubKey pubKey2 stack) :
    VerifyScript crypto txTo nIn flags nHashType scriptSig scriptPubKey =
      accepts (EvalScript crypto txTo nIn flags nHashType stack pubKey2) := by
  simp only [VerifyScript, h.input, h.output, h.scriptHash, h.pushOnly, Bool.not_true,
    Bool.false_eq_true, if_false, if_true]

/-- What an instruction pushes has no more signature operations than its operand. -/
theorem pushAt_sigOps {pc : ℕ} {v : valtype} (h : pushAt script pc = some v) :
    CScript.GetSigOpCount v true ≤ CScript.GetSigOpCount (script.GetOp2 pc).vchRet true := by
  obtain ⟨_, hpushed⟩ := pushAt_eq_some.mp h
  unfold pushedBy at hpushed
  split at hpushed
  · rw [Option.some.inj hpushed]
  · split at hpushed
    · rename_i hvalue
      -- a number is one byte, which is no signature operation
      have hall : ∀ opcode : ℕ, opcode < 0x61 → opcode = 0x4f ∨ 0x51 ≤ opcode ∧ opcode ≤ 0x60 →
          CScript.GetSigOpCount (getvch ((opcode : ℤ) - 0x50)) true = 0 := by decide
      rw [← Option.some.inj hpushed, hall _ (by omega) hvalue]
      exact Nat.zero_le _
    · simp at hpushed

theorem lastPush_sigOps {scriptSig : CScript} {fuel pc : ℕ} {data : valtype}
    (hfuel : scriptSig.length ≤ pc + fuel)
    (hend : scriptSig.length ≤ (pushPrefix scriptSig fuel pc).2) :
    ∃ d, lastPush scriptSig fuel pc data = some d ∧
      CScript.GetSigOpCount (((pushPrefix scriptSig fuel pc).1.getLast?).getD data) true ≤
        CScript.GetSigOpCount d true := by
  induction fuel generalizing pc data with
  | zero => exact ⟨data, rfl, le_rfl⟩
  | succ fuel ih =>
    cases hpush : pushAt scriptSig pc with
    | none =>
      rw [pushPrefix_none hpush] at hend ⊢
      exact ⟨data, by rw [lastPush, if_pos hend], le_rfl⟩
    | some v =>
      obtain ⟨hret, hpushed⟩ := pushAt_eq_some.mp hpush
      have hmove := GetOp2_lt hret
      have hop : ¬OP_16 < (scriptSig.GetOp2 pc).opcodeRet := Nat.not_lt.mpr (pushedBy_le hpushed)
      rw [pushPrefix_some hpush] at hend ⊢
      obtain ⟨d, hd, hle⟩ := @ih (scriptSig.GetOp2 pc).pc (scriptSig.GetOp2 pc).vchRet (by omega) hend
      refine ⟨d, ?_, ?_⟩
      · rw [lastPush, if_neg (Nat.not_le.mpr (GetOp2_end hret))]
        simpa [hret, hop] using hd
      · cases hrest : (pushPrefix scriptSig fuel (scriptSig.GetOp2 pc).pc).1 with
        | nil =>
          rw [hrest] at hle
          exact (pushAt_sigOps hpush).trans hle
        | cons w rest =>
          rw [hrest] at hle
          exact hle

/-- The redeem script is the last push that the scan of the input finds. -/
theorem ReachesRedeemScript.sigOps
    (h : ReachesRedeemScript crypto txTo nIn flags nHashType scriptSig scriptPubKey pubKey2 stack) :
    CScript.GetSigOpCount pubKey2 true ≤ scriptPubKey.GetSigOpCountP2SH scriptSig := by
  have hinput := h.input
  rw [EvalScript_pushOnly h.pushOnly] at hinput
  obtain ⟨vs, hvs, hstack⟩ := Option.bind_eq_some_iff.mp hinput
  simp only [CScript.pushes] at hvs
  split at hvs
  · rename_i hend
    obtain ⟨d, hd, hle⟩ := @lastPush_sigOps scriptSig scriptSig.length 0 [] (by simp) hend
    split at hstack
    · have hlast : vs.getLast? = some pubKey2 := by
        rw [← List.head?_reverse, Option.some.inj hstack]
        rfl
      rw [Option.some.inj hvs, hlast] at hle
      rw [CScript.GetSigOpCountP2SH, h.scriptHash, hd]
      exact hle
    · simp at hstack
  · simp at hvs

/-- The count of signature operations bounds the signature checks, of any script and of the redeem
script of an output that pays to the hash of a script. -/
theorem sigops_bound (crypto : ScriptCrypto) (txTo : CTransaction) (nIn flags nHashType : ℕ) :
    (∀ (stack : List valtype) (script : CScript),
      (EvalScriptCounted crypto txTo nIn flags nHashType stack script).2 =
          EvalScript crypto txTo nIn flags nHashType stack script ∧
        (EvalScriptCounted crypto txTo nIn flags nHashType stack script).1 ≤
          script.GetSigOpCount true ∧
        script.GetSigOpCount true ≤ script.GetSigOpCount false) ∧
    ∀ (scriptSig scriptPubKey pubKey2 : CScript) (stack : List valtype),
      ReachesRedeemScript crypto txTo nIn flags nHashType scriptSig scriptPubKey pubKey2 stack →
        (EvalScriptCounted crypto txTo nIn flags nHashType stack pubKey2).1 ≤
          scriptPubKey.GetSigOpCountP2SH scriptSig := by
  refine ⟨?_, ?_⟩
  · exact fun stack script => ⟨EvalScriptCounted_snd stack script, EvalScriptCounted_le stack script,
      GetSigOpCount_accurate script⟩
  · intro scriptSig scriptPubKey pubKey2 stack h
    exact (EvalScriptCounted_le stack pubKey2).trans h.sigOps

end Context

namespace Scenario

/-- A signature and the redeem script of `multisigOutput`. -/
def redeemScriptSig : CScript := pushVch [] ++ pushVch (coSignature ++ [1]) ++ pushVch multisigOutput

def multisigHashOutput : CScript :=
  OP_HASH160.toUInt8 :: (pushVch multisigHash ++ [OP_EQUAL.toUInt8])

def multisigHashCrypto : ScriptCrypto :=
  { coSignerCrypto with HASH160 := fun vch => if vch = multisigOutput then multisigHash else [] }

end Scenario

open Scenario in
theorem sigops_bound_redeem :
    (EvalScriptCounted multisigHashCrypto multisigSpend 0 STANDARD_SCRIPT_VERIFY_FLAGS 0
        [coSignature ++ [1], []] multisigOutput).1 ≤
      multisigHashOutput.GetSigOpCountP2SH redeemScriptSig :=
  (sigops_bound multisigHashCrypto multisigSpend 0 STANDARD_SCRIPT_VERIFY_FLAGS 0).2 _ _ _ _
    ⟨by decide, by decide, by decide, by decide⟩

end Dions
