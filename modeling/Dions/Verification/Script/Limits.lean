import Dions.Verification.Script.LockTime
import Dions.Verification.Script.Positions

/-! # The limits of the interpreter

After every instruction the two stacks have at most 1000 elements, none of them longer than a script
may push, and at most 201 operations have been counted, the keys of `OP_CHECKMULTISIG` among them. -/

namespace Dions

open LittleEndian Stop

variable {stack : List valtype} {s s' : EvalState} {fVerify : Bool} {script : CScript}
variable {vch : valtype} {stack' : List valtype} {opcode : Opcode}

/-! ## The size of the elements -/

/-- The digests have the size of the buffers that the interpreter gives them. -/
structure DigestSizes (crypto : ScriptCrypto) : Prop where
  RIPEMD160 : ∀ vch, (crypto.RIPEMD160 vch).length = 20
  SHA1 : ∀ vch, (crypto.SHA1 vch).length = 20
  SHA256 : ∀ vch, (crypto.SHA256 vch).length = 32
  HASH160 : ∀ vch, (crypto.HASH160 vch).length = 20
  HASH256 : ∀ vch, (crypto.HASH256 vch).length = 32

/-- No element is longer than a script may push. -/
def Sized (stack : List valtype) : Prop := ∀ vch ∈ stack, vch.length ≤ MAX_SCRIPT_ELEMENT_SIZE

@[simp] theorem sized_nil : Sized [] := by simp [Sized]

@[simp] theorem sized_cons :
    Sized (vch :: stack) ↔ vch.length ≤ MAX_SCRIPT_ELEMENT_SIZE ∧ Sized stack := List.forall_mem_cons

theorem Sized.sublist (h : Sized stack) (hsub : stack'.Sublist stack) :
    Sized stack' := fun vch hvch => h vch (hsub.subset hvch)

theorem setvch_natAbs_lt (h : vch.length ≤ nMaxNumSize) : (setvch vch).natAbs < 2 ^ 32 := by
  have hbytes : ofBytes vch < 2 ^ 32 := by
    calc ofBytes vch < 256 ^ vch.length := ofBytes_lt vch
      _ ≤ 256 ^ 4 := Nat.pow_le_pow_right (by omega) h
      _ = 2 ^ 32 := by norm_num
  unfold setvch
  split
  · norm_num
  · split
    · omega
    · omega

theorem CastToBigNum_natAbs_lt {bn : ℤ} (h : CastToBigNum vch = some bn) : bn.natAbs < 2 ^ 32 := by
  rw [CastToBigNum] at h
  split at h
  · simp at h
  · rename_i hsize
    obtain rfl := Option.some.inj h
    exact setvch_natAbs_lt (Nat.not_lt.mp hsize)

theorem getvch_sized {n : ℤ} (h : n.natAbs < 2 ^ 64) :
    (getvch n).length ≤ MAX_SCRIPT_ELEMENT_SIZE := by
  rw [getvch]
  split
  · exact Nat.zero_le _
  · rename_i hn
    have hlog : n.natAbs.log2 < 64 := (Nat.log2_lt (by omega)).mpr h
    rw [length_toBytes, MAX_SCRIPT_ELEMENT_SIZE]
    omega

theorem ofBool_sized (fValue : Bool) : (ofBool fValue).length ≤ MAX_SCRIPT_ELEMENT_SIZE := by
  cases fValue <;> decide

theorem bnOfBool_natAbs_le (fValue : Bool) : (bnOfBool fValue).natAbs ≤ 1 := by
  cases fValue <;> decide

/-! ## Families of opcodes -/

/-- What an operation on the stack keeps. -/
def KeepsSized (f : List valtype → Option (List valtype)) : Prop :=
  ∀ stack stack', f stack = some stack' → Sized stack → Sized stack'

theorem unaryNumeric_sized {f : ℤ → ℤ} (hf : ∀ n, n.natAbs < 2 ^ 32 → (f n).natAbs < 2 ^ 64) :
    KeepsSized (unaryNumeric f) := by
  intro stack stack' h hstack
  cases stack with
  | nil => simp [unaryNumeric] at h
  | cons vch rest =>
    obtain ⟨bn, hbn, rfl⟩ := Option.map_eq_some_iff.mp h
    rw [sized_cons] at hstack ⊢
    exact ⟨getvch_sized (hf bn (CastToBigNum_natAbs_lt hbn)), hstack.2⟩

theorem binaryNumeric_sized {f : ℤ → ℤ → ℤ}
    (hf : ∀ n m, n.natAbs < 2 ^ 32 → m.natAbs < 2 ^ 32 → (f n m).natAbs < 2 ^ 64) :
    KeepsSized (binaryNumeric f) := by
  intro stack stack' h hstack
  match stack with
  | [] => simp [binaryNumeric] at h
  | [_] => simp [binaryNumeric] at h
  | vch2 :: vch1 :: rest =>
    rw [binaryNumeric] at h
    split at h
    · rename_i bn1 bn2 hbn1 hbn2
      obtain rfl := Option.some.inj h
      simp only [sized_cons] at hstack ⊢
      exact ⟨getvch_sized (hf bn1 bn2 (CastToBigNum_natAbs_lt hbn1) (CastToBigNum_natAbs_lt hbn2)),
        hstack.2.2⟩
    · simp at h

theorem hashTop_sized {f : valtype → valtype} (hf : ∀ vch, (f vch).length ≤ 32) :
    KeepsSized (hashTop f) := by
  intro stack stack' h hstack
  cases stack with
  | nil => simp [hashTop] at h
  | cons vch rest =>
    obtain rfl := Option.some.inj h
    rw [sized_cons] at hstack ⊢
    exact ⟨(hf vch).trans (by decide), hstack.2⟩

theorem pick_sized (fRoll : Bool) : KeepsSized (pick fRoll) := by
  intro stack stack' h hstack
  match stack with
  | [] => simp [pick] at h
  | [_] => simp [pick] at h
  | top :: x :: rest =>
    rw [sized_cons] at hstack
    rw [pick] at h
    split at h
    · simp at h
    · split at h
      · simp at h
      · obtain ⟨vch, hvch, rfl⟩ := Option.map_eq_some_iff.mp h
        rw [sized_cons]
        refine ⟨hstack.2 vch (List.mem_of_getElem? hvch), ?_⟩
        split
        · exact hstack.2.sublist (List.eraseIdx_sublist _ _)
        · exact hstack.2

/-! ## The state -/

structure EvalState.Sized (s : EvalState) : Prop where
  stack : Dions.Sized s.stack
  altstack : Dions.Sized s.altstack

section Context

variable {crypto : ScriptCrypto} {txTo : CTransaction} {nIn flags nHashType : ℕ}

theorem onStack_sized {f : List valtype → Option (List valtype)} (hf : KeepsSized f)
    (h : s.onStack f = some s') (hs : s.Sized) : s'.Sized ∧ s'.nOpCount = s.nOpCount := by
  obtain ⟨stack', hstack, rfl⟩ := Option.map_eq_some_iff.mp h
  exact ⟨⟨hf _ _ hstack hs.stack, hs.altstack⟩, rfl⟩

theorem leave_sized {fSuccess : Bool} (h : s.leave fVerify fSuccess stack = some s')
    (hstack : Sized stack) (hs : s.Sized) : s'.Sized ∧ s'.nOpCount = s.nOpCount := by
  rw [EvalState.leave] at h
  split at h
  · split at h
    · obtain rfl := Option.some.inj h
      exact ⟨⟨hstack, hs.altstack⟩, rfl⟩
    · simp at h
  · obtain rfl := Option.some.inj h
    exact ⟨⟨sized_cons.mpr ⟨ofBool_sized fSuccess, hstack⟩, hs.altstack⟩, rfl⟩

theorem branch_sized {fExec fNot : Bool} (h : Opcode.execute.branch fExec s fNot = some s')
    (hs : s.Sized) : s'.Sized ∧ s'.nOpCount = s.nOpCount := by
  rw [Opcode.execute.branch] at h
  split at h
  · split at h
    · rename_i vch rest hstack
      obtain rfl := Option.some.inj h
      have hsized := hs.stack
      rw [hstack, sized_cons] at hsized
      exact ⟨⟨hsized.2, hs.altstack⟩, rfl⟩
    · simp at h
  · obtain rfl := Option.some.inj h
    exact ⟨⟨hs.stack, hs.altstack⟩, rfl⟩

theorem equal_sized (h : Opcode.execute.equal s fVerify = some s') (hs : s.Sized) :
    s'.Sized ∧ s'.nOpCount = s.nOpCount := by
  rw [Opcode.execute.equal] at h
  split at h
  · rename_i vch2 vch1 rest hstack
    have hsized := hs.stack
    simp only [hstack, sized_cons] at hsized
    exact leave_sized h hsized.2.2 hs
  · simp at h

theorem checkLockTimeVerify_same (h : checkLockTimeVerify txTo nIn flags s = some s') : s' = s := by
  rw [checkLockTimeVerify] at h
  split at h
  · exact (Option.some.inj h).symm
  · split at h
    · simp at h
    · split at h
      · simp at h
      · split at h
        · exact (Option.some.inj h).symm
        · simp at h

theorem checkSigOp_sized (h : checkSigOp crypto txTo nIn nHashType script fVerify s = some s')
    (hs : s.Sized) : s'.Sized ∧ s'.nOpCount = s.nOpCount := by
  rw [checkSigOp] at h
  split at h
  · rename_i vchPubKey vchSig rest hstack
    have hsized := hs.stack
    simp only [hstack, sized_cons] at hsized
    exact leave_sized h hsized.2.2 hs
  · simp at h

/-- The keys of `OP_CHECKMULTISIG`, each of which counts as an operation. -/
def countedKeys : List valtype → ℕ
  | [] => 0
  | top :: _ => (((CastToBigNum top).map getint).getD 0).toNat

/-- What is taken by a count is that many elements, and what is left a part of the stack. -/
theorem takeCounted_ok {nMax : ℤ} {taken left : List valtype}
    (h : takeCounted nMax stack = some (taken, left)) :
    taken.length = countedKeys stack ∧ left.Sublist stack := by
  match stack with
  | [] => simp [takeCounted] at h
  | top :: rest =>
    rw [Positional.takeCounted_cons] at h
    obtain ⟨n, hn, h⟩ := Option.bind_eq_some_iff.mp h
    split at h
    · simp at h
    · split at h
      · simp at h
      · rename_i hsize
        simp only [Option.some.injEq, Prod.mk.injEq] at h
        obtain ⟨rfl, rfl⟩ := h
        rw [countedKeys, hn, Option.getD_some, List.length_take_of_le (Nat.le_of_not_le hsize)]
        exact ⟨rfl, (List.drop_sublist _ _).trans (List.sublist_cons_self _ _)⟩

theorem checkMultiSigOp_sized
    (h : checkMultiSigOp crypto txTo nIn nHashType script fVerify s = some s') (hs : s.Sized) :
    s'.Sized ∧ s'.nOpCount = s.nOpCount + countedKeys s.stack ∧ s'.nOpCount ≤ 201 := by
  rw [checkMultiSigOp] at h
  split at h
  · simp at h
  · rename_i keys left hkeys
    obtain ⟨hlength, hleft⟩ := takeCounted_ok hkeys
    dsimp only at h
    split at h
    · simp at h
    · rename_i hops
      split at h
      · simp at h
      · rename_i sigs left' hsigs
        have hleft' := ((List.tail_sublist left').trans (takeCounted_ok hsigs).2).trans hleft
        obtain ⟨hsized, hcount⟩ := leave_sized h (hs.stack.sublist hleft') ⟨hs.stack, hs.altstack⟩
        rw [hcount, ← hlength]
        exact ⟨hsized, rfl, Nat.not_lt.mp hops⟩

/-- The operations that an opcode counts besides itself. -/
def Opcode.countedKeys (stack : List valtype) : Opcode → ℕ
  | .OP_CHECKMULTISIG => Dions.countedKeys stack
  | .OP_CHECKMULTISIGVERIFY => Dions.countedKeys stack
  | _ => 0

theorem Opcode.countedKeys_other (hsingle : opcode ≠ .OP_CHECKMULTISIG)
    (hverify : opcode ≠ .OP_CHECKMULTISIGVERIFY) {stack : List valtype} :
    opcode.countedKeys stack = 0 := by
  rw [Opcode.countedKeys]
  · exact hsingle
  · exact hverify

theorem execute_sized_same (hdigest : DigestSizes crypto) {script : CScript} {pc : ℕ} {fExec : Bool}
    {s s' : EvalState} {opcode : Opcode} (hvalue : ∀ n, opcode = .OP_N n → n.natAbs < 2 ^ 64)
    (hroom : s.stack.length ≤ 1000) (hsingle : opcode ≠ .OP_CHECKMULTISIG)
    (hverify : opcode ≠ .OP_CHECKMULTISIGVERIFY)
    (h : opcode.execute crypto txTo nIn flags nHashType script pc fExec s = some s') (hs : s.Sized) :
    s'.Sized ∧ s'.nOpCount = s.nOpCount := by
  cases opcode with
  | OP_N n =>
    obtain rfl := Option.some.inj h
    exact ⟨⟨sized_cons.mpr ⟨getvch_sized (hvalue n rfl), hs.stack⟩, hs.altstack⟩, rfl⟩
  | OP_NOP =>
    obtain rfl := Option.some.inj h
    exact ⟨hs, rfl⟩
  | OP_NOP2 =>
    rw [checkLockTimeVerify_same h]
    exact ⟨hs, rfl⟩
  | OP_IF => exact branch_sized h hs
  | OP_NOTIF => exact branch_sized h hs
  | OP_ELSE | OP_ENDIF =>
    rw [Opcode.execute] at h
    split at h
    · simp at h
    · obtain rfl := Option.some.inj h
      exact ⟨⟨hs.stack, hs.altstack⟩, rfl⟩
  | OP_RETURN => simp [Opcode.execute] at h
  | OP_TOALTSTACK =>
    rw [Opcode.execute] at h
    split at h
    · rename_i vch rest hstack
      obtain rfl := Option.some.inj h
      have hsized := hs.stack
      rw [hstack, sized_cons] at hsized
      exact ⟨⟨hsized.2, sized_cons.mpr ⟨hsized.1, hs.altstack⟩⟩, rfl⟩
    · simp at h
  | OP_FROMALTSTACK =>
    rw [Opcode.execute] at h
    split at h
    · rename_i vch rest haltstack
      obtain rfl := Option.some.inj h
      have hsized := hs.altstack
      rw [haltstack, sized_cons] at hsized
      exact ⟨⟨sized_cons.mpr ⟨hsized.1, hs.stack⟩, hsized.2⟩, rfl⟩
    · simp at h
  | OP_VERIFY =>
    rw [Opcode.execute] at h
    refine onStack_sized ?_ h hs
    intro stack stack' hf hstack
    dsimp only at hf
    split at hf
    · split at hf
      · obtain rfl := Option.some.inj hf
        exact (sized_cons.mp hstack).2
      · simp at hf
    · simp at hf
  | OP_2DROP | OP_2DUP | OP_3DUP | OP_2OVER | OP_2ROT | OP_2SWAP | OP_DROP | OP_DUP | OP_NIP | OP_OVER
  | OP_ROT | OP_SWAP | OP_TUCK =>
    rw [Opcode.execute] at h
    refine onStack_sized ?_ h hs
    intro stack stack' hf hstack
    dsimp only at hf
    split at hf
    · obtain rfl := Option.some.inj hf
      simp only [sized_cons] at hstack ⊢
      tauto
    · simp at hf
  | OP_IFDUP =>
    rw [Opcode.execute] at h
    refine onStack_sized ?_ h hs
    intro stack stack' hf hstack
    dsimp only at hf
    split at hf
    · obtain rfl := Option.some.inj hf
      split
      · exact sized_cons.mpr ⟨(sized_cons.mp hstack).1, hstack⟩
      · exact hstack
    · simp at hf
  | OP_DEPTH =>
    rw [Opcode.execute] at h
    obtain rfl := Option.some.inj h
    refine ⟨⟨sized_cons.mpr ⟨getvch_sized ?_, hs.stack⟩, hs.altstack⟩, rfl⟩
    rw [Int.natAbs_natCast]
    omega
  | OP_SIZE =>
    rw [Opcode.execute] at h
    refine onStack_sized ?_ h hs
    intro stack stack' hf hstack
    dsimp only at hf
    split at hf
    · rename_i vch rest
      obtain rfl := Option.some.inj hf
      have hvch := (sized_cons.mp hstack).1
      refine sized_cons.mpr ⟨getvch_sized ?_, hstack⟩
      rw [MAX_SCRIPT_ELEMENT_SIZE] at hvch
      rw [Int.natAbs_natCast]
      omega
    · simp at hf
  | OP_PICK => exact onStack_sized (pick_sized false) h hs
  | OP_ROLL => exact onStack_sized (pick_sized true) h hs
  | OP_EQUAL => exact equal_sized h hs
  | OP_EQUALVERIFY => exact equal_sized h hs
  | OP_1ADD | OP_1SUB | OP_NEGATE =>
    refine onStack_sized (unaryNumeric_sized ?_) h hs
    intro n hn
    omega
  | OP_ABS =>
    refine onStack_sized (unaryNumeric_sized ?_) h hs
    intro n hn
    split <;> omega
  | OP_NOT | OP_0NOTEQUAL =>
    refine onStack_sized (unaryNumeric_sized ?_) h hs
    intro n hn
    exact (bnOfBool_natAbs_le _).trans_lt (by norm_num)
  | OP_ADD | OP_SUB =>
    refine onStack_sized (binaryNumeric_sized ?_) h hs
    intro n m hn hm
    omega
  | OP_BOOLAND | OP_BOOLOR | OP_NUMEQUAL | OP_NUMNOTEQUAL | OP_LESSTHAN | OP_GREATERTHAN
  | OP_LESSTHANOREQUAL | OP_GREATERTHANOREQUAL =>
    refine onStack_sized (binaryNumeric_sized ?_) h hs
    intro n m hn hm
    exact (bnOfBool_natAbs_le _).trans_lt (by norm_num)
  | OP_MIN | OP_MAX =>
    refine onStack_sized (binaryNumeric_sized ?_) h hs
    intro n m hn hm
    split <;> omega
  | OP_NUMEQUALVERIFY =>
    rw [Opcode.execute] at h
    refine onStack_sized ?_ h hs
    intro stack stack' hf hstack
    dsimp only at hf
    split at hf
    · rename_i vch rest hnumeric
      split at hf
      · obtain rfl := Option.some.inj hf
        have hsized := binaryNumeric_sized
          (fun n m _ _ => (bnOfBool_natAbs_le _).trans_lt (by norm_num)) _ _ hnumeric hstack
        exact (sized_cons.mp hsized).2
      · simp at hf
    · simp at hf
  | OP_WITHIN =>
    rw [Opcode.execute] at h
    refine onStack_sized ?_ h hs
    intro stack stack' hf hstack
    dsimp only at hf
    split at hf
    · split at hf
      · obtain rfl := Option.some.inj hf
        simp only [sized_cons] at hstack
        exact sized_cons.mpr ⟨ofBool_sized _, hstack.2.2.2⟩
      · simp at hf
    · simp at hf
  | OP_RIPEMD160 => exact onStack_sized (hashTop_sized fun vch => by simp [hdigest.RIPEMD160]) h hs
  | OP_SHA1 => exact onStack_sized (hashTop_sized fun vch => by simp [hdigest.SHA1]) h hs
  | OP_SHA256 => exact onStack_sized (hashTop_sized fun vch => by simp [hdigest.SHA256]) h hs
  | OP_HASH160 => exact onStack_sized (hashTop_sized fun vch => by simp [hdigest.HASH160]) h hs
  | OP_HASH256 => exact onStack_sized (hashTop_sized fun vch => by simp [hdigest.HASH256]) h hs
  | OP_CODESEPARATOR =>
    obtain rfl := Option.some.inj h
    exact ⟨⟨hs.stack, hs.altstack⟩, rfl⟩
  | OP_CHECKSIG => exact checkSigOp_sized h hs
  | OP_CHECKSIGVERIFY => exact checkSigOp_sized h hs
  | OP_CHECKMULTISIG => exact absurd rfl hsingle
  | OP_CHECKMULTISIGVERIFY => exact absurd rfl hverify

/-- The elements stay small, and what is counted besides the opcode itself are its keys. -/
theorem execute_sized (hdigest : DigestSizes crypto) {script : CScript} {pc : ℕ} {fExec : Bool}
    {s s' : EvalState} {opcode : Opcode} (hvalue : ∀ n, opcode = .OP_N n → n.natAbs < 2 ^ 64)
    (hroom : s.stack.length ≤ 1000) (hops : s.nOpCount ≤ 201)
    (h : opcode.execute crypto txTo nIn flags nHashType script pc fExec s = some s') (hs : s.Sized) :
    s'.Sized ∧ s'.nOpCount = s.nOpCount + opcode.countedKeys s.stack ∧ s'.nOpCount ≤ 201 := by
  by_cases hsingle : opcode = .OP_CHECKMULTISIG
  · subst hsingle
    exact checkMultiSigOp_sized h hs
  by_cases hverify : opcode = .OP_CHECKMULTISIGVERIFY
  · subst hverify
    exact checkMultiSigOp_sized h hs
  · obtain ⟨hsized, hcount⟩ := execute_sized_same hdigest hvalue hroom hsingle hverify h hs
    rw [Opcode.countedKeys_other hsingle hverify, hcount]
    exact ⟨hsized, rfl, hops⟩

end Context

namespace Positional

section Context

variable {crypto : ScriptCrypto} {txTo : CTransaction} {nIn flags nHashType : ℕ}

/-! ## Instructions -/

/-- The state in which the operation of an instruction is executed. -/
def counted (r : GetOpRet) (s : EvalState) : EvalState :=
  if OP_16 < r.opcodeRet then { s with nOpCount := s.nOpCount + 1 } else s

@[simp] theorem counted_stack (r : GetOpRet) (s : EvalState) : (counted r s).stack = s.stack := by
  rw [counted]
  split <;> rfl

@[simp] theorem counted_altstack (r : GetOpRet) (s : EvalState) :
    (counted r s).altstack = s.altstack := by
  rw [counted]
  split <;> rfl

theorem counted_nOpCount (r : GetOpRet) (s : EvalState) :
    (counted r s).nOpCount = s.nOpCount + if OP_16 < r.opcodeRet then 1 else 0 := by
  rw [counted]
  split <;> rfl

theorem evalInstruction_ok {r : GetOpRet}
    (h : evalInstruction crypto txTo nIn flags nHashType script r s = .ok s') :
    r.vchRet.length ≤ MAX_SCRIPT_ELEMENT_SIZE ∧
      (OP_16 < r.opcodeRet → (counted r s).nOpCount ≤ 201) ∧
      evalOpcode crypto txTo nIn flags nHashType script r (s.vfExec.all id) (counted r s) = .ok s' ∧
      s'.stack.length + s'.altstack.length ≤ 1000 := by
  rw [evalInstruction] at h
  obtain ⟨-, h⟩ := stopIf_ok.mp h
  obtain ⟨hsize, h⟩ := stopIf_ok.mp h
  obtain ⟨hops, h⟩ := stopIf_ok.mp h
  obtain ⟨-, h⟩ := stopIf_ok.mp h
  obtain ⟨t, ht, h⟩ := bind_ok.mp h
  obtain ⟨hstack, h⟩ := stopIf_ok.mp h
  obtain rfl := Except.ok.inj h
  exact ⟨Nat.not_lt.mp hsize, fun hop => Nat.not_lt.mp fun hmany => hops ⟨hop, hmany⟩, ht,
    Nat.not_lt.mp hstack⟩

end Context

end Positional

/-- The operations that an instruction counts: itself, unless it pushes, and the keys of
`OP_CHECKMULTISIG`. -/
def countedOps (r : GetOpRet) (s : EvalState) : ℕ :=
  (if OP_16 < r.opcodeRet then 1 else 0) +
    if s.vfExec.all id then ((Opcode.ofNat r.opcodeRet).map (Opcode.countedKeys s.stack)).getD 0 else 0

theorem Opcode.ofNat_OP_N {opcode : ℕ} {n : ℤ} (h : Opcode.ofNat opcode = some (.OP_N n)) :
    n.natAbs < 2 ^ 64 := by
  unfold Opcode.ofNat at h
  split at h
  · rename_i hvalue
    simp only [Option.some.injEq, Opcode.OP_N.injEq] at h
    omega
  · split at h <;> simp at h

theorem Opcode.ofNat_push : ∀ opcode ≤ OP_PUSHDATA4, Opcode.ofNat opcode = none := by decide

theorem Opcode.ofNat_conditional : ∀ opcode ≤ 0x68, Opcode.ofNat opcode ≠ some .OP_CHECKMULTISIG ∧
    Opcode.ofNat opcode ≠ some .OP_CHECKMULTISIGVERIFY := by decide

/-- An opcode that runs in every branch has no keys. -/
theorem countedKeys_conditional {r : ℕ} (h : Opcode.ofNat r = some opcode)
    (hr : isConditional r = true) (stack : List valtype) : opcode.countedKeys stack = 0 := by
  simp only [isConditional, Bool.and_eq_true, decide_eq_true_eq] at hr
  obtain ⟨hsingle, hverify⟩ := Opcode.ofNat_conditional r hr.2
  apply Opcode.countedKeys_other
  · rintro rfl
    exact hsingle h
  · rintro rfl
    exact hverify h

/-- The limits that every instruction keeps. -/
structure EvalState.Limited (s : EvalState) : Prop where
  size : s.stack.length + s.altstack.length ≤ 1000
  sized : s.Sized
  nOpCount : s.nOpCount ≤ 201

namespace Positional

section Context

variable {crypto : ScriptCrypto} {txTo : CTransaction} {nIn flags nHashType : ℕ}

theorem evalInstruction_limited (hdigest : DigestSizes crypto) (hnIn : nIn < txTo.vin.length)
    {script : CScript} {r : GetOpRet} {s s' : EvalState}
    (h : evalInstruction crypto txTo nIn flags nHashType script r s = .ok s') (hs : s.Limited) :
    s'.Limited ∧ s'.nOpCount = s.nOpCount + countedOps r s := by
  obtain ⟨hvch, hops, heval, hsize⟩ := evalInstruction_ok h
  have hsized : (counted r s).Sized := ⟨by simpa using hs.sized.stack, by simpa using hs.sized.altstack⟩
  have hcount := counted_nOpCount r s
  have hlimit : (counted r s).nOpCount ≤ 201 := by
    by_cases hop : OP_16 < r.opcodeRet
    · exact hops hop
    · rw [hcount, if_neg hop]
      exact hs.nOpCount
  rw [evalOpcode] at heval
  split at heval
  · rename_i hpush
    obtain rfl := Except.ok.inj heval
    refine ⟨⟨hsize, ⟨sized_cons.mpr ⟨hvch, hsized.stack⟩, hsized.altstack⟩, hlimit⟩, ?_⟩
    rw [countedOps, Opcode.ofNat_push _ hpush.2]
    simpa using hcount
  · split at heval
    · rename_i hexec
      split at heval
      · simp at heval
      · rename_i opcode hopcode
        have hexecute := ((execute_refines hnIn script r.pc _ _ opcode).ok_iff s').mp heval
        have hroom : (counted r s).stack.length ≤ 1000 := by
          have hsum := hs.size
          rw [counted_stack]
          omega
        obtain ⟨hsized', hkeys, hlimit'⟩ := execute_sized hdigest
          (fun n hn => Opcode.ofNat_OP_N (hn ▸ hopcode)) hroom hlimit hexecute hsized
        refine ⟨⟨hsize, hsized', hlimit'⟩, ?_⟩
        rw [hkeys, hcount, countedOps, hopcode, counted_stack, Option.map_some, Option.getD_some,
          Nat.add_assoc]
        by_cases hbranch : s.vfExec.all id = true
        · rw [if_pos hbranch]
        · rw [if_neg hbranch, countedKeys_conditional hopcode (hexec.resolve_left hbranch)]
    · rename_i hexec
      obtain rfl := Except.ok.inj heval
      refine ⟨⟨hsize, hsized, hlimit⟩, ?_⟩
      rw [countedOps, if_neg fun hall => hexec (.inl hall)]
      exact hcount

/-! ## Runs -/

variable (crypto txTo nIn flags nHashType) in
/-- The states between the instructions of a run, each with the position in the script and the number
of operations that have been counted until then. -/
inductive Reaches (script : CScript) (stack : List valtype) : (pc : ℕ) → EvalState → (nOps : ℕ) → Prop
  | start : Reaches script stack 0 ⟨stack, [], [], 0, 0⟩ 0
  | next {pc nOps : ℕ} {s s' : EvalState} : Reaches script stack pc s nOps → pc < script.length →
    evalInstruction crypto txTo nIn flags nHashType script (CScript.GetOp2 script pc) s = .ok s' →
    Reaches script stack (CScript.GetOp2 script pc).pc s'
      (nOps + countedOps (CScript.GetOp2 script pc) s)

theorem Reaches.limited (hdigest : DigestSizes crypto) (hnIn : nIn < txTo.vin.length)
    {script : CScript} {stack : List valtype} (hroom : stack.length ≤ 1000) (hstack : Sized stack)
    {pc nOps : ℕ} {s : EvalState}
    (h : Reaches crypto txTo nIn flags nHashType script stack pc s nOps) :
    s.Limited ∧ s.nOpCount = nOps := by
  induction h with
  | start => exact ⟨⟨hroom, ⟨hstack, sized_nil⟩, Nat.zero_le _⟩, rfl⟩
  | next _ _ hnext ih =>
    obtain ⟨hlimited, hcount⟩ := ih
    obtain ⟨hlimited', hcount'⟩ := evalInstruction_limited hdigest hnIn hnext hlimited
    rw [← hcount]
    exact ⟨hlimited', hcount'⟩

/-- The run that the interpreter makes goes through such states. -/
theorem evalLoop_reaches {fuel pc nOps : ℕ}
    (hreach : Reaches crypto txTo nIn flags nHashType script stack pc s nOps)
    (h : evalLoop crypto txTo nIn flags nHashType script fuel pc s = .ok s') :
    ∃ pc' nOps', Reaches crypto txTo nIn flags nHashType script stack pc' s' nOps' := by
  induction fuel generalizing pc nOps s with
  | zero =>
    obtain rfl := Except.ok.inj h
    exact ⟨pc, nOps, hreach⟩
  | succ fuel ih =>
    rw [evalLoop] at h
    split at h
    · obtain rfl := Except.ok.inj h
      exact ⟨pc, nOps, hreach⟩
    · rename_i hend
      obtain ⟨t, ht, h⟩ := bind_ok.mp h
      exact ih (hreach.next (Nat.not_le.mp hend) ht) h

theorem EvalScript_reaches
    (h : EvalScript crypto txTo nIn flags nHashType stack script = .ok stack') :
    ∃ pc s nOps, Reaches crypto txTo nIn flags nHashType script stack pc s nOps ∧ s.stack = stack' := by
  rw [EvalScript] at h
  obtain ⟨-, h⟩ := stopIf_ok.mp h
  obtain ⟨s, hs, h⟩ := bind_ok.mp h
  obtain ⟨-, h⟩ := stopIf_ok.mp h
  obtain ⟨pc, nOps, hreach⟩ := evalLoop_reaches .start hs
  exact ⟨pc, s, nOps, hreach, Except.ok.inj h⟩

/-- No run uses a position outside of a stack, so that an exception is one of an operand, and the
limits hold after every instruction. -/
theorem EvalScript_stack_safe (crypto : ScriptCrypto) (hdigest : DigestSizes crypto)
    (txTo : CTransaction) (nIn : ℕ) (hnIn : nIn < txTo.vin.length) (flags nHashType : ℕ)
    (script : CScript) (stack : List valtype) (hroom : stack.length ≤ 1000)
    (hstack : ∀ vch ∈ stack, vch.length ≤ MAX_SCRIPT_ELEMENT_SIZE) :
    EvalScript crypto txTo nIn flags nHashType stack script ≠ .error .outside ∧
      (∀ stack', EvalScript crypto txTo nIn flags nHashType stack script = .ok stack' ↔
        Dions.EvalScript crypto txTo nIn flags nHashType stack script = some stack') ∧
      (∀ stack', EvalScript crypto txTo nIn flags nHashType stack script = .ok stack' →
        ∃ pc s nOps, Reaches crypto txTo nIn flags nHashType script stack pc s nOps ∧
          s.stack = stack') ∧
      ∀ pc s nOps, Reaches crypto txTo nIn flags nHashType script stack pc s nOps →
        evalInstruction crypto txTo nIn flags nHashType script (CScript.GetOp2 script pc) s ≠
            .error .outside ∧
          s.stack.length + s.altstack.length ≤ 1000 ∧
          (∀ vch ∈ s.stack ++ s.altstack, vch.length ≤ MAX_SCRIPT_ELEMENT_SIZE) ∧ nOps ≤ 201 := by
  have hrun : Refines (EvalScript crypto txTo nIn flags nHashType stack script) _ :=
    EvalScript_refines hnIn stack script
  refine ⟨hrun.inside, hrun.ok_iff, fun _ => EvalScript_reaches, ?_⟩
  intro pc s nOps hreach
  obtain ⟨hlimited, rfl⟩ := hreach.limited hdigest hnIn hroom hstack
  refine ⟨(evalInstruction_refines hnIn script _ s).inside, hlimited.size, ?_, hlimited.nOpCount⟩
  intro vch hvch
  exact (List.mem_append.mp hvch).elim (hlimited.sized.stack vch) (hlimited.sized.altstack vch)

end Context

end Positional

namespace Scenario

/-- Digests of the right sizes. -/
def sizedCrypto : ScriptCrypto :=
  { noCrypto with
    RIPEMD160 := fun _ => List.replicate 20 0
    SHA1 := fun _ => List.replicate 20 0
    SHA256 := fun _ => List.replicate 32 0
    HASH160 := fun _ => List.replicate 20 0
    HASH256 := fun _ => List.replicate 32 0 }

theorem sizedCrypto_digests : DigestSizes sizedCrypto :=
  ⟨fun _ => rfl, fun _ => rfl, fun _ => rfl, fun _ => rfl, fun _ => rfl⟩

/-- `OP_1 OP_2 OP_1 OP_ROLL` on a stack with one element. -/
theorem EvalScript_stack_safe_rolled :
    Positional.EvalScript sizedCrypto lateSpend 0 0 1 [[7]] [0x51, 0x52, 0x51, 0x7a] ≠
        .error .outside ∧
      Positional.EvalScript sizedCrypto lateSpend 0 0 1 [[7]] [0x51, 0x52, 0x51, 0x7a] =
        .ok [[1], [2], [7]] := by
  have hsafe := Positional.EvalScript_stack_safe sizedCrypto sizedCrypto_digests lateSpend 0 (by decide)
    0 1 [0x51, 0x52, 0x51, 0x7a] [[7]] (by decide) (by decide)
  exact ⟨hsafe.1, (hsafe.2.1 _).mpr (by decide)⟩

end Scenario

end Dions
