import Dions.Library.Loop
import Dions.Model.Interpreter
import Dions.Verification.Alias.Codec

/-! # Running scripts

The interpreter as a loop that uses up its script, and what the instructions do that the output types
are made of. -/

namespace Dions

open LittleEndian

variable {s : EvalState} {rest script : CScript} {r : GetOpRet} {opcode : Opcode} {pc : ℕ}
variable {b : UInt8} {v : valtype} {fuel n : ℕ} {t : EvalState} {stack : List valtype} {a : CScript}

section Context

variable (crypto : ScriptCrypto) (txTo : CTransaction) (nIn flags nHashType : ℕ)

/-! ## Instructions -/

/-- The size limit that ends every round of the loop. -/
def withinLimit (s : EvalState) : Option EvalState :=
  if 1000 < s.stack.length + s.altstack.length then none else some s

theorem withinLimit_ok (h : s.stack.length + s.altstack.length ≤ 1000) :
    withinLimit s = some s := if_neg (Nat.not_lt.mpr h)

variable {crypto txTo nIn flags nHashType}

theorem evalInstruction_op (hret : r.ret = true) (hop : OP_16 < r.opcodeRet) (hvch : r.vchRet = [])
    (hcase : Opcode.ofNat r.opcodeRet = some opcode) (hdisabled : r.opcodeRet ∉ disabledOpcodes)
    (hexec : s.vfExec.all id = true) (hops : s.nOpCount < 201) :
    evalInstruction crypto txTo nIn flags nHashType script r s =
      (opcode.execute crypto txTo nIn flags nHashType script r.pc true
        { s with nOpCount := s.nOpCount + 1 }).bind withinLimit := by
  have hlast : ¬r.opcodeRet ≤ OP_PUSHDATA4 := by
    simp only [OP_PUSHDATA4, OP_16] at hop ⊢
    omega
  simp only [evalInstruction, hret, hvch, hexec, if_pos hop, hcase, hdisabled, hlast,
    MAX_SCRIPT_ELEMENT_SIZE, List.length_nil, Bool.not_true, Bool.false_eq_true, if_false, and_false, true_or, if_true, Nat.not_lt_zero]
  rw [if_neg (by omega)]
  rfl

/-- The instruction of one byte that an iterator stands at. -/
theorem evalInstruction_at (hdrop : script.drop pc = b :: rest) (hop : OP_16 < b.toNat)
    (hcase : Opcode.ofNat b.toNat = some opcode) (hdisabled : b.toNat ∉ disabledOpcodes)
    (hexec : s.vfExec.all id = true) (hops : s.nOpCount < 201) :
    evalInstruction crypto txTo nIn flags nHashType script (script.GetOp2 pc) s =
      (opcode.execute crypto txTo nIn flags nHashType script (pc + 1) true
        { s with nOpCount := s.nOpCount + 1 }).bind withinLimit := by
  have hpush : OP_PUSHDATA4 < b.toNat := by
    simp only [OP_PUSHDATA4, OP_16] at hop ⊢
    omega
  rw [GetOp2_op hdrop hpush]
  exact evalInstruction_op rfl hop rfl hcase hdisabled hexec hops

theorem Opcode.ofNat_value {opcode : ℕ} (h : opcode = 0x4f ∨ 0x51 ≤ opcode ∧ opcode ≤ 0x60) :
    Opcode.ofNat opcode = some (.OP_N (opcode - 0x50 : ℤ)) := if_pos h

/-- What an instruction pushes when it does nothing else. -/
def pushedBy (r : GetOpRet) : Option valtype :=
  if r.opcodeRet ≤ OP_PUSHDATA4 then some r.vchRet
  else if r.opcodeRet = 0x4f ∨ 0x51 ≤ r.opcodeRet ∧ r.opcodeRet ≤ 0x60 then
    some (getvch (r.opcodeRet - 0x50 : ℤ))
  else none

theorem pushedBy_le (h : pushedBy r = some v) : r.opcodeRet ≤ OP_16 := by
  unfold pushedBy at h
  split at h
  · rename_i hop
    simp only [OP_PUSHDATA4, OP_16] at hop ⊢
    omega
  · split at h
    · rename_i hop
      simp only [OP_16]
      omega
    · simp at h

theorem pushedBy_smallInt {vch : valtype} (hlow : 1 ≤ n) (hhigh : n ≤ 16) :
    pushedBy ⟨true, n + (OP_1 - 1), vch, pc⟩ = some (getvch n) := by
  have hvalue : n + (OP_1 - 1) = 0x4f ∨ 0x51 ≤ n + (OP_1 - 1) ∧ n + (OP_1 - 1) ≤ 0x60 := by
    simp only [OP_1]
    omega
  have hnumber : ((n + (OP_1 - 1) : ℕ) : ℤ) - 0x50 = n := by
    simp only [OP_1]
    omega
  rw [pushedBy, if_neg (by simp only [OP_1, OP_PUSHDATA4]; omega), if_pos hvalue, hnumber]

theorem disabledOpcodes_gt {opcode : ℕ} (h : opcode ∈ disabledOpcodes) : OP_16 < opcode := by
  simp only [disabledOpcodes, List.mem_cons, List.not_mem_nil, or_false] at h
  simp only [OP_16]
  omega

theorem evalInstruction_pushed (hret : r.ret = true) (hop : r.opcodeRet ≤ OP_16)
    (hsize : r.vchRet.length ≤ 1000000) (hexec : s.vfExec = []) :
    evalInstruction crypto txTo nIn flags nHashType script r s =
      (pushedBy r).bind fun v => withinLimit { s with stack := v :: s.stack } := by
  have hdisabled : r.opcodeRet ∉ disabledOpcodes :=
    fun h => absurd (disabledOpcodes_gt h) (Nat.not_lt.mpr hop)
  obtain ⟨stack, altstack, vfExec, nOpCount, pbegincodehash⟩ := s
  subst hexec
  simp only [evalInstruction, hret, Nat.not_lt.mpr hop, MAX_SCRIPT_ELEMENT_SIZE,
    Nat.not_lt.mpr hsize, hdisabled, List.all_nil, Bool.not_true, Bool.false_eq_true, if_false,
    false_and, true_and, true_or, if_true, pushedBy]
  by_cases hdata : r.opcodeRet ≤ OP_PUSHDATA4
  · rw [if_pos hdata, if_pos hdata]
    rfl
  · rw [if_neg hdata, if_neg hdata]
    by_cases hvalue : r.opcodeRet = 0x4f ∨ 0x51 ≤ r.opcodeRet ∧ r.opcodeRet ≤ 0x60
    · rw [if_pos hvalue, Opcode.ofNat_value hvalue]
      rfl
    · have hreserved : r.opcodeRet = 0x50 := by
        simp only [OP_PUSHDATA4, OP_16] at hdata hop
        omega
      rw [if_neg hvalue, hreserved]
      rfl

theorem GetOp2_vchRet_le (script : CScript) (pc : ℕ) :
    (script.GetOp2 pc).vchRet.length ≤ script.length := by
  have hpush : ∀ (opcode nSize pc' : ℕ) (rest : CScript), rest.length ≤ script.length →
      (getOpPush opcode nSize rest pc').vchRet.length ≤ script.length := by
    intro opcode nSize pc' rest hrest
    unfold getOpPush
    split
    · exact Nat.zero_le _
    · simp only [List.length_take]
      omega
  have hdrop : (script.drop pc).length ≤ script.length := by simp
  unfold CScript.GetOp2
  split
  · exact Nat.zero_le _
  · rename_i b rest heq
    rw [heq, List.length_cons] at hdrop
    dsimp only
    split
    · split
      · exact hpush _ _ _ _ (by omega)
      · split
        · split
          · rw [List.length_cons] at hdrop
            exact hpush _ _ _ _ (by omega)
          · exact Nat.zero_le _
        · split
          · split
            · simp only [List.length_cons] at hdrop
              exact hpush _ _ _ _ (by omega)
            · exact Nat.zero_le _
          · split
            · simp only [List.length_cons] at hdrop
              exact hpush _ _ _ _ (by omega)
            · exact Nat.zero_le _
    · exact Nat.zero_le _

/-! ## The interpreter as a loop -/

theorem evalInstruction_read
    (h : evalInstruction crypto txTo nIn flags nHashType script r s = some t) : r.ret = true := by
  by_contra hret
  simp [evalInstruction, hret] at h

theorem GetOp2_lt (h : (script.GetOp2 pc).ret = true) : pc < (script.GetOp2 pc).pc := by
  cases GetOp2_readsAt h with
  | push _ hpc _ => omega
  | op _ _ hpc => omega

theorem GetOp2_end (h : (script.GetOp2 pc).ret = true) : pc < script.length := by
  by_contra hend
  simp [CScript.GetOp2, List.drop_eq_nil_of_le (Nat.not_lt.mp hend), getOpFail] at h

variable (crypto txTo nIn flags nHashType) in
/-- One round reads an instruction and executes it. -/
def scriptLoop (script : CScript) : Loop (ℕ × EvalState) where
  done p := decide (script.length ≤ p.1)
  body p :=
    (evalInstruction crypto txTo nIn flags nHashType script (script.GetOp2 p.1) p.2).map fun s =>
      ((script.GetOp2 p.1).pc, s)
  size p := script.length - p.1
  size_pos p h := by
    have hlt := of_decide_eq_false h
    omega
  size_body p q h hbody := by
    have hlt := of_decide_eq_false h
    obtain ⟨s, hs, rfl⟩ := Option.map_eq_some_iff.mp hbody
    have hmove := GetOp2_lt (evalInstruction_read hs)
    dsimp only
    omega

theorem evalLoop_eq (script : CScript) (fuel pc : ℕ) (s : EvalState) :
    evalLoop crypto txTo nIn flags nHashType script fuel pc s =
      ((scriptLoop crypto txTo nIn flags nHashType script).run fuel (pc, s)).map Prod.snd := by
  induction fuel generalizing pc s with
  | zero => rfl
  | succ fuel ih =>
    simp only [evalLoop, Loop.run, scriptLoop, decide_eq_true_eq]
    split
    · rfl
    · cases hs : evalInstruction crypto txTo nIn flags nHashType script (script.GetOp2 pc) s with
      | none => rfl
      | some t => exact ih _ _

/-- What the interpreter makes of the state that the loop ends in. -/
def finalStack (p : ℕ × EvalState) : Option (List valtype) :=
  if p.2.vfExec.isEmpty then some p.2.stack else none

theorem EvalScript_eq (h : script.length ≤ 1000000) (stack : List valtype) :
    EvalScript crypto txTo nIn flags nHashType stack script =
      ((scriptLoop crypto txTo nIn flags nHashType script).eval (0, ⟨stack, [], [], 0, 0⟩)).bind
        finalStack := by
  rw [EvalScript, if_neg (Nat.not_lt.mpr h), evalLoop_eq, Loop.run_eq_eval (Nat.sub_le _ _)]
  cases (scriptLoop crypto txTo nIn flags nHashType script).eval (0, ⟨stack, [], [], 0, 0⟩) with
  | none => rfl
  | some p => rfl

/-- Every instruction ends within the limit. -/
theorem evalInstruction_within
    (h : evalInstruction crypto txTo nIn flags nHashType script r s = some t) :
    t.stack.length + t.altstack.length ≤ 1000 := by
  have hlimit : ∀ next : Option EvalState, (next.bind fun u =>
      if 1000 < u.stack.length + u.altstack.length then none else some u) = some t →
        t.stack.length + t.altstack.length ≤ 1000 := by
    intro next hnext
    obtain ⟨u, _, hu⟩ := Option.bind_eq_some_iff.mp hnext
    split at hu
    · simp at hu
    · rename_i hle
      rw [Option.some.injEq] at hu
      rw [← hu]
      exact Nat.not_lt.mp hle
  have hpass : ∀ (c : Prop) [Decidable c] (next : Option EvalState),
      (if c then none else next) = some t → next = some t := by
    intro c _ next hnext
    split at hnext
    · simp at hnext
    · exact hnext
  unfold evalInstruction at h
  exact hlimit _ (hpass _ _ (hpass _ _ (hpass _ _ (hpass _ _ h))))

/-- No script leaves more elements than the limit, unless it met them. -/
theorem EvalScript_within {stack' : List valtype} (hstack : stack.length ≤ 1000)
    (h : EvalScript crypto txTo nIn flags nHashType stack script = some stack') :
    stack'.length ≤ 1000 := by
  have hscript : script.length ≤ 1000000 := by
    by_contra hlong
    rw [EvalScript, if_pos (Nat.not_le.mp hlong)] at h
    simp at h
  rw [EvalScript_eq hscript] at h
  obtain ⟨p, hp, hfinal⟩ := Option.bind_eq_some_iff.mp h
  have hlimit : p.2.stack.length + p.2.altstack.length ≤ 1000 := by
    refine Loop.eval_invariant
      (P := fun p : ℕ × EvalState => p.2.stack.length + p.2.altstack.length ≤ 1000) ?_ hp
      (by simpa using hstack)
    intro s t _ hbody _
    obtain ⟨u, hu, rfl⟩ := Option.map_eq_some_iff.mp hbody
    exact evalInstruction_within hu
  rw [finalStack] at hfinal
  split at hfinal
  · rw [Option.some.injEq] at hfinal
    rw [← hfinal]
    omega
  · simp at hfinal

theorem eval_instruction (h : pc < script.length) (s : EvalState) :
    (scriptLoop crypto txTo nIn flags nHashType script).eval (pc, s) =
      (evalInstruction crypto txTo nIn flags nHashType script (script.GetOp2 pc) s).bind fun t =>
        (scriptLoop crypto txTo nIn flags nHashType script).eval ((script.GetOp2 pc).pc, t) := by
  have hdone : (scriptLoop crypto txTo nIn flags nHashType script).done (pc, s) = false :=
    decide_eq_false (Nat.not_le.mpr h)
  rw [Loop.eval_body hdone]
  exact Option.bind_map ..

theorem eval_end (h : script.length ≤ pc) (s : EvalState) :
    (scriptLoop crypto txTo nIn flags nHashType script).eval (pc, s) = some (pc, s) :=
  Loop.eval_done (decide_eq_true h)

def pushAt (script : CScript) (pc : ℕ) : Option valtype :=
  if (script.GetOp2 pc).ret then pushedBy (script.GetOp2 pc) else none

theorem pushAt_eq_some :
    pushAt script pc = some v ↔
      (script.GetOp2 pc).ret = true ∧ pushedBy (script.GetOp2 pc) = some v := by
  simp [pushAt]

theorem eval_pushAt (hpush : pushAt script pc = some v)
    (hsize : (script.GetOp2 pc).vchRet.length ≤ 1000000) (hexec : s.vfExec = [])
    (hroom : s.stack.length + 1 + s.altstack.length ≤ 1000) :
    (scriptLoop crypto txTo nIn flags nHashType script).eval (pc, s) =
      (scriptLoop crypto txTo nIn flags nHashType script).eval ((script.GetOp2 pc).pc,
        { s with stack := v :: s.stack }) := by
  obtain ⟨hret, hv⟩ := pushAt_eq_some.mp hpush
  have hlimit : withinLimit { s with stack := v :: s.stack } = some _ := withinLimit_ok hroom
  rw [eval_instruction (GetOp2_end hret),
    evalInstruction_pushed hret (pushedBy_le hv) hsize hexec, hv, Option.bind_some, hlimit]
  rfl

theorem drop_add_length (h : script.drop pc = a ++ rest) : script.drop (pc + a.length) = rest := by
  rw [← List.drop_drop, h, List.drop_left]

theorem pushAt_pushVch (hscript : script.length ≤ 1000000)
    (hdrop : script.drop pc = pushVch a ++ rest) :
    pushAt script pc = some a ∧ (script.GetOp2 pc).pc = pc + (pushVch a).length := by
  have hlen : a.length + rest.length < script.length := by
    have hbytes := congrArg List.length hdrop
    have hform := length_lt_pushVch a
    rw [List.length_drop, List.length_append] at hbytes
    omega
  have hcounted : Counted a.length rest.length := by
    rw [Counted, Nat.mod_eq_of_lt (by omega)]
    exact Nat.le_add_right _ _
  obtain ⟨opcode, hop, hread⟩ := (GetOp2_pushVch (by omega) hdrop).1 hcounted
  rw [pushAt_eq_some, hread, pushedBy, if_pos hop]
  exact ⟨⟨rfl, rfl⟩, rfl⟩

theorem eval_push (hscript : script.length ≤ 1000000) (hdrop : script.drop pc = pushVch a ++ rest)
    (hexec : s.vfExec = []) (hroom : s.stack.length + 1 + s.altstack.length ≤ 1000) :
    (scriptLoop crypto txTo nIn flags nHashType script).eval (pc, s) =
      (scriptLoop crypto txTo nIn flags nHashType script).eval (pc + (pushVch a).length,
        { s with stack := a :: s.stack }) := by
  obtain ⟨hpush, hnext⟩ := pushAt_pushVch hscript hdrop
  rw [eval_pushAt hpush ((GetOp2_vchRet_le script pc).trans hscript) hexec hroom, hnext]

theorem toNat_smallInt (h : n ≤ 16) : (n + (OP_1 - 1)).toUInt8.toNat = n + (OP_1 - 1) := by
  apply toNat_toUInt8
  simp only [OP_1]
  omega

theorem GetOp2_smallInt (hlow : 1 ≤ n) (hhigh : n ≤ 16)
    (hdrop : script.drop pc = pushSmallInt n ++ rest) :
    script.GetOp2 pc = ⟨true, n + (OP_1 - 1), [], pc + 1⟩ := by
  have hbyte := toNat_smallInt hhigh
  have hcons : script.drop pc = (n + (OP_1 - 1)).toUInt8 :: rest := hdrop
  rw [← hbyte]
  apply GetOp2_op hcons
  rw [hbyte]
  simp only [OP_1, OP_PUSHDATA4]
  omega

theorem eval_smallInt (hlow : 1 ≤ n) (hhigh : n ≤ 16)
    (hdrop : script.drop pc = pushSmallInt n ++ rest) (hexec : s.vfExec = [])
    (hroom : s.stack.length + 1 + s.altstack.length ≤ 1000) :
    (scriptLoop crypto txTo nIn flags nHashType script).eval (pc, s) =
      (scriptLoop crypto txTo nIn flags nHashType script).eval (pc + 1,
        { s with stack := getvch n :: s.stack }) := by
  have hread := GetOp2_smallInt hlow hhigh hdrop
  have hpush : pushAt script pc = some (getvch n) := by
    rw [pushAt_eq_some, hread]
    exact ⟨rfl, pushedBy_smallInt hlow hhigh⟩
  rw [eval_pushAt hpush (by rw [hread]; exact Nat.zero_le _) hexec hroom, hread]

/-- More opcodes than the limit allows. -/
theorem evalInstruction_exhausted (hop : OP_16 < r.opcodeRet) (hops : 201 ≤ s.nOpCount) :
    evalInstruction crypto txTo nIn flags nHashType script r s = none := by
  have hcount : 201 < s.nOpCount + 1 := Nat.lt_succ_of_le hops
  simp only [evalInstruction, hop, hcount, true_and, if_true]
  split
  · rfl
  · split <;> rfl

theorem eval_opcode (hdrop : script.drop pc = b :: rest) (hop : OP_16 < b.toNat)
    (hcase : Opcode.ofNat b.toNat = some opcode) (hdisabled : b.toNat ∉ disabledOpcodes)
    (hexec : s.vfExec = []) :
    (scriptLoop crypto txTo nIn flags nHashType script).eval (pc, s) =
      if s.nOpCount < 201 then
        ((opcode.execute crypto txTo nIn flags nHashType script (pc + 1) true
          { s with nOpCount := s.nOpCount + 1 }).bind withinLimit).bind fun t =>
            (scriptLoop crypto txTo nIn flags nHashType script).eval (pc + 1, t)
      else none := by
  have hlen : pc < script.length := by
    have hbytes := congrArg List.length hdrop
    rw [List.length_drop, List.length_cons] at hbytes
    omega
  have hpush : OP_PUSHDATA4 < b.toNat := by
    simp only [OP_PUSHDATA4, OP_16] at hop ⊢
    omega
  rw [eval_instruction hlen]
  by_cases hops : s.nOpCount < 201
  · rw [if_pos hops, evalInstruction_at hdrop hop hcase hdisabled (by rw [hexec]; rfl) hops,
      GetOp2_op hdrop hpush]
  · rw [if_neg hops, GetOp2_op hdrop hpush, evalInstruction_exhausted hop (Nat.not_lt.mp hops)]
    rfl

theorem eval_op (hdrop : script.drop pc = b :: rest) (hop : OP_16 < b.toNat)
    (hcase : Opcode.ofNat b.toNat = some opcode) (hdisabled : b.toNat ∉ disabledOpcodes)
    (hexec : s.vfExec = []) (hops : s.nOpCount < 201)
    (hrun : opcode.execute crypto txTo nIn flags nHashType script (pc + 1) true
      { s with nOpCount := s.nOpCount + 1 } = some t)
    (hroom : t.stack.length + t.altstack.length ≤ 1000) :
    (scriptLoop crypto txTo nIn flags nHashType script).eval (pc, s) =
      (scriptLoop crypto txTo nIn flags nHashType script).eval (pc + 1, t) := by
  rw [eval_opcode hdrop hop hcase hdisabled hexec, if_pos hops, hrun, Option.bind_some,
    withinLimit_ok hroom]
  rfl

theorem eval_op_none (hdrop : script.drop pc = b :: rest) (hop : OP_16 < b.toNat)
    (hcase : Opcode.ofNat b.toNat = some opcode) (hdisabled : b.toNat ∉ disabledOpcodes)
    (hexec : s.vfExec = [])
    (hrun : opcode.execute crypto txTo nIn flags nHashType script (pc + 1) true
      { s with nOpCount := s.nOpCount + 1 } = none) :
    (scriptLoop crypto txTo nIn flags nHashType script).eval (pc, s) = none := by
  rw [eval_opcode hdrop hop hcase hdisabled hexec, hrun]
  exact ite_self none

theorem eval_pushes {args : List valtype} (hscript : script.length ≤ 1000000)
    (hdrop : script.drop pc = args.flatMap pushVch ++ rest) (hexec : s.vfExec = [])
    (hroom : s.stack.length + args.length + s.altstack.length ≤ 1000) :
    (scriptLoop crypto txTo nIn flags nHashType script).eval (pc, s) =
      (scriptLoop crypto txTo nIn flags nHashType script).eval
        (pc + (args.flatMap pushVch).length, { s with stack := args.reverse ++ s.stack }) := by
  induction args generalizing pc s with
  | nil => rfl
  | cons a args ih =>
    rw [List.length_cons] at hroom
    rw [List.flatMap_cons, List.append_assoc] at hdrop
    have hlater : (scriptLoop crypto txTo nIn flags nHashType script).eval
        (pc + (pushVch a).length, { s with stack := a :: s.stack }) =
      (scriptLoop crypto txTo nIn flags nHashType script).eval
        (pc + (pushVch a).length + (args.flatMap pushVch).length,
          { s with stack := args.reverse ++ a :: s.stack }) :=
      ih (s := { s with stack := a :: s.stack }) (drop_add_length hdrop) hexec
        (by dsimp only [List.length_cons]; omega)
    rw [eval_push hscript hdrop hexec (by omega), hlater, List.flatMap_cons, List.length_append,
      ← Nat.add_assoc, List.reverse_cons, List.append_assoc, List.singleton_append]

theorem accepts_ofBool (b : Bool) (stack : List valtype) :
    accepts (some (ofBool b :: stack)) = b := by
  cases b <;> rfl

/-- An output that does not pay to the hash of a script is run on what the input leaves. -/
theorem VerifyScript_bare {scriptSig : CScript}
    (hrun : EvalScript crypto txTo nIn flags nHashType [] scriptSig = some stack)
    (hbare : script.IsPayToScriptHash = false) :
    VerifyScript crypto txTo nIn flags nHashType scriptSig script =
      accepts (EvalScript crypto txTo nIn flags nHashType stack script) := by
  rw [VerifyScript, hrun]
  dsimp only
  rw [hbare]
  cases accepts (EvalScript crypto txTo nIn flags nHashType stack script) <;> rfl

/-! ## The pushes at the start of a script -/

/-- The values that are pushed from an iterator on, and the first instruction that is no push. -/
def pushPrefix (script : CScript) : (fuel pc : ℕ) → List valtype × ℕ
  | 0, pc => ([], pc)
  | fuel + 1, pc =>
    match pushAt script pc with
    | some v =>
      let rest := pushPrefix script fuel (script.GetOp2 pc).pc
      (v :: rest.1, rest.2)
    | none => ([], pc)

theorem pushPrefix_some (h : pushAt script pc = some v) :
    pushPrefix script (fuel + 1) pc =
      (v :: (pushPrefix script fuel (script.GetOp2 pc).pc).1,
        (pushPrefix script fuel (script.GetOp2 pc).pc).2) := by
  rw [pushPrefix, h]

theorem pushPrefix_none (h : pushAt script pc = none) :
    pushPrefix script (fuel + 1) pc = ([], pc) := by
  rw [pushPrefix, h]

/-- Pushes put their values on the stack as long as there is room. -/
theorem eval_pushPrefix (hscript : script.length ≤ 1000000) (fuel : ℕ) {pc : ℕ} {s : EvalState}
    (hexec : s.vfExec = []) (hroom : s.stack.length + s.altstack.length ≤ 1000) :
    (scriptLoop crypto txTo nIn flags nHashType script).eval (pc, s) =
      if (pushPrefix script fuel pc).1.length + s.stack.length + s.altstack.length ≤ 1000 then
        (scriptLoop crypto txTo nIn flags nHashType script).eval ((pushPrefix script fuel pc).2,
          { s with stack := (pushPrefix script fuel pc).1.reverse ++ s.stack })
      else none := by
  induction fuel generalizing pc s with
  | zero => simp [pushPrefix, hroom]
  | succ fuel ih =>
    cases hpush : pushAt script pc with
    | none => simp [pushPrefix_none hpush, hroom]
    | some v =>
      obtain ⟨hret, hv⟩ := pushAt_eq_some.mp hpush
      have hsize := (GetOp2_vchRet_le script pc).trans hscript
      rw [pushPrefix_some hpush, eval_instruction (GetOp2_end hret),
        evalInstruction_pushed hret (pushedBy_le hv) hsize hexec, hv, Option.bind_some]
      generalize (script.GetOp2 pc).pc = pc'
      by_cases hmore : s.stack.length + 1 + s.altstack.length ≤ 1000
      · have hlimit : withinLimit { s with stack := v :: s.stack } = some _ := withinLimit_ok hmore
        have hcount : (pushPrefix script fuel pc').1.length + (v :: s.stack).length +
            s.altstack.length =
              (v :: (pushPrefix script fuel pc').1).length + s.stack.length + s.altstack.length := by
          simp only [List.length_cons]
          omega
        rw [hlimit, Option.bind_some, ih (by exact hexec) (by exact hmore)]
        simp only [hcount, List.reverse_cons, List.append_assoc, List.singleton_append]
      · have hnone : withinLimit { s with stack := v :: s.stack } = none :=
          if_pos (Nat.not_le.mp hmore)
        rw [hnone, Option.bind_none, List.length_cons, if_neg (by omega)]

/-- The values that a script of pushes leaves, the first one first. -/
def CScript.pushes (script : CScript) : Option (List valtype) :=
  let p := pushPrefix script script.length 0
  if script.length ≤ p.2 then some p.1 else none

/-- A script that is only allowed pushes stops being one where it uses the reserved opcode. -/
theorem pushPrefix_pushOnly (hfuel : script.length ≤ pc + fuel)
    (h : pushOnlyLoop script fuel pc = true) (hend : (pushPrefix script fuel pc).2 < script.length) :
    (script.GetOp2 (pushPrefix script fuel pc).2).ret = true ∧
      (script.GetOp2 (pushPrefix script fuel pc).2).opcodeRet ≤ OP_16 ∧
      pushedBy (script.GetOp2 (pushPrefix script fuel pc).2) = none := by
  induction fuel generalizing pc with
  | zero =>
    rw [pushPrefix] at hend
    omega
  | succ fuel ih =>
    unfold pushOnlyLoop at h
    cases hpush : pushAt script pc with
    | none =>
      rw [pushPrefix_none hpush] at hend ⊢
      rw [if_neg (Nat.not_le.mpr hend)] at h
      dsimp only at h
      split at h
      · simp at h
      · rename_i hread
        rw [not_or, Bool.not_eq_true', Bool.not_eq_false, Nat.not_lt] at hread
        rw [pushAt, if_pos hread.1] at hpush
        exact ⟨hread.1, hread.2, hpush⟩
    | some v =>
      obtain ⟨hret, _⟩ := pushAt_eq_some.mp hpush
      rw [pushPrefix_some hpush] at hend ⊢
      rw [if_neg (Nat.not_le.mpr (GetOp2_end hret))] at h
      dsimp only at h
      split at h
      · simp at h
      · have hmove := GetOp2_lt hret
        exact ih (by omega) h hend

/-- What a script of pushes does to an empty stack. -/
theorem EvalScript_pushOnly (h : script.IsPushOnly = true) :
    EvalScript crypto txTo nIn flags nHashType [] script =
      script.pushes.bind fun vs =>
        if script.length ≤ 1000000 ∧ vs.length ≤ 1000 then some vs.reverse else none := by
  by_cases hscript : script.length ≤ 1000000
  · rw [EvalScript_eq hscript, eval_pushPrefix hscript script.length rfl (by simp), CScript.pushes]
    by_cases hend : script.length ≤ (pushPrefix script script.length 0).2
    · rw [eval_end hend]
      simp only [if_pos hend, Option.bind_some, List.length_nil, Nat.add_zero, hscript, true_and,
        List.append_nil]
      split <;> rfl
    · obtain ⟨hret, hop, hnone⟩ :=
        pushPrefix_pushOnly (by simp) h (Nat.not_le.mp hend)
      have hsize := (GetOp2_vchRet_le script (pushPrefix script script.length 0).2).trans hscript
      rw [eval_instruction (Nat.not_le.mp hend), evalInstruction_pushed hret hop hsize rfl, hnone]
      simp only [if_neg hend, Option.bind_none]
      split <;> rfl
  · rw [EvalScript, if_pos (Nat.not_le.mp hscript)]
    cases script.pushes with
    | none => rfl
    | some vs => simp [hscript]

end Context

end Dions
