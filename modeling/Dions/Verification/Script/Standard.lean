import Dions.Model.Destination
import Dions.Verification.Script.Instructions
import Dions.Verification.Script.Multisig

/-! # Standard scripts

The grammar of the standard output types, and what `Solver` recognises. The two differ in scripts of
`OP_RETURN` and one more opcode: the matcher looks at the length of an operand and not at whether the
instruction is a push. -/

namespace Dions

open LittleEndian txnouttype

variable {ps rest script : CScript} {fuel n pc : ℕ} {vch : valtype}
  {vSolutions vSolutions' : List valtype} {type : txnouttype}
variable {h : valtype} {p : CScript}

/-! ## The grammar -/

/-- Pushes of keys, one behind the other. -/
inductive KeyPushes : List valtype → CScript → Prop
  | nil : KeyPushes [] []
  | cons {k : valtype} {p : CScript} {keys : List valtype} {ps : CScript}
      (hsize : 33 ≤ k.length ∧ k.length ≤ 120) (hpush : Pushes k p) (hrest : KeyPushes keys ps) :
      KeyPushes (k :: keys) (p ++ ps)

/-- The standard scripts with what `Solver` is to extract from them. -/
inductive Standard : txnouttype → List valtype → CScript → Prop
  | pubKey {k : valtype} {p : CScript} (hsize : 33 ≤ k.length ∧ k.length ≤ 120)
      (hpush : Pushes k p) : Standard TX_PUBKEY [k] (p ++ [OP_CHECKSIG.toUInt8])
  | pubKeyHash {h : valtype} {p : CScript} (hsize : h.length = 20) (hpush : Pushes h p) :
      Standard TX_PUBKEYHASH [h] (OP_DUP.toUInt8 :: OP_HASH160.toUInt8 ::
        (p ++ [OP_EQUALVERIFY.toUInt8, OP_CHECKSIG.toUInt8]))
  | scriptHash {h : valtype} (hsize : h.length = 20) :
      Standard TX_SCRIPTHASH [h] (OP_HASH160.toUInt8 :: 20 :: (h ++ [OP_EQUAL.toUInt8]))
  | multisig {m : ℕ} {keys : List valtype} {ps : CScript} (hm : 1 ≤ m) (hmn : m ≤ keys.length)
      (hn : keys.length ≤ 16) (hkeys : KeyPushes keys ps) :
      Standard TX_MULTISIG ([m.toUInt8] :: (keys ++ [[keys.length.toUInt8]]))
        (pushSmallInt m ++ (ps ++ (pushSmallInt keys.length ++ [OP_CHECKMULTISIG.toUInt8])))
  | nullData : Standard TX_NULL_DATA [] [OP_RETURN.toUInt8]
  | nullDataPush {d : valtype} {p : CScript} (hsize : d.length ≤ MAX_OP_RETURN_RELAY)
      (hpush : Pushes d p) : Standard TX_NULL_DATA [] (OP_RETURN.toUInt8 :: p)

/-! ## Where the matcher stands -/

/-- The iterator stands in front of the bytes `rest`. -/
structure StandsAt (script : CScript) (pc : ℕ) (rest : CScript) : Prop where
  drop_eq : script.drop pc = rest
  length_eq : pc + rest.length = script.length

theorem standsAt_start (script : CScript) : StandsAt script 0 script := ⟨rfl, Nat.zero_add _⟩

theorem StandsAt.move {bytes : CScript} (h : StandsAt script pc (bytes ++ rest)) :
    StandsAt script (pc + bytes.length) rest := by
  have hlen := h.length_eq
  rw [List.length_append] at hlen
  exact ⟨drop_add_length h.drop_eq, by omega⟩

theorem StandsAt.read (h : StandsAt script pc rest) (hret : (script.GetOp2 pc).ret = true) :
    ∃ bytes rest', Instruction (script.GetOp2 pc).opcodeRet (script.GetOp2 pc).vchRet bytes ∧
      rest = bytes ++ rest' ∧ StandsAt script (script.GetOp2 pc).pc rest' := by
  obtain ⟨bytes, hbytes⟩ := GetOp2_readBytes hret
  have hrest := h.drop_eq.symm.trans hbytes.drop_eq
  refine ⟨bytes, _, hbytes.instruction, hrest, ?_⟩
  rw [hrest] at h
  rw [hbytes.pc_eq] at h ⊢
  exact h.move

/-- An instruction in front of the iterator is read. -/
theorem StandsAt.write {bytes : CScript} {opcode : ℕ} (h : StandsAt script pc (bytes ++ rest))
    (hlen : script.length < 2 ^ 32) (hi : Instruction opcode vch bytes) :
    script.GetOp2 pc = ⟨true, opcode, vch, pc + bytes.length⟩ :=
  GetOp2_of_instruction hlen hi h.drop_eq

theorem GetOp2_unread (script : CScript) (pc : ℕ) :
    (script.GetOp2 pc).ret = false → (script.GetOp2 pc).opcodeRet = OP_INVALIDOPCODE := by
  have hpush : ∀ (opcode nSize pc' : ℕ) (rest : CScript),
      (getOpPush opcode nSize rest pc').ret = false →
        (getOpPush opcode nSize rest pc').opcodeRet = OP_INVALIDOPCODE := by
    intro opcode nSize pc' rest
    unfold getOpPush
    split
    · exact fun _ => rfl
    · simp
  unfold CScript.GetOp2
  split
  · exact fun _ => rfl
  · dsimp only
    split
    · split
      · exact hpush _ _ _ _
      · split
        · split
          · exact hpush _ _ _ _
          · exact fun _ => rfl
        · split
          · split
            · exact hpush _ _ _ _
            · exact fun _ => rfl
          · split
            · exact hpush _ _ _ _
            · exact fun _ => rfl
    · simp

/-! ## One instruction against one element of a template -/

section Match

variable {r : GetOpRet} {q : ℕ} {vSolutions out : List valtype}

theorem match_PUBKEY : matchInstruction r ⟨true, OP_PUBKEY, [], q⟩ vSolutions = some out ↔
    (33 ≤ r.vchRet.length ∧ r.vchRet.length ≤ 120) ∧ out = vSolutions ++ [r.vchRet] := by
  simp only [matchInstruction, if_true, isPubKeySize, Bool.and_eq_true, decide_eq_true_eq]
  split
  · rename_i hsize
    simp [hsize, eq_comm]
  · rename_i hsize
    simp [hsize]

theorem match_PUBKEYHASH : matchInstruction r ⟨true, OP_PUBKEYHASH, [], q⟩ vSolutions = some out ↔
    r.vchRet.length = 20 ∧ out = vSolutions ++ [r.vchRet] := by
  have hne : ¬OP_PUBKEYHASH = OP_PUBKEY := by decide
  simp only [matchInstruction, if_neg hne, if_true]
  split
  · rename_i hsize
    simp [hsize, eq_comm]
  · rename_i hsize
    simp [hsize]

/-- A small number is the opcode that it was written with. -/
theorem match_SMALLINTEGER :
    matchInstruction r ⟨true, OP_SMALLINTEGER, [], q⟩ vSolutions = some out ↔
      ∃ n ≤ 16, r.opcodeRet = (if n = 0 then OP_0 else n + (OP_1 - 1)) ∧
        out = vSolutions ++ [[n.toUInt8]] := by
  have hkey : ¬OP_SMALLINTEGER = OP_PUBKEY := by decide
  have hhash : ¬OP_SMALLINTEGER = OP_PUBKEYHASH := by decide
  simp only [matchInstruction, if_neg hkey, if_neg hhash, if_true]
  constructor
  · intro h
    split at h
    · rename_i hzero
      exact ⟨0, Nat.zero_le _, hzero, (Option.some.inj h).symm⟩
    · split at h
      · rename_i hrange
        refine ⟨r.opcodeRet - (OP_1 - 1), ?_, ?_, (Option.some.inj h).symm⟩
        · simp only [OP_1, OP_16] at hrange ⊢
          omega
        · have hnonzero : ¬r.opcodeRet - (OP_1 - 1) = 0 := by
            simp only [OP_1, OP_16] at hrange ⊢
            omega
          rw [if_neg hnonzero]
          simp only [OP_1, OP_16] at hrange ⊢
          omega
      · simp at h
  · rintro ⟨n, hn, hop, rfl⟩
    by_cases hzero : n = 0
    · rw [if_pos hzero] at hop
      rw [if_pos hop, hzero]
      rfl
    · rw [if_neg hzero] at hop
      have hrange : OP_1 ≤ r.opcodeRet ∧ r.opcodeRet ≤ OP_16 := by
        simp only [OP_1, OP_16] at hop ⊢
        omega
      have hvalue : r.opcodeRet - (OP_1 - 1) = n := by omega
      have hnonzero : ¬r.opcodeRet = OP_0 := by
        simp only [OP_1, OP_0] at hop ⊢
        omega
      rw [if_neg hnonzero, if_pos hrange, hvalue]

theorem match_SMALLDATA : matchInstruction r ⟨true, OP_SMALLDATA, [], q⟩ vSolutions = some out ↔
    r.vchRet.length ≤ MAX_OP_RETURN_RELAY ∧ out = vSolutions := by
  have hkey : ¬OP_SMALLDATA = OP_PUBKEY := by decide
  have hhash : ¬OP_SMALLDATA = OP_PUBKEYHASH := by decide
  have hsmall : ¬OP_SMALLDATA = OP_SMALLINTEGER := by decide
  simp only [matchInstruction, if_neg hkey, if_neg hhash, if_neg hsmall, if_true]
  split
  · rename_i hsize
    simp [hsize, eq_comm]
  · rename_i hsize
    simp [hsize]

/-- The other opcodes of a template stand for themselves. -/
theorem match_op {op : ℕ} (hop : op < OP_SMALLDATA) :
    matchInstruction r ⟨true, op, [], q⟩ vSolutions = some out ↔
      (r.opcodeRet = op ∧ r.vchRet = []) ∧ out = vSolutions := by
  simp only [OP_SMALLDATA] at hop
  have hkey : ¬op = OP_PUBKEY := by simp only [OP_PUBKEY]; omega
  have hhash : ¬op = OP_PUBKEYHASH := by simp only [OP_PUBKEYHASH]; omega
  have hsmall : ¬op = OP_SMALLINTEGER := by simp only [OP_SMALLINTEGER]; omega
  have hdata : ¬op = OP_SMALLDATA := by simp only [OP_SMALLDATA]; omega
  simp only [matchInstruction, if_neg hkey, if_neg hhash, if_neg hsmall, if_neg hdata]
  split
  · rename_i hsame
    simp [hsame, eq_comm]
  · rename_i hsame
    simp [hsame]

end Match

/-! ## A script against a template -/

section Template

variable {script script2 rest : CScript} {fuel pc pc2 op : ℕ} {vSolutions out : List valtype}

/-- At the end of a template the script has to end. -/
theorem matchTemplate_end (hpc2 : script2.length ≤ pc2)
    (h : matchTemplate script script2 fuel pc pc2 vSolutions = some out) :
    pc = script.length ∧ out = vSolutions := by
  cases fuel with
  | zero => simp [matchTemplate] at h
  | succ fuel =>
    rw [matchTemplate] at h
    split at h
    · rename_i hend
      exact ⟨hend.1, (Option.some.inj h).symm⟩
    · have hunread : (script2.GetOp2 pc2).ret = false := by
        simp [CScript.GetOp2, List.drop_eq_nil_of_le hpc2, getOpFail]
      simp [hunread] at h

/-- Before its end, the next instruction has to match the next element. -/
theorem matchTemplate_next (hread : script2.GetOp2 pc2 = ⟨true, op, [], pc2 + 1⟩)
    (hop : op ≠ OP_PUBKEYS) (hstands : StandsAt script pc rest)
    (h : matchTemplate script script2 fuel pc pc2 vSolutions = some out) :
    ∃ fuel' r bytes rest' vSolutions', Instruction r.opcodeRet r.vchRet bytes ∧
      rest = bytes ++ rest' ∧ StandsAt script r.pc rest' ∧
      matchInstruction r ⟨true, op, [], pc2 + 1⟩ vSolutions = some vSolutions' ∧
      matchTemplate script script2 fuel' r.pc (pc2 + 1) vSolutions' = some out := by
  cases fuel with
  | zero => simp [matchTemplate] at h
  | succ fuel =>
    have hmore : pc2 ≠ script2.length := by
      intro hend
      simp [CScript.GetOp2, hend, getOpFail] at hread
    simp only [matchTemplate, hmore, and_false, if_false, hread, Bool.not_true, Bool.or_false,
      if_neg hop] at h
    split at h
    · simp at h
    · rename_i hret
      have hret' : (script.GetOp2 pc).ret = true := by simpa using hret
      obtain ⟨bytes, rest', hi, hrest, hstands'⟩ := hstands.read hret'
      split at h
      · simp at h
      · rename_i hmatch
        exact ⟨fuel, _, bytes, rest', _, hi, hrest, hstands', hmatch, h⟩

theorem matchTemplate_done (hfuel : 0 < fuel) (hpc : pc = script.length)
    (hpc2 : pc2 = script2.length) :
    matchTemplate script script2 fuel pc pc2 vSolutions = some vSolutions := by
  obtain ⟨fuel, rfl⟩ : ∃ n, fuel = n + 1 := ⟨fuel - 1, by omega⟩
  rw [matchTemplate, if_pos ⟨hpc, hpc2⟩]

theorem matchTemplate_step {r : GetOpRet} (hread : script2.GetOp2 pc2 = ⟨true, op, [], pc2 + 1⟩)
    (hop : op ≠ OP_PUBKEYS) (hr : script.GetOp2 pc = r) (hret : r.ret = true)
    (hmatch : matchInstruction r ⟨true, op, [], pc2 + 1⟩ vSolutions = some vSolutions') :
    matchTemplate script script2 (fuel + 1) pc pc2 vSolutions =
      matchTemplate script script2 fuel r.pc (pc2 + 1) vSolutions' := by
  have hmore : pc2 ≠ script2.length := by
    intro hend
    simp [CScript.GetOp2, hend, getOpFail] at hread
  simp only [matchTemplate, hmore, and_false, if_false, hread, hr, hret, Bool.not_true,
    Bool.or_false, Bool.false_eq_true, if_neg hop, hmatch]

end Template

/-! ## Keys -/

/-- Keys in front of the instruction that was read last. -/
structure KeysTaken (script rest : CScript) (r : GetOpRet) (keys : List valtype)
    (ps bytes rest' : CScript) : Prop where
  keys : KeyPushes keys ps
  instruction : Instruction r.opcodeRet r.vchRet bytes
  rest_eq : rest = ps ++ (bytes ++ rest')
  stands : StandsAt script r.pc rest'

theorem takePubKeys_unread {r' : GetOpRet}
    (h : takePubKeys script fuel (script.GetOp2 pc) vSolutions = (r', vSolutions'))
    (hret' : r'.ret = false) : r'.opcodeRet = OP_INVALIDOPCODE := by
  induction fuel generalizing pc vSolutions with
  | zero =>
    simp only [takePubKeys, Prod.mk.injEq] at h
    rw [← h.1] at hret' ⊢
    exact GetOp2_unread script pc hret'
  | succ fuel ih =>
    rw [takePubKeys] at h
    dsimp only at h
    split at h
    · split at h
      · exact ih h
      · simp only [Prod.mk.injEq] at h
        rw [← h.1] at hret' ⊢
        exact GetOp2_unread script _ hret'
    · simp only [Prod.mk.injEq] at h
      rw [← h.1] at hret' ⊢
      exact GetOp2_unread script pc hret'

theorem takePubKeys_keys {r' : GetOpRet} (hstands : StandsAt script pc rest)
    (hret : (script.GetOp2 pc).ret = true)
    (h : takePubKeys script fuel (script.GetOp2 pc) vSolutions = (r', vSolutions'))
    (hret' : r'.ret = true) :
    ∃ keys ps bytes rest', vSolutions' = vSolutions ++ keys ∧
      KeysTaken script rest r' keys ps bytes rest' := by
  induction fuel generalizing pc rest vSolutions with
  | zero =>
    obtain ⟨bytes, rest', hi, hrest, hstands'⟩ := hstands.read hret
    simp only [takePubKeys, Prod.mk.injEq] at h
    obtain ⟨rfl, rfl⟩ := h
    exact ⟨[], [], bytes, rest', (List.append_nil _).symm, .nil, hi, hrest, hstands'⟩
  | succ fuel ih =>
    obtain ⟨bytes, rest', hi, hrest, hstands'⟩ := hstands.read hret
    rw [takePubKeys] at h
    split at h
    · rename_i hkey
      simp only [isPubKeySize, Bool.and_eq_true, decide_eq_true_eq] at hkey
      have hpush : Pushes (script.GetOp2 pc).vchRet bytes := by
        apply hi.pushes
        intro hnil
        rw [hnil] at hkey
        exact absurd hkey.1 (by decide)
      dsimp only at h
      cases hnext : (script.GetOp2 (script.GetOp2 pc).pc).ret with
      | false =>
        rw [hnext, if_neg Bool.false_ne_true, Prod.mk.injEq] at h
        rw [← h.1, hnext] at hret'
        exact absurd hret' Bool.false_ne_true
      | true =>
        rw [hnext, if_pos rfl] at h
        obtain ⟨keys, ps, bytes', rest'', hkeys, htaken⟩ := ih hstands' hnext h
        refine ⟨_ :: keys, bytes ++ ps, bytes', rest'', ?_, .cons hkey hpush htaken.keys,
          htaken.instruction, ?_, htaken.stands⟩
        · rw [hkeys, List.append_assoc, List.singleton_append]
        · rw [hrest, htaken.rest_eq, List.append_assoc]
    · simp only [Prod.mk.injEq] at h
      obtain ⟨rfl, rfl⟩ := h
      exact ⟨[], [], bytes, rest', (List.append_nil _).symm, .nil, hi, hrest, hstands'⟩

section Elements

variable {script script2 rest : CScript} {fuel pc pc2 op : ℕ} {vSolutions out : List valtype}

/-- The rest of a match behind an element of the template. -/
def Matched (script script2 : CScript) (pc2 : ℕ) (vSolutions out : List valtype)
    (rest : CScript) : Prop :=
  ∃ fuel pc, StandsAt script pc rest ∧
    matchTemplate script script2 fuel pc pc2 vSolutions = some out

theorem Matched.start (h : matchTemplate script script2 fuel 0 0 [] = some out) :
    Matched script script2 0 [] out script :=
  ⟨fuel, 0, standsAt_start script, h⟩

theorem Matched.ends (h : Matched script script2 pc2 vSolutions out rest)
    (hpc2 : script2.length ≤ pc2) : rest = [] ∧ out = vSolutions := by
  obtain ⟨fuel, pc, hstands, h⟩ := h
  obtain ⟨hpc, hout⟩ := matchTemplate_end hpc2 h
  have hlen := hstands.length_eq
  exact ⟨List.length_eq_zero_iff.mp (by omega), hout⟩

theorem Matched.opcode (h : Matched script script2 pc2 vSolutions out rest)
    (hread : script2.GetOp2 pc2 = ⟨true, op, [], pc2 + 1⟩) (hlow : OP_PUSHDATA4 < op)
    (hhigh : op < OP_SMALLDATA) :
    ∃ rest', rest = op.toUInt8 :: rest' ∧ Matched script script2 (pc2 + 1) vSolutions out rest' := by
  obtain ⟨fuel, pc, hstands, h⟩ := h
  have hkeys : op ≠ OP_PUBKEYS := by
    simp only [OP_SMALLDATA, OP_PUBKEYS] at hhigh ⊢
    omega
  obtain ⟨fuel', r, bytes, rest', vSolutions', hi, hrest, hstands', hmatch, h'⟩ :=
    matchTemplate_next hread hkeys hstands h
  obtain ⟨⟨hop, _⟩, rfl⟩ := (match_op hhigh).mp hmatch
  rw [hop] at hi
  refine ⟨rest', ?_, fuel', r.pc, hstands', h'⟩
  rw [hrest, (hi.op_form hlow).2, List.singleton_append]

theorem Matched.pubKey (h : Matched script script2 pc2 vSolutions out rest)
    (hread : script2.GetOp2 pc2 = ⟨true, OP_PUBKEY, [], pc2 + 1⟩) :
    ∃ k p rest', (33 ≤ k.length ∧ k.length ≤ 120) ∧ Pushes k p ∧ rest = p ++ rest' ∧
      Matched script script2 (pc2 + 1) (vSolutions ++ [k]) out rest' := by
  obtain ⟨fuel, pc, hstands, h⟩ := h
  obtain ⟨fuel', r, bytes, rest', vSolutions', hi, hrest, hstands', hmatch, h'⟩ :=
    matchTemplate_next hread (by decide) hstands h
  obtain ⟨hsize, rfl⟩ := match_PUBKEY.mp hmatch
  refine ⟨r.vchRet, bytes, rest', hsize, hi.pushes ?_, hrest, fuel', r.pc, hstands', h'⟩
  intro hnil
  rw [hnil] at hsize
  exact absurd hsize.1 (by decide)

theorem Matched.pubKeyHash (h : Matched script script2 pc2 vSolutions out rest)
    (hread : script2.GetOp2 pc2 = ⟨true, OP_PUBKEYHASH, [], pc2 + 1⟩) :
    ∃ k p rest', k.length = 20 ∧ Pushes k p ∧ rest = p ++ rest' ∧
      Matched script script2 (pc2 + 1) (vSolutions ++ [k]) out rest' := by
  obtain ⟨fuel, pc, hstands, h⟩ := h
  obtain ⟨fuel', r, bytes, rest', vSolutions', hi, hrest, hstands', hmatch, h'⟩ :=
    matchTemplate_next hread (by decide) hstands h
  obtain ⟨hsize, rfl⟩ := match_PUBKEYHASH.mp hmatch
  refine ⟨r.vchRet, bytes, rest', hsize, hi.pushes ?_, hrest, fuel', r.pc, hstands', h'⟩
  intro hnil
  rw [hnil] at hsize
  exact absurd hsize (by decide)

def smallIntByte (n : ℕ) : UInt8 := (if n = 0 then OP_0 else n + (OP_1 - 1)).toUInt8

theorem Instruction.smallInt {bytes : CScript} (hn : n ≤ 16)
    (h : Instruction (if n = 0 then OP_0 else n + (OP_1 - 1)) vch bytes) :
    bytes = [smallIntByte n] ∧ vch = [] := by
  by_cases hzero : n = 0
  · rw [if_pos hzero] at h
    rw [smallIntByte, if_pos hzero]
    generalize hopcode : OP_0 = opcode at h ⊢
    cases h with
    | push hform =>
      cases hform with
      | direct hlt =>
        have hnil : vch = [] := List.length_eq_zero_iff.mp hopcode.symm
        rw [hnil]
        exact ⟨rfl, rfl⟩
      | pushData1 => exact absurd hopcode (by decide)
      | pushData2 => exact absurd hopcode (by decide)
      | pushData4 => exact absurd hopcode (by decide)
    | op hop =>
      rw [← hopcode] at hop
      exact absurd hop (by decide)
  · rw [if_neg hzero] at h
    rw [smallIntByte, if_neg hzero]
    have hop : OP_PUSHDATA4 < n + (OP_1 - 1) := by
      simp only [OP_PUSHDATA4, OP_1]
      omega
    exact ⟨(h.op_form hop).2, (h.op_form hop).1⟩

theorem instruction_smallInt (hn : n ≤ 16) :
    Instruction (if n = 0 then OP_0 else n + (OP_1 - 1)) [] [smallIntByte n] := by
  by_cases hzero : n = 0
  · rw [smallIntByte, if_pos hzero]
    have hform : PushForm [] 0 [0] := .direct (by decide)
    exact .push hform
  · rw [smallIntByte, if_neg hzero]
    apply Instruction.op
    · simp only [OP_PUSHDATA4, OP_1]
      omega
    · simp only [OP_1]
      omega

theorem Matched.smallInt (h : Matched script script2 pc2 vSolutions out rest)
    (hread : script2.GetOp2 pc2 = ⟨true, OP_SMALLINTEGER, [], pc2 + 1⟩) :
    ∃ n ≤ 16, ∃ rest', rest = smallIntByte n :: rest' ∧
      Matched script script2 (pc2 + 1) (vSolutions ++ [[n.toUInt8]]) out rest' := by
  obtain ⟨fuel, pc, hstands, h⟩ := h
  obtain ⟨fuel', r, bytes, rest', vSolutions', hi, hrest, hstands', hmatch, h'⟩ :=
    matchTemplate_next hread (by decide) hstands h
  obtain ⟨n, hn, hop, rfl⟩ := match_SMALLINTEGER.mp hmatch
  rw [hop] at hi
  refine ⟨n, hn, rest', ?_, fuel', r.pc, hstands', h'⟩
  rw [hrest, (hi.smallInt hn).1, List.singleton_append]

/-- The keys that are taken, and the number that is read behind them. -/
theorem Matched.pubKeys (h : Matched script script2 pc2 vSolutions out rest)
    (hread : script2.GetOp2 pc2 = ⟨true, OP_PUBKEYS, [], pc2 + 1⟩)
    (hread' : script2.GetOp2 (pc2 + 1) = ⟨true, OP_SMALLINTEGER, [], pc2 + 2⟩) :
    ∃ keys ps, KeyPushes keys ps ∧ ∃ n ≤ 16, ∃ rest', rest = ps ++ smallIntByte n :: rest' ∧
      Matched script script2 (pc2 + 2) (vSolutions ++ (keys ++ [[n.toUInt8]])) out rest' := by
  obtain ⟨fuel, pc, hstands, h⟩ := h
  cases fuel with
  | zero => simp [matchTemplate] at h
  | succ fuel =>
    have hmore : pc2 ≠ script2.length := by
      intro hend
      simp [CScript.GetOp2, hend, getOpFail] at hread
    simp only [matchTemplate, hmore, and_false, if_false, hread, hread', Bool.not_true,
      Bool.or_false, Bool.false_eq_true, if_true] at h
    split at h
    · simp at h
    · rename_i hret
      have hret' : (script.GetOp2 pc).ret = true := by simpa using hret
      cases htaken : takePubKeys script script.length (script.GetOp2 pc) vSolutions with
      | mk r vSolutions' =>
        simp only [htaken] at h
        split at h
        · simp at h
        · rename_i hmatch
          obtain ⟨n, hn, hop, rfl⟩ := match_SMALLINTEGER.mp hmatch
          have hr : r.ret = true := by
            by_contra hunread
            have hopcode := takePubKeys_unread htaken (by simpa using hunread)
            rw [hopcode] at hop
            split at hop
            · exact absurd hop (by decide)
            · simp only [OP_INVALIDOPCODE, OP_1] at hop
              omega
          obtain ⟨keys, ps, bytes, rest', rfl, hkeys⟩ := takePubKeys_keys hstands hret' htaken hr
          have hi := hkeys.instruction
          rw [hop] at hi
          refine ⟨keys, ps, hkeys.keys, n, hn, rest', ?_, fuel, r.pc, hkeys.stands, ?_⟩
          · rw [hkeys.rest_eq, (hi.smallInt hn).1, List.singleton_append]
          · rw [← List.append_assoc]
            exact h

theorem Matched.smallData (h : Matched script script2 pc2 vSolutions out rest)
    (hread : script2.GetOp2 pc2 = ⟨true, OP_SMALLDATA, [], pc2 + 1⟩) :
    ∃ opcode d p rest', d.length ≤ MAX_OP_RETURN_RELAY ∧ Instruction opcode d p ∧
      rest = p ++ rest' ∧ Matched script script2 (pc2 + 1) vSolutions out rest' := by
  obtain ⟨fuel, pc, hstands, h⟩ := h
  obtain ⟨fuel', r, bytes, rest', vSolutions', hi, hrest, hstands', hmatch, h'⟩ :=
    matchTemplate_next hread (by decide) hstands h
  obtain ⟨hsize, rfl⟩ := match_SMALLDATA.mp hmatch
  exact ⟨r.opcodeRet, r.vchRet, bytes, rest', hsize, hi, hrest, fuel', r.pc, hstands', h'⟩

end Elements

/-- Keys are taken until an instruction has no operand. -/
theorem takePubKeys_write {bytes : CScript} {opcode : ℕ} {keys : List valtype}
    (hlen : script.length < 2 ^ 32) (hkeys : KeyPushes keys ps)
    (hstands : StandsAt script pc (ps ++ (bytes ++ rest))) (hi : Instruction opcode [] bytes)
    (hfuel : keys.length ≤ fuel) :
    takePubKeys script fuel (script.GetOp2 pc) vSolutions =
      (⟨true, opcode, [], pc + ps.length + bytes.length⟩, vSolutions ++ keys) := by
  induction hkeys generalizing fuel pc vSolutions with
  | nil =>
    rw [List.nil_append] at hstands
    rw [hstands.write hlen hi, List.append_nil, List.length_nil, Nat.add_zero]
    cases fuel with
    | zero => rfl
    | succ fuel => rw [takePubKeys, if_neg (by simp [isPubKeySize])]
  | @cons k p keys ps hsize hpush hrest ih =>
    obtain ⟨n, rfl⟩ : ∃ n, fuel = n + 1 := ⟨fuel - 1, by simp at hfuel; omega⟩
    obtain ⟨opcode', hform⟩ := hpush
    rw [List.append_assoc] at hstands
    have hread := hstands.write hlen (.push hform)
    have hnext : (script.GetOp2 (pc + p.length)).ret = true := by
      have hstands' := hstands.move
      cases hrest with
      | nil =>
        rw [List.nil_append] at hstands'
        rw [hstands'.write hlen hi]
      | cons _ hpush' _ =>
        obtain ⟨_, hform'⟩ := hpush'
        rw [List.append_assoc] at hstands'
        rw [hstands'.write hlen (.push hform')]
    have hkey : isPubKeySize k = true := by simpa [isPubKeySize] using hsize
    rw [hread, takePubKeys, if_pos hkey]
    dsimp only
    rw [hnext, if_pos rfl, ih hstands.move (by simpa using hfuel), List.append_assoc,
      List.singleton_append, List.length_append, ← Nat.add_assoc]

/-! ## The templates -/

section Templates

variable {script : CScript} {fuel : ℕ} {out : List valtype}

def templatePubKey : CScript := [OP_PUBKEY, OP_CHECKSIG].map Nat.toUInt8

def templatePubKeyHash : CScript :=
  [OP_DUP, OP_HASH160, OP_PUBKEYHASH, OP_EQUALVERIFY, OP_CHECKSIG].map Nat.toUInt8

def templateMultisig : CScript :=
  [OP_SMALLINTEGER, OP_PUBKEYS, OP_SMALLINTEGER, OP_CHECKMULTISIG].map Nat.toUInt8

def templateNullData : CScript := [OP_RETURN, OP_SMALLDATA].map Nat.toUInt8

def templateReturn : CScript := [OP_RETURN].map Nat.toUInt8

theorem mTemplates_eq : mTemplates = [(TX_PUBKEY, templatePubKey),
    (TX_PUBKEYHASH, templatePubKeyHash), (TX_MULTISIG, templateMultisig),
    (TX_NULL_DATA, templateNullData), (TX_NULL_DATA, templateReturn)] := rfl

theorem of_match_pubKey (h : matchTemplate script templatePubKey fuel 0 0 [] = some out) :
    Standard TX_PUBKEY out script := by
  obtain ⟨k, p, rest₁, hsize, hpush, hrest₁, h₁⟩ := (Matched.start h).pubKey rfl
  obtain ⟨rest₂, hrest₂, h₂⟩ := h₁.opcode rfl (by decide) (by decide)
  obtain ⟨rfl, rfl⟩ := h₂.ends le_rfl
  rw [hrest₁, hrest₂]
  exact .pubKey hsize hpush

theorem of_match_pubKeyHash (h : matchTemplate script templatePubKeyHash fuel 0 0 [] = some out) :
    Standard TX_PUBKEYHASH out script := by
  obtain ⟨rest₁, hrest₁, h₁⟩ := (Matched.start h).opcode rfl (by decide) (by decide)
  obtain ⟨rest₂, hrest₂, h₂⟩ := h₁.opcode rfl (by decide) (by decide)
  obtain ⟨k, p, rest₃, hsize, hpush, hrest₃, h₃⟩ := h₂.pubKeyHash rfl
  obtain ⟨rest₄, hrest₄, h₄⟩ := h₃.opcode rfl (by decide) (by decide)
  obtain ⟨rest₅, hrest₅, h₅⟩ := h₄.opcode rfl (by decide) (by decide)
  obtain ⟨rfl, rfl⟩ := h₅.ends le_rfl
  rw [hrest₁, hrest₂, hrest₃, hrest₄, hrest₅]
  exact .pubKeyHash hsize hpush

theorem multisigCounts_iff {m : ℕ} {keys : List valtype} (hm : m ≤ 16) (hn : n ≤ 16) :
    multisigCounts ([m.toUInt8] :: (keys ++ [[n.toUInt8]])) = true ↔
      1 ≤ m ∧ 1 ≤ n ∧ m ≤ n ∧ keys.length = n := by
  have hmbyte : m.toUInt8.toNat = m := toNat_toUInt8 (by omega)
  have hnbyte : n.toUInt8.toNat = n := toNat_toUInt8 (by omega)
  have hlast : ([m.toUInt8] :: (keys ++ [[n.toUInt8]])).getLast? = some [n.toUInt8] := by
    rw [← List.cons_append, List.getLast?_concat]
  have hlength : ([m.toUInt8] :: (keys ++ [[n.toUInt8]])).length - 2 = keys.length := by
    simp only [List.length_cons, List.length_append, List.length_nil]
    omega
  rw [multisigCounts, hlast, hlength]
  simp only [List.head?_cons, Option.bind_some, Option.map_some, Option.getD_some, hmbyte, hnbyte,
    Bool.and_eq_true, decide_eq_true_eq, beq_iff_eq, and_assoc]

theorem smallIntByte_pos (h : 1 ≤ n) : [smallIntByte n] = pushSmallInt n := by
  rw [smallIntByte, if_neg (by omega), pushSmallInt]

theorem of_match_multisig (h : matchTemplate script templateMultisig fuel 0 0 [] = some out)
    (hcounts : multisigCounts out = true) : Standard TX_MULTISIG out script := by
  obtain ⟨m, hm, rest₁, hrest₁, h₁⟩ := (Matched.start h).smallInt rfl
  obtain ⟨keys, ps, hkeys, n, hn, rest₂, hrest₂, h₂⟩ := h₁.pubKeys rfl rfl
  obtain ⟨rest₃, hrest₃, h₃⟩ := h₂.opcode rfl (by decide) (by decide)
  obtain ⟨rfl, rfl⟩ := h₃.ends le_rfl
  obtain ⟨hmlow, hnlow, hmn, rfl⟩ := (multisigCounts_iff hm hn).mp hcounts
  rw [hrest₁, hrest₂, hrest₃]
  have hform := Standard.multisig hmlow hmn hn hkeys
  rw [← smallIntByte_pos hmlow, ← smallIntByte_pos hnlow] at hform
  exact hform

theorem of_match_nullData (h : matchTemplate script templateNullData fuel 0 0 [] = some out) :
    out = [] ∧ ∃ opcode d p, d.length ≤ MAX_OP_RETURN_RELAY ∧ Instruction opcode d p ∧
      script = OP_RETURN.toUInt8 :: p := by
  obtain ⟨rest₁, hrest₁, h₁⟩ := (Matched.start h).opcode rfl (by decide) (by decide)
  obtain ⟨opcode, d, p, rest₂, hsize, hi, hrest₂, h₂⟩ := h₁.smallData rfl
  obtain ⟨rfl, rfl⟩ := h₂.ends le_rfl
  rw [List.append_nil] at hrest₂
  rw [hrest₂] at hrest₁
  exact ⟨rfl, opcode, d, p, hsize, hi, hrest₁⟩

theorem of_match_return (h : matchTemplate script templateReturn fuel 0 0 [] = some out) :
    Standard TX_NULL_DATA out script := by
  obtain ⟨rest₁, hrest₁, h₁⟩ := (Matched.start h).opcode rfl (by decide) (by decide)
  obtain ⟨rfl, rfl⟩ := h₁.ends le_rfl
  rw [hrest₁]
  exact .nullData

end Templates

/-! ## Standard scripts match -/

theorem PushForm.length_le {opcode : ℕ} {bytes : CScript} (h : PushForm vch opcode bytes) :
    bytes.length ≤ vch.length + 5 := by
  cases h <;> simp only [List.length_cons, List.length_append, length_toBytes] <;> omega

theorem KeyPushes.length_le {keys : List valtype} (h : KeyPushes keys ps) :
    ps.length ≤ 125 * keys.length := by
  induction h with
  | nil => simp
  | cons hsize hpush _ ih =>
    obtain ⟨_, hform⟩ := hpush
    have hp := hform.length_le
    rw [List.length_append, List.length_cons]
    omega

theorem KeyPushes.count_le {keys : List valtype} (h : KeyPushes keys ps) :
    keys.length ≤ ps.length := by
  induction h with
  | nil => exact le_rfl
  | cons _ hpush _ ih =>
    obtain ⟨_, hform⟩ := hpush
    have hp := (Instruction.push hform).length_pos
    rw [List.length_append, List.length_cons]
    omega

theorem Instruction.length_le {opcode : ℕ} {bytes : CScript} (h : Instruction opcode vch bytes) :
    bytes.length ≤ vch.length + 5 := by
  cases h with
  | push hform => exact hform.length_le
  | op => simp

section Complete

variable {script script2 rest bytes : CScript} {pc2 op opcode : ℕ} {vch : valtype}
  {vSolutions vSolutions' out : List valtype}

/-- From this element on, the template matches `rest`. -/
def Complete (script script2 : CScript) (pc2 : ℕ) (vSolutions out : List valtype)
    (rest : CScript) : Prop :=
  ∀ fuel pc, StandsAt script pc rest → rest.length < fuel →
    matchTemplate script script2 fuel pc pc2 vSolutions = some out

theorem Complete.done (hpc2 : pc2 = script2.length) : Complete script script2 pc2 out out [] := by
  intro fuel pc hstands hfuel
  have hlen := hstands.length_eq
  rw [List.length_nil, Nat.add_zero] at hlen
  exact matchTemplate_done hfuel hlen hpc2

theorem Complete.step (hlen : script.length < 2 ^ 32) (hi : Instruction opcode vch bytes)
    (hread : script2.GetOp2 pc2 = ⟨true, op, [], pc2 + 1⟩) (hop : op ≠ OP_PUBKEYS)
    (hmatch : ∀ q, matchInstruction ⟨true, opcode, vch, q⟩ ⟨true, op, [], pc2 + 1⟩ vSolutions =
      some vSolutions')
    (h : Complete script script2 (pc2 + 1) vSolutions' out rest) :
    Complete script script2 pc2 vSolutions out (bytes ++ rest) := by
  intro fuel pc hstands hfuel
  have hpos := hi.length_pos
  rw [List.length_append] at hfuel
  obtain ⟨n, rfl⟩ : ∃ n, fuel = n + 1 := ⟨fuel - 1, by omega⟩
  rw [matchTemplate_step hread hop (hstands.write hlen hi) rfl (hmatch _)]
  exact h n _ hstands.move (by omega)

theorem Complete.opByte (hlen : script.length < 2 ^ 32)
    (hread : script2.GetOp2 pc2 = ⟨true, op, [], pc2 + 1⟩) (hlow : OP_PUSHDATA4 < op)
    (hhigh : op < OP_SMALLDATA) (h : Complete script script2 (pc2 + 1) vSolutions out rest) :
    Complete script script2 pc2 vSolutions out (op.toUInt8 :: rest) := by
  simp only [OP_SMALLDATA] at hhigh
  have hkeys : op ≠ OP_PUBKEYS := by
    simp only [OP_PUBKEYS]
    omega
  exact Complete.step hlen (.op hlow (by omega)) hread hkeys
    (fun _ => (match_op hhigh).mpr ⟨⟨rfl, rfl⟩, rfl⟩) h

theorem Complete.smallInt (hlen : script.length < 2 ^ 32)
    (hread : script2.GetOp2 pc2 = ⟨true, OP_SMALLINTEGER, [], pc2 + 1⟩) (hn : n ≤ 16)
    (h : Complete script script2 (pc2 + 1) (vSolutions ++ [[n.toUInt8]]) out rest) :
    Complete script script2 pc2 vSolutions out (smallIntByte n :: rest) :=
  Complete.step hlen (instruction_smallInt hn) hread (by decide)
    (fun _ => match_SMALLINTEGER.mpr ⟨n, hn, rfl, rfl⟩) h

theorem Complete.pubKeys {keys : List valtype} (hlen : script.length < 2 ^ 32)
    (hread : script2.GetOp2 pc2 = ⟨true, OP_PUBKEYS, [], pc2 + 1⟩)
    (hread' : script2.GetOp2 (pc2 + 1) = ⟨true, OP_SMALLINTEGER, [], pc2 + 2⟩) (hn : n ≤ 16)
    (hkeys : KeyPushes keys ps) (hcount : keys.length ≤ script.length)
    (h : Complete script script2 (pc2 + 2) (vSolutions ++ (keys ++ [[n.toUInt8]])) out rest) :
    Complete script script2 pc2 vSolutions out (ps ++ smallIntByte n :: rest) := by
  intro fuel pc hstands hfuel
  simp only [List.length_append, List.length_cons] at hfuel
  obtain ⟨m, rfl⟩ : ∃ m, fuel = m + 1 := ⟨fuel - 1, by omega⟩
  have hmore : pc2 ≠ script2.length := by
    intro hend
    simp [CScript.GetOp2, hend, getOpFail] at hread
  have hi := instruction_smallInt hn
  have hstands' : StandsAt script pc (ps ++ ([smallIntByte n] ++ rest)) := hstands
  have hret : (script.GetOp2 pc).ret = true := by
    cases hkeys with
    | nil =>
      rw [List.nil_append] at hstands'
      rw [hstands'.write hlen hi]
    | cons _ hpush _ =>
      obtain ⟨_, hform⟩ := hpush
      rw [List.append_assoc] at hstands'
      rw [hstands'.write hlen (.push hform)]
  have htaken : takePubKeys script script.length (script.GetOp2 pc) vSolutions = _ :=
    takePubKeys_write hlen hkeys hstands' hi hcount
  have hmatch : matchInstruction
      ⟨true, if n = 0 then OP_0 else n + (OP_1 - 1), [], pc + ps.length + [smallIntByte n].length⟩
      ⟨true, OP_SMALLINTEGER, [], pc2 + 2⟩ (vSolutions ++ keys) =
        some (vSolutions ++ keys ++ [[n.toUInt8]]) :=
    match_SMALLINTEGER.mpr ⟨n, hn, rfl, rfl⟩
  simp only [matchTemplate, hmore, and_false, if_false, hread, hread', hret, Bool.not_true,
    Bool.or_false, Bool.false_eq_true, if_true, htaken, hmatch]
  rw [List.append_assoc]
  exact h m _ hstands'.move.move (by omega)

theorem Complete.matches (h : Complete script script2 0 [] out script) :
    matchTemplate script script2 (script.length + 1) 0 0 [] = some out :=
  h _ _ (standsAt_start script) (Nat.lt_succ_self _)

end Complete

/-! ## Solver -/

section Recognise

variable {script script2 : CScript} {out : List valtype}

/-- A template whose first element refuses the first instruction does not match. -/
theorem matchTemplate_refused {op : ℕ} {fuel : ℕ}
    (hread : script2.GetOp2 0 = ⟨true, op, [], 1⟩) (hop : op ≠ OP_PUBKEYS)
    (hmatch : matchInstruction (script.GetOp2 0) ⟨true, op, [], 1⟩ [] = none) :
    matchTemplate script script2 (fuel + 1) 0 0 [] = none := by
  cases h : matchTemplate script script2 (fuel + 1) 0 0 [] with
  | none => rfl
  | some out =>
    have hne : script2 ≠ [] := by
      intro hnil
      simp [hnil, CScript.GetOp2, getOpFail] at hread
    have hfirst := (matchTemplate_first h hne (by rw [hread]; exact hop)).2
    rw [hread, hmatch] at hfirst
    simp at hfirst

/-- A script without an operand in its first instruction does not start with a key. -/
theorem refused_pubKey (h : (script.GetOp2 0).vchRet = []) :
    matchTemplate script templatePubKey (fuel + 1) 0 0 [] = none := by
  apply @matchTemplate_refused script _ OP_PUBKEY fuel rfl (by decide)
  rw [Option.eq_none_iff_forall_not_mem]
  intro s hs
  have hsize := (match_PUBKEY.mp hs).1.1
  rw [h] at hsize
  exact absurd hsize (by decide)

theorem refused_pubKeyHash (h : (script.GetOp2 0).opcodeRet ≠ OP_DUP) :
    matchTemplate script templatePubKeyHash (fuel + 1) 0 0 [] = none := by
  apply @matchTemplate_refused script _ OP_DUP fuel rfl (by decide)
  rw [Option.eq_none_iff_forall_not_mem]
  intro s hs
  exact h ((match_op (by decide)).mp hs).1.1

theorem refused_multisig (h : OP_16 < (script.GetOp2 0).opcodeRet) :
    matchTemplate script templateMultisig (fuel + 1) 0 0 [] = none := by
  apply @matchTemplate_refused script _ OP_SMALLINTEGER fuel rfl (by decide)
  rw [Option.eq_none_iff_forall_not_mem]
  intro s hs
  obtain ⟨n, hn, hop, _⟩ := match_SMALLINTEGER.mp hs
  rw [hop] at h
  split at h
  · exact absurd h (by decide)
  · simp only [OP_16, OP_1] at h
    omega

/-- A pay-to-script-hash script starts with the opcode of the hash. -/
theorem IsPayToScriptHash_first (h : script.IsPayToScriptHash = true) :
    (script.GetOp2 0).opcodeRet = OP_HASH160 ∧ (script.GetOp2 0).vchRet = [] := by
  obtain ⟨hash, _, rfl⟩ := IsPayToScriptHash_form h
  exact ⟨rfl, rfl⟩

theorem not_scriptHash (h : (script.GetOp2 0).opcodeRet ≠ OP_HASH160) :
    script.IsPayToScriptHash = false := by
  by_contra hscript
  exact h (IsPayToScriptHash_first (by simpa using hscript)).1

theorem IsPayToScriptHash_hash (hsize : h.length = 20) :
    CScript.IsPayToScriptHash (OP_HASH160.toUInt8 :: 20 :: (h ++ [OP_EQUAL.toUInt8])) = true := by
  have hlast : (h ++ [OP_EQUAL.toUInt8])[20]? = some OP_EQUAL.toUInt8 := by
    rw [List.getElem?_append_right (by omega), hsize]
    rfl
  simp only [CScript.IsPayToScriptHash, List.length_cons, List.length_append, hsize,
    List.getElem?_cons_zero, List.getElem?_cons_succ, hlast]
  rfl

theorem solver_scriptHash (hsize : h.length = 20) :
    Solver (OP_HASH160.toUInt8 :: 20 :: (h ++ [OP_EQUAL.toUInt8])) = (true, TX_SCRIPTHASH, [h]) := by
  have htake : (h ++ [OP_EQUAL.toUInt8]).take 20 = h := by
    rw [List.take_append_of_le_length hsize.ge, List.take_of_length_le hsize.le]
  rw [Solver, if_pos (IsPayToScriptHash_hash hsize)]
  simp only [List.drop_succ_cons, List.drop_zero, htake]

theorem first_instruction {bytes : CScript} {opcode : ℕ} (hlen : script.length < 2 ^ 32)
    (hi : Instruction opcode vch bytes) (hscript : bytes ++ rest = script) :
    (script.GetOp2 0).opcodeRet = opcode ∧ (script.GetOp2 0).vchRet = vch := by
  have hread := GetOp2_of_instruction hlen hi (show script.drop 0 = bytes ++ rest from hscript.symm)
  rw [hread]
  exact ⟨rfl, rfl⟩

theorem solver_pubKey {k : valtype} (hsize : 33 ≤ k.length ∧ k.length ≤ 120) (hpush : Pushes k p) :
    Solver (p ++ [OP_CHECKSIG.toUInt8]) = (true, TX_PUBKEY, [k]) := by
  obtain ⟨opcode, hform⟩ := hpush
  have hp := hform.length_le
  have hlen : (p ++ [OP_CHECKSIG.toUInt8]).length < 2 ^ 32 := by
    rw [List.length_append, List.length_singleton]
    omega
  have hop := hform.opcode_le
  have hhash : opcode ≠ OP_HASH160 := by
    simp only [OP_PUSHDATA4, OP_HASH160] at hop ⊢
    omega
  have hmatch : matchTemplate (p ++ [OP_CHECKSIG.toUInt8]) templatePubKey
      ((p ++ [OP_CHECKSIG.toUInt8]).length + 1) 0 0 [] = some [k] :=
    Complete.matches (.step hlen (.push hform) rfl (by decide)
      (fun _ => match_PUBKEY.mpr ⟨hsize, rfl⟩)
      (.opByte hlen rfl (by decide) (by decide) (.done rfl)))
  rw [Solver, not_scriptHash (by rw [(first_instruction hlen (.push hform) rfl).1]; exact hhash),
    mTemplates_eq, if_neg Bool.false_ne_true, solveTemplates, hmatch]
  rfl

theorem solver_pubKeyHash {k : valtype} (hsize : k.length = 20) (hpush : Pushes k p) :
    Solver (OP_DUP.toUInt8 :: OP_HASH160.toUInt8 ::
      (p ++ [OP_EQUALVERIFY.toUInt8, OP_CHECKSIG.toUInt8])) = (true, TX_PUBKEYHASH, [k]) := by
  obtain ⟨opcode, hform⟩ := hpush
  have hp := hform.length_le
  generalize hscript : OP_DUP.toUInt8 :: OP_HASH160.toUInt8 ::
    (p ++ [OP_EQUALVERIFY.toUInt8, OP_CHECKSIG.toUInt8]) = script
  have hlen : script.length < 2 ^ 32 := by
    rw [← hscript]
    simp only [List.length_cons, List.length_append, List.length_nil]
    omega
  have hdup : Instruction OP_DUP [] [OP_DUP.toUInt8] := .op (by decide) (by decide)
  obtain ⟨hop, hvch⟩ := first_instruction hlen hdup hscript
  have hcomplete : Complete script templatePubKeyHash 0 [] [k] (OP_DUP.toUInt8 ::
      OP_HASH160.toUInt8 :: (p ++ [OP_EQUALVERIFY.toUInt8, OP_CHECKSIG.toUInt8])) :=
    .opByte hlen rfl (by decide) (by decide) (.opByte hlen rfl (by decide) (by decide)
      (.step hlen (.push hform) rfl (by decide) (fun _ => match_PUBKEYHASH.mpr ⟨hsize, rfl⟩)
        (.opByte hlen rfl (by decide) (by decide)
          (.opByte hlen rfl (by decide) (by decide) (.done rfl)))))
  rw [hscript] at hcomplete
  rw [Solver, not_scriptHash (by rw [hop]; decide), mTemplates_eq, if_neg Bool.false_ne_true,
    solveTemplates, refused_pubKey hvch]
  dsimp only
  rw [solveTemplates, hcomplete.matches]
  rfl

theorem solver_multisig {m : ℕ} {keys : List valtype} (hm : 1 ≤ m) (hmn : m ≤ keys.length)
    (hn : keys.length ≤ 16) (hkeys : KeyPushes keys ps) :
    Solver (pushSmallInt m ++ (ps ++ (pushSmallInt keys.length ++ [OP_CHECKMULTISIG.toUInt8]))) =
      (true, TX_MULTISIG, [m.toUInt8] :: (keys ++ [[keys.length.toUInt8]])) := by
  have hps := hkeys.length_le
  rw [← smallIntByte_pos hm, ← smallIntByte_pos (hm.trans hmn)]
  generalize hscript : [smallIntByte m] ++
    (ps ++ ([smallIntByte keys.length] ++ [OP_CHECKMULTISIG.toUInt8])) = script
  have hcount : keys.length ≤ script.length := by
    have hle := hkeys.count_le
    rw [← hscript]
    simp only [List.length_append, List.length_cons, List.length_nil]
    omega
  have hlen : script.length < 2 ^ 32 := by
    rw [← hscript]
    simp only [List.length_append, List.length_cons, List.length_nil]
    omega
  obtain ⟨hop, hvch⟩ := first_instruction hlen (instruction_smallInt (hmn.trans hn)) hscript
  rw [if_neg (by omega)] at hop
  have hcomplete : Complete script templateMultisig 0 []
      ([m.toUInt8] :: (keys ++ [[keys.length.toUInt8]]))
      (smallIntByte m :: (ps ++ smallIntByte keys.length :: [OP_CHECKMULTISIG.toUInt8])) :=
    .smallInt hlen rfl (hmn.trans hn) (.pubKeys hlen rfl rfl hn hkeys hcount
      (.opByte hlen rfl (by decide) (by decide) (.done rfl)))
  have hscript' : smallIntByte m :: (ps ++ smallIntByte keys.length ::
      [OP_CHECKMULTISIG.toUInt8]) = script := hscript
  rw [hscript'] at hcomplete
  have hcounts : multisigCounts ([m.toUInt8] :: (keys ++ [[keys.length.toUInt8]])) = true :=
    (multisigCounts_iff (hmn.trans hn) hn).mpr ⟨hm, hm.trans hmn, hmn, rfl⟩
  have hdup : (CScript.GetOp2 script 0).opcodeRet ≠ OP_DUP := by
    rw [hop]
    simp only [OP_1, OP_DUP]
    omega
  have hhash : (CScript.GetOp2 script 0).opcodeRet ≠ OP_HASH160 := by
    rw [hop]
    simp only [OP_1, OP_HASH160]
    omega
  rw [Solver, not_scriptHash hhash, mTemplates_eq, if_neg Bool.false_ne_true, solveTemplates,
    refused_pubKey hvch]
  dsimp only
  rw [solveTemplates, refused_pubKeyHash hdup]
  dsimp only
  rw [solveTemplates, hcomplete.matches]
  dsimp only
  rw [hcounts]
  rfl

/-- Any one instruction with a short operand behind `OP_RETURN` is taken for data. -/
theorem solver_nullData {opcode : ℕ} {d : valtype} (hsize : d.length ≤ MAX_OP_RETURN_RELAY)
    (hi : Instruction opcode d p) : Solver (OP_RETURN.toUInt8 :: p) = (true, TX_NULL_DATA, []) := by
  have hp := hi.length_le
  simp only [MAX_OP_RETURN_RELAY] at hsize
  generalize hscript : OP_RETURN.toUInt8 :: p = script
  have hlen : script.length < 2 ^ 32 := by
    rw [← hscript]
    simp only [List.length_cons]
    omega
  have hreturn : Instruction OP_RETURN [] [OP_RETURN.toUInt8] := .op (by decide) (by decide)
  obtain ⟨hop, hvch⟩ := first_instruction hlen hreturn hscript
  have hcomplete : Complete script templateNullData 0 [] [] (OP_RETURN.toUInt8 :: (p ++ [])) :=
    .opByte hlen rfl (by decide) (by decide) (.step hlen hi rfl (by decide)
      (fun _ => match_SMALLDATA.mpr ⟨hsize, rfl⟩) (.done rfl))
  rw [List.append_nil, hscript] at hcomplete
  rw [Solver, not_scriptHash (by rw [hop]; decide), mTemplates_eq, if_neg Bool.false_ne_true,
    solveTemplates, refused_pubKey hvch]
  dsimp only
  rw [solveTemplates, refused_pubKeyHash (by rw [hop]; decide)]
  dsimp only
  rw [solveTemplates, refused_multisig (by rw [hop]; decide)]
  dsimp only
  rw [solveTemplates, hcomplete.matches]
  rfl

/-- Every standard script is recognised. -/
theorem solver_of_standard (h : Standard type out script) : Solver script = (true, type, out) := by
  cases h with
  | pubKey hsize hpush => exact solver_pubKey hsize hpush
  | pubKeyHash hsize hpush => exact solver_pubKeyHash hsize hpush
  | scriptHash hsize => exact solver_scriptHash hsize
  | multisig hm hmn hn hkeys => exact solver_multisig hm hmn hn hkeys
  | nullData => decide
  | nullDataPush hsize hpush =>
    obtain ⟨opcode, hform⟩ := hpush
    exact solver_nullData hsize (.push hform)

/-- A script of `OP_RETURN` and one opcode that is no push. -/
def ReturnsOpcode (script : CScript) : Prop :=
  ∃ b : UInt8, OP_PUSHDATA4 < b.toNat ∧ script = [OP_RETURN.toUInt8, b]

theorem pushVch_hash (hsize : h.length = 20) : pushVch h = 20 :: h := by
  rw [pushVch, hsize, if_pos (by decide)]
  rfl

theorem solveTemplates_counts {templates : List (txnouttype × CScript)}
    (h : solveTemplates script templates = (true, type, out)) :
    type ≠ TX_MULTISIG ∨ multisigCounts out = true := by
  induction templates with
  | nil => simp [solveTemplates] at h
  | cons t templates ih =>
    obtain ⟨type', script2⟩ := t
    rw [solveTemplates] at h
    split at h
    · simp only [Prod.mk.injEq, Bool.or_eq_true, bne_iff_ne] at h
      obtain ⟨hcounts, rfl, rfl⟩ := h
      exact hcounts
    · exact ih h

/-- What is recognised is standard, but for scripts of `OP_RETURN` and an opcode. -/
theorem standard_of_solver (h : Solver script = (true, type, out)) :
    Standard type out script ∨ ReturnsOpcode script := by
  unfold Solver at h
  split at h
  · rename_i hscript
    obtain ⟨hash, hsize, rfl⟩ := IsPayToScriptHash_form hscript
    rw [pushVch_hash hsize] at h ⊢
    simp only [Prod.mk.injEq, true_and, List.drop_succ_cons, List.cons_append, List.drop_zero,
      List.take_append_of_le_length hsize.ge, List.take_of_length_le hsize.le] at h
    obtain ⟨rfl, rfl⟩ := h
    exact .inl (.scriptHash hsize)
  · obtain ⟨script2, hmem, hmatch⟩ := solveTemplates_mem h
    have hcounts := solveTemplates_counts h
    simp only [mTemplates_eq, List.mem_cons, Prod.mk.injEq, List.not_mem_nil, or_false] at hmem
    rcases hmem with ⟨rfl, rfl⟩ | ⟨rfl, rfl⟩ | ⟨rfl, rfl⟩ | ⟨rfl, rfl⟩ | ⟨rfl, rfl⟩
    · exact .inl (of_match_pubKey hmatch)
    · exact .inl (of_match_pubKeyHash hmatch)
    · exact .inl (of_match_multisig hmatch (hcounts.resolve_left (not_not.mpr rfl)))
    · obtain ⟨rfl, opcode, d, p, hsize, hi, rfl⟩ := of_match_nullData hmatch
      cases hi with
      | push hform => exact .inl (.nullDataPush hsize ⟨opcode, hform⟩)
      | op hop hbyte => exact .inr ⟨opcode.toUInt8, by rwa [toNat_toUInt8 hbyte], rfl⟩
    · exact .inl (of_match_return hmatch)

theorem not_standard_of_returnsOpcode (hreturn : ReturnsOpcode script)
    (h : Solver script = (true, type, out)) : ¬Standard type out script := by
  obtain ⟨b, hb, rfl⟩ := hreturn
  have hi : Instruction b.toNat [] [b] := by
    have hop := Instruction.op hb b.toNat_lt
    rwa [toUInt8_toNat] at hop
  have hdata := solver_nullData (Nat.zero_le _) hi
  rw [hdata] at h
  simp only [Prod.mk.injEq, true_and] at h
  obtain ⟨rfl, rfl⟩ := h
  generalize hscript : [OP_RETURN.toUInt8, b] = script
  intro hstandard
  cases hstandard with
  | nullData => simp at hscript
  | nullDataPush hsize hpush =>
    simp only [List.cons.injEq, true_and] at hscript
    obtain ⟨opcode, hform⟩ := hpush
    rw [← hscript] at hform
    generalize hbytes : [b] = bytes at hform
    cases hform with
    | @direct hshort =>
      simp only [List.cons.injEq] at hbytes
      rw [hbytes.1, ← hbytes.2] at hb
      exact absurd hb (by decide)
    | pushData1 => simp [toBytes] at hbytes
    | pushData2 => simp [toBytes] at hbytes
    | pushData4 => simp [toBytes] at hbytes

theorem uint160OfVch_eq (hvch : vch.length = 20) : uint160OfVch vch = ofBytes vch := by
  have hfold : ∀ vch : valtype, vch.foldr (fun b n => b.toNat + 256 * n) 0 = ofBytes vch := by
    intro vch
    induction vch with
    | nil => rfl
    | cons b vch ih => rw [List.foldr_cons, ih, ofBytes]
  rw [uint160OfVch, if_pos hvch, hfold]

theorem uint160OfVch_toBytes {id : uint160} (h : id < 2 ^ 160) :
    uint160OfVch (toBytes 20 id) = id := by
  rw [uint160OfVch_eq (length_toBytes 20 id), ofBytes_toBytes 20 id (by omega)]

/-- The destination of a script that pays to a key or to a script is read back from it. -/
theorem ExtractDestination_SetDestination (crypto : ScriptCrypto) {id : uint160}
    (h : id < 2 ^ 160) :
    ExtractDestination crypto (CScript.SetDestination (.CKeyID id)) = some (.CKeyID id) ∧
      ExtractDestination crypto (CScript.SetDestination (.CScriptID id)) = some (.CScriptID id) := by
  have hsize := length_toBytes 20 id
  have hpush : Pushes (toBytes 20 id) (pushVch (toBytes 20 id)) := by
    rw [pushVch_hash hsize]
    refine ⟨20, ?_⟩
    have hform : PushForm (toBytes 20 id) (toBytes 20 id).length _ :=
      .direct (by rw [hsize]; decide)
    rwa [hsize] at hform
  have hscript := solver_scriptHash hsize
  rw [← List.cons_append, ← pushVch_hash hsize] at hscript
  constructor
  · rw [ExtractDestination, CScript.SetDestination, SetBitcoinAddress, solver_pubKeyHash hsize hpush]
    dsimp only
    rw [uint160OfVch_toBytes h]
  · rw [ExtractDestination, CScript.SetDestination, payToScriptHash, hscript]
    dsimp only
    rw [uint160OfVch_toBytes h]

/-- The standard scripts are recognised exactly, unless `OP_RETURN` is followed by an opcode that is no
push. The destination of a script that pays to a key or to a script is read back from it. -/
theorem solver_exact_iff (script : CScript) :
    ((∀ type out, Solver script = (true, type, out) ↔ Standard type out script) ↔
        ¬ReturnsOpcode script) ∧
      ∀ (crypto : ScriptCrypto) (id : uint160), id < 2 ^ 160 →
        ExtractDestination crypto (CScript.SetDestination (.CKeyID id)) = some (.CKeyID id) ∧
        ExtractDestination crypto (CScript.SetDestination (.CScriptID id)) =
          some (.CScriptID id) := by
  refine ⟨⟨?_, ?_⟩, ?_⟩
  · intro hexact hreturn
    have hsolved : Solver script = (true, TX_NULL_DATA, []) := by
      obtain ⟨b, hb, rfl⟩ := hreturn
      have hop := Instruction.op hb b.toNat_lt
      rw [toUInt8_toNat] at hop
      exact solver_nullData (Nat.zero_le _) hop
    exact not_standard_of_returnsOpcode hreturn hsolved ((hexact _ _).mp hsolved)
  · intro hreturn type out
    exact ⟨fun h => (standard_of_solver h).resolve_right hreturn, solver_of_standard⟩
  · exact fun crypto id h => ExtractDestination_SetDestination crypto h

end Recognise

/-- `OP_RETURN OP_DUP` pushes no data. -/
theorem return_dup_recognised :
    ¬((∀ type out, Solver [OP_RETURN.toUInt8, OP_DUP.toUInt8] = (true, type, out) ↔
      Standard type out [OP_RETURN.toUInt8, OP_DUP.toUInt8])) := by
  intro h
  have hsolved : Solver [OP_RETURN.toUInt8, OP_DUP.toUInt8] = (true, TX_NULL_DATA, []) := by
    decide
  exact not_standard_of_returnsOpcode ⟨_, by decide, rfl⟩ hsolved ((h _ _).mp hsolved)

open Scenario in
/-- `OP_RETURN` with data is recognised, and both destinations are read back. -/
theorem solver_exact_iff_data :
    (∀ type out, Solver [OP_RETURN.toUInt8, 2, 7, 8] = (true, type, out) ↔
      Standard type out [OP_RETURN.toUInt8, 2, 7, 8]) ∧
    ExtractDestination noCrypto (CScript.SetDestination (.CKeyID 7)) = some (.CKeyID 7) ∧
    ExtractDestination noCrypto (CScript.SetDestination (.CScriptID 8)) = some (.CScriptID 8) := by
  obtain ⟨hexact, hdestination⟩ := solver_exact_iff [OP_RETURN.toUInt8, 2, 7, 8]
  have hdata : ¬ReturnsOpcode [OP_RETURN.toUInt8, 2, 7, 8] := by
    rintro ⟨b, -, hscript⟩
    cases hscript
  exact ⟨hexact.mpr hdata, (hdestination noCrypto 7 (by decide)).1,
    (hdestination noCrypto 8 (by decide)).2⟩

end Dions
