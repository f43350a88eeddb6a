import Dions.Model.Solver

/-! # The alias prefix and its decoder

The decoder undoes the four push forms and finds the end of the drops by reading one instruction of
the destination script and stepping back one byte. That is the start of the destination script
unless its first instruction is longer than a byte, as it is where the script starts with a key. -/

namespace Dions

open LittleEndian txnouttype

variable {rest script : CScript} {pc : ℕ}
variable {nSize opcode : ℕ} {R script1 script2 : CScript} {s : List valtype} {type : txnouttype}

/-! ## Reading an instruction -/

def GetOpRet.shift (r : GetOpRet) (pc : ℕ) : GetOpRet := { r with pc := pc + r.pc }

/-- What is read depends only on the bytes from the iterator on. -/
theorem GetOp2_shift (script : CScript) (pc : ℕ) :
    script.GetOp2 pc = (CScript.GetOp2 (script.drop pc) 0).shift pc := by
  have hfail : ∀ a b : ℕ, getOpFail (a + b) = (getOpFail b).shift a := fun _ _ => rfl
  have hpush : ∀ (opcode nSize : ℕ) (rest : CScript) (a b : ℕ),
      getOpPush opcode nSize rest (a + b) = (getOpPush opcode nSize rest b).shift a := by
    intro opcode nSize rest a b
    unfold getOpPush
    split
    · rfl
    · simp only [GetOpRet.shift, Nat.add_assoc]
  unfold CScript.GetOp2
  rw [List.drop_zero]
  cases script.drop pc with
  | nil => rfl
  | cons b rest =>
    dsimp only
    split
    · split
      · exact hpush _ _ _ pc 1
      · split
        · cases rest with
          | nil => exact hfail pc 1
          | cons n rest => exact hpush _ _ _ pc 2
        · split
          · split
            · exact hpush _ _ _ pc 3
            · exact hfail pc 1
          · split
            · exact hpush _ _ _ pc 5
            · exact hfail pc 1
    · rfl

theorem GetOp2_op {b : UInt8} (hdrop : script.drop pc = b :: rest) (hop : OP_PUSHDATA4 < b.toNat) :
    script.GetOp2 pc = ⟨true, b.toNat, [], pc + 1⟩ := by
  simp only [CScript.GetOp2, hdrop, if_neg (Nat.not_le.mpr hop)]

theorem getOpPush_read (h : (getOpPush opcode nSize rest pc).ret = true) :
    (getOpPush opcode nSize rest pc).opcodeRet = opcode ∧
      (getOpPush opcode nSize rest pc).vchRet.length = nSize ∧
        (getOpPush opcode nSize rest pc).pc = pc + nSize := by
  unfold getOpPush at h ⊢
  split at h
  · simp [getOpFail] at h
  · rename_i henough
    have hle : nSize ≤ rest.length := (Nat.not_lt.mp henough).trans (Nat.mod_le _ _)
    rw [if_neg henough, List.length_take, Nat.min_eq_left hle]
    exact ⟨rfl, rfl, rfl⟩

/-- The instruction at the iterator: a push, whose operand ends it, or a single byte. -/
inductive ReadsAt (pc : ℕ) (r : GetOpRet) : Prop
  | push (hop : r.opcodeRet ≤ OP_PUSHDATA4) (hpc : pc + 1 + r.vchRet.length ≤ r.pc)
      (hdirect : r.opcodeRet < OP_PUSHDATA1 → r.pc = pc + 1 + r.opcodeRet)
  | op (hop : OP_PUSHDATA4 < r.opcodeRet) (hvch : r.vchRet = []) (hpc : r.pc = pc + 1)

theorem readsAt_push {k : ℕ} (hop : opcode ≤ OP_PUSHDATA4) (hk : 1 ≤ k)
    (hdirect : opcode < OP_PUSHDATA1 → k = 1 ∧ nSize = opcode)
    (h : (getOpPush opcode nSize rest (pc + k)).ret = true) :
    ReadsAt pc (getOpPush opcode nSize rest (pc + k)) := by
  obtain ⟨hopcode, hlen, hpc⟩ := getOpPush_read h
  apply ReadsAt.push
  · rw [hopcode]
    exact hop
  · rw [hlen, hpc]
    omega
  · intro hlt
    rw [hopcode] at hlt ⊢
    obtain ⟨rfl, rfl⟩ := hdirect hlt
    exact hpc

theorem GetOp2_readsAt (h : (script.GetOp2 pc).ret = true) : ReadsAt pc (script.GetOp2 pc) := by
  unfold CScript.GetOp2 at h ⊢
  cases hdrop : script.drop pc with
  | nil => simp [hdrop, getOpFail] at h
  | cons b rest =>
    rw [hdrop] at h
    dsimp only at h ⊢
    split at h
    · rename_i hle
      rw [if_pos hle]
      split at h
      · rename_i hdirect
        rw [if_pos hdirect]
        exact readsAt_push hle le_rfl (fun _ => ⟨rfl, rfl⟩) h
      · rename_i hdirect
        rw [if_neg hdirect]
        split at h
        · rename_i hone
          rw [if_pos hone]
          cases rest with
          | nil => simp [getOpFail] at h
          | cons n rest => exact readsAt_push hle (by omega) (fun hlt => absurd hlt hdirect) h
        · rename_i hone
          rw [if_neg hone]
          split at h
          · rename_i htwo
            rw [if_pos htwo]
            split at h
            · exact readsAt_push hle (by omega) (fun hlt => absurd hlt hdirect) h
            · simp [getOpFail] at h
          · rename_i htwo
            rw [if_neg htwo]
            split at h
            · exact readsAt_push hle (by omega) (fun hlt => absurd hlt hdirect) h
            · simp [getOpFail] at h
    · rename_i hop
      rw [if_neg hop]
      exact .op (Nat.not_le.mp hop) rfl rfl

/-- The bytes from the start of the argument on, as they are counted, are enough for it. -/
def Counted (size rest : ℕ) : Prop := size ≤ (size + rest) % 2 ^ 32

theorem getOpPush_data (opcode : ℕ) (a rest : CScript) (pc : ℕ) :
    (Counted a.length rest.length →
      getOpPush opcode a.length (a ++ rest) pc = ⟨true, opcode, a, pc + a.length⟩) ∧
    (¬Counted a.length rest.length → (getOpPush opcode a.length (a ++ rest) pc).ret = false) := by
  unfold Counted getOpPush
  rw [List.length_append, List.take_left]
  constructor
  · intro h
    rw [if_neg (Nat.not_lt.mpr h)]
  · intro h
    rw [if_pos (Nat.not_le.mp h)]
    rfl

theorem toNat_toUInt8 {n : ℕ} (h : n < 256) : n.toUInt8.toNat = n := by
  simp [Nat.toUInt8, Nat.mod_eq_of_lt h]

/-- A pushed argument is read in one of the four forms. -/
theorem GetOp2_pushVch_eq {a : CScript} (hsize : a.length < 2 ^ 32)
    (hdrop : script.drop pc = pushVch a ++ rest) :
    ∃ opcode k, opcode ≤ OP_PUSHDATA4 ∧ k + a.length = (pushVch a).length ∧
      script.GetOp2 pc = getOpPush opcode a.length (a ++ rest) (pc + k) := by
  unfold pushVch at hdrop ⊢
  split at hdrop
  · rename_i hdirect
    have hbyte : a.length.toUInt8.toNat = a.length :=
      toNat_toUInt8 (lt_trans hdirect (by decide))
    refine ⟨a.length, 1, hdirect.le.trans (by decide), ?_, ?_⟩
    · rw [if_pos hdirect, List.length_cons, Nat.add_comm]
    · have hle : a.length ≤ OP_PUSHDATA4 := hdirect.le.trans (by decide)
      simp only [CScript.GetOp2, hdrop, List.cons_append, hbyte, if_pos hle, if_pos hdirect]
  · rename_i hdirect
    rw [if_neg hdirect]
    split at hdrop
    · rename_i hone
      have hbyte : a.length.toUInt8.toNat = a.length := toNat_toUInt8 (by omega)
      refine ⟨OP_PUSHDATA1, 2, by decide, ?_, ?_⟩
      · rw [if_pos hone, List.length_cons, List.length_cons, Nat.add_comm]
      · have hop : OP_PUSHDATA1.toUInt8.toNat = OP_PUSHDATA1 := rfl
        simp only [CScript.GetOp2, hdrop, List.cons_append, hop, hbyte]
        rfl
    · rename_i hone
      rw [if_neg hone]
      split at hdrop
      · rename_i htwo
        refine ⟨OP_PUSHDATA2, 3, by decide, ?_, ?_⟩
        · rw [if_pos htwo, List.length_cons, List.length_append, length_toBytes]
          omega
        · have hop : OP_PUSHDATA2.toUInt8.toNat = OP_PUSHDATA2 := rfl
          have hlen : ofBytes (toBytes 2 a.length) = a.length :=
            ofBytes_toBytes 2 a.length (by omega)
          have hlen' : (UInt8.ofNat (a.length % 256)).toNat +
              256 * (UInt8.ofNat (a.length / 256 % 256)).toNat = a.length := by
            simp only [toBytes, ofBytes] at hlen
            omega
          simp only [CScript.GetOp2, hdrop, List.cons_append, hop, toBytes, List.nil_append, hlen']
          rfl
      · rename_i htwo
        refine ⟨OP_PUSHDATA4, 5, by decide, ?_, ?_⟩
        · rw [if_neg htwo, List.length_cons, List.length_append, length_toBytes]
          omega
        · have hop : OP_PUSHDATA4.toUInt8.toNat = OP_PUSHDATA4 := rfl
          have hlen : ofBytes (toBytes 4 a.length) = a.length :=
            ofBytes_toBytes 4 a.length (by omega)
          have hlen' : (UInt8.ofNat (a.length % 256)).toNat +
              256 * (UInt8.ofNat (a.length / 256 % 256)).toNat +
              65536 * (UInt8.ofNat (a.length / 256 / 256 % 256)).toNat +
              16777216 * (UInt8.ofNat (a.length / 256 / 256 / 256 % 256)).toNat = a.length := by
            simp only [toBytes, ofBytes] at hlen
            omega
          simp only [CScript.GetOp2, hdrop, List.cons_append, hop, toBytes, List.nil_append, hlen']
          rfl

theorem GetOp2_pushVch {a : CScript} (hsize : a.length < 2 ^ 32)
    (hdrop : script.drop pc = pushVch a ++ rest) :
    (Counted a.length rest.length → ∃ opcode ≤ OP_PUSHDATA4,
      script.GetOp2 pc = ⟨true, opcode, a, pc + (pushVch a).length⟩) ∧
    (¬Counted a.length rest.length → (script.GetOp2 pc).ret = false) := by
  obtain ⟨opcode, k, hop, hlen, hread⟩ := GetOp2_pushVch_eq hsize hdrop
  have hdata := getOpPush_data opcode a rest (pc + k)
  rw [hread, ← hlen, ← Nat.add_assoc]
  exact ⟨fun h => ⟨opcode, hop, hdata.1 h⟩, hdata.2⟩

/-! ## The first instruction of a standard script -/

/-- A template that matches agrees with the first instruction. -/
theorem matchTemplate_first {fuel : ℕ}
    (h : matchTemplate script1 script2 (fuel + 1) 0 0 [] = some s) (hne : script2 ≠ [])
    (hkeys : (script2.GetOp2 0).opcodeRet ≠ OP_PUBKEYS) :
    (script1.GetOp2 0).ret = true ∧
      (matchInstruction (script1.GetOp2 0) (script2.GetOp2 0) []).isSome = true := by
  have hlen : ¬(0 = script1.length ∧ 0 = script2.length) :=
    fun hzero => hne (List.length_eq_zero_iff.mp hzero.2.symm)
  simp only [matchTemplate, if_neg hlen, if_neg hkeys] at h
  split at h
  · simp at h
  · rename_i hret
    split at h
    · simp at h
    · rename_i hmatch
      simp only [Bool.or_eq_true, Bool.not_eq_true', not_or, Bool.not_eq_false] at hret
      exact ⟨hret.1, by rw [hmatch]; rfl⟩

theorem solveTemplates_mem {templates : List (txnouttype × CScript)}
    (h : solveTemplates script1 templates = (true, type, s)) :
    ∃ script2, (type, script2) ∈ templates ∧
      matchTemplate script1 script2 (script1.length + 1) 0 0 [] = some s := by
  induction templates with
  | nil => simp [solveTemplates] at h
  | cons t templates ih =>
    obtain ⟨type', script2⟩ := t
    rw [solveTemplates] at h
    split at h
    · rename_i hmatch
      simp only [Prod.mk.injEq] at h
      obtain ⟨-, rfl, rfl⟩ := h
      exact ⟨script2, List.mem_cons_self, hmatch⟩
    · obtain ⟨script2', hmem, hmatch⟩ := ih h
      exact ⟨script2', List.mem_cons_of_mem _ hmem, hmatch⟩

/-- The first instruction is one byte long and no drop. -/
def OneByteFirst (R : CScript) : Prop :=
  (R.GetOp2 0).ret = true ∧ (R.GetOp2 0).pc = 1 ∧ isDrop (R.GetOp2 0).opcodeRet = false

def KeyFirst (R : CScript) : Prop :=
  (R.GetOp2 0).ret = true ∧ isPubKeySize (R.GetOp2 0).vchRet = true

theorem oneByteFirst_of_op (h : (R.GetOp2 0).ret = true)
    (hop : (R.GetOp2 0).opcodeRet = OP_0 ∨ OP_PUSHDATA4 < (R.GetOp2 0).opcodeRet)
    (hdrop : isDrop (R.GetOp2 0).opcodeRet = false) : OneByteFirst R := by
  refine ⟨h, ?_, hdrop⟩
  cases GetOp2_readsAt h with
  | push hle _ hdirect =>
    have hzero := hop.resolve_right (Nat.not_lt.mpr hle)
    rw [hdirect (by rw [hzero]; decide), hzero]
    rfl
  | op _ _ hpc => exact hpc

/-- What the first instruction of a template asks of the script. -/
theorem template_first (hmem : (type, script2) ∈ mTemplates) {s : List valtype}
    (h : matchTemplate R script2 (R.length + 1) 0 0 [] = some s) :
    (type = TX_PUBKEY → KeyFirst R) ∧
      (type = TX_PUBKEYHASH ∨ type = TX_SCRIPTHASH ∨ type = TX_MULTISIG → OneByteFirst R) := by
  simp only [mTemplates, List.map_cons, List.map_nil, List.mem_cons, Prod.mk.injEq,
    List.not_mem_nil, or_false] at hmem
  rcases hmem with ⟨rfl, rfl⟩ | ⟨rfl, rfl⟩ | ⟨rfl, rfl⟩ | ⟨rfl, rfl⟩ | ⟨rfl, rfl⟩
  · obtain ⟨hret, hmatch⟩ := matchTemplate_first h (by decide) (by decide)
    have hkey : isPubKeySize (R.GetOp2 0).vchRet = true := by
      by_contra hnot
      have hop : (CScript.GetOp2 [OP_PUBKEY.toUInt8, OP_CHECKSIG.toUInt8] 0).opcodeRet =
          OP_PUBKEY := by decide
      simp [matchInstruction, hop, hnot] at hmatch
    exact ⟨fun _ => ⟨hret, hkey⟩, by simp⟩
  · obtain ⟨hret, hmatch⟩ := matchTemplate_first h (by decide) (by decide)
    have hread : CScript.GetOp2 [OP_DUP.toUInt8, OP_HASH160.toUInt8, OP_PUBKEYHASH.toUInt8,
        OP_EQUALVERIFY.toUInt8, OP_CHECKSIG.toUInt8] 0 = ⟨true, OP_DUP, [], 1⟩ := by decide
    rw [hread] at hmatch
    have hdup : (R.GetOp2 0).opcodeRet = OP_DUP := by
      by_contra hnot
      have hnot' : (R.GetOp2 0).opcodeRet ≠ 0x76 := hnot
      simp [matchInstruction, hnot', OP_DUP, OP_PUBKEY, OP_PUBKEYHASH, OP_SMALLINTEGER,
        OP_SMALLDATA] at hmatch
    refine ⟨by simp, fun _ => oneByteFirst_of_op hret (.inr ?_) ?_⟩
    · rw [hdup]
      decide
    · rw [hdup]
      decide
  · obtain ⟨hret, hmatch⟩ := matchTemplate_first h (by decide) (by decide)
    have hread : CScript.GetOp2 [OP_SMALLINTEGER.toUInt8, OP_PUBKEYS.toUInt8,
        OP_SMALLINTEGER.toUInt8, OP_CHECKMULTISIG.toUInt8] 0 =
          ⟨true, OP_SMALLINTEGER, [], 1⟩ := by decide
    rw [hread] at hmatch
    have hsmall : (R.GetOp2 0).opcodeRet = OP_0 ∨
        OP_1 ≤ (R.GetOp2 0).opcodeRet ∧ (R.GetOp2 0).opcodeRet ≤ OP_16 := by
      by_contra hnot
      rw [not_or] at hnot
      simp [matchInstruction, hnot.1, hnot.2, OP_PUBKEY, OP_PUBKEYHASH, OP_SMALLINTEGER] at hmatch
    refine ⟨by simp, fun _ => oneByteFirst_of_op hret ?_ ?_⟩
    · exact hsmall.imp_right fun h1 => lt_of_lt_of_le (by decide) h1.1
    · cases hsmall with
      | inl hzero =>
        rw [hzero]
        decide
      | inr hrange =>
        generalize (R.GetOp2 0).opcodeRet = opcode at hrange
        simp only [OP_1, OP_16] at hrange
        simp only [isDrop, OP_DROP, OP_2DROP, OP_NOP, Bool.or_eq_false_iff, beq_eq_false_iff_ne]
        omega
  · simp
  · simp

/-- The first instruction of a script that `Solver` recognises. -/
theorem solver_first (h : Solver R = (true, type, s)) :
    (type = TX_PUBKEY → KeyFirst R) ∧
      (type = TX_PUBKEYHASH ∨ type = TX_SCRIPTHASH ∨ type = TX_MULTISIG → OneByteFirst R) := by
  unfold Solver at h
  split at h
  · -- the shortcut: the script starts with `OP_HASH160`
    rename_i hp2sh
    simp only [Prod.mk.injEq, true_and] at h
    obtain ⟨rfl, -⟩ := h
    refine ⟨by simp, fun _ => ?_⟩
    cases R with
    | nil => simp [CScript.IsPayToScriptHash] at hp2sh
    | cons b rest =>
      have hb : b.toNat = OP_HASH160 := by
        simp only [CScript.IsPayToScriptHash, Bool.and_eq_true, beq_iff_eq] at hp2sh
        simpa using hp2sh.1.1.2
      have hread : CScript.GetOp2 (b :: rest) 0 = _ := GetOp2_op rfl (by rw [hb]; decide)
      refine ⟨by rw [hread], by rw [hread], ?_⟩
      rw [hread, hb]
      decide
  · obtain ⟨script2, hmem, hmatch⟩ := solveTemplates_mem h
    exact template_first hmem hmatch

/-! ## Arguments and drops -/

/-- Every argument is counted right by the decoder; `tail` bytes follow the last one. -/
def AllCounted : List valtype → (tail : ℕ) → Prop
  | [], _ => True
  | a :: args, tail => Counted a.length ((args.flatMap pushVch).length + tail) ∧
      AllCounted args tail

theorem length_lt_pushVch (a : valtype) : a.length < (pushVch a).length := by
  unfold pushVch
  split
  · rw [List.length_cons]
    omega
  · split
    · rw [List.length_cons, List.length_cons]
      omega
    · split
      · rw [List.length_cons, List.length_append, length_toBytes]
        omega
      · rw [List.length_cons, List.length_append, length_toBytes]
        omega

/-- The arguments are read back, or one of them is not counted right. -/
theorem aliasArgs_pushed {d : UInt8} (hd : isDrop d.toNat = true) (args : List valtype)
    (hsize : ∀ a ∈ args, a.length < 2 ^ 32) (fuel pc : ℕ) (vvch : List vchType)
    (hfuel : args.length < fuel) (hdrop : script.drop pc = args.flatMap pushVch ++ d :: rest) :
    (AllCounted args (rest.length + 1) → aliasArgs script fuel pc vvch =
      some (vvch ++ args, pc + (args.flatMap pushVch).length + 1)) ∧
    (¬AllCounted args (rest.length + 1) → aliasArgs script fuel pc vvch = none) := by
  induction args generalizing fuel pc vvch with
  | nil =>
    have hop : OP_PUSHDATA4 < d.toNat := by
      simp only [isDrop, Bool.or_eq_true, beq_iff_eq, OP_DROP, OP_2DROP, OP_NOP] at hd
      simp only [OP_PUSHDATA4]
      omega
    have hread : script.GetOp2 pc = _ := GetOp2_op hdrop hop
    cases fuel with
    | zero => simp at hfuel
    | succ fuel =>
      refine ⟨fun _ => ?_, fun h => absurd trivial h⟩
      simp [aliasArgs, hread, hd]
  | cons a args ih =>
    obtain ⟨ha, hargs⟩ := List.forall_mem_cons.mp hsize
    have hcons : script.drop pc = pushVch a ++ (args.flatMap pushVch ++ d :: rest) := by
      rw [hdrop, List.flatMap_cons, List.append_assoc]
    have hlength : (args.flatMap pushVch ++ d :: rest).length =
        (args.flatMap pushVch).length + (rest.length + 1) := by
      rw [List.length_append, List.length_cons]
    have hread := GetOp2_pushVch ha hcons
    rw [hlength] at hread
    cases fuel with
    | zero => simp at hfuel
    | succ fuel =>
      by_cases hcount : Counted a.length ((args.flatMap pushVch).length + (rest.length + 1))
      · obtain ⟨opcode, hop, heq⟩ := hread.1 hcount
        have hnodrop : isDrop opcode = false := by
          simp only [isDrop, Bool.or_eq_false_iff, beq_eq_false_iff_ne, OP_DROP, OP_2DROP, OP_NOP]
          simp only [OP_PUSHDATA4] at hop
          omega
        have hnext : script.drop (pc + (pushVch a).length) =
            args.flatMap pushVch ++ d :: rest := by
          rw [← List.drop_drop, hcons, List.drop_left]
        have hstep : aliasArgs script (fuel + 1) pc vvch =
            aliasArgs script fuel (pc + (pushVch a).length) (vvch ++ [a]) := by
          simp [aliasArgs, heq, hnodrop, hop]
        have hrest := ih hargs fuel (pc + (pushVch a).length) (vvch ++ [a])
          (by rw [List.length_cons] at hfuel; omega) hnext
        rw [hstep]
        constructor
        · intro h
          rw [hrest.1 h.2, List.append_assoc, List.singleton_append, List.flatMap_cons,
            List.length_append, Nat.add_assoc pc]
        · intro h
          exact hrest.2 fun hall => h ⟨hcount, hall⟩
      · have hfail := hread.2 hcount
        refine ⟨fun h => absurd h.1 hcount, fun _ => ?_⟩
        simp [aliasArgs, hfail]

/-- Behind the drops the decoder stops after the first instruction of the destination. -/
theorem skipDrops_drops (drops : List UInt8) (hdrops : ∀ d ∈ drops, isDrop d.toNat = true)
    (hR : isDrop (R.GetOp2 0).opcodeRet = false) (fuel pc : ℕ) (hfuel : drops.length < fuel)
    (hdrop : script.drop pc = drops ++ R) :
    skipDrops script fuel pc = pc + drops.length + (R.GetOp2 0).pc := by
  induction drops generalizing fuel pc with
  | nil =>
    have hread : script.GetOp2 pc = (R.GetOp2 0).shift pc := by
      rw [GetOp2_shift, hdrop, List.nil_append]
    cases fuel with
    | zero => simp at hfuel
    | succ fuel => simp [skipDrops, hread, GetOpRet.shift, hR]
  | cons d drops ih =>
    obtain ⟨hd, hdrops⟩ := List.forall_mem_cons.mp hdrops
    have hop : OP_PUSHDATA4 < d.toNat := by
      have hd' := hd
      simp only [isDrop, Bool.or_eq_true, beq_iff_eq, OP_DROP, OP_2DROP, OP_NOP] at hd'
      simp only [OP_PUSHDATA4]
      omega
    have hread : script.GetOp2 pc = _ := GetOp2_op hdrop hop
    have hnext : script.drop (pc + 1) = drops ++ R := by
      rw [← List.drop_drop, hdrop]
      rfl
    cases fuel with
    | zero => simp at hfuel
    | succ fuel =>
      rw [List.length_cons] at hfuel ⊢
      have hstep : skipDrops script (fuel + 1) pc = skipDrops script fuel (pc + 1) := by
        simp [skipDrops, hread, hd]
      rw [hstep, ih hdrops fuel (pc + 1) (by omega) hnext]
      omega

/-! ## The round trip -/

/-- The script `op args drops R`, built with `operator<<`. -/
def aliasOutput (op : ℕ) (args : List valtype) (drops : List UInt8) (R : CScript) : CScript :=
  pushSmallInt op ++ (args.flatMap pushVch ++ (drops ++ R))

/-- `aliasScript` returns the opcode and the arguments, and `aliasStrip` the destination. -/
structure RoundTrip (op : ℕ) (args : List valtype) (drops : List UInt8) (R : CScript) : Prop where
  decodes : ∀ op₀, (aliasScript (aliasOutput op args drops R) op₀).ret = true
  opcode : ∀ op₀, (aliasScript (aliasOutput op args drops R) op₀).op = some op
  arguments : ∀ op₀, (aliasScript (aliasOutput op args drops R) op₀).vvch = args
  strip : aliasStrip (aliasOutput op args drops R) = some R

theorem aliasArity_range {op n : ℕ} (h : aliasArity op n = true) : 1 ≤ op ∧ op ≤ 16 := by
  simp only [aliasArity, Bool.or_eq_true, Bool.and_eq_true, beq_iff_eq, OP_ALIAS_ENCRYPTED,
    OP_ALIAS_SET, OP_MESSAGE, OP_ENCRYPTED_MESSAGE, OP_MAP_PROJECT, OP_PUBLIC_KEY, OP_VERTEX,
    OP_ALIAS_RELAY] at h
  omega

section Output

variable {op : ℕ} {args : List valtype} {drops : List UInt8} {R : CScript}

theorem length_flatMap_pushVch (args : List valtype) :
    args.length ≤ (args.flatMap pushVch).length := by
  induction args with
  | nil => simp
  | cons a args ih =>
    have hpos := length_lt_pushVch a
    rw [List.flatMap_cons, List.length_append, List.length_cons]
    omega

theorem aliasScript_output (harity : aliasArity op args.length = true)
    (hsize : ∀ a ∈ args, a.length < 2 ^ 32) (hne : drops ≠ [])
    (hdrops : ∀ d ∈ drops, isDrop d.toNat = true) (hR : isDrop (R.GetOp2 0).opcodeRet = false)
    (op₀ : Option ℕ) :
    (AllCounted args (drops ++ R).length → aliasScript (aliasOutput op args drops R) op₀ =
      ⟨true, some op, args, 1 + (args.flatMap pushVch).length + drops.length +
        (R.GetOp2 0).pc - 1⟩) ∧
    (¬AllCounted args (drops ++ R).length →
      (aliasScript (aliasOutput op args drops R) op₀).ret = false) := by
  obtain ⟨hlow, hhigh⟩ := aliasArity_range harity
  obtain ⟨d, ds, rfl⟩ := List.exists_cons_of_ne_nil hne
  obtain ⟨hd, hds⟩ := List.forall_mem_cons.mp hdrops
  -- the opcode
  have hbyte : (op + (OP_1 - 1)).toUInt8.toNat = op + (OP_1 - 1) := by
    apply toNat_toUInt8
    simp only [OP_1]
    omega
  have hfirst : (aliasOutput op args (d :: ds) R).GetOp2 0 =
      ⟨true, op + (OP_1 - 1), [], 1⟩ := by
    rw [← hbyte]
    have hstart : (aliasOutput op args (d :: ds) R).drop 0 =
        (op + (OP_1 - 1)).toUInt8 :: (args.flatMap pushVch ++ (d :: ds ++ R)) := rfl
    refine GetOp2_op hstart ?_
    rw [hbyte]
    simp only [OP_1, OP_PUSHDATA4]
    omega
  have hrange : ¬(op + (OP_1 - 1) < OP_1 ∨ OP_16 < op + (OP_1 - 1)) := by
    simp only [OP_1, OP_16]
    omega
  have hop : op + (OP_1 - 1) - OP_1 + 1 = op := by
    simp only [OP_1]
    omega
  -- the arguments
  have hscript : (aliasOutput op args (d :: ds) R).drop 1 =
      args.flatMap pushVch ++ d :: (ds ++ R) := rfl
  have hlength : (aliasOutput op args (d :: ds) R).length =
      (args.flatMap pushVch).length + (ds ++ R).length + 2 := by
    simp only [aliasOutput, pushSmallInt, List.length_append, List.length_cons, List.length_nil]
    omega
  have hlen := length_flatMap_pushVch args
  have hargs := aliasArgs_pushed hd args hsize (aliasOutput op args (d :: ds) R).length 1 []
    (by omega) hscript
  have hcount : (d :: ds ++ R).length = (ds ++ R).length + 1 := rfl
  rw [hcount]
  constructor
  · intro h
    have hbehind : (aliasOutput op args (d :: ds) R).drop
        (1 + (args.flatMap pushVch).length + 1) = ds ++ R := by
      rw [← List.drop_drop, ← List.drop_drop, hscript, List.drop_left]
      rfl
    have hskip := skipDrops_drops ds hds hR (aliasOutput op args (d :: ds) R).length
      (1 + (args.flatMap pushVch).length + 1)
      (by rw [hlength, List.length_append]; omega) hbehind
    simp only [aliasScript, hfirst, Bool.not_true, Bool.false_eq_true, if_false, if_neg hrange,
      hargs.1 h, hop, List.nil_append, harity, hskip, List.length_cons]
    congr 1
    omega
  · intro h
    simp [aliasScript, hfirst, hrange, hargs.2 h]

theorem drop_aliasOutput (n : ℕ) :
    (aliasOutput op args drops R).drop (1 + (args.flatMap pushVch).length + drops.length + n) =
      R.drop n := by
  rw [← List.drop_drop, ← List.drop_drop, ← List.drop_drop]
  have hone : (aliasOutput op args drops R).drop 1 = args.flatMap pushVch ++ (drops ++ R) := rfl
  rw [hone, List.drop_left, List.drop_left]

/-- The round trip succeeds exactly when all arguments are counted right and the destination does
not start with a key. -/
theorem alias_codec_round_trip_iff (harity : aliasArity op args.length = true)
    (hsize : ∀ a ∈ args, a.length < 2 ^ 32) (hne : drops ≠ [])
    (hdrops : ∀ d ∈ drops, d.toNat = OP_DROP ∨ d.toNat = OP_2DROP)
    {type : txnouttype} {vSolutions : List valtype} (hR : Solver R = (true, type, vSolutions))
    (htype : type = TX_PUBKEYHASH ∨ type = TX_SCRIPTHASH ∨ type = TX_MULTISIG ∨
      type = TX_PUBKEY) :
    RoundTrip op args drops R ↔ type ≠ TX_PUBKEY ∧ AllCounted args (drops ++ R).length := by
  obtain ⟨hkey, hone⟩ := solver_first hR
  have hdrops' : ∀ d ∈ drops, isDrop d.toNat = true := by
    intro d hd
    cases hdrops d hd with
    | inl h => rw [h]; decide
    | inr h => rw [h]; decide
  have hnodrop : isDrop (R.GetOp2 0).opcodeRet = false := by
    by_cases hpub : type = TX_PUBKEY
    · obtain ⟨hret, hsize⟩ := hkey hpub
      simp only [isPubKeySize, Bool.and_eq_true, decide_eq_true_eq] at hsize
      cases GetOp2_readsAt hret with
      | push hle _ _ =>
        generalize (R.GetOp2 0).opcodeRet = opcode at hle
        simp only [OP_PUSHDATA4] at hle
        simp only [isDrop, Bool.or_eq_false_iff, beq_eq_false_iff_ne, OP_DROP, OP_2DROP, OP_NOP]
        omega
      | op _ hvch _ =>
        rw [hvch] at hsize
        simp at hsize
    · have hother : type = TX_PUBKEYHASH ∨ type = TX_SCRIPTHASH ∨ type = TX_MULTISIG := by
        simpa [hpub] using htype
      exact (hone hother).2.2
  have hscript := aliasScript_output harity hsize hne hdrops' hnodrop
  have hstrip : AllCounted args (drops ++ R).length →
      aliasStrip (aliasOutput op args drops R) = some (R.drop ((R.GetOp2 0).pc - 1)) ∨
        (R.GetOp2 0).pc = 0 := by
    intro h
    by_cases hzero : (R.GetOp2 0).pc = 0
    · exact .inr hzero
    · left
      have hpc : 1 + (args.flatMap pushVch).length + drops.length + (R.GetOp2 0).pc - 1 =
          1 + (args.flatMap pushVch).length + drops.length + ((R.GetOp2 0).pc - 1) := by omega
      simp only [aliasStrip, (hscript none).1 h, if_true, hpc, drop_aliasOutput]
  constructor
  · intro h
    have hcount : AllCounted args (drops ++ R).length := by
      by_contra hnot
      have hret := h.decodes none
      rw [(hscript none).2 hnot] at hret
      simp at hret
    refine ⟨fun hpub => ?_, hcount⟩
    -- the iterator stands behind the key, at least a key's length past the start
    obtain ⟨hret, hkeysize⟩ := hkey hpub
    simp only [isPubKeySize, Bool.and_eq_true, decide_eq_true_eq] at hkeysize
    cases GetOp2_readsAt hret with
    | op _ hvch _ =>
      rw [hvch] at hkeysize
      simp at hkeysize
    | push _ hpc _ =>
      have hstrip' := (hstrip hcount).resolve_right (by omega)
      rw [h.strip, Option.some.injEq] at hstrip'
      have hlength := congrArg List.length hstrip'
      rw [List.length_drop] at hlength
      have hnonempty : R ≠ [] := by
        intro hnil
        rw [hnil] at hret
        simp [CScript.GetOp2, getOpFail] at hret
      have hpos := List.length_pos_iff.mpr hnonempty
      omega
  · intro h
    have hother : type = TX_PUBKEYHASH ∨ type = TX_SCRIPTHASH ∨ type = TX_MULTISIG := by
      simpa [h.1] using htype
    have hpc := (hone hother).2.1
    refine ⟨fun op₀ => ?_, fun op₀ => ?_, fun op₀ => ?_, ?_⟩
    · rw [(hscript op₀).1 h.2]
    · rw [(hscript op₀).1 h.2]
    · rw [(hscript op₀).1 h.2]
    · have hstrip' := (hstrip h.2).resolve_right (by omega)
      rw [hpc] at hstrip'
      exact hstrip'

/-- In a script of less than 4 GiB every argument is counted right. -/
theorem allCounted_of_short {args : List valtype} {tail : ℕ}
    (h : (args.flatMap pushVch).length + tail < 2 ^ 32) : AllCounted args tail := by
  induction args with
  | nil => trivial
  | cons a args ih =>
    have hpush := length_lt_pushVch a
    rw [List.flatMap_cons, List.length_append] at h
    refine ⟨?_, ih (by omega)⟩
    unfold Counted
    rw [Nat.mod_eq_of_lt (by omega)]
    omega

end Output

/-- A relay of a name in front of a key hash. -/
theorem alias_codec_round_trip_iff_keyHash :
    RoundTrip OP_ALIAS_RELAY [[0x61], [0x62]] [0x6d]
      ([0x76, 0xa9, 0x14] ++ List.replicate 20 7 ++ [0x88, 0xac]) := by
  have hR : Solver ([0x76, 0xa9, 0x14] ++ List.replicate 20 7 ++ [0x88, 0xac]) =
      (true, TX_PUBKEYHASH, [List.replicate 20 7]) := by decide
  exact (alias_codec_round_trip_iff (by decide) (by decide) (by decide) (by decide +kernel) hR
    (.inl rfl)).mpr ⟨by decide, allCounted_of_short (by decide)⟩

/-- A relay of a name in front of a key: what is left of the destination is its last two bytes. -/
theorem alias_codec_key_lost :
    Solver (0x21 :: List.replicate 33 2 ++ [0xac]) = (true, TX_PUBKEY, [List.replicate 33 2]) ∧
      aliasStrip (aliasOutput OP_ALIAS_RELAY [[0x61], [0x62]] [0x6d]
        (0x21 :: List.replicate 33 2 ++ [0xac])) = some [2, 0xac] ∧
      ¬RoundTrip OP_ALIAS_RELAY [[0x61], [0x62]] [0x6d]
        (0x21 :: List.replicate 33 2 ++ [0xac]) := by
  have hstrip : aliasStrip (aliasOutput OP_ALIAS_RELAY [[0x61], [0x62]] [0x6d]
      (0x21 :: List.replicate 33 2 ++ [0xac])) = some [2, 0xac] := by decide
  refine ⟨by decide, hstrip, fun h => ?_⟩
  have hround := h.strip
  rw [hstrip] at hround
  exact absurd hround (by decide)

end Dions
