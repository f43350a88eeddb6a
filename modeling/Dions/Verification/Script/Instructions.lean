import Dions.Verification.Alias.Codec

/-! # The bytes of an instruction

What `GetOp` reads and which bytes it reads: a push in one of four forms, or a single opcode. A script
is well formed as far as it is a series of instructions. -/

namespace Dions

open LittleEndian

variable {vch : valtype} {opcode pc : ℕ} {rest script : CScript}
variable {nSize : ℕ}

/-- The forms of a push, with their opcodes. -/
inductive PushForm (vch : valtype) : (opcode : ℕ) → CScript → Prop
  | direct (h : vch.length < OP_PUSHDATA1) : PushForm vch vch.length (vch.length.toUInt8 :: vch)
  | pushData1 (h : vch.length < 256 ^ 1) :
      PushForm vch OP_PUSHDATA1 (OP_PUSHDATA1.toUInt8 :: (toBytes 1 vch.length ++ vch))
  | pushData2 (h : vch.length < 256 ^ 2) :
      PushForm vch OP_PUSHDATA2 (OP_PUSHDATA2.toUInt8 :: (toBytes 2 vch.length ++ vch))
  | pushData4 (h : vch.length < 256 ^ 4) :
      PushForm vch OP_PUSHDATA4 (OP_PUSHDATA4.toUInt8 :: (toBytes 4 vch.length ++ vch))

/-- The bytes push the operand, in any of the forms. -/
def Pushes (vch : valtype) (bytes : CScript) : Prop := ∃ opcode, PushForm vch opcode bytes

/-- The bytes of an instruction with its opcode and operand. -/
inductive Instruction : (opcode : ℕ) → valtype → CScript → Prop
  | push {opcode : ℕ} {vch : valtype} {bytes : CScript} (h : PushForm vch opcode bytes) :
      Instruction opcode vch bytes
  | op {opcode : ℕ} (h : OP_PUSHDATA4 < opcode) (hbyte : opcode < 256) :
      Instruction opcode [] [opcode.toUInt8]

theorem PushForm.opcode_le {bytes : CScript} (h : PushForm vch opcode bytes) :
    opcode ≤ OP_PUSHDATA4 := by
  cases h with
  | direct h =>
    simp only [OP_PUSHDATA1, OP_PUSHDATA4] at h ⊢
    omega
  | pushData1 => decide
  | pushData2 => decide
  | pushData4 => decide

/-- An opcode behind the pushes has no operand and one byte. -/
theorem Instruction.op_form {bytes : CScript} (h : Instruction opcode vch bytes)
    (hop : OP_PUSHDATA4 < opcode) : vch = [] ∧ bytes = [opcode.toUInt8] := by
  cases h with
  | push h => exact absurd h.opcode_le (Nat.not_le.mpr hop)
  | op => exact ⟨rfl, rfl⟩

theorem Instruction.pushes {bytes : CScript} (h : Instruction opcode vch bytes) (hvch : vch ≠ []) :
    Pushes vch bytes := by
  cases h with
  | push h => exact ⟨opcode, h⟩
  | op => exact absurd rfl hvch

theorem Instruction.length_pos {bytes : CScript} (h : Instruction opcode vch bytes) :
    0 < bytes.length := by
  cases h with
  | push h => cases h <;> simp
  | op => simp

/-! ## Reading -/

theorem getOpPush_bytes (h : (getOpPush opcode nSize rest pc).ret = true) :
    ∃ vch, vch.length = nSize ∧ rest = vch ++ rest.drop nSize ∧
      getOpPush opcode nSize rest pc = ⟨true, opcode, vch, pc + nSize⟩ := by
  unfold getOpPush at h ⊢
  split at h
  · simp [getOpFail] at h
  · rename_i henough
    have hle : nSize ≤ rest.length := (Nat.not_lt.mp henough).trans (Nat.mod_le _ _)
    rw [if_neg henough]
    exact ⟨rest.take nSize, by rw [List.length_take, Nat.min_eq_left hle],
      (List.take_append_drop _ _).symm, rfl⟩

/-- The bytes that were read, and where the iterator is left. -/
structure ReadBytes (script : CScript) (pc : ℕ) (r : GetOpRet) (bytes : CScript) : Prop where
  instruction : Instruction r.opcodeRet r.vchRet bytes
  pc_eq : r.pc = pc + bytes.length
  drop_eq : script.drop pc = bytes ++ script.drop r.pc

/-- A push of `nSize` bytes behind its opcode and the bytes `l` of its length. -/
theorem readBytes_push {l : CScript} {b : UInt8} (hdrop : script.drop pc = b :: (l ++ rest))
    (hform : ∀ vch : valtype, vch.length = nSize → PushForm vch opcode (b :: (l ++ vch)))
    (h : (getOpPush opcode nSize rest (pc + (1 + l.length))).ret = true) :
    ∃ bytes, ReadBytes script pc (getOpPush opcode nSize rest (pc + (1 + l.length))) bytes := by
  obtain ⟨vch, hsize, hrest, hread⟩ := getOpPush_bytes h
  have hbytes : pc + (b :: (l ++ vch)).length = pc + (1 + l.length) + nSize := by
    rw [List.length_cons, List.length_append, hsize]
    omega
  have hsplit : script.drop pc = (b :: (l ++ vch)) ++ rest.drop nSize := by
    rw [hdrop, List.cons_append, List.append_assoc, ← hrest]
  have hnext : script.drop (pc + (b :: (l ++ vch)).length) = rest.drop nSize := by
    rw [← List.drop_drop, hsplit, List.drop_left]
  rw [hread, ← hbytes]
  exact ⟨b :: (l ++ vch), .push (hform vch hsize), rfl, by rw [hsplit, hnext]⟩

theorem toUInt8_toNat (b : UInt8) : b.toNat.toUInt8 = b := UInt8.ofNat_toNat

theorem toBytes_of_length {l : CScript} {w : ℕ} (hw : l.length = w) (h : vch.length = ofBytes l) :
    toBytes w vch.length = l ∧ vch.length < 256 ^ w := by
  rw [h, ← hw]
  exact ⟨toBytes_ofBytes l, ofBytes_lt l⟩

/-- Every successful read is an instruction. -/
theorem GetOp2_readBytes (h : (script.GetOp2 pc).ret = true) :
    ∃ bytes, ReadBytes script pc (script.GetOp2 pc) bytes := by
  unfold CScript.GetOp2 at h ⊢
  cases hdrop : script.drop pc with
  | nil => simp [hdrop, getOpFail] at h
  | cons b rest =>
    rw [hdrop] at h
    dsimp only at h ⊢
    have hbyte := b.toNat_lt
    have hcode : ∀ n : ℕ, b.toNat = n → b = n.toUInt8 := fun n hn => by rw [← hn, toUInt8_toNat]
    split at h
    · rename_i hpush
      rw [if_pos hpush]
      split at h
      · rename_i hdirect
        rw [if_pos hdirect]
        apply readBytes_push (l := []) hdrop _ h
        intro vch hsize
        have hform : PushForm vch vch.length (vch.length.toUInt8 :: vch) :=
          .direct (by rw [hsize]; exact hdirect)
        rwa [hsize, toUInt8_toNat] at hform
      · rename_i hdirect
        rw [if_neg hdirect]
        split at h
        · rename_i hone
          rw [if_pos hone]
          cases rest with
          | nil => simp [getOpFail] at h
          | cons n rest =>
            apply readBytes_push (l := [n]) hdrop _ h
            intro vch hsize
            obtain ⟨hlens, hlt⟩ := toBytes_of_length (l := [n]) rfl hsize
            rw [hone, hcode _ hone, ← hlens]
            exact .pushData1 hlt
        · rename_i hone
          rw [if_neg hone]
          split at h
          · rename_i htwo
            rw [if_pos htwo]
            rcases rest with _ | ⟨n₀, _ | ⟨n₁, rest⟩⟩
            · simp [getOpFail] at h
            · simp [getOpFail] at h
            · apply readBytes_push (l := [n₀, n₁]) hdrop _ h
              intro vch hsize
              obtain ⟨hlens, hlt⟩ := toBytes_of_length (l := [n₀, n₁]) rfl hsize
              rw [htwo, hcode _ htwo, ← hlens]
              exact .pushData2 hlt
          · rename_i htwo
            rw [if_neg htwo]
            have hfour : b.toNat = OP_PUSHDATA4 := by
              simp only [OP_PUSHDATA1, OP_PUSHDATA2, OP_PUSHDATA4] at hpush hdirect hone htwo ⊢
              omega
            rcases rest with _ | ⟨n₀, _ | ⟨n₁, _ | ⟨n₂, _ | ⟨n₃, rest⟩⟩⟩⟩
            · simp [getOpFail] at h
            · simp [getOpFail] at h
            · simp [getOpFail] at h
            · simp [getOpFail] at h
            · apply readBytes_push (l := [n₀, n₁, n₂, n₃]) hdrop _ h
              intro vch hsize
              have hvalue : vch.length = ofBytes [n₀, n₁, n₂, n₃] := by
                rw [hsize]
                simp only [ofBytes]
                omega
              obtain ⟨hlens, hlt⟩ := toBytes_of_length (l := [n₀, n₁, n₂, n₃]) rfl hvalue
              rw [hfour, hcode _ hfour, ← hlens]
              exact .pushData4 hlt
    · rename_i hpush
      have hop := Nat.not_le.mp hpush
      rw [if_neg hpush]
      refine ⟨[b], ?_, rfl, ?_⟩
      · have hform := Instruction.op hop hbyte
        rwa [toUInt8_toNat] at hform
      · rw [hdrop, ← List.drop_drop, hdrop]
        rfl

theorem GetOp2_pushForm {bytes : CScript} (hlen : script.length < 2 ^ 32)
    (hform : PushForm vch opcode bytes) (hdrop : script.drop pc = bytes ++ rest) :
    script.GetOp2 pc = ⟨true, opcode, vch, pc + bytes.length⟩ := by
  have hdata : ∀ k, vch.length ≤ bytes.length →
      getOpPush opcode vch.length (vch ++ rest) (pc + k) =
        ⟨true, opcode, vch, pc + k + vch.length⟩ := by
    intro k hle
    have hbytes := congrArg List.length hdrop
    rw [List.length_drop, List.length_append] at hbytes
    apply (getOpPush_data opcode vch rest (pc + k)).1
    rw [Counted, Nat.mod_eq_of_lt (by omega)]
    exact Nat.le_add_right _ _
  have hlens : ∀ w, vch.length < 256 ^ w → ofBytes (toBytes w vch.length) = vch.length :=
    fun w hw => ofBytes_toBytes w _ hw
  cases hform with
  | direct h =>
    have hop : vch.length ≤ OP_PUSHDATA4 := h.le.trans (by decide)
    have hbyte : vch.length.toUInt8.toNat = vch.length := toNat_toUInt8 (lt_trans h (by decide))
    have hread : script.GetOp2 pc = getOpPush vch.length vch.length (vch ++ rest) (pc + 1) := by
      simp only [CScript.GetOp2, hdrop, List.cons_append, hbyte, if_pos hop, if_pos h]
    rw [hread, hdata 1 (by simp), List.length_cons, Nat.add_assoc, Nat.add_comm 1]
  | pushData1 h =>
    have hl := hlens 1 h
    have hop : OP_PUSHDATA1.toUInt8.toNat = OP_PUSHDATA1 := rfl
    have hread : script.GetOp2 pc =
        getOpPush OP_PUSHDATA1 (ofBytes (toBytes 1 vch.length)) (vch ++ rest) (pc + 2) := by
      simp only [CScript.GetOp2, hdrop, List.cons_append, hop, toBytes, List.nil_append, ofBytes]
      rfl
    rw [hread, hl, hdata 2 (by simp; omega)]
    simp only [List.length_cons, List.length_append, length_toBytes, GetOpRet.mk.injEq, true_and]
    omega
  | pushData2 h =>
    have hl := hlens 2 h
    have hop : OP_PUSHDATA2.toUInt8.toNat = OP_PUSHDATA2 := rfl
    have hread : script.GetOp2 pc =
        getOpPush OP_PUSHDATA2 (ofBytes (toBytes 2 vch.length)) (vch ++ rest) (pc + 3) := by
      simp only [CScript.GetOp2, hdrop, List.cons_append, hop, toBytes, List.nil_append, ofBytes]
      rfl
    rw [hread, hl, hdata 3 (by simp; omega)]
    simp only [List.length_cons, List.length_append, length_toBytes, GetOpRet.mk.injEq, true_and]
    omega
  | pushData4 h =>
    have hl := hlens 4 h
    have hop : OP_PUSHDATA4.toUInt8.toNat = OP_PUSHDATA4 := rfl
    have hread : script.GetOp2 pc =
        getOpPush OP_PUSHDATA4 (ofBytes (toBytes 4 vch.length)) (vch ++ rest) (pc + 5) := by
      simp only [CScript.GetOp2, hdrop, List.cons_append, hop, toBytes, List.nil_append, ofBytes,
        Nat.mul_add, ← Nat.mul_assoc, Nat.mul_zero, Nat.add_zero, ← Nat.add_assoc]
      rfl
    rw [hread, hl, hdata 5 (by simp; omega)]
    simp only [List.length_cons, List.length_append, length_toBytes, GetOpRet.mk.injEq, true_and]
    omega

theorem GetOp2_of_instruction {bytes : CScript} (hlen : script.length < 2 ^ 32)
    (h : Instruction opcode vch bytes) (hdrop : script.drop pc = bytes ++ rest) :
    script.GetOp2 pc = ⟨true, opcode, vch, pc + bytes.length⟩ := by
  cases h with
  | push hform => exact GetOp2_pushForm hlen hform hdrop
  | op hop hbyte =>
    have hcode := toNat_toUInt8 hbyte
    have hread := GetOp2_op hdrop (by rw [hcode]; exact hop)
    rwa [hcode] at hread

end Dions
