import Dions.Verification.Script.Run
import Dions.Verification.Script.StackNumber

/-! # Lock times that a script can enforce

`OP_NOP2` compares a number on the stack with the lock time of the transaction. The number is read
through a constructor whose second parameter is not the length that the caller passes: numbers of
five bytes are refused, and so are numbers that are not written in the shortest form. -/

namespace Dions

open SignMagnitude

variable {vch : valtype}

/-! ## Numbers of four bytes -/

theorem length_getvch_le {n : ℕ} (h : n < 2 ^ 31) : (getvch n).length ≤ 4 :=
  (getvch_code n).length_le (w := 3) (by rwa [Int.natAbs_natCast])

/-- Four bytes hold no number from `2 ^ 31` on. -/
theorem setvch_lt (h : vch.length ≤ 4) : setvch vch < 2 ^ 31 := by
  have hlt := natAbs_value_lt vch
  have hpow : 256 ^ (vch.length - 1) ≤ 256 ^ 3 := Nat.pow_le_pow_right (by decide) (by omega)
  rw [setvch_eq_value]
  omega

/-! ## The four conditions -/

/-- What a lock time that is read from the stack has to meet. -/
structure LockTimeMet (txTo : CTransaction) (nIn : ℕ) (n : ℤ) : Prop where
  nonneg : 0 ≤ n
  sameKind : (txTo.nLockTime : ℤ) < LOCKTIME_THRESHOLD ↔ n < LOCKTIME_THRESHOLD
  reached : n ≤ txTo.nLockTime
  notFinal : ∃ txin, txTo.vin[nIn]? = some txin ∧ txin.nSequence ≠ UINT_MAX

theorem lockTimeReached_iff {txTo : CTransaction} {nIn : ℕ} {n : ℤ} :
    lockTimeReached txTo nIn n = true ↔ LockTimeMet txTo nIn n := by
  unfold lockTimeReached
  cases hin : txTo.vin[nIn]? with
  | none =>
    constructor
    · intro h
      simp at h
    · rintro ⟨_, _, _, txin, htxin, _⟩
      simp [hin] at htxin
  | some txin =>
    simp only [CTxIn.IsFinal, Bool.and_eq_true, Bool.or_eq_true, decide_eq_true_eq,
      Bool.not_eq_true', beq_eq_false_iff_ne]
    constructor
    · rintro ⟨⟨⟨hnonneg, hkind⟩, hreached⟩, hfinal⟩
      exact ⟨hnonneg, by omega, hreached, txin, hin, hfinal⟩
    · rintro ⟨hnonneg, hkind, hreached, txin', htxin', hfinal⟩
      cases hin.symm.trans htxin'
      exact ⟨⟨⟨hnonneg, by omega⟩, hreached⟩, hfinal⟩

section Context

variable {crypto : ScriptCrypto} {txTo : CTransaction} {nIn flags nHashType : ℕ}

/-- What the opcode does to a stack with an element on it. -/
theorem checkLockTimeVerify_eq {s : EvalState} {rest : List valtype}
    (hflag : flags &&& SCRIPT_VERIFY_CHECKLOCKTIMEVERIFY ≠ 0) (hstack : s.stack = vch :: rest) :
    checkLockTimeVerify txTo nIn flags s =
      if vch.length ≤ 4 ∧ CScriptNum.isMinimal vch = true ∧
          lockTimeReached txTo nIn (CScriptNum.set_vch vch) = true then some s
      else none := by
  unfold checkLockTimeVerify CScriptNum.ofVch
  rw [if_neg hflag, hstack]
  dsimp only
  by_cases hlen : vch.length ≤ 4
  · cases hmin : CScriptNum.isMinimal vch <;>
      simp [CScriptNum.nDefaultMaxNumSize, hlen, Nat.not_lt.mpr hlen]
  · simp [CScriptNum.nDefaultMaxNumSize, hlen, Nat.not_le.mp hlen]

/-- The instruction in a branch that is taken, within the limits. -/
theorem evalInstruction_NOP2 {script : CScript} {pc : ℕ} {s : EvalState} {rest : List valtype}
    (hflag : flags &&& SCRIPT_VERIFY_CHECKLOCKTIMEVERIFY ≠ 0)
    (hop : script[pc]? = some OP_NOP2.toUInt8) (hexec : s.vfExec.all id = true)
    (hops : s.nOpCount < 201) (hroom : s.stack.length + s.altstack.length ≤ 1000)
    (hstack : s.stack = vch :: rest) :
    (evalInstruction crypto txTo nIn flags nHashType script (script.GetOp2 pc) s).isSome = true ↔
      vch.length ≤ 4 ∧ CScriptNum.isMinimal vch = true ∧
        LockTimeMet txTo nIn (CScriptNum.set_vch vch) := by
  have hdrop : script.drop pc = OP_NOP2.toUInt8 :: script.drop (pc + 1) := by
    obtain ⟨hpc, hbyte⟩ := List.getElem?_eq_some_iff.mp hop
    rw [List.drop_eq_getElem_cons hpc, hbyte]
  have hrun : checkLockTimeVerify txTo nIn flags { s with nOpCount := s.nOpCount + 1 } = _ :=
    checkLockTimeVerify_eq hflag hstack
  have hlimit : withinLimit { s with nOpCount := s.nOpCount + 1 } = some _ := withinLimit_ok hroom
  rw [evalInstruction_at hdrop (by decide) rfl (by decide) hexec hops, Opcode.execute, hrun,
    ← lockTimeReached_iff]
  split
  · rename_i hmet
    rw [Option.bind_some, hlimit]
    exact ⟨fun _ => hmet, fun _ => rfl⟩
  · rename_i hmet
    rw [Option.bind_none]
    exact ⟨fun h => absurd h (by simp), fun h => absurd h hmet⟩

/-- The opcode continues for the lock times that are met exactly if the element is short and
minimal, or its lock time is not met. -/
theorem lock_time_verified_iff {script : CScript} {pc : ℕ} {s : EvalState} {vch : valtype}
    {rest : List valtype} (hflag : flags &&& SCRIPT_VERIFY_CHECKLOCKTIMEVERIFY ≠ 0)
    (hop : script[pc]? = some OP_NOP2.toUInt8) (hexec : s.vfExec.all id = true)
    (hops : s.nOpCount < 201) (hroom : s.stack.length + s.altstack.length ≤ 1000)
    (hstack : s.stack = vch :: rest) :
    ((evalInstruction crypto txTo nIn flags nHashType script (script.GetOp2 pc) s).isSome = true ↔
        LockTimeMet txTo nIn (CScriptNum.set_vch vch)) ↔
      (vch.length ≤ 4 ∧ CScriptNum.isMinimal vch = true) ∨
        ¬LockTimeMet txTo nIn (CScriptNum.set_vch vch) := by
  rw [evalInstruction_NOP2 hflag hop hexec hops hroom hstack]
  constructor
  · intro h
    by_cases hmet : LockTimeMet txTo nIn (CScriptNum.set_vch vch)
    · obtain ⟨hlen, hmin, _⟩ := h.mpr hmet
      exact .inl ⟨hlen, hmin⟩
    · exact .inr hmet
  · intro h
    constructor
    · exact fun hrun => hrun.2.2
    · intro hmet
      obtain ⟨hlen, hmin⟩ := h.resolve_right (not_not.mpr hmet)
      exact ⟨hlen, hmin, hmet⟩

end Context

/-! ## A lock time that cannot be enforced -/

namespace Scenario

def lateLockTime : valtype := [0, 0, 0, 0x80, 0]

def lateSpend : CTransaction := ⟨1, 0, [⟨⟨1, 0⟩, [], 0⟩], [], 2 ^ 31, []⟩

def noCrypto : ScriptCrypto :=
  ⟨fun _ => 0, fun _ => [], fun _ => [], fun _ => [], fun _ => [], fun _ => [], fun _ _ _ => false⟩

theorem lateLockTime_met : LockTimeMet lateSpend 0 (CScriptNum.set_vch lateLockTime) :=
  lockTimeReached_iff.mp (by decide)

end Scenario

open Scenario in
/-- The lock time is met, and the script fails. -/
theorem late_lock_time_refused :
    ¬((evalInstruction noCrypto lateSpend 0 SCRIPT_VERIFY_CHECKLOCKTIMEVERIFY 0 [0xb1]
          (CScript.GetOp2 [0xb1] 0) ⟨[lateLockTime], [], [], 0, 0⟩).isSome = true ↔
        LockTimeMet lateSpend 0 (CScriptNum.set_vch lateLockTime)) := by
  intro h
  have hrun := h.mpr lateLockTime_met
  revert hrun
  decide

open Scenario in
/-- The opcode continues for the lock time 499999999, and not for the one with five bytes. -/
theorem lock_time_verified_iff_met :
    (evalInstruction noCrypto { lateSpend with nLockTime := 499999999 } 0
        SCRIPT_VERIFY_CHECKLOCKTIMEVERIFY 0 [0xb1] (CScript.GetOp2 [0xb1] 0)
        ⟨[[0xff, 0x64, 0xcd, 0x1d]], [], [], 0, 0⟩).isSome = true ∧
      ¬((evalInstruction noCrypto lateSpend 0 SCRIPT_VERIFY_CHECKLOCKTIMEVERIFY 0 [0xb1]
            (CScript.GetOp2 [0xb1] 0) ⟨[lateLockTime], [], [], 0, 0⟩).isSome = true ↔
          LockTimeMet lateSpend 0 (CScriptNum.set_vch lateLockTime)) := by
  have hnumber : EvalState.stack ⟨[[0xff, 0x64, 0xcd, 0x1d]], [], [], 0, 0⟩ =
      [0xff, 0x64, 0xcd, 0x1d] :: [] := rfl
  have hlate : EvalState.stack ⟨[lateLockTime], [], [], 0, 0⟩ = lateLockTime :: [] := rfl
  constructor
  · have hmet : LockTimeMet { lateSpend with nLockTime := 499999999 } 0
        (CScriptNum.set_vch [0xff, 0x64, 0xcd, 0x1d]) := lockTimeReached_iff.mp (by decide)
    exact ((lock_time_verified_iff (by decide) rfl rfl (by decide) (by decide) hnumber).mpr
      (.inl ⟨by decide, by decide⟩)).mpr hmet
  · rw [lock_time_verified_iff (by decide) rfl rfl (by decide) (by decide) hlate]
    rintro (⟨hlength, -⟩ | hnot)
    · exact absurd hlength (by decide)
    · exact hnot lateLockTime_met

/-! ## The lock times that a script can enforce -/

/-- Some element makes the opcode continue for the transactions that meet the lock time, and for no
others. -/
def Enforceable (n : ℕ) : Prop :=
  ∃ vch : valtype, CScriptNum.set_vch vch = n ∧
    ∀ (txTo : CTransaction) (nIn flags : ℕ) (s : EvalState) (rest : List valtype),
      txTo.nLockTime < 2 ^ 32 → flags &&& SCRIPT_VERIFY_CHECKLOCKTIMEVERIFY ≠ 0 →
      s.stack = vch :: rest →
        ((checkLockTimeVerify txTo nIn flags s).isSome = true ↔ LockTimeMet txTo nIn n)

/-- Half of the lock times that a transaction can have are out of reach. -/
theorem enforceable_iff {n : ℕ} (h : n < 2 ^ 32) : Enforceable n ↔ n < 2 ^ 31 := by
  constructor
  · rintro ⟨vch, hvch, hall⟩
    have hmet : LockTimeMet ⟨1, 0, [⟨⟨1, 0⟩, [], 0⟩], [], n, []⟩ 0 n :=
      ⟨Int.natCast_nonneg n, Iff.rfl, le_rfl, _, rfl, by decide⟩
    have hrun := (hall _ 0 SCRIPT_VERIFY_CHECKLOCKTIMEVERIFY ⟨[vch], [], [], 0, 0⟩ [] h (by decide)
      rfl).mpr hmet
    rw [checkLockTimeVerify_eq (by decide) rfl] at hrun
    split at hrun
    · rename_i hread
      have hlt := setvch_lt hread.1
      rw [CScriptNum.set_vch] at hvch
      omega
    · simp at hrun
  · intro hlt
    refine ⟨getvch n, setvch_getvch n, ?_⟩
    intro txTo nIn flags s rest _ hflag hstack
    have hread : CScriptNum.set_vch (getvch n) = n := setvch_getvch n
    rw [checkLockTimeVerify_eq hflag hstack, ← lockTimeReached_iff, hread]
    simp [length_getvch_le hlt, isMinimal_getvch]

end Dions
