import Dions.Library.Limbs
import Dions.Model.ScriptNum
import Dions.Verification.Script.StackNumber

/-! # CScriptNum

The bytes go in and out of a 64-bit integer by shifts, and what comes of it is the number of the
interpreter. -/

namespace Dions

open LittleEndian SignMagnitude

variable {vch : valtype}

/-! ## Writing -/

theorem absBytes_eq {m : ℕ} (h : 0 < m) :
    ∃ k, 256 ^ k ≤ m ∧ m < 256 ^ (k + 1) ∧ CScriptNum.absBytes m = toBytes (k + 1) m := by
  induction m using Nat.strong_induction_on with
  | h m ih =>
    have hmask : m &&& 0xff = m % 256 := Nat.and_two_pow_sub_one_eq_mod m 8
    have hshift : m >>> 8 = m / 256 := Nat.shiftRight_eq_div_pow m 8
    rw [CScriptNum.absBytes, if_neg h.ne', hmask, hshift]
    by_cases hsmall : m < 256
    · refine ⟨0, h, by rwa [zero_add, pow_one], ?_⟩
      rw [Nat.div_eq_of_lt hsmall, CScriptNum.absBytes, if_pos rfl]
      rfl
    · obtain ⟨k, hlow, hhigh, hbytes⟩ := ih (m / 256) (by omega) (by omega)
      refine ⟨k + 1, ?_, ?_, ?_⟩
      · rw [pow_succ]
        omega
      · rw [pow_succ]
        omega
      · rw [hbytes]
        rfl

theorem serialize_code (n : ℤ) : CodeOf n (CScriptNum.serialize n) := by
  rw [CScriptNum.serialize]
  by_cases hzero : n = 0
  · subst hzero
    exact codeOf_zero
  rw [if_neg hzero]
  have habs : (if n < 0 then -n else n).toNat = n.natAbs := by
    split <;> omega
  obtain ⟨k, hlow, hhigh, hbytes⟩ := absBytes_eq (Int.natAbs_pos.mpr hzero)
  have hpow : 0 < 256 ^ k := Nat.pow_pos (by decide)
  have htop : n.natAbs / 256 ^ k < 256 := Nat.div_lt_of_lt_mul (by rwa [pow_succ] at hhigh)
  rw [toBytes_snoc, Nat.mod_eq_of_lt htop] at hbytes
  have hbyte : (UInt8.ofNat (n.natAbs / 256 ^ k)).toNat = n.natAbs / 256 ^ k := by
    rw [UInt8.toNat_ofNat']
    exact Nat.mod_eq_of_lt htop
  dsimp only
  rw [habs, hbytes, List.getLastD_concat, List.dropLast_concat]
  by_cases hsign : 0x80 ≤ n.natAbs / 256 ^ k
  · -- the highest bit is taken, and the sign goes into a byte of its own
    have hge : 0x80 * 256 ^ k ≤ n.natAbs := (Nat.le_div_iff_mul_le hpow).mp hsign
    have hnone : n.natAbs / 256 ^ (k + 1) = 0 := Nat.div_eq_of_lt hhigh
    have hcode := codeOf_encode hzero (w := k + 1) (by omega) (.inr hge)
    have hsigned : topByte (decide (n < 0)) (k + 1) n.natAbs = if n < 0 then 0x80 else 0 := by
      rw [topByte, hnone, Nat.zero_add]
      by_cases hneg : n < 0
      · rw [if_pos (decide_eq_true hneg), if_pos hneg]
        rfl
      · rw [if_neg (by simpa using hneg), if_neg hneg]
        rfl
    rw [if_pos ((signBit_iff _).mpr (hbyte.symm ▸ hsign))]
    rwa [encode, toBytes_snoc, Nat.mod_eq_of_lt htop, hsigned] at hcode
  · have hlt : n.natAbs < 0x80 * 256 ^ k := (Nat.div_lt_iff_lt_mul hpow).mp (Nat.lt_of_not_le hsign)
    have hroom : k = 0 ∨ 0x80 * 256 ^ (k - 1) ≤ n.natAbs := by
      cases k with
      | zero => exact .inl rfl
      | succ k =>
        refine .inr (le_trans ?_ hlow)
        rw [Nat.add_sub_cancel, pow_succ, Nat.mul_comm]
        exact Nat.mul_le_mul_left _ (by decide)
    have hcode := codeOf_encode hzero hlt hroom
    rw [if_neg (fun h => hsign (hbyte ▸ (signBit_iff _).mp h))]
    rw [encode, topByte_eq (Nat.lt_of_not_le hsign)] at hcode
    by_cases hneg : n < 0
    · rw [if_pos hneg]
      rwa [if_pos (decide_eq_true hneg)] at hcode
    · rw [if_neg hneg]
      rwa [if_neg (by simpa using hneg)] at hcode

theorem serialize_eq_getvch (n : ℤ) : CScriptNum.serialize n = getvch n :=
  (serialize_code n).unique (getvch_code n)

theorem length_serialize {n : ℤ} (h : n.natAbs < 2 ^ 63) : (CScriptNum.serialize n).length ≤ 8 :=
  (serialize_code n).length_le (w := 7) h

/-! ## Reading -/

/-- The rounds of `set_vch` put the bytes together. -/
theorem orBytes_toNat (h : vch.length ≤ 8) :
    ((List.range vch.length).foldl (CScriptNum.orByte vch) 0).toNat = ofBytes vch := by
  have hloop := Limbs.foldl_range_induct
    (fun i (result : UInt64) => result.toNat = ofBytes (vch.take i)) (f := CScriptNum.orByte vch) (s := 0) rfl
    fun i (hi : i < vch.length) result hresult => by
      have hsmall := ofBytes_lt (vch.take i)
      have hb := (vch.getD i 0).toNat_lt
      have hplace : 2 ^ (8 * i) = 256 ^ i := pow_mul 2 8 i
      have hfits : (vch.getD i 0).toNat * 256 ^ i < 2 ^ 64 := by
        have hpow : 256 ^ i ≤ 256 ^ 7 := Nat.pow_le_pow_right (by decide) (by omega)
        have hle := Nat.mul_le_mul (show (vch.getD i 0).toNat ≤ 255 by omega) hpow
        omega
      have hamount : (UInt64.ofNat (8 * i)).toNat % 64 = 8 * i := by
        rw [UInt64.toNat_ofNat']
        omega
      have hshift : ((vch.getD i 0).toUInt64 <<< UInt64.ofNat (8 * i)).toNat =
          (vch.getD i 0).toNat <<< (8 * i) := by
        rw [UInt64.toNat_shiftLeft, hamount, UInt8.toNat_toUInt64, Nat.shiftLeft_eq, hplace]
        exact Nat.mod_eq_of_lt hfits
      have htake : vch.take (i + 1) = vch.take i ++ [vch.getD i 0] := by
        rw [List.take_add_one, List.getD_eq_getElem?_getD, List.getElem?_eq_getElem hi]
        rfl
      have hlength : (vch.take i).length = i := List.length_take_of_le hi.le
      rw [hlength, ← hplace] at hsmall
      rw [CScriptNum.orByte, UInt64.toNat_or, hresult, hshift, Nat.or_comm,
        ← Nat.shiftLeft_add_eq_or_of_lt hsmall, htake, BigEndian.ofBytes_append, hlength,
        Nat.shiftLeft_eq, hplace]
      simp only [ofBytes]
      ring
  rwa [List.take_length] at hloop

theorem and_not_bit {x k : ℕ} (hx : x < 2 ^ k) (hk : k < 64) :
    (x + 2 ^ k) &&& (2 ^ 64 - (2 ^ k + 1)) = x := by
  have hbit : 2 ^ k < 2 ^ 64 := Nat.pow_lt_pow_right Nat.one_lt_two hk
  have hsum : x + 2 ^ k = 2 ^ k * 1 + x := by rw [Nat.mul_one, Nat.add_comm]
  refine Nat.eq_of_testBit_eq fun i => ?_
  rw [Nat.testBit_and, Nat.testBit_two_pow_sub_succ hbit, hsum, Nat.testBit_two_pow_mul_add 1 hx,
    Nat.testBit_two_pow]
  by_cases hi : i < k
  · rw [if_pos hi, decide_eq_true (hi.trans hk), decide_eq_false hi.ne', Bool.not_false, Bool.and_true,
      Bool.and_true]
  · have hbeyond : x.testBit i = false :=
      Nat.testBit_lt_two_pow (hx.trans_le (Nat.pow_le_pow_right Nat.two_pos (Nat.le_of_not_lt hi)))
    rw [if_neg hi, hbeyond]
    by_cases heq : k = i
    · rw [decide_eq_true heq, Bool.not_true, Bool.and_false, Bool.and_false]
    · rw [Nat.testBit_lt_two_pow (Nat.one_lt_two_pow (by omega)), Bool.false_and]

theorem int64_eq {n : UInt64} (h : n.toNat < 2 ^ 63) : CScriptNum.int64 n = n.toNat := by
  have hlow : -(((2 ^ 64 : ℕ) : ℤ) / 2) ≤ n.toNat := by omega
  have hhigh : (n.toNat : ℤ) < (((2 ^ 64 : ℕ) : ℤ) + 1) / 2 := by omega
  exact Int.bmod_eq_of_le hlow hhigh

theorem set_vch64_eq (h : vch.length ≤ 8) : CScriptNum.set_vch64 vch = setvch vch := by
  have hresult := orBytes_toNat h
  rw [CScriptNum.set_vch64]
  by_cases hnil : vch = []
  · subst hnil
    rfl
  obtain ⟨neg, w, m, hm, rfl⟩ := exists_encode hnil
  rw [length_encode] at h
  have hplace : 0x80 * 256 ^ w = 2 ^ (8 * w + 7) := by
    rw [pow_add, pow_mul, Nat.mul_comm]
    rfl
  have hbound : 2 ^ (8 * w + 7) ≤ 2 ^ 63 := Nat.pow_le_pow_right (by decide) (by omega)
  have hlast : (encode neg w m).getLastD 0 = topByte neg w m := List.getLastD_concat
  have htop := div_lt hm
  rw [ofBytes_encode hm] at hresult
  rw [if_neg hnil, setvch_eq_value, value_encode hm, hlast]
  dsimp only
  generalize (List.range (encode neg w m).length).foldl (CScriptNum.orByte (encode neg w m)) 0 = result
    at hresult
  cases neg with
  | false =>
    rw [if_neg Bool.false_ne_true, Nat.add_zero] at hresult
    have hsign : ¬ topByte false w m &&& 0x80 ≠ 0 := by
      rw [signBit_iff, toNat_topByte hm, if_neg Bool.false_ne_true]
      exact Nat.not_le.mpr htop
    rw [if_neg hsign, int64_eq (by omega), hresult]
    rfl
  | true =>
    rw [if_pos rfl, hplace] at hresult
    have hsign : topByte true w m &&& 0x80 ≠ 0 := by
      rw [signBit_iff, toNat_topByte hm, if_pos rfl]
      exact Nat.le_add_left _ _
    have hamount : (UInt64.ofNat (8 * w)).toNat % 64 = 8 * w := by
      rw [UInt64.toNat_ofNat']
      omega
    have hshift : ((0x80 : UInt64) <<< UInt64.ofNat (8 * w)).toNat = 2 ^ (8 * w + 7) := by
      have hbyte : (0x80 : UInt64).toNat = 2 ^ 7 := rfl
      rw [UInt64.toNat_shiftLeft, hamount, hbyte, Nat.shiftLeft_eq, ← pow_add, Nat.add_comm]
      exact Nat.mod_eq_of_lt (by omega)
    have hmask : (result &&& ~~~((0x80 : UInt64) <<<
        UInt64.ofNat (8 * ((encode true w m).length - 1)))).toNat = m := by
      have hones : UInt64.size - 1 - 2 ^ (8 * w + 7) = 2 ^ 64 - (2 ^ (8 * w + 7) + 1) := by
        rw [Nat.sub_sub, Nat.add_comm 1]
        rfl
      rw [length_encode, Nat.add_sub_cancel, UInt64.toNat_and, UInt64.toNat_not, hshift, hresult, hones]
      exact and_not_bit (hplace ▸ hm) (by omega)
    rw [if_pos hsign, int64_eq (by omega), hmask]
    rfl

/-- Up to eight bytes the shifts of the constructor lose nothing. -/
theorem ofVch64_eq {fRequireMinimal : Bool} {nMaxNumSize : ℕ} (h : nMaxNumSize ≤ 8) :
    CScriptNum.ofVch64 vch fRequireMinimal nMaxNumSize =
      CScriptNum.ofVch vch fRequireMinimal nMaxNumSize := by
  rw [CScriptNum.ofVch64, CScriptNum.ofVch]
  split_ifs with hlong
  · rfl
  · rfl
  · rw [set_vch64_eq ((Nat.le_of_not_lt hlong).trans h), CScriptNum.set_vch]

theorem ofVch64_padded (h : vch.length ≤ 8) :
    CScriptNum.ofVch64 vch false 8 = some (setvch vch) := by
  rw [ofVch64_eq le_rfl, CScriptNum.ofVch, if_neg (Nat.not_lt.mpr h), Bool.false_and,
    if_neg Bool.false_ne_true, CScriptNum.set_vch]

/-- Among the strings that are not too long the check leaves the shortest form. -/
theorem ofVch64_minimal_iff {n : ℤ} :
    CScriptNum.ofVch64 vch true 8 = some n ↔ vch.length ≤ 8 ∧ CodeOf n vch := by
  rw [ofVch64_eq le_rfl, CScriptNum.ofVch]
  split_ifs with hlong hminimal
  · exact iff_of_false (by simp) fun h => absurd h.1 (Nat.not_le.mpr hlong)
  · have hloose : ¬Tight vch := by
      rw [← isMinimal_iff]
      simpa using hminimal
    exact iff_of_false (by simp) fun h => hloose h.2.tight
  · have htight : Tight vch := by
      rw [← isMinimal_iff]
      simpa using hminimal
    have hshort := Nat.le_of_not_lt hlong
    rw [Option.some.injEq, CScriptNum.set_vch]
    exact ⟨fun h => ⟨hshort, h, htight⟩, fun h => h.2.value⟩

end Dions
