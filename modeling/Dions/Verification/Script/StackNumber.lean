import Dions.Library.SignMagnitude
import Dions.Model.Interpreter

/-! # Numbers on the stack

A number has one shortest form. The interpreter writes it, and the check for the fewest bytes accepts no
other. -/

namespace Dions

open LittleEndian SignMagnitude

variable {w : ℕ} {n : ℤ}

/-! ## Bytes -/

theorem and_signBit_eq {b : ℕ} (hb : b < 256) : b &&& 0x80 = if 0x80 ≤ b then 0x80 else 0 := by
  rw [show (0x80 : ℕ) = 2 ^ 7 from rfl, Nat.and_two_pow, Nat.testBit_eq_decide_div_mod_eq]
  by_cases hsign : 2 ^ 7 ≤ b
  · rw [if_pos hsign, decide_eq_true (by omega)]
    rfl
  · rw [if_neg hsign, decide_eq_false (by omega)]
    rfl

theorem and_magnitude (b : ℕ) : b &&& 0x7f = b % 0x80 := Nat.and_two_pow_sub_one_eq_mod b 7

theorem signBit_iff (b : UInt8) : b &&& 0x80 ≠ 0 ↔ 0x80 ≤ b.toNat := by
  have hand : (b &&& 0x80).toNat = b.toNat &&& 0x80 := UInt8.toNat_and b 0x80
  rw [and_signBit_eq b.toNat_lt] at hand
  rw [ne_eq, ← UInt8.toNat_inj, hand]
  by_cases hsign : 0x80 ≤ b.toNat
  · simp [hsign]
  · simp [hsign]

theorem toNat_or_signBit {b : UInt8} (hb : b.toNat < 0x80) : (b ||| 0x80).toNat = b.toNat + 0x80 := by
  have hor : (b ||| 0x80).toNat = b.toNat ||| 0x80 := UInt8.toNat_or b 0x80
  rw [hor, Nat.or_comm, ← Nat.two_pow_add_eq_or_of_lt (i := 7) hb 1]
  omega

theorem topByte_eq {neg : Bool} {m : ℕ} (h : m / 256 ^ w < 0x80) :
    topByte neg w m = if neg then UInt8.ofNat (m / 256 ^ w) ||| 0x80 else UInt8.ofNat (m / 256 ^ w) := by
  cases neg with
  | false => rfl
  | true =>
    have hbyte : (UInt8.ofNat (m / 256 ^ w)).toNat = m / 256 ^ w := by
      rw [UInt8.toNat_ofNat']
      exact Nat.mod_eq_of_lt (by omega)
    refine UInt8.toNat_inj.mp ?_
    rw [if_pos rfl, toNat_or_signBit (hbyte.symm ▸ h), hbyte, topByte, UInt8.toNat_ofNat', if_pos rfl]
    exact Nat.mod_eq_of_lt (by omega)

/-! ## Shortest forms -/

theorem setvch_eq_value (vch : valtype) : setvch vch = SignMagnitude.value vch := rfl

theorem byteAt_eq_getD (vch : valtype) (i : ℕ) : byteAt vch i = (vch.getD i 0).toNat := by
  rw [byteAt, List.getD_eq_getElem?_getD]
  cases vch[i]? <;> rfl

theorem isMinimal_iff (vch : valtype) : CScriptNum.isMinimal vch = true ↔ Tight vch := by
  have hsecond := (vch.getD (vch.length - 2) 0).toNat_lt
  rw [CScriptNum.isMinimal, byteAt_eq_getD, byteAt_eq_getD, and_magnitude, and_signBit_eq hsecond, Tight]
  simp only [Bool.or_eq_true, Bool.and_eq_true, List.isEmpty_iff, bne_iff_ne, decide_eq_true_eq, or_assoc]
  simp

/-- The shortest form of a number that is not zero. -/
structure CodeOf (n : ℤ) (vch : valtype) : Prop where
  value : setvch vch = n
  tight : Tight vch

theorem CodeOf.unique {a b : valtype} (ha : CodeOf n a) (hb : CodeOf n b) : a = b :=
  ha.tight.unique hb.tight (ha.value.trans hb.value.symm)

/-- A string of `w + 1` bytes is enough. -/
theorem CodeOf.length_le {vch : valtype} (h : CodeOf n vch) (hfits : n.natAbs < 0x80 * 256 ^ w) :
    vch.length ≤ w + 1 := by
  by_cases hnil : vch = []
  · rw [hnil]
    exact Nat.zero_le _
  · obtain ⟨neg, w', m, hm, rfl⟩ := exists_encode hnil
    obtain ⟨hvalue, htight⟩ := h
    rw [setvch_eq_value, value_encode hm] at hvalue
    rw [← hvalue, natAbs_signed] at hfits
    rw [length_encode]
    exact Nat.succ_le_succ (width_le hfits ((tight_encode hm).mp htight).2)

theorem codeOf_zero : CodeOf 0 [] := ⟨rfl, .inl rfl⟩

theorem codeOf_encode (hne : n ≠ 0) (h : n.natAbs < 0x80 * 256 ^ w)
    (hlow : w = 0 ∨ 0x80 * 256 ^ (w - 1) ≤ n.natAbs) :
    CodeOf n (encode (decide (n < 0)) w n.natAbs) where
  value := by
    rw [setvch_eq_value, value_encode h, signed]
    split <;> rename_i hneg
    · have := of_decide_eq_true hneg
      omega
    · have := of_decide_eq_false (Bool.eq_false_of_not_eq_true hneg)
      omega
  tight := (tight_encode h).mpr ⟨Int.natAbs_pos.mpr hne, hlow⟩

/-! ## The interpreter -/

/-- The shortest form by sign and magnitude, and what bounds the bytes it takes. -/
theorem getvch_encode (h : n ≠ 0) :
    ∃ w, getvch n = encode (decide (n < 0)) w n.natAbs ∧ n.natAbs < 0x80 * 256 ^ w ∧
      (w = 0 ∨ 0x80 * 256 ^ (w - 1) ≤ n.natAbs) := by
  have hhigh : n.natAbs < 2 ^ (n.natAbs.log2 + 1) := Nat.lt_log2_self
  have hlow : 2 ^ (n.natAbs.log2 + 1 - 1) ≤ n.natAbs := Nat.log2_self_le (Int.natAbs_ne_zero.mpr h)
  have hfits := fits_of_bits hhigh
  refine ⟨(n.natAbs.log2 + 1) / 8, ?_, hfits, needs_of_bits hlow⟩
  rw [getvch, if_neg h]
  generalize (n.natAbs.log2 + 1) / 8 = w at hfits
  have hsign : 2 ^ (8 * (w + 1) - 1) = 0x80 * 256 ^ w := by
    rw [← two_pow_sevenAbove]
    congr 1
    omega
  dsimp only
  rw [hsign]
  by_cases hneg : n < 0
  · rw [if_pos hneg, decide_eq_true hneg, toBytes_signed hfits]
  · rw [if_neg hneg, decide_eq_false hneg]
    exact toBytes_unsigned hfits

theorem getvch_code (n : ℤ) : CodeOf n (getvch n) := by
  by_cases hzero : n = 0
  · rw [hzero]
    exact codeOf_zero
  · obtain ⟨w, hbytes, hfits, hlow⟩ := getvch_encode hzero
    rw [hbytes]
    exact codeOf_encode hzero hfits hlow

theorem setvch_getvch (n : ℤ) : setvch (getvch n) = n := (getvch_code n).value

theorem isMinimal_getvch (n : ℤ) : CScriptNum.isMinimal (getvch n) = true :=
  (isMinimal_iff _).mpr (getvch_code n).tight

theorem getvch_pos {n : ℕ} (h : 0 < n) :
    ∃ w, getvch n = toBytes (w + 1) n ∧ n < 0x80 * 256 ^ w ∧ (w = 0 ∨ 0x80 * 256 ^ (w - 1) ≤ n) := by
  obtain ⟨w, hbytes, hfits, hlow⟩ := getvch_encode (Int.natCast_ne_zero.mpr h.ne')
  rw [Int.natAbs_natCast] at hbytes hfits hlow
  refine ⟨w, ?_, hfits, hlow⟩
  rw [hbytes, decide_eq_false (Int.natCast_nonneg n).not_gt, toBytes_unsigned hfits]

end Dions
