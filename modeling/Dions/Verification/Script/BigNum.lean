import Dions.Verification.Script.LockTime
import Dions.Verification.Script.ScriptNum

/-! # The two coders of script numbers agree

`CBigNum` hands bytes to OpenSSL in a format that begins with the length and has the highest byte first. -/

namespace Dions

open LittleEndian SignMagnitude

variable {neg : Bool} {m r rounds w : ℕ} {n : UInt64} {stack : List valtype}

/-! ## The MPI format -/

theorem mpiValue_reverse_encode (h : m < 0x80 * 256 ^ w) :
    mpiValue (encode neg w m).reverse = signed neg m := by
  have htop := div_lt h
  have hbyte := @toNat_topByte neg w m h
  have hsplit := Nat.div_add_mod m (256 ^ w)
  have hlow : BigEndian.value (toBytes w m).reverse = m % 256 ^ w := by
    rw [BigEndian.value, List.reverse_reverse, ofBytes_toBytes_mod]
  rw [encode, List.reverse_append, List.reverse_singleton, List.singleton_append, mpiValue,
    BigEndian.value_cons, BigEndian.value_cons, hlow, List.length_reverse, length_toBytes, hbyte]
  cases neg with
  | false =>
    have hsign : ¬ topByte false w m &&& 0x80 ≠ 0 := by
      rw [signBit_iff, hbyte, if_neg Bool.false_ne_true]
      exact Nat.not_le.mpr htop
    rw [if_neg hsign, if_neg Bool.false_ne_true, Nat.add_zero, hsplit]
    rfl
  | true =>
    have hsign : topByte true w m &&& 0x80 ≠ 0 := by
      rw [signBit_iff, hbyte, if_pos rfl]
      exact Nat.le_add_left _ _
    have hmagnitude : (topByte true w m &&& 0x7f).toNat = m / 256 ^ w := by
      have hand : (topByte true w m &&& 0x7f).toNat = (topByte true w m).toNat &&& 0x7f :=
        UInt8.toNat_and _ 0x7f
      rw [hand, and_magnitude, hbyte, if_pos rfl, Nat.add_mod_right, Nat.mod_eq_of_lt htop]
    rw [if_pos hsign, hmagnitude, hsplit]
    rfl

theorem mpiValue_reverse (vch : valtype) : mpiValue vch.reverse = setvch vch := by
  by_cases hnil : vch = []
  · subst hnil
    rfl
  · obtain ⟨neg, w, m, hm, rfl⟩ := exists_encode hnil
    rw [mpiValue_reverse_encode hm, setvch_eq_value, value_encode hm]

/-- The sign goes into the highest byte. -/
theorem modifyHead_encode (h : m < 0x80 * 256 ^ w) :
    (encode false w m).reverse.modifyHead (· ||| 0x80) = (encode true w m).reverse := by
  rw [encode, encode, topByte_eq (div_lt h), topByte_eq (div_lt h), List.reverse_concat, List.reverse_concat]
  rfl

/-- A zero byte stands in front where the highest bit is taken. -/
theorem mpi_unsigned {bits : ℕ} (hbits : 0 < bits) (h : m < 2 ^ bits) :
    (if 0 < bits ∧ bits % 8 = 0 then [0] else []) ++ BigEndian.toBytes ((bits + 7) / 8) m =
      (encode false (bits / 8) m).reverse := by
  rw [← toBytes_unsigned (fits_of_bits h)]
  by_cases hfull : bits % 8 = 0
  · have hwidth : (bits + 7) / 8 = bits / 8 := by omega
    have hplace : 2 ^ bits = 256 ^ (bits / 8) := by
      rw [show (256 : ℕ) = 2 ^ 8 from rfl, ← pow_mul]
      congr 1
      omega
    have htop : m / 256 ^ (bits / 8) = 0 := Nat.div_eq_of_lt (hplace.symm ▸ h)
    rw [if_pos ⟨hbits, hfull⟩, hwidth, toBytes_snoc, htop, List.reverse_concat]
    rfl
  · have hwidth : (bits + 7) / 8 = bits / 8 + 1 := by omega
    rw [if_neg fun hlead => hfull hlead.2, hwidth]
    rfl

theorem mpiBody_code (n : ℤ) : CodeOf n (mpiBody n).reverse := by
  by_cases hzero : n = 0
  · rw [hzero]
    exact codeOf_zero
  have hbits := Nat.size_pos.mpr (Int.natAbs_pos.mpr hzero)
  have hhigh := Nat.lt_size_self n.natAbs
  have hlow : 2 ^ (n.natAbs.size - 1) ≤ n.natAbs := Nat.lt_size.mp (Nat.sub_lt hbits Nat.one_pos)
  have hcode := codeOf_encode hzero (fits_of_bits hhigh) (needs_of_bits hlow)
  rw [mpiBody, mpi_unsigned hbits hhigh]
  by_cases hneg : n < 0
  · rw [if_pos hneg, modifyHead_encode (fits_of_bits hhigh), List.reverse_reverse]
    rwa [decide_eq_true hneg] at hcode
  · rw [if_neg hneg, List.reverse_reverse]
    rwa [decide_eq_false hneg] at hcode

/-! ## CBigNum -/

theorem cons_encode (neg : Bool) (w m : ℕ) (c : UInt8) :
    c :: encode neg w m = encode neg (w + 1) (m * 256 + c.toNat) := by
  have hc := c.toNat_lt
  have hdiv : (m * 256 + c.toNat) / 256 = m := by omega
  have hmod : (m * 256 + c.toNat) % 256 = c.toNat := by omega
  rw [encode, encode, toBytes, hdiv, hmod, UInt8.ofNat_toNat, topByte, topByte, pow_succ',
    ← Nat.div_div_eq_div_mul, hdiv]
  rfl

/-- With `rounds` bytes left, the register holds them in its highest bytes. -/
structure Register (n : UInt64) (rounds r : ℕ) : Prop where
  holds : n.toNat = r * 256 ^ (8 - rounds)
  lt : r < 256 ^ rounds
  rounds_le : rounds ≤ 8

theorem Register.next (h : Register n (rounds + 1) r) :
    ((n >>> 56) &&& 0xff).toUInt8.toNat = r / 256 ^ rounds ∧
      Register (n <<< 8) rounds (r % 256 ^ rounds) := by
  have hrounds := h.rounds_le
  have hlt := h.lt
  have hpow : 0 < 256 ^ rounds := Nat.pow_pos (by decide)
  have hplaces : 256 ^ rounds * 256 ^ (7 - rounds) = 2 ^ 56 := by
    rw [← pow_add, show rounds + (7 - rounds) = 7 by omega]
    rfl
  have hnext : 256 ^ (8 - rounds) = 256 ^ (7 - rounds) * 2 ^ 8 := by
    rw [show 8 - rounds = 7 - rounds + 1 by omega, pow_succ]
    rfl
  have hholds : n.toNat = r * 256 ^ (7 - rounds) := by
    rw [h.holds]
    congr 2
    omega
  have htop : r / 256 ^ rounds < 256 := Nat.div_lt_of_lt_mul (by rwa [pow_succ] at hlt)
  refine ⟨?_, ?_, Nat.mod_lt _ hpow, by omega⟩
  · have hamount : (56 : UInt64).toNat % 64 = 56 := rfl
    have hmask : (0xff : UInt64).toNat = 2 ^ 8 - 1 := rfl
    rw [UInt64.toNat_toUInt8, UInt64.toNat_and, UInt64.toNat_shiftRight, hamount, hmask,
      Nat.and_two_pow_sub_one_eq_mod, Nat.shiftRight_eq_div_pow, hholds, ← hplaces,
      Nat.mul_div_mul_right _ _ (Nat.pow_pos (by decide)), Nat.mod_mod]
    exact Nat.mod_eq_of_lt htop
  · have hamount : (8 : UInt64).toNat % 64 = 8 := rfl
    have hmodulus : 2 ^ 64 = 256 ^ rounds * (256 ^ (7 - rounds) * 2 ^ 8) := by
      rw [← Nat.mul_assoc, hplaces]
      rfl
    rw [UInt64.toNat_shiftLeft, hamount, Nat.shiftLeft_eq, hholds, hnext, Nat.mul_assoc, hmodulus,
      Nat.mul_mod_mul_right]

theorem setint64Loop_carries (hn : Register n rounds r) (hm : m < 0x80 * 256 ^ w) :
    mpiValue (CBigNum.setint64Loop neg rounds n false (encode neg w m).reverse) =
      signed neg (m * 256 ^ rounds + r) := by
  induction rounds generalizing n r w m with
  | zero =>
    have hr : r = 0 := Nat.lt_one_iff.mp hn.lt
    rw [CBigNum.setint64Loop, mpiValue_reverse_encode hm, hr, pow_zero, Nat.mul_one, Nat.add_zero]
  | succ rounds ih =>
    obtain ⟨hc, hnext⟩ := hn.next
    have hbound := (((n >>> 56) &&& 0xff).toUInt8).toNat_lt
    have hsplit := Nat.div_add_mod r (256 ^ rounds)
    have hm' : m * 256 + ((n >>> 56) &&& 0xff).toUInt8.toNat < 0x80 * 256 ^ (w + 1) := by
      rw [pow_succ]
      omega
    have hstep := ih hnext hm'
    rw [← cons_encode, List.reverse_cons, hc] at hstep
    rw [CBigNum.setint64Loop]
    refine hstep.trans (congrArg (signed neg) ?_)
    rw [Nat.add_mul, Nat.mul_assoc, ← pow_succ', Nat.add_assoc, Nat.mul_comm (r / _), hsplit]

/-- The sign in a byte of its own, and the highest byte of the magnitude. -/
theorem signByte_cons (neg : Bool) (c : UInt8) :
    [if neg then 0x80 else 0] ++ [c] = (encode neg 1 c.toNat).reverse := by
  have hnone : c.toNat / 256 ^ 1 = 0 := Nat.div_eq_of_lt c.toNat_lt
  have htop : topByte neg 1 c.toNat = if neg then 0x80 else 0 := by
    rw [topByte, hnone, Nat.zero_add]
    cases neg <;> rfl
  have hlow : toBytes 1 c.toNat = [c] := by
    rw [toBytes, Nat.mod_eq_of_lt c.toNat_lt, UInt8.ofNat_toNat]
    rfl
  rw [encode, htop, hlow]
  rfl

theorem signedByte {c : UInt8} (h : c.toNat < 0x80 * 256 ^ 0) :
    [if neg then c ||| 0x80 else c] = (encode neg 0 c.toNat).reverse := by
  have hone : c.toNat / 256 ^ 0 = c.toNat := by rw [pow_zero, Nat.div_one]
  rw [encode, topByte_eq (div_lt h), hone, UInt8.ofNat_toNat]
  rfl

theorem setint64Loop_leading (hn : Register n rounds r) :
    mpiValue (CBigNum.setint64Loop neg rounds n true []) = signed neg r := by
  induction rounds generalizing n r with
  | zero =>
    have hr : r = 0 := Nat.lt_one_iff.mp hn.lt
    rw [CBigNum.setint64Loop, hr, signed_eq_zero.mpr rfl]
    rfl
  | succ rounds ih =>
    obtain ⟨hc, hnext⟩ := hn.next
    have hsplit := Nat.div_add_mod r (256 ^ rounds)
    rw [CBigNum.setint64Loop, if_pos rfl]
    generalize ((n >>> 56) &&& 0xff).toUInt8 = c at hc
    have hwhole : c.toNat * 256 ^ rounds + r % 256 ^ rounds = r := by rw [hc, Nat.mul_comm, hsplit]
    by_cases hzero : c = 0
    · rw [if_pos hzero, ih hnext]
      rw [hzero, UInt8.toNat_zero, Nat.zero_mul, Nat.zero_add] at hwhole
      rw [hwhole]
    · rw [if_neg hzero]
      by_cases hsign : c &&& 0x80 ≠ 0
      · have hfits : c.toNat < 0x80 * 256 ^ 1 := by
          have hbound := c.toNat_lt
          omega
        rw [if_pos hsign, List.nil_append, signByte_cons, setint64Loop_carries hnext hfits, hwhole]
      · have hfits : c.toNat < 0x80 * 256 ^ 0 := by
          rw [pow_zero, Nat.mul_one]
          exact Nat.lt_of_not_le fun hle => hsign ((signBit_iff c).mpr hle)
        rw [if_neg hsign, List.nil_append, signedByte hfits, setint64Loop_carries hnext hfits, hwhole]

theorem length_setint64Loop_le (neg : Bool) (rounds : ℕ) (n : UInt64) (lead : Bool) (p : List UInt8) :
    (CBigNum.setint64Loop neg rounds n lead p).length ≤ p.length + 2 * rounds := by
  induction rounds generalizing n lead p with
  | zero => exact Nat.le_add_right _ _
  | succ rounds ih =>
    rw [CBigNum.setint64Loop]
    split_ifs
    · exact (ih _ _ _).trans (by omega)
    all_goals
      refine (ih _ _ _).trans ?_
      simp only [List.length_append, List.length_singleton]
      omega

section Coder

variable {ssl : OpenSsl} {value : ssl.BIGNUM → ℤ}

theorem value_loop (hssl : ssl.Mpi value) {neg : Bool} {n : UInt64} {p : List UInt8}
    (hp : CBigNum.setint64Loop neg 8 n true [] = p) :
    value (ssl.BN_mpi2bn (CBigNum.sizeBytes p.length ++ p)) = signed neg n.toNat := by
  have hlength := length_setint64Loop_le neg 8 n true []
  have hregister : Register n 8 n.toNat := ⟨(Nat.mul_one _).symm, n.toNat_lt, le_rfl⟩
  rw [hp, List.length_nil] at hlength
  rw [hssl.mpi2bn p (by omega), ← hp, setint64Loop_leading hregister]

/-- The minimum as well, whose magnitude is no `int64_t`. -/
theorem value_setint64 (hssl : ssl.Mpi value) {n : ℤ} (hlow : -2 ^ 63 ≤ n) (hhigh : n < 2 ^ 63) :
    value (CBigNum.setint64 ssl n) = n := by
  rw [CBigNum.setint64]
  rw [value_loop hssl rfl]
  by_cases hneg : n < 0
  · have hmagnitude : (UInt64.ofNat (-(n + 1)).toNat + 1).toNat = n.natAbs := by
      have hone : (1 : UInt64).toNat = 1 := rfl
      rw [UInt64.toNat_add, UInt64.toNat_ofNat', hone]
      omega
    rw [if_pos hneg, hmagnitude, decide_eq_true hneg, signed, if_pos rfl]
    omega
  · have hmagnitude : (UInt64.ofNat n.toNat).toNat = n.natAbs := by
      rw [UInt64.toNat_ofNat']
      omega
    rw [if_neg hneg, hmagnitude, decide_eq_false hneg, signed, if_neg Bool.false_ne_true]
    omega

theorem value_ofInt64 (hssl : ssl.Mpi value) (isLong : Bool) {n : ℤ} (hlow : -2 ^ 63 ≤ n)
    (hhigh : n < 2 ^ 63) : value (CBigNum.ofInt64 ssl isLong n) = n := by
  rw [CBigNum.ofInt64]
  split_ifs with hlong hsign
  · rw [CBigNum.setulong, hssl.set_word _ (by omega)]
    exact Int.toNat_of_nonneg hsign
  · exact value_setint64 hssl hlow hhigh
  · exact value_setint64 hssl hlow hhigh

theorem value_ofUint64 (hssl : ssl.Mpi value) (isLong : Bool) {n : ℕ} (h : n < 2 ^ 64) :
    value (CBigNum.ofUint64 ssl isLong n) = n := by
  rw [CBigNum.ofUint64]
  split_ifs
  · exact hssl.set_word n h
  · have hwhole : (UInt64.ofNat n).toNat = n := by
      rw [UInt64.toNat_ofNat']
      exact Nat.mod_eq_of_lt h
    rw [CBigNum.setuint64]
    rw [value_loop hssl rfl, hwhole]
    rfl

theorem value_setvch (hssl : ssl.Mpi value) {vch : valtype} (h : vch.length < 2 ^ 31) :
    value (CBigNum.setvch ssl vch) = setvch vch := by
  have hsize : vch.length % 2 ^ 32 = vch.reverse.length := by
    rw [List.length_reverse]
    exact Nat.mod_eq_of_lt (by omega)
  rw [CBigNum.setvch]
  rw [hsize, hssl.mpi2bn _ (by rwa [List.length_reverse]), mpiValue_reverse]

/-- The interpreter writes what `BN_bn2mpi` does, without the length and the lowest byte first. -/
theorem getvch_bn (hssl : ssl.Mpi value) (bn : ssl.BIGNUM) : CBigNum.getvch ssl bn = getvch (value bn) := by
  have hbody : CBigNum.getvch ssl bn = (mpiBody (value bn)).reverse := by
    rw [CBigNum.getvch, hssl.bn2mpi]
    generalize mpiBody (value bn) = body
    cases body with
    | nil => rfl
    | cons b body => rfl
  rw [hbody]
  exact (mpiBody_code _).unique (getvch_code _)

end Coder

/-! ## Pushing numbers -/

section Interpreter

variable {crypto : ScriptCrypto} {txTo : CTransaction} {nIn flags nHashType : ℕ}

theorem EvalScript_pushAt {script : CScript} {v : valtype} (hscript : script.length ≤ 1000000)
    (hpush : pushAt script 0 = some v) (hend : (script.GetOp2 0).pc = script.length)
    (hroom : stack.length < 1000) :
    EvalScript crypto txTo nIn flags nHashType stack script = some (v :: stack) := by
  have hsize := (GetOp2_vchRet_le script 0).trans hscript
  have hrun : (scriptLoop crypto txTo nIn flags nHashType script).eval (0, ⟨stack, [], [], 0, 0⟩) =
      (scriptLoop crypto txTo nIn flags nHashType script).eval ((script.GetOp2 0).pc,
        ⟨v :: stack, [], [], 0, 0⟩) := eval_pushAt hpush hsize rfl hroom
  rw [EvalScript_eq hscript, hrun, hend, eval_end le_rfl]
  rfl

theorem EvalScript_pushVch {v : valtype} (h : (pushVch v).length ≤ 1000000)
    (hroom : stack.length < 1000) :
    EvalScript crypto txTo nIn flags nHashType stack (pushVch v) = some (v :: stack) := by
  have hdrop : (pushVch v).drop 0 = pushVch v ++ [] := (List.append_nil _).symm
  obtain ⟨hpush, hend⟩ := pushAt_pushVch h hdrop
  exact EvalScript_pushAt h hpush (hend.trans (Nat.zero_add _)) hroom

theorem EvalScript_value {n : ℤ} (h : n = -1 ∨ 1 ≤ n ∧ n ≤ 16) (hroom : stack.length < 1000) :
    EvalScript crypto txTo nIn flags nHashType stack [UInt8.ofNat (n + (OP_1 - 1)).toNat] =
      some (getvch n :: stack) := by
  have hbyte : (UInt8.ofNat (n + (OP_1 - 1)).toNat).toNat = (n + 0x50).toNat := by
    rw [UInt8.toNat_ofNat', OP_1]
    omega
  have hop : OP_PUSHDATA4 < (UInt8.ofNat (n + (OP_1 - 1)).toNat).toNat := by
    rw [hbyte, OP_PUSHDATA4]
    omega
  have hdrop : [UInt8.ofNat (n + (OP_1 - 1)).toNat].drop 0 = [UInt8.ofNat (n + (OP_1 - 1)).toNat] := rfl
  have hread := GetOp2_op hdrop hop
  have hnumber : (((n + 0x50).toNat : ℕ) : ℤ) - 0x50 = n := by omega
  have hdata : ¬(n + 0x50).toNat ≤ OP_PUSHDATA4 := by
    rw [OP_PUSHDATA4]
    omega
  have hvalue : (n + 0x50).toNat = 0x4f ∨ 0x51 ≤ (n + 0x50).toNat ∧ (n + 0x50).toNat ≤ 0x60 := by omega
  have hpush : pushAt [UInt8.ofNat (n + (OP_1 - 1)).toNat] 0 = some (getvch n) := by
    rw [pushAt_eq_some, hread, hbyte, pushedBy]
    dsimp only
    rw [if_neg hdata, if_pos hvalue, hnumber]
    exact ⟨rfl, rfl⟩
  have hend : (CScript.GetOp2 [UInt8.ofNat (n + (OP_1 - 1)).toNat] 0).pc = 1 := by rw [hread]
  exact EvalScript_pushAt (Nat.one_le_of_lt (by decide : 0 < 1000000)) hpush hend hroom

variable {ssl : OpenSsl} {value : ssl.BIGNUM → ℤ}

theorem length_pushVch_number {n : ℤ} (h : n.natAbs < 2 ^ 64) : (pushVch (getvch n)).length ≤ 10 := by
  have hshort := (getvch_code n).length_le (w := 8) (h.trans (by decide))
  have hform : (pushVch (getvch n)).length = (getvch n).length + 1 := by
    rw [pushVch, if_pos (by rw [OP_PUSHDATA1]; omega), List.length_cons]
  omega

theorem EvalScript_push_int64 (hssl : ssl.Mpi value) (isLong : Bool) {n : ℤ} {stack : List valtype}
    (hlow : -2 ^ 63 ≤ n) (hhigh : n < 2 ^ 63) (hroom : stack.length < 1000) :
    EvalScript crypto txTo nIn flags nHashType stack (CScript.push_int64 ssl isLong [] n) =
      some (CBigNum.getvch ssl (CBigNum.ofInt64 ssl isLong n) :: stack) := by
  rw [CScript.push_int64, List.nil_append, List.nil_append, getvch_bn hssl,
    value_ofInt64 hssl isLong hlow hhigh]
  split_ifs with hvalue
  · exact EvalScript_value hvalue hroom
  · have hlength := length_pushVch_number (n := n) (by omega)
    exact EvalScript_pushVch (by omega) hroom

theorem EvalScript_push_uint64 (hssl : ssl.Mpi value) (isLong : Bool) {n : ℕ} {stack : List valtype}
    (h : n < 2 ^ 64) (hroom : stack.length < 1000) :
    EvalScript crypto txTo nIn flags nHashType stack (CScript.push_uint64 ssl isLong [] n) =
      some (CBigNum.getvch ssl (CBigNum.ofUint64 ssl isLong n) :: stack) := by
  rw [CScript.push_uint64, List.nil_append, List.nil_append, getvch_bn hssl, value_ofUint64 hssl isLong h]
  split_ifs with hvalue
  · have hopcode : n + (OP_1 - 1) = ((n : ℤ) + (OP_1 - 1)).toNat := by
      rw [OP_1]
      omega
    rw [hopcode]
    exact EvalScript_value (.inr (by omega)) hroom
  · have hlength := length_pushVch_number (n := (n : ℤ)) (by omega)
    exact EvalScript_pushVch (by omega) hroom

end Interpreter

/-! ## Agreement -/

section Coders

variable {ssl : OpenSsl} {value : ssl.BIGNUM → ℤ}

theorem script_numbers_agree (hssl : ssl.Mpi value) (isLong : Bool) (crypto : ScriptCrypto)
    (txTo : CTransaction) (nIn flags nHashType : ℕ) :
    (∀ n : ℤ, -2 ^ 63 < n → n < 2 ^ 63 →
      CScriptNum.serialize n = CBigNum.getvch ssl (CBigNum.ofInt64 ssl isLong n) ∧
      (∀ v, CScriptNum.ofVch64 v true 8 = some n ↔ v = CScriptNum.serialize n) ∧
      CScriptNum.ofVch64 (CScriptNum.serialize n) false 8 = some n ∧
      value (CBigNum.setvch ssl (CScriptNum.serialize n)) = n) ∧
    (∀ v : valtype, v.length ≤ 8 →
      CScriptNum.ofVch64 v false 8 = some (value (CBigNum.setvch ssl v))) ∧
    (∀ n : ℤ, -2 ^ 63 ≤ n → n < 2 ^ 63 → ∀ stack : List valtype, stack.length < 1000 →
      ∃ v, EvalScript crypto txTo nIn flags nHashType stack (CScript.push_int64 ssl isLong [] n) =
          some (v :: stack) ∧ value (CBigNum.setvch ssl v) = n) ∧
    ∀ n < 2 ^ 64, ∀ stack : List valtype, stack.length < 1000 →
      ∃ v, EvalScript crypto txTo nIn flags nHashType stack (CScript.push_uint64 ssl isLong [] n) =
          some (v :: stack) ∧ value (CBigNum.setvch ssl v) = n := by
  refine ⟨?_, ?_, ?_, ?_⟩
  · intro n hlow hhigh
    have hshort := length_serialize (n := n) (by omega)
    have hcode := serialize_code n
    refine ⟨?_, ?_, ?_, ?_⟩
    · rw [getvch_bn hssl, value_ofInt64 hssl isLong hlow.le hhigh, serialize_eq_getvch]
    · intro v
      rw [ofVch64_minimal_iff]
      exact ⟨fun h => h.2.unique hcode, fun h => h ▸ ⟨hshort, hcode⟩⟩
    · rw [ofVch64_padded hshort, hcode.value]
    · rw [value_setvch hssl (by omega), hcode.value]
  · intro v hv
    rw [ofVch64_padded hv, value_setvch hssl (by omega)]
  · intro n hlow hhigh stack hroom
    refine ⟨_, EvalScript_push_int64 hssl isLong hlow hhigh hroom, ?_⟩
    have hlength := (getvch_code n).length_le (w := 8) (by omega)
    rw [getvch_bn hssl, value_ofInt64 hssl isLong hlow hhigh, value_setvch hssl (by omega), setvch_getvch]
  · intro n h stack hroom
    refine ⟨_, EvalScript_push_uint64 hssl isLong h hroom, ?_⟩
    have hlength := (getvch_code n).length_le (w := 8) (by omega)
    rw [getvch_bn hssl, value_ofUint64 hssl isLong h, value_setvch hssl (by omega), setvch_getvch]

end Coders

/-! ## A library that keeps to the format -/

def plainSsl : OpenSsl where
  BIGNUM := ℤ
  BN_set_word w := w
  BN_mpi2bn d := mpiValue (d.drop 4)
  BN_bn2mpi n := CBigNum.sizeBytes (mpiBody n).length ++ mpiBody n

theorem plainSsl_mpi : plainSsl.Mpi id where
  set_word _ _ := rfl
  mpi2bn _ _ := rfl
  bn2mpi _ := rfl

namespace Scenario

theorem script_numbers_agree_plain :
    CScriptNum.serialize (-255) = CBigNum.getvch plainSsl (CBigNum.ofInt64 plainSsl true (-255)) ∧
      CScriptNum.ofVch64 [0, 0x80] false 8 = some (id (CBigNum.setvch plainSsl [0, 0x80])) ∧
        ∃ v, EvalScript noCrypto lateSpend 0 0 0 [] (CScript.push_int64 plainSsl true [] (-255)) = some [v] ∧
          id (CBigNum.setvch plainSsl v) = (-255 : ℤ) :=
  have hagree := script_numbers_agree plainSsl_mpi true noCrypto lateSpend 0 0 0
  ⟨(hagree.1 (-255) (by decide) (by decide)).1, hagree.2.1 [0, 0x80] (by decide),
    hagree.2.2.1 (-255) (by decide) (by decide) [] (by decide)⟩

end Scenario

end Dions
