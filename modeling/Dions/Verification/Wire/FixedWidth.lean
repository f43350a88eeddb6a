import Dions.Library.Limbs
import Dions.Model.Uint256
import Mathlib.Tactic.Linarith

/-! # Fixed-width integers are added limb by limb -/

namespace Dions

namespace base_uint

variable {WIDTH : ℕ}

/-! ## Values -/

def nums (a : base_uint WIDTH) (i : ℕ) : ℕ := (a.limb i).toNat

def value (a : base_uint WIDTH) : ℕ := Limbs.value (2 ^ 32) a.nums WIDTH

theorem nums_lt (a : base_uint WIDTH) (i : ℕ) : a.nums i < 2 ^ 32 := (a.limb i).toNat_lt

theorem two_pow_limbs (n : ℕ) : (2 ^ 32) ^ n = 2 ^ (32 * n) := (pow_mul 2 32 n).symm

theorem value_lt (a : base_uint WIDTH) : a.value < 2 ^ (32 * WIDTH) := by
  rw [← two_pow_limbs]
  exact Limbs.value_lt fun i _ => a.nums_lt i

theorem limb_setLimb (a : base_uint WIDTH) (i j : ℕ) (x : UInt32) :
    (a.setLimb i x).limb j = if i = j ∧ j < WIDTH then x else a.limb j := by
  rw [limb, setLimb, Vector.getElem?_setIfInBounds]
  by_cases hij : i = j
  · subst hij
    by_cases hi : i < WIDTH
    · rw [if_pos rfl, if_pos hi, if_pos ⟨rfl, hi⟩, Option.getD_some]
    · have hnone : a.pn[i]? = none := Vector.getElem?_eq_none (Nat.not_lt.mp hi)
      rw [if_pos rfl, if_neg hi, if_neg (fun h => hi h.2), limb, hnone]
  · rw [if_neg hij, if_neg (fun h => hij h.1), limb]

theorem limb_setLimb_self (a : base_uint WIDTH) {i : ℕ} (hi : i < WIDTH) (x : UInt32) :
    (a.setLimb i x).limb i = x := by
  rw [limb_setLimb, if_pos ⟨rfl, hi⟩]

theorem limb_setLimb_ne (a : base_uint WIDTH) {i j : ℕ} (hij : i ≠ j) (x : UInt32) :
    (a.setLimb i x).limb j = a.limb j := by
  rw [limb_setLimb, if_neg fun h => hij h.1]

@[simp] theorem limb_zero (i : ℕ) : (zero : base_uint WIDTH).limb i = 0 := by
  rw [limb, zero, Vector.getElem?_replicate]
  split <;> rfl

theorem ext_limb {a b : base_uint WIDTH} (h : ∀ i < WIDTH, a.limb i = b.limb i) : a = b := by
  obtain ⟨pn⟩ := a
  obtain ⟨pn'⟩ := b
  congr 1
  ext i hi
  have hlimb := h i hi
  rw [limb, limb, Vector.getElem?_eq_getElem hi, Vector.getElem?_eq_getElem hi] at hlimb
  exact congrArg UInt32.toNat hlimb

theorem value_injective : Function.Injective (value : base_uint WIDTH → ℕ) := by
  intro a b h
  refine ext_limb fun i hi => UInt32.toNat_inj.mp ?_
  exact Limbs.eq_of_value (fun i _ => a.nums_lt i) (fun i _ => b.nums_lt i) h i hi

/-- What a limb that is written adds to the value. -/
theorem value_setLimb (a : base_uint WIDTH) {i : ℕ} (hi : i < WIDTH) (x : UInt32) :
    (a.setLimb i x).value + (a.limb i).toNat * 2 ^ (32 * i) = a.value + x.toNat * 2 ^ (32 * i) := by
  have hsplit : ∀ b : base_uint WIDTH, b.value =
      b.nums i * (2 ^ 32) ^ i + ∑ j ∈ (Finset.range WIDTH).erase i, b.nums j * (2 ^ 32) ^ j := fun b =>
    (Finset.add_sum_erase _ _ (Finset.mem_range.mpr hi)).symm
  have hrest : ∑ j ∈ (Finset.range WIDTH).erase i, (a.setLimb i x).nums j * (2 ^ 32) ^ j =
      ∑ j ∈ (Finset.range WIDTH).erase i, a.nums j * (2 ^ 32) ^ j := by
    refine Finset.sum_congr rfl fun j hj => ?_
    rw [nums, limb_setLimb_ne a (Finset.ne_of_mem_erase hj).symm, nums]
  rw [hsplit, hsplit a, hrest, nums, limb_setLimb_self a hi, nums, two_pow_limbs]
  omega

/-! ## Successor and predecessor -/

/-- A value below the modulus that differs from a number by a multiple of it. -/
theorem eq_emod {v m : ℕ} {z q : ℤ} (hv : v < m) (h : v + q * m = z) : (v : ℤ) = z % m := by
  rw [← h, Int.add_mul_emod_self_right, Int.emod_eq_of_lt (Int.natCast_nonneg v) (Int.ofNat_lt.mpr hv)]

theorem place_succ (i : ℕ) : 2 ^ (32 * (i + 1)) = 2 ^ 32 * 2 ^ (32 * i) := by
  rw [Nat.mul_succ, pow_add, Nat.mul_comm]

/-- From limb `i` on, one is added at its place. -/
theorem incrementFrom_value (a : base_uint WIDTH) {i : ℕ} (hi : i < WIDTH) :
    (incrementFrom i a).value = (a.value + 2 ^ (32 * i)) % 2 ^ (32 * WIDTH) := by
  have hset := value_setLimb a hi (a.limb i + 1)
  have hlt := value_lt (a.setLimb i (a.limb i + 1))
  have hadd : (a.limb i + 1).toNat = ((a.limb i).toNat + 1) % 2 ^ 32 := UInt32.toNat_add _ 1
  have hbound := (a.limb i).toNat_lt
  rw [incrementFrom]
  rw [limb_setLimb_self a hi]
  by_cases hwrap : (a.limb i).toNat + 1 = 2 ^ 32
  · -- the limb becomes zero, and what it had is carried
    rw [hwrap, Nat.mod_self] at hadd
    have hzero : a.limb i + 1 = 0 := UInt32.toNat_inj.mp hadd
    have hcarry : 2 ^ (32 * (i + 1)) = (a.limb i).toNat * 2 ^ (32 * i) + 2 ^ (32 * i) := by
      rw [place_succ, ← hwrap, Nat.add_mul, Nat.one_mul]
    by_cases hlast : i < WIDTH - 1
    · have hnext : i + 1 < WIDTH := by omega
      have hsum : (a.setLimb i (a.limb i + 1)).value + 2 ^ (32 * (i + 1)) = a.value + 2 ^ (32 * i) := by
        rw [hadd] at hset
        omega
      rw [if_pos ⟨hzero, hlast⟩, incrementFrom_value _ hnext, hsum]
    · have htop : i + 1 = WIDTH := by omega
      rw [if_neg fun h => hlast h.2]
      rw [htop] at hcarry
      rw [hadd] at hset
      have hsum : a.value + 2 ^ (32 * i) = (a.setLimb i (a.limb i + 1)).value + 2 ^ (32 * WIDTH) := by omega
      rw [hsum, Nat.add_mod_right, Nat.mod_eq_of_lt hlt]
  · rw [Nat.mod_eq_of_lt (by omega)] at hadd
    have hzero : ¬ (a.limb i + 1 = 0) := fun h => by
      rw [h] at hadd
      exact absurd hadd (Nat.succ_ne_zero _).symm
    rw [if_neg fun h => hzero h.1]
    rw [hadd, Nat.add_mul, Nat.one_mul] at hset
    have hsum : a.value + 2 ^ (32 * i) = (a.setLimb i (a.limb i + 1)).value := by omega
    rw [hsum, Nat.mod_eq_of_lt hlt]
termination_by WIDTH - 1 - i

/-- From limb `i` on, one is taken away at its place. -/
theorem decrementFrom_value (a : base_uint WIDTH) {i : ℕ} (hi : i < WIDTH) :
    ((decrementFrom i a).value + 2 ^ (32 * i)) % 2 ^ (32 * WIDTH) = a.value := by
  have hset := value_setLimb a hi (a.limb i - 1)
  have hlt := value_lt a
  have hsub : (a.limb i - 1).toNat = (2 ^ 32 - 1 + (a.limb i).toNat) % 2 ^ 32 := UInt32.toNat_sub _ 1
  have hbound := (a.limb i).toNat_lt
  rw [decrementFrom]
  rw [limb_setLimb_self a hi]
  by_cases hborrow : (a.limb i).toNat = 0
  · rw [hborrow, Nat.add_zero, Nat.mod_eq_of_lt (by omega)] at hsub
    have hones : a.limb i - 1 = -1 := UInt32.toNat_inj.mp hsub
    have hcarry : 2 ^ (32 * (i + 1)) = (2 ^ 32 - 1) * 2 ^ (32 * i) + 2 ^ (32 * i) := by
      rw [place_succ, Nat.sub_mul]
      have hle : 1 * 2 ^ (32 * i) ≤ 2 ^ 32 * 2 ^ (32 * i) := Nat.mul_le_mul_right _ (by decide)
      omega
    rw [hsub, hborrow, Nat.zero_mul, Nat.add_zero] at hset
    by_cases hlast : i < WIDTH - 1
    · have hnext : i + 1 < WIDTH := by omega
      rw [if_pos ⟨hones, hlast⟩]
      have hrest := decrementFrom_value (a.setLimb i (a.limb i - 1)) hnext
      rw [hset, hcarry, Nat.add_comm ((2 ^ 32 - 1) * _), ← Nat.add_assoc] at hrest
      have hmod : (decrementFrom (i + 1) (a.setLimb i (a.limb i - 1))).value + 2 ^ (32 * i) ≡ a.value
          [MOD 2 ^ (32 * WIDTH)] := by
        refine Nat.ModEq.add_right_cancel' ((2 ^ 32 - 1) * 2 ^ (32 * i)) ?_
        rw [Nat.ModEq, hrest, ← hset, Nat.mod_eq_of_lt (value_lt _)]
      rw [hmod, Nat.mod_eq_of_lt hlt]
    · have htop : i + 1 = WIDTH := by omega
      rw [if_neg fun h => hlast h.2]
      rw [htop] at hcarry
      have hsum : (a.setLimb i (a.limb i - 1)).value + 2 ^ (32 * i) = a.value + 2 ^ (32 * WIDTH) := by omega
      rw [hsum, Nat.add_mod_right, Nat.mod_eq_of_lt hlt]
  · have hpred : (a.limb i - 1).toNat = (a.limb i).toNat - 1 := by omega
    have hones : ¬ (a.limb i - 1 = -1) := fun h => by
      have hmax := congrArg UInt32.toNat h
      rw [hpred] at hmax
      have hneg : (-1 : UInt32).toNat = 2 ^ 32 - 1 := rfl
      omega
    rw [if_neg fun h => hones h.1]
    have hsplit : (a.limb i).toNat * 2 ^ (32 * i) = ((a.limb i).toNat - 1) * 2 ^ (32 * i) + 2 ^ (32 * i) := by
      rw [← Nat.succ_mul]
      congr 1
      omega
    rw [hpred] at hset
    have hsum : (a.setLimb i (a.limb i - 1)).value + 2 ^ (32 * i) = a.value := by omega
    rw [hsum, Nat.mod_eq_of_lt hlt]
termination_by WIDTH - 1 - i

theorem increment_value (a : base_uint WIDTH) : a.increment.value = (a.value + 1) % 2 ^ (32 * WIDTH) := by
  have hlt := value_lt a.increment
  rcases Nat.eq_zero_or_pos WIDTH with rfl | hpos
  · rw [Nat.mul_zero, pow_zero] at hlt ⊢
    rw [Nat.mod_one]
    omega
  · exact incrementFrom_value a hpos

theorem decrement_value (a : base_uint WIDTH) :
    (a.decrement.value : ℤ) = (a.value - 1) % (2 ^ (32 * WIDTH) : ℕ) := by
  have hlt := value_lt a.decrement
  have hmod : (a.decrement.value + 1) % 2 ^ (32 * WIDTH) = a.value := by
    have hlt' := value_lt a
    rcases Nat.eq_zero_or_pos WIDTH with rfl | hpos
    · rw [Nat.mul_zero, pow_zero] at hlt' ⊢
      rw [Nat.mod_one]
      omega
    · exact decrementFrom_value a hpos
  have hdiv := Nat.mod_add_div (a.decrement.value + 1) (2 ^ (32 * WIDTH))
  rw [hmod] at hdiv
  refine eq_emod hlt (q := -((a.decrement.value + 1) / 2 ^ (32 * WIDTH) : ℕ)) ?_
  zify at hdiv
  push_cast
  linarith

/-! ## Negation -/

theorem complement_value (a : base_uint WIDTH) : a.value + a.complement.value + 1 = 2 ^ (32 * WIDTH) := by
  rw [← two_pow_limbs]
  refine Limbs.value_add_value fun i hi => ?_
  have hlimb : a.complement.limb i = ~~~(a.limb i) := by
    rw [limb, complement, limb, Vector.getElem?_map, Vector.getElem?_eq_getElem hi, Option.map_some,
      Option.getD_some, Option.getD_some]
  have hnot : (~~~(a.limb i)).toNat = 2 ^ 32 - 1 - (a.limb i).toNat := UInt32.toNat_not _
  have hbound := (a.limb i).toNat_lt
  rw [nums, nums, hlimb, hnot]
  omega

theorem negate_value (a : base_uint WIDTH) :
    a.negate.value = (2 ^ (32 * WIDTH) - a.value) % 2 ^ (32 * WIDTH) := by
  have hsum := complement_value a
  rw [negate, increment_value]
  congr 1
  omega

theorem negate_value_int (a : base_uint WIDTH) :
    (a.negate.value : ℤ) = -a.value % (2 ^ (32 * WIDTH) : ℕ) := by
  have hlt := value_lt a
  rw [negate_value, Int.natCast_mod, Int.natCast_sub hlt.le, Int.sub_eq_add_neg, Int.add_emod_left]

/-! ## Addition -/

/-- What stands behind the loop of `operator+=` at limb `i`. -/
structure Added (a b : base_uint WIDTH) (i : ℕ) (s : base_uint WIDTH × UInt64) : Prop where
  carry : s.2.toNat ≤ 1
  above : ∀ j, i ≤ j → s.1.limb j = a.limb j
  below : Limbs.value (2 ^ 32) s.1.nums i + s.2.toNat * (2 ^ 32) ^ i =
    Limbs.value (2 ^ 32) a.nums i + Limbs.value (2 ^ 32) b.nums i

theorem Added.addLimb {a b : base_uint WIDTH} {i : ℕ} {s : base_uint WIDTH × UInt64} (h : Added a b i s)
    (hi : i < WIDTH) : Added a b (i + 1) (addLimb b s i) := by
  have hbound := a.nums_lt i
  have hbound' := b.nums_lt i
  have hcarry := h.carry
  -- the sum of two limbs and the carry fits in 64 bits
  have hn : (s.2 + (s.1.limb i).toUInt64 + (b.limb i).toUInt64).toNat = s.2.toNat + a.nums i + b.nums i := by
    rw [UInt64.toNat_add, UInt64.toNat_add, UInt32.toNat_toUInt64, UInt32.toNat_toUInt64,
      h.above i le_rfl]
    rw [nums] at hbound hbound' ⊢
    rw [nums]
    omega
  have hlow : (((s.2 + (s.1.limb i).toUInt64 + (b.limb i).toUInt64) &&& 0xffffffff).toUInt32).toNat =
      (s.2.toNat + a.nums i + b.nums i) % 2 ^ 32 := by
    have hmask : (0xffffffff : UInt64).toNat = 2 ^ 32 - 1 := rfl
    rw [UInt64.toNat_toUInt32, UInt64.toNat_and, hn, hmask, Nat.and_two_pow_sub_one_eq_mod, Nat.mod_mod]
  have hhigh : ((s.2 + (s.1.limb i).toUInt64 + (b.limb i).toUInt64) >>> 32).toNat =
      (s.2.toNat + a.nums i + b.nums i) / 2 ^ 32 := by
    rw [UInt64.toNat_shiftRight, hn, Nat.shiftRight_eq_div_pow]
    rfl
  have hkept : Limbs.value (2 ^ 32) (base_uint.addLimb b s i).1.nums i = Limbs.value (2 ^ 32) s.1.nums i := by
    refine Limbs.value_congr fun j hj => ?_
    rw [nums, nums, base_uint.addLimb, limb_setLimb_ne _ hj.ne']
  have hnew : (base_uint.addLimb b s i).1.nums i = (s.2.toNat + a.nums i + b.nums i) % 2 ^ 32 := by
    rw [nums, base_uint.addLimb, limb_setLimb_self _ hi, hlow]
  refine ⟨?_, fun j hj => ?_, ?_⟩
  · rw [base_uint.addLimb, hhigh]
    omega
  · rw [base_uint.addLimb, limb_setLimb_ne _ (by omega)]
    exact h.above j (by omega)
  · have hsplit := Nat.mod_add_div (s.2.toNat + a.nums i + b.nums i) (2 ^ 32)
    have hbelow := h.below
    rw [Limbs.value_succ, Limbs.value_succ, Limbs.value_succ, hkept, hnew]
    rw [base_uint.addLimb, hhigh]
    generalize (s.2.toNat + a.nums i + b.nums i) % 2 ^ 32 = low at *
    generalize (s.2.toNat + a.nums i + b.nums i) / 2 ^ 32 = high at *
    calc _ = Limbs.value (2 ^ 32) s.1.nums i + (low + 2 ^ 32 * high) * (2 ^ 32) ^ i := by ring
      _ = _ := by
        rw [hsplit]
        linarith

theorem addAssign_value (a b : base_uint WIDTH) :
    (a.addAssign b).value = (a.value + b.value) % 2 ^ (32 * WIDTH) := by
  have h : Added a b WIDTH ((List.range WIDTH).foldl (addLimb b) (a, 0)) :=
    Limbs.foldl_range_induct (Added a b) ⟨Nat.zero_le _, fun _ _ => rfl, rfl⟩ fun i hi s hs => hs.addLimb hi
  have hlt := value_lt (a.addAssign b)
  have hsum : (a.addAssign b).value + _ * (2 ^ 32) ^ WIDTH = a.value + b.value := h.below
  rw [← hsum, two_pow_limbs, Nat.add_mul_mod_self_right, Nat.mod_eq_of_lt hlt]

theorem subAssign_value (a b : base_uint WIDTH) :
    ((a.subAssign b).value : ℤ) = (a.value - b.value) % (2 ^ (32 * WIDTH) : ℕ) := by
  rw [subAssign, addAssign_value, Int.natCast_mod, Int.natCast_add, negate_value_int, Int.add_emod_emod,
    ← Int.sub_eq_add_neg]

theorem nums_assign64 (b : UInt64) {i : ℕ} (hi : i < WIDTH) :
    (assign64 b : base_uint WIDTH).nums i =
      if i = 0 then b.toNat % 2 ^ 32 else if i = 1 then b.toNat / 2 ^ 32 else 0 := by
  have hlow : b.toUInt32.toNat = b.toNat % 2 ^ 32 := UInt64.toNat_toUInt32 b
  have hhigh : (b >>> 32).toUInt32.toNat = b.toNat / 2 ^ 32 := by
    have hbound := b.toNat_lt
    rw [UInt64.toNat_toUInt32, UInt64.toNat_shiftRight, Nat.shiftRight_eq_div_pow]
    exact Nat.mod_eq_of_lt (Nat.div_lt_of_lt_mul hbound)
  rw [nums, assign64]
  by_cases hzero : i = 0
  · subst hzero
    rw [if_pos rfl, limb_setLimb_ne _ Nat.one_ne_zero, limb_setLimb_self _ hi, hlow]
  rw [if_neg hzero]
  by_cases hone : i = 1
  · subst hone
    rw [if_pos rfl, limb_setLimb_self _ hi, hhigh]
  · rw [if_neg hone, limb_setLimb_ne _ (Ne.symm hone), limb_setLimb_ne _ (Ne.symm hzero), limb_zero]
    rfl

theorem assign64_value (b : UInt64) : (assign64 b : base_uint WIDTH).value = b.toNat % 2 ^ (32 * WIDTH) := by
  have hbound := b.toNat_lt
  match WIDTH with
  | 0 => rw [value, Limbs.value_zero, Nat.mul_zero, pow_zero, Nat.mod_one]
  | 1 =>
    rw [value, Limbs.value_succ, Limbs.value_zero, nums_assign64 b Nat.one_pos, if_pos rfl]
    omega
  | n + 2 =>
    -- the limbs above the second are zero
    have hall : ∀ m, m ≤ n → Limbs.value (2 ^ 32) (assign64 b : base_uint (n + 2)).nums (m + 2) = b.toNat := by
      intro m hm
      induction m with
      | zero =>
        rw [Limbs.value_succ, Limbs.value_succ, Limbs.value_zero, nums_assign64 b (by omega),
          nums_assign64 b (by omega), if_pos rfl, if_neg Nat.one_ne_zero, if_pos rfl]
        omega
      | succ m ih =>
        rw [Limbs.value_succ, ih (by omega), nums_assign64 b (by omega), if_neg (by omega), if_neg (by omega),
          Nat.zero_mul, Nat.add_zero]
    have hfits : b.toNat < 2 ^ (32 * (n + 2)) := hbound.trans_le (Nat.pow_le_pow_right Nat.two_pos (by omega))
    rw [value, hall n le_rfl, Nat.mod_eq_of_lt hfits]

end base_uint

end Dions
