import Dions.Verification.Wire.FixedWidth

/-! # Fixed-width integers are numbers modulo a power of two -/

namespace Dions

variable {x : UInt32}

namespace base_uint

variable {WIDTH : ℕ}

/-! ## Shifts -/

theorem testBit_value (a : base_uint WIDTH) (k : ℕ) :
    a.value.testBit k = (decide (k / 32 < WIDTH) && (a.limb (k / 32)).toNat.testBit (k % 32)) :=
  Limbs.testBit_value (by decide) (fun i _ => a.nums_lt i) k

theorem limb_orLimb_if (a : base_uint WIDTH) {c : Prop} [Decidable c] (i : ℕ) {j : ℕ} (hj : j < WIDTH)
    (x : UInt32) :
    (if c then a.orLimb i x else a).limb j = a.limb j ||| if c ∧ i = j then x else 0 := by
  by_cases hc : c
  · rw [if_pos hc, orLimb, limb_setLimb]
    by_cases hij : i = j
    · rw [if_pos ⟨hij, hj⟩, if_pos ⟨hc, hij⟩, hij]
    · rw [if_neg fun h => hij h.1, if_neg fun h => hij h.2, UInt32.or_zero]
  · rw [if_neg hc, if_neg fun h => hc h.1, UInt32.or_zero]

theorem or_reached {p p' q : Prop} [Decidable p] [Decidable p'] [Decidable q] {x y : UInt32}
    (hp' : p' ↔ p ∨ q) (hpq : ¬ (p ∧ q)) (hxy : q → x = y) :
    (if p' then x else 0) = (if p then x else 0) ||| (if q then y else 0) := by
  by_cases hq : q
  · have hp : ¬ p := fun hp => hpq ⟨hp, hq⟩
    rw [if_pos (hp'.mpr (.inr hq)), if_neg hp, if_pos hq, UInt32.zero_or, hxy hq]
  · rw [if_neg hq, UInt32.or_zero]
    exact if_congr (hp'.trans (or_iff_left hq)) rfl rfl

/-- The limbs of a shift up by `k` limbs and `shift` bits once the first `i` limbs are done. -/
def ShiftedUp (a : base_uint WIDTH) (k : ℕ) (shift : UInt32) (i : ℕ) (r : base_uint WIDTH) : Prop :=
  ∀ j < WIDTH, r.limb j =
    (if k ≤ j ∧ j < i + k then a.limb (j - k) <<< shift else 0) |||
      (if shift ≠ 0 ∧ k + 1 ≤ j ∧ j < i + k + 1 then a.limb (j - k - 1) >>> (32 - shift) else 0)

theorem ShiftedUp.shlLimb {a r : base_uint WIDTH} {k i : ℕ} {shift : UInt32} (h : ShiftedUp a k shift i r) :
    ShiftedUp a k shift (i + 1) (a.shlLimb k shift r i) := by
  intro j hj
  rw [base_uint.shlLimb, limb_orLimb_if _ _ hj, limb_orLimb_if _ _ hj, h j hj]
  have hfirst : (if k ≤ j ∧ j < i + 1 + k then a.limb (j - k) <<< shift else 0) =
      (if k ≤ j ∧ j < i + k then a.limb (j - k) <<< shift else 0) |||
        if i + k < WIDTH ∧ i + k = j then a.limb i <<< shift else 0 := by
    refine or_reached (by omega) (by omega) fun h => ?_
    rw [← h.2, Nat.add_sub_cancel]
  have hsecond :
      (if shift ≠ 0 ∧ k + 1 ≤ j ∧ j < i + 1 + k + 1 then a.limb (j - k - 1) >>> (32 - shift) else 0) =
      (if shift ≠ 0 ∧ k + 1 ≤ j ∧ j < i + k + 1 then a.limb (j - k - 1) >>> (32 - shift) else 0) |||
        if (i + k + 1 < WIDTH ∧ shift ≠ 0) ∧ i + k + 1 = j then a.limb i >>> (32 - shift) else 0 := by
    refine or_reached ?_ (fun h => by omega) fun h => ?_
    · by_cases hshift : shift = 0
      · simp [hshift]
      · simp only [ne_eq, hshift, not_false_eq_true, true_and, and_true]
        omega
    · rw [← h.2, show i + k + 1 - k - 1 = i by omega]
  rw [hfirst, hsecond]
  ac_rfl

/-- The limbs of a shift down. -/
def ShiftedDown (a : base_uint WIDTH) (k : ℕ) (shift : UInt32) (i : ℕ) (r : base_uint WIDTH) : Prop :=
  ∀ j < WIDTH, r.limb j =
    (if j + k < i then a.limb (j + k) >>> shift else 0) |||
      (if shift ≠ 0 ∧ j + k + 1 < i then a.limb (j + k + 1) <<< (32 - shift) else 0)

theorem ShiftedDown.shrLimb {a r : base_uint WIDTH} {k i : ℕ} {shift : UInt32}
    (h : ShiftedDown a k shift i r) :
    ShiftedDown a k shift (i + 1) (a.shrLimb k shift r i) := by
  intro j hj
  rw [base_uint.shrLimb, limb_orLimb_if _ _ hj, limb_orLimb_if _ _ hj, h j hj]
  have hfirst : (if j + k < i + 1 then a.limb (j + k) >>> shift else 0) =
      (if j + k < i then a.limb (j + k) >>> shift else 0) |||
        if k ≤ i ∧ i - k = j then a.limb i >>> shift else 0 := by
    refine or_reached (by omega) (by omega) fun h => ?_
    rw [← h.2, Nat.sub_add_cancel h.1]
  have hsecond : (if shift ≠ 0 ∧ j + k + 1 < i + 1 then a.limb (j + k + 1) <<< (32 - shift) else 0) =
      (if shift ≠ 0 ∧ j + k + 1 < i then a.limb (j + k + 1) <<< (32 - shift) else 0) |||
        if (k + 1 ≤ i ∧ shift ≠ 0) ∧ i - k - 1 = j then a.limb i <<< (32 - shift) else 0 := by
    refine or_reached ?_ (fun h => by omega) fun h => ?_
    · by_cases hshift : shift = 0
      · simp [hshift]
      · simp only [ne_eq, hshift, not_false_eq_true, true_and, and_true]
        omega
    · rw [show j + k + 1 = i by omega]
  rw [hfirst, hsecond]
  ac_rfl

/-! ## Bits of a shifted limb -/

theorem testBit_shl {shift : UInt32} (hshift : shift.toNat < 32) {r : ℕ} (hr : r < 32) :
    (x <<< shift).toNat.testBit r = (decide (shift.toNat ≤ r) && x.toNat.testBit (r - shift.toNat)) := by
  rw [UInt32.toNat_shiftLeft, Nat.testBit_mod_two_pow, Nat.testBit_shiftLeft, Nat.mod_eq_of_lt hshift,
    decide_eq_true hr, Bool.true_and]

theorem testBit_shr {shift : UInt32} (hshift : shift.toNat < 32) (r : ℕ) :
    (x >>> shift).toNat.testBit r = x.toNat.testBit (shift.toNat + r) := by
  rw [UInt32.toNat_shiftRight, Nat.testBit_shiftRight, Nat.mod_eq_of_lt hshift]

theorem testBit_beyond {r : ℕ} (hr : 32 ≤ r) : x.toNat.testBit r = false :=
  Nat.testBit_lt_two_pow (x.toNat_lt.trans_le (Nat.pow_le_pow_right Nat.two_pos hr))

theorem testBit_ite {c : Prop} [Decidable c] (x : UInt32) (r : ℕ) :
    (if c then x else 0).toNat.testBit r = (decide c && x.toNat.testBit r) := by
  by_cases hc : c
  · rw [if_pos hc, decide_eq_true hc, Bool.true_and]
  · rw [if_neg hc, decide_eq_false hc, Bool.false_and]
    exact Nat.zero_testBit r

theorem toNat_complement {shift : UInt32} (hshift : shift.toNat < 32) :
    (32 - shift).toNat = 32 - shift.toNat :=
  UInt32.toNat_sub_of_le _ _ (UInt32.le_iff_toNat_le.mpr hshift.le)

theorem toNat_complement_lt {shift : UInt32} (hshift : shift.toNat < 32) (hne : shift ≠ 0) :
    (32 - shift).toNat < 32 := by
  have hpos : shift.toNat ≠ 0 := fun h => hne (UInt32.toNat_inj.mp h)
  rw [toNat_complement hshift]
  omega

/-- What a shift up carries over. -/
theorem testBit_carried {shift : UInt32} (hshift : shift.toNat < 32) (hne : shift ≠ 0) (r : ℕ) :
    (x >>> (32 - shift)).toNat.testBit r = x.toNat.testBit (32 - shift.toNat + r) := by
  rw [testBit_shr (toNat_complement_lt hshift hne), toNat_complement hshift]

/-- What a shift down brings in from above. -/
theorem testBit_borrowed {shift : UInt32} (hshift : shift.toNat < 32) (hne : shift ≠ 0) {r : ℕ}
    (hr : r < 32) :
    (x <<< (32 - shift)).toNat.testBit r =
      (decide (32 - shift.toNat ≤ r) && x.toNat.testBit (r - (32 - shift.toNat))) := by
  rw [testBit_shl (toNat_complement_lt hshift hne) hr, toNat_complement hshift]

theorem toNat_shift (shift : UInt32) :
    shift.toNat = 32 * (shift / 32).toNat + (shift % 32).toNat ∧ (shift % 32).toNat < 32 := by
  have hdiv : (shift / 32).toNat = shift.toNat / 32 := UInt32.toNat_div _ 32
  have hmod : (shift % 32).toNat = shift.toNat % 32 := UInt32.toNat_mod _ 32
  omega

theorem shlAssign_value (a : base_uint WIDTH) (shift : UInt32) :
    (a.shlAssign shift).value = a.value * 2 ^ shift.toNat % 2 ^ (32 * WIDTH) := by
  obtain ⟨hsplit, hshift⟩ := toNat_shift shift
  have h : ShiftedUp a (shift / 32).toNat (shift % 32) WIDTH (a.shlAssign shift) := by
    refine Limbs.foldl_range_induct (ShiftedUp a _ _) (fun j hj => ?_) fun i _ r hr => hr.shlLimb
    rw [limb_zero, if_neg (by omega), if_neg (by omega), UInt32.zero_or]
  generalize (shift / 32).toNat = k at h hsplit
  generalize shift % 32 = bits at h hsplit hshift
  refine Nat.eq_of_testBit_eq fun t => ?_
  rw [testBit_value, Nat.testBit_mod_two_pow, Nat.mul_comm a.value, Nat.testBit_two_pow_mul, hsplit]
  by_cases ht : t / 32 < WIDTH
  · have hr : t % 32 < 32 := Nat.mod_lt t (by decide)
    rw [decide_eq_true ht, decide_eq_true (show t < 32 * WIDTH by omega), Bool.true_and, Bool.true_and,
      h _ ht, UInt32.toNat_or, Nat.testBit_or, testBit_ite, testBit_ite, testBit_shl hshift hr]
    by_cases hlow : bits.toNat ≤ t % 32
    · -- the bit comes from the limb `k` further down
      have hcarried : (decide (bits ≠ 0 ∧ k + 1 ≤ t / 32 ∧ t / 32 < WIDTH + k + 1) &&
          (a.limb (t / 32 - k - 1) >>> (32 - bits)).toNat.testBit (t % 32)) = false := by
        by_cases hzero : bits = 0
        · rw [decide_eq_false fun h => h.1 hzero, Bool.false_and]
        · rw [testBit_carried hshift hzero, testBit_beyond (by omega), Bool.and_false]
      rw [hcarried, Bool.or_false, decide_eq_true hlow, Bool.true_and]
      by_cases hk : k ≤ t / 32
      · have hdiv : (t - (32 * k + bits.toNat)) / 32 = t / 32 - k := by omega
        have hmod : (t - (32 * k + bits.toNat)) % 32 = t % 32 - bits.toNat := by omega
        rw [testBit_value, hdiv, hmod, decide_eq_true ⟨hk, by omega⟩,
          decide_eq_true (show t ≥ 32 * k + bits.toNat by omega), decide_eq_true (by omega), Bool.true_and,
          Bool.true_and]
      · rw [decide_eq_false fun h => hk h.1, decide_eq_false (show ¬ t ≥ 32 * k + bits.toNat by omega),
          Bool.false_and, Bool.false_and]
    · -- it is carried over from the limb below that one
      have hne : bits ≠ 0 := fun h => hlow (by rw [h]; exact Nat.zero_le _)
      rw [decide_eq_false hlow, Bool.false_and, Bool.and_false, Bool.false_or, testBit_carried hshift hne]
      by_cases hk : k + 1 ≤ t / 32
      · have hdiv : (t - (32 * k + bits.toNat)) / 32 = t / 32 - k - 1 := by omega
        have hmod : (t - (32 * k + bits.toNat)) % 32 = 32 - bits.toNat + t % 32 := by omega
        rw [testBit_value, hdiv, hmod, decide_eq_true ⟨hne, hk, by omega⟩,
          decide_eq_true (show t ≥ 32 * k + bits.toNat by omega), decide_eq_true (by omega), Bool.true_and,
          Bool.true_and]
      · rw [decide_eq_false fun h => hk h.2.1, decide_eq_false (show ¬ t ≥ 32 * k + bits.toNat by omega),
          Bool.false_and, Bool.false_and]
  · rw [decide_eq_false ht, decide_eq_false (by omega), Bool.false_and, Bool.false_and]

theorem shrAssign_value (a : base_uint WIDTH) (shift : UInt32) :
    (a.shrAssign shift).value = a.value / 2 ^ shift.toNat := by
  obtain ⟨hsplit, hshift⟩ := toNat_shift shift
  have h : ShiftedDown a (shift / 32).toNat (shift % 32) WIDTH (a.shrAssign shift) := by
    refine Limbs.foldl_range_induct (ShiftedDown a _ _) (fun j hj => ?_) fun i _ r hr => hr.shrLimb
    rw [limb_zero, if_neg (by omega), if_neg (by omega), UInt32.zero_or]
  generalize (shift / 32).toNat = k at h hsplit
  generalize shift % 32 = bits at h hsplit hshift
  refine Nat.eq_of_testBit_eq fun t => ?_
  rw [testBit_value, Nat.testBit_div_two_pow, testBit_value, hsplit]
  by_cases ht : t / 32 < WIDTH
  · have hr : t % 32 < 32 := Nat.mod_lt t (by decide)
    rw [decide_eq_true ht, Bool.true_and, h _ ht, UInt32.toNat_or, Nat.testBit_or, testBit_ite, testBit_ite,
      testBit_shr hshift]
    by_cases hlow : bits.toNat + t % 32 < 32
    · have hborrowed : (decide (bits ≠ 0 ∧ t / 32 + k + 1 < WIDTH) &&
          (a.limb (t / 32 + k + 1) <<< (32 - bits)).toNat.testBit (t % 32)) = false := by
        by_cases hzero : bits = 0
        · rw [decide_eq_false fun h => h.1 hzero, Bool.false_and]
        · rw [testBit_borrowed hshift hzero hr, decide_eq_false (show ¬ 32 - bits.toNat ≤ t % 32 by omega),
            Bool.false_and, Bool.and_false]
      have hdiv : (t + (32 * k + bits.toNat)) / 32 = t / 32 + k := by omega
      have hmod : (t + (32 * k + bits.toNat)) % 32 = bits.toNat + t % 32 := by omega
      rw [hborrowed, Bool.or_false, hdiv, hmod]
    · have hne : bits ≠ 0 := fun h => hlow (by rw [h]; exact (Nat.zero_add _).trans_lt hr)
      have hdiv : (t + (32 * k + bits.toNat)) / 32 = t / 32 + k + 1 := by omega
      have hmod : (t + (32 * k + bits.toNat)) % 32 = t % 32 - (32 - bits.toNat) := by omega
      rw [testBit_beyond (by omega), Bool.and_false, Bool.false_or, testBit_borrowed hshift hne hr, hdiv,
        hmod, decide_eq_true (show 32 - bits.toNat ≤ t % 32 by omega), Bool.true_and]
      simp only [hne, ne_eq, not_false_eq_true, true_and]
  · rw [decide_eq_false ht, Bool.false_and, decide_eq_false (by omega), Bool.false_and]

/-! ## Comparisons -/

theorem compareFrom_false (a b : base_uint WIDTH) (n : ℕ) :
    compareFrom (fun x y => x < y) false a b n =
      decide (Limbs.value (2 ^ 32) a.nums n < Limbs.value (2 ^ 32) b.nums n) := by
  induction n with
  | zero => rfl
  | succ n ih =>
    have hiff := Limbs.value_succ_lt_iff (n := n) (fun i _ => a.nums_lt i) (fun i _ => b.nums_lt i)
    rw [compareFrom, ih]
    simp only [decide_eq_true_eq, UInt32.lt_iff_toNat_lt, hiff, nums]
    by_cases hlt : (a.limb n).toNat < (b.limb n).toNat
    · rw [if_pos hlt, decide_eq_true (.inl hlt)]
    · rw [if_neg hlt]
      by_cases hgt : (b.limb n).toNat < (a.limb n).toNat
      · rw [if_pos hgt, decide_eq_false (by omega)]
      · rw [if_neg hgt]
        exact decide_eq_decide.mpr (by omega)

theorem compareFrom_true (a b : base_uint WIDTH) (n : ℕ) :
    compareFrom (fun x y => x < y) true a b n = !compareFrom (fun x y => x < y) false b a n := by
  induction n with
  | zero => rfl
  | succ n ih =>
    rw [compareFrom, compareFrom, ih]
    by_cases hlt : a.limb n < b.limb n
    · have hgt : ¬ b.limb n < a.limb n := fun h => absurd hlt (UInt32.lt_asymm h)
      simp [hlt, hgt]
    · simp [hlt]

theorem compareFrom_gt (a b : base_uint WIDTH) (equal : Bool) (n : ℕ) :
    compareFrom (fun x y => x > y) equal a b n = compareFrom (fun x y => x < y) equal b a n := by
  induction n with
  | zero => rfl
  | succ n ih =>
    rw [compareFrom, compareFrom, ih]

theorem lt_iff (a b : base_uint WIDTH) : a.lt b = decide (a.value < b.value) := compareFrom_false a b WIDTH

theorem le_iff (a b : base_uint WIDTH) : a.le b = decide (a.value ≤ b.value) := by
  rw [le, compareFrom_true, compareFrom_false, ← decide_not]
  exact decide_eq_decide.mpr Nat.not_lt

theorem gt_iff (a b : base_uint WIDTH) : a.gt b = decide (a.value > b.value) := by
  rw [gt, compareFrom_gt]
  exact lt_iff b a

theorem ge_iff (a b : base_uint WIDTH) : a.ge b = decide (a.value ≥ b.value) := by
  rw [ge, compareFrom_gt]
  exact le_iff b a

/-! ## Hexadecimal text -/

theorem ofBytes_byte (a : base_uint WIDTH) : ofBytes ((List.range (4 * WIDTH)).map a.byte) = a := by
  refine ext_limb fun i hi => ?_
  have hbyte : ∀ r < 4, ((List.range (4 * WIDTH)).map a.byte).getD (4 * i + r) 0 =
      UInt8.ofNat ((a.limb i).toNat / 256 ^ r) := by
    intro r hr
    rw [List.getD_eq_getElem?_getD, List.getElem?_map, List.getElem?_range (by omega), Option.map_some,
      Option.getD_some, byte, show (4 * i + r) / 4 = i by omega, show (4 * i + r) % 4 = r by omega]
  have hbound := (a.limb i).toNat_lt
  rw [limb, ofBytes, Vector.getElem?_ofFn, dif_pos hi, Option.getD_some]
  refine UInt32.toNat_inj.mp ?_
  have h0 := hbyte 0 (by decide)
  rw [Nat.add_zero] at h0
  simp only [h0, hbyte 1 (by decide), hbyte 2 (by decide), hbyte 3 (by decide), LittleEndian.ofBytes,
    UInt8.toNat_ofNat', UInt32.toNat_ofNat']
  omega

/-- The digits that are printed are read as what they stand for, and are taken for nothing else. -/
theorem hexDigit_spec : ∀ d < 16, phexdigit (hexDigits.getD d 0) = UInt8.ofNat d ∧
    isspace (hexDigits.getD d 0) = false ∧ tolower (hexDigits.getD d 0) ≠ 0x78 ∧
      (phexdigit (hexDigits.getD d 0) ≠ 0 ∨ hexDigits.getD d 0 = 0x30) := by
  decide

theorem joinDigits (c : UInt8) : UInt8.ofNat (c.toNat % 16) ||| UInt8.ofNat (c.toNat / 16) <<< 4 = c := by
  have hbound := c.toNat_lt
  refine UInt8.toNat_inj.mp ?_
  have hlow : (UInt8.ofNat (c.toNat % 16)).toNat = c.toNat % 16 := by
    rw [UInt8.toNat_ofNat']
    omega
  have hhigh : (UInt8.ofNat (c.toNat / 16) <<< 4).toNat = (c.toNat / 16) <<< 4 := by
    have hfour : (4 : UInt8).toNat % 8 = 4 := rfl
    rw [UInt8.toNat_shiftLeft, UInt8.toNat_ofNat', hfour, Nat.shiftLeft_eq, Nat.shiftLeft_eq]
    omega
  rw [UInt8.toNat_or, hlow, hhigh, Nat.or_comm, ← Nat.shiftLeft_add_eq_or_of_lt (by omega), Nat.shiftLeft_eq]
  omega

/-- The two digits of a byte, the last one first. -/
def digitsBack (c : UInt8) : List UInt8 :=
  [hexDigits.getD (c.toNat % 16) 0, hexDigits.getD (c.toNat / 16) 0]

theorem setHexLoop_digits (cs done : List UInt8) :
    setHexLoop (cs.flatMap digitsBack) done.length (done ++ List.replicate cs.length 0) = done ++ cs := by
  induction cs generalizing done with
  | nil => rfl
  | cons c cs ih =>
    have hbound := c.toNat_lt
    have hset : (done ++ List.replicate (c :: cs).length 0).set done.length c =
        (done ++ [c]) ++ List.replicate cs.length 0 := by
      rw [List.length_cons, List.replicate_succ, List.set_append_right _ _ le_rfl, Nat.sub_self,
        List.set_cons_zero, List.append_assoc]
      rfl
    have hroom : done.length < (done ++ List.replicate (c :: cs).length 0).length := by
      rw [List.length_append, List.length_replicate, List.length_cons]
      omega
    have hnext := ih (done ++ [c])
    rw [List.length_append, List.length_singleton] at hnext
    rw [List.flatMap_cons, digitsBack, List.cons_append, List.cons_append, List.nil_append, setHexLoop,
      if_pos hroom, (hexDigit_spec _ (by omega)).1, (hexDigit_spec _ (by omega)).1, joinDigits, hset, hnext,
      List.append_assoc]
    rfl

theorem GetHex_reverse (a : base_uint WIDTH) :
    a.GetHex.reverse = ((List.range (4 * WIDTH)).map a.byte).flatMap digitsBack := by
  have hrange : (List.range (4 * WIDTH)).reverse = (List.range (4 * WIDTH)).map fun i => 4 * WIDTH - i - 1 := by
    conv_lhs => rw [List.range_eq_range', List.reverse_range']
    refine List.map_congr_left fun i _ => ?_
    omega
  rw [GetHex, List.reverse_flatMap, hrange, List.flatMap_map, List.flatMap_map]
  refine List.flatMap_congr fun i hi => ?_
  have hi' := List.mem_range.mp hi
  have hback : 4 * WIDTH - (4 * WIDTH - i - 1) - 1 = i := by omega
  rw [Function.comp_apply, hback]
  rfl

theorem mem_GetHex {a : base_uint WIDTH} {c : UInt8} (hc : c ∈ a.GetHex) :
    ∃ d < 16, c = hexDigits.getD d 0 := by
  obtain ⟨i, -, hc⟩ := List.mem_flatMap.mp hc
  have hbound := (a.byte (4 * WIDTH - i - 1)).toNat_lt
  rw [printByte, List.mem_pair] at hc
  rcases hc with rfl | rfl
  · exact ⟨_, by omega, rfl⟩
  · exact ⟨_, Nat.mod_lt _ (by decide), rfl⟩

theorem SetHex_digits {cs : List UInt8} (hcs : ∀ c ∈ cs, ∃ d < 16, c = hexDigits.getD d 0) :
    (SetHex cs : base_uint WIDTH) = ofBytes (setHexLoop cs.reverse 0 (List.replicate (4 * WIDTH) 0)) := by
  have hspec : ∀ c ∈ cs, isspace c = false ∧ tolower c ≠ 0x78 ∧ (phexdigit c ≠ 0 ∨ c = 0x30) := by
    intro c hc
    obtain ⟨d, hd, rfl⟩ := hcs c hc
    exact (hexDigit_spec d hd).2
  have hspaces : cs.dropWhile isspace = cs := by
    cases cs with
    | nil => rfl
    | cons c cs =>
      refine List.dropWhile_cons_of_neg ?_
      rw [(hspec c List.mem_cons_self).1]
      exact Bool.false_ne_true
  have hmark : skipMark cs = cs := by
    match cs with
    | [] => rfl
    | [c] => rfl
    | c :: d :: cs => exact if_neg fun h => (hspec d (List.mem_cons_of_mem c List.mem_cons_self)).2.1 h.2
  have hdigits : (cs.takeWhile fun c => phexdigit c ≠ 0 || c = 0x30) = cs := by
    refine List.takeWhile_eq_self_iff.mpr fun c hc => ?_
    rw [Bool.or_eq_true, decide_eq_true_eq, decide_eq_true_eq]
    exact (hspec c hc).2.2
  rw [SetHex, hspaces, hmark, hdigits]

theorem SetHex_GetHex (a : base_uint WIDTH) : (SetHex a.GetHex : base_uint WIDTH) = a := by
  have hloop := setHexLoop_digits ((List.range (4 * WIDTH)).map a.byte) []
  rw [List.length_map, List.length_range] at hloop
  rw [SetHex_digits fun c hc => mem_GetHex hc, GetHex_reverse]
  exact (congrArg ofBytes hloop).trans (ofBytes_byte a)

theorem exists_value : ∀ n < 2 ^ (32 * WIDTH), ∃ a : base_uint WIDTH, a.value = n := by
  intro n
  induction n with
  | zero =>
    have hzero : (zero : base_uint WIDTH).value = 0 := by
      rw [value, Limbs.value]
      refine Finset.sum_eq_zero fun i _ => ?_
      rw [nums, limb_zero]
      exact Nat.zero_mul _
    exact fun _ => ⟨zero, hzero⟩
  | succ n ih =>
    intro hn
    obtain ⟨a, ha⟩ := ih (Nat.lt_of_succ_lt hn)
    exact ⟨a.increment, by rw [increment_value, ha, Nat.mod_eq_of_lt hn]⟩

end base_uint

open base_uint in
/-- The values of a `base_uint` are the numbers below `2 ^ (32 * WIDTH)`, and its operators are theirs. -/
theorem base_uint_modular {WIDTH : ℕ} (a b : base_uint WIDTH) (b64 : UInt64) (shift : UInt32) :
    (∀ n, n < 2 ^ (32 * WIDTH) ↔ ∃ c : base_uint WIDTH, c.value = n) ∧
    (a.value = b.value ↔ a = b) ∧
    (a.addAssign b).value = (a.value + b.value) % 2 ^ (32 * WIDTH) ∧
    (a.addAssign64 b64).value = (a.value + b64.toNat) % 2 ^ (32 * WIDTH) ∧
    ((a.subAssign b).value : ℤ) = (a.value - b.value) % 2 ^ (32 * WIDTH) ∧
    ((a.subAssign64 b64).value : ℤ) = (a.value - b64.toNat) % 2 ^ (32 * WIDTH) ∧
    (a.negate.value : ℤ) = -a.value % 2 ^ (32 * WIDTH) ∧
    a.increment.value = (a.value + 1) % 2 ^ (32 * WIDTH) ∧
    (a.decrement.value : ℤ) = (a.value - 1) % 2 ^ (32 * WIDTH) ∧
    (a.shlAssign shift).value = a.value * 2 ^ shift.toNat % 2 ^ (32 * WIDTH) ∧
    (a.shrAssign shift).value = a.value / 2 ^ shift.toNat ∧
    a.lt b = decide (a.value < b.value) ∧
    a.le b = decide (a.value ≤ b.value) ∧
    a.gt b = decide (a.value > b.value) ∧
    a.ge b = decide (a.value ≥ b.value) ∧
    SetHex a.GetHex = a := by
  have hsub := subAssign_value a b
  have hsub64 := subAssign_value a (assign64 b64)
  have hneg := negate_value_int a
  have hdec := decrement_value a
  rw [assign64_value, Int.natCast_mod, Int.sub_emod_emod] at hsub64
  rw [Nat.cast_pow, Nat.cast_two] at hsub hsub64 hneg hdec
  refine ⟨fun n => ⟨exists_value n, fun ⟨c, hc⟩ => hc ▸ c.value_lt⟩, value_injective.eq_iff,
    addAssign_value a b, ?_, hsub, hsub64, hneg, increment_value a, hdec, shlAssign_value a shift,
    shrAssign_value a shift, lt_iff a b, le_iff a b, gt_iff a b, ge_iff a b, SetHex_GetHex a⟩
  rw [addAssign64, addAssign_value, assign64_value, Nat.add_mod_mod]

end Dions
