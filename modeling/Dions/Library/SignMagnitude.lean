import Dions.Library.BigEndian
import Mathlib.Data.List.GetD

/-! # Numbers with a sign bit

A string of bytes, the lowest one first, stands for a magnitude whose highest bit is the sign. Every number
but zero has padded forms besides its shortest one, and zero has negative forms. -/

namespace LittleEndian

theorem toBytes_snoc (w n : ℕ) :
    toBytes (w + 1) n = toBytes w n ++ [UInt8.ofNat (n / 256 ^ w % 256)] := by
  induction w generalizing n with
  | zero => simp [toBytes]
  | succ w ih =>
    rw [toBytes, ih, toBytes, List.cons_append, Nat.div_div_eq_div_mul, pow_succ, Nat.mul_comm 256]

theorem getD_toBytes {w i : ℕ} (n : ℕ) (hi : i < w) :
    ((toBytes w n).getD i 0).toNat = n / 256 ^ i % 256 := by
  induction w generalizing i n with
  | zero => exact absurd hi i.not_lt_zero
  | succ w ih =>
    cases i with
    | zero => simp [toBytes]
    | succ i =>
      rw [toBytes, List.getD_cons_succ, ih _ (Nat.lt_of_succ_lt_succ hi), Nat.div_div_eq_div_mul, pow_succ,
        Nat.mul_comm 256]

theorem ofBytes_toBytes_mod (w n : ℕ) : ofBytes (toBytes w n) = n % 256 ^ w := by
  induction w generalizing n with
  | zero => rw [pow_zero, Nat.mod_one, toBytes, ofBytes]
  | succ w ih =>
    rw [toBytes, ofBytes, ih, UInt8.toNat_ofNat', Nat.mod_mod, pow_succ', Nat.mod_mul]

theorem toBytes_mod (w n : ℕ) : toBytes w (n % 256 ^ w) = toBytes w n := by
  have hbytes := toBytes_ofBytes (toBytes w n)
  rwa [length_toBytes, ofBytes_toBytes_mod] at hbytes

end LittleEndian

namespace SignMagnitude

open LittleEndian

variable {neg neg' : Bool} {w w' m m' : ℕ} {bs : List UInt8}

def signed (neg : Bool) (m : ℕ) : ℤ := if neg then -m else m

def value (bs : List UInt8) : ℤ :=
  match bs.getLast? with
  | none => 0
  | some b =>
    if b.toNat < 0x80 then ofBytes bs else -((ofBytes bs - 0x80 * 256 ^ (bs.length - 1) : ℕ) : ℤ)

/-- The highest byte says something besides the sign, or keeps the one below it free of the sign. -/
def Tight (bs : List UInt8) : Prop :=
  bs = [] ∨ (bs.getD (bs.length - 1) 0).toNat % 0x80 ≠ 0 ∨
    1 < bs.length ∧ 0x80 ≤ (bs.getD (bs.length - 2) 0).toNat

/-! ## Strings by sign, length and magnitude -/

/-- The highest byte of a magnitude, with the sign. -/
def topByte (neg : Bool) (w m : ℕ) : UInt8 := UInt8.ofNat (m / 256 ^ w + if neg then 0x80 else 0)

/-- A magnitude in `w + 1` bytes. -/
def encode (neg : Bool) (w m : ℕ) : List UInt8 := toBytes w m ++ [topByte neg w m]

@[simp] theorem length_encode (neg : Bool) (w m : ℕ) : (encode neg w m).length = w + 1 := by
  rw [encode, List.length_append, length_toBytes, List.length_singleton]

theorem div_lt (h : m < 0x80 * 256 ^ w) : m / 256 ^ w < 0x80 := Nat.div_lt_of_lt_mul (by rwa [Nat.mul_comm])

theorem toNat_topByte (h : m < 0x80 * 256 ^ w) :
    (topByte neg w m).toNat = m / 256 ^ w + if neg then 0x80 else 0 := by
  have htop := div_lt h
  rw [topByte, UInt8.toNat_ofNat']
  generalize m / 256 ^ w = top at htop
  cases neg with
  | false => exact Nat.mod_eq_of_lt (by simp only [Bool.false_eq_true, if_false]; omega)
  | true => exact Nat.mod_eq_of_lt (by simp only [if_true]; omega)

theorem ofBytes_encode (h : m < 0x80 * 256 ^ w) :
    ofBytes (encode neg w m) = m + if neg then 0x80 * 256 ^ w else 0 := by
  have hsplit := Nat.div_add_mod m (256 ^ w)
  have hone : ofBytes [topByte neg w m] = (topByte neg w m).toNat := by simp [ofBytes]
  rw [encode, BigEndian.ofBytes_append, length_toBytes, ofBytes_toBytes_mod, hone, toNat_topByte h,
    Nat.mul_add]
  cases neg with
  | false =>
    simp only [Bool.false_eq_true, if_false]
    omega
  | true =>
    rw [if_pos rfl, if_pos rfl, Nat.mul_comm (256 ^ w) 0x80]
    omega

theorem toBytes_unsigned (h : m < 0x80 * 256 ^ w) : toBytes (w + 1) m = encode false w m := by
  have htop : m / 256 ^ w % 256 = m / 256 ^ w := Nat.mod_eq_of_lt ((div_lt h).trans (by decide))
  rw [toBytes_snoc, htop]
  rfl

theorem toBytes_signed (h : m < 0x80 * 256 ^ w) : toBytes (w + 1) (m + 0x80 * 256 ^ w) = encode true w m := by
  have hpow : 0 < 256 ^ w := Nat.pow_pos (by decide)
  have htop : (m + 0x80 * 256 ^ w) / 256 ^ w % 256 = m / 256 ^ w + 0x80 := by
    have hdiv := div_lt h
    rw [Nat.add_mul_div_right _ _ hpow]
    generalize m / 256 ^ w = top at hdiv
    omega
  rw [toBytes_snoc, htop, ← toBytes_mod, Nat.add_mul_mod_self_right, toBytes_mod]
  rfl

theorem value_encode (h : m < 0x80 * 256 ^ w) : value (encode neg w m) = signed neg m := by
  have hbytes := @ofBytes_encode neg w m h
  rw [value, encode, List.getLast?_concat, ← encode]
  dsimp only
  rw [hbytes, length_encode, Nat.add_sub_cancel, toNat_topByte h, signed]
  cases neg with
  | false =>
    rw [if_neg Bool.false_ne_true, if_neg Bool.false_ne_true, if_neg Bool.false_ne_true, Nat.add_zero,
      Nat.add_zero, if_pos (div_lt h)]
  | true =>
    have hbeyond : ¬ m / 256 ^ w + 0x80 < 0x80 := Nat.not_lt.mpr (Nat.le_add_left _ _)
    rw [if_pos rfl, if_pos rfl, if_pos rfl, if_neg hbeyond, Nat.add_sub_cancel]

theorem tight_encode (h : m < 0x80 * 256 ^ w) :
    Tight (encode neg w m) ↔ 0 < m ∧ (w = 0 ∨ 0x80 * 256 ^ (w - 1) ≤ m) := by
  have hdiv := div_lt h
  have hlast : ((encode neg w m).getD w 0).toNat % 0x80 = m / 256 ^ w := by
    rw [encode, List.getD_append_right _ _ _ _ (length_toBytes w m).le, length_toBytes, Nat.sub_self,
      List.getD_cons_zero, toNat_topByte h]
    generalize m / 256 ^ w = top at hdiv
    cases neg with
    | false => exact Nat.mod_eq_of_lt hdiv
    | true => exact (Nat.add_mod_right top 0x80).trans (Nat.mod_eq_of_lt hdiv)
  have hne : encode neg w m ≠ [] := List.ne_nil_of_length_pos (by rw [length_encode]; exact w.succ_pos)
  rw [Tight, length_encode, Nat.add_sub_cancel, hlast, or_iff_right hne]
  cases w with
  | zero => simp [Nat.pos_iff_ne_zero]
  | succ w =>
    have hsecond : ((encode neg (w + 1) m).getD w 0).toNat = m / 256 ^ w % 256 := by
      rw [encode, List.getD_append _ _ _ _ (by rw [length_toBytes]; exact w.lt_succ_self),
        getD_toBytes m w.lt_succ_self]
    have hpow : 0 < 256 ^ w := Nat.pow_pos (by decide)
    have hge : 0x80 * 256 ^ w ≤ m ↔ 0x80 ≤ m / 256 ^ w := (Nat.le_div_iff_mul_le hpow).symm
    have htwice : m / 256 ^ (w + 1) = m / 256 ^ w / 256 := by rw [pow_succ, Nat.div_div_eq_div_mul]
    rw [show w + 1 + 1 - 2 = w by omega, hsecond, htwice, Nat.add_sub_cancel, hge]
    have hpos : 0x80 ≤ m / 256 ^ w → 0 < m := fun hle =>
      Nat.pos_of_ne_zero fun hzero => by rw [hzero, Nat.zero_div] at hle; exact absurd hle (by decide)
    omega

/-- Every string that is not empty is one of these. -/
theorem exists_encode (h : bs ≠ []) : ∃ neg w m, m < 0x80 * 256 ^ w ∧ bs = encode neg w m := by
  obtain ⟨init, b, rfl⟩ : ∃ init b, bs = init ++ [b] :=
    ⟨bs.dropLast, bs.getLast h, (List.dropLast_append_getLast h).symm⟩
  have hb := b.toNat_lt
  have hinit := ofBytes_lt init
  refine ⟨decide (0x80 ≤ b.toNat), init.length, ofBytes init + 256 ^ init.length * (b.toNat % 0x80), ?_, ?_⟩
  · have hle : 256 ^ init.length * (b.toNat % 0x80) ≤ 256 ^ init.length * 0x7f :=
      Nat.mul_le_mul_left _ (by omega)
    omega
  · have hdiv : (ofBytes init + 256 ^ init.length * (b.toNat % 0x80)) / 256 ^ init.length =
        b.toNat % 0x80 := by
      rw [Nat.add_mul_div_left _ _ (Nat.pow_pos (by decide)), Nat.div_eq_of_lt hinit, Nat.zero_add]
    have hlow : toBytes init.length (ofBytes init + 256 ^ init.length * (b.toNat % 0x80)) = init := by
      rw [← toBytes_mod, Nat.add_mul_mod_self_left, Nat.mod_eq_of_lt hinit, toBytes_ofBytes]
    have htop : UInt8.ofNat (b.toNat % 0x80 + if decide (0x80 ≤ b.toNat) then 0x80 else 0) = b := by
      refine UInt8.toNat_inj.mp ?_
      rw [UInt8.toNat_ofNat']
      by_cases hsign : 0x80 ≤ b.toNat
      · rw [if_pos (decide_eq_true hsign)]
        omega
      · rw [if_neg (by simpa using hsign)]
        omega
    rw [encode, hlow, topByte, hdiv, htop]

/-! ## Widths -/

theorem two_pow_sevenAbove (w : ℕ) : 2 ^ (7 + 8 * w) = 0x80 * 256 ^ w := by
  rw [pow_add, pow_mul]
  rfl

/-- The bytes that a number of some bits takes besides the highest one. -/
theorem fits_of_bits {bits : ℕ} (h : m < 2 ^ bits) : m < 0x80 * 256 ^ (bits / 8) := by
  rw [← two_pow_sevenAbove]
  exact h.trans_le (Nat.pow_le_pow_right Nat.two_pos (by omega))

theorem needs_of_bits {bits : ℕ} (h : 2 ^ (bits - 1) ≤ m) :
    bits / 8 = 0 ∨ 0x80 * 256 ^ (bits / 8 - 1) ≤ m := by
  by_cases hw : bits / 8 = 0
  · exact .inl hw
  · refine .inr (le_trans ?_ h)
    rw [← two_pow_sevenAbove]
    exact Nat.pow_le_pow_right Nat.two_pos (by omega)

/-! ## Shortest forms -/

theorem signed_eq_zero : signed neg m = 0 ↔ m = 0 := by
  cases neg <;> simp [signed]

@[simp] theorem natAbs_signed (neg : Bool) (m : ℕ) : (signed neg m).natAbs = m := by
  cases neg <;> simp [signed]

theorem signed_inj (hm : 0 < m) (h : signed neg m = signed neg' m') : neg = neg' ∧ m = m' := by
  cases neg <;> cases neg' <;> simp [signed] at h ⊢ <;> omega

theorem width_le (hm : m < 0x80 * 256 ^ w) (hw' : w' = 0 ∨ 0x80 * 256 ^ (w' - 1) ≤ m) : w' ≤ w := by
  by_contra hlt
  have hpow : 256 ^ w ≤ 256 ^ (w' - 1) := Nat.pow_le_pow_right (by decide) (by omega)
  omega

/-- Some magnitudes need more bytes. -/
theorem natAbs_value_lt (bs : List UInt8) : (value bs).natAbs < 0x80 * 256 ^ (bs.length - 1) := by
  by_cases hnil : bs = []
  · rw [hnil]
    decide
  · obtain ⟨neg, w, m, hm, rfl⟩ := exists_encode hnil
    rwa [value_encode hm, natAbs_signed, length_encode, Nat.add_sub_cancel]

theorem Tight.eq_nil (h : Tight bs) (hzero : value bs = 0) : bs = [] := by
  by_contra hne
  obtain ⟨neg, w, m, hm, rfl⟩ := exists_encode hne
  rw [value_encode hm, signed_eq_zero] at hzero
  exact absurd hzero ((tight_encode hm).mp h).1.ne'

/-- A number has one tight form. -/
theorem Tight.unique {as : List UInt8} (ha : Tight as) (hb : Tight bs) (h : value as = value bs) :
    as = bs := by
  by_cases hzero : value bs = 0
  · rw [ha.eq_nil (h.trans hzero), hb.eq_nil hzero]
  · have has : as ≠ [] := fun hnil => hzero (by rw [← h, hnil]; rfl)
    have hbs : bs ≠ [] := fun hnil => hzero (by rw [hnil]; rfl)
    obtain ⟨neg, w, m, hm, rfl⟩ := exists_encode has
    obtain ⟨neg', w', m', hm', rfl⟩ := exists_encode hbs
    obtain ⟨hpos, hlow⟩ := (tight_encode hm).mp ha
    obtain ⟨hpos', hlow'⟩ := (tight_encode hm').mp hb
    rw [value_encode hm, value_encode hm'] at h
    obtain ⟨rfl, rfl⟩ := signed_inj hpos h
    rw [Nat.le_antisymm (width_le hm' hlow) (width_le hm hlow')]

end SignMagnitude
