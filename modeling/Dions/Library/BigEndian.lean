import Dions.Library.Wire

/-! # Numbers with the highest byte first

The value of a string of bytes, and the shortest string for a number that is not negative, its highest
bit being the sign. -/

namespace BigEndian

open LittleEndian

variable {n : ℕ}

/-- The number that the bytes stand for, the highest one first. -/
def value (bs : List UInt8) : ℕ := ofBytes bs.reverse

@[simp] theorem value_nil : value [] = 0 := rfl

theorem ofBytes_append (a b : List UInt8) :
    ofBytes (a ++ b) = ofBytes a + 256 ^ a.length * ofBytes b := by
  induction a with
  | nil => simp [ofBytes]
  | cons x a ih =>
    rw [List.cons_append, ofBytes, ofBytes, ih, List.length_cons, pow_succ]
    ring

@[simp] theorem value_cons (b : UInt8) (bs : List UInt8) :
    value (b :: bs) = 256 ^ bs.length * b.toNat + value bs := by
  have hone : ofBytes [b] = b.toNat := by simp [ofBytes]
  rw [value, List.reverse_cons, ofBytes_append, hone, List.length_reverse, value]
  omega

theorem value_lt (bs : List UInt8) : value bs < 256 ^ bs.length := by
  have h := ofBytes_lt bs.reverse
  rwa [List.length_reverse] at h

/-- Strings of one length are known by their values. -/
theorem eq_of_value {a b : List UInt8} (hlength : a.length = b.length) (hvalue : value a = value b) :
    a = b := by
  have ha := toBytes_ofBytes a.reverse
  have hb := toBytes_ofBytes b.reverse
  rw [List.length_reverse] at ha hb
  apply List.reverse_injective
  rw [← ha, ← hb, hlength]
  exact congrArg (toBytes b.length) hvalue

/-- With a one in front the value tells the length as well. -/
theorem marked_injective : Function.Injective fun bs : List UInt8 => value (1 :: bs) := by
  have hshorter (a b : List UInt8) (h : value (1 :: a) = value (1 :: b)) : ¬a.length < b.length := by
    intro hlength
    have hpow : 256 ^ (a.length + 1) ≤ 256 ^ b.length := Nat.pow_le_pow_right (by decide) hlength
    have ha := value_lt a
    rw [value_cons, value_cons, UInt8.toNat_one, Nat.mul_one, Nat.mul_one] at h
    rw [pow_succ] at hpow
    omega
  intro a b h
  have hlength : a.length = b.length :=
    le_antisymm (Nat.not_lt.mp (hshorter b a h.symm)) (Nat.not_lt.mp (hshorter a b h))
  apply eq_of_value hlength
  simpa [value_cons, hlength] using h

/-! ## Numbers without a sign -/

/-- The lowest `w` bytes of a number, the highest of them first. -/
def toBytes (w n : ℕ) : List UInt8 := (LittleEndian.toBytes w n).reverse

/-- The number of bytes of a number, none for zero. -/
def width (n : ℕ) : ℕ := if n = 0 then 0 else n.log2 / 8 + 1

@[simp] theorem length_toBytes (w n : ℕ) : (toBytes w n).length = w := by
  rw [toBytes, List.length_reverse, LittleEndian.length_toBytes]

theorem value_toBytes {w : ℕ} (h : n < 256 ^ w) : value (toBytes w n) = n := by
  rw [value, toBytes, List.reverse_reverse, ofBytes_toBytes w n h]

theorem toBytes_value (bs : List UInt8) : toBytes bs.length (value bs) = bs := by
  have h := toBytes_ofBytes bs.reverse
  rw [List.length_reverse] at h
  rw [toBytes, value, h, List.reverse_reverse]

theorem width_le_iff {w : ℕ} : width n ≤ w ↔ n < 256 ^ w := by
  have hpow : (256 : ℕ) ^ w = 2 ^ (8 * w) := by
    rw [pow_mul]
    rfl
  rw [width, hpow]
  split
  · rename_i hzero
    exact iff_of_true (Nat.zero_le w) (hzero ▸ Nat.two_pow_pos _)
  · rename_i hne
    rw [← Nat.log2_lt hne]
    omega

theorem width_value_cons {b : UInt8} (hb : b ≠ 0) (bs : List UInt8) :
    width (value (b :: bs)) = bs.length + 1 := by
  have hpos : 0 < b.toNat := Nat.pos_of_ne_zero fun h => hb (UInt8.toNat_inj.mp h)
  refine Nat.le_antisymm (width_le_iff.mpr (value_lt (b :: bs))) ?_
  by_contra hshort
  have hlt := width_le_iff.mp (Nat.le_of_lt_succ (Nat.not_le.mp hshort))
  rw [value_cons] at hlt
  have hmul := Nat.mul_le_mul_left (256 ^ bs.length) hpos
  omega

@[simp] theorem value_replicate_append (k : ℕ) (bs : List UInt8) :
    value (List.replicate k 0 ++ bs) = value bs := by
  induction k with
  | zero => rfl
  | succ k ih =>
    rw [List.replicate_succ, List.cons_append, value_cons, ih, UInt8.toNat_zero, Nat.mul_zero,
      Nat.zero_add]

/-! ## Shortest encodings -/

/-- The bytes stand for a number that is not negative. -/
structure Encodes (n : ℕ) (bs : List UInt8) : Prop where
  value_eq : value bs = n
  sign : ∃ b rest, bs = b :: rest ∧ b.toNat < 128

/-- No other encoding of the number is shorter. -/
structure Minimal (n : ℕ) (bs : List UInt8) : Prop where
  encodes : Encodes n bs
  shortest : ∀ bs', Encodes n bs' → bs.length ≤ bs'.length

/-- A number has one shortest encoding. -/
theorem Minimal.unique {a b : List UInt8} (ha : Minimal n a) (hb : Minimal n b) : a = b := by
  have hlength : a.length = b.length :=
    le_antisymm (ha.shortest b hb.encodes) (hb.shortest a ha.encodes)
  exact eq_of_value hlength (ha.encodes.value_eq.trans hb.encodes.value_eq.symm)

/-- A byte in front that says nothing: a zero that is not needed for the sign. -/
def Padded : List UInt8 → Prop
  | b :: c :: _ => b.toNat = 0 ∧ c.toNat < 128
  | _ => False

theorem Encodes.value_lt {bs : List UInt8} (h : Encodes n bs) :
    n < 128 * 256 ^ (bs.length - 1) := by
  obtain ⟨b, rest, rfl, hb⟩ := h.sign
  have hrest := BigEndian.value_lt rest
  have hhead : 256 ^ rest.length * (b.toNat + 1) ≤ 256 ^ rest.length * 128 :=
    Nat.mul_le_mul_left _ hb
  rw [← h.value_eq, value_cons, List.length_cons, Nat.add_sub_cancel]
  rw [Nat.mul_add, Nat.mul_one] at hhead
  omega

theorem minimal_iff {bs : List UInt8} (h : Encodes n bs) : Minimal n bs ↔ ¬Padded bs := by
  constructor
  · intro hminimal hpadded
    match bs, hpadded with
    | b :: c :: rest, ⟨hb, hc⟩ =>
      have hshorter : Encodes n (c :: rest) := by
        refine ⟨?_, c, rest, rfl, hc⟩
        rw [← h.value_eq, value_cons b, hb, Nat.mul_zero, Nat.zero_add]
      have hle := hminimal.shortest _ hshorter
      rw [List.length_cons] at hle
      omega
  · intro hpadded
    refine ⟨h, fun bs' h' => ?_⟩
    by_contra hshorter
    obtain ⟨b', rest', hbs', _⟩ := h'.sign
    have hbound := h'.value_lt
    match bs, h, hpadded with
    | [], h, _ =>
      obtain ⟨b, rest, hbs, _⟩ := h.sign
      simp at hbs
    | [b], _, _ =>
      simp [hbs'] at hshorter
    | b :: c :: rest, h, hpadded =>
      -- the value does not fit into fewer bytes
      have hlarge : 128 * 256 ^ rest.length ≤ n := by
        rw [← h.value_eq, value_cons, value_cons, List.length_cons, pow_succ]
        by_cases hb : b.toNat = 0
        · have hc : 128 ≤ c.toNat := by
            by_contra hlow
            exact hpadded ⟨hb, Nat.not_le.mp hlow⟩
          have := Nat.mul_le_mul_left (256 ^ rest.length) hc
          omega
        · have hpos : 1 ≤ b.toNat := Nat.pos_of_ne_zero hb
          have := Nat.mul_le_mul_left (256 ^ rest.length * 256) hpos
          omega
      have hexponent : bs'.length - 1 ≤ rest.length := by
        rw [List.length_cons, List.length_cons] at hshorter
        omega
      have hpow : 256 ^ (bs'.length - 1) ≤ 256 ^ rest.length :=
        Nat.pow_le_pow_right (by decide) hexponent
      omega

/-- A string of bytes is shortest for its own value unless it has a sign or a padding. -/
theorem minimal_cons_iff {b : UInt8} {rest : List UInt8} :
    Minimal (value (b :: rest)) (b :: rest) ↔ b.toNat < 128 ∧ ¬Padded (b :: rest) := by
  constructor
  · intro h
    obtain ⟨b', rest', heq, hb'⟩ := h.encodes.sign
    rw [← (List.cons.inj heq).1] at hb'
    exact ⟨hb', (minimal_iff h.encodes).mp h⟩
  · rintro ⟨hsign, hpadded⟩
    exact (minimal_iff ⟨rfl, b, rest, rfl, hsign⟩).mpr hpadded

end BigEndian
