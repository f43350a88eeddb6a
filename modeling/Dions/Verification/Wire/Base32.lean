import Dions.Model.Base58

/-! # What base 32 writes is read back

Between two bytes the decoder holds the bits of the pending byte that were written, and the encoder holds
the others. -/

namespace Dions

variable {k n : ℕ} {mode mode' : Fin 8} {p pch : List UInt8}

/-! ## Bits -/

theorem shiftLeft_or_eq {x y : ℕ} (hy : y < 2 ^ k) : x <<< k ||| y = x * 2 ^ k + y := by
  rw [Nat.shiftLeft_eq, Nat.mul_comm, Nat.two_pow_add_eq_or_of_lt hy]

theorem high_or_low (x k : ℕ) : x >>> k <<< k ||| (x &&& 2 ^ k - 1) = x := by
  rw [Nat.and_two_pow_sub_one_eq_mod, shiftLeft_or_eq (Nat.mod_lt x (Nat.two_pow_pos k)),
    Nat.shiftRight_eq_div_pow, Nat.div_add_mod']

section Pending

variable {j k n : ℕ} (b c : UInt8) (hkj : k + j = 5) (hjn : j + n = 8)

/-- The character that the lower bits of a byte share with the upper bits of the next one. -/
theorem shared_eq (hjn : j + n = 8) :
    (b.toNat &&& 2 ^ k - 1) <<< j ||| c.toNat >>> n = b.toNat % 2 ^ k * 2 ^ j + c.toNat / 2 ^ n := by
  have hc : c.toNat < 2 ^ n * 2 ^ j := by
    rw [← pow_add, Nat.add_comm, hjn]
    exact c.toNat_lt
  rw [Nat.and_two_pow_sub_one_eq_mod, Nat.shiftRight_eq_div_pow, shiftLeft_or_eq (Nat.div_lt_of_lt_mul hc)]

include hjn in
theorem upper_lt : c.toNat / 2 ^ n < 2 ^ j := by
  refine Nat.div_lt_of_lt_mul ?_
  rw [← pow_add, Nat.add_comm, hjn]
  exact c.toNat_lt

include hkj hjn in
theorem shared_lt : (b.toNat &&& 2 ^ k - 1) <<< j ||| c.toNat >>> n < 32 := by
  have hb : b.toNat % 2 ^ k < 2 ^ k := Nat.mod_lt _ (Nat.two_pow_pos k)
  have hc := upper_lt c hjn
  rw [shared_eq b c hjn]
  calc b.toNat % 2 ^ k * 2 ^ j + c.toNat / 2 ^ n < b.toNat % 2 ^ k * 2 ^ j + 2 ^ j := by omega
    _ = (b.toNat % 2 ^ k + 1) * 2 ^ j := (Nat.succ_mul _ _).symm
    _ ≤ 2 ^ k * 2 ^ j := Nat.mul_le_mul_right _ hb
    _ = 2 ^ 5 := by rw [← pow_add, hkj]

include hjn in
/-- The shared digit completes the pending byte. -/
theorem shared_completes :
    b.toNat >>> k <<< k ||| ((b.toNat &&& 2 ^ k - 1) <<< j ||| c.toNat >>> n) >>> j = b.toNat := by
  have hhigh : (b.toNat % 2 ^ k * 2 ^ j + c.toNat / 2 ^ n) / 2 ^ j = b.toNat % 2 ^ k := by
    rw [Nat.mul_comm, Nat.mul_add_div (Nat.two_pow_pos j), Nat.div_eq_of_lt (upper_lt c hjn), Nat.add_zero]
  rw [shared_eq b c hjn, Nat.shiftRight_eq_div_pow _ j, hhigh, ← Nat.and_two_pow_sub_one_eq_mod, high_or_low]

include hjn in
theorem shared_left :
    ((b.toNat &&& 2 ^ k - 1) <<< j ||| c.toNat >>> n) &&& 2 ^ j - 1 = c.toNat >>> n := by
  rw [shared_eq b c hjn, Nat.and_two_pow_sub_one_eq_mod, Nat.add_comm, Nat.add_mul_mod_self_right,
    Nat.mod_eq_of_lt (upper_lt c hjn), Nat.shiftRight_eq_div_pow]

end Pending

theorem decode32_base32Char (hn : n < 32) : decode32 (base32Char n) = some n := by
  have hall : ∀ n : Fin 32, decode32 (base32Char n) = some n.val := by decide
  exact hall ⟨n, hn⟩

/-! ## Reading the characters between two bytes -/

theorem decodeLoop32_base32Char {left dec : ℕ} (hdec : dec < 32) :
    decodeLoop32 mode left (base32Char dec :: p) = match mode with
      | 0 => decodeLoop32 1 dec p
      | 1 => (decodeLoop32 2 (dec &&& 3) p).push (left <<< 3 ||| dec >>> 2)
      | 2 => decodeLoop32 3 (left <<< 5 ||| dec) p
      | 3 => (decodeLoop32 4 (dec &&& 15) p).push (left <<< 1 ||| dec >>> 4)
      | 4 => (decodeLoop32 5 (dec &&& 1) p).push (left <<< 4 ||| dec >>> 1)
      | 5 => decodeLoop32 6 (left <<< 5 ||| dec) p
      | 6 => (decodeLoop32 7 (dec &&& 7) p).push (left <<< 2 ||| dec >>> 3)
      | 7 => (decodeLoop32 0 left p).push (left <<< 5 ||| dec) := by
  have hdigit := decode32_base32Char hdec
  rw [decodeLoop32]
  split
  case h_1 hnone => rw [hdigit] at hnone; cases hnone
  case h_2 dec' hsome =>
    obtain rfl : dec = dec' := Option.some.inj (hdigit.symm.trans hsome)
    rfl

section Bytes

variable (b c : UInt8) (p : List UInt8)

theorem decodeLoop32_first (left : ℕ) :
    decodeLoop32 0 left (base32Char (b.toNat >>> 3) :: p) = decodeLoop32 1 (b.toNat >>> 3) p := by
  have hb := b.toNat_lt
  rw [decodeLoop32_base32Char]
  rw [Nat.shiftRight_eq_div_pow]
  omega

/-! The characters that two bytes share. -/

/-- One round completes the pending byte and keeps the upper bits of the next one. -/
theorem decodeLoop32_shared {j : ℕ} (hkj : k + j = 5) (hjn : j + n = 8)
    (hround : ∀ left dec, dec < 32 → decodeLoop32 mode left (base32Char dec :: p) =
      (decodeLoop32 mode' (dec &&& 2 ^ j - 1) p).push (left <<< k ||| dec >>> j)) :
    decodeLoop32 mode (b.toNat >>> k)
        (base32Char ((b.toNat &&& 2 ^ k - 1) <<< j ||| c.toNat >>> n) :: p) =
      (decodeLoop32 mode' (c.toNat >>> n) p).push b.toNat := by
  rw [hround _ _ (shared_lt b c hkj hjn), shared_completes b c hjn, shared_left b c hjn]

theorem decodeLoop32_second :
    decodeLoop32 1 (b.toNat >>> 3) (base32Char ((b.toNat &&& 7) <<< 2 ||| c.toNat >>> 6) :: p) =
      (decodeLoop32 2 (c.toNat >>> 6) p).push b.toNat :=
  decodeLoop32_shared b c p rfl rfl fun _ _ hdec => decodeLoop32_base32Char hdec

theorem decodeLoop32_fourth :
    decodeLoop32 3 (b.toNat >>> 1) (base32Char ((b.toNat &&& 1) <<< 4 ||| c.toNat >>> 4) :: p) =
      (decodeLoop32 4 (c.toNat >>> 4) p).push b.toNat :=
  decodeLoop32_shared b c p rfl rfl fun _ _ hdec => decodeLoop32_base32Char hdec

theorem decodeLoop32_fifth :
    decodeLoop32 4 (b.toNat >>> 4) (base32Char ((b.toNat &&& 15) <<< 1 ||| c.toNat >>> 7) :: p) =
      (decodeLoop32 5 (c.toNat >>> 7) p).push b.toNat :=
  decodeLoop32_shared b c p rfl rfl fun _ _ hdec => decodeLoop32_base32Char hdec

theorem decodeLoop32_seventh :
    decodeLoop32 6 (b.toNat >>> 2) (base32Char ((b.toNat &&& 3) <<< 3 ||| c.toNat >>> 5) :: p) =
      (decodeLoop32 7 (c.toNat >>> 5) p).push b.toNat :=
  decodeLoop32_shared b c p rfl rfl fun _ _ hdec => decodeLoop32_base32Char hdec

/-! The characters that lie within a byte. -/

theorem decodeLoop32_third :
    decodeLoop32 2 (c.toNat >>> 6) (base32Char (c.toNat >>> 1 &&& 31) :: p) =
      decodeLoop32 3 (c.toNat >>> 1) p := by
  have hnext : c.toNat >>> 6 <<< 5 ||| (c.toNat >>> 1 &&& 31) = c.toNat >>> 1 := by
    rw [Nat.shiftRight_add _ 1 5]
    exact high_or_low _ 5
  rw [decodeLoop32_base32Char (Nat.and_lt_two_pow _ (by decide : 31 < 2 ^ 5))]
  dsimp only
  rw [hnext]

theorem decodeLoop32_sixth :
    decodeLoop32 5 (c.toNat >>> 7) (base32Char (c.toNat >>> 2 &&& 31) :: p) =
      decodeLoop32 6 (c.toNat >>> 2) p := by
  have hnext : c.toNat >>> 7 <<< 5 ||| (c.toNat >>> 2 &&& 31) = c.toNat >>> 2 := by
    rw [Nat.shiftRight_add _ 2 5]
    exact high_or_low _ 5
  rw [decodeLoop32_base32Char (Nat.and_lt_two_pow _ (by decide : 31 < 2 ^ 5))]
  dsimp only
  rw [hnext]

theorem decodeLoop32_eighth :
    decodeLoop32 7 (c.toNat >>> 5) (base32Char (c.toNat &&& 31) :: p) =
      (decodeLoop32 0 (c.toNat >>> 5) p).push c.toNat := by
  have hnext : c.toNat >>> 5 <<< 5 ||| (c.toNat &&& 31) = c.toNat := high_or_low _ 5
  rw [decodeLoop32_base32Char (Nat.and_lt_two_pow _ (by decide : 31 < 2 ^ 5))]
  dsimp only
  rw [hnext]

end Bytes

/-! ## All bytes -/

/-- The loop has put out the bytes, and what is left is no error. -/
def Decoded32.Clean (r : Decoded32) (vch : List UInt8) : Prop := r.vchRet = vch ∧ r.fInvalid = false

theorem Decoded32.Clean.push {r : Decoded32} {vch : List UInt8} (h : r.Clean vch) (b : UInt8) :
    (r.push b.toNat).Clean (b :: vch) := by
  refine ⟨?_, h.2⟩
  rw [Decoded32.push, h.1, UInt8.ofNat_toNat]

/-- The encoding of the bytes that follow a pending one completes it and is read back. -/
structure ReadBack32 (pch : List UInt8) : Prop where
  zero : ∀ left left', (decodeLoop32 0 left (encodeLoop32 0 left' pch)).Clean pch
  one : ∀ b : UInt8,
    (decodeLoop32 1 (b.toNat >>> 3) (encodeLoop32 1 ((b.toNat &&& 7) <<< 2) pch)).Clean (b :: pch)
  two : ∀ b : UInt8,
    (decodeLoop32 3 (b.toNat >>> 1) (encodeLoop32 2 ((b.toNat &&& 1) <<< 4) pch)).Clean (b :: pch)
  three : ∀ b : UInt8,
    (decodeLoop32 4 (b.toNat >>> 4) (encodeLoop32 3 ((b.toNat &&& 15) <<< 1) pch)).Clean (b :: pch)
  four : ∀ b : UInt8,
    (decodeLoop32 6 (b.toNat >>> 2) (encodeLoop32 4 ((b.toNat &&& 3) <<< 3) pch)).Clean (b :: pch)

/-- Behind the last byte zeros are shared with it, and the padding of the mode follows. -/
theorem clean_padded {left shared : ℕ} {b : UInt8} (hpads : (decodeLoop32 mode' 0 p).Clean [])
    (hchar : decodeLoop32 mode left (base32Char (shared ||| 0) :: p) = (decodeLoop32 mode' 0 p).push b.toNat) :
    (decodeLoop32 mode left (base32Char shared :: p)).Clean [b] := by
  rw [Nat.or_zero] at hchar
  rw [hchar]
  exact hpads.push b

theorem readBack32_nil : ReadBack32 [] where
  zero _ _ := ⟨rfl, rfl⟩
  one b := by
    have hpads : (decodeLoop32 2 0 (List.replicate 6 padChar)).Clean [] := ⟨rfl, by decide⟩
    exact clean_padded hpads (decodeLoop32_second b 0 (List.replicate 6 padChar))
  two b := by
    have hpads : (decodeLoop32 4 0 (List.replicate 4 padChar)).Clean [] := ⟨rfl, by decide⟩
    exact clean_padded hpads (decodeLoop32_fourth b 0 (List.replicate 4 padChar))
  three b := by
    have hpads : (decodeLoop32 5 0 (List.replicate 3 padChar)).Clean [] := ⟨rfl, by decide⟩
    exact clean_padded hpads (decodeLoop32_fifth b 0 (List.replicate 3 padChar))
  four b := by
    have hpads : (decodeLoop32 7 0 (List.replicate 1 padChar)).Clean [] := ⟨rfl, by decide⟩
    exact clean_padded hpads (decodeLoop32_seventh b 0 (List.replicate 1 padChar))

theorem ReadBack32.cons {pch : List UInt8} (h : ReadBack32 pch) (c : UInt8) : ReadBack32 (c :: pch) where
  zero left left' := by
    rw [encodeLoop32, decodeLoop32_first]
    exact h.one c
  one b := by
    rw [encodeLoop32, decodeLoop32_second, decodeLoop32_third]
    exact (h.two c).push b
  two b := by
    rw [encodeLoop32, decodeLoop32_fourth]
    exact (h.three c).push b
  three b := by
    rw [encodeLoop32, decodeLoop32_fifth, decodeLoop32_sixth]
    exact (h.four c).push b
  four b := by
    rw [encodeLoop32, decodeLoop32_seventh, decodeLoop32_eighth]
    exact ((h.zero _ _).push c).push b

theorem readBack32 (pch : List UInt8) : ReadBack32 pch := by
  induction pch with
  | nil => exact readBack32_nil
  | cons c pch ih => exact ih.cons c

/-- Every string of bytes comes back, without the flag. -/
theorem DecodeBase32_EncodeBase32 (pch : List UInt8) : DecodeBase32 (EncodeBase32 pch) = (pch, false) := by
  obtain ⟨hbytes, hflag⟩ := (readBack32 pch).zero 0 0
  rw [DecodeBase32, EncodeBase32, hbytes, hflag]

/-! ## The characters -/

theorem base32Char_mem (hn : n < 32) : base32Char n ∈ padChar :: pbase32 := by
  have hall : ∀ n : Fin 32, base32Char n ∈ padChar :: pbase32 := by decide
  exact hall ⟨n, hn⟩

theorem upper_lt_32 (b : UInt8) {n : ℕ} (hn : 3 ≤ n) : b.toNat >>> n < 2 ^ 5 := by
  rw [Nat.shiftRight_eq_div_pow]
  refine Nat.div_lt_of_lt_mul ?_
  calc b.toNat < 2 ^ 8 := b.toNat_lt
    _ ≤ 2 ^ (n + 5) := Nat.pow_le_pow_right (by decide) (by omega)
    _ = 2 ^ n * 2 ^ 5 := pow_add 2 n 5

theorem lower_lt_32 (b : UInt8) {m j : ℕ} (hm : m <<< j < 2 ^ 5) : (b.toNat &&& m) <<< j < 2 ^ 5 := by
  refine lt_of_le_of_lt ?_ hm
  rw [Nat.shiftLeft_eq, Nat.shiftLeft_eq]
  exact Nat.mul_le_mul_right _ Nat.and_le_right

theorem mem_encodeLoop32 {mode : Fin 5} {left : ℕ} (hleft : left < 2 ^ 5) :
    ∀ c ∈ encodeLoop32 mode left pch, c ∈ padChar :: pbase32 := by
  have hmiddle (n : ℕ) : n &&& 31 < 2 ^ 5 := Nat.and_lt_two_pow n (by decide)
  have hshared {l : ℕ} (hl : l < 2 ^ 5) (b : UInt8) {n : ℕ} (hn : 3 ≤ n) : l ||| b.toNat >>> n < 2 ^ 5 :=
    Nat.or_lt_two_pow hl (upper_lt_32 b hn)
  induction pch generalizing mode left with
  | nil =>
    rw [encodeLoop32]
    by_cases hmode : mode ≠ 0
    · rw [if_pos hmode]
      refine List.forall_mem_cons.mpr ⟨base32Char_mem hleft, fun c hc => ?_⟩
      exact (List.eq_of_mem_replicate hc) ▸ List.mem_cons_self
    · rw [if_neg hmode]
      exact fun c hc => absurd hc List.not_mem_nil
  | cons b pch ih =>
    match mode with
    | 0 =>
      have hrest := @ih 1 _ (lower_lt_32 b (by decide : 7 <<< 2 < 2 ^ 5))
      exact List.forall_mem_cons.mpr ⟨base32Char_mem (upper_lt_32 b (by decide)), hrest⟩
    | 1 =>
      have hrest := @ih 2 _ (lower_lt_32 b (by decide : 1 <<< 4 < 2 ^ 5))
      exact List.forall_mem_cons.mpr ⟨base32Char_mem (hshared hleft b (by decide)),
        List.forall_mem_cons.mpr ⟨base32Char_mem (hmiddle _), hrest⟩⟩
    | 2 =>
      have hrest := @ih 3 _ (lower_lt_32 b (by decide : 15 <<< 1 < 2 ^ 5))
      exact List.forall_mem_cons.mpr ⟨base32Char_mem (hshared hleft b (by decide)), hrest⟩
    | 3 =>
      have hrest := @ih 4 _ (lower_lt_32 b (by decide : 3 <<< 3 < 2 ^ 5))
      exact List.forall_mem_cons.mpr ⟨base32Char_mem (hshared hleft b (by decide)),
        List.forall_mem_cons.mpr ⟨base32Char_mem (hmiddle _), hrest⟩⟩
    | 4 =>
      exact List.forall_mem_cons.mpr ⟨base32Char_mem (hshared hleft b (by decide)),
        List.forall_mem_cons.mpr ⟨base32Char_mem (hmiddle _), @ih 0 left hleft⟩⟩

theorem mem_EncodeBase32 {c : UInt8} (hc : c ∈ EncodeBase32 pch) :
    c ∈ padChar :: pbase32 := mem_encodeLoop32 (by decide) c hc

/-! ## Base 64

What is accepted is what the encoder writes, and then a character that is no digit. -/

theorem decode64_base64Char (hn : n < 64) : decode64 (base64Char n) = some n := by
  have hall : ∀ n : Fin 64, decode64 (base64Char n) = some n.val := by decide +kernel
  exact hall ⟨n, hn⟩

/-- A digit is the character of its number. -/
def decode64Exact (n : ℕ) : Bool :=
  (decode64 (UInt8.ofNat n)).all fun dec => dec < 64 && base64Char dec == UInt8.ofNat n

theorem base64Char_of_decode64 {c : UInt8} {dec : ℕ} (h : decode64 c = some dec) :
    dec < 64 ∧ base64Char dec = c := by
  have hall : (List.range 256).all decode64Exact = true := by decide +kernel
  have hc := List.all_eq_true.mp hall c.toNat (List.mem_range.mpr c.toNat_lt)
  rw [decode64Exact, UInt8.ofNat_toNat, h, Option.all_some, Bool.and_eq_true, decide_eq_true_eq,
    beq_iff_eq] at hc
  exact hc

/-- What stands behind the digits. -/
def NoDigit64 (rest : List UInt8) : Prop := decode64 (rest.getD 0 0) = none

theorem noDigit64_pad (rest : List UInt8) : NoDigit64 (padChar :: rest) := by
  have hpad : decode64 padChar = none := by decide
  exact hpad

theorem decodeLoop64_base64Char {mode : Fin 4} {left dec : ℕ} {p : List UInt8} (hdec : dec < 64) :
    decodeLoop64 mode left (base64Char dec :: p) = match mode with
      | 0 => decodeLoop64 1 dec p
      | 1 => (decodeLoop64 2 (dec &&& 15) p).push (left <<< 2 ||| dec >>> 4)
      | 2 => (decodeLoop64 3 (dec &&& 3) p).push (left <<< 4 ||| dec >>> 2)
      | 3 => (decodeLoop64 0 left p).push (left <<< 6 ||| dec) := by
  have hdigit := decode64_base64Char hdec
  rw [decodeLoop64]
  split
  case h_1 hnone => rw [hdigit] at hnone; cases hnone
  case h_2 dec' hsome =>
    obtain rfl : dec = dec' := Option.some.inj (hdigit.symm.trans hsome)
    rfl

/-- The loop has put out the bytes, and what is left is no error. -/
def Decoded64.Clean (r : Decoded64) (vch : List UInt8) : Prop := r.vchRet = vch ∧ r.fInvalid = false

theorem Decoded64.Clean.push {r : Decoded64} {vch : List UInt8} (h : r.Clean vch) (b : UInt8) :
    (r.push b.toNat).Clean (b :: vch) := by
  refine ⟨?_, h.2⟩
  rw [Decoded64.push, h.1, UInt8.ofNat_toNat]

/-! ### Reading what was written -/

section Written

variable {rest : List UInt8}

theorem decodeLoop64_end (hrest : NoDigit64 rest) (mode : Fin 4) (left : ℕ) :
    decodeLoop64 mode left rest = ⟨[], mode, left, rest⟩ := by
  cases rest with
  | nil => rfl
  | cons c rest =>
    have hc : decode64 c = none := hrest
    rw [decodeLoop64, hc]

theorem decodeLoop64_shared (b c : UInt8) (p : List UInt8) {j k n : ℕ} {mode mode' : Fin 4}
    (hkj : k + j = 6) (hjn : j + n = 8)
    (hround : ∀ left dec, dec < 64 → decodeLoop64 mode left (base64Char dec :: p) =
      (decodeLoop64 mode' (dec &&& 2 ^ j - 1) p).push (left <<< k ||| dec >>> j)) :
    decodeLoop64 mode (b.toNat >>> k)
        (base64Char ((b.toNat &&& 2 ^ k - 1) <<< j ||| c.toNat >>> n) :: p) =
      (decodeLoop64 mode' (c.toNat >>> n) p).push b.toNat := by
  have hlt : (b.toNat &&& 2 ^ k - 1) <<< j ||| c.toNat >>> n < 2 ^ 6 := by
    refine Nat.or_lt_two_pow ?_ (lt_of_lt_of_le ?_ (Nat.pow_le_pow_right (by decide) (by omega : j ≤ 6)))
    · rw [Nat.and_two_pow_sub_one_eq_mod, Nat.shiftLeft_eq, ← hkj, pow_add]
      exact Nat.mul_lt_mul_of_pos_right (Nat.mod_lt _ (Nat.two_pow_pos k)) (Nat.two_pow_pos j)
    · rw [Nat.shiftRight_eq_div_pow]
      exact upper_lt c hjn
  rw [hround _ _ hlt, shared_completes b c hjn, shared_left b c hjn]

/-- The encoding of the bytes that follow a pending one completes it and is read back. -/
structure ReadBack64 (rest pch : List UInt8) : Prop where
  zero : ∀ left left', (decodeLoop64 0 left (encodeLoop64 0 left' pch ++ rest)).Clean pch
  one : ∀ b : UInt8,
    (decodeLoop64 1 (b.toNat >>> 2) (encodeLoop64 1 ((b.toNat &&& 3) <<< 4) pch ++ rest)).Clean (b :: pch)
  two : ∀ b : UInt8,
    (decodeLoop64 2 (b.toNat >>> 4) (encodeLoop64 2 ((b.toNat &&& 15) <<< 2) pch ++ rest)).Clean (b :: pch)

theorem readBack64_nil (hrest : NoDigit64 rest) : ReadBack64 rest [] where
  zero left left' := by
    have hend := decodeLoop64_end hrest 0 left
    exact hend ▸ ⟨rfl, rfl⟩
  one b := by
    have hpads : (decodeLoop64 2 0 (padChar :: padChar :: rest)).Clean [] := by
      rw [decodeLoop64_end (noDigit64_pad _)]
      refine ⟨rfl, ?_⟩
      simpa [Decoded64.fInvalid, NoDigit64] using hrest
    have hchar := decodeLoop64_shared b 0 (padChar :: padChar :: rest) (k := 2) (j := 4) (n := 4) rfl rfl
      (fun _ _ hdec => @decodeLoop64_base64Char 1 _ _ _ hdec)
    have hshared : (b.toNat &&& 2 ^ 2 - 1) <<< 4 ||| (0 : UInt8).toNat >>> 4 = (b.toNat &&& 3) <<< 4 :=
      Nat.or_zero _
    rw [hshared] at hchar
    have hclean := hpads.push b
    exact hchar ▸ hclean
  two b := by
    have hpads : (decodeLoop64 3 0 (padChar :: rest)).Clean [] := by
      rw [decodeLoop64_end (noDigit64_pad _)]
      refine ⟨rfl, ?_⟩
      simpa [Decoded64.fInvalid, NoDigit64] using hrest
    have hchar := decodeLoop64_shared b 0 (padChar :: rest) (k := 4) (j := 2) (n := 6) rfl rfl
      (fun _ _ hdec => @decodeLoop64_base64Char 2 _ _ _ hdec)
    have hshared : (b.toNat &&& 2 ^ 4 - 1) <<< 2 ||| (0 : UInt8).toNat >>> 6 = (b.toNat &&& 15) <<< 2 :=
      Nat.or_zero _
    rw [hshared] at hchar
    have hclean := hpads.push b
    exact hchar ▸ hclean

theorem ReadBack64.cons {pch : List UInt8} (h : ReadBack64 rest pch) (c : UInt8) :
    ReadBack64 rest (c :: pch) where
  zero left left' := by
    have hc := c.toNat_lt
    have hfirst : c.toNat >>> 2 < 64 := by
      rw [Nat.shiftRight_eq_div_pow]
      omega
    rw [encodeLoop64, List.cons_append, decodeLoop64_base64Char hfirst]
    exact h.one c
  one b := by
    have hchar := decodeLoop64_shared b c (encodeLoop64 2 ((c.toNat &&& 15) <<< 2) pch ++ rest)
      (k := 2) (j := 4) (n := 4) rfl rfl (fun _ _ hdec => @decodeLoop64_base64Char 1 _ _ _ hdec)
    rw [encodeLoop64, List.cons_append]
    exact hchar ▸ (h.two c).push b
  two b := by
    have hchar := decodeLoop64_shared b c
      (base64Char (c.toNat &&& 63) :: (encodeLoop64 0 ((b.toNat &&& 15) <<< 2) pch ++ rest))
      (k := 4) (j := 2) (n := 6) rfl rfl (fun _ _ hdec => @decodeLoop64_base64Char 2 _ _ _ hdec)
    have hlast : decodeLoop64 3 (c.toNat >>> 6)
        (base64Char (c.toNat &&& 63) :: (encodeLoop64 0 ((b.toNat &&& 15) <<< 2) pch ++ rest)) =
          (decodeLoop64 0 (c.toNat >>> 6)
            (encodeLoop64 0 ((b.toNat &&& 15) <<< 2) pch ++ rest)).push c.toNat := by
      rw [decodeLoop64_base64Char (Nat.and_lt_two_pow _ (by decide : 63 < 2 ^ 6))]
      have hjoined : c.toNat >>> 6 <<< 6 ||| (c.toNat &&& 63) = c.toNat := high_or_low c.toNat 6
      dsimp only
      rw [hjoined]
    rw [hlast] at hchar
    rw [encodeLoop64, List.cons_append, List.cons_append]
    exact hchar ▸ ((h.zero _ _).push c).push b

theorem readBack64 (hrest : NoDigit64 rest) (pch : List UInt8) : ReadBack64 rest pch := by
  induction pch with
  | nil => exact readBack64_nil hrest
  | cons c pch ih => exact ih.cons c

end Written

/-! ### Writing what was read -/

/-- The two parts of a byte that is put together. -/
theorem parts_of_joined {high low : ℕ} (hhigh : high < 2 ^ (8 - k)) (hlow : low < 2 ^ k)
    (hk : k ≤ 8) :
    (UInt8.ofNat (high <<< k ||| low)).toNat >>> k = high ∧
      (UInt8.ofNat (high <<< k ||| low)).toNat &&& 2 ^ k - 1 = low := by
  have hlt : high * 2 ^ k + low < 256 :=
    calc high * 2 ^ k + low < (high + 1) * 2 ^ k := by rw [Nat.succ_mul]; omega
      _ ≤ 2 ^ (8 - k) * 2 ^ k := Nat.mul_le_mul_right _ hhigh
      _ = 2 ^ 8 := by rw [← pow_add, Nat.sub_add_cancel hk]
  have hbyte : (UInt8.ofNat (high <<< k ||| low)).toNat = high * 2 ^ k + low := by
    rw [shiftLeft_or_eq hlow, UInt8.toNat_ofNat', Nat.mod_eq_of_lt hlt]
  rw [hbyte, Nat.shiftRight_eq_div_pow, Nat.and_two_pow_sub_one_eq_mod]
  constructor
  · rw [Nat.mul_comm, Nat.mul_add_div (Nat.two_pow_pos k), Nat.div_eq_of_lt hlow, Nat.add_zero]
  · rw [Nat.add_comm, Nat.add_mul_mod_self_right, Nat.mod_eq_of_lt hlow]

/-- What the loop accepts from a mode on is written again, the pending character first. -/
structure WrittenAgain64 (p : List UInt8) : Prop where
  zero : ∀ left left', (decodeLoop64 0 left p).fInvalid = false →
    ∃ rest, p = encodeLoop64 0 left' (decodeLoop64 0 left p).vchRet ++ rest ∧ NoDigit64 rest
  one : ∀ left left', left < 64 → (decodeLoop64 1 left p).fInvalid = false →
    ∃ rest, base64Char left :: p = encodeLoop64 0 left' (decodeLoop64 1 left p).vchRet ++ rest ∧
      NoDigit64 rest
  two : ∀ left high, left < 16 → high < 4 → (decodeLoop64 2 left p).fInvalid = false →
    ∃ rest, base64Char (high <<< 4 ||| left) :: p =
      encodeLoop64 1 (high <<< 4) (decodeLoop64 2 left p).vchRet ++ rest ∧ NoDigit64 rest
  three : ∀ left high, left < 4 → high < 16 → (decodeLoop64 3 left p).fInvalid = false →
    ∃ rest, base64Char (high <<< 2 ||| left) :: p =
      encodeLoop64 2 (high <<< 2) (decodeLoop64 3 left p).vchRet ++ rest ∧ NoDigit64 rest

/-- The loop ends in front of a character that is no digit. -/
theorem writtenAgain64_end (hend : NoDigit64 p) : WrittenAgain64 p where
  zero left left' _ := by
    rw [decodeLoop64_end hend]
    exact ⟨p, rfl, hend⟩
  one left left' _ hvalid := by
    rw [decodeLoop64_end hend] at hvalid
    exact absurd hvalid (by simp [Decoded64.fInvalid])
  two left high _ _ hvalid := by
    rw [decodeLoop64_end hend] at hvalid ⊢
    simp only [Decoded64.fInvalid, Bool.or_eq_false_iff, bne_eq_false_iff_eq,
      Option.isSome_eq_false_iff, Option.isNone_iff_eq_none] at hvalid
    obtain ⟨⟨⟨rfl, hpad⟩, hpad'⟩, hnone⟩ := hvalid
    cases p with
    | nil => exact absurd hpad (by decide)
    | cons c p =>
      cases p with
      | nil =>
        have hzero : (0 : UInt8) = padChar := hpad'
        exact absurd hzero (by decide)
      | cons c' rest =>
        have hc : c = padChar := hpad
        have hc' : c' = padChar := hpad'
        exact ⟨rest, by rw [hc, hc', Nat.or_zero]; rfl, hnone⟩
  three left high _ _ hvalid := by
    rw [decodeLoop64_end hend] at hvalid ⊢
    simp only [Decoded64.fInvalid, Bool.or_eq_false_iff, bne_eq_false_iff_eq,
      Option.isSome_eq_false_iff, Option.isNone_iff_eq_none] at hvalid
    obtain ⟨⟨rfl, hpad⟩, hnone⟩ := hvalid
    cases p with
    | nil => exact absurd hpad (by decide)
    | cons c rest =>
      have hc : c = padChar := hpad
      exact ⟨rest, by rw [hc, Nat.or_zero]; rfl, hnone⟩

theorem WrittenAgain64.cons {p : List UInt8} (h : WrittenAgain64 p) {dec : ℕ} (hdec : dec < 64) :
    WrittenAgain64 (base64Char dec :: p) where
  zero left left' hvalid := by
    rw [decodeLoop64_base64Char hdec] at hvalid ⊢
    exact h.one dec left' hdec hvalid
  one left left' hleft hvalid := by
    rw [decodeLoop64_base64Char hdec] at hvalid ⊢
    have hupper : dec >>> 4 < 4 := by
      rw [Nat.shiftRight_eq_div_pow]
      omega
    obtain ⟨hfirst, hsecond⟩ := parts_of_joined (k := 2) hleft hupper (by decide)
    obtain ⟨rest, hp, hrest⟩ := h.two (dec &&& 15) (dec >>> 4)
      (Nat.and_lt_two_pow _ (by decide : 15 < 2 ^ 4)) hupper hvalid
    refine ⟨rest, ?_, hrest⟩
    have hjoined : dec >>> 4 <<< 4 ||| (dec &&& 15) = dec := high_or_low dec 4
    rw [hjoined] at hp
    change _ = base64Char ((UInt8.ofNat _).toNat >>> 2) ::
      (encodeLoop64 1 (((UInt8.ofNat _).toNat &&& 2 ^ 2 - 1) <<< 4) _ ++ rest)
    rw [hfirst, hsecond, ← hp]
  two left high hleft hhigh hvalid := by
    rw [decodeLoop64_base64Char hdec] at hvalid ⊢
    have hupper : dec >>> 2 < 16 := by
      rw [Nat.shiftRight_eq_div_pow]
      omega
    obtain ⟨hfirst, hsecond⟩ := parts_of_joined (k := 4) hleft hupper (by decide)
    obtain ⟨rest, hp, hrest⟩ := h.three (dec &&& 3) (dec >>> 2)
      (Nat.and_lt_two_pow _ (by decide : 3 < 2 ^ 2)) hupper hvalid
    refine ⟨rest, ?_, hrest⟩
    have hjoined : dec >>> 2 <<< 2 ||| (dec &&& 3) = dec := high_or_low dec 2
    rw [hjoined] at hp
    change _ = base64Char (high <<< 4 ||| (UInt8.ofNat _).toNat >>> 4) ::
      (encodeLoop64 2 (((UInt8.ofNat _).toNat &&& 2 ^ 4 - 1) <<< 2) _ ++ rest)
    rw [hfirst, hsecond, ← hp]
  three left high hleft hhigh hvalid := by
    rw [decodeLoop64_base64Char hdec] at hvalid ⊢
    obtain ⟨hfirst, hsecond⟩ := parts_of_joined (k := 6) hleft hdec (by decide)
    obtain ⟨rest, hp, hrest⟩ := h.zero left (high <<< 2) hvalid
    refine ⟨rest, ?_, hrest⟩
    change _ = base64Char (high <<< 2 ||| (UInt8.ofNat _).toNat >>> 6) ::
      base64Char ((UInt8.ofNat _).toNat &&& 2 ^ 6 - 1) :: (encodeLoop64 0 (high <<< 2) _ ++ rest)
    rw [hfirst, hsecond, ← hp]

theorem writtenAgain64 (p : List UInt8) : WrittenAgain64 p := by
  induction p with
  | nil =>
    have hend : decode64 0 = none := by decide
    exact writtenAgain64_end hend
  | cons c p ih =>
    cases hdec : decode64 c with
    | none => exact writtenAgain64_end hdec
    | some dec =>
      obtain ⟨hlt, rfl⟩ := base64Char_of_decode64 hdec
      exact ih.cons hlt

/-- Every string of bytes comes back, without the flag. -/
theorem DecodeBase64_EncodeBase64 (vch : List UInt8) : DecodeBase64 (EncodeBase64 vch) = (vch, false) := by
  have hend : decode64 0 = none := by decide
  obtain ⟨hbytes, hflag⟩ := (@readBack64 [] hend vch).zero 0 0
  rw [List.append_nil] at hbytes hflag
  rw [DecodeBase64, EncodeBase64, hbytes, hflag]

theorem base64Char_ne_zero (hn : n < 64) : base64Char n ≠ 0 := by
  have hall : ∀ n : Fin 64, base64Char n ≠ 0 := by decide +kernel
  exact hall ⟨n, hn⟩

theorem length_encodeLoop64_le (mode : Fin 3) (left : ℕ) (pch : List UInt8) :
    (encodeLoop64 mode left pch).length ≤ 2 * pch.length + 3 := by
  induction mode, left, pch using encodeLoop64.induct with
  | case1 mode left hmode =>
    rw [encodeLoop64, if_pos hmode]
    split <;> simp
  | case2 mode left hmode =>
    rw [encodeLoop64, if_neg hmode]
    exact Nat.zero_le _
  | case3 left b pch enc ih =>
    rw [encodeLoop64, List.length_cons, List.length_cons]
    exact (Nat.succ_le_succ ih).trans (by omega)
  | case4 left b pch enc ih =>
    rw [encodeLoop64, List.length_cons, List.length_cons]
    exact (Nat.succ_le_succ ih).trans (by omega)
  | case5 left b pch ih =>
    rw [encodeLoop64, List.length_cons, List.length_cons, List.length_cons]
    exact (Nat.succ_le_succ (Nat.succ_le_succ ih)).trans (by omega)

theorem upper_lt_64 (b : UInt8) {n : ℕ} (hn : 2 ≤ n) : b.toNat >>> n < 2 ^ 6 := by
  rw [Nat.shiftRight_eq_div_pow]
  refine Nat.div_lt_of_lt_mul ?_
  calc b.toNat < 2 ^ 8 := b.toNat_lt
    _ ≤ 2 ^ (n + 6) := Nat.pow_le_pow_right (by decide) (by omega)
    _ = 2 ^ n * 2 ^ 6 := pow_add 2 n 6

theorem lower_lt_64 (b : UInt8) {m j : ℕ} (hm : m <<< j < 2 ^ 6) : (b.toNat &&& m) <<< j < 2 ^ 6 := by
  refine lt_of_le_of_lt ?_ hm
  rw [Nat.shiftLeft_eq, Nat.shiftLeft_eq]
  exact Nat.mul_le_mul_right _ Nat.and_le_right

theorem ne_zero_of_mem_encodeLoop64 {mode : Fin 3} {left : ℕ} (hleft : left < 64) :
    ∀ c ∈ encodeLoop64 mode left pch, c ≠ 0 := by
  induction mode, left, pch using encodeLoop64.induct with
  | case1 mode left hmode =>
    have hfirst := base64Char_ne_zero hleft
    have hpad : padChar ≠ 0 := by decide
    rw [encodeLoop64, if_pos hmode]
    split
    · simp [hfirst, hpad]
    · simp [hfirst, hpad]
  | case2 mode left hmode =>
    rw [encodeLoop64, if_neg hmode]
    exact fun c hc => absurd hc List.not_mem_nil
  | case3 left b pch enc ih =>
    have hupper := upper_lt_64 b (n := 2) (by decide)
    have hrest := ih (lower_lt_64 b (by decide : 3 <<< 4 < 2 ^ 6))
    rw [encodeLoop64]
    exact List.forall_mem_cons.mpr ⟨base64Char_ne_zero hupper, hrest⟩
  | case4 left b pch enc ih =>
    have hshared := Nat.or_lt_two_pow (n := 6) hleft (upper_lt_64 b (n := 4) (by decide))
    have hrest := ih (lower_lt_64 b (by decide : 15 <<< 2 < 2 ^ 6))
    rw [encodeLoop64]
    exact List.forall_mem_cons.mpr ⟨base64Char_ne_zero hshared, hrest⟩
  | case5 left b pch ih =>
    have hshared := Nat.or_lt_two_pow (n := 6) hleft (upper_lt_64 b (n := 6) (by decide))
    have hlast : b.toNat &&& 63 < 64 := Nat.and_lt_two_pow _ (by decide : 63 < 2 ^ 6)
    rw [encodeLoop64]
    exact List.forall_mem_cons.mpr ⟨base64Char_ne_zero hshared,
      List.forall_mem_cons.mpr ⟨base64Char_ne_zero hlast, ih hleft⟩⟩

/-- Every string of bytes comes back from base 64, and nothing is accepted that does not begin with
the one encoding of what is read from it. What follows it, from a character on that is no digit, is
not looked at. -/
theorem DecodeBase64_accepts_iff (p vch : List UInt8) :
    DecodeBase64 p = (vch, false) ↔ ∃ rest, p = EncodeBase64 vch ++ rest ∧ NoDigit64 rest := by
  constructor
  · intro h
    obtain ⟨rfl, hvalid⟩ := Prod.mk.inj h
    exact (writtenAgain64 p).zero 0 0 hvalid
  · rintro ⟨rest, rfl, hrest⟩
    obtain ⟨hbytes, hflag⟩ := (readBack64 hrest vch).zero 0 0
    rw [DecodeBase64, EncodeBase64, hbytes, hflag]

end Dions
