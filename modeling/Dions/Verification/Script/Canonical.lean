import Dions.Verification.Script.Multisig

/-! # One encoding for a signature

The checks read only inside of the signature, and they accept the strict encoding of two numbers in
their shortest form, so that the numbers and the hash type determine every byte. -/

namespace Dions

open BigEndian LittleEndian

variable {vch : valtype} {len p : ℕ}
variable {n : ℕ} {v : valtype}

namespace Bytewise

/-! ## Positions -/

theorem byteAt_lt (vch : valtype) (i : ℕ) : byteAt vch i < 256 := by
  rw [byteAt]
  cases vch[i]? with
  | none => decide
  | some b => exact b.toNat_lt

theorem readByte_eq {i : ℕ} (h : i < vch.length) : readByte vch i = some (byteAt vch i) := by
  rw [readByte, byteAt, List.getElem?_eq_getElem h]
  rfl

/-- The bytes that a pointer and a length denote. -/
def slice (vch : valtype) (p len : ℕ) : valtype := (vch.drop p).take len

theorem length_slice (h : p + len ≤ vch.length) : (slice vch p len).length = len := by
  rw [slice, List.length_take, List.length_drop]
  omega

theorem slice_succ (h : p + (len + 1) ≤ vch.length) :
    ∃ b, readByte vch p = some b.toNat ∧ slice vch p (len + 1) = b :: slice vch (p + 1) len := by
  have hp : p < vch.length := by omega
  refine ⟨vch[p], ?_, ?_⟩
  · rw [readByte, List.getElem?_eq_getElem hp]
    rfl
  · rw [slice, List.drop_eq_getElem_cons hp, List.take_succ_cons]
    rfl

theorem slice_add (vch : valtype) (p m n : ℕ) :
    slice vch p (m + n) = slice vch p m ++ slice vch (p + m) n := by
  rw [slice, List.take_add, List.drop_drop]
  rfl

/-! ## The comparison -/

theorem compareExcess_eq {c : valtype} (h : p + len ≤ c.length) :
    compareExcess c len p = some (decide (value (slice c p len) ≠ 0)) := by
  induction len generalizing p with
  | zero => simp [compareExcess, slice]
  | succ len ih =>
    obtain ⟨b, hb, hslice⟩ := slice_succ h
    rw [compareExcess, hb, hslice, value_cons]
    by_cases hzero : b.toNat = 0
    · simp only [hzero, Option.bind_eq_bind, Option.bind_some, ne_eq, not_true_eq_false, if_false,
        Nat.mul_zero, Nat.zero_add]
      exact ih (by omega)
    · have hpos : 0 < 256 ^ (slice c (p + 1) len).length * b.toNat :=
        Nat.mul_pos (Nat.pow_pos (by decide)) (Nat.pos_of_ne_zero hzero)
      simp only [Option.bind_eq_bind, Option.bind_some, ne_eq, hzero, not_false_eq_true, if_true,
        Option.some.injEq]
      symm
      rw [decide_eq_true_eq]
      omega

def order (a b : ℕ) : ℤ := if b < a then 1 else if a < b then -1 else 0

theorem compareBytes_eq {c1 c2 : valtype} {p1 p2 : ℕ} (h1 : p1 + len ≤ c1.length)
    (h2 : p2 + len ≤ c2.length) :
    compareBytes c1 c2 len p1 p2 =
      some (order (value (slice c1 p1 len)) (value (slice c2 p2 len))) := by
  induction len generalizing p1 p2 with
  | zero => simp [compareBytes, slice, order]
  | succ len ih =>
    obtain ⟨b1, hb1, hslice1⟩ := slice_succ h1
    obtain ⟨b2, hb2, hslice2⟩ := slice_succ h2
    have hlen1 := length_slice (show p1 + 1 + len ≤ c1.length by omega)
    have hlen2 := length_slice (show p2 + 1 + len ≤ c2.length by omega)
    have hlt1 := value_lt (slice c1 (p1 + 1) len)
    have hlt2 := value_lt (slice c2 (p2 + 1) len)
    rw [compareBytes, hb1, hb2, hslice1, hslice2, value_cons, value_cons, hlen1, hlen2]
    rw [hlen1] at hlt1
    rw [hlen2] at hlt2
    simp only [Option.bind_eq_bind, Option.bind_some]
    have hmore : ∀ a b : ℕ, a < b → 256 ^ len * a + 256 ^ len ≤ 256 ^ len * b := by
      intro a b hab
      rw [← Nat.mul_succ]
      exact Nat.mul_le_mul_left _ hab
    by_cases hgt : b2.toNat < b1.toNat
    · have := hmore _ _ hgt
      rw [if_pos hgt, order, if_pos (by omega)]
    · rw [if_neg hgt]
      by_cases hlt : b1.toNat < b2.toNat
      · have := hmore _ _ hlt
        rw [if_pos hlt, order, if_neg (by omega), if_pos (by omega)]
      · have hequal : b1.toNat = b2.toNat := by omega
        rw [if_neg hlt, ih (by omega) (by omega), hequal]
        simp only [order, Nat.add_lt_add_iff_left]

theorem value_append (a b : valtype) : value (a ++ b) = 256 ^ b.length * value a + value b := by
  rw [value, List.reverse_append, ofBytes_append, List.length_reverse, value, value]
  omega

/-- A number that is longer by bytes that are not all zero is larger. -/
theorem value_excess {a : valtype} {e m : ℕ} (h : p + (e + m) ≤ a.length)
    (hexcess : value (slice a p e) ≠ 0) : 256 ^ m ≤ value (slice a p (e + m)) := by
  have hlen := length_slice (show p + e + m ≤ a.length by omega)
  have hle : 256 ^ m * 1 ≤ 256 ^ m * value (slice a p e) :=
    Nat.mul_le_mul_left _ (Nat.pos_of_ne_zero hexcess)
  rw [slice_add, value_append, hlen]
  omega

/-- The comparison reads inside of both numbers and compares their values. -/
theorem CompareBigEndian_eq {c1 c2 : valtype} {p1 p2 c1len c2len : ℕ}
    (h1 : p1 + c1len ≤ c1.length) (h2 : p2 + c2len ≤ c2.length) :
    CompareBigEndian c1 p1 c1len c2 p2 c2len =
      some (order (value (slice c1 p1 c1len)) (value (slice c2 p2 c2len))) := by
  obtain ⟨e1, e2, m, rfl, rfl, hone⟩ : ∃ e1 e2 m, c1len = e1 + m ∧ c2len = e2 + m ∧
      (e1 = 0 ∨ e2 = 0) :=
    ⟨c1len - c2len, c2len - c1len, min c1len c2len, by omega, by omega, by omega⟩
  have he1 : e1 + m - (e2 + m) = e1 := by omega
  have he2 : e2 + m - (e1 + m) = e2 := by omega
  have hnone : ∀ (c : valtype) (p e : ℕ), value (slice c p e) ≠ 0 → e ≠ 0 := by
    intro c p e hne hzero
    rw [hzero] at hne
    exact hne (by simp [slice])
  have hlt1 := value_lt (slice c1 p1 (e1 + m))
  have hlt2 := value_lt (slice c2 p2 (e2 + m))
  rw [length_slice h1] at hlt1
  rw [length_slice h2] at hlt2
  simp only [CompareBigEndian, he1, he2]
  rw [compareExcess_eq (show p1 + e1 ≤ c1.length by omega),
    compareExcess_eq (show p2 + e2 ≤ c2.length by omega)]
  simp only [Option.bind_eq_bind, Option.bind_some, decide_eq_true_eq]
  by_cases hfirst : value (slice c1 p1 e1) = 0
  · rw [if_neg (not_not.mpr hfirst)]
    by_cases hsecond : value (slice c2 p2 e2) = 0
    · rw [if_neg (not_not.mpr hsecond), Nat.add_sub_cancel_left,
        compareBytes_eq (by omega) (by omega), slice_add, slice_add, value_append, value_append,
        hfirst, hsecond]
      simp only [Nat.mul_zero, Nat.zero_add]
    · have hlarge := value_excess h2 hsecond
      have hzero : e1 = 0 := hone.resolve_right (hnone _ _ _ hsecond)
      rw [hzero, Nat.zero_add] at hlt1 ⊢
      rw [if_pos hsecond, order, if_neg (by omega), if_pos (by omega)]
  · have hlarge := value_excess h1 hfirst
    have hzero : e2 = 0 := hone.resolve_left (hnone _ _ _ hfirst)
    rw [hzero, Nat.zero_add] at hlt2 ⊢
    rw [if_pos hfirst, order, if_pos (by omega)]

theorem order_le_zero {a b : ℕ} : order a b ≤ 0 ↔ a ≤ b := by
  rw [order]
  split
  case isTrue h => exact ⟨fun hle => absurd hle (by decide), fun hle => absurd h (by omega)⟩
  case isFalse h => exact ⟨fun _ => by omega, fun _ => by split <;> decide⟩

theorem CheckSignatureElement_eq (h : p + len ≤ vch.length) :
    CheckSignatureElement vch p len true = some (Dions.CheckSignatureElement (slice vch p len)) := by
  have hzero : value (slice vchZero 0 0) = 0 := rfl
  have hhalf : value (slice vchMaxModHalfOrder 0 32) = Dions.vchMaxModHalfOrder := by
    decide
  have hcompare : CompareBigEndian vch p len vchMaxModHalfOrder 0 32 =
      some (order (value (slice vch p len)) Dions.vchMaxModHalfOrder) := by
    rw [← hhalf]
    exact CompareBigEndian_eq h (by decide)
  have hvalue : ofBytes (slice vch p len).reverse = value (slice vch p len) := rfl
  rw [CheckSignatureElement, CompareBigEndian_eq h (Nat.zero_le _), hzero]
  simp only [if_true, hcompare, Option.bind_eq_bind, Option.bind_some, Option.pure_def,
    Dions.CheckSignatureElement, hvalue, order_le_zero]
  by_cases hpos : value (slice vch p len) ≤ 0
  · have hnot : ¬0 < value (slice vch p len) := Nat.not_lt.mpr hpos
    rw [if_pos hpos, decide_eq_false hnot, Bool.false_and]
  · have hlt : 0 < value (slice vch p len) := Nat.not_le.mp hpos
    rw [if_neg hpos, decide_eq_true hlt, Bool.true_and]

/-! ## The signature -/

theorem not_decide_lt (a b : ℕ) : (!decide (a < b)) = decide (b ≤ a) := by
  rw [← decide_not, decide_eq_decide]
  exact Nat.not_lt

theorem not_decide_le (a b : ℕ) : (!decide (a ≤ b)) = decide (b < a) := by
  rw [← decide_not, decide_eq_decide]
  exact Nat.not_le

/-- A check that passes where `ok` holds, in front of others. -/
theorem failIf_eq {fails ok : Bool} {rest : Option Bool} {b : Bool} (hok : (!fails) = ok)
    (h : ok = true → rest = some b) : failIf fails rest = some (ok && b) := by
  subst hok
  cases fails with
  | false => rw [failIf, if_neg Bool.false_ne_true, h rfl]; rfl
  | true => rfl

theorem and_highBit : ∀ b < 256, (b &&& 0x80 != 0) = !decide (b < 0x80) := by decide +kernel

/-- The checks of a number read inside of the signature where its bytes lie inside. -/
theorem checkElement_eq {vchSig : valtype} {nLen : ℕ} {rest : Option Bool} {b : Bool} (hp : 2 ≤ p)
    (h : p + nLen < vchSig.length) (hrest : isCanonicalElement vchSig p nLen = true → rest = some b) :
    checkElement vchSig p nLen rest = some (isCanonicalElement vchSig p nLen && b) := by
  have hfirst := and_highBit _ (byteAt_lt vchSig p)
  have hsecond : (byteAt vchSig (p + 1) &&& 0x80 == 0) = decide (byteAt vchSig (p + 1) < 0x80) := by
    rw [← Bool.not_not (decide _), ← and_highBit _ (byteAt_lt vchSig (p + 1)), bne, Bool.not_not]
  simp only [isCanonicalElement, Bool.and_assoc] at hrest ⊢
  rw [checkElement, readByte_eq (show p - 2 < vchSig.length by omega)]
  simp only [Option.bind_eq_bind, Option.bind_some]
  refine failIf_eq (by rw [bne, Bool.not_not]) fun htype => failIf_eq rfl fun hnonempty => ?_
  have hinside : p < vchSig.length := by omega
  rw [readByte_eq hinside, Option.bind_some, hfirst]
  refine failIf_eq (Bool.not_not _) fun hsign => ?_
  by_cases hpadded : 1 < nLen ∧ byteAt vchSig p = 0x00
  · rw [if_pos hpadded, readByte_eq (show p + 1 < vchSig.length by omega), Option.bind_some, hsecond]
    refine failIf_eq (by simp [hpadded]) fun hbit => hrest ?_
    rw [htype, hnonempty, hsign, hbit]
    rfl
  · have hunpadded : (decide (1 < nLen) && (byteAt vchSig p == 0x00 &&
        decide (byteAt vchSig (p + 1) < 0x80))) = false := by
      rw [← Bool.and_assoc, Bool.and_eq_false_iff]
      left
      simpa using hpadded
    rw [if_neg hpadded, hunpadded, Bool.not_false, Bool.true_and]
    apply hrest
    rw [htype, hnonempty, hsign, hunpadded]
    rfl

/-- The checks read only inside of the signature. -/
theorem IsCanonicalSignature_eq (vchSig : valtype) :
    IsCanonicalSignature vchSig = some (Dions.IsCanonicalSignature vchSig) := by
  rw [IsCanonicalSignature]
  simp only [Dions.IsCanonicalSignature, Bool.and_assoc]
  refine failIf_eq (not_decide_lt _ _) fun hshort => ?_
  refine failIf_eq (not_decide_lt _ _) fun hlong => ?_
  rw [decide_eq_true_eq] at hshort hlong
  rw [readByte_eq (by omega), Option.bind_eq_bind, Option.bind_some,
    ← Bool.and_assoc (decide (SIGHASH_ALL ≤ _))]
  refine failIf_eq (by rw [Bool.not_or, not_decide_lt, not_decide_lt]) fun htype => ?_
  rw [readByte_eq (by omega), Option.bind_some]
  refine failIf_eq (by rw [bne, Bool.not_not]) fun hsequence => ?_
  rw [readByte_eq (by omega), Option.bind_some]
  refine failIf_eq (by rw [bne, Bool.not_not]) fun hlength => ?_
  rw [readByte_eq (by omega), Option.bind_some]
  refine failIf_eq (not_decide_le _ _) fun hplace => ?_
  rw [decide_eq_true_eq] at hplace
  rw [readByte_eq hplace, Option.bind_some]
  refine failIf_eq (by rw [bne, Bool.not_not]) fun htotal => ?_
  rw [beq_iff_eq] at htotal
  refine checkElement_eq (by decide) (by omega) fun hR => ?_
  refine checkElement_eq (by omega) (by omega) fun hS => ?_
  exact CheckSignatureElement_eq (by omega)

/-! ## The strict encoding -/

theorem byteAt_append (pre post : valtype) (b : UInt8) :
    byteAt (pre ++ b :: post) pre.length = b.toNat := by
  rw [byteAt, List.getElem?_append_right (le_refl _), Nat.sub_self]
  rfl

theorem slice_append (pre m post : valtype) : slice (pre ++ m ++ post) pre.length m.length = m := by
  rw [slice, List.append_assoc, List.drop_left, List.take_left]

theorem slice_one (h : p < vch.length) : slice vch p 1 = [(byteAt vch p).toUInt8] := by
  obtain ⟨b, hb, hslice⟩ := slice_succ (show p + (0 + 1) ≤ vch.length by omega)
  rw [readByte_eq h, Option.some.injEq] at hb
  rw [hslice, hb]
  simp [slice]

/-- The checks of a number ask for the shortest encoding. -/
theorem isCanonicalElement_iff (h : p + n ≤ vch.length) :
    isCanonicalElement vch p n = true ↔
      byteAt vch (p - 2) = 0x02 ∧ Minimal (value (slice vch p n)) (slice vch p n) := by
  match n with
  | 0 =>
    have hempty : ¬Minimal (value (slice vch p 0)) (slice vch p 0) := by
      intro hminimal
      obtain ⟨b, rest, hslice, _⟩ := hminimal.encodes.sign
      simp [slice] at hslice
    simp [isCanonicalElement, hempty]
  | 1 =>
    obtain ⟨b, hb, hslice⟩ := slice_succ h
    rw [readByte_eq (by omega), Option.some.injEq] at hb
    have hnil : slice vch (p + 1) 0 = [] := by simp [slice]
    rw [hslice, hnil, minimal_cons_iff, ← hb]
    simp [isCanonicalElement, Padded]
  | n + 2 =>
    obtain ⟨b, hb, hslice⟩ := slice_succ h
    obtain ⟨c, hc, hrest⟩ := slice_succ (show p + 1 + (n + 1) ≤ vch.length by omega)
    rw [readByte_eq (by omega), Option.some.injEq] at hb hc
    rw [hslice, hrest, minimal_cons_iff, ← hb]
    simp [isCanonicalElement, Padded, ← hb, ← hc, and_assoc, imp_iff_not_or]

def groupOrder : ℕ := 0xFFFFFFFFFFFFFFFFFFFFFFFFFFFFFFFEBAAEDCE6AF48A03BBFD25E8CD0364141

/-- `30 L 02 |R| R 02 |S| S t`. -/
def layout (L lenR lenS t : UInt8) (R S : valtype) : valtype :=
  [0x30, L, 0x02, lenR] ++ R ++ [0x02, lenS] ++ S ++ [t]

section Layout

variable (L lenR lenS t : UInt8) (R S : valtype)

@[simp] theorem length_layout :
    (layout L lenR lenS t R S).length = R.length + S.length + 7 := by
  simp [layout]
  omega

@[simp] theorem layout_zero : byteAt (layout L lenR lenS t R S) 0 = 0x30 := rfl

@[simp] theorem layout_one : byteAt (layout L lenR lenS t R S) 1 = L.toNat := rfl

@[simp] theorem layout_two : byteAt (layout L lenR lenS t R S) 2 = 0x02 := rfl

@[simp] theorem layout_three : byteAt (layout L lenR lenS t R S) 3 = lenR.toNat := rfl

@[simp] theorem layout_R : slice (layout L lenR lenS t R S) 4 R.length = R := by
  have h := slice_append [0x30, L, 0x02, lenR] R ([0x02, lenS] ++ S ++ [t])
  rwa [← List.append_assoc, ← List.append_assoc] at h

@[simp] theorem layout_typeS : byteAt (layout L lenR lenS t R S) (4 + R.length) = 0x02 := by
  have h := byteAt_append ([0x30, L, 0x02, lenR] ++ R) (lenS :: (S ++ [t])) 0x02
  rw [List.length_append] at h
  simpa [layout] using h

@[simp] theorem layout_lenS : byteAt (layout L lenR lenS t R S) (5 + R.length) = lenS.toNat := by
  have h := byteAt_append ([0x30, L, 0x02, lenR] ++ R ++ [0x02]) (S ++ [t]) lenS
  have hlen : ([0x30, L, 0x02, lenR] ++ R ++ [0x02] : valtype).length = 5 + R.length := by
    simp
    omega
  rw [hlen] at h
  simpa [layout] using h

@[simp] theorem layout_S : slice (layout L lenR lenS t R S) (6 + R.length) S.length = S := by
  have h := slice_append ([0x30, L, 0x02, lenR] ++ R ++ [0x02, lenS]) S [t]
  have hlen : ([0x30, L, 0x02, lenR] ++ R ++ [0x02, lenS] : valtype).length = 6 + R.length := by
    simp
    omega
  rwa [hlen] at h

@[simp] theorem layout_hashType :
    byteAt (layout L lenR lenS t R S) (R.length + S.length + 6) = t.toNat := by
  have h := byteAt_append ([0x30, L, 0x02, lenR] ++ R ++ [0x02, lenS] ++ S) [] t
  have hlen : ([0x30, L, 0x02, lenR] ++ R ++ [0x02, lenS] ++ S : valtype).length =
      R.length + S.length + 6 := by
    simp
    omega
  rwa [hlen] at h

end Layout

/-- A signature of the numbers `R` and `S` with the hash type `t`, in the strict encoding. -/
structure SignatureForm (v R S : valtype) (t : UInt8) : Prop where
  length_ge : 9 ≤ v.length
  length_le : v.length ≤ 73
  form : v = layout (v.length - 3).toUInt8 R.length.toUInt8 S.length.toUInt8 t R S
  R_minimal : Minimal (value R) R
  S_minimal : Minimal (value S) S
  S_pos : 1 ≤ value S
  S_half : value S ≤ (groupOrder - 1) / 2
  hashType_ge : 1 ≤ t.toNat &&& (0xff - SIGHASH_ANYONECANPAY)
  hashType_le : t.toNat &&& (0xff - SIGHASH_ANYONECANPAY) ≤ 3

/-- The numbers and the hash type determine the bytes. -/
theorem SignatureForm.unique {w R S R' S' : valtype} {t : UInt8} (hv : SignatureForm v R S t)
    (hw : SignatureForm w R' S' t) (hR : value R = value R') (hS : value S = value S') : v = w := by
  have hRbytes : R = R' := hv.R_minimal.unique (hR ▸ hw.R_minimal)
  have hSbytes : S = S' := hv.S_minimal.unique (hS ▸ hw.S_minimal)
  subst hRbytes hSbytes
  have hlength : v.length = w.length := by
    rw [hv.form, hw.form, length_layout, length_layout]
  rw [hv.form, hw.form, hlength]

theorem toNat_toUInt8 (h : n < 256) : n.toUInt8.toNat = n := by
  simpa using Nat.mod_eq_of_lt h

theorem half_order : (groupOrder - 1) / 2 = Dions.vchMaxModHalfOrder := by decide

theorem CheckSignatureElement_iff (bs : valtype) :
    Dions.CheckSignatureElement bs = true ↔ 1 ≤ value bs ∧ value bs ≤ (groupOrder - 1) / 2 := by
  rw [half_order, Dions.CheckSignatureElement, Bool.and_eq_true, decide_eq_true_eq,
    decide_eq_true_eq]
  rfl

/-- The parts of a signature stand where the checks look for them. -/
theorem SignatureForm.accepted {R S : valtype} {t : UInt8} (h : SignatureForm v R S t) :
    Dions.IsCanonicalSignature v = true := by
  have hlength : v.length = R.length + S.length + 7 := by
    rw [h.form, length_layout]
  have hmax := h.length_le
  have hL : byteAt v 1 = v.length - 3 := by
    rw [h.form, layout_one, ← h.form, toNat_toUInt8 (by omega)]
  have hlenR : byteAt v 3 = R.length := by
    rw [h.form, layout_three, toNat_toUInt8 (by omega)]
  have hlenS : byteAt v (5 + R.length) = S.length := by
    rw [h.form, layout_lenS, toNat_toUInt8 (by omega)]
  have hslice : slice v (6 + R.length) S.length = S := by
    rw [h.form, layout_S]
  have hR : isCanonicalElement v 4 R.length = true := by
    rw [isCanonicalElement_iff (by omega)]
    refine ⟨by rw [h.form, layout_two], ?_⟩
    rw [h.form, layout_R]
    exact h.R_minimal
  have hS : isCanonicalElement v (6 + R.length) S.length = true := by
    rw [isCanonicalElement_iff (by omega), hslice]
    refine ⟨?_, h.S_minimal⟩
    rw [h.form, show 6 + R.length - 2 = 4 + R.length by omega, layout_typeS]
  have htype : byteAt v (v.length - 1) = t.toNat := by
    rw [hlength, show R.length + S.length + 7 - 1 = R.length + S.length + 6 by omega, h.form,
      layout_hashType]
  have helement := (CheckSignatureElement_iff S).mpr ⟨h.S_pos, h.S_half⟩
  have hzero : byteAt v 0 = 0x30 := by rw [h.form, layout_zero]
  rw [slice] at hslice
  simp only [Dions.IsCanonicalSignature, hlenR, hlenS, hL, hR, hS, htype, hslice, helement, hzero,
    Bool.and_eq_true, decide_eq_true_eq, beq_iff_eq, and_true]
  exact ⟨⟨⟨⟨⟨h.length_ge, hmax⟩, h.hashType_ge⟩, h.hashType_le⟩, by omega⟩, hlength.symm⟩

theorem slice_full (v : valtype) : slice v 0 v.length = v := by
  rw [slice, List.drop_zero, List.take_length]

/-- A string with the right bytes at the right places is a layout of its own parts. -/
theorem eq_layout {m : ℕ} (hlength : m + n + 7 = v.length) (hzero : byteAt v 0 = 0x30)
    (htwo : byteAt v 2 = 0x02) (htypeS : byteAt v (4 + m) = 0x02) :
    v = layout (byteAt v 1).toUInt8 (byteAt v 3).toUInt8 (byteAt v (5 + m)).toUInt8
      (byteAt v (6 + m + n)).toUInt8 (slice v 4 m) (slice v (6 + m) n) := by
  have hfive : 4 + m + 1 = 5 + m := by omega
  have hsix : 5 + m + 1 = 6 + m := by omega
  have hsplit : v.length = 1 + 1 + 1 + 1 + m + 1 + 1 + n + 1 := by omega
  calc
    v = slice v 0 v.length := (slice_full v).symm
    _ = _ := by
      rw [hsplit]
      simp only [slice_add, Nat.zero_add]
      rw [slice_one (by omega), slice_one (by omega), slice_one (by omega), slice_one (by omega),
        slice_one (by omega), slice_one (by omega), slice_one (by omega), hzero, htwo, htypeS]
      simp [layout, hfive, hsix]

theorem exists_signatureForm (h : Dions.IsCanonicalSignature v = true) :
    ∃ R S t, SignatureForm v R S t := by
  simp only [Dions.IsCanonicalSignature, Bool.and_eq_true, decide_eq_true_eq, beq_iff_eq] at h
  obtain ⟨⟨⟨⟨⟨⟨⟨⟨⟨⟨hge, hle⟩, hmin⟩, hmax⟩, hzero⟩, hL⟩, hplace⟩, htotal⟩, hR⟩, hS⟩, helement⟩ := h
  have hRlen := length_slice (show 4 + byteAt v 3 ≤ v.length by omega)
  have hSlen := length_slice (show 6 + byteAt v 3 + byteAt v (5 + byteAt v 3) ≤ v.length by omega)
  rw [isCanonicalElement_iff (by omega)] at hR hS
  obtain ⟨htypeR, hR⟩ := hR
  obtain ⟨htypeS, hS⟩ := hS
  rw [show 6 + byteAt v 3 - 2 = 4 + byteAt v 3 by omega] at htypeS
  have hlast : v.length - 1 = 6 + byteAt v 3 + byteAt v (5 + byteAt v 3) := by omega
  have htype := toNat_toUInt8 (byteAt_lt v (v.length - 1))
  have hform := eq_layout htotal hzero htypeR htypeS
  rw [hL, ← hlast] at hform
  have hnumber := (CheckSignatureElement_iff _).mp helement
  refine ⟨_, _, (byteAt v (v.length - 1)).toUInt8, hge, hle, ?_, hR, hS, ?_, ?_, ?_, ?_⟩
  · rw [hRlen, hSlen]
    exact hform
  · exact hnumber.1
  · exact hnumber.2
  · rw [htype]
    exact hmin
  · rw [htype]
    exact hmax

end Bytewise

open Bytewise

/-- The checks of a signature read inside of it and accept the strict encoding, in which a pair of
numbers with a hash type has one form. -/
theorem signature_encoding_unique (v : valtype) :
    (∃ accepted, Bytewise.IsCanonicalSignature v = some accepted ∧
      (accepted = true ↔ ∃ R S t, SignatureForm v R S t)) ∧
    ∀ {w R S R' S' t}, SignatureForm v R S t → SignatureForm w R' S' t →
      value R = value R' → value S = value S' → v = w := by
  refine ⟨⟨_, IsCanonicalSignature_eq v, exists_signatureForm, ?_⟩, SignatureForm.unique⟩
  rintro ⟨R, S, t, h⟩
  exact h.accepted

namespace Scenario

theorem signature_encoding_unique_coSignature :
    ∃ R S t, SignatureForm (coSignature ++ [1]) R S t ∧
      ∀ w, SignatureForm w R S t → coSignature ++ [1] = w := by
  obtain ⟨⟨accepted, hread, hform⟩, hunique⟩ := signature_encoding_unique (coSignature ++ [1])
  have haccepted : Bytewise.IsCanonicalSignature (coSignature ++ [1]) = some true := by
    decide
  rw [haccepted, Option.some.injEq] at hread
  obtain ⟨R, S, t, h⟩ := hform.mp hread.symm
  exact ⟨R, S, t, h, fun w hw => hunique h hw rfl rfl⟩

end Scenario

end Dions
