import Dions.Model.Payments
import Dions.Verification.Net.Endpoint

/-! # Amounts as text

The wallet prints an amount with a point and without the last zeros, and reads the amounts of its
settings. What it prints without a sign it reads back, and every amount it reads it can print so. -/

namespace Dions

variable {n : ℕ} {str w : List UInt8}

/-! ## What is printed -/

theorem decimalValue_zeros (k : ℕ) : decimalValue (List.replicate k 0x30) = 0 := by
  induction k with
  | zero => rfl
  | succ k ih =>
    rw [List.replicate_succ', decimalValue_append, ih]
    rfl

theorem decimalValue_lt {cs : List UInt8} (h : ∀ c ∈ cs, isdigit c = true) :
    decimalValue cs < 10 ^ cs.length := by
  induction cs using List.reverseRecOn with
  | nil => simp [decimalValue]
  | append_singleton cs c ih =>
    have hlt := ih fun d hd => h d (List.mem_append_left _ hd)
    have hle := (digit_spec (h c (by simp))).2
    have hone : decimalValue [c] ≤ 9 := by
      simp only [decimalValue, List.foldl_cons, List.foldl_nil]
      omega
    rw [decimalValue_append, List.length_append, List.length_singleton, pow_one, pow_succ]
    omega

theorem length_printNumber_le {k : ℕ} (hk : 0 < k) :
    (printNumber 10 n).length ≤ k ↔ n < 10 ^ k := by
  rw [printNumber]
  by_cases hn : n = 0
  · rw [if_pos hn, hn]
    simp only [List.length_singleton]
    exact ⟨fun _ => Nat.pow_pos (by decide), fun _ => hk⟩
  · rw [if_neg hn, List.length_map, Positional.digits, List.length_reverse]
    exact Nat.digits_length_le_iff (by decide) n

theorem length_printPadded (h : n < 10 ^ 8) : (printPadded 8 n).length = 8 := by
  have hlength := (length_printNumber_le (by decide : 0 < 8)).mpr h
  rw [printPadded, List.length_append, List.length_replicate]
  omega

theorem decimalValue_printPadded (width n : ℕ) : decimalValue (printPadded width n) = n := by
  rw [printPadded, decimalValue_append, decimalValue_zeros, decimalValue_printNumber,
    Nat.zero_mul, Nat.zero_add]

theorem printPadded_digit {width : ℕ} {c : UInt8} (hc : c ∈ printPadded width n) :
    isdigit c = true := by
  rcases List.mem_append.mp hc with hzero | hdigit
  · rw [(List.mem_replicate.mp hzero).2]
    decide
  · exact printNumber_digit hdigit

/-! ## What is read -/

theorem tenth_pow (k : ℕ) : (10 : ℤ) ^ (k + 1) / 10 = 10 ^ k := by
  rw [pow_succ, Int.mul_ediv_cancel _ (by decide)]

/-- The digits behind the point count for as much as their places. -/
theorem unitsLoop_digits {cs : List UInt8} (h : ∀ c ∈ cs, isdigit c = true) {k : ℕ}
    (hk : cs.length ≤ k) (u : ℤ) :
    unitsLoop cs (10 ^ k / 10) u = (u + decimalValue cs * 10 ^ (k - cs.length), []) := by
  -- `k` places are left; each digit takes one of them.
  induction cs generalizing k u with
  | nil => simp [unitsLoop, decimalValue]
  | cons c cs ih =>
    obtain ⟨hc, hcs⟩ := List.forall_mem_cons.mp h
    cases k with
    | zero => simp at hk
    | succ k =>
      rw [List.length_cons, Nat.succ_le_succ_iff] at hk
      rw [unitsLoop, tenth_pow, if_pos ⟨hc, by positivity⟩, ih hcs hk]
      have hvalue : decimalValue (c :: cs) = (c.toNat - 0x30) * 10 ^ cs.length + decimalValue cs := by
        rw [← List.singleton_append, decimalValue_append]
        simp [decimalValue]
      have hpow : (10 : ℤ) ^ k = 10 ^ cs.length * 10 ^ (k - cs.length) := by
        rw [← pow_add, Nat.add_sub_cancel' hk]
      rw [hvalue, List.length_cons, Nat.add_sub_add_right, hpow]
      push_cast
      ring_nf

theorem wholeLoop_point (h : ∀ c ∈ w, isdigit c = true) (f strWhole : List UInt8) :
    wholeLoop (w ++ '.'.toUInt8 :: f) strWhole = some (strWhole ++ w, unitsLoop f (CENT * 10) 0) := by
  induction w generalizing strWhole with
  | nil => rw [List.nil_append, wholeLoop, if_pos rfl, List.append_nil]
  | cons c w ih =>
    obtain ⟨hc, hw⟩ := List.forall_mem_cons.mp h
    rw [List.cons_append, wholeLoop, if_neg (ne_of_digit hc (by decide)), digit_not_space hc,
      if_neg (by decide), hc, if_neg (by decide), ih hw, List.append_assoc, List.singleton_append]

/-- The characters of the whole part are digits, and units come only from behind a point. -/
theorem wholeLoop_spec {p strWhole rest : List UInt8} {u : ℤ}
    (h : wholeLoop p strWhole = some (w, u, rest)) (hdigits : ∀ c ∈ strWhole, isdigit c = true) :
    (∀ c ∈ w, isdigit c = true) ∧ (u = 0 ∨ ∃ q, unitsLoop q (CENT * 10) 0 = (u, rest)) := by
  fun_induction wholeLoop p strWhole with
  | case1 strWhole => cases h; exact ⟨hdigits, .inl rfl⟩
  | case2 p strWhole =>
    rw [Option.some.injEq, Prod.mk.injEq] at h
    exact ⟨h.1 ▸ hdigits, .inr ⟨_, h.2⟩⟩
  | case3 strWhole c p hpoint hspace => cases h; exact ⟨hdigits, .inl rfl⟩
  | case4 strWhole c p hpoint hspace hdigit => cases h
  | case5 strWhole c p hpoint hspace hdigit ih =>
    refine ih h fun d hd => ?_
    rcases List.mem_append.mp hd with hold | hnew
    · exact hdigits d hold
    · rw [List.mem_singleton.mp hnew]
      simpa using hdigit

/-- Whatever follows the point, the places behind it hold less than one. -/
theorem unitsLoop_lt (q : List UInt8) (k : ℕ) (u : ℤ) :
    u ≤ (unitsLoop q (10 ^ k / 10) u).1 ∧ (unitsLoop q (10 ^ k / 10) u).1 < u + 10 ^ k := by
  induction q generalizing k u with
  | nil => simp [unitsLoop]
  | cons c q ih =>
    rw [unitsLoop]
    split
    next hread =>
      obtain ⟨hc, hmult⟩ := hread
      cases k with
      | zero => simp at hmult
      | succ k =>
        obtain ⟨hlow, hhigh⟩ := digit_spec hc
        have hnine : (10 : ℤ) ^ k * (c.toNat - 0x30 : ℕ) ≤ 10 ^ k * 9 :=
          mul_le_mul_of_nonneg_left (by omega) (by positivity)
        have hpos : (0 : ℤ) ≤ 10 ^ k * (c.toNat - 0x30 : ℕ) := by positivity
        have hrec := ih k (u + 10 ^ k * (c.toNat - 0x30 : ℕ))
        rw [tenth_pow, pow_succ]
        constructor
        · exact le_trans (by omega) hrec.1
        · exact lt_of_lt_of_le hrec.2 (by omega)
    next => exact ⟨le_rfl, lt_add_of_pos_right _ (by positivity)⟩

/-! ## Trimming -/

theorem trimLoop_zeros {i : ℕ} (hi : i < str.length) :
    str.take (i + 1) = str.take (i + 1 - trimLoop str i) ++ List.replicate (trimLoop str i) 0x30 := by
  induction i with
  | zero => simp [trimLoop]
  | succ i ih =>
    rw [trimLoop]
    split
    next htrim =>
      have hzero : str[i + 1]? = some 0x30 := by
        rw [List.getElem?_eq_getElem hi, ← List.getD_eq_getElem str 0 hi, htrim.1]
      rw [List.take_add_one, hzero, ih (Nat.lt_of_succ_lt hi), Nat.add_sub_add_right,
        List.replicate_succ', List.append_assoc]
      rfl
    next => rw [Nat.sub_zero, List.replicate_zero, List.append_nil]

theorem trimLoop_le {d : ℕ} (hpoint : isdigit (str.getD d 0) = false) (k : ℕ) :
    trimLoop str (d + 2 + k) ≤ k := by
  induction k with
  | zero =>
    -- Two places behind the point the loop asks for a digit at the point.
    rw [Nat.add_zero, trimLoop, if_neg]
    rintro ⟨-, hdigit⟩
    rw [Nat.add_sub_cancel, hpoint] at hdigit
    exact absurd hdigit (by decide)
  | succ k ih =>
    rw [← Nat.add_assoc, trimLoop]
    split
    next => exact Nat.succ_le_succ ih
    next => exact Nat.zero_le _

/-- An amount without its sign, as it is printed: what is trimmed are zeros behind the point. -/
theorem trimmed_amount {f : List UInt8} (hf : f.length = 8) :
    ∃ f' k, f = f' ++ List.replicate k 0x30 ∧
      (w ++ '.'.toUInt8 :: f).take
          ((w ++ '.'.toUInt8 :: f).length
            - trimLoop (w ++ '.'.toUInt8 :: f) ((w ++ '.'.toUInt8 :: f).length - 1))
        = w ++ '.'.toUInt8 :: f' := by
  have hlength : (w ++ '.'.toUInt8 :: f).length = w.length + 2 + 6 + 1 := by
    rw [List.length_append, List.length_cons, hf]
  have hpoint : (w ++ '.'.toUInt8 :: f).getD w.length 0 = '.'.toUInt8 := by
    rw [List.getD_append_right _ _ _ _ le_rfl, Nat.sub_self]
    rfl
  generalize hstr : w ++ '.'.toUInt8 :: f = str at hlength hpoint
  have hzeros := trimLoop_zeros (show w.length + 2 + 6 < str.length by omega)
  have hle := trimLoop_le (show isdigit (str.getD w.length 0) = false by rw [hpoint]; decide) 6
  rw [← hlength, List.take_length] at hzeros
  rw [hlength, Nat.add_sub_cancel, ← hlength]
  generalize trimLoop str (w.length + 2 + 6) = t at hzeros hle
  have hkept : str.take (str.length - t) = w ++ '.'.toUInt8 :: f.take (8 - t) := by
    have hdrop : str.length - t = w.length + (8 - t + 1) := by omega
    rw [hdrop, ← hstr, List.take_length_add_append, List.take_succ_cons]
  refine ⟨f.take (8 - t), t, ?_, hkept⟩
  rw [hkept, ← hstr, List.append_assoc, List.cons_append] at hzeros
  exact (List.cons.inj (List.append_cancel_left hzeros)).2

/-! ## Round trips -/

/-- A whole part of at most ten digits is read, with at most eight places behind the point. -/
theorem ParseMoney_point {f : List UInt8} (hw : ∀ c ∈ w, isdigit c = true)
    (hf : ∀ c ∈ f, isdigit c = true) (hplaces : f.length ≤ 8) :
    ParseMoney (w ++ '.'.toUInt8 :: f) = if w.length ≤ 10
      then some (decimalValue w * COIN + decimalValue f * 10 ^ (8 - f.length)) else none := by
  have hc_str : c_str (w ++ '.'.toUInt8 :: f) = w ++ '.'.toUInt8 :: f := c_str_eq_self fun c hc => by
    rcases List.mem_append.mp hc with hwhole | hbehind
    · exact ne_of_digit (hw c hwhole) (by decide)
    · rcases List.mem_cons.mp hbehind with rfl | hplace
      · decide
      · exact ne_of_digit (hf c hplace) (by decide)
  have hskip : (w ++ '.'.toUInt8 :: f).dropWhile isspace = w ++ '.'.toUInt8 :: f := by
    cases w with
    | nil => exact List.dropWhile_cons_of_neg (by decide)
    | cons c w =>
      have hspace := digit_not_space (hw c List.mem_cons_self)
      exact List.dropWhile_cons_of_neg (by rw [hspace]; decide)
  have hunits := unitsLoop_digits hf hplaces 0
  rw [zero_add] at hunits
  have hmult : CENT * 10 = 10 ^ 8 / 10 := by decide
  rw [ParseMoney, hc_str, hskip, wholeLoop_point hw, hmult, hunits, List.nil_append]
  have hlt : decimalValue f * 10 ^ (8 - f.length) < 10 ^ 8 := by
    calc decimalValue f * 10 ^ (8 - f.length) < 10 ^ f.length * 10 ^ (8 - f.length) :=
          Nat.mul_lt_mul_of_pos_right (decimalValue_lt hf) (by positivity)
      _ = 10 ^ 8 := by rw [← pow_add, Nat.add_sub_cancel' hplaces]
  have hsmall : ¬((decimalValue f : ℤ) * 10 ^ (8 - f.length) < 0
      ∨ COIN < (decimalValue f : ℤ) * 10 ^ (8 - f.length)) := by
    rw [COIN]
    zify at hlt
    have hnonneg : (0 : ℤ) ≤ (decimalValue f : ℤ) * 10 ^ (8 - f.length) := by positivity
    omega
  simp only [List.all_nil, Bool.true_eq_false, if_false, hsmall]
  by_cases hlong : w.length ≤ 10
  · have hvalue : (decimalValue w : ℤ) ≤ LONG_MAX := by
      have := (decimalValue_lt hw).trans_le (Nat.pow_le_pow_right (by decide) hlong)
      rw [LONG_MAX]
      omega
    rw [if_neg (by omega), if_pos hlong, strtol_digits hw, min_eq_right hvalue]
  · rw [if_pos (by omega), if_neg hlong]

theorem ParseMoney_sign {c : UInt8} (hc : c = '-'.toUInt8 ∨ c = '+'.toUInt8) (str : List UInt8) :
    ParseMoney (c :: str) = none := by
  rcases hc with rfl | rfl <;> rfl

/-- What is read is an amount of less than ten thousand million coins. -/
theorem ParseMoney_range {n : ℤ} (h : ParseMoney str = some n) : 0 ≤ n ∧ n < 10 ^ 10 * COIN := by
  rw [ParseMoney] at h
  split at h
  next => cases h
  next w u rest hloop =>
    split at h
    next => cases h
    split at h
    next => cases h
    next hlength =>
      split at h
      next => cases h
      next hunits =>
        obtain ⟨hdigits, hsource⟩ := wholeLoop_spec hloop (by simp)
        have hu : u < COIN := by
          rcases hsource with rfl | ⟨q, hq⟩
          · decide
          · have hlt := (unitsLoop_lt q 8 0).2
            have hmult : CENT * 10 = 10 ^ 8 / 10 := by decide
            rw [← hmult, hq] at hlt
            rw [COIN]
            omega
        have hvalue := (decimalValue_lt hdigits).trans_le
          (Nat.pow_le_pow_right (by decide) (Nat.le_of_not_lt hlength))
        have hn := Option.some.inj h
        rw [strtol_digits hdigits, min_eq_right (by rw [LONG_MAX]; omega)] at hn
        rw [COIN] at hu hn hunits ⊢
        omega

/-- An amount without a sign is read back. -/
theorem amount_text (n : ℕ) : ∃ str : List UInt8,
    (∀ m : ℤ, m.natAbs = n → ∀ fPlus, FormatMoney m fPlus =
      if m < 0 then '-'.toUInt8 :: str else if fPlus = true ∧ 0 < m then '+'.toUInt8 :: str else str)
    ∧ ParseMoney str = if (n : ℤ) < 10 ^ 10 * COIN then some (n : ℤ) else none := by
  have hcoin : COIN.toNat = 10 ^ 8 := by decide
  have hmod : n % 10 ^ 8 < 10 ^ 8 := Nat.mod_lt _ (by decide)
  obtain ⟨f, k, hf, htrimmed⟩ :=
    trimmed_amount (w := printNumber 10 (n / 10 ^ 8)) (length_printPadded hmod)
  refine ⟨printNumber 10 (n / 10 ^ 8) ++ '.'.toUInt8 :: f, ?_, ?_⟩
  · rintro m rfl fPlus
    rw [FormatMoney, hcoin]
    simp only [htrimmed]
  · have hlength := congrArg List.length hf
    rw [length_printPadded hmod, List.length_append, List.length_replicate] at hlength
    have hvalue := congrArg decimalValue hf
    rw [decimalValue_printPadded, decimalValue_append, decimalValue_zeros,
      List.length_replicate, Nat.add_zero] at hvalue
    have hplaces : k = 8 - f.length := by omega
    rw [ParseMoney_point (fun c => printNumber_digit)
      (fun c hc => printPadded_digit (hf ▸ List.mem_append_left _ hc)) (by omega),
      decimalValue_printNumber]
    have hten : (printNumber 10 (n / 10 ^ 8)).length ≤ 10 ↔ (n : ℤ) < 10 ^ 10 * COIN := by
      rw [length_printNumber_le (by decide), COIN]
      omega
    have hsum : ((n / 10 ^ 8 : ℕ) : ℤ) * COIN + decimalValue f * 10 ^ (8 - f.length) = n := by
      rw [← hplaces, COIN]
      zify at hvalue
      rw [← hvalue]
      omega
    simp only [hten, hsum]

/-- **Amounts as text.** What `FormatMoney` prints for an amount is read as that amount if it carries no
sign and is less than ten thousand million coins, and else is refused; an amount that any text is read
as is read from what is printed for it. -/
theorem ParseMoney_FormatMoney (n : ℤ) :
    (∀ fPlus, ParseMoney (FormatMoney n fPlus)
      = if 0 ≤ n ∧ n < 10 ^ 10 * COIN ∧ ¬(fPlus = true ∧ 0 < n) then some n else none)
    ∧ ((∃ str, ParseMoney str = some n) ↔ ParseMoney (FormatMoney n false) = some n) := by
  obtain ⟨str, hformat, hparse⟩ := amount_text n.natAbs
  have hread (fPlus : Bool) : ParseMoney (FormatMoney n fPlus)
      = if 0 ≤ n ∧ n < 10 ^ 10 * COIN ∧ ¬(fPlus = true ∧ 0 < n) then some n else none := by
    rw [hformat n rfl]
    by_cases hneg : n < 0
    · rw [if_pos hneg, ParseMoney_sign (.inl rfl), if_neg (by omega)]
    · have habs : (n.natAbs : ℤ) = n := Int.natAbs_of_nonneg (by omega)
      rw [if_neg hneg]
      by_cases hplus : fPlus = true ∧ 0 < n
      · rw [if_pos hplus, ParseMoney_sign (.inr rfl), if_neg fun h => h.2.2 hplus]
      · rw [if_neg hplus, hparse, habs]
        have hiff : (0 ≤ n ∧ n < 10 ^ 10 * COIN ∧ ¬(fPlus = true ∧ 0 < n)) ↔ n < 10 ^ 10 * COIN :=
          ⟨fun h => h.2.1, fun h => ⟨by omega, h, hplus⟩⟩
        simp only [hiff]
  refine ⟨hread, fun ⟨other, hother⟩ => ?_, fun h => ⟨_, h⟩⟩
  obtain ⟨hpos, hlt⟩ := ParseMoney_range hother
  rw [hread, if_pos ⟨hpos, hlt, by simp⟩]

example : FormatMoney 120000000 true = "+1.20".toList.map Char.toUInt8 := by decide +kernel

example : ParseMoney ("  12.5  ".toList.map Char.toUInt8) = some 1250000000 := by decide +kernel

end Dions
