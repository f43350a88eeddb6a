import Mathlib.Data.List.TakeWhile
import Mathlib.Data.Nat.Digits.Lemmas

/-! # Digits in two bases

A string of digits is its leading zeros and the number behind them. With the leading zeros kept one for
one a string is carried from one base into another and back without loss. -/

namespace Positional

variable {a b n : ℕ} {ds : List ℕ}

/-- The number that the digits stand for, the highest one first. -/
def value (b : ℕ) (ds : List ℕ) : ℕ := Nat.ofDigits b ds.reverse

/-- The digits of a number, the highest one first; none for zero. -/
def digits (b n : ℕ) : List ℕ := (Nat.digits b n).reverse

theorem value_digits (b n : ℕ) : value b (digits b n) = n := by
  rw [value, digits, List.reverse_reverse, Nat.ofDigits_digits]

@[simp] theorem value_replicate_zero (b k : ℕ) : value b (List.replicate k 0) = 0 := by
  rw [value, List.reverse_replicate, Nat.ofDigits_replicate_zero]

theorem value_append (b : ℕ) (ds es : List ℕ) :
    value b (ds ++ es) = value b ds * b ^ es.length + value b es := by
  rw [value, List.reverse_append, Nat.ofDigits_append, List.length_reverse, value, value,
    Nat.mul_comm, Nat.add_comm]

theorem value_snoc (b : ℕ) (ds : List ℕ) (d : ℕ) : value b (ds ++ [d]) = value b ds * b + d := by
  have hone : value b [d] = d := Nat.ofDigits_singleton
  rw [value_append, hone, List.length_singleton, pow_one]

/-! ## Leading zeros -/

def zeros (ds : List ℕ) : ℕ := (ds.takeWhile (· = 0)).length

theorem replicate_zeros (ds : List ℕ) :
    List.replicate (zeros ds) 0 ++ ds.dropWhile (· = 0) = ds := by
  have hzero : List.replicate (zeros ds) 0 = ds.takeWhile (· = 0) := by
    refine (List.eq_replicate_of_mem fun d hd => ?_).symm
    have hzero := List.mem_takeWhile_imp hd
    exact of_decide_eq_true hzero
  rw [hzero, List.takeWhile_append_dropWhile]

theorem value_dropWhile (b : ℕ) (ds : List ℕ) : value b (ds.dropWhile (· = 0)) = value b ds := by
  conv_rhs => rw [← replicate_zeros ds]
  rw [value_append, value_replicate_zero, Nat.zero_mul, Nat.zero_add]

/-- The number has the digits behind the leading zeros. -/
theorem digits_value (hb : 1 < b) (hds : ∀ d ∈ ds, d < b) :
    digits b (value b ds) = ds.dropWhile (· = 0) := by
  rw [← value_dropWhile, digits, value, Nat.digits_ofDigits b hb, List.reverse_reverse]
  · intro d hd
    exact hds d ((List.dropWhile_sublist _).subset (List.mem_reverse.mp hd))
  · intro hne
    rw [List.getLast_reverse]
    have hne' : ds.dropWhile (· = 0) ≠ [] := fun h => hne (by rw [h]; rfl)
    have hhead := @List.head_dropWhile_not ℕ (· = 0) ds hne'
    exact of_decide_eq_false hhead

theorem digits_lt (hb : 1 < b) : ∀ d ∈ digits b n, d < b :=
  fun _ hd => Nat.digits_lt_base hb (List.mem_reverse.mp hd)

theorem dropWhile_digits (hb : 1 < b) (n : ℕ) :
    (digits b n).dropWhile (· = 0) = digits b n := by
  rw [← digits_value hb (digits_lt hb), value_digits]

theorem zeros_digits (hb : 1 < b) (n : ℕ) : zeros (digits b n) = 0 := by
  have h := congrArg List.length (replicate_zeros (digits b n))
  rw [dropWhile_digits hb, List.length_append, List.length_replicate] at h
  omega

theorem zeros_replicate_append (k : ℕ) (ds : List ℕ) :
    zeros (List.replicate k 0 ++ ds) = k + zeros ds := by
  induction k with
  | zero => rw [List.replicate_zero, List.nil_append, Nat.zero_add]
  | succ k ih =>
    rw [List.replicate_succ, List.cons_append, zeros, List.takeWhile_cons, if_pos (by decide),
      List.length_cons]
    rw [zeros] at ih
    omega

/-! ## From one base into another -/

/-- As many leading zeros, and the digits of the same number. -/
def transcode (a b : ℕ) (ds : List ℕ) : List ℕ :=
  List.replicate (zeros ds) 0 ++ digits b (value a ds)

theorem transcode_lt (hb : 1 < b) : ∀ d ∈ transcode a b ds, d < b := by
  intro d hd
  rcases List.mem_append.mp hd with hd | hd
  · rw [List.eq_of_mem_replicate hd]
    omega
  · exact digits_lt hb d hd

theorem zeros_transcode (hb : 1 < b) : zeros (transcode a b ds) = zeros ds := by
  rw [transcode, zeros_replicate_append, zeros_digits hb, Nat.add_zero]

theorem value_transcode : value b (transcode a b ds) = value a ds := by
  rw [transcode, value_append, value_replicate_zero, Nat.zero_mul, Nat.zero_add, value_digits]

/-- There and back. -/
theorem transcode_transcode (ha : 1 < a) (hb : 1 < b) (hds : ∀ d ∈ ds, d < a) :
    transcode b a (transcode a b ds) = ds := by
  rw [transcode, zeros_transcode hb, value_transcode, digits_value ha hds, replicate_zeros]

end Positional
