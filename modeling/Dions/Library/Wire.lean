import Mathlib.Algebra.Order.Ring.Int
import Mathlib.Data.List.Basic
import Mathlib.Tactic.NormNum
import Mathlib.Tactic.Positivity
import Mathlib.Tactic.Ring

/-! # Prefix codecs

A codec writes a value and reads one back from the front of an input. It carries both of its
laws: what it writes it reads back in front of every rest, and it reads nothing that it would
not have written. Records, lists and alternatives inherit the laws from their parts. -/

universe u

structure Codec (σ : Type) (ε : Type u) (α : Type) where
  serialize : α → List σ
  unserialize : List σ → Except ε (α × List σ)
  /-- The values the format has room for. -/
  Valid : α → Prop
  round : ∀ x rest, Valid x → unserialize (serialize x ++ rest) = .ok (x, rest)
  canonical : ∀ input x rest, unserialize input = .ok (x, rest) →
    Valid x ∧ serialize x ++ rest = input

namespace Codec

variable {σ : Type} {ε : Type u} {α β : Type}

theorem unserialize_iff (c : Codec σ ε α) (input : List σ) (x : α) (rest : List σ) :
    c.unserialize input = .ok (x, rest) ↔ c.Valid x ∧ c.serialize x ++ rest = input := by
  constructor
  · exact c.canonical input x rest
  · rintro ⟨hx, rfl⟩
    exact c.round x rest hx

/-- No two inputs are read as the same value with the same rest. -/
theorem unserialize_injective (c : Codec σ ε α) {a b : List σ} {x : α} {rest : List σ}
    (ha : c.unserialize a = .ok (x, rest)) (hb : c.unserialize b = .ok (x, rest)) : a = b := by
  rw [← (c.canonical a x rest ha).2, ← (c.canonical b x rest hb).2]

/-! ## Combinators -/

/-- A value that takes no room. -/
def const (x : α) : Codec σ ε α where
  serialize _ := []
  unserialize input := .ok (x, input)
  Valid y := y = x
  round := by
    rintro y rest rfl
    rfl
  canonical := by
    intro input y rest h
    cases h
    exact ⟨rfl, rfl⟩

/-- One symbol; the error tells that the input has ended. -/
def symbol (eof : ε) : Codec σ ε σ where
  serialize x := [x]
  unserialize
    | [] => .error eof
    | x :: rest => .ok (x, rest)
  Valid _ := True
  round _ _ _ := rfl
  canonical := by
    intro input x rest h
    cases input with
    | nil => cases h
    | cons y input =>
        cases h
        exact ⟨trivial, rfl⟩

/-- One value after the other; how the second is written may depend on the first. -/
def seq (c : Codec σ ε α) (d : α → Codec σ ε β) : Codec σ ε (α × β) where
  serialize p := c.serialize p.1 ++ (d p.1).serialize p.2
  unserialize input :=
    match c.unserialize input with
    | .error e => .error e
    | .ok (x, rest) =>
      match (d x).unserialize rest with
      | .error e => .error e
      | .ok (y, rest) => .ok ((x, y), rest)
  Valid p := c.Valid p.1 ∧ (d p.1).Valid p.2
  round := by
    rintro ⟨x, y⟩ rest ⟨hx, hy⟩
    simp only [List.append_assoc, c.round x _ hx, (d x).round y rest hy]
  canonical := by
    intro input p rest h
    cases hc : c.unserialize input with
    | error e => simp [hc] at h
    | ok r =>
        obtain ⟨x, mid⟩ := r
        cases hd : (d x).unserialize mid with
        | error e => simp [hc, hd] at h
        | ok s =>
            obtain ⟨y, rest'⟩ := s
            simp only [hc, hd, Except.ok.injEq, Prod.mk.injEq] at h
            obtain ⟨rfl, rfl⟩ := h
            obtain ⟨hx, hmid⟩ := c.canonical input x mid hc
            obtain ⟨hy, hrest⟩ := (d x).canonical mid y rest' hd
            exact ⟨⟨hx, hy⟩, by rw [List.append_assoc, hrest, hmid]⟩

theorem seq_serialize (c : Codec σ ε α) (d : α → Codec σ ε β) (p : α × β) :
    (c.seq d).serialize p = c.serialize p.1 ++ (d p.1).serialize p.2 := rfl

/-- The same bytes read as another type, between the values that are valid on the two sides. -/
def image (c : Codec σ ε α) (f : α → β) (g : β → α) (V : β → Prop)
    (hg : ∀ y, V y → c.Valid (g y) ∧ f (g y) = y) (hf : ∀ x, c.Valid x → V (f x) ∧ g (f x) = x) :
    Codec σ ε β where
  serialize y := c.serialize (g y)
  unserialize input := (c.unserialize input).map fun p => (f p.1, p.2)
  Valid := V
  round := by
    intro y rest hy
    rw [c.round (g y) rest (hg y hy).1]
    simp [Except.map, (hg y hy).2]
  canonical := by
    intro input y rest h
    cases hc : c.unserialize input with
    | error e => simp [hc, Except.map] at h
    | ok r =>
        obtain ⟨x, rest'⟩ := r
        simp only [hc, Except.map, Except.ok.injEq, Prod.mk.injEq] at h
        obtain ⟨rfl, rfl⟩ := h
        obtain ⟨hx, hinput⟩ := c.canonical input x rest' hc
        exact ⟨(hf x hx).1, by rw [(hf x hx).2, hinput]⟩

/-- The record whose fields `c` reads in order. -/
def record (c : Codec σ ε α) (e : α ≃ β) : Codec σ ε β :=
  c.image e e.symm (fun y => c.Valid (e.symm y)) (fun y hy => ⟨hy, e.apply_symm_apply y⟩)
    (fun x hx => ⟨by rwa [e.symm_apply_apply], e.symm_apply_apply x⟩)

/-! ## Lists -/

def readList (c : Codec σ ε α) : ℕ → List σ → Except ε (List α × List σ)
  | 0, input => .ok ([], input)
  | n + 1, input =>
    match c.unserialize input with
    | .error e => .error e
    | .ok (x, rest) =>
      match readList c n rest with
      | .error e => .error e
      | .ok (xs, rest) => .ok (x :: xs, rest)

theorem readList_round (c : Codec σ ε α) (xs : List α) (rest : List σ)
    (hxs : ∀ x ∈ xs, c.Valid x) :
    c.readList xs.length (xs.flatMap c.serialize ++ rest) = .ok (xs, rest) := by
  induction xs with
  | nil => rfl
  | cons x xs ih =>
      simp only [List.flatMap_cons, List.append_assoc, List.length_cons, readList]
      rw [c.round x _ (hxs x List.mem_cons_self)]
      simp only [ih fun y hy => hxs y (List.mem_cons_of_mem x hy)]

theorem readList_canonical (c : Codec σ ε α) (n : ℕ) (input : List σ) (xs : List α)
    (rest : List σ) (h : c.readList n input = .ok (xs, rest)) :
    xs.length = n ∧ (∀ x ∈ xs, c.Valid x) ∧ xs.flatMap c.serialize ++ rest = input := by
  induction n generalizing input xs with
  | zero =>
      cases h
      simp
  | succ n ih =>
      cases hc : c.unserialize input with
      | error e => simp [readList, hc] at h
      | ok r =>
          obtain ⟨x, mid⟩ := r
          cases hn : c.readList n mid with
          | error e => simp [readList, hc, hn] at h
          | ok s =>
              obtain ⟨ys, rest'⟩ := s
              simp only [readList, hc, hn, Except.ok.injEq, Prod.mk.injEq] at h
              obtain ⟨rfl, rfl⟩ := h
              obtain ⟨hx, hmid⟩ := c.canonical input x mid hc
              obtain ⟨hlen, hys, hrest⟩ := ih mid ys hn
              refine ⟨by simp [hlen], ?_, ?_⟩
              · intro y hy
                rcases List.mem_cons.mp hy with rfl | hy
                · exact hx
                · exact hys y hy
              · rw [List.flatMap_cons, List.append_assoc, hrest, hmid]

/-- A known number of values. -/
def replicate (c : Codec σ ε α) (n : ℕ) : Codec σ ε (List α) where
  serialize xs := xs.flatMap c.serialize
  unserialize := c.readList n
  Valid xs := xs.length = n ∧ ∀ x ∈ xs, c.Valid x
  round := by
    rintro xs rest ⟨rfl, hxs⟩
    exact c.readList_round xs rest hxs
  canonical := by
    intro input xs rest h
    obtain ⟨hlen, hxs, hinput⟩ := c.readList_canonical n input xs rest h
    exact ⟨⟨hlen, hxs⟩, hinput⟩

/-- The number of values in front of them. -/
def list (size : Codec σ ε ℕ) (c : Codec σ ε α) : Codec σ ε (List α) :=
  (size.seq c.replicate).image Prod.snd (fun xs => (xs.length, xs))
    (fun xs => size.Valid xs.length ∧ ∀ x ∈ xs, c.Valid x)
    (fun _ hxs => ⟨⟨hxs.1, rfl, hxs.2⟩, rfl⟩)
    (by
      rintro ⟨n, xs⟩ ⟨hn, hlen, hxs⟩
      obtain rfl : xs.length = n := hlen
      exact ⟨⟨hn, hxs⟩, rfl⟩)

@[simp] theorem list_serialize (size : Codec σ ε ℕ) (c : Codec σ ε α) (xs : List α) :
    (list size c).serialize xs = size.serialize xs.length ++ xs.flatMap c.serialize := rfl

end Codec

/-! ## Numbers in bytes -/

namespace LittleEndian

/-- The lowest `w` bytes of a number, lowest first. -/
def toBytes : (w : ℕ) → ℕ → List UInt8
  | 0, _ => []
  | w + 1, n => UInt8.ofNat (n % 256) :: toBytes w (n / 256)

def ofBytes : List UInt8 → ℕ
  | [] => 0
  | b :: bs => b.toNat + 256 * ofBytes bs

@[simp] theorem length_toBytes (w n : ℕ) : (toBytes w n).length = w := by
  induction w generalizing n with
  | zero => rfl
  | succ w ih => simp [toBytes, ih]

theorem ofBytes_toBytes (w n : ℕ) (h : n < 256 ^ w) : ofBytes (toBytes w n) = n := by
  induction w generalizing n with
  | zero =>
      have : n = 0 := by simpa using h
      simp [toBytes, ofBytes, this]
  | succ w ih =>
      have hdiv : n / 256 < 256 ^ w := by
        rw [pow_succ] at h
        omega
      simp only [toBytes, ofBytes, ih _ hdiv, UInt8.toNat_ofNat']
      omega

theorem toBytes_ofBytes (bs : List UInt8) : toBytes bs.length (ofBytes bs) = bs := by
  induction bs with
  | nil => rfl
  | cons b bs ih =>
      have hb := b.toNat_lt
      have hmod : (b.toNat + 256 * ofBytes bs) % 256 = b.toNat := by omega
      have hdiv : (b.toNat + 256 * ofBytes bs) / 256 = ofBytes bs := by omega
      simp only [List.length_cons, toBytes, ofBytes, hmod, hdiv, ih, UInt8.ofNat_toNat]

theorem ofBytes_lt (bs : List UInt8) : ofBytes bs < 256 ^ bs.length := by
  induction bs with
  | nil => simp [ofBytes]
  | cons b bs ih =>
      have hb := b.toNat_lt
      simp only [ofBytes, List.length_cons, pow_succ]
      omega

end LittleEndian

namespace Codec

variable {ε : Type u}

open LittleEndian

/-- An unsigned number of `w` bytes. -/
def nat (eof : ε) (w : ℕ) : Codec UInt8 ε ℕ :=
  ((symbol eof).replicate w).image ofBytes (toBytes w) (· < 256 ^ w)
    (fun n hn => ⟨⟨length_toBytes w n, fun _ _ => trivial⟩, ofBytes_toBytes w n hn⟩)
    (by
      rintro bs ⟨rfl, -⟩
      exact ⟨ofBytes_lt bs, toBytes_ofBytes bs⟩)

@[simp] theorem length_nat_serialize (eof : ε) (w n : ℕ) :
    ((nat eof w).serialize n).length = w := by
  have h : ((toBytes w n).flatMap fun b => [b]) = toBytes w n := by simp
  calc ((nat eof w).serialize n).length = ((toBytes w n).flatMap fun b => [b]).length := rfl
    _ = w := by rw [h, length_toBytes]

/-- A signed number of `w` bytes in two's complement. -/
def int (eof : ε) (w : ℕ) : Codec UInt8 ε ℤ :=
  (nat eof w).image (fun n => (n : ℤ).bmod (256 ^ w)) (fun z => (z % (256 ^ w : ℕ)).toNat)
    (fun z => z.bmod (256 ^ w) = z)
    (by
      intro z hz
      have hpos : (0 : ℤ) < (256 ^ w : ℕ) := by positivity
      have hnonneg : 0 ≤ z % (256 ^ w : ℕ) := Int.emod_nonneg z hpos.ne'
      have hlt : z % (256 ^ w : ℕ) < (256 ^ w : ℕ) := Int.emod_lt_of_pos z hpos
      refine ⟨by change (z % (256 ^ w : ℕ)).toNat < 256 ^ w; omega, ?_⟩
      rw [Int.toNat_of_nonneg hnonneg, Int.emod_bmod, hz])
    (by
      intro n hn
      change n < 256 ^ w at hn
      have hlt : (n : ℤ) < (256 ^ w : ℕ) := by exact_mod_cast hn
      refine ⟨Int.bmod_bmod, ?_⟩
      rw [Int.bmod_emod, Int.emod_eq_of_lt (by positivity) hlt, Int.toNat_natCast])

@[simp] theorem length_int_serialize (eof : ε) (w : ℕ) (z : ℤ) :
    ((int eof w).serialize z).length = w := length_nat_serialize eof w _

theorem int_valid_iff (eof : ε) (w : ℕ) (z : ℤ) :
    (int eof (w + 1)).Valid z ↔ -(2 ^ (8 * w + 7) : ℤ) ≤ z ∧ z < 2 ^ (8 * w + 7) := by
  have hpow : (256 ^ (w + 1) : ℕ) = 2 * 2 ^ (8 * w + 7) := by
    rw [show (256 : ℕ) = 2 ^ 8 by norm_num, ← pow_mul]
    ring
  change z.bmod (256 ^ (w + 1)) = z ↔ _
  rw [hpow]
  have hpos : 0 < 2 ^ (8 * w + 7) := by positivity
  generalize h : 2 ^ (8 * w + 7) = p at *
  have hcast : (2 ^ (8 * w + 7) : ℤ) = p := by exact_mod_cast h
  rw [hcast]
  constructor
  · intro hz
    have hlo := Int.le_bmod (x := z) (m := 2 * p) (by omega)
    have hhi := Int.bmod_lt (x := z) (m := 2 * p) (by omega)
    omega
  · rintro ⟨hlo, hhi⟩
    exact Int.bmod_eq_of_le (by omega) (by omega)

/-- A run of bytes with its length in front. -/
def bytes (eof : ε) (size : Codec UInt8 ε ℕ) : Codec UInt8 ε (List UInt8) :=
  list size (symbol eof)

theorem length_bytes_serialize (eof : ε) (size : Codec UInt8 ε ℕ) (bs : List UInt8) :
    ((bytes eof size).serialize bs).length = (size.serialize bs.length).length + bs.length := by
  have h : bs.flatMap (fun b => [b]) = bs := by simp
  calc ((bytes eof size).serialize bs).length
      = (size.serialize bs.length ++ bs.flatMap fun b => [b]).length := rfl
    _ = _ := by rw [h, List.length_append]

end Codec

/-! ## Prefix-free writing

Where one value ends can be told from the bytes themselves, so that what follows does not matter. A
codec writes that way; so do pairs, lists and records of values that are written that way, also where
there is no reader that accepts them all. -/

variable {σ : Type} {α β : Type}

/-- Of two values with a property, what is written is the same only where they are, whatever is
written behind them. -/
def PrefixFree (write : α → List σ) (V : α → Prop) : Prop :=
  ∀ x y r s, V x → V y → write x ++ r = write y ++ s → x = y ∧ r = s

namespace PrefixFree

variable {write : α → List σ} {V : α → Prop}

theorem mono (h : PrefixFree write V) {V' : α → Prop} (hV : ∀ x, V' x → V x) :
    PrefixFree write V' := by
  intro x y r s hx hy heq
  exact h x y r s (hV x hx) (hV y hy) heq

/-- A record is written through its fields. -/
theorem comap (h : PrefixFree write V) {f : β → α} (hf : Function.Injective f) :
    PrefixFree (fun x => write (f x)) (fun x => V (f x)) := by
  intro x y r s hx hy heq
  obtain ⟨hfields, hrest⟩ := h (f x) (f y) r s hx hy heq
  exact ⟨hf hfields, hrest⟩

/-- How the second value is written may depend on the first. -/
theorem seq (h : PrefixFree write V) {next : α → β → List σ} {W : α → β → Prop}
    (hnext : ∀ x, V x → PrefixFree (next x) (W x)) :
    PrefixFree (fun p : α × β => write p.1 ++ next p.1 p.2) (fun p => V p.1 ∧ W p.1 p.2) := by
  rintro ⟨x, x'⟩ ⟨y, y'⟩ r s ⟨hx, hx'⟩ ⟨hy, hy'⟩ heq
  simp only [List.append_assoc] at heq
  obtain ⟨hxy, hrest⟩ := h x y _ _ hx hy heq
  subst hxy
  obtain ⟨hxy', hrs⟩ := hnext x hx x' y' r s hx' hy' hrest
  exact ⟨by rw [hxy'], hrs⟩

theorem flatMap (h : PrefixFree write V) {xs ys : List α} {r s : List σ}
    (hlength : xs.length = ys.length) (hxs : ∀ x ∈ xs, V x) (hys : ∀ y ∈ ys, V y)
    (heq : xs.flatMap write ++ r = ys.flatMap write ++ s) : xs = ys ∧ r = s := by
  induction xs generalizing ys with
  | nil =>
    rw [List.length_nil, eq_comm, List.length_eq_zero_iff] at hlength
    subst hlength
    exact ⟨rfl, heq⟩
  | cons x xs ih =>
    match ys with
    | [] => simp at hlength
    | y :: ys =>
      rw [List.flatMap_cons, List.flatMap_cons, List.append_assoc, List.append_assoc] at heq
      obtain ⟨hxy, hrest⟩ := h x y _ _ (hxs x List.mem_cons_self) (hys y List.mem_cons_self) heq
      obtain ⟨hlist, hrs⟩ := ih (Nat.succ.inj hlength) (fun z hz => hxs z (List.mem_cons_of_mem x hz))
        (fun z hz => hys z (List.mem_cons_of_mem y hz)) hrest
      exact ⟨by rw [hxy, hlist], hrs⟩

theorem list (h : PrefixFree write V) {size : ℕ → List σ} {N : ℕ → Prop} (hsize : PrefixFree size N) :
    PrefixFree (fun xs : List α => size xs.length ++ xs.flatMap write)
      (fun xs => N xs.length ∧ ∀ x ∈ xs, V x) := by
  rintro xs ys r s ⟨hxlen, hxs⟩ ⟨hylen, hys⟩ heq
  simp only [List.append_assoc] at heq
  obtain ⟨hlength, hrest⟩ := hsize _ _ _ _ hxlen hylen heq
  exact h.flatMap hlength hxs hys hrest

end PrefixFree

namespace Codec

variable {ε : Type u}

/-- What can be read back in front of every rest is prefix-free. -/
theorem prefixFree (c : Codec σ ε α) : PrefixFree c.serialize c.Valid := by
  intro x y r s hx hy heq
  have hread := c.round x r hx
  rw [heq, c.round y s hy, Except.ok.injEq, Prod.mk.injEq] at hread
  exact ⟨hread.1.symm, hread.2.symm⟩

end Codec
