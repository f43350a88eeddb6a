import Mathlib.Data.ZMod.Basic
import Mathlib.GroupTheory.OrderOfElement
import Dions.Model.Reflection

/-! # Sender and receiver of a stealth payment

The payer multiplies the view key of the address by the ephemeral secret, the receiver the ephemeral
key by the view secret; both add the hash of that point to the spending key. -/

namespace Dions

open Halting

variable {v : List UInt8}

/-! ## Memory -/

theorem BN_bin2bn_ok {len : ℕ} (hpos : 0 < len) (hlength : v.length = len) :
    BN_bin2bn v len = .ok (BigEndian.value v) := by
  have hne : v ≠ [] := List.ne_nil_of_length_pos (hlength ▸ hpos)
  rw [BN_bin2bn, if_pos ⟨hne, Nat.le_of_eq hlength.symm⟩, List.take_of_length_le hlength.le]

theorem overwrite_front {bytes : List UInt8} (h : bytes.length ≤ v.length) :
    overwrite v 0 bytes = .ok (bytes ++ v.drop bytes.length) := by
  rw [overwrite, Nat.zero_add, if_pos h]
  rfl

theorem overwrite_all {bytes : List UInt8} (h : bytes.length = v.length) :
    overwrite v 0 bytes = .ok bytes := by
  rw [overwrite_front h.le, h, List.drop_length, List.append_nil]

theorem BN_bin2bn_append {bytes rest : List UInt8} {len : ℕ} (hpos : 0 < len)
    (hlength : bytes.length = len) :
    BN_bin2bn (bytes ++ rest) len = .ok (BigEndian.value bytes) := by
  have hne : bytes ≠ [] := List.ne_nil_of_length_pos (hlength ▸ hpos)
  have hle : len ≤ (bytes ++ rest).length := by
    rw [List.length_append, hlength]
    exact Nat.le_add_right _ _
  rw [BN_bin2bn, if_pos ⟨List.append_ne_nil_of_left_ne_nil hne rest, hle⟩, ← hlength,
    List.take_left]

/-- A number that has room is written with zeros in front of it. -/
theorem overwrite_padded {bn w : ℕ} (h : BN_num_bytes bn ≤ w) :
    overwrite (List.replicate w 0) (w - BN_num_bytes bn) (BN_bn2bin bn) =
      .ok (List.replicate (w - BN_num_bytes bn) 0 ++ BN_bn2bin bn) := by
  have hlength : (BN_bn2bin bn).length = BN_num_bytes bn := BigEndian.length_toBytes _ _
  have hend : w - BN_num_bytes bn + (BN_bn2bin bn).length = w := by
    rw [hlength]
    exact Nat.sub_add_cancel h
  rw [overwrite, hend, List.length_replicate, if_pos (Nat.le_refl w), List.take_replicate,
    Nat.min_eq_left (Nat.sub_le _ _), List.drop_replicate, Nat.sub_self, List.replicate_zero,
    List.append_nil]

theorem value_BN_bn2bin (bn : ℕ) : BigEndian.value (BN_bn2bin bn) = bn :=
  BigEndian.value_toBytes (BigEndian.width_le_iff.mp (Nat.le_refl _))

namespace Curve

/-! ## The curve -/

/-- What is relied on: the generator has prime order, of 32 bytes, a point other than the one at
infinity has 33 bytes and is found from them again, and a hash has 32 bytes. -/
structure Lawful (c : Curve) : Prop where
  prime : c.order.Prime
  order_eq : addOrderOf c.G = c.order
  order_lt : c.order < 256 ^ 32
  point2oct : ∀ P, P ≠ 0 → ∃ tag x, c.point2oct P = tag :: x ∧ tag ≠ 0 ∧ x.length = 0x20
  oct2point : ∀ P, P ≠ 0 → c.oct2point (c.point2oct P) = some P
  SHA256 : ∀ bytes, (c.SHA256 bytes).length = 0x20

variable {c : Curve}

namespace Lawful

variable (laws : c.Lawful) {P : c.Point} (hP : P ≠ 0)

include laws

theorem smul_eq_zero_iff (k : ℕ) : k • c.G = 0 ↔ c.order ∣ k := by
  rw [← laws.order_eq]
  exact addOrderOf_dvd_iff_nsmul_eq_zero.symm

theorem smul_mod (k : ℕ) : (k % c.order) • c.G = k • c.G := by
  rw [← laws.order_eq]
  exact mod_addOrderOf_nsmul c.G k

include hP

theorem length_point2oct : (c.point2oct P).length = 0x21 := by
  obtain ⟨tag, x, heq, _, hx⟩ := laws.point2oct P hP
  rw [heq, List.length_cons, hx]

theorem num_bytes : BN_num_bytes (c.point2bn P) = 0x21 := by
  obtain ⟨tag, x, heq, htag, hx⟩ := laws.point2oct P hP
  rw [BN_num_bytes, point2bn, heq, BigEndian.width_value_cons htag, hx]

theorem require_bytes : require (BN_num_bytes (c.point2bn P) = 0x21) = .ok () :=
  require_eq_ok.mpr (laws.num_bytes hP)

theorem bn2bin : BN_bn2bin (c.point2bn P) = c.point2oct P := by
  have h := BigEndian.toBytes_value (c.point2oct P)
  rw [laws.length_point2oct hP] at h
  rw [BN_bn2bin, laws.num_bytes hP]
  exact h

theorem pointOf : c.pointOf (BigEndian.value (c.point2oct P)) = .ok P := by
  have hbytes := laws.num_bytes hP
  have hne : c.point2bn P ≠ 0 := by
    intro hzero
    rw [hzero] at hbytes
    cases hbytes
  have hbn : BigEndian.value (c.point2oct P) = c.point2bn P := rfl
  rw [hbn, Curve.pointOf, bn2point, if_neg hne, laws.bn2bin hP, laws.oct2point P hP]

theorem readPoint : BN_bin2bn (c.point2oct P) (c.point2oct P).length =
    .ok (BigEndian.value (c.point2oct P)) :=
  BN_bin2bn_ok (by rw [laws.length_point2oct hP]; exact Nat.succ_pos _) rfl

end Lawful

/-- The number that both sides find: the hash of the shared point. -/
def sharedHash (c : Curve) (k : ℕ) (P : c.Point) : ℕ := BigEndian.value (c.SHA256 (c.point2oct (k • P)))

/-! ## The routines -/

theorem reflection_ok (laws : c.Lawful) {e fq2 fq5 : List UInt8} {V S : c.Point}
    (he : e.length = 0x20) (hfq2 : 0x20 ≤ fq2.length) (hV : V ≠ 0) (hS : S ≠ 0)
    (hshared : BigEndian.value e • V ≠ 0)
    (hsum : S + c.sharedHash (BigEndian.value e) V • c.G ≠ 0) :
    c.reflection ⟨e, c.point2oct V, c.point2oct S, fq2, fq5⟩ =
      .ok ⟨e, c.point2oct V, c.point2oct S,
        c.SHA256 (c.point2oct (BigEndian.value e • V)) ++ fq2.drop 0x20,
        c.point2oct (S + c.sharedHash (BigEndian.value e) V • c.G)⟩ := by
  have hsha := laws.SHA256 (c.point2oct (BigEndian.value e • V))
  have hwrite := overwrite_front (v := fq2) (hsha.trans_le hfq2)
  rw [hsha] at hwrite
  rw [reflection]
  simp only [BN_bin2bn_ok (Nat.succ_pos _) he, laws.readPoint hV, laws.readPoint hS,
    laws.pointOf hV, laws.pointOf hS, laws.require_bytes hshared, laws.bn2bin hshared, hwrite,
    BN_bin2bn_append (Nat.succ_pos _) hsha, Exec.within, bind, Except.bind]
  rw [sharedHash] at hsum ⊢
  rw [laws.require_bytes hsum, laws.bn2bin hsum]

theorem outer_ok (laws : c.Lawful) {t c_ : List UInt8} {E S : c.Point} (ht : t.length = 0x20)
    (hE : E ≠ 0) (hS : S ≠ 0) (hshared : BigEndian.value t • E ≠ 0)
    (hsum : S + c.sharedHash (BigEndian.value t) E • c.G ≠ 0) :
    c.synth_piv_conv71_outer t (c.point2oct E) (c.point2oct S) c_ =
      .ok (c.point2oct (S + c.sharedHash (BigEndian.value t) E • c.G)) := by
  have hsha := laws.SHA256 (c.point2oct (BigEndian.value t • E))
  have hwrite : overwrite (List.replicate 0x21 0) 0 (c.SHA256 (c.point2oct (BigEndian.value t • E))) =
      .ok (c.SHA256 (c.point2oct (BigEndian.value t • E)) ++ [0]) := by
    rw [overwrite_front (by rw [hsha, List.length_replicate]; exact Nat.le_succ _), hsha]
    rfl
  have hread : BN_bin2bn (c.point2oct S) 0x21 = .ok (BigEndian.value (c.point2oct S)) :=
    BN_bin2bn_ok (Nat.succ_pos _) (laws.length_point2oct hS)
  rw [synth_piv_conv71_outer]
  simp only [BN_bin2bn_ok (Nat.succ_pos _) ht, laws.readPoint hE, hread, laws.pointOf hE,
    laws.pointOf hS, laws.require_bytes hshared, laws.bn2bin hshared, hwrite,
    BN_bin2bn_append (Nat.succ_pos _) hsha, Exec.within, bind, Except.bind]
  rw [sharedHash] at hsum ⊢
  rw [add_comm, laws.require_bytes hsum, laws.bn2bin hsum]

theorem intern_ok (laws : c.Lawful) {x y p : List UInt8} {E : c.Point} (hx : x.length = 0x20)
    (hy : y.length = 0x20) (hp : p.length = 0x20) (hE : E ≠ 0)
    (hshared : BigEndian.value x • E ≠ 0)
    (hsum : (BigEndian.value y + c.sharedHash (BigEndian.value x) E) % c.order ≠ 0) :
    ∃ secret, c.synth_piv_conv71_intern x (c.point2oct E) y p = .ok secret ∧
      secret.length = 0x20 ∧ BigEndian.value secret =
        (BigEndian.value y + c.sharedHash (BigEndian.value x) E) % c.order := by
  generalize hs : (BigEndian.value y + c.sharedHash (BigEndian.value x) E) % c.order = s at hsum ⊢
  have hbytes : BN_num_bytes s ≤ 0x20 := by
    have hlt := Nat.mod_lt (BigEndian.value y + c.sharedHash (BigEndian.value x) E)
      laws.prime.pos
    rw [hs] at hlt
    exact BigEndian.width_le_iff.mpr (hlt.trans laws.order_lt)
  have hsha := laws.SHA256 (c.point2oct (BigEndian.value x • E))
  have hwrite : overwrite (List.replicate 0x20 0) 0 (c.SHA256 (c.point2oct (BigEndian.value x • E))) =
      .ok (c.SHA256 (c.point2oct (BigEndian.value x • E))) :=
    overwrite_all (hsha.trans List.length_replicate.symm)
  have hclear : overwrite p 0 (List.replicate 0x20 0) = .ok (List.replicate 0x20 0) :=
    overwrite_all (List.length_replicate.trans hp.symm)
  have hnonzero : require (s ≠ 0) = .ok () := require_eq_ok.mpr hsum
  have hfits : require (BN_num_bytes s ≤ 0x20) = .ok () := require_eq_ok.mpr hbytes
  have hsecret : BigEndian.value (c.SHA256 (c.point2oct (BigEndian.value x • E))) =
      c.sharedHash (BigEndian.value x) E := rfl
  refine ⟨List.replicate (0x20 - BN_num_bytes s) 0 ++ BN_bn2bin s, ?_, ?_, ?_⟩
  · rw [synth_piv_conv71_intern]
    simp only [BN_bin2bn_ok (Nat.succ_pos _) hx, BN_bin2bn_ok (Nat.succ_pos _) hy,
      BN_bin2bn_ok (Nat.succ_pos _) hsha, laws.readPoint hE, laws.pointOf hE,
      laws.require_bytes hshared, laws.bn2bin hshared, hwrite, hclear, hsecret, hs, hnonzero, hfits,
      overwrite_padded hbytes, Exec.within, bind, Except.bind]
  · rw [List.length_append, List.length_replicate, BN_bn2bin, BigEndian.length_toBytes]
    exact Nat.sub_add_cancel hbytes
  · rw [BigEndian.value_replicate_append, value_BN_bn2bin]

theorem invert_ok (laws : c.Lawful) {e inv1 : List UInt8} (he : e.length = 0x20)
    (hinv1 : inv1.length = 0x21) (hne : BigEndian.value e • c.G ≠ 0) :
    c.invert ⟨e, inv1⟩ = .ok ⟨e, c.pubKey e⟩ := by
  have hwrite : overwrite inv1 0 (c.point2oct (BigEndian.value e • c.G)) =
      .ok (c.point2oct (BigEndian.value e • c.G)) :=
    overwrite_all ((laws.length_point2oct hne).trans hinv1.symm)
  rw [invert]
  simp only [BN_bin2bn_ok (Nat.succ_pos _) he, laws.require_bytes hne, laws.bn2bin hne, hwrite,
    Exec.within, bind, Except.bind]
  rfl

/-! ## Agreement -/

/-- The payer and the receiver, with the spending key or without it, find the same key; the receiver
goes by the public key that `invert` has written. -/
theorem payment_key_agrees (laws : c.Lawful) (e v s fq2 fq5 c_ p : List UInt8)
    (he : e.length = 0x20) (hv : v.length = 0x20) (hs : s.length = 0x20)
    (hfq2 : fq2.length = 0x20) (hp : p.length = 0x20) (hne : ¬ c.order ∣ BigEndian.value e)
    (hnv : ¬ c.order ∣ BigEndian.value v) (hns : ¬ c.order ∣ BigEndian.value s)
    (hsum : BigEndian.value s • c.G +
      c.sharedHash (BigEndian.value e) (BigEndian.value v • c.G) • c.G ≠ 0) :
    (∀ inv1, inv1.length = 0x21 → c.invert ⟨e, inv1⟩ = .ok ⟨e, c.pubKey e⟩) ∧
    ∃ pq secret, c.reflection ⟨e, c.pubKey v, c.pubKey s, fq2, fq5⟩ = .ok pq ∧
      c.synth_piv_conv71_outer v (c.pubKey e) (c.pubKey s) c_ = .ok pq.__fq5 ∧
      c.synth_piv_conv71_intern v (c.pubKey e) s p = .ok secret ∧
      secret.length = 0x20 ∧ c.pubKey secret = pq.__fq5 := by
  have hV := mt (laws.smul_eq_zero_iff _).mp hnv
  have hS := mt (laws.smul_eq_zero_iff _).mp hns
  have hE := mt (laws.smul_eq_zero_iff _).mp hne
  have hcomm : BigEndian.value v • (BigEndian.value e • c.G) =
      BigEndian.value e • (BigEndian.value v • c.G) := smul_comm _ _ _
  have hshared : BigEndian.value e • (BigEndian.value v • c.G) ≠ 0 := by
    rw [smul_smul, ne_eq, laws.smul_eq_zero_iff, laws.prime.dvd_mul]
    exact not_or.mpr ⟨hne, hnv⟩
  have hhash : c.sharedHash (BigEndian.value v) (BigEndian.value e • c.G) =
      c.sharedHash (BigEndian.value e) (BigEndian.value v • c.G) := by
    rw [sharedHash, sharedHash, hcomm]
  have hscalar : (BigEndian.value s +
      c.sharedHash (BigEndian.value v) (BigEndian.value e • c.G)) % c.order ≠ 0 := by
    rw [hhash, ne_eq, ← Nat.dvd_iff_mod_eq_zero, ← laws.smul_eq_zero_iff, add_smul]
    exact hsum
  obtain ⟨secret, hintern, hlength, hvalue⟩ :=
    intern_ok laws hv hs hp hE (hcomm ▸ hshared) hscalar
  refine ⟨fun inv1 hinv1 => invert_ok laws he hinv1 hE, _, secret,
    reflection_ok laws he hfq2.ge hV hS hshared hsum, ?_, hintern, hlength, ?_⟩
  · rw [← hhash]
    exact outer_ok laws hv hE hS (hcomm ▸ hshared) (hhash ▸ hsum)
  · rw [pubKey, hvalue, laws.smul_mod, hhash, add_smul]

end Curve

/-! ## A small curve -/

namespace Scenario

/-- Seven points, each written as its number, and a hash that is the last byte. -/
def sevenPoints : Curve where
  Point := ZMod 7
  group := inferInstance
  G := 1
  order := 7
  point2oct := fun P => 2 :: (List.replicate 31 0 ++ [UInt8.ofNat P.val])
  oct2point := fun bytes => bytes.getLast?.map fun b => (b.toNat : ZMod 7)
  SHA256 := fun bytes => List.replicate 31 0 ++ [bytes.getLast?.getD 0]

theorem sevenPoints_lawful : sevenPoints.Lawful where
  prime := by decide
  order_eq := ZMod.addOrderOf_one 7
  order_lt := by decide
  point2oct := fun P _ => ⟨2, _, rfl, by decide, rfl⟩
  oct2point := by
    intro P _
    have hall : ∀ P : ZMod 7, some (((UInt8.ofNat P.val).toNat : ℕ) : ZMod 7) = some P := by decide
    exact hall P
  SHA256 := fun _ => rfl

instance : DecidableEq sevenPoints.Point := inferInstanceAs (DecidableEq (ZMod 7))

def secretKey (b : UInt8) : List UInt8 := List.replicate 31 0 ++ [b]

end Scenario

open Scenario in
theorem Curve.payment_key_agrees_sevenPoints : ∃ pq secret,
    sevenPoints.reflection ⟨secretKey 2, sevenPoints.pubKey (secretKey 3),
        sevenPoints.pubKey (secretKey 5), List.replicate 0x20 0, []⟩ = .ok pq ∧
      sevenPoints.synth_piv_conv71_outer (secretKey 3) (sevenPoints.pubKey (secretKey 2))
        (sevenPoints.pubKey (secretKey 5)) [] = .ok pq.__fq5 ∧
      sevenPoints.synth_piv_conv71_intern (secretKey 3) (sevenPoints.pubKey (secretKey 2))
        (secretKey 5) (List.replicate 0x20 0) = .ok secret ∧
      secret.length = 0x20 ∧ sevenPoints.pubKey secret = pq.__fq5 :=
  (payment_key_agrees sevenPoints_lawful (secretKey 2) (secretKey 3) (secretKey 5)
    (List.replicate 0x20 0) [] [] (List.replicate 0x20 0) rfl rfl rfl rfl rfl (by decide) (by decide)
    (by decide) (by decide)).2

end Dions
