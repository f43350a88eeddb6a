import Mathlib.Algebra.Group.Defs
import Dions.Library.BigEndian
import Dions.Library.Halt

/-! # The arithmetic of stealth payments

The three routines that find the key of a payment: `reflection` for the one who pays, and for the
one who is paid one that needs the secret key and one that does not. The curve is a parameter. -/

namespace Dions

open Halting

/-- A group of points with its generator, and the functions of the library that are used with it. -/
structure Curve where
  Point : Type
  group : AddCommGroup Point
  G : Point
  order : ℕ
  /-- `EC_POINT_point2oct` with compression. -/
  point2oct : Point → List UInt8
  /-- `EC_POINT_oct2point`; bytes that are no point are refused. -/
  oct2point : List UInt8 → Option Point
  SHA256 : List UInt8 → List UInt8

attribute [instance] Curve.group

/-! ## Memory -/

/-- `BN_bin2bn(&v[0], len, ..)`. -/
def BN_bin2bn (v : List UInt8) (len : ℕ) : Exec ℕ :=
  if v ≠ [] ∧ len ≤ v.length then .ok (BigEndian.value (v.take len)) else .error .undefined

def BN_num_bytes (bn : ℕ) : ℕ := BigEndian.width bn

def BN_bn2bin (bn : ℕ) : List UInt8 := BigEndian.toBytes (BN_num_bytes bn) bn

/-- Bytes are written into a vector from a position on. -/
def overwrite (v : List UInt8) (pos : ℕ) (bytes : List UInt8) : Exec (List UInt8) :=
  if pos + bytes.length ≤ v.length then
    .ok (v.take pos ++ bytes ++ v.drop (pos + bytes.length))
  else .error .undefined

def resizeTo (v : List UInt8) (size : ℕ) : List UInt8 :=
  v.take size ++ List.replicate (size - v.length) 0

/-- What the payer hands in: the ephemeral secret and the two keys of the address; the hash and the
key of the payment come back. -/
structure Pq where
  __fq1 : List UInt8
  __fq9 : List UInt8
  __fq0 : List UInt8
  __fq2 : List UInt8
  __fq5 : List UInt8
  deriving DecidableEq, Repr

structure Inv where
  __inv7 : List UInt8
  __inv1 : List UInt8
  deriving DecidableEq, Repr

namespace Curve

variable (c : Curve)

/-! ## Points and numbers -/

/-- `EC_POINT_bn2point`: zero is one byte. -/
def bn2point (bn : ℕ) : Option c.Point :=
  c.oct2point (if bn = 0 then [0] else BN_bn2bin bn)

/-- `EC_POINT_point2bn` with compression. -/
def point2bn (P : c.Point) : ℕ := BigEndian.value (c.point2oct P)

/-- `return -1` when the bytes are no point. -/
def pointOf (bn : ℕ) : Exec c.Point :=
  match c.bn2point bn with
  | none => .error .reject
  | some P => .ok P

/-- `SetSecret(.., true)` and then `GetPubKey`. -/
def pubKey (vchSecret : List UInt8) : List UInt8 :=
  c.point2oct (BigEndian.value vchSecret • c.G)

/-! ## The payer -/

def reflection (v : Pq) : Halt Pq Pq := do
  let t ← (BN_bin2bn v.__fq1 0x20).within v
  let s ← (BN_bin2bn v.__fq9 v.__fq9.length).within v
  let k ← (c.pointOf s).within v
  let q := c.point2bn (t • k)
  (require (BN_num_bytes q = 0x21)).within v
  let vt := BN_bn2bin q
  let fq2 ← (overwrite v.__fq2 0 (c.SHA256 vt)).within v
  let v := { v with __fq2 := fq2 }
  let l1 ← (BN_bin2bn v.__fq2 0x20).within v
  let o1 := l1 • c.G
  let q1 ← (BN_bin2bn v.__fq0 v.__fq0.length).within v
  let kvtx ← (c.pointOf q1).within v
  let g1 := c.point2bn (kvtx + o1)
  let v := { v with __fq5 := resizeTo v.__fq5 0x21 }
  (require (BN_num_bytes g1 = 0x21)).within v
  .ok { v with __fq5 := BN_bn2bin g1 }

/-- The ephemeral public key that goes with the payment. -/
def invert (inv : Inv) : Halt Inv Inv := do
  let i7 ← (BN_bin2bn inv.__inv7 0x20).within inv
  let img := c.point2bn (i7 • c.G)
  (require (BN_num_bytes img = 0x21)).within inv
  let inv1 ← (overwrite inv.__inv1 0 (BN_bn2bin img)).within inv
  .ok { inv with __inv1 := inv1 }

/-! ## The receiver -/

def synth_piv_conv71_intern (x_intern im y_intern p_intern : List UInt8) :
    Halt (List UInt8) (List UInt8) := do
  let s1 ← (BN_bin2bn x_intern 0x20).within p_intern
  let s2 ← (BN_bin2bn im im.length).within p_intern
  let s3 ← (c.pointOf s2).within p_intern
  let s4 := c.point2bn (s1 • s3)
  (require (BN_num_bytes s4 = 0x21)).within p_intern
  let v := BN_bn2bin s4
  let v__f ← (overwrite (List.replicate 0x20 0) 0 (c.SHA256 v)).within p_intern
  let s5 ← (BN_bin2bn v__f 0x20).within p_intern
  let s6 := c.order
  let s7 ← (BN_bin2bn y_intern 0x20).within p_intern
  let s7 := (s7 + s5) % s6
  (require (s7 ≠ 0)).within p_intern
  let p_intern ← (overwrite p_intern 0 (List.replicate 0x20 0)).within p_intern
  let n_ := BN_num_bytes s7
  (require (n_ ≤ 0x20)).within p_intern
  (overwrite p_intern (0x20 - n_) (BN_bn2bin s7)).within p_intern

def synth_piv_conv71_outer (t i outer_offset c_ : List UInt8) :
    Halt (List UInt8) (List UInt8) := do
  let g1 ← (BN_bin2bn t 0x20).within c_
  let s ← (BN_bin2bn i i.length).within c_
  let g0 ← (c.pointOf s).within c_
  let q1 := c.point2bn (g1 • g0)
  (require (BN_num_bytes q1 = 0x21)).within c_
  let vt_ := BN_bn2bin q1
  let v ← (overwrite (List.replicate 0x21 0) 0 (c.SHA256 vt_)).within c_
  let l1 ← (BN_bin2bn v 0x20).within c_
  let o1 := l1 • c.G
  let q ← (BN_bin2bn outer_offset 0x21).within c_
  let k ← (c.pointOf q).within c_
  let t := c.point2bn (o1 + k)
  let c_ := resizeTo c_ 0x21
  (require (BN_num_bytes t = 0x21)).within c_
  .ok (BN_bn2bin t)

end Curve

end Dions
