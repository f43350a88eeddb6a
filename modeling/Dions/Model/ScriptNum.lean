import Dions.Library.BigEndian
import Dions.Model.Interpreter
import Mathlib.Data.Nat.Size

/-! # The two coders of script numbers

`CScriptNum` shifts the bytes of a 64-bit integer, `CBigNum` goes through a number of OpenSSL. -/

namespace Dions

/-! ## CScriptNum -/

namespace CScriptNum

def absBytes (absvalue : ℕ) : List UInt8 :=
  if absvalue = 0 then [] else UInt8.ofNat (absvalue &&& 0xff) :: absBytes (absvalue >>> 8)
termination_by absvalue
decreasing_by
  rw [Nat.shiftRight_eq_div_pow]
  omega

def serialize (value : ℤ) : valtype :=
  if value = 0 then []
  else
    let neg := value < 0
    let result := absBytes (if neg then -value else value).toNat
    if (result.getLastD 0) &&& 0x80 ≠ 0 then result ++ [if neg then 0x80 else 0]
    else if neg then result.dropLast ++ [result.getLastD 0 ||| 0x80]
    else result

/-- A conversion to `int64_t`. -/
def int64 (n : UInt64) : ℤ := (n.toNat : ℤ).bmod (2 ^ 64)

def orByte (vch : valtype) (result : UInt64) (i : ℕ) : UInt64 :=
  result ||| (vch.getD i 0).toUInt64 <<< UInt64.ofNat (8 * i)

/-- `set_vch` on an `int64_t`. -/
def set_vch64 (vch : valtype) : ℤ :=
  if vch = [] then 0
  else
    let result := (List.range vch.length).foldl (orByte vch) 0
    if vch.getLastD 0 &&& 0x80 ≠ 0 then
      -int64 (result &&& ~~~((0x80 : UInt64) <<< UInt64.ofNat (8 * (vch.length - 1))))
    else int64 result

/-- The constructor from bytes, `none` where it throws. -/
def ofVch64 (vch : valtype) (fRequireMinimal : Bool) (nMaxNumSize : ℕ) : Option ℤ :=
  if nMaxNumSize < vch.length then none
  else if fRequireMinimal && !isMinimal vch then none
  else some (set_vch64 vch)

end CScriptNum

/-! ## CBigNum -/

/-- The functions of OpenSSL that carry numbers in and out. -/
structure OpenSsl where
  BIGNUM : Type
  BN_set_word : ℕ → BIGNUM
  BN_mpi2bn : List UInt8 → BIGNUM
  BN_bn2mpi : BIGNUM → List UInt8

namespace CBigNum

variable (ssl : OpenSsl)

/-- `pch[0] = (nSize >> 24) & 0xff`, and so on. -/
def sizeBytes (nSize : ℕ) : List UInt8 :=
  [UInt8.ofNat ((nSize >>> 24) &&& 0xff), UInt8.ofNat ((nSize >>> 16) &&& 0xff),
    UInt8.ofNat ((nSize >>> 8) &&& 0xff), UInt8.ofNat (nSize &&& 0xff)]

/-- The rounds of `setint64` that are left, and the bytes from `pch + 4` to `p`. -/
def setint64Loop (fNegative : Bool) :
    (rounds : ℕ) → (n : UInt64) → (fLeadingZeroes : Bool) → List UInt8 → List UInt8
  | 0, _, _, p => p
  | rounds + 1, n, fLeadingZeroes, p =>
    let c := ((n >>> 56) &&& 0xff).toUInt8
    let n := n <<< 8
    if fLeadingZeroes then
      if c = 0 then setint64Loop fNegative rounds n true p
      else if c &&& 0x80 ≠ 0 then
        setint64Loop fNegative rounds n false (p ++ [if fNegative then 0x80 else 0] ++ [c])
      else setint64Loop fNegative rounds n false (p ++ [if fNegative then c ||| 0x80 else c])
    else setint64Loop fNegative rounds n false (p ++ [c])

/-- The minimum is negated after adding one. -/
def setint64 (sn : ℤ) : ssl.BIGNUM :=
  let fNegative := decide (sn < 0)
  let n := if sn < 0 then UInt64.ofNat (-(sn + 1)).toNat + 1 else UInt64.ofNat sn.toNat
  let p := setint64Loop fNegative 8 n true []
  ssl.BN_mpi2bn (sizeBytes p.length ++ p)

/-- The loop is that of `setint64` for a number that is not negative. -/
def setuint64 (n : ℕ) : ssl.BIGNUM :=
  let p := setint64Loop false 8 (UInt64.ofNat n) true []
  ssl.BN_mpi2bn (sizeBytes p.length ++ p)

def setulong (n : ℕ) : ssl.BIGNUM := ssl.BN_set_word n

/-- The constructors from `long` and from `long long`, one of which `int64_t` is. -/
def ofInt64 (isLong : Bool) (n : ℤ) : ssl.BIGNUM :=
  if isLong then if 0 ≤ n then setulong ssl n.toNat else setint64 ssl n
  else setint64 ssl n

/-- The constructors from `unsigned long` and from `unsigned long long`. -/
def ofUint64 (isLong : Bool) (n : ℕ) : ssl.BIGNUM := if isLong then setulong ssl n else setuint64 ssl n

def setvch (vch : valtype) : ssl.BIGNUM :=
  let nSize := vch.length % 2 ^ 32
  ssl.BN_mpi2bn (sizeBytes nSize ++ vch.reverse)

def getvch (bn : ssl.BIGNUM) : valtype :=
  let vch := ssl.BN_bn2mpi bn
  if vch.length ≤ 4 then [] else (vch.drop 4).reverse

end CBigNum

/-! ## The MPI format -/

/-- A number behind its length: the highest byte first, and the highest bit is the sign. -/
def mpiBody (n : ℤ) : List UInt8 :=
  let bits := n.natAbs.size
  let d := (if 0 < bits ∧ bits % 8 = 0 then [0] else []) ++ BigEndian.toBytes ((bits + 7) / 8) n.natAbs
  if n < 0 then d.modifyHead (· ||| 0x80) else d

def mpiValue : List UInt8 → ℤ
  | [] => 0
  | b :: d =>
    if b &&& 0x80 ≠ 0 then -(BigEndian.value ((b &&& 0x7f) :: d) : ℤ) else BigEndian.value (b :: d)

/-- `BN_set_word`, `BN_mpi2bn` and `BN_bn2mpi` as they are documented. -/
structure OpenSsl.Mpi (ssl : OpenSsl) (value : ssl.BIGNUM → ℤ) : Prop where
  set_word : ∀ w < 2 ^ 64, value (ssl.BN_set_word w) = w
  mpi2bn : ∀ d : List UInt8, d.length < 2 ^ 31 →
    value (ssl.BN_mpi2bn (CBigNum.sizeBytes d.length ++ d)) = mpiValue d
  bn2mpi : ∀ bn, ssl.BN_bn2mpi bn = CBigNum.sizeBytes (mpiBody (value bn)).length ++ mpiBody (value bn)

/-! ## Pushing numbers -/

namespace CScript

variable (ssl : OpenSsl)

def push_int64 (isLong : Bool) (script : CScript) (n : ℤ) : CScript :=
  if n = -1 ∨ 1 ≤ n ∧ n ≤ 16 then script ++ [UInt8.ofNat (n + (OP_1 - 1)).toNat]
  else script ++ pushVch (CBigNum.getvch ssl (CBigNum.ofInt64 ssl isLong n))

def push_uint64 (isLong : Bool) (script : CScript) (n : ℕ) : CScript :=
  if 1 ≤ n ∧ n ≤ 16 then script ++ [UInt8.ofNat (n + (OP_1 - 1))]
  else script ++ pushVch (CBigNum.getvch ssl (CBigNum.ofUint64 ssl isLong n))

end CScript

end Dions
