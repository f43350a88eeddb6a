import Dions.Model.Endpoint

/-! # Fixed-width integers

`base_uint` keeps its value in limbs of 32 bits, the lowest one first. -/

namespace Dions

structure base_uint (WIDTH : ℕ) where
  pn : Vector UInt32 WIDTH
  deriving DecidableEq

namespace base_uint

variable {WIDTH : ℕ}

/-- `pn[i]` -/
def limb (a : base_uint WIDTH) (i : ℕ) : UInt32 := a.pn[i]?.getD 0

/-- `pn[i] = x` -/
def setLimb (a : base_uint WIDTH) (i : ℕ) (x : UInt32) : base_uint WIDTH := ⟨a.pn.setIfInBounds i x⟩

def zero : base_uint WIDTH := ⟨Vector.replicate WIDTH 0⟩

/-! ## Arithmetic -/

/-- `operator~` -/
def complement (a : base_uint WIDTH) : base_uint WIDTH := ⟨a.pn.map fun x => ~~~x⟩

def incrementFrom (i : ℕ) (a : base_uint WIDTH) : base_uint WIDTH :=
  let a := a.setLimb i (a.limb i + 1)
  if a.limb i = 0 ∧ i < WIDTH - 1 then incrementFrom (i + 1) a else a
termination_by WIDTH - 1 - i

/-- `operator++` -/
def increment (a : base_uint WIDTH) : base_uint WIDTH := incrementFrom 0 a

def decrementFrom (i : ℕ) (a : base_uint WIDTH) : base_uint WIDTH :=
  let a := a.setLimb i (a.limb i - 1)
  if a.limb i = -1 ∧ i < WIDTH - 1 then decrementFrom (i + 1) a else a
termination_by WIDTH - 1 - i

/-- `operator--` -/
def decrement (a : base_uint WIDTH) : base_uint WIDTH := decrementFrom 0 a

/-- `operator-()` -/
def negate (a : base_uint WIDTH) : base_uint WIDTH := a.complement.increment

/-- `operator=(uint64_t)` -/
def assign64 (b : UInt64) : base_uint WIDTH :=
  (zero.setLimb 0 b.toUInt32).setLimb 1 (b >>> 32).toUInt32

def addLimb (b : base_uint WIDTH) (s : base_uint WIDTH × UInt64) (i : ℕ) : base_uint WIDTH × UInt64 :=
  let n := s.2 + (s.1.limb i).toUInt64 + (b.limb i).toUInt64
  (s.1.setLimb i (n &&& 0xffffffff).toUInt32, n >>> 32)

/-- `operator+=` -/
def addAssign (a b : base_uint WIDTH) : base_uint WIDTH :=
  ((List.range WIDTH).foldl (addLimb b) (a, 0)).1

/-- `operator-=` -/
def subAssign (a b : base_uint WIDTH) : base_uint WIDTH := a.addAssign b.negate

/-- `operator+=(uint64_t)` -/
def addAssign64 (a : base_uint WIDTH) (b64 : UInt64) : base_uint WIDTH := a.addAssign (assign64 b64)

/-- `operator-=(uint64_t)` -/
def subAssign64 (a : base_uint WIDTH) (b64 : UInt64) : base_uint WIDTH :=
  a.addAssign (assign64 b64).negate

/-! ## Shifts -/

/-- `pn[i] |= x` -/
def orLimb (a : base_uint WIDTH) (i : ℕ) (x : UInt32) : base_uint WIDTH := a.setLimb i (a.limb i ||| x)

/-- Limb `i` of `a` goes into two limbs, `k` further up. -/
def shlLimb (a : base_uint WIDTH) (k : ℕ) (shift : UInt32) (r : base_uint WIDTH) (i : ℕ) :
    base_uint WIDTH :=
  let r := if i + k + 1 < WIDTH ∧ shift ≠ 0 then r.orLimb (i + k + 1) (a.limb i >>> (32 - shift)) else r
  if i + k < WIDTH then r.orLimb (i + k) (a.limb i <<< shift) else r

/-- `operator<<=` -/
def shlAssign (a : base_uint WIDTH) (shift : UInt32) : base_uint WIDTH :=
  (List.range WIDTH).foldl (a.shlLimb (shift / 32).toNat (shift % 32)) zero

def shrLimb (a : base_uint WIDTH) (k : ℕ) (shift : UInt32) (r : base_uint WIDTH) (i : ℕ) :
    base_uint WIDTH :=
  let r := if k + 1 ≤ i ∧ shift ≠ 0 then r.orLimb (i - k - 1) (a.limb i <<< (32 - shift)) else r
  if k ≤ i then r.orLimb (i - k) (a.limb i >>> shift) else r

/-- `operator>>=` -/
def shrAssign (a : base_uint WIDTH) (shift : UInt32) : base_uint WIDTH :=
  (List.range WIDTH).foldl (a.shrLimb (shift / 32).toNat (shift % 32)) zero

/-! ## Comparisons -/

/-- From the top limb down, the first ones that differ decide. -/
def compareFrom (first : UInt32 → UInt32 → Bool) (equal : Bool) (a b : base_uint WIDTH) : ℕ → Bool
  | 0 => equal
  | i + 1 =>
    if first (a.limb i) (b.limb i) then true
    else if first (b.limb i) (a.limb i) then false
    else compareFrom first equal a b i

/-- `operator<` -/
def lt (a b : base_uint WIDTH) : Bool := compareFrom (fun x y => x < y) false a b WIDTH

/-- `operator<=` -/
def le (a b : base_uint WIDTH) : Bool := compareFrom (fun x y => x < y) true a b WIDTH

/-- `operator>` -/
def gt (a b : base_uint WIDTH) : Bool := compareFrom (fun x y => x > y) false a b WIDTH

/-- `operator>=` -/
def ge (a b : base_uint WIDTH) : Bool := compareFrom (fun x y => x > y) true a b WIDTH

/-! ## Hexadecimal text -/

/-- `((unsigned char*)pn)[j]`: the lowest byte of a limb comes first. -/
def byte (a : base_uint WIDTH) (j : ℕ) : UInt8 := UInt8.ofNat ((a.limb (j / 4)).toNat / 256 ^ (j % 4))

/-- The limbs that some bytes make up in memory. -/
def ofBytes (bytes : List UInt8) : base_uint WIDTH :=
  ⟨Vector.ofFn fun i : Fin WIDTH => UInt32.ofNat (LittleEndian.ofBytes
    [bytes.getD (4 * i) 0, bytes.getD (4 * i + 1) 0, bytes.getD (4 * i + 2) 0, bytes.getD (4 * i + 3) 0])⟩

/-- `%02x` -/
def printByte (c : UInt8) : List UInt8 :=
  [hexDigits.getD (c.toNat / 16) 0, hexDigits.getD (c.toNat % 16) 0]

def GetHex (a : base_uint WIDTH) : List UInt8 :=
  (List.range (4 * WIDTH)).flatMap fun i => printByte (a.byte (4 * WIDTH - i - 1))

def phexdigitTable : List UInt8 :=
  List.replicate 48 0 ++ [0, 1, 2, 3, 4, 5, 6, 7, 8, 9] ++ List.replicate 7 0 ++
    [0xa, 0xb, 0xc, 0xd, 0xe, 0xf] ++ List.replicate 26 0 ++ [0xa, 0xb, 0xc, 0xd, 0xe, 0xf] ++
    List.replicate 153 0

def phexdigit (c : UInt8) : UInt8 := phexdigitTable.getD c.toNat 0

def tolower (c : UInt8) : UInt8 := if 0x41 ≤ c ∧ c ≤ 0x5a then c + 0x20 else c

/-- The digits that are left, the last one of the text first, and the byte that they go to. -/
def setHexLoop : (psz : List UInt8) → (p1 : ℕ) → (bytes : List UInt8) → List UInt8
  | [], _, bytes => bytes
  | [c], p1, bytes => if p1 < bytes.length then bytes.set p1 (phexdigit c) else bytes
  | c :: d :: psz, p1, bytes =>
    if p1 < bytes.length then setHexLoop psz (p1 + 1) (bytes.set p1 (phexdigit c ||| phexdigit d <<< 4))
    else bytes

/-- `0x` -/
def skipMark : List UInt8 → List UInt8
  | c :: d :: psz => if c = 0x30 ∧ tolower d = 0x78 then psz else c :: d :: psz
  | psz => psz

def SetHex (psz : List UInt8) : base_uint WIDTH :=
  let pbegin := skipMark (psz.dropWhile isspace)
  let digits := pbegin.takeWhile fun c => phexdigit c ≠ 0 || c = 0x30
  ofBytes (setHexLoop digits.reverse 0 (List.replicate (4 * WIDTH) 0))

end base_uint

end Dions
