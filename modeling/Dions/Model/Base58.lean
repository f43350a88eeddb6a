import Dions.Model.Destination
import Dions.Model.Interpreter

/-! # Addresses in base 58, and the other bases

A string is the list of its bytes; a C string is what stands before the first zero byte. A big number
is as long as it has to be. -/

namespace Dions

open LittleEndian

def pszBase58 : List UInt8 :=
  "123456789ABCDEFGHJKLMNPQRSTUVWXYZabcdefghijkmnopqrstuvwxyz".toList.map Char.toUInt8

/-! ## Strings of bytes -/

/-- The remainders of the divisions by 58, as characters; each division lowers the number. -/
def base58Loop : (fuel bn : ℕ) → List UInt8
  | 0, _ => []
  | fuel + 1, bn =>
    if 0 < bn then pszBase58.getD (bn % 58) 0 :: base58Loop fuel (bn / 58) else []

/-- The zero behind the reversed bytes makes the number positive. -/
def EncodeBase58 (vch : List UInt8) : List UInt8 :=
  let bn := (setvch (vch.reverse ++ [0])).toNat
  let str := base58Loop bn bn
  let str := str ++ List.replicate (vch.takeWhile (· = 0)).length (pszBase58.getD 0 0)
  str.reverse

/-- `isspace` in the locale `C`. -/
def isspace (c : UInt8) : Bool := c = 0x20 || (0x09 ≤ c && c ≤ 0x0d)

/-- Behind a character that is no digit only white space may follow. -/
def digitsLoop : (p : List UInt8) → (bn : ℕ) → Option ℕ
  | [], bn => some bn
  | c :: p, bn =>
    match pszBase58.idxOf? c with
    | none => if (c :: p).dropWhile isspace = [] then some bn else none
    | some digit => digitsLoop p (bn * 58 + digit)

/-- A sign byte goes where it is only there for the sign. -/
def trimSign (vchTmp : List UInt8) : List UInt8 :=
  match vchTmp.reverse with
  | last :: second :: _ => if last = 0 ∧ 0x80 ≤ second then vchTmp.dropLast else vchTmp
  | _ => vchTmp

def DecodeBase58 (psz : List UInt8) : Option (List UInt8) :=
  let psz := psz.dropWhile isspace
  match digitsLoop psz 0 with
  | none => none
  | some bn =>
    let vchTmp := trimSign (getvch bn)
    let nLeadingZeros := (psz.takeWhile (· = pszBase58.getD 0 0)).length
    some (List.replicate nLeadingZeros 0 ++ vchTmp.reverse)

/-! ## With a check -/

section Check

variable (Hash : List UInt8 → uint256)

/-- The first four bytes of the hash as it lies in memory. -/
def checkBytes (vch : List UInt8) : List UInt8 := (toBytes 32 (Hash vch)).take 4

def EncodeBase58Check (vchIn : List UInt8) : List UInt8 :=
  EncodeBase58 (vchIn ++ checkBytes Hash vchIn)

/-- `none` also stands for the result that is cleared where the answer is `false`. -/
def DecodeBase58Check (psz : List UInt8) : Option (List UInt8) :=
  match DecodeBase58 psz with
  | none => none
  | some vchRet =>
    if vchRet.length < 4 then none
    else
      let vch := vchRet.take (vchRet.length - 4)
      if checkBytes Hash vch = vchRet.drop (vchRet.length - 4) then some vch else none

end Check

/-- `c_str()`, as far as it is read. -/
def c_str (str : List UInt8) : List UInt8 := str.takeWhile (· ≠ 0)

/-! ## Data with a version -/

structure CBase58Data where
  nVersion : UInt8
  vchData : List UInt8
  deriving DecidableEq, Repr

namespace CBase58Data

variable (Hash : List UInt8 → uint256)

/-- What `SetString` leaves; it answers `false` where it clears the data. -/
def SetString (psz : List UInt8) : CBase58Data :=
  match (DecodeBase58Check Hash psz).getD [] with
  | [] => ⟨0, []⟩
  | nVersion :: vchData => ⟨nVersion, vchData⟩

def ToString (data : CBase58Data) : List UInt8 :=
  EncodeBase58Check Hash (data.nVersion :: data.vchData)

end CBase58Data

/-! ## Addresses -/

namespace cba

def PUBKEY_ADDRESS : UInt8 := 103
def SCRIPT_ADDRESS : UInt8 := 85
def PUBKEY_ADDRESS_TEST : UInt8 := 111
def SCRIPT_ADDRESS_TEST : UInt8 := 196

variable (fTestNet : Bool)

/-- The constructor from a destination; one that is none leaves the data empty. -/
def ofDestination : CTxDestination → CBase58Data
  | .CKeyID id => ⟨if fTestNet then PUBKEY_ADDRESS_TEST else PUBKEY_ADDRESS, toBytes 20 id⟩
  | .CScriptID id => ⟨if fTestNet then SCRIPT_ADDRESS_TEST else SCRIPT_ADDRESS, toBytes 20 id⟩
  | .CNoDestination => ⟨0, []⟩

/-- The constructor from a string. -/
def ofString (Hash : List UInt8 → uint256) (strAddress : List UInt8) : CBase58Data :=
  CBase58Data.SetString Hash (c_str strAddress)

def IsValid (a : CBase58Data) : Bool :=
  let nExpectedSize := 20
  if a.nVersion = PUBKEY_ADDRESS ∨ a.nVersion = SCRIPT_ADDRESS then
    false = fTestNet && a.vchData.length = nExpectedSize
  else if a.nVersion = PUBKEY_ADDRESS_TEST ∨ a.nVersion = SCRIPT_ADDRESS_TEST then
    true = fTestNet && a.vchData.length = nExpectedSize
  else false

def Get (a : CBase58Data) : CTxDestination :=
  if !IsValid fTestNet a then .CNoDestination
  else if a.nVersion = PUBKEY_ADDRESS ∨ a.nVersion = PUBKEY_ADDRESS_TEST then
    .CKeyID (uint160OfVch a.vchData)
  else if a.nVersion = SCRIPT_ADDRESS ∨ a.nVersion = SCRIPT_ADDRESS_TEST then
    .CScriptID (uint160OfVch a.vchData)
  else .CNoDestination

end cba

/-! ## Base 32 and base 64

Eight characters of five bits each stand for five bytes, and four characters of six bits each for three.
A string is the list of its bytes, and a zero byte, at which a C string ends, is no digit. -/

def pbase32 : List UInt8 := "abcdefghijklmnopqrstuvwxyz234567".toList.map Char.toUInt8

/-- The character of a number below 32. -/
def base32Char (n : ℕ) : UInt8 := pbase32.getD n 0

def nPadding : List ℕ := [0, 6, 4, 3, 1]

def padChar : UInt8 := '='.toUInt8

/-! ### Encoding -/

/-- What is written from a mode on, with the bits that are left of the last byte. -/
def encodeLoop32 : (mode : Fin 5) → (left : ℕ) → (pch : List UInt8) → List UInt8
  | mode, left, [] =>
    if mode ≠ 0 then base32Char left :: List.replicate (nPadding.getD mode 0) padChar else []
  | 0, _, b :: pch =>
    let enc := b.toNat
    base32Char (enc >>> 3) :: encodeLoop32 1 ((enc &&& 7) <<< 2) pch
  | 1, left, b :: pch =>
    let enc := b.toNat
    base32Char (left ||| enc >>> 6) :: base32Char (enc >>> 1 &&& 31) ::
      encodeLoop32 2 ((enc &&& 1) <<< 4) pch
  | 2, left, b :: pch =>
    let enc := b.toNat
    base32Char (left ||| enc >>> 4) :: encodeLoop32 3 ((enc &&& 15) <<< 1) pch
  | 3, left, b :: pch =>
    let enc := b.toNat
    base32Char (left ||| enc >>> 7) :: base32Char (enc >>> 2 &&& 31) ::
      encodeLoop32 4 ((enc &&& 3) <<< 3) pch
  | 4, left, b :: pch =>
    let enc := b.toNat
    base32Char (left ||| enc >>> 5) :: base32Char (enc &&& 31) :: encodeLoop32 0 left pch

def EncodeBase32 (pch : List UInt8) : List UInt8 := encodeLoop32 0 0 pch

/-! ### Decoding -/

/-- `-1` is `none`. -/
def decode32_table : List (Option ℕ) :=
  List.replicate 50 none ++ (List.range 6).map (fun n => some (26 + n)) ++ List.replicate 9 none ++
    (List.range 26).map some ++ List.replicate 6 none ++ (List.range 26).map some ++
    List.replicate 133 none

def decode32 (c : UInt8) : Option ℕ := decode32_table.getD c.toNat none

/-- Where the loop of `DecodeBase32` ends. -/
structure Decoded32 where
  vchRet : List UInt8
  mode : Fin 8
  left : ℕ
  p : List UInt8
  deriving DecidableEq, Repr

/-- A byte in front of those that the rest of the loop appends. -/
def Decoded32.push (n : ℕ) (r : Decoded32) : Decoded32 := { r with vchRet := UInt8.ofNat n :: r.vchRet }

def decodeLoop32 : (mode : Fin 8) → (left : ℕ) → (p : List UInt8) → Decoded32
  | mode, left, [] => ⟨[], mode, left, []⟩
  | mode, left, c :: p =>
    match decode32 c with
    | none => ⟨[], mode, left, c :: p⟩
    | some dec =>
      match mode with
      | 0 => decodeLoop32 1 dec p
      | 1 => (decodeLoop32 2 (dec &&& 3) p).push (left <<< 3 ||| dec >>> 2)
      | 2 => decodeLoop32 3 (left <<< 5 ||| dec) p
      | 3 => (decodeLoop32 4 (dec &&& 15) p).push (left <<< 1 ||| dec >>> 4)
      | 4 => (decodeLoop32 5 (dec &&& 1) p).push (left <<< 4 ||| dec >>> 1)
      | 5 => decodeLoop32 6 (left <<< 5 ||| dec) p
      | 6 => (decodeLoop32 7 (dec &&& 7) p).push (left <<< 2 ||| dec >>> 3)
      | 7 => (decodeLoop32 0 left p).push (left <<< 5 ||| dec)

/-- Bits are left, or the padding is not what it has to be. -/
def badPadding (nPad left : ℕ) (p : List UInt8) : Bool :=
  left != 0 || (List.range nPad).any (fun i => p.getD i 0 != padChar) || (decode32 (p.getD nPad 0)).isSome

/-- What is written to `*pfInvalid`. -/
def Decoded32.fInvalid (r : Decoded32) : Bool :=
  match r.mode with
  | 0 => false
  | 1 | 3 | 6 => true
  | 2 => badPadding 6 r.left r.p
  | 4 => badPadding 4 r.left r.p
  | 5 => badPadding 3 r.left r.p
  | 7 => badPadding 1 r.left r.p

/-- The bytes and the flag. -/
def DecodeBase32 (p : List UInt8) : List UInt8 × Bool :=
  let r := decodeLoop32 0 0 p
  (r.vchRet, r.fInvalid)

/-! ### Base 64 -/

def pbase64 : List UInt8 :=
  "ABCDEFGHIJKLMNOPQRSTUVWXYZabcdefghijklmnopqrstuvwxyz0123456789+/".toList.map Char.toUInt8

/-- The character of a number below 64. -/
def base64Char (n : ℕ) : UInt8 := pbase64.getD n 0

/-- What is written from a mode on, with the bits that are left of the last byte. -/
def encodeLoop64 : (mode : Fin 3) → (left : ℕ) → (pch : List UInt8) → List UInt8
  | mode, left, [] =>
    if mode ≠ 0 then base64Char left :: padChar :: (if mode = 1 then [padChar] else []) else []
  | 0, _, b :: pch =>
    let enc := b.toNat
    base64Char (enc >>> 2) :: encodeLoop64 1 ((enc &&& 3) <<< 4) pch
  | 1, left, b :: pch =>
    let enc := b.toNat
    base64Char (left ||| enc >>> 4) :: encodeLoop64 2 ((enc &&& 15) <<< 2) pch
  | 2, left, b :: pch =>
    let enc := b.toNat
    base64Char (left ||| enc >>> 6) :: base64Char (enc &&& 63) :: encodeLoop64 0 left pch

def EncodeBase64 (pch : List UInt8) : List UInt8 := encodeLoop64 0 0 pch

/-- `-1` is `none`. -/
def decode64_table : List (Option ℕ) :=
  List.replicate 43 none ++ [some 62] ++ List.replicate 3 none ++ [some 63] ++
    (List.range 10).map (fun n => some (52 + n)) ++ List.replicate 7 none ++
    (List.range 26).map some ++ List.replicate 6 none ++
    (List.range 26).map (fun n => some (26 + n)) ++ List.replicate 133 none

def decode64 (c : UInt8) : Option ℕ := decode64_table.getD c.toNat none

/-- Where the loop of `DecodeBase64` ends. -/
structure Decoded64 where
  vchRet : List UInt8
  mode : Fin 4
  left : ℕ
  p : List UInt8
  deriving DecidableEq, Repr

/-- A byte in front of those that the rest of the loop appends. -/
def Decoded64.push (n : ℕ) (r : Decoded64) : Decoded64 := { r with vchRet := UInt8.ofNat n :: r.vchRet }

def decodeLoop64 : (mode : Fin 4) → (left : ℕ) → (p : List UInt8) → Decoded64
  | mode, left, [] => ⟨[], mode, left, []⟩
  | mode, left, c :: p =>
    match decode64 c with
    | none => ⟨[], mode, left, c :: p⟩
    | some dec =>
      match mode with
      | 0 => decodeLoop64 1 dec p
      | 1 => (decodeLoop64 2 (dec &&& 15) p).push (left <<< 2 ||| dec >>> 4)
      | 2 => (decodeLoop64 3 (dec &&& 3) p).push (left <<< 4 ||| dec >>> 2)
      | 3 => (decodeLoop64 0 left p).push (left <<< 6 ||| dec)

/-- What is written to `*pfInvalid`. -/
def Decoded64.fInvalid (r : Decoded64) : Bool :=
  match r.mode with
  | 0 => false
  | 1 => true
  | 2 =>
    r.left != 0 || r.p.getD 0 0 != padChar || r.p.getD 1 0 != padChar || (decode64 (r.p.getD 2 0)).isSome
  | 3 => r.left != 0 || r.p.getD 0 0 != padChar || (decode64 (r.p.getD 1 0)).isSome

/-- The bytes and the flag. -/
def DecodeBase64 (p : List UInt8) : List UInt8 × Bool :=
  let r := decodeLoop64 0 0 p
  (r.vchRet, r.fInvalid)

end Dions
