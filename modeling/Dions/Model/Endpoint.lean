import Dions.Library.Positional
import Dions.Model.Base58

/-! # Network addresses

An address is sixteen bytes, which tell its network and its group. `ToStringIPPort` writes it with a
port in one of four notations, and `CService` is made of such a text. The addresses of the internet are
written and read by the operating system. -/

namespace Dions

/-! ## Addresses -/

/-- Sixteen bytes in network byte order. -/
structure CNetAddr where
  ip : List UInt8
  length_ip : ip.length = 16
  deriving DecidableEq

theorem length_zeros : (List.replicate 16 (0 : UInt8)).length = 16 := List.length_replicate

inductive NetworkClass where
  | NET_UNROUTABLE
  | NET_IPV4
  | NET_IPV6
  | NET_TOR
  | NET_I2P
  deriving DecidableEq, Repr

open NetworkClass

def NetworkClass.toByte : NetworkClass → UInt8
  | NET_UNROUTABLE => 0
  | NET_IPV4 => 1
  | NET_IPV6 => 2
  | NET_TOR => 3
  | NET_I2P => 4

def pchIPv4 : List UInt8 := [0, 0, 0, 0, 0, 0, 0, 0, 0, 0, 0xff, 0xff]
def pchOnionCat : List UInt8 := [0xFD, 0x87, 0xD8, 0x7E, 0xEB, 0x43]
def pchGarliCat : List UInt8 := [0xFD, 0x60, 0xDB, 0x4D, 0xDD, 0xB5]

namespace CNetAddr

variable (addr : CNetAddr)

def GetByte (n : ℕ) : UInt8 := addr.ip.getD (15 - n) 0

/-- `memcmp(ip, prefix, sizeof(prefix)) == 0`. -/
def startsWith (bytes : List UInt8) : Bool := addr.ip.take bytes.length == bytes

def IsIPv4 : Bool := addr.startsWith pchIPv4

def IsRFC1918 : Bool :=
  addr.IsIPv4 &&
    (addr.GetByte 3 == 10 ||
      (addr.GetByte 3 == 192 && addr.GetByte 2 == 168) ||
      (addr.GetByte 3 == 172 && (16 ≤ addr.GetByte 2 && addr.GetByte 2 ≤ 31)))

def IsRFC3927 : Bool := addr.IsIPv4 && (addr.GetByte 3 == 169 && addr.GetByte 2 == 254)

def IsRFC3849 : Bool :=
  addr.GetByte 15 == 0x20 && addr.GetByte 14 == 0x01 && addr.GetByte 13 == 0x0D &&
    addr.GetByte 12 == 0xB8

def IsRFC3964 : Bool := addr.GetByte 15 == 0x20 && addr.GetByte 14 == 0x02

def IsRFC6052 : Bool := addr.startsWith [0, 0x64, 0xFF, 0x9B, 0, 0, 0, 0, 0, 0, 0, 0]

def IsRFC4380 : Bool :=
  addr.GetByte 15 == 0x20 && addr.GetByte 14 == 0x01 && addr.GetByte 13 == 0 && addr.GetByte 12 == 0

def IsRFC4862 : Bool := addr.startsWith [0xFE, 0x80, 0, 0, 0, 0, 0, 0]

def IsRFC4193 : Bool := addr.GetByte 15 &&& 0xFE == 0xFC

def IsRFC6145 : Bool := addr.startsWith [0, 0, 0, 0, 0, 0, 0, 0, 0xFF, 0xFF, 0, 0]

def IsRFC4843 : Bool :=
  addr.GetByte 15 == 0x20 && addr.GetByte 14 == 0x01 && addr.GetByte 13 == 0x00 &&
    addr.GetByte 12 &&& 0xF0 == 0x10

def IsTor : Bool := addr.startsWith pchOnionCat

def IsI2P : Bool := addr.startsWith pchGarliCat

def IsLocal : Bool :=
  (addr.IsIPv4 && (addr.GetByte 3 == 127 || addr.GetByte 3 == 0)) ||
    addr.startsWith [0, 0, 0, 0, 0, 0, 0, 0, 0, 0, 0, 0, 0, 0, 0, 1]

def IsValid : Bool :=
  -- addresses shifted by three bytes, from versions before 0.2.9
  !addr.startsWith (pchIPv4.drop 3) &&
    !addr.startsWith (List.replicate 16 0) &&
    !addr.IsRFC3849 &&
    !(addr.IsIPv4 &&
      (addr.ip.drop 12 == [0xff, 0xff, 0xff, 0xff] || addr.ip.drop 12 == [0, 0, 0, 0]))

def IsRoutable : Bool :=
  addr.IsValid &&
    !(addr.IsRFC1918 || addr.IsRFC3927 || addr.IsRFC4862 ||
      (addr.IsRFC4193 && !addr.IsTor && !addr.IsI2P) || addr.IsRFC4843 || addr.IsLocal)

/-- The loop of `GetGroup`: whole bytes, and what is left of the last one filled up with ones. -/
def groupBytes : (nStartByte nBits : ℕ) → List UInt8
  | nStartByte, nBits + 8 => addr.GetByte (15 - nStartByte) :: groupBytes (nStartByte + 1) nBits
  | _, 0 => []
  | nStartByte, nBits => [addr.GetByte (15 - nStartByte) ||| UInt8.ofNat (2 ^ nBits - 1)]

def GetGroup : List UInt8 :=
  -- the 255 of a local address is overwritten below, as no such address is routable
  if !addr.IsRoutable then [NET_UNROUTABLE.toByte]
  else if addr.IsIPv4 || addr.IsRFC6145 || addr.IsRFC6052 then
    NET_IPV4.toByte :: addr.groupBytes 12 16
  else if addr.IsRFC3964 then NET_IPV4.toByte :: addr.groupBytes 2 16
  else if addr.IsRFC4380 then [NET_IPV4.toByte, addr.GetByte 3 ^^^ 0xFF, addr.GetByte 2 ^^^ 0xFF]
  else if addr.IsTor then NET_TOR.toByte :: addr.groupBytes 6 4
  else if addr.IsI2P then NET_I2P.toByte :: addr.groupBytes 6 4
  else if addr.GetByte 15 == 0x20 && addr.GetByte 14 == 0x11 && addr.GetByte 13 == 0x04 &&
      addr.GetByte 12 == 0x70 then
    NET_IPV6.toByte :: addr.groupBytes 0 36
  else NET_IPV6.toByte :: addr.groupBytes 0 32

end CNetAddr

structure CService extends CNetAddr where
  port : ℕ
  deriving DecidableEq

def CService.GetKey (service : CService) : List UInt8 :=
  service.ip ++ [UInt8.ofNat (service.port / 0x100), UInt8.ofNat (service.port % 0x100)]

structure CAddress extends CService where
  nServices : ℕ
  nTime : ℕ
  nLastTry : ℤ
  deriving DecidableEq

/-! ## Characters and numbers -/

def colon : UInt8 := ':'.toUInt8
def openBracket : UInt8 := '['.toUInt8
def closeBracket : UInt8 := ']'.toUInt8

def isdigit (c : UInt8) : Bool := 0x30 ≤ c && c ≤ 0x39

def LONG_MAX : ℤ := 2 ^ 63 - 1
def LONG_MIN : ℤ := -2 ^ 63

/-- `strtol` with base 10: the number, and what stands behind it. Without a digit nothing is read. -/
def strtol (nptr : List UInt8) : ℤ × List UInt8 :=
  let s := nptr.dropWhile isspace
  let fNegative := s.head? == some '-'.toUInt8
  let s := if s.head? = some '-'.toUInt8 ∨ s.head? = some '+'.toUInt8 then s.drop 1 else s
  let digits := s.takeWhile isdigit
  if digits = [] then (0, nptr)
  else
    let n : ℕ := digits.foldl (fun n c => 10 * n + (c.toNat - 0x30)) 0
    let n : ℤ := if fNegative then -n else n
    (max LONG_MIN (min LONG_MAX n), s.dropWhile isdigit)

def hexDigits : List UInt8 := "0123456789abcdef".toList.map Char.toUInt8

/-- `%u` with base 10, `%x` with base 16. -/
def printNumber (base n : ℕ) : List UInt8 :=
  if n = 0 then [0x30] else (Positional.digits base n).map fun d => hexDigits.getD d 0

/-! ## Host and port -/

/-- `find_last_of`. -/
def findLast (c : UInt8) (s : List UInt8) : Option ℕ :=
  (s.reverse.idxOf? c).map fun i => s.length - 1 - i

/-- `hostOut`. -/
def unbracket (inp : List UInt8) : List UInt8 :=
  if 0 < inp.length ∧ inp.getD 0 0 = openBracket ∧ inp.getD (inp.length - 1) 0 = closeBracket then
    (inp.drop 1).take (inp.length - 2)
  else inp

/-- `portOut` and `hostOut`, given what the port was before. -/
def SplitHostPort (inp : List UInt8) (portOut : ℤ) : ℤ × List UInt8 :=
  match findLast colon inp with
  | none => (portOut, unbracket inp)
  | some nColon =>
    let fBracketed := inp.getD 0 0 == openBracket && inp.getD (nColon - 1) 0 == closeBracket
    -- `colon - 1` is `npos` for the first character
    let fMultiColon := (findLast colon (if nColon = 0 then inp else inp.take nColon)).isSome
    if nColon = 0 ∨ fBracketed = true ∨ fMultiColon = false then
      let (l, endp) := strtol (c_str (inp.drop (nColon + 1)))
      let n := int32 l
      if endp = [] ∧ 0 ≤ n then
        (if 0 < n ∧ n < 0x10000 then n else portOut, unbracket (inp.take nColon))
      else (portOut, unbracket inp)
    else (portOut, unbracket inp)

/-! ## The operating system -/

/-- What a `sockaddr` holds of an address. -/
inductive SockAddr where
  | in4 (sin_addr : { bytes : List UInt8 // bytes.length = 4 })
  | in6 (sin6_addr : { bytes : List UInt8 // bytes.length = 16 })
  | other

structure Resolver where
  /-- With `NI_NUMERICHOST`; `none` is an error. -/
  getnameinfo : SockAddr → Option (List UInt8)
  /-- With `AI_NUMERICHOST` unless names are looked up; `none` is an error. -/
  getaddrinfo : (fAllowLookup : Bool) → List UInt8 → Option (List SockAddr)

variable (net : Resolver)

/-! ## Addresses -/

namespace CNetAddr

def IsIPv6 (addr : CNetAddr) : Bool := !addr.IsIPv4 && !addr.IsTor && !addr.IsI2P

/-- After `Init`. -/
def unset : CNetAddr := ⟨List.replicate 16 0, length_zeros⟩

/-- The two constructors for addresses of the internet. -/
def ofSockAddr : SockAddr → Option CNetAddr
  | .in4 ipv4Addr => some ⟨pchIPv4 ++ ipv4Addr.val, by rw [List.length_append, ipv4Addr.property]; rfl⟩
  | .in6 ipv6Addr => some ⟨ipv6Addr.val, ipv6Addr.property⟩
  | .other => none

def onionSuffix : List UInt8 := ".onion".toList.map Char.toUInt8
def garliSuffix : List UInt8 := ".oc.b32.i2p".toList.map Char.toUInt8

/-- Six bytes in front of those of the text, which have to be ten. -/
def ofPrefix (pch : List UInt8) (hpch : pch.length = 6) (vchAddr : List UInt8) : Option CNetAddr :=
  if h : vchAddr.length = 10 then some ⟨pch ++ vchAddr, by rw [List.length_append, hpch, h]⟩ else none

/-- The address that is set, when the answer is true. Both cases copy `pchOnionCat`. -/
def SetSpecial (aliasStr : List UInt8) : Option CNetAddr :=
  if 6 < aliasStr.length ∧ aliasStr.drop (aliasStr.length - 6) = onionSuffix then
    ofPrefix pchOnionCat rfl (DecodeBase32 (c_str (aliasStr.take (aliasStr.length - 6)))).1
  else if 11 < aliasStr.length ∧ aliasStr.drop (aliasStr.length - 11) = garliSuffix then
    ofPrefix pchOnionCat rfl (DecodeBase32 (c_str (aliasStr.take (aliasStr.length - 11)))).1
  else none

/-- `GetSockAddr` of the address. -/
def GetSockAddr (addr : CNetAddr) : Option SockAddr :=
  if addr.IsIPv4 then some (.in4 ⟨addr.ip.drop 12, by rw [List.length_drop, addr.length_ip]⟩)
  else if addr.IsIPv6 then some (.in6 ⟨addr.ip, addr.length_ip⟩)
  else none

/-- `%u.%u.%u.%u`. -/
def dotted (bytes : List UInt8) : List UInt8 :=
  ['.'.toUInt8].intercalate (bytes.map fun b => printNumber 10 b.toNat)

/-- The numbers of two bytes each. -/
def words : List UInt8 → List ℕ
  | b :: b' :: bytes => (b.toNat <<< 8 ||| b'.toNat) :: words bytes
  | _ => []

/-- `%x:%x:%x:%x:%x:%x:%x:%x`. -/
def coloned (bytes : List UInt8) : List UInt8 :=
  [colon].intercalate ((words bytes).map (printNumber 16))

def ToStringIP (addr : CNetAddr) : List UInt8 :=
  if addr.IsTor then EncodeBase32 ((addr.ip.drop 6).take 10) ++ onionSuffix
  else if addr.IsI2P then EncodeBase32 ((addr.ip.drop 6).take 10) ++ garliSuffix
  else
    match addr.GetSockAddr.bind net.getnameinfo with
    | some name => c_str name
    | none => if addr.IsIPv4 then dotted (addr.ip.drop 12) else coloned addr.ip

end CNetAddr

/-! ## Looking up -/

/-- The loop over the answers. No maximum is zero. -/
def takeSolutions (nMaxSolutions : ℕ) (aiRes : List SockAddr) : List CNetAddr :=
  let vIP := aiRes.filterMap CNetAddr.ofSockAddr
  if nMaxSolutions = 0 then vIP else vIP.take nMaxSolutions

/-- `vIP`, when the answer is true. -/
def LookupIntern (pszName : List UInt8) (nMaxSolutions : ℕ) (fAllowLookup : Bool) : Option (List CNetAddr) :=
  match CNetAddr.SetSpecial pszName with
  | some addr => some [addr]
  | none =>
    match net.getaddrinfo fAllowLookup pszName with
    | none => none
    | some aiRes =>
      let vIP := takeSolutions nMaxSolutions aiRes
      if 0 < vIP.length then some vIP else none

def LookupServices (pszName : List UInt8) (portDefault : ℤ) (fAllowLookup : Bool) (nMaxSolutions : ℕ) :
    Option (List CService) :=
  if pszName = [] then none
  else
    let (port, hostname) := SplitHostPort pszName portDefault
    (LookupIntern net (c_str hostname) nMaxSolutions fAllowLookup).map fun vIP =>
      -- a conversion to `unsigned short`
      vIP.map fun ip => ⟨ip, (port % 2 ^ 16).toNat⟩

def Lookup (pszName : List UInt8) (portDefault : ℤ) (fAllowLookup : Bool) : Option CService :=
  (LookupServices net pszName portDefault fAllowLookup 1).bind List.head?

namespace CService

/-- The constructor from a text. -/
def ofString (strIpPort : List UInt8) (fAllowLookup : Bool) : CService :=
  (Lookup net (c_str strIpPort) 0 fAllowLookup).getD ⟨CNetAddr.unset, 0⟩

def ToStringPort (service : CService) : List UInt8 := printNumber 10 service.port

def ToStringIPPort (service : CService) : List UInt8 :=
  if service.IsIPv4 || service.IsTor || service.IsI2P then
    service.ToStringIP net ++ colon :: service.ToStringPort
  else openBracket :: service.ToStringIP net ++ closeBracket :: colon :: service.ToStringPort

end CService

end Dions
