import Dions.Library.OrdMap
import Dions.Model.Serialize

/-! # The adjusted time, and alerts

The clock of a node is moved by the median of what its peers say. An alert is signed with one key
for the whole network; a node keeps the alerts that are in effect and passes each one on to its
peers. -/

namespace Dions

/-! ## The adjusted time -/

structure CMedianFilter where
  vValues : List ℤ
  vSorted : List ℤ
  nSize : ℕ
  deriving DecidableEq, Repr

namespace CMedianFilter

def start (size : ℕ) (initial_value : ℤ) : CMedianFilter := ⟨[initial_value], [initial_value], size⟩

variable (f : CMedianFilter)

/-- The oldest value goes where the filter is full. -/
def input (value : ℤ) : CMedianFilter :=
  let vValues := (if f.vValues.length = f.nSize then f.vValues.drop 1 else f.vValues) ++ [value]
  { f with vValues := vValues, vSorted := vValues.insertionSort (· ≤ ·) }

/-- `none` is the assertion that there is a value. -/
def median : Option ℤ :=
  let size := f.vSorted.length
  if size % 2 = 1 then f.vSorted[size / 2]?
  else
    match f.vSorted[size / 2 - 1]?, f.vSorted[size / 2]? with
    | some a, some b => some ((int64 (a + b)).tdiv 2)
    | _, _ => none

def size : ℕ := f.vValues.length

end CMedianFilter

def abs64 (n : ℤ) : ℤ := if 0 ≤ n then n else int64 (-n)

/-- The samples, with the addresses they came from. -/
structure TimeData (CNetAddr : Type) where
  setKnown : List CNetAddr
  vTimeOffsets : CMedianFilter
  nTimeOffset : ℤ
  /-- Whether the warning about the clock has been given. -/
  fDone : Bool

namespace TimeData

variable {CNetAddr : Type} [DecidableEq CNetAddr]

def start : TimeData CNetAddr := ⟨[], .start 200 0, 0, false⟩

/-- The part behind the input of the sample. -/
def adjust (s : TimeData CNetAddr) (nMedian : ℤ) : TimeData CNetAddr :=
  if abs64 nMedian < 70 * 60 then { s with nTimeOffset := nMedian }
  else
    { s with
      nTimeOffset := 0
      fDone := s.fDone || !s.vTimeOffsets.vSorted.any fun nOffset =>
        nOffset ≠ 0 && abs64 nOffset < 5 * 60 }

/-- Only the first sample of an address counts. -/
def AddTimeData (s : TimeData CNetAddr) (ip : CNetAddr) (nTime nNow : ℤ) :
    Option (TimeData CNetAddr) :=
  let nOffsetSample := int64 (nTime - nNow)
  if ip ∈ s.setKnown then some s
  else
    let s := { s with
      setKnown := ip :: s.setKnown
      vTimeOffsets := s.vTimeOffsets.input nOffsetSample }
    if 5 ≤ s.vTimeOffsets.size ∧ s.vTimeOffsets.size % 2 = 1 then s.vTimeOffsets.median.map s.adjust
    else some s

end TimeData

/-! ## Alerts -/

structure CUnsignedAlert where
  nVersion : ℤ
  nRelayUntil : ℤ
  nExpiration : ℤ
  nID : ℤ
  nCancel : ℤ
  setCancel : List ℤ
  nMinVer : ℤ
  nMaxVer : ℤ
  setSubVer : List (List UInt8)
  nPriority : ℤ
  strComment : List UInt8
  strStatusBar : List UInt8
  strReserved : List UInt8
  deriving DecidableEq, Repr

/-- A set is read element by element; here it is the list of what was read. -/
def CUnsignedAlert.wire : Wire CUnsignedAlert :=
  ((wireSigned 4).seq fun _ => (wireSigned 8).seq fun _ => (wireSigned 8).seq fun _ =>
    (wireSigned 4).seq fun _ => (wireSigned 4).seq fun _ => (wireVector (wireSigned 4)).seq fun _ =>
    (wireSigned 4).seq fun _ => (wireSigned 4).seq fun _ => (wireVector wireBytes).seq fun _ =>
    (wireSigned 4).seq fun _ => wireBytes.seq fun _ => wireBytes.seq fun _ => wireBytes).record
    { toFun := fun p =>
        ⟨p.1, p.2.1, p.2.2.1, p.2.2.2.1, p.2.2.2.2.1, p.2.2.2.2.2.1, p.2.2.2.2.2.2.1,
          p.2.2.2.2.2.2.2.1, p.2.2.2.2.2.2.2.2.1, p.2.2.2.2.2.2.2.2.2.1, p.2.2.2.2.2.2.2.2.2.2.1,
          p.2.2.2.2.2.2.2.2.2.2.2.1, p.2.2.2.2.2.2.2.2.2.2.2.2⟩
      invFun := fun a =>
        (a.nVersion, a.nRelayUntil, a.nExpiration, a.nID, a.nCancel, a.setCancel, a.nMinVer,
          a.nMaxVer, a.setSubVer, a.nPriority, a.strComment, a.strStatusBar, a.strReserved)
      left_inv := fun _ => rfl
      right_inv := fun _ => rfl }

/-- An alert whose signature has been checked, with what stands in its message. -/
structure CAlert extends CUnsignedAlert where
  vchMsg : List UInt8
  vchSig : List UInt8
  deriving DecidableEq, Repr

/-- The hash, and the key for alerts. -/
structure AlertEnv where
  Hash : List UInt8 → uint256
  Verify : uint256 → List UInt8 → Bool

def maxInt : ℤ := 2 ^ 31 - 1

def PROTOCOL_VERSION : ℤ := 60022

def MIN_PEER_PROTO_VERSION : ℤ := PROTOCOL_VERSION

/-- The bytes of a text. -/
def asciiBytes (s : String) : List UInt8 := s.toList.map Char.toUInt8

/-- `FormatSubVersion(CLIENT_NAME, CLIENT_VERSION, std::vector<std::string>())`. -/
def strSubVersion : List UInt8 := asciiBytes "/Satoshi:15.0.0/"

/-- The message of an alert that has the greatest number. -/
def urgentStatus : List UInt8 := asciiBytes "URGENT: Alert key compromised, upgrade required"

namespace CAlert

variable (env : AlertEnv) (now : ℤ) (alert : CAlert)

def GetHash : uint256 := env.Hash alert.vchMsg

def IsInEffect : Bool := now < alert.nExpiration

def Cancels (other : CAlert) : Bool :=
  alert.IsInEffect now && (other.nID ≤ alert.nCancel || alert.setCancel.contains other.nID)

def AppliesTo (nVersion : ℤ) (strSubVerIn : List UInt8) : Bool :=
  alert.IsInEffect now && alert.nMinVer ≤ nVersion && nVersion ≤ alert.nMaxVer &&
    (alert.setSubVer.isEmpty || alert.setSubVer.contains strSubVerIn)

def AppliesToMe : Bool :=
    !alert.strStatusBar.isEmpty && alert.AppliesTo now PROTOCOL_VERSION strSubVersion

/-- What an alert has to be that has the number `maxInt`. -/
def isUrgent : Bool :=
  alert.nExpiration = maxInt && alert.nCancel = maxInt - 1 && alert.nMinVer = 0 &&
    alert.nMaxVer = maxInt && alert.setSubVer.isEmpty && alert.nPriority = maxInt &&
    alert.strStatusBar = urgentStatus

/-- The signature over the message, and what stands in the message; behind it there may be more. -/
def CheckSignature (vchMsg vchSig : List UInt8) : Except ReadFailure (Option CAlert) :=
  if !env.Verify (env.Hash vchMsg) vchSig then .ok none
  else
    match CUnsignedAlert.wire.unserialize vchMsg with
    | .error e => .error e
    | .ok (fields, _) => .ok (some { fields with vchMsg := vchMsg, vchSig := vchSig })

end CAlert

abbrev AlertMap := OrdMap uint256 CAlert

/-- The loop that erases the alerts that are cancelled, and those that are no longer in effect. -/
def AlertMap.cancel (now : ℤ) (alert : CAlert) (mapAlerts : AlertMap) : AlertMap where
  entries := mapAlerts.entries.filter fun item =>
    !(alert.Cancels now item.2 || !item.2.IsInEffect now)
  ordered := mapAlerts.ordered.sublist (List.filter_sublist.map Prod.fst)

/-- An alert that is there stays as it is. -/
def AlertMap.add (env : AlertEnv) (alert : CAlert) (mapAlerts : AlertMap) : AlertMap :=
  match mapAlerts.find (alert.GetHash env) with
  | some _ => mapAlerts
  | none => mapAlerts.insert (alert.GetHash env) alert

/-- Behind the check of the signature: whether the alert is accepted, and the alerts then. -/
def CAlert.enter (env : AlertEnv) (now : ℤ) (alert : CAlert) (mapAlerts : AlertMap) :
    Bool × AlertMap :=
  if !alert.IsInEffect now then (false, mapAlerts)
  else if alert.nID = maxInt ∧ !alert.isUrgent then (false, mapAlerts)
  else
    let mapAlerts := AlertMap.cancel now alert mapAlerts
    if mapAlerts.entries.any fun item => item.2.Cancels now alert then (false, mapAlerts)
    else (true, AlertMap.add env alert mapAlerts)

/-- The alert that was accepted, and the alerts then; a malformed message is an exception. -/
def ProcessAlert (env : AlertEnv) (now : ℤ) (vchMsg vchSig : List UInt8) (mapAlerts : AlertMap) :
    Except ReadFailure (Option CAlert × AlertMap) :=
  match CAlert.CheckSignature env vchMsg vchSig with
  | .error e => .error e
  | .ok none => .ok (none, mapAlerts)
  | .ok (some alert) =>
    let r := alert.enter env now mapAlerts
    .ok (if r.1 then some alert else none, r.2)

/-! ## The peers -/

/-- What the handling of alerts knows of a peer, and the alerts that are pushed to it. -/
structure AlertPeer where
  nVersion : ℤ
  strSubVer : List UInt8
  setKnown : List uint256
  nMisbehavior : ℤ
  fDisconnect : Bool
  fSuccessfullyConnected : Bool
  pushed : List CAlert

namespace AlertPeer

def start : AlertPeer := ⟨0, [], [], 0, false, false, []⟩

def Misbehaving (pnode : AlertPeer) (howmuch : ℤ) : AlertPeer :=
  { pnode with nMisbehavior := pnode.nMisbehavior + howmuch }

/-! ### The fields of a version message

An exception, or an early return, leaves the peer as the fields before it have made it. -/

/-- The fields of a fixed size that nothing is asked of. -/
def skip (pnode : AlertPeer) (n : ℕ) (vRecv : List UInt8) : Except AlertPeer (List UInt8) :=
  if vRecv.length < n then .error pnode else .ok (vRecv.drop n)

/-- `addrFrom` and `nNonce`, if there is anything left. -/
def readNonce (pnode : AlertPeer) (vRecv : List UInt8) : Except AlertPeer (ℕ × List UInt8) :=
  if vRecv.isEmpty then .ok (1, vRecv)
  else do
    let vRecv ← pnode.skip 26 vRecv
    match (wireUnsigned 8).unserialize vRecv with
    | .error _ => .error pnode
    | .ok r => .ok r

/-- `strSubVer`, if there is anything left. A text that ends too soon has been resized by then. -/
def readSubVer (pnode : AlertPeer) (vRecv : List UInt8) :
    Except AlertPeer (AlertPeer × List UInt8) :=
  if vRecv.isEmpty then .ok (pnode, vRecv)
  else
    match ReadCompactSize vRecv with
    | .error _ => .error pnode
    | .ok (nSize, is) =>
      if is.length < nSize then
        .error { pnode with strSubVer := (pnode.strSubVer ++ List.replicate nSize 0).take nSize }
      else .ok ({ pnode with strSubVer := is.take nSize }, is.drop nSize)

/-- `nStartingHeight`, if there is anything left. -/
def readStartingHeight (pnode : AlertPeer) (vRecv : List UInt8) : Except AlertPeer (List UInt8) :=
  if vRecv.isEmpty then .ok vRecv else pnode.skip 4 vRecv

/-- The fields that may be missing, and the test for a connection to the node itself. -/
def readOptional (pnode : AlertPeer) (nLocalHostNonce : ℕ) (vRecv : List UInt8) :
    Except AlertPeer AlertPeer := do
  let (nNonce, vRecv) ← pnode.readNonce vRecv
  let (pnode, vRecv) ← pnode.readSubVer vRecv
  let _ ← pnode.readStartingHeight vRecv
  if nNonce = nLocalHostNonce ∧ 1 < nNonce then .error { pnode with fDisconnect := true }
  else .ok pnode

/-- Up to where the alerts are relayed. The addresses are 26 bytes long, without a time. -/
def readVersion (pnode : AlertPeer) (nLocalHostNonce : ℕ) (vRecv : List UInt8) :
    Except AlertPeer AlertPeer :=
  match (wireSigned 4).unserialize vRecv with
  | .error _ => .error pnode
  | .ok (nVersion, vRecv) => do
    let pnode := { pnode with nVersion := nVersion }
    -- `nServices`, `nTime` and `addrMe`
    let vRecv ← pnode.skip (8 + 8 + 26) vRecv
    if nVersion < MIN_PEER_PROTO_VERSION then .error { pnode with fDisconnect := true }
    else
      let pnode := if nVersion = 10300 then { pnode with nVersion := 300 } else pnode
      pnode.readOptional nLocalHostNonce vRecv

end AlertPeer

def CAlert.RelayTo (env : AlertEnv) (now : ℤ) (alert : CAlert) (pnode : AlertPeer) : AlertPeer :=
  if !alert.IsInEffect now then pnode
  else if pnode.setKnown.contains (alert.GetHash env) then pnode
  else
    let pnode := { pnode with setKnown := alert.GetHash env :: pnode.setKnown }
    if alert.AppliesTo now pnode.nVersion pnode.strSubVer || alert.AppliesToMe now ||
        now < alert.nRelayUntil then
      { pnode with pushed := pnode.pushed ++ [alert] }
    else pnode

/-- A node, with its peers. -/
structure AlertNode (ι : Type) where
  mapAlerts : AlertMap
  vNodes : List ι
  peer : ι → AlertPeer

/-- What happens at a node: a connection is opened or closed, or a message comes in. A version
message is the bytes of it; a connection to the node itself brings the nonce that it sent last. -/
inductive AlertEvent (ι : Type) where
  | connect (pnode : ι)
  | disconnect (pnode : ι)
  | version (pfrom : ι) (nLocalHostNonce : ℕ) (vRecv : List UInt8)
  | alert (pfrom : ι) (vchMsg vchSig : List UInt8)

namespace AlertNode

variable {ι : Type} [DecidableEq ι] (env : AlertEnv) (now : ℤ)

def put (s : AlertNode ι) (i : ι) (pnode : AlertPeer) : AlertNode ι :=
  { s with peer := Function.update s.peer i pnode }

def start : AlertNode ι := ⟨.empty, [], fun _ => .start⟩

/-- The peer hears of all the alerts. -/
def relayAll (s : AlertNode ι) (pfrom : AlertPeer) : AlertPeer :=
  s.mapAlerts.entries.foldl (fun pnode item => item.2.RelayTo env now pnode) pfrom

/-- All the peers hear of the alert. -/
def relay (s : AlertNode ι) (alert : CAlert) : AlertNode ι :=
  s.vNodes.foldl (fun s i => s.put i (alert.RelayTo env now (s.peer i))) s

def version (s : AlertNode ι) (pfrom : ι) (nLocalHostNonce : ℕ) (vRecv : List UInt8) :
    AlertNode ι :=
  let pnode := s.peer pfrom
  if pnode.nVersion ≠ 0 then s.put pfrom (pnode.Misbehaving 1)
  else
    match pnode.readVersion nLocalHostNonce vRecv with
    | .error pnode => s.put pfrom pnode
    | .ok pnode => s.put pfrom { s.relayAll env now pnode with fSuccessfullyConnected := true }

/-- An alert that is malformed leaves everything as it is. -/
def alert (s : AlertNode ι) (pfrom : ι) (vchMsg vchSig : List UInt8) : AlertNode ι :=
  let pnode := s.peer pfrom
  if pnode.nVersion = 0 then s.put pfrom (pnode.Misbehaving 1)
  else if pnode.setKnown.contains (env.Hash vchMsg) then s
  else
    match ProcessAlert env now vchMsg vchSig s.mapAlerts with
    | .error _ => s
    | .ok (some alert, mapAlerts) =>
      let pnode := { pnode with setKnown := env.Hash vchMsg :: pnode.setKnown }
      relay env now { s.put pfrom pnode with mapAlerts := mapAlerts } alert
    | .ok (none, mapAlerts) => { s.put pfrom (pnode.Misbehaving 10) with mapAlerts := mapAlerts }

def step (s : AlertNode ι) : AlertEvent ι → AlertNode ι
  | .connect i => if i ∈ s.vNodes then s else { s.put i .start with vNodes := s.vNodes ++ [i] }
  | .disconnect i => { s with vNodes := s.vNodes.filter (· ≠ i) }
  | .version pfrom nLocalHostNonce vRecv =>
    if pfrom ∈ s.vNodes ∧ !(s.peer pfrom).fDisconnect then
      s.version env now pfrom nLocalHostNonce vRecv
    else s
  | .alert pfrom vchMsg vchSig =>
    if pfrom ∈ s.vNodes ∧ !(s.peer pfrom).fDisconnect then s.alert env now pfrom vchMsg vchSig
    else s

end AlertNode

end Dions
