import Dions.Model.Serialize

/-! # Messages between nodes

What a node queues for a peer, how it writes the queue to the socket and how it cuts what it
receives back into messages. -/

namespace Dions

open BlockFile

/-- What the messages of a network are marked with, and the hash of their data. -/
structure Network where
  pchMessageStart : List UInt8
  Hash : List UInt8 → ℕ
  length_pchMessageStart : pchMessageStart.length = 4

theorem length_mainStart : ([0xfe, 0xc3, 0xba, 0xde] : List UInt8).length = 4 := rfl

/-- The bytes from position `pos` on are written over. -/
def memcpy (pos : ℕ) (src dst : List UInt8) : List UInt8 :=
  dst.take pos ++ src ++ dst.drop (pos + src.length)

/-- The bytes of a C string, filled up with zeros to `n`. -/
def strncpy (psz : List UInt8) (n : ℕ) : List UInt8 :=
  let src := (psz.takeWhile (· ≠ 0)).take n
  src ++ List.replicate (n - src.length) 0

/-- New bytes at the end are zero. -/
def resize (n : ℕ) (vch : List UInt8) : List UInt8 :=
  vch.take n ++ List.replicate (n - vch.length) 0

/-! ## Headers -/

structure CMessageHeader where
  pchMessageStart : List UInt8
  pchCommand : List UInt8
  nMessageSize : ℕ
  nChecksum : ℕ
  deriving DecidableEq, Repr

namespace CMessageHeader

def COMMAND_SIZE : ℕ := 12
def MESSAGE_SIZE_OFFSET : ℕ := 16
def CHECKSUM_OFFSET : ℕ := 20
def HEADER_SIZE : ℕ := 24

/-- `FLATDATA`: an array as it lies in memory. -/
def flatData (size : ℕ) : Wire (List UInt8) := (Codec.symbol .endOfData).replicate size

def wire : Wire CMessageHeader :=
  ((flatData 4).seq fun _ => (flatData COMMAND_SIZE).seq fun _ =>
    (wireUnsigned 4).seq fun _ => wireUnsigned 4).record
    { toFun := fun p => ⟨p.1, p.2.1, p.2.2.1, p.2.2.2⟩
      invFun := fun hdr => (hdr.pchMessageStart, hdr.pchCommand, hdr.nMessageSize, hdr.nChecksum)
      left_inv := fun _ => rfl
      right_inv := fun _ => rfl }

/-- `CMessageHeader()`. -/
def null (net : Network) : CMessageHeader where
  pchMessageStart := net.pchMessageStart
  pchCommand := [0, 1, 0, 0, 0, 0, 0, 0, 0, 0, 0, 0]
  nMessageSize := 2 ^ 32 - 1
  nChecksum := 0

/-- `CMessageHeader(pszCommand, nMessageSizeIn)`. -/
def ofCommand (net : Network) (pszCommand : List UInt8) (nMessageSizeIn : ℕ) : CMessageHeader where
  pchMessageStart := net.pchMessageStart
  pchCommand := strncpy pszCommand COMMAND_SIZE
  nMessageSize := nMessageSizeIn
  nChecksum := 0

end CMessageHeader

/-! ## Receiving -/

structure CNetMessage where
  in_data : Bool
  hdrbuf : List UInt8
  hdr : CMessageHeader
  nHdrPos : ℕ
  vRecv : List UInt8
  nDataPos : ℕ
  deriving DecidableEq, Repr

namespace CNetMessage

def null (net : Network) : CNetMessage where
  in_data := false
  hdrbuf := List.replicate 24 0
  hdr := .null net
  nHdrPos := 0
  vRecv := []
  nDataPos := 0

def complete (msg : CNetMessage) : Bool := msg.in_data && msg.hdr.nMessageSize == msg.nDataPos

/-- The message and what is returned: how many bytes were taken, or `-1`. -/
def readHeader (msg : CNetMessage) (pch : List UInt8) : CNetMessage × ℤ :=
  let nRemaining := 24 - msg.nHdrPos
  let nCopy := min nRemaining pch.length
  let msg :=
    { msg with
      hdrbuf := memcpy msg.nHdrPos (pch.take nCopy) msg.hdrbuf
      nHdrPos := msg.nHdrPos + nCopy }
  if msg.nHdrPos < 24 then (msg, nCopy)
  else
    match CMessageHeader.wire.unserialize msg.hdrbuf with
    | .error _ => (msg, -1)
    | .ok (hdr, hdrbuf) =>
      let msg := { msg with hdr, hdrbuf }
      if MAX_SIZE < hdr.nMessageSize then (msg, -1)
      else ({ msg with in_data := true }, nCopy)

def readData (msg : CNetMessage) (pch : List UInt8) : CNetMessage × ℤ :=
  let nRemaining := msg.hdr.nMessageSize - msg.nDataPos
  let nCopy := min nRemaining pch.length
  let vRecv :=
    if msg.vRecv.length < msg.nDataPos + nCopy then
      resize (min msg.hdr.nMessageSize (msg.nDataPos + nCopy + 256 * 1024)) msg.vRecv
    else msg.vRecv
  ({ msg with
      vRecv := memcpy msg.nDataPos (pch.take nCopy) vRecv
      nDataPos := msg.nDataPos + nCopy }, nCopy)

end CNetMessage

/-- The messages before the incomplete one, and that one; there may have to be a new one. -/
def currentMessage (net : Network) (vRecvMsg : List CNetMessage) :
    List CNetMessage × CNetMessage :=
  match vRecvMsg.getLast? with
  | none => (vRecvMsg, .null net)
  | some msg => if msg.complete then (vRecvMsg, .null net) else (vRecvMsg.dropLast, msg)

/-- One round of the loop of `ReceiveMsgBytes`. -/
def absorb (net : Network) (vRecvMsg : List CNetMessage) (pch : List UInt8) :
    List CNetMessage × ℤ :=
  let (before, msg) := currentMessage net vRecvMsg
  let (msg, handled) := if msg.in_data then msg.readData pch else msg.readHeader pch
  (before ++ [msg], handled)

/-- The loop with at most `fuel` rounds; `none` if they do not do. -/
def receiveLoop (net : Network) : (fuel : ℕ) → List CNetMessage → List UInt8 →
    Option (List CNetMessage × Bool)
  | _, vRecvMsg, [] => some (vRecvMsg, true)
  | 0, _, _ :: _ => none
  | fuel + 1, vRecvMsg, pch =>
    let (vRecvMsg, handled) := absorb net vRecvMsg pch
    if handled < 0 then some (vRecvMsg, false)
    else receiveLoop net fuel vRecvMsg (pch.drop handled.toNat)

/-- `CNode::ReceiveMsgBytes`; every round takes a byte at least. -/
def ReceiveMsgBytes (net : Network) (vRecvMsg : List CNetMessage) (pch : List UInt8) :
    Option (List CNetMessage × Bool) :=
  receiveLoop net pch.length vRecvMsg pch

/-- What `recv` returns is handed over piece by piece, until the node refuses one: the caller
then closes the connection. -/
def receiveAll (net : Network) : List CNetMessage → List (List UInt8) →
    Option (List CNetMessage × Bool)
  | vRecvMsg, [] => some (vRecvMsg, true)
  | vRecvMsg, pch :: chunks =>
    match ReceiveMsgBytes net vRecvMsg pch with
    | none => none
    | some (vRecvMsg, false) => some (vRecvMsg, false)
    | some (vRecvMsg, true) => receiveAll net vRecvMsg chunks

/-! ## Sending -/

inductive SocketError where
  | WSAEWOULDBLOCK
  | WSAEMSGSIZE
  | WSAEINTR
  | WSAEINPROGRESS
  | other
  deriving DecidableEq, Repr

/-- What the system does in a call of `send`: it takes up to so many bytes, or it fails. -/
inductive SendOutcome where
  | takes (count : ℕ)
  | fails (nErr : SocketError)
  deriving DecidableEq, Repr

/-- A call of `send` and the time after it. -/
structure SendCall where
  outcome : SendOutcome
  GetTime : ℤ

/-- The two ends of a connection's socket: whether it is open here, and what it has taken. -/
structure SOCKET where
  valid : Bool
  taken : List UInt8
  deriving DecidableEq, Repr

/-- `send` never takes more than it is offered; on `INVALID_SOCKET` it fails. -/
def send (hSocket : SOCKET) (outcome : SendOutcome) (data : List UInt8) : Except SocketError ℕ :=
  if hSocket.valid then
    match outcome with
    | .takes count => .ok (min count data.length)
    | .fails nErr => .error nErr
  else .error .other

/-- The sending half of a node. -/
structure CNode where
  hSocket : SOCKET
  ssSend : List UInt8
  nSendSize : UInt64
  nSendOffset : ℕ
  vSendMsg : List (List UInt8)
  nLastSend : ℤ
  fDisconnect : Bool
  deriving DecidableEq, Repr

namespace CNode

def null : CNode where
  hSocket := ⟨true, []⟩
  ssSend := []
  nSendSize := 0
  nSendOffset := 0
  vSendMsg := []
  nLastSend := 0
  fDisconnect := false

def CloseSocketDisconnect (pnode : CNode) : CNode :=
  { pnode with fDisconnect := true, hSocket := { pnode.hSocket with valid := false } }

end CNode

/-- The assertion that stopped the program. -/
inductive FailedAssert where
  | BeginMessage
  | EndMessage
  | SocketSendData
  deriving DecidableEq, Repr

/-- The loop of `SocketSendData`: `it` is the queue from the iterator on. -/
def sendLoop (call : ℕ → SendCall) : (i : ℕ) → (it : List (List UInt8)) → CNode →
    Except FailedAssert (List (List UInt8) × CNode)
  | _, [], pnode => .ok ([], pnode)
  | i, data :: it, pnode =>
    if data.length ≤ pnode.nSendOffset then .error .SocketSendData
    else
      let rest := data.drop pnode.nSendOffset
      match send pnode.hSocket (call i).outcome rest with
      | .ok nBytes =>
        if 0 < nBytes then
          let pnode :=
            { pnode with
              hSocket := { pnode.hSocket with taken := pnode.hSocket.taken ++ rest.take nBytes }
              nLastSend := (call i).GetTime
              nSendOffset := pnode.nSendOffset + nBytes }
          if pnode.nSendOffset = data.length then
            sendLoop call (i + 1) it
              { pnode with
                nSendOffset := 0
                nSendSize := pnode.nSendSize - UInt64.ofNat data.length }
          else .ok (data :: it, pnode)
        else .ok (data :: it, pnode)
      | .error .other => .ok (data :: it, pnode.CloseSocketDisconnect)
      | .error _ => .ok (data :: it, pnode)

def SocketSendData (call : ℕ → SendCall) (pnode : CNode) : Except FailedAssert CNode :=
  match sendLoop call 0 pnode.vSendMsg pnode with
  | .error e => .error e
  | .ok (it, pnode) =>
    if it = [] ∧ (pnode.nSendOffset ≠ 0 ∨ pnode.nSendSize ≠ 0) then .error .SocketSendData
    else .ok { pnode with vSendMsg := it }

open CMessageHeader

namespace CNode

def BeginMessage (net : Network) (pszCommand : List UInt8) (pnode : CNode) :
    Except FailedAssert CNode :=
  if pnode.ssSend.length ≠ 0 then .error .BeginMessage
  else .ok { pnode with
    ssSend := pnode.ssSend ++ CMessageHeader.wire.serialize (.ofCommand net pszCommand 0) }

def AbortMessage (pnode : CNode) : CNode := { pnode with ssSend := [] }

/-- `fDrop` is whether `-dropmessagestest` drops this message. -/
def EndMessage (net : Network) (fDrop : Bool) (call : ℕ → SendCall) (pnode : CNode) :
    Except FailedAssert CNode :=
  if fDrop then .ok pnode.AbortMessage
  else if pnode.ssSend.length = 0 then .ok pnode
  else
    let nSize := (pnode.ssSend.length - HEADER_SIZE) % 2 ^ 32
    let ssSend := memcpy MESSAGE_SIZE_OFFSET (LittleEndian.toBytes 4 nSize) pnode.ssSend
    let hash := net.Hash (ssSend.drop HEADER_SIZE)
    let nChecksum := hash % 2 ^ 32
    if ssSend.length < CHECKSUM_OFFSET + 4 then .error .EndMessage
    else
      let ssSend := memcpy CHECKSUM_OFFSET (LittleEndian.toBytes 4 nChecksum) ssSend
      let first := pnode.vSendMsg.isEmpty
      let pnode :=
        { pnode with
          vSendMsg := pnode.vSendMsg ++ [ssSend]
          ssSend := []
          nSendSize := pnode.nSendSize + UInt64.ofNat ssSend.length }
      if first then SocketSendData call pnode else .ok pnode

/-- `args` is what the arguments are written as; `none` if writing them throws. -/
def PushMessage (net : Network) (pszCommand : List UInt8) (args : Option (List UInt8))
    (fDrop : Bool) (call : ℕ → SendCall) (pnode : CNode) : Except FailedAssert CNode :=
  match pnode.BeginMessage net pszCommand with
  | .error e => .error e
  | .ok pnode =>
    match args with
    | none => .ok pnode.AbortMessage
    | some args => EndMessage net fDrop call { pnode with ssSend := pnode.ssSend ++ args }

end CNode

/-- What happens on the sending side: a message is pushed, or the socket handler finds that the
socket has room. -/
inductive SendOp where
  | PushMessage (pszCommand : List UInt8) (args : Option (List UInt8)) (fDrop : Bool)
      (call : ℕ → SendCall)
  | SocketSendData (call : ℕ → SendCall)

def SendOp.run (net : Network) (pnode : CNode) : SendOp → Except FailedAssert CNode
  | .PushMessage pszCommand args fDrop call => pnode.PushMessage net pszCommand args fDrop call
  | .SocketSendData call => Dions.SocketSendData call pnode

def sendRun (net : Network) (pnode : CNode) (ops : List SendOp) : Except FailedAssert CNode :=
  ops.foldlM (SendOp.run net) pnode

end Dions
