import Dions.Verification.Net.Send

/-! # What is sent is received

The bytes that one node has written are frames, so the other node has the messages that were
written whole, one after the other, however the bytes come in. -/

namespace Dions

open BlockFile CMessageHeader Framing

/-- The message that is received for the one that was pushed. -/
def receivedAs (net : Network) (message : List UInt8 × List UInt8) : CNetMessage where
  in_data := true
  hdrbuf := []
  hdr := sentHeader net message
  nHdrPos := 24
  vRecv := message.2
  nDataPos := message.2.length

theorem sentHeader_size (net : Network) {message : List UInt8 × List UInt8}
    (h : message.2.length < 2 ^ 32) : (sentHeader net message).nMessageSize = message.2.length :=
  Nat.mod_eq_of_lt h

theorem lt_of_le_MAX_SIZE {n : ℕ} (h : n ≤ MAX_SIZE) : n < 2 ^ 32 := lt_of_le_of_lt h (by decide)

/-- A message of at most `MAX_SIZE` bytes is sent as a frame. -/
theorem exists_frame (net : Network) {message : List UInt8 × List UInt8}
    (h : message.2.length ≤ MAX_SIZE) :
    ∃ f : MessageFrame, f.symbols = sentBytes net message ∧ messageOf f = receivedAs net message := by
  have hfits := sentHeader_fits net message
  have hbody : messageFraming.bodyLen (CMessageHeader.wire.serialize (sentHeader net message)) =
      some message.2.length := by
    simp only [messageFraming]
    rw [headerOf_serialize hfits, sentHeader_size net (lt_of_le_MAX_SIZE h), if_neg (by omega)]
  refine ⟨⟨_, message.2, hfits.length, hbody⟩, rfl, ?_⟩
  simp only [messageOf, headerOf_serialize hfits, receivedAs]

theorem exists_frames (net : Network) {messages : List (List UInt8 × List UInt8)}
    (h : ∀ message ∈ messages, message.2.length ≤ MAX_SIZE) :
    ∃ fs : List MessageFrame, fs.map Frame.symbols = messages.map (sentBytes net) ∧
      fs.map messageOf = messages.map (receivedAs net) := by
  induction messages with
  | nil => exact ⟨[], rfl, rfl⟩
  | cons message messages ih =>
    obtain ⟨f, hsymbols, hmessage⟩ := exists_frame net (h message List.mem_cons_self)
    obtain ⟨fs, hall, hmessages⟩ := ih fun m hmem => h m (List.mem_cons_of_mem _ hmem)
    exact ⟨f :: fs, by simp only [List.map_cons, hsymbols, hall],
      by simp only [List.map_cons, hmessage, hmessages]⟩

/-- The bytes that were taken end with the part of the first queued message that is written. -/
theorem Writes.decode {net : Network} {messages : List (List UInt8 × List UInt8)} {pnode : CNode}
    (h : Writes (messages.map (sentBytes net)) pnode)
    (hsmall : ∀ message ∈ messages, message.2.length ≤ MAX_SIZE) :
    ∃ fs : List MessageFrame,
      messageFraming.decode pnode.hSocket.taken =
        (fs, .within (pnode.vSendMsg.flatten.take pnode.nSendOffset)) ∧
      fs.map messageOf =
        (messages.take (messages.length - pnode.vSendMsg.length)).map (receivedAs net) := by
  obtain ⟨written, hall, htaken⟩ := h.progress.taken
  have hlen : written.length = messages.length - pnode.vSendMsg.length := by
    have hsum := congrArg List.length hall
    rw [List.length_append, List.length_map] at hsum
    omega
  have hwritten : written = (messages.take written.length).map (sentBytes net) := by
    rw [List.map_take, ← hall, List.take_left]
  have hqueue : pnode.vSendMsg = (messages.drop written.length).map (sentBytes net) := by
    rw [List.map_drop, ← hall, List.drop_left]
  obtain ⟨fs, hsymbols, hmessages⟩ := exists_frames net
    (fun m hmem => hsmall m (List.mem_of_mem_take hmem) :
      ∀ m ∈ messages.take written.length, m.2.length ≤ MAX_SIZE)
  have hflat : fs.flatMap Frame.symbols = written.flatten := by
    rw [List.flatMap_def, hsymbols, ← hwritten]
  refine ⟨fs, ?_, by rw [hmessages, hlen]⟩
  -- what follows the whole frames is nothing, or less than the next one
  have hpart : messageFraming.front (pnode.vSendMsg.flatten.take pnode.nSendOffset) = .within := by
    cases hrest : messages.drop written.length with
    | nil =>
      rw [hqueue, hrest, List.map_nil, List.flatten_nil, List.take_nil]
      exact front_within (.inl (by decide))
    | cons message rest =>
      have hmem : message ∈ messages := List.mem_of_mem_drop (by rw [hrest]; simp)
      obtain ⟨f, hf, -⟩ := exists_frame net (hsmall message hmem)
      rw [hrest, List.map_cons] at hqueue
      have hinside := h.progress.inside _ _ hqueue
      have hsplit : pnode.vSendMsg.flatten.take pnode.nSendOffset ++
          (sentBytes net message).drop pnode.nSendOffset = f.symbols := by
        rw [hqueue, List.flatten_cons, List.take_append_of_le_length (by omega),
          List.take_append_drop, hf]
      apply front_part hsplit
      intro hnil
      have hdrop := congrArg List.length hnil
      rw [List.length_drop, List.length_nil] at hdrop
      omega
  rw [htaken, ← hflat, decode_frames, decode_within hpart, List.append_nil]

/-- However the socket takes what is pushed and however the bytes arrive: no assertion fails, and
while no message is longer than `MAX_SIZE` the peer has those that were written whole, in order and
as they were pushed. What a node makes of any stream does not depend on its chunks. -/
theorem framing_lossless (net : Network) :
    (∀ ops : List SendOp, ∃ pnode, sendRun net .null ops = .ok pnode ∧
      ((∀ message ∈ queuedBy ops, message.2.length ≤ MAX_SIZE) →
        ∀ chunks : List (List UInt8), chunks.flatten = pnode.hSocket.taken →
          ∃ vRecvMsg, receiveAll net [] chunks = some (vRecvMsg, true) ∧
            vRecvMsg.filter CNetMessage.complete =
              ((queuedBy ops).take ((queuedBy ops).length - pnode.vSendMsg.length)).map
                (receivedAs net) ∧
            (pnode.vSendMsg = [] → vRecvMsg = (queuedBy ops).map (receivedAs net)) ∧
            ∀ msg ∈ vRecvMsg, msg.complete = true →
              msg.vRecv.length = msg.hdr.nMessageSize ∧
                msg.hdr.nChecksum = net.Hash msg.vRecv % 2 ^ 32)) ∧
    ∀ chunks₁ chunks₂ : List (List UInt8), chunks₁.flatten = chunks₂.flatten →
      ∃ vRecvMsg₁ vRecvMsg₂ ok, receiveAll net [] chunks₁ = some (vRecvMsg₁, ok) ∧
        receiveAll net [] chunks₂ = some (vRecvMsg₂, ok) ∧
        vRecvMsg₁.filter CNetMessage.complete = vRecvMsg₂.filter CNetMessage.complete := by
  constructor
  · intro ops
    obtain ⟨pnode, hrun, hwrites⟩ := sendRun_spec net ops null_writes
    refine ⟨pnode, hrun, ?_⟩
    intro hsmall chunks hchunks
    obtain ⟨fs, hdecode, hmessages⟩ := Writes.decode hwrites hsmall
    obtain ⟨vRecvMsg, ok, hreceive, hout⟩ := receiveAll_spec net (.whole []) chunks
    rw [List.flatMap_nil, List.nil_append, hchunks] at hout
    obtain ⟨hcomplete, hok⟩ := hout.decode
    rw [hdecode] at hcomplete hok
    have htrue : ok = true := by
      cases ok with
      | true => rfl
      | false => cases hok.mp rfl
    rw [htrue] at hreceive hout
    refine ⟨vRecvMsg, hreceive, hcomplete.trans hmessages, ?_, ?_⟩
    · intro hdrained
      obtain ⟨fs', part, hdecode', hcases⟩ := Assembles.decode hout
      rw [hdecode, hdrained, List.flatten_nil, List.take_nil] at hdecode'
      cases hdecode'
      cases hcases with
      | inl hwhole =>
        rw [hwhole.2, hmessages, hdrained, List.length_nil, Nat.sub_zero, List.take_length]
      | inr hpart => exact absurd rfl hpart.1
    · intro msg hmem hmsg
      have hfilter : msg ∈ fs.map messageOf := by
        rw [← hcomplete]
        exact List.mem_filter.mpr ⟨hmem, hmsg⟩
      rw [hmessages] at hfilter
      obtain ⟨message, hmessage, rfl⟩ := List.mem_map.mp hfilter
      have hsize := hsmall message (List.mem_of_mem_take hmessage)
      exact ⟨(sentHeader_size net (lt_of_le_MAX_SIZE hsize)).symm, rfl⟩
  · intro chunks₁ chunks₂ hsame
    obtain ⟨vRecvMsg₁, ok₁, hrun₁, -, hcomplete₁, hok₁⟩ := receiveAll_decode net chunks₁
    obtain ⟨vRecvMsg₂, ok₂, hrun₂, -, hcomplete₂, hok₂⟩ := receiveAll_decode net chunks₂
    rw [← hsame] at hcomplete₂ hok₂
    have hok : ok₂ = ok₁ := by
      rw [← hok₂] at hok₁
      cases ok₁ <;> cases ok₂ <;> simp_all
    rw [hok] at hrun₂
    exact ⟨vRecvMsg₁, vRecvMsg₂, ok₁, hrun₁, hrun₂, hcomplete₁.trans hcomplete₂.symm⟩

/-- A message of more than `MAX_SIZE` bytes is written all the same, and refused. -/
theorem large_message_refused (net : Network) (message : List UInt8 × List UInt8)
    (chunks : List (List UInt8)) (hlarge : MAX_SIZE < message.2.length)
    (hsize : message.2.length < 2 ^ 32) (hchunks : chunks.flatten = sentBytes net message) :
    ∃ vRecvMsg, receiveAll net [] chunks = some (vRecvMsg, false) ∧
      vRecvMsg.filter CNetMessage.complete = [] := by
  have hfits := sentHeader_fits net message
  have htake : (sentBytes net message).take messageFraming.headerLen =
      CMessageHeader.wire.serialize (sentHeader net message) := by
    change (sentBytes net message).take HEADER_SIZE = _
    rw [← hfits.length, sentBytes, List.take_left]
  have hbody : messageFraming.bodyLen (CMessageHeader.wire.serialize (sentHeader net message)) =
      none := by
    simp only [messageFraming]
    rw [headerOf_serialize hfits, sentHeader_size net hsize, if_pos hlarge]
  have hfront : messageFraming.front (sentBytes net message) = .refused := by
    apply front_refused _ (by rw [htake, hbody])
    rw [length_sentBytes]
    exact Nat.le_add_right _ _
  obtain ⟨vRecvMsg, ok, hrun, -, hcomplete, hok⟩ := receiveAll_decode net chunks
  rw [hchunks, decode_refused hfront] at hcomplete hok
  rw [hok.mpr rfl] at hrun
  exact ⟨vRecvMsg, hrun, hcomplete⟩

def takesAll : ℕ → SendCall := fun _ => ⟨.takes (2 ^ 32), 0⟩

/-- A message of more than `MAX_SIZE` bytes that is pushed and written whole does not arrive. -/
theorem large_message_lost (net : Network) (pszCommand data : List UInt8)
    (hlarge : MAX_SIZE < data.length) (hsize : data.length + HEADER_SIZE ≤ 2 ^ 32) :
    ∃ pnode vRecvMsg,
      sendRun net .null [.PushMessage pszCommand (some data) false takesAll] = .ok pnode ∧
        pnode.vSendMsg = [] ∧
        receiveAll net [] [pnode.hSocket.taken] = some (vRecvMsg, false) ∧
        vRecvMsg.filter CNetMessage.complete = [] := by
  have hlen := length_sentBytes net (pszCommand, data)
  have henqueue := null_writes.enqueue (sentBytes_ne_nil net (pszCommand, data))
  have hpush := PushMessage_eq net pszCommand data takesAll (show CNode.null.ssSend = [] from rfl)
  rw [if_pos (show CNode.null.vSendMsg.isEmpty = true from rfl)] at hpush
  have hflat : (CNode.null.enqueue (sentBytes net (pszCommand, data))).vSendMsg.flatten.length ≤
      2 ^ 32 := by
    have hqueue : (CNode.null.enqueue (sentBytes net (pszCommand, data))).vSendMsg.flatten =
        sentBytes net (pszCommand, data) := List.flatten_singleton
    rw [hqueue, hlen, Nat.add_comm]
    exact hsize
  obtain ⟨pnode, hsend, hdrained, htaken⟩ :=
    SocketSendData_drains henqueue rfl fun k => ⟨2 ^ 32, (rfl : (takesAll k).outcome = _), hflat⟩
  rw [List.nil_append, List.flatten_singleton] at htaken
  obtain ⟨vRecvMsg, hreceive, hcomplete⟩ := large_message_refused net (pszCommand, data)
    [pnode.hSocket.taken] hlarge (lt_of_lt_of_le (Nat.lt_add_of_pos_right (by decide)) hsize)
    (by rw [List.flatten_singleton, htaken])
  refine ⟨pnode, vRecvMsg, ?_, hdrained, hreceive, hcomplete⟩
  rw [hsend] at hpush
  simp only [sendRun, List.foldlM_cons, List.foldlM_nil, SendOp.run, hpush]
  rfl

/-- Data of one byte more than a message may have. -/
@[irreducible] def largeData : List UInt8 := List.replicate (MAX_SIZE + 1) 0

theorem length_largeData : largeData.length = MAX_SIZE + 1 := by
  unfold largeData
  exact List.length_replicate

/-- A network whose hash is the sum of the bytes. -/
def testNetwork : Network where
  pchMessageStart := [0xfe, 0xc3, 0xba, 0xde]
  Hash := fun data => (data.map UInt8.toNat).sum
  length_pchMessageStart := length_mainStart

theorem framing_lossless_large :
    ∃ pnode vRecvMsg,
      sendRun testNetwork .null [.PushMessage [0x78] (some largeData) false takesAll] = .ok pnode ∧
        pnode.vSendMsg = [] ∧
        receiveAll testNetwork [] [pnode.hSocket.taken] = some (vRecvMsg, false) ∧
        vRecvMsg.filter CNetMessage.complete = [] :=
  large_message_lost testNetwork [0x78] largeData (by rw [length_largeData]; omega)
    (by rw [length_largeData, MAX_SIZE, HEADER_SIZE]; omega)

end Dions
