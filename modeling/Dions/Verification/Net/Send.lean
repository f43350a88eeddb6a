import Dions.Verification.Net.Receive

/-! # Sending writes the queue

Whatever the socket takes in each call, what it has taken so far and what is still queued are
together the messages that were pushed, one behind the other, and no assertion fails. -/

namespace Dions

open CMessageHeader LittleEndian

variable {blocks : List (List UInt8)} {pnode : CNode}
variable {it : List (List UInt8)} {data : List UInt8}

/-! ## The queue -/

/-- Of `blocks` all those before `it` have been written, and of the first of `it` the bytes before
the offset. -/
structure Progress (blocks it : List (List UInt8)) (pnode : CNode) : Prop where
  taken : ∃ written, written ++ it = blocks ∧
    pnode.hSocket.taken = written.flatten ++ it.flatten.take pnode.nSendOffset
  nonempty : ∀ data ∈ it, data ≠ []
  nSendSize : pnode.nSendSize = UInt64.ofNat it.flatten.length
  inside : ∀ data rest, it = data :: rest → pnode.nSendOffset < data.length
  finished : it = [] → pnode.nSendOffset = 0

theorem Progress.disconnect (h : Progress blocks it pnode) :
    Progress blocks it pnode.CloseSocketDisconnect :=
  ⟨h.taken, h.nonempty, h.nSendSize, h.inside, h.finished⟩

theorem take_add_flatten (data : List UInt8) (it : List (List UInt8)) {offset n : ℕ}
    (h : offset + n ≤ data.length) :
    (data :: it).flatten.take (offset + n) =
      (data :: it).flatten.take offset ++ (data.drop offset).take n := by
  rw [List.flatten_cons, List.take_append_of_le_length h,
    List.take_append_of_le_length (by omega), List.take_add]

theorem Progress.advance (h : Progress blocks (data :: it) pnode) {n : ℕ}
    (hn : pnode.nSendOffset + n < data.length) (nLastSend : ℤ) :
    Progress blocks (data :: it)
      { pnode with
        hSocket := { pnode.hSocket with
          taken := pnode.hSocket.taken ++ (data.drop pnode.nSendOffset).take n }
        nLastSend
        nSendOffset := pnode.nSendOffset + n } := by
  obtain ⟨written, hall, htaken⟩ := h.taken
  refine ⟨⟨written, hall, ?_⟩, h.nonempty, h.nSendSize, ?_, ?_⟩
  · change pnode.hSocket.taken ++ (data.drop pnode.nSendOffset).take n = _
    rw [htaken, take_add_flatten data it (by omega), List.append_assoc]
  · intro data' rest heq
    injection heq with hdata
    rw [← hdata]
    exact hn
  · intro hnil
    cases hnil

theorem Progress.finish (h : Progress blocks (data :: it) pnode) {n : ℕ}
    (hn : pnode.nSendOffset + n = data.length) (nLastSend : ℤ) :
    Progress blocks it
      { pnode with
        hSocket := { pnode.hSocket with
          taken := pnode.hSocket.taken ++ (data.drop pnode.nSendOffset).take n }
        nLastSend
        nSendOffset := 0
        nSendSize := pnode.nSendSize - UInt64.ofNat data.length } := by
  obtain ⟨written, hall, htaken⟩ := h.taken
  refine ⟨⟨written ++ [data], ?_, ?_⟩, ?_, ?_, ?_, fun _ => rfl⟩
  · rw [List.append_assoc]
    exact hall
  · change pnode.hSocket.taken ++ (data.drop pnode.nSendOffset).take n = _
    have hfront := take_add_flatten data it (Nat.le_of_eq hn)
    rw [hn, List.flatten_cons, List.take_left] at hfront
    rw [htaken, List.flatten_append, List.flatten_singleton, List.take_zero, List.append_nil,
      List.append_assoc, List.flatten_cons, ← hfront]
  · exact fun data' hmem => h.nonempty data' (List.mem_cons_of_mem _ hmem)
  · change pnode.nSendSize - UInt64.ofNat data.length = _
    rw [h.nSendSize, List.flatten_cons, List.length_append, Nat.add_comm, UInt64.ofNat_add,
      UInt64.add_sub_cancel]
  · intro data' rest heq
    have hmem : data' ∈ data :: it := by rw [heq]; simp
    exact List.length_pos_iff.mpr (h.nonempty data' hmem)

theorem send_le {hSocket : SOCKET} {outcome : SendOutcome} {n : ℕ}
    (h : send hSocket outcome data = .ok n) : n ≤ data.length := by
  unfold send at h
  split at h
  · cases outcome with
    | takes count =>
      injection h with h
      omega
    | fails nErr => cases h
  · cases h

theorem sendLoop_spec (call : ℕ → SendCall) (i : ℕ) {blocks it : List (List UInt8)}
    {pnode : CNode} (h : Progress blocks it pnode) :
    ∃ it' pnode', sendLoop call i it pnode = .ok (it', pnode') ∧ Progress blocks it' pnode' ∧
      pnode'.ssSend = pnode.ssSend := by
  induction it generalizing i pnode with
  | nil => exact ⟨[], pnode, rfl, h, rfl⟩
  | cons data it ih =>
    have hinside := h.inside data it rfl
    rw [sendLoop, if_neg (by omega)]
    cases hsend : send pnode.hSocket (call i).outcome (data.drop pnode.nSendOffset) with
    | error nErr =>
      simp only [hsend]
      cases nErr with
      | other => exact ⟨_, _, rfl, h.disconnect, rfl⟩
      | WSAEWOULDBLOCK => exact ⟨_, _, rfl, h, rfl⟩
      | WSAEMSGSIZE => exact ⟨_, _, rfl, h, rfl⟩
      | WSAEINTR => exact ⟨_, _, rfl, h, rfl⟩
      | WSAEINPROGRESS => exact ⟨_, _, rfl, h, rfl⟩
    | ok n =>
      have hle := send_le hsend
      rw [List.length_drop] at hle
      simp only [hsend]
      by_cases hpos : 0 < n
      · rw [if_pos hpos]
        by_cases hend : pnode.nSendOffset + n = data.length
        · rw [if_pos hend]
          obtain ⟨it', pnode', hloop, hprogress, hss⟩ := ih (i + 1) (h.finish hend (call i).GetTime)
          exact ⟨it', pnode', hloop, hprogress, hss⟩
        · rw [if_neg hend]
          exact ⟨_, _, rfl, h.advance (by omega) (call i).GetTime, rfl⟩
      · rw [if_neg hpos]
        exact ⟨_, _, rfl, h, rfl⟩

/-- Between two calls. -/
structure Writes (blocks : List (List UInt8)) (pnode : CNode) : Prop where
  progress : Progress blocks pnode.vSendMsg pnode
  ssSend : pnode.ssSend = []

theorem null_writes : Writes [] CNode.null where
  progress := ⟨⟨[], rfl, rfl⟩, by simp [CNode.null], rfl, by simp [CNode.null], fun _ => rfl⟩
  ssSend := rfl

theorem SocketSendData_spec (call : ℕ → SendCall) {blocks : List (List UInt8)} {pnode : CNode}
    (h : Writes blocks pnode) :
    ∃ pnode', SocketSendData call pnode = .ok pnode' ∧ Writes blocks pnode' := by
  obtain ⟨it, pnode', hloop, hprogress, hss⟩ := sendLoop_spec call 0 h.progress
  refine ⟨{ pnode' with vSendMsg := it }, ?_, ?_, by rw [← h.ssSend, ← hss]⟩
  · simp only [SocketSendData, hloop]
    apply if_neg
    intro hstop
    obtain ⟨hnil, hoffset | hsize⟩ := hstop
    · exact hoffset (hprogress.finished hnil)
    · apply hsize
      rw [hprogress.nSendSize, hnil]
      rfl
  · exact ⟨hprogress.taken, hprogress.nonempty, hprogress.nSendSize, hprogress.inside,
      hprogress.finished⟩

/-- A socket that is open and takes what it is offered empties the queue. -/
theorem sendLoop_drains {call : ℕ → SendCall} (i : ℕ) {blocks it : List (List UInt8)}
    {pnode : CNode} (h : Progress blocks it pnode) (hvalid : pnode.hSocket.valid = true)
    (htakes : ∀ k, ∃ count, (call k).outcome = .takes count ∧ it.flatten.length ≤ count) :
    ∃ pnode', sendLoop call i it pnode = .ok ([], pnode') := by
  induction it generalizing i pnode with
  | nil => exact ⟨pnode, rfl⟩
  | cons data it ih =>
    have hinside := h.inside data it rfl
    obtain ⟨count, houtcome, hcount⟩ := htakes i
    rw [List.flatten_cons, List.length_append] at hcount
    have hsend : send pnode.hSocket (call i).outcome (data.drop pnode.nSendOffset) =
        .ok (data.length - pnode.nSendOffset) := by
      simp only [send, hvalid, houtcome, if_true, List.length_drop]
      congr 1
      omega
    have hend : pnode.nSendOffset + (data.length - pnode.nSendOffset) = data.length := by omega
    rw [sendLoop, if_neg (by omega)]
    simp only [hsend]
    rw [if_pos (by omega), if_pos hend]
    refine ih (i + 1) (h.finish hend (call i).GetTime) hvalid ?_
    intro k
    obtain ⟨count, houtcome, hcount⟩ := htakes k
    rw [List.flatten_cons, List.length_append] at hcount
    exact ⟨count, houtcome, by omega⟩

theorem SocketSendData_drains {call : ℕ → SendCall} (h : Writes blocks pnode)
    (hvalid : pnode.hSocket.valid = true) (htakes : ∀ k, ∃ count, (call k).outcome = .takes count ∧
      pnode.vSendMsg.flatten.length ≤ count) :
    ∃ pnode', SocketSendData call pnode = .ok pnode' ∧ pnode'.vSendMsg = [] ∧
      pnode'.hSocket.taken = blocks.flatten := by
  obtain ⟨sent, hloop⟩ := sendLoop_drains 0 h.progress hvalid htakes
  obtain ⟨pnode', hrun, hwrites⟩ := SocketSendData_spec call h
  have hdrained : pnode'.vSendMsg = [] := by
    simp only [SocketSendData, hloop] at hrun
    split at hrun
    · cases hrun
    · injection hrun with hrun
      rw [← hrun]
  obtain ⟨written, hall, htaken⟩ := hwrites.progress.taken
  rw [hdrained, List.append_nil] at hall
  refine ⟨pnode', hrun, hdrained, ?_⟩
  rw [htaken, hdrained, hall, List.flatten_nil, List.take_nil, List.append_nil]

/-! ## The messages -/

def sentHeader (net : Network) (message : List UInt8 × List UInt8) : CMessageHeader where
  pchMessageStart := net.pchMessageStart
  pchCommand := strncpy message.1 COMMAND_SIZE
  nMessageSize := message.2.length % 2 ^ 32
  nChecksum := net.Hash message.2 % 2 ^ 32

def sentBytes (net : Network) (message : List UInt8 × List UInt8) : List UInt8 :=
  CMessageHeader.wire.serialize (sentHeader net message) ++ message.2

theorem length_strncpy (psz : List UInt8) (n : ℕ) : (strncpy psz n).length = n := by
  simp only [strncpy, List.length_append, List.length_take, List.length_replicate]
  omega

theorem sentHeader_fits (net : Network) (message : List UInt8 × List UInt8) :
    (sentHeader net message).Fits where
  pchMessageStart := net.length_pchMessageStart
  pchCommand := length_strncpy _ _
  nMessageSize := Nat.mod_lt _ (by decide)
  nChecksum := Nat.mod_lt _ (by decide)

theorem length_sentBytes (net : Network) (message : List UInt8 × List UInt8) :
    (sentBytes net message).length = HEADER_SIZE + message.2.length := by
  rw [sentBytes, List.length_append, (sentHeader_fits net message).length]

theorem memcpy_field {front field back src : List UInt8} (h : src.length = field.length) :
    memcpy front.length src (front ++ (field ++ back)) = front ++ (src ++ back) := by
  rw [memcpy, List.take_left, ← List.drop_drop, List.drop_left, h, List.drop_left,
    List.append_assoc]

/-- What `EndMessage` makes of a header without size and checksum, and the data behind it. -/
theorem EndMessage_bytes (net : Network) (pszCommand args : List UInt8) :
    let ssSend := CMessageHeader.wire.serialize (.ofCommand net pszCommand 0) ++ args
    let nSize := (ssSend.length - HEADER_SIZE) % 2 ^ 32
    let sized := memcpy MESSAGE_SIZE_OFFSET (toBytes 4 nSize) ssSend
    CHECKSUM_OFFSET + 4 ≤ sized.length ∧
      memcpy CHECKSUM_OFFSET (toBytes 4 (net.Hash (sized.drop HEADER_SIZE) % 2 ^ 32)) sized =
        sentBytes net (pszCommand, args) := by
  intro ssSend nSize sized
  have hstart := net.length_pchMessageStart
  have hcommand := length_strncpy pszCommand COMMAND_SIZE
  have hfront : (net.pchMessageStart ++ strncpy pszCommand COMMAND_SIZE).length =
      MESSAGE_SIZE_OFFSET := by
    rw [List.length_append, hstart, hcommand]
    rfl
  have hss : ssSend = (net.pchMessageStart ++ strncpy pszCommand COMMAND_SIZE) ++
      (toBytes 4 0 ++ (toBytes 4 0 ++ args)) := by
    simp only [ssSend, header_serialize, CMessageHeader.ofCommand, List.append_assoc]
  have hlen : ssSend.length = HEADER_SIZE + args.length := by
    rw [hss, List.length_append, hfront]
    simp only [List.length_append, length_toBytes, HEADER_SIZE, MESSAGE_SIZE_OFFSET]
    omega
  have hsize : nSize = args.length % 2 ^ 32 := by
    simp only [nSize, hlen, Nat.add_sub_cancel_left]
  have hsized : sized = ((net.pchMessageStart ++ strncpy pszCommand COMMAND_SIZE) ++
      toBytes 4 nSize) ++ (toBytes 4 0 ++ args) := by
    simp only [sized]
    rw [hss, ← hfront, memcpy_field (by rw [length_toBytes, length_toBytes])]
    simp only [List.append_assoc]
  have hsumOffset : ((net.pchMessageStart ++ strncpy pszCommand COMMAND_SIZE) ++
      toBytes 4 nSize).length = CHECKSUM_OFFSET := by
    rw [List.length_append, hfront, length_toBytes]
    rfl
  have hdata : sized.drop HEADER_SIZE = args := by
    have hheader : (((net.pchMessageStart ++ strncpy pszCommand COMMAND_SIZE) ++
        toBytes 4 nSize) ++ toBytes 4 0).length = HEADER_SIZE := by
      rw [List.length_append, hsumOffset, length_toBytes]
      rfl
    rw [hsized, ← List.append_assoc, ← hheader, List.drop_left]
  constructor
  · rw [hsized, List.length_append, hsumOffset, List.length_append, length_toBytes]
    omega
  · rw [hdata, hsized, ← hsumOffset, memcpy_field (by rw [length_toBytes, length_toBytes]), hsize]
    simp only [sentBytes, header_serialize, sentHeader, List.append_assoc]

theorem beginMessage_length (net : Network) (pszCommand args : List UInt8) :
    (CMessageHeader.wire.serialize (.ofCommand net pszCommand 0) ++ args).length ≠ 0 := by
  intro hzero
  obtain ⟨hroom, -⟩ := EndMessage_bytes net pszCommand args
  rw [List.length_eq_zero_iff.mp hzero] at hroom
  simp [memcpy, MESSAGE_SIZE_OFFSET, CHECKSUM_OFFSET] at hroom

def CNode.enqueue (pnode : CNode) (block : List UInt8) : CNode :=
  { pnode with
    vSendMsg := pnode.vSendMsg ++ [block]
    ssSend := []
    nSendSize := pnode.nSendSize + UInt64.ofNat block.length }

theorem Writes.enqueue (h : Writes blocks pnode) {block : List UInt8} (hblock : block ≠ []) :
    Writes (blocks ++ [block]) (pnode.enqueue block) := by
  obtain ⟨written, hall, htaken⟩ := h.progress.taken
  refine ⟨⟨⟨written, ?_, ?_⟩, ?_, ?_, ?_, ?_⟩, rfl⟩
  · rw [← hall, List.append_assoc]
    rfl
  · change pnode.hSocket.taken =
      written.flatten ++ (pnode.vSendMsg ++ [block]).flatten.take pnode.nSendOffset
    rw [htaken, List.flatten_append]
    congr 1
    cases hqueue : pnode.vSendMsg with
    | nil => rw [h.progress.finished hqueue, List.take_zero, List.take_zero]
    | cons data rest =>
      have hinside := h.progress.inside data rest hqueue
      have hle : pnode.nSendOffset ≤ (data :: rest).flatten.length := by
        rw [List.flatten_cons, List.length_append]
        omega
      exact (List.take_append_of_le_length hle).symm
  · intro data hmem
    cases List.mem_append.mp hmem with
    | inl hmem => exact h.progress.nonempty data hmem
    | inr hmem =>
      rw [List.mem_singleton.mp hmem]
      exact hblock
  · change pnode.nSendSize + UInt64.ofNat block.length =
      UInt64.ofNat (pnode.vSendMsg ++ [block]).flatten.length
    rw [h.progress.nSendSize, List.flatten_append, List.length_append, UInt64.ofNat_add,
      List.flatten_singleton]
  · intro data rest heq
    change pnode.vSendMsg ++ [block] = data :: rest at heq
    change pnode.nSendOffset < data.length
    cases hqueue : pnode.vSendMsg with
    | nil =>
      rw [h.progress.finished hqueue]
      simp only [hqueue, List.nil_append] at heq
      injection heq with hdata
      rw [← hdata]
      exact List.length_pos_iff.mpr hblock
    | cons data' rest' =>
      simp only [hqueue, List.cons_append] at heq
      injection heq with hdata
      rw [← hdata]
      exact h.progress.inside data' rest' hqueue
  · intro hnil
    exact absurd hnil (by simp [CNode.enqueue])

theorem sentBytes_ne_nil (net : Network) (message : List UInt8 × List UInt8) :
    sentBytes net message ≠ [] := by
  apply List.length_pos_iff.mp
  rw [length_sentBytes]
  simp only [HEADER_SIZE]
  omega

/-- A message is put into the queue, and written at once if there is none before it. -/
theorem PushMessage_eq (net : Network) (pszCommand args : List UInt8) (call : ℕ → SendCall)
    {pnode : CNode} (h : pnode.ssSend = []) :
    pnode.PushMessage net pszCommand (some args) false call =
      if pnode.vSendMsg.isEmpty then
        SocketSendData call (pnode.enqueue (sentBytes net (pszCommand, args)))
      else .ok (pnode.enqueue (sentBytes net (pszCommand, args))) := by
  obtain ⟨hroom, hbytes⟩ := EndMessage_bytes net pszCommand args
  simp only [CNode.PushMessage, CNode.BeginMessage, h, List.length_nil, ne_eq, not_true_eq_false,
    if_false, List.nil_append, CNode.EndMessage, Bool.false_eq_true]
  rw [if_neg (beginMessage_length net pszCommand args), if_neg (by omega), hbytes]
  rfl

def SendOp.queued : SendOp → Option (List UInt8 × List UInt8)
  | .PushMessage pszCommand (some args) false _ => some (pszCommand, args)
  | _ => none

theorem PushMessage_spec (net : Network) (pszCommand args : List UInt8) (call : ℕ → SendCall)
    {blocks : List (List UInt8)} {pnode : CNode} (h : Writes blocks pnode) :
    ∃ pnode', pnode.PushMessage net pszCommand (some args) false call = .ok pnode' ∧
      Writes (blocks ++ [sentBytes net (pszCommand, args)]) pnode' := by
  have henqueue := h.enqueue (sentBytes_ne_nil net (pszCommand, args))
  rw [PushMessage_eq net pszCommand args call h.ssSend]
  split
  · exact SocketSendData_spec call henqueue
  · exact ⟨_, rfl, henqueue⟩

theorem SendOp.run_spec (net : Network) (op : SendOp) {blocks : List (List UInt8)} {pnode : CNode}
    (h : Writes blocks pnode) :
    ∃ pnode', op.run net pnode = .ok pnode' ∧
      Writes (blocks ++ (op.queued.map (sentBytes net)).toList) pnode' := by
  cases op with
  | SocketSendData call =>
    obtain ⟨pnode', hrun, hwrites⟩ := SocketSendData_spec call h
    exact ⟨pnode', hrun, by simpa [SendOp.queued] using hwrites⟩
  | PushMessage pszCommand args fDrop call =>
    -- an exception and the test option leave the queue alone
    have habort : Writes blocks { pnode with ssSend := [] } :=
      ⟨⟨h.progress.taken, h.progress.nonempty, h.progress.nSendSize, h.progress.inside,
        h.progress.finished⟩, rfl⟩
    cases args with
    | none =>
      refine ⟨_, ?_, by simpa [SendOp.queued] using habort⟩
      simp [SendOp.run, CNode.PushMessage, CNode.BeginMessage, h.ssSend, CNode.AbortMessage]
    | some args =>
      cases fDrop with
      | true =>
        refine ⟨_, ?_, by simpa [SendOp.queued] using habort⟩
        simp [SendOp.run, CNode.PushMessage, CNode.BeginMessage, h.ssSend, CNode.EndMessage,
          CNode.AbortMessage]
      | false => exact PushMessage_spec net pszCommand args call h

/-- The messages of a run, in the order in which they were pushed. -/
def queuedBy (ops : List SendOp) : List (List UInt8 × List UInt8) := ops.filterMap SendOp.queued

/-- A run of the sender: no assertion fails, and every byte of what was queued is either taken or
still in the queue. -/
theorem sendRun_spec (net : Network) (ops : List SendOp) {blocks : List (List UInt8)}
    {pnode : CNode} (h : Writes blocks pnode) :
    ∃ pnode', sendRun net pnode ops = .ok pnode' ∧
      Writes (blocks ++ (queuedBy ops).map (sentBytes net)) pnode' := by
  induction ops generalizing blocks pnode with
  | nil => exact ⟨pnode, rfl, by simpa [queuedBy] using h⟩
  | cons op ops ih =>
    obtain ⟨pnode₁, hop, hwrites⟩ := op.run_spec net h
    obtain ⟨pnode', hrun, hwrites'⟩ := ih hwrites
    refine ⟨pnode', ?_, ?_⟩
    · calc sendRun net pnode (op :: ops) = (op.run net pnode >>= fun p => sendRun net p ops) := rfl
        _ = .ok pnode' := by rw [hop]; exact hrun
    · cases hqueued : op.queued with
      | none => simpa [queuedBy, hqueued] using hwrites'
      | some message => simpa [queuedBy, hqueued] using hwrites'

end Dions
