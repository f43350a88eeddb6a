import Dions.Library.Framing
import Dions.Model.Net

/-! # Receiving is decoding

However the bytes of a stream are cut into chunks, the complete messages of the receiver are the
frames of the stream, and it refuses the stream when a header in it announces too much. -/

namespace Dions

open BlockFile CMessageHeader LittleEndian Framing

variable {msg : CNetMessage} {data header stream : List UInt8} {vRecvMsg : List CNetMessage}
variable {hdr : CMessageHeader}

/-! ## Headers as frames -/

theorem flatMap_singleton {α : Type} (xs : List α) : (xs.flatMap fun x => [x]) = xs := by
  induction xs with
  | nil => rfl
  | cons x xs ih => rw [List.flatMap_cons, ih]; rfl

theorem header_serialize (hdr : CMessageHeader) :
    CMessageHeader.wire.serialize hdr = hdr.pchMessageStart ++ (hdr.pchCommand ++
      (toBytes 4 hdr.nMessageSize ++ toBytes 4 hdr.nChecksum)) := by
  calc CMessageHeader.wire.serialize hdr
      = (hdr.pchMessageStart.flatMap fun b => [b]) ++ ((hdr.pchCommand.flatMap fun b => [b]) ++
          (((toBytes 4 hdr.nMessageSize).flatMap fun b => [b]) ++
            (toBytes 4 hdr.nChecksum).flatMap fun b => [b])) := rfl
    _ = _ := by simp only [flatMap_singleton]

structure CMessageHeader.Fits (hdr : CMessageHeader) : Prop where
  pchMessageStart : hdr.pchMessageStart.length = 4
  pchCommand : hdr.pchCommand.length = COMMAND_SIZE
  nMessageSize : hdr.nMessageSize < 2 ^ 32
  nChecksum : hdr.nChecksum < 2 ^ 32

theorem CMessageHeader.Fits.valid (h : hdr.Fits) : CMessageHeader.wire.Valid hdr :=
  ⟨⟨h.pchMessageStart, fun _ _ => trivial⟩, ⟨h.pchCommand, fun _ _ => trivial⟩,
    lt_of_lt_of_le h.nMessageSize (by decide), lt_of_lt_of_le h.nChecksum (by decide)⟩

theorem CMessageHeader.Fits.length (h : hdr.Fits) :
    (CMessageHeader.wire.serialize hdr).length = HEADER_SIZE := by
  rw [header_serialize]
  simp only [List.length_append, length_toBytes, h.pchMessageStart, h.pchCommand, COMMAND_SIZE,
    HEADER_SIZE]

def headerOf (bytes : List UInt8) : CMessageHeader where
  pchMessageStart := bytes.take 4
  pchCommand := (bytes.drop 4).take 12
  nMessageSize := ofBytes (((bytes.drop 4).drop 12).take 4)
  nChecksum := ofBytes (((bytes.drop 4).drop 12).drop 4)

theorem toBytes_four {bs : List UInt8} (h : bs.length = 4) : toBytes 4 (ofBytes bs) = bs := by
  rw [← h, toBytes_ofBytes]

theorem ofBytes_four {bs : List UInt8} (h : bs.length = 4) : ofBytes bs < 2 ^ 32 := by
  have hlt := ofBytes_lt bs
  rw [h] at hlt
  omega

theorem headerOf_fits {bytes : List UInt8} (h : bytes.length = 24) : (headerOf bytes).Fits where
  pchMessageStart := by simp [headerOf, h]
  pchCommand := by simp [headerOf, h, COMMAND_SIZE]
  nMessageSize := ofBytes_four (by simp [h])
  nChecksum := ofBytes_four (by simp [h])

theorem serialize_headerOf {bytes : List UInt8} (h : bytes.length = 24) :
    CMessageHeader.wire.serialize (headerOf bytes) = bytes := by
  have hsize : (((bytes.drop 4).drop 12).take 4).length = 4 := by simp [h]
  have hsum : (((bytes.drop 4).drop 12).drop 4).length = 4 := by simp [h]
  rw [header_serialize]
  simp only [headerOf, toBytes_four hsize, toBytes_four hsum, List.take_append_drop]

theorem unserialize_header {bytes : List UInt8} (h : bytes.length = 24) :
    CMessageHeader.wire.unserialize bytes = .ok (headerOf bytes, []) := by
  have hround := CMessageHeader.wire.round (headerOf bytes) [] (headerOf_fits h).valid
  rwa [serialize_headerOf h, List.append_nil] at hround

theorem headerOf_serialize (h : hdr.Fits) : headerOf (CMessageHeader.wire.serialize hdr) = hdr := by
  have hround := CMessageHeader.wire.round hdr [] h.valid
  rw [List.append_nil, unserialize_header h.length] at hround
  injection hround with hpair
  exact congrArg Prod.fst hpair

/-- The header of a message tells the length of its data. -/
def messageFraming : Framing UInt8 where
  headerLen := 24
  headerLen_pos := by decide
  bodyLen bytes :=
    if MAX_SIZE < (headerOf bytes).nMessageSize then none
    else some (headerOf bytes).nMessageSize

abbrev MessageFrame := messageFraming.Frame

def messageOf (f : MessageFrame) : CNetMessage where
  in_data := true
  hdrbuf := []
  hdr := headerOf f.header
  nHdrPos := 24
  vRecv := f.body
  nDataPos := f.body.length

theorem nMessageSize_frame (f : MessageFrame) :
    (headerOf f.header).nMessageSize = f.body.length ∧ f.body.length ≤ MAX_SIZE := by
  have h : (if MAX_SIZE < (headerOf f.header).nMessageSize then none
      else some (headerOf f.header).nMessageSize) = some f.body.length := f.bodyLen_header
  split at h
  · cases h
  · injection h with h
    omega

theorem messageOf_complete (f : MessageFrame) : (messageOf f).complete = true := by
  simp [CNetMessage.complete, messageOf, (nMessageSize_frame f).1]

/-! ## One message -/

structure InHeader (msg : CNetMessage) (part : List UInt8) : Prop where
  in_data : msg.in_data = false
  nHdrPos : msg.nHdrPos = part.length
  short : part.length < 24
  hdrbuf_length : msg.hdrbuf.length = 24
  hdrbuf_take : msg.hdrbuf.take part.length = part
  vRecv : msg.vRecv = []
  nDataPos : msg.nDataPos = 0

/-- The header has come and so much of the data; `vRecv` may be longer than that. -/
structure InData (msg : CNetMessage) (header data : List UInt8) : Prop where
  in_data : msg.in_data = true
  hdrbuf : msg.hdrbuf = []
  header_length : header.length = 24
  hdr : msg.hdr = headerOf header
  nHdrPos : msg.nHdrPos = 24
  small : (headerOf header).nMessageSize ≤ MAX_SIZE
  nDataPos : msg.nDataPos = data.length
  fits : data.length ≤ (headerOf header).nMessageSize
  stored : msg.vRecv.take data.length = data
  ahead : msg.vRecv.length ≤ (headerOf header).nMessageSize

theorem null_inHeader (net : Network) : InHeader (.null net) [] where
  in_data := rfl
  nHdrPos := rfl
  short := by decide
  hdrbuf_length := List.length_replicate
  hdrbuf_take := rfl
  vRecv := rfl
  nDataPos := rfl

theorem InHeader.complete {part : List UInt8} (h : InHeader msg part) : msg.complete = false := by
  simp [CNetMessage.complete, h.in_data]

/-- Nothing is missing when all that was announced has come. -/
theorem InData.complete_iff (h : InData msg header data) :
    msg.complete = true ↔ (headerOf header).nMessageSize = data.length := by
  simp [CNetMessage.complete, h.in_data, h.hdr, h.nDataPos]

theorem InData.incomplete (h : InData msg header data)
    (hopen : data.length < (headerOf header).nMessageSize) : msg.complete = false := by
  rw [Bool.eq_false_iff]
  exact h.complete_iff.not.mpr (by omega)

/-- The data that is there when all has come is all of `vRecv`. -/
theorem InData.messageOf (h : InData msg header data)
    (hall : (headerOf header).nMessageSize = data.length) :
    ∃ f : MessageFrame, msg = messageOf f ∧ f.symbols = header ++ data := by
  have hbody : messageFraming.bodyLen header = some data.length := by
    have hsmall := h.small
    simp only [messageFraming, hall] at hsmall ⊢
    rw [if_neg (by omega)]
  have hlen : msg.vRecv.length = data.length := by
    have htake := congrArg List.length h.stored
    have hahead := h.ahead
    rw [List.length_take] at htake
    omega
  have hvRecv : msg.vRecv = data := by
    have hstored := h.stored
    rwa [← hlen, List.take_length] at hstored
  refine ⟨⟨header, data, h.header_length, hbody⟩, ?_, rfl⟩
  obtain ⟨in_data, hdrbuf, hdr, nHdrPos, vRecv, nDataPos⟩ := msg
  have h₁ := h.in_data
  have h₂ := h.hdrbuf
  have h₃ := h.hdr
  have h₄ := h.nHdrPos
  have h₅ := h.nDataPos
  simp only at h₁ h₂ h₃ h₄ h₅ hvRecv
  subst h₁ h₂ h₃ h₄ h₅ hvRecv
  rfl

theorem take_memcpy {pos : ℕ} (src : List UInt8) {dst : List UInt8} (h : pos ≤ dst.length) :
    (memcpy pos src dst).take (pos + src.length) = dst.take pos ++ src := by
  have hlen : (dst.take pos ++ src).length = pos + src.length := by
    rw [List.length_append, List.length_take]
    omega
  rw [memcpy, ← hlen, List.take_left]

theorem length_memcpy {pos : ℕ} {src dst : List UInt8} (h : pos + src.length ≤ dst.length) :
    (memcpy pos src dst).length = dst.length := by
  simp only [memcpy, List.length_append, List.length_take, List.length_drop]
  omega

/-- The header grows by what is there, and is looked at when it is whole. -/
theorem readHeader_spec {part pch : List UInt8} (h : InHeader msg part) (hpch : pch ≠ []) :
    ∃ n msg', 0 < n ∧ n ≤ pch.length ∧
      (msg.readHeader pch = (msg', (n : ℤ)) ∧
          (InHeader msg' (part ++ pch.take n) ∨ InData msg' (part ++ pch.take n) []) ∨
        msg.readHeader pch = (msg', -1) ∧ msg'.complete = false ∧
          (part ++ pch.take n).length = 24 ∧
          messageFraming.bodyLen (part ++ pch.take n) = none) := by
  have hpos := List.length_pos_iff.mpr hpch
  have hshort := h.short
  obtain ⟨n, hn⟩ : ∃ n, n = min (24 - part.length) pch.length := ⟨_, rfl⟩
  have htake : (pch.take n).length = n := by rw [List.length_take]; omega
  have hpart : part.length ≤ msg.hdrbuf.length := by rw [h.hdrbuf_length]; omega
  have hbuf : (memcpy part.length (pch.take n) msg.hdrbuf).length = 24 := by
    rw [length_memcpy (by rw [htake, h.hdrbuf_length]; omega), h.hdrbuf_length]
  have hfront : (memcpy part.length (pch.take n) msg.hdrbuf).take (part.length + n) =
      part ++ pch.take n := by
    have h₁ := take_memcpy (pch.take n) hpart
    rwa [htake, h.hdrbuf_take] at h₁
  have hlen : (part ++ pch.take n).length = part.length + n := by rw [List.length_append, htake]
  by_cases hall : part.length + n < 24
  · refine ⟨n, { msg with
      hdrbuf := memcpy part.length (pch.take n) msg.hdrbuf
      nHdrPos := part.length + n }, by omega, by omega, .inl ⟨?_, .inl ?_⟩⟩
    · simp only [CNetMessage.readHeader, h.nHdrPos, ← hn]
      rw [if_pos hall]
    · exact
        { in_data := h.in_data
          nHdrPos := hlen.symm
          short := by omega
          hdrbuf_length := hbuf
          hdrbuf_take := by rw [hlen]; exact hfront
          vRecv := h.vRecv
          nDataPos := h.nDataPos }
  · have hheader : (part ++ pch.take n).length = 24 := by omega
    have hwhole : memcpy part.length (pch.take n) msg.hdrbuf = part ++ pch.take n := by
      rw [← hfront, ← hlen, hheader, ← hbuf, List.take_length]
    have hread := unserialize_header hheader
    by_cases hsize : MAX_SIZE < (headerOf (part ++ pch.take n)).nMessageSize
    · refine ⟨n, { msg with
        hdrbuf := []
        hdr := headerOf (part ++ pch.take n)
        nHdrPos := part.length + n }, by omega, by omega, .inr ⟨?_, ?_, hheader, if_pos hsize⟩⟩
      · simp only [CNetMessage.readHeader, h.nHdrPos, ← hn]
        rw [if_neg hall]
        simp only [hwhole, hread]
        rw [if_pos hsize]
      · simp [CNetMessage.complete, h.in_data]
    · refine ⟨n, { msg with
        in_data := true
        hdrbuf := []
        hdr := headerOf (part ++ pch.take n)
        nHdrPos := part.length + n }, by omega, by omega, .inl ⟨?_, .inr ?_⟩⟩
      · simp only [CNetMessage.readHeader, h.nHdrPos, ← hn]
        rw [if_neg hall]
        simp only [hwhole, hread]
        rw [if_neg hsize]
      · exact
          { in_data := rfl
            hdrbuf := rfl
            header_length := hheader
            hdr := rfl
            nHdrPos := by change part.length + n = 24; omega
            small := by omega
            nDataPos := h.nDataPos
            fits := by simp
            stored := by rfl
            ahead := by simp [h.vRecv] }

theorem length_resize (n : ℕ) (vch : List UInt8) (h : vch.length ≤ n) :
    (resize n vch).length = n := by
  simp only [resize, List.length_append, List.length_take, List.length_replicate]
  omega

theorem take_resize {n k : ℕ} {vch : List UInt8} (hk : k ≤ vch.length) (hn : vch.length ≤ n) :
    (resize n vch).take k = vch.take k := by
  rw [resize, List.take_of_length_le hn, List.take_append_of_le_length hk]

/-- The data grows by what is there, up to the end of the message. -/
theorem readData_spec {pch : List UInt8} (h : InData msg header data)
    (hopen : data.length < (headerOf header).nMessageSize) (hpch : pch ≠ []) :
    ∃ n msg', 0 < n ∧ n ≤ pch.length ∧ msg.readData pch = (msg', (n : ℤ)) ∧
      InData msg' header (data ++ pch.take n) := by
  have hpos := List.length_pos_iff.mpr hpch
  obtain ⟨n, hn⟩ : ∃ n, n = min ((headerOf header).nMessageSize - data.length) pch.length :=
    ⟨_, rfl⟩
  have htake : (pch.take n).length = n := by rw [List.length_take]; omega
  have hstored : data.length ≤ msg.vRecv.length := by
    have hlen := congrArg List.length h.stored
    rw [List.length_take] at hlen
    omega
  have hahead := h.ahead
  -- after the allocation there is room for what is copied, and none behind the message
  obtain ⟨vRecv, hvRecv⟩ : ∃ vRecv, vRecv =
      if msg.vRecv.length < data.length + n then
        resize (min (headerOf header).nMessageSize (data.length + n + 256 * 1024)) msg.vRecv
      else msg.vRecv := ⟨_, rfl⟩
  have hroom : data.length + n ≤ vRecv.length ∧ vRecv.length ≤ (headerOf header).nMessageSize ∧
      vRecv.take data.length = data := by
    by_cases hgrow : msg.vRecv.length < data.length + n
    · rw [if_pos hgrow] at hvRecv
      have hle : msg.vRecv.length ≤
          min (headerOf header).nMessageSize (data.length + n + 256 * 1024) := by omega
      rw [hvRecv, length_resize _ _ hle, take_resize hstored hle, h.stored]
      exact ⟨by omega, by omega, rfl⟩
    · rw [if_neg hgrow] at hvRecv
      rw [hvRecv]
      exact ⟨by omega, hahead, h.stored⟩
  obtain ⟨hspace, hbound, hkept⟩ := hroom
  refine ⟨n, { msg with
    vRecv := memcpy data.length (pch.take n) vRecv
    nDataPos := data.length + n }, by omega, by omega, ?_, ?_⟩
  · simp only [CNetMessage.readData, h.hdr, h.nDataPos, ← hn, ← hvRecv]
  · have hlen : (data ++ pch.take n).length = data.length + n := by
      rw [List.length_append, htake]
    have hfront := take_memcpy (pch.take n) (show data.length ≤ vRecv.length by omega)
    rw [htake, hkept] at hfront
    exact
      { in_data := h.in_data
        hdrbuf := h.hdrbuf
        header_length := h.header_length
        hdr := h.hdr
        nHdrPos := h.nHdrPos
        small := h.small
        nDataPos := hlen.symm
        fits := by omega
        stored := by rw [hlen]; exact hfront
        ahead := by
          rw [length_memcpy (by rw [htake]; exact hspace)]
          exact hbound }

/-! ## All messages -/

/-- The messages are those of the frames of the stream; the last may still be on its way. -/
inductive Assembles : List CNetMessage → List UInt8 → Prop
  | whole (fs : List MessageFrame) : Assembles (fs.map messageOf) (fs.flatMap Frame.symbols)
  | header (fs : List MessageFrame) {msg : CNetMessage} {part : List UInt8}
      (hmsg : InHeader msg part) (hpart : part ≠ []) :
      Assembles (fs.map messageOf ++ [msg]) (fs.flatMap Frame.symbols ++ part)
  | data (fs : List MessageFrame) {msg : CNetMessage} {header data : List UInt8}
      (hmsg : InData msg header data) (hopen : data.length < (headerOf header).nMessageSize) :
      Assembles (fs.map messageOf ++ [msg]) (fs.flatMap Frame.symbols ++ (header ++ data))

/-- Behind whole frames there is a header that is refused. -/
def Refuses (vRecvMsg : List CNetMessage) (stream : List UInt8) : Prop :=
  ∃ (fs : List MessageFrame) (msg : CNetMessage) (header rest : List UInt8),
    vRecvMsg = fs.map messageOf ++ [msg] ∧ msg.complete = false ∧ header.length = 24 ∧
      messageFraming.bodyLen header = none ∧ stream = fs.flatMap Frame.symbols ++ (header ++ rest)

theorem Refuses.append (h : Refuses vRecvMsg stream) (more : List UInt8) :
    Refuses vRecvMsg (stream ++ more) := by
  obtain ⟨fs, msg, header, rest, hv, hmsg, hlen, hbody, rfl⟩ := h
  exact ⟨fs, msg, header, rest ++ more, hv, hmsg, hlen, hbody, by simp only [List.append_assoc]⟩

theorem InData.holds (h : InData msg header data) (fs : List MessageFrame) :
    Assembles (fs.map Dions.messageOf ++ [msg]) (fs.flatMap Frame.symbols ++ (header ++ data)) := by
  by_cases hall : (headerOf header).nMessageSize = data.length
  · obtain ⟨f, rfl, hf⟩ := h.messageOf hall
    have hwhole := Assembles.whole (fs ++ [f])
    rwa [List.map_append, List.flatMap_append, List.flatMap_cons, List.flatMap_nil,
      List.append_nil, hf] at hwhole
  · have hfits := h.fits
    exact .data fs h (by omega)

/-- The incomplete message behind the complete ones. -/
theorem currentMessage_spec (net : Network) {vRecvMsg : List CNetMessage} {stream : List UInt8}
    (h : Assembles vRecvMsg stream) :
    ∃ (fs : List MessageFrame) (msg : CNetMessage),
      currentMessage net vRecvMsg = (fs.map messageOf, msg) ∧
        ((∃ part, InHeader msg part ∧ stream = fs.flatMap Frame.symbols ++ part) ∨
          ∃ header data, InData msg header data ∧
            data.length < (headerOf header).nMessageSize ∧
            stream = fs.flatMap Frame.symbols ++ (header ++ data)) := by
  cases h with
  | whole fs =>
    refine ⟨fs, .null net, ?_, .inl ⟨[], null_inHeader net, (List.append_nil _).symm⟩⟩
    cases hlast : (fs.map messageOf).getLast? with
    | none => simp only [currentMessage, hlast]
    | some msg =>
      have hmem := List.mem_of_getLast? hlast
      obtain ⟨f, -, rfl⟩ := List.mem_map.mp hmem
      simp only [currentMessage, hlast, messageOf_complete, if_true]
  | header fs hmsg hpart =>
    refine ⟨fs, _, ?_, .inl ⟨_, hmsg, rfl⟩⟩
    simp only [currentMessage, List.getLast?_concat, hmsg.complete, Bool.false_eq_true, if_false,
      List.dropLast_concat]
  | data fs hmsg hopen =>
    refine ⟨fs, _, ?_, .inr ⟨_, _, hmsg, hopen, rfl⟩⟩
    simp only [currentMessage, List.getLast?_concat, hmsg.incomplete hopen, Bool.false_eq_true,
      if_false, List.dropLast_concat]

/-- One round takes some bytes and goes on, or it comes upon a header that is refused. -/
theorem absorb_spec (net : Network) {vRecvMsg : List CNetMessage} {stream pch : List UInt8}
    (h : Assembles vRecvMsg stream) (hpch : pch ≠ []) :
    ∃ n vRecvMsg', 0 < n ∧ n ≤ pch.length ∧
      (absorb net vRecvMsg pch = (vRecvMsg', (n : ℤ)) ∧ Assembles vRecvMsg' (stream ++ pch.take n) ∨
        absorb net vRecvMsg pch = (vRecvMsg', -1) ∧
          Refuses vRecvMsg' (stream ++ pch.take n)) := by
  obtain ⟨fs, msg, hcurrent, hmsg⟩ := currentMessage_spec net h
  cases hmsg with
  | inl hheader =>
    obtain ⟨part, hmsg, rfl⟩ := hheader
    obtain ⟨n, msg', hpos, hle, hread⟩ := readHeader_spec hmsg hpch
    refine ⟨n, fs.map messageOf ++ [msg'], hpos, hle, ?_⟩
    rw [List.append_assoc]
    cases hread with
    | inl hgoes =>
      obtain ⟨hread, hmsg'⟩ := hgoes
      left
      constructor
      · simp only [absorb, hcurrent, hmsg.in_data, Bool.false_eq_true, if_false, hread]
      · cases hmsg' with
        | inl hmsg' =>
          refine .header fs hmsg' fun hnil => ?_
          have hlen := congrArg List.length hnil
          rw [List.length_append, List.length_take, List.length_nil] at hlen
          omega
        | inr hmsg' =>
          have hholds := hmsg'.holds fs
          rwa [List.append_nil] at hholds
    | inr hstops =>
      obtain ⟨hread, hcomplete, hlen, hbody⟩ := hstops
      right
      constructor
      · simp only [absorb, hcurrent, hmsg.in_data, Bool.false_eq_true, if_false, hread]
      · exact ⟨fs, msg', part ++ pch.take n, [], rfl, hcomplete, hlen, hbody,
          by rw [List.append_nil]⟩
  | inr hdata =>
    obtain ⟨header, data, hmsg, hopen, rfl⟩ := hdata
    obtain ⟨n, msg', hpos, hle, hread, hmsg'⟩ := readData_spec hmsg hopen hpch
    refine ⟨n, fs.map messageOf ++ [msg'], hpos, hle, .inl ⟨?_, ?_⟩⟩
    · simp only [absorb, hcurrent, hmsg.in_data, if_true, hread]
    · rw [List.append_assoc, List.append_assoc]
      exact hmsg'.holds fs

/-- What a call leaves, by what it returns. -/
def Outcome (vRecvMsg : List CNetMessage) (ok : Bool) (stream : List UInt8) : Prop :=
  if ok then Assembles vRecvMsg stream else Refuses vRecvMsg stream

theorem receiveLoop_spec (net : Network) {fuel : ℕ} {vRecvMsg : List CNetMessage}
    {stream pch : List UInt8} (h : Assembles vRecvMsg stream) (hfuel : pch.length ≤ fuel) :
    ∃ vRecvMsg' ok, receiveLoop net fuel vRecvMsg pch = some (vRecvMsg', ok) ∧
      Outcome vRecvMsg' ok (stream ++ pch) := by
  induction fuel generalizing vRecvMsg stream pch with
  | zero =>
    obtain rfl : pch = [] := List.length_eq_zero_iff.mp (by omega)
    exact ⟨vRecvMsg, true, by rw [receiveLoop], by rwa [List.append_nil]⟩
  | succ fuel ih =>
    cases pch with
    | nil => exact ⟨vRecvMsg, true, by rw [receiveLoop], by rwa [List.append_nil]⟩
    | cons b pch =>
      obtain ⟨n, vRecvMsg₁, hpos, hle, hround⟩ := absorb_spec net h (List.cons_ne_nil b pch)
      have hsplit : stream ++ b :: pch = stream ++ (b :: pch).take n ++ (b :: pch).drop n := by
        rw [List.append_assoc, List.take_append_drop]
      cases hround with
      | inl hgoes =>
        obtain ⟨hround, hholds⟩ := hgoes
        have hrest : ((b :: pch).drop n).length ≤ fuel := by
          rw [List.length_drop]
          omega
        obtain ⟨vRecvMsg', ok, hloop, hout⟩ := ih hholds hrest
        refine ⟨vRecvMsg', ok, ?_, by rwa [hsplit]⟩
        rw [receiveLoop, hround]
        · simp only [Int.toNat_natCast]
          rw [if_neg (by omega), hloop]
        · exact List.cons_ne_nil b pch
      | inr hstops =>
        obtain ⟨hround, hrefuses⟩ := hstops
        refine ⟨vRecvMsg₁, false, ?_, ?_⟩
        · rw [receiveLoop, hround]
          · simp
          · exact List.cons_ne_nil b pch
        · rw [hsplit]
          exact hrefuses.append _

theorem ReceiveMsgBytes_spec (net : Network) {vRecvMsg : List CNetMessage} {stream : List UInt8}
    (h : Assembles vRecvMsg stream) (pch : List UInt8) :
    ∃ vRecvMsg' ok, ReceiveMsgBytes net vRecvMsg pch = some (vRecvMsg', ok) ∧
      Outcome vRecvMsg' ok (stream ++ pch) := receiveLoop_spec net h le_rfl

theorem receiveAll_spec (net : Network) {vRecvMsg : List CNetMessage} {stream : List UInt8}
    (h : Assembles vRecvMsg stream) (chunks : List (List UInt8)) :
    ∃ vRecvMsg' ok, receiveAll net vRecvMsg chunks = some (vRecvMsg', ok) ∧
      Outcome vRecvMsg' ok (stream ++ chunks.flatten) := by
  induction chunks generalizing vRecvMsg stream with
  | nil => exact ⟨vRecvMsg, true, rfl, by rwa [List.flatten_nil, List.append_nil]⟩
  | cons pch chunks ih =>
    obtain ⟨vRecvMsg₁, ok, hcall, hout⟩ := ReceiveMsgBytes_spec net h pch
    rw [List.flatten_cons, ← List.append_assoc]
    cases ok with
    | true =>
      obtain ⟨vRecvMsg', ok, hrest, hout'⟩ := ih hout
      exact ⟨vRecvMsg', ok, by simp only [receiveAll, hcall, hrest], hout'⟩
    | false =>
      exact ⟨vRecvMsg₁, false, by simp only [receiveAll, hcall], Refuses.append hout _⟩

/-! ## The stream decides -/

/-- Behind the frames there is nothing, or a part of one and an incomplete message for it. -/
theorem Assembles.decode (h : Assembles vRecvMsg stream) :
    ∃ fs part, messageFraming.decode stream = (fs, .within part) ∧
      (part = [] ∧ vRecvMsg = fs.map messageOf ∨
        part ≠ [] ∧ ∃ msg, msg.complete = false ∧ vRecvMsg = fs.map messageOf ++ [msg]) := by
  cases h with
  | whole fs =>
    have hnil : messageFraming.front [] = .within := front_within (.inl (by decide))
    have hdecode := decode_frames fs []
    rw [List.append_nil, decode_within hnil, List.append_nil] at hdecode
    exact ⟨fs, [], hdecode, .inl ⟨rfl, rfl⟩⟩
  | @header fs msg part hmsg hpart =>
    refine ⟨fs, part, ?_, .inr ⟨hpart, msg, hmsg.complete, rfl⟩⟩
    rw [decode_frames, decode_within (front_within (.inl hmsg.short)), List.append_nil]
  | @data fs msg header data hmsg hopen =>
    have hlen : (header ++ data).length = 24 + data.length := by
      rw [List.length_append, hmsg.header_length]
    have htake : (header ++ data).take 24 = header := by
      rw [← hmsg.header_length, List.take_left]
    have hsmall := hmsg.small
    have hbody : messageFraming.bodyLen ((header ++ data).take messageFraming.headerLen) =
        some (headerOf header).nMessageSize := by
      simp only [messageFraming, htake]
      rw [if_neg (by omega)]
    have hfront : messageFraming.front (header ++ data) = .within :=
      front_within (.inr ⟨_, hbody, by rw [hlen]; simp only [messageFraming]; omega⟩)
    refine ⟨fs, header ++ data, ?_, .inr ⟨?_, msg, hmsg.incomplete hopen, rfl⟩⟩
    · rw [decode_frames, decode_within hfront, List.append_nil]
    · intro hnil
      rw [hnil, List.length_nil] at hlen
      omega

theorem Refuses.decode (h : Refuses vRecvMsg stream) :
    ∃ fs msg, messageFraming.decode stream = (fs, .refused) ∧ msg.complete = false ∧
      vRecvMsg = fs.map messageOf ++ [msg] := by
  obtain ⟨fs, msg, header, rest, hv, hmsg, hlen, hbody, rfl⟩ := h
  have htake : (header ++ rest).take messageFraming.headerLen = header := by
    simp only [messageFraming]
    rw [← hlen, List.take_left]
  have hfront : messageFraming.front (header ++ rest) = .refused :=
    front_refused (by simp only [messageFraming, List.length_append]; omega) (by rw [htake, hbody])
  refine ⟨fs, msg, ?_, hmsg, hv⟩
  rw [decode_frames, decode_refused hfront, List.append_nil]

theorem filter_messageOf (fs : List MessageFrame) :
    (fs.map messageOf).filter CNetMessage.complete = fs.map messageOf := by
  apply List.filter_eq_self.mpr
  intro msg hmem
  obtain ⟨f, -, rfl⟩ := List.mem_map.mp hmem
  exact messageOf_complete f

/-- The complete messages are the frames of the stream, and a stream is refused where a frame of
it is. -/
theorem Outcome.decode {ok : Bool} (h : Outcome vRecvMsg ok stream) :
    vRecvMsg.filter CNetMessage.complete = (messageFraming.decode stream).1.map messageOf ∧
      (ok = false ↔ (messageFraming.decode stream).2 = .refused) := by
  cases ok with
  | true =>
    obtain ⟨fs, part, hdecode, hcases⟩ := Assembles.decode h
    rw [hdecode]
    cases hcases with
    | inl hwhole =>
      rw [hwhole.2, filter_messageOf]
      simp
    | inr hpart =>
      obtain ⟨-, msg, hmsg, hv⟩ := hpart
      rw [hv, List.filter_append, filter_messageOf]
      simp [hmsg]
  | false =>
    obtain ⟨fs, msg, hdecode, hmsg, hv⟩ := Refuses.decode h
    rw [hdecode, hv, List.filter_append, filter_messageOf]
    simp [hmsg]

/-- Whatever the chunks are, the node that has received a stream has the messages of its frames. -/
theorem receiveAll_decode (net : Network) (chunks : List (List UInt8)) :
    ∃ vRecvMsg ok, receiveAll net [] chunks = some (vRecvMsg, ok) ∧
      Outcome vRecvMsg ok chunks.flatten ∧
      vRecvMsg.filter CNetMessage.complete =
        (messageFraming.decode chunks.flatten).1.map messageOf ∧
      (ok = false ↔ (messageFraming.decode chunks.flatten).2 = .refused) := by
  obtain ⟨vRecvMsg, ok, hrun, hout⟩ := receiveAll_spec net (.whole []) chunks
  exact ⟨vRecvMsg, ok, hrun, hout, hout.decode⟩

end Dions
