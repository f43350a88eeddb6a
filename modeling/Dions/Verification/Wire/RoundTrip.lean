import Dions.Model.Serialize

/-! # Transactions and blocks on the wire

What is written is read back, and what is read would be written, for every value that the types
of the fields hold and whose text the version of its transaction has room for. -/

namespace Dions

open Codec BlockFile

/-! ## The values the types hold -/

def COutPoint.Fits (o : COutPoint) : Prop := o.hash < 2 ^ 256 ∧ o.n < 2 ^ 32

def CTxIn.Fits (txin : CTxIn) : Prop :=
  txin.prevout.Fits ∧ txin.scriptSig.length ≤ MAX_SIZE ∧ txin.nSequence < 2 ^ 32

def CTxOut.Fits (txout : CTxOut) : Prop :=
  (-(2 ^ 63) ≤ txout.nValue ∧ txout.nValue < 2 ^ 63) ∧ txout.scriptPubKey.length ≤ MAX_SIZE

/-- The range of every field, and vectors and strings of at most `MAX_SIZE` elements. -/
structure CTransaction.Fits (tx : CTransaction) : Prop where
  nVersion : -(2 ^ 31) ≤ tx.nVersion ∧ tx.nVersion < 2 ^ 31
  nTime : tx.nTime < 2 ^ 32
  vin_length : tx.vin.length ≤ MAX_SIZE
  vin : ∀ txin ∈ tx.vin, txin.Fits
  vout_length : tx.vout.length ≤ MAX_SIZE
  vout : ∀ txout ∈ tx.vout, txout.Fits
  nLockTime : tx.nLockTime < 2 ^ 32
  strTxInfo : tx.strTxInfo.length ≤ MAX_SIZE

/-- The version has a place for the text, or there is none. -/
def CTransaction.InfoFits (tx : CTransaction) : Prop :=
  tx.nVersion < VERSION_WITH_INFO → tx.strTxInfo = []

structure CBlock.Fits (block : CBlock) : Prop where
  nVersion : -(2 ^ 31) ≤ block.nVersion ∧ block.nVersion < 2 ^ 31
  hashPrevBlock : block.hashPrevBlock < 2 ^ 256
  hashMerkleRoot : block.hashMerkleRoot < 2 ^ 256
  nTime : block.nTime < 2 ^ 32
  nBits : block.nBits < 2 ^ 32
  nNonce : block.nNonce < 2 ^ 32
  vtx_length : block.vtx.length ≤ MAX_SIZE
  vtx : ∀ tx ∈ block.vtx, tx.Fits
  vchBlockSig : block.vchBlockSig.length ≤ MAX_SIZE

/-! ## They are the values the format has room for -/

theorem wireUnsigned_valid_four (n : ℕ) : (wireUnsigned 4).Valid n ↔ n < 2 ^ 32 := by
  change n < 256 ^ 4 ↔ n < 2 ^ 32
  norm_num

theorem wireUnsigned_valid_hash (n : ℕ) : (wireUnsigned 32).Valid n ↔ n < 2 ^ 256 := by
  change n < 256 ^ 32 ↔ n < 2 ^ 256
  norm_num

theorem wireBytes_valid (bs : List UInt8) : wireBytes.Valid bs ↔ bs.length ≤ MAX_SIZE :=
  ⟨And.left, fun h => ⟨h, fun _ _ => trivial⟩⟩

theorem wireVector_valid {α : Type} (c : Wire α) (xs : List α) :
    (wireVector c).Valid xs ↔ xs.length ≤ MAX_SIZE ∧ ∀ x ∈ xs, c.Valid x := Iff.rfl

theorem COutPoint.wire_valid (o : COutPoint) : COutPoint.wire.Valid o ↔ o.Fits := by
  change (wireUnsigned 32).Valid o.hash ∧ (wireUnsigned 4).Valid o.n ↔ _
  rw [wireUnsigned_valid_hash, wireUnsigned_valid_four, COutPoint.Fits]

theorem CTxIn.wire_valid (txin : CTxIn) : CTxIn.wire.Valid txin ↔ txin.Fits := by
  change COutPoint.wire.Valid txin.prevout ∧ wireBytes.Valid txin.scriptSig ∧
    (wireUnsigned 4).Valid txin.nSequence ↔ _
  rw [COutPoint.wire_valid, wireBytes_valid, wireUnsigned_valid_four, CTxIn.Fits]

theorem CTxOut.wire_valid (txout : CTxOut) : CTxOut.wire.Valid txout ↔ txout.Fits := by
  change (wireSigned 8).Valid txout.nValue ∧ wireBytes.Valid txout.scriptPubKey ↔ _
  rw [wireSigned, int_valid_iff, wireBytes_valid, CTxOut.Fits]

theorem wireInfo_valid (nVersion : ℤ) (strTxInfo : List UInt8) :
    (if CTransaction.VERSION_WITH_INFO ≤ nVersion then wireBytes else Codec.const [] :
        Wire (List UInt8)).Valid strTxInfo ↔
      strTxInfo.length ≤ MAX_SIZE ∧
        (nVersion < CTransaction.VERSION_WITH_INFO → strTxInfo = []) := by
  by_cases h : CTransaction.VERSION_WITH_INFO ≤ nVersion
  · rw [if_pos h, wireBytes_valid]
    exact ⟨fun hlen => ⟨hlen, fun hlt => absurd hlt (not_lt.mpr h)⟩, And.left⟩
  · rw [if_neg h]
    refine ⟨?_, fun hinfo => hinfo.2 (not_le.mp h)⟩
    intro hempty
    have hnil : strTxInfo = [] := hempty
    exact ⟨by simp [hnil], fun _ => hnil⟩

theorem CTransaction.wire_valid (tx : CTransaction) :
    CTransaction.wire.Valid tx ↔ tx.Fits ∧ tx.InfoFits := by
  change (wireSigned 4).Valid tx.nVersion ∧ (wireUnsigned 4).Valid tx.nTime ∧
    (wireVector CTxIn.wire).Valid tx.vin ∧ (wireVector CTxOut.wire).Valid tx.vout ∧
    (wireUnsigned 4).Valid tx.nLockTime ∧
    (if VERSION_WITH_INFO ≤ tx.nVersion then wireBytes else Codec.const [] :
      Wire (List UInt8)).Valid tx.strTxInfo ↔ _
  rw [wireSigned, int_valid_iff, wireUnsigned_valid_four, wireUnsigned_valid_four,
    wireVector_valid, wireVector_valid, wireInfo_valid]
  simp only [CTxIn.wire_valid, CTxOut.wire_valid]
  constructor
  · rintro ⟨hversion, htime, ⟨hvin, hins⟩, ⟨hvout, houts⟩, hlock, hinfo, htail⟩
    exact ⟨⟨hversion, htime, hvin, hins, hvout, houts, hlock, hinfo⟩, htail⟩
  · rintro ⟨h, htail⟩
    exact ⟨h.nVersion, h.nTime, ⟨h.vin_length, h.vin⟩, ⟨h.vout_length, h.vout⟩, h.nLockTime,
      h.strTxInfo, htail⟩

theorem CBlock.wire_valid (block : CBlock) :
    (CBlock.wire SER_NETWORK).Valid block ↔ block.Fits ∧ ∀ tx ∈ block.vtx, tx.InfoFits := by
  change (wireSigned 4).Valid block.nVersion ∧ (wireUnsigned 32).Valid block.hashPrevBlock ∧
    (wireUnsigned 32).Valid block.hashMerkleRoot ∧ (wireUnsigned 4).Valid block.nTime ∧
    (wireUnsigned 4).Valid block.nBits ∧ (wireUnsigned 4).Valid block.nNonce ∧
    (wireVector CTransaction.wire).Valid block.vtx ∧ wireBytes.Valid block.vchBlockSig ↔ _
  rw [wireSigned, int_valid_iff, wireUnsigned_valid_hash, wireUnsigned_valid_hash,
    wireUnsigned_valid_four, wireUnsigned_valid_four, wireUnsigned_valid_four, wireVector_valid,
    wireBytes_valid]
  simp only [CTransaction.wire_valid]
  constructor
  · rintro ⟨hversion, hprev, hroot, htime, hbits, hnonce, ⟨hlen, htxs⟩, hsig⟩
    exact ⟨⟨hversion, hprev, hroot, htime, hbits, hnonce, hlen, fun tx htx => (htxs tx htx).1,
      hsig⟩, fun tx htx => (htxs tx htx).2⟩
  · rintro ⟨h, hinfo⟩
    exact ⟨h.nVersion, h.hashPrevBlock, h.hashMerkleRoot, h.nTime, h.nBits, h.nNonce,
      ⟨h.vtx_length, fun tx htx => ⟨h.vtx tx htx, hinfo tx htx⟩⟩, h.vchBlockSig⟩

/-! ## The round trip -/

/-- Every value with room for its text is read back in front of every rest; whatever is read has
been written that way; and no two inputs are read as one transaction or one block. -/
theorem wire_bijective :
    (∀ (tx : CTransaction) (r : List UInt8), tx.Fits → tx.InfoFits →
      CTransaction.wire.unserialize (CTransaction.wire.serialize tx ++ r) = .ok (tx, r)) ∧
    (∀ (b : List UInt8) (tx : CTransaction) (r : List UInt8),
      CTransaction.wire.unserialize b = .ok (tx, r) →
        tx.Fits ∧ tx.InfoFits ∧ CTransaction.wire.serialize tx ++ r = b) ∧
    (∀ (b b' : List UInt8) (tx : CTransaction), CTransaction.wire.unserialize b = .ok (tx, []) →
      CTransaction.wire.unserialize b' = .ok (tx, []) → b = b') ∧
    (∀ (block : CBlock) (r : List UInt8), block.Fits → (∀ tx ∈ block.vtx, tx.InfoFits) →
      (CBlock.wire SER_NETWORK).unserialize ((CBlock.wire SER_NETWORK).serialize block ++ r) =
        .ok (block, r)) ∧
    (∀ (b : List UInt8) (block : CBlock) (r : List UInt8),
      (CBlock.wire SER_NETWORK).unserialize b = .ok (block, r) →
        block.Fits ∧ (∀ tx ∈ block.vtx, tx.InfoFits) ∧
          (CBlock.wire SER_NETWORK).serialize block ++ r = b) ∧
    (∀ (b b' : List UInt8) (block : CBlock),
      (CBlock.wire SER_NETWORK).unserialize b = .ok (block, []) →
        (CBlock.wire SER_NETWORK).unserialize b' = .ok (block, []) → b = b') := by
  refine ⟨?_, ?_, ?_, ?_, ?_, ?_⟩
  · intro tx r htx hinfo
    exact CTransaction.wire.round tx r ((CTransaction.wire_valid tx).mpr ⟨htx, hinfo⟩)
  · intro b tx r h
    obtain ⟨hvalid, hbytes⟩ := CTransaction.wire.canonical b tx r h
    obtain ⟨htx, hinfo⟩ := (CTransaction.wire_valid tx).mp hvalid
    exact ⟨htx, hinfo, hbytes⟩
  · intro b b' tx hb hb'
    exact CTransaction.wire.unserialize_injective hb hb'
  · intro block r hblock hinfo
    exact (CBlock.wire SER_NETWORK).round block r ((CBlock.wire_valid block).mpr ⟨hblock, hinfo⟩)
  · intro b block r h
    obtain ⟨hvalid, hbytes⟩ := (CBlock.wire SER_NETWORK).canonical b block r h
    obtain ⟨hblock, hinfo⟩ := (CBlock.wire_valid block).mp hvalid
    exact ⟨hblock, hinfo, hbytes⟩
  · intro b b' block hb hb'
    exact (CBlock.wire SER_NETWORK).unserialize_injective hb hb'

def annotated : CTransaction := ⟨CTransaction.CURRENT_VERSION, 0, [], [], 0, [65]⟩

theorem annotated_loses_text :
    annotated.Fits ∧
      CTransaction.wire.unserialize (CTransaction.wire.serialize annotated ++ []) =
        .ok ({ annotated with strTxInfo := [] }, []) ∧
      CTransaction.wire.unserialize (CTransaction.wire.serialize annotated ++ []) ≠
        .ok (annotated, []) := by
  have hfits : annotated.Fits := by
    constructor <;> simp [annotated, CTransaction.CURRENT_VERSION, MAX_SIZE]
  have hplain : ({ annotated with strTxInfo := [] } : CTransaction).Fits := by
    constructor <;> simp [annotated, CTransaction.CURRENT_VERSION, MAX_SIZE]
  have hread : CTransaction.wire.unserialize (CTransaction.wire.serialize annotated ++ []) =
      .ok ({ annotated with strTxInfo := [] }, []) :=
    CTransaction.wire.round { annotated with strTxInfo := [] } []
      ((CTransaction.wire_valid _).mpr ⟨hplain, fun _ => rfl⟩)
  refine ⟨hfits, hread, ?_⟩
  rw [hread]
  simp [annotated]

def annotatedPayment : CTransaction :=
  { annotated with
    nVersion := 3
    vin := [⟨⟨7, 1⟩, [0x51, 0x52], 0⟩]
    vout := [⟨5, [0x76, 0xa9]⟩, ⟨0, []⟩] }

def annotatedBlock : CBlock := ⟨7, 5, 6, 1000, 9, 11, [annotatedPayment], [1, 2, 3]⟩

/-- The payment is read back, alone and in its block. -/
theorem wire_bijective_payment :
    CTransaction.wire.unserialize (CTransaction.wire.serialize annotatedPayment ++ [7]) =
      .ok (annotatedPayment, [7]) ∧
    (CBlock.wire SER_NETWORK).unserialize
        ((CBlock.wire SER_NETWORK).serialize annotatedBlock ++ [8]) =
      .ok (annotatedBlock, [8]) := by
  obtain ⟨htx, -, -, hblock, -, -⟩ := wire_bijective
  have hfits : annotatedPayment.Fits := by
    constructor <;>
      simp [annotatedPayment, annotated, MAX_SIZE, CTxIn.Fits, COutPoint.Fits, CTxOut.Fits]
  have hinfo : annotatedPayment.InfoFits := by
    simp [CTransaction.InfoFits, annotatedPayment, CTransaction.VERSION_WITH_INFO]
  have hblockFits : annotatedBlock.Fits := by
    constructor <;> simp [annotatedBlock, MAX_SIZE, hfits]
  refine ⟨htx _ [7] hfits hinfo, hblock _ [8] hblockFits fun tx hmem => ?_⟩
  rw [annotatedBlock, List.mem_singleton] at hmem
  exact hmem ▸ hinfo

/-! ## Positions on disk -/

def CBlock.preamble (block : CBlock) : List UInt8 :=
  (wireSigned 4).serialize block.nVersion ++ ((wireUnsigned 32).serialize block.hashPrevBlock ++
    ((wireUnsigned 32).serialize block.hashMerkleRoot ++ ((wireUnsigned 4).serialize block.nTime ++
      ((wireUnsigned 4).serialize block.nBits ++ ((wireUnsigned 4).serialize block.nNonce ++
        WriteCompactSize block.vtx.length)))))

theorem CBlock.serialize_eq (block : CBlock) :
    (CBlock.wire SER_DISK).serialize block =
      block.preamble ++ (block.vtx.flatMap CTransaction.wire.serialize ++
        wireBytes.serialize block.vchBlockSig) := by
  have hvtx : (wireVector CTransaction.wire).serialize block.vtx =
      WriteCompactSize block.vtx.length ++ block.vtx.flatMap CTransaction.wire.serialize := rfl
  change (wireSigned 4).serialize block.nVersion ++ ((wireUnsigned 32).serialize
    block.hashPrevBlock ++ ((wireUnsigned 32).serialize block.hashMerkleRoot ++
    ((wireUnsigned 4).serialize block.nTime ++ ((wireUnsigned 4).serialize block.nBits ++
    ((wireUnsigned 4).serialize block.nNonce ++ ((wireVector CTransaction.wire).serialize block.vtx
    ++ wireBytes.serialize block.vchBlockSig)))))) = _
  rw [hvtx, CBlock.preamble]
  simp only [List.append_assoc]

theorem CBlock.length_preamble (block : CBlock) (nBlockPos : ℕ) :
    firstTxPos nBlockPos block.vtx.length = nBlockPos + block.preamble.length := by
  simp only [CBlock.preamble, wireSigned, wireUnsigned, List.length_append, length_int_serialize,
    length_nat_serialize, length_WriteCompactSize, firstTxPos]
  omega

/-- The block takes the room that `GetSerializeSize` tells. -/
theorem CBlock.length_serialize (block : CBlock) :
    ((CBlock.wire SER_DISK).serialize block).length = block.GetSerializeSize := by
  have hpre := block.length_preamble 0
  unfold firstTxPos at hpre
  have hsum : (block.vtx.map fun tx => (CTransaction.wire.serialize tx).length).sum =
      (block.vtx.map CTransaction.GetSerializeSize).sum := by
    simp only [CTransaction.length_serialize]
  rw [CBlock.serialize_eq, List.length_append, List.length_append, List.length_flatMap,
    length_wireBytes, CBlock.GetSerializeSize, hsum]
  omega

end Dions
