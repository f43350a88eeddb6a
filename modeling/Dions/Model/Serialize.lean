import Mathlib.Data.Nat.Bitwise
import Dions.Library.Wire
import Dions.Model.Block

/-! # The wire format

`IMPLEMENT_SERIALIZE` writes the list of a type's fields once and makes both directions of it, as
a codec does. A stream is the bytes that are left in it. -/

namespace Dions

open Codec BlockFile

/-- What `std::ios_base::failure` is thrown for while reading. -/
inductive ReadFailure where
  /-- `CDataStream::read() : end of data` -/
  | endOfData
  /-- `non-canonical ReadCompactSize()` -/
  | nonCanonical
  /-- `ReadCompactSize() : size too large` -/
  | sizeTooLarge
  deriving DecidableEq, Repr

abbrev Wire := Codec UInt8 ReadFailure

/-! ## Basic types -/

def wireUnsigned (size : ℕ) : Wire ℕ := Codec.nat .endOfData size

def wireSigned (size : ℕ) : Wire ℤ := Codec.int .endOfData size

/-! ## Compact size -/

def WriteCompactSize (nSize : ℕ) : List UInt8 :=
  if nSize < 253 then [UInt8.ofNat nSize]
  else if nSize ≤ 2 ^ 16 - 1 then 253 :: (wireUnsigned 2).serialize nSize
  else if nSize ≤ 2 ^ 32 - 1 then 254 :: (wireUnsigned 4).serialize nSize
  else 255 :: (wireUnsigned 8).serialize nSize

/-- The number behind the first byte; one that a shorter form has room for is refused. -/
def readLongSize (size nMin : ℕ) (is : List UInt8) : Except ReadFailure (ℕ × List UInt8) :=
  match (wireUnsigned size).unserialize is with
  | .error e => .error e
  | .ok (xSize, is) => if xSize < nMin then .error .nonCanonical else .ok (xSize, is)

def readSizeForm : List UInt8 → Except ReadFailure (ℕ × List UInt8)
  | [] => .error .endOfData
  | chSize :: is =>
    if chSize < 253 then .ok (chSize.toNat, is)
    else if chSize = 253 then readLongSize 2 253 is
    else if chSize = 254 then readLongSize 4 0x10000 is
    else readLongSize 8 0x100000000 is

def ReadCompactSize (is : List UInt8) : Except ReadFailure (ℕ × List UInt8) :=
  match readSizeForm is with
  | .error e => .error e
  | .ok (nSizeRet, is) =>
    if MAX_SIZE < nSizeRet then .error .sizeTooLarge else .ok (nSizeRet, is)

theorem readLongSize_iff (size nMin : ℕ) (is : List UInt8) (n : ℕ) (rest : List UInt8) :
    readLongSize size nMin is = .ok (n, rest) ↔
      nMin ≤ n ∧ n < 256 ^ size ∧ (wireUnsigned size).serialize n ++ rest = is := by
  have hread := (wireUnsigned size).unserialize_iff is
  unfold readLongSize
  constructor
  · intro h
    cases hc : (wireUnsigned size).unserialize is with
    | error e => simp [hc] at h
    | ok r =>
        obtain ⟨xSize, mid⟩ := r
        obtain ⟨hvalid, his⟩ := (hread xSize mid).mp hc
        by_cases hmin : xSize < nMin
        · simp [hc, hmin] at h
        · simp only [hc, if_neg hmin, Except.ok.injEq, Prod.mk.injEq] at h
          obtain ⟨rfl, rfl⟩ := h
          exact ⟨by omega, hvalid, his⟩
  · rintro ⟨hmin, hlt, his⟩
    rw [(hread n rest).mpr ⟨hlt, his⟩]
    simp only [if_neg (Nat.not_lt.mpr hmin)]

theorem readSizeForm_cons (chSize : UInt8) (is : List UInt8) :
    readSizeForm (chSize :: is) =
      if chSize < 253 then .ok (chSize.toNat, is)
      else if chSize = 253 then readLongSize 2 253 is
      else if chSize = 254 then readLongSize 4 0x10000 is
      else readLongSize 8 0x100000000 is := rfl

theorem WriteCompactSize_of_readSizeForm (is : List UInt8) (n : ℕ) (rest : List UInt8)
    (h : readSizeForm is = .ok (n, rest)) : n < 2 ^ 64 ∧ WriteCompactSize n ++ rest = is := by
  cases is with
  | nil => cases h
  | cons chSize is =>
      have hch := chSize.toNat_lt
      rw [readSizeForm_cons] at h
      by_cases h252 : chSize < 253
      · have hsmall : chSize.toNat < 253 := UInt8.lt_iff_toNat_lt.mp h252
        rw [if_pos h252] at h
        cases h
        exact ⟨by omega, by simp [WriteCompactSize, hsmall]⟩
      rw [if_neg h252] at h
      by_cases h253 : chSize = 253
      · rw [if_pos h253] at h
        obtain ⟨hlo, hhi, rfl⟩ := (readLongSize_iff 2 253 is n rest).mp h
        have h1 : ¬ n < 253 := by omega
        have h2 : n ≤ 2 ^ 16 - 1 := by omega
        exact ⟨by omega, by
          rw [WriteCompactSize, if_neg h1, if_pos h2, h253, List.cons_append]⟩
      rw [if_neg h253] at h
      by_cases h254 : chSize = 254
      · rw [if_pos h254] at h
        obtain ⟨hlo, hhi, rfl⟩ := (readLongSize_iff 4 0x10000 is n rest).mp h
        have h1 : ¬ n < 253 := by omega
        have h2 : ¬ n ≤ 2 ^ 16 - 1 := by omega
        have h3 : n ≤ 2 ^ 32 - 1 := by omega
        exact ⟨by omega, by
          rw [WriteCompactSize, if_neg h1, if_neg h2, if_pos h3, h254, List.cons_append]⟩
      · rw [if_neg h254] at h
        obtain ⟨hlo, hhi, rfl⟩ := (readLongSize_iff 8 0x100000000 is n rest).mp h
        have h1 : ¬ n < 253 := by omega
        have h2 : ¬ n ≤ 2 ^ 16 - 1 := by omega
        have h3 : ¬ n ≤ 2 ^ 32 - 1 := by omega
        have h255 : chSize = 255 := by
          rw [UInt8.lt_iff_toNat_lt] at h252
          rw [← UInt8.toNat_inj] at h253 h254 ⊢
          simp only [UInt8.reduceToNat] at *
          omega
        exact ⟨by omega, by
          rw [WriteCompactSize, if_neg h1, if_neg h2, if_neg h3, h255, List.cons_append]⟩

theorem readSizeForm_WriteCompactSize (n : ℕ) (rest : List UInt8) (hn : n < 2 ^ 64) :
    readSizeForm (WriteCompactSize n ++ rest) = .ok (n, rest) := by
  unfold WriteCompactSize
  by_cases h1 : n < 253
  · have hbyte : (UInt8.ofNat n).toNat = n := by
      rw [UInt8.toNat_ofNat']
      omega
    have hsmall : UInt8.ofNat n < 253 := by
      rw [UInt8.lt_iff_toNat_lt, hbyte]
      exact h1
    rw [if_pos h1, List.singleton_append, readSizeForm_cons, if_pos hsmall, hbyte]
  rw [if_neg h1]
  by_cases h2 : n ≤ 2 ^ 16 - 1
  · rw [if_pos h2, List.cons_append, readSizeForm_cons, if_neg (by decide), if_pos rfl]
    exact (readLongSize_iff 2 253 _ n rest).mpr ⟨by omega, by omega, rfl⟩
  rw [if_neg h2]
  by_cases h3 : n ≤ 2 ^ 32 - 1
  · rw [if_pos h3, List.cons_append, readSizeForm_cons, if_neg (by decide), if_neg (by decide),
      if_pos rfl]
    exact (readLongSize_iff 4 0x10000 _ n rest).mpr ⟨by omega, by omega, rfl⟩
  · rw [if_neg h3, List.cons_append, readSizeForm_cons, if_neg (by decide), if_neg (by decide),
      if_neg (by decide)]
    exact (readLongSize_iff 8 0x100000000 _ n rest).mpr ⟨by omega, by omega, rfl⟩

def wireCompactSize : Wire ℕ where
  serialize := WriteCompactSize
  unserialize := ReadCompactSize
  Valid nSize := nSize ≤ MAX_SIZE
  round := by
    intro n rest hn
    have hlt : n < 2 ^ 64 := by
      unfold MAX_SIZE at hn
      omega
    have hform := readSizeForm_WriteCompactSize n rest hlt
    simp only [ReadCompactSize, hform, if_neg (Nat.not_lt.mpr hn)]
  canonical := by
    intro is n rest h
    cases hform : readSizeForm is with
    | error e => simp [ReadCompactSize, hform] at h
    | ok r =>
        obtain ⟨nSizeRet, mid⟩ := r
        by_cases hmax : MAX_SIZE < nSizeRet
        · simp [ReadCompactSize, hform, hmax] at h
        · simp only [ReadCompactSize, hform, if_neg hmax, Except.ok.injEq, Prod.mk.injEq] at h
          obtain ⟨rfl, rfl⟩ := h
          exact ⟨by omega, (WriteCompactSize_of_readSizeForm is nSizeRet mid hform).2⟩

theorem length_WriteCompactSize (nSize : ℕ) :
    (WriteCompactSize nSize).length = GetSizeOfCompactSize nSize := by
  unfold WriteCompactSize GetSizeOfCompactSize wireUnsigned
  split_ifs <;> simp

/-! ## Strings and vectors -/

/-- A string, a vector of bytes or a script. -/
def wireBytes : Wire (List UInt8) := Codec.bytes .endOfData wireCompactSize

def wireVector {α : Type} (c : Wire α) : Wire (List α) := Codec.list wireCompactSize c

/-! ## Transactions -/

/-- The object as it lies in memory: 32 bytes of hash and 4 of index. -/
def COutPoint.wire : Wire COutPoint :=
  ((wireUnsigned 32).seq fun _ => wireUnsigned 4).record
    { toFun := fun p => ⟨p.1, p.2⟩
      invFun := fun o => (o.hash, o.n)
      left_inv := fun _ => rfl
      right_inv := fun _ => rfl }

def CTxIn.wire : Wire CTxIn :=
  (COutPoint.wire.seq fun _ => wireBytes.seq fun _ => wireUnsigned 4).record
    { toFun := fun p => ⟨p.1, p.2.1, p.2.2⟩
      invFun := fun txin => (txin.prevout, txin.scriptSig, txin.nSequence)
      left_inv := fun _ => rfl
      right_inv := fun _ => rfl }

def CTxOut.wire : Wire CTxOut :=
  ((wireSigned 8).seq fun _ => wireBytes).record
    { toFun := fun p => ⟨p.1, p.2⟩
      invFun := fun txout => (txout.nValue, txout.scriptPubKey)
      left_inv := fun _ => rfl
      right_inv := fun _ => rfl }

/-- The text is there from `VERSION_WITH_INFO` on; before, reading leaves what `SetNull` left. -/
def CTransaction.wire : Wire CTransaction :=
  ((wireSigned 4).seq fun nVersion => (wireUnsigned 4).seq fun _ =>
    (wireVector CTxIn.wire).seq fun _ => (wireVector CTxOut.wire).seq fun _ =>
    (wireUnsigned 4).seq fun _ =>
    if VERSION_WITH_INFO ≤ nVersion then wireBytes else .const []).record
    { toFun := fun p => ⟨p.1, p.2.1, p.2.2.1, p.2.2.2.1, p.2.2.2.2.1, p.2.2.2.2.2⟩
      invFun := fun tx => (tx.nVersion, tx.nTime, tx.vin, tx.vout, tx.nLockTime, tx.strTxInfo)
      left_inv := fun _ => rfl
      right_inv := fun _ => rfl }

/-! ## Blocks -/

def SER_NETWORK : ℕ := 1 <<< 0
def SER_DISK : ℕ := 1 <<< 1
def SER_GETHASH : ℕ := 1 <<< 2
def SER_BLOCKHEADERONLY : ℕ := 1 <<< 17

/-- A hash is taken of the header alone; reading a header clears the two vectors. -/
def CBlock.wire (nType : ℕ) : Wire CBlock :=
  ((wireSigned 4).seq fun _ => (wireUnsigned 32).seq fun _ => (wireUnsigned 32).seq fun _ =>
    (wireUnsigned 4).seq fun _ => (wireUnsigned 4).seq fun _ => (wireUnsigned 4).seq fun _ =>
    if nType &&& (SER_GETHASH ||| SER_BLOCKHEADERONLY) = 0 then
      (wireVector CTransaction.wire).seq fun _ => wireBytes
    else .const ([], [])).record
    { toFun := fun p =>
        ⟨p.1, p.2.1, p.2.2.1, p.2.2.2.1, p.2.2.2.2.1, p.2.2.2.2.2.1, p.2.2.2.2.2.2.1,
          p.2.2.2.2.2.2.2⟩
      invFun := fun block =>
        (block.nVersion, block.hashPrevBlock, block.hashMerkleRoot, block.nTime, block.nBits,
          block.nNonce, block.vtx, block.vchBlockSig)
      left_inv := fun _ => rfl
      right_inv := fun _ => rfl }

/-! ## Sizes -/

theorem length_wireBytes (bs : List UInt8) : (wireBytes.serialize bs).length = sizeOfBytes bs := by
  rw [wireBytes, length_bytes_serialize]
  exact congrArg (· + bs.length) (length_WriteCompactSize bs.length)

theorem length_wireVector {α : Type} (c : Wire α) (size : α → ℕ)
    (hsize : ∀ x, (c.serialize x).length = size x) (xs : List α) :
    ((wireVector c).serialize xs).length =
      GetSizeOfCompactSize xs.length + (xs.map size).sum := by
  have hlen : wireCompactSize.serialize xs.length = WriteCompactSize xs.length := rfl
  rw [wireVector, list_serialize, List.length_append, hlen, length_WriteCompactSize,
    List.length_flatMap]
  simp only [hsize]

theorem CTxIn.length_serialize (txin : CTxIn) :
    (CTxIn.wire.serialize txin).length = txin.GetSerializeSize := by
  have hout : (COutPoint.wire.serialize txin.prevout).length = 36 := by
    simp [COutPoint.wire, Codec.record, Codec.image, Codec.seq, wireUnsigned]
  simp only [CTxIn.wire, Codec.record, Codec.image, Codec.seq, wireUnsigned, Equiv.coe_fn_symm_mk,
    List.length_append, length_nat_serialize, length_wireBytes, hout, CTxIn.GetSerializeSize]
  omega

theorem CTxOut.length_serialize (txout : CTxOut) :
    (CTxOut.wire.serialize txout).length = txout.GetSerializeSize := by
  simp [CTxOut.wire, Codec.record, Codec.image, Codec.seq, wireSigned, length_wireBytes,
    CTxOut.GetSerializeSize]

theorem CTransaction.length_serialize (tx : CTransaction) :
    (CTransaction.wire.serialize tx).length = tx.GetSerializeSize := by
  have htail : ((if VERSION_WITH_INFO ≤ tx.nVersion then wireBytes else .const [] :
      Wire (List UInt8)).serialize tx.strTxInfo).length =
      if VERSION_WITH_INFO ≤ tx.nVersion then sizeOfBytes tx.strTxInfo else 0 := by
    split
    · exact length_wireBytes tx.strTxInfo
    · rfl
  simp only [CTransaction.wire, Codec.record, Codec.image, Codec.seq, wireUnsigned, wireSigned,
    Equiv.coe_fn_symm_mk, List.length_append, length_nat_serialize, length_int_serialize,
    length_wireVector CTxIn.wire _ CTxIn.length_serialize,
    length_wireVector CTxOut.wire _ CTxOut.length_serialize, htail,
    CTransaction.GetSerializeSize]
  omega

end Dions
