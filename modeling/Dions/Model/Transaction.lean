import Mathlib.Data.List.Nodup
import Dions.Library.Halt
import Dions.Model.Script

/-! # Transactions

The transaction types and the checks that need nothing but the transaction. Hash values are
plain numbers: only their order and equality matter to the chain logic. -/

namespace Dions

open Halting

abbrev uint256 := ℕ

abbrev uint160 := ℕ

/-- The number in a string of twenty bytes, the lowest byte first; zero for any other length. -/
def uint160OfVch (vch : vchType) : uint160 :=
  if vch.length = 20 then vch.foldr (fun b n => b.toNat + 256 * n) 0 else 0

/-! ## Constants -/

def COIN : ℤ := 100000000
def CENT : ℤ := 1000000
def MAX_BLOCK_SIZE : ℕ := 4 * 1024 * 1024
def MAX_BLOCK_SIZE_GEN : ℕ := MAX_BLOCK_SIZE
def MAX_STANDARD_TX_SIZE : ℕ := MAX_BLOCK_SIZE_GEN * 6 / 10
def MAX_BLOCK_SIGOPS : ℕ := MAX_BLOCK_SIZE / 50
def MIN_TX_FEE : ℤ := 10000
def MIN_RELAY_TX_FEE : ℤ := MIN_TX_FEE
def MAX_MONEY : ℤ := 2 ^ 63 - 1
def LOCKTIME_THRESHOLD : ℤ := 500000000

/-- The largest `unsigned int`, which marks a null index, file or sequence number. -/
def UINT_MAX : ℕ := 2 ^ 32 - 1

/-- The value a 64-bit signed variable holds after a result that may not fit it. -/
def int64 (n : ℤ) : ℤ := n.bmod (2 ^ 64)

/-- A conversion to `int`. -/
def int32 (n : ℤ) : ℤ := n.bmod (2 ^ 32)

def MoneyRange (nValue : ℤ) : Bool := 0 ≤ nValue && nValue ≤ MAX_MONEY

/-! ## Types -/

structure COutPoint where
  hash : uint256
  n : ℕ
  deriving DecidableEq, Repr

def COutPoint.null : COutPoint := ⟨0, UINT_MAX⟩

def COutPoint.IsNull (o : COutPoint) : Bool := o.hash == 0 && o.n == UINT_MAX

structure CTxIn where
  prevout : COutPoint
  scriptSig : CScript
  nSequence : ℕ
  deriving DecidableEq, Repr

def CTxIn.IsFinal (txin : CTxIn) : Bool := txin.nSequence == UINT_MAX

structure CTxOut where
  nValue : ℤ
  scriptPubKey : CScript
  deriving DecidableEq, Repr

def CTxOut.IsEmpty (txout : CTxOut) : Bool := txout.nValue == 0 && txout.scriptPubKey.isEmpty

structure CTransaction where
  nVersion : ℤ
  nTime : ℕ
  vin : List CTxIn
  vout : List CTxOut
  nLockTime : ℕ
  strTxInfo : List UInt8
  deriving DecidableEq, Repr

inductive GetMinFee_mode where
  | GMF_BLOCK
  | GMF_RELAY
  | GMF_SEND
  deriving DecidableEq, Repr

namespace CTransaction

def CURRENT_VERSION : ℤ := 1
def VERSION_WITH_INFO : ℤ := 3
def DION_TX_VERSION : ℤ := 5

/-- What `SetNull` leaves; the clock gives `nTime`. -/
def null (nAdjustedTime : ℕ) : CTransaction := ⟨CURRENT_VERSION, nAdjustedTime, [], [], 0, []⟩

def IsCoinBase (tx : CTransaction) : Bool :=
  match tx.vin with
  | [txin] => txin.prevout.IsNull && 1 ≤ tx.vout.length
  | _ => false

/-- The coin stake transaction is marked with the first output empty. -/
def IsCoinStake (tx : CTransaction) : Bool :=
  match tx.vin, tx.vout with
  | txin :: _, txout :: _ :: _ => !txin.prevout.IsNull && txout.IsEmpty
  | _, _ => false

end CTransaction

/-! ## Serialized sizes -/

def GetSizeOfCompactSize (nSize : ℕ) : ℕ :=
  if nSize < 253 then 1
  else if nSize ≤ 2 ^ 16 - 1 then 3
  else if nSize ≤ 2 ^ 32 - 1 then 5
  else 9

/-- The size of a vector of bytes: its length and the bytes themselves. -/
def sizeOfBytes (v : List UInt8) : ℕ := GetSizeOfCompactSize v.length + v.length

def CTxIn.GetSerializeSize (txin : CTxIn) : ℕ := 36 + sizeOfBytes txin.scriptSig + 4

def CTxOut.GetSerializeSize (txout : CTxOut) : ℕ := 8 + sizeOfBytes txout.scriptPubKey

def CTransaction.GetSerializeSize (tx : CTransaction) : ℕ :=
  4 + 4 +
    (GetSizeOfCompactSize tx.vin.length + (tx.vin.map CTxIn.GetSerializeSize).sum) +
    (GetSizeOfCompactSize tx.vout.length + (tx.vout.map CTxOut.GetSerializeSize).sum) + 4 +
    (if VERSION_WITH_INFO ≤ tx.nVersion then sizeOfBytes tx.strTxInfo else 0)

theorem CTransaction.GetSerializeSize_pos (tx : CTransaction) : 0 < tx.GetSerializeSize := by
  unfold GetSerializeSize
  omega

/-! ## Context-free checks -/

namespace CTransaction

/-- The sum of the outputs; an exception when a partial sum leaves the money range. -/
def valueOutFrom : List CTxOut → ℤ → Option ℤ
  | [], nValueOut => some nValueOut
  | txout :: vout, nValueOut =>
    let nValueOut' := int64 (nValueOut + txout.nValue)
    if MoneyRange txout.nValue && MoneyRange nValueOut' then valueOutFrom vout nValueOut'
    else none

def GetValueOut (tx : CTransaction) : Exec ℤ :=
  match valueOutFrom tx.vout 0 with
  | some nValueOut => .ok nValueOut
  | none => .error .raised

def checkOutputs (userTx : Bool) : List CTxOut → ℤ → Bool
  | [], _ => true
  | txout :: vout, nValueOut =>
    let nValueOut' := int64 (nValueOut + txout.nValue)
    !(txout.IsEmpty && userTx) && 0 ≤ txout.nValue && txout.nValue ≤ MAX_MONEY &&
      MoneyRange nValueOut' && checkOutputs userTx vout nValueOut'

def CheckTransaction (tx : CTransaction) : Bool :=
  !tx.vin.isEmpty && !tx.vout.isEmpty &&
    tx.GetSerializeSize ≤ MAX_BLOCK_SIZE &&
    checkOutputs (!tx.IsCoinBase && !tx.IsCoinStake) tx.vout 0 &&
    decide (tx.vin.map CTxIn.prevout).Nodup &&
    (if tx.IsCoinBase then
      tx.vin.all fun txin => 2 ≤ txin.scriptSig.length && txin.scriptSig.length ≤ 100
    else tx.vin.all fun txin => !txin.prevout.IsNull)

def GetLegacySigOpCount (tx : CTransaction) : ℕ :=
  (tx.vin.map fun txin => txin.scriptSig.GetSigOpCount false).sum +
    (tx.vout.map fun txout => txout.scriptPubKey.GetSigOpCount false).sum

def GetMinFee (tx : CTransaction) (nBlockSize : ℕ) (mode : GetMinFee_mode) (nBytes : ℕ) : ℤ :=
  let nBaseFee := if mode = .GMF_RELAY then MIN_RELAY_TX_FEE else MIN_TX_FEE
  let nNewBlockSize := nBlockSize + nBytes
  let nMinFee := (1 + (nBytes / 1000 : ℕ) : ℤ) * nBaseFee
  -- To limit dust spam, require the base fee if any output is less than 0.01
  let nMinFee :=
    if nMinFee < nBaseFee ∧ tx.vout.any (·.nValue < CENT) then nBaseFee else nMinFee
  if nBlockSize ≠ 1 ∧ MAX_BLOCK_SIZE_GEN / 2 ≤ nNewBlockSize then
    if MAX_BLOCK_SIZE_GEN ≤ nNewBlockSize then MAX_MONEY
    else
      -- Raise the price as the block approaches full
      let nMinFee := nMinFee * (MAX_BLOCK_SIZE_GEN / (MAX_BLOCK_SIZE_GEN - nNewBlockSize) : ℕ)
      if MoneyRange nMinFee then nMinFee else MAX_MONEY
  else if MoneyRange nMinFee then nMinFee else MAX_MONEY

end CTransaction

/-- A height or time of zero stands for the best height and the adjusted time. -/
def IsFinalTx (nBestHeight nAdjustedTime : ℤ) (tx : CTransaction) (nBlockHeight nBlockTime : ℤ) :
    Bool :=
  if tx.nLockTime = 0 then true
  else
    let nBlockHeight := if nBlockHeight = 0 then nBestHeight else nBlockHeight
    let nBlockTime := if nBlockTime = 0 then nAdjustedTime else nBlockTime
    if (tx.nLockTime : ℤ) <
        (if (tx.nLockTime : ℤ) < LOCKTIME_THRESHOLD then nBlockHeight else nBlockTime) then true
    else tx.vin.all CTxIn.IsFinal

/-! ## Decoding the alias output of a transaction -/

/-- What `aliasTx` leaves in its reference arguments. -/
structure AliasTxRet where
  ret : Bool
  op : Option ℕ
  nOut : Option ℕ
  vvch : List vchType
  deriving DecidableEq, Repr

/-- The scan over the outputs: `op` is handed to every `aliasScript` call, so the last output
whose first opcode is in range decides it. -/
def aliasTxLoop : List CTxOut → (i : ℕ) → (found : Bool) → (op : Option ℕ) →
    (nOut : Option ℕ) → List vchType → AliasTxRet
  | [], _, found, op, nOut, vvch => ⟨found, op, nOut, if found then vvch else []⟩
  | out :: vout, i, found, op, nOut, vvch =>
    let r := aliasScript out.scriptPubKey op
    if r.ret then
      if found then ⟨false, r.op, nOut, []⟩
      else aliasTxLoop vout (i + 1) true r.op (some i) r.vvch
    else aliasTxLoop vout (i + 1) found r.op nOut vvch

/-- `op` and `nOut` are uninitialised locals of every caller. -/
def aliasTx (tx : CTransaction) : AliasTxRet := aliasTxLoop tx.vout 0 false none none []

end Dions
