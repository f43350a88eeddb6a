import Dions.Model.Block

/-! # The environment

What the chain logic asks of code outside it, and the checks built directly on the answers:
transaction and block hashes, signatures, proof of work, and `CheckBlock`. -/

namespace Dions

open Halting

/-- Hash functions, script evaluation with its signature checks, the address codec, the wallet
and formulas computed in floating point, together with the network parameters. -/
structure Env extends ChainParams where
  /-- `SerializeHash` of a transaction. -/
  txHash : CTransaction → uint256
  /-- `Hash` of two concatenated hashes, as the Merkle tree uses it. -/
  hashPair : uint256 → uint256 → uint256
  /-- `Hash` over the six header fields. -/
  headerHash : ℤ → uint256 → uint256 → ℕ → ℕ → ℕ → uint256
  /-- `Hash9` over the six header fields. -/
  headerHash9 : ℤ → uint256 → uint256 → ℕ → ℕ → ℕ → uint256
  /-- `Hash` of modifier, block time, transaction time, outpoint and stake time. -/
  kernelHash : ℕ → ℕ → ℕ → COutPoint → ℕ → uint256
  /-- `Hash` of modifier, block time, offset, transaction time, output number and stake time. -/
  kernelHashV1 : ℕ → ℕ → ℕ → ℕ → ℕ → ℕ → uint256
  /-- `ComputeNextStakeModifier` on top of a block: the modifier, and whether it is a new one. -/
  nextStakeModifier : CBlockIndex → ℕ × Bool
  /-- `VerifyScript` of a signature script against an output script, for an input and flags. -/
  VerifyScript : CScript → CScript → CTransaction → ℕ → ℕ → Bool
  Hash160 : vchType → uint160
  /-- `IsValid` of the address with the given text. -/
  addressValid : vchType → Bool
  /-- `GetKeyID` of the address with the given text. -/
  addressKeyID : vchType → Option uint160
  /-- The text of `GetBitcoinAddress` after `SetBitcoinAddress`. -/
  addressOf : vchType → vchType
  /-- `GetBitcoinAddress` of an output script. -/
  scriptAddress : CScript → vchType
  /-- `DecodeBase64`; `none` when it reports malformed input. -/
  decodeBase64 : vchType → Option vchType
  /-- The key id that `SetCompactSignature` recovers from the serialized strings. -/
  recoverKeyID : List vchType → vchType → Option uint160
  /-- The text of a 160-bit hash. -/
  toString160 : uint160 → vchType
  /-- Whether storing the random value of an encrypted alias of ours ends without exception. -/
  storeRandom : CTransaction → Bool
  /-- What `IsStandardTx` asks of the scripts: push-only inputs and outputs of known types, one of
  them at most a data output, and no other without value. -/
  standardScripts : CTransaction → Bool
  /-- `AreInputsStandard`, given the previous outputs. -/
  standardInputs : CTransaction → List CTxOut → Bool
  /-- The key of the second output of a coin stake verifies a signature of a header hash. -/
  blockSignature : CTransaction → uint256 → List UInt8 → Bool
  /-- `nTxValueOut - nTxValueOut*.02`, rounded as the conversion from `double` does. -/
  lessDriftBuffer : ℤ → ℤ
  /-- What the local variable `op` of `filter` holds before anything is assigned to it. -/
  unassigned : CTransaction → ℕ
  /-- `GetProofOfStakeInterestV2`, whose weight is computed in floating point. -/
  stakeInterestV2 : ℕ → ℤ

variable (env : Env)

def CTransaction.GetHash (tx : CTransaction) : uint256 := env.txHash tx

/-- The previous transaction must be the one the input names. -/
def VerifySignature (txFrom txTo : CTransaction) (nIn flags : ℕ) : Bool :=
  match txTo.vin[nIn]? with
  | none => false
  | some txin =>
    match txFrom.vout[txin.prevout.n]? with
    | none => false
    | some txout =>
      txin.prevout.hash == txFrom.GetHash env &&
        env.VerifyScript txin.scriptSig txout.scriptPubKey txTo nIn flags

def CheckProofOfWork (hash : uint256) (nBits : ℕ) : Bool :=
  let bnTarget := SetCompact nBits
  0 < bnTarget && bnTarget ≤ env.bnProofOfWorkLimit && (hash : ℤ) ≤ bnTarget

namespace CBlock

variable (block : CBlock)

def GetPoWHash : uint256 :=
  env.headerHash9 block.nVersion block.hashPrevBlock block.hashMerkleRoot block.nTime block.nBits
    block.nNonce

def GetHash : uint256 :=
  if 6 < block.nVersion then
    env.headerHash block.nVersion block.hashPrevBlock block.hashMerkleRoot block.nTime block.nBits
      block.nNonce
  else block.GetPoWHash env

/-- One level of the Merkle tree from the level below; an odd last node is paired with itself. -/
def merkleLevel : List uint256 → List uint256
  | a :: b :: rest => env.hashPair a b :: merkleLevel rest
  | [a] => [env.hashPair a a]
  | [] => []

def merkleRoot : (fuel : ℕ) → List uint256 → uint256
  | 0, level => level.headD 0
  | fuel + 1, level =>
    if level.length ≤ 1 then level.headD 0 else merkleRoot fuel (merkleLevel env level)

/-- A level has fewer nodes than the one below, so as many rounds as transactions are enough. -/
def BuildMerkleTree : uint256 :=
  merkleRoot env block.vtx.length (block.vtx.map (CTransaction.GetHash env))

def CheckBlockSignature : Bool :=
  if block.IsProofOfWork then block.vchBlockSig.isEmpty
  else
    match block.vtx[1]? with
    | some tx => env.blockSignature tx (block.GetHash env) block.vchBlockSig
    | none => false

/-- Checks that are independent of context. -/
def CheckBlock (fCheckPOW fCheckMerkleRoot fCheckSig : Bool) : Bool :=
  !block.vtx.isEmpty && block.vtx.length ≤ MAX_BLOCK_SIZE &&
    block.GetSerializeSize ≤ MAX_BLOCK_SIZE &&
    !(fCheckPOW && block.IsProofOfWork &&
      !CheckProofOfWork env (block.GetPoWHash env) block.nBits) &&
    (block.vtx.head?.map CTransaction.IsCoinBase).getD false &&
    block.vtx.tail.all (fun tx => !tx.IsCoinBase) &&
    (!block.IsProofOfStake ||
      ((block.vtx.head?.map fun tx => tx.vout.length == 1 && tx.vout.all CTxOut.IsEmpty).getD false
        && (block.vtx.drop 2).all (fun tx => !tx.IsCoinStake)
        && (!fCheckSig || block.CheckBlockSignature env))) &&
    block.vtx.all (fun tx => tx.CheckTransaction && (tx.nTime : ℤ) ≤ block.GetBlockTime) &&
    decide (block.vtx.map (CTransaction.GetHash env)).Nodup &&
    (block.vtx.map CTransaction.GetLegacySigOpCount).sum ≤ MAX_BLOCK_SIGOPS &&
    (!fCheckMerkleRoot || block.hashMerkleRoot == block.BuildMerkleTree env)

end CBlock

/-- `CBlock::ReadFromDisk(pindex)`: the header is checked again after reading. -/
def BlockFile.ReadFromDisk (files : BlockFile) (pindex : CBlockIndex) : Option CBlock :=
  match files.blocks (pindex.nFile, pindex.nBlockPos) with
  | none => none
  | some block =>
    if block.IsProofOfWork && !CheckProofOfWork env (block.GetPoWHash env) block.nBits then none
    else if block.GetHash env ≠ pindex.GetBlockHash then none
    else some block

end Dions
