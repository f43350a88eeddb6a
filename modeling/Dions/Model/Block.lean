import Mathlib.Data.List.Sort
import Dions.Library.Lineage
import Dions.Model.Transaction

/-! # Blocks, the block index and the block files

A pointer to a `CBlockIndex` is the line of index entries down to the genesis block: `pprev` is
set once, when the entry is made, and never assigned again. The link `pnext`, which does change,
belongs to the node state. -/

namespace Dions

open Halting

/-! ## Network parameters and height switches -/

/-- The globals that `LoadBlockIndex` sets by network, and the hardened checkpoints. -/
structure ChainParams where
  fTestNet : Bool
  nCoinbaseMaturity : ℕ
  nStakeMinConfirmations : ℕ
  nStakeMinAge : ℕ
  bnProofOfWorkLimit : ℤ
  hashGenesisBlock : uint256
  mapCheckpoints : List (ℕ × uint256)
  deriving DecidableEq, Repr

def mainNet : ChainParams where
  fTestNet := false
  nCoinbaseMaturity := 100
  nStakeMinConfirmations := 500
  nStakeMinAge := 8 * 60 * 60
  bnProofOfWorkLimit := 2 ^ 236 - 1
  hashGenesisBlock := 0x00000afad2d5833b50b59a9784fdc59869b688680e1670a52c52e3c2c04c1fe8
  mapCheckpoints :=
    [(0, 0x00000afad2d5833b50b59a9784fdc59869b688680e1670a52c52e3c2c04c1fe8),
      (2000, 0x0000000000630a62ab7f79eb3a7a18ea2ce52cb7fe9d0b42f8d96d299eebd0ed),
      (4000, 0x0000000000592856ce322caa56c59baae91d508131a1757e44f9b98cd59596aa),
      (6000, 0x31cef59ceff4d5208abbc1260e03daabfc88b5364fdba6bd5ea526bbf2c3a789),
      (8000, 0x00000000006d3b5b2de92d470eaa3a97a1453aa19d7c6502e444e2d3b67b5de4),
      (10000, 0x000000000026bd8477cb22d0bfed736a753f70db69f6d7ce0fb25d256db16ee9),
      (200000, 0xed8c09902c98d140d5f6cac92e4cadd75667ab42d68a6341929be9b4562ed6c2),
      (400000, 0xe0734018c7bd135290e9c44ff138d3110456322d478f76d0cb8a6d1bae5b9192),
      (800000, 0x5c5b978e0d1a27210130b1fc172b760e0a6a205a525b01d04c4a0c0e55afb82f),
      (1000000, 0xa4e2dec54d19dd796ee8ede3c22ee5a52109e0b697c8f85913aa91642eeea62c),
      (1200000, 0xe4f107cd496ff700c0a887a6f449525175cff20acf4a9373628e1a1f647bfa9d),
      (1600000, 0x4fa856def879a0574e47891f93699d2f4c53b045a584a53d95b1fc1e1ff49162),
      (1625000, 0x2ded826175cd8dee6333f4ec198597bb6992f972e01ec1b710f9c6149b065a7f),
      (1800000, 0x805fdf08fa517c4b9ce0f366be5112cb3d190e478a75818dd317a7f75db29cc3),
      (1860837, 0x11ca928dce7fc4c5d467865a801df58e5db94ef9f96006bb58e94dcf86654372),
      (1898337, 0xd2fe23992ce9939af0d08e48f9f1efac5b4bf53b5ee130d83b6d3beac8401ae3)]

def testNet : ChainParams where
  fTestNet := true
  nCoinbaseMaturity := 10
  nStakeMinConfirmations := 10
  nStakeMinAge := 60 * 60
  bnProofOfWorkLimit := 2 ^ 255 - 1
  hashGenesisBlock := 0x5f97300cd3dc3d2215dd38ce6d99bf7d5984bb62b2777060d3b5564298bd5484
  mapCheckpoints := [(0, 0x5f97300cd3dc3d2215dd38ce6d99bf7d5984bb62b2777060d3b5564298bd5484)]

namespace ChainParams

variable (params : ChainParams)

/-- `Checkpoints::GetTotalBlocksEstimate`: the height of the last entry. -/
def GetTotalBlocksEstimate : ℤ := ((params.mapCheckpoints.getLast?.map Prod.fst).getD 0 : ℕ)

def CheckHardened (nHeight : ℕ) (hash : uint256) : Bool :=
  match params.mapCheckpoints.lookup nHeight with
  | none => true
  | some h => hash == h

def V3 (nHeight : ℤ) : Bool :=
  if params.fTestNet then 0x0a ≤ nHeight else 1625000 ≤ nHeight

def V4 (nHeight : ℤ) : Bool :=
  if params.fTestNet then 0x10 ≤ nHeight else 75 * 500 + 1860837 ≤ nHeight

end ChainParams

def LAST_POW_BLOCK : ℕ := 12815
def STAKE_INTEREST_V3 : ℕ := 150000
def POS_v3_DIFFICULTY_HEIGHT : ℕ := 100000

def IsProtocolV2 (nHeight : ℤ) : Bool := 65000 < nHeight

def PastDrift (nTime : ℤ) (nHeight : ℤ) : ℤ :=
  if IsProtocolV2 nHeight then nTime else nTime - 10 * 60

def FutureDrift (nTime : ℤ) (nHeight : ℤ) : ℤ :=
  if IsProtocolV2 nHeight then nTime + 15 else nTime + 10 * 60

def GetTargetSpacing (nHeight : ℤ) : ℤ := if IsProtocolV2 nHeight then 64 else 60

/-! ## Compact targets -/

/-- `CBigNum::SetCompact`: one byte of length, then the leading bytes in sign-magnitude form. -/
def SetCompact (nCompact : ℕ) : ℤ :=
  let nSize := nCompact / 2 ^ 24
  let word := nCompact % 2 ^ 23
  let magnitude : ℕ := if 3 ≤ nSize then word * 256 ^ (nSize - 3) else word / 256 ^ (3 - nSize)
  if 2 ^ 23 ≤ nCompact % 2 ^ 24 ∧ 1 ≤ nSize then -(magnitude : ℤ) else magnitude

/-- `CBigNum::GetCompact`: the shortest form, whose first bit is the sign, cut to three bytes. -/
def GetCompact (bn : ℤ) : ℕ :=
  let magnitude := bn.natAbs
  if magnitude = 0 then 0
  else
    let nSize := (Nat.log2 magnitude + 1) / 8 + 1
    let word :=
      if 3 ≤ nSize then magnitude / 256 ^ (nSize - 3) else magnitude * 256 ^ (3 - nSize)
    nSize * 2 ^ 24 + word + (if bn < 0 then 2 ^ 23 else 0)

/-! ## Blocks -/

structure CBlock where
  nVersion : ℤ
  hashPrevBlock : uint256
  hashMerkleRoot : uint256
  nTime : ℕ
  nBits : ℕ
  nNonce : ℕ
  vtx : List CTransaction
  vchBlockSig : List UInt8
  deriving DecidableEq, Repr

namespace CBlock

def CURRENT_VERSION : ℤ := 8

def GetBlockTime (block : CBlock) : ℤ := block.nTime

def IsProofOfStake (block : CBlock) : Bool :=
  match block.vtx with
  | _ :: tx :: _ => tx.IsCoinStake
  | _ => false

def IsProofOfWork (block : CBlock) : Bool := !block.IsProofOfStake

def GetMaxTransactionTime (block : CBlock) : ℤ :=
  block.vtx.foldl (fun maxTransactionTime tx => max maxTransactionTime (tx.nTime : ℤ)) 0

/-- The header takes 80 bytes. -/
def GetSerializeSize (block : CBlock) : ℕ :=
  80 + (GetSizeOfCompactSize block.vtx.length + (block.vtx.map CTransaction.GetSerializeSize).sum)
    + sizeOfBytes block.vchBlockSig

end CBlock

/-! ## Positions on disk -/

structure CDiskTxPos where
  nFile : ℕ
  nBlockPos : ℕ
  nTxPos : ℕ
  deriving DecidableEq, Repr

/-- Where `ConnectBlock` and `filter` start counting: behind the header and the length of `vtx`. -/
def firstTxPos (nBlockPos nTx : ℕ) : ℕ := nBlockPos + 80 + GetSizeOfCompactSize nTx

/-- Each transaction with its position, from the position of the first on. -/
def txPositions (nFile nBlockPos : ℕ) : (nTxPos : ℕ) → List CTransaction →
    List (CDiskTxPos × CTransaction)
  | _, [] => []
  | nTxPos, tx :: vtx =>
    (⟨nFile, nBlockPos, nTxPos⟩, tx) ::
      txPositions nFile nBlockPos (nTxPos + tx.GetSerializeSize) vtx

/-! ## The block index -/

/-- The fields of a `CBlockIndex` that never change once it is in `mapBlockIndex`. -/
structure BlockIndexData where
  /-- `*phashBlock` -/
  hash : uint256
  nFile : ℕ
  nBlockPos : ℕ
  fProofOfStake : Bool
  nStakeModifier : ℕ
  fGeneratedStakeModifier : Bool
  nTime : ℕ
  nBits : ℕ
  deriving DecidableEq, Repr

abbrev CBlockIndex := Lineage BlockIndexData

namespace CBlockIndex

variable (pindex : CBlockIndex)

def GetBlockHash : uint256 := pindex.label.hash

def nFile : ℕ := pindex.label.nFile

def nBlockPos : ℕ := pindex.label.nBlockPos

def pprev : Option CBlockIndex := pindex.parent?

/-- `AddToBlockIndex` sets it to one more than the height of `pprev`. -/
def nHeight : ℕ := pindex.depth

def GetBlockTime : ℤ := pindex.label.nTime

def IsProofOfStake : Bool := pindex.label.fProofOfStake

/-- The expected number of hashes behind one block. -/
def GetBlockTrust : ℕ :=
  let bnTarget := SetCompact pindex.label.nBits
  if bnTarget ≤ 0 then 0 else (2 ^ 256 / (bnTarget + 1)).toNat

/-- `AddToBlockIndex` adds the trust of the block to that of `pprev`. -/
def nChainTrust : CBlockIndex → ℕ
  | .root d => GetBlockTrust (.root d)
  | .child d p => nChainTrust p + GetBlockTrust (.child d p)

/-- The walk shared by the maturity test, `minBase` and `CheckTransactionAtRelativeDepth`: the
distance to the entry whose block is at the given position, if it is less than `nMaxDepth`. -/
def depthOf (nFile nBlockPos nMaxDepth : ℕ) : CBlockIndex → (distance : ℕ) → Option ℕ
  | .root d, distance =>
    if distance < nMaxDepth ∧ d.nBlockPos = nBlockPos ∧ d.nFile = nFile then some distance
    else none
  | .child d p, distance =>
    if distance < nMaxDepth then
      if d.nBlockPos = nBlockPos ∧ d.nFile = nFile then some distance
      else depthOf nFile nBlockPos nMaxDepth p (distance + 1)
    else none

/-- `GetMedianTimePast` over the last eleven entries. -/
def GetMedianTimePast : ℤ :=
  let times := (pindex.line.take 11).map GetBlockTime
  ((times.insertionSort (· ≤ ·))[times.length / 2]?).getD 0

def GetPastTimeLimit : ℤ :=
  if IsProtocolV2 pindex.nHeight then pindex.GetBlockTime else pindex.GetMedianTimePast

end CBlockIndex

/-! ## Block files -/

/-- The files `blkNNNN.dat`: what can be read back at which place, and how long each file is. -/
structure BlockFile where
  blocks : ℕ × ℕ → Option CBlock
  txs : ℕ × ℕ → Option CTransaction
  size : ℕ → ℕ
  nCurrentBlockFile : ℕ

namespace BlockFile

def MAX_SIZE : ℕ := 0x02000000

def empty : BlockFile := ⟨fun _ => none, fun _ => none, fun _ => 0, 1⟩

/-- The file `AppendBlockFile` settles on; the next one is new and has no bytes yet. -/
def appendTo (files : BlockFile) : ℕ :=
  if files.size files.nCurrentBlockFile < 0x7F000000 - MAX_SIZE then files.nCurrentBlockFile
  else files.nCurrentBlockFile + 1

def writeTxs (txs : ℕ × ℕ → Option CTransaction) :
    List (CDiskTxPos × CTransaction) → ℕ × ℕ → Option CTransaction
  | [] => txs
  | (pos, tx) :: rest => writeTxs (Function.update txs (pos.nFile, pos.nTxPos) (some tx)) rest

/-- `WriteToDisk`: the message start and the size take eight bytes, then comes the block. -/
def WriteToDisk (files : BlockFile) (block : CBlock) : BlockFile × ℕ × ℕ :=
  let nFile := files.appendTo
  let nBlockPos := files.size nFile + 8
  ({ blocks := Function.update files.blocks (nFile, nBlockPos) (some block)
     txs := writeTxs files.txs
       (txPositions nFile nBlockPos (firstTxPos nBlockPos block.vtx.length) block.vtx)
     size := Function.update files.size nFile (nBlockPos + block.GetSerializeSize)
     nCurrentBlockFile := nFile }, nFile, nBlockPos)

/-- `CTransaction::ReadFromDisk(pos)`, which looks only at the file and the transaction position. -/
def readTx (files : BlockFile) (pos : CDiskTxPos) : Option CTransaction :=
  files.txs (pos.nFile, pos.nTxPos)

end BlockFile

end Dions
