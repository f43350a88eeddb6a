import Dions.Model.Accept

/-! # Small networks

An environment in which hashes are times and every signature is good, and builders for blocks
and transactions on it. Transactions and blocks of a scenario get different times, so no two of
them share a hash. -/

namespace Dions

open Halting

namespace Scenario

def timed (params : ChainParams) : Env where
  toChainParams := params
  txHash := fun tx => tx.nTime
  hashPair := fun a b => 31 * a + b
  headerHash := fun _ _ _ nTime _ _ => if nTime = 0 then params.hashGenesisBlock else nTime
  headerHash9 := fun _ _ _ nTime _ _ => nTime
  kernelHash := fun _ _ _ _ _ => 0
  kernelHashV1 := fun _ _ _ _ _ _ => 0
  nextStakeModifier := fun _ => (0, false)
  VerifyScript := fun _ _ _ _ _ => true
  Hash160 := fun vch => uint160OfVch (vch.take 20)
  addressValid := fun _ => true
  addressKeyID := fun _ => some 0
  addressOf := fun vch => vch
  scriptAddress := fun script => script
  decodeBase64 := fun vch => some vch
  recoverKeyID := fun _ _ => some 0
  toString160 := fun _ => []
  storeRandom := fun _ => true
  standardScripts := fun _ => true
  standardInputs := fun _ _ => true
  blockSignature := fun _ _ _ => true
  lessDriftBuffer := fun n => n
  unassigned := fun _ => 0
  stakeInterestV2 := fun _ => 0

/-- A number for every string of bytes: its digits to the base 257, none of them zero. -/
def byteCode (vch : List UInt8) : ℕ := vch.foldr (fun b n => b.toNat + 1 + 257 * n) 0

theorem byteCode_injective : Function.Injective byteCode := by
  intro vch
  induction vch with
  | nil =>
    intro vch' h
    cases vch' with
    | nil => rfl
    | cons b' vch' =>
      simp only [byteCode, List.foldr_nil, List.foldr_cons] at h
      omega
  | cons b vch ih =>
    intro vch' h
    cases vch' with
    | nil =>
      simp only [byteCode, List.foldr_nil, List.foldr_cons] at h
      omega
    | cons b' vch' =>
      have hb := b.toNat_lt
      have hb' := b'.toNat_lt
      have hdigits : b.toNat + 1 + 257 * byteCode vch = b'.toNat + 1 + 257 * byteCode vch' := h
      have hrest : byteCode vch = byteCode vch' := by omega
      have hfirst : b.toNat = b'.toNat := by omega
      rw [UInt8.toNat_inj.mp hfirst, ih hrest]

def namesHashed (params : ChainParams) : Env := { timed params with Hash160 := byteCode }

/-- Everything works, and the clock is far ahead. -/
def io : Io := ⟨10 ^ 8, fun _ => false, fun _ => false, false, true, false⟩

/-- The database commit for the given tip fails. -/
def ioFailing (tip : uint256) : Io := { io with commitFails := fun hash => hash == tip }

def genesisBlock : CBlock := ⟨7, 0, 0, 0, 0x207fffff, 0, [], []⟩

def coinbase (nHeight nTime : ℕ) (nVersion : ℤ) (vout : List CTxOut) : CTransaction :=
  ⟨nVersion, nTime, [⟨COutPoint.null, pushHeight nHeight ++ [0, 0], UINT_MAX⟩], vout, 0, []⟩

/-- An ordinary transaction that spends the given outputs. -/
def spending (nTime : ℕ) (nVersion : ℤ) (prevouts : List COutPoint) (vout : List CTxOut) :
    CTransaction :=
  ⟨nVersion, nTime, prevouts.map fun o => ⟨o, [], UINT_MAX⟩, vout, 0, []⟩

/-- A block with a parent, whose target and Merkle root are the ones required. -/
def blockOn (e : Env) (pprev : CBlockIndex) (nTime : ℕ) (vtx : List CTransaction) : CBlock :=
  let block : CBlock := ⟨7, pprev.GetBlockHash, 0, nTime, GetNextTargetRequired e pprev false 0, 0,
    vtx, []⟩
  { block with hashMerkleRoot := block.BuildMerkleTree e }

/-- An empty block at time `nTime` on top of the block `hashPrev`, with the given coinbase. -/
structure Mining where
  hashPrev : uint256
  nTime : ℕ
  nVersion : ℤ
  reward : List CTxOut
  txs : List CTransaction

def mine (e : Env) (io : Io) (node : Node) (m : Mining) : Halt Node Node :=
  match node.mapBlockIndex m.hashPrev with
  | none => .error (.reject, node)
  | some pprev =>
    ProcessBlock e io node
      (blockOn e pprev m.nTime
        (coinbase (pprev.nHeight + 1) (m.nTime - 1) m.nVersion m.reward :: m.txs))

def mineAll (e : Env) (io : Io) (node : Node) (ms : List Mining) : Halt Node Node :=
  ms.foldlM (mine e io) node

def payTo (nValue : ℤ) : CTxOut := ⟨nValue, [0x51]⟩

/-- `OP_2` in front of the five arguments of a set of the name `[0x61]`. -/
def aliasSet : CScript :=
  [0x52, 1, 0x61, 1, 0x62, 1, 0x63, 1, 0x64, 1, 0x65, 0x6d, 0x6d, 0x75, 0x51]

/-- `OP_3` in front of the two arguments of a relay of the name `[0x61]`. -/
def aliasRelay : CScript := [0x53, 1, 0x61, 1, 0x62, 0x6d, 0x51]

/-- A block whose coinbase carries an alias output beside the full reward. -/
def rewarded (hashPrev : uint256) (nTime : ℕ) (script : CScript) : Mining :=
  ⟨hashPrev, nTime, CTransaction.DION_TX_VERSION, [payTo (625 * COIN), ⟨0, script⟩], []⟩

/-- The first blocks on top of the genesis block, one every thousand seconds, with a full reward. -/
def firstBlocks (n : ℕ) : List Mining :=
  (List.range n).map fun k =>
    ⟨if k = 0 then testNet.hashGenesisBlock else 1000 * k, 1000 * (k + 1), 1,
      [payTo (625 * COIN)], []⟩

def afterBlocks (ms : List Mining) : Halt Node Node :=
  LoadGenesis (timed testNet) io genesisBlock >>= fun node => mineAll (timed testNet) io node ms

def nextBlock (node : Node) (m : Mining) : CBlock :=
  match node.pindexBest with
  | none => genesisBlock
  | some pprev =>
    blockOn (timed testNet) pprev m.nTime
      (coinbase (pprev.nHeight + 1) (m.nTime - 1) m.nVersion m.reward :: m.txs)

/-- The node with the block written to disk, and the entry the block gets. -/
def stored (node : Node) (block : CBlock) : Node × CBlockIndex :=
  let (files, nFile, nBlockPos) := node.files.WriteToDisk block
  ({ node with files := files }, block.newIndex (timed testNet) nFile nBlockPos node.pindexBest)

def connectNext (node : Node) (m : Mining) : Halt Globals (TxIndexMap × Globals) :=
  (nextBlock node m).ConnectBlock (timed testNet) ((stored node (nextBlock node m)).1.view io)
    node.txdb.txindex node.toGlobals (stored node (nextBlock node m)).2

end Scenario

end Dions
