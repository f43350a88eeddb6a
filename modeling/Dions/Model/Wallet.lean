import Dions.Model.Mempool

/-! # The wallet

Transactions of the wallet with the flags of their spent outputs, and how a transaction enters the
wallet or is updated in it. `WxTx` and `Wx` are `__wx__Tx` and `__wx__`; log lines, notifications
and the order of the entries are left out. -/

namespace Dions

open Halting

/-! ## Transactions of the wallet -/

structure WxTx extends CTransaction where
  hashBlock : uint256
  vMerkleBranch : List uint256
  nIndex : ℤ
  fFromMe : Bool
  vfSpent : List Bool
  deriving DecidableEq, Repr

namespace WxTx

/-- What the constructor makes of a transaction. -/
def ofTx (tx : CTransaction) : WxTx :=
  { tx with hashBlock := 0, vMerkleBranch := [], nIndex := -1, fFromMe := false, vfSpent := [] }

/-- `vfSpent.resize(vout.size())`. -/
def resized (wtx : WxTx) : List Bool :=
  (wtx.vfSpent ++ List.replicate wtx.vout.length false).take wtx.vout.length

def IsSpent (wtx : WxTx) (nOut : ℕ) : Exec Bool :=
  if wtx.vout.length ≤ nOut then .error .raised else .ok (wtx.vfSpent.getD nOut false)

/-- `MarkSpent` and `MarkUnspent`, with the value they write. -/
def mark (fSpent : Bool) (wtx : WxTx) (nOut : ℕ) : Exec WxTx :=
  if wtx.vout.length ≤ nOut then .error .raised
  else .ok { wtx with vfSpent := wtx.resized.set nOut fSpent }

def MarkSpent : WxTx → ℕ → Exec WxTx := mark true

def MarkUnspent : WxTx → ℕ → Exec WxTx := mark false

/-- The flags after those of another copy are taken over. -/
def mergeSpent : List Bool → List Bool → List Bool
  | fNew :: vfNewSpent, f :: vfSpent => (fNew || f) :: mergeSpent vfNewSpent vfSpent
  | _, vfSpent => vfSpent

/-- Whether any update took place comes first. -/
def UpdateSpent (wtx : WxTx) (vfNewSpent : List Bool) : Bool × WxTx :=
  (mergeSpent vfNewSpent wtx.vfSpent != wtx.vfSpent,
    { wtx with vfSpent := mergeSpent vfNewSpent wtx.vfSpent })

end WxTx

variable (env : Env)

/-- The neighbours of the path from a leaf to the root, level by level. -/
def CBlock.merkleBranch : (fuel : ℕ) → List uint256 → ℕ → List uint256
  | 0, _, _ => []
  | fuel + 1, level, nIndex =>
    if level.length ≤ 1 then []
    else level.getD (min (nIndex ^^^ 1) (level.length - 1)) 0 ::
      merkleBranch fuel (merkleLevel env level) (nIndex / 2)

def CBlock.GetMerkleBranch (block : CBlock) (nIndex : ℕ) : List uint256 :=
  merkleBranch env block.vtx.length (block.vtx.map (CTransaction.GetHash env)) nIndex

def WxTx.SetMerkleBranch (wtx : WxTx) (pblock : CBlock) : WxTx :=
  let wtx := { wtx with hashBlock := pblock.GetHash env }
  match pblock.vtx.findIdx? fun tx => tx.same wtx.toCTransaction with
  | some nIndex =>
    { wtx with nIndex := nIndex, vMerkleBranch := pblock.GetMerkleBranch env nIndex }
  | none => { wtx with nIndex := -1, vMerkleBranch := [] }

/-! ## The key store and the rest of the outside -/

/-- What the wallet asks of its keys, of which `κ` is the store, and of the command line. -/
structure WalletKeys (κ : Type) where
  /-- Whether an output script pays a key of the store. -/
  IsMine : κ → CScript → Bool
  /-- `__xfa`: whether an output is a payment to a stealth address, the key of which is stored. -/
  xfa : κ → List CTxOut → Bool × κ
  /-- If an output pays the default key, a key of the pool takes its place. -/
  replaceDefaultKey : κ → List CTxOut → κ
  /-- `collx`: a key exchange of two aliases of ours. -/
  collx : (uint256 → Option WxTx) → CTransaction → Bool
  nMinimumInputValue : ℤ

/-- What the outside world answers in a call. -/
structure WalletIo where
  /-- The time of a default-constructed transaction. -/
  nAdjustedTime : ℕ
  /-- Whether `WriteToDisk` fails for the transaction. -/
  writeFails : WxTx → Bool
  /-- Whether `AcceptToMemoryPool` takes the transaction. -/
  accepted : Bool

structure Wx (κ : Type) where
  mapWallet : uint256 → Option WxTx
  keys : κ

variable {κ : Type} (ks : WalletKeys κ)

namespace Wx

def put (w : Wx κ) (hash : uint256) (wtx : WxTx) : Wx κ :=
  { w with mapWallet := Function.update w.mapWallet hash (some wtx) }

/-! ## Ownership -/

def IsMine (w : Wx κ) (txout : CTxOut) : Bool := ks.IsMine w.keys txout.scriptPubKey

/-- `IsMine` of a transaction; the search for stealth payments may store keys. -/
def IsMineTx (w : Wx κ) (tx : CTransaction) : Bool × Wx κ :=
  let (s, keys) := ks.xfa w.keys tx.vout
  let w := { w with keys := keys }
  (tx.vout.any (fun txout => w.IsMine ks txout &&
    ((tx.nVersion == CTransaction.DION_TX_VERSION && ks.nMinimumInputValue ≤ txout.nValue) ||
      ks.nMinimumInputValue < txout.nValue)) || s, w)

def debitOf (w : Wx κ) (txin : CTxIn) : ℤ :=
  match w.mapWallet txin.prevout.hash with
  | none => 0
  | some prev =>
    match prev.vout[txin.prevout.n]? with
    | none => 0
    | some txout => if w.IsMine ks txout then txout.nValue else 0

def debitFrom (w : Wx κ) : List CTxIn → ℤ → Exec ℤ
  | [], nDebit => .ok nDebit
  | txin :: vin, nDebit =>
    let nDebit := int64 (nDebit + w.debitOf ks txin)
    if MoneyRange nDebit then debitFrom w vin nDebit else .error .raised

def GetDebit (w : Wx κ) (tx : CTransaction) : Exec ℤ := w.debitFrom ks tx.vin 0

/-! ## Spent flags -/

/-- The flag of the output that an input spends, if the output is ours. -/
def spendInput (w : Wx κ) (txin : CTxIn) : Halt (Wx κ) (Wx κ) :=
  match w.mapWallet txin.prevout.hash with
  | none => .ok w
  | some wtx =>
    match wtx.vout[txin.prevout.n]? with
    | none => .ok w
    | some txout => do
      let fSpent ← (wtx.IsSpent txin.prevout.n).within w
      if !fSpent && w.IsMine ks txout then
        let wtx ← (wtx.MarkSpent txin.prevout.n).within w
        .ok (w.put txin.prevout.hash wtx)
      else .ok w

def spendInputs (vin : List CTxIn) (w : Wx κ) : Halt (Wx κ) (Wx κ) :=
  vin.foldlM (spendInput ks) w

/-- The flags of outputs of ours are taken away; an entry that is not there has no flags. -/
def unspendOutput (hash : uint256) (w : Wx κ) (out : CTxOut × ℕ) : Halt (Wx κ) (Wx κ) :=
  if w.IsMine ks out.1 then
    match w.mapWallet hash with
    | none => .error (.undefined, w)
    | some wtx => do
      let wtx ← (wtx.MarkUnspent out.2).within w
      .ok (w.put hash wtx)
  else .ok w

def unspendOutputs (hash : uint256) (vout : List CTxOut) (w : Wx κ) : Halt (Wx κ) (Wx κ) :=
  vout.zipIdx.foldlM (unspendOutput ks hash) w

def WalletUpdateSpent (tx : CTransaction) (fBlock : Bool) (w : Wx κ) : Halt (Wx κ) (Wx κ) := do
  let w ← spendInputs ks tx.vin w
  if fBlock then unspendOutputs ks (tx.GetHash env) tx.vout w else .ok w

/-! ## Entering the wallet -/

/-- The entry takes over what a newer copy of the transaction knows. -/
def merge (wtx wtxIn : WxTx) : Bool × WxTx :=
  let fBlock := wtxIn.hashBlock ≠ 0 ∧ wtxIn.hashBlock ≠ wtx.hashBlock
  let fBranch := wtxIn.nIndex ≠ -1 ∧
    (wtxIn.vMerkleBranch ≠ wtx.vMerkleBranch ∨ wtxIn.nIndex ≠ wtx.nIndex)
  let fMine := wtxIn.fFromMe = true ∧ wtxIn.fFromMe ≠ wtx.fFromMe
  let updated := wtx.UpdateSpent wtxIn.vfSpent
  (decide (fBlock ∨ fBranch ∨ fMine) || updated.1,
    { updated.2 with
      hashBlock := if fBlock then wtxIn.hashBlock else wtx.hashBlock
      vMerkleBranch := if fBranch then wtxIn.vMerkleBranch else wtx.vMerkleBranch
      nIndex := if fBranch then wtxIn.nIndex else wtx.nIndex
      fFromMe := if fMine then wtxIn.fFromMe else wtx.fFromMe })

/-- The entry to be, and whether it has to be written. -/
def entered (w : Wx κ) (hash : uint256) (wtxIn : WxTx) : Bool × WxTx :=
  match w.mapWallet hash with
  | none => (true, wtxIn)
  | some wtx => merge wtx wtxIn

def AddToWallet (io : WalletIo) (wtxIn : WxTx) (w : Wx κ) : Halt (Wx κ) (Wx κ) :=
  let hash := wtxIn.GetHash env
  let (fWrite, wtx) := w.entered hash wtxIn
  let w := w.put hash wtx
  if fWrite && io.writeFails wtx then .error (.reject, w)
  else
    let w := { w with keys := ks.replaceDefaultKey w.keys wtx.vout }
    w.WalletUpdateSpent env ks wtx.toCTransaction (wtxIn.hashBlock != 0)

/-- The keys that the search for stealth payments finds stay, whatever the answer is. -/
def AddToWalletIfInvolvingMe (io : WalletIo) (tx : CTransaction) (pblock : Option CBlock)
    (fUpdate : Bool) (w : Wx κ) : Halt (Wx κ) (Wx κ) :=
  let wtx := match pblock with
    | none => WxTx.ofTx tx
    | some pblock => (WxTx.ofTx tx).SetMerkleBranch env pblock
  if (w.mapWallet (tx.GetHash env)).isSome then
    if fUpdate then w.AddToWallet env ks io wtx else .error (.reject, w)
  else
    let (fMine, w) := w.IsMineTx ks tx
    if fMine then w.AddToWallet env ks io wtx
    else do
      let nDebit ← (w.GetDebit ks tx).within w
      if 0 < nDebit ∨ ks.collx w.mapWallet tx = true then w.AddToWallet env ks io wtx
      else
        let w ← w.WalletUpdateSpent env ks tx false
        .error (.reject, w)

/-! ## Sending -/

/-- `mapWallet[hash]` makes an entry where there is none. -/
def markCoin (io : WalletIo) (w : Wx κ) (txin : CTxIn) : Halt (Wx κ) (Wx κ) := do
  let coin := (w.mapWallet txin.prevout.hash).getD
    (WxTx.ofTx (CTransaction.null io.nAdjustedTime))
  let w := w.put txin.prevout.hash coin
  let coin ← (coin.MarkSpent txin.prevout.n).within w
  .ok (w.put txin.prevout.hash coin)

def markCoins (io : WalletIo) (vin : List CTxIn) (w : Wx κ) : Halt (Wx κ) (Wx κ) :=
  vin.foldlM (markCoin io) w

/-- The transaction is recorded before the memory pool is asked. -/
def CommitTransaction__ (io : WalletIo) (wtxNew : WxTx) (w : Wx κ) : Halt (Wx κ) (Wx κ) := do
  let w ← (w.AddToWallet env ks io wtxNew).attempt
  let w ← markCoins io wtxNew.vin w
  if io.accepted then .ok w else .error (.reject, w)

/-- The same after the search for stealth payments. -/
def CommitTransaction (io : WalletIo) (wtxNew : WxTx) (w : Wx κ) : Halt (Wx κ) (Wx κ) := do
  let w := { w with keys := (ks.xfa w.keys wtxNew.vout).2 }
  let w ← (w.AddToWallet env ks io wtxNew).attempt
  let w ← markCoins io wtxNew.vin w
  if io.accepted then .ok w else .error (.reject, w)

/-- Whether a coin is among those offered for spending. `usable` stands for the tests of the
transaction as a whole: final, trusted, mature, and not in conflict with the chain. -/
def AvailableCoins (w : Wx κ) (usable : WxTx → Bool) (selected : COutPoint → Bool)
    (coin : COutPoint) : Exec Bool :=
  match w.mapWallet coin.hash with
  | none => .ok false
  | some pcoin =>
    match pcoin.vout[coin.n]? with
    | none => .ok false
    | some txout => do
      let fSpent ← pcoin.IsSpent coin.n
      .ok (usable pcoin && !fSpent && w.IsMine ks txout &&
        ks.nMinimumInputValue < txout.nValue && selected coin)

end Wx

/-! ## The Merkle tree of a block in memory

`BuildMerkleTree` appends level after level to one array, and `GetMerkleBranch` reads branches out of
it. The counters of the loops stay below the length of the array. -/

namespace MerkleTree

/-- The inner loop of `BuildMerkleTree` at `i`. -/
def pushParent (j nSize : ℕ) (vMerkleTree : List uint256) (i : ℕ) : List uint256 :=
  let i2 := min (i + 1) (nSize - 1)
  vMerkleTree ++ [env.hashPair (vMerkleTree.getD (j + i) 0) (vMerkleTree.getD (j + i2) 0)]

/-- The values of `i` in the inner loop: every second number below `nSize`. -/
def pairStarts (nSize : ℕ) : List ℕ := (List.range ((nSize + 1) / 2)).map (2 * ·)

/-- The outer loop of `BuildMerkleTree`. -/
def pushLevels : (fuel : ℕ) → (vMerkleTree : List uint256) → (j nSize : ℕ) → List uint256
  | 0, vMerkleTree, _, _ => vMerkleTree
  | fuel + 1, vMerkleTree, j, nSize =>
    if 1 < nSize then
      pushLevels fuel ((pairStarts nSize).foldl (pushParent env j nSize) vMerkleTree) (j + nSize)
        ((nSize + 1) / 2)
    else vMerkleTree

/-- `vMerkleTree` after `BuildMerkleTree`. Every level is smaller than the one below, so as many
rounds as transactions are enough. -/
def build (vtx : List CTransaction) : List uint256 :=
  pushLevels env vtx.length (vtx.map (CTransaction.GetHash env)) 0 vtx.length

/-- The loop of `GetMerkleBranch`. -/
def readLevels (vMerkleTree : List uint256) : (fuel : ℕ) → (j nSize nIndex : ℕ) → List uint256
  | 0, _, _, _ => []
  | fuel + 1, j, nSize, nIndex =>
    if 1 < nSize then
      let i := min (nIndex ^^^ 1) (nSize - 1)
      vMerkleTree.getD (j + i) 0 ::
        readLevels vMerkleTree fuel (j + nSize) ((nSize + 1) / 2) (nIndex / 2)
    else []

/-- The loop of `CheckMerkleBranch`; the shift of a negative index keeps its sign. -/
def foldBranch : (hash : uint256) → (vMerkleBranch : List uint256) → (nIndex : ℤ) → uint256
  | hash, [], _ => hash
  | hash, otherside :: vMerkleBranch, nIndex =>
    foldBranch (if nIndex % 2 = 1 then env.hashPair otherside hash else env.hashPair hash otherside)
      vMerkleBranch (nIndex / 2)

end MerkleTree

/-- A block with its member `vMerkleTree`, which is in memory only: it is empty until a tree is
built, and whoever changes `vtx` builds the tree again. -/
structure CachedBlock extends CBlock where
  vMerkleTree : List uint256
  built : vMerkleTree = [] ∨ vMerkleTree = MerkleTree.build env vtx

namespace CachedBlock

variable {env}

variable (block : CachedBlock env)

def BuildMerkleTree : uint256 × CachedBlock env :=
  let vMerkleTree := MerkleTree.build env block.vtx
  (vMerkleTree.getLastD 0, { block with vMerkleTree := vMerkleTree, built := .inr rfl })

def GetMerkleBranch (nIndex : ℕ) : List uint256 × CachedBlock env :=
  let block := if block.vMerkleTree.isEmpty then block.BuildMerkleTree.2 else block
  (MerkleTree.readLevels block.vMerkleTree block.vtx.length 0 block.vtx.length nIndex, block)

end CachedBlock

def CBlock.CheckMerkleBranch (hash : uint256) (vMerkleBranch : List uint256) (nIndex : ℤ) : uint256 :=
  if nIndex = -1 then 0 else MerkleTree.foldBranch env hash vMerkleBranch nIndex

/-! ## Giving an order to an old wallet

Transactions and accounting entries are visited in the order of their times. Those without a place
get the next free one, and those that have a place are moved up. -/

open Halting

structure CAccountingEntry where
  strAccount : List UInt8
  nEntryNo : ℕ
  nTime : ℤ
  nOrderPos : ℤ
  deriving DecidableEq, Repr

/-- What `ReorderTransactions` reads of a transaction of the wallet. -/
structure ReceivedTx where
  nTimeReceived : ℤ
  nOrderPos : ℤ
  deriving DecidableEq, Repr

/-- The entries from the first one of the account on, as the cursor finds them; `*` stands for all
accounts. -/
def ListAccountCreditDebit (strAccount : List UInt8) (records : List CAccountingEntry) :
    List CAccountingEntry :=
  if strAccount = [0x2a] then records
  else records.takeWhile fun acentry => acentry.strAccount == strAccount

/-- An element of the map, which points to a transaction or to an entry. -/
structure OrderItem where
  fEntry : Bool
  nTime : ℤ
  nOrderPos : ℤ
  deriving DecidableEq, Repr

/-- Everything that is visited, in the order of insertion. -/
def orderItems (mapWallet : List ReceivedTx) (acentries : List CAccountingEntry) : List OrderItem :=
  mapWallet.map (fun wtx => ⟨false, wtx.nTimeReceived, wtx.nOrderPos⟩) ++
    acentries.map fun entry => ⟨true, entry.nTime, entry.nOrderPos⟩

/-- `multimap::insert`: behind the elements with an equal key. -/
def insertByTime (m : List (ℤ × ℕ)) (x : ℤ × ℕ) : List (ℤ × ℕ) :=
  m.takeWhile (fun y => y.1 ≤ x.1) ++ x :: m.dropWhile fun y => y.1 ≤ x.1

/-- The numbers of the items in the order of their times. -/
def txByTime (items : List OrderItem) : List ℕ :=
  ((items.zipIdx.map fun x => (x.1.nTime, x.2)).foldl insertByTime []).map Prod.snd

structure Reordering where
  items : List OrderItem
  nOrderPosNext : ℤ
  nOrderPosOffsets : List ℤ
  deriving DecidableEq, Repr

/-- Whether a record with the item of this number cannot be written. -/
abbrev WriteFails := ℕ → Bool

/-- One round of the loop: the item is changed in its place. -/
def reorderItem (fails : WriteFails) (s : Reordering) (it : ℕ) : Halt Reordering Reordering :=
  match s.items[it]? with
  | none => .error (.undefined, s)
  | some item =>
    if item.nOrderPos = -1 then
      let s : Reordering :=
        { items := s.items.set it { item with nOrderPos := s.nOrderPosNext }
          nOrderPosNext := s.nOrderPosNext + 1
          nOrderPosOffsets := s.nOrderPosOffsets ++ [s.nOrderPosNext] }
      -- an entry is written in any case, a transaction is kept in memory
      if item.fEntry && fails it then .error (.reject, s) else .ok s
    else
      let nOrderPosOff : ℕ := s.nOrderPosOffsets.countP (· ≤ item.nOrderPos)
      let nOrderPos := item.nOrderPos + nOrderPosOff
      let s : Reordering :=
        { s with
          items := s.items.set it { item with nOrderPos }
          nOrderPosNext := max s.nOrderPosNext (nOrderPos + 1) }
      if nOrderPosOff ≠ 0 ∧ fails it then .error (.reject, s) else .ok s

/-- The loop over everything that was found. -/
def reorder (fails : WriteFails) (items : List OrderItem) : Halt Reordering Reordering :=
  (txByTime items).foldlM (reorderItem fails) ⟨items, 0, []⟩

def ReorderTransactions (fails : WriteFails) (mapWallet : List ReceivedTx)
    (records : List CAccountingEntry) : Halt Reordering Reordering :=
  reorder fails (orderItems mapWallet (ListAccountCreditDebit [] records))

end Dions
