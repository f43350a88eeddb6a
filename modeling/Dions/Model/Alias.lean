import Dions.Model.TxDb

/-! # Aliases

The alias database, the maps of pending alias transactions, and the four functions that decode
alias transactions from the network: `ConnectInputsPost`, the two memory pool hooks and `filter`.
Every subscript into a vector of script arguments is a `read`. -/

namespace Dions

open Halting

def MAX_LOCATOR_LENGTH : ℕ := 684
def MAX_XUNIT_LENGTH : ℕ := 1024 * 1024
def MIN_SET_DEPTH : ℕ := 1

/-- The number of blocks for which a record is live. -/
def ChainParams.scaleMonitor (params : ChainParams) : ℕ :=
  if params.fTestNet then 200 else 210000

/-! ## The alias database and the pending maps -/

structure AliasIndex where
  txPos : CDiskTxPos
  nHeight : ℕ
  vValue : vchType
  vAddress : vchType
  deriving DecidableEq, Repr

/-- The records of `LocatorNodeDB`. -/
abbrev AliasDb := vchType → Option (List AliasIndex)

/-- A `std::map` from a name to a set of transaction hashes; an empty set is still an entry. -/
abbrev PendingMap := vchType → Option (Finset uint256)

namespace PendingMap

/-- `m[k]`, which makes an entry where there is none. -/
def touch (m : PendingMap) (k : vchType) : PendingMap :=
  Function.update m k (some ((m k).getD ∅))

def insert (m : PendingMap) (k : vchType) (hash : uint256) : PendingMap :=
  Function.update m k (some (Insert.insert hash ((m k).getD ∅)))

/-- `find` followed by `erase`, which makes no entry. -/
def erase (m : PendingMap) (k : vchType) (hash : uint256) : PendingMap :=
  match m k with
  | none => m
  | some s => Function.update m k (some (s.erase hash))

end PendingMap

/-- What connecting a block changes outside the database transaction. -/
structure Globals where
  mapState : PendingMap
  k1Export : PendingMap
  nMint : CBlockIndex → ℤ
  nMoneySupply : CBlockIndex → ℤ

/-- What validation reads of the node and never changes. -/
structure View where
  files : BlockFile
  mempool : CTxMemPool
  ln1Db : AliasDb
  nBestHeight : ℤ

def vtxPosOf (ln1Db : AliasDb) (v : vchType) : List AliasIndex := (ln1Db v).getD []

/-- The record of a name is the last of its list. -/
def aliasRecord (ln1Db : AliasDb) (v : vchType) : Option AliasIndex := (vtxPosOf ln1Db v).getLast?

def aliasTxPos (vtxPos : List AliasIndex) (txPos : CDiskTxPos) : Bool :=
  match vtxPos.getLast? with
  | none => false
  | some r => r.txPos == txPos

/-- The height of the record, or `-1`. -/
def aliasHeight (ln1Db : AliasDb) (vchAlias : vchType) : ℤ :=
  match aliasRecord ln1Db vchAlias with
  | none => -1
  | some r => r.nHeight

/-- A difference of heights compared with the unsigned `scaleMonitor()`: a negative one wraps. -/
def unsignedDiff (a b : ℤ) : ℕ := ((a - b) % 2 ^ 32).toNat

def CheckTransactionAtRelativeDepth (pindexBlock : Option CBlockIndex) (txindex : CTxIndex)
    (maxDepth : ℕ) : Option ℕ :=
  match pindexBlock with
  | none => none
  | some pindex => pindex.depthOf txindex.pos.nFile txindex.pos.nBlockPos maxDepth 0

/-! ## Signatures over message parts -/

variable (env : Env)

/-- An address that is no key address and a malformed signature raise exceptions. -/
def verifymessage (strAddress strSig : vchType) (parts : List vchType) : Exec Bool :=
  if !env.addressValid strAddress then .error .raised
  else
    match env.addressKeyID strAddress with
    | none => .error .raised
    | some keyID =>
      match env.decodeBase64 strSig with
      | none => .error .raised
      | some vchSig => .ok (env.recoverKeyID parts vchSig == some keyID)

/-! ## ConnectInputsPost -/

/-- The loop over the previous outputs: the answer `found`, with `prevOp`, `nInput` and
`vvchPrevArgs`. A later output whose first opcode is in range overwrites `prevOp`. -/
structure PrevAlias where
  found : Bool
  prevOp : Option ℕ
  nInput : ℕ
  vvchPrevArgs : List vchType
  deriving DecidableEq, Repr

def prevAliasLoop : List CTxOut → (i : ℕ) → PrevAlias → Exec PrevAlias
  | [], _, acc => .ok acc
  | out :: rest, i, acc =>
    let r := aliasScript out.scriptPubKey acc.prevOp
    if r.ret then
      if acc.found then .error .reject
      else prevAliasLoop rest (i + 1) ⟨true, r.op, i, r.vvch⟩
    else prevAliasLoop rest (i + 1) { acc with prevOp := r.op }

/-- The outputs `vTxPrev[i].vout[tx.vin[i].prevout.n]`. -/
def prevOutputs : List CTxIn → List CTransaction → Exec (List CTxOut)
  | [], _ => .ok []
  | _ :: _, [] => .error .undefined
  | txin :: vin, txPrev :: vTxPrev =>
    match txPrev.vout[txin.prevout.n]? with
    | none => .error .undefined
    | some out => do
      let rest ← prevOutputs vin vTxPrev
      .ok (out :: rest)

/-- The address the signature of an encrypted alias or of its decryption is checked against. -/
def signerAddress (vvchArgs vvchPrevArgs : List vchType) : Exec vchType := do
  let a ← read (if vvchPrevArgs.length ≠ 0 then vvchPrevArgs else vvchArgs) 2
  .ok (env.addressOf a)

/-- `OP_MESSAGE`, `OP_ENCRYPTED_MESSAGE`, `OP_MAP_PROJECT`, `OP_PUBLIC_KEY` and `OP_VERTEX` check
the signature in argument `nSig` over the text made of the arguments between it and the first two. -/
def checkMessage (vvchArgs : List vchType) (nSig : ℕ) : Exec Unit := do
  let sender ← read vvchArgs 0
  let _ ← read vvchArgs 1
  let _ ← read vvchArgs 2
  let sig ← read vvchArgs nSig
  let text := ((vvchArgs.drop 2).take (nSig - 2)).flatten
  let ok ← verifymessage env sender sig [text]
  require ok

def checkAliasEncrypted (tx : CTransaction) (vvchArgs vvchPrevArgs : List vchType) :
    Exec Unit := do
  let vchHash ← read vvchArgs 3
  require (vchHash.length = 20)
  let address ← signerAddress env vvchArgs vvchPrevArgs
  let encrypted ← read vvchArgs 0
  let value ← read vvchArgs 4
  let r ← read vvchArgs 5
  let sig ← read vvchArgs 1
  let ok ← verifymessage env address sig
    [encrypted, env.toString160 (uint160OfVch vchHash), value, r]
  require ok
  if r ≠ [48] ∧ !env.storeRandom tx then .error .raised else .ok ()

def checkAliasSet (prev : PrevAlias) (vvchArgs : List vchType) : Exec Unit := do
  require (prev.found ∧ prev.prevOp = some OP_ALIAS_ENCRYPTED)
  let address ← signerAddress env vvchArgs prev.vvchPrevArgs
  let sig ← read vvchArgs 1
  let vchAlias ← read vvchArgs 0
  let ok ← verifymessage env address sig [vchAlias]
  require ok
  let a ← read vvchArgs 2
  let b ← read prev.vvchPrevArgs 2
  require (a = b)
  let vchRand ← read vvchArgs 3
  require (vchRand.length ≤ 20)
  require (a.length ≤ MAX_XUNIT_LENGTH)
  let vchHash ← read prev.vvchPrevArgs 3
  require (uint160OfVch vchHash = env.Hash160 (vchRand ++ vchAlias))

def checkAliasRelay (prev : PrevAlias) (vvchArgs : List vchType) : Exec Unit := do
  require (prev.found ∧
    (prev.prevOp = some OP_ALIAS_SET ∨ prev.prevOp = some OP_ALIAS_RELAY))
  let value ← read vvchArgs 1
  require (value.length ≤ MAX_XUNIT_LENGTH)
  let prevName ← read prev.vvchPrevArgs 0
  let name ← read vvchArgs 0
  require (prevName = name)

/-- The switch over the ten opcodes. Only the exchange of keys and the miner's look at the pending
transactions touch the globals here. -/
def connectInputsSwitch (g : Globals) (mapTestPool : TxIndexMap) (tx : CTransaction)
    (prev : PrevAlias) (vTxindex : List CTxIndex) (pindexBlock : Option CBlockIndex)
    (fBlock fMiner : Bool) (op : ℕ) (vvchArgs : List vchType) : Halt Globals Globals :=
  if op = OP_PUBLIC_KEY ∨ op = OP_VERTEX then do
    (checkMessage env vvchArgs 4).within g
    let a ← (read vvchArgs 0).within g
    let b ← (read vvchArgs 1).within g
    if (g.k1Export (a ++ b)).isNone then
      .ok { g with k1Export := g.k1Export.insert (a ++ b) (tx.GetHash env) }
    else .ok g
  else if op = OP_ENCRYPTED_MESSAGE ∨ op = OP_MAP_PROJECT then do
    (checkMessage env vvchArgs 4).within g
    .ok g
  else if op = OP_MESSAGE then do
    (checkMessage env vvchArgs 3).within g
    .ok g
  else if op = OP_ALIAS_ENCRYPTED then do
    (checkAliasEncrypted env tx vvchArgs prev.vvchPrevArgs).within g
    .ok g
  else if op = OP_ALIAS_SET then do
    (checkAliasSet env prev vvchArgs).within g
    let txindex ← (access vTxindex prev.nInput).within g
    (require (¬((fBlock ∨ fMiner) ∧
      (CheckTransactionAtRelativeDepth pindexBlock txindex MIN_SET_DEPTH).isSome))).within g
    if fMiner then do
      (require ((CheckTransactionAtRelativeDepth pindexBlock txindex
        env.scaleMonitor).isSome)).within g
      let name ← (read vvchArgs 0).within g
      let g' := { g with mapState := g.mapState.touch name }
      (require (∀ h ∈ (g.mapState name).getD ∅, mapTestPool h = none)).within g'
      .ok g'
    else .ok g
  else if op = OP_ALIAS_RELAY then do
    (checkAliasRelay prev vvchArgs).within g
    let txindex ← (access vTxindex prev.nInput).within g
    (require (¬((fBlock ∨ fMiner) ∧
      (CheckTransactionAtRelativeDepth pindexBlock txindex env.scaleMonitor).isNone))).within g
    .ok g
  else .error (.reject, g)

/-- In a block nothing is compared with the alias database: only outside one does a relay have to
spend the transaction that the record of the name points to. -/
def ConnectInputsPost (view : View) (g : Globals) (mapTestPool : TxIndexMap) (tx : CTransaction)
    (vTxPrev : List CTransaction) (vTxindex : List CTxIndex) (pindexBlock : Option CBlockIndex)
    (fBlock fMiner : Bool) : Halt Globals Globals :=
  if tx.nVersion ≠ CTransaction.DION_TX_VERSION then .ok g
  else do
    let outs ← (prevOutputs tx.vin vTxPrev).within g
    let prev ← (prevAliasLoop outs 0 ⟨false, none, 0, []⟩).within g
    let t := aliasTx tx
    (require (t.ret = true)).within g
    let vvchArgs := t.vvch
    let name ← (read vvchArgs 0).within g
    (require (name.length ≤ MAX_LOCATOR_LENGTH)).within g
    let op := t.op.getD 0
    let g ← connectInputsSwitch env g mapTestPool tx prev vTxindex pindexBlock fBlock fMiner op
      vvchArgs
    if !fBlock ∧ op = OP_ALIAS_RELAY then do
      let txindex ← (access vTxindex prev.nInput).within g
      (require (aliasTxPos (vtxPosOf view.ln1Db name) txindex.pos = true)).within g
      .ok g
    else if fBlock ∧ op ≠ OP_ALIAS_ENCRYPTED then
      .ok { g with mapState := g.mapState.erase name (tx.GetHash env) }
    else .ok g

/-! ## The memory pool hooks -/

/-- `AcceptToMemoryPool` ignores the answer, so only the change of `mapState` remains. -/
def AcceptToMemoryPoolPost (view : View) (g : Globals) (tx : CTransaction) :
    Halt Globals Globals :=
  if tx.nVersion ≠ CTransaction.DION_TX_VERSION then .ok g
  else do
    (require (1 ≤ tx.vout.length)).within g
    let t := aliasTx tx
    (require (t.ret = true)).within g
    let op := t.op.getD 0
    if op = OP_ALIAS_SET then do
      let name ← (read t.vvch 0).within g
      (require (name.length ≤ MAX_LOCATOR_LENGTH)).within g
      let nPrevHeight := aliasHeight view.ln1Db name
      (require (¬(0 ≤ nPrevHeight ∧
        unsignedDiff view.nBestHeight nPrevHeight < env.scaleMonitor))).within g
      .ok { g with mapState := g.mapState.insert name (tx.GetHash env) }
    else if op ≠ OP_ALIAS_ENCRYPTED then do
      let name ← (read t.vvch 0).within g
      .ok { g with mapState := g.mapState.insert name (tx.GetHash env) }
    else .ok g

/-- The maps `RemoveFromMemoryPoolPost` takes the transaction out of. -/
def RemoveFromMemoryPoolPost (g : Globals) (tx : CTransaction) : Halt Globals Globals :=
  if tx.nVersion ≠ CTransaction.DION_TX_VERSION then .ok g
  else if tx.vout.length < 1 then .ok g
  else
    let t := aliasTx tx
    if !t.ret then .ok g
    else do
      let op := t.op.getD 0
      let g ←
        if op ≠ OP_ALIAS_ENCRYPTED then do
          let name ← (read t.vvch 0).within g
          .ok { g with mapState := g.mapState.erase name (tx.GetHash env) }
        else .ok g
      if op = OP_PUBLIC_KEY ∨ op = OP_VERTEX then do
        let a ← (read t.vvch 0).within g
        let b ← (read t.vvch 1).within g
        .ok { g with k1Export := g.k1Export.erase (a ++ b) (tx.GetHash env) }
      else .ok g

/-! ## filter -/

/-- `GetTransaction(hash, tx, h)` without the memory pool. -/
def GetTransaction (files : BlockFile) (txdb : TxIndexMap) (hash : uint256) :
    Option CTransaction :=
  (CTransaction.ReadFromDisk files txdb ⟨hash, 0⟩).map Prod.snd

/-- What `filter` writes for one alias operation: a set takes a free or expired name, a relay
replaces the record of any name that has one. -/
def putAlias (ln1Db : AliasDb) (op : ℕ) (vvchArgs : List vchType) (r : AliasIndex) :
    Exec AliasDb := do
  let name ← read vvchArgs 0
  if op = OP_ALIAS_SET then
    match ln1Db name with
    | none => .ok (Function.update ln1Db name (some [r]))
    | some v =>
      match v.getLast? with
      | none => .error .undefined
      | some t =>
        if env.scaleMonitor ≤ unsignedDiff r.nHeight t.nHeight then
          .ok (Function.update ln1Db name (some [r]))
        else .ok ln1Db
  else
    match ln1Db name with
    | none => .ok ln1Db
    | some _ => do
      let value ← read vvchArgs 1
      .ok (Function.update ln1Db name (some [{ r with vValue := value }]))

/-- One transaction of `filter`, with the transaction its variable holds afterwards, whose size
moves the position on. The answer of `aliasTx` is not looked at, and `op` may never have been
assigned. -/
def filterTx (files : BlockFile) (txdb : TxIndexMap) (pindex : CBlockIndex) (ln1Db : AliasDb)
    (txPos : CDiskTxPos) (tx : CTransaction) : Halt AliasDb (AliasDb × CTransaction) :=
  if tx.nVersion ≠ CTransaction.DION_TX_VERSION then .ok (ln1Db, tx)
  else
    let t := aliasTx tx
    let op := t.op.getD (env.unassigned tx)
    if op = OP_ALIAS_SET ∨ op = OP_ALIAS_RELAY then do
      let _ ← (read t.vvch 0).within ln1Db
      match GetTransaction files txdb (tx.GetHash env) with
      | none => .ok (ln1Db, CTransaction.null 0)
      | some tx' =>
        match tx'.vout[t.nOut.getD 0]? with
        | none => .error (.undefined, ln1Db)
        | some txout =>
          match aliasStrip txout.scriptPubKey with
          | none => .error (.raised, ln1Db)
          | some scriptPubKey =>
            if (txdb (tx'.GetHash env)).isSome then do
              let r : AliasIndex := ⟨txPos, pindex.nHeight, [], env.scriptAddress scriptPubKey⟩
              let ln1Db' ← (putAlias env ln1Db op t.vvch r).within ln1Db
              .ok (ln1Db', tx')
            else .ok (ln1Db, tx')
    else .ok (ln1Db, tx)

def filterLoop (files : BlockFile) (txdb : TxIndexMap) (pindex : CBlockIndex) :
    (nTxPos : ℕ) → List CTransaction → AliasDb → Halt AliasDb AliasDb
  | _, [], ln1Db => .ok ln1Db
  | nTxPos, tx :: vtx, ln1Db => do
    let (ln1Db', tx') ← filterTx env files txdb pindex ln1Db
      ⟨pindex.nFile, pindex.nBlockPos, nTxPos⟩ tx
    filterLoop files txdb pindex (nTxPos + tx'.GetSerializeSize) vtx ln1Db'

/-- The answer of `ReadFromDisk` is not looked at: a block that cannot be read has no
transactions, one whose header fails the checks is used all the same. -/
def filterBlock (files : BlockFile) (pindex : CBlockIndex) : List CTransaction :=
  match files.blocks (pindex.nFile, pindex.nBlockPos) with
  | none => []
  | some block => block.vtx

def LocatorNodeDB.filter (files : BlockFile) (txdb : TxIndexMap) (ln1Db : AliasDb)
    (pindex : CBlockIndex) : Halt AliasDb AliasDb :=
  let vtx := filterBlock files pindex
  filterLoop env files txdb pindex (firstTxPos pindex.nBlockPos vtx.length) vtx ln1Db

/-- The blocks that a scan does not pass over. -/
def Scanned (pindex : CBlockIndex) : Prop := env.fTestNet = true ∨ 1625000 ≤ pindex.nHeight

instance (pindex : CBlockIndex) : Decidable (Scanned env pindex) := instDecidableOr

/-- The scan along the links, with a bound on its steps. -/
def xsc (files : BlockFile) (txdb : TxIndexMap) (pnext : CBlockIndex → Option CBlockIndex) :
    (fuel : ℕ) → Option CBlockIndex → AliasDb → Halt AliasDb AliasDb
  | _, none, ln1Db => .ok ln1Db
  | 0, some _, ln1Db => .error (.undefined, ln1Db)
  | fuel + 1, some p, ln1Db =>
    if Scanned env p then do
      let ln1Db ← LocatorNodeDB.filter env files txdb ln1Db p
      xsc files txdb pnext fuel (pnext p) ln1Db
    else xsc files txdb pnext fuel (pnext p) ln1Db

end Dions
