import Mathlib.Data.List.Lex
import Dions.Model.KeyStore
import Dions.Model.Wallet

/-! # Looking up the aliases of the wallet

`aliasOut` and `getNodeRecord` walk through `mapWallet`, from the smallest hash to the largest, with a
table of the greatest height that has been seen under each name. -/

namespace Dions

open Halting

def RPC_TYPE_ERROR : ℤ := -3

/-- Why a call ends with an exception, or has no defined end. -/
inductive LookupStop where
  | within (e : Stop)
  | runtimeError (what : String)
  | rpcError (code : ℤ) (message : String)
  | gzipError
  deriving DecidableEq, Repr

/-- A transaction of the wallet with two members that are in memory only. -/
structure AliasWalletTx extends WxTx where
  fMerkleVerified : Bool
  /-- No constructor sets the member `op__`: until `aliasSet` meets an encrypted alias it is whatever
  the memory held. -/
  op__ : ℕ
  deriving DecidableEq, Repr

/-- The node, the keys of the wallet and the ciphers, as the lookups use them. -/
structure LookupEnv extends Env where
  node : Node
  hashMerkleRoot : CBlockIndex → uint256
  /-- `GetKey` of the wallet, followed by `GetPubKey` of the key. -/
  GetKey : CKeyID → Option CPubKey
  /-- `envCP0`: the RSA key that goes with a public key. -/
  envCP0 : CPubKey → Option vchType
  /-- `DecryptMessage`; without an answer the text it would go to is left alone. -/
  DecryptMessage : (rsaPrivKey encrypted : vchType) → Option vchType
  /-- Whether `Solver` finds an input script with the keys of the wallet. -/
  Solver : CScript → Bool
  /-- Whether the directory of an output path is there. -/
  pathExists : vchType → Bool
  /-- The text that `gzip_decompressor` makes of a value; without one it throws. -/
  gunzip : vchType → Option vchType

namespace AliasWalletTx

variable (tx : AliasWalletTx)

/-! ## One transaction -/

/-- `op_ret`, `nm` and `val`, when `aliasSet` returns true. -/
def aliasSet : Exec (Option (ℕ × vchType × vchType)) :=
  if tx.nVersion ≠ CTransaction.DION_TX_VERSION then .ok none
  else
    let t := aliasTx tx.toCTransaction
    if !t.ret then .ok none
    else if t.op = some OP_ALIAS_SET then do
      let vchAlias ← read t.vvch 0
      let vchValue ← read t.vvch 4
      .ok (some (tx.op__, vchAlias, vchValue))
    else if t.op = some OP_ALIAS_RELAY then do
      let vchAlias ← read t.vvch 0
      let vchValue ← read t.vvch 1
      .ok (some (tx.op__, vchAlias, vchValue))
    else if t.op = some OP_ALIAS_ENCRYPTED then do
      let vchAlias ← read t.vvch 0
      let vchValue ← read t.vvch 4
      .ok (some (OP_ALIAS_ENCRYPTED, vchAlias, vchValue))
    else .ok none

variable (le : LookupEnv)

/-- The depth, and the height that goes with a depth other than zero. -/
def GetDepthInMainChain : ℤ × ℤ :=
  if tx.hashBlock = 0 ∨ tx.nIndex = -1 then (0, 0)
  else
    match le.node.mapBlockIndex tx.hashBlock with
    | none => (0, 0)
    | some pindex =>
      if !le.node.IsInMainChain pindex then (0, 0)
      else if !tx.fMerkleVerified ∧ CBlock.CheckMerkleBranch le.toEnv
          (tx.toCTransaction.GetHash le.toEnv) tx.vMerkleBranch tx.nIndex ≠ le.hashMerkleRoot pindex then
        (0, 0)
      else (le.node.nBestHeight - pindex.nHeight + 1, pindex.nHeight)

/-- It is `-1` or the height of an index entry, so the assertion behind it holds. -/
def GetHeightInMainChain : ℤ :=
  let (nDepth, nHeight) := tx.GetDepthInMainChain le
  if nDepth = 0 then -1 else nHeight

/-- The text is empty where no alias is found. -/
def aliasAddress : Exec vchType :=
  let t := aliasTx tx.toCTransaction
  if !t.ret then .ok []
  else do
    let txout ← access tx.vout (t.nOut.getD 0)
    match aliasStrip txout.scriptPubKey with
    | none => .error .raised
    | some scriptPubKey => .ok (le.scriptAddress scriptPubKey)

def IsMinePost : Exec Bool :=
  if tx.nVersion ≠ CTransaction.DION_TX_VERSION then .ok false
  else
    let t := aliasTx tx.toCTransaction
    if !t.ret then .ok false
    else do
      let txout ← access tx.vout (t.nOut.getD 0)
      match aliasStrip txout.scriptPubKey with
      | none => .error .raised
      | some scriptPubKey => .ok (le.Solver scriptPubKey)

end AliasWalletTx

variable (le : LookupEnv)

/-- The RSA key for an address; without one the record is passed over. -/
def rsaPrivKeyOf (strAddress : vchType) : Except LookupStop (Option vchType) :=
  if !le.addressValid strAddress then .error (.rpcError RPC_TYPE_ERROR "Invalid address")
  else
    match le.addressKeyID strAddress with
    | none => .error (.rpcError RPC_TYPE_ERROR "Address does not refer to key")
    | some keyID =>
      match le.GetKey keyID with
      | none => .ok none
      | some pubKey => .ok (le.envCP0 pubKey)

/-- `mapAliasVchInt`. -/
abbrev HeightTable := vchType → Option ℤ

/-- Whether the table has a greater height under the name. -/
def HeightTable.above (mapAliasVchInt : HeightTable) (name : vchType) (nHeight : ℤ) : Bool :=
  (mapAliasVchInt name).any fun h => nHeight < h

/-- What both lookups read of an entry first: `op__`, name, value, height and address of an alias
transaction in the main chain. -/
def readAlias (tx : AliasWalletTx) :
    Except LookupStop (Option (ℕ × vchType × vchType × ℤ × vchType)) :=
  match tx.aliasSet with
  | .error e => .error (.within e)
  | .ok none => .ok none
  | .ok (some (op__, vchAlias, vchValue)) =>
    let nHeight := tx.GetHeightInMainChain le
    if nHeight = -1 then .ok none
    else
      match tx.aliasAddress le with
      | .error e => .error (.within e)
      | .ok strAddress => .ok (some (op__, vchAlias, vchValue, nHeight, strAddress))

/-! ## aliasOut -/

/-- The table, and `value` where `found`. -/
structure OutSearch where
  mapAliasVchInt : HeightTable
  value : Option vchType

/-- One entry. The table is asked and updated under `decrypted` before it has been decrypted. -/
def aliasOutItem (k1 : vchType) (s : OutSearch) (tx : AliasWalletTx) : Except LookupStop OutSearch :=
  match readAlias le tx with
  | .error e => .error e
  | .ok none => .ok s
  | .ok (some (op__, vchAlias, vchValue, nHeight, strAddress)) =>
    let decrypted : vchType := []
    if op__ = OP_ALIAS_ENCRYPTED then
      match rsaPrivKeyOf le strAddress with
      | .error e => .error e
      | .ok none => .ok s
      | .ok (some rsaPrivKey) =>
        if s.mapAliasVchInt.above decrypted nHeight then .ok s
        else
          let mapAliasVchInt := Function.update s.mapAliasVchInt decrypted (some nHeight)
          let decrypted := (le.DecryptMessage rsaPrivKey vchAlias).getD decrypted
          if k1 ≠ decrypted then .ok { s with mapAliasVchInt }
          else .ok ⟨mapAliasVchInt, some vchValue⟩
    else if s.mapAliasVchInt.above vchAlias nHeight then .ok s
    else
      let mapAliasVchInt := Function.update s.mapAliasVchInt vchAlias (some nHeight)
      if k1 ≠ vchAlias then .ok { s with mapAliasVchInt }
      else .ok ⟨mapAliasVchInt, some vchValue⟩

/-- The text that is copied into the output file, if anything was found. -/
def aliasOut (mapWallet : OrdMap uint256 AliasWalletTx) (params : List vchType) :
    Except LookupStop (Option vchType) :=
  match params with
  | [k1, out__] =>
    if !le.pathExists out__ then .error (.runtimeError "Invalid out put path")
    else
      match (mapWallet.entries.map Prod.snd).foldlM (aliasOutItem le k1) ⟨fun _ => none, none⟩ with
      | .error e => .error e
      | .ok s =>
        match s.value with
        | none => .ok none
        | some value =>
          -- nothing catches what the decompressor throws, so the call ends with it
          match le.gunzip value with
          | none => .error .gzipError
          | some text => .ok (some text)
  | _ => .error (.runtimeError "aliasOut [<node opt>]\n")

/-! ## getNodeRecord -/

inductive RpcValue where
  | str (s : vchType)
  | text (s : String)
  | int (n : ℤ)
  deriving DecidableEq, Repr

abbrev RpcObject := List (String × RpcValue)

/-- The member of the maps of names that are ordered by `operator<` of vectors. -/
def nameKey (name : vchType) : List ℕ := name.map UInt8.toNat

structure NodeSearch where
  mapAliasVchInt : HeightTable
  aliasMapVchObj : OrdMap (List ℕ) RpcObject

def pendingUpdate (name : vchType) : RpcObject :=
  if (le.node.mapState name).getD ∅ ≠ (∅ : Finset uint256) then [("status", .text "pending_update")] else []

/-- The record of a name; the sum that makes `expires_in` is one of unsigned numbers. -/
def aliasObject (tx : AliasWalletTx) (encrypted : Bool) (name vchAlias decrypted vchValue : vchType)
    (nHeight : ℤ) (strAddress : vchType) : Except LookupStop RpcObject :=
  match tx.IsMinePost le with
  | .error e => .error (.within e)
  | .ok isMine =>
    let expiresIn := (nHeight + le.scaleMonitor - le.node.nBestHeight).bmod (2 ^ 32)
    .ok ([("alias", .str name), ("encrypted", .text (if encrypted then "true" else "false")),
        ("value", .str vchValue)] ++
      (if isMine then [] else [("transferred", .int 1)]) ++
      [("address", .str strAddress), ("nHeigt", .int nHeight), ("expires_in", .int expiresIn)] ++
      (if expiresIn ≤ 0 then [("expired", .int 1)] else []) ++ pendingUpdate le vchAlias ++
      (if decrypted ≠ [] then pendingUpdate le decrypted else []))

/-- The record goes under its name into both maps. -/
def NodeSearch.put (s : NodeSearch) (tx : AliasWalletTx) (encrypted : Bool)
    (name vchAlias decrypted vchValue : vchType) (nHeight : ℤ) (strAddress : vchType) :
    Except LookupStop NodeSearch :=
  match aliasObject le tx encrypted name vchAlias decrypted vchValue nHeight strAddress with
  | .error e => .error e
  | .ok aliasObj =>
    .ok ⟨Function.update s.mapAliasVchInt name (some nHeight),
      s.aliasMapVchObj.insert (nameKey name) aliasObj⟩

def getNodeRecordItem (k1 : vchType) (s : NodeSearch) (tx : AliasWalletTx) :
    Except LookupStop NodeSearch :=
  match readAlias le tx with
  | .error e => .error e
  | .ok none => .ok s
  | .ok (some (op__, vchAlias, vchValue, nHeight, strAddress)) =>
    if op__ = OP_ALIAS_ENCRYPTED then
      match rsaPrivKeyOf le strAddress with
      | .error e => .error e
      | .ok none => .ok s
      | .ok (some rsaPrivKey) =>
        let decrypted := (le.DecryptMessage rsaPrivKey vchAlias).getD []
        if k1 ≠ decrypted then .ok s
        else if s.mapAliasVchInt.above decrypted nHeight then .ok s
        else s.put le tx true decrypted vchAlias decrypted vchValue nHeight strAddress
    else if s.mapAliasVchInt.above vchAlias nHeight then .ok s
    else if k1 ≠ vchAlias then .ok s
    else s.put le tx false vchAlias vchAlias [] vchValue nHeight strAddress

/-- The records by name. Without a parameter the name is the empty one. -/
def getNodeRecord (mapWallet : OrdMap uint256 AliasWalletTx) (params : List vchType) :
    Except LookupStop (List RpcObject) :=
  if 1 < params.length then .error (.runtimeError "getNodeRecord [<node opt>]\n")
  else
    match (mapWallet.entries.map Prod.snd).foldlM (getNodeRecordItem le (params.headD []))
        ⟨fun _ => none, .empty⟩ with
    | .error e => .error e
    | .ok s => .ok (s.aliasMapVchObj.entries.map Prod.snd)

end Dions
