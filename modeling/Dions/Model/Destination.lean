import Dions.Model.Signature

/-! # Destinations

The scripts that pay to a key or to a script, and the destination that is read back from a script. A
key and a script are named by a digest of 20 bytes. -/

namespace Dions

open LittleEndian txnouttype

/-- `boost::variant` of the three kinds of destination. -/
inductive CTxDestination where
  | CNoDestination
  | CKeyID (keyID : uint160)
  | CScriptID (scriptID : uint160)
  deriving DecidableEq, Repr

/-- The script that pays to the hash of a script. -/
def payToScriptHash (hash : valtype) : CScript :=
  OP_HASH160.toUInt8 :: (pushVch hash ++ [OP_EQUAL.toUInt8])

/-- What `CScriptVisitor` writes. -/
def CScript.SetDestination : CTxDestination → CScript
  | .CNoDestination => []
  | .CKeyID keyID => SetBitcoinAddress (toBytes 20 keyID)
  | .CScriptID scriptID => payToScriptHash (toBytes 20 scriptID)

/-- `none` is the answer `false`. -/
def ExtractDestination (crypto : ScriptCrypto) (scriptPubKey : CScript) : Option CTxDestination :=
  match Solver scriptPubKey with
  | (true, TX_PUBKEY, vch :: _) => some (.CKeyID (uint160OfVch (crypto.HASH160 vch)))
  | (true, TX_PUBKEYHASH, vch :: _) => some (.CKeyID (uint160OfVch vch))
  | (true, TX_SCRIPTHASH, vch :: _) => some (.CScriptID (uint160OfVch vch))
  | _ => none

/-! ## The prefixes that the wallet writes

Each command of the wallet builds its output with `operator<<`: the opcode as a number, the arguments,
and a suffix of drops that is written by hand. The destination is appended behind it. -/

/-- `operator<<` for the opcode, the arguments and the drops in turn. -/
def writePrefix (op : ℕ) (args : List valtype) (drops : List ℕ) : CScript :=
  pushSmallInt op ++ args.flatMap pushVch ++ drops.map Nat.toUInt8

/-- `State::GROUND` is `"f"`. -/
def State.GROUND : valtype := [0x66]

/-- `vchValue` is the empty string, and the three arguments behind it are constants. -/
def registerAlias (vchEncryptedAlias sigBase64 strAddress hash : valtype) : CScript :=
  writePrefix OP_ALIAS_ENCRYPTED
    [vchEncryptedAlias, sigBase64, strAddress, hash, [], [0x30], [0x5f], State.GROUND]
    [OP_2DROP, OP_2DROP, OP_2DROP, OP_2DROP, OP_DROP]

/-- Without a key of the recipient, `"I"` takes the place of the encrypted key. -/
def mapVertex (vchSender vchRecipient vchKey : valtype) (encrypted : Option valtype)
    (sigBase64 : valtype) : CScript :=
  writePrefix OP_VERTEX [vchSender, vchRecipient, vchKey, encrypted.getD [0x49], sigBase64]
    [OP_2DROP, OP_2DROP, OP_2DROP]

def mapProject (node prj vchEncryptedMessage iv128Base64Vch sigBase64 : valtype) : CScript :=
  writePrefix OP_MAP_PROJECT [node, prj, vchEncryptedMessage, iv128Base64Vch, sigBase64]
    [OP_2DROP, OP_2DROP, OP_DROP]

def simplexU (vchAlias r : valtype) : CScript :=
  writePrefix OP_ALIAS_RELAY [vchAlias, r] [OP_2DROP, OP_DROP]

/-- A command with the values that it writes. -/
inductive Encoder where
  | registerAlias (vchEncryptedAlias sigBase64 strAddress hash : valtype)
  | mapVertex (vchSender vchRecipient vchKey : valtype) (encrypted : Option valtype)
      (sigBase64 : valtype)
  | mapProject (node prj vchEncryptedMessage iv128Base64Vch sigBase64 : valtype)
  | simplexU (vchAlias r : valtype)
  deriving DecidableEq, Repr

/-- The prefix that the command writes. -/
def Encoder.scriptPubKey : Encoder → CScript
  | .registerAlias vchEncryptedAlias sigBase64 strAddress hash =>
    Dions.registerAlias vchEncryptedAlias sigBase64 strAddress hash
  | .mapVertex vchSender vchRecipient vchKey encrypted sigBase64 =>
    Dions.mapVertex vchSender vchRecipient vchKey encrypted sigBase64
  | .mapProject node prj vchEncryptedMessage iv128Base64Vch sigBase64 =>
    Dions.mapProject node prj vchEncryptedMessage iv128Base64Vch sigBase64
  | .simplexU vchAlias r => Dions.simplexU vchAlias r

/-- The command is `mapProject`. -/
def Encoder.isMapProject : Encoder → Bool
  | .mapProject .. => true
  | _ => false

end Dions
