import Dions.Verification.Alias.Encoders
import Dions.Verification.Alias.ScriptHash
import Dions.Verification.Script.Combine
import Dions.Verification.Script.Prefix

/-! # Signing for one's own coins

`IsMine` follows script hashes as deep as the key store knows the scripts, and `SignSignature` signs for
one script behind the output. As far as that goes, what the wallet counts as its own it can sign. -/

namespace Dions

open LittleEndian txnouttype

variable {raw script : CScript} {sigs vs : List valtype} {hash : uint256}
variable {nOpCount pc : ℕ} {subscript : CScript}

/-! ## Key stores -/

section Keys

variable {Key : Type} {crypto : ScriptCrypto} {keystore : CKeyStore Key}
  {Sign : Key → uint256 → Option valtype}

/-- The store finds every key that it claims to have, and every script is stored under its hash. -/
structure CKeyStore.Sound (crypto : ScriptCrypto) (keystore : CKeyStore Key) : Prop where
  getKey : ∀ {id}, keystore.HaveKey id = true → ∃ key, keystore.GetKey id = some key
  getPubKey : ∀ {id}, keystore.HaveKey id = true →
    ∃ vch, keystore.GetPubKey id = some vch ∧ CPubKey.GetID crypto vch = id
  getCScript : ∀ {id script}, keystore.GetCScript id = some script →
    CScript.GetID crypto script = id

/-- A key of the store makes a canonical signature of every hash. It verifies with the public key, which
is the only one with its hash. -/
structure CKeyStore.Signs (crypto : ScriptCrypto) (keystore : CKeyStore Key)
    (Sign : Key → uint256 → Option valtype) : Prop where
  pubKey : ∀ {vch}, keystore.HaveKey (CPubKey.GetID crypto vch) = true →
    IsCanonicalPubKey vch = true
  signs : ∀ {id key}, keystore.HaveKey id = true → keystore.GetKey id = some key →
    ∀ hash, ∃ sig, Sign key hash = some sig ∧
      IsCanonicalSignature (sig ++ [SIGHASH_ALL.toUInt8]) = true ∧
        ∀ vch, CPubKey.GetID crypto vch = id → crypto.Verify vch hash sig = true

/-- A script does not contain a signature of its own hash. -/
def Unsigned (keystore : CKeyStore Key) (Sign : Key → uint256 → Option valtype) (hash : uint256)
    (script : CScript) : Prop :=
  ∀ id key sig, keystore.GetKey id = some key → Sign key hash = some sig →
    script.FindAndDelete (pushVch (sig ++ [SIGHASH_ALL.toUInt8])) = script

/-- A signature of the script by a key of the store. -/
structure OwnSignature (crypto : ScriptCrypto) (hash : uint256) (script : CScript) (id : CKeyID)
    (vchSig : valtype) : Prop where
  canonical : IsCanonicalSignature vchSig = true
  kept : script.FindAndDelete (pushVch vchSig) = script
  checks : ∀ vch, CPubKey.GetID crypto vch = id → ∀ txTo nIn,
    SignatureHash crypto script txTo nIn SIGHASH_ALL = hash →
      checkSignature crypto txTo nIn 0 script vchSig vch = true

theorem Sign1_own (hsound : keystore.Sound crypto) (hsigns : keystore.Signs crypto Sign)
    {hash : uint256} {script : CScript} (hunsigned : Unsigned keystore Sign hash script)
    {id : CKeyID} (hown : keystore.HaveKey id = true) :
    ∃ vchSig, OwnSignature crypto hash script id vchSig ∧ ∀ scriptSig,
      Sign1 keystore Sign id hash SIGHASH_ALL scriptSig = (true, scriptSig ++ pushVch vchSig) := by
  obtain ⟨key, hkey⟩ := hsound.getKey hown
  obtain ⟨sig, hsig, hcanonical, hverify⟩ := hsigns.signs hown hkey hash
  refine ⟨sig ++ [SIGHASH_ALL.toUInt8], ⟨hcanonical, hunsigned id key sig hkey hsig, ?_⟩, ?_⟩
  · intro vch hid txTo nIn hhash
    have hpub := hsigns.pubKey (hid ▸ hown)
    have htype : SIGHASH_ALL.toUInt8.toNat = SIGHASH_ALL := rfl
    simp [checkSignature, CheckSig, hcanonical, hpub, htype, hhash, hverify vch hid]
  · intro scriptSig
    simp only [Sign1, hkey, hsig]

/-- Signatures by the keys, in their order. -/
def OwnSignatures (crypto : ScriptCrypto) (hash : uint256) (script : CScript) :
    (sigs keys : List valtype) → Prop :=
  List.Forall₂ fun sig key => OwnSignature crypto hash script (CPubKey.GetID crypto key) sig

theorem signKeys_own (hsound : keystore.Sound crypto) (hsigns : keystore.Signs crypto Sign)
    {hash : uint256} {script : CScript} (hunsigned : Unsigned keystore Sign hash script)
    {nRequired : ℕ} {keys : List valtype}
    (hown : ∀ key ∈ keys, keystore.HaveKey (CPubKey.GetID crypto key) = true) {nSigned : ℕ}
    (hle : nSigned ≤ nRequired) (henough : nRequired ≤ nSigned + keys.length) :
    ∃ sigs, OwnSignatures crypto hash script sigs (keys.take (nRequired - nSigned)) ∧ ∀ scriptSig,
      signKeys crypto keystore Sign hash SIGHASH_ALL nRequired keys nSigned scriptSig =
        (nRequired, scriptSig ++ sigs.flatMap pushVch) := by
  induction keys generalizing nSigned with
  | nil =>
    have hdone : nSigned = nRequired := by
      rw [List.length_nil] at henough
      omega
    refine ⟨[], by rw [List.take_nil]; exact .nil, fun scriptSig => ?_⟩
    rw [signKeys, hdone, List.flatMap_nil, List.append_nil]
  | cons key keys ih =>
    obtain ⟨hfirst, hrest⟩ := List.forall_mem_cons.mp hown
    rw [List.length_cons] at henough
    by_cases hmore : nSigned < nRequired
    · obtain ⟨vchSig, hsig, hsign⟩ := Sign1_own hsound hsigns hunsigned hfirst
      obtain ⟨sigs, hsigs, hloop⟩ := ih hrest (Nat.succ_le_of_lt hmore) (by omega)
      have hnext : nRequired - nSigned = nRequired - (nSigned + 1) + 1 := by omega
      refine ⟨vchSig :: sigs, ?_, fun scriptSig => ?_⟩
      · rw [hnext, List.take_succ_cons]
        exact .cons hsig hsigs
      · rw [signKeys, if_pos hmore, hsign]
        dsimp only
        rw [if_pos rfl, hloop, List.flatMap_cons, List.append_assoc]
    · have hdone : nSigned = nRequired := by omega
      refine ⟨[], ?_, fun scriptSig => ?_⟩
      · rw [hdone, Nat.sub_self]
        exact .nil
      · rw [signKeys, if_neg hmore, hdone, List.flatMap_nil, List.append_nil]

end Keys

/-! ## Scripts of keys on the stack -/

section Run

variable {crypto : ScriptCrypto} {txTo : CTransaction} {nIn flags nHashType : ℕ}

theorem end_of_last {b : UInt8} (h : script.drop pc = [b]) : script.length ≤ pc + 1 := by
  have hlen := congrArg List.length h
  rw [List.length_drop, List.length_singleton] at hlen
  omega

theorem accepts_pubKey {p : CScript} {k vchSig : valtype} (hscript : script.length ≤ 1000000)
    (hpush : Pushes k p) (hdrop : script.drop pc = p ++ [OP_CHECKSIG.toUInt8])
    (hops : nOpCount + 1 ≤ 201) :
    accepts (((scriptLoop crypto txTo nIn flags nHashType script).eval
        (pc, ⟨[vchSig], [], [], nOpCount, 0⟩)).bind finalStack) =
      checkSignature crypto txTo nIn nHashType (signedScript script 0 [vchSig]) vchSig k := by
  obtain ⟨hat, hnext⟩ := pushAt_pushes hscript hpush hdrop
  have hlast := drop_add_length hdrop
  have hcheck : Opcode.execute crypto txTo nIn flags nHashType script (pc + p.length + 1) true
      ⟨[k, vchSig], [], [], nOpCount + 1, 0⟩ .OP_CHECKSIG =
      some ⟨[ofBool (checkSignature crypto txTo nIn nHashType (signedScript script 0 [vchSig]) vchSig
        k)], [], [], nOpCount + 1, 0⟩ := rfl
  rw [eval_pushAt hat ((GetOp2_vchRet_le script pc).trans hscript) rfl (by simp), hnext,
    eval_op hlast (by decide) rfl (by decide) rfl (by dsimp only; omega) hcheck (by simp),
    eval_end (end_of_last hlast)]
  exact accepts_ofBool _ _

theorem accepts_keys {ps : CScript} {m : ℕ} {keys : List valtype}
    (hscript : script.length ≤ 1000000) (hm : 1 ≤ m) (hmn : m ≤ keys.length) (hn : keys.length ≤ 16)
    (hkeys : KeyPushes keys ps) (hdrop : script.drop pc =
      pushSmallInt m ++ (ps ++ (pushSmallInt keys.length ++ [OP_CHECKMULTISIG.toUInt8])))
    (hsigs : sigs.length = m) (hops : nOpCount + (keys.length + 1) ≤ 201) :
    accepts (((scriptLoop crypto txTo nIn flags nHashType script).eval
        (pc, ⟨sigs.reverse ++ [[]], [], [], nOpCount, 0⟩)).bind finalStack) =
      matchSigs crypto txTo nIn nHashType (signedScript script 0 sigs.reverse) sigs.reverse
        keys.reverse := by
  have hdrop1 : script.drop (pc + 1) =
      ps ++ (pushSmallInt keys.length ++ [OP_CHECKMULTISIG.toUInt8]) := drop_add_length hdrop
  have hdrop2 := drop_add_length hdrop1
  have hlast : script.drop (pc + 1 + ps.length + 1) = [OP_CHECKMULTISIG.toUInt8] :=
    drop_add_length hdrop2
  have hlength : sigs.reverse.length = m := by rw [List.length_reverse, hsigs]
  have htake : (sigs.reverse ++ [[]]).take m = sigs.reverse := List.take_left' hlength
  have hcheck : checkMultiSigOp crypto txTo nIn nHashType script false
      ⟨getvch keys.length :: (keys.reverse ++ getvch m :: (sigs.reverse ++ [[]])), [], [],
        nOpCount + 1, 0⟩ = _ :=
    checkMultiSigOp_eq (CastToBigNum_getvch (hmn.trans hn))
      (by rw [List.length_reverse]; exact CastToBigNum_getvch hn) (by simpa using hmn)
      (by rw [List.length_reverse]; omega) rfl (by rw [List.length_reverse]; dsimp only; omega)
  rw [if_neg (by simp; omega), htake] at hcheck
  have hrun : Opcode.execute crypto txTo nIn flags nHashType script (pc + 1 + ps.length + 1 + 1) true
      ⟨getvch keys.length :: (keys.reverse ++ getvch m :: (sigs.reverse ++ [[]])), [], [],
        nOpCount + 1, 0⟩ .OP_CHECKMULTISIG =
      some ⟨ofBool (matchSigs crypto txTo nIn nHashType (signedScript script 0 sigs.reverse)
        sigs.reverse keys.reverse) :: (sigs.reverse ++ [[]]).drop (m + 1), [], [],
          nOpCount + 1 + keys.reverse.length, 0⟩ := hcheck
  rw [eval_smallInt hm (hmn.trans hn) hdrop rfl (by simp; omega),
    eval_pushesAll hkeys.pushesAll hscript hdrop1 rfl (by simp; omega),
    eval_smallInt (hm.trans hmn) hn hdrop2 rfl (by simp; omega),
    eval_op hlast (by decide) rfl (by decide) rfl (by dsimp only; omega) hrun (by simp; omega),
    eval_end (end_of_last hlast)]
  exact accepts_ofBool _ _

end Run

/-! ## What the signatures achieve -/

/-- The elements that an input leaves for a script. -/
def inputItems (script : CScript) : ℕ :=
  match Solver script with
  | (_, TX_PUBKEY, _) => 1
  | (_, TX_PUBKEYHASH, _) => 2
  | (_, TX_SCRIPTHASH, _) => 1
  | (_, TX_MULTISIG, vSolutions) => ((firstSolution vSolutions).head?.map UInt8.toNat).getD 0 + 1
  | _ => 0

/-- The opcodes that the interpreter counts in a script; a key that is checked counts as well. -/
def countedOpcodes (script : CScript) : ℕ :=
  match Solver script with
  | (_, TX_PUBKEY, _) => 1
  | (_, TX_PUBKEYHASH, _) => 4
  | (_, TX_SCRIPTHASH, _) => 2
  | (_, TX_MULTISIG, vSolutions) => vSolutions.length - 2 + 1
  | _ => 0

section Held

variable {Key : Type} {crypto : ScriptCrypto} {keystore : CKeyStore Key}
  {Sign : Key → uint256 → Option valtype}

/-- The script asks for keys, and all of them are in the store. -/
inductive Held (crypto : ScriptCrypto) (keystore : CKeyStore Key) : CScript → Prop
  | pubKey {k : valtype} {p : CScript} (hsize : 33 ≤ k.length ∧ k.length ≤ 120) (hpush : Pushes k p)
      (hown : keystore.HaveKey (CPubKey.GetID crypto k) = true) :
      Held crypto keystore (p ++ [OP_CHECKSIG.toUInt8])
  | pubKeyHash {h : valtype} {p : CScript} (hsize : h.length = 20) (hpush : Pushes h p)
      (hown : keystore.HaveKey (uint160OfVch h) = true) :
      Held crypto keystore (OP_DUP.toUInt8 :: OP_HASH160.toUInt8 ::
        (p ++ [OP_EQUALVERIFY.toUInt8, OP_CHECKSIG.toUInt8]))
  | multisig {m : ℕ} {keys : List valtype} {ps : CScript} (hm : 1 ≤ m) (hmn : m ≤ keys.length)
      (hn : keys.length ≤ 16) (hkeys : KeyPushes keys ps)
      (hown : ∀ key ∈ keys, keystore.HaveKey (CPubKey.GetID crypto key) = true) :
      Held crypto keystore
        (pushSmallInt m ++ (ps ++ (pushSmallInt keys.length ++ [OP_CHECKMULTISIG.toUInt8])))

/-- The elements of an input that the script `raw` accepts at the end of `script`. -/
structure SignedInput (crypto : ScriptCrypto) (hash : uint256) (script raw : CScript)
    (vs : List valtype) : Prop where
  short : ∀ v ∈ vs, v.length ≤ 73
  length_eq : vs.length = inputItems raw
  accepted : ∀ txTo nIn flags, SignatureHash crypto script txTo nIn SIGHASH_ALL = hash →
    script.length ≤ 1000000 → ∀ pc nOpCount, script.drop pc = raw →
      nOpCount + countedOpcodes raw ≤ 201 →
        accepts (((scriptLoop crypto txTo nIn flags 0 script).eval
          (pc, ⟨vs.reverse, [], [], nOpCount, 0⟩)).bind finalStack) = true

theorem signedScript_kept (h : ∀ sig ∈ sigs, script.FindAndDelete (pushVch sig) = script) :
    signedScript script 0 sigs = script := by
  rw [signedScript, List.drop_zero]
  induction sigs with
  | nil => rfl
  | cons sig sigs ih =>
    obtain ⟨hfirst, hrest⟩ := List.forall_mem_cons.mp h
    rw [List.foldl_cons, hfirst]
    exact ih hrest

theorem OwnSignatures.mem {keys : List valtype} (h : OwnSignatures crypto hash script sigs keys)
    {sig : valtype} (hsig : sig ∈ sigs) : ∃ id, OwnSignature crypto hash script id sig := by
  induction h with
  | nil => simp at hsig
  | cons hfirst _ ih =>
    rcases List.mem_cons.mp hsig with rfl | hrest
    · exact ⟨_, hfirst⟩
    · exact ih hrest

theorem OwnSignatures.signaturesMatch {m : ℕ} {keys : List valtype}
    (h : OwnSignatures crypto hash script sigs (keys.take m)) {txTo : CTransaction} {nIn : ℕ}
    (hhash : SignatureHash crypto script txTo nIn SIGHASH_ALL = hash) :
    SignaturesMatch crypto txTo nIn 0 script sigs.reverse keys.reverse := by
  apply Matching.sublistForall₂_reverse
  apply List.sublistForall₂_iff.mpr
  refine ⟨keys.take m, h.imp ?_, List.take_sublist m keys⟩
  exact fun sig key hown => hown.checks key rfl txTo nIn hhash

theorem uint160OfVch_injective {a b : valtype} (ha : a.length = 20) (hb : b.length = 20)
    (h : uint160OfVch a = uint160OfVch b) : a = b := by
  rw [uint160OfVch_eq ha, uint160OfVch_eq hb] at h
  rw [← toBytes_ofBytes a, ← toBytes_ofBytes b, h, ha, hb]

theorem Held.pubKey_signed (hsound : keystore.Sound crypto) (hsigns : keystore.Signs crypto Sign)
    {hash : uint256} {script : CScript} (hunsigned : Unsigned keystore Sign hash script)
    {k : valtype} {p : CScript} (hsize : 33 ≤ k.length ∧ k.length ≤ 120) (hpush : Pushes k p)
    (hown : keystore.HaveKey (CPubKey.GetID crypto k) = true) :
    ∃ vs, keystore.Solver crypto Sign (p ++ [OP_CHECKSIG.toUInt8]) hash SIGHASH_ALL =
        (true, TX_PUBKEY, vs.flatMap pushVch) ∧
      SignedInput crypto hash script (p ++ [OP_CHECKSIG.toUInt8]) vs := by
  have hsolver := solver_of_standard (.pubKey hsize hpush)
  obtain ⟨vchSig, hsig, hsign⟩ := Sign1_own hsound hsigns hunsigned hown
  refine ⟨[vchSig], ?_, ?_, ?_, ?_⟩
  · rw [CKeyStore.Solver, hsolver]
    simp [firstSolution, hsign]
  · intro v hv
    rw [List.mem_singleton.mp hv]
    exact length_canonicalSignature hsig.canonical
  · rw [inputItems, hsolver]
    rfl
  · intro txTo nIn flags hhash hscript pc nOpCount hdrop hops
    rw [countedOpcodes, hsolver] at hops
    have hkept : signedScript script 0 [vchSig] = script :=
      signedScript_kept (by simpa using hsig.kept)
    rw [List.reverse_singleton, accepts_pubKey hscript hpush hdrop hops, hkept]
    exact hsig.checks k rfl txTo nIn hhash

theorem Held.pubKeyHash_signed (hsound : keystore.Sound crypto)
    (hsigns : keystore.Signs crypto Sign) (hdigest : ∀ vch, (crypto.HASH160 vch).length = 20)
    {hash : uint256} {script : CScript} (hunsigned : Unsigned keystore Sign hash script)
    {h : valtype} {p : CScript} (hsize : h.length = 20) (hpush : Pushes h p)
    (hown : keystore.HaveKey (uint160OfVch h) = true) :
    ∃ vs, keystore.Solver crypto Sign (OP_DUP.toUInt8 :: OP_HASH160.toUInt8 ::
          (p ++ [OP_EQUALVERIFY.toUInt8, OP_CHECKSIG.toUInt8])) hash SIGHASH_ALL =
        (true, TX_PUBKEYHASH, vs.flatMap pushVch) ∧
      SignedInput crypto hash script (OP_DUP.toUInt8 :: OP_HASH160.toUInt8 ::
          (p ++ [OP_EQUALVERIFY.toUInt8, OP_CHECKSIG.toUInt8])) vs := by
  have hsolver := solver_of_standard (.pubKeyHash hsize hpush)
  obtain ⟨vchSig, hsig, hsign⟩ := Sign1_own hsound hsigns hunsigned hown
  obtain ⟨vch, hget, hid⟩ := hsound.getPubKey hown
  have hcanonical := hsigns.pubKey (hid ▸ hown)
  have hhash160 : crypto.HASH160 vch = h := uint160OfVch_injective (hdigest vch) hsize hid
  refine ⟨[vchSig, vch], ?_, ?_, ?_, ?_⟩
  · rw [CKeyStore.Solver, hsolver]
    simp [firstSolution, hsign, hget]
  · intro v hv
    rw [List.mem_cons, List.mem_singleton] at hv
    rcases hv with rfl | rfl
    · exact length_canonicalSignature hsig.canonical
    · exact (length_canonicalPubKey hcanonical).trans (by decide)
  · rw [inputItems, hsolver]
    rfl
  · intro txTo nIn flags hhash hscript pc nOpCount hdrop hops
    rw [countedOpcodes, hsolver] at hops
    have hkept : signedScript script 0 [vchSig] = script :=
      signedScript_kept (by simpa using hsig.kept)
    have hbehind : script.drop (pc + 1 + 1) =
        p ++ [OP_EQUALVERIFY.toUInt8, OP_CHECKSIG.toUInt8] := by
      rw [← List.drop_drop, ← List.drop_drop, hdrop]
      rfl
    obtain ⟨hat, hnext⟩ := pushAt_pushes hscript hpush hbehind
    have hchecks : script.drop (script.GetOp2 (pc + 1 + 1)).pc =
        [OP_EQUALVERIFY.toUInt8, OP_CHECKSIG.toUInt8] := by
      rw [hnext]
      exact drop_add_length hbehind
    have hstack : [vchSig, vch].reverse = [vch, vchSig] := rfl
    rw [hstack]
    apply (accepts_pubKeyHash hscript hdrop hat hchecks hops (by simp)).mpr
    refine ⟨vch, vchSig, [], rfl, hhash160, ?_⟩
    rw [hkept]
    exact hsig.checks vch hid txTo nIn hhash

theorem Held.multisig_signed (hsound : keystore.Sound crypto)
    (hsigns : keystore.Signs crypto Sign) {hash : uint256} {script : CScript}
    (hunsigned : Unsigned keystore Sign hash script) {m : ℕ} {keys : List valtype} {ps : CScript}
    (hm : 1 ≤ m) (hmn : m ≤ keys.length) (hn : keys.length ≤ 16) (hkeys : KeyPushes keys ps)
    (hown : ∀ key ∈ keys, keystore.HaveKey (CPubKey.GetID crypto key) = true) :
    ∃ vs, keystore.Solver crypto Sign (pushSmallInt m ++
          (ps ++ (pushSmallInt keys.length ++ [OP_CHECKMULTISIG.toUInt8]))) hash SIGHASH_ALL =
        (true, TX_MULTISIG, vs.flatMap pushVch) ∧
      SignedInput crypto hash script (pushSmallInt m ++
          (ps ++ (pushSmallInt keys.length ++ [OP_CHECKMULTISIG.toUInt8]))) vs := by
  have hsolver := solver_of_standard (.multisig hm hmn hn hkeys)
  have hbyte : m.toUInt8.toNat = m := toNat_toUInt8 (by omega)
  obtain ⟨sigs, hsigs, hloop⟩ := signKeys_own hsound hsigns hunsigned hown
    (Nat.zero_le m) (by omega)
  rw [Nat.sub_zero] at hsigs
  have hlength : sigs.length = m := by
    rw [hsigs.length_eq, List.length_take_of_le hmn]
  refine ⟨[] :: sigs, ?_, ?_, ?_, ?_⟩
  · rw [CKeyStore.Solver, hsolver]
    have hpubkeys : (([m.toUInt8] :: (keys ++ [[keys.length.toUInt8]])).drop 1).take
        (([m.toUInt8] :: (keys ++ [[keys.length.toUInt8]])).length - 2) = keys := by simp
    have hrequired : ((([m.toUInt8] :: (keys ++ [[keys.length.toUInt8]])).head?.bind
        List.head?).map UInt8.toNat).getD 0 = m := hbyte
    simp only [SignN, hpubkeys, hrequired, hloop, beq_self_eq_true]
    rfl
  · intro v hv
    rcases List.mem_cons.mp hv with rfl | hsig
    · exact Nat.zero_le _
    · obtain ⟨id, hgood⟩ := hsigs.mem hsig
      exact length_canonicalSignature hgood.canonical
  · rw [inputItems, hsolver, List.length_cons, hlength]
    simp [firstSolution, hbyte]
  · intro txTo nIn flags hhash hscript pc nOpCount hdrop hops
    rw [countedOpcodes, hsolver] at hops
    have hkept : signedScript script 0 sigs.reverse = script := by
      apply signedScript_kept
      intro sig hsig
      obtain ⟨id, hgood⟩ := hsigs.mem (List.mem_reverse.mp hsig)
      exact hgood.kept
    rw [List.reverse_cons,
      accepts_keys hscript hm hmn hn hkeys hdrop hlength (by simpa using hops), hkept, matchSigs_iff]
    exact hsigs.signaturesMatch hhash

/-- The store signs for every script of its own keys. -/
theorem Held.signed (hsound : keystore.Sound crypto) (hsigns : keystore.Signs crypto Sign)
    (hdigest : ∀ vch, (crypto.HASH160 vch).length = 20) {hash : uint256} {script raw : CScript}
    (hunsigned : Unsigned keystore Sign hash script) (h : Held crypto keystore raw) :
    ∃ type vs, type ≠ TX_SCRIPTHASH ∧ keystore.Solver crypto Sign raw hash SIGHASH_ALL =
        (true, type, vs.flatMap pushVch) ∧ SignedInput crypto hash script raw vs := by
  cases h with
  | pubKey hsize hpush hown =>
    obtain ⟨vs, h⟩ := Held.pubKey_signed hsound hsigns hunsigned hsize hpush hown
    exact ⟨TX_PUBKEY, vs, by decide, h⟩
  | pubKeyHash hsize hpush hown =>
    obtain ⟨vs, h⟩ := Held.pubKeyHash_signed hsound hsigns hdigest hunsigned hsize hpush hown
    exact ⟨TX_PUBKEYHASH, vs, by decide, h⟩
  | multisig hm hmn hn hkeys hown =>
    obtain ⟨vs, h⟩ := Held.multisig_signed hsound hsigns hunsigned hm hmn hn hkeys hown
    exact ⟨TX_MULTISIG, vs, by decide, h⟩

theorem Held.standard (h : Held crypto keystore raw) :
    ∃ type out, type ≠ TX_SCRIPTHASH ∧ Standard type out raw := by
  cases h with
  | pubKey hsize hpush _ => exact ⟨_, _, by decide, .pubKey hsize hpush⟩
  | pubKeyHash hsize hpush _ => exact ⟨_, _, by decide, .pubKeyHash hsize hpush⟩
  | multisig hm hmn hn hkeys _ => exact ⟨_, _, by decide, .multisig hm hmn hn hkeys⟩

theorem Held.not_scriptHash (h : Held crypto keystore raw) : raw.IsPayToScriptHash = false := by
  obtain ⟨type, out, htype, hstandard⟩ := h.standard
  have hsolver := solver_of_standard hstandard
  by_contra hhash
  rw [solver_of_scriptHash (by simpa using hhash), Prod.mk.injEq, Prod.mk.injEq] at hsolver
  exact htype hsolver.2.1.symm

/-- A script of keys is far from the limits of the interpreter. -/
theorem Held.small (h : Held crypto keystore raw) :
    raw.length ≤ 2003 ∧ countedOpcodes raw ≤ 17 ∧ inputItems raw ≤ 17 := by
  cases h with
  | pubKey hsize hpush _ =>
    obtain ⟨opcode, hform⟩ := hpush
    have hlength := hform.length_le
    rw [countedOpcodes, inputItems, solver_of_standard (.pubKey hsize ⟨opcode, hform⟩)]
    refine ⟨?_, by simp, by simp⟩
    rw [List.length_append, List.length_singleton]
    omega
  | pubKeyHash hsize hpush _ =>
    obtain ⟨opcode, hform⟩ := hpush
    have hlength := hform.length_le
    rw [countedOpcodes, inputItems, solver_of_standard (.pubKeyHash hsize ⟨opcode, hform⟩)]
    refine ⟨?_, by simp, by simp⟩
    simp only [List.length_cons, List.length_append, List.length_nil]
    omega
  | @multisig m keys ps hm hmn hn hkeys _ =>
    have hlength := hkeys.length_le
    have hbyte : m.toUInt8.toNat = m := toNat_toUInt8 (by omega)
    rw [countedOpcodes, inputItems, solver_of_standard (.multisig hm hmn hn hkeys)]
    refine ⟨?_, ?_, ?_⟩
    · simp only [pushSmallInt, List.length_cons, List.length_append, List.length_nil]
      omega
    · simp only [List.length_cons, List.length_append, List.length_nil]
      omega
    · simp only [firstSolution, List.head?_cons, Option.getD_some, Option.map_some, hbyte]
      omega

/-! ## What the wallet counts as its own -/

/-- The script of the store that an output pays to by its hash. -/
def storedScript (keystore : CKeyStore Key) (script : CScript) : Option CScript :=
  if script.IsPayToScriptHash then
    keystore.GetCScript (uint160OfVch ((script.drop 2).take 20))
  else none

theorem rawScript_plain (h : (aliasScript script none).ret = false) :
    rawScript script = script := by
  simp [rawScript, h]

/-- An own script asks for own keys, or for the hash of an own script. -/
theorem held_of_isMine {fuel : ℕ} (h : IsMine crypto keystore fuel script = some true) :
    Held crypto keystore (rawScript script) ∨ ∃ subscript fuel',
      storedScript keystore (rawScript script) = some subscript ∧
        IsMine crypto keystore fuel' subscript = some true := by
  cases fuel with
  | zero => simp [IsMine] at h
  | succ fuel =>
    rw [IsMine] at h
    generalize rawScript script = raw at h ⊢
    cases hhash : raw.IsPayToScriptHash with
    | true =>
      right
      rw [solver_of_scriptHash hhash] at h
      simp only [Bool.not_true, Bool.false_eq_true, if_false, firstSolution, List.head?_cons,
        Option.getD_some] at h
      rw [storedScript, if_pos hhash]
      cases hget : keystore.GetCScript (uint160OfVch ((raw.drop 2).take 20)) with
      | none => simp [hget] at h
      | some subscript =>
        rw [hget] at h
        exact ⟨subscript, fuel, rfl, h⟩
    | false =>
      left
      rcases hsolver : Solver raw with ⟨solved, type, out⟩
      rw [hsolver] at h
      cases solved with
      | false => simp at h
      | true =>
        rcases standard_of_solver hsolver with hstandard | hreturns
        · cases hstandard with
          | pubKey hsize hpush =>
            exact .pubKey hsize hpush (by simpa [firstSolution] using h)
          | pubKeyHash hsize hpush =>
            exact .pubKeyHash hsize hpush (by simpa [firstSolution] using h)
          | scriptHash hsize =>
            exact absurd (hhash.symm.trans (IsPayToScriptHash_hash hsize)) (by simp)
          | @multisig m keys ps hm hmn hn hkeys =>
            have hkeysEq : (([m.toUInt8] :: (keys ++ [[keys.length.toUInt8]])).drop 1).take
                (([m.toUInt8] :: (keys ++ [[keys.length.toUInt8]])).length - 2) = keys := by simp
            simp only [Bool.not_true, Bool.false_eq_true, if_false, hkeysEq, Option.some.injEq,
              beq_iff_eq, HaveKeys, List.countP_eq_length] at h
            exact .multisig hm hmn hn hkeys h
          | nullData => simp at h
          | nullDataPush => simp at h
        · obtain ⟨b, hb, rfl⟩ := hreturns
          have hop := Instruction.op hb b.toNat_lt
          rw [toUInt8_toNat] at hop
          rw [solver_nullData (Nat.zero_le _) hop, Prod.mk.injEq, Prod.mk.injEq] at hsolver
          rw [← hsolver.2.1] at h
          simp at h

/-! ## Signing an output -/

/-- The elements that an input leaves for an output, with the script that it reveals. -/
def outputItems (keystore : CKeyStore Key) (script : CScript) : ℕ :=
  inputItems script + ((storedScript keystore script).map inputItems).getD 0

/-- The output has no prefix, or a closed one with which it stays within the limits of the
interpreter. -/
inductive Runnable (keystore : CKeyStore Key) (script : CScript) : Prop
  | plain (h : (aliasScript script none).ret = false) : Runnable keystore script
  | closed {args : List valtype} {drops : List UInt8} (h : ClosedPrefix args drops script)
      (hsize : script.length ≤ 1000000)
      (hroom : outputItems keystore (rawScript script) + args.length + 1 ≤ 1000)
      (hops : drops.length + countedOpcodes (rawScript script) ≤ 201) : Runnable keystore script

theorem Runnable.run {script : CScript} (h : Runnable keystore script)
    (hsize : (rawScript script).length ≤ 2003) (hcount : countedOpcodes (rawScript script) ≤ 17)
    {stack : List valtype} (hstack : stack.length ≤ outputItems keystore (rawScript script))
    (txTo : CTransaction) (nIn flags nHashType : ℕ) :
    ∃ pc nOpCount, script.length ≤ 1000000 ∧ script.drop pc = rawScript script ∧
      nOpCount + countedOpcodes (rawScript script) ≤ 201 ∧
        EvalScript crypto txTo nIn flags nHashType stack script =
          ((scriptLoop crypto txTo nIn flags nHashType script).eval
            (pc, ⟨stack, [], [], nOpCount, 0⟩)).bind finalStack := by
  cases h with
  | plain h =>
    rw [rawScript_plain h] at hsize hcount ⊢
    exact ⟨0, 0, by omega, List.drop_zero, by omega, EvalScript_eq (by omega) stack⟩
  | @closed args drops h hlimit hroom hops =>
    obtain ⟨pc, hdrop, heval⟩ :=
      @ClosedPrefix.eval crypto txTo nIn flags nHashType _ _ _ h hlimit stack (by omega) (by omega)
    exact ⟨pc, drops.length, hlimit, hdrop, hops, by rw [EvalScript_eq hlimit, heval]⟩

theorem Runnable.bare (h : Runnable keystore script)
    (hraw : (rawScript script).IsPayToScriptHash = false) : script.IsPayToScriptHash = false := by
  cases h with
  | plain h => rwa [rawScript_plain h] at hraw
  | closed h _ _ _ => exact h.not_scriptHash

/-- The elements of an input are within all limits. -/
theorem SignedInput.leaves (h : SignedInput crypto hash script raw vs)
    (hitems : inputItems raw ≤ 17) (txTo : CTransaction) (nIn flags nHashType : ℕ) :
    EvalScript crypto txTo nIn flags nHashType [] (vs.flatMap pushVch) = some vs.reverse := by
  have hsize := length_pushAll_le h.short
  have hlength := h.length_eq
  exact EvalScript_pushAll (by omega) (by omega)

/-- The input is accepted by an output that asks for the keys itself. -/
theorem SignedInput.verifies (h : SignedInput crypto hash script (rawScript script) vs)
    (hheld : Held crypto keystore (rawScript script)) (hrunnable : Runnable keystore script)
    {txTo : CTransaction} {nIn : ℕ}
    (hhash : SignatureHash crypto script txTo nIn SIGHASH_ALL = hash) (flags : ℕ) :
    VerifyScript crypto txTo nIn flags 0 (vs.flatMap pushVch) script = true := by
  obtain ⟨hsize, hcount, hitems⟩ := hheld.small
  have hlength := h.length_eq
  have hstack : vs.reverse.length ≤ outputItems keystore (rawScript script) := by
    rw [List.length_reverse, outputItems]
    omega
  obtain ⟨pc, nOpCount, hscript, hdrop, hops, hrun⟩ :=
    @Runnable.run _ crypto _ _ hrunnable hsize hcount _ hstack txTo nIn flags 0
  rw [VerifyScript_bare (h.leaves hitems _ _ _ _) (hrunnable.bare hheld.not_scriptHash), hrun]
  exact h.accepted txTo nIn flags hhash hscript pc nOpCount hdrop hops

theorem length_signedInput_le (hshort : ∀ v ∈ vs, v.length ≤ 73) (hlength : vs.length ≤ 17)
    (hsize : subscript.length ≤ 2003) : ((vs ++ [subscript]).flatMap pushVch).length ≤ 1000000 := by
  have hall : ∀ v ∈ vs ++ [subscript], v.length ≤ 2003 := by
    intro v hv
    rw [List.mem_append, List.mem_singleton] at hv
    rcases hv with hv | rfl
    · exact (hshort v hv).trans (by decide)
    · exact hsize
  have hbytes := length_pushAll_le hall
  rw [List.length_append, List.length_singleton] at hbytes
  omega

/-- The input with the script behind it is accepted by an output that pays to the hash of the script. -/
theorem SignedInput.verifies_scriptHash {hash2 : uint256}
    (h : SignedInput crypto hash2 subscript subscript vs) (hheld : Held crypto keystore subscript)
    (hstored : storedScript keystore (rawScript script) = some subscript)
    (hraw : (rawScript script).IsPayToScriptHash = true)
    (hrevealed : crypto.HASH160 subscript = ((rawScript script).drop 2).take 20)
    (hrunnable : Runnable keystore script) {txTo : CTransaction} {nIn : ℕ}
    (hhash : SignatureHash crypto subscript txTo nIn SIGHASH_ALL = hash2) (flags : ℕ) :
    VerifyScript crypto txTo nIn flags 0 ((vs ++ [subscript]).flatMap pushVch) script = true := by
  obtain ⟨hsize, hcount, hitems⟩ := hheld.small
  obtain ⟨hash, hlen, hform⟩ := IsPayToScriptHash_form hraw
  have hlength := h.length_eq
  have hops : countedOpcodes (rawScript script) = 2 := by
    rw [countedOpcodes, solver_of_scriptHash hraw]
  have hone : inputItems (rawScript script) = 1 := by rw [inputItems, solver_of_scriptHash hraw]
  have hhash160 : crypto.HASH160 subscript = hash := by
    rw [hrevealed, hform, pushVch_hash hlen]
    exact List.take_left' hlen
  have hrawSize : (rawScript script).length ≤ 2003 := by
    rw [hform, pushVch_hash hlen]
    simp [hlen]
  have hstack : (subscript :: vs.reverse).length ≤ outputItems keystore (rawScript script) := by
    rw [outputItems, hone, hstored, List.length_cons, List.length_reverse, hlength]
    simp [Nat.add_comm]
  have hbytes := length_signedInput_le h.short (hlength.le.trans hitems) hsize
  have hinput : EvalScript crypto txTo nIn flags 0 [] ((vs ++ [subscript]).flatMap pushVch) = _ :=
    EvalScript_pushAll hbytes (by rw [List.length_append, List.length_singleton]; omega)
  rw [List.reverse_append, List.reverse_singleton, List.singleton_append] at hinput
  have hfirst : accepts (EvalScript crypto txTo nIn flags 0 (subscript :: vs.reverse) script) =
      true := by
    obtain ⟨pc, nOpCount, hscript, hdrop, hlimit, hrun⟩ :=
      @Runnable.run _ crypto _ _ hrunnable hrawSize (by omega) _ hstack txTo nIn flags 0
    rw [hrun]
    apply (accepts_payToScriptHash hscript (hdrop.trans hform) _).mpr
    · exact ⟨by omega, subscript, vs.reverse, rfl, hhash160⟩
    · rw [List.length_cons, List.length_reverse]
      omega
  have hsecond : accepts (EvalScript crypto txTo nIn flags 0 vs.reverse subscript) = true := by
    rw [EvalScript_eq (by omega)]
    exact h.accepted txTo nIn flags hhash (by omega) 0 0 List.drop_zero (by omega)
  cases hscriptHash : script.IsPayToScriptHash with
  | true =>
    rw [VerifyScript_scriptHash hinput hscriptHash (IsPushOnly_pushAll hbytes), hfirst, hsecond]
    rfl
  | false => rw [VerifyScript_bare hinput hscriptHash, hfirst]

theorem solver_type_scriptHash (h : script.IsPayToScriptHash = true) {hash : uint256}
    {nHashType : ℕ} : (keystore.Solver crypto Sign script hash nHashType).2.1 = TX_SCRIPTHASH := by
  rw [CKeyStore.Solver, solver_of_scriptHash h]
  simp only [Bool.not_true, Bool.false_eq_true, if_false]
  split <;> rfl

/-- An own script that is no hash of a script and has no prefix asks for own keys. -/
theorem held_of_stored {fuel : ℕ} (hbare : script.IsPayToScriptHash = false)
    (hplain : (aliasScript script none).ret = false)
    (hmine : IsMine crypto keystore fuel script = some true) : Held crypto keystore script := by
  rcases held_of_isMine hmine with hheld | ⟨subscript, _, hstored, _⟩
  · rwa [rawScript_plain hplain] at hheld
  · rw [rawScript_plain hplain, storedScript, hbare] at hstored
    simp at hstored

/-- The store signs for every output that `IsMine` accepts, unless the script that the output pays to by
its hash pays to the hash of a script again: `SignSignature` goes no further. -/
theorem own_output_signed (hdigest : ∀ vch, (crypto.HASH160 vch).length = 20)
    (hsound : keystore.Sound crypto) (hsigns : keystore.Signs crypto Sign)
    {scriptPubKey : CScript} {txTo : CTransaction} {nIn : ℕ} (hnIn : nIn < txTo.vin.length)
    (hunsigned : ∀ script, script = scriptPubKey ∨
        storedScript keystore (rawScript scriptPubKey) = some script →
      Unsigned keystore Sign (SignatureHash crypto script txTo nIn SIGHASH_ALL) script)
    (hrunnable : Runnable keystore scriptPubKey)
    (hplain : ∀ subscript, storedScript keystore (rawScript scriptPubKey) = some subscript →
      (aliasScript subscript none).ret = false) {fuel : ℕ}
    (hmine : IsMine crypto keystore fuel scriptPubKey = some true) :
    (SignSignature crypto keystore Sign scriptPubKey txTo nIn SIGHASH_ALL).map Prod.fst = some true ↔
      ∀ subscript, storedScript keystore (rawScript scriptPubKey) = some subscript →
        subscript.IsPayToScriptHash = false := by
  have hin : ¬txTo.vin.length ≤ nIn := Nat.not_le.mpr hnIn
  rcases held_of_isMine hmine with hheld | ⟨subscript, fuel', hstored, hmine'⟩
  · have hbare := hheld.not_scriptHash
    obtain ⟨type, vs, htype, hsolver, hinput⟩ :=
      hheld.signed hsound hsigns hdigest (hunsigned scriptPubKey (.inl rfl))
    have hverified : VerifyScript crypto (txTo.setScriptSig nIn (vs.flatMap pushVch)) nIn
        STANDARD_SCRIPT_VERIFY_FLAGS 0 (vs.flatMap pushVch) scriptPubKey = true :=
      hinput.verifies hheld hrunnable (SignatureHash_setScriptSig _ _ _ _ _) _
    simp only [SignSignature, if_neg hin, hsolver, Bool.not_true, Bool.false_eq_true, if_false,
      if_neg htype, hverified, Option.map_some, true_iff]
    intro subscript hstored
    rw [storedScript, hbare] at hstored
    simp at hstored
  · have hraw : (rawScript scriptPubKey).IsPayToScriptHash = true := by
      by_contra hbare
      rw [storedScript, if_neg hbare] at hstored
      simp at hstored
    have hget := hstored
    rw [storedScript, if_pos hraw] at hget
    have hsolver : keystore.Solver crypto Sign (rawScript scriptPubKey)
        (SignatureHash crypto scriptPubKey txTo nIn SIGHASH_ALL) SIGHASH_ALL =
          (true, TX_SCRIPTHASH, subscript) := by
      rw [CKeyStore.Solver, solver_of_scriptHash hraw]
      simp [firstSolution, hget]
    simp only [hstored, Option.some.injEq, forall_eq']
    simp only [SignSignature, if_neg hin, hsolver, Bool.not_true, Bool.false_eq_true, if_false,
      if_true, SignatureHash_setScriptSig]
    cases hnested : subscript.IsPayToScriptHash with
    | true =>
      -- the guard on the type refuses, whether or not the inner script is known
      simp [solver_type_scriptHash hnested]
    | false =>
      have hheld := held_of_stored hnested (hplain subscript hstored) hmine'
      have hlength : (((rawScript scriptPubKey).drop 2).take 20).length = 20 := by
        obtain ⟨hash, hlen, hform⟩ := IsPayToScriptHash_form hraw
        rw [hform, pushVch_hash hlen]
        simp [hlen]
      have hrevealed := uint160OfVch_injective (hdigest subscript) hlength (hsound.getCScript hget)
      obtain ⟨type, vs, htype, hsolver2, hinput⟩ :=
        hheld.signed hsound hsigns hdigest (hunsigned subscript (.inr hstored))
      have happended : vs.flatMap pushVch ++ pushVch subscript =
          (vs ++ [subscript]).flatMap pushVch := by simp
      have hverified : VerifyScript crypto ((txTo.setScriptSig nIn subscript).setScriptSig nIn
          ((vs ++ [subscript]).flatMap pushVch)) nIn STANDARD_SCRIPT_VERIFY_FLAGS 0
            ((vs ++ [subscript]).flatMap pushVch) scriptPubKey = true := by
        apply hinput.verifies_scriptHash hheld hstored hraw hrevealed hrunnable
        rw [SignatureHash_setScriptSig, SignatureHash_setScriptSig]
      simp only [hsolver2, happended, hverified]
      simp [htype]

end Held

/-! ## A script hash behind a script hash -/

namespace Scenario

def innerScript : CScript := SetBitcoinAddress ownerHash

def innerHash : valtype :=
  [0x2c, 0x04, 0x1d, 0xf5, 0x41, 0xab, 0xc8, 0x06, 0x86, 0xc1, 0xd8, 0x3c, 0x59, 0x5f, 0x83, 0x5e,
   0x7a, 0xd4, 0x0f, 0x5c]

def outerScript : CScript := payToScriptHash innerHash

def outerHash : valtype :=
  [0xa1, 0x7e, 0xee, 0x05, 0x16, 0xdb, 0x1c, 0xe0, 0x5a, 0xc0, 0x9a, 0x04, 0xc6, 0x76, 0x71, 0xb1,
   0x7d, 0xdf, 0xa2, 0x1e]

/-- The digests of the key and of the two scripts, and the signature of `relaySpend`. -/
def ownCrypto : ScriptCrypto :=
  { ownerCrypto with
    HASH160 := fun vch =>
      if vch = coSigner then ownerHash
      else if vch = innerScript then innerHash
      else if vch = outerScript then outerHash
      else List.replicate 20 0
    Verify := fun vchPubKey _ vchSig => vchPubKey == coSigner && vchSig == ownerSignature }

def ownKeys : CKeyStore Unit where
  HaveKey id := id == uint160OfVch ownerHash
  GetKey id := if id = uint160OfVch ownerHash then some () else none
  GetPubKey id := if id = uint160OfVch ownerHash then some coSigner else none
  GetCScript id :=
    if id = uint160OfVch innerHash then some innerScript
    else if id = uint160OfVch outerHash then some outerScript
    else none

def ownSign (_ : Unit) (_ : uint256) : Option valtype := some ownerSignature

theorem ownCrypto_digest (vch : valtype) : (ownCrypto.HASH160 vch).length = 20 := by
  simp only [ownCrypto]
  split
  · rfl
  · split
    · rfl
    · split
      · rfl
      · exact List.length_replicate

theorem eq_coSigner {vch : valtype}
    (h : CPubKey.GetID ownCrypto vch = uint160OfVch ownerHash) : vch = coSigner := by
  have hhash := uint160OfVch_injective (ownCrypto_digest vch) rfl h
  simp only [ownCrypto] at hhash
  split at hhash
  · assumption
  · split at hhash
    · exact absurd hhash (by decide)
    · split at hhash
      · exact absurd hhash (by decide)
      · exact absurd hhash (by decide)

theorem ownKeys_sound : ownKeys.Sound ownCrypto where
  getKey h := ⟨(), if_pos (beq_iff_eq.mp h)⟩
  getPubKey h := by
    have hid := beq_iff_eq.mp h
    have howner : CPubKey.GetID ownCrypto coSigner = uint160OfVch ownerHash := by decide
    exact ⟨coSigner, if_pos hid, howner.trans hid.symm⟩
  getCScript {id script} h := by
    simp only [ownKeys] at h
    split at h
    · rename_i hid
      rw [hid, ← Option.some.inj h]
      decide
    · split at h
      · rename_i hid
        rw [hid, ← Option.some.inj h]
        decide
      · simp at h

theorem ownKeys_signs : ownKeys.Signs ownCrypto ownSign where
  pubKey h := by
    rw [eq_coSigner (beq_iff_eq.mp h)]
    decide
  signs {id key} h _ hash := by
    refine ⟨ownerSignature, rfl, by decide, ?_⟩
    intro vch hid
    rw [eq_coSigner (hid.trans (beq_iff_eq.mp h))]
    simp [ownCrypto]

theorem unsigned_of_absent
    (h : script.FindAndDelete (pushVch (ownerSignature ++ [SIGHASH_ALL.toUInt8])) = script) :
    Unsigned ownKeys ownSign hash script := by
  intro id key sig _ hsig
  rwa [← Option.some.inj hsig]

end Scenario

open Scenario in
/-- The coin counts as the wallet's own, and signing for it fails. -/
theorem nested_coin_unsigned :
    (∀ vch, (ownCrypto.HASH160 vch).length = 20) ∧ ownKeys.Sound ownCrypto ∧
      ownKeys.Signs ownCrypto ownSign ∧
      ¬(IsMine ownCrypto ownKeys 3 (payToScriptHash outerHash) = some true →
        (SignSignature ownCrypto ownKeys ownSign (payToScriptHash outerHash) relaySpend 0
          SIGHASH_ALL).map Prod.fst = some true) := by
  refine ⟨ownCrypto_digest, ownKeys_sound, ownKeys_signs, ?_⟩
  decide

namespace Scenario

theorem relayOutput_closed :
    ClosedPrefix [[0x61], [0x62]] [0x6d, 0x75] (relayOutput [0x62]) ∧
      rawScript (relayOutput [0x62]) = SetBitcoinAddress ownerHash := by
  have hsolver : Solver (SetBitcoinAddress ownerHash) = (true, TX_PUBKEYHASH, [ownerHash]) := by
    decide
  have hround : RoundTrip OP_ALIAS_RELAY [[0x61], [0x62]] [0x6d, 0x75]
      (SetBitcoinAddress ownerHash) :=
    (alias_codec_round_trip_iff (by decide) (by decide) (by decide) (by decide +kernel)
      hsolver (.inl rfl)).mpr ⟨by decide, allCounted_of_short (by decide)⟩
  exact hround.closedPrefix (by decide) (by decide) (by decide) (by decide +kernel) (by decide)

end Scenario

open Scenario in
/-- The output of a relay of a name. -/
theorem own_output_signed_relay :
    (SignSignature ownCrypto ownKeys ownSign (relayOutput [0x62]) relaySpend 0 SIGHASH_ALL).map
        Prod.fst = some true ↔
      ∀ subscript, storedScript ownKeys (rawScript (relayOutput [0x62])) = some subscript →
        subscript.IsPayToScriptHash = false := by
  obtain ⟨hclosed, hraw⟩ := relayOutput_closed
  have hnone : ∀ subscript,
      storedScript ownKeys (rawScript (relayOutput [0x62])) ≠ some subscript := by
    have hstored : storedScript ownKeys (SetBitcoinAddress ownerHash) = none := by decide
    simp [hraw, hstored]
  have hmine : IsMine ownCrypto ownKeys 1 (relayOutput [0x62]) = some true := by decide
  refine own_output_signed ownCrypto_digest ownKeys_sound ownKeys_signs (by decide) ?_
    (.closed hclosed (by decide) (by decide) (by decide))
    (fun subscript h => absurd h (hnone subscript)) hmine
  rintro script (rfl | h)
  · exact unsigned_of_absent (by decide)
  · exact absurd h (hnone script)

end Dions
