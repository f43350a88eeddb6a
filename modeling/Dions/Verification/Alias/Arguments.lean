import Dions.Verification.Scenario

/-! # Arguments of alias scripts

`aliasScript` constrains the number of arguments for three opcodes only, and the opcode it leaves
may come from a later output than the arguments do. The functions that decode alias transactions
stay in range exactly under the conditions collected here. -/

namespace Dions

open Halting

variable (env : Env)
variable {tx : CTransaction} {prev : PrevAlias}
variable {op : ℕ} {g : Globals} {vTxindex : List CTxIndex} {pindexBlock : Option CBlockIndex}
  {fBlock fMiner : Bool} {ln1Db : AliasDb} {files : BlockFile} {pindex : CBlockIndex}

/-! ## The single checks -/

theorem verifymessage_safe (strAddress strSig : vchType) (parts : List vchType) :
    (verifymessage env strAddress strSig parts).Safe := by
  unfold verifymessage
  split
  · simp
  · split
    · simp
    · split <;> simp

/-- A message with its signature in argument `nSig` reads all the arguments up to that one. -/
theorem checkMessage_safe_iff {vvchArgs : List vchType} {nSig : ℕ} (hn : 2 ≤ nSig) :
    (checkMessage env vvchArgs nSig).Safe ↔ nSig < vvchArgs.length := by
  simp only [checkMessage, Exec.avoids_seq, Exec.safe_read, read_eq_ok, verifymessage_safe,
    Exec.safe_require, implies_true, and_true]
  constructor
  · rintro ⟨h0, h⟩
    obtain ⟨h1, h⟩ := h _ (List.getElem?_eq_getElem h0)
    obtain ⟨h2, h⟩ := h _ (List.getElem?_eq_getElem h1)
    exact h _ (List.getElem?_eq_getElem h2)
  · intro hlen
    exact ⟨by omega, fun _ _ => ⟨by omega, fun _ _ => ⟨by omega, fun _ _ => hlen⟩⟩⟩

/-- The address of the signer is argument 2 of the previous output when that output has arguments
at all. -/
def SignerArgs (args prevArgs : List vchType) : Prop :=
  (prevArgs = [] ∧ 3 ≤ args.length) ∨ 3 ≤ prevArgs.length

theorem signerAddress_safe_iff {args prevArgs : List vchType} :
    (signerAddress env args prevArgs).Safe ↔ SignerArgs args prevArgs := by
  simp only [signerAddress, Exec.avoids_seq, Exec.safe_read, Exec.avoids_ok, implies_true, and_true,
    SignerArgs]
  rcases prevArgs with _ | ⟨a, rest⟩
  · simp
    omega
  · have hne : (a :: rest).length ≠ 0 := by simp
    rw [if_pos hne]
    constructor
    · exact Or.inr
    · exact fun h => h.resolve_left (by simp)

/-- What an encrypted alias needs once its hash has the right length. -/
def EncryptedArgs (args prevArgs : List vchType) : Prop :=
  4 ≤ args.length ∧ ∀ vchHash, args[3]? = some vchHash → vchHash.length = 20 →
    SignerArgs args prevArgs ∧ 6 ≤ args.length

theorem signerAddress_exists {args prevArgs : List vchType} (h : SignerArgs args prevArgs) :
    ∃ address, signerAddress env args prevArgs = .ok address := by
  have hlen : 2 < (if prevArgs.length ≠ 0 then prevArgs else args).length := by
    rcases h with ⟨rfl, h⟩ | h
    · exact h
    · rw [if_pos (by omega)]
      exact h
  exact ⟨_, seq_ok.mpr ⟨_, read_eq_ok.mpr (List.getElem?_eq_getElem hlen), rfl⟩⟩

theorem checkAliasEncrypted_safe_iff {args prevArgs : List vchType} :
    (checkAliasEncrypted env tx args prevArgs).Safe ↔ EncryptedArgs args prevArgs := by
  have hend : ∀ r : vchType, Exec.Safe (if r ≠ [48] ∧ !env.storeRandom tx then
      (.error .raised : Exec Unit) else .ok ()) := by
    intro r
    split <;> simp
  simp only [checkAliasEncrypted, Exec.avoids_seq, Exec.safe_read, read_eq_ok, Exec.safe_require,
    require_eq_ok, signerAddress_safe_iff, verifymessage_safe, hend, implies_true, and_true,
    true_and, forall_const, EncryptedArgs]
  refine and_congr Iff.rfl (forall_congr' fun vchHash => imp_congr_right fun h3 =>
    imp_congr_right fun _ => ?_)
  have hlen : 4 ≤ args.length := (List.getElem?_eq_some_iff.mp h3).1
  constructor
  · rintro ⟨hsigner, h⟩
    obtain ⟨address, haddress⟩ := signerAddress_exists env hsigner
    obtain ⟨h0, h⟩ := h address haddress
    obtain ⟨h4, h⟩ := h _ (List.getElem?_eq_getElem h0)
    exact ⟨hsigner, (h _ (List.getElem?_eq_getElem h4)).1⟩
  · rintro ⟨hsigner, h6⟩
    refine ⟨hsigner, fun _ _ => ⟨by omega, fun _ _ => ⟨by omega, fun _ _ => ⟨by omega, ?_⟩⟩⟩⟩
    intro _ _
    omega

def SetVerified (args prevArgs : List vchType) : Prop :=
  ∃ address sig vchAlias, signerAddress env args prevArgs = .ok address ∧ args[1]? = some sig ∧
    args[0]? = some vchAlias ∧ verifymessage env address sig [vchAlias] = .ok true

/-- What a decrypted alias needs on top of an encrypted one. -/
def SetArgs (args prevArgs : List vchType) : Prop :=
  SignerArgs args prevArgs ∧ 2 ≤ args.length ∧
    (SetVerified env args prevArgs → 3 ≤ args.length ∧ 3 ≤ prevArgs.length ∧
      (args[2]? = prevArgs[2]? → 4 ≤ args.length ∧
        ∀ value vchRand, args[2]? = some value → args[3]? = some vchRand →
          vchRand.length ≤ 20 → value.length ≤ MAX_XUNIT_LENGTH → 4 ≤ prevArgs.length))

theorem checkAliasSet_safe_iff {args : List vchType} :
    (checkAliasSet env prev args).Safe ↔
      (prev.found ∧ prev.prevOp = some OP_ALIAS_ENCRYPTED →
        SetArgs env args prev.vvchPrevArgs) := by
  simp only [checkAliasSet, Exec.avoids_seq, Exec.safe_read, read_eq_ok, Exec.safe_require,
    require_eq_ok, signerAddress_safe_iff, verifymessage_safe, implies_true, and_true, true_and,
    forall_const, SetArgs]
  refine imp_congr_right fun _ => ?_
  constructor
  · rintro ⟨hsigner, h⟩
    obtain ⟨address, haddress⟩ := signerAddress_exists env hsigner
    have h1 := (h address haddress).1
    refine ⟨hsigner, by omega, ?_⟩
    rintro ⟨address', sig, vchAlias, haddress', hsig, halias, hverified⟩
    obtain ⟨-, h⟩ := h address' haddress'
    obtain ⟨-, h⟩ := h sig hsig
    obtain ⟨h2, h⟩ := h vchAlias halias true hverified rfl
    obtain ⟨hp2, h⟩ := h _ (List.getElem?_eq_getElem h2)
    refine ⟨by omega, by omega, fun heq => ?_⟩
    have heq' : args[2] = prev.vvchPrevArgs[2] := by
      rw [List.getElem?_eq_getElem h2, List.getElem?_eq_getElem hp2, Option.some.injEq] at heq
      exact heq
    obtain ⟨h3, h⟩ := h _ (List.getElem?_eq_getElem hp2) heq'
    refine ⟨by omega, fun value vchRand hvalue hrand h20 hmax => ?_⟩
    rw [List.getElem?_eq_getElem h2, Option.some.injEq] at hvalue
    exact h vchRand hrand h20 (hvalue ▸ hmax)
  · rintro ⟨hsigner, h2, h⟩
    refine ⟨hsigner, fun address haddress => ⟨by omega, fun sig hsig => ⟨by omega, ?_⟩⟩⟩
    intro vchAlias halias ok hverified hok
    subst hok
    obtain ⟨h3, hp3, h⟩ := h ⟨address, sig, vchAlias, haddress, hsig, halias, hverified⟩
    refine ⟨by omega, fun a ha => ⟨by omega, fun b hb heq => ?_⟩⟩
    obtain ⟨h4, h⟩ := h (by rw [ha, hb, heq])
    exact ⟨by omega, fun vchRand hrand h20 hmax => h a vchRand ha hrand h20 hmax⟩

/-- What a relay needs on top of the output it relays. -/
def RelayArgs (args prevArgs : List vchType) : Prop :=
  2 ≤ args.length ∧ ∀ value, args[1]? = some value → value.length ≤ MAX_XUNIT_LENGTH →
    prevArgs ≠ []

theorem checkAliasRelay_safe_iff {args : List vchType} :
    (checkAliasRelay prev args).Safe ↔
      (prev.found ∧ (prev.prevOp = some OP_ALIAS_SET ∨ prev.prevOp = some OP_ALIAS_RELAY) →
        RelayArgs args prev.vvchPrevArgs) := by
  simp only [checkAliasRelay, Exec.avoids_seq, Exec.safe_read, read_eq_ok, Exec.safe_require,
    require_eq_ok, implies_true, and_true, true_and, forall_const, RelayArgs]
  refine imp_congr_right fun _ => and_congr Iff.rfl ?_
  refine forall_congr' fun value => imp_congr_right fun h1 => imp_congr_right fun _ => ?_
  have hlen : 1 < args.length := (List.getElem?_eq_some_iff.mp h1).1
  rw [← List.length_pos_iff]
  constructor
  · intro h
    exact h.1
  · intro h
    exact ⟨h, fun _ _ => by omega⟩

/-! ## ConnectInputsPost -/

theorem opcodes : OP_ALIAS_ENCRYPTED = 1 ∧ OP_ALIAS_SET = 2 ∧ OP_ALIAS_RELAY = 3 ∧
    OP_MESSAGE = 5 ∧ OP_ENCRYPTED_MESSAGE = 6 ∧ OP_PUBLIC_KEY = 7 ∧ OP_VERTEX = 9 ∧
    OP_MAP_PROJECT = 16 := by
  decide

/-- What the switch of `ConnectInputsPost` needs, opcode by opcode. -/
structure SwitchArgs (prev : PrevAlias) (op : ℕ) (args : List vchType) : Prop where
  keys : op = OP_PUBLIC_KEY ∨ op = OP_VERTEX → 5 ≤ args.length
  encrypted : op = OP_ENCRYPTED_MESSAGE ∨ op = OP_MAP_PROJECT → 5 ≤ args.length
  message : op = OP_MESSAGE → 4 ≤ args.length
  aliasEncrypted : op = OP_ALIAS_ENCRYPTED → EncryptedArgs args prev.vvchPrevArgs
  aliasSet : op = OP_ALIAS_SET → prev.found ∧ prev.prevOp = some OP_ALIAS_ENCRYPTED →
    SetArgs env args prev.vvchPrevArgs
  aliasRelay : op = OP_ALIAS_RELAY →
    prev.found ∧ (prev.prevOp = some OP_ALIAS_SET ∨ prev.prevOp = some OP_ALIAS_RELAY) →
      RelayArgs args prev.vvchPrevArgs

theorem switchArgs_iff {args : List vchType} :
    SwitchArgs env prev op args ↔
      (op = OP_PUBLIC_KEY ∨ op = OP_VERTEX → 5 ≤ args.length) ∧
      (op = OP_ENCRYPTED_MESSAGE ∨ op = OP_MAP_PROJECT → 5 ≤ args.length) ∧
      (op = OP_MESSAGE → 4 ≤ args.length) ∧
      (op = OP_ALIAS_ENCRYPTED → EncryptedArgs args prev.vvchPrevArgs) ∧
      (op = OP_ALIAS_SET → prev.found ∧ prev.prevOp = some OP_ALIAS_ENCRYPTED →
        SetArgs env args prev.vvchPrevArgs) ∧
      (op = OP_ALIAS_RELAY →
        prev.found ∧ (prev.prevOp = some OP_ALIAS_SET ∨ prev.prevOp = some OP_ALIAS_RELAY) →
          RelayArgs args prev.vvchPrevArgs) :=
  ⟨fun h => ⟨h.1, h.2, h.3, h.4, h.5, h.6⟩, fun ⟨h1, h2, h3, h4, h5, h6⟩ =>
    ⟨h1, h2, h3, h4, h5, h6⟩⟩

theorem connectInputsSwitch_safe_iff {pool : TxIndexMap} {args : List vchType}
    (hargs : 0 < args.length) :
    (connectInputsSwitch env g pool tx prev vTxindex pindexBlock fBlock fMiner op args).Safe ↔
      SwitchArgs env prev op args := by
  have h4 : (checkMessage env args 4).Safe ↔ _ := checkMessage_safe_iff env (by omega)
  have h3 : (checkMessage env args 3).Safe ↔ _ := checkMessage_safe_iff env (by omega)
  unfold connectInputsSwitch
  split
  · rename_i hop
    have hlen : SwitchArgs env prev op args ↔ 4 < args.length := by
      rcases hop with rfl | rfl <;> simp [switchArgs_iff, opcodes, Nat.lt_iff_add_one_le]
    have hexport : ∀ a b : vchType, Halt.Safe (if (g.k1Export (a ++ b)).isNone then
        .ok { g with k1Export := g.k1Export.insert (a ++ b) (tx.GetHash env) } else .ok g :
          Halt Globals Globals) := by
      intro a b
      split <;> simp
    simp only [Halt.avoids_seq, Halt.avoids_within, h4, Exec.safe_read, within_eq_ok, read_eq_ok,
      hexport, implies_true, and_true, hlen]
    exact ⟨fun h => h.1, fun h => ⟨h, fun _ _ => ⟨by omega, fun _ _ => by omega⟩⟩⟩
  rename_i hkeys
  split
  · rename_i hop
    have hlen : SwitchArgs env prev op args ↔ 4 < args.length := by
      rcases hop with rfl | rfl <;> simp [switchArgs_iff, opcodes, Nat.lt_iff_add_one_le]
    simp only [Halt.avoids_seq, Halt.avoids_within, h4, Halt.avoids_ok, implies_true, and_true, hlen]
  rename_i hencrypted
  split
  · rename_i hop
    have hlen : SwitchArgs env prev op args ↔ 3 < args.length := by
      rw [hop]
      simp [switchArgs_iff, opcodes, Nat.lt_iff_add_one_le]
    simp only [Halt.avoids_seq, Halt.avoids_within, h3, Halt.avoids_ok, implies_true, and_true, hlen]
  rename_i hmessage
  split
  · rename_i hop
    have hlen : SwitchArgs env prev op args ↔ EncryptedArgs args prev.vvchPrevArgs := by
      rw [hop]
      simp [switchArgs_iff, opcodes]
    simp only [Halt.avoids_seq, Halt.avoids_within, checkAliasEncrypted_safe_iff, Halt.avoids_ok,
      implies_true, and_true, hlen]
  rename_i haliasEncrypted
  split
  · rename_i hop
    have hlen : SwitchArgs env prev op args ↔ (prev.found ∧
        prev.prevOp = some OP_ALIAS_ENCRYPTED → SetArgs env args prev.vvchPrevArgs) := by
      rw [hop]
      simp [switchArgs_iff, opcodes]
    rw [hlen, ← checkAliasSet_safe_iff]
    simp only [Halt.avoids_seq, Halt.avoids_within, Exec.safe_access, Exec.safe_require, within_eq_ok]
    refine ⟨fun h => h.1, fun h => ⟨h, fun _ _ => ⟨trivial, fun _ _ => ⟨trivial, fun _ _ => ?_⟩⟩⟩⟩
    split
    · simp only [Halt.avoids_seq, Halt.avoids_within, Exec.safe_read, Exec.safe_require, Halt.avoids_ok,
        implies_true, and_true, true_and]
      exact fun _ _ => hargs
    · simp
  rename_i haliasSet
  split
  · rename_i hop
    have hlen : SwitchArgs env prev op args ↔ (prev.found ∧
        (prev.prevOp = some OP_ALIAS_SET ∨ prev.prevOp = some OP_ALIAS_RELAY) →
          RelayArgs args prev.vvchPrevArgs) := by
      rw [hop]
      simp [switchArgs_iff, opcodes]
    rw [hlen, ← checkAliasRelay_safe_iff]
    simp only [Halt.avoids_seq, Halt.avoids_within, Exec.safe_access, Exec.safe_require, Halt.avoids_ok,
      implies_true, and_true]
  rename_i haliasRelay
  simp only [Halt.avoids_error, ne_eq, reduceCtorEq, not_false_eq_true, true_iff, switchArgs_iff]
  exact ⟨fun h => absurd h hkeys, fun h => absurd h hencrypted, fun h => absurd h hmessage,
    fun h => absurd h haliasEncrypted, fun h => absurd h haliasSet,
    fun h => absurd h haliasRelay⟩

/-- What `ConnectInputsPost` needs of a transaction and of the outputs it spends: nothing unless
both are decoded without failure. -/
def ConnectArgs (tx : CTransaction) (vTxPrev : List CTransaction) : Prop :=
  ∀ outs prev, prevOutputs tx.vin vTxPrev = .ok outs →
    prevAliasLoop outs 0 ⟨false, none, 0, []⟩ = .ok prev → (aliasTx tx).ret = true →
      (aliasTx tx).vvch ≠ [] ∧
        ∀ name, (aliasTx tx).vvch[0]? = some name → name.length ≤ MAX_LOCATOR_LENGTH →
          SwitchArgs env prev ((aliasTx tx).op.getD 0) (aliasTx tx).vvch

theorem prevOutputs_safe (vin : List CTxIn) (vTxPrev : List CTransaction) :
    (prevOutputs vin vTxPrev).Safe := by
  induction vin generalizing vTxPrev with
  | nil => simp [prevOutputs]
  | cons txin vin ih =>
      cases vTxPrev with
      | nil => simp [prevOutputs]
      | cons txPrev vTxPrev =>
          simp only [prevOutputs]
          split
          · simp
          · simp [Exec.avoids_seq, ih]

theorem prevAliasLoop_safe (outs : List CTxOut) (i : ℕ) (acc : PrevAlias) :
    (prevAliasLoop outs i acc).Safe := by
  induction outs generalizing i acc with
  | nil => simp [prevAliasLoop]
  | cons out outs ih =>
      simp only [prevAliasLoop]
      split
      · split
        · simp
        · exact ih _ _
      · exact ih _ _

theorem connectInputsPost_safe_iff {view : View} {pool : TxIndexMap} {vTxPrev : List CTransaction} :
    (ConnectInputsPost env view g pool tx vTxPrev vTxindex pindexBlock fBlock fMiner).Safe ↔
      (tx.nVersion = CTransaction.DION_TX_VERSION → ConnectArgs env tx vTxPrev) := by
  unfold ConnectInputsPost
  split
  · rename_i hversion
    simp [hversion]
  rename_i hversion
  have hv : tx.nVersion = CTransaction.DION_TX_VERSION := not_not.mp hversion
  have hend : ∀ (g : Globals) (name : vchType) (prev : PrevAlias),
      Halt.Safe (if !fBlock ∧ (aliasTx tx).op.getD 0 = OP_ALIAS_RELAY then (do
          let txindex ← (access vTxindex prev.nInput).within g
          (require (aliasTxPos (vtxPosOf view.ln1Db name) txindex.pos = true)).within g
          .ok g : Halt Globals Globals)
        else if fBlock ∧ (aliasTx tx).op.getD 0 ≠ OP_ALIAS_ENCRYPTED then
          .ok { g with mapState := g.mapState.erase name (tx.GetHash env) }
        else .ok g) := by
    intro g name prev
    split
    · simp [Halt.avoids_seq]
    · split <;> simp
  simp only [Halt.avoids_seq, Halt.avoids_within, prevOutputs_safe, prevAliasLoop_safe,
    Exec.safe_require, Exec.safe_read, within_eq_ok, read_eq_ok, require_eq_ok, hend,
    implies_true, and_true, true_and, hv, forall_const, ConnectArgs, ← List.length_pos_iff]
  refine forall_congr' fun outs => ?_
  constructor
  · intro h prev houts hprev hret
    obtain ⟨hpos, h⟩ := h houts prev hprev hret
    exact ⟨hpos, fun name hname hlen =>
      (connectInputsSwitch_safe_iff env hpos).mp (h name hname hlen)⟩
  · intro h houts prev hprev hret
    obtain ⟨hpos, h⟩ := h prev houts hprev hret
    exact ⟨hpos, fun name hname hlen =>
      (connectInputsSwitch_safe_iff env hpos).mpr (h name hname hlen)⟩

/-! ## The memory pool hooks -/

/-- What `AcceptToMemoryPoolPost` needs. -/
def PoolArgs (tx : CTransaction) : Prop :=
  (aliasTx tx).ret = true → (aliasTx tx).op.getD 0 ≠ OP_ALIAS_ENCRYPTED → (aliasTx tx).vvch ≠ []

def RemoveArgs (tx : CTransaction) : Prop :=
  PoolArgs tx ∧ ((aliasTx tx).ret = true →
    (aliasTx tx).op.getD 0 = OP_PUBLIC_KEY ∨ (aliasTx tx).op.getD 0 = OP_VERTEX →
      2 ≤ (aliasTx tx).vvch.length)

theorem vout_length_of_aliasTx (h : (aliasTx tx).ret = true) : 1 ≤ tx.vout.length := by
  unfold aliasTx at h
  cases hv : tx.vout with
  | nil => simp [hv, aliasTxLoop] at h
  | cons out vout => simp

theorem acceptToMemoryPoolPost_safe_iff {view : View} :
    (AcceptToMemoryPoolPost env view g tx).Safe ↔
      (tx.nVersion = CTransaction.DION_TX_VERSION → PoolArgs tx) := by
  unfold AcceptToMemoryPoolPost
  split
  · rename_i hversion
    simp [hversion]
  rename_i hversion
  have hv : tx.nVersion = CTransaction.DION_TX_VERSION := not_not.mp hversion
  simp only [Halt.avoids_seq, Halt.avoids_within, Exec.safe_require, within_eq_ok, require_eq_ok,
    true_and, hv, forall_const, PoolArgs, ← List.length_pos_iff]
  -- the rest behind the two tests reads the name, except for an encrypted alias
  have hrest : ∀ op : ℕ, Halt.Safe (if op = OP_ALIAS_SET then (do
        let name ← (read (aliasTx tx).vvch 0).within g
        (require (name.length ≤ MAX_LOCATOR_LENGTH)).within g
        (require (¬(0 ≤ aliasHeight view.ln1Db name ∧
          unsignedDiff view.nBestHeight (aliasHeight view.ln1Db name) <
            env.scaleMonitor))).within g
        .ok { g with mapState := g.mapState.insert name (tx.GetHash env) } : Halt Globals Globals)
      else if op ≠ OP_ALIAS_ENCRYPTED then do
        let name ← (read (aliasTx tx).vvch 0).within g
        .ok { g with mapState := g.mapState.insert name (tx.GetHash env) }
      else .ok g) ↔ (op ≠ OP_ALIAS_ENCRYPTED → 0 < (aliasTx tx).vvch.length) := by
    intro op
    split
    · rename_i hop
      simp [Halt.avoids_seq, hop, opcodes]
    · split
      · rename_i hop
        simp [Halt.avoids_seq, hop]
      · rename_i hop
        simp [hop]
  simp only [hrest]
  constructor
  · intro h hret
    exact h (vout_length_of_aliasTx hret) hret
  · intro h _ hret
    exact h hret

theorem removeFromMemoryPoolPost_safe_iff :
    (RemoveFromMemoryPoolPost env g tx).Safe ↔
      (tx.nVersion = CTransaction.DION_TX_VERSION → RemoveArgs tx) := by
  unfold RemoveFromMemoryPoolPost
  split
  · rename_i hversion
    simp [hversion]
  rename_i hversion
  have hv : tx.nVersion = CTransaction.DION_TX_VERSION := not_not.mp hversion
  have hnot : ¬ (aliasTx tx).ret = true → RemoveArgs tx := fun hret =>
    ⟨fun h => absurd h hret, fun h => absurd h hret⟩
  simp only [hv, forall_const]
  split
  · rename_i hout
    have hret : ¬ (aliasTx tx).ret = true := fun h => by
      have := vout_length_of_aliasTx h
      omega
    simp [hnot hret]
  rename_i hout
  split
  · rename_i hret
    simp [hnot (by simpa using hret)]
  rename_i hret
  have hret' : (aliasTx tx).ret = true := by simpa using hret
  simp only [RemoveArgs, PoolArgs, hret', forall_const, ← List.length_pos_iff]
  by_cases henc : (aliasTx tx).op.getD 0 = OP_ALIAS_ENCRYPTED
  · have hkeys : ¬ ((aliasTx tx).op.getD 0 = OP_PUBLIC_KEY ∨
        (aliasTx tx).op.getD 0 = OP_VERTEX) := by
      rw [henc]
      simp [opcodes]
    simp [Halt.avoids_seq, henc, opcodes]
  · simp only [ne_eq, henc, not_false_eq_true, if_true, forall_const]
    by_cases hkeys : (aliasTx tx).op.getD 0 = OP_PUBLIC_KEY ∨
        (aliasTx tx).op.getD 0 = OP_VERTEX
    · simp only [Halt.avoids_seq, Halt.avoids_within, Exec.safe_read, Halt.avoids_ok, hkeys, if_true,
        within_eq_ok, read_eq_ok, implies_true, and_true, forall_const]
      constructor
      · rintro ⟨h0, h⟩
        have hname := List.getElem?_eq_getElem h0
        exact ⟨h0, ((h _ hname).2 _ rfl).2 _ hname⟩
      · rintro ⟨h0, h1⟩
        exact ⟨h0, fun _ _ => ⟨trivial, fun _ _ => ⟨h0, fun _ _ => h1⟩⟩⟩
    · simp [Halt.avoids_seq, hkeys]

/-! ## filter -/

/-- The database and the files let `filter` come to the value of a relay: the transaction is found
again under its hash, and the name has a record. -/
def RelayWritten (files : BlockFile) (txdb : TxIndexMap) (ln1Db : AliasDb) (tx : CTransaction) :
    Prop :=
  ∃ tx' txout scriptPubKey name, GetTransaction files txdb (tx.GetHash env) = some tx' ∧
    tx'.vout[(aliasTx tx).nOut.getD 0]? = some txout ∧
    aliasStrip txout.scriptPubKey = some scriptPubKey ∧
    (txdb (tx'.GetHash env)).isSome ∧ (aliasTx tx).vvch[0]? = some name ∧ (ln1Db name).isSome

/-- What one step of `filter` needs in a given database: the name of a set or a relay, and the
value of a relay that will be written. -/
def FilterArgs (files : BlockFile) (txdb : TxIndexMap) (ln1Db : AliasDb) (tx : CTransaction) :
    Prop :=
  tx.nVersion = CTransaction.DION_TX_VERSION →
    (aliasTx tx).op.getD (env.unassigned tx) = OP_ALIAS_SET ∨
      (aliasTx tx).op.getD (env.unassigned tx) = OP_ALIAS_RELAY →
    (aliasTx tx).vvch ≠ [] ∧
      ((aliasTx tx).op.getD (env.unassigned tx) = OP_ALIAS_RELAY →
        RelayWritten env files txdb ln1Db tx → 2 ≤ (aliasTx tx).vvch.length)

theorem putAlias_safe_iff {args : List vchType} {r : AliasIndex} :
    (putAlias env ln1Db op args r).Safe ↔ 0 < args.length ∧ ∀ name, args[0]? = some name →
      op ≠ OP_ALIAS_SET → (ln1Db name).isSome → 2 ≤ args.length := by
  simp only [putAlias, Exec.avoids_seq, Exec.safe_read, read_eq_ok]
  refine and_congr Iff.rfl (forall_congr' fun name => imp_congr_right fun _ => ?_)
  split
  · rename_i hop
    cases hdb : ln1Db name with
    | none => simp [hop]
    | some v =>
      refine iff_of_true ?_ fun hne => absurd hop hne
      dsimp only
      split
      · simp
      · split <;> simp
  · rename_i hop
    cases hdb : ln1Db name with
    | none => simp
    | some v => simp [hop, Exec.avoids_seq, Nat.lt_iff_add_one_le]

theorem filterTx_safe_iff {txdb : TxIndexMap} {txPos : CDiskTxPos} :
    (filterTx env files txdb pindex ln1Db txPos tx).Safe ↔
      FilterArgs env files txdb ln1Db tx := by
  unfold filterTx FilterArgs
  split
  · rename_i hversion
    simp [hversion]
  rename_i hversion
  simp only [not_not.mp hversion, forall_const]
  generalize hop : (aliasTx tx).op.getD (env.unassigned tx) = op
  split
  swap
  · rename_i hnot
    simp [hnot]
  rename_i hsome
  simp only [hsome, forall_const, Halt.avoids_seq, Halt.avoids_within, Exec.safe_read, within_eq_ok,
    read_eq_ok, ← List.length_pos_iff]
  refine and_congr_right fun h0 => ?_
  have hname := List.getElem?_eq_getElem h0
  simp only [hname, Option.some.injEq, forall_eq', RelayWritten]
  have hset : op ≠ OP_ALIAS_SET ↔ op = OP_ALIAS_RELAY := by
    rcases hsome with rfl | rfl <;> simp [opcodes]
  cases hget : GetTransaction files txdb (tx.GetHash env) with
  | none => simp
  | some tx' =>
      cases hout : tx'.vout[(aliasTx tx).nOut.getD 0]? with
      | none => simp [hout]
      | some txout =>
          cases hstrip : aliasStrip txout.scriptPubKey with
          | none => simp [hout, hstrip]
          | some scriptPubKey =>
              by_cases hindexed : (txdb (tx'.GetHash env)).isSome = true
              · simp [hout, hstrip, hindexed, Halt.avoids_seq, putAlias_safe_iff, h0, hset]
              · simp [hout, hstrip, hindexed]

/-- A property of every transaction of a block, in the database that `filter` has made by then. -/
def FilterAlong (files : BlockFile) (txdb : TxIndexMap) (pindex : CBlockIndex)
    (Q : AliasDb → CTransaction → Prop) : (nTxPos : ℕ) → List CTransaction → AliasDb → Prop
  | _, [], _ => True
  | nTxPos, tx :: vtx, ln1Db =>
    Q ln1Db tx ∧ ∀ r, filterTx env files txdb pindex ln1Db
        ⟨pindex.nFile, pindex.nBlockPos, nTxPos⟩ tx = .ok r →
      FilterAlong files txdb pindex Q (nTxPos + r.2.GetSerializeSize) vtx r.1

theorem filterLoop_safe_iff {txdb : TxIndexMap} {nTxPos : ℕ} {vtx : List CTransaction} :
    (filterLoop env files txdb pindex nTxPos vtx ln1Db).Safe ↔
      FilterAlong env files txdb pindex (FilterArgs env files txdb) nTxPos vtx ln1Db := by
  induction vtx generalizing nTxPos ln1Db with
  | nil => simp [filterLoop, FilterAlong]
  | cons tx vtx ih =>
      simp only [filterLoop, Halt.avoids_seq, filterTx_safe_iff, FilterAlong]
      exact and_congr Iff.rfl (forall_congr' fun r => imp_congr_right fun _ => ih)

/-! ## The four functions -/

/-- Each of the four functions that decode alias transactions stays inside its vectors of script
arguments exactly under the condition on the numbers of arguments collected for it. -/
theorem alias_arguments_in_range_iff (view : View) (g : Globals) (tx : CTransaction) :
    (∀ pool vTxPrev vTxindex pindexBlock fBlock fMiner,
      (ConnectInputsPost env view g pool tx vTxPrev vTxindex pindexBlock fBlock fMiner).Safe ↔
        (tx.nVersion = CTransaction.DION_TX_VERSION → ConnectArgs env tx vTxPrev)) ∧
      ((AcceptToMemoryPoolPost env view g tx).Safe ↔
        (tx.nVersion = CTransaction.DION_TX_VERSION → PoolArgs tx)) ∧
      ((RemoveFromMemoryPoolPost env g tx).Safe ↔
        (tx.nVersion = CTransaction.DION_TX_VERSION → RemoveArgs tx)) ∧
      ∀ (files : BlockFile) (txdb : TxIndexMap) (ln1Db : AliasDb) (pindex : CBlockIndex),
        (LocatorNodeDB.filter env files txdb ln1Db pindex).Safe ↔
          FilterAlong env files txdb pindex (FilterArgs env files txdb)
            (firstTxPos pindex.nBlockPos (filterBlock files pindex).length)
            (filterBlock files pindex) ln1Db :=
  ⟨fun _ _ _ _ _ _ => connectInputsPost_safe_iff env, acceptToMemoryPoolPost_safe_iff env,
    removeFromMemoryPoolPost_safe_iff env, fun _ _ _ _ => filterLoop_safe_iff env⟩

namespace Scenario

/-- A message without arguments: `OP_5 OP_DROP` in front of an output script. -/
def emptyMessage : CTransaction :=
  spending 10900 CTransaction.DION_TX_VERSION [⟨999, 0⟩] [⟨624 * COIN, [0x55, 0x75, 0x51]⟩]

end Scenario

open Scenario in
/-- A node of the test network that is sent a message without arguments reads an argument of it. -/
theorem emptyMessage_outOfRange :
    ∃ node s, afterBlocks (firstBlocks 11) = .ok node ∧
      (aliasTx emptyMessage).ret = true ∧ (aliasTx emptyMessage).vvch = [] ∧
      AcceptToMemoryPool (timed testNet) io node emptyMessage = .error (.outOfRange, s) := by
  have htest : (match afterBlocks (firstBlocks 11) with
      | .error _ => false
      | .ok node =>
        match AcceptToMemoryPool (timed testNet) io node emptyMessage with
        | .error (.outOfRange, _) => true
        | _ => false) = true := by
    decide +kernel
  split at htest
  · simp at htest
  rename_i node hnode
  split at htest
  · rename_i s hs
    exact ⟨node, s, hnode, by decide, by decide, hs⟩
  · simp at htest

end Dions
