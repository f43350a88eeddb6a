import Dions.Verification.Scenario

/-! # Openings of an encrypted alias

The commitment of an encrypted alias is a hash of the random bytes followed by the name. Both
parts have any length, so the commitment binds the owner to their concatenation, and to the name
only among openings whose random parts are equally long. -/

namespace Dions

open Halting

variable (env : Env)
variable {outs : List CTxOut} {i : ℕ} {acc r : PrevAlias} {out : CTxOut}

def SpendsOutput (tx : CTransaction) (vTxPrev : List CTransaction) (out : CTxOut) : Prop :=
  ∃ (k : ℕ) (txin : CTxIn) (txPrev : CTransaction), tx.vin[k]? = some txin ∧
    vTxPrev[k]? = some txPrev ∧ txPrev.vout[txin.prevout.n]? = some out

/-- The transaction is a set that spends the output, reveals these random bytes and this name, and
passes `ConnectInputsPost` in some state and mode. -/
def Opens (out : CTxOut) (tx : CTransaction) (vchRand vchAlias : vchType) : Prop :=
  tx.nVersion = CTransaction.DION_TX_VERSION ∧ (aliasTx tx).op.getD 0 = OP_ALIAS_SET ∧
    (aliasTx tx).vvch[3]? = some vchRand ∧ (aliasTx tx).vvch[0]? = some vchAlias ∧
    ∃ view g g' mapTestPool vTxPrev vTxindex pindexBlock fBlock fMiner,
      SpendsOutput tx vTxPrev out ∧
        ConnectInputsPost env view g mapTestPool tx vTxPrev vTxindex pindexBlock fBlock fMiner =
          .ok g'

variable {env}

/-! ## The previous output -/

/-- What a script decodes to does not depend on what the opcode variable held. -/
theorem aliasScript_op (script : CScript) (op op' : Option ℕ) :
    (aliasScript script op).ret = (aliasScript script op').ret ∧
      (aliasScript script op).vvch = (aliasScript script op').vvch := by
  unfold aliasScript
  dsimp only
  split
  · exact ⟨rfl, rfl⟩
  · split
    · exact ⟨rfl, rfl⟩
    · split <;> exact ⟨rfl, rfl⟩

theorem prevAliasLoop_found (h : prevAliasLoop outs i acc = .ok r) (hfound : acc.found = true) :
    r.found = true ∧ r.nInput = acc.nInput ∧ r.vvchPrevArgs = acc.vvchPrevArgs ∧
      ∀ out ∈ outs, (aliasScript out.scriptPubKey none).ret = false := by
  induction outs generalizing i acc with
  | nil =>
    rw [prevAliasLoop, Except.ok.injEq] at h
    rw [← h]
    exact ⟨hfound, rfl, rfl, by simp⟩
  | cons out outs ih =>
    simp only [prevAliasLoop, hfound, if_true] at h
    split at h
    · simp at h
    · rename_i hret
      obtain ⟨hfound', hn, hargs, hothers⟩ := ih h rfl
      refine ⟨hfound', hn, hargs, fun out' hmem => ?_⟩
      rcases List.mem_cons.mp hmem with rfl | hmem
      · rw [(aliasScript_op _ none acc.prevOp).1]
        simpa using hret
      · exact hothers out' hmem

/-- The one alias output among the previous outputs is the one that is kept. -/
theorem prevAliasLoop_at {k : ℕ} (h : prevAliasLoop outs i acc = .ok r) (hout : outs[k]? = some out)
    (halias : (aliasScript out.scriptPubKey none).ret = true) :
    r.found = true ∧ r.nInput = i + k ∧
      r.vvchPrevArgs = (aliasScript out.scriptPubKey none).vvch := by
  induction outs generalizing i k acc with
  | nil => simp at hout
  | cons out' outs ih =>
    by_cases hret : (aliasScript out'.scriptPubKey acc.prevOp).ret = true
    · simp only [prevAliasLoop, hret, if_true] at h
      split at h
      · simp at h
      · obtain ⟨hfound, hn, hargs, hothers⟩ := prevAliasLoop_found h rfl
        cases k with
        | zero =>
          rw [List.getElem?_cons_zero, Option.some.injEq] at hout
          subst hout
          exact ⟨hfound, hn, hargs.trans (aliasScript_op _ _ none).2⟩
        | succ k =>
          rw [List.getElem?_cons_succ] at hout
          have hnone := hothers out (List.mem_of_getElem? hout)
          rw [halias] at hnone
          simp at hnone
    · simp only [prevAliasLoop, hret, Bool.false_eq_true, if_false] at h
      cases k with
      | zero =>
        rw [List.getElem?_cons_zero, Option.some.injEq] at hout
        subst hout
        rw [(aliasScript_op _ acc.prevOp none).1] at hret
        exact absurd halias hret
      | succ k =>
        rw [List.getElem?_cons_succ] at hout
        obtain ⟨hfound, hn, hargs⟩ := ih h hout
        exact ⟨hfound, by omega, hargs⟩

/-- When the loop finds an alias, one of the previous outputs is one. -/
theorem prevAliasLoop_exists (h : prevAliasLoop outs i acc = .ok r) (hacc : acc.found = false)
    (hfound : r.found = true) : ∃ out ∈ outs, (aliasScript out.scriptPubKey none).ret = true := by
  by_contra hnone
  simp only [not_exists, not_and, Bool.not_eq_true] at hnone
  have hsame : ∀ {outs : List CTxOut} {i : ℕ} {acc : PrevAlias},
      prevAliasLoop outs i acc = .ok r → acc.found = false →
      (∀ out ∈ outs, (aliasScript out.scriptPubKey none).ret = false) → r.found = false := by
    intro outs
    induction outs with
    | nil =>
      intro i acc h hacc _
      rw [prevAliasLoop, Except.ok.injEq] at h
      rw [← h, hacc]
    | cons out outs ih =>
      intro i acc h hacc hall
      obtain ⟨hhead, htail⟩ := List.forall_mem_cons.mp hall
      rw [(aliasScript_op _ none acc.prevOp).1] at hhead
      simp only [prevAliasLoop, hhead, Bool.false_eq_true, if_false] at h
      exact ih h hacc htail
  rw [hsame h hacc hnone] at hfound
  simp at hfound

theorem prevOutputs_getElem? {vin : List CTxIn} {vTxPrev : List CTransaction} {outs : List CTxOut}
    (h : prevOutputs vin vTxPrev = .ok outs) {k : ℕ} {out : CTxOut} :
    outs[k]? = some out ↔ ∃ txin txPrev, vin[k]? = some txin ∧ vTxPrev[k]? = some txPrev ∧
      txPrev.vout[txin.prevout.n]? = some out := by
  induction vin generalizing vTxPrev outs k with
  | nil =>
    rw [prevOutputs, Except.ok.injEq] at h
    simp [← h]
  | cons txin vin ih =>
    cases vTxPrev with
    | nil => simp [prevOutputs] at h
    | cons txPrev vTxPrev =>
      simp only [prevOutputs] at h
      split at h
      · simp at h
      rename_i out' hout'
      simp only [seq_ok, Except.ok.injEq] at h
      obtain ⟨rest, hrest, rfl⟩ := h
      cases k with
      | zero => simp [hout']
      | succ k =>
        simp only [List.getElem?_cons_succ]
        exact ih hrest

/-! ## The commitment -/

/-- An opening that passes hashes to the commitment of the output it spends. -/
theorem Opens.hash_eq {tx : CTransaction} {vchRand vchAlias : vchType}
    (h : Opens env out tx vchRand vchAlias)
    (halias : (aliasScript out.scriptPubKey none).ret = true) :
    ∃ vchHash, (aliasScript out.scriptPubKey none).vvch[3]? = some vchHash ∧
      uint160OfVch vchHash = env.Hash160 (vchRand ++ vchAlias) := by
  obtain ⟨hversion, hop, hrand, hname, view, g, g', mapTestPool, vTxPrev, vTxindex, pindexBlock,
    fBlock, fMiner, ⟨k, txin, txPrev, hin, hprev, hout⟩, hconnect⟩ := h
  unfold ConnectInputsPost at hconnect
  simp only [hversion, ne_eq, not_true_eq_false, if_false, seq_ok, within_eq_ok] at hconnect
  obtain ⟨outs, houts, prev, hloop, _, _, name, _, _, _, g₁, hswitch, _⟩ := hconnect
  have hspent := (prevOutputs_getElem? houts).mpr ⟨txin, txPrev, hin, hprev, hout⟩
  obtain ⟨-, -, hargs⟩ := prevAliasLoop_at hloop hspent halias
  simp only [connectInputsSwitch, hop] at hswitch
  simp only [OP_ALIAS_SET, OP_PUBLIC_KEY, OP_VERTEX, OP_ENCRYPTED_MESSAGE, OP_MAP_PROJECT,
    OP_MESSAGE, OP_ALIAS_ENCRYPTED, Nat.reduceEqDiff, or_self, if_false, if_true, seq_ok,
    within_eq_ok] at hswitch
  obtain ⟨_, hset, _⟩ := hswitch
  simp only [checkAliasSet, seq_ok, read_eq_ok, require_eq_ok] at hset
  obtain ⟨_, _, _, _, _, _, vchAlias', hname', _, _, _, _, _, _, _, _, _, _, vchRand', hrand', _, _,
    _, _, vchHash, hhash, heq⟩ := hset
  rw [hname, Option.some.injEq] at hname'
  rw [hrand, Option.some.injEq] at hrand'
  subst hname' hrand'
  exact ⟨vchHash, hargs ▸ hhash, heq⟩

/-- Two openings of one commitment reveal the same concatenation of random bytes and name. -/
theorem Opens.append_eq (hinj : Function.Injective env.Hash160) {out : CTxOut}
    (halias : (aliasScript out.scriptPubKey none).ret = true) {tx₁ tx₂ : CTransaction}
    {vchRand₁ vchAlias₁ vchRand₂ vchAlias₂ : vchType} (h₁ : Opens env out tx₁ vchRand₁ vchAlias₁)
    (h₂ : Opens env out tx₂ vchRand₂ vchAlias₂) :
    vchRand₁ ++ vchAlias₁ = vchRand₂ ++ vchAlias₂ := by
  obtain ⟨vchHash₁, hread₁, heq₁⟩ := h₁.hash_eq halias
  obtain ⟨vchHash₂, hread₂, heq₂⟩ := h₂.hash_eq halias
  rw [hread₁, Option.some.injEq] at hread₂
  apply hinj
  rw [← heq₁, ← heq₂, hread₂]

/-- They reveal the same name exactly when their random parts are equally long. -/
theorem opened_names_agree_iff (hinj : Function.Injective env.Hash160) {out : CTxOut}
    (halias : (aliasScript out.scriptPubKey none).ret = true) {tx₁ tx₂ : CTransaction}
    {vchRand₁ vchAlias₁ vchRand₂ vchAlias₂ : vchType} (h₁ : Opens env out tx₁ vchRand₁ vchAlias₁)
    (h₂ : Opens env out tx₂ vchRand₂ vchAlias₂) :
    vchAlias₁ = vchAlias₂ ↔ vchRand₁.length = vchRand₂.length := by
  have happend := h₁.append_eq hinj halias h₂
  constructor
  · rintro rfl
    have hlength := congrArg List.length happend
    rw [List.length_append, List.length_append] at hlength
    omega
  · intro hlength
    exact (List.append_inj happend hlength).2

namespace Scenario

/-- An encrypted alias whose commitment is the hash of the two bytes 1 and 2. -/
def committed : CTransaction :=
  spending 900 CTransaction.DION_TX_VERSION []
    [⟨0, [0x51, 1, 0x61, 1, 0x62, 1, 0x63, 20, 5, 3] ++ List.replicate 18 0 ++
      [1, 0x64, 1, 0x30, 1, 0x5f, 1, 0x30, 0x6d, 0x6d, 0x6d, 0x6d, 0x51]⟩]

/-- A set that spends the encrypted alias and reveals random bytes and a name. -/
def opening (vchRand vchAlias : vchType) : CTransaction :=
  spending 1000 CTransaction.DION_TX_VERSION [⟨900, 0⟩]
    [⟨0, [0x52] ++ (vchAlias.length.toUInt8 :: vchAlias) ++ [1, 0x62, 1, 0x63] ++
      (vchRand.length.toUInt8 :: vchRand) ++ [1, 0x65, 0x6d, 0x6d, 0x75, 0x51]⟩]

/-- The opening passes in a block. -/
def passes (tx : CTransaction) : Bool :=
  match ConnectInputsPost (namesHashed testNet) (Node.empty.view io) Node.empty.toGlobals
    (fun _ => none) tx [committed] [CTxIndex.new ⟨1, 8, 89⟩ 1] none true false with
  | .ok _ => true
  | .error _ => false

theorem opens_of_passes {nTime : ℕ} {vchRand vchAlias : vchType}
    (hout : committed.vout[0]? = some out) :
    let tx := { opening vchRand vchAlias with nTime := nTime }
    (passes tx && decide ((aliasTx tx).op.getD 0 = OP_ALIAS_SET) &&
      decide ((aliasTx tx).vvch[3]? = some vchRand) &&
      decide ((aliasTx tx).vvch[0]? = some vchAlias)) = true →
    Opens (namesHashed testNet) out tx vchRand vchAlias := by
  intro tx h
  simp only [Bool.and_eq_true, decide_eq_true_eq] at h
  obtain ⟨⟨⟨hpass, hop⟩, hrand⟩, hname⟩ := h
  unfold passes at hpass
  split at hpass
  · rename_i g' hconnect
    exact ⟨rfl, hop, hrand, hname, _, _, g', _, _, _, _, _, _,
      ⟨0, _, committed, rfl, rfl, hout⟩, hconnect⟩
  · simp at hpass

end Scenario

open Scenario in
/-- Two transactions open the commitment with one random byte, and a third one with none: the first
two give one name, and the third another. -/
theorem opened_names_agree_iff_reopened :
    ∃ out, Opens (namesHashed testNet) out (opening [1] [2]) [1] [2] ∧
      Opens (namesHashed testNet) out { opening [1] [2] with nTime := 2000 } [1] [2] ∧
      Opens (namesHashed testNet) out (opening [] [1, 2]) [] [1, 2] ∧
      (([2] : vchType) = [2] ↔ ([1] : vchType).length = ([1] : vchType).length) ∧
      (([2] : vchType) = [1, 2] ↔ ([1] : vchType).length = ([] : vchType).length) := by
  have halias : ∃ out, committed.vout[0]? = some out ∧
      (aliasScript out.scriptPubKey none).ret = true := ⟨_, rfl, by decide⟩
  obtain ⟨out, hout, hret⟩ := halias
  have hfirst : Opens (namesHashed testNet) out (opening [1] [2]) [1] [2] :=
    opens_of_passes hout (by decide)
  have hagain : Opens (namesHashed testNet) out { opening [1] [2] with nTime := 2000 } [1] [2] :=
    opens_of_passes hout (by decide)
  have hbare : Opens (namesHashed testNet) out (opening [] [1, 2]) [] [1, 2] :=
    opens_of_passes hout (by decide)
  exact ⟨out, hfirst, hagain, hbare, opened_names_agree_iff byteCode_injective hret hfirst hagain,
    opened_names_agree_iff byteCode_injective hret hfirst hbare⟩

open Scenario in
/-- One commitment is opened as the name `[2]`, behind the random byte 1, and as the name `[1, 2]`,
behind no random bytes. -/
theorem commitment_opens_as_two_names :
    Function.Injective (namesHashed testNet).Hash160 ∧
      ∃ out, committed.vout[0]? = some out ∧ (aliasScript out.scriptPubKey none).ret = true ∧
        (aliasScript out.scriptPubKey none).op = some OP_ALIAS_ENCRYPTED ∧
        Opens (namesHashed testNet) out (opening [1] [2]) [1] [2] ∧
        Opens (namesHashed testNet) out (opening [] [1, 2]) [] [1, 2] :=
  ⟨byteCode_injective, _, rfl, by decide, by decide, opens_of_passes rfl (by decide),
    opens_of_passes rfl (by decide)⟩

end Dions
