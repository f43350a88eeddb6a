import Dions.Verification.Alias.Commitment

/-! # What a transaction decodes to

The scan over the outputs of a transaction and the scan over its previous outputs hand one opcode
variable to every call of `aliasScript`. The answer, the index and the arguments are those of the
only output that decodes; the opcode is that of the last output that has one. -/

namespace Dions

variable {out : CTxOut} {pre : List CTxOut}
variable {post : List CTxOut}

/-! ## The opcode variable -/

/-- The value that `aliasScript` assigns as soon as the first opcode of the script is in range. -/
def firstOp (script : CScript) : Option ℕ :=
  let r := CScript.GetOp2 script 0
  if r.ret ∧ OP_1 ≤ r.opcodeRet ∧ r.opcodeRet ≤ OP_16 then some (r.opcodeRet - OP_1 + 1) else none

theorem aliasScript_opVar (script : CScript) (op : Option ℕ) :
    (aliasScript script op).op = (firstOp script).or op := by
  simp only [aliasScript, firstOp]
  by_cases hret : (CScript.GetOp2 script 0).ret = true
  · by_cases hrange : (CScript.GetOp2 script 0).opcodeRet < OP_1 ∨
        OP_16 < (CScript.GetOp2 script 0).opcodeRet
    · have hout : ¬(OP_1 ≤ (CScript.GetOp2 script 0).opcodeRet ∧
          (CScript.GetOp2 script 0).opcodeRet ≤ OP_16) := by omega
      simp [hret, hrange, hout]
    · have hin : OP_1 ≤ (CScript.GetOp2 script 0).opcodeRet ∧
          (CScript.GetOp2 script 0).opcodeRet ≤ OP_16 := by omega
      simp only [hret, Bool.not_true, Bool.false_eq_true, if_false, if_neg hrange, hin,
        and_self, if_true, Option.some_or]
      split <;> rfl
  · simp [hret]

/-- A script that decodes has an opcode, and its arguments fit the table. -/
theorem aliasScript_arity {script : CScript} (h : (aliasScript script none).ret = true) :
    ∃ op, firstOp script = some op ∧
      aliasArity op (aliasScript script none).vvch.length = true := by
  have hop := aliasScript_opVar script none
  rw [Option.or_none] at hop
  rw [← hop]
  revert h
  simp only [aliasScript]
  split
  · simp
  · split
    · simp
    · split
      · simp
      · intro h
        exact ⟨_, rfl, h⟩

/-- What the variable holds after the scripts of the outputs have been looked at. -/
def carryOp (op : Option ℕ) (outs : List CTxOut) : Option ℕ :=
  (outs.filterMap fun out => firstOp out.scriptPubKey).getLast?.or op

theorem carryOp_cons (op : Option ℕ) (out : CTxOut) (outs : List CTxOut) :
    carryOp op (out :: outs) = carryOp ((firstOp out.scriptPubKey).or op) outs := by
  unfold carryOp
  cases hfirst : firstOp out.scriptPubKey with
  | none => simp [hfirst]
  | some op' =>
    rw [List.filterMap_cons_some (f := fun out : CTxOut => firstOp out.scriptPubKey) hfirst,
      List.getLast?_cons]
    cases (outs.filterMap fun out => firstOp out.scriptPubKey).getLast? <;> rfl

/-! ## The scan -/

def Decodes (out : CTxOut) : Prop := (aliasScript out.scriptPubKey none).ret = true

theorem decodes_iff (op : Option ℕ) :
    (aliasScript out.scriptPubKey op).ret = true ↔ Decodes out := by
  rw [Decodes, (aliasScript_op _ op none).1]

/-- Behind the decoded output the scan succeeds when nothing else decodes, and only the opcode
variable changes. -/
theorem prevAliasLoop_behind (outs : List CTxOut) (i : ℕ) (acc : PrevAlias)
    (hfound : acc.found = true) :
    ((∀ out ∈ outs, ¬Decodes out) →
      prevAliasLoop outs i acc = .ok { acc with prevOp := carryOp acc.prevOp outs }) ∧
    ((∃ out ∈ outs, Decodes out) → prevAliasLoop outs i acc = .error .reject) := by
  induction outs generalizing i acc with
  | nil => simp [prevAliasLoop, carryOp]
  | cons out outs ih =>
    by_cases hout : Decodes out
    · have hstep : prevAliasLoop (out :: outs) i acc = .error .reject := by
        simp [prevAliasLoop, (decodes_iff acc.prevOp).mpr hout, hfound]
      exact ⟨fun h => absurd hout (h out List.mem_cons_self), fun _ => hstep⟩
    · have hret : ¬(aliasScript out.scriptPubKey acc.prevOp).ret = true :=
        fun h => hout ((decodes_iff _).mp h)
      have hstep : prevAliasLoop (out :: outs) i acc = prevAliasLoop outs (i + 1)
          { acc with prevOp := (firstOp out.scriptPubKey).or acc.prevOp } := by
        rw [prevAliasLoop, if_neg hret, aliasScript_opVar]
      have hrest := ih (i + 1) { acc with prevOp := (firstOp out.scriptPubKey).or acc.prevOp } hfound
      rw [hstep, carryOp_cons]
      constructor
      · intro h
        exact hrest.1 fun o ho => h o (List.mem_cons_of_mem _ ho)
      · intro h
        have h' := h
        rw [List.exists_mem_cons_iff] at h'
        exact hrest.2 (h'.resolve_left hout)

/-- In front of the decoded output only the opcode variable and the counter change. -/
theorem prevAliasLoop_before (pre outs : List CTxOut) (i : ℕ) (acc : PrevAlias)
    (hpre : ∀ out ∈ pre, ¬Decodes out) :
    prevAliasLoop (pre ++ outs) i acc =
      prevAliasLoop outs (i + pre.length) { acc with prevOp := carryOp acc.prevOp pre } := by
  induction pre generalizing i acc with
  | nil => simp [carryOp]
  | cons out pre ih =>
    have hret : ¬(aliasScript out.scriptPubKey acc.prevOp).ret = true :=
      fun h => hpre out List.mem_cons_self ((decodes_iff _).mp h)
    have hrest := ih (i + 1) { acc with prevOp := (firstOp out.scriptPubKey).or acc.prevOp }
      fun o ho => hpre o (List.mem_cons_of_mem _ ho)
    rw [List.cons_append, prevAliasLoop, if_neg hret, aliasScript_opVar, hrest, carryOp_cons,
      List.length_cons, Nat.add_right_comm, Nat.add_assoc]

theorem decodes_split (outs : List CTxOut) :
    (∀ out ∈ outs, ¬Decodes out) ∨
      ∃ pre out post, outs = pre ++ out :: post ∧ (∀ o ∈ pre, ¬Decodes o) ∧ Decodes out := by
  induction outs with
  | nil => simp
  | cons out outs ih =>
    by_cases hout : Decodes out
    · exact .inr ⟨[], out, outs, rfl, by simp, hout⟩
    · cases ih with
      | inl hnone => exact .inl (List.forall_mem_cons.mpr ⟨hout, hnone⟩)
      | inr hsome =>
        obtain ⟨pre, out', post, rfl, hpre, hout'⟩ := hsome
        exact .inr ⟨out :: pre, out', post, rfl, List.forall_mem_cons.mpr ⟨hout, hpre⟩, hout'⟩

/-! ## The law -/

def DecodedAt (outs : List CTxOut) (i : ℕ) : Prop := ∃ out, outs[i]? = some out ∧ Decodes out

/-- The answer of a scan is yes when exactly one output decodes, and then the index, the opcode
and the arguments are what `aliasScript` returns for that output alone. -/
structure Coherent (outs : List CTxOut) (r : AliasTxRet) : Prop where
  answer : r.ret = true ↔ ∃! i, DecodedAt outs i
  decoding : r.ret = true → ∃ i out, r.nOut = some i ∧ outs[i]? = some out ∧ Decodes out ∧
    r.op = (aliasScript out.scriptPubKey none).op ∧
    r.vvch = (aliasScript out.scriptPubKey none).vvch ∧
    ∃ op, r.op = some op ∧ aliasArity op r.vvch.length = true

/-- Behind the only output that decodes, the last one that starts with `OP_1` to `OP_16` starts
with the same opcode. -/
def OpKept (outs : List CTxOut) : Prop :=
  ∀ i out, outs[i]? = some out → Decodes out → (∀ j, DecodedAt outs j → j = i) →
    ∀ op, ((outs.drop (i + 1)).filterMap fun out => firstOp out.scriptPubKey).getLast? = some op →
      firstOp out.scriptPubKey = some op

theorem decodedAt_append (hpre : ∀ o ∈ pre, ¬Decodes o) (hpost : ∀ o ∈ post, ¬Decodes o) {j : ℕ}
    (h : DecodedAt (pre ++ out :: post) j) : j = pre.length := by
  obtain ⟨o, hget, ho⟩ := h
  by_contra hne
  by_cases hlt : j < pre.length
  · rw [List.getElem?_append_left hlt] at hget
    exact hpre o (List.mem_of_getElem? hget) ho
  · obtain ⟨k, rfl⟩ : ∃ k, j = pre.length + (k + 1) := ⟨j - pre.length - 1, by omega⟩
    rw [List.getElem?_append_right (by omega), Nat.add_sub_cancel_left,
      List.getElem?_cons_succ] at hget
    exact hpost o (List.mem_of_getElem? hget) ho

theorem getElem?_middle (pre post : List CTxOut) (out : CTxOut) :
    (pre ++ out :: post)[pre.length]? = some out := by
  simp

/-- The list with exactly one decoded output, in the form the scan meets it. -/
theorem existsUnique_decodedAt (hpre : ∀ o ∈ pre, ¬Decodes o) (hout : Decodes out) :
    (∃! i, DecodedAt (pre ++ out :: post) i) ↔ ∀ o ∈ post, ¬Decodes o := by
  have hat : DecodedAt (pre ++ out :: post) pre.length := ⟨out, getElem?_middle pre post out, hout⟩
  constructor
  · intro hone o hmem ho
    obtain ⟨k, hk⟩ := List.getElem?_of_mem hmem
    have hlater : DecodedAt (pre ++ out :: post) (pre.length + (k + 1)) := by
      refine ⟨o, ?_, ho⟩
      rw [List.getElem?_append_right (by omega), Nat.add_sub_cancel_left, List.getElem?_cons_succ]
      exact hk
    have := hone.unique hat hlater
    omega
  · intro hpost
    exact ⟨pre.length, hat, fun j hj => decodedAt_append hpre hpost hj⟩

/-- Where the decoded output is the only one, the opcode is kept when the variable behind it holds
what it was given. -/
theorem opKept_append (hpre : ∀ o ∈ pre, ¬Decodes o) (hout : Decodes out)
    (hpost : ∀ o ∈ post, ¬Decodes o) :
    OpKept (pre ++ out :: post) ↔
      carryOp (firstOp out.scriptPubKey) post = firstOp out.scriptPubKey := by
  have hdrop : (pre ++ out :: post).drop (pre.length + 1) = post := by
    rw [List.drop_append]
    simp
  constructor
  · intro h
    have hkept := h pre.length out (getElem?_middle pre post out) hout
      fun j hj => decodedAt_append hpre hpost hj
    rw [hdrop] at hkept
    unfold carryOp
    cases hlast : (post.filterMap fun out => firstOp out.scriptPubKey).getLast? with
    | none => rfl
    | some op => rw [Option.some_or, hkept op hlast]
  · intro h i out' hget hout' _ op hlast
    have hi : i = pre.length := decodedAt_append hpre hpost ⟨out', hget, hout'⟩
    subst hi
    rw [getElem?_middle, Option.some.injEq] at hget
    rw [hdrop] at hlast
    rw [carryOp, hlast, Option.some_or] at h
    rw [← hget, ← h]

/-- What the scan over the previous outputs leaves in its variables; `ConnectInputsPost` gives up
where it ends in an error. -/
def prevAliasRet (outs : List CTxOut) : AliasTxRet :=
  match prevAliasLoop outs 0 ⟨false, none, 0, []⟩ with
  | .ok prev => ⟨prev.found, prev.prevOp, some prev.nInput, prev.vvchPrevArgs⟩
  | .error _ => ⟨false, none, none, []⟩

theorem prevAliasRet_none {outs : List CTxOut} (hnone : ∀ out ∈ outs, ¬Decodes out) :
    (prevAliasRet outs).ret = false := by
  have hscan := prevAliasLoop_before outs [] 0 ⟨false, none, 0, []⟩ hnone
  rw [List.append_nil] at hscan
  simp [prevAliasRet, hscan, prevAliasLoop]

theorem prevAliasRet_append (post : List CTxOut) (hpre : ∀ o ∈ pre, ¬Decodes o) (hout : Decodes out) :
    ((∀ o ∈ post, ¬Decodes o) → prevAliasRet (pre ++ out :: post) =
      ⟨true, carryOp (firstOp out.scriptPubKey) post, some pre.length,
        (aliasScript out.scriptPubKey none).vvch⟩) ∧
    ((∃ o ∈ post, Decodes o) → (prevAliasRet (pre ++ out :: post)).ret = false) := by
  have hscan := prevAliasLoop_before pre (out :: post) 0 ⟨false, none, 0, []⟩ hpre
  have hhead : ∀ op, prevAliasLoop (out :: post) (0 + pre.length) ⟨false, op, 0, []⟩ =
      prevAliasLoop post (pre.length + 1) ⟨true, firstOp out.scriptPubKey, pre.length,
        (aliasScript out.scriptPubKey none).vvch⟩ := by
    intro op
    obtain ⟨op', hop', -⟩ := aliasScript_arity hout
    rw [prevAliasLoop, if_pos ((decodes_iff op).mpr hout), if_neg (by simp), aliasScript_opVar,
      (aliasScript_op _ op none).2, hop', Option.some_or, Nat.zero_add]
  rw [hhead] at hscan
  have hbehind := prevAliasLoop_behind post (pre.length + 1)
    ⟨true, firstOp out.scriptPubKey, pre.length, (aliasScript out.scriptPubKey none).vvch⟩ rfl
  constructor
  · intro hpost
    rw [prevAliasRet, hscan, hbehind.1 hpost]
  · intro hpost
    rw [prevAliasRet, hscan, hbehind.2 hpost]

theorem aliasTxLoop_eq (outs : List CTxOut) (i : ℕ) (acc : PrevAlias) (nOut : Option ℕ)
    (vvch : List vchType) (hn : acc.found = true → nOut = some acc.nInput ∧ vvch = acc.vvchPrevArgs) :
    match prevAliasLoop outs i acc with
    | .ok prev => (aliasTxLoop outs i acc.found acc.prevOp nOut vvch).ret = prev.found ∧
        (prev.found = true → aliasTxLoop outs i acc.found acc.prevOp nOut vvch =
          ⟨true, prev.prevOp, some prev.nInput, prev.vvchPrevArgs⟩)
    | .error _ => (aliasTxLoop outs i acc.found acc.prevOp nOut vvch).ret = false := by
  induction outs generalizing i acc nOut vvch with
  | nil =>
    refine ⟨rfl, fun hfound => ?_⟩
    have hfound' : acc.found = true := hfound
    obtain ⟨rfl, rfl⟩ := hn hfound'
    simp [aliasTxLoop, hfound']
  | cons out outs ih =>
    by_cases hret : (aliasScript out.scriptPubKey acc.prevOp).ret = true
    · by_cases hfound : acc.found = true
      · simp [prevAliasLoop, aliasTxLoop, hret, hfound]
      · simp only [prevAliasLoop, aliasTxLoop, hret, if_true, if_neg hfound]
        exact ih _ _ _ _ fun _ => ⟨rfl, rfl⟩
    · simp only [prevAliasLoop, aliasTxLoop, if_neg hret]
      exact ih _ _ _ _ hn

theorem aliasTx_eq (tx : CTransaction) :
    (aliasTx tx).ret = (prevAliasRet tx.vout).ret ∧
      ((aliasTx tx).ret = true → aliasTx tx = prevAliasRet tx.vout) := by
  have h := aliasTxLoop_eq tx.vout 0 ⟨false, none, 0, []⟩ none [] (by simp)
  unfold aliasTx prevAliasRet
  revert h
  cases prevAliasLoop tx.vout 0 ⟨false, none, 0, []⟩ with
  | error e =>
    intro h
    have hret : (aliasTxLoop tx.vout 0 false none none []).ret = false := h
    simp [hret]
  | ok prev =>
    intro h
    have hret : (aliasTxLoop tx.vout 0 false none none []).ret = prev.found := h.1
    refine ⟨hret, fun htrue => ?_⟩
    have hfound : prev.found = true := hret.symm.trans htrue
    have hall : aliasTxLoop tx.vout 0 false none none [] =
        ⟨true, prev.prevOp, some prev.nInput, prev.vvchPrevArgs⟩ := h.2 hfound
    rw [hall]
    simp [hfound]

theorem coherent_congr {outs : List CTxOut} {r r' : AliasTxRet} (hret : r.ret = r'.ret)
    (heq : r.ret = true → r = r') : Coherent outs r ↔ Coherent outs r' := by
  by_cases htrue : r.ret = true
  · rw [heq htrue]
  · have htrue' : ¬r'.ret = true := by rwa [← hret]
    constructor
    · intro h
      exact ⟨by rw [← hret]; exact h.answer, fun ht => absurd ht htrue'⟩
    · intro h
      exact ⟨by rw [hret]; exact h.answer, fun ht => absurd ht htrue⟩

/-- The scan over the previous outputs is coherent exactly when the opcode is kept. -/
theorem prevAliasRet_coherent (outs : List CTxOut) :
    Coherent outs (prevAliasRet outs) ↔ OpKept outs := by
  cases decodes_split outs with
  | inl hnone =>
    have hret := prevAliasRet_none hnone
    have hnowhere : ∀ i, ¬DecodedAt outs i := by
      intro i hi
      obtain ⟨out, hget, hout⟩ := hi
      exact hnone out (List.mem_of_getElem? hget) hout
    constructor
    · intro _ i out hget hout
      exact absurd hout (hnone out (List.mem_of_getElem? hget))
    · intro _
      refine ⟨?_, by simp [hret]⟩
      rw [hret]
      simp only [Bool.false_eq_true, false_iff]
      intro hone
      exact hnowhere _ hone.exists.choose_spec
  | inr hsome =>
    obtain ⟨pre, out, post, rfl, hpre, hout⟩ := hsome
    have hscan := prevAliasRet_append post hpre hout
    by_cases hpost : ∀ o ∈ post, ¬Decodes o
    · -- the only decoded output: the scan answers yes and the opcode is what is left to compare
      rw [hscan.1 hpost, opKept_append hpre hout hpost]
      have hop : (aliasScript out.scriptPubKey none).op = firstOp out.scriptPubKey := by
        rw [aliasScript_opVar, Option.or_none]
      obtain ⟨op, hfirst, harity⟩ := aliasScript_arity hout
      constructor
      · intro h
        obtain ⟨i, out', hi, hget, -, hop', -, -⟩ := h.decoding rfl
        rw [Option.some.injEq] at hi
        rw [← hi, getElem?_middle, Option.some.injEq] at hget
        rw [← hget, hop] at hop'
        exact hop'
      · intro hkept
        have hone := (existsUnique_decodedAt hpre hout).mpr hpost
        refine ⟨iff_of_true rfl hone, fun _ => ?_⟩
        refine ⟨pre.length, out, rfl, getElem?_middle pre post out, hout, ?_, rfl, op, ?_, harity⟩
        · exact hkept.trans hop.symm
        · exact hkept.trans hfirst
    · -- a second decoded output: the scan answers no, and there is no opcode to keep
      have hlater : ∃ o ∈ post, Decodes o := by
        by_contra hnone
        exact hpost fun o ho hdec => hnone ⟨o, ho, hdec⟩
      have hret := hscan.2 hlater
      have hmany : ¬∃! i, DecodedAt (pre ++ out :: post) i :=
        fun hone => hpost ((existsUnique_decodedAt hpre hout).mp hone)
      constructor
      · intro _ i out' hget hout' honly
        exact absurd ⟨i, ⟨out', hget, hout'⟩, honly⟩ hmany
      · intro _
        exact ⟨by simp [hret, hmany], by simp [hret]⟩

/-- Both scans are coherent exactly when no later opcode has displaced that of the decoded
output. -/
theorem alias_decoding_coherent_iff (tx : CTransaction) (prevOuts : List CTxOut) :
    (Coherent tx.vout (aliasTx tx) ↔ OpKept tx.vout) ∧
      (Coherent prevOuts (prevAliasRet prevOuts) ↔ OpKept prevOuts) := by
  refine ⟨?_, prevAliasRet_coherent prevOuts⟩
  obtain ⟨hret, heq⟩ := aliasTx_eq tx
  rw [coherent_congr hret heq]
  exact prevAliasRet_coherent tx.vout

/-- A set of five empty arguments, and a bare multisignature output behind it. -/
def setThenMultisig : CTransaction :=
  { CTransaction.null 0 with
    nVersion := CTransaction.DION_TX_VERSION
    vout := [⟨0, [0x52, 0, 0, 0, 0, 0, 0x75, 0x51]⟩,
      ⟨0, [0x51, 0x21] ++ List.replicate 33 2 ++ [0x51, 0xae]⟩] }

/-- Both scans return the set under the opcode of the multisignature output. -/
theorem setThenMultisig_incoherent :
    ¬Coherent setThenMultisig.vout (aliasTx setThenMultisig) ∧
      ¬Coherent setThenMultisig.vout (prevAliasRet setThenMultisig.vout) := by
  have hscans : aliasTx setThenMultisig =
        ⟨true, some OP_ALIAS_ENCRYPTED, some 0, [[], [], [], [], []]⟩ ∧
      prevAliasRet setThenMultisig.vout = aliasTx setThenMultisig := by decide
  rw [hscans.2, and_self, hscans.1]
  intro h
  obtain ⟨i, out, hi, hget, -, hop, -, -⟩ := h.decoding rfl
  rw [Option.some.injEq] at hi
  subst hi
  have hout : out = ⟨0, [0x52, 0, 0, 0, 0, 0, 0x75, 0x51]⟩ := (Option.some.inj hget).symm
  rw [hout] at hop
  revert hop
  decide

end Dions
