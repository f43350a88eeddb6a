import Dions.Verification.Script.Multisig
import Dions.Verification.Wire.Identity

/-! # What a signature commits to

The hash is taken of a copy in which scripts, sequence numbers, inputs and outputs are blanked. Two
hashes of one type agree exactly where the parts that the type leaves do. -/

namespace Dions

variable {nHashType : ℕ}
variable {S T : CScript} {i j : ℕ} {tx : CTransaction}

/-! ## The copy -/

/-- The script as it is hashed. -/
def CScript.separated (script : CScript) : CScript :=
  script.FindAndDelete [OP_CODESEPARATOR.toUInt8]

/-- The types that let the other inputs update their sequence numbers at will. -/
def othersUpdate (nHashType : ℕ) : Bool :=
  nHashType &&& 0x1f == SIGHASH_NONE || nHashType &&& 0x1f == SIGHASH_SINGLE

def hashedInput (script : CScript) (nIn nHashType i : ℕ) (txin : CTxIn) : CTxIn where
  prevout := txin.prevout
  scriptSig := if i = nIn then script else []
  nSequence := if i ≠ nIn ∧ othersUpdate nHashType = true then 0 else txin.nSequence

def hashedInputs (script : CScript) (tx : CTransaction) (nIn nHashType : ℕ) : List CTxIn :=
  let vin := tx.vin.mapIdx (hashedInput script nIn nHashType)
  if nHashType &&& SIGHASH_ANYONECANPAY ≠ 0 then vin[nIn]?.toList else vin

def hashedOutputs (tx : CTransaction) (nIn nHashType : ℕ) : Option (List CTxOut) :=
  if nHashType &&& 0x1f = SIGHASH_NONE then some []
  else if nHashType &&& 0x1f = SIGHASH_SINGLE then
    tx.vout[nIn]?.map fun txout => List.replicate nIn CTxOut.null ++ [txout]
  else some tx.vout

theorem mapIdx_hashedInput (hupdate : othersUpdate nHashType = false) (script : CScript) (nIn : ℕ)
    (vin : List CTxIn) :
    vin.mapIdx (hashedInput script nIn nHashType) =
      vin.mapIdx fun i txin => { txin with scriptSig := if i = nIn then script else [] } := by
  congr 1
  funext i txin
  simp [hashedInput, hupdate]

theorem mapIdx_hashedInput_zero (hupdate : othersUpdate nHashType = true) (script : CScript)
    (nIn : ℕ) (vin : List CTxIn) :
    vin.mapIdx (hashedInput script nIn nHashType) =
      (vin.mapIdx fun i txin =>
        { txin with scriptSig := if i = nIn then script else [] : CTxIn }).mapIdx fun i txin =>
          if i = nIn then txin else { txin with nSequence := 0 } := by
  rw [List.mapIdx_mapIdx]
  congr 1
  funext i txin
  by_cases hi : i = nIn
  · simp [hashedInput, hi]
  · simp [hashedInput, hi, hupdate]

theorem signatureTx_eq (script : CScript) (tx : CTransaction) (nIn nHashType : ℕ) :
    signatureTx script tx nIn nHashType =
      (hashedOutputs tx nIn nHashType).map fun vout =>
        { tx with vin := hashedInputs script.separated tx nIn nHashType, vout := vout } := by
  rw [signatureTx, hashedOutputs, hashedInputs]
  by_cases hnone : nHashType &&& 0x1f = SIGHASH_NONE
  · have hupdate : othersUpdate nHashType = true := by simp [othersUpdate, hnone]
    rw [if_pos hnone, if_pos hnone, mapIdx_hashedInput_zero hupdate]
    split <;> rfl
  · rw [if_neg hnone, if_neg hnone]
    by_cases hsingle : nHashType &&& 0x1f = SIGHASH_SINGLE
    · have hupdate : othersUpdate nHashType = true := by simp [othersUpdate, hsingle]
      rw [if_pos hsingle, if_pos hsingle, mapIdx_hashedInput_zero hupdate]
      cases tx.vout[nIn]? <;> split <;> rfl
    · have hupdate : othersUpdate nHashType = false := by simp [othersUpdate, hnone, hsingle]
      rw [if_neg hsingle, if_neg hsingle, mapIdx_hashedInput hupdate]
      split <;> rfl

/-! ## What it keeps -/

/-- The parts of a transaction that the hash of input `i` of `a` and that of input `j` of `b` share,
for one type of hash. -/
structure SameCommitment (s t : CScript) (a b : CTransaction) (i j nHashType : ℕ) : Prop where
  script : s.separated = t.separated
  nVersion : a.nVersion = b.nVersion
  nTime : a.nTime = b.nTime
  nLockTime : a.nLockTime = b.nLockTime
  strTxInfo : CTransaction.VERSION_WITH_INFO ≤ a.nVersion → a.strTxInfo = b.strTxInfo
  outpoint : a.vin[i]?.map CTxIn.prevout = b.vin[j]?.map CTxIn.prevout
  sequence : a.vin[i]?.map CTxIn.nSequence = b.vin[j]?.map CTxIn.nSequence
  inputs : nHashType &&& SIGHASH_ANYONECANPAY = 0 →
    i = j ∧ a.vin.length = b.vin.length ∧ a.vin.map CTxIn.prevout = b.vin.map CTxIn.prevout ∧
      (nHashType &&& 0x1f ≠ SIGHASH_NONE → nHashType &&& 0x1f ≠ SIGHASH_SINGLE →
        a.vin.map CTxIn.nSequence = b.vin.map CTxIn.nSequence)
  single : nHashType &&& 0x1f = SIGHASH_SINGLE → i = j ∧ a.vout[i]? = b.vout[j]?
  outputs : nHashType &&& 0x1f ≠ SIGHASH_NONE → nHashType &&& 0x1f ≠ SIGHASH_SINGLE →
    a.vout = b.vout

/-! ### Inputs -/

theorem mapIdx_eq_iff {α β γ : Type} (f : ℕ → α → γ) (g : ℕ → β → γ) (xs : List α) (ys : List β) :
    xs.mapIdx f = ys.mapIdx g ↔ ∀ k, xs[k]?.map (f k) = ys[k]?.map (g k) := by
  rw [List.ext_getElem?_iff]
  simp only [List.getElem?_mapIdx]

theorem map_eq_iff_getElem? {α β γ : Type} (f : α → γ) (g : β → γ) (xs : List α) (ys : List β) :
    xs.map f = ys.map g ↔ ∀ k : ℕ, xs[k]?.map f = ys[k]?.map g := by
  rw [List.ext_getElem?_iff]
  simp only [List.getElem?_map]

theorem hashedInput_eq_iff {k : ℕ} {x y : CTxIn} :
    hashedInput S i nHashType k x = hashedInput T j nHashType k y ↔
      x.prevout = y.prevout ∧ (if k = i then S else []) = (if k = j then T else []) ∧
        (if k ≠ i ∧ othersUpdate nHashType = true then 0 else x.nSequence) =
          (if k ≠ j ∧ othersUpdate nHashType = true then 0 else y.nSequence) := by
  simp only [hashedInput, CTxIn.mk.injEq]

/-- The copies have the same inputs when they sign the same one, from a script that is not empty. -/
theorem mapIdx_hashedInput_eq_iff {a b : List CTxIn} (hS : S ≠ []) (hi : i < a.length) :
    a.mapIdx (hashedInput S i nHashType) = b.mapIdx (hashedInput T j nHashType) ↔
      S = T ∧ i = j ∧ a.map CTxIn.prevout = b.map CTxIn.prevout ∧
        a[i]?.map CTxIn.nSequence = b[j]?.map CTxIn.nSequence ∧
        (othersUpdate nHashType = false → a.map CTxIn.nSequence = b.map CTxIn.nSequence) := by
  rw [mapIdx_eq_iff, map_eq_iff_getElem?, map_eq_iff_getElem?]
  constructor
  · intro h
    obtain ⟨hscript, rfl⟩ : S = T ∧ i = j := by
      have hk := h i
      rw [List.getElem?_eq_getElem hi, Option.map_some] at hk
      obtain ⟨y, -, hy⟩ := Option.map_eq_some_iff.mp hk.symm
      obtain ⟨-, hscripts, -⟩ := hashedInput_eq_iff.mp hy.symm
      rw [if_pos rfl] at hscripts
      by_cases hij : i = j
      · rw [if_pos hij] at hscripts
        exact ⟨hscripts, hij⟩
      · rw [if_neg hij] at hscripts
        exact absurd hscripts hS
    have hfields : ∀ k, a[k]?.map CTxIn.prevout = b[k]?.map CTxIn.prevout ∧
        (k = i ∨ othersUpdate nHashType = false →
          a[k]?.map CTxIn.nSequence = b[k]?.map CTxIn.nSequence) := by
      intro k
      have hk := h k
      cases hx : a[k]? with
      | none =>
        cases hy : b[k]? with
        | none => simp
        | some y => simp [hx, hy] at hk
      | some x =>
        cases hy : b[k]? with
        | none => simp [hx, hy] at hk
        | some y =>
          rw [hx, hy, Option.map_some, Option.map_some, Option.some.injEq, hashedInput_eq_iff] at hk
          refine ⟨congrArg some hk.1, fun hkept => congrArg some ?_⟩
          have hnot : ¬(k ≠ i ∧ othersUpdate nHashType = true) := by
            rintro ⟨hne, hupdate⟩
            simp [hne, hupdate] at hkept
          simpa only [if_neg hnot] using hk.2.2
    exact ⟨hscript, rfl, fun k => (hfields k).1, (hfields i).2 (Or.inl rfl),
      fun hupdate k => (hfields k).2 (Or.inr hupdate)⟩
  · rintro ⟨rfl, rfl, hprevout, hsequence, hothers⟩ k
    have hp := hprevout k
    cases hx : a[k]? with
    | none =>
      cases hy : b[k]? with
      | none => rfl
      | some y => simp [hx, hy] at hp
    | some x =>
      cases hy : b[k]? with
      | none => simp [hx, hy] at hp
      | some y =>
        rw [Option.map_some, Option.map_some, Option.some.injEq, hashedInput_eq_iff]
        refine ⟨by simpa [hx, hy] using hp, rfl, ?_⟩
        by_cases hzero : k ≠ i ∧ othersUpdate nHashType = true
        · rw [if_pos hzero, if_pos hzero]
        · rw [if_neg hzero, if_neg hzero]
          by_cases hk : k = i
          · subst hk
            simpa [hx, hy] using hsequence
          · have hupdate : othersUpdate nHashType = false := by
              rw [Bool.eq_false_iff]
              exact fun hupdate => hzero ⟨hk, hupdate⟩
            simpa [hx, hy] using hothers hupdate k

theorem hashedInputs_eq_iff {a b : CTransaction} (nHashType : ℕ) (hS : S ≠ [])
    (hi : i < a.vin.length) (hj : j < b.vin.length) :
    hashedInputs S a i nHashType = hashedInputs T b j nHashType ↔
      S = T ∧ a.vin[i]?.map CTxIn.prevout = b.vin[j]?.map CTxIn.prevout ∧
        a.vin[i]?.map CTxIn.nSequence = b.vin[j]?.map CTxIn.nSequence ∧
        (nHashType &&& SIGHASH_ANYONECANPAY = 0 →
          i = j ∧ a.vin.map CTxIn.prevout = b.vin.map CTxIn.prevout ∧
            (othersUpdate nHashType = false →
              a.vin.map CTxIn.nSequence = b.vin.map CTxIn.nSequence)) := by
  rw [hashedInputs, hashedInputs]
  by_cases hany : nHashType &&& SIGHASH_ANYONECANPAY = 0
  · rw [if_neg (not_not.mpr hany), if_neg (not_not.mpr hany), mapIdx_hashedInput_eq_iff hS hi]
    constructor
    · rintro ⟨hscript, rfl, hprevout, hsequence, hothers⟩
      refine ⟨hscript, ?_, hsequence, fun _ => ⟨rfl, hprevout, hothers⟩⟩
      rw [← List.getElem?_map, ← List.getElem?_map, hprevout]
    · rintro ⟨hscript, -, hsequence, hothers⟩
      obtain ⟨hij, hprevout, hrest⟩ := hothers hany
      exact ⟨hscript, hij, hprevout, hsequence, hrest⟩
  · rw [if_pos hany, if_pos hany, List.getElem?_mapIdx, List.getElem?_mapIdx,
      List.getElem?_eq_getElem hi, List.getElem?_eq_getElem hj]
    simp [hashedInput, hany]
    tauto

/-! ### Outputs -/

theorem hashedOutputs_eq_iff {a b : CTransaction}
    (hi : nHashType &&& 0x1f = SIGHASH_SINGLE → i < a.vout.length)
    (hj : nHashType &&& 0x1f = SIGHASH_SINGLE → j < b.vout.length) :
    hashedOutputs a i nHashType = hashedOutputs b j nHashType ↔
      (nHashType &&& 0x1f = SIGHASH_SINGLE → i = j ∧ a.vout[i]? = b.vout[j]?) ∧
        (nHashType &&& 0x1f ≠ SIGHASH_NONE → nHashType &&& 0x1f ≠ SIGHASH_SINGLE →
          a.vout = b.vout) := by
  rw [hashedOutputs, hashedOutputs]
  by_cases hnone : nHashType &&& 0x1f = SIGHASH_NONE
  · simp [hnone, SIGHASH_NONE, SIGHASH_SINGLE]
  · by_cases hsingle : nHashType &&& 0x1f = SIGHASH_SINGLE
    · rw [if_neg hnone, if_neg hnone, if_pos hsingle, if_pos hsingle,
        List.getElem?_eq_getElem (hi hsingle), List.getElem?_eq_getElem (hj hsingle)]
      simp only [Option.map_some, Option.some.injEq, hsingle, forall_const, ne_eq, not_true_eq_false,
        false_implies, implies_true, and_true]
      constructor
      · intro h
        have hlength := congrArg List.length h
        simp only [List.length_append, List.length_replicate, List.length_singleton,
          Nat.add_right_cancel_iff] at hlength
        subst hlength
        exact ⟨rfl, by simpa using h⟩
      · rintro ⟨rfl, hout⟩
        rw [hout]
    · simp [hnone, hsingle]

/-! ### Ranges -/

theorem length_findAndDeleteFrom (b : CScript) (fuel : ℕ) (script : CScript) (pc : ℕ) :
    (findAndDeleteFrom b fuel script pc).length ≤ script.length := by
  induction fuel generalizing script pc with
  | zero => exact le_refl _
  | succ fuel ih =>
    rw [findAndDeleteFrom]
    split
    · refine (ih _ _).trans ?_
      rw [List.length_append, List.length_take, List.length_drop]
      omega
    · dsimp only
      split
      · exact ih _ _
      · exact le_refl _

theorem CScript.length_separated (script : CScript) : script.separated.length ≤ script.length := by
  rw [separated, FindAndDelete]
  split
  · exact le_refl _
  · exact length_findAndDeleteFrom _ _ _ _

theorem hashedInputs_typed {script : CScript} (nIn nHashType : ℕ) (htx : tx.Typed)
    (hscript : script.length < 2 ^ 64) :
    (hashedInputs script tx nIn nHashType).length < 2 ^ 64 ∧
      ∀ txin ∈ hashedInputs script tx nIn nHashType, txin.Typed := by
  have hall : ∀ txin ∈ tx.vin.mapIdx (hashedInput script nIn nHashType), txin.Typed := by
    intro txin hmem
    obtain ⟨k, hk, rfl⟩ := List.mem_mapIdx.mp hmem
    obtain ⟨hprevout, -, hsequence⟩ := htx.vin _ (List.getElem_mem hk)
    refine ⟨hprevout, ?_, ?_⟩
    · dsimp only [hashedInput]
      split
      · exact hscript
      · simp
    · dsimp only [hashedInput]
      split
      · simp
      · exact hsequence
  rw [hashedInputs]
  split
  · refine ⟨?_, fun txin htxin => hall txin (List.mem_of_getElem? (Option.mem_toList.mp htxin))⟩
    cases (tx.vin.mapIdx (hashedInput script nIn nHashType))[nIn]? <;> simp
  · rw [List.length_mapIdx]
    exact ⟨htx.vin_length, hall⟩

theorem hashedOutputs_typed {nIn : ℕ} (htx : tx.Typed) {vout : List CTxOut}
    (h : hashedOutputs tx nIn nHashType = some vout) :
    vout.length < 2 ^ 64 ∧ ∀ txout ∈ vout, txout.Typed := by
  have hnull : CTxOut.null.Typed := by
    simp [CTxOut.Typed, CTxOut.null]
  rw [hashedOutputs] at h
  split at h
  · cases h
    simp
  · split at h
    · obtain ⟨txout, hout, rfl⟩ := Option.map_eq_some_iff.mp h
      have hlength := (List.getElem?_eq_some_iff.mp hout).1
      have hmax := htx.vout_length
      refine ⟨by simp; omega, ?_⟩
      intro other hother
      rcases List.mem_append.mp hother with hother | hother
      · rw [(List.mem_replicate.mp hother).2]
        exact hnull
      · rw [List.mem_singleton.mp hother]
        exact htx.vout txout (List.mem_of_getElem? hout)
    · cases h
      exact ⟨htx.vout_length, htx.vout⟩

theorem hashedOutputs_isSome {nIn : ℕ}
    (h : nHashType &&& 0x1f = SIGHASH_SINGLE → nIn < tx.vout.length) :
    ∃ vout, hashedOutputs tx nIn nHashType = some vout := by
  rw [hashedOutputs]
  split
  · exact ⟨_, rfl⟩
  · split
    · rename_i hsingle
      rw [List.getElem?_eq_getElem (h hsingle)]
      exact ⟨_, rfl⟩
    · exact ⟨_, rfl⟩

/-! ## The hash -/

/-- Where the hash is not the error value, it is one of the copy and the type. -/
theorem SignatureHash_eq (crypto : ScriptCrypto) {script : CScript} {tx : CTransaction}
    {nIn nHashType : ℕ} {vout : List CTxOut} (hin : nIn < tx.vin.length)
    (hout : hashedOutputs tx nIn nHashType = some vout) :
    SignatureHash crypto script tx nIn nHashType =
      crypto.Hash (CTransaction.wire.serialize
        { tx with vin := hashedInputs script.separated tx nIn nHashType, vout := vout } ++
          LittleEndian.toBytes 4 nHashType) := by
  rw [SignatureHash, if_neg (Nat.not_le.mpr hin), signatureTx_eq, hout]
  rfl

/-- With an injective hash, two signature hashes of one type agree exactly when the parts agree that
the type commits to. -/
theorem signatureHash_eq_iff (crypto : ScriptCrypto) (hHash : Function.Injective crypto.Hash)
    (s t : CScript) (a b : CTransaction) (i j nHashType : ℕ) (ha : a.Typed) (hb : b.Typed)
    (hs : s.length < 2 ^ 64) (ht : t.length < 2 ^ 64) (hi : i < a.vin.length) (hj : j < b.vin.length)
    (hscript : s.separated ≠ [])
    (hisingle : nHashType &&& 0x1f = SIGHASH_SINGLE → i < a.vout.length)
    (hjsingle : nHashType &&& 0x1f = SIGHASH_SINGLE → j < b.vout.length) :
    SignatureHash crypto s a i nHashType = SignatureHash crypto t b j nHashType ↔
      SameCommitment s t a b i j nHashType := by
  obtain ⟨avout, havout⟩ := hashedOutputs_isSome hisingle
  obtain ⟨bvout, hbvout⟩ := hashedOutputs_isSome hjsingle
  have hains := hashedInputs_typed i nHashType ha (s.length_separated.trans_lt hs)
  have hbins := hashedInputs_typed j nHashType hb (t.length_separated.trans_lt ht)
  have haouts := hashedOutputs_typed ha havout
  have hbouts := hashedOutputs_typed hb hbvout
  have hatyped : ({ a with vin := hashedInputs s.separated a i nHashType, vout := avout } :
      CTransaction).Typed :=
    ⟨ha.nVersion, ha.nTime, hains.1, hains.2, haouts.1, haouts.2, ha.nLockTime, ha.strTxInfo⟩
  have hbtyped : ({ b with vin := hashedInputs t.separated b j nHashType, vout := bvout } :
      CTransaction).Typed :=
    ⟨hb.nVersion, hb.nTime, hbins.1, hbins.2, hbouts.1, hbouts.2, hb.nLockTime, hb.strTxInfo⟩
  have hinputs := hashedInputs_eq_iff (T := t.separated) nHashType hscript hi hj
  have houtputs := hashedOutputs_eq_iff hisingle hjsingle
  rw [havout, hbvout, Option.some.injEq] at houtputs
  rw [SignatureHash_eq crypto hi havout, SignatureHash_eq crypto hj hbvout, hHash.eq_iff,
    CTransaction.serialize_append_inj hatyped hbtyped, CTransaction.written_eq_iff]
  simp only [hinputs, houtputs, and_true]
  constructor
  · rintro ⟨⟨hversion, htime, ⟨hscripts, hprevout, hsequence, hothers⟩, ⟨hsingle, hall⟩, hlock⟩, hinfo⟩
    refine ⟨hscripts, hversion, htime, hlock, hinfo, hprevout, hsequence, ?_, hsingle, hall⟩
    intro hany
    obtain ⟨hij, hprevouts, hsequences⟩ := hothers hany
    refine ⟨hij, by simpa using congrArg List.length hprevouts, hprevouts, ?_⟩
    intro hnone hsingle
    exact hsequences (by simp [othersUpdate, hnone, hsingle])
  · intro h
    refine ⟨⟨h.nVersion, h.nTime, ⟨h.script, h.outpoint, h.sequence, ?_⟩, ⟨h.single, h.outputs⟩,
      h.nLockTime⟩, h.strTxInfo⟩
    intro hany
    obtain ⟨hij, -, hprevouts, hsequences⟩ := h.inputs hany
    refine ⟨hij, hprevouts, fun hupdate => ?_⟩
    simp only [othersUpdate, Bool.or_eq_false_iff, beq_eq_false_iff_ne] at hupdate
    exact hsequences hupdate.1 hupdate.2

namespace Scenario

def injectiveCrypto : ScriptCrypto := { noCrypto with Hash := fun bytes => BigEndian.value (1 :: bytes) }

/-- The input of `multisigSpend` behind another one, in a transaction without outputs. -/
def joinedSpend : CTransaction :=
  { multisigSpend with vin := ⟨⟨8, 0⟩, [], 0⟩ :: multisigSpend.vin, vout := [] }

theorem multisigSpend_typed : multisigSpend.Typed := by
  refine ⟨?_, ?_, ?_, ?_, ?_, ?_, ?_, ?_⟩ <;> decide

theorem joinedSpend_typed : joinedSpend.Typed := by
  refine ⟨?_, ?_, ?_, ?_, ?_, ?_, ?_, ?_⟩ <;> decide

/-- A signature for one input and no output is one for the input in another transaction. -/
theorem signatureHash_eq_iff_joined :
    SignatureHash injectiveCrypto multisigOutput multisigSpend 0 0x82 =
      SignatureHash injectiveCrypto multisigOutput joinedSpend 1 0x82 := by
  refine (signatureHash_eq_iff injectiveCrypto BigEndian.marked_injective multisigOutput
    multisigOutput multisigSpend joinedSpend 0 1 0x82 multisigSpend_typed joinedSpend_typed
    (by decide) (by decide) (by decide) (by decide) (by decide) (by decide)
    (by decide)).mpr ?_
  refine ⟨rfl, rfl, rfl, rfl, fun _ => rfl, rfl, rfl, ?_, ?_, ?_⟩
  · decide
  · decide
  · decide

end Scenario

end Dions
