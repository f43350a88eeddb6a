import Dions.Model.Signing
import Dions.Verification.Alias.Spending
import Dions.Verification.Script.Standard

/-! # Combining signatures of one script

What `CombineSignatures` makes of two input scripts for a script of several keys. The signatures of
both are matched to the keys by `CheckSig` alone, and the interpreter asks for the canonical form as
well. -/

namespace Dions

open LittleEndian txnouttype

variable {m : ℕ} {sig : valtype} {sigs1 sigs2 vs : List valtype} {scriptPubKey : CScript}
variable {rest scriptSig : CScript} {opcode pc : ℕ} {v : valtype}
  {stack1 stack2 used : List valtype}

/-! ## Scripts of several keys -/

/-- The script that `Solver` recognises as asking for `m` of the keys, which are canonical. -/
structure MultisigOf (m : ℕ) (keys : List valtype) (script : CScript) : Prop where
  positive : 1 ≤ m
  enough : m ≤ keys.length
  most : keys.length ≤ 16
  solver : Solver script =
    (true, TX_MULTISIG, [m.toUInt8] :: (keys ++ [[keys.length.toUInt8]]))
  canonical : ∀ key ∈ keys, IsCanonicalPubKey key = true

theorem MultisigOf.not_scriptHash {keys : List valtype} {script : CScript}
    (h : MultisigOf m keys script) : script.IsPayToScriptHash = false := by
  have hsolver := h.solver
  rw [Solver] at hsolver
  split at hsolver
  · simp at hsolver
  · rename_i hhash
    simpa using hhash

theorem standard_of_multisig {out : List valtype} {script : CScript}
    (h : Solver script = (true, TX_MULTISIG, out)) : Standard TX_MULTISIG out script := by
  rw [Solver] at h
  split at h
  · simp at h
  · obtain ⟨script2, hmem, hmatch⟩ := solveTemplates_mem h
    have hcounts := (solveTemplates_counts h).resolve_left (not_not.mpr rfl)
    simp only [mTemplates_eq, List.mem_cons, Prod.mk.injEq, List.not_mem_nil, or_false] at hmem
    obtain rfl : script2 = templateMultisig := by simpa using hmem
    exact of_match_multisig hmatch hcounts

theorem MultisigOf.form {keys : List valtype} {script : CScript} (h : MultisigOf m keys script) :
    ∃ ps, KeyPushes keys ps ∧ script =
      pushSmallInt m ++ (ps ++ (pushSmallInt keys.length ++ [OP_CHECKMULTISIG.toUInt8])) := by
  have henough := h.enough
  have hmost := h.most
  have hstandard := standard_of_multisig h.solver
  generalize hout : [m.toUInt8] :: (keys ++ [[keys.length.toUInt8]]) = out at hstandard
  cases hstandard with
  | @multisig m' keys' ps hm hmn hn hkeys =>
    obtain ⟨hfirst, hrest⟩ := List.cons.inj hout
    obtain ⟨rfl, -⟩ := List.append_inj' hrest rfl
    have hbyte : m.toUInt8.toNat = m'.toUInt8.toNat := by rw [(List.cons.inj hfirst).1]
    rw [toNat_toUInt8 (by omega), toNat_toUInt8 (by omega)] at hbyte
    subst hbyte
    exact ⟨ps, hkeys, rfl⟩

theorem CastToBigNum_getvch {n : ℕ} (h : n ≤ 16) : CastToBigNum (getvch n) = some (n : ℤ) := by
  have hall : ∀ n < 17, CastToBigNum (getvch (n : ℕ)) = some (n : ℤ) := by decide
  exact hall n (Nat.lt_succ_of_le h)

theorem pushPrefix_instruction {script bytes : CScript} {fuel : ℕ} {vch : valtype}
    (h : StandsAt script pc (bytes ++ rest)) (hlen : script.length < 2 ^ 32)
    (hi : Instruction opcode vch bytes)
    (hv : pushedBy ⟨true, opcode, vch, pc + bytes.length⟩ = some v) :
    pushPrefix script (fuel + 1) pc =
      (v :: (pushPrefix script fuel (pc + bytes.length)).1,
        (pushPrefix script fuel (pc + bytes.length)).2) := by
  have hread := h.write hlen hi
  have hpush : pushAt script pc = some v := pushAt_eq_some.mpr (by rw [hread]; exact ⟨rfl, hv⟩)
  rw [pushPrefix_some hpush, hread]

theorem pushPrefix_keys {script ps : CScript} {keys : List valtype} (hkeys : KeyPushes keys ps)
    {pc : ℕ} (fuel : ℕ) (h : StandsAt script pc (ps ++ rest)) (hlen : script.length < 2 ^ 32) :
    pushPrefix script (fuel + keys.length) pc =
      (keys ++ (pushPrefix script fuel (pc + ps.length)).1,
        (pushPrefix script fuel (pc + ps.length)).2) := by
  induction hkeys generalizing pc with
  | nil => rfl
  | @cons k p keys ps hsize hpush hrest ih =>
    obtain ⟨opcode, hform⟩ := hpush
    rw [List.append_assoc] at h
    rw [List.length_cons, ← Nat.add_assoc,
      pushPrefix_instruction h hlen (.push hform) (by rw [pushedBy, if_pos hform.opcode_le]),
      ih h.move, List.length_append, Nat.add_assoc, List.cons_append]

theorem MultisigOf.script {keys : List valtype} {script : CScript} (h : MultisigOf m keys script) :
    MultisigScript m keys script := by
  obtain ⟨ps, hkeys, hscript⟩ := h.form
  have hps := hkeys.length_le
  have hcount := hkeys.count_le
  have hmost := h.most
  have hpositive := h.positive
  have henough := h.enough
  have hsize : script.length = ps.length + 3 := by
    rw [hscript]
    simp only [pushSmallInt, List.length_append, List.length_cons, List.length_nil]
    omega
  have hlen : script.length < 2 ^ 32 := by omega
  have hstart := standsAt_start script
  obtain ⟨fuel, hfuel⟩ : ∃ fuel, script.length = fuel + 1 + 1 + keys.length + 1 :=
    ⟨script.length - keys.length - 3, by omega⟩
  have hsmall : ∀ n, 1 ≤ n → n ≤ 16 → Instruction (n + (OP_1 - 1)) [] (pushSmallInt n) := by
    intro n hlow hhigh
    have hi := instruction_smallInt hhigh
    rwa [if_neg (by omega), smallIntByte_pos hlow] at hi
  nth_rewrite 2 [hscript] at hstart
  have hbehind := hstart.move
  have hcountAt := hbehind.move
  have hlast := hcountAt.move
  refine ⟨hpositive, henough, by omega, getvch m, getvch keys.length, _,
    CastToBigNum_getvch (by omega), CastToBigNum_getvch hmost, ?_, hlast.drop_eq⟩
  have hend : pushAt script (0 + (pushSmallInt m).length + ps.length +
      (pushSmallInt keys.length).length) = none := by
    rw [pushAt, GetOp2_op hlast.drop_eq (by decide)]
    rfl
  rw [hfuel, pushPrefix_instruction hstart hlen (hsmall m hpositive (by omega))
      (pushedBy_smallInt hpositive (by omega)),
    pushPrefix_keys hkeys _ hbehind hlen,
    pushPrefix_instruction hcountAt hlen (hsmall _ (by omega) hmost)
      (pushedBy_smallInt (by omega) hmost), pushPrefix_none hend]

/-! ## Signatures are not part of the script -/

/-- A series of instructions, none of which starts with the pattern. -/
inductive Unmatched (b : CScript) : CScript → Prop
  | nil : Unmatched b []
  | cons {opcode : ℕ} {vch : valtype} {bytes rest : CScript} (hi : Instruction opcode vch bytes)
      (hno : ¬b <+: bytes ++ rest) (hrest : Unmatched b rest) : Unmatched b (bytes ++ rest)

theorem findAndDeleteFrom_unmatched {script b : CScript} (hb : b ≠ [])
    (hlen : script.length < 2 ^ 32) (fuel : ℕ) (h : Unmatched b rest)
    (hstands : StandsAt script pc rest) : findAndDeleteFrom b fuel script pc = script := by
  induction fuel generalizing pc rest with
  | zero => rfl
  | succ fuel ih =>
    have hno : b.isPrefixOf (script.drop pc) = false := by
      rw [Bool.eq_false_iff, Ne, List.isPrefixOf_iff_prefix, hstands.drop_eq]
      cases h with
      | nil => exact fun hprefix => hb (List.prefix_nil.mp hprefix)
      | cons _ hno _ => exact hno
    rw [findAndDeleteFrom, hno]
    cases h with
    | nil =>
      have hend : (script.GetOp2 pc).ret = false := by
        rw [CScript.GetOp2, hstands.drop_eq]
        rfl
      simp [hend]
    | cons hi _ hrest =>
      rw [hstands.write hlen hi]
      exact ih hrest hstands.move

theorem FindAndDelete_unmatched {script b : CScript} (hlen : script.length < 2 ^ 32)
    (h : Unmatched b script) : script.FindAndDelete b = script := by
  rw [CScript.FindAndDelete]
  split
  · rfl
  · rename_i hb
    exact findAndDeleteFrom_unmatched (by simpa using hb) hlen _ h (standsAt_start script)

/-- A canonical signature is short, and its first byte is not the one of a key. -/
theorem canonicalSignature_form (h : IsCanonicalSignature sig = true) :
    (∃ rest, sig = 0x30 :: rest) ∧ sig.length ≤ 73 := by
  simp only [IsCanonicalSignature, Bool.and_eq_true, decide_eq_true_eq, beq_iff_eq] at h
  obtain ⟨⟨⟨⟨⟨⟨⟨⟨⟨⟨hge, hle⟩, -⟩, -⟩, hfirst⟩, -⟩, -⟩, -⟩, -⟩, -⟩, -⟩ := h
  refine ⟨?_, hle⟩
  cases sig with
  | nil => simp at hge
  | cons b rest =>
    have hb : b.toNat = 0x30 := by simpa [byteAt] using hfirst
    refine ⟨rest, ?_⟩
    rw [← toUInt8_toNat b, hb]
    rfl

theorem canonicalPubKey_form {key : valtype} (h : IsCanonicalPubKey key = true) :
    ∃ b rest, key = b :: rest ∧ b ≠ 0x30 := by
  rw [IsCanonicalPubKey, Bool.and_eq_true, decide_eq_true_eq] at h
  obtain ⟨hlong, hfirst⟩ := h
  cases key with
  | nil => simp at hlong
  | cons b rest =>
    refine ⟨b, rest, rfl, ?_⟩
    rintro rfl
    simp [byteAt] at hfirst

theorem pushVch_signature (h : sig.length ≤ 73) : pushVch sig = sig.length.toUInt8 :: sig := by
  rw [pushVch, if_pos]
  simp only [OP_PUSHDATA1]
  omega

theorem not_prefix_above (h : sig.length ≤ 73) {b : UInt8} (hb : 73 < b.toNat) (rest : CScript) :
    ¬pushVch sig <+: b :: rest := by
  rw [pushVch_signature h, List.cons_prefix_cons]
  rintro ⟨rfl, -⟩
  rw [toNat_toUInt8 (by omega)] at hb
  omega

theorem not_prefix_key {key bytes : valtype} (hsig : IsCanonicalSignature sig = true)
    (hkey : IsCanonicalPubKey key = true) (hform : PushForm key opcode bytes) (rest : CScript) :
    ¬pushVch sig <+: bytes ++ rest := by
  obtain ⟨⟨sig', rfl⟩, hshort⟩ := canonicalSignature_form hsig
  obtain ⟨b, key', rfl, hb⟩ := canonicalPubKey_form hkey
  cases hform with
  | direct _ =>
    rw [pushVch_signature hshort, List.cons_append, List.cons_append, List.cons_prefix_cons,
      List.cons_prefix_cons]
    exact fun hprefix => hb hprefix.2.1.symm
  | pushData1 _ => exact not_prefix_above hshort (by decide) _
  | pushData2 _ => exact not_prefix_above hshort (by decide) _
  | pushData4 _ => exact not_prefix_above hshort (by decide) _

theorem unmatched_keys (hsig : IsCanonicalSignature sig = true) {keys : List valtype}
    {ps rest : CScript} (hkeys : KeyPushes keys ps)
    (hcanonical : ∀ key ∈ keys, IsCanonicalPubKey key = true) (hrest : Unmatched (pushVch sig) rest) :
    Unmatched (pushVch sig) (ps ++ rest) := by
  induction hkeys with
  | nil => exact hrest
  | @cons k p keys ps hsize hpush _ ih =>
    obtain ⟨opcode, hform⟩ := hpush
    rw [List.append_assoc]
    exact .cons (.push hform) (not_prefix_key hsig (hcanonical k List.mem_cons_self) hform _)
      (ih fun key hkey => hcanonical key (List.mem_cons_of_mem _ hkey))

theorem unmatched_smallInt (hsig : IsCanonicalSignature sig = true) {n : ℕ} (hlow : 1 ≤ n)
    (hhigh : n ≤ 16) {rest : CScript} (hrest : Unmatched (pushVch sig) rest) :
    Unmatched (pushVch sig) (pushSmallInt n ++ rest) := by
  have hi := instruction_smallInt hhigh
  rw [if_neg (by omega), smallIntByte_pos hlow] at hi
  refine .cons hi (not_prefix_above (canonicalSignature_form hsig).2 ?_ rest) hrest
  rw [toNat_smallInt hhigh]
  simp only [OP_1]
  omega

theorem MultisigOf.unmatched {keys : List valtype} {script : CScript} (h : MultisigOf m keys script)
    {sig : valtype} (hsig : IsCanonicalSignature sig = true) : Unmatched (pushVch sig) script := by
  obtain ⟨ps, hkeys, rfl⟩ := h.form
  have hpositive := h.positive
  have henough := h.enough
  have hmost := h.most
  have hlast : Unmatched (pushVch sig) ([OP_CHECKMULTISIG.toUInt8] ++ []) :=
    .cons (.op (by decide) (by decide))
      (not_prefix_above (canonicalSignature_form hsig).2 (by decide) []) .nil
  exact unmatched_smallInt hsig hpositive (by omega)
    (unmatched_keys hsig hkeys h.canonical (unmatched_smallInt hsig (by omega) hmost hlast))

theorem MultisigOf.length_le {keys : List valtype} {script : CScript} (h : MultisigOf m keys script) :
    script.length ≤ 2003 := by
  obtain ⟨ps, hkeys, rfl⟩ := h.form
  have hps := hkeys.length_le
  have hmost := h.most
  simp only [pushSmallInt, List.length_append, List.length_cons, List.length_nil]
  omega

/-- Canonical signatures sign the script itself. -/
theorem MultisigOf.signedScript {keys : List valtype} {script : CScript}
    (h : MultisigOf m keys script) {sigs : List valtype}
    (hsigs : ∀ sig ∈ sigs, IsCanonicalSignature sig = true) :
    signedScript script 0 sigs = script := by
  have hlen := h.length_le
  rw [Dions.signedScript, List.drop_zero]
  induction sigs with
  | nil => rfl
  | cons sig sigs ih =>
    rw [List.foldl_cons, FindAndDelete_unmatched (by omega) (h.unmatched (hsigs sig List.mem_cons_self))]
    exact ih fun sig' hsig' => hsigs sig' (List.mem_cons_of_mem _ hsig')

/-! ## What is combined -/

theorem mem_insertSigs {sigs : List valtype} {allsigs : OrdSet valtype} :
    v ∈ (insertSigs sigs allsigs).keys ↔ (v ∈ sigs ∧ v ≠ []) ∨ v ∈ allsigs.keys := by
  induction sigs with
  | nil => simp [insertSigs]
  | cons sig sigs ih =>
    rw [insertSigs, List.foldr_cons]
    change v ∈ OrdMap.keys (if sig.isEmpty then insertSigs sigs allsigs
      else (insertSigs sigs allsigs).insert sig ()) ↔ _
    split
    · rename_i hempty
      have hnil : sig = [] := by simpa using hempty
      rw [ih, hnil, List.mem_cons]
      constructor
      · rintro (⟨hmem, hne⟩ | hall)
        · exact .inl ⟨.inr hmem, hne⟩
        · exact .inr hall
      · rintro (⟨hmem, hne⟩ | hall)
        · exact .inl ⟨hmem.resolve_left hne, hne⟩
        · exact .inr hall
    · rename_i hempty
      have hne : sig ≠ [] := by simpa using hempty
      rw [OrdMap.mem_keys_insert, ih, List.mem_cons]
      constructor
      · rintro (rfl | ⟨hmem, hne'⟩ | hall)
        · exact .inl ⟨.inl rfl, hne⟩
        · exact .inl ⟨.inr hmem, hne'⟩
        · exact .inr hall
      · rintro (⟨rfl | hmem, hne'⟩ | hall)
        · exact .inl rfl
        · exact .inr (.inl ⟨hmem, hne'⟩)
        · exact .inr (.inr hall)

/-- The signatures of two stacks in the order of their bytes. -/
def pooled (sigs1 sigs2 : List valtype) : List valtype :=
  (insertSigs sigs2 (insertSigs sigs1 OrdMap.empty)).keys

theorem mem_pooled : v ∈ pooled sigs1 sigs2 ↔ v ∈ sigs1 ++ sigs2 ∧ v ≠ [] := by
  rw [pooled, mem_insertSigs, mem_insertSigs, List.mem_append]
  have hempty : v ∉ (OrdMap.empty : OrdSet valtype).keys := List.not_mem_nil
  tauto

theorem pooled_ordered (sigs1 sigs2 : List valtype) : (pooled sigs1 sigs2).Pairwise (· < ·) :=
  (insertSigs sigs2 (insertSigs sigs1 OrdMap.empty)).ordered

theorem pooled_comm (sigs1 sigs2 : List valtype) : pooled sigs1 sigs2 = pooled sigs2 sigs1 := by
  apply OrdMap.eq_of_mem_keys_iff (pooled_ordered _ _) (pooled_ordered _ _)
  intro v
  rw [mem_pooled, mem_pooled, List.mem_append, List.mem_append, or_comm]

/-- The signatures that are used, with placeholders up to their number. -/
def padded (nSigsRequired : ℕ) (sigs : List valtype) : List valtype :=
  sigs.take nSigsRequired ++ List.replicate (nSigsRequired - sigs.length) []

theorem length_padded (nSigsRequired : ℕ) (sigs : List valtype) :
    (padded nSigsRequired sigs).length = nSigsRequired := by
  rw [padded, List.length_append, List.length_take, List.length_replicate]
  omega

theorem flatMap_placeholders (n : ℕ) :
    (List.replicate n ([] : valtype)).flatMap pushVch = List.replicate n OP_0.toUInt8 := by
  induction n with
  | zero => rfl
  | succ n ih =>
    rw [List.replicate_succ, List.flatMap_cons, ih]
    rfl

theorem mergeSigs_eq {sigs : OrdMap valtype valtype} {nSigsRequired nSigsHave : ℕ}
    (pubkeys : List valtype) (result : CScript) (hhave : nSigsHave ≤ nSigsRequired) :
    mergeSigs sigs nSigsRequired pubkeys nSigsHave result =
      result ++ (padded (nSigsRequired - nSigsHave) (Matching.placed sigs pubkeys)).flatMap
        pushVch := by
  induction pubkeys generalizing nSigsHave result with
  | nil =>
    rw [mergeSigs, Matching.placed, List.filterMap_nil, padded, List.take_nil, List.nil_append,
      List.length_nil, Nat.sub_zero, flatMap_placeholders]
  | cons pubkey pubkeys ih =>
    rw [mergeSigs]
    split
    · rename_i hmore
      cases hfind : sigs.find pubkey with
      | none =>
        rw [Matching.placed, List.filterMap_cons_none hfind]
        exact ih _ hhave
      | some sig =>
        have hnext : nSigsRequired - nSigsHave = nSigsRequired - (nSigsHave + 1) + 1 := by omega
        have hplaced : Matching.placed sigs (pubkey :: pubkeys) = sig :: Matching.placed sigs pubkeys :=
          List.filterMap_cons_some hfind
        dsimp only
        rw [ih _ hmore, hplaced, hnext]
        simp only [padded, List.take_succ_cons, List.length_cons,
          Nat.add_sub_add_right, List.cons_append, List.flatMap_cons, List.append_assoc]
    · rename_i hmore
      have hnone : nSigsRequired - nSigsHave = 0 := by omega
      rw [hnone, padded, List.take_zero, Nat.zero_sub]
      rfl

section Context

variable {crypto : ScriptCrypto} {txTo : CTransaction} {nIn : ℕ}

variable (crypto txTo nIn) in
/-- `CheckSig` as it is asked when signatures are combined. -/
def accepted (script : CScript) (sig key : valtype) : Bool :=
  CheckSig crypto sig key script txTo nIn 0

variable (crypto txTo nIn) in
/-- For every key that has one, the signature that is used. -/
def chosen (script : CScript) (keys sigs1 sigs2 : List valtype) : List valtype :=
  keys.filterMap fun key => (pooled sigs1 sigs2).find? fun sig => accepted crypto txTo nIn script sig key

theorem MultisigOf.combined {keys : List valtype} {script : CScript} (h : MultisigOf m keys script)
    {sigs1 sigs2 : List valtype}
    (hone : ∀ sig ∈ sigs1 ++ sigs2, Matching.FitsOne (accepted crypto txTo nIn script) keys sig) :
    CombineMultisig crypto txTo nIn script
        ([m.toUInt8] :: (keys ++ [[keys.length.toUInt8]])) sigs1 sigs2 =
      ([] :: padded m (chosen crypto txTo nIn script keys sigs1 sigs2)).flatMap pushVch := by
  have hpubkeys : (([m.toUInt8] :: (keys ++ [[keys.length.toUInt8]])).drop 1).take
      (([m.toUInt8] :: (keys ++ [[keys.length.toUInt8]])).length - 2) = keys := by
    simp
  have henough := h.enough
  have hmost := h.most
  have hcount : ((([m.toUInt8] :: (keys ++ [[keys.length.toUInt8]])).head?.bind List.head?).map
      UInt8.toNat).getD 0 = m := toNat_toUInt8 (by omega)
  have hplaced : Matching.placed (Matching.placeAll _ (pooled sigs1 sigs2) keys) keys = _ :=
    Matching.placed_placeAll fun sig hsig => hone sig (mem_pooled.mp hsig).1
  rw [CombineMultisig, hpubkeys, hcount, mergeSigs_eq _ _ (Nat.zero_le m), Nat.sub_zero]
  exact congrArg (fun sigs => [OP_0.toUInt8] ++ (padded m sigs).flatMap pushVch) hplaced

/-! ## Running what is combined -/

variable {flags nHashType : ℕ}

theorem EvalScript_pushAll (hsize : (vs.flatMap pushVch).length ≤ 1000000)
    (hcount : vs.length ≤ 1000) :
    EvalScript crypto txTo nIn flags nHashType [] (vs.flatMap pushVch) = some vs.reverse := by
  have hdrop : (vs.flatMap pushVch).drop 0 = vs.flatMap pushVch ++ [] := by simp
  rw [EvalScript_eq hsize, eval_pushes hsize hdrop rfl (by simpa using hcount), eval_end (by simp)]
  simp [finalStack]

theorem pushOnlyLoop_pushAll {script : CScript} (fuel : ℕ) (hsize : script.length ≤ 1000000)
    (h : StandsAt script pc (vs.flatMap pushVch)) : pushOnlyLoop script fuel pc = true := by
  induction fuel generalizing vs pc with
  | zero => rfl
  | succ fuel ih =>
    rw [pushOnlyLoop]
    cases vs with
    | nil =>
      have hend := h.length_eq
      rw [List.flatMap_nil, List.length_nil] at hend
      rw [if_pos (by omega)]
    | cons v vs =>
      rw [List.flatMap_cons] at h
      have hlen := h.length_eq
      have hshort := length_lt_pushVch v
      rw [List.length_append] at hlen
      have hcounted : Counted v.length (vs.flatMap pushVch).length := by
        rw [Counted, Nat.mod_eq_of_lt (by omega)]
        exact Nat.le_add_right _ _
      obtain ⟨opcode, hop, hread⟩ := (GetOp2_pushVch (by omega) h.drop_eq).1 hcounted
      rw [if_neg (by omega), hread]
      have hpush : ¬OP_16 < opcode := by
        simp only [OP_PUSHDATA4, OP_16] at hop ⊢
        omega
      simp only [hpush, Bool.not_true, Bool.false_eq_true, or_false, if_false]
      exact ih h.move

theorem IsPushOnly_pushAll (hsize : (vs.flatMap pushVch).length ≤ 1000000) :
    CScript.IsPushOnly (vs.flatMap pushVch) = true :=
  pushOnlyLoop_pushAll _ hsize (standsAt_start _)

theorem VerifyScript_longInput (h : 1000000 < scriptSig.length) :
    VerifyScript crypto txTo nIn flags nHashType scriptSig scriptPubKey = false := by
  rw [VerifyScript, EvalScript, if_pos h]

/-- An output that pays to the hash of a script is run first, and then the script. -/
theorem VerifyScript_scriptHash {pubKey2 : CScript} {stack : List valtype}
    (hrun : EvalScript crypto txTo nIn flags nHashType [] scriptSig = some (pubKey2 :: stack))
    (hhash : scriptPubKey.IsPayToScriptHash = true) (hpush : scriptSig.IsPushOnly = true) :
    VerifyScript crypto txTo nIn flags nHashType scriptSig scriptPubKey =
      (accepts (EvalScript crypto txTo nIn flags nHashType (pubKey2 :: stack) scriptPubKey) &&
        accepts (EvalScript crypto txTo nIn flags nHashType stack pubKey2)) := by
  rw [VerifyScript, hrun]
  dsimp only
  rw [hhash, hpush]
  cases accepts (EvalScript crypto txTo nIn flags nHashType (pubKey2 :: stack) scriptPubKey) <;> rfl

/-! ## Which signatures match -/

/-- The signatures that are used are enough and canonical. -/
def EnoughCanonical (m : ℕ) (used : List valtype) : Prop :=
  m ≤ used.length ∧ ∀ sig ∈ used.take m, IsCanonicalSignature sig = true

theorem SignaturesMatch.canonical {scriptCode : CScript} {sigs keys : List valtype}
    (h : SignaturesMatch crypto txTo nIn nHashType scriptCode sigs keys) {sig : valtype}
    (hsig : sig ∈ sigs) : IsCanonicalSignature sig = true := by
  obtain ⟨key, -, hcheck⟩ := Matching.exists_of_sublistForall₂ h hsig
  simp only [checkSignature, Bool.and_eq_true] at hcheck
  exact hcheck.1.1

theorem padded_of_le (h : m ≤ used.length) : padded m used = used.take m := by
  rw [padded, Nat.sub_eq_zero_of_le h, List.replicate_zero, List.append_nil]

theorem enoughCanonical_of_padded (h : ∀ sig ∈ padded m used, IsCanonicalSignature sig = true) :
    EnoughCanonical m used := by
  have hlong : m ≤ used.length := by
    by_contra hshort
    have hempty : ([] : valtype) ∈ padded m used := by
      rw [padded, List.mem_append, List.mem_replicate]
      exact .inr ⟨by omega, rfl⟩
    exact absurd (h [] hempty) (by decide)
  rw [padded_of_le hlong] at h
  exact ⟨hlong, h⟩

theorem MultisigOf.signaturesMatch_iff {keys : List valtype} {script : CScript}
    (h : MultisigOf m keys script) (sigs1 sigs2 : List valtype) :
    SignaturesMatch crypto txTo nIn 0
        (Dions.signedScript script 0
          (padded m (chosen crypto txTo nIn script keys sigs1 sigs2)).reverse)
        (padded m (chosen crypto txTo nIn script keys sigs1 sigs2)).reverse keys.reverse ↔
      EnoughCanonical m (chosen crypto txTo nIn script keys sigs1 sigs2) := by
  generalize hused : chosen crypto txTo nIn script keys sigs1 sigs2 = used
  constructor
  · intro hmatch
    exact enoughCanonical_of_padded fun sig hsig => hmatch.canonical (List.mem_reverse.mpr hsig)
  · rintro ⟨hlong, hcanonical⟩
    rw [padded_of_le hlong, h.signedScript fun sig hsig => hcanonical sig (List.mem_reverse.mp hsig)]
    apply Matching.sublistForall₂_reverse
    refine Matching.sublistForall₂_of_imp (Matching.sublistForall₂_take ?_ m) hcanonical
    rw [← hused]
    apply Matching.sublistForall₂_filterMap
    intro key hkey sig hfind hsig
    have haccepted := List.find?_some hfind
    rw [checkSignature, hsig, h.canonical key hkey]
    exact haccepted

/-! ## The two forms of the output -/

variable (crypto) in
/-- The output asks for the script, itself or by its hash, and the input has left these signatures,
below the script in the second case. -/
inductive PaysTo (script : CScript) : (scriptPubKey : CScript) → (stack sigs : List valtype) → Prop
  | bare (sigs : List valtype) : PaysTo script script sigs sigs
  | scriptHash {scriptPubKey : CScript} (sigs : List valtype)
      (hhash : scriptPubKey.IsPayToScriptHash = true)
      (hrevealed : crypto.HASH160 script = (scriptPubKey.drop 2).take 20) :
      PaysTo script scriptPubKey (script :: sigs) sigs

theorem length_pushAll_le {n : ℕ} (h : ∀ v ∈ vs, v.length ≤ n) :
    (vs.flatMap pushVch).length ≤ (n + 5) * vs.length := by
  induction vs with
  | nil => simp
  | cons v vs ih =>
    have hv := h v List.mem_cons_self
    have hrest := ih fun v' hv' => h v' (List.mem_cons_of_mem _ hv')
    have hform : (pushVch v).length ≤ v.length + 5 := by
      unfold pushVch
      split
      · simp
      · split
        · simp
        · split
          · simp [length_toBytes]
            omega
          · simp [length_toBytes]
            omega
    rw [List.flatMap_cons, List.length_append, List.length_cons, Nat.mul_add]
    omega

theorem length_enoughCanonical (h : EnoughCanonical m used) (hm : m ≤ 16) {script : valtype}
    (hscript : script.length ≤ 2003) :
    (([] :: padded m used).flatMap pushVch).length ≤ 1000000 ∧
      ((([] :: padded m used) ++ [script]).flatMap pushVch).length ≤ 1000000 := by
  have hshort : ∀ v ∈ ([] :: padded m used) ++ [script], v.length ≤ 2003 := by
    intro v hv
    rw [padded_of_le h.1, List.mem_append, List.mem_cons, List.mem_singleton] at hv
    rcases hv with (rfl | hv) | rfl
    · exact Nat.zero_le _
    · exact (canonicalSignature_form (h.2 v hv)).2.trans (by omega)
    · exact hscript
  have hsize := length_pushAll_le hshort
  have hlength := length_padded m used
  rw [List.length_append, List.length_cons, hlength, List.length_singleton] at hsize
  have hboth := hsize
  rw [List.flatMap_append, List.length_append] at hsize
  omega

theorem take_reverse_padded (m : ℕ) (used : List valtype) :
    ([] :: padded m used).reverse.take m = (padded m used).reverse := by
  rw [List.reverse_cons]
  exact List.take_left' (by rw [List.length_reverse, length_padded])

theorem MultisigOf.verifies_bare {keys : List valtype} {script : CScript}
    (h : MultisigOf m keys script) (sigs1 sigs2 : List valtype) :
    VerifyScript crypto txTo nIn flags 0
        (([] :: padded m (chosen crypto txTo nIn script keys sigs1 sigs2)).flatMap pushVch)
        script = true ↔
      EnoughCanonical m (chosen crypto txTo nIn script keys sigs1 sigs2) := by
  have hiff : SignaturesMatch crypto txTo nIn 0 _ _ _ ↔ _ := h.signaturesMatch_iff sigs1 sigs2
  generalize chosen crypto txTo nIn script keys sigs1 sigs2 = used at hiff ⊢
  have hmost := h.most
  have henough := h.enough
  have hlength := length_padded m used
  by_cases hsize : (([] :: padded m used).flatMap pushVch).length ≤ 1000000
  · have hcount : ([] :: padded m used).length ≤ 1000 := by
      rw [List.length_cons]
      omega
    rw [VerifyScript_bare (EvalScript_pushAll hsize hcount) h.not_scriptHash,
      accepts_multisig h.script (by rw [List.length_reverse]; exact hcount), take_reverse_padded,
      hiff, List.length_reverse, List.length_cons, hlength]
    have hscript := h.length_le
    exact ⟨fun hall => hall.2.2.2, fun hcompletes => ⟨by omega, by omega, by omega, hcompletes⟩⟩
  · rw [VerifyScript_longInput (Nat.not_le.mp hsize)]
    constructor
    · simp
    · exact fun hcompletes =>
        absurd (length_enoughCanonical hcompletes (henough.trans hmost) h.length_le).1 hsize

theorem MultisigOf.verifies_scriptHash {keys : List valtype} {script : CScript}
    (h : MultisigOf m keys script) (hhash : scriptPubKey.IsPayToScriptHash = true)
    (hrevealed : crypto.HASH160 script = (scriptPubKey.drop 2).take 20) (sigs1 sigs2 : List valtype) :
    VerifyScript crypto txTo nIn flags 0
        ((([] :: padded m (chosen crypto txTo nIn script keys sigs1 sigs2)) ++ [script]).flatMap
          pushVch) scriptPubKey = true ↔
      EnoughCanonical m (chosen crypto txTo nIn script keys sigs1 sigs2) := by
  have hiff : SignaturesMatch crypto txTo nIn 0 _ _ _ ↔ _ := h.signaturesMatch_iff sigs1 sigs2
  generalize chosen crypto txTo nIn script keys sigs1 sigs2 = used at hiff ⊢
  have hmost := h.most
  have henough := h.enough
  have hlength := length_padded m used
  by_cases hsize : ((([] :: padded m used) ++ [script]).flatMap pushVch).length ≤ 1000000
  · have hcount : (([] :: padded m used) ++ [script]).length ≤ 1000 := by
      rw [List.length_append, List.length_cons, List.length_singleton]
      omega
    have hstack : ([] :: padded m used).reverse.length ≤ 1000 := by
      rw [List.length_reverse, List.length_cons]
      omega
    have hscript := h.length_le
    have hrun : EvalScript crypto txTo nIn flags 0 [] _ = _ := EvalScript_pushAll hsize hcount
    rw [List.reverse_append, List.reverse_singleton, List.singleton_append] at hrun
    rw [VerifyScript_scriptHash hrun hhash (IsPushOnly_pushAll hsize), Bool.and_eq_true,
      accepts_scriptHash flags hsize hstack hhash h.script]
    constructor
    · intro hall
      have hmatch := hall.signatures
      rw [take_reverse_padded] at hmatch
      exact hiff.mp hmatch
    · intro hcompletes
      refine ⟨⟨hsize, by omega⟩, ?_, fun _ => hrevealed, ?_, ?_⟩
      · rw [List.length_reverse, List.length_cons, hlength]
        omega
      · rw [List.length_reverse, List.length_cons, hlength]
        exact Nat.lt_succ_self m
      · rw [take_reverse_padded]
        exact hiff.mpr hcompletes
  · rw [VerifyScript_longInput (Nat.not_le.mp hsize)]
    constructor
    · simp
    · exact fun hcompletes =>
        absurd (length_enoughCanonical hcompletes (henough.trans hmost) h.length_le).2 hsize

/-! ## Combining two inputs -/

theorem solver_of_scriptHash (h : scriptPubKey.IsPayToScriptHash = true) :
    Solver scriptPubKey = (true, TX_SCRIPTHASH, [(scriptPubKey.drop 2).take 20]) := if_pos h

/-- Two stacks that belong to one output are combined to a script that is accepted exactly if the
signatures that are used are enough and canonical. -/
theorem MultisigOf.combines {keys : List valtype} {script : CScript} (h : MultisigOf m keys script)
    (h1 : PaysTo crypto script scriptPubKey stack1 sigs1)
    (h2 : PaysTo crypto script scriptPubKey stack2 sigs2)
    (hone : ∀ sig ∈ sigs1 ++ sigs2, Matching.FitsOne (accepted crypto txTo nIn script) keys sig) :
    VerifyScript crypto txTo nIn flags 0 (combineStacks crypto txTo nIn stack1 stack2 scriptPubKey
        (Solver scriptPubKey).2.1 (Solver scriptPubKey).2.2) scriptPubKey = true ↔
      EnoughCanonical m (chosen crypto txTo nIn script keys sigs1 sigs2) := by
  have hbare := h.not_scriptHash
  cases h1 with
  | bare =>
    cases h2 with
    | bare =>
      rw [h.solver, combineStacks, h.combined hone]
      exact h.verifies_bare _ _
    | scriptHash _ hhash => exact absurd (hbare.symm.trans hhash) (by simp)
  | scriptHash _ hhash hrevealed =>
    cases h2 with
    | bare => exact absurd (hbare.symm.trans hhash) (by simp)
    | scriptHash =>
      have hne : script.isEmpty = false := by
        obtain ⟨ps, -, rfl⟩ := h.form
        rfl
      rw [solver_of_scriptHash hhash, combineStacks]
      simp only [List.head?_cons, Option.all_some, hne, Bool.false_eq_true, if_false]
      rw [h.solver]
      dsimp only
      rw [combineStacks, h.combined hone, ← h.verifies_scriptHash hhash hrevealed,
        List.flatMap_append, List.flatMap_singleton]

theorem chosen_comm (script : CScript) (keys sigs1 sigs2 : List valtype) :
    chosen crypto txTo nIn script keys sigs1 sigs2 = chosen crypto txTo nIn script keys sigs2 sigs1 := by
  rw [chosen, pooled_comm, chosen]

/-! ## Which signatures are used -/

variable (crypto txTo nIn) in
/-- One of the pushes is a canonical signature for the key. -/
def canonicallySigned (script : CScript) (pushes : List valtype) (key : valtype) : Bool :=
  pushes.any fun sig => IsCanonicalSignature sig && accepted crypto txTo nIn script sig key

variable (crypto txTo nIn) in
/-- One of the pushes is taken for a signature for the key. -/
def signed (script : CScript) (pushes : List valtype) (key : valtype) : Bool :=
  pushes.any fun sig => accepted crypto txTo nIn script sig key

variable (crypto txTo nIn) in
/-- Whatever is taken for a signature for the key without being canonical has a canonical one in
front of it, in the order of the bytes. -/
def CanonicalFirst (script : CScript) (pushes : List valtype) (key : valtype) : Prop :=
  ∀ sig ∈ pushes, accepted crypto txTo nIn script sig key = true → IsCanonicalSignature sig = false →
    ∃ sig' ∈ pushes, sig' < sig ∧ accepted crypto txTo nIn script sig' key = true ∧
      IsCanonicalSignature sig' = true

theorem filterMap_eq_map {α β : Type} {f : α → Option β} (d : β) (xs : List α) :
    xs.filterMap f = (xs.filter fun x => (f x).isSome).map fun x => (f x).getD d := by
  induction xs with
  | nil => rfl
  | cons x xs ih =>
    cases hf : f x with
    | none => rw [List.filterMap_cons_none hf, List.filter_cons_of_neg (by simp [hf]), ih]
    | some y =>
      rw [List.filterMap_cons_some hf, List.filter_cons_of_pos (by simp [hf]), List.map_cons, ih, hf,
        Option.getD_some]

theorem accepted_ne_nil {script : CScript} {key : valtype}
    (h : accepted crypto txTo nIn script sig key = true) : sig ≠ [] := by
  rintro rfl
  simp [accepted, CheckSig] at h

theorem find_isSome_iff {script : CScript} (key : valtype) :
    ((pooled sigs1 sigs2).find? fun sig => accepted crypto txTo nIn script sig key).isSome =
      signed crypto txTo nIn script (sigs1 ++ sigs2) key := by
  rw [Bool.eq_iff_iff, List.find?_isSome, signed, List.any_eq_true]
  constructor
  · rintro ⟨sig, hmem, haccepted⟩
    exact ⟨sig, (mem_pooled.mp hmem).1, haccepted⟩
  · rintro ⟨sig, hmem, haccepted⟩
    exact ⟨sig, mem_pooled.mpr ⟨hmem, accepted_ne_nil haccepted⟩, haccepted⟩

/-- The signature that is used for a key is the first one, so it is canonical exactly if a canonical
one is in front of all others. -/
theorem find_canonical_iff {script : CScript} {key : valtype}
    (h : (pooled sigs1 sigs2).find? (fun sig => accepted crypto txTo nIn script sig key) = some sig) :
    IsCanonicalSignature sig = true ↔
      CanonicalFirst crypto txTo nIn script (sigs1 ++ sigs2) key := by
  have haccepted : accepted crypto txTo nIn script sig key = true := by
    simpa using List.find?_some h
  have hmem := (mem_pooled.mp (List.mem_of_find?_eq_some h)).1
  have hleast : ∀ sig' ∈ sigs1 ++ sigs2, accepted crypto txTo nIn script sig' key = true →
      sig ≤ sig' := fun sig' hsig' haccepted' =>
    Matching.le_of_find_ordered (pooled_ordered sigs1 sigs2) h
      (mem_pooled.mpr ⟨hsig', accepted_ne_nil haccepted'⟩) haccepted'
  constructor
  · intro hcanonical sig' hsig' haccepted' hother
    have hne : sig ≠ sig' := by
      rintro rfl
      exact absurd (hcanonical.symm.trans hother) (by simp)
    exact ⟨sig, hmem, lt_of_le_of_ne (hleast sig' hsig' haccepted') hne, haccepted, hcanonical⟩
  · intro hfirst
    by_contra hother
    obtain ⟨sig', hsig', hlt, haccepted', -⟩ := hfirst sig hmem haccepted (by simpa using hother)
    exact absurd hlt (not_lt.mpr (hleast sig' hsig' haccepted'))

theorem chosen_eq_map (script : CScript) (keys sigs1 sigs2 : List valtype) :
    chosen crypto txTo nIn script keys sigs1 sigs2 =
      (keys.filter (signed crypto txTo nIn script (sigs1 ++ sigs2))).map fun key =>
        ((pooled sigs1 sigs2).find? fun sig => accepted crypto txTo nIn script sig key).getD [] := by
  rw [chosen, filterMap_eq_map []]
  simp only [find_isSome_iff]

/-- The signatures for the first keys that are signed for are the ones that are used. -/
theorem canonical_take_iff (m : ℕ) (script : CScript) (keys sigs1 sigs2 : List valtype) :
    (∀ sig ∈ (chosen crypto txTo nIn script keys sigs1 sigs2).take m,
        IsCanonicalSignature sig = true) ↔
      ∀ key ∈ (keys.filter (signed crypto txTo nIn script (sigs1 ++ sigs2))).take m,
        CanonicalFirst crypto txTo nIn script (sigs1 ++ sigs2) key := by
  have hkey : ∀ key ∈ (keys.filter (signed crypto txTo nIn script (sigs1 ++ sigs2))).take m,
      (IsCanonicalSignature (((pooled sigs1 sigs2).find? fun sig =>
          accepted crypto txTo nIn script sig key).getD []) = true ↔
        CanonicalFirst crypto txTo nIn script (sigs1 ++ sigs2) key) := by
    intro key hmem
    have hsigned := (List.mem_filter.mp (List.mem_of_mem_take hmem)).2
    rw [← find_isSome_iff] at hsigned
    obtain ⟨sig, hsig⟩ := Option.isSome_iff_exists.mp hsigned
    rw [hsig, Option.getD_some]
    exact find_canonical_iff hsig
  rw [chosen_eq_map, ← List.map_take, List.forall_mem_map]
  exact forall₂_congr hkey

theorem length_chosen (script : CScript) (keys sigs1 sigs2 : List valtype) :
    (chosen crypto txTo nIn script keys sigs1 sigs2).length =
      keys.countP (signed crypto txTo nIn script (sigs1 ++ sigs2)) := by
  rw [chosen_eq_map, List.length_map, List.countP_eq_length_filter]

theorem signed_of_canonicallySigned {script : CScript} {pushes : List valtype} {key : valtype}
    (h : canonicallySigned crypto txTo nIn script pushes key = true) :
    signed crypto txTo nIn script pushes key = true := by
  obtain ⟨sig, hmem, hsig⟩ := List.any_eq_true.mp h
  exact List.any_eq_true.mpr ⟨sig, hmem, (Bool.and_eq_true_iff.mp hsig).2⟩

/-- If the signatures that are used are enough and canonical, so many keys have a canonical one. -/
theorem EnoughCanonical.enough {script : CScript} {keys : List valtype}
    (h : EnoughCanonical m (chosen crypto txTo nIn script keys sigs1 sigs2)) :
    m ≤ keys.countP (canonicallySigned crypto txTo nIn script (sigs1 ++ sigs2)) := by
  have hfirst := (canonical_take_iff m script keys sigs1 sigs2).mp h.2
  have hlong := h.1
  rw [length_chosen, List.countP_eq_length_filter] at hlong
  have hall : ∀ key ∈ (keys.filter (signed crypto txTo nIn script (sigs1 ++ sigs2))).take m,
      canonicallySigned crypto txTo nIn script (sigs1 ++ sigs2) key = true := by
    intro key hmem
    have hsigned := (List.mem_filter.mp (List.mem_of_mem_take hmem)).2
    obtain ⟨sig, hsig, haccepted⟩ := List.any_eq_true.mp hsigned
    cases hcanonical : IsCanonicalSignature sig with
    | true => exact List.any_eq_true.mpr ⟨sig, hsig, by rw [hcanonical, haccepted]; rfl⟩
    | false =>
      obtain ⟨sig', hsig', -, haccepted', hcanonical'⟩ :=
        hfirst key hmem sig hsig haccepted hcanonical
      exact List.any_eq_true.mpr ⟨sig', hsig', by rw [hcanonical', haccepted']; rfl⟩
  have hsub : ((keys.filter (signed crypto txTo nIn script (sigs1 ++ sigs2))).take m).Sublist keys :=
    (List.take_sublist _ _).trans List.filter_sublist
  calc m = ((keys.filter (signed crypto txTo nIn script (sigs1 ++ sigs2))).take m).length :=
        (List.length_take_of_le hlong).symm
    _ = ((keys.filter (signed crypto txTo nIn script (sigs1 ++ sigs2))).take m).countP
          (canonicallySigned crypto txTo nIn script (sigs1 ++ sigs2)) :=
        (List.countP_eq_length.mpr hall).symm
    _ ≤ keys.countP (canonicallySigned crypto txTo nIn script (sigs1 ++ sigs2)) :=
        hsub.countP_le

theorem enoughCanonical_iff {script : CScript} {keys : List valtype} :
    EnoughCanonical m (chosen crypto txTo nIn script keys sigs1 sigs2) ↔
      m ≤ keys.countP (canonicallySigned crypto txTo nIn script (sigs1 ++ sigs2)) ∧
        ∀ key ∈ (keys.filter (signed crypto txTo nIn script (sigs1 ++ sigs2))).take m,
          CanonicalFirst crypto txTo nIn script (sigs1 ++ sigs2) key := by
  constructor
  · exact fun h => ⟨h.enough, (canonical_take_iff m script keys sigs1 sigs2).mp h.2⟩
  · rintro ⟨henough, hfirst⟩
    refine ⟨?_, (canonical_take_iff m script keys sigs1 sigs2).mpr hfirst⟩
    rw [length_chosen]
    exact henough.trans (List.countP_mono_left fun key _ => signed_of_canonicallySigned)

/-- The script itself is no signature. -/
theorem MultisigOf.not_signature {keys : List valtype} {script : CScript}
    (h : MultisigOf m keys script) : IsCanonicalSignature script = false := by
  obtain ⟨ps, -, rfl⟩ := h.form
  have hpositive := h.positive
  have henough := h.enough
  have hmost := h.most
  rw [Bool.eq_false_iff]
  intro hsig
  obtain ⟨⟨rest, hrest⟩, -⟩ := canonicalSignature_form hsig
  have hbyte : (m + (OP_1 - 1)).toUInt8 = 0x30 := (List.cons.inj hrest).1
  have hvalue := congrArg UInt8.toNat hbyte
  rw [toNat_smallInt (henough.trans hmost)] at hvalue
  simp [OP_1] at hvalue

theorem PaysTo.canonicallySigned {keys : List valtype} {script : CScript}
    (h : MultisigOf m keys script) (h1 : PaysTo crypto script scriptPubKey stack1 sigs1)
    (h2 : PaysTo crypto script scriptPubKey stack2 sigs2) :
    Dions.canonicallySigned crypto txTo nIn script (stack1 ++ stack2) =
      Dions.canonicallySigned crypto txTo nIn script (sigs1 ++ sigs2) := by
  have hstack : ∀ {stack sigs : List valtype} (key : valtype),
      PaysTo crypto script scriptPubKey stack sigs →
      Dions.canonicallySigned crypto txTo nIn script stack key =
        Dions.canonicallySigned crypto txTo nIn script sigs key := by
    intro stack sigs key hpays
    cases hpays with
    | bare => rfl
    | scriptHash => simp [Dions.canonicallySigned, h.not_signature]
  funext key
  have hfirst := hstack key h1
  have hsecond := hstack key h2
  simp only [Dions.canonicallySigned, List.any_append] at hfirst hsecond ⊢
  rw [hfirst, hsecond]

/-! ## Nothing is lost -/

variable (crypto txTo nIn) in
/-- The combination of two inputs is accepted exactly if enough keys have a canonical signature among
the pushes, in both orders of the inputs. -/
def LosesNothing (nAdjustedTime m : ℕ) (keys : List valtype)
    (script scriptPubKey a b : CScript) (pushes : List valtype) : Prop :=
  ∃ ab ba, CombineSignatures crypto txTo nIn nAdjustedTime scriptPubKey a b = some ab ∧
    CombineSignatures crypto txTo nIn nAdjustedTime scriptPubKey b a = some ba ∧
    (VerifyScript crypto txTo nIn STANDARD_SCRIPT_VERIFY_FLAGS 0 ab scriptPubKey = true ↔
      m ≤ keys.countP (canonicallySigned crypto txTo nIn script pushes)) ∧
    VerifyScript crypto txTo nIn STANDARD_SCRIPT_VERIFY_FLAGS 0 ba scriptPubKey =
      VerifyScript crypto txTo nIn STANDARD_SCRIPT_VERIFY_FLAGS 0 ab scriptPubKey

/-- Nothing is lost exactly if there is not enough to lose, or for the first keys with a push that is
taken for their signature a canonical one stands in front of all others. -/
theorem combine_loses_nothing_iff {m : ℕ} {keys : List valtype} {script : CScript}
    (h : MultisigOf m keys script) (nAdjustedTime : ℕ) {scriptPubKey a b : CScript}
    {stackA stackB sigsA sigsB : List valtype}
    (ha : EvalScript crypto (CTransaction.null nAdjustedTime) 0 SCRIPT_VERIFY_NONE 0 [] a = some stackA)
    (hb : EvalScript crypto (CTransaction.null nAdjustedTime) 0 SCRIPT_VERIFY_NONE 0 [] b = some stackB)
    (hpaysA : PaysTo crypto script scriptPubKey stackA sigsA)
    (hpaysB : PaysTo crypto script scriptPubKey stackB sigsB)
    (hone : ∀ sig ∈ sigsA ++ sigsB, ∀ key ∈ keys, ∀ key' ∈ keys,
      CheckSig crypto sig key script txTo nIn 0 = true →
        CheckSig crypto sig key' script txTo nIn 0 = true → key = key') :
    LosesNothing crypto txTo nIn nAdjustedTime m keys script scriptPubKey a b (stackA ++ stackB) ↔
      keys.countP (canonicallySigned crypto txTo nIn script (sigsA ++ sigsB)) < m ∨
        ∀ key ∈ (keys.filter (signed crypto txTo nIn script (sigsA ++ sigsB))).take m,
          CanonicalFirst crypto txTo nIn script (sigsA ++ sigsB) key := by
  have hone' : ∀ sig ∈ sigsB ++ sigsA, Matching.FitsOne (accepted crypto txTo nIn script) keys sig :=
    fun sig hsig => hone sig (List.mem_append.mpr (List.mem_append.mp hsig).symm)
  have hab : VerifyScript crypto txTo nIn STANDARD_SCRIPT_VERIFY_FLAGS 0 _ scriptPubKey = true ↔ _ :=
    h.combines hpaysA hpaysB hone
  have hba : VerifyScript crypto txTo nIn STANDARD_SCRIPT_VERIFY_FLAGS 0 _ scriptPubKey = true ↔ _ :=
    h.combines hpaysB hpaysA hone'
  rw [chosen_comm] at hba
  have hswap := Bool.eq_iff_iff.mpr (hba.trans hab.symm)
  have hloses : LosesNothing crypto txTo nIn nAdjustedTime m keys script scriptPubKey a b
      (stackA ++ stackB) ↔
      (EnoughCanonical m (chosen crypto txTo nIn script keys sigsA sigsB) ↔
        m ≤ keys.countP (canonicallySigned crypto txTo nIn script (sigsA ++ sigsB))) := by
    rw [LosesNothing, PaysTo.canonicallySigned h hpaysA hpaysB]
    simp only [CombineSignatures, ha, hb, Option.some.injEq]
    constructor
    · rintro ⟨ab, ba, rfl, rfl, hiff, -⟩
      exact hab.symm.trans hiff
    · exact fun hiff => ⟨_, _, rfl, rfl, hab.trans hiff, hswap⟩
  rw [hloses, enoughCanonical_iff]
  constructor
  · intro hiff
    by_cases henough : m ≤ keys.countP (canonicallySigned crypto txTo nIn script (sigsA ++ sigsB))
    · exact .inr (hiff.mpr henough).2
    · exact .inl (Nat.not_le.mp henough)
  · rintro (hfew | hfirst)
    · exact ⟨fun hall => hall.1, fun henough => absurd henough (Nat.not_le.mpr hfew)⟩
    · exact ⟨fun hall => hall.1, fun henough => ⟨henough, hfirst⟩⟩

end Context

/-! ## A good signature behind one that is not canonical -/

namespace Scenario

/-- Another signature of `multisigSpend` by the same key. Its second number is in the upper half. -/
def highSignature : valtype :=
  [0x30, 0x45, 0x02, 0x20, 0x5b, 0xfb, 0x64, 0xc9, 0x0c, 0xac, 0xbd, 0x09, 0x24, 0x4f, 0x3a, 0x96,
   0xd5, 0xa6, 0x80, 0x0c, 0x4a, 0x01, 0x22, 0x97, 0x95, 0x96, 0x2f, 0xbe, 0xa4, 0x29, 0xb6, 0x59,
   0x8e, 0x08, 0x5e, 0xb1, 0x02, 0x21, 0x00, 0xf7, 0x43, 0x8d, 0x7b, 0xe3, 0x35, 0x85, 0x34, 0xca,
   0x33, 0xc4, 0x45, 0xd2, 0x4e, 0xbb, 0x6a, 0x14, 0x07, 0xdc, 0x0f, 0x47, 0x41, 0xf7, 0x49, 0x77,
   0x03, 0x45, 0x93, 0xa1, 0x57, 0xe6, 0xc3]

def bothSignaturesCrypto : ScriptCrypto :=
  { coSignerCrypto with
    Verify := fun vchPubKey sighash vchSig =>
      vchPubKey == coSigner && (vchSig == coSignature || vchSig == highSignature) &&
        sighash == 0xd81f237043b1e30a070184e3ac503e8e0db523b6d585e88ed1b32a0d974a880a }

def goodInput : CScript := pushVch [] ++ pushVch (coSignature ++ [1])

def highInput : CScript := pushVch [] ++ pushVch (highSignature ++ [1])

theorem multisigOutput_multisig : MultisigOf 1 [coSigner] multisigOutput :=
  ⟨le_rfl, le_rfl, by decide, by decide, by decide⟩

theorem goodInput_leaves (nAdjustedTime : ℕ) :
    EvalScript bothSignaturesCrypto (CTransaction.null nAdjustedTime) 0 SCRIPT_VERIFY_NONE 0 []
      goodInput = some [coSignature ++ [1], []] :=
  EvalScript_pushPair (by decide)

theorem highInput_leaves (nAdjustedTime : ℕ) :
    EvalScript bothSignaturesCrypto (CTransaction.null nAdjustedTime) 0 SCRIPT_VERIFY_NONE 0 []
      highInput = some [highSignature ++ [1], []] :=
  EvalScript_pushPair (by decide)

end Scenario

open Scenario in
/-- Either input alone has a signature of the key, but the canonical one is dropped. -/
theorem canonical_signature_lost :
    ¬LosesNothing bothSignaturesCrypto multisigSpend 0 0 1 [coSigner] multisigOutput multisigOutput
      goodInput highInput ([coSignature ++ [1], []] ++ [highSignature ++ [1], []]) := by
  rintro ⟨ab, ba, hab, -, hiff, -⟩
  have hcombined : CombineSignatures bothSignaturesCrypto multisigSpend 0 0 multisigOutput goodInput
      highInput = some highInput := by decide
  obtain rfl := Option.some.inj (hcombined.symm.trans hab)
  have hrefused : VerifyScript bothSignaturesCrypto multisigSpend 0 STANDARD_SCRIPT_VERIFY_FLAGS 0
      highInput multisigOutput = false := by decide
  have henough := hiff.mpr (by decide)
  exact absurd (hrefused.symm.trans henough) (by simp)

open Scenario in
theorem combine_loses_nothing_iff_high :
    LosesNothing bothSignaturesCrypto multisigSpend 0 0 1 [coSigner] multisigOutput multisigOutput
        goodInput highInput ([coSignature ++ [1], []] ++ [highSignature ++ [1], []]) ↔
      [coSigner].countP (canonicallySigned bothSignaturesCrypto multisigSpend 0 multisigOutput
          ([coSignature ++ [1], []] ++ [highSignature ++ [1], []])) < 1 ∨
        ∀ key ∈ ([coSigner].filter (signed bothSignaturesCrypto multisigSpend 0 multisigOutput
            ([coSignature ++ [1], []] ++ [highSignature ++ [1], []]))).take 1,
          CanonicalFirst bothSignaturesCrypto multisigSpend 0 multisigOutput
            ([coSignature ++ [1], []] ++ [highSignature ++ [1], []]) key :=
  combine_loses_nothing_iff multisigOutput_multisig 0 (goodInput_leaves 0) (highInput_leaves 0)
    (.bare _) (.bare _) fun sig _ key hkey key' hkey' _ _ => by
      rw [List.mem_singleton.mp hkey, List.mem_singleton.mp hkey']

end Dions
