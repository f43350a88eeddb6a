import Dions.Verification.Script.LockTime
import Mathlib.Data.List.Forall2

/-! # Multisignature outputs and the element below the signatures

`OP_CHECKMULTISIG` takes one element more than it reads. What this element is decides nothing, under
every set of flags: the flag that asks for it to be empty is never looked at. -/

namespace Dions

open LittleEndian

variable {script scriptCode scriptPubKey scriptSig scriptSig' : CScript} {stack : List valtype}
  {m : ℕ}
variable {sigs : List valtype}

/-! ## Signatures and keys -/

section Context

variable {crypto : ScriptCrypto} {txTo : CTransaction} {nIn flags nHashType : ℕ}

/-- Each signature belongs to a key, in the order of the keys. -/
def SignaturesMatch (crypto : ScriptCrypto) (txTo : CTransaction) (nIn nHashType : ℕ)
    (scriptCode : CScript) : (sigs keys : List valtype) → Prop :=
  List.SublistForall₂ fun vchSig vchPubKey =>
    checkSignature crypto txTo nIn nHashType scriptCode vchSig vchPubKey = true

theorem SignaturesMatch.length_le {keys : List valtype}
    (h : SignaturesMatch crypto txTo nIn nHashType scriptCode sigs keys) :
    sigs.length ≤ keys.length := by
  obtain ⟨used, hused, hsub⟩ := List.sublistForall₂_iff.mp h
  rw [hused.length_eq]
  exact hsub.length_le

theorem SignaturesMatch.tail {scriptCode : CScript} {sig : valtype} {sigs keys : List valtype}
    (h : SignaturesMatch crypto txTo nIn nHashType scriptCode (sig :: sigs) keys) :
    SignaturesMatch crypto txTo nIn nHashType scriptCode sigs keys := by
  induction keys with
  | nil => cases h
  | cons key keys ih =>
    cases h with
    | cons _ hrest => exact .cons_right hrest
    | cons_right hrest => exact .cons_right (ih hrest)

/-- Taking the first key that fits leaves the most keys, so the loop finds a match if there is
one. -/
theorem matchSigs_iff {keys : List valtype} :
    matchSigs crypto txTo nIn nHashType scriptCode sigs keys = true ↔
      SignaturesMatch crypto txTo nIn nHashType scriptCode sigs keys := by
  induction keys generalizing sigs with
  | nil =>
    cases sigs with
    | nil => exact ⟨fun _ => .nil, fun _ => rfl⟩
    | cons sig sigs => exact ⟨fun h => by simp [matchSigs] at h, fun h => by cases h⟩
  | cons key keys ih =>
    cases sigs with
    | nil => exact ⟨fun _ => .nil, fun _ => by simp [matchSigs]⟩
    | cons sig sigs =>
      have hstep : ∀ sigs' : List valtype,
          (if keys.length < sigs'.length then false
            else matchSigs crypto txTo nIn nHashType scriptCode sigs' keys) = true ↔
              SignaturesMatch crypto txTo nIn nHashType scriptCode sigs' keys := by
        intro sigs'
        split
        · rename_i hlong
          exact ⟨fun h => by simp at h, fun h => absurd h.length_le (Nat.not_le.mpr hlong)⟩
        · exact ih
      rw [matchSigs]
      by_cases hok : checkSignature crypto txTo nIn nHashType scriptCode sig key = true
      · simp only [if_pos hok]
        rw [hstep]
        constructor
        · exact fun h => .cons hok h
        · intro h
          cases h with
          | cons _ hrest => exact hrest
          | cons_right hrest => exact SignaturesMatch.tail hrest
      · simp only [if_neg hok]
        rw [hstep]
        constructor
        · exact fun h => .cons_right h
        · intro h
          cases h with
          | cons hfirst _ => exact absurd hfirst hok
          | cons_right hrest => exact hrest

/-! ## Multisignature scripts -/

/-- `m keys n OP_CHECKMULTISIG`, whatever the form of the pushes. -/
structure MultisigScript (m : ℕ) (keys : List valtype) (script : CScript) : Prop where
  positive : 1 ≤ m
  enough : m ≤ keys.length
  most : keys.length ≤ 20
  form : ∃ mv nv pc, CastToBigNum mv = some (m : ℤ) ∧ CastToBigNum nv = some (keys.length : ℤ) ∧
    pushPrefix script script.length 0 = (mv :: (keys ++ [nv]), pc) ∧
      script.drop pc = [OP_CHECKMULTISIG.toUInt8]

theorem takeCounted_eq {nMax : ℤ} {top : valtype} {n : ℕ} (htop : CastToBigNum top = some (n : ℤ))
    (hn : n ≤ 20) (hmax : (n : ℤ) ≤ nMax) :
    takeCounted nMax (top :: stack) =
      if stack.length ≤ n then none else some (stack.take n, stack.drop n) := by
  have hint : getint (n : ℤ) = n := by
    rw [getint]
    omega
  simp only [takeCounted, htop, Option.map_some, hint, Int.toNat_natCast]
  rw [if_neg (by omega)]

theorem checkMultiSigOp_eq {s : EvalState} {mv nv : valtype} {keys : List valtype}
    (hm : CastToBigNum mv = some (m : ℤ)) (hn : CastToBigNum nv = some (keys.length : ℤ))
    (henough : m ≤ keys.length) (hmost : keys.length ≤ 20)
    (hstack : s.stack = nv :: (keys ++ mv :: stack)) (hops : s.nOpCount + keys.length ≤ 201) :
    checkMultiSigOp crypto txTo nIn nHashType script false s =
      if stack.length ≤ m then none
      else
        some { s with
          nOpCount := s.nOpCount + keys.length
          stack := ofBool (matchSigs crypto txTo nIn nHashType
            (signedScript script s.pbegincodehash (stack.take m)) (stack.take m) keys) ::
              stack.drop (m + 1) } := by
  have hkeys : takeCounted 20 s.stack = some (keys, mv :: stack) := by
    rw [hstack, takeCounted_eq hn hmost (by omega), if_neg (by simp), List.take_left, List.drop_left]
  have hsigs : takeCounted keys.length (mv :: stack) = _ :=
    takeCounted_eq hm (henough.trans hmost) (by omega)
  simp only [checkMultiSigOp, hkeys, hsigs, if_neg (Nat.not_lt.mpr hops)]
  by_cases hshort : stack.length ≤ m
  · simp only [if_pos hshort]
  · simp only [if_neg hshort, List.tail_drop]
    rfl

/-- What the script does to a stack: it needs the signatures and one element below them. -/
theorem EvalScript_multisig {keys : List valtype} (h : MultisigScript m keys script)
    (hscript : script.length ≤ 1000000) {stack : List valtype} (hstack : stack.length ≤ 1000) :
    EvalScript crypto txTo nIn flags nHashType stack script =
      if stack.length + keys.length + 2 ≤ 1000 ∧ m < stack.length then
        some (ofBool (matchSigs crypto txTo nIn nHashType (signedScript script 0 (stack.take m))
          (stack.take m) keys.reverse) :: stack.drop (m + 1))
      else none := by
  obtain ⟨mv, nv, pc, hm, hn, hprefix, hlast⟩ := h.form
  have henough := h.enough
  have hmost := h.most
  have hpc : pc + 1 = script.length := by
    have hlen := congrArg List.length hlast
    rw [List.length_drop, List.length_singleton] at hlen
    omega
  rw [EvalScript_eq hscript, eval_pushPrefix hscript script.length rfl (by simpa using hstack),
    hprefix]
  have hcount : (mv :: (keys ++ [nv])).length + stack.length + 0 =
      stack.length + keys.length + 2 := by
    simp only [List.length_cons, List.length_append, List.length_nil]
    omega
  simp only [List.length_nil, hcount, List.reverse_cons, List.reverse_append, List.reverse_nil,
    List.nil_append, List.cons_append, List.append_assoc]
  by_cases hroom : stack.length + keys.length + 2 ≤ 1000
  · have hops : (0 : ℕ) < 201 := by decide
    have hcheck : checkMultiSigOp crypto txTo nIn nHashType script false
        ⟨nv :: (keys.reverse ++ mv :: stack), [], [], 1, 0⟩ = _ :=
      checkMultiSigOp_eq hm (by rw [hn, List.length_reverse]) (by simpa using henough)
        (by simpa using hmost) rfl (by rw [List.length_reverse]; dsimp only; omega)
    rw [if_pos hroom, eval_instruction (by omega),
      evalInstruction_at hlast (by decide) rfl (by decide) rfl hops, Opcode.execute, hcheck]
    by_cases hdummy : m < stack.length
    · rw [if_neg (Nat.not_le.mpr hdummy), if_pos ⟨hroom, hdummy⟩, Option.bind_some,
        withinLimit_ok (by simp; omega), Option.bind_some]
      have hend : script.length ≤ (script.GetOp2 pc).pc := by
        rw [GetOp2_op hlast (by decide)]
        exact hpc.ge
      rw [eval_end hend]
      rfl
    · rw [if_pos (Nat.not_lt.mp hdummy), if_neg (fun hboth => hdummy hboth.2)]
      rfl
  · rw [if_neg hroom, if_neg (fun hboth => hroom hboth.1), Option.bind_none]

theorem accepts_multisig {keys : List valtype} (h : MultisigScript m keys script)
    {stack : List valtype} (hstack : stack.length ≤ 1000) :
    accepts (EvalScript crypto txTo nIn flags nHashType stack script) = true ↔
      script.length ≤ 1000000 ∧ stack.length + keys.length + 2 ≤ 1000 ∧ m < stack.length ∧
        SignaturesMatch crypto txTo nIn nHashType (signedScript script 0 (stack.take m))
          (stack.take m) keys.reverse := by
  by_cases hscript : script.length ≤ 1000000
  · rw [EvalScript_multisig h hscript hstack]
    split
    · rename_i hfits
      rw [accepts_ofBool, matchSigs_iff]
      exact ⟨fun hsigs => ⟨hscript, hfits.1, hfits.2, hsigs⟩, fun hall => hall.2.2.2⟩
    · rename_i hfits
      exact ⟨fun hnone => by simp [accepts] at hnone, fun hall => absurd ⟨hall.2.1, hall.2.2.1⟩ hfits⟩
  · rw [EvalScript, if_pos (Nat.not_le.mp hscript)]
    exact ⟨fun hnone => by simp [accepts] at hnone, fun hall => absurd hall.1 hscript⟩

/-! ## Outputs that pay to the hash of a script -/

theorem IsPayToScriptHash_form (h : script.IsPayToScriptHash = true) :
    ∃ hash : valtype, hash.length = 20 ∧
      script = OP_HASH160.toUInt8 :: (pushVch hash ++ [OP_EQUAL.toUInt8]) := by
  simp only [CScript.IsPayToScriptHash, Bool.and_eq_true, beq_iff_eq, Option.map_eq_some_iff] at h
  obtain ⟨⟨⟨hlen, a, ha, hop⟩, b, hb, hsize⟩, c, hc, hequal⟩ := h
  have htoUInt8 : ∀ (x : UInt8) (n : ℕ), x.toNat = n → x = n.toUInt8 := by
    intro x n hx
    rw [← hx]
    exact UInt8.ofNat_toNat.symm
  rcases script with _ | ⟨x, _ | ⟨y, rest⟩⟩
  · simp at hlen
  · simp at hlen
  · have hrest : rest.length = 21 := by simpa using hlen
    have hhash : (rest.take 20).length = 20 := by simp [hrest]
    have hlast : rest.drop 20 = [c] := by
      have hget : rest[20]? = some c := by simpa using hc
      obtain ⟨hlt, hval⟩ := List.getElem?_eq_some_iff.mp hget
      rw [List.drop_eq_getElem_cons hlt, hval, List.drop_eq_nil_of_le (by omega)]
    have hx : x = a := by simpa using ha
    have hy : y = b := by simpa using hb
    refine ⟨rest.take 20, hhash, ?_⟩
    rw [hx, hy, htoUInt8 a _ hop, htoUInt8 b _ hsize, ← htoUInt8 c _ hequal, ← hlast, pushVch, hhash,
      if_pos (by decide), List.cons_append, List.take_append_drop]

/-- The output compares the hash of the top of the stack. -/
theorem EvalScript_scriptHash {hash pubKey2 : valtype} (hhash : hash.length = 20)
    (hroom : stack.length + 2 ≤ 1000) :
    EvalScript crypto txTo nIn flags nHashType (pubKey2 :: stack)
        (OP_HASH160.toUInt8 :: (pushVch hash ++ [OP_EQUAL.toUInt8])) =
      some (ofBool (crypto.HASH160 pubKey2 == hash) :: stack) := by
  generalize hform : OP_HASH160.toUInt8 :: (pushVch hash ++ [OP_EQUAL.toUInt8]) = script
  have hpush : (pushVch hash).length = 21 := by
    rw [pushVch, hhash, if_pos (by decide), List.length_cons, hhash]
  have hlen : script.length = 23 := by simp [← hform, hpush]
  have hdrop0 : script.drop 0 = OP_HASH160.toUInt8 :: (pushVch hash ++ [OP_EQUAL.toUInt8]) := by
    rw [List.drop_zero, hform]
  have hdrop1 : script.drop 1 = pushVch hash ++ [OP_EQUAL.toUInt8] := by rw [← hform]; rfl
  have hdrop22 : script.drop (1 + (pushVch hash).length) = [OP_EQUAL.toUInt8] :=
    drop_add_length hdrop1
  rw [EvalScript_eq (by omega), eval_op hdrop0 (by decide) rfl (by decide) rfl (by simp) rfl
    (by simp; omega), eval_push (by omega) hdrop1 rfl (by simp; omega),
    eval_op hdrop22 (by decide) rfl (by decide) rfl (by simp) rfl (by simp; omega),
    eval_end (by omega)]
  rfl

/-! ## The element below the signatures -/

/-- The script that asks for the signatures, and the stack it meets: for an output that pays to the
hash of a script these are the script that is pushed last, and what was pushed before it. -/
def signerStack (scriptSig scriptPubKey : CScript) : Option (CScript × List valtype) :=
  scriptSig.pushes.bind fun vs =>
    if scriptPubKey.IsPayToScriptHash then
      match vs.reverse with
      | [] => none
      | pubKey2 :: stack => some (pubKey2, stack)
    else some (scriptPubKey, vs.reverse)

/-- The extra element that `OP_CHECKMULTISIG` consumes. -/
def dummyElement (m : ℕ) (scriptSig scriptPubKey : CScript) : Option valtype :=
  (signerStack scriptSig scriptPubKey).bind fun p => p.2[m]?

/-- The signatures are there and match, and nothing exceeds a limit of the interpreter. -/
structure Signed (crypto : ScriptCrypto) (txTo : CTransaction) (nIn nHashType m : ℕ)
    (keys : List valtype) (scriptSig scriptPubKey script : CScript) (stack : List valtype) :
    Prop where
  size : scriptSig.length ≤ 1000000 ∧ script.length ≤ 1000000
  room : stack.length + keys.length + 2 ≤ 1000
  revealed : scriptPubKey.IsPayToScriptHash = true →
    crypto.HASH160 script = (scriptPubKey.drop 2).take 20
  complete : m < stack.length
  signatures : SignaturesMatch crypto txTo nIn nHashType (signedScript script 0 (stack.take m))
    (stack.take m) keys.reverse

/-- The output is signed for by the script of pushes. -/
def SignedFor (crypto : ScriptCrypto) (txTo : CTransaction) (nIn nHashType m : ℕ)
    (keys : List valtype) (scriptSig scriptPubKey : CScript) : Prop :=
  ∃ script stack, signerStack scriptSig scriptPubKey = some (script, stack) ∧
    Signed crypto txTo nIn nHashType m keys scriptSig scriptPubKey script stack

theorem Signed.fits {keys : List valtype}
    (h : Signed crypto txTo nIn nHashType m keys scriptSig scriptPubKey script stack)
    (hform : MultisigScript m keys script) : stack.length + 1 ≤ 1000 := by
  have hpositive := hform.positive
  have henough := hform.enough
  have hroom := h.room
  omega

variable (flags) in
theorem accepts_bare {keys : List valtype} (hsize : scriptSig.length ≤ 1000000)
    (hstack : stack.length ≤ 1000) (hbare : scriptPubKey.IsPayToScriptHash = false)
    (hform : MultisigScript m keys scriptPubKey) :
    accepts (EvalScript crypto txTo nIn flags nHashType stack scriptPubKey) = true ↔
      Signed crypto txTo nIn nHashType m keys scriptSig scriptPubKey scriptPubKey stack := by
  rw [accepts_multisig hform hstack]
  constructor
  · rintro ⟨hscript, hroom, hcomplete, hsigs⟩
    exact ⟨⟨hsize, hscript⟩, hroom, fun h => absurd (hbare.symm.trans h) (by simp), hcomplete, hsigs⟩
  · intro h
    exact ⟨h.size.2, h.room, h.complete, h.signatures⟩

variable (flags) in
/-- The output checks the hash of the script, and the script runs on what is below it. -/
theorem accepts_scriptHash {keys : List valtype} (hsize : scriptSig.length ≤ 1000000)
    (hstack : stack.length ≤ 1000) (hhash : scriptPubKey.IsPayToScriptHash = true)
    (hform : MultisigScript m keys script) :
    (accepts (EvalScript crypto txTo nIn flags nHashType (script :: stack) scriptPubKey) = true ∧
        accepts (EvalScript crypto txTo nIn flags nHashType stack script) = true) ↔
      Signed crypto txTo nIn nHashType m keys scriptSig scriptPubKey script stack := by
  obtain ⟨hash, hlen, hspk⟩ := IsPayToScriptHash_form hhash
  have htake : (scriptPubKey.drop 2).take 20 = hash := by
    rw [hspk, pushVch, hlen, if_pos (by decide)]
    exact List.take_left' hlen
  rw [accepts_multisig hform hstack]
  constructor
  · rintro ⟨hfirst, hscript, hroom, hcomplete, hsigs⟩
    have hpositive := hform.positive
    have henough := hform.enough
    rw [hspk, EvalScript_scriptHash hlen (by omega), accepts_ofBool, beq_iff_eq] at hfirst
    exact ⟨⟨hsize, hscript⟩, hroom, fun _ => hfirst.trans htake.symm, hcomplete, hsigs⟩
  · intro h
    have hpositive := hform.positive
    have henough := hform.enough
    have hroom := h.room
    refine ⟨?_, h.size.2, hroom, h.complete, h.signatures⟩
    rw [hspk, EvalScript_scriptHash hlen (by omega), accepts_ofBool, beq_iff_eq, ← htake]
    exact h.revealed hhash

theorem signedFor_iff {keys : List valtype}
    (h : signerStack scriptSig scriptPubKey = some (script, stack)) :
    SignedFor crypto txTo nIn nHashType m keys scriptSig scriptPubKey ↔
      Signed crypto txTo nIn nHashType m keys scriptSig scriptPubKey script stack := by
  constructor
  · rintro ⟨script', stack', hstack, hsigned⟩
    cases h.symm.trans hstack
    exact hsigned
  · exact fun hsigned => ⟨script, stack, h, hsigned⟩

/-- A multisignature output, bare or by the hash of its script, is spent exactly by signing. -/
theorem VerifyScript_multisig {keys : List valtype} (hpush : scriptSig.IsPushOnly = true)
    (hout : ∀ script stack, signerStack scriptSig scriptPubKey = some (script, stack) →
      MultisigScript m keys script) :
    VerifyScript crypto txTo nIn flags nHashType scriptSig scriptPubKey = true ↔
      SignedFor crypto txTo nIn nHashType m keys scriptSig scriptPubKey := by
  rw [VerifyScript, EvalScript_pushOnly hpush]
  cases hvs : scriptSig.pushes with
  | none => simp [SignedFor, signerStack, hvs]
  | some vs =>
    rw [Option.bind_some]
    cases hhash : scriptPubKey.IsPayToScriptHash with
    | false =>
      have hstack : signerStack scriptSig scriptPubKey = some (scriptPubKey, vs.reverse) := by
        simp [signerStack, hvs, hhash]
      have hform := hout _ _ hstack
      rw [signedFor_iff hstack]
      by_cases hfits : scriptSig.length ≤ 1000000 ∧ vs.length ≤ 1000
      · have hcount : vs.reverse.length ≤ 1000 := by simpa using hfits.2
        rw [if_pos hfits, ← accepts_bare flags hfits.1 hcount hhash hform]
        simp
      · rw [if_neg hfits]
        constructor
        · intro h
          simp at h
        · intro h
          have hcount := h.fits hform
          rw [List.length_reverse] at hcount
          exact absurd ⟨h.size.1, by omega⟩ hfits
    | true =>
      cases hrev : vs.reverse with
      | nil =>
        have hnone : signerStack scriptSig scriptPubKey = none := by
          simp [signerStack, hvs, hhash, hrev]
        have hunsigned : ¬SignedFor crypto txTo nIn nHashType m keys scriptSig scriptPubKey := by
          simp [SignedFor, hnone]
        split <;> simp_all
      | cons script stack =>
        have hstack : signerStack scriptSig scriptPubKey = some (script, stack) := by
          simp [signerStack, hvs, hhash, hrev]
        have hlen : vs.length = stack.length + 1 := by
          rw [← List.length_reverse, hrev, List.length_cons]
        have hform := hout _ _ hstack
        rw [signedFor_iff hstack]
        by_cases hfits : scriptSig.length ≤ 1000000 ∧ vs.length ≤ 1000
        · rw [if_pos hfits, ← accepts_scriptHash flags hfits.1 (by omega) hhash hform]
          simp [hpush]
        · rw [if_neg hfits]
          constructor
          · intro h
            simp at h
          · intro h
            have hcount := h.fits hform
            exact absurd ⟨h.size.1, by omega⟩ hfits

/-! ## Another element in its place -/

/-- Signatures do not sign the scripts that hold them. -/
theorem signatureTx_setScriptSig (scriptCode : CScript) (tx : CTransaction) (nIn nHashType : ℕ)
    (scriptSig : CScript) :
    signatureTx scriptCode (tx.setScriptSig nIn scriptSig) nIn nHashType =
      signatureTx scriptCode tx nIn nHashType := by
  have hvin : ∀ scriptCode : CScript,
      ((tx.setScriptSig nIn scriptSig).vin.mapIdx fun i txin =>
        { txin with scriptSig := if i = nIn then scriptCode else [] }) =
      tx.vin.mapIdx fun i txin => { txin with scriptSig := if i = nIn then scriptCode else [] } := by
    intro scriptCode
    apply List.ext_getElem?
    intro i
    simp only [CTransaction.setScriptSig, List.getElem?_mapIdx, List.getElem?_modify]
    cases tx.vin[i]? with
    | none => rfl
    | some txin =>
      by_cases hi : nIn = i
      · simp [hi]
      · simp [hi]
  unfold signatureTx
  simp only [hvin]
  rfl

theorem SignatureHash_setScriptSig (scriptCode : CScript) (tx : CTransaction) (nIn nHashType : ℕ)
    (scriptSig : CScript) :
    SignatureHash crypto scriptCode (tx.setScriptSig nIn scriptSig) nIn nHashType =
      SignatureHash crypto scriptCode tx nIn nHashType := by
  have hlen : (tx.setScriptSig nIn scriptSig).vin.length = tx.vin.length := by
    simp [CTransaction.setScriptSig]
  simp only [SignatureHash, signatureTx_setScriptSig, hlen]

theorem checkSignature_setScriptSig (scriptCode : CScript) (scriptSig : CScript)
    (vchSig vchPubKey : valtype) :
    checkSignature crypto (txTo.setScriptSig nIn scriptSig) nIn nHashType scriptCode vchSig vchPubKey =
      checkSignature crypto txTo nIn nHashType scriptCode vchSig vchPubKey := by
  simp only [checkSignature, CheckSig, SignatureHash_setScriptSig]

theorem signaturesMatch_setScriptSig {keys : List valtype} :
    SignaturesMatch crypto (txTo.setScriptSig nIn scriptSig) nIn nHashType scriptCode sigs keys ↔
      SignaturesMatch crypto txTo nIn nHashType scriptCode sigs keys := by
  simp only [SignaturesMatch, checkSignature_setScriptSig]

/-- Both scripts push the same but for the extra element. -/
def DifferInDummy (m : ℕ) (scriptSig scriptSig' scriptPubKey : CScript) : Prop :=
  ∃ script stack d, signerStack scriptSig scriptPubKey = some (script, stack) ∧
    signerStack scriptSig' scriptPubKey = some (script, stack.set m d)

theorem Signed.setDummy {keys : List valtype} {stack' : List valtype}
    (hsize : scriptSig'.length ≤ 1000000) (hlen : stack'.length = stack.length)
    (htake : stack'.take m = stack.take m)
    (h : Signed crypto txTo nIn nHashType m keys scriptSig scriptPubKey script stack) :
    Signed crypto txTo nIn nHashType m keys scriptSig' scriptPubKey script stack' := by
  refine ⟨⟨hsize, h.size.2⟩, ?_, h.revealed, ?_, ?_⟩
  · rw [hlen]
    exact h.room
  · rw [hlen]
    exact h.complete
  · rw [htake]
    exact h.signatures

theorem signedFor_setScriptSig {keys : List valtype} :
    SignedFor crypto (txTo.setScriptSig nIn scriptSig') nIn nHashType m keys scriptSig scriptPubKey ↔
      SignedFor crypto txTo nIn nHashType m keys scriptSig scriptPubKey := by
  constructor
  · rintro ⟨script, stack, hstack, h⟩
    exact ⟨script, stack, hstack, h.size, h.room, h.revealed, h.complete,
      signaturesMatch_setScriptSig.mp h.signatures⟩
  · rintro ⟨script, stack, hstack, h⟩
    exact ⟨script, stack, hstack, h.size, h.room, h.revealed, h.complete,
      signaturesMatch_setScriptSig.mpr h.signatures⟩

theorem signedFor_differInDummy {keys : List valtype} (hsize : scriptSig.length ≤ 1000000)
    (hsize' : scriptSig'.length ≤ 1000000) (h : DifferInDummy m scriptSig scriptSig' scriptPubKey) :
    SignedFor crypto txTo nIn nHashType m keys scriptSig' scriptPubKey ↔
      SignedFor crypto txTo nIn nHashType m keys scriptSig scriptPubKey := by
  obtain ⟨script, stack, d, hstack, hstack'⟩ := h
  have hlen : (stack.set m d).length = stack.length := List.length_set
  have htake : (stack.set m d).take m = stack.take m := by
    rw [List.take_set, List.set_eq_of_length_le (by simp)]
  rw [signedFor_iff hstack, signedFor_iff hstack']
  exact ⟨Signed.setDummy hsize hlen.symm htake.symm, Signed.setDummy hsize' hlen htake⟩

/-- Whatever the flags: an accepted script of pushes has an empty extra element exactly if it is
empty anyway or nobody signed, and with any other element in its place it is accepted too. -/
theorem multisig_dummy_iff {m : ℕ} {keys : List valtype} {scriptSig scriptPubKey : CScript}
    (hpush : scriptSig.IsPushOnly = true)
    (hout : ∀ script stack, signerStack scriptSig scriptPubKey = some (script, stack) →
      MultisigScript m keys script) :
    ((VerifyScript crypto txTo nIn flags nHashType scriptSig scriptPubKey = true →
        dummyElement m scriptSig scriptPubKey = some []) ↔
      dummyElement m scriptSig scriptPubKey = some [] ∨
        ¬SignedFor crypto txTo nIn nHashType m keys scriptSig scriptPubKey) ∧
    ∀ scriptSig' : CScript, scriptSig'.IsPushOnly = true →
      scriptSig.length ≤ 1000000 → scriptSig'.length ≤ 1000000 →
      DifferInDummy m scriptSig scriptSig' scriptPubKey →
        VerifyScript crypto (txTo.setScriptSig nIn scriptSig') nIn flags nHashType scriptSig'
            scriptPubKey =
          VerifyScript crypto txTo nIn flags nHashType scriptSig scriptPubKey := by
  constructor
  · rw [VerifyScript_multisig hpush hout, or_comm, imp_iff_not_or]
  · intro scriptSig' hpush' hsize hsize' hdiffer
    have hout' : ∀ script stack, signerStack scriptSig' scriptPubKey = some (script, stack) →
        MultisigScript m keys script := by
      obtain ⟨script, stack, d, hstack, hstack'⟩ := hdiffer
      intro script' stack' h
      cases h.symm.trans hstack'
      exact hout _ _ hstack
    rw [Bool.eq_iff_iff, VerifyScript_multisig hpush' hout', VerifyScript_multisig hpush hout,
      signedFor_setScriptSig]
    exact signedFor_differInDummy hsize hsize' hdiffer

end Context

/-! ## A spend with something in the place of the empty element -/

namespace Scenario

def coSigner : valtype :=
  [0x02, 0x85, 0xe1, 0x6e, 0x26, 0xb0, 0x6c, 0x7e, 0x49, 0x8e, 0x30, 0xb5, 0x1c, 0xa6, 0xc2, 0x14,
   0x35, 0x21, 0x2b, 0x18, 0x7f, 0xa7, 0xb7, 0xaa, 0x55, 0xdb, 0x15, 0xe9, 0x90, 0x0d, 0x23, 0xb9,
   0xe6]

/-- The signature of `multisigSpend` by the key of `coSigner`, without its hash type. -/
def coSignature : valtype :=
  [0x30, 0x45, 0x02, 0x21, 0x00, 0x80, 0xef, 0x0b, 0x8f, 0xb1, 0x21, 0xcd, 0x45, 0x4a, 0xc5, 0x83,
   0x26, 0x42, 0x10, 0x41, 0x74, 0x3f, 0x7e, 0x33, 0xaa, 0x31, 0x98, 0x96, 0xd9, 0xf0, 0x4a, 0x21,
   0xad, 0x11, 0x43, 0xa0, 0x81, 0x02, 0x20, 0x28, 0x4a, 0x44, 0x90, 0x28, 0x25, 0x80, 0x34, 0x51,
   0x88, 0x63, 0x46, 0x5b, 0xa2, 0x6a, 0x69, 0x92, 0x06, 0xa4, 0x3c, 0xab, 0x53, 0xc1, 0x6a, 0xe5,
   0x2b, 0xdd, 0xf1, 0x6e, 0xf2, 0x3a, 0xd0]

def coSignerCrypto : ScriptCrypto :=
  { noCrypto with
    Hash := fun _ => 0xd81f237043b1e30a070184e3ac503e8e0db523b6d585e88ed1b32a0d974a880a
    Verify := fun vchPubKey sighash vchSig =>
      vchPubKey == coSigner && vchSig == coSignature &&
        sighash == 0xd81f237043b1e30a070184e3ac503e8e0db523b6d585e88ed1b32a0d974a880a }

def multisigOutput : CScript := pushSmallInt 1 ++ pushVch coSigner ++ pushSmallInt 1 ++ [0xae]

def multisigHash : valtype :=
  [0x99, 0x72, 0x17, 0x27, 0x46, 0xe5, 0x87, 0x3b, 0xd1, 0x24, 0xe3, 0x9a, 0x5c, 0xcf, 0xc5, 0xfb,
   0xeb, 0xbb, 0x97, 0xa7]

/-- The number one where the element should be empty. -/
def filledScriptSig : CScript := pushSmallInt 1 ++ pushVch (coSignature ++ [1])

def multisigSpend : CTransaction :=
  ⟨1, 1600000000, [⟨⟨7, 0⟩, filledScriptSig, UINT_MAX⟩], [⟨1000000, [0x51]⟩], 0, []⟩

theorem multisigOutput_form (script : CScript) (stack : List valtype)
    (h : signerStack filledScriptSig multisigOutput = some (script, stack)) :
    MultisigScript 1 [coSigner] script := by
  have hscript : script = multisigOutput := by
    have hfst := congrArg (Option.map Prod.fst) h
    have hthis : (signerStack filledScriptSig multisigOutput).map Prod.fst =
        some multisigOutput := by decide
    simpa using hfst.symm.trans hthis
  rw [hscript]
  exact ⟨le_rfl, le_rfl, by decide, [1], [1], 36, by decide, by decide, by decide,
    by decide⟩

end Scenario

open Scenario in
/-- The spend is accepted under the flag that asks for an empty element. -/
theorem filled_dummy_accepted :
    ¬(VerifyScript coSignerCrypto multisigSpend 0 SCRIPT_VERIFY_NULLDUMMY 0 filledScriptSig
          multisigOutput = true →
        dummyElement 1 filledScriptSig multisigOutput = some []) := by
  decide

open Scenario in
theorem multisig_dummy_iff_filled :
    ((VerifyScript coSignerCrypto multisigSpend 0 SCRIPT_VERIFY_NULLDUMMY 0 filledScriptSig
          multisigOutput = true →
        dummyElement 1 filledScriptSig multisigOutput = some []) ↔
      dummyElement 1 filledScriptSig multisigOutput = some [] ∨
        ¬SignedFor coSignerCrypto multisigSpend 0 0 1 [coSigner] filledScriptSig multisigOutput) ∧
    ∀ scriptSig' : CScript, scriptSig'.IsPushOnly = true →
      filledScriptSig.length ≤ 1000000 → scriptSig'.length ≤ 1000000 →
      DifferInDummy 1 filledScriptSig scriptSig' multisigOutput →
        VerifyScript coSignerCrypto (multisigSpend.setScriptSig 0 scriptSig') 0
            SCRIPT_VERIFY_NULLDUMMY 0 scriptSig' multisigOutput =
          VerifyScript coSignerCrypto multisigSpend 0 SCRIPT_VERIFY_NULLDUMMY 0 filledScriptSig
            multisigOutput :=
  multisig_dummy_iff (by decide) multisigOutput_form

end Dions
