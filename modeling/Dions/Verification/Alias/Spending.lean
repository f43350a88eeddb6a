import Dions.Verification.Alias.Decoding
import Dions.Verification.Alias.Modes
import Dions.Verification.Mempool.Pending
import Dions.Verification.Script.Multisig

/-! # Spending the output of a name

The output of a name carries its arguments in front of the script of its owner. The interpreter pushes
and drops them again, so the owner can spend the output unless the script is longer than the
interpreter accepts. What an accepted transaction may carry is longer than that. -/

namespace Dions

open Halting LittleEndian

variable {rest script : CScript} {vchPubKey vchSig : valtype}
variable {drops : List UInt8} {nHashType op pc : ℕ} {args : List valtype}

section Context

variable {crypto : ScriptCrypto} {txTo : CTransaction} {nIn flags nHashType : ℕ}

/-! ## The prefix on the stack -/

def dropCount (d : UInt8) : ℕ := if d.toNat = OP_2DROP then 2 else 1

/-- Drops take their elements off the stack, as long as the limit allows that many opcodes. -/
theorem eval_drops (hdrops : ∀ d ∈ drops, d.toNat = OP_DROP ∨ d.toNat = OP_2DROP) {pc : ℕ}
    {s : EvalState} {items below : List valtype} (hdrop : script.drop pc = drops ++ rest)
    (hexec : s.vfExec = []) (hops : s.nOpCount ≤ 201) (hstack : s.stack = items ++ below)
    (hitems : items.length = (drops.map dropCount).sum)
    (hroom : s.stack.length + s.altstack.length ≤ 1000) :
    (scriptLoop crypto txTo nIn flags nHashType script).eval (pc, s) =
      if s.nOpCount + drops.length ≤ 201 then
        (scriptLoop crypto txTo nIn flags nHashType script).eval (pc + drops.length,
          { s with stack := below, nOpCount := s.nOpCount + drops.length })
      else none := by
  induction drops generalizing pc s items with
  | nil =>
    have hnil : items = [] := by simpa using hitems
    obtain ⟨stack, altstack, vfExec, nOpCount, pbegincodehash⟩ := s
    simp only [hnil, List.nil_append] at hstack
    subst hstack
    exact (if_pos hops).symm
  | cons d drops ih =>
    obtain ⟨hd, hrest⟩ := List.forall_mem_cons.mp hdrops
    have hnext : script.drop (pc + 1) = drops ++ rest := by
      rw [← List.drop_drop, hdrop]
      rfl
    have hlen : s.stack.length = items.length + below.length := by
      rw [hstack, List.length_append]
    rw [List.map_cons, List.sum_cons] at hitems
    have hlater : ∀ items' : List valtype, items'.length = (drops.map dropCount).sum →
        s.nOpCount < 201 →
        (scriptLoop crypto txTo nIn flags nHashType script).eval
            (pc + 1, { s with stack := items' ++ below, nOpCount := s.nOpCount + 1 }) =
          if s.nOpCount + (drops.length + 1) ≤ 201 then
            (scriptLoop crypto txTo nIn flags nHashType script).eval (pc + (drops.length + 1),
              { s with stack := below, nOpCount := s.nOpCount + (drops.length + 1) })
          else none := by
      intro items' hitems' hmore
      have hshort : (items' ++ below).length + s.altstack.length ≤ 1000 := by
        rw [List.length_append]
        omega
      have hcount : s.nOpCount + 1 + drops.length = s.nOpCount + (drops.length + 1) := by omega
      have hpc : pc + 1 + drops.length = pc + (drops.length + 1) := by omega
      rw [ih hrest (s := { s with stack := items' ++ below, nOpCount := s.nOpCount + 1 }) hnext hexec
        hmore rfl hitems' hshort]
      dsimp only
      rw [hcount, hpc]
    have hspent : ¬s.nOpCount < 201 → ¬s.nOpCount + (drops.length + 1) ≤ 201 := by omega
    cases hd with
    | inl hone =>
      have hdropped : dropCount d = 1 := by simp [dropCount, hone, OP_DROP, OP_2DROP]
      cases items with
      | nil => simp [hdropped] at hitems; omega
      | cons item items =>
        rw [hdropped, List.length_cons] at hitems
        have hrun : Opcode.execute crypto txTo nIn flags nHashType script (pc + 1) true
            { s with nOpCount := s.nOpCount + 1 } .OP_DROP =
              some { s with stack := items ++ below, nOpCount := s.nOpCount + 1 } := by
          simp [Opcode.execute, EvalState.onStack, hstack]
        rw [eval_opcode hdrop (by rw [hone]; decide) (by rw [hone]; rfl) (by rw [hone]; decide) hexec,
          hrun, Option.bind_some,
          withinLimit_ok (by simp only [List.length_append]; simp at hlen; omega), List.length_cons]
        by_cases hmore : s.nOpCount < 201
        · rw [if_pos hmore, Option.bind_some, hlater items (by omega) hmore]
        · rw [if_neg hmore, if_neg (hspent hmore)]
    | inr htwo =>
      have hdropped : dropCount d = 2 := by simp [dropCount, htwo]
      rcases items with _ | ⟨item₁, _ | ⟨item₂, items⟩⟩
      · simp [hdropped] at hitems
        omega
      · simp [hdropped] at hitems
        omega
      · rw [hdropped, List.length_cons, List.length_cons] at hitems
        have hrun : Opcode.execute crypto txTo nIn flags nHashType script (pc + 1) true
            { s with nOpCount := s.nOpCount + 1 } .OP_2DROP =
              some { s with stack := items ++ below, nOpCount := s.nOpCount + 1 } := by
          simp [Opcode.execute, EvalState.onStack, hstack]
        rw [eval_opcode hdrop (by rw [htwo]; decide) (by rw [htwo]; rfl) (by rw [htwo]; decide) hexec,
          hrun, Option.bind_some,
          withinLimit_ok (by simp only [List.length_append]; simp at hlen; omega), List.length_cons]
        by_cases hmore : s.nOpCount < 201
        · rw [if_pos hmore, Option.bind_some, hlater items (by omega) hmore]
        · rw [if_neg hmore, if_neg (hspent hmore)]

/-! ## The key of the owner -/

/-- The destination compares the hash of the key, in whatever form it is pushed, and the signature
check is left. -/
theorem eval_pubKeyHash_verify {script rest : CScript} {hash vchPubKey : valtype} {pc : ℕ}
    {s : EvalState} {below : List valtype} (hscript : script.length ≤ 1000000)
    (hdrop : script.drop pc = OP_DUP.toUInt8 :: OP_HASH160.toUInt8 :: rest)
    (hpush : pushAt script (pc + 1 + 1) = some hash)
    (hnext : script.drop (script.GetOp2 (pc + 1 + 1)).pc =
      [OP_EQUALVERIFY.toUInt8, OP_CHECKSIG.toUInt8]) (hexec : s.vfExec = [])
    (hops : s.nOpCount + 3 ≤ 201) (hstack : s.stack = vchPubKey :: below)
    (hroom : s.stack.length + s.altstack.length + 2 ≤ 1000) :
    ∃ pc', script.drop pc' = [OP_CHECKSIG.toUInt8] ∧
      (scriptLoop crypto txTo nIn flags nHashType script).eval (pc, s) =
        if crypto.HASH160 vchPubKey = hash then
          (scriptLoop crypto txTo nIn flags nHashType script).eval
            (pc', { s with nOpCount := s.nOpCount + 3 })
        else none := by
  obtain ⟨stack, altstack, vfExec, nOpCount, pbegincodehash⟩ := s
  simp only at hexec hstack hops hroom
  subst hexec hstack
  simp only [List.length_cons] at hroom
  have hdrop1 : script.drop (pc + 1) = OP_HASH160.toUInt8 :: rest := by
    rw [← List.drop_drop, hdrop]
    rfl
  have hdrop4 : script.drop ((script.GetOp2 (pc + 1 + 1)).pc + 1) = [OP_CHECKSIG.toUInt8] := by
    rw [← List.drop_drop, hnext]
    rfl
  refine ⟨_, hdrop4, ?_⟩
  have hdup : Opcode.execute crypto txTo nIn flags nHashType script (pc + 1) true
      ⟨vchPubKey :: below, altstack, [], nOpCount + 1, pbegincodehash⟩ .OP_DUP =
      some ⟨vchPubKey :: vchPubKey :: below, altstack, [], nOpCount + 1, pbegincodehash⟩ :=
    rfl
  have hhash160 : Opcode.execute crypto txTo nIn flags nHashType script (pc + 1 + 1) true
      ⟨vchPubKey :: vchPubKey :: below, altstack, [], nOpCount + 1 + 1, pbegincodehash⟩
        .OP_HASH160 =
      some ⟨crypto.HASH160 vchPubKey :: vchPubKey :: below, altstack, [], nOpCount + 2,
        pbegincodehash⟩ := rfl
  rw [eval_op hdrop (by decide) rfl (by decide) rfl (by dsimp only; omega) hdup (by simp; omega),
    eval_op hdrop1 (by decide) rfl (by decide) rfl (by dsimp only; omega) hhash160 (by simp; omega),
    eval_pushAt hpush ((GetOp2_vchRet_le script _).trans hscript) rfl (by simp; omega)]
  by_cases hequal : crypto.HASH160 vchPubKey = hash
  · have hrun : Opcode.execute crypto txTo nIn flags nHashType script
        ((script.GetOp2 (pc + 1 + 1)).pc + 1) true
        ⟨hash :: crypto.HASH160 vchPubKey :: vchPubKey :: below, altstack, [], nOpCount + 2 + 1,
          pbegincodehash⟩ .OP_EQUALVERIFY =
        some ⟨vchPubKey :: below, altstack, [], nOpCount + 3, pbegincodehash⟩ := by
      simp [Opcode.execute, Opcode.execute.equal, EvalState.leave, hequal]
    rw [if_pos hequal,
      eval_op hnext (by decide) rfl (by decide) rfl (by dsimp only; omega) hrun (by simp; omega)]
  · rw [if_neg hequal]
    apply eval_op_none hnext (by decide) rfl (by decide) rfl
    simp [Opcode.execute, Opcode.execute.equal, EvalState.leave, hequal]

/-- The destination compares the key with its hash and checks the signature. -/
theorem eval_pubKeyHash {s : EvalState} {below : List valtype} (hscript : script.length ≤ 1000000)
    (hdrop : script.drop pc = OP_DUP.toUInt8 :: OP_HASH160.toUInt8 :: rest)
    (hpush : pushAt script (pc + 1 + 1) = some (crypto.HASH160 vchPubKey))
    (hnext : script.drop (script.GetOp2 (pc + 1 + 1)).pc =
      [OP_EQUALVERIFY.toUInt8, OP_CHECKSIG.toUInt8]) (hexec : s.vfExec = [])
    (hops : s.nOpCount + 4 ≤ 201) (hstack : s.stack = vchPubKey :: vchSig :: below)
    (hroom : s.stack.length + s.altstack.length + 2 ≤ 1000) :
    (scriptLoop crypto txTo nIn flags nHashType script).eval (pc, s) =
      some (script.length, { s with
        stack := ofBool (checkSignature crypto txTo nIn nHashType
          (signedScript script s.pbegincodehash [vchSig]) vchSig vchPubKey) :: below
        nOpCount := s.nOpCount + 4 }) := by
  obtain ⟨pc', hlast, heval⟩ :=
    eval_pubKeyHash_verify hscript hdrop hpush hnext hexec (by omega) hstack hroom
  have hend : pc' + 1 = script.length := by
    have hlen := congrArg List.length hlast
    rw [List.length_drop, List.length_singleton] at hlen
    omega
  obtain ⟨stack, altstack, vfExec, nOpCount, pbegincodehash⟩ := s
  simp only at hexec hstack hops hroom
  subst hexec hstack
  have hcheck : Opcode.execute crypto txTo nIn flags nHashType script (pc' + 1) true
      ⟨vchPubKey :: vchSig :: below, altstack, [], nOpCount + 3 + 1, pbegincodehash⟩ .OP_CHECKSIG =
      some ⟨ofBool (checkSignature crypto txTo nIn nHashType
        (signedScript script pbegincodehash [vchSig]) vchSig vchPubKey) :: below, altstack, [],
          nOpCount + 4, pbegincodehash⟩ := rfl
  simp only [List.length_cons] at hroom
  rw [heval, if_pos rfl,
    eval_op hlast (by decide) rfl (by decide) rfl (by dsimp only; omega) hcheck (by simp; omega),
    eval_end hend.ge, hend]

theorem pushAt_keyHash {hash : valtype} (hscript : script.length ≤ 1000000)
    (hdrop : script.drop pc = SetBitcoinAddress hash) :
    pushAt script (pc + 1 + 1) = some hash ∧
      script.drop (script.GetOp2 (pc + 1 + 1)).pc =
        [OP_EQUALVERIFY.toUInt8, OP_CHECKSIG.toUInt8] := by
  have hdrop2 : script.drop (pc + 1 + 1) =
      pushVch hash ++ [OP_EQUALVERIFY.toUInt8, OP_CHECKSIG.toUInt8] := by
    rw [← List.drop_drop, ← List.drop_drop, hdrop]
    rfl
  obtain ⟨hpush, hnext⟩ := pushAt_pushVch hscript hdrop2
  rw [hnext]
  exact ⟨hpush, drop_add_length hdrop2⟩

/-- A pattern that does not occur is not deleted. -/
theorem FindAndDelete_of_not_infix {b : CScript} (h : ¬b <:+: script) :
    script.FindAndDelete b = script := by
  have hloop : ∀ fuel pc : ℕ, findAndDeleteFrom b fuel script pc = script := by
    intro fuel
    induction fuel with
    | zero => exact fun _ => rfl
    | succ fuel ih =>
      intro pc
      have hprefix : b.isPrefixOf (script.drop pc) = false := by
        by_contra hpre
        have hfound : b <+: script.drop pc :=
          List.isPrefixOf_iff_prefix.mp (by simpa using hpre)
        exact h (hfound.isInfix.trans (List.drop_suffix pc script).isInfix)
      simp only [findAndDeleteFrom, hprefix, Bool.false_eq_true, if_false]
      split
      · exact ih _
      · rfl
  rw [CScript.FindAndDelete]
  split
  · rfl
  · exact hloop _ _

theorem EvalScript_pushPair {a b : valtype}
    (hscript : (pushVch a ++ pushVch b).length ≤ 1000000) :
    EvalScript crypto txTo nIn flags nHashType [] (pushVch a ++ pushVch b) = some [b, a] := by
  generalize hform : pushVch a ++ pushVch b = script at hscript ⊢
  have hdrop0 : script.drop 0 = pushVch a ++ pushVch b := by rw [List.drop_zero, hform]
  have hdrop1 : script.drop (0 + (pushVch a).length) = pushVch b ++ [] := by
    rw [List.append_nil]
    exact drop_add_length hdrop0
  have hend : script.length ≤ 0 + (pushVch a).length + (pushVch b).length := by
    rw [← hform, List.length_append]
    omega
  rw [EvalScript_eq hscript, eval_push hscript hdrop0 rfl (by simp),
    eval_push hscript hdrop1 rfl (by simp), eval_end hend]
  rfl

end Context

/-! ## The form of the output -/

/-- `op args drops R` with as many drops as pushed items, whatever the form of the pushes. -/
structure AliasForm (op : ℕ) (args : List valtype) (drops : List UInt8) (R script : CScript) :
    Prop where
  opcode : script.take 1 = pushSmallInt op
  arguments : ∃ pc, pushPrefix script script.length 1 = (args, pc) ∧ script.drop pc = drops ++ R
  drop : ∀ d ∈ drops, d.toNat = OP_DROP ∨ d.toNat = OP_2DROP
  balanced : (drops.map dropCount).sum = args.length + 1

/-- A script that starts with a small number is no pay-to-script-hash script. -/
theorem IsPayToScriptHash_smallInt (hhigh : op ≤ 16)
    (hhead : script.drop 0 = pushSmallInt op ++ rest) : script.IsPayToScriptHash = false := by
  have hcons : script = (op + (OP_1 - 1)).toUInt8 :: rest := hhead
  have hbyte := toNat_smallInt hhigh
  rw [hcons]
  simp only [CScript.IsPayToScriptHash, List.getElem?_cons_zero, Option.map_some, hbyte]
  simp [OP_1, OP_HASH160]
  omega

/-- The decoder of the prefix returns what is pushed. -/
theorem aliasArgs_pushPrefix {fuel fuel' q : ℕ} {vvch vv : List vchType}
    (h : aliasArgs script fuel pc vvch = some (vv, q)) (hfuel : fuel ≤ fuel') :
    vv = vvch ++ (pushPrefix script fuel' pc).1 := by
  induction fuel generalizing fuel' pc vvch with
  | zero => simp [aliasArgs] at h
  | succ fuel ih =>
    obtain ⟨n, rfl⟩ : ∃ n, fuel' = n + 1 := ⟨fuel' - 1, by omega⟩
    simp only [aliasArgs] at h
    split at h
    · simp at h
    · rename_i hret
      have hread : (script.GetOp2 pc).ret = true := by simpa using hret
      split at h
      · rename_i hisDrop
        have hnone : pushAt script pc = none := by
          simp only [isDrop, Bool.or_eq_true, beq_iff_eq, OP_DROP, OP_2DROP, OP_NOP] at hisDrop
          rw [pushAt, if_pos hread, pushedBy, if_neg (by simp only [OP_PUSHDATA4]; omega),
            if_neg (by omega)]
        rw [pushPrefix_none hnone, List.append_nil]
        simp only [Option.some.injEq, Prod.mk.injEq] at h
        exact h.1.symm
      · split at h
        · rename_i hpush
          have hsome : pushAt script pc = some (script.GetOp2 pc).vchRet := by
            rw [pushAt, if_pos hread, pushedBy, if_pos hpush]
          rw [pushPrefix_some hsome, ih h (Nat.le_of_succ_le_succ hfuel), List.append_assoc,
            List.singleton_append]
        · simp at h

section Form

variable {op : ℕ} {args : List valtype} {drops : List UInt8} {R script : CScript}

theorem AliasForm.head (hform : AliasForm op args drops R script) :
    script.drop 0 = pushSmallInt op ++ script.drop 1 := by
  rw [← hform.opcode, List.take_append_drop, List.drop_zero]

theorem AliasForm.arity (hform : AliasForm op args drops R script) (hlow : 1 ≤ op) (hhigh : op ≤ 16)
    (hret : (aliasScript script none).ret = true) : aliasArity op args.length = true := by
  obtain ⟨pc, hargs, _⟩ := hform.arguments
  have hread := GetOp2_smallInt hlow hhigh hform.head
  have hrange : ¬(op + (OP_1 - 1) < OP_1 ∨ OP_16 < op + (OP_1 - 1)) := by
    simp only [OP_1, OP_16]
    omega
  have hvalue : op + (OP_1 - 1) - OP_1 + 1 = op := by
    simp only [OP_1]
    omega
  simp only [aliasScript, hread, Bool.not_true, Bool.false_eq_true, if_false, if_neg hrange,
    hvalue] at hret
  cases hloop : aliasArgs script script.length 1 [] with
  | none => simp [hloop] at hret
  | some found =>
    obtain ⟨vv, q⟩ := found
    have hvv := aliasArgs_pushPrefix hloop le_rfl
    rw [hargs, List.nil_append] at hvv
    simp only [hloop] at hret
    rwa [hvv] at hret

theorem length_drops_le (drops : List UInt8) : drops.length ≤ (drops.map dropCount).sum := by
  induction drops with
  | nil => simp
  | cons d drops ih =>
    have hone : 1 ≤ dropCount d := by
      unfold dropCount
      split <;> decide
    rw [List.map_cons, List.sum_cons, List.length_cons]
    omega

/-- The prefix leaves the stack as it was, and the destination checks key and signature. -/
theorem EvalScript_aliasForm {crypto : ScriptCrypto} {txTo : CTransaction} {nIn flags : ℕ}
    (hscript : script.length ≤ 1000000) (hlow : 1 ≤ op) (hhigh : op ≤ 16) (hargs : args.length ≤ 5)
    (hform : AliasForm op args drops (SetBitcoinAddress (crypto.HASH160 vchPubKey)) script) :
    EvalScript crypto txTo nIn flags nHashType [vchPubKey, vchSig] script =
      some [ofBool (checkSignature crypto txTo nIn nHashType (signedScript script 0 [vchSig]) vchSig
        vchPubKey)] := by
  obtain ⟨pc, hprefix, hbehind⟩ := hform.arguments
  have hdestination : script.drop (pc + drops.length) =
      SetBitcoinAddress (crypto.HASH160 vchPubKey) := drop_add_length hbehind
  obtain ⟨hhash, hchecks⟩ := pushAt_keyHash hscript hdestination
  have hbalanced := hform.balanced
  have hcount := length_drops_le drops
  have hitems : (args.reverse ++ [getvch op]).length = (drops.map dropCount).sum := by
    rw [List.length_append, List.length_reverse, hbalanced]
    rfl
  have hstack : args.reverse ++ [getvch op, vchPubKey, vchSig] =
      (args.reverse ++ [getvch op]) ++ [vchPubKey, vchSig] := by simp
  rw [EvalScript_eq hscript, eval_smallInt hlow hhigh hform.head rfl (by simp),
    eval_pushPrefix hscript script.length rfl (by simp), hprefix, if_pos (by simp; omega),
    eval_drops hform.drop hbehind rfl (by simp) hstack hitems (by simp; omega),
    if_pos (by simp; omega),
    eval_pubKeyHash hscript hdestination hhash hchecks rfl (by simp; omega) rfl (by simp)]
  rfl

end Form

/-- The output that the transaction decodes to is one that decodes. -/
theorem aliasTxLoop_nOut {outs : List CTxOut} {i n : ℕ} {found : Bool} {op nOut : Option ℕ}
    {vvch : List vchType} (hret : (aliasTxLoop outs i found op nOut vvch).ret = true)
    (hn : (aliasTxLoop outs i found op nOut vvch).nOut = some n) :
    (found = true ∧ nOut = some n) ∨
      ∃ out, i ≤ n ∧ outs[n - i]? = some out ∧ (aliasScript out.scriptPubKey none).ret = true := by
  induction outs generalizing i found op nOut vvch with
  | nil => exact .inl ⟨hret, hn⟩
  | cons out outs ih =>
    have hshift : ∀ {out' : CTxOut}, i + 1 ≤ n → outs[n - (i + 1)]? = some out' →
        i ≤ n ∧ (out :: outs)[n - i]? = some out' := by
      intro out' hle hget
      have hindex : n - i = n - (i + 1) + 1 := by omega
      exact ⟨by omega, by rw [hindex, List.getElem?_cons_succ, hget]⟩
    by_cases hdecodes : (aliasScript out.scriptPubKey op).ret = true
    · by_cases hfound : found = true
      · simp [aliasTxLoop, hdecodes, hfound] at hret
      · simp only [aliasTxLoop, hdecodes, if_true, if_neg hfound] at hret hn
        cases ih hret hn with
        | inl h =>
          have hi : i = n := by simpa using h.2
          refine .inr ⟨out, hi.le, by simp [hi], ?_⟩
          rw [← (aliasScript_op out.scriptPubKey op none).1]
          exact hdecodes
        | inr h =>
          obtain ⟨out', hle, hget, hout'⟩ := h
          obtain ⟨hle', hget'⟩ := hshift hle hget
          exact .inr ⟨out', hle', hget', hout'⟩
    · simp only [aliasTxLoop, if_neg hdecodes] at hret hn
      cases ih hret hn with
      | inl h => exact .inl h
      | inr h =>
        obtain ⟨out', hle, hget, hout'⟩ := h
        obtain ⟨hle', hget'⟩ := hshift hle hget
        exact .inr ⟨out', hle', hget', hout'⟩

/-! ## The owner -/

section Owner

variable {crypto : ScriptCrypto} {txTo : CTransaction} {nIn flags : ℕ}

/-- The owner can sign the digest, with a signature that is not part of the output already. -/
structure Signer (crypto : ScriptCrypto) (vchPubKey : valtype) (sighash : uint256)
    (script : CScript) : Prop where
  canonical : IsCanonicalPubKey vchPubKey = true
  signs : ∃ vchSig, crypto.Verify vchPubKey sighash vchSig = true ∧
    IsCanonicalSignature (vchSig ++ [SIGHASH_ALL.toUInt8]) = true ∧
      ¬pushVch (vchSig ++ [SIGHASH_ALL.toUInt8]) <:+: script

theorem length_pushVch_le (a : valtype) (h : a.length < OP_PUSHDATA1) :
    (pushVch a).length = a.length + 1 := by
  rw [pushVch, if_pos h, List.length_cons]

theorem length_canonicalPubKey (h : IsCanonicalPubKey vchPubKey = true) :
    vchPubKey.length ≤ 65 := by
  simp only [IsCanonicalPubKey, Bool.and_eq_true] at h
  obtain ⟨_, hform⟩ := h
  split at hform
  · exact (beq_iff_eq.mp hform).le
  · split at hform
    · have := beq_iff_eq.mp hform
      omega
    · simp at hform

theorem length_canonicalSignature (h : IsCanonicalSignature vchSig = true) :
    vchSig.length ≤ 73 := by
  simp only [IsCanonicalSignature, Bool.and_eq_true, decide_eq_true_eq] at h
  omega

/-- The owner's signature and key spend an output that is short enough. -/
theorem VerifyScript_aliasForm (hscript : script.length ≤ 1000000) (hlow : 1 ≤ op) (hhigh : op ≤ 16)
    (hargs : args.length ≤ 5)
    (hform : AliasForm op args drops (SetBitcoinAddress (crypto.HASH160 vchPubKey)) script)
    (hkey : IsCanonicalPubKey vchPubKey = true)
    (hcanonical : IsCanonicalSignature (vchSig ++ [SIGHASH_ALL.toUInt8]) = true)
    (hother : ¬pushVch (vchSig ++ [SIGHASH_ALL.toUInt8]) <:+: script)
    (hverify : crypto.Verify vchPubKey (SignatureHash crypto script txTo nIn SIGHASH_ALL) vchSig =
      true) :
    VerifyScript crypto txTo nIn flags 0
      (pushVch (vchSig ++ [SIGHASH_ALL.toUInt8]) ++ pushVch vchPubKey) script = true := by
  have hkeySize := length_canonicalPubKey hkey
  have hsigSize := length_canonicalSignature hcanonical
  have hsize : (pushVch (vchSig ++ [SIGHASH_ALL.toUInt8]) ++ pushVch vchPubKey).length ≤
      1000000 := by
    have hsigPush := length_pushVch_le (vchSig ++ [SIGHASH_ALL.toUInt8])
      (by simp only [OP_PUSHDATA1]; omega)
    have hkeyPush := length_pushVch_le vchPubKey (by simp only [OP_PUSHDATA1]; omega)
    rw [List.length_append]
    omega
  have hsigned : signedScript script 0 [vchSig ++ [SIGHASH_ALL.toUInt8]] = script := by
    simp only [signedScript, List.foldl_cons, List.foldl_nil, List.drop_zero]
    exact FindAndDelete_of_not_infix hother
  have htype : SIGHASH_ALL.toUInt8.toNat = SIGHASH_ALL := rfl
  have hcheck : checkSignature crypto txTo nIn 0 script (vchSig ++ [SIGHASH_ALL.toUInt8])
      vchPubKey = true := by
    simp [checkSignature, CheckSig, hcanonical, hkey, htype, hverify]
  have hbare := IsPayToScriptHash_smallInt hhigh hform.head
  rw [VerifyScript, EvalScript_pushPair hsize]
  dsimp only
  rw [EvalScript_aliasForm hscript hlow hhigh hargs hform, hsigned, hcheck, accepts_ofBool, hbare]
  rfl

/-- Nothing spends an output that is longer than the interpreter accepts. -/
theorem VerifyScript_long {scriptSig : CScript} (h : 1000000 < script.length) :
    VerifyScript crypto txTo nIn flags nHashType scriptSig script = false := by
  rw [VerifyScript]
  split
  · rfl
  · rw [EvalScript, if_pos h]
    rfl

/-- The owner can spend the output of an accepted set or relay exactly if its script has at most
1000000 bytes. -/
theorem alias_output_spendable_iff {env : Env} {view : View} {g g' : Globals}
    {mapTestPool : TxIndexMap} {tx : CTransaction} {vTxPrev : List CTransaction}
    {vTxindex : List CTxIndex} {pindexBlock : Option CBlockIndex} {fBlock fMiner : Bool}
    (hversion : tx.nVersion = CTransaction.DION_TX_VERSION)
    (haccept : ConnectInputsPost env view g mapTestPool tx vTxPrev vTxindex pindexBlock fBlock
      fMiner = .ok g')
    {n op : ℕ} {script : CScript} {args : List valtype} {drops : List UInt8} {vchPubKey : valtype}
    (hnOut : (aliasTx tx).nOut = some n)
    (hscript : (tx.vout[n]?).map CTxOut.scriptPubKey = some script)
    (hop : op = OP_ALIAS_SET ∨ op = OP_ALIAS_RELAY)
    (hform : AliasForm op args drops (SetBitcoinAddress (crypto.HASH160 vchPubKey)) script)
    (hsigner : Signer crypto vchPubKey (SignatureHash crypto script txTo nIn SIGHASH_ALL) script) :
    (∃ vchSig, crypto.Verify vchPubKey
        (SignatureHash crypto script txTo nIn SIGHASH_ALL) vchSig = true ∧
      VerifyScript crypto txTo nIn flags 0
        (pushVch (vchSig ++ [SIGHASH_ALL.toUInt8]) ++ pushVch vchPubKey) script =
          true) ↔
      script.length ≤ 1000000 := by
  constructor
  · rintro ⟨vchSig, _, haccepted⟩
    by_contra hlong
    rw [VerifyScript_long (Nat.not_le.mp hlong)] at haccepted
    exact Bool.false_ne_true haccepted
  · intro hshort
    have hret := (connectInputsPost_args hversion haccept).1
    have hdecodes : (aliasScript script none).ret = true := by
      cases aliasTxLoop_nOut hret hnOut with
      | inl h => simp at h
      | inr h =>
        obtain ⟨out, _, hget, hout⟩ := h
        rw [Nat.sub_zero] at hget
        rw [hget] at hscript
        cases hscript
        exact hout
    have hrange : 1 ≤ op ∧ op ≤ 16 := by
      cases hop with
      | inl h => rw [h]; decide
      | inr h => rw [h]; decide
    have harity := hform.arity hrange.1 hrange.2 hdecodes
    have hargs : args.length ≤ 5 := by
      cases hop with
      | inl h =>
        rw [h] at harity
        have hfive : args.length = 5 := by simpa [aliasArity, OP_ALIAS_SET, OP_ALIAS_ENCRYPTED,
          OP_MESSAGE, OP_ENCRYPTED_MESSAGE, OP_MAP_PROJECT, OP_PUBLIC_KEY, OP_VERTEX,
          OP_ALIAS_RELAY] using harity
        omega
      | inr h =>
        rw [h] at harity
        have htwo : args.length = 2 := by simpa [aliasArity, OP_ALIAS_SET, OP_ALIAS_ENCRYPTED,
          OP_MESSAGE, OP_ENCRYPTED_MESSAGE, OP_MAP_PROJECT, OP_PUBLIC_KEY, OP_VERTEX,
          OP_ALIAS_RELAY] using harity
        omega
    obtain ⟨vchSig, hverify, hcanonical, hother⟩ := hsigner.signs
    exact ⟨vchSig, hverify, VerifyScript_aliasForm hshort hrange.1 hrange.2 hargs hform
      hsigner.canonical hcanonical hother hverify⟩

end Owner

/-! ## A relay that its owner cannot spend -/

/-- The arguments are the pushes in front of the drops. -/
theorem pushPrefix_pushed {fuel : ℕ} (hdrop : script.drop pc = args.flatMap pushVch ++ rest)
    (hshort : (args.flatMap pushVch).length + rest.length < 2 ^ 32) (hfuel : args.length < fuel)
    (hrest : pushAt script (pc + (args.flatMap pushVch).length) = none) :
    pushPrefix script fuel pc = (args, pc + (args.flatMap pushVch).length) := by
  induction args generalizing fuel pc with
  | nil =>
    obtain ⟨n, rfl⟩ : ∃ n, fuel = n + 1 := ⟨fuel - 1, by simp at hfuel; omega⟩
    exact pushPrefix_none hrest
  | cons a args ih =>
    obtain ⟨n, rfl⟩ : ∃ n, fuel = n + 1 := ⟨fuel - 1, by omega⟩
    have hpush := length_lt_pushVch a
    rw [List.flatMap_cons, List.length_append] at hshort hrest
    have hcons : script.drop pc = pushVch a ++ (args.flatMap pushVch ++ rest) := by
      rw [hdrop, List.flatMap_cons, List.append_assoc]
    have hcounted : Counted a.length (args.flatMap pushVch ++ rest).length := by
      rw [Counted, List.length_append, Nat.mod_eq_of_lt (by omega)]
      exact Nat.le_add_right _ _
    obtain ⟨opcode, hop, hread⟩ := (GetOp2_pushVch (by omega) hcons).1 hcounted
    have hsome : pushAt script pc = some a := by
      rw [pushAt_eq_some, hread, pushedBy, if_pos hop]
      exact ⟨rfl, rfl⟩
    have hnext : (script.GetOp2 pc).pc = pc + (pushVch a).length := by rw [hread]
    have hlast := ih (drop_add_length hcons) (by omega) (by simpa using hfuel)
      (by rw [Nat.add_assoc]; exact hrest)
    rw [pushPrefix_some hsome, hnext, hlast, List.flatMap_cons, List.length_append, Nat.add_assoc]

/-- What `operator<<` builds has the form. -/
theorem aliasForm_aliasOutput {R : CScript}
    (hshort : (args.flatMap pushVch).length + (drops ++ R).length < 2 ^ 32)
    (hdrops : ∀ d ∈ drops, d.toNat = OP_DROP ∨ d.toNat = OP_2DROP)
    (hbalanced : (drops.map dropCount).sum = args.length + 1) :
    AliasForm op args drops R (aliasOutput op args drops R) := by
  have hdrop : (aliasOutput op args drops R).drop 1 =
      args.flatMap pushVch ++ (drops ++ R) := rfl
  have hbehind := drop_add_length hdrop
  refine ⟨rfl, ⟨_, pushPrefix_pushed hdrop hshort ?_ ?_, hbehind⟩, hdrops, hbalanced⟩
  · have hlen := length_flatMap_pushVch args
    simp only [aliasOutput, pushSmallInt, List.length_append, List.length_cons, List.length_nil]
    omega
  · -- the first drop is no push
    cases drops with
    | nil => simp at hbalanced
    | cons d drops =>
      have hd := hdrops d (List.mem_cons_self ..)
      have hop : OP_PUSHDATA4 < d.toNat := by
        simp only [OP_DROP, OP_2DROP] at hd
        simp only [OP_PUSHDATA4]
        omega
      have hvalue : ¬(d.toNat = 0x4f ∨ 0x51 ≤ d.toNat ∧ d.toNat ≤ 0x60) := by
        simp only [OP_DROP, OP_2DROP] at hd
        omega
      rw [pushAt, GetOp2_op hbehind hop, pushedBy, if_neg (Nat.not_le.mpr hop), if_neg hvalue]
      rfl

namespace Scenario

def ownerHash : valtype :=
  [0x96, 0xe3, 0x6c, 0xf2, 0xca, 0xc2, 0x6c, 0x3d, 0x97, 0x58, 0x1a, 0xd8, 0x8a, 0xde, 0x11, 0x37,
   0xb9, 0x60, 0x4b, 0x14]

/-- A relay of the name `[0x61]`. -/
def relayOutput (value : vchType) : CScript :=
  aliasOutput OP_ALIAS_RELAY [[0x61], value] [0x6d, 0x75] (SetBitcoinAddress ownerHash)

def relayOf (value : vchType) : CTransaction :=
  spending 1000 CTransaction.DION_TX_VERSION [⟨900, 0⟩] [⟨9 * COIN, relayOutput value⟩]

/-- In the block behind the set. -/
def acceptsRelay (value : vchType) : Halt Globals Globals :=
  ConnectInputsPost (timed testNet) setView Node.empty.toGlobals (fun _ => none) (relayOf value)
    [setFirst] [CTxIndex.new ⟨1, 8, 89⟩ 1] (some (.child (nextData 0) (chainOf 0))) true false

theorem relayOutput_short {value : vchType} (h : value.length ≤ MAX_XUNIT_LENGTH) :
    ([[0x61], value].flatMap pushVch).length +
      ([0x6d, 0x75] ++ SetBitcoinAddress ownerHash).length < 2 ^ 32 := by
  have hpush : (pushVch value).length ≤ value.length + 5 := by
    unfold pushVch
    split
    · simp
    · split
      · simp
      · split <;> simp only [List.length_cons, List.length_append, length_toBytes] <;> omega
  have hrest : ([0x6d, 0x75] ++ SetBitcoinAddress ownerHash).length = 27 := by decide
  have hname : (pushVch [0x61]).length = 2 := by decide
  simp only [MAX_XUNIT_LENGTH] at h
  simp only [List.flatMap_cons, List.flatMap_nil, List.append_nil, List.length_append, hrest, hname]
  omega

theorem aliasTx_relayOf {value : vchType} (h : value.length ≤ MAX_XUNIT_LENGTH) :
    aliasTx (relayOf value) = ⟨true, some OP_ALIAS_RELAY, some 0, [[0x61], value]⟩ := by
  have hsize : ∀ a ∈ [[0x61], value], a.length < 2 ^ 32 := by
    simp only [MAX_XUNIT_LENGTH] at h
    simp
    omega
  have harity : aliasArity OP_ALIAS_RELAY [[0x61], value].length = true := rfl
  have hscript := (aliasScript_output harity hsize (by decide) (by decide +kernel)
    (by decide) none).1 (allCounted_of_short (relayOutput_short h))
  have hret : (aliasScript (relayOutput value) none).ret = true := by rw [relayOutput, hscript]
  simp only [aliasTx, relayOf, spending, aliasTxLoop, hret, if_true, Bool.false_eq_true, if_false]
  rw [relayOutput, hscript]

theorem checkAliasRelay_relayOf {value : vchType} (h : value.length ≤ MAX_XUNIT_LENGTH) :
    checkAliasRelay ⟨true, some OP_ALIAS_SET, 0, [[0x61], [0x62], [0x63], [0x64], [0x65]]⟩
      [[0x61], value] = .ok () := by
  unfold checkAliasRelay
  simp only [seq_ok, require_eq_ok, read_eq_ok]
  exact ⟨(), by decide, value, rfl, (), h, [0x61], rfl, [0x61], rfl, rfl⟩

/-- Every length that the validation accepts. -/
theorem relay_accepted {value : vchType} (h : value.length ≤ MAX_XUNIT_LENGTH) :
    ∃ g, acceptsRelay value = .ok g := by
  have houts : prevOutputs (relayOf value).vin [setFirst] = .ok setFirst.vout := rfl
  have hprev : prevAliasLoop setFirst.vout 0 ⟨false, none, 0, []⟩ =
      .ok ⟨true, some OP_ALIAS_SET, 0, [[0x61], [0x62], [0x63], [0x64], [0x65]]⟩ := by rfl
  have hdepth : (CheckTransactionAtRelativeDepth (some (.child (nextData 0) (chainOf 0)))
      (CTxIndex.new ⟨1, 8, 89⟩ 1) (timed testNet).scaleMonitor).isNone = false := by
    decide
  have hversion : ¬(relayOf value).nVersion ≠ CTransaction.DION_TX_VERSION := not_not.mpr rfl
  have hswitch : connectInputsSwitch (timed testNet) Node.empty.toGlobals (fun _ => none)
      (relayOf value) ⟨true, some OP_ALIAS_SET, 0, [[0x61], [0x62], [0x63], [0x64], [0x65]]⟩
      [CTxIndex.new ⟨1, 8, 89⟩ 1] (some (.child (nextData 0) (chainOf 0))) true false OP_ALIAS_RELAY
      [[0x61], value] = .ok Node.empty.toGlobals := by
    have hcheck := checkAliasRelay_relayOf h
    simp only [connectInputsSwitch, OP_ALIAS_RELAY, OP_PUBLIC_KEY, OP_VERTEX, OP_ENCRYPTED_MESSAGE,
      OP_MAP_PROJECT, OP_MESSAGE, OP_ALIAS_ENCRYPTED, OP_ALIAS_SET] at hcheck ⊢
    simp only [Nat.reduceEqDiff, or_self, if_false, if_true, seq_ok, within_eq_ok, require_eq_ok,
      access_eq_ok]
    exact ⟨(), hcheck, _, rfl, (), fun hboth => absurd (hdepth.symm.trans hboth.2) (by simp), trivial⟩
  unfold acceptsRelay ConnectInputsPost
  rw [aliasTx_relayOf h, houts, if_neg hversion]
  simp only [seq_ok, within_eq_ok, require_eq_ok, read_eq_ok]
  exact ⟨_, _, rfl, _, hprev, (), trivial, [0x61], rfl, (), by decide, _, hswitch, rfl⟩

theorem relayOutput_long {value : vchType} (h : 1000000 ≤ value.length) :
    1000000 < (relayOutput value).length := by
  have hpush := length_lt_pushVch value
  simp only [relayOutput, aliasOutput, List.length_append, List.flatMap_cons]
  omega

theorem relayOutput_form {value : vchType} (h : value.length ≤ MAX_XUNIT_LENGTH) :
    AliasForm OP_ALIAS_RELAY [[0x61], value] [0x6d, 0x75] (SetBitcoinAddress ownerHash)
      (relayOutput value) :=
  aliasForm_aliasOutput (relayOutput_short h) (by decide +kernel) rfl

def relaySpend : CTransaction :=
  spending 1001 CTransaction.DION_TX_VERSION [⟨1000, 0⟩] [⟨8 * COIN, relayOutput [0x62]⟩]

/-- The signature of `relaySpend` by the key of `coSigner`, without its hash type. -/
def ownerSignature : valtype :=
  [0x30, 0x44, 0x02, 0x20, 0x1a, 0x8b, 0xb7, 0x67, 0x2a, 0xb4, 0x4d, 0x71, 0x28, 0x11, 0xa2, 0xa2,
   0x3a, 0xcc, 0x73, 0x8e, 0x78, 0x3f, 0xdb, 0x62, 0x17, 0xd7, 0x81, 0x76, 0x0f, 0xe7, 0x66, 0xcf,
   0xfa, 0xff, 0xb2, 0x1d, 0x02, 0x20, 0x14, 0x0d, 0xd4, 0x85, 0xb4, 0x81, 0x75, 0xe3, 0x92, 0xf1,
   0xd8, 0xba, 0x01, 0x74, 0xd5, 0x0f, 0x9a, 0x46, 0xa1, 0x0d, 0x3d, 0xa7, 0xc9, 0x5a, 0x23, 0xc0,
   0x60, 0x06, 0x53, 0x27, 0xed, 0x9e]

def ownerCrypto : ScriptCrypto :=
  { noCrypto with
    Hash := fun _ => 0x3ef1660af9fe890b0f3b6e7b3b2353ccd31fa701fb3597f2d2ad00583ecc66f6
    HASH160 := fun _ => ownerHash
    Verify := fun vchPubKey sighash vchSig =>
      vchPubKey == coSigner && vchSig == ownerSignature &&
        sighash == 0x3ef1660af9fe890b0f3b6e7b3b2353ccd31fa701fb3597f2d2ad00583ecc66f6 }

/-- A relay of a long value is accepted, its output has the form, and nothing spends it. -/
theorem relay_stuck {value : vchType} (h : value.length ≤ MAX_XUNIT_LENGTH)
    (hlong : 1000000 ≤ value.length) :
    (∃ g, acceptsRelay value = .ok g) ∧ value.length ≤ MAX_XUNIT_LENGTH ∧
      (aliasTx (relayOf value)).nOut = some 0 ∧
      AliasForm OP_ALIAS_RELAY [[0x61], value] [0x6d, 0x75]
        (SetBitcoinAddress (ownerCrypto.HASH160 coSigner)) (relayOutput value) ∧
      ∀ (crypto : ScriptCrypto) (txTo : CTransaction) (nIn flags nHashType : ℕ)
        (scriptSig : CScript), VerifyScript crypto txTo nIn flags nHashType scriptSig
          (relayOutput value) = false :=
  ⟨relay_accepted h, h, by rw [aliasTx_relayOf h], relayOutput_form h,
    fun _ _ _ _ _ _ => VerifyScript_long (relayOutput_long hlong)⟩

/-- A value of a million bytes, fewer than the validation accepts. -/
@[irreducible] def longValue : vchType := List.replicate 1000000 0x61

theorem length_longValue : longValue.length = 1000000 := by
  unfold longValue
  exact List.length_replicate

end Scenario

open Scenario in
/-- The owner of the name can never move it again. -/
theorem long_relay_stuck :
    (∃ g, acceptsRelay longValue = .ok g) ∧ longValue.length ≤ MAX_XUNIT_LENGTH ∧
      (aliasTx (relayOf longValue)).nOut = some 0 ∧
      AliasForm OP_ALIAS_RELAY [[0x61], longValue] [0x6d, 0x75]
        (SetBitcoinAddress (ownerCrypto.HASH160 coSigner)) (relayOutput longValue) ∧
      ∀ (crypto : ScriptCrypto) (txTo : CTransaction) (nIn flags nHashType : ℕ)
        (scriptSig : CScript), VerifyScript crypto txTo nIn flags nHashType scriptSig
          (relayOutput longValue) = false := by
  exact relay_stuck (by rw [length_longValue]; decide) length_longValue.ge

open Scenario in
theorem alias_output_spendable_iff_short :
    (∃ vchSig, ownerCrypto.Verify coSigner
        (SignatureHash ownerCrypto (relayOutput [0x62]) relaySpend 0 SIGHASH_ALL) vchSig = true ∧
      VerifyScript ownerCrypto relaySpend 0 STANDARD_SCRIPT_VERIFY_FLAGS 0
        (pushVch (vchSig ++ [SIGHASH_ALL.toUInt8]) ++ pushVch coSigner) (relayOutput [0x62]) =
          true) ↔
      (relayOutput [0x62]).length ≤ 1000000 := by
  have hvalue : [(0x62 : UInt8)].length ≤ MAX_XUNIT_LENGTH := by decide
  obtain ⟨g, haccept⟩ := relay_accepted hvalue
  have hscript : ((relayOf [0x62]).vout[0]?).map CTxOut.scriptPubKey = some (relayOutput [0x62]) := rfl
  have hnOut : (aliasTx (relayOf [0x62])).nOut = some 0 := by decide
  have hsigner : Signer ownerCrypto coSigner
      (SignatureHash ownerCrypto (relayOutput [0x62]) relaySpend 0 SIGHASH_ALL)
        (relayOutput [0x62]) :=
    ⟨by decide, ownerSignature, by decide⟩
  have hversion : (relayOf [0x62]).nVersion = CTransaction.DION_TX_VERSION := rfl
  have hform : AliasForm OP_ALIAS_RELAY [[0x61], [0x62]] [0x6d, 0x75]
      (SetBitcoinAddress (ownerCrypto.HASH160 coSigner)) (relayOutput [0x62]) :=
    relayOutput_form hvalue
  exact alias_output_spendable_iff hversion haccept hnOut hscript (.inr rfl) hform hsigner

end Dions
