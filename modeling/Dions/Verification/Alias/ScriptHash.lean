import Dions.Model.Destination
import Dions.Verification.Alias.Spending

/-! # Names that pay to the hash of a script

`VerifyScript` recognises a pay-to-script-hash output by its 23 bytes, so it takes one with a prefix
for an ordinary script: the redeem script is compared with its hash and never run. -/

namespace Dions

variable {hash : valtype} {stack : List valtype}

section Context

variable {crypto : ScriptCrypto} {txTo : CTransaction} {nIn flags nHashType : ℕ}

/-! ## The comparison of the hash -/

/-- What the script behind the prefix accepts. -/
theorem accepts_payToScriptHash {script : CScript} {pc nOpCount : ℕ}
    (hscript : script.length ≤ 1000000) (hdrop : script.drop pc = payToScriptHash hash)
    (hroom : stack.length + 1 ≤ 1000) :
    accepts (((scriptLoop crypto txTo nIn flags nHashType script).eval
        (pc, ⟨stack, [], [], nOpCount, 0⟩)).bind finalStack) = true ↔
      nOpCount + 2 ≤ 201 ∧ ∃ pubKey2 rest, stack = pubKey2 :: rest ∧ crypto.HASH160 pubKey2 = hash := by
  have hrejected : ∀ p : Option (ℕ × EvalState), p = none →
      accepts (p.bind finalStack) ≠ true := by
    intro p hp
    rw [hp]
    exact Bool.false_ne_true
  cases stack with
  | nil =>
    refine ⟨fun h => absurd h (hrejected _ (eval_op_none hdrop (by decide) rfl (by decide) rfl rfl)),
      ?_⟩
    rintro ⟨_, pubKey2, rest, hstack, _⟩
    simp at hstack
  | cons pubKey2 rest =>
    have hroom' : rest.length + 2 ≤ 1000 := by
      rw [List.length_cons] at hroom
      omega
    have hdrop1 : script.drop (pc + 1) = pushVch hash ++ [OP_EQUAL.toUInt8] := by
      rw [← List.drop_drop, hdrop]
      rfl
    have hdrop2 := drop_add_length hdrop1
    have hhash : Opcode.execute crypto txTo nIn flags nHashType script (pc + 1) true
        ⟨pubKey2 :: rest, [], [], nOpCount + 1, 0⟩ .OP_HASH160 =
        some ⟨crypto.HASH160 pubKey2 :: rest, [], [], nOpCount + 1, 0⟩ := rfl
    have hequal : Opcode.execute crypto txTo nIn flags nHashType script
        (pc + 1 + (pushVch hash).length + 1) true
        ⟨hash :: crypto.HASH160 pubKey2 :: rest, [], [], nOpCount + 1 + 1, 0⟩ .OP_EQUAL =
        some ⟨ofBool (crypto.HASH160 pubKey2 == hash) :: rest, [], [], nOpCount + 1 + 1, 0⟩ := rfl
    by_cases hfirst : nOpCount < 201
    · rw [eval_op hdrop (by decide) rfl (by decide) rfl hfirst hhash (by simp; omega),
        eval_push hscript hdrop1 rfl (by simp; omega)]
      by_cases hsecond : nOpCount + 1 < 201
      · have hend : script.length ≤ pc + 1 + (pushVch hash).length + 1 := by
          have hlen := congrArg List.length hdrop2
          rw [List.length_drop, List.length_singleton] at hlen
          omega
        rw [eval_op hdrop2 (by decide) rfl (by decide) rfl hsecond hequal (by simp; omega),
          eval_end hend]
        simp only [Option.bind_some, finalStack, List.isEmpty_nil, if_true, accepts_ofBool,
          beq_iff_eq]
        constructor
        · exact fun h => ⟨hsecond, pubKey2, rest, rfl, h⟩
        · rintro ⟨_, pubKey2', rest', hstack, h⟩
          rw [List.cons.injEq] at hstack
          rwa [← hstack.1] at h
      · have hnone : (scriptLoop crypto txTo nIn flags nHashType script).eval
            (pc + 1 + (pushVch hash).length,
              ⟨hash :: crypto.HASH160 pubKey2 :: rest, [], [], nOpCount + 1, 0⟩) = none := by
          rw [eval_opcode hdrop2 (by decide) rfl (by decide) rfl, if_neg hsecond]
        exact ⟨fun h => absurd h (hrejected _ hnone), fun h => absurd h.1 (by omega)⟩
    · have hnone : (scriptLoop crypto txTo nIn flags nHashType script).eval
          (pc, ⟨pubKey2 :: rest, [], [], nOpCount, 0⟩) = none := by
        rw [eval_opcode hdrop (by decide) rfl (by decide) rfl, if_neg hfirst]
      exact ⟨fun h => absurd h (hrejected _ hnone), fun h => absurd h.1 (by omega)⟩

/-! ## The output -/

section Form

variable {op : ℕ} {args : List valtype} {drops : List UInt8} {script : CScript}

theorem AliasForm.pushes {R : CScript} (hlow : 1 ≤ op) (hhigh : op ≤ 16)
    (hform : AliasForm op args drops R script) :
    ∃ pc, pushPrefix script (script.length + 1) 0 = (getvch op :: args, pc) ∧
      script.drop pc = drops ++ R := by
  obtain ⟨pc, hargs, hbehind⟩ := hform.arguments
  have hread := GetOp2_smallInt hlow hhigh hform.head
  have hpush : pushAt script 0 = some (getvch op) := by
    rw [pushAt_eq_some, hread]
    exact ⟨rfl, pushedBy_smallInt hlow hhigh⟩
  refine ⟨pc, ?_, hbehind⟩
  rw [pushPrefix_some hpush, hread, hargs]

/-- What an input must leave for an output with a prefix. -/
theorem VerifyScript_aliasScriptHash (hlow : 1 ≤ op) (hhigh : op ≤ 16)
    (hform : AliasForm op args drops (payToScriptHash hash) script) {scriptSig : CScript} :
    VerifyScript crypto txTo nIn flags nHashType scriptSig script = true ↔
      script.length ≤ 1000000 ∧ drops.length + 2 ≤ 201 ∧ ∃ pubKey2 rest,
        EvalScript crypto txTo nIn flags nHashType [] scriptSig = some (pubKey2 :: rest) ∧
          rest.length + args.length + 2 ≤ 1000 ∧ crypto.HASH160 pubKey2 = hash := by
  by_cases hscript : script.length ≤ 1000000
  · cases hrun : EvalScript crypto txTo nIn flags nHashType [] scriptSig with
    | none => simp [VerifyScript, hrun]
    | some stack =>
      obtain ⟨pc, hpushes, hbehind⟩ := hform.pushes hlow hhigh
      have hbalanced := hform.balanced
      have hdestination : script.drop (pc + drops.length) = payToScriptHash hash :=
        drop_add_length hbehind
      have hitems : (getvch op :: args).reverse.length = (drops.map dropCount).sum := by
        rw [List.length_reverse, hbalanced]
        rfl
      rw [VerifyScript_bare hrun (IsPayToScriptHash_smallInt hhigh hform.head),
        EvalScript_eq hscript]
      have hlimit : stack.length ≤ 1000 := EvalScript_within (Nat.zero_le _) hrun
      rw [eval_pushPrefix hscript (script.length + 1) rfl (by simpa using hlimit), hpushes]
      by_cases hroom : args.length + 1 + stack.length ≤ 1000
      · have hstack : ((getvch op :: args).reverse ++ stack).length ≤ 1000 := by
          simpa only [List.length_append, List.length_reverse, List.length_cons] using hroom
        rw [if_pos (by simpa using hroom),
          eval_drops hform.drop hbehind rfl (Nat.zero_le _) rfl hitems (by simpa using hstack)]
        by_cases hops : drops.length ≤ 201
        · rw [if_pos (by simpa using hops),
            accepts_payToScriptHash hscript hdestination (by dsimp only; omega)]
          constructor
          · rintro ⟨hcount, pubKey2, rest, rfl, hhash⟩
            rw [List.length_cons] at hroom
            exact ⟨hscript, by simpa using hcount, pubKey2, rest, rfl, by omega, hhash⟩
          · rintro ⟨_, hcount, pubKey2, rest, hrest, _, hhash⟩
            exact ⟨by simpa using hcount, pubKey2, rest, Option.some.inj hrest, hhash⟩
        · rw [if_neg (by simpa using hops)]
          exact ⟨fun h => absurd h Bool.false_ne_true, fun h => absurd h.2.1 (by omega)⟩
      · rw [if_neg (by simpa using hroom)]
        refine ⟨fun h => absurd h Bool.false_ne_true, ?_⟩
        rintro ⟨_, _, pubKey2, rest, hrest, hcount, _⟩
        rw [Option.some.injEq] at hrest
        rw [hrest, List.length_cons] at hroom
        omega
  · rw [VerifyScript_long (Nat.not_le.mp hscript)]
    exact ⟨fun h => absurd h Bool.false_ne_true, fun h => absurd h.1 hscript⟩

/-- The input leaves the redeem script, and the redeem script accepts what is left under it. -/
def RedeemedBy (crypto : ScriptCrypto) (txTo : CTransaction) (nIn flags nHashType : ℕ)
    (redeemScript scriptSig : CScript) : Prop :=
  ∃ rest, EvalScript crypto txTo nIn flags nHashType [] scriptSig = some (redeemScript :: rest) ∧
    accepts (EvalScript crypto txTo nIn flags nHashType rest redeemScript) = true

/-- Behind a prefix, a redeem script is safe exactly if it locks nothing: within the limits of the
interpreter, it has to accept every stack that an input can leave under it. -/
theorem alias_scriptHash_iff {redeemScript : CScript} (hlow : 1 ≤ op) (hhigh : op ≤ 16)
    (hform : AliasForm op args drops (payToScriptHash (crypto.HASH160 redeemScript)) script)
    (hinj : ∀ vch, crypto.HASH160 vch = crypto.HASH160 redeemScript → vch = redeemScript) :
    (∀ scriptSig, VerifyScript crypto txTo nIn flags nHashType scriptSig script = true →
        RedeemedBy crypto txTo nIn flags nHashType redeemScript scriptSig) ↔
      (script.length ≤ 1000000 → drops.length + 2 ≤ 201 → ∀ scriptSig rest,
        EvalScript crypto txTo nIn flags nHashType [] scriptSig = some (redeemScript :: rest) →
        rest.length + args.length + 2 ≤ 1000 →
          accepts (EvalScript crypto txTo nIn flags nHashType rest redeemScript) = true) := by
  constructor
  · intro h hscript hops scriptSig rest hrun hroom
    have haccepted : VerifyScript crypto txTo nIn flags nHashType scriptSig script = true :=
      (VerifyScript_aliasScriptHash hlow hhigh hform).mpr
        ⟨hscript, hops, redeemScript, rest, hrun, hroom, rfl⟩
    obtain ⟨rest', hrun', hredeemed⟩ := h scriptSig haccepted
    rw [hrun, Option.some.injEq, List.cons.injEq] at hrun'
    rwa [← hrun'.2] at hredeemed
  · intro h scriptSig haccepted
    obtain ⟨hscript, hops, pubKey2, rest, hrun, hroom, hhash⟩ :=
      (VerifyScript_aliasScriptHash hlow hhigh hform).mp haccepted
    have hsame := hinj pubKey2 hhash
    subst hsame
    exact ⟨rest, hrun, h hscript hops scriptSig rest hrun hroom⟩

end Form

/-- A script that is a small number accepts every stack with room for it. -/
theorem EvalScript_smallInt {n : ℕ} (hlow : 1 ≤ n) (hhigh : n ≤ 16)
    (hroom : stack.length + 1 ≤ 1000) :
    EvalScript crypto txTo nIn flags nHashType stack (pushSmallInt n) =
      some (getvch n :: stack) := by
  have hdrop : (pushSmallInt n).drop 0 = pushSmallInt n ++ [] := (List.append_nil _).symm
  rw [EvalScript_eq (by simp [pushSmallInt]),
    eval_smallInt hlow hhigh hdrop rfl (by simpa using hroom), eval_end (by simp [pushSmallInt])]
  rfl

end Context

/-! ## A redeem script that is not run -/

namespace Scenario

def trueHash : valtype :=
  [0xda, 0x17, 0x45, 0xe9, 0xb5, 0x49, 0xbd, 0x0b, 0xfa, 0x1a, 0x56, 0x99, 0x71, 0xc7, 0x7e, 0xba,
   0x30, 0xcd, 0x5a, 0x4b]

def redeemCrypto : ScriptCrypto :=
  { noCrypto with
    HASH160 := fun vch =>
      if vch = multisigOutput then multisigHash else if vch = pushSmallInt 1 then trueHash else [] }

def relayToScript (hash : valtype) : CScript :=
  aliasOutput OP_ALIAS_RELAY [[0x61], [0x62]] [0x6d, 0x75] (payToScriptHash hash)

theorem relayToScript_form (h : hash.length = 20) :
    AliasForm OP_ALIAS_RELAY [[0x61], [0x62]] [0x6d, 0x75] (payToScriptHash hash)
      (relayToScript hash) := by
  apply aliasForm_aliasOutput _ (by decide +kernel) rfl
  have hpush : (pushVch hash).length = 21 := by
    rw [pushVch, h, if_pos (by decide), List.length_cons, h]
  have hargs : (([[0x61], [0x62]] : List valtype).flatMap pushVch).length = 4 := by decide
  simp only [hargs, payToScriptHash, List.length_append, List.length_cons, List.length_nil, hpush]
  decide

theorem redeemCrypto_injective {vch : valtype}
    (h : redeemCrypto.HASH160 vch = redeemCrypto.HASH160 (pushSmallInt 1)) :
    vch = pushSmallInt 1 := by
  by_cases hone : vch = pushSmallInt 1
  · exact hone
  · have hvalue : redeemCrypto.HASH160 (pushSmallInt 1) = trueHash := by decide
    rw [hvalue] at h
    simp only [redeemCrypto, if_neg hone] at h
    split at h
    · exact absurd h (by decide)
    · exact absurd h (by decide)

end Scenario

open Scenario in
/-- The input carries no signature at all. -/
theorem alias_scriptHash_unlocked :
    ¬(VerifyScript redeemCrypto multisigSpend 0 STANDARD_SCRIPT_VERIFY_FLAGS 0
          (pushVch multisigOutput) (relayToScript multisigHash) = true →
        RedeemedBy redeemCrypto multisigSpend 0 STANDARD_SCRIPT_VERIFY_FLAGS 0 multisigOutput
          (pushVch multisigOutput)) := by
  intro h
  obtain ⟨rest, hrun, hredeemed⟩ := h (by decide)
  have hleft : EvalScript redeemCrypto multisigSpend 0 STANDARD_SCRIPT_VERIFY_FLAGS 0 []
      (pushVch multisigOutput) = some [multisigOutput] := by decide
  rw [hleft, Option.some.injEq, List.cons.injEq] at hrun
  rw [← hrun.2] at hredeemed
  revert hredeemed
  decide

open Scenario in
theorem alias_scriptHash_iff_true :
    RedeemedBy redeemCrypto multisigSpend 0 STANDARD_SCRIPT_VERIFY_FLAGS 0 (pushSmallInt 1)
      (pushVch (pushSmallInt 1)) := by
  have hhash : trueHash = redeemCrypto.HASH160 (pushSmallInt 1) := by decide
  have hform : AliasForm OP_ALIAS_RELAY [[0x61], [0x62]] [0x6d, 0x75]
      (payToScriptHash (redeemCrypto.HASH160 (pushSmallInt 1))) (relayToScript trueHash) := by
    rw [← hhash]
    exact relayToScript_form rfl
  have hsafe : ∀ scriptSig, VerifyScript redeemCrypto multisigSpend 0
      STANDARD_SCRIPT_VERIFY_FLAGS 0 scriptSig (relayToScript trueHash) = true →
        RedeemedBy redeemCrypto multisigSpend 0 STANDARD_SCRIPT_VERIFY_FLAGS 0 (pushSmallInt 1)
          scriptSig := by
    refine (alias_scriptHash_iff (by decide) (by decide) hform fun _ =>
      redeemCrypto_injective).mpr ?_
    intro _ _ _ rest _ hroom
    rw [EvalScript_smallInt (by decide) (by decide) (by omega)]
    have htrue : CastToBool (getvch 1) = true := by decide
    exact htrue
  exact hsafe _ (by decide)

end Dions
