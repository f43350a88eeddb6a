import Dions.Model.Destination
import Dions.Verification.Alias.Spending

/-! # What the prefixes of the wallet leave on the stack

The opcode is pushed like the arguments, so a suffix must drop one element more than there are
arguments. All suffixes do but that of `mapProject`, whose opcode stays on top of the stack. -/

namespace Dions

variable {stack : List valtype}
variable {script : CScript} {hash : valtype} {nOpCount : ℕ}

section Context

variable {crypto : ScriptCrypto} {txTo : CTransaction} {nIn flags nHashType : ℕ}

/-! ## Prefixes in general -/

theorem toNat_drop {d : ℕ} (h : d = OP_DROP ∨ d = OP_2DROP) : d.toUInt8.toNat = d := by
  apply toNat_toUInt8
  simp only [OP_DROP, OP_2DROP] at h
  omega

/-- Behind a prefix, the elements that its drops do not take are on the stack. -/
theorem eval_writePrefix {op : ℕ} {args taken left : List valtype} {drops : List ℕ} {rest : CScript}
    (hscript : (writePrefix op args drops ++ rest).length ≤ 1000000) (hlow : 1 ≤ op)
    (hhigh : op ≤ 16) (hdrops : ∀ d ∈ drops, d = OP_DROP ∨ d = OP_2DROP)
    (hitems : args.reverse ++ [getvch op] = taken ++ left)
    (htaken : taken.length = ((drops.map Nat.toUInt8).map dropCount).sum)
    (hops : drops.length ≤ 201) (hroom : stack.length + args.length + 1 ≤ 1000) :
    (scriptLoop crypto txTo nIn flags nHashType (writePrefix op args drops ++ rest)).eval
        (0, ⟨stack, [], [], 0, 0⟩) =
      (scriptLoop crypto txTo nIn flags nHashType (writePrefix op args drops ++ rest)).eval
        ((writePrefix op args drops).length, ⟨left ++ stack, [], [], drops.length, 0⟩) := by
  generalize hform : writePrefix op args drops ++ rest = script at hscript ⊢
  have hdrop0 : script.drop 0 =
      pushSmallInt op ++ (args.flatMap pushVch ++ (drops.map Nat.toUInt8 ++ rest)) := by
    simp only [← hform, writePrefix, List.drop_zero, List.append_assoc]
  have hdrop1 : script.drop (0 + 1) = args.flatMap pushVch ++ (drops.map Nat.toUInt8 ++ rest) :=
    drop_add_length hdrop0
  have hdrop2 := drop_add_length hdrop1
  have hbytes : ∀ d ∈ drops.map Nat.toUInt8, d.toNat = OP_DROP ∨ d.toNat = OP_2DROP := by
    intro d hd
    obtain ⟨n, hn, rfl⟩ := List.mem_map.mp hd
    rw [toNat_drop (hdrops n hn)]
    exact hdrops n hn
  have hstack : args.reverse ++ getvch op :: stack = taken ++ (left ++ stack) := by
    rw [← List.append_assoc, ← hitems, List.append_assoc, List.singleton_append]
  have hend : 0 + 1 + (args.flatMap pushVch).length + (drops.map Nat.toUInt8).length =
      (writePrefix op args drops).length := by
    simp only [writePrefix, pushSmallInt, List.length_append, List.length_singleton, Nat.zero_add]
  rw [eval_smallInt hlow hhigh hdrop0 rfl (by dsimp only [List.length_nil]; omega),
    eval_pushes hscript hdrop1 rfl (by dsimp only [List.length_cons, List.length_nil]; omega),
    eval_drops hbytes hdrop2 rfl (Nat.zero_le _) hstack htaken (by simp; omega),
    if_pos (by simpa using hops), hend, List.length_map, Nat.zero_add]

/-! ## The commands -/

/-- What a prefix leaves above the stack that it met. -/
def Encoder.left (e : Encoder) : List valtype :=
  if e.isMapProject then [getvch OP_MAP_PROJECT] else []

theorem Encoder.form (e : Encoder) : ∃ op args drops taken,
    e.scriptPubKey = writePrefix op args drops ∧ 1 ≤ op ∧ op ≤ 16 ∧ args.length ≤ 8 ∧
      drops.length ≤ 5 ∧ (∀ d ∈ drops, d = OP_DROP ∨ d = OP_2DROP) ∧
      args.reverse ++ [getvch op] = taken ++ e.left ∧
      taken.length = ((drops.map Nat.toUInt8).map dropCount).sum := by
  cases e with
  | registerAlias a b c d =>
    refine ⟨_, _, _, _, rfl, by decide, by decide, by simp, by simp, by simp, (List.append_nil _).symm,
      rfl⟩
  | mapVertex a b c d e =>
    refine ⟨_, _, _, _, rfl, by decide, by decide, by simp, by simp, by simp, (List.append_nil _).symm,
      rfl⟩
  | mapProject a b c d e =>
    exact ⟨_, _, _, _, rfl, by decide, by decide, by simp, by simp, by simp, rfl, rfl⟩
  | simplexU a b =>
    refine ⟨_, _, _, _, rfl, by decide, by decide, by simp, by simp, by simp, (List.append_nil _).symm,
      rfl⟩

theorem Encoder.eval (e : Encoder) {stack : List valtype} {rest : CScript}
    (hscript : (e.scriptPubKey ++ rest).length ≤ 1000000) (hstack : stack.length ≤ 900) :
    ∃ nOpCount ≤ 5,
      (scriptLoop crypto txTo nIn flags nHashType (e.scriptPubKey ++ rest)).eval
          (0, ⟨stack, [], [], 0, 0⟩) =
        (scriptLoop crypto txTo nIn flags nHashType (e.scriptPubKey ++ rest)).eval
          (e.scriptPubKey.length, ⟨e.left ++ stack, [], [], nOpCount, 0⟩) := by
  obtain ⟨op, args, drops, taken, hform, hlow, hhigh, hargs, hops, hdrops, hitems, htaken⟩ := e.form
  rw [hform] at hscript ⊢
  exact ⟨drops.length, hops,
    eval_writePrefix hscript hlow hhigh hdrops hitems htaken (by omega) (by omega)⟩

theorem Encoder.EvalScript_eq (e : Encoder) {stack : List valtype}
    (hscript : e.scriptPubKey.length ≤ 1000000) (hstack : stack.length ≤ 900) :
    EvalScript crypto txTo nIn flags nHashType stack e.scriptPubKey = some (e.left ++ stack) := by
  have hwhole : e.scriptPubKey ++ [] = e.scriptPubKey := List.append_nil _
  obtain ⟨nOpCount, _, heval⟩ := @Encoder.eval crypto txTo nIn flags nHashType e stack []
    (by rw [hwhole]; exact hscript) hstack
  rw [hwhole] at heval
  rw [Dions.EvalScript_eq hscript, heval, eval_end le_rfl]
  rfl

/-! ## The destination -/

/-- A key with the hash on top of the stack, and below it a signature by that key of the
transaction and the whole script. -/
def SatisfiesKeyHash (crypto : ScriptCrypto) (txTo : CTransaction) (nIn nHashType : ℕ)
    (script : CScript) (hash : valtype) (stack : List valtype) : Prop :=
  ∃ vchPubKey vchSig rest, stack = vchPubKey :: vchSig :: rest ∧ crypto.HASH160 vchPubKey = hash ∧
    checkSignature crypto txTo nIn nHashType (signedScript script 0 [vchSig]) vchSig vchPubKey = true

theorem accepts_pubKeyHash {behind : CScript} {pc : ℕ} (hscript : script.length ≤ 1000000)
    (hdrop : script.drop pc = OP_DUP.toUInt8 :: OP_HASH160.toUInt8 :: behind)
    (hpush : pushAt script (pc + 1 + 1) = some hash)
    (hnext : script.drop (script.GetOp2 (pc + 1 + 1)).pc =
      [OP_EQUALVERIFY.toUInt8, OP_CHECKSIG.toUInt8]) (hops : nOpCount + 4 ≤ 201)
    (hroom : stack.length + 2 ≤ 1000) :
    accepts (((scriptLoop crypto txTo nIn flags nHashType script).eval
        (pc, ⟨stack, [], [], nOpCount, 0⟩)).bind finalStack) = true ↔
      SatisfiesKeyHash crypto txTo nIn nHashType script hash stack := by
  have hrejected : ∀ p : Option (ℕ × EvalState), p = none →
      accepts (p.bind finalStack) ≠ true := by
    intro p hp
    rw [hp]
    exact Bool.false_ne_true
  rcases stack with _ | ⟨vchPubKey, _ | ⟨vchSig, rest⟩⟩
  · have hnone : (scriptLoop crypto txTo nIn flags nHashType script).eval
        (pc, ⟨[], [], [], nOpCount, 0⟩) = none :=
      eval_op_none hdrop (by decide) rfl (by decide) rfl rfl
    refine ⟨fun h => absurd h (hrejected _ hnone), ?_⟩
    rintro ⟨vchPubKey, vchSig, rest, hstack, _⟩
    simp at hstack
  · obtain ⟨pc', hlast, heval⟩ := @eval_pubKeyHash_verify crypto txTo nIn flags nHashType _ _ _ _ _
      ⟨[vchPubKey], [], [], nOpCount, 0⟩ _ hscript hdrop hpush hnext rfl (by dsimp only; omega) rfl (by simp)
    have hnone : (scriptLoop crypto txTo nIn flags nHashType script).eval
        (pc, ⟨[vchPubKey], [], [], nOpCount, 0⟩) = none := by
      rw [heval]
      split
      · exact eval_op_none hlast (by decide) rfl (by decide) rfl rfl
      · rfl
    refine ⟨fun h => absurd h (hrejected _ hnone), ?_⟩
    rintro ⟨vchPubKey', vchSig, rest, hstack, _⟩
    simp at hstack
  · by_cases hhash : crypto.HASH160 vchPubKey = hash
    · subst hhash
      rw [eval_pubKeyHash hscript hdrop hpush hnext rfl (by dsimp only; omega) rfl
        (by simpa using hroom)]
      simp only [Option.bind_some, finalStack, List.isEmpty_nil, if_true, accepts_ofBool]
      constructor
      · exact fun h => ⟨vchPubKey, vchSig, rest, rfl, rfl, h⟩
      · rintro ⟨vchPubKey', vchSig', rest', hstack, _, h⟩
        simp only [List.cons.injEq] at hstack
        rwa [← hstack.1, ← hstack.2.1] at h
    · obtain ⟨pc', _, heval⟩ := @eval_pubKeyHash_verify crypto txTo nIn flags nHashType _ _ _ _ _
        ⟨vchPubKey :: vchSig :: rest, [], [], nOpCount, 0⟩ _ hscript hdrop hpush hnext rfl
        (by dsimp only; omega) rfl (by simpa using hroom)
      rw [if_neg hhash] at heval
      refine ⟨fun h => absurd h (hrejected _ heval), ?_⟩
      rintro ⟨vchPubKey', vchSig', rest', hstack, hhash', _⟩
      simp only [List.cons.injEq] at hstack
      exact absurd (hstack.1 ▸ hhash') hhash

theorem accepts_keyHash {pc : ℕ} (hscript : script.length ≤ 1000000)
    (hdrop : script.drop pc = SetBitcoinAddress hash) (hops : nOpCount + 4 ≤ 201)
    (hroom : stack.length + 2 ≤ 1000) :
    accepts (((scriptLoop crypto txTo nIn flags nHashType script).eval
        (pc, ⟨stack, [], [], nOpCount, 0⟩)).bind finalStack) = true ↔
      SatisfiesKeyHash crypto txTo nIn nHashType script hash stack := by
  obtain ⟨hpush, hnext⟩ := pushAt_keyHash hscript hdrop
  exact accepts_pubKeyHash hscript hdrop hpush hnext hops hroom

/-- Nothing under a number that is too short for a key satisfies the destination. -/
theorem not_satisfiesKeyHash_mapProject :
    ¬SatisfiesKeyHash crypto txTo nIn nHashType script hash (getvch OP_MAP_PROJECT :: stack) := by
  intro ⟨vchPubKey, vchSig, rest, hstack, _, hcheck⟩
  simp only [List.cons.injEq] at hstack
  have hkey : IsCanonicalPubKey (getvch OP_MAP_PROJECT) = true := by
    rw [hstack.1]
    simp only [checkSignature, Bool.and_eq_true] at hcheck
    exact hcheck.1.2
  have hshort : IsCanonicalPubKey (getvch OP_MAP_PROJECT) = false := by decide
  exact Bool.false_ne_true (hshort.symm.trans hkey)

/-- A prefix of the wallet leaves the stack as it was, and its output asks for what the destination
asks for, exactly if it is not the prefix of `mapProject`. An output of that one is never spent. -/
theorem encoder_neutral_iff (e : Encoder) {stack : List valtype}
    (hsize : e.scriptPubKey.length ≤ 1000000) (hstack : stack.length ≤ 900) :
    (EvalScript crypto txTo nIn flags nHashType stack e.scriptPubKey = some stack ↔
        e.isMapProject = false) ∧
      ∀ (hash : valtype) (scriptSig : CScript),
        (e.scriptPubKey ++ SetBitcoinAddress hash).length ≤ 1000000 →
        EvalScript crypto txTo nIn flags nHashType [] scriptSig = some stack →
        (VerifyScript crypto txTo nIn flags nHashType scriptSig
            (e.scriptPubKey ++ SetBitcoinAddress hash) = true ↔
          e.isMapProject = false ∧ SatisfiesKeyHash crypto txTo nIn nHashType
            (e.scriptPubKey ++ SetBitcoinAddress hash) hash stack) := by
  refine ⟨?_, ?_⟩
  · rw [e.EvalScript_eq hsize hstack, Option.some.injEq, Encoder.left]
    cases e.isMapProject <;> simp
  · intro hash scriptSig hwhole hrun
    obtain ⟨op, args, drops, taken, hform, _, hhigh, _⟩ := e.form
    have hbare : (e.scriptPubKey ++ SetBitcoinAddress hash).IsPayToScriptHash = false := by
      apply IsPayToScriptHash_smallInt hhigh
      rw [hform, writePrefix, List.append_assoc, List.append_assoc]
      rfl
    obtain ⟨nOpCount, hops, heval⟩ :=
      @Encoder.eval crypto txTo nIn flags nHashType e stack (SetBitcoinAddress hash) hwhole hstack
    have hleft : e.left.length ≤ 1 := by
      rw [Encoder.left]
      split <;> simp
    rw [VerifyScript_bare hrun hbare, Dions.EvalScript_eq hwhole, heval,
      accepts_keyHash hwhole List.drop_left (by omega) (by rw [List.length_append]; omega),
      Encoder.left]
    cases e.isMapProject with
    | false => simp
    | true =>
      exact ⟨fun h => absurd h not_satisfiesKeyHash_mapProject, fun h => absurd h.1 (by simp)⟩

end Context

namespace Scenario

def coSignerHash : valtype :=
  [0x96, 0xe3, 0x6c, 0xf2, 0xca, 0xc2, 0x6c, 0x3d, 0x97, 0x58, 0x1a, 0xd8, 0x8a, 0xde, 0x11,
   0x37, 0xb9, 0x60, 0x4b, 0x14]

def coSignerHashed : ScriptCrypto := { coSignerCrypto with HASH160 := fun _ => coSignerHash }

def coSignerScriptSig : CScript := pushVch (coSignature ++ [1]) ++ pushVch coSigner

end Scenario

open Scenario in
/-- The prefix of a relay keeps what the signer left, and the output is spent with it. -/
theorem encoder_neutral_iff_simplexU :
    EvalScript coSignerHashed multisigSpend 0 STANDARD_SCRIPT_VERIFY_FLAGS 0
        [coSigner, coSignature ++ [1]] (Encoder.simplexU [0x61] [0x62]).scriptPubKey =
      some [coSigner, coSignature ++ [1]] ∧
    VerifyScript coSignerHashed multisigSpend 0 STANDARD_SCRIPT_VERIFY_FLAGS 0 coSignerScriptSig
      ((Encoder.simplexU [0x61] [0x62]).scriptPubKey ++ SetBitcoinAddress coSignerHash) = true := by
  have hrun : EvalScript coSignerHashed multisigSpend 0 STANDARD_SCRIPT_VERIFY_FLAGS 0 []
      coSignerScriptSig = some [coSigner, coSignature ++ [1]] := by decide
  have hsigned : SatisfiesKeyHash coSignerHashed multisigSpend 0 0
      ((Encoder.simplexU [0x61] [0x62]).scriptPubKey ++ SetBitcoinAddress coSignerHash)
      coSignerHash [coSigner, coSignature ++ [1]] :=
    ⟨coSigner, coSignature ++ [1], [], rfl, rfl, by decide⟩
  obtain ⟨hneutral, hspend⟩ := @encoder_neutral_iff coSignerHashed multisigSpend 0
    STANDARD_SCRIPT_VERIFY_FLAGS 0 (.simplexU [0x61] [0x62]) [coSigner, coSignature ++ [1]]
    (by decide) (by decide)
  exact ⟨hneutral.mpr rfl, (hspend coSignerHash _ (by decide) hrun).mpr ⟨rfl, hsigned⟩⟩

open Scenario in
/-- A projection leaves its opcode on the stack, so what the input left is no longer on top. -/
theorem mapProject_left :
    EvalScript noCrypto lateSpend 0 STANDARD_SCRIPT_VERIFY_FLAGS 0 [[1], [2]]
        (Encoder.mapProject [0x61] [0x62] [0x63] [0x64] [0x65]).scriptPubKey =
      some [[0x10], [1], [2]] := by
  decide

end Dions
