import Dions.Model.Signing
import Dions.Verification.Alias.Spending
import Dions.Verification.Script.Standard

/-! # Running the prefix of a name

A prefix pushes its arguments, in whatever form, and takes them off again with its drops. Where it
takes off exactly what it has pushed, the script behind it runs on the stack that the prefix has met. -/

namespace Dions

variable {rest script : CScript} {args : List valtype}
variable {drops : List UInt8}

section Context

variable {crypto : ScriptCrypto} {txTo : CTransaction} {nIn flags nHashType : ℕ}

/-! ## Pushes in any form -/

/-- Pushes of the arguments, one behind the other. -/
inductive PushesAll : List valtype → CScript → Prop
  | nil : PushesAll [] []
  | cons {a : valtype} {p : CScript} {args : List valtype} {ps : CScript} (hpush : Pushes a p)
      (hrest : PushesAll args ps) : PushesAll (a :: args) (p ++ ps)

theorem KeyPushes.pushesAll {keys : List valtype} {ps : CScript} (h : KeyPushes keys ps) :
    PushesAll keys ps := by
  induction h with
  | nil => exact .nil
  | cons _ hpush _ ih => exact .cons hpush ih

theorem pushAt_pushes {bytes : CScript} {pc : ℕ} {vch : valtype} (hscript : script.length ≤ 1000000)
    (hpush : Pushes vch bytes) (hdrop : script.drop pc = bytes ++ rest) :
    pushAt script pc = some vch ∧ (script.GetOp2 pc).pc = pc + bytes.length := by
  obtain ⟨opcode, hform⟩ := hpush
  rw [pushAt_eq_some, GetOp2_pushForm (by omega) hform hdrop, pushedBy, if_pos hform.opcode_le]
  exact ⟨⟨rfl, rfl⟩, rfl⟩

theorem eval_pushesAll {ps : CScript} (h : PushesAll args ps) {pc : ℕ} {s : EvalState}
    (hscript : script.length ≤ 1000000) (hdrop : script.drop pc = ps ++ rest)
    (hexec : s.vfExec = []) (hroom : s.stack.length + args.length + s.altstack.length ≤ 1000) :
    (scriptLoop crypto txTo nIn flags nHashType script).eval (pc, s) =
      (scriptLoop crypto txTo nIn flags nHashType script).eval (pc + ps.length,
        { s with stack := args.reverse ++ s.stack }) := by
  induction h generalizing pc s with
  | nil => rfl
  | @cons a p args ps hpush _ ih =>
    rw [List.append_assoc] at hdrop
    rw [List.length_cons] at hroom
    obtain ⟨hat, hnext⟩ := pushAt_pushes hscript hpush hdrop
    have hlater : (scriptLoop crypto txTo nIn flags nHashType script).eval
        (pc + p.length, { s with stack := a :: s.stack }) =
      (scriptLoop crypto txTo nIn flags nHashType script).eval
        (pc + p.length + ps.length, { s with stack := args.reverse ++ a :: s.stack }) :=
      ih (s := { s with stack := a :: s.stack }) (drop_add_length hdrop) hexec
        (by dsimp only [List.length_cons]; omega)
    rw [eval_pushAt hat ((GetOp2_vchRet_le script pc).trans hscript) hexec (by omega), hnext, hlater,
      List.length_append, ← Nat.add_assoc, List.reverse_cons, List.append_assoc,
      List.singleton_append]

/-! ## Drops -/

def droppedBy (d : UInt8) : ℕ := if d.toNat = OP_NOP then 0 else dropCount d

theorem eval_nop {pc : ℕ} {d : UInt8} {s : EvalState} (hd : d.toNat = OP_NOP)
    (hdrop : script.drop pc = d :: rest) (hexec : s.vfExec = []) (hops : s.nOpCount < 201)
    (hroom : s.stack.length + s.altstack.length ≤ 1000) :
    (scriptLoop crypto txTo nIn flags nHashType script).eval (pc, s) =
      (scriptLoop crypto txTo nIn flags nHashType script).eval
        (pc + 1, { s with nOpCount := s.nOpCount + 1 }) :=
  eval_op hdrop (by rw [hd]; decide) (by rw [hd]; rfl) (by rw [hd]; decide) hexec hops rfl hroom

theorem eval_prefixDrops (hdrops : ∀ d ∈ drops, isDrop d.toNat = true) {pc : ℕ} {s : EvalState}
    {items below : List valtype} (hdrop : script.drop pc = drops ++ rest) (hexec : s.vfExec = [])
    (hops : s.nOpCount + drops.length ≤ 201) (hstack : s.stack = items ++ below)
    (hitems : items.length = (drops.map droppedBy).sum)
    (hroom : s.stack.length + s.altstack.length ≤ 1000) :
    (scriptLoop crypto txTo nIn flags nHashType script).eval (pc, s) =
      (scriptLoop crypto txTo nIn flags nHashType script).eval (pc + drops.length,
        { s with stack := below, nOpCount := s.nOpCount + drops.length }) := by
  induction drops generalizing pc s items with
  | nil =>
    have hnil : items = [] := by simpa using hitems
    rw [hnil, List.nil_append] at hstack
    rw [← hstack]
    rfl
  | cons d drops ih =>
    obtain ⟨hd, hrest⟩ := List.forall_mem_cons.mp hdrops
    rw [List.map_cons, List.sum_cons] at hitems
    rw [List.length_cons] at hops
    have hnext : script.drop (pc + 1) = drops ++ rest := by
      rw [← List.drop_drop, hdrop]
      rfl
    have hshape : pc + 1 + drops.length = pc + (d :: drops).length := by
      rw [List.length_cons]
      omega
    have hcount : s.nOpCount + 1 + drops.length = s.nOpCount + (d :: drops).length := by
      rw [List.length_cons]
      omega
    -- what the first of the drops leaves is a state to which the hypothesis applies
    have hlater : ∀ items' : List valtype, items'.length = (drops.map droppedBy).sum →
        items'.length ≤ items.length →
        (scriptLoop crypto txTo nIn flags nHashType script).eval
            (pc + 1, { s with stack := items' ++ below, nOpCount := s.nOpCount + 1 }) =
          (scriptLoop crypto txTo nIn flags nHashType script).eval (pc + (d :: drops).length,
            { s with stack := below, nOpCount := s.nOpCount + (d :: drops).length }) := by
      intro items' hitems' hless
      rw [hstack, List.length_append] at hroom
      rw [← hshape, ← hcount]
      exact ih hrest (s := { s with stack := items' ++ below, nOpCount := s.nOpCount + 1 }) hnext
        hexec (by dsimp only; omega) rfl hitems' (by dsimp only; rw [List.length_append]; omega)
    by_cases hnop : d.toNat = OP_NOP
    · rw [droppedBy, if_pos hnop, Nat.zero_add] at hitems
      rw [eval_nop hnop hdrop hexec (by omega) hroom, ← hlater items hitems le_rfl, ← hstack]
    · rw [droppedBy, if_neg hnop] at hitems
      have honly : ∀ d' ∈ [d], d'.toNat = OP_DROP ∨ d'.toNat = OP_2DROP := by
        intro d' hd'
        rw [List.mem_singleton] at hd'
        rw [isDrop, Bool.or_eq_true, Bool.or_eq_true, beq_iff_eq, beq_iff_eq, beq_iff_eq] at hd
        rw [hd']
        exact hd.resolve_right hnop
      have hsplit : s.stack = items.take (dropCount d) ++ (items.drop (dropCount d) ++ below) := by
        rw [hstack, ← List.append_assoc, List.take_append_drop]
      have hfirst : script.drop pc = [d] ++ (drops ++ rest) := hdrop
      rw [eval_drops honly hfirst hexec (by omega) hsplit
          (by rw [List.length_take]; simp; omega) hroom,
        if_pos (by rw [List.length_singleton]; omega), List.length_singleton]
      exact hlater _ (by rw [List.length_drop]; omega) (by rw [List.length_drop]; omega)

/-! ## The prefix -/

/-- A prefix that takes off exactly what it has pushed, and that ends where the decoder says that it
ends. -/
structure ClosedPrefix (args : List valtype) (drops : List UInt8) (script : CScript) : Prop where
  decodes : (aliasScript script none).ret = true
  form : ∃ op ps, 1 ≤ op ∧ op ≤ 16 ∧ PushesAll args ps ∧
    script = pushSmallInt op ++ (ps ++ (drops ++ rawScript script))
  drop : ∀ d ∈ drops, isDrop d.toNat = true
  balanced : (drops.map droppedBy).sum = args.length + 1

theorem ClosedPrefix.not_scriptHash (h : ClosedPrefix args drops script) :
    script.IsPayToScriptHash = false := by
  obtain ⟨op, ps, _, hhigh, _, hform⟩ := h.form
  exact IsPayToScriptHash_smallInt hhigh (by rw [List.drop_zero]; exact hform)

/-- The script behind the prefix runs on the stack that the prefix has met. -/
theorem ClosedPrefix.eval {args : List valtype} {drops : List UInt8} {script : CScript}
    (h : ClosedPrefix args drops script) (hscript : script.length ≤ 1000000) {stack : List valtype}
    (hroom : stack.length + args.length + 1 ≤ 1000) (hops : drops.length ≤ 201) :
    ∃ pc, script.drop pc = rawScript script ∧
      (scriptLoop crypto txTo nIn flags nHashType script).eval (0, ⟨stack, [], [], 0, 0⟩) =
        (scriptLoop crypto txTo nIn flags nHashType script).eval
          (pc, ⟨stack, [], [], drops.length, 0⟩) := by
  obtain ⟨op, ps, hlow, hhigh, hpushes, hform⟩ := h.form
  have hdrop0 : script.drop 0 = pushSmallInt op ++ (ps ++ (drops ++ rawScript script)) := by
    rw [List.drop_zero]
    exact hform
  have hdrop1 : script.drop (0 + 1) = ps ++ (drops ++ rawScript script) := drop_add_length hdrop0
  have hdrop2 := drop_add_length hdrop1
  have hbalanced := h.balanced
  have hitems : (args.reverse ++ [getvch op]).length = (drops.map droppedBy).sum := by
    rw [List.length_append, List.length_reverse, hbalanced]
    rfl
  have hstack : args.reverse ++ getvch op :: stack = (args.reverse ++ [getvch op]) ++ stack := by simp
  refine ⟨_, drop_add_length hdrop2, ?_⟩
  rw [eval_smallInt hlow hhigh hdrop0 rfl (by simp; omega),
    eval_pushesAll hpushes hscript hdrop1 rfl (by simp; omega),
    eval_prefixDrops h.drop hdrop2 rfl (by simpa using hops) hstack hitems (by simp; omega)]
  simp

/-! ## The prefixes that the node writes -/

theorem pushes_pushVch {a : valtype} (h : a.length < 2 ^ 32) : Pushes a (pushVch a) := by
  unfold pushVch
  split
  · rename_i hdirect
    exact ⟨_, .direct hdirect⟩
  · split
    · rename_i hone
      have hform : PushForm a OP_PUSHDATA1 _ := .pushData1 (by omega)
      rw [LittleEndian.toBytes, Nat.mod_eq_of_lt (by omega)] at hform
      exact ⟨_, hform⟩
    · split
      · exact ⟨_, .pushData2 (by omega)⟩
      · exact ⟨_, .pushData4 (by omega)⟩

theorem pushesAll_pushVch (h : ∀ a ∈ args, a.length < 2 ^ 32) :
    PushesAll args (args.flatMap pushVch) := by
  induction args with
  | nil => exact .nil
  | cons a args ih =>
    obtain ⟨ha, hargs⟩ := List.forall_mem_cons.mp h
    rw [List.flatMap_cons]
    exact .cons (pushes_pushVch ha) (ih hargs)

/-- A prefix that the decoder reads back is closed if it drops as many elements as it pushes. -/
theorem RoundTrip.closedPrefix {op : ℕ} {R : CScript} (h : RoundTrip op args drops R)
    (hlow : 1 ≤ op) (hhigh : op ≤ 16) (hsize : ∀ a ∈ args, a.length < 2 ^ 32)
    (hdrops : ∀ d ∈ drops, isDrop d.toNat = true)
    (hbalanced : (drops.map droppedBy).sum = args.length + 1) :
    ClosedPrefix args drops (aliasOutput op args drops R) ∧
      rawScript (aliasOutput op args drops R) = R := by
  have hraw : rawScript (aliasOutput op args drops R) = R := by
    have hstrip := h.strip
    rw [aliasStrip, if_pos (h.decodes none), Option.some.injEq] at hstrip
    rw [rawScript, if_pos (h.decodes none), hstrip]
  refine ⟨⟨h.decodes none, ⟨op, _, hlow, hhigh, pushesAll_pushVch hsize, ?_⟩, hdrops, hbalanced⟩,
    hraw⟩
  rw [hraw]
  rfl

end Context

end Dions
