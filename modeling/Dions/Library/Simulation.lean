import Mathlib.Data.List.Basic

/-! # Runs of one machine on another

Two machines perform the same operations, one on its own states and one on what they stand for. Where
each operation agrees exactly under a condition, a run agrees as far as every prefix of it exactly when
all of its operations meet the condition. -/

namespace Simulation

universe u

variable {ω ο σ α ε δ : Type u}

/-- The answers to some operations, and the state behind the last of them. -/
def run (step : ω → σ → Except ε (ο × σ)) : List ω → σ → Except ε (List ο × σ)
  | [], s => .ok ([], s)
  | op :: ops, s => do
    let (o, s₁) ← step op s
    let (os, s₂) ← run step ops s₁
    .ok (o :: os, s₂)

/-- Every operation meets `P` on the state that it finds, up to the one that fails. -/
def Along (step : ω → σ → Except ε (ο × σ)) (P : ω → σ → Prop) : List ω → σ → Prop
  | [], _ => True
  | op :: ops, s => P op s ∧ ∀ o s', step op s = .ok (o, s') → Along step P ops s'

/-- What succeeds succeeds on what the state stands for, with the same answer. -/
def Agrees (abs : σ → α) (f : σ → Except ε (ο × σ)) (g : α → Except δ (ο × α)) (s : σ) : Prop :=
  ∀ o s', f s = .ok (o, s') → g (abs s) = .ok (o, abs s')

variable {step : ω → σ → Except ε (ο × σ)} {spec : ω → α → Except δ (ο × α)} {abs : σ → α}
  {P : ω → σ → Prop}

theorem run_cons_ok {op : ω} {ops : List ω} {s s' : σ} {os : List ο} :
    run step (op :: ops) s = .ok (os, s') ↔
      ∃ o s₁ rest, step op s = .ok (o, s₁) ∧ run step ops s₁ = .ok (rest, s') ∧ os = o :: rest := by
  rw [run]
  cases hstep : step op s with
  | error e => simp [bind, Except.bind]
  | ok r =>
    obtain ⟨o, s₁⟩ := r
    cases hrest : run step ops s₁ with
    | error e => simp [bind, Except.bind, hrest]
    | ok r' =>
      obtain ⟨rest, s₂⟩ := r'
      simp [bind, Except.bind, hrest, eq_comm, and_comm]

section Invariant

variable {Inv : σ → Prop} (hinv : ∀ op s o s', Inv s → step op s = .ok (o, s') → Inv s')

include hinv

theorem run_invariant {ops : List ω} {s s' : σ} {os : List ο} (hs : Inv s)
    (hrun : run step ops s = .ok (os, s')) : Inv s' := by
  induction ops generalizing s os with
  | nil =>
    cases hrun
    exact hs
  | cons op ops ih =>
    obtain ⟨o, s₁, rest, hone, hrest, -⟩ := run_cons_ok.mp hrun
    exact ih (hinv op s o s₁ hs hone) hrest

/-- A run of operations that meet the condition agrees. -/
theorem Along.run_agrees (hstep : ∀ op s, Inv s → P op s → Agrees abs (step op) (spec op) s)
    {ops : List ω} {s : σ} (hs : Inv s) (h : Along step P ops s) : Agrees abs (run step ops) (run spec ops) s := by
  induction ops generalizing s with
  | nil =>
    intro os s' hrun
    cases hrun
    rfl
  | cons op ops ih =>
    intro os s' hrun
    obtain ⟨o, s₁, rest, hone, hrest, rfl⟩ := run_cons_ok.mp hrun
    have hothers := ih (hinv op s o s₁ hs hone) (h.2 o s₁ hone) rest s' hrest
    exact run_cons_ok.mpr ⟨o, abs s₁, rest, hstep op s hs h.1 o s₁ hone, hothers, rfl⟩

end Invariant

theorem Along.before {ops pre : List ω} {s : σ} (h : Along step P ops s) (hpre : pre <+: ops) :
    Along step P pre s := by
  induction pre generalizing ops s with
  | nil => trivial
  | cons op pre ih =>
    cases ops with
    | nil => exact absurd (List.prefix_nil.mp hpre) (List.cons_ne_nil op pre)
    | cons op' ops =>
      obtain ⟨rfl, hrest⟩ := List.cons_prefix_cons.mp hpre
      exact ⟨h.1, fun o s' hone => ih (h.2 o s' hone) hrest⟩

/-- Where an operation that succeeds agrees exactly under the condition, a run that succeeds agrees in
every prefix exactly when all of its operations meet it. -/
theorem along_iff {Inv : σ → Prop} (hinv : ∀ op s o s', Inv s → step op s = .ok (o, s') → Inv s')
    (hstep : ∀ op s o s', Inv s → step op s = .ok (o, s') → (P op s ↔ spec op (abs s) = .ok (o, abs s')))
    {ops : List ω} {s s' : σ} {os : List ο} (hs : Inv s) (hrun : run step ops s = .ok (os, s')) :
    Along step P ops s ↔ ∀ pre, pre <+: ops → Agrees abs (run step pre) (run spec pre) s := by
  have hagrees : ∀ op s, Inv s → P op s → Agrees abs (step op) (spec op) s := fun op s hs hP o s' hone =>
    (hstep op s o s' hs hone).mp hP
  refine ⟨fun h pre hpre => (h.before hpre).run_agrees hinv hagrees hs, fun hall => ?_⟩
  induction ops generalizing s os with
  | nil => trivial
  | cons op ops ih =>
    obtain ⟨o, s₁, rest, hone, hrest, rfl⟩ := run_cons_ok.mp hrun
    -- the prefix of one operation gives its condition
    have hspec : spec op (abs s) = .ok (o, abs s₁) := by
      have hfirst := hall [op] (List.prefix_append [op] ops) [o] s₁ (run_cons_ok.mpr ⟨o, s₁, [], hone, rfl, rfl⟩)
      obtain ⟨o', a, rest', hspec, hnil, heq⟩ := run_cons_ok.mp hfirst
      cases hnil
      cases heq
      exact hspec
    refine ⟨(hstep op s o s₁ hs hone).mpr hspec, fun o' s₁' hone' => ?_⟩
    rw [hone, Except.ok.injEq, Prod.mk.injEq] at hone'
    obtain ⟨rfl, rfl⟩ := hone'
    refine ih (hinv op s o s₁ hs hone) hrest fun pre hpre os' s'' hpre' => ?_
    have hlonger := hall (op :: pre) (List.cons_prefix_cons.mpr ⟨rfl, hpre⟩) (o :: os') s''
      (run_cons_ok.mpr ⟨o, s₁, os', hone, hpre', rfl⟩)
    obtain ⟨o', a, rest', hspec', hrest', heq⟩ := run_cons_ok.mp hlonger
    rw [hspec, Except.ok.injEq, Prod.mk.injEq] at hspec'
    obtain ⟨rfl, rfl⟩ := hspec'
    rw [List.cons.injEq] at heq
    rw [hrest', heq.2]

/-! ## Machines that always answer

Here what a state stands for is given by a relation, so that the second machine may know more than can be
read off the state of the first. -/

section Related

variable {answer : ω → σ → ο × σ} {meant : ω → α → ο × α} {R : σ → α → Prop}
  {C : ω → σ → α → Prop}

/-- The answers to some operations, and the state behind the last of them. -/
def trace (answer : ω → σ → ο × σ) : List ω → σ → List ο × σ
  | [], s => ([], s)
  | op :: ops, s =>
    let (o, s₁) := answer op s
    let (os, s₂) := trace answer ops s₁
    (o :: os, s₂)

/-- Every operation meets the condition on the two states that it finds. -/
def AlongBoth (answer : ω → σ → ο × σ) (meant : ω → α → ο × α) (C : ω → σ → α → Prop) :
    List ω → σ → α → Prop
  | [], _, _ => True
  | op :: ops, s, a => C op s a ∧ AlongBoth answer meant C ops (answer op s).2 (meant op a).2

/-- Operations that agree on related states and lead to related states agree in every run. -/
theorem AlongBoth.trace_eq
    (hstep : ∀ op s a, R s a → C op s a →
      (answer op s).1 = (meant op a).1 ∧ R (answer op s).2 (meant op a).2)
    {ops : List ω} {s : σ} {a : α} (hs : R s a) (h : AlongBoth answer meant C ops s a) :
    (trace answer ops s).1 = (trace meant ops a).1 ∧
      R (trace answer ops s).2 (trace meant ops a).2 := by
  induction ops generalizing s a with
  | nil => exact ⟨rfl, hs⟩
  | cons op ops ih =>
    obtain ⟨hanswer, hnext⟩ := hstep op s a hs h.1
    obtain ⟨hrest, hlast⟩ := ih hnext h.2
    exact ⟨congrArg₂ List.cons hanswer hrest, hlast⟩

end Related

end Simulation
