import Mathlib.Data.List.Basic
import Mathlib.Data.List.Nodup
import Mathlib.Data.Nat.Basic

/-! # Lineages

A tree whose nodes only know their parent is given by the line of each node down to the root.
A node is that line, so the parent of a node never changes and every search along the line is
a structural recursion. -/

inductive Lineage (α : Type) where
  | root (a : α)
  | child (a : α) (parent : Lineage α)
  deriving DecidableEq, Repr

namespace Lineage

variable {α : Type}

def label : Lineage α → α
  | root a => a
  | child a _ => a

def parent? : Lineage α → Option (Lineage α)
  | root _ => none
  | child _ p => some p

def depth : Lineage α → ℕ
  | root _ => 0
  | child _ p => p.depth + 1

/-- The node, its parent, and so on to the root. -/
def line : Lineage α → List (Lineage α)
  | root a => [root a]
  | child a p => child a p :: p.line

/-- The part of the line strictly above `stop`, all of it when `stop` is not met. -/
def above [DecidableEq α] (stop : Lineage α) : Lineage α → List (Lineage α)
  | root a => if root a = stop then [] else [root a]
  | child a p => if child a p = stop then [] else child a p :: above stop p

/-- The node of the line at depth `d`, or the node itself when it is not that deep. -/
def dropTo (d : ℕ) : Lineage α → Lineage α
  | root a => root a
  | child a p => if d ≤ p.depth then dropTo d p else child a p

/-- The search for the fork of two lines: bring the second down to the depth of the first,
compare, and take one step on the first. -/
def fork? [DecidableEq α] : Lineage α → Lineage α → Option (Lineage α)
  | root a, b => if dropTo 0 b = root a then some (root a) else none
  | child a p, b =>
    if dropTo (p.depth + 1) b = child a p then some (child a p) else fork? p b

/-! ## Lines -/

@[simp] theorem mem_line_self (a : Lineage α) : a ∈ a.line := by
  cases a <;> simp [line]

@[simp] theorem label_root (a : α) : (root a).label = a := rfl

@[simp] theorem label_child (a : α) (p : Lineage α) : (child a p).label = a := rfl

@[simp] theorem depth_root (a : α) : (root a).depth = 0 := rfl

@[simp] theorem depth_child (a : α) (p : Lineage α) : (child a p).depth = p.depth + 1 := rfl

@[simp] theorem parent?_child (a : α) (p : Lineage α) : (child a p).parent? = some p := rfl

@[simp] theorem parent?_root (a : α) : (root a).parent? = none := rfl

theorem parent?_eq_some {a p : Lineage α} : a.parent? = some p ↔ ∃ x, a = child x p := by
  cases a with
  | root a => simp
  | child x q => simp [eq_comm]

theorem depth_le_of_mem_line {a b : Lineage α} (h : a ∈ b.line) : a.depth ≤ b.depth := by
  induction b with
  | root x =>
      simp only [line, List.mem_singleton] at h
      exact h ▸ le_rfl
  | child x p ih =>
      simp only [line, List.mem_cons] at h
      rcases h with rfl | h
      · exact le_rfl
      · exact Nat.le_succ_of_le (ih h)

theorem line_trans {a b c : Lineage α} (hab : a ∈ b.line) (hbc : b ∈ c.line) : a ∈ c.line := by
  induction c with
  | root x =>
      simp only [line, List.mem_singleton] at hbc
      rwa [hbc] at hab
  | child x p ih =>
      simp only [line, List.mem_cons] at hbc
      rcases hbc with rfl | hbc
      · exact hab
      · exact List.mem_cons_of_mem _ (ih hbc)

theorem parent_mem_line {x : α} {p b : Lineage α} (h : child x p ∈ b.line) : p ∈ b.line :=
  line_trans (by simp [line]) h

theorem not_mem_line_parent (x : α) (p : Lineage α) : child x p ∉ p.line := by
  intro h
  have := depth_le_of_mem_line h
  simp only [depth_child] at this
  omega

@[simp] theorem length_line (a : Lineage α) : a.line.length = a.depth + 1 := by
  induction a with
  | root x => rfl
  | child x p ih => rw [line, List.length_cons, ih, depth]

/-- The line of a node further back is the rest of the line. -/
theorem line_of_getElem? {a b : Lineage α} {k : ℕ} (h : a.line[k]? = some b) : b.line = a.line.drop k := by
  induction a generalizing k with
  | root x =>
    cases k with
    | zero =>
      cases h
      rfl
    | succ k => cases h
  | child x p ih =>
    cases k with
    | zero =>
      cases h
      rfl
    | succ k => exact ih h

theorem depth_of_getElem? {a b : Lineage α} {k : ℕ} (h : a.line[k]? = some b) : b.depth + k = a.depth := by
  have hk := (List.getElem?_eq_some_iff.mp h).1
  have hlength := congrArg List.length (line_of_getElem? h)
  rw [List.length_drop, length_line, length_line] at hlength
  rw [length_line] at hk
  omega

/-- On one line a depth is taken once. -/
theorem eq_of_mem_line_of_depth_eq {a b c : Lineage α} (ha : a ∈ c.line) (hb : b ∈ c.line)
    (h : a.depth = b.depth) : a = b := by
  induction c with
  | root x =>
      simp only [line, List.mem_singleton] at ha hb
      rw [ha, hb]
  | child x p ih =>
      simp only [line, List.mem_cons] at ha hb
      rcases ha with rfl | ha
      · rcases hb with rfl | hb
        · rfl
        · have := depth_le_of_mem_line hb
          simp only [depth_child] at h
          omega
      · rcases hb with rfl | hb
        · have := depth_le_of_mem_line ha
          simp only [depth_child] at h
          omega
        · exact ih ha hb

/-- Two children on one line with the same parent are the same. -/
theorem child_unique {x y : α} {p c : Lineage α} (hx : child x p ∈ c.line)
    (hy : child y p ∈ c.line) : x = y := by
  have h := eq_of_mem_line_of_depth_eq hx hy rfl
  simpa using h

/-! ## The part above a node -/

variable [DecidableEq α]

@[simp] theorem above_self (a : Lineage α) : above a a = [] := by
  cases a <;> simp [above]

theorem above_child_of_mem {stop : Lineage α} {x : α} {p : Lineage α} (h : stop ∈ p.line) :
    above stop (child x p) = child x p :: above stop p := by
  have hne : child x p ≠ stop := by
    rintro rfl
    exact not_mem_line_parent x p h
  simp [above, hne]

/-- A line is what lies above one of its nodes, followed by the line of that node. -/
theorem above_append_line {stop b : Lineage α} (h : stop ∈ b.line) :
    above stop b ++ stop.line = b.line := by
  induction b with
  | root x =>
      simp only [line, List.mem_singleton] at h
      subst h
      simp [line]
  | child x p ih =>
      simp only [line, List.mem_cons] at h
      rcases h with rfl | h
      · simp
      · rw [above_child_of_mem h, List.cons_append, ih h, line]

/-! ## The fork -/

omit [DecidableEq α] in
theorem dropTo_mem_line (d : ℕ) (b : Lineage α) : dropTo d b ∈ b.line := by
  induction b with
  | root x => simp [dropTo]
  | child x p ih =>
      by_cases h : d ≤ p.depth
      · simp only [dropTo, h, if_true, line]
        exact List.mem_cons_of_mem _ ih
      · simp [dropTo, h]

omit [DecidableEq α] in
theorem dropTo_of_mem {a b : Lineage α} (h : a ∈ b.line) : dropTo a.depth b = a := by
  induction b with
  | root x =>
      simp only [line, List.mem_singleton] at h
      rw [h, dropTo]
  | child x p ih =>
      simp only [line, List.mem_cons] at h
      rcases h with rfl | h
      · rw [dropTo, depth_child, if_neg (Nat.not_succ_le_self _)]
      · rw [dropTo, if_pos (depth_le_of_mem_line h)]
        exact ih h

theorem fork?_mem {a b m : Lineage α} (h : fork? a b = some m) : m ∈ a.line ∧ m ∈ b.line := by
  induction a with
  | root x =>
      by_cases hx : dropTo 0 b = root x
      · simp only [fork?, hx, if_true, Option.some.injEq] at h
        subst h
        exact ⟨by simp, hx ▸ dropTo_mem_line 0 b⟩
      · simp [fork?, hx] at h
  | child x p ih =>
      by_cases hx : dropTo (p.depth + 1) b = child x p
      · simp only [fork?, hx, if_true, Option.some.injEq] at h
        subst h
        exact ⟨by simp, hx ▸ dropTo_mem_line _ b⟩
      · simp only [fork?, hx, if_false] at h
        exact ⟨List.mem_cons_of_mem _ (ih h).1, (ih h).2⟩

/-- The search finds the highest node that lies on both lines. -/
theorem fork?_highest {a b c m : Lineage α} (h : fork? a b = some m) (ha : c ∈ a.line)
    (hb : c ∈ b.line) : c ∈ m.line := by
  induction a with
  | root x =>
      by_cases hx : dropTo 0 b = root x
      · simp only [fork?, hx, if_true, Option.some.injEq] at h
        rwa [← h]
      · simp [fork?, hx] at h
  | child x p ih =>
      by_cases hx : dropTo (p.depth + 1) b = child x p
      · simp only [fork?, hx, if_true, Option.some.injEq] at h
        rwa [← h]
      · simp only [fork?, hx, if_false] at h
        simp only [line, List.mem_cons] at ha
        rcases ha with rfl | ha
        · exact absurd (dropTo_of_mem hb) hx
        · exact ih h ha

/-- The part above a node hangs on that node and lies on the line. -/
theorem parent_of_mem_above {stop b e q : Lineage α} (hstop : stop ∈ b.line)
    (he : e ∈ above stop b) (hq : e.parent? = some q) : stop ∈ q.line ∧ q ∈ b.line := by
  induction b with
  | root x =>
      simp only [line, List.mem_singleton] at hstop
      simp [above, hstop] at he
  | child x p ih =>
      simp only [line, List.mem_cons] at hstop
      rcases hstop with rfl | hstop
      · simp at he
      · rw [above_child_of_mem hstop, List.mem_cons] at he
        rcases he with rfl | he
        · rw [parent?_child, Option.some.injEq] at hq
          subst hq
          exact ⟨hstop, List.mem_cons_of_mem _ (mem_line_self _)⟩
        · exact ⟨(ih hstop he).1, List.mem_cons_of_mem _ (ih hstop he).2⟩

/-- Below the tip a node has its child in the part above it. -/
theorem exists_above {stop b : Lineage α} (hstop : stop ∈ b.line) (hne : stop ≠ b) :
    ∃ e ∈ above stop b, e.parent? = some stop := by
  induction b with
  | root x =>
      simp only [line, List.mem_singleton] at hstop
      exact absurd hstop hne
  | child x p ih =>
      simp only [line, List.mem_cons] at hstop
      rcases hstop with rfl | hstop
      · exact absurd rfl hne
      · rw [above_child_of_mem hstop]
        by_cases heq : stop = p
        · subst heq
          exact ⟨child x stop, by simp, rfl⟩
        · obtain ⟨e, he, hparent⟩ := ih hstop heq
          exact ⟨e, List.mem_cons_of_mem _ he, hparent⟩

omit [DecidableEq α] in
theorem line_antisymm {a b : Lineage α} (hab : a ∈ b.line) (hba : b ∈ a.line) : a = b :=
  eq_of_mem_line_of_depth_eq hab (mem_line_self b)
    (Nat.le_antisymm (depth_le_of_mem_line hab) (depth_le_of_mem_line hba))

/-! ## Links to the next node -/

/-- The links lead along the line of `tip`, each from a node to its child on that line. -/
def Linked (next : Lineage α → Option (Lineage α)) (tip : Lineage α) : Prop :=
  ∀ a b, next a = some b ↔ b ∈ tip.line ∧ b.parent? = some a

omit [DecidableEq α] in
theorem linked_root (a : α) : Linked (fun _ => none) (root a) := by
  intro b c
  simp only [reduceCtorEq, line, List.mem_singleton, false_iff, not_and]
  rintro rfl
  simp

/-- A link from the old tip to a child makes the child the tip. -/
theorem linked_child {next : Lineage α → Option (Lineage α)} {x : α} {p : Lineage α}
    (h : Linked next p) : Linked (Function.update next p (some (child x p))) (child x p) := by
  intro a b
  by_cases ha : a = p
  · subst ha
    rw [Function.update_self, Option.some.injEq]
    constructor
    · rintro rfl
      simp
    · rintro ⟨hb, hp⟩
      obtain ⟨y, rfl⟩ := parent?_eq_some.mp hp
      exact congrArg (child · a) (child_unique (mem_line_self _) hb)
  · rw [Function.update_of_ne ha, h a b]
    simp only [line, List.mem_cons]
    constructor
    · rintro ⟨hb, hp⟩
      exact ⟨.inr hb, hp⟩
    · rintro ⟨rfl | hb, hp⟩
      · rw [parent?_child, Option.some.injEq] at hp
        exact absurd hp.symm ha
      · exact ⟨hb, hp⟩

theorem linked_parent {next : Lineage α → Option (Lineage α)} {x : α} {p : Lineage α}
    (h : Linked next (child x p)) : Linked (Function.update next p none) p := by
  intro a b
  by_cases ha : a = p
  · subst ha
    rw [Function.update_self]
    simp only [reduceCtorEq, false_iff, not_and]
    intro hb hp
    obtain ⟨y, rfl⟩ := parent?_eq_some.mp hp
    exact not_mem_line_parent y a hb
  · rw [Function.update_of_ne ha, h a b]
    simp only [line, List.mem_cons]
    constructor
    · rintro ⟨rfl | hb, hp⟩
      · rw [parent?_child, Option.some.injEq] at hp
        exact absurd hp.symm ha
      · exact ⟨hb, hp⟩
    · rintro ⟨hb, hp⟩
      exact ⟨.inr hb, hp⟩

omit [DecidableEq α] in
/-- A node lies on a line when it is the tip or the parent of a node on it. -/
theorem mem_line_iff {a tip : Lineage α} :
    a ∈ tip.line ↔ a = tip ∨ ∃ b ∈ tip.line, b.parent? = some a := by
  constructor
  · intro h
    induction tip with
    | root x => exact .inl (by simpa [line] using h)
    | child x p ih =>
        simp only [line, List.mem_cons] at h ⊢
        rcases h with rfl | h
        · exact .inl rfl
        · right
          rcases ih h with rfl | ⟨b, hb, hp⟩
          · exact ⟨child x a, .inl rfl, rfl⟩
          · exact ⟨b, .inr hb, hp⟩
  · rintro (rfl | ⟨b, hb, hp⟩)
    · simp
    · obtain ⟨x, rfl⟩ := parent?_eq_some.mp hp
      exact parent_mem_line hb

end Lineage
