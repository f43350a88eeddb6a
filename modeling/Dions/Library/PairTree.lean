import Mathlib.Data.List.Nodup
import Mathlib.Data.Nat.Bitwise
import Mathlib.Logic.Function.Iterate

/-! # Trees over lists of any length

Every level combines the neighbours of the level below, and an odd last node is combined with
itself, until one node is left. The nodes beside the path from a leaf to that last node are enough to
compute it again; and where combining is injective, it tells the leaves apart as long as no leaf is
repeated. -/

namespace PairTree

variable {α : Type*} (f : α → α → α)
variable {i : ℕ}

/-! ## One level -/

def nextLevel : List α → List α
  | a :: b :: rest => f a b :: nextLevel rest
  | [a] => [f a a]
  | [] => []

theorem length_nextLevel (level : List α) :
    (nextLevel f level).length = (level.length + 1) / 2 := by
  induction level using nextLevel.induct with
  | case1 a b rest ih =>
    simp only [nextLevel, List.length_cons, ih]
    omega
  | case2 a => simp [nextLevel]
  | case3 => simp [nextLevel]

theorem length_nextLevel_lt {level : List α} (h : 1 < level.length) :
    (nextLevel f level).length < level.length := by
  rw [length_nextLevel]
  omega

theorem nextLevel_ne_nil {level : List α} (h : level ≠ []) : nextLevel f level ≠ [] := by
  have hpos := List.length_pos_iff.mpr h
  rw [← List.length_pos_iff, length_nextLevel]
  omega

/-- A node has the two nodes below it, or twice the same one at the odd end. -/
theorem getElem?_nextLevel (level : List α) (i : ℕ) :
    (nextLevel f level)[i]? = level[2 * i]?.map fun a => f a (level[2 * i + 1]?.getD a) := by
  induction level using nextLevel.induct generalizing i with
  | case1 a b rest ih =>
    cases i with
    | zero => rfl
    | succ i => simpa only [nextLevel, Nat.mul_succ, List.getElem?_cons_succ] using ih i
  | case2 a =>
    cases i with
    | zero => rfl
    | succ i => simp [nextLevel, Nat.mul_succ]
  | case3 => simp [nextLevel]

theorem exists_of_mem_nextLevel {level : List α} {x : α} (h : x ∈ nextLevel f level) :
    ∃ a b, a ∈ level ∧ x = f a b := by
  induction level using nextLevel.induct with
  | case1 a b rest ih =>
    rcases List.mem_cons.mp h with rfl | h
    · exact ⟨a, b, List.mem_cons_self, rfl⟩
    · obtain ⟨a', b', ha, hx⟩ := ih h
      exact ⟨a', b', List.mem_cons_of_mem a (List.mem_cons_of_mem b ha), hx⟩
  | case2 a => exact ⟨a, a, List.mem_cons_self, List.mem_singleton.mp h⟩
  | case3 => simp [nextLevel] at h

/-! ## All levels -/

def levels (level : List α) : List (List α) :=
  if 1 < level.length then level :: levels (nextLevel f level) else [level]
termination_by level.length
decreasing_by exact length_nextLevel_lt f (by assumption)

theorem levels_of_lt {level : List α} (h : 1 < level.length) :
    levels f level = level :: levels f (nextLevel f level) := by
  rw [levels, if_pos h]

theorem levels_of_le {level : List α} (h : level.length ≤ 1) : levels f level = [level] := by
  rw [levels, if_neg (by omega)]

/-- The last node, which stands on a level of its own. -/
def root? (level : List α) : Option α := (levels f level).flatten.getLast?

theorem levels_flatten_ne_nil {level : List α} (h : level ≠ []) :
    (levels f level).flatten ≠ [] := by
  rw [levels]
  split
  · rw [List.flatten_cons, Ne, List.append_eq_nil_iff]
    exact fun hnil => h hnil.1
  · simpa using h

theorem root?_of_lt {level : List α} (h : 1 < level.length) :
    root? f level = root? f (nextLevel f level) := by
  have hne : level ≠ [] := List.ne_nil_of_length_pos (by omega)
  rw [root?, levels_of_lt f h, List.flatten_cons, List.getLast?_append_of_ne_nil _
    (levels_flatten_ne_nil f (nextLevel_ne_nil f hne)), root?]

theorem root?_of_le {level : List α} (h : level.length ≤ 1) : root? f level = level.head? := by
  rw [root?, levels_of_le f h, List.flatten_singleton]
  match level, h with
  | [], _ => rfl
  | [a], _ => rfl

/-- The root is what a number of rounds leave of the leaves. -/
theorem exists_iterate_root {level : List α} (h : level ≠ []) :
    ∃ d r, root? f level = some r ∧ (nextLevel f)^[d] level = [r] := by
  induction level using levels.induct f with
  | case1 level hlt ih =>
    obtain ⟨d, r, hroot, hd⟩ := ih (nextLevel_ne_nil f h)
    exact ⟨d + 1, r, by rw [root?_of_lt f hlt, hroot], hd⟩
  | case2 level hle =>
    match level, h, hle with
    | [r], _, hle => exact ⟨0, r, root?_of_le f (by omega), rfl⟩
    | a :: b :: rest, _, hle => simp at hle

/-! ## The path to a leaf -/

/-- Where the node stands with which the one at `i` is combined. -/
def partner (width i : ℕ) : ℕ := min (i ^^^ 1) (width - 1)

/-- The partners of a leaf and of the nodes above it. -/
def branch (level : List α) (i : ℕ) : List α :=
  if 1 < level.length then
    level[partner level.length i]?.toList ++ branch (nextLevel f level) (i / 2)
  else []
termination_by level.length
decreasing_by exact length_nextLevel_lt f (by assumption)

theorem branch_of_le {level : List α} (i : ℕ) (h : level.length ≤ 1) : branch f level i = [] := by
  rw [branch, if_neg (by omega)]

/-- Combining with one partner after the other: the lowest bit of the place tells the side. -/
def climb : (i : ℕ) → α → List α → α
  | _, x, [] => x
  | i, x, y :: rest => climb (i / 2) (if i % 2 = 1 then f y x else f x y) rest

theorem partner_lt {width : ℕ} (h : 0 < width) : partner width i < width := by
  rw [partner]
  omega

theorem branch_of_lt {level : List α} {y : α} (h : 1 < level.length)
    (hy : level[partner level.length i]? = some y) :
    branch f level i = y :: branch f (nextLevel f level) (i / 2) := by
  rw [branch, if_pos h, hy]
  rfl

theorem getElem?_nextLevel_half {level : List α} {i : ℕ} {x y : α} (hx : level[i]? = some x)
    (hy : level[partner level.length i]? = some y) :
    (nextLevel f level)[i / 2]? = some (if i % 2 = 1 then f y x else f x y) := by
  have hi : i < level.length := (List.getElem?_eq_some_iff.mp hx).1
  rw [getElem?_nextLevel]
  rcases Nat.mod_two_eq_zero_or_one i with heven | hodd
  · have hhalf : 2 * (i / 2) = i := by omega
    rw [hhalf, hx, if_neg (by omega), Option.map_some]
    rw [partner, Nat.xor_one_of_even (Nat.even_iff.mpr heven)] at hy
    by_cases hlast : i + 1 < level.length
    · rw [min_eq_left (by omega)] at hy
      rw [hy, Option.getD_some]
    · -- the odd last node is its own partner
      rw [min_eq_right (by omega), show level.length - 1 = i by omega, hx] at hy
      rw [List.getElem?_eq_none (by omega), Option.getD_none, Option.some.inj hy]
  · have hhalf : 2 * (i / 2) = i - 1 := by omega
    rw [partner, Nat.xor_one_of_odd (Nat.odd_iff.mpr hodd), min_eq_left (by omega)] at hy
    rw [hhalf, hy, if_pos hodd, Option.map_some, show i - 1 + 1 = i by omega, hx, Option.getD_some]

/-- From every leaf its branch leads to the root. -/
theorem climb_branch {level : List α} {x : α} (hx : level[i]? = some x) :
    some (climb f i x (branch f level i)) = root? f level := by
  induction level using levels.induct f generalizing i x with
  | case1 level hlt ih =>
    have hy := List.getElem?_eq_getElem (partner_lt (i := i) (by omega : 0 < level.length))
    rw [branch_of_lt f hlt hy, climb, root?_of_lt f hlt]
    exact ih (getElem?_nextLevel_half f hx hy)
  | case2 level hle =>
    have hi : i < level.length := (List.getElem?_eq_some_iff.mp hx).1
    obtain rfl : i = 0 := by omega
    rw [branch_of_le f 0 (by omega), climb, root?_of_le f (by omega), List.head?_eq_getElem?, hx]

/-! ## What a root tells -/

variable {f}

theorem nodup_nextLevel (hf : Function.Injective2 f) {level : List α} (h : level.Nodup) :
    (nextLevel f level).Nodup := by
  induction level using nextLevel.induct with
  | case1 a b rest ih =>
    rw [List.nodup_cons, List.nodup_cons] at h
    rw [nextLevel, List.nodup_cons]
    refine ⟨fun hmem => ?_, ih h.2.2⟩
    obtain ⟨c, d, hc, heq⟩ := exists_of_mem_nextLevel f hmem
    rw [(hf heq).1] at h
    exact h.1 (List.mem_cons_of_mem b hc)
  | case2 a => exact List.nodup_singleton _
  | case3 => exact List.nodup_nil

/-- Of two lists with the same next level one repeats its last node, unless they are equal. -/
theorem nextLevel_inj (hf : Function.Injective2 f) {level₁ level₂ : List α} (h₁ : level₁.Nodup)
    (h₂ : level₂.Nodup) (h : nextLevel f level₁ = nextLevel f level₂) : level₁ = level₂ := by
  induction level₁ using nextLevel.induct generalizing level₂ with
  | case1 a b rest ih =>
    match level₂ with
    | [] => simp [nextLevel] at h
    | [c] =>
      simp only [nextLevel, List.cons.injEq] at h
      obtain ⟨rfl, rfl⟩ := hf h.1
      simp at h₁
    | c :: d :: rest' =>
      simp only [nextLevel, List.cons.injEq] at h
      obtain ⟨rfl, rfl⟩ := hf h.1
      rw [ih h₁.of_cons.of_cons h₂.of_cons.of_cons h.2]
  | case2 a =>
    match level₂ with
    | [] => simp [nextLevel] at h
    | [c] =>
      simp only [nextLevel, List.cons.injEq] at h
      rw [(hf h.1).1]
    | c :: d :: rest' =>
      simp only [nextLevel, List.cons.injEq] at h
      obtain ⟨rfl, rfl⟩ := hf h.1
      simp at h₂
  | case3 =>
    match level₂ with
    | [] => rfl
    | [c] => simp [nextLevel] at h
    | c :: d :: rest' => simp [nextLevel] at h

example (a b c : α) : nextLevel f [a, b, c] = nextLevel f [a, b, c, c] := by
  simp [nextLevel]

theorem iterate_nextLevel_inj (hf : Function.Injective2 f) {level₁ level₂ : List α}
    (h₁ : level₁.Nodup) (h₂ : level₂.Nodup) (d : ℕ)
    (h : (nextLevel f)^[d] level₁ = (nextLevel f)^[d] level₂) : level₁ = level₂ := by
  induction d generalizing level₁ level₂ with
  | zero => exact h
  | succ d ih =>
    exact nextLevel_inj hf h₁ h₂ (ih (nodup_nextLevel hf h₁) (nodup_nextLevel hf h₂) h)

theorem nodup_iterate (hf : Function.Injective2 f) {level : List α} (h : level.Nodup) (d : ℕ) :
    ((nextLevel f)^[d] level).Nodup := by
  induction d generalizing level with
  | zero => exact h
  | succ d ih => exact ih (nodup_nextLevel hf h)

/-- Leaves that are no combinations cannot be the nodes of a level of another tree. -/
theorem eq_of_iterate (hf : Function.Injective2 f) {leaves₁ leaves₂ : List α} (h₁ : leaves₁.Nodup)
    (h₂ : leaves₂.Nodup) (hne : leaves₁ ≠ []) (hleaf : ∀ x ∈ leaves₁, ∀ a b, x ≠ f a b) {d k : ℕ}
    (h : (nextLevel f)^[d] leaves₁ = (nextLevel f)^[d + k] leaves₂) : leaves₁ = leaves₂ := by
  rw [Function.iterate_add_apply] at h
  have heq := iterate_nextLevel_inj hf h₁ (nodup_iterate hf h₂ k) d h
  cases k with
  | zero => exact heq
  | succ k =>
    obtain ⟨x, hx⟩ := List.exists_mem_of_ne_nil leaves₁ hne
    have hmem : x ∈ (nextLevel f)^[k + 1] leaves₂ := heq ▸ hx
    rw [Function.iterate_succ_apply'] at hmem
    obtain ⟨a, b, _, hab⟩ := exists_of_mem_nextLevel f hmem
    exact absurd hab (hleaf x hx a b)

/-- The root tells the leaves, if none of them is repeated or is a combination. -/
theorem eq_of_root? (hf : Function.Injective2 f) {leaves₁ leaves₂ : List α} (h₁ : leaves₁.Nodup)
    (h₂ : leaves₂.Nodup) (hne₁ : leaves₁ ≠ []) (hne₂ : leaves₂ ≠ [])
    (hleaf₁ : ∀ x ∈ leaves₁, ∀ a b, x ≠ f a b) (hleaf₂ : ∀ x ∈ leaves₂, ∀ a b, x ≠ f a b)
    (h : root? f leaves₁ = root? f leaves₂) : leaves₁ = leaves₂ := by
  obtain ⟨d₁, r₁, hroot₁, hd₁⟩ := exists_iterate_root f hne₁
  obtain ⟨d₂, r₂, hroot₂, hd₂⟩ := exists_iterate_root f hne₂
  have hr : r₁ = r₂ := Option.some.inj (by rw [← hroot₁, ← hroot₂, h])
  have hd : (nextLevel f)^[d₁] leaves₁ = (nextLevel f)^[d₂] leaves₂ := by rw [hd₁, hd₂, hr]
  rcases Nat.le_total d₁ d₂ with hle | hle
  · obtain ⟨k, rfl⟩ := Nat.exists_eq_add_of_le hle
    exact eq_of_iterate hf h₁ h₂ hne₁ hleaf₁ hd
  · obtain ⟨k, rfl⟩ := Nat.exists_eq_add_of_le hle
    exact (eq_of_iterate hf h₂ h₁ hne₂ hleaf₂ hd.symm).symm

end PairTree
