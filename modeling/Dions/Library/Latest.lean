import Mathlib.Data.List.Induction
import Mathlib.Logic.Function.Basic
import Mathlib.Algebra.Order.Ring.Int

/-! # The latest by key

Items are walked through once with a table of the greatest rank under each key. An item that is beaten
by an earlier one of its key is passed over; of the others the last one of interest is kept. -/

namespace Latest

variable {α κ : Type} (key : α → κ) (rank : α → ℤ)

def above (m : κ → Option ℤ) (k : κ) (n : ℤ) : Bool := (m k).any fun h => n < h

/-- One item: the table is asked first. -/
def visit [DecidableEq κ] (p : α → Bool) (s : (κ → Option ℤ) × Option α) (a : α) : (κ → Option ℤ) × Option α :=
  if above s.1 (key a) (rank a) then s
  else (Function.update s.1 (key a) (some (rank a)), if p a then some a else s.2)

def walk [DecidableEq κ] (p : α → Bool) (xs : List α) : (κ → Option ℤ) × Option α :=
  xs.foldl (visit key rank p) (fun _ => none, none)

def Beaten (xs : List α) (a : α) : Prop := ∃ b ∈ xs, key b = key a ∧ rank a < rank b

/-- The table has the greatest rank under each key. -/
structure Best (xs : List α) (m : κ → Option ℤ) : Prop where
  found : ∀ k h, m k = some h → ∃ b ∈ xs, key b = k ∧ rank b = h
  bound : ∀ b ∈ xs, ∃ h, m (key b) = some h ∧ rank b ≤ h

/-- The item is not beaten by those before it, and every later one of interest is. -/
def Shown (p : α → Bool) (xs : List α) (a : α) : Prop :=
  ∃ pre post, xs = pre ++ a :: post ∧ p a = true ∧ ¬Beaten key rank pre a ∧
    ∀ pre' b post', post = pre' ++ b :: post' → p b = true → Beaten key rank (pre ++ a :: pre') b

variable {key rank} {p : α → Bool} {xs : List α} {a b : α} {m : κ → Option ℤ}

theorem Best.above_iff (h : Best key rank xs m) :
    above m (key a) (rank a) = true ↔ Beaten key rank xs a := by
  rw [above, Option.any_eq_true]
  constructor
  · rintro ⟨n, hn, hlt⟩
    obtain ⟨b, hb, hkey, hrank⟩ := h.found _ n hn
    exact ⟨b, hb, hkey, hrank ▸ of_decide_eq_true hlt⟩
  · rintro ⟨b, hb, hkey, hlt⟩
    obtain ⟨n, hn, hle⟩ := h.bound b hb
    exact ⟨n, hkey ▸ hn, decide_eq_true (hlt.trans_le hle)⟩

theorem Best.keep (h : Best key rank xs m) (hbeaten : Beaten key rank xs b) :
    Best key rank (xs ++ [b]) m := by
  refine ⟨fun k n hn => ?_, fun c hc => ?_⟩
  · obtain ⟨c, hc, hkey, hrank⟩ := h.found k n hn
    exact ⟨c, List.mem_append_left _ hc, hkey, hrank⟩
  · rcases List.mem_append.mp hc with hc | hc
    · exact h.bound c hc
    · obtain ⟨c', hc', hkey, hlt⟩ := hbeaten
      obtain ⟨n, hn, hle⟩ := h.bound c' hc'
      rw [List.mem_singleton.mp hc]
      exact ⟨n, hkey ▸ hn, hlt.le.trans hle⟩

theorem Best.note [DecidableEq κ] (h : Best key rank xs m) (hbeaten : ¬Beaten key rank xs b) :
    Best key rank (xs ++ [b]) (Function.update m (key b) (some (rank b))) := by
  refine ⟨fun k n hn => ?_, fun c hc => ?_⟩
  · by_cases hk : k = key b
    · rw [hk, Function.update_self, Option.some.injEq] at hn
      exact ⟨b, List.mem_append_right _ (List.mem_singleton_self b), hk.symm, hn⟩
    · rw [Function.update_of_ne hk] at hn
      obtain ⟨c, hc, hkey, hrank⟩ := h.found k n hn
      exact ⟨c, List.mem_append_left _ hc, hkey, hrank⟩
  · by_cases hk : key c = key b
    · rw [hk, Function.update_self]
      refine ⟨rank b, rfl, ?_⟩
      rcases List.mem_append.mp hc with hc | hc
      · exact not_lt.mp fun hlt => hbeaten ⟨c, hc, hk, hlt⟩
      · rw [List.mem_singleton.mp hc]
    · rw [Function.update_of_ne hk]
      rcases List.mem_append.mp hc with hc | hc
      · exact h.bound c hc
      · exact absurd (congrArg key (List.mem_singleton.mp hc)) hk

/-! ## What is kept -/

theorem Shown.concat_self (hp : p b = true) (hbeaten : ¬Beaten key rank xs b) :
    Shown key rank p (xs ++ [b]) b := by
  refine ⟨xs, [], rfl, hp, hbeaten, fun pre' c post' hsplit => ?_⟩
  cases pre' <;> cases hsplit

theorem Shown.concat_pass (h : Shown key rank p xs a)
    (hpass : p b = true → Beaten key rank xs b) : Shown key rank p (xs ++ [b]) a := by
  obtain ⟨pre, post, hxs, hp, hbeaten, hlater⟩ := h
  refine ⟨pre, post ++ [b], by rw [hxs, List.append_assoc, List.cons_append], hp, hbeaten, ?_⟩
  intro pre' c post' hsplit hc
  rcases List.eq_nil_or_concat post' with hnil | ⟨post'', c', hconcat⟩
  · rw [hnil] at hsplit
    obtain ⟨hpost, hlast⟩ := List.append_inj' hsplit rfl
    rw [← List.singleton_inj.mp hlast] at hc ⊢
    rw [← hpost, ← hxs]
    exact hpass hc
  · rw [hconcat, List.concat_eq_append, ← List.cons_append, ← List.append_assoc] at hsplit
    exact hlater pre' c post'' (List.append_inj' hsplit rfl).1 hc

theorem Shown.of_concat (h : Shown key rank p (xs ++ [b]) a) :
    (a = b ∧ p b = true ∧ ¬Beaten key rank xs b) ∨
      (Shown key rank p xs a ∧ (p b = true → Beaten key rank xs b)) := by
  obtain ⟨pre, post, hxs, hp, hbeaten, hlater⟩ := h
  rcases List.eq_nil_or_concat post with hnil | ⟨post', c, hconcat⟩
  · rw [hnil] at hxs
    obtain ⟨hpre, hlast⟩ := List.append_inj' hxs rfl
    have hab := List.singleton_inj.mp hlast
    rw [← hab] at hp hbeaten
    exact .inl ⟨hab.symm, hp, hpre ▸ hbeaten⟩
  · rw [List.concat_eq_append] at hconcat
    rw [hconcat, ← List.cons_append, ← List.append_assoc] at hxs
    obtain ⟨hpre, hlast⟩ := List.append_inj' hxs rfl
    have hbc := List.singleton_inj.mp hlast
    refine .inr ⟨⟨pre, post', hpre, hp, hbeaten, fun pre' d post'' hsplit => ?_⟩, fun hpb => ?_⟩
    · refine hlater pre' d (post'' ++ [c]) ?_
      rw [hconcat, hsplit, List.append_assoc, List.cons_append]
    · rw [hpre]
      exact hlater post' b [] (by rw [hconcat, hbc]) hpb

/-- The table and the item that is kept, after a walk. -/
theorem walk_spec [DecidableEq κ] (p : α → Bool) (xs : List α) :
    Best key rank xs (walk key rank p xs).1 ∧
      ∀ a, (walk key rank p xs).2 = some a ↔ Shown key rank p xs a := by
  induction xs using List.reverseRecOn with
  | nil =>
    refine ⟨⟨nofun, nofun⟩, fun a => iff_of_false nofun ?_⟩
    rintro ⟨pre, post, hnil, -⟩
    cases pre <;> cases hnil
  | append_singleton xs b ih =>
    obtain ⟨hbest, hkept⟩ := ih
    rw [walk, List.foldl_append, List.foldl_cons, List.foldl_nil]
    rw [walk] at hbest hkept
    rw [visit]
    by_cases habove : above (xs.foldl (visit key rank p) (fun _ => none, none)).1 (key b) (rank b) = true
    · have hbeaten := hbest.above_iff.mp habove
      rw [if_pos habove]
      refine ⟨hbest.keep hbeaten, fun a => (hkept a).trans ⟨?_, ?_⟩⟩
      · exact fun h => h.concat_pass fun _ => hbeaten
      · intro h
        rcases h.of_concat with ⟨-, -, hnot⟩ | ⟨hshown, -⟩
        · exact absurd hbeaten hnot
        · exact hshown
    · have hbeaten := mt hbest.above_iff.mpr habove
      rw [if_neg habove]
      refine ⟨hbest.note hbeaten, fun a => ?_⟩
      dsimp only
      by_cases hp : p b = true
      · rw [if_pos hp, Option.some.injEq]
        constructor
        · exact fun hab => hab ▸ Shown.concat_self hp hbeaten
        · intro h
          rcases h.of_concat with ⟨hab, -, -⟩ | ⟨-, hpass⟩
          · exact hab.symm
          · exact absurd (hpass hp) hbeaten
      · rw [if_neg hp, hkept]
        constructor
        · exact fun h => h.concat_pass fun h => absurd h hp
        · intro h
          rcases h.of_concat with ⟨-, hpb, -⟩ | ⟨hshown, -⟩
          · exact absurd hpb hp
          · exact hshown

theorem Shown.mem (h : Shown key rank p xs a) : a ∈ xs ∧ p a = true := by
  obtain ⟨pre, post, hxs, hp, -⟩ := h
  exact ⟨hxs ▸ List.mem_append_right _ (List.mem_cons_self ..), hp⟩

/-! ## One key -/

/-- Where all items are of one key, the one that is kept has the greatest rank. -/
theorem Shown.top (hkey : ∀ a ∈ xs, ∀ b ∈ xs, key a = key b)
    (h : Shown key rank (fun _ => true) xs a) : ∀ b ∈ xs, rank b ≤ rank a := by
  induction xs using List.reverseRecOn generalizing a with
  | nil => exact List.forall_mem_nil _
  | append_singleton xs c ih =>
    have hkey' : ∀ a ∈ xs, ∀ b ∈ xs, key a = key b := fun a ha b hb =>
      hkey a (List.mem_append_left _ ha) b (List.mem_append_left _ hb)
    intro b hb
    rcases h.of_concat with ⟨hac, -, hbeaten⟩ | ⟨hshown, hpass⟩
    · rw [hac]
      rcases List.mem_append.mp hb with hb | hb
      · exact not_lt.mp fun hlt => hbeaten ⟨b, hb, hkey b (List.mem_append_left _ hb) c
          (List.mem_append_right _ (List.mem_singleton_self c)), hlt⟩
      · rw [List.mem_singleton.mp hb]
    · rcases List.mem_append.mp hb with hb | hb
      · exact ih hkey' hshown b hb
      · obtain ⟨d, hd, -, hlt⟩ := hpass rfl
        rw [List.mem_singleton.mp hb]
        exact hlt.le.trans (ih hkey' hshown d hd)

/-- Where every item is of interest, one is kept. -/
theorem exists_shown (hxs : xs ≠ []) : ∃ a, Shown key rank (fun _ => true) xs a := by
  induction xs using List.reverseRecOn with
  | nil => exact absurd rfl hxs
  | append_singleton xs c ih =>
    by_cases hbeaten : Beaten key rank xs c
    · have hne : xs ≠ [] := by
        obtain ⟨b, hb, -⟩ := hbeaten
        exact List.ne_nil_of_mem hb
      obtain ⟨a, ha⟩ := ih hne
      exact ⟨a, ha.concat_pass fun _ => hbeaten⟩
    · exact ⟨c, Shown.concat_self rfl hbeaten⟩

end Latest
