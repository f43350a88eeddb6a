import Mathlib.Data.List.Induction
import Mathlib.Data.Set.Insert

/-! # What nothing supersedes

Items arrive one after the other. One that arrives takes out the items it supersedes, and is kept
unless one of those that are left supersedes it. Where the relation is a strict order among all that
have arrived, what is kept does not depend on the order of arrival. -/

universe u

namespace Supersede

variable {α : Type u} (beats : α → α → Prop)

/-- The items among the ones that arrived that none of them supersedes. -/
def top (seen : Set α) : Set α := {a | a ∈ seen ∧ ∀ b ∈ seen, ¬beats b a}

/-- What is left of the items that are held. -/
def kept (held : Set α) (x : α) : Set α := {a | a ∈ held ∧ ¬beats x a}

def arrive (held : Set α) (x : α) : Set α :=
  {a | a ∈ kept beats held x ∨ (a = x ∧ ∀ b ∈ kept beats held x, ¬beats b x)}

/-- A strict order among the items. -/
structure StrictOn (seen : Set α) : Prop where
  irrefl : ∀ a ∈ seen, ¬beats a a
  trans : ∀ a ∈ seen, ∀ b ∈ seen, ∀ c ∈ seen, beats a b → beats b c → beats a c

variable {beats} {seen seen' : Set α} {x : α} {xs : List α}

theorem StrictOn.mono (h : StrictOn beats seen) (hsub : seen' ⊆ seen) : StrictOn beats seen' where
  irrefl a ha := h.irrefl a (hsub ha)
  trans a ha b hb c hc := h.trans a (hsub ha) b (hsub hb) c (hsub hc)

/-- Above each of finitely many items there is one that nothing supersedes. -/
theorem exists_top (h : StrictOn beats {a | a ∈ xs}) :
    ∀ b ∈ xs, ∃ t ∈ top beats {a | a ∈ xs}, t = b ∨ beats t b := by
  induction xs with
  | nil => simp
  | cons x xs ih =>
      have hrest := ih (h.mono fun a ha => List.mem_cons_of_mem x ha)
      have hx : x ∈ x :: xs := List.mem_cons_self
      have hmem : ∀ {a}, a ∈ xs → a ∈ x :: xs := fun ha => List.mem_cons_of_mem x ha
      have htop {t : α} (ht : t ∈ top beats {a | a ∈ xs}) (hxt : ¬beats x t) :
          t ∈ top beats {a | a ∈ x :: xs} := by
        refine ⟨hmem ht.1, fun c hc => ?_⟩
        rcases List.mem_cons.mp hc with rfl | hc
        · exact hxt
        · exact ht.2 c hc
      -- where the first item supersedes one that is on top of the others, it is on top of all
      have hfirst {t : α} (ht : t ∈ top beats {a | a ∈ xs}) (hxt : beats x t) :
          x ∈ top beats {a | a ∈ x :: xs} := by
        refine ⟨hx, fun c hc => ?_⟩
        rcases List.mem_cons.mp hc with rfl | hc
        · exact h.irrefl c hx
        · intro hcx
          exact ht.2 c hc (h.trans c (hmem hc) x hx t (hmem ht.1) hcx hxt)
      intro b hb
      rcases List.mem_cons.mp hb with rfl | hb
      · by_cases hbeaten : ∃ c ∈ xs, beats c b
        · obtain ⟨c, hc, hcb⟩ := hbeaten
          obtain ⟨t, ht, htc⟩ := hrest c hc
          have htb : beats t b := by
            rcases htc with rfl | htc
            · exact hcb
            · exact h.trans t (hmem ht.1) c (hmem hc) b hx htc hcb
          refine ⟨t, htop ht fun hbt => ?_, .inr htb⟩
          exact h.irrefl t (hmem ht.1) (h.trans t (hmem ht.1) b hx t (hmem ht.1) htb hbt)
        · refine ⟨b, ⟨hx, fun c hc => ?_⟩, .inl rfl⟩
          rcases List.mem_cons.mp hc with rfl | hc
          · exact h.irrefl c hx
          · exact fun hcb => hbeaten ⟨c, hc, hcb⟩
      · obtain ⟨t, ht, htb⟩ := hrest b hb
        by_cases hxt : beats x t
        · refine ⟨x, hfirst ht hxt, .inr ?_⟩
          rcases htb with rfl | htb
          · exact hxt
          · exact h.trans x hx t (hmem ht.1) b (hmem hb) hxt htb
        · exact ⟨t, htop ht hxt, htb⟩

/-- What arrives leaves on top what nothing supersedes, it included. -/
theorem arrive_top (h : StrictOn beats {a | a ∈ x :: xs}) :
    arrive beats (top beats {a | a ∈ xs}) x = top beats {a | a ∈ x :: xs} := by
  have hx : x ∈ x :: xs := List.mem_cons_self
  have hmem : ∀ {a}, a ∈ xs → a ∈ x :: xs := fun ha => List.mem_cons_of_mem x ha
  have hseen : StrictOn beats {a | a ∈ xs} := h.mono fun a ha => hmem ha
  ext a
  constructor
  · rintro (⟨⟨ha, hall⟩, hxa⟩ | ⟨rfl, hall⟩)
    · refine ⟨hmem ha, fun c hc => ?_⟩
      rcases List.mem_cons.mp hc with rfl | hc
      · exact hxa
      · exact hall c hc
    · refine ⟨hx, fun c hc => ?_⟩
      rcases List.mem_cons.mp hc with rfl | hc
      · exact h.irrefl c hx
      · intro hca
        obtain ⟨t, ht, htc⟩ := exists_top hseen c hc
        have hta : beats t a := by
          rcases htc with rfl | htc
          · exact hca
          · exact h.trans t (hmem ht.1) c (hmem hc) a hx htc hca
        refine hall t ⟨ht, fun hat => ?_⟩ hta
        exact h.irrefl t (hmem ht.1) (h.trans t (hmem ht.1) a hx t (hmem ht.1) hta hat)
  · rintro ⟨ha, hall⟩
    rcases List.mem_cons.mp ha with rfl | ha
    · exact .inr ⟨rfl, fun b hb => hall b (hmem hb.1.1)⟩
    · exact .inl ⟨⟨ha, fun b hb => hall b (hmem hb)⟩, hall x hx⟩

end Supersede
