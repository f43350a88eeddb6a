import Mathlib.Data.List.Basic
import Mathlib.Data.List.Induction
import Mathlib.Logic.Function.Basic

/-! # Leases

Keys are leased by the records of a log: a claim takes a key that is free or whose record has run
out, a renewal replaces the record of any key that has one. A log that is run once more over its own
result changes nothing, as long as a claim comes first for each key and an earlier claim takes the
key from a later record. Where records are made from records, the holder of a key is the one that a
renewal is made from, on logs that are honest. -/

namespace Lease

structure Event (κ α : Type) where
  key : κ
  renews : Bool
  record : α

variable {κ α : Type} (expired : α → α → Bool)

/-- The record of the key of an event after it. -/
def take (held : Option α) (e : Event κ α) : Option α :=
  match held with
  | none => if e.renews then none else some e.record
  | some old => if e.renews || expired e.record old then some e.record else some old

section Runs

variable [DecidableEq κ]

def step (db : κ → Option α) (e : Event κ α) : κ → Option α :=
  Function.update db e.key (take expired (db e.key) e)

def run (db : κ → Option α) (es : List (Event κ α)) : κ → Option α :=
  es.foldl (step expired) db

/-- The events of a key. -/
def events (k : κ) (es : List (Event κ α)) : List (Event κ α) := es.filter fun e => e.key = k

/-- The first event of each key is a claim. -/
def ClaimsFirst (es : List (Event κ α)) : Prop :=
  ∀ k e, (events k es).head? = some e → e.renews = false

theorem events_cons (k : κ) (e : Event κ α) (es : List (Event κ α)) :
    events k (e :: es) = if e.key = k then e :: events k es else events k es := by
  rw [events, List.filter_cons]
  by_cases hk : e.key = k
  · rw [if_pos (decide_eq_true hk), if_pos hk]
    rfl
  · rw [if_neg (fun h => hk (of_decide_eq_true h)), if_neg hk]
    rfl

/-- Keys do not meet each other. -/
theorem run_apply (db : κ → Option α) (es : List (Event κ α)) (k : κ) :
    run expired db es k = (events k es).foldl (take expired) (db k) := by
  induction es generalizing db with
  | nil => rfl
  | cons e es ih =>
    rw [run, List.foldl_cons, ← run, ih, events_cons]
    by_cases hk : e.key = k
    · rw [if_pos hk, List.foldl_cons, step, ← hk, Function.update_self]
    · rw [if_neg hk, step, Function.update_of_ne (Ne.symm hk)]

end Runs

/-! ## One key -/

variable {expired} (time : α → ℕ)

theorem take_some (old : α) (e : Event κ α) :
    take expired (some old) e = some e.record ∨ take expired (some old) e = some old := by
  rw [take]
  split
  · exact .inl rfl
  · exact .inr rfl

theorem foldl_mem {es : List (Event κ α)} {r final : α}
    (hrun : es.foldl (take expired) (some r) = some final) :
    final = r ∨ ∃ e ∈ es, final = e.record := by
  induction es generalizing r with
  | nil =>
    cases hrun
    exact .inl rfl
  | cons e es ih =>
    rw [List.foldl_cons] at hrun
    rcases take_some r e with htake | htake
    · rw [htake] at hrun
      rcases ih hrun with heq | ⟨e', he', heq⟩
      · exact .inr ⟨e, List.mem_cons_self, heq⟩
      · exact .inr ⟨e', List.mem_cons_of_mem _ he', heq⟩
    · rw [htake] at hrun
      rcases ih hrun with heq | ⟨e', he', heq⟩
      · exact .inl heq
      · exact .inr ⟨e', List.mem_cons_of_mem _ he', heq⟩

theorem take_ne_none {held : Option α} {e : Event κ α} (h : e.renews = false ∨ held ≠ none) :
    take expired held e ≠ none := by
  cases held with
  | none =>
    rw [take, h.resolve_right fun hne => hne rfl]
    exact Option.some_ne_none e.record
  | some old =>
    rcases @take_some κ α expired old e with htake | htake
    · rw [htake]
      exact Option.some_ne_none e.record
    · rw [htake]
      exact Option.some_ne_none old

theorem time_le_foldl {es : List (Event κ α)} {r final : α}
    (hsorted : es.Pairwise fun a b => time a.record ≤ time b.record)
    (hlate : ∀ e ∈ es, time r ≤ time e.record)
    (hrun : es.foldl (take expired) (some r) = some final) : time r ≤ time final := by
  induction es generalizing r with
  | nil =>
    cases hrun
    exact Nat.le_refl _
  | cons e es ih =>
    obtain ⟨hhead, htail⟩ := List.pairwise_cons.mp hsorted
    obtain ⟨hfirst, hrest⟩ := List.forall_mem_cons.mp hlate
    rw [List.foldl_cons] at hrun
    rcases take_some r e with htake | htake
    · rw [htake] at hrun
      exact Nat.le_trans hfirst (ih htail hhead hrun)
    · rw [htake] at hrun
      exact ih htail hrest hrun

variable (hexpired : ∀ a b, time a = time b → ∀ r, expired r a = expired r b)

include hexpired in
/-- Two records of the same time are treated alike, so the final one stays or comes back. -/
theorem foldl_of_same_time {es : List (Event κ α)} {r final : α} (htime : time r = time final)
    (hrun : es.foldl (take expired) (some r) = some final) :
    es.foldl (take expired) (some final) = some final := by
  induction es generalizing r with
  | nil => rfl
  | cons e es ih =>
    rw [List.foldl_cons] at hrun ⊢
    have hsame : expired e.record final = expired e.record r := hexpired _ _ htime.symm _
    rw [take] at hrun ⊢
    rw [hsame]
    split at hrun
    · rename_i htaken
      rw [if_pos htaken]
      exact hrun
    · rename_i hkept
      rw [if_neg hkept]
      exact ih htime hrun

include hexpired in
theorem foldl_again {es : List (Event κ α)}
    (hsorted : es.Pairwise fun a b => time a.record ≤ time b.record)
    (hfirst : ∀ e, es.head? = some e → e.renews = false)
    (hearlier : ∀ a ∈ es, ∀ b ∈ es, time a.record < time b.record →
      expired a.record b.record = true) :
    es.foldl (take expired) (es.foldl (take expired) none) = es.foldl (take expired) none := by
  cases es with
  | nil => rfl
  | cons e es =>
    obtain ⟨hhead, htail⟩ := List.pairwise_cons.mp hsorted
    have hclaim : take expired none e = some e.record := by
      rw [take, hfirst e rfl]
      rfl
    have hpass : (e :: es).foldl (take expired) none =
        es.foldl (take expired) (some e.record) := by
      rw [List.foldl_cons, hclaim]
    rw [hpass]
    cases hrun : es.foldl (take expired) (some e.record) with
    | none => exact hpass.trans hrun
    | some final =>
      rw [List.foldl_cons]
      rcases @take_some κ α expired final e with htake | htake
      · rw [htake]
        exact hrun
      · rw [htake]
        by_cases hexp : expired e.record final = true
        · rw [take, hexp, Bool.or_true, if_pos rfl] at htake
          rw [← htake]
          exact hrun.trans htake.symm
        · have hle := time_le_foldl time htail hhead hrun
          have hge : time final ≤ time e.record := by
            rcases foldl_mem hrun with heq | ⟨e', he', heq⟩
            · exact Nat.le_of_eq (congrArg time heq)
            · rw [heq] at hexp ⊢
              exact Nat.le_of_not_lt fun hlt => hexp
                (hearlier e List.mem_cons_self e' (List.mem_cons_of_mem _ he') hlt)
          exact foldl_of_same_time time hexpired (Nat.le_antisymm hle hge) hrun

/-- A log run over its own result. -/
theorem run_again [DecidableEq κ] {es : List (Event κ α)}
    (hexpired : ∀ a b, time a = time b → ∀ r, expired r a = expired r b)
    (hsorted : es.Pairwise fun a b => time a.record ≤ time b.record) (hfirst : ClaimsFirst es)
    (hearlier : ∀ a ∈ es, ∀ b ∈ es, time a.record < time b.record →
      expired a.record b.record = true) :
    run expired (run expired (fun _ => none) es) es = run expired (fun _ => none) es := by
  funext k
  rw [run_apply, run_apply]
  refine foldl_again time hexpired (hsorted.filter _) (hfirst k) fun a ha b hb => ?_
  exact hearlier a (List.mem_of_mem_filter ha) b (List.mem_of_mem_filter hb)

/-! ## What a renewal is made from

A record may be made from an earlier one. A renewal that meets a record which has not run out replaces
it. When every such renewal is made from a record that is less than a term old, that took the key, and
that no renewal before was made from, it is made from the very record that it replaces. -/

section Titles

/-- The record of the key after the log. -/
def holder (expired : α → α → Bool) (es : List (Event κ α)) : Option α :=
  es.foldl (take expired) none

/-- After the log the event finds a record that has not run out. -/
def Meets (expired : α → α → Bool) (es : List (Event κ α)) (e : Event κ α) : Prop :=
  ∃ old, holder expired es = some old ∧ expired e.record old = false

/-- After the log the event takes the key. -/
def Takes (expired : α → α → Bool) (es : List (Event κ α)) (e : Event κ α) : Prop :=
  take expired (holder expired es) e = some e.record

variable (expired : α → α → Bool) (made : α → α → Prop) (term : ℕ)

/-- A renewal that meets a live record is made from records that took the key, and from none that an
earlier renewal was made from. -/
structure Honest (es : List (Event κ α)) : Prop where
  took : ∀ before p mid e after, es = before ++ p :: (mid ++ e :: after) → e.renews = true →
    Meets expired (before ++ p :: mid) e → made p.record e.record → Takes expired before p
  once : ∀ before e' mid e after, es = before ++ e' :: (mid ++ e :: after) → e'.renews = true →
    e.renews = true → Meets expired (before ++ e' :: mid) e →
    ∀ p ∈ before, made p.record e'.record → ¬ made p.record e.record

/-- A renewal that meets a live record is made from an earlier one, less than a term old. -/
def Backed (es : List (Event κ α)) : Prop :=
  ∀ before e after, es = before ++ e :: after → e.renews = true → Meets expired before e →
    ∃ p ∈ before, made p.record e.record ∧ time e.record < time p.record + term

/-- The event took the key, and no renewal has been made from its record. -/
def Title (es : List (Event κ α)) (p : Event κ α) : Prop :=
  ∃ before after, es = before ++ p :: after ∧ Takes expired before p ∧
    ∀ e ∈ after, e.renews = true → ¬ made p.record e.record

/-- Every title is the holder, or a term older than it. -/
def TitlesHeld (es : List (Event κ α)) : Prop :=
  ∀ p, Title expired made es p → ∃ old, holder expired es = some old ∧
    (old = p.record ∨ time p.record + term ≤ time old)

variable {expired made term}

theorem holder_append_singleton (es : List (Event κ α)) (e : Event κ α) :
    holder expired (es ++ [e]) = take expired (holder expired es) e := by
  rw [holder, List.foldl_append]
  rfl

theorem holder_mem {es : List (Event κ α)} {old : α} (h : holder expired es = some old) :
    ∃ e ∈ es, old = e.record := by
  induction es using List.reverseRecOn with
  | nil => cases h
  | append_singleton es e ih =>
    rw [holder_append_singleton] at h
    cases hheld : holder expired es with
    | none =>
      rw [hheld, take] at h
      split at h
      · cases h
      · cases h
        exact ⟨e, by simp, rfl⟩
    | some r =>
      rw [hheld] at h
      rcases @take_some κ α expired r e with htake | htake
      · rw [htake, Option.some.injEq] at h
        exact ⟨e, by simp, h.symm⟩
      · rw [htake, Option.some.injEq] at h
        obtain ⟨e', he', heq⟩ := ih (h ▸ hheld)
        exact ⟨e', by simp [he'], heq⟩

theorem Honest.of_append {es es' : List (Event κ α)} (h : Honest expired made (es ++ es')) :
    Honest expired made es where
  took := by
    rintro before p mid e after rfl
    exact h.took before p mid e (after ++ es') (by simp)
  once := by
    rintro before e' mid e after rfl
    exact h.once before e' mid e (after ++ es') (by simp)

theorem Backed.of_append {es es' : List (Event κ α)}
    (h : Backed time expired made term (es ++ es')) : Backed time expired made term es := by
  rintro before e after rfl
  exact h before e (after ++ es') (by simp)

/-- A claim of a free key and one event after it leave nothing to be dishonest about. -/
theorem honest_claim_renewal {e e' : Event κ α} (hclaim : e.renews = false) :
    Honest expired made [e, e'] where
  took := by
    rintro before p mid e'' after hsplit - - -
    cases before with
    | nil =>
      rw [List.nil_append, List.cons.injEq] at hsplit
      rw [Takes, ← hsplit.1, holder, List.foldl_nil, take, hclaim]
      rfl
    | cons e₁ before =>
      have hlength := congrArg List.length hsplit
      simp only [List.length_append, List.length_cons, List.length_nil] at hlength
      omega
  once := by
    rintro before e'' mid e₃ after hsplit hrenews - -
    cases before with
    | nil =>
      rw [List.nil_append, List.cons.injEq] at hsplit
      rw [← hsplit.1, hclaim] at hrenews
      cases hrenews
    | cons e₁ before =>
      have hlength := congrArg List.length hsplit
      simp only [List.length_append, List.length_cons, List.length_nil] at hlength
      omega

/-- Where the titles of a log are held, the next renewal that meets a live record is made from it. -/
theorem TitlesHeld.renewal {es : List (Event κ α)} {e : Event κ α}
    (h : TitlesHeld time expired made term es)
    (hsorted : (es ++ [e]).Pairwise fun a b => time a.record ≤ time b.record)
    (honest : Honest expired made (es ++ [e]))
    (hbacked : Backed time expired made term (es ++ [e])) (hrenews : e.renews = true)
    (hmeets : Meets expired es e) :
    ∃ old, holder expired es = some old ∧ made old e.record := by
  obtain ⟨p, hp, hmade, hrecent⟩ := hbacked es e [] rfl hrenews hmeets
  have htitle : Title expired made es p := by
    obtain ⟨before, after, rfl⟩ := List.append_of_mem hp
    refine ⟨before, after, rfl, ?_, fun e' he' hrenews' hmade' => ?_⟩
    · exact honest.took before p after e [] (by simp) hrenews hmeets hmade
    · obtain ⟨mid, rest, rfl⟩ := List.append_of_mem he'
      have hsplit : before ++ p :: (mid ++ e' :: rest) = (before ++ p :: mid) ++ e' :: rest := by
        simp
      rw [hsplit] at hmeets honest
      exact honest.once (before ++ p :: mid) e' rest e [] (by simp) hrenews' hrenews hmeets p
        (by simp) hmade' hmade
  obtain ⟨old, hheld, heq | hold⟩ := h p htitle
  · exact ⟨old, hheld, heq ▸ hmade⟩
  · -- a holder that is a term younger than `p` would be younger than the renewal
    obtain ⟨e', he', rfl⟩ := holder_mem hheld
    have hle := (List.pairwise_append.mp hsorted).2.2 e' he' e (by simp)
    omega

variable (hterm : ∀ r old, time old ≤ time r → expired r old = true → time old + term ≤ time r)

include hterm in
theorem titlesHeld {es : List (Event κ α)}
    (hsorted : es.Pairwise fun a b => time a.record ≤ time b.record)
    (honest : Honest expired made es) (hbacked : Backed time expired made term es) :
    TitlesHeld time expired made term es := by
  induction es using List.reverseRecOn with
  | nil =>
    rintro p ⟨before, after, hsplit, -⟩
    simp at hsplit
  | append_singleton es e ih =>
    have hheld := ih (List.pairwise_append.mp hsorted).1 honest.of_append hbacked.of_append
    have hrenewal := hheld.renewal time hsorted honest hbacked
    rintro p ⟨before, after, hsplit, htakes, hkept⟩
    rcases List.eq_nil_or_concat after with rfl | ⟨after, e', rfl⟩
    · -- the last event is the title
      obtain ⟨rfl, hlast⟩ := List.append_inj' hsplit rfl
      obtain rfl : e = p := List.singleton_inj.mp hlast
      exact ⟨e.record, (holder_append_singleton es e).trans htakes, .inl rfl⟩
    · -- the title is older, and the last event may replace the holder
      rw [List.concat_eq_append, ← List.cons_append, ← List.append_assoc] at hsplit
      obtain ⟨rfl, hlast⟩ := List.append_inj' hsplit rfl
      obtain rfl : e = e' := List.singleton_inj.mp hlast
      obtain ⟨old, hold, hwhich⟩ := hheld p
        ⟨before, after, rfl, htakes, fun a ha => hkept a (by simp [ha])⟩
      have hle : time old ≤ time e.record := by
        obtain ⟨a, ha, rfl⟩ := holder_mem hold
        exact (List.pairwise_append.mp hsorted).2.2 a ha e (by simp)
      rw [holder_append_singleton, hold, take]
      split
      · rename_i hreplaces
        refine ⟨e.record, rfl, .inr ?_⟩
        rcases hwhich with rfl | hterms
        · cases hexpired : expired e.record p.record with
          | true => exact hterm _ _ hle hexpired
          | false =>
            rw [hexpired, Bool.or_false] at hreplaces
            obtain ⟨old, hold', hmade⟩ := hrenewal hreplaces ⟨_, hold, hexpired⟩
            rw [hold, Option.some.injEq] at hold'
            exact absurd (hold' ▸ hmade) (hkept e (by simp) hreplaces)
        · exact Nat.le_trans hterms hle
      · exact ⟨old, rfl, hwhich⟩

include hterm in
/-- Every renewal of the log that meets a live record is made from it. -/
theorem made_from_holder {before after : List (Event κ α)} {e : Event κ α}
    (hsorted : (before ++ e :: after).Pairwise fun a b => time a.record ≤ time b.record)
    (honest : Honest expired made (before ++ e :: after))
    (hbacked : Backed time expired made term (before ++ e :: after)) (hrenews : e.renews = true)
    (hmeets : Meets expired before e) :
    ∃ old, holder expired before = some old ∧ made old e.record := by
  have hsplit : before ++ e :: after = (before ++ [e]) ++ after := by simp
  rw [hsplit] at hsorted honest hbacked
  have hsorted' := (List.pairwise_append.mp hsorted).1
  have hheld := titlesHeld time hterm (List.pairwise_append.mp hsorted').1
    honest.of_append.of_append hbacked.of_append.of_append
  exact hheld.renewal time hsorted' honest.of_append hbacked.of_append hrenews hmeets

end Titles

end Lease
