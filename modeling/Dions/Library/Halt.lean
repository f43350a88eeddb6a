import Mathlib.Data.List.Basic
import Mathlib.Logic.Function.Basic

/-! # Computations that may stop early

A call of an imperative program ends by returning its value, by reporting failure, by
raising an exception, by reading past the end of a vector of untrusted length, or in another
state that has no defined meaning.
`Exec` keeps the reason of an early stop, `Halt` also the state reached by then. -/

namespace Halting

variable {k : ℕ}
variable {c : Prop}

inductive Stop where
  | reject
  | raised
  | outOfRange
  | undefined
  deriving DecidableEq, Repr

variable {e stop : Stop}

abbrev Exec (α : Type) := Except Stop α

abbrev Halt (σ α : Type) := Except (Stop × σ) α

/-- Run a computation that leaves the state alone inside one that carries it. -/
def Exec.within {σ α : Type} (s : σ) : Exec α → Halt σ α
  | .ok a => .ok a
  | .error e => .error (e, s)

/-- The state after a call whose `false` the caller does not look at; an exception passes on. -/
def Halt.attempt {σ : Type} : Halt σ σ → Halt σ σ
  | .ok s => .ok s
  | .error (.reject, s) => .ok s
  | .error (e, s) => .error (e, s)

/-- One round of a loop that `break`s when the call reports failure; an exception passes on. -/
def Halt.orBreak {σ : Type} (x : Halt σ σ) (next : σ → Halt σ σ) : Halt σ σ :=
  match x with
  | .ok s => next s
  | .error (.reject, s) => .ok s
  | .error (e, s) => .error (e, s)

/-- The state a call leaves behind, however it ended. -/
def Halt.final {σ : Type} : Halt σ σ → σ
  | .ok s => s
  | .error (_, s) => s

/-- The state a call leaves behind, when its value keeps the state in a part. -/
def Halt.left {σ α : Type} (part : α → σ) : Halt σ α → σ
  | .ok a => part a
  | .error (_, s) => s

/-- Run a computation on a part of the state. -/
def Halt.lift {σ τ α : Type} (put : τ → σ) : Halt τ α → Halt σ α
  | .ok a => .ok a
  | .error (e, t) => .error (e, put t)

/-- `return false` unless the condition holds. -/
def require (c : Prop) [Decidable c] : Exec Unit :=
  if c then .ok () else .error .reject

/-- The element a vector access reads; past the end there is none. -/
def read {α : Type} (xs : List α) (k : ℕ) : Exec α :=
  match xs[k]? with
  | some x => .ok x
  | none => .error .outOfRange

/-- The element of a vector whose length the caller answers for. -/
def access {α : Type} (xs : List α) (k : ℕ) : Exec α :=
  match xs[k]? with
  | some x => .ok x
  | none => .error .undefined

/-! ## Inversion -/

theorem seq_ok {ε α β : Type} {first : Except ε α} {next : α → Except ε β} {b : β} :
    first >>= next = .ok b ↔ ∃ a, first = .ok a ∧ next a = .ok b := by
  rcases first with e | a <;> simp [bind, Except.bind]

/-- A sequence stops in its first half, or in its second after the first succeeded. -/
theorem seq_error {ε α β : Type} {first : Except ε α} {next : α → Except ε β} {e : ε} :
    first >>= next = .error e ↔
      first = .error e ∨ ∃ a, first = .ok a ∧ next a = .error e := by
  rcases first with e' | a <;> simp [bind, Except.bind]

theorem map_eq_ok {ε α β : Type} {x : Except ε α} {f : α → β} {b : β} :
    x.map f = .ok b ↔ ∃ a, x = .ok a ∧ f a = b := by
  rcases x with e | a <;> simp [Except.map]

@[simp] theorem require_eq_ok [Decidable c] {u : Unit} : require c = .ok u ↔ c := by
  unfold require
  split <;> simp_all

@[simp] theorem require_eq_error [Decidable c] {e : Stop} :
    require c = .error e ↔ ¬ c ∧ e = .reject := by
  unfold require
  split <;> simp_all [eq_comm]

@[simp] theorem read_eq_ok {α : Type} {xs : List α} {x : α} :
    read xs k = .ok x ↔ xs[k]? = some x := by
  unfold read
  split <;> simp_all

@[simp] theorem read_eq_error {α : Type} {xs : List α} :
    read xs k = .error e ↔ xs.length ≤ k ∧ e = .outOfRange := by
  unfold read
  split
  · rename_i x h
    have hk : k < xs.length := (List.getElem?_eq_some_iff.mp h).1
    simp [Nat.not_le.mpr hk]
  · rename_i h
    simp [List.getElem?_eq_none_iff.mp h, eq_comm]

@[simp] theorem access_eq_ok {α : Type} {xs : List α} {x : α} :
    access xs k = .ok x ↔ xs[k]? = some x := by
  unfold access
  split <;> simp_all

@[simp] theorem access_eq_error {α : Type} {xs : List α} :
    access xs k = .error e ↔ xs.length ≤ k ∧ e = .undefined := by
  unfold access
  split
  · rename_i x h
    have hk : k < xs.length := (List.getElem?_eq_some_iff.mp h).1
    simp [Nat.not_le.mpr hk]
  · rename_i h
    simp [List.getElem?_eq_none_iff.mp h, eq_comm]

@[simp] theorem within_eq_ok {σ α : Type} {s : σ} {x : Exec α} {a : α} :
    x.within s = .ok a ↔ x = .ok a := by
  cases x <;> simp [Exec.within]

@[simp] theorem within_eq_error {σ α : Type} {s s' : σ} {x : Exec α} :
    x.within s = .error (e, s') ↔ x = .error e ∧ s = s' := by
  cases x <;> simp [Exec.within]

@[simp] theorem lift_eq_ok {σ τ α : Type} {put : τ → σ} {x : Halt τ α} {a : α} :
    x.lift put = .ok a ↔ x = .ok a := by
  rcases x with ⟨e, t⟩ | b <;> simp [Halt.lift]

@[simp] theorem attempt_eq_ok {σ : Type} {x : Halt σ σ} {s : σ} :
    x.attempt = .ok s ↔ x = .ok s ∨ x = .error (.reject, s) := by
  rcases x with ⟨_ | _ | _ | _, t⟩ | b <;> simp [Halt.attempt]

/-! ## Avoiding a kind of stop -/

/-- The computation does not stop for the given reason. -/
def Exec.Avoids {α : Type} (stop : Stop) (x : Exec α) : Prop := x ≠ .error stop

/-- The computation does not stop for the given reason, whatever state it has reached. -/
def Halt.Avoids {σ α : Type} (stop : Stop) (x : Halt σ α) : Prop := ∀ s, x ≠ .error (stop, s)

/-- It does not read past the end of a vector. -/
abbrev Exec.Safe {α : Type} (x : Exec α) : Prop := x.Avoids .outOfRange

/-- It does not read past the end of a vector. -/
abbrev Halt.Safe {σ α : Type} (x : Halt σ α) : Prop := x.Avoids .outOfRange

@[simp] theorem Exec.avoids_ok {α : Type} (a : α) : Exec.Avoids stop (.ok a : Exec α) := by
  simp [Exec.Avoids]

@[simp] theorem Exec.avoids_error {α : Type} : Exec.Avoids stop (.error e : Exec α) ↔ e ≠ stop := by
  simp [Exec.Avoids]

@[simp] theorem Halt.avoids_ok {σ α : Type} (a : α) : Halt.Avoids stop (.ok a : Halt σ α) := by
  simp [Halt.Avoids]

@[simp] theorem Halt.avoids_error {σ α : Type} {s : σ} :
    Halt.Avoids stop (.error (e, s) : Halt σ α) ↔ e ≠ stop := by
  constructor
  · rintro h rfl
    exact h s rfl
  · intro he s' heq
    exact he (Prod.mk.inj (Except.error.inj heq)).1

theorem Exec.avoids_seq {α β : Type} {first : Exec α} {next : α → Exec β} :
    Exec.Avoids stop (first >>= next) ↔
      first.Avoids stop ∧ ∀ a, first = .ok a → (next a).Avoids stop := by
  rcases first with e | a <;> simp [Exec.Avoids, bind, Except.bind]

theorem Halt.avoids_seq {σ α β : Type} {first : Halt σ α} {next : α → Halt σ β} :
    Halt.Avoids stop (first >>= next) ↔
      first.Avoids stop ∧ ∀ a, first = .ok a → (next a).Avoids stop := by
  rcases first with e | a <;> simp [Halt.Avoids, bind, Except.bind]

@[simp] theorem Halt.avoids_within {σ α : Type} {s : σ} {x : Exec α} :
    Halt.Avoids stop (x.within s) ↔ x.Avoids stop := by
  cases x <;> simp [Exec.within]

@[simp] theorem Halt.avoids_lift {σ τ α : Type} {put : τ → σ} {x : Halt τ α} :
    Halt.Avoids stop (x.lift put) ↔ x.Avoids stop := by
  rcases x with ⟨e, t⟩ | a <;> simp [Halt.lift]

@[simp] theorem Halt.avoids_attempt {σ : Type} {x : Halt σ σ} :
    Halt.Avoids .reject x.attempt := by
  rcases x with ⟨_ | _ | _ | _, t⟩ | a <;> simp [Halt.attempt]

@[simp] theorem Exec.avoids_require [Decidable c] {stop : Stop} :
    (require c).Avoids stop ↔ (stop = .reject → c) := by
  simp only [Exec.Avoids, ne_eq, require_eq_error, not_and]
  constructor
  · intro h hstop
    by_contra hc
    exact h hc hstop
  · intro h hc hstop
    exact hc (h hstop)

@[simp] theorem Exec.avoids_read {α : Type} {xs : List α} :
    (read xs k).Avoids stop ↔ (stop = .outOfRange → k < xs.length) := by
  simp only [Exec.Avoids, ne_eq, read_eq_error, not_and]
  constructor
  · intro h hstop
    exact Nat.lt_of_not_le fun hle => h hle hstop
  · intro h hle hstop
    exact absurd (h hstop) (Nat.not_lt.mpr hle)

@[simp] theorem Exec.avoids_access {α : Type} {xs : List α} :
    (access xs k).Avoids stop ↔ (stop = .undefined → k < xs.length) := by
  simp only [Exec.Avoids, ne_eq, access_eq_error, not_and]
  constructor
  · intro h hstop
    exact Nat.lt_of_not_le fun hle => h hle hstop
  · intro h hle hstop
    exact absurd (h hstop) (Nat.not_lt.mpr hle)

@[simp] theorem Exec.safe_require [Decidable c] : (require c).Safe := by
  simp

@[simp] theorem Exec.safe_read {α : Type} {xs : List α} : (read xs k).Safe ↔ k < xs.length := by
  simp

@[simp] theorem Exec.safe_access {α : Type} {xs : List α} : (access xs k).Safe := by
  simp

theorem Halt.avoids_foldlM {σ α : Type} {f : σ → α → Halt σ σ} (hf : ∀ s a, (f s a).Avoids stop)
    (xs : List α) (s : σ) : Halt.Avoids stop (xs.foldlM f s) := by
  induction xs generalizing s with
  | nil => exact Halt.avoids_ok s
  | cons x xs ih =>
      rw [List.foldlM_cons, Halt.avoids_seq]
      exact ⟨hf s x, fun s' _ => ih s'⟩

/-! ## The state a call leaves -/

@[simp] theorem Halt.final_ok {σ : Type} (s : σ) : Halt.final (.ok s) = s := rfl

@[simp] theorem Halt.final_error {σ : Type} (e : Stop) (s : σ) :
    Halt.final (.error (e, s)) = s := rfl

@[simp] theorem Halt.final_attempt {σ : Type} (x : Halt σ σ) : x.attempt.final = x.final := by
  rcases x with ⟨_ | _ | _ | _, t⟩ | a <;> rfl

theorem Halt.final_seq {σ : Type} {R : σ → σ → Prop} (htrans : ∀ a b c, R a b → R b c → R a c)
    {s : σ} {first : Halt σ σ} {next : σ → Halt σ σ} (hfirst : R s first.final)
    (hnext : ∀ s', first = .ok s' → R s' (next s').final) : R s (first >>= next).final := by
  rcases first with ⟨e, t⟩ | a
  · exact hfirst
  · exact htrans _ _ _ hfirst (hnext a rfl)

/-- A computation that leaves the state alone comes first. -/
theorem Halt.final_within_seq {σ α : Type} {P : σ → Prop} {s : σ} {x : Exec α}
    {next : α → Halt σ σ} (hs : P s) (hnext : ∀ a, x = .ok a → P (next a).final) :
    P (Halt.final (x.within s >>= next)) := by
  cases x with
  | error e => exact hs
  | ok a => exact hnext a rfl

theorem Halt.final_foldlM {σ α : Type} {R : σ → σ → Prop} (hrefl : ∀ a, R a a)
    (htrans : ∀ a b c, R a b → R b c → R a c) {f : σ → α → Halt σ σ}
    (hf : ∀ s a, R s (f s a).final) (xs : List α) (s : σ) : R s (xs.foldlM f s).final := by
  induction xs generalizing s with
  | nil => exact hrefl s
  | cons x xs ih =>
      rw [List.foldlM_cons]
      exact Halt.final_seq htrans (hf s x) fun s' _ => ih s'

/-- A loop runs through when each of its rounds does, as long as `P` holds. -/
theorem Halt.foldlM_ok {σ α : Type} {P : σ → Prop} {f : σ → α → Halt σ σ}
    (hf : ∀ s a, P s → ∃ s', f s a = .ok s' ∧ P s') (xs : List α) (s : σ) (hs : P s) :
    ∃ s', xs.foldlM f s = .ok s' ∧ P s' := by
  induction xs generalizing s with
  | nil => exact ⟨s, rfl, hs⟩
  | cons x xs ih =>
      obtain ⟨mid, hmid, hP⟩ := hf s x hs
      rw [List.foldlM_cons, hmid]
      exact ih mid hP

/-- A loop whose rounds only go up, and that ends where it began, has stood still in every round. -/
theorem Halt.foldlM_still {σ α : Type} {R : σ → σ → Prop} (hrefl : ∀ a, R a a)
    (htrans : ∀ a b c, R a b → R b c → R a c) (hanti : ∀ a b, R a b → R b a → b = a)
    {f : σ → α → Halt σ σ} (hf : ∀ s a, R s (f s a).final) {xs : List α} {s : σ}
    (h : xs.foldlM f s = .ok s) : ∀ x ∈ xs, f s x = .ok s := by
  induction xs with
  | nil => simp
  | cons x xs ih =>
      rw [List.foldlM_cons] at h
      obtain ⟨mid, hstep, hrest⟩ := seq_ok.mp h
      have hup := hf s x
      have hdown := Halt.final_foldlM hrefl htrans hf xs mid
      rw [hstep] at hup
      rw [hrest] at hdown
      have hstill : mid = s := hanti s mid hup hdown
      subst hstill
      exact List.forall_mem_cons.mpr ⟨hstep, ih hrest⟩

/-- Every round of a loop meets `P`, up to the one that stops. -/
def Halt.Along {σ α : Type} (f : σ → α → Halt σ σ) (P : σ → α → Prop) : List α → σ → Prop
  | [], _ => True
  | x :: xs, s => P s x ∧ ∀ s', f s x = .ok s' → Halt.Along f P xs s'

/-- What each round that meets `P` keeps, a loop keeps that runs through with all of them doing so. -/
theorem Halt.ok_along {σ α : Type} {f : σ → α → Halt σ σ} {P : σ → α → Prop} {Q : σ → Prop}
    (hf : ∀ s a s', Q s → P s a → f s a = .ok s' → Q s') {xs : List α} {s s' : σ} (hs : Q s)
    (hP : Halt.Along f P xs s) (hrun : xs.foldlM f s = .ok s') : Q s' := by
  induction xs generalizing s with
  | nil =>
      cases hrun
      exact hs
  | cons x xs ih =>
      obtain ⟨hx, hrest⟩ := hP
      rw [List.foldlM_cons] at hrun
      obtain ⟨mid, hstep, hrun⟩ := seq_ok.mp hrun
      exact ih (hf s x mid hs hx hstep) (hrest mid hstep) hrun

@[simp] theorem Halt.left_ok {σ α : Type} (part : α → σ) (a : α) :
    Halt.left part (.ok a) = part a := rfl

@[simp] theorem Halt.left_error {σ α : Type} (part : α → σ) (e : Stop) (s : σ) :
    Halt.left part (.error (e, s)) = s := rfl

end Halting
