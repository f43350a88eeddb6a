import Mathlib.Data.List.Basic

/-! # Frames in a stream

A frame is a header of a fixed length and a body whose length the header tells. What has come of a
stream decides which frames are in it; how it was cut into pieces on the way does not. -/

universe u

/-- How frames are told apart; a header may be refused. -/
structure Framing (σ : Type u) where
  headerLen : ℕ
  headerLen_pos : 0 < headerLen
  bodyLen : List σ → Option ℕ

namespace Framing

variable {σ : Type u}

/-- A header with the body that it announces. -/
@[ext] structure Frame (F : Framing σ) where
  header : List σ
  body : List σ
  header_length : header.length = F.headerLen
  bodyLen_header : F.bodyLen header = some body.length

/-- The frame as it lies in the stream. -/
def Frame.symbols {F : Framing σ} (f : F.Frame) : List σ := f.header ++ f.body

/-- What the front of a stream turns out to be. -/
inductive Front (F : Framing σ) where
  | within
  | refused
  | frame (f : F.Frame) (rest : List σ)

/-- How a stream ends: with a part of a frame, or at a header that is refused. -/
inductive Ending (σ : Type u) where
  | within (part : List σ)
  | refused

variable (F : Framing σ)

def front (s : List σ) : F.Front :=
  if hlen : s.length < F.headerLen then .within
  else
    match hbody : F.bodyLen (s.take F.headerLen) with
    | none => .refused
    | some n =>
      if hn : s.length < F.headerLen + n then .within
      else
        .frame
          { header := s.take F.headerLen
            body := (s.drop F.headerLen).take n
            header_length := by rw [List.length_take]; omega
            bodyLen_header := by rw [hbody, List.length_take, List.length_drop]; congr 1; omega }
          (s.drop (F.headerLen + n))

variable {F}

theorem length_symbols (f : F.Frame) : f.symbols.length = F.headerLen + f.body.length := by
  rw [Frame.symbols, List.length_append, f.header_length]

theorem take_symbols (f : F.Frame) (s : List σ) :
    (f.symbols ++ s).take F.headerLen = f.header := by
  rw [Frame.symbols, List.append_assoc, ← f.header_length, List.take_left]

theorem front_within {s : List σ} (h : s.length < F.headerLen ∨
    ∃ n, F.bodyLen (s.take F.headerLen) = some n ∧ s.length < F.headerLen + n) :
    F.front s = .within := by
  unfold front
  split
  · rfl
  next hlen =>
    cases h with
    | inl h => exact absurd h hlen
    | inr h =>
      obtain ⟨n, hbody, hn⟩ := h
      split
      next hnone => rw [hbody] at hnone; cases hnone
      next m hsome =>
        rw [hbody] at hsome
        cases hsome
        rw [dif_pos hn]

theorem front_refused {s : List σ} (hlen : F.headerLen ≤ s.length)
    (hbody : F.bodyLen (s.take F.headerLen) = none) : F.front s = .refused := by
  unfold front
  rw [dif_neg (by omega)]
  split
  · rfl
  next n hsome => rw [hbody] at hsome; cases hsome

theorem front_frame (f : F.Frame) (s : List σ) : F.front (f.symbols ++ s) = .frame f s := by
  have hlen : (f.symbols ++ s).length = F.headerLen + f.body.length + s.length := by
    rw [List.length_append, length_symbols]
  have hbodyLen : F.bodyLen ((f.symbols ++ s).take F.headerLen) = some f.body.length := by
    rw [take_symbols, f.bodyLen_header]
  unfold front
  rw [dif_neg (by omega)]
  split
  next hnone => rw [hbodyLen] at hnone; cases hnone
  next n hsome =>
    rw [hbodyLen] at hsome
    cases hsome
    rw [dif_neg (by omega)]
    have hdrop : (f.symbols ++ s).drop F.headerLen = f.body ++ s := by
      rw [Frame.symbols, List.append_assoc, ← f.header_length, List.drop_left]
    have hrest : (f.symbols ++ s).drop (F.headerLen + f.body.length) = s := by
      rw [← List.drop_drop, hdrop, List.drop_left]
    congr 1
    ext1
    · exact take_symbols f s
    · change ((f.symbols ++ s).drop F.headerLen).take f.body.length = f.body
      rw [hdrop, List.take_left]

theorem length_of_front {s rest : List σ} {f : F.Frame} (h : F.front s = .frame f rest) :
    rest.length < s.length := by
  have hpos := F.headerLen_pos
  unfold front at h
  split at h
  · cases h
  next hlen =>
    split at h
    · cases h
    · split at h
      · cases h
      · injection h with _ hrest
        rw [← hrest, List.length_drop]
        omega

variable (F) in
/-- The frames of a stream, and how it ends behind them. -/
def decode (s : List σ) : List F.Frame × Ending σ :=
  match _hfront : F.front s with
  | .within => ([], .within s)
  | .refused => ([], .refused)
  | .frame f rest => (f :: (decode rest).1, (decode rest).2)
termination_by s.length
decreasing_by all_goals exact length_of_front _hfront

theorem decode_within {s : List σ} (h : F.front s = .within) : F.decode s = ([], .within s) := by
  rw [decode]
  split
  · rfl
  · simp_all
  · simp_all

theorem decode_refused {s : List σ} (h : F.front s = .refused) : F.decode s = ([], .refused) := by
  rw [decode]
  split
  · simp_all
  · rfl
  · simp_all

theorem decode_frame (f : F.Frame) (s : List σ) :
    F.decode (f.symbols ++ s) = (f :: (F.decode s).1, (F.decode s).2) := by
  rw [decode]
  split
  next h => rw [front_frame] at h; cases h
  next h => rw [front_frame] at h; cases h
  next f' rest h =>
    rw [front_frame] at h
    cases h
    rfl

/-- Frames that were joined are found again. -/
theorem decode_frames (fs : List F.Frame) (s : List σ) :
    F.decode (fs.flatMap Frame.symbols ++ s) = (fs ++ (F.decode s).1, (F.decode s).2) := by
  induction fs with
  | nil => rfl
  | cons f fs ih =>
    rw [List.flatMap_cons, List.append_assoc, decode_frame, ih]
    rfl

/-- Less than a frame is only a part of one. -/
theorem front_part {f : F.Frame} {s rest : List σ} (h : s ++ rest = f.symbols)
    (hrest : rest ≠ []) : F.front s = .within := by
  have hpos := List.length_pos_iff.mpr hrest
  have hlen : s.length + rest.length = F.headerLen + f.body.length := by
    rw [← List.length_append, h, length_symbols]
  apply front_within
  by_cases hs : s.length < F.headerLen
  · exact .inl hs
  · have htake : s.take F.headerLen = f.header := by
      rw [← take_symbols f [], List.append_nil, ← h, List.take_append_of_le_length (by omega)]
    exact .inr ⟨f.body.length, by rw [htake, f.bodyLen_header], by omega⟩

end Framing
