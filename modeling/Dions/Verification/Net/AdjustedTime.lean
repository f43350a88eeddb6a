import Mathlib.Data.List.Induction
import Dions.Model.Alert
import Dions.Verification.Chain.Amounts

/-! # The adjusted time

The median of the samples, of which a minority decides nothing. -/

namespace Dions

variable {samples : List ℤ}
variable {n : ℤ}

section Median

variable {xs : List ℤ} {k : ℕ} {lo hi : ℤ}

/-- Whether a sample is outside of what honest clocks show. -/
def outside (lo hi n : ℤ) : Bool := n < lo || hi < n

theorem countP_take_le (p : ℤ → Bool) (n : ℕ) (h : ∀ x ∈ xs.take n, p x = true)
    (hn : n ≤ xs.length) : n ≤ xs.countP p := by
  have hall : (xs.take n).countP p = (xs.take n).length := List.countP_eq_length.mpr h
  calc n = (xs.take n).countP p := by rw [hall, List.length_take, Nat.min_eq_left hn]
    _ ≤ xs.countP p := (List.take_sublist n xs).countP_le

theorem countP_drop_le (p : ℤ → Bool) (n : ℕ) (h : ∀ x ∈ xs.drop n, p x = true) :
    xs.length - n ≤ xs.countP p := by
  have hall : (xs.drop n).countP p = (xs.drop n).length := List.countP_eq_length.mpr h
  calc xs.length - n = (xs.drop n).countP p := by rw [hall, List.length_drop]
    _ ≤ xs.countP p := (List.drop_sublist n xs).countP_le

/-- The middle of a sorted list is where more than half of the list is. -/
theorem middle_between (hsorted : xs.Pairwise (· ≤ ·)) (hlength : xs.length = 2 * k + 1)
    (hcount : xs.countP (outside lo hi) ≤ k) {n : ℤ} (hn : xs[k]? = some n) : lo ≤ n ∧ n ≤ hi := by
  obtain ⟨hk, rfl⟩ := List.getElem?_eq_some_iff.mp hn
  have hsplit : xs.take k ++ xs[k] :: xs.drop (k + 1) = xs := by
    rw [List.getElem_cons_drop, List.take_append_drop]
  rw [← hsplit, List.pairwise_append, List.pairwise_cons] at hsorted
  obtain ⟨-, ⟨hafter, -⟩, hbefore⟩ := hsorted
  constructor
  · by_contra hlo
    have htake : ∀ x ∈ xs.take (k + 1), outside lo hi x = true := by
      intro x hx
      rw [List.take_succ_eq_append_getElem hk, List.mem_append, List.mem_singleton] at hx
      have hle : x ≤ xs[k] := hx.elim (fun hx => hbefore x hx _ List.mem_cons_self) fun hx => hx.le
      simp only [outside, Bool.or_eq_true, decide_eq_true_eq]
      omega
    have := countP_take_le _ (k + 1) htake (by omega)
    omega
  · by_contra hhi
    have hdrop : ∀ x ∈ xs.drop k, outside lo hi x = true := by
      intro x hx
      rw [List.drop_eq_getElem_cons hk, List.mem_cons] at hx
      have hle : xs[k] ≤ x := hx.elim (fun hx => hx.ge) (hafter x)
      simp only [outside, Bool.or_eq_true, decide_eq_true_eq]
      omega
    have := countP_drop_le _ k hdrop
    omega

end Median

namespace TimeData

variable {CNetAddr : Type} [DecidableEq CNetAddr]

/-- A sample comes from an address, with the time it says and the time on the clock. -/
def run (s : TimeData CNetAddr) (xs : List (CNetAddr × ℤ × ℤ)) : Option (TimeData CNetAddr) :=
  xs.foldlM (fun s x => s.AddTimeData x.1 x.2.1 x.2.2) s

def firstSamples (setKnown : List CNetAddr) : List (CNetAddr × ℤ × ℤ) → List ℤ
  | [] => []
  | x :: xs =>
    if x.1 ∈ setKnown then firstSamples setKnown xs
    else int64 (x.2.1 - x.2.2) :: firstSamples (x.1 :: setKnown) xs

/-- The middle one of the start value and of the first `2k` samples. -/
def middle (samples : List ℤ) (k : ℕ) : Option ℤ :=
  ((0 :: samples.take (2 * k)).insertionSort (· ≤ ·))[k]?

structure Sampled (samples : List ℤ) (s : TimeData CNetAddr) : Prop where
  full : s.vTimeOffsets.nSize = 200
  values : s.vTimeOffsets.vValues = (0 :: samples).drop (samples.length + 1 - 200)
  bounded : abs64 s.nTimeOffset < 70 * 60
  middle : s.nTimeOffset = 0 ∨ ∃ k ≤ 99, 2 * k ≤ samples.length ∧
    middle samples k = some s.nTimeOffset

theorem abs64_zero : abs64 0 < 70 * 60 := by decide

omit [DecidableEq CNetAddr] in
theorem Sampled.start : Sampled [] (start : TimeData CNetAddr) := ⟨rfl, rfl, abs64_zero, .inl rfl⟩

theorem middle_append {k : ℕ} (n : ℤ) (h : 2 * k ≤ samples.length) :
    TimeData.middle (samples ++ [n]) k = TimeData.middle samples k := by
  rw [TimeData.middle, List.take_append_of_le_length h, TimeData.middle]

theorem length_vSorted (f : CMedianFilter) (value : ℤ) :
    (f.input value).vSorted.length = (f.input value).vValues.length := List.length_insertionSort _ _

theorem input_values {f : CMedianFilter} (hfull : f.nSize = 200)
    (hvalues : f.vValues = (0 :: samples).drop (samples.length + 1 - 200)) (n : ℤ) :
    (f.input n).vValues = (0 :: (samples ++ [n])).drop ((samples ++ [n]).length + 1 - 200) := by
  have hlength : f.vValues.length = min (samples.length + 1) 200 := by
    rw [hvalues, List.length_drop, List.length_cons]
    omega
  rw [CMedianFilter.input, hfull, hlength]
  dsimp only
  rw [hvalues, ← List.cons_append, List.length_append, List.length_singleton]
  split
  · rename_i hmin
    have hpast : 200 ≤ samples.length + 1 := by omega
    have hdrop : samples.length + 1 - 200 + 1 = samples.length + 1 + 1 - 200 := by omega
    rw [List.drop_drop, hdrop, List.drop_append_of_le_length (by rw [List.length_cons]; omega)]
  · rename_i hmin
    have hbelow : samples.length + 1 < 200 := by omega
    rw [Nat.sub_eq_zero_of_le hbelow.le, Nat.sub_eq_zero_of_le (by omega), List.drop_zero,
      List.drop_zero]

/-- One sample: the offset is the median or nothing, and it stays once the filter is full. -/
theorem Sampled.add {s : TimeData CNetAddr} (h : Sampled samples s) {ip : CNetAddr}
    (hip : ip ∉ s.setKnown) (nTime nNow : ℤ) :
    ∃ s', s.AddTimeData ip nTime nNow = some s' ∧ s'.setKnown = ip :: s.setKnown ∧
      Sampled (samples ++ [int64 (nTime - nNow)]) s' ∧
      (199 ≤ samples.length → s'.nTimeOffset = s.nTimeOffset) := by
  generalize hn : int64 (nTime - nNow) = n
  have hvalues := input_values h.full h.values n
  have hlength : (s.vTimeOffsets.input n).vValues.length = min (samples.length + 2) 200 := by
    rw [hvalues, List.length_drop, List.length_cons, List.length_append, List.length_singleton]
    omega
  have hkeep : Sampled (samples ++ [n]) { s with
      setKnown := ip :: s.setKnown
      vTimeOffsets := s.vTimeOffsets.input n } := by
    refine ⟨h.full, hvalues, h.bounded, h.middle.imp_right ?_⟩
    rintro ⟨k, hk, hle, hmiddle⟩
    exact ⟨k, hk, by rw [List.length_append]; omega, (middle_append n hle).trans hmiddle⟩
  unfold AddTimeData
  rw [if_neg hip, hn]
  dsimp only
  split
  · rename_i hodd
    rw [CMedianFilter.size, hlength] at hodd
    obtain ⟨k, hk⟩ : ∃ k, samples.length + 1 = 2 * k := ⟨(samples.length + 1) / 2, by omega⟩
    have hmedian : (s.vTimeOffsets.input n).median = TimeData.middle (samples ++ [n]) k := by
      have hsize : (s.vTimeOffsets.input n).vSorted.length = 2 * k + 1 := by
        rw [length_vSorted, hlength]
        omega
      have hall : (s.vTimeOffsets.input n).vValues = 0 :: (samples ++ [n]).take (2 * k) := by
        rw [hvalues, List.length_append, List.length_singleton, hk,
          Nat.sub_eq_zero_of_le (by omega),
          List.drop_zero, List.take_of_length_le
            (by rw [List.length_append, List.length_singleton]; omega)]
      have hhalf : (2 * k + 1) / 2 = k := by omega
      have hsorted : (s.vTimeOffsets.input n).vSorted =
          (s.vTimeOffsets.input n).vValues.insertionSort (· ≤ ·) := rfl
      rw [CMedianFilter.median, hsize, if_pos (by omega), hhalf, hsorted, hall, TimeData.middle]
    obtain ⟨m, hm⟩ : ∃ m, TimeData.middle (samples ++ [n]) k = some m := by
      rw [TimeData.middle, List.getElem?_eq_getElem]
      · exact ⟨_, rfl⟩
      · rw [List.length_insertionSort, List.length_cons, List.length_take, List.length_append,
          List.length_singleton]
        omega
    rw [hmedian, hm, Option.map_some]
    refine ⟨_, rfl, ?_, ?_, fun hpast => by omega⟩
    · unfold adjust
      split <;> rfl
    · unfold adjust
      split
      · rename_i hbounded
        exact ⟨h.full, hvalues, hbounded, .inr ⟨k, by omega, by
          rw [List.length_append, List.length_singleton]; omega, hm⟩⟩
      · exact ⟨h.full, hvalues, abs64_zero, .inl rfl⟩
  · exact ⟨_, rfl, rfl, hkeep, fun _ => rfl⟩

theorem Sampled.run {samples : List ℤ} {s : TimeData CNetAddr} (h : Sampled samples s)
    (xs : List (CNetAddr × ℤ × ℤ)) :
    ∃ s', s.run xs = some s' ∧ Sampled (samples ++ firstSamples s.setKnown xs) s' ∧
      (199 ≤ samples.length → s'.nTimeOffset = s.nTimeOffset) := by
  induction xs generalizing samples s with
  | nil => exact ⟨s, rfl, by rwa [firstSamples, List.append_nil], fun _ => rfl⟩
  | cons x xs ih =>
    unfold TimeData.run
    rw [List.foldlM_cons, firstSamples]
    split
    · rename_i hin
      have hsame : s.AddTimeData x.1 x.2.1 x.2.2 = some s := by
        unfold AddTimeData
        exact if_pos hin
      rw [hsame]
      exact ih h
    · rename_i hnew
      obtain ⟨s₁, hadd, hknown, hsampled, hstays⟩ := h.add hnew x.2.1 x.2.2
      obtain ⟨s', hrun, hsampled', hstays'⟩ := ih hsampled
      rw [hadd]
      rw [hknown, List.append_assoc] at hsampled'
      refine ⟨s', hrun, hsampled', fun hpast => ?_⟩
      rw [hstays' (by rw [List.length_append]; omega), hstays hpast]

/-- Where of the first `2k` samples never more than half are wrong, the middle one is not. -/
theorem middle_honest {k : ℕ} {lo hi : ℤ} (hlo : lo ≤ 0) (hhi : 0 ≤ hi)
    (hle : 2 * k ≤ samples.length) (hfew : (samples.take (2 * k)).countP (outside lo hi) ≤ k)
    (hn : middle samples k = some n) : lo ≤ n ∧ n ≤ hi := by
  refine middle_between (List.pairwise_insertionSort (· ≤ ·) _) ?_ ?_ hn
  · rw [List.length_insertionSort, List.length_cons, List.length_take, Nat.min_eq_left hle]
  · rw [(List.perm_insertionSort (· ≤ ·) _).countP_eq, List.countP_cons]
    have hzero : outside lo hi 0 = false := by
      simp [outside, hlo, hhi]
    rw [hzero]
    simpa using hfew

theorem fits64_of_mem_firstSamples {setKnown : List CNetAddr} {xs : List (CNetAddr × ℤ × ℤ)}
    (h : n ∈ firstSamples setKnown xs) : Fits64 n := by
  induction xs generalizing setKnown with
  | nil => cases h
  | cons x xs ih =>
    unfold firstSamples at h
    split at h
    · exact ih h
    · rcases List.mem_cons.mp h with rfl | h
      · exact fits64_int64 _
      · exact ih h

omit [DecidableEq CNetAddr] in
theorem Sampled.fits64 {s : TimeData CNetAddr} (h : Sampled samples s)
    (hsamples : ∀ n ∈ samples, Fits64 n) : Fits64 s.nTimeOffset := by
  have hzero : Fits64 0 := ⟨by decide, by decide⟩
  rcases h.middle with hstart | ⟨k, -, -, hmiddle⟩
  · rwa [hstart]
  · have hmem := (List.perm_insertionSort (· ≤ ·) _).mem_iff.mp (List.mem_of_getElem? hmiddle)
    rcases List.mem_cons.mp hmem with hstart | hin
    · rwa [hstart]
    · exact hsamples _ (List.mem_of_mem_take hin)

/-- Of the numbers of 64 bits only the least one has no absolute value. -/
theorem lt_of_abs64_lt (hfits : Fits64 n) (h : abs64 n < 70 * 60) :
    |n| < 70 * 60 ∨ n = -2 ^ 63 := by
  unfold abs64 at h
  split at h
  · exact .inl (abs_lt.mpr ⟨by omega, h⟩)
  · rcases hfits.1.eq_or_lt with heq | hlt
    · exact .inr heq.symm
    · have hneg : Fits64 (-n) := ⟨by have := hfits.2; omega, by omega⟩
      rw [hneg.int64_eq] at h
      exact .inl (abs_lt.mpr ⟨by omega, by omega⟩)

/-- The clock of a node is never moved by 70 minutes or more, unless a peer says a time that no
clock shows. Peers that lie do not move it out of what the others say while no more than half of
the samples are theirs, and with the sample of the 199th address it stands still for good. -/
theorem adjusted_time_bounded (xs : List (CNetAddr × ℤ × ℤ)) (lo hi : ℤ) (hlo : lo ≤ 0)
    (hhi : 0 ≤ hi) :
    ∃ s, (start : TimeData CNetAddr).run xs = some s ∧
      (|s.nTimeOffset| < 70 * 60 ∨ s.nTimeOffset = -2 ^ 63) ∧
      ((∀ k ≤ 99, ((firstSamples [] xs).take (2 * k)).countP (outside lo hi) ≤ k) →
        lo ≤ s.nTimeOffset ∧ s.nTimeOffset ≤ hi) ∧
      (199 ≤ (firstSamples [] xs).length →
        ∀ ys, ∃ s', (start : TimeData CNetAddr).run (xs ++ ys) = some s' ∧
          s'.nTimeOffset = s.nTimeOffset) := by
  obtain ⟨s, hrun, hsampled, -⟩ := (Sampled.start : Sampled [] (start : TimeData CNetAddr)).run xs
  rw [List.nil_append] at hsampled
  have hfits := hsampled.fits64 fun n hn => fits64_of_mem_firstSamples hn
  refine ⟨s, hrun, lt_of_abs64_lt hfits hsampled.bounded, fun hfew => ?_, fun hpast ys => ?_⟩
  · rcases hsampled.middle with hzero | ⟨k, hk, hle, hmiddle⟩
    · rw [hzero]
      exact ⟨hlo, hhi⟩
    · exact middle_honest hlo hhi hle (hfew k hk) hmiddle
  · obtain ⟨s', hrun', -, hstays⟩ := hsampled.run ys
    refine ⟨s', ?_, hstays hpast⟩
    unfold TimeData.run at hrun hrun' ⊢
    rw [List.foldlM_append, hrun]
    exact hrun'

end TimeData

namespace Scenario

/-- Five addresses, one of which lies, and one of which speaks twice. -/
def heardTimes : List (ℕ × ℤ × ℤ) :=
  [(1, 103, 100), (2, 9000, 100), (1, 9000, 100), (3, 98, 100), (4, 105, 100)]

theorem adjusted_time_bounded_heard : ∃ s, (TimeData.start : TimeData ℕ).run heardTimes = some s ∧
    -2 ≤ s.nTimeOffset ∧ s.nTimeOffset ≤ 5 := by
  obtain ⟨s, hrun, -, hhonest, -⟩ :=
    TimeData.adjusted_time_bounded heardTimes (-2) 5 (by decide) (by decide)
  exact ⟨s, hrun, hhonest (by decide)⟩

end Scenario

end Dions
