import Dions.Model.DataStream

/-! # What a byte stream shows

What lies between `begin()` and `end()` changes as a list does under the same operation, wherever the
read position stays below `2 ^ 32`. A stream that is written into another one gives the bytes that
have been read from it again. -/

namespace Dions

open Halting

variable {nSize : ℤ} {it : ℕ}

/-! ## Operations on lists -/

namespace ByteQueue

def read (nSize : ℤ) (q : List UInt8) : Exec (List UInt8 × List UInt8) :=
  if nSize < 0 then .error .undefined
  else if q.length < nSize.toNat then .error .raised
  else .ok (q.take nSize.toNat, q.drop nSize.toNat)

def ignore (nSize : ℤ) (q : List UInt8) : Exec (List UInt8) :=
  if nSize < 0 then .error .undefined
  else if q.length < nSize.toNat then .error .raised
  else .ok (q.drop nSize.toNat)

def write (q pch : List UInt8) (nSize : ℤ) : Exec (List UInt8) :=
  if nSize < 0 ∨ pch.length < nSize.toNat then .error .undefined else .ok (q ++ pch.take nSize.toNat)

end ByteQueue

namespace CDataStream

variable (s : CDataStream)

/-! ## The visible contents -/

@[simp] theorem length_visible : s.visible.length = s.size := List.length_drop

@[simp] theorem visible_Init (vch : List UInt8) : (Init vch).visible = vch := rfl

@[simp] theorem visible_clear : s.clear.visible = [] := rfl

/-- The position that lies `n` bytes further on is the right one where it does not wrap. -/
theorem visible_seek_iff {n : ℕ} (hsize : n ≤ s.size) (inside : (s.nReadPos + n) % 2 ^ 32 ≤ s.vch.length)
    (small : (s.nReadPos + n) % 2 ^ 32 < 2 ^ 32) :
    s.nReadPos + n < 2 ^ 32 ↔ (s.seek _ inside small).visible = s.visible.drop n := by
  have hinside := s.inside
  have hseek : (s.seek _ inside small).visible = s.vch.drop ((s.nReadPos + n) % 2 ^ 32) := rfl
  rw [hseek, visible, List.drop_drop]
  refine ⟨fun hfits => by rw [Nat.mod_eq_of_lt hfits], fun heq => ?_⟩
  have hlength := congrArg List.length heq
  rw [List.length_drop, List.length_drop] at hlength
  rw [size] at hsize
  omega

theorem visible_pushBack (bytes : List UInt8) : (s.pushBack bytes).visible = s.visible ++ bytes :=
  List.drop_append_of_le_length s.inside

/-- In the buffer an iterator lies behind the bytes that have been read. -/
theorem drop_take_vch (it : ℕ) : (s.vch.take (s.nReadPos + it)).drop s.nReadPos = s.visible.take it := by
  rw [visible, List.drop_take, Nat.add_sub_cancel_left]

theorem visible_insertVch (it : ℕ) (bytes : List UInt8) :
    (s.insertVch it bytes).visible = s.visible.take it ++ bytes ++ s.visible.drop it := by
  have hinside := s.inside
  have hlen : s.nReadPos ≤ (s.vch.take (s.nReadPos + it)).length := by
    rw [List.length_take]
    omega
  calc (s.insertVch it bytes).visible
      = (s.vch.take (s.nReadPos + it) ++ (bytes ++ s.vch.drop (s.nReadPos + it))).drop s.nReadPos := by
        rw [← List.append_assoc]
        rfl
    _ = s.visible.take it ++ (bytes ++ s.vch.drop (s.nReadPos + it)) := by
        rw [List.drop_append_of_le_length hlen, drop_take_vch]
    _ = s.visible.take it ++ bytes ++ s.visible.drop it := by
        rw [visible, List.drop_drop, List.append_assoc]

theorem visible_eraseVch (first last : ℕ) :
    (s.eraseVch first last).visible = s.visible.take first ++ s.visible.drop last := by
  have hinside := s.inside
  have hlen : s.nReadPos ≤ (s.vch.take (s.nReadPos + first)).length := by
    rw [List.length_take]
    omega
  calc (s.eraseVch first last).visible
      = (s.vch.take (s.nReadPos + first) ++ s.vch.drop (s.nReadPos + last)).drop s.nReadPos := rfl
    _ = s.visible.take first ++ s.vch.drop (s.nReadPos + last) := by
        rw [List.drop_append_of_le_length hlen, drop_take_vch]
    _ = s.visible.take first ++ s.visible.drop last := by rw [visible, List.drop_drop]

/-! ## Reading -/

/-- A read past the end is an exception. -/
def Throws : Prop := s.exceptmask = badbit ||| failbit

variable {s}

theorem Throws.setstate (h : s.Throws) :
    ∃ s', s.setstate failbit = .error (.raised, s') ∧ s'.visible = s.visible := by
  have hset : (s.state ||| failbit) &&& s.exceptmask ≠ 0 := by
    rw [h, Nat.and_or_distrib_right, ne_eq, Nat.or_eq_zero_iff]
    exact fun hzero => absurd hzero.2 (by decide)
  refine ⟨{ s with state := s.state ||| failbit }, ?_, rfl⟩
  rw [CDataStream.setstate]
  exact if_pos hset

/-- The read position that `nSize` bytes lead to fits in its type. -/
def ReadFits (s : CDataStream) (nSize : ℤ) : Prop := s.nReadPos + nSize.toNat < 2 ^ 32

/-- What a read or an `ignore` that succeeds has done to the stream. -/
structure Advanced (s : CDataStream) (nSize : ℤ) (s' : CDataStream) : Prop where
  fits : s.ReadFits nSize → s'.visible = s.visible.drop nSize.toNat
  wraps : ¬ s.ReadFits nSize → s'.vch = s.vch
  throws : s'.Throws

theorem Advanced.clear (h : s.Throws) {nSize : ℤ} (hsize : nSize.toNat ≤ s.size)
    (hend : s.vch.length = (s.nReadPos + nSize.toNat) % 2 ^ 32) : s.Advanced nSize s.clear where
  fits hfits := by
    have hinside := s.inside
    rw [Nat.mod_eq_of_lt hfits] at hend
    rw [visible_clear, List.drop_eq_nil_of_le]
    rw [length_visible, size]
    omega
  wraps hwraps := by
    have hinside := s.inside
    have hlt : (s.nReadPos + nSize.toNat) % 2 ^ 32 < 2 ^ 32 := Nat.mod_lt _ (Nat.two_pow_pos 32)
    rw [ReadFits] at hwraps
    rw [size] at hsize
    omega
  throws := h

theorem Advanced.seek (h : s.Throws) {nSize : ℤ} (inside : (s.nReadPos + nSize.toNat) % 2 ^ 32 ≤ s.vch.length)
    (small : (s.nReadPos + nSize.toNat) % 2 ^ 32 < 2 ^ 32) : s.Advanced nSize (s.seek _ inside small) where
  fits hfits := by
    have hnext := Nat.mod_eq_of_lt hfits
    rw [visible, visible, List.drop_drop]
    exact congrArg (fun n => s.vch.drop n) hnext
  wraps _ := rfl
  throws := h

theorem read_ok (h : s.Throws) {nSize : ℤ} {bytes : List UInt8} {s' : CDataStream}
    (hread : s.read nSize = .ok (bytes, s')) :
    0 ≤ nSize ∧ nSize.toNat ≤ s.size ∧ bytes = s.visible.take nSize.toNat ∧ s.Advanced nSize s' := by
  rw [read] at hread
  by_cases hneg : nSize < 0
  · rw [if_pos hneg] at hread
    cases hread
  rw [if_neg hneg] at hread
  dsimp only at hread
  by_cases hend : s.vch.length ≤ (s.nReadPos + nSize.toNat) % 2 ^ 32
  · rw [dif_pos hend] at hread
    by_cases hpast : s.vch.length < (s.nReadPos + nSize.toNat) % 2 ^ 32
    · obtain ⟨s₁, hraise, -⟩ := h.setstate
      rw [if_pos hpast, hraise] at hread
      cases hread
    · rw [if_neg hpast] at hread
      by_cases hshort : s.size < nSize.toNat
      · simp only [bind, Except.bind, if_pos hshort] at hread
        cases hread
      · simp only [bind, Except.bind, if_neg hshort, Nat.sub_self, List.replicate_zero, List.append_nil] at hread
        cases hread
        have hsize := Nat.le_of_not_lt hshort
        exact ⟨Int.not_lt.mp hneg, hsize, rfl, .clear h hsize (Nat.le_antisymm hend (Nat.le_of_not_lt hpast))⟩
  · rw [dif_neg hend] at hread
    by_cases hshort : s.size < nSize.toNat
    · rw [if_pos hshort] at hread
      cases hread
    · rw [if_neg hshort] at hread
      cases hread
      exact ⟨Int.not_lt.mp hneg, Nat.le_of_not_lt hshort, rfl, .seek h _ _⟩

/-- Where the position wraps, a read that succeeds leaves more than it has to. -/
theorem Advanced.visible_iff {s' : CDataStream} (h : s.Advanced nSize s')
    (hsize : nSize.toNat ≤ s.size) :
    s.ReadFits nSize ↔ s'.visible = s.visible.drop nSize.toNat := by
  refine ⟨h.fits, fun heq => ?_⟩
  by_contra hwraps
  have hlength := congrArg List.length heq
  have hsmall := s'.small
  have hinside := s.inside
  rw [length_visible, List.length_drop, length_visible, size, size, h.wraps hwraps] at hlength
  rw [ReadFits] at hwraps
  rw [size] at hsize
  omega

theorem read_queue_iff (h : s.Throws) {nSize : ℤ} {bytes : List UInt8} {s' : CDataStream}
    (hread : s.read nSize = .ok (bytes, s')) :
    s.ReadFits nSize ↔ ByteQueue.read nSize s.visible = .ok (bytes, s'.visible) := by
  obtain ⟨hpos, hsize, rfl, hadvanced⟩ := read_ok h hread
  have hshort : ¬ s.visible.length < nSize.toNat := by
    rw [length_visible]
    exact Nat.not_lt.mpr hsize
  rw [hadvanced.visible_iff hsize, ByteQueue.read, if_neg (Int.not_lt.mpr hpos), if_neg hshort,
    Except.ok.injEq, Prod.mk.injEq]
  exact ⟨fun heq => ⟨rfl, heq.symm⟩, fun heq => heq.2.symm⟩

theorem ignore_ok (h : s.Throws) {nSize : ℤ} {s' : CDataStream} (hignore : s.ignore nSize = .ok s') :
    0 ≤ nSize ∧ s'.Throws ∧ (s.ReadFits nSize → nSize.toNat ≤ s.size) ∧
      (nSize.toNat ≤ s.size → s.Advanced nSize s') := by
  have hinside := s.inside
  rw [ignore] at hignore
  by_cases hneg : nSize < 0
  · rw [if_pos hneg] at hignore
    cases hignore
  rw [if_neg hneg] at hignore
  refine ⟨Int.not_lt.mp hneg, ?_⟩
  dsimp only at hignore
  by_cases hend : s.vch.length ≤ (s.nReadPos + nSize.toNat) % 2 ^ 32
  · rw [dif_pos hend] at hignore
    by_cases hpast : s.vch.length < (s.nReadPos + nSize.toNat) % 2 ^ 32
    · obtain ⟨s₁, hraise, -⟩ := h.setstate
      rw [if_pos hpast, hraise] at hignore
      cases hignore
    · rw [if_neg hpast] at hignore
      cases hignore
      have hlast := Nat.le_antisymm hend (Nat.le_of_not_lt hpast)
      refine ⟨h, fun hfits => ?_, fun hsize => .clear h hsize hlast⟩
      rw [Nat.mod_eq_of_lt hfits] at hlast
      rw [size]
      omega
  · rw [dif_neg hend] at hignore
    cases hignore
    refine ⟨h, fun hfits => ?_, fun _ => .seek h _ _⟩
    rw [Nat.mod_eq_of_lt hfits] at hend
    rw [size]
    omega

theorem ignore_queue_iff (h : s.Throws) {nSize : ℤ} {s' : CDataStream} (hignore : s.ignore nSize = .ok s') :
    s.ReadFits nSize ↔ ByteQueue.ignore nSize s.visible = .ok s'.visible := by
  obtain ⟨hpos, -, hroom, hadvanced⟩ := ignore_ok h hignore
  rw [ByteQueue.ignore, if_neg (Int.not_lt.mpr hpos), length_visible]
  by_cases hshort : s.size < nSize.toNat
  · rw [if_pos hshort]
    exact ⟨fun hfits => absurd (hroom hfits) (Nat.not_le.mpr hshort), fun heq => absurd heq (by simp)⟩
  · rw [if_neg hshort, (hadvanced (Nat.le_of_not_lt hshort)).visible_iff (Nat.le_of_not_lt hshort),
      Except.ok.injEq, eq_comm]

/-- Past the end a read fails and leaves the contents, unless the position wraps. -/
theorem read_past_iff (h : s.Throws) {nSize : ℤ} (hint : nSize < 2 ^ 31) (hpast : s.size < nSize.toNat) :
    s.ReadFits nSize ↔ ∃ s', s.read nSize = .error (.raised, s') ∧ s'.visible = s.visible := by
  have hinside := s.inside
  have hsmall := s.small
  have hpos : ¬ nSize < 0 := by omega
  rw [size] at hpast
  rw [read, if_neg hpos]
  dsimp only
  constructor
  · intro hfits
    obtain ⟨s₁, hraise, hsame⟩ := h.setstate
    have hbeyond : s.vch.length < (s.nReadPos + nSize.toNat) % 2 ^ 32 := by
      rw [Nat.mod_eq_of_lt hfits]
      omega
    rw [dif_pos hbeyond.le, if_pos hbeyond, hraise]
    exact ⟨s₁, rfl, hsame⟩
  · intro hfails
    by_contra hwraps
    rw [ReadFits] at hwraps
    have hend : ¬ s.vch.length ≤ (s.nReadPos + nSize.toNat) % 2 ^ 32 := by omega
    have hshort : s.size < nSize.toNat := hpast
    obtain ⟨s', hraise, -⟩ := hfails
    rw [dif_neg hend, if_pos hshort] at hraise
    cases hraise

theorem ignore_past_iff (h : s.Throws) {nSize : ℤ} (hint : nSize < 2 ^ 31) (hpast : s.size < nSize.toNat) :
    s.ReadFits nSize ↔ ∃ s', s.ignore nSize = .error (.raised, s') ∧ s'.visible = s.visible := by
  have hinside := s.inside
  have hsmall := s.small
  have hpos : ¬ nSize < 0 := by omega
  rw [size] at hpast
  rw [ignore, if_neg hpos]
  dsimp only
  constructor
  · intro hfits
    obtain ⟨s₁, hraise, hsame⟩ := h.setstate
    have hbeyond : s.vch.length < (s.nReadPos + nSize.toNat) % 2 ^ 32 := by
      rw [Nat.mod_eq_of_lt hfits]
      omega
    rw [dif_pos hbeyond.le, if_pos hbeyond, hraise]
    exact ⟨s₁, rfl, hsame⟩
  · intro hfails
    by_contra hwraps
    rw [ReadFits] at hwraps
    have hend : ¬ s.vch.length ≤ (s.nReadPos + nSize.toNat) % 2 ^ 32 := by omega
    obtain ⟨s', hraise, -⟩ := hfails
    rw [dif_neg hend] at hraise
    cases hraise

/-! ## Writing -/

variable {s' : CDataStream}

theorem write_queue {pch : List UInt8} (hwrite : s.write pch nSize = .ok s') :
    ByteQueue.write s.visible pch nSize = .ok s'.visible ∧ s'.exceptmask = s.exceptmask := by
  rw [write] at hwrite
  rw [ByteQueue.write]
  by_cases hbad : nSize < 0 ∨ pch.length < nSize.toNat
  · rw [if_pos hbad] at hwrite
    cases hwrite
  · rw [if_neg hbad] at hwrite
    cases hwrite
    rw [if_neg hbad, visible_pushBack]
    exact ⟨rfl, rfl⟩

theorem put_queue {pieces : List (List UInt8 × ℤ)} (hput : s.put pieces = .ok s') :
    pieces.foldlM (fun q piece => ByteQueue.write q piece.1 piece.2) s.visible = .ok s'.visible ∧
      s'.exceptmask = s.exceptmask := by
  induction pieces generalizing s with
  | nil =>
    cases hput
    exact ⟨rfl, rfl⟩
  | cons piece pieces ih =>
    rw [put, List.foldlM_cons, seq_ok] at hput
    obtain ⟨s₁, hone, hrest⟩ := hput
    obtain ⟨hvisible, hmask⟩ := write_queue hone
    obtain ⟨hothers, hmask'⟩ := ih hrest
    rw [List.foldlM_cons, hvisible]
    exact ⟨hothers, hmask'.trans hmask⟩

theorem insertCopies_queue {n : ℕ} {x : UInt8} (hinsert : s.insertCopies it n x = .ok s') :
    it ≤ s.size ∧ s'.exceptmask = s.exceptmask ∧
      s'.visible = s.visible.take it ++ List.replicate n x ++ s.visible.drop it := by
  rw [insertCopies] at hinsert
  by_cases hbeyond : s.size < it
  · rw [if_pos hbeyond] at hinsert
    cases hinsert
  · rw [if_neg hbeyond] at hinsert
    cases hinsert
    exact ⟨Nat.le_of_not_lt hbeyond, rfl, visible_insertVch s it _⟩

/-- Where the bytes that have been read make room, the range has to be shorter than `2 ^ 32`. -/
def InsertFits (s : CDataStream) (it : ℕ) (range : List UInt8) : Prop :=
  it = 0 → range.length % 2 ^ 32 ≤ s.nReadPos → range.length < 2 ^ 32

theorem insert_queue_iff {range : List UInt8} (hinsert : s.insert it range = .ok s') :
    it ≤ s.size ∧ s'.exceptmask = s.exceptmask ∧
      (s.InsertFits it range ↔ s'.visible = s.visible.take it ++ range ++ s.visible.drop it) := by
  have hinside := s.inside
  rw [insert] at hinsert
  by_cases hbeyond : s.size < it
  · rw [if_pos hbeyond] at hinsert
    cases hinsert
  rw [if_neg hbeyond] at hinsert
  refine ⟨Nat.le_of_not_lt hbeyond, ?_⟩
  by_cases hfront : it = 0 ∧ range.length % 2 ^ 32 ≤ s.nReadPos
  · obtain ⟨rfl, hroom⟩ := hfront
    rw [if_pos ⟨rfl, hroom⟩] at hinsert
    dsimp only at hinsert
    by_cases hlong : s.vch.length < s.nReadPos - range.length % 2 ^ 32 + range.length
    · rw [if_pos hlong] at hinsert
      cases hinsert
    rw [if_neg hlong] at hinsert
    cases hinsert
    refine ⟨rfl, ?_⟩
    have hvisible : (memcpy (s.nReadPos - range.length % 2 ^ 32) range s.vch).drop
        (s.nReadPos - range.length % 2 ^ 32) =
          range ++ s.vch.drop (s.nReadPos - range.length % 2 ^ 32 + range.length) := by
      have htake : (s.vch.take (s.nReadPos - range.length % 2 ^ 32)).length =
          s.nReadPos - range.length % 2 ^ 32 := List.length_take_of_le (by omega)
      rw [memcpy, List.append_assoc]
      exact List.drop_left' htake
    rw [InsertFits, visible, visible, hvisible, List.take_zero, List.nil_append, List.drop_zero,
      List.append_cancel_left_eq]
    refine ⟨fun hfits => ?_, fun heq _ _ => ?_⟩
    · have hmod := Nat.mod_eq_of_lt (hfits rfl hroom)
      rw [hmod] at hroom ⊢
      rw [Nat.sub_add_cancel hroom]
    · have hlength := congrArg List.length heq
      rw [List.length_drop, List.length_drop] at hlength
      by_contra hlarge
      have hlt := Nat.mod_lt range.length (Nat.two_pow_pos 32)
      omega
  · rw [if_neg hfront] at hinsert
    cases hinsert
    refine ⟨rfl, fun _ => visible_insertVch s it range, fun _ hit hroom => absurd ⟨hit, hroom⟩ hfront⟩

/-- The front that is erased moves the position to where it fits. -/
def EraseFits (s : CDataStream) (it : ℕ) : Prop := it = 0 → s.nReadPos + 1 < 2 ^ 32

theorem erase_queue_iff (herase : s.erase it = .ok s') :
    it < s.size ∧ s'.exceptmask = s.exceptmask ∧ (s.EraseFits it ↔ s'.visible = s.visible.eraseIdx it) := by
  have hinside := s.inside
  rw [erase] at herase
  by_cases hbeyond : s.size ≤ it
  · rw [if_pos hbeyond] at herase
    cases herase
  rw [if_neg hbeyond] at herase
  have hit := Nat.lt_of_not_le hbeyond
  refine ⟨hit, ?_⟩
  have hidx : s.visible.eraseIdx it = s.visible.take it ++ s.visible.drop (it + 1) :=
    List.eraseIdx_eq_take_drop_succ s.visible it
  rw [hidx]
  by_cases hfront : it = 0
  · subst hfront
    rw [if_pos rfl] at herase
    dsimp only at herase
    rw [size] at hit
    by_cases hend : s.vch.length ≤ (s.nReadPos + 1) % 2 ^ 32
    · rw [dif_pos hend] at herase
      cases herase
      have hfits : s.nReadPos + 1 < 2 ^ 32 := by omega
      have hempty : s.visible.drop 1 = [] := by
        rw [List.drop_eq_nil_iff, length_visible, size]
        omega
      refine ⟨rfl, fun _ => ?_, fun _ _ => hfits⟩
      rw [Nat.zero_add, hempty]
      rfl
    · rw [dif_neg hend] at herase
      cases herase
      have hmoved := s.visible_seek_iff (n := 1) hit (Nat.le_of_not_le hend) (Nat.mod_lt _ (Nat.two_pow_pos 32))
      exact ⟨rfl, fun hfits => hmoved.mp (hfits rfl), fun heq _ => hmoved.mpr heq⟩
  · rw [if_neg hfront] at herase
    cases herase
    exact ⟨rfl, fun _ => visible_eraseVch s it (it + 1), fun _ hit => absurd hit hfront⟩

/-- The part of the front that is erased ends where the position fits. -/
def EraseRangeFits (s : CDataStream) (first last : ℕ) : Prop :=
  first = 0 → last < s.size → s.nReadPos + last < 2 ^ 32

theorem eraseRange_queue_iff {first last : ℕ} (herase : s.eraseRange first last = .ok s') :
    first ≤ last ∧ last ≤ s.size ∧ s'.exceptmask = s.exceptmask ∧
      (s.EraseRangeFits first last ↔ s'.visible = s.visible.take first ++ s.visible.drop last) := by
  rw [eraseRange] at herase
  by_cases hrange : first ≤ last ∧ last ≤ s.size
  · rw [dif_pos hrange] at herase
    refine ⟨hrange.1, hrange.2, ?_⟩
    by_cases hfront : first = 0
    · subst hfront
      rw [if_pos rfl] at herase
      by_cases hlast : last = s.size
      · subst hlast
        rw [if_pos rfl] at herase
        cases herase
        refine ⟨rfl, fun _ => ?_, fun _ _ hlt => absurd hlt (lt_irrefl _)⟩
        rw [List.drop_eq_nil_of_le s.length_visible.le]
        rfl
      · rw [if_neg hlast] at herase
        cases herase
        rw [List.take_zero, List.nil_append, EraseRangeFits, ← s.visible_seek_iff hrange.2]
        exact ⟨rfl, fun hfits => hfits rfl (lt_of_le_of_ne hrange.2 hlast), fun hlt _ _ => hlt⟩
    · rw [if_neg hfront] at herase
      cases herase
      exact ⟨rfl, fun _ => visible_eraseVch s first last, fun _ hzero => absurd hzero hfront⟩
  · rw [dif_neg hrange] at herase
    cases herase

/-- Nothing of the buffer has been read, and its length is an `int`. -/
def StreamFits (t : CDataStream) : Prop := t.nReadPos = 0 ∧ t.vch.length < 2 ^ 31

theorem serialize_queue_iff {t : CDataStream} (hserialize : s.Serialize t = .ok s') :
    s'.exceptmask = s.exceptmask ∧ (t.StreamFits ↔ s'.visible = s.visible ++ t.visible) := by
  have hinside := t.inside
  have hsmall := t.small
  rw [Serialize] at hserialize
  by_cases hvch : t.vch = []
  · rw [if_neg (not_not.mpr hvch)] at hserialize
    cases hserialize
    have hvisible : t.visible = [] := by rw [visible, hvch, List.drop_nil]
    rw [hvisible, List.append_nil]
    refine ⟨rfl, fun _ => rfl, fun _ => ?_⟩
    rw [hvch] at hinside
    rw [StreamFits, hvch]
    exact ⟨Nat.le_zero.mp hinside, by decide⟩
  · rw [if_pos hvch, write] at hserialize
    by_cases hbad : int32 t.vch.length < 0 ∨ t.vch.length < (int32 t.vch.length).toNat
    · rw [if_pos hbad] at hserialize
      cases hserialize
    rw [if_neg hbad] at hserialize
    cases hserialize
    refine ⟨rfl, ?_⟩
    rw [visible_pushBack, List.append_cancel_left_eq, StreamFits]
    have hint : (int32 t.vch.length).toNat = t.vch.length % 2 ^ 32 ∧ t.vch.length % 2 ^ 32 < 2 ^ 31 := by
      have hpos : ¬ int32 t.vch.length < 0 := fun hneg => hbad (.inl hneg)
      rw [int32, Int.bmod_def] at hpos ⊢
      split at hpos <;> rename_i hhalf
      · rw [if_pos hhalf]
        omega
      · omega
    rw [hint.1]
    constructor
    · intro hfits
      rw [Nat.mod_eq_of_lt (by omega), List.take_length, visible, hfits.1, List.drop_zero]
    · intro heq
      have hlength := congrArg List.length heq
      have hmod := Nat.mod_le t.vch.length (2 ^ 32)
      rw [List.length_take_of_le hmod, length_visible, size] at hlength
      omega

end CDataStream

end Dions
