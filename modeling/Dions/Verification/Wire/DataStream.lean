import Dions.Library.Simulation
import Dions.Verification.Wire.VisibleBytes

/-! # Byte streams are queues

A run over several streams does to what they show what it does to plain lists, as long as each of its
operations fits. -/

namespace Dions

open Halting

variable {s s' : CDataStream}

/-! ## Operations on lists -/

def ByteQueue.get {Obj : Type} : Unserializer Obj → List UInt8 → Exec (Obj × List UInt8)
  | .done obj, q => .ok (obj, q)
  | .raise, _ => .error .raised
  | .read nSize next, q => do
    let (bytes, q) ← ByteQueue.read nSize q
    ByteQueue.get (next bytes) q

/-- The same operation on a plain list. -/
def StreamOp.onList {Obj : Type} (op : StreamOp Obj) (q : List UInt8) :
    Exec (StreamAnswer Obj × List UInt8) :=
  match op with
  | .write pch nSize => (ByteQueue.write q pch nSize).map fun q => (.nothing, q)
  | .put pieces => (pieces.foldlM (fun q piece => ByteQueue.write q piece.1 piece.2) q).map fun q =>
      (.nothing, q)
  | .read nSize => (ByteQueue.read nSize q).map fun r => (.bytes r.1, r.2)
  | .get object => (ByteQueue.get object q).map fun r => (.object r.1, r.2)
  | .ignore nSize => (ByteQueue.ignore nSize q).map fun q => (.nothing, q)
  | .insertCopies it n x =>
    if q.length < it then .error .undefined
    else .ok (.nothing, q.take it ++ List.replicate n x ++ q.drop it)
  | .insert it range =>
    if q.length < it then .error .undefined else .ok (.nothing, q.take it ++ range ++ q.drop it)
  | .erase it => if q.length ≤ it then .error .undefined else .ok (.nothing, q.eraseIdx it)
  | .eraseRange first last =>
    if first ≤ last ∧ last ≤ q.length then .ok (.nothing, q.take first ++ q.drop last)
    else .error .undefined
  | .GetAndClear data => .ok (.bytes (data ++ q), [])

def StreamsOp.onLists {ι Obj : Type} [DecidableEq ι] (op : StreamsOp ι Obj) (qs : ι → List UInt8) :
    Exec (StreamAnswer Obj × (ι → List UInt8)) :=
  match op with
  | .on i op => (op.onList (qs i)).map fun r => (r.1, Function.update qs i r.2)
  | .append i j => .ok (.nothing, Function.update qs i (qs i ++ qs j))
  | .stream i j => .ok (.nothing, Function.update qs i (qs i ++ qs j))

/-! ## Objects -/

/-- Every read that the object asks for fits. -/
def Unserializer.Fits {Obj : Type} : Unserializer Obj → CDataStream → Prop
  | .done _, _ => True
  | .raise, _ => True
  | .read nSize next, s => s.ReadFits nSize ∧ ∀ bytes s', s.read nSize = .ok (bytes, s') → (next bytes).Fits s'

namespace Unserializer

variable {Obj : Type}

theorem run_read_ok {nSize : ℤ} {next : List UInt8 → Unserializer Obj} {obj : Obj}
    (h : (Unserializer.read nSize next).run s = .ok (obj, s')) :
    ∃ bytes s₁, s.read nSize = .ok (bytes, s₁) ∧ (next bytes).run s₁ = .ok (obj, s') := by
  rw [run, seq_ok] at h
  obtain ⟨⟨bytes, s₁⟩, hread, hrest⟩ := h
  exact ⟨bytes, s₁, hread, hrest⟩

theorem run_throws {object : Unserializer Obj} {obj : Obj} (h : s.Throws)
    (hrun : object.run s = .ok (obj, s')) : s'.Throws := by
  induction object generalizing s with
  | done obj =>
    cases hrun
    exact h
  | raise => cases hrun
  | read nSize next ih =>
    obtain ⟨bytes, s₁, hread, hrest⟩ := run_read_ok hrun
    exact ih bytes (CDataStream.read_ok h hread).2.2.2.throws hrest

/-- No position reaches the end of a buffer of `2 ^ 32` bytes, so it is never cleared. -/
theorem run_vch {object : Unserializer Obj} {obj : Obj} (hlarge : 2 ^ 32 ≤ s.vch.length)
    (hrun : object.run s = .ok (obj, s')) : s'.vch = s.vch := by
  induction object generalizing s with
  | done obj =>
    cases hrun
    rfl
  | raise => cases hrun
  | read nSize next ih =>
    obtain ⟨bytes, s₁, hread, hrest⟩ := run_read_ok hrun
    have hsame : s₁.vch = s.vch := by
      have hlt : (s.nReadPos + nSize.toNat) % 2 ^ 32 < 2 ^ 32 := Nat.mod_lt _ (Nat.two_pow_pos 32)
      rw [CDataStream.read] at hread
      dsimp only at hread
      rw [dif_neg (by omega)] at hread
      split at hread
      · cases hread
      · split at hread
        · cases hread
        · cases hread
          rfl
    rw [ih bytes (hsame ▸ hlarge) hrest, hsame]

theorem get_length_le {object : Unserializer Obj} {q q' : List UInt8} {obj : Obj}
    (h : ByteQueue.get object q = .ok (obj, q')) : q'.length ≤ q.length := by
  induction object generalizing q with
  | done obj =>
    cases h
    exact le_rfl
  | raise => cases h
  | read nSize next ih =>
    rw [ByteQueue.get, seq_ok] at h
    obtain ⟨⟨bytes, rest⟩, hread, hrest⟩ := h
    rw [ByteQueue.read] at hread
    split at hread
    · cases hread
    · split at hread
      · cases hread
      · cases hread
        exact (ih _ hrest).trans (by rw [List.length_drop]; exact Nat.sub_le _ _)

theorem run_queue_iff {object : Unserializer Obj} {obj : Obj} (h : s.Throws)
    (hrun : object.run s = .ok (obj, s')) :
    object.Fits s ↔ ByteQueue.get object s.visible = .ok (obj, s'.visible) := by
  induction object generalizing s with
  | done obj =>
    cases hrun
    exact ⟨fun _ => rfl, fun _ => trivial⟩
  | raise => cases hrun
  | read nSize next ih =>
    obtain ⟨bytes, s₁, hread, hrest⟩ := run_read_ok hrun
    obtain ⟨hpos, hsize, -, hadvanced⟩ := CDataStream.read_ok h hread
    rw [Fits, ByteQueue.get]
    by_cases hfits : s.ReadFits nSize
    · rw [(CDataStream.read_queue_iff h hread).mp hfits]
      refine Iff.trans ?_ (ih bytes hadvanced.throws hrest)
      refine ⟨fun hall => hall.2 bytes s₁ hread, fun hone => ⟨hfits, fun bytes' s₁' hread' => ?_⟩⟩
      rw [hread, Except.ok.injEq, Prod.mk.injEq] at hread'
      exact hread'.1 ▸ hread'.2 ▸ hone
    · -- the position stays below `2 ^ 32`, and the queue is shorter than what lies behind it
      refine ⟨fun hall => absurd hall.1 hfits, fun hget => absurd hget fun hget => ?_⟩
      have hinside := s.inside
      have hsmall := s'.small
      have hwraps : 2 ^ 32 ≤ s.nReadPos + nSize.toNat := Nat.not_lt.mp hfits
      rw [CDataStream.size] at hsize
      have hvch : s₁.vch = s.vch := hadvanced.wraps hfits
      have hlast : s'.vch = s.vch := (run_vch (by rw [hvch]; omega) hrest).trans hvch
      rw [seq_ok] at hget
      obtain ⟨⟨bytes', rest⟩, hread', hrest'⟩ := hget
      have hlength := get_length_le hrest'
      rw [ByteQueue.read, if_neg (Int.not_lt.mpr hpos), if_neg (by
        rw [CDataStream.length_visible, CDataStream.size]
        omega), Except.ok.injEq, Prod.mk.injEq] at hread'
      rw [← hread'.2, List.length_drop, CDataStream.length_visible, CDataStream.length_visible,
        CDataStream.size, CDataStream.size, hlast] at hlength
      omega

end Unserializer

/-! ## One operation -/

/-- The condition under which the operation keeps what is visible. -/
def StreamOp.Fits {Obj : Type} (op : StreamOp Obj) (s : CDataStream) : Prop :=
  match op with
  | .write _ _ => True
  | .put _ => True
  | .read nSize => s.ReadFits nSize
  | .get object => object.Fits s
  | .ignore nSize => s.ReadFits nSize
  | .insertCopies _ _ _ => True
  | .insert it range => s.InsertFits it range
  | .erase it => s.EraseFits it
  | .eraseRange first last => s.EraseRangeFits first last
  | .GetAndClear _ => True

namespace StreamOp

variable {Obj : Type}

/-- An operation that succeeds does to the list what it does to the stream, exactly where it fits. -/
theorem run_queue_iff {op : StreamOp Obj} {answer : StreamAnswer Obj} (h : s.Throws)
    (hrun : op.run s = .ok (answer, s')) :
    s'.Throws ∧ (op.Fits s ↔ op.onList s.visible = .ok (answer, s'.visible)) := by
  cases op with
  | write pch nSize =>
    obtain ⟨s₁, hwrite, heq⟩ := map_eq_ok.mp hrun
    cases heq
    obtain ⟨hvisible, hmask⟩ := CDataStream.write_queue hwrite
    refine ⟨hmask.trans h, fun _ => ?_, fun _ => trivial⟩
    rw [onList, hvisible]
    rfl
  | put pieces =>
    obtain ⟨s₁, hput, heq⟩ := map_eq_ok.mp hrun
    cases heq
    obtain ⟨hvisible, hmask⟩ := CDataStream.put_queue hput
    refine ⟨hmask.trans h, fun _ => ?_, fun _ => trivial⟩
    rw [onList, hvisible]
    rfl
  | read nSize =>
    obtain ⟨⟨bytes, s₁⟩, hread, heq⟩ := map_eq_ok.mp hrun
    cases heq
    refine ⟨(CDataStream.read_ok h hread).2.2.2.throws, (CDataStream.read_queue_iff h hread).trans ?_⟩
    rw [onList, map_eq_ok]
    refine ⟨fun hq => ⟨_, hq, rfl⟩, fun ⟨r, hq, heq⟩ => ?_⟩
    rw [Prod.mk.injEq, StreamAnswer.bytes.injEq] at heq
    rw [hq, show r = (bytes, s₁.visible) from Prod.ext heq.1 heq.2]
  | get object =>
    obtain ⟨⟨obj, s₁⟩, hget, heq⟩ := map_eq_ok.mp hrun
    cases heq
    refine ⟨Unserializer.run_throws h hget, (Unserializer.run_queue_iff h hget).trans ?_⟩
    rw [onList, map_eq_ok]
    refine ⟨fun hq => ⟨_, hq, rfl⟩, fun ⟨r, hq, heq⟩ => ?_⟩
    rw [Prod.mk.injEq, StreamAnswer.object.injEq] at heq
    rw [hq, show r = (obj, s₁.visible) from Prod.ext heq.1 heq.2]
  | ignore nSize =>
    obtain ⟨s₁, hignore, heq⟩ := map_eq_ok.mp hrun
    cases heq
    refine ⟨(CDataStream.ignore_ok h hignore).2.1, (CDataStream.ignore_queue_iff h hignore).trans ?_⟩
    rw [onList, map_eq_ok]
    refine ⟨fun hq => ⟨_, hq, rfl⟩, fun ⟨q, hq, heq⟩ => ?_⟩
    rw [Prod.mk.injEq] at heq
    rw [hq, heq.2]
  | insertCopies it n x =>
    obtain ⟨s₁, hinsert, heq⟩ := map_eq_ok.mp hrun
    cases heq
    obtain ⟨hit, hmask, hvisible⟩ := CDataStream.insertCopies_queue hinsert
    refine ⟨hmask.trans h, fun _ => ?_, fun _ => trivial⟩
    rw [onList, s.length_visible, if_neg (Nat.not_lt.mpr hit), hvisible]
  | insert it range =>
    obtain ⟨s₁, hinsert, heq⟩ := map_eq_ok.mp hrun
    cases heq
    obtain ⟨hit, hmask, hiff⟩ := CDataStream.insert_queue_iff hinsert
    refine ⟨hmask.trans h, hiff.trans ?_⟩
    rw [onList, s.length_visible, if_neg (Nat.not_lt.mpr hit), Except.ok.injEq, Prod.mk.injEq]
    exact ⟨fun hq => ⟨rfl, hq.symm⟩, fun hq => hq.2.symm⟩
  | erase it =>
    obtain ⟨s₁, herase, heq⟩ := map_eq_ok.mp hrun
    cases heq
    obtain ⟨hit, hmask, hiff⟩ := CDataStream.erase_queue_iff herase
    refine ⟨hmask.trans h, hiff.trans ?_⟩
    rw [onList, s.length_visible, if_neg (Nat.not_le.mpr hit), Except.ok.injEq, Prod.mk.injEq]
    exact ⟨fun hq => ⟨rfl, hq.symm⟩, fun hq => hq.2.symm⟩
  | eraseRange first last =>
    obtain ⟨s₁, herase, heq⟩ := map_eq_ok.mp hrun
    cases heq
    obtain ⟨hfirst, hlast, hmask, hiff⟩ := CDataStream.eraseRange_queue_iff herase
    refine ⟨hmask.trans h, hiff.trans ?_⟩
    rw [onList, s.length_visible, if_pos ⟨hfirst, hlast⟩, Except.ok.injEq, Prod.mk.injEq]
    exact ⟨fun hq => ⟨rfl, hq.symm⟩, fun hq => hq.2.symm⟩
  | GetAndClear data =>
    cases hrun
    exact ⟨h, fun _ => rfl, fun _ => trivial⟩

end StreamOp

/-! ## Several streams -/

def visibles {ι : Type} (σ : ι → CDataStream) (i : ι) : List UInt8 := (σ i).visible

def StreamsOp.Fits {ι Obj : Type} (op : StreamsOp ι Obj) (σ : ι → CDataStream) : Prop :=
  match op with
  | .on i op => op.Fits (σ i)
  | .append _ _ => True
  | .stream _ j => (σ j).StreamFits

namespace StreamsOp

variable {ι Obj : Type} [DecidableEq ι]

theorem visibles_update (σ : ι → CDataStream) (i : ι) (s : CDataStream) :
    visibles (Function.update σ i s) = Function.update (visibles σ) i s.visible :=
  Function.comp_update CDataStream.visible σ i s

theorem throws_update {σ : ι → CDataStream} (h : ∀ i, (σ i).Throws) {i : ι} {s : CDataStream} (hs : s.Throws) :
    ∀ k, (Function.update σ i s k).Throws := by
  intro k
  by_cases hk : k = i
  · subst hk
    rwa [Function.update_self]
  · rw [Function.update_of_ne hk]
    exact h k

theorem run_queues_iff {op : StreamsOp ι Obj} {σ σ' : ι → CDataStream} {answer : StreamAnswer Obj}
    (h : ∀ i, (σ i).Throws) (hrun : op.run σ = .ok (answer, σ')) :
    (∀ i, (σ' i).Throws) ∧ (op.Fits σ ↔ op.onLists (visibles σ) = .ok (answer, visibles σ')) := by
  cases op with
  | on i op =>
    obtain ⟨⟨answer', s⟩, hlift, heq⟩ := map_eq_ok.mp hrun
    cases heq
    obtain ⟨hthrows, hiff⟩ := StreamOp.run_queue_iff (h i) (lift_eq_ok.mp hlift)
    refine ⟨throws_update h hthrows, hiff.trans ?_⟩
    rw [onLists, map_eq_ok, visibles_update]
    refine ⟨fun hq => ⟨_, hq, rfl⟩, fun ⟨r, hq, heq⟩ => ?_⟩
    rw [Prod.mk.injEq] at heq
    have hvisible : r.2 = s.visible := Function.update_injective _ i heq.2
    have hr : r = (answer', s.visible) := Prod.ext heq.1 hvisible
    exact hr ▸ hq
  | append i j =>
    rw [run] at hrun
    split at hrun
    · cases hrun
    · cases hrun
      refine ⟨throws_update h (h i), fun _ => ?_, fun _ => trivial⟩
      rw [onLists, visibles_update, CDataStream.visible_pushBack]
      rfl
  | stream i j =>
    rw [run] at hrun
    split at hrun
    · cases hrun
    · obtain ⟨s, hlift, heq⟩ := map_eq_ok.mp hrun
      cases heq
      obtain ⟨hmask, hiff⟩ := CDataStream.serialize_queue_iff (lift_eq_ok.mp hlift)
      refine ⟨throws_update h (hmask.trans (h i)), hiff.trans ?_⟩
      rw [onLists, visibles_update, Except.ok.injEq, Prod.mk.injEq]
      refine ⟨fun hq => ⟨rfl, ?_⟩, fun hq => (Function.update_injective _ i hq.2).symm⟩
      rw [hq]
      rfl

end StreamsOp

/-- Streams that have just been set up. -/
def fresh {ι : Type} (bytes : ι → List UInt8) (i : ι) : CDataStream := .Init (bytes i)

theorem fresh_throws {ι : Type} (bytes : ι → List UInt8) (i : ι) : (fresh bytes i).Throws := rfl

/-- Operations that succeed do to the visible contents, after every one of them, what they do to plain
lists, exactly when each of them fits; and a read or an `ignore` past the end raises and leaves the
contents exactly where it fits. -/
theorem streams_refine_queues {ι Obj : Type} [DecidableEq ι] {bytes : ι → List UInt8}
    {ops : List (StreamsOp ι Obj)} {answers : List (StreamAnswer Obj)} {σ : ι → CDataStream}
    (hrun : Simulation.run StreamsOp.run ops (fresh bytes) = .ok (answers, σ)) :
    (Simulation.Along StreamsOp.run StreamsOp.Fits ops (fresh bytes) ↔
        ∀ before, before <+: ops →
          Simulation.Agrees visibles (Simulation.run StreamsOp.run before)
            (Simulation.run StreamsOp.onLists before) (fresh bytes)) ∧
      ∀ i (nSize : ℤ), nSize < 2 ^ 31 → (σ i).size < nSize.toNat →
        ((σ i).ReadFits nSize ↔
            ∃ s, (σ i).read nSize = .error (.raised, s) ∧ s.visible = (σ i).visible) ∧
          ((σ i).ReadFits nSize ↔
            ∃ s, (σ i).ignore nSize = .error (.raised, s) ∧ s.visible = (σ i).visible) := by
  have hinv : ∀ (op : StreamsOp ι Obj) (σ : ι → CDataStream) answer σ', (∀ i, (σ i).Throws) →
      op.run σ = .ok (answer, σ') → ∀ i, (σ' i).Throws := fun op σ answer σ' h hone =>
    (StreamsOp.run_queues_iff h hone).1
  have hlast : ∀ i, (σ i).Throws := Simulation.run_invariant hinv (fresh_throws bytes) hrun
  refine ⟨?_, fun i nSize hint hpast => ?_⟩
  · exact Simulation.along_iff hinv (fun op σ answer σ' h hone => (StreamsOp.run_queues_iff h hone).2)
      (fresh_throws bytes) hrun
  · exact ⟨CDataStream.read_past_iff (hlast i) hint hpast, CDataStream.ignore_past_iff (hlast i) hint hpast⟩

/-- One stream is written, streamed into another and read there. -/
def copied : List (StreamsOp Bool ℕ) :=
  [.on true (.write [1, 2] 2), .stream false true, .on false (.ignore 1)]

theorem streams_refine_queues_copied :
    Simulation.Agrees visibles (Simulation.run StreamsOp.run copied)
      (Simulation.run StreamsOp.onLists copied) (fresh fun _ => []) := by
  obtain ⟨answers, σ, hrun⟩ : ∃ (answers : List (StreamAnswer ℕ)) (σ : Bool → CDataStream),
      Simulation.run StreamsOp.run copied (fresh fun _ => []) = .ok (answers, σ) := ⟨_, _, rfl⟩
  refine (streams_refine_queues hrun).1.mp ⟨trivial, fun _ _ hwrite => ?_⟩ copied (List.prefix_refl _)
  cases hwrite
  refine ⟨⟨rfl, by decide⟩, fun _ _ hstream => ?_⟩
  cases hstream
  exact ⟨show 0 + 1 < 2 ^ 32 by decide, fun _ _ _ => trivial⟩

/-- One byte of two is read, and what is streamed into another stream are both. -/
theorem streamed_twice :
    ∃ (answers : List (StreamAnswer ℕ)) (σ : Bool → CDataStream) (qs : Bool → List UInt8),
      Simulation.run StreamsOp.run [.on true (.read 1), .stream false true]
          (fresh fun i => if i then [1, 2] else []) = .ok (answers, σ) ∧
        Simulation.run StreamsOp.onLists [.on true (.read 1), .stream false true]
          (visibles (fresh fun i => if i then [1, 2] else [])) = .ok (answers, qs) ∧
        visibles σ true = [2] ∧ visibles σ false = [1, 2] ∧ qs false = [2] :=
  ⟨_, _, _, rfl, rfl, by decide, by decide, by decide⟩

end Dions
