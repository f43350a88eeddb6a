import Dions.Model.Net

/-! # Byte streams

`CDataStream` leaves the bytes that have been read in front of its read position until it can clear the
buffer. An iterator is its distance from `begin()`. -/

namespace Dions

open Halting

/-- The read position is an `unsigned int`, and never behind the end of the buffer. -/
structure CDataStream where
  vch : List UInt8
  nReadPos : ℕ
  state : ℕ
  exceptmask : ℕ
  inside : nReadPos ≤ vch.length
  small : nReadPos < 2 ^ 32

namespace CDataStream

def badbit : ℕ := 1
def failbit : ℕ := 4

/-- A stream over some bytes, as the constructors and `Init` set it up. -/
def Init (vch : List UInt8) : CDataStream :=
  ⟨vch, 0, 0, badbit ||| failbit, Nat.zero_le _, Nat.two_pow_pos 32⟩

variable (s : CDataStream)

/-- The bytes from `begin()` to `end()`. -/
def visible : List UInt8 := s.vch.drop s.nReadPos

def size : ℕ := s.vch.length - s.nReadPos

def clear : CDataStream := ⟨[], 0, s.state, s.exceptmask, le_rfl, Nat.two_pow_pos 32⟩

/-- The same stream at another read position. -/
def seek (nReadPos : ℕ) (inside : nReadPos ≤ s.vch.length) (small : nReadPos < 2 ^ 32) : CDataStream :=
  { s with nReadPos := nReadPos, inside := inside, small := small }

/-! ## Vector subset -/

/-- `vch.insert`. -/
def insertVch (it : ℕ) (bytes : List UInt8) : CDataStream :=
  { s with
    vch := s.vch.take (s.nReadPos + it) ++ bytes ++ s.vch.drop (s.nReadPos + it)
    inside := by
      have hinside := s.inside
      rw [List.append_assoc, List.length_append, List.length_append, List.length_take, List.length_drop]
      omega }

/-- One byte or several are inserted behind the read position also at the front. -/
def insertCopies (it n : ℕ) (x : UInt8) : Halt CDataStream CDataStream :=
  if s.size < it then .error (.undefined, s) else .ok (s.insertVch it (List.replicate n x))

/-- At the front a range goes over bytes that have been read, where there are enough of them. The test
compares an `unsigned int`, and `memcpy` writes all of the range. -/
def insert (it : ℕ) (range : List UInt8) : Halt CDataStream CDataStream :=
  if s.size < it then .error (.undefined, s)
  else if it = 0 ∧ range.length % 2 ^ 32 ≤ s.nReadPos then
    let nReadPos := s.nReadPos - range.length % 2 ^ 32
    if s.vch.length < nReadPos + range.length then .error (.undefined, s)
    else .ok { s with
      vch := memcpy nReadPos range s.vch
      nReadPos := nReadPos
      inside := by
        have hinside := s.inside
        rw [memcpy, List.append_assoc, List.length_append, List.length_append, List.length_take,
          List.length_drop]
        omega
      small := lt_of_le_of_lt (Nat.sub_le _ _) s.small }
  else .ok (s.insertVch it range)

/-- `vch.erase`, behind the front. -/
def eraseVch (first last : ℕ) : CDataStream :=
  { s with
    vch := s.vch.take (s.nReadPos + first) ++ s.vch.drop (s.nReadPos + last)
    inside := by
      have hinside := s.inside
      rw [List.length_append, List.length_take]
      omega }

def erase (it : ℕ) : Halt CDataStream CDataStream :=
  if s.size ≤ it then .error (.undefined, s)
  else if it = 0 then
    let nReadPos := (s.nReadPos + 1) % 2 ^ 32
    -- whenever the end is reached, the buffer is cleared
    if hend : s.vch.length ≤ nReadPos then .ok s.clear
    else .ok (s.seek nReadPos (Nat.le_of_not_le hend) (Nat.mod_lt _ (Nat.two_pow_pos 32)))
  else .ok (s.eraseVch it (it + 1))

def eraseRange (first last : ℕ) : Halt CDataStream CDataStream :=
  if h : first ≤ last ∧ last ≤ s.size then
    if first = 0 then
      if last = s.size then .ok s.clear
      else .ok (s.seek ((s.nReadPos + last) % 2 ^ 32)
        (by
          have hinside := s.inside
          have hmod := Nat.mod_le (s.nReadPos + last) (2 ^ 32)
          rw [size] at h
          omega)
        (Nat.mod_lt _ (Nat.two_pow_pos 32)))
    else .ok (s.eraseVch first last)
  else .error (.undefined, s)

/-! ## Stream subset -/

def setstate (bits : ℕ) : Halt CDataStream CDataStream :=
  let s := { s with state := s.state ||| bits }
  if s.state &&& s.exceptmask ≠ 0 then .error (.raised, s) else .ok s

/-- The bytes that are left in `pch`. -/
def read (nSize : ℤ) : Halt CDataStream (List UInt8 × CDataStream) :=
  if nSize < 0 then .error (.undefined, s)
  else
    let nReadPosNext := (s.nReadPos + nSize.toNat) % 2 ^ 32
    if h : s.vch.length ≤ nReadPosNext then do
      let (s, nCopied) ← if s.vch.length < nReadPosNext then do
          let s ← s.setstate failbit
          .ok (s, s.size)
        else .ok (s, nSize.toNat)
      if s.size < nCopied then .error (.undefined, s)
      else .ok (s.visible.take nCopied ++ List.replicate (nSize.toNat - nCopied) 0, s.clear)
    else if s.size < nSize.toNat then .error (.undefined, s)
    else .ok (s.visible.take nSize.toNat,
      s.seek nReadPosNext (Nat.le_of_not_le h) (Nat.mod_lt _ (Nat.two_pow_pos 32)))

def ignore (nSize : ℤ) : Halt CDataStream CDataStream :=
  if nSize < 0 then .error (.undefined, s)
  else
    let nReadPosNext := (s.nReadPos + nSize.toNat) % 2 ^ 32
    if h : s.vch.length ≤ nReadPosNext then do
      let s ← if s.vch.length < nReadPosNext then s.setstate failbit else .ok s
      .ok s.clear
    else .ok (s.seek nReadPosNext (Nat.le_of_not_le h) (Nat.mod_lt _ (Nat.two_pow_pos 32)))

/-- Bytes at the end of the buffer. -/
def pushBack (bytes : List UInt8) : CDataStream :=
  { s with
    vch := s.vch ++ bytes
    inside := by
      rw [List.length_append]
      exact s.inside.trans (Nat.le_add_right _ _) }

/-- `nSize` of the bytes that start at `pch`. -/
def write (pch : List UInt8) (nSize : ℤ) : Halt CDataStream CDataStream :=
  if nSize < 0 ∨ pch.length < nSize.toNat then .error (.undefined, s)
  else .ok (s.pushBack (pch.take nSize.toNat))

/-- `stream << stream`: the length of the buffer becomes an `int`. -/
def Serialize (t : CDataStream) : Halt CDataStream CDataStream :=
  if t.vch ≠ [] then s.write t.vch (int32 t.vch.length) else .ok s

def GetAndClear (data : List UInt8) : List UInt8 × CDataStream := (data ++ s.visible, s.clear)

end CDataStream

/-! ## Objects -/

/-- What reading an object asks of a stream: the bytes decide what is read next. -/
inductive Unserializer (Obj : Type) where
  | done (obj : Obj)
  | raise
  | read (nSize : ℤ) (next : List UInt8 → Unserializer Obj)

/-- `operator>>`. -/
def Unserializer.run {Obj : Type} : Unserializer Obj → CDataStream → Halt CDataStream (Obj × CDataStream)
  | .done obj, s => .ok (obj, s)
  | .raise, s => .error (.raised, s)
  | .read nSize next, s => do
    let (bytes, s) ← s.read nSize
    (next bytes).run s

/-- `operator<<`: an object is written piece by piece. -/
def CDataStream.put (s : CDataStream) (pieces : List (List UInt8 × ℤ)) : Halt CDataStream CDataStream :=
  pieces.foldlM (fun s piece => s.write piece.1 piece.2) s

/-! ## Operations -/

inductive StreamOp (Obj : Type) where
  | write (pch : List UInt8) (nSize : ℤ)
  | put (pieces : List (List UInt8 × ℤ))
  | read (nSize : ℤ)
  | get (object : Unserializer Obj)
  | ignore (nSize : ℤ)
  | insertCopies (it n : ℕ) (x : UInt8)
  | insert (it : ℕ) (range : List UInt8)
  | erase (it : ℕ)
  | eraseRange (first last : ℕ)
  | GetAndClear (data : List UInt8)

inductive StreamAnswer (Obj : Type) where
  | nothing
  | bytes (pch : List UInt8)
  | object (obj : Obj)

def StreamOp.run {Obj : Type} (op : StreamOp Obj) (s : CDataStream) :
    Halt CDataStream (StreamAnswer Obj × CDataStream) :=
  match op with
  | .write pch nSize => (s.write pch nSize).map fun s => (.nothing, s)
  | .put pieces => (s.put pieces).map fun s => (.nothing, s)
  | .read nSize => (s.read nSize).map fun r => (.bytes r.1, r.2)
  | .get object => (object.run s).map fun r => (.object r.1, r.2)
  | .ignore nSize => (s.ignore nSize).map fun s => (.nothing, s)
  | .insertCopies it n x => (s.insertCopies it n x).map fun s => (.nothing, s)
  | .insert it range => (s.insert it range).map fun s => (.nothing, s)
  | .erase it => (s.erase it).map fun s => (.nothing, s)
  | .eraseRange first last => (s.eraseRange first last).map fun s => (.nothing, s)
  | .GetAndClear data => .ok (.bytes (s.GetAndClear data).1, (s.GetAndClear data).2)

/-- An operation on one of several streams, or on two of them. -/
inductive StreamsOp (ι Obj : Type) where
  | on (i : ι) (op : StreamOp Obj)
  /-- `operator+=` -/
  | append (i j : ι)
  /-- `operator<<` -/
  | stream (i j : ι)

/-- A vector cannot be inserted into itself. -/
def StreamsOp.run {ι Obj : Type} [DecidableEq ι] (op : StreamsOp ι Obj) (σ : ι → CDataStream) :
    Halt (ι → CDataStream) (StreamAnswer Obj × (ι → CDataStream)) :=
  match op with
  | .on i op => ((op.run (σ i)).lift fun s => Function.update σ i s).map fun r =>
      (r.1, Function.update σ i r.2)
  | .append i j =>
    if i = j then .error (.undefined, σ)
    else .ok (.nothing, Function.update σ i ((σ i).pushBack (σ j).visible))
  | .stream i j =>
    if i = j ∧ (σ j).vch ≠ [] then .error (.undefined, σ)
    else (((σ i).Serialize (σ j)).lift fun s => Function.update σ i s).map fun s =>
      (.nothing, Function.update σ i s)

end Dions
