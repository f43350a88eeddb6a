import Mathlib.Algebra.Order.Ring.Int
import Mathlib.Logic.Function.Basic
import Dions.Library.OrdMap

/-! # The key pool

Keys made in advance lie in the wallet database under an index. A set holds the indices that nobody
has reserved; a reserved one is given back to the set or its record is erased. -/

namespace Dions

/-- The exceptions, by their texts, with the index that the caller has got by then. -/
inductive PoolStop where
  | writeFailed
  | readFailed (nIndex : ℤ)
  | unknownKey (nIndex : ℤ)
  deriving DecidableEq, Repr

structure CKeyPool (κ : Type) where
  nTime : ℤ
  vchPubKey : κ
  deriving DecidableEq, Repr

/-- A key that somebody has reserved; `nIndex` is `-1` if it is not one of the pool. -/
structure CReserveKey (κ : Type) where
  nIndex : ℤ
  vchPubKey : Option κ
  deriving DecidableEq, Repr

/-- `CReserveKey()`. -/
def CReserveKey.none {κ : Type} : CReserveKey κ := ⟨-1, Option.none⟩

structure KeyPool (κ : Type) where
  setKeyPool : OrdSet ℤ
  /-- The records of the pool in the wallet database. -/
  db : ℤ → Option (CKeyPool κ)
  /-- The keys of the key store, in the order in which they were made. -/
  keys : List κ
  fLocked : Bool
  /-- The objects that reserve keys. -/
  reserveKeys : ℕ → CReserveKey κ
  /-- The keys that were handed out for good, as a log that the code does not keep. -/
  handedOut : List κ

/-- What stays the same: the keys to come, the argument `-keypool` and the default key. -/
structure KeyPoolEnv (κ : Type) where
  newKey : ℕ → κ
  nKeyPool : ℤ
  vchDefaultKey : Option κ

/-- What the outside world answers in a call: the time, and which records cannot be written or
erased. -/
structure PoolIo where
  nTime : ℤ
  writeFails : ℤ → Bool
  eraseFails : ℤ → Bool

variable {κ : Type} [DecidableEq κ] (env : KeyPoolEnv κ) (io : PoolIo)

/-- A call that ends with a result or with an exception; each leaves a state. -/
abbrev PoolCall (κ α : Type) := Except (PoolStop × KeyPool κ) α

namespace KeyPool

/-! ## Records -/

def GenerateNewKey (s : KeyPool κ) : KeyPool κ × κ :=
  ({ s with keys := s.keys ++ [env.newKey s.keys.length] }, env.newKey s.keys.length)

def WritePool (s : KeyPool κ) (nPool : ℤ) (keypool : CKeyPool κ) : KeyPool κ :=
  if io.writeFails nPool then s else { s with db := Function.update s.db nPool (some keypool) }

def ErasePool (s : KeyPool κ) (nPool : ℤ) : KeyPool κ :=
  if io.eraseFails nPool then s else { s with db := Function.update s.db nPool none }

/-! ## Filling the pool -/

/-- One round of the loop of `NewKeyPool`, which does not look whether the record was written. -/
def newKeyRound (s : KeyPool κ) (nIndex : ℤ) : KeyPool κ :=
  let (s, key) := s.GenerateNewKey env
  let s := s.WritePool io nIndex ⟨io.nTime, key⟩
  { s with setKeyPool := s.setKeyPool.insert nIndex () }

/-- `nIndex` from 1 to `max(GetArg("-keypool", 100), 0)`. -/
def newIndices : List ℤ := (List.range env.nKeyPool.toNat).map fun (i : ℕ) => (i : ℤ) + 1

def NewKeyPool (s : KeyPool κ) : KeyPool κ :=
  let s := s.setKeyPool.keys.foldl (fun s nIndex => s.ErasePool io nIndex) s
  let s := { s with setKeyPool := .empty }
  if s.fLocked then s else (newIndices env).foldl (fun s nIndex => s.newKeyRound env io nIndex) s

/-- One more than the largest index of the set. -/
def nEnd (s : KeyPool κ) : ℤ :=
  match s.setKeyPool.keys.getLast? with
  | none => 1
  | some nIndex => nIndex + 1

def topUpRound (s : KeyPool κ) : PoolCall κ (KeyPool κ) :=
  let nEnd := s.nEnd
  let (s, key) := s.GenerateNewKey env
  if io.writeFails nEnd then .error (.writeFailed, s)
  else
    let s := s.WritePool io nEnd ⟨io.nTime, key⟩
    .ok { s with setKeyPool := s.setKeyPool.insert nEnd () }

def topUpLoop : (rounds : ℕ) → KeyPool κ → PoolCall κ (KeyPool κ)
  | 0, s => .ok s
  | rounds + 1, s =>
    match s.topUpRound env io with
    | .error e => .error e
    | .ok s => topUpLoop rounds s

/-- `nTargetSize + 1`, both of type `unsigned int`. -/
def targetSize (nSize : ℕ) : ℕ :=
  ((if 0 < nSize then nSize else env.nKeyPool.toNat % 2 ^ 32) + 1) % 2 ^ 32

/-- How many keys are missing; each round of the loop adds one. -/
def missing (s : KeyPool κ) (nSize : ℕ) : ℕ := targetSize env nSize - s.setKeyPool.size

def TopUpKeyPool (nSize : ℕ) (s : KeyPool κ) : PoolCall κ (KeyPool κ) :=
  if s.fLocked then .ok s else topUpLoop env io (s.missing env nSize) s

/-! ## Reserving a key -/

/-- The state comes with the oldest key of the pool and its index. -/
def ReserveKeyFromKeyPool (s : KeyPool κ) : PoolCall κ (KeyPool κ × Option (ℤ × CKeyPool κ)) :=
  match if s.fLocked then .ok s else s.TopUpKeyPool env io 0 with
  | .error e => .error e
  | .ok s =>
    match s.setKeyPool.keys.head? with
    | none => .ok (s, none)
    | some nIndex =>
      let s := { s with setKeyPool := s.setKeyPool.erase nIndex }
      match s.db nIndex with
      | none => .error (.readFailed nIndex, s)
      | some keypool =>
        if keypool.vchPubKey ∈ s.keys then .ok (s, some (nIndex, keypool))
        else .error (.unknownKey nIndex, s)

def KeepKey (s : KeyPool κ) (nIndex : ℤ) : KeyPool κ := s.ErasePool io nIndex

def ReturnKey (s : KeyPool κ) (nIndex : ℤ) : KeyPool κ :=
  { s with setKeyPool := s.setKeyPool.insert nIndex () }

/-- A key of the pool is kept at once. The form that gives two keys does this twice, without the
default key. -/
def GetKeyFromPool (fAllowReuse : Bool) (s : KeyPool κ) : PoolCall κ (KeyPool κ) :=
  match s.ReserveKeyFromKeyPool env io with
  | .error e => .error e
  | .ok (s, none) =>
    if (fAllowReuse && env.vchDefaultKey.isSome) || s.fLocked then .ok s
    else
      let (s, key) := s.GenerateNewKey env
      .ok { s with handedOut := s.handedOut ++ [key] }
  | .ok (s, some (nIndex, keypool)) =>
    .ok { s.KeepKey io nIndex with handedOut := s.handedOut ++ [keypool.vchPubKey] }

/-- The oldest key is reserved and returned. -/
def GetOldestKeyPoolTime (s : KeyPool κ) : PoolCall κ (KeyPool κ × ℤ) :=
  match s.ReserveKeyFromKeyPool env io with
  | .error e => .error e
  | .ok (s, none) => .ok (s, io.nTime)
  | .ok (s, some (nIndex, keypool)) => .ok (s.ReturnKey nIndex, keypool.nTime)

/-! ## Objects that reserve keys -/

def setReserveKey (s : KeyPool κ) (h : ℕ) (r : CReserveKey κ) : KeyPool κ :=
  { s with reserveKeys := Function.update s.reserveKeys h r }

/-- `CReserveKey::GetReservedKey`; without a key of the pool the default key has to do. The index is
the object's own, also where the call throws. -/
def GetReservedKey (h : ℕ) (s : KeyPool κ) : PoolCall κ (KeyPool κ) :=
  if (s.reserveKeys h).nIndex = -1 then
    match s.ReserveKeyFromKeyPool env io with
    | .error (.writeFailed, s) => .error (.writeFailed, s)
    | .error (.readFailed nIndex, s) =>
      .error (.readFailed nIndex, s.setReserveKey h ⟨nIndex, (s.reserveKeys h).vchPubKey⟩)
    | .error (.unknownKey nIndex, s) =>
      .error (.unknownKey nIndex, s.setReserveKey h ⟨nIndex, (s.reserveKeys h).vchPubKey⟩)
    | .ok (s, none) =>
      if env.vchDefaultKey.isSome then .ok (s.setReserveKey h ⟨-1, env.vchDefaultKey⟩) else .ok s
    | .ok (s, some (nIndex, keypool)) => .ok (s.setReserveKey h ⟨nIndex, some keypool.vchPubKey⟩)
  else .ok s

/-- `CReserveKey::KeepKey`. -/
def keepReserved (h : ℕ) (s : KeyPool κ) : KeyPool κ :=
  let r := s.reserveKeys h
  let s := if r.nIndex = -1 then s
    else { s.KeepKey io r.nIndex with handedOut := s.handedOut ++ r.vchPubKey.toList }
  s.setReserveKey h .none

/-- `CReserveKey::ReturnKey`. -/
def returnReserved (h : ℕ) (s : KeyPool κ) : KeyPool κ :=
  let r := s.reserveKeys h
  let s := if r.nIndex = -1 then s else s.ReturnKey r.nIndex
  s.setReserveKey h .none

end KeyPool

/-! ## Runs -/

/-- One call of anybody, or the wallet is locked or unlocked. -/
inductive PoolEvent where
  | topUp (nSize : ℕ)
  | newPool
  | reserve (h : ℕ)
  | keep (h : ℕ)
  | giveBack (h : ℕ)
  | take (fAllowReuse : Bool)
  | oldest
  | lock
  | unlock
  deriving DecidableEq, Repr

def PoolEvent.run (s : KeyPool κ) : PoolEvent → PoolCall κ (KeyPool κ)
  | .topUp nSize => s.TopUpKeyPool env io nSize
  | .newPool => .ok (s.NewKeyPool env io)
  | .reserve h => s.GetReservedKey env io h
  | .keep h => .ok (s.keepReserved io h)
  | .giveBack h => .ok (s.returnReserved h)
  | .take fAllowReuse => s.GetKeyFromPool env io fAllowReuse
  | .oldest => (s.GetOldestKeyPoolTime env io).map Prod.fst
  | .lock => .ok { s with fLocked := true }
  | .unlock => .ok { s with fLocked := false }

/-- The state that an event leaves, also by an exception. -/
def PoolEvent.next (s : KeyPool κ) (e : PoolEvent) : KeyPool κ :=
  match e.run env io s with
  | .ok s => s
  | .error (_, s) => s

end Dions
