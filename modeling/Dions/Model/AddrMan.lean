import Dions.Library.OrdMap
import Dions.Model.Endpoint

/-! # The address manager

Addresses that have not been tried lie in up to four of 256 "new" buckets, the others in one of 64
"tried" buckets. Two maps and a shuffled vector of all ids go with the buckets. -/

namespace Dions

def ADDRMAN_TRIED_BUCKET_COUNT : ℕ := 64
def ADDRMAN_TRIED_BUCKET_SIZE : ℕ := 64
def ADDRMAN_NEW_BUCKET_COUNT : ℕ := 256
def ADDRMAN_NEW_BUCKET_SIZE : ℕ := 64
def ADDRMAN_TRIED_BUCKETS_PER_GROUP : ℕ := 4
def ADDRMAN_NEW_BUCKETS_PER_SOURCE_GROUP : ℕ := 32
def ADDRMAN_NEW_BUCKETS_PER_ADDRESS : ℤ := 4
def ADDRMAN_TRIED_ENTRIES_INSPECT_ON_EVICT : ℕ := 4
def ADDRMAN_HORIZON_DAYS : ℤ := 30
def ADDRMAN_RETRIES : ℤ := 3
def ADDRMAN_MAX_FAILURES : ℤ := 10
def ADDRMAN_MIN_FAIL_DAYS : ℤ := 7
def ADDRMAN_GETADDR_MAX_PCT : ℕ := 23
def ADDRMAN_GETADDR_MAX : ℕ := 2500

/-- Why the program goes no further: an assertion fails, an entry is read that is not there, or
`nIdCount` has reached the largest `int`. -/
inductive AddrStop where
  | assertion
  | missing
  | overflow
  deriving DecidableEq, Repr

/-- `GetRandInt(nMax)`, made from what the random source returns. -/
def GetRandInt (r nMax : ℕ) : ℕ := if nMax = 0 then 0 else r % nMax

/-! ## Entries -/

structure CAddrInfo extends CAddress where
  source : CNetAddr
  nLastSuccess : ℤ
  nAttempts : ℤ
  nRefCount : ℤ
  fInTried : Bool
  nRandomPos : ℤ
  deriving DecidableEq

namespace CAddrInfo

/-- `CAddrInfo(addrIn, addrSource)`. -/
def ofAddress (addrIn : CAddress) (addrSource : CNetAddr) : CAddrInfo where
  toCAddress := { addrIn with nLastTry := 0 }
  source := addrSource
  nLastSuccess := 0
  nAttempts := 0
  nRefCount := 0
  fInTried := false
  nRandomPos := -1

/-- `Hash(..).Get64()`, for the hash function `Hash`. -/
def Get64 (Hash : List UInt8 → ℕ) (ss : List UInt8) : ℕ := Hash ss % 2 ^ 64

def GetTriedBucket (Hash : List UInt8 → ℕ) (nKey : List UInt8) (info : CAddrInfo) : ℕ :=
  let hash1 := Get64 Hash (wireBytes.serialize nKey ++ wireBytes.serialize info.GetKey)
  let hash2 := Get64 Hash (wireBytes.serialize nKey ++ wireBytes.serialize info.GetGroup ++
    (wireUnsigned 8).serialize (hash1 % ADDRMAN_TRIED_BUCKETS_PER_GROUP))
  hash2 % ADDRMAN_TRIED_BUCKET_COUNT

def GetNewBucket (Hash : List UInt8 → ℕ) (nKey : List UInt8) (info : CAddrInfo) (src : CNetAddr) :
    ℕ :=
  let hash1 := Get64 Hash (wireBytes.serialize nKey ++ wireBytes.serialize info.GetGroup ++
    wireBytes.serialize src.GetGroup)
  let hash2 := Get64 Hash (wireBytes.serialize nKey ++ wireBytes.serialize src.GetGroup ++
    (wireUnsigned 8).serialize (hash1 % ADDRMAN_NEW_BUCKETS_PER_SOURCE_GROUP))
  hash2 % ADDRMAN_NEW_BUCKET_COUNT

def IsTerrible (info : CAddrInfo) (nNow : ℤ) : Bool :=
  if info.nLastTry ≠ 0 ∧ nNow - 60 ≤ info.nLastTry then false
  else if nNow + 10 * 60 < (info.nTime : ℤ) then true
  else if info.nTime = 0 ∨ ADDRMAN_HORIZON_DAYS * 86400 < nNow - info.nTime then true
  else if info.nLastSuccess = 0 ∧ ADDRMAN_RETRIES ≤ info.nAttempts then true
  else if ADDRMAN_MIN_FAIL_DAYS * 86400 < nNow - info.nLastSuccess ∧
      ADDRMAN_MAX_FAILURES ≤ info.nAttempts then true
  else false

end CAddrInfo

/-! ## The manager -/

structure CAddrMan where
  nKey : List UInt8
  nIdCount : ℕ
  mapInfo : OrdMap ℕ CAddrInfo
  mapAddr : CNetAddr → Option ℕ
  vRandom : List ℕ
  nTried : ℤ
  vvTried : List (List ℕ)
  nNew : ℤ
  vvNew : List (OrdSet ℕ)

namespace CAddrMan

/-- `CAddrMan()`; the key is random. -/
def empty (nKey : List UInt8) : CAddrMan where
  nKey
  nIdCount := 0
  mapInfo := .empty
  mapAddr := fun _ => none
  vRandom := []
  nTried := 0
  vvTried := List.replicate ADDRMAN_TRIED_BUCKET_COUNT []
  nNew := 0
  vvNew := List.replicate ADDRMAN_NEW_BUCKET_COUNT .empty

def setInfo (s : CAddrMan) (nId : ℕ) (info : CAddrInfo) : CAddrMan :=
  { s with mapInfo := s.mapInfo.insert nId info }

/-- An entry with its id. -/
def Find (s : CAddrMan) (addr : CNetAddr) : Option (ℕ × CAddrInfo) :=
  match s.mapAddr addr with
  | none => none
  | some nId => (s.mapInfo.find nId).map fun info => (nId, info)

def Create (s : CAddrMan) (addr : CAddress) (addrSource : CNetAddr) :
    Except AddrStop (CAddrMan × ℕ) :=
  let nId := s.nIdCount
  if 2 ^ 31 - 1 ≤ nId then .error .overflow
  else
    .ok ({ s with
      nIdCount := nId + 1
      mapInfo := s.mapInfo.insert nId
        { CAddrInfo.ofAddress addr addrSource with nRandomPos := s.vRandom.length }
      mapAddr := Function.update s.mapAddr addr.toCNetAddr (some nId)
      vRandom := s.vRandom ++ [nId] }, nId)

def SwapRandom (s : CAddrMan) (nRndPos1 nRndPos2 : ℕ) : Except AddrStop CAddrMan :=
  if nRndPos1 = nRndPos2 then .ok s
  else
    match s.vRandom[nRndPos1]?, s.vRandom[nRndPos2]? with
    | some nId1, some nId2 =>
      match s.mapInfo.find nId1, s.mapInfo.find nId2 with
      | some info1, some info2 =>
        .ok { s with
          mapInfo := (s.mapInfo.insert nId1 { info1 with nRandomPos := nRndPos2 }).insert nId2
            { info2 with nRandomPos := nRndPos1 }
          vRandom := (s.vRandom.set nRndPos1 nId2).set nRndPos2 nId1 }
      | _, _ => .error .assertion
    | _, _ => .error .assertion

/-- One round of `SelectTried`: the bucket, and the oldest so far with the position kept for it. -/
def selectRound (s : CAddrMan) (r i : ℕ) (vTried : List ℕ) (nOldest : Option (ℕ × ℕ)) :
    Except AddrStop (List ℕ × Option (ℕ × ℕ)) :=
  let nPos := GetRandInt r (vTried.length - i) + i
  match vTried[nPos]?, vTried[i]? with
  | some nTemp, some nFirst =>
    let vTried := (vTried.set nPos nFirst).set i nTemp
    match nOldest with
    | none => .ok (vTried, some (nTemp, nPos))
    | some (nId, _) =>
      match s.mapInfo.find nTemp, s.mapInfo.find nId with
      | none, _ => .error .assertion
      | some _, none => .error .missing
      | some infoTemp, some infoOldest =>
        if infoTemp.nLastSuccess < infoOldest.nLastSuccess then
          .ok (vTried, some (nTemp, nPos))
        else .ok (vTried, nOldest)
  | _, _ => .error .missing

def selectLoop (s : CAddrMan) (rand : ℕ → ℕ) : (rounds i : ℕ) → List ℕ → Option (ℕ × ℕ) →
    Except AddrStop (List ℕ × Option (ℕ × ℕ))
  | 0, _, vTried, nOldest => .ok (vTried, nOldest)
  | rounds + 1, i, vTried, nOldest =>
    match selectRound s (rand i) i vTried nOldest with
    | .error e => .error e
    | .ok (vTried, nOldest) => selectLoop s rand rounds (i + 1) vTried nOldest

/-- The shuffled bucket and the position to replace. -/
def SelectTried (s : CAddrMan) (rand : ℕ → ℕ) (vTried : List ℕ) :
    Except AddrStop (List ℕ × Option ℕ) :=
  match selectLoop s rand (min ADDRMAN_TRIED_ENTRIES_INSPECT_ON_EVICT vTried.length) 0 vTried
    none with
  | .error e => .error e
  | .ok (vTried, nOldest) => .ok (vTried, nOldest.map Prod.snd)

/-- What `ShrinkNew` does with the entry it has chosen. -/
def dropNew (s : CAddrMan) (nUBucket : ℕ) (vNew : OrdSet ℕ) (nId : ℕ) : Except AddrStop CAddrMan :=
  match s.mapInfo.find nId with
  | none => .error .assertion
  | some info =>
    let s := s.setInfo nId { info with nRefCount := info.nRefCount - 1 }
    let vvNew := s.vvNew.set nUBucket (vNew.erase nId)
    if info.nRefCount - 1 = 0 then
      match s.SwapRandom info.nRandomPos.toNat (s.vRandom.length - 1) with
      | .error e => .error e
      | .ok s =>
        .ok { s with
          vRandom := s.vRandom.dropLast
          mapAddr := Function.update s.mapAddr info.toCNetAddr none
          mapInfo := s.mapInfo.erase nId
          nNew := s.nNew - 1
          vvNew }
    else .ok { s with vvNew }

/-- The first entry of a bucket that can be deleted; `now` is the time at each of them. -/
def firstTerrible (s : CAddrMan) (now : ℕ → ℤ) : ℕ → List ℕ → Except AddrStop (Option ℕ)
  | _, [] => .ok none
  | k, nId :: it =>
    match s.mapInfo.find nId with
    | none => .error .assertion
    | some info => if info.IsTerrible (now k) then .ok (some nId) else firstTerrible s now (k + 1) it

/-- The oldest of the entries at the positions `n`. -/
def oldestAmong (s : CAddrMan) (n : List ℕ) : ℕ → Option ℕ → List ℕ → Except AddrStop (Option ℕ)
  | _, nOldest, [] => .ok nOldest
  | nI, nOldest, nId :: it =>
    if nI ∈ n then
      match nOldest with
      | none => oldestAmong s n (nI + 1) (some nId) it
      | some nOld =>
        match s.mapInfo.find nId, s.mapInfo.find nOld with
        | none, _ => .error .assertion
        | some _, none => .error .missing
        | some info, some infoOld =>
          if info.nTime < infoOld.nTime then oldestAmong s n (nI + 1) (some nId) it
          else oldestAmong s n (nI + 1) nOldest it
    else oldestAmong s n (nI + 1) nOldest it

def ShrinkNew (s : CAddrMan) (nUBucket : ℕ) (rand : ℕ → ℕ) (now : ℕ → ℤ) :
    Except AddrStop (CAddrMan × ℤ) :=
  match s.vvNew[nUBucket]? with
  | none => .error .assertion
  | some vNew =>
    match firstTerrible s now 0 vNew.keys with
    | .error e => .error e
    | .ok (some nId) => (s.dropNew nUBucket vNew nId).map fun s => (s, 0)
    | .ok none =>
      let n := [GetRandInt (rand 0) vNew.size, GetRandInt (rand 1) vNew.size,
        GetRandInt (rand 2) vNew.size, GetRandInt (rand 3) vNew.size]
      match oldestAmong s n 0 none vNew.keys with
      | .error e => .error e
      | .ok none => .error .assertion
      | .ok (some nOldest) => (s.dropNew nUBucket vNew nOldest).map fun s => (s, 1)

variable (Hash : List UInt8 → ℕ)

/-- The second half of `MakeTried`, when the tried bucket is full: `nId` takes the place of an entry
that goes back to a "new" bucket. -/
def evictTried (s : CAddrMan) (info : CAddrInfo) (nId nOrigin nKBucket : ℕ) (vTried : List ℕ)
    (rand : ℕ → ℕ) : Except AddrStop CAddrMan :=
  match s.SelectTried rand vTried with
  | .error e => .error e
  | .ok (_, none) => .error .missing
  | .ok (vTried, some nPos) =>
    match vTried[nPos]? with
    | none => .error .missing
    | some nOld =>
      match s.mapInfo.find nOld with
      | none => .error .assertion
      | some infoOld =>
        let nUBucket := infoOld.GetNewBucket Hash s.nKey infoOld.source
        match s.vvNew[nUBucket]?, s.vvNew[nOrigin]? with
        | some vNew, some vOrigin =>
          .ok { s with
            mapInfo := (s.mapInfo.insert nOld
              { infoOld with fInTried := false, nRefCount := 1 }).insert nId
              { info with fInTried := true }
            vvNew :=
              if vNew.size < ADDRMAN_NEW_BUCKET_SIZE then s.vvNew.set nUBucket (vNew.insert nOld ())
              -- otherwise to the bucket that `nId` came from
              else s.vvNew.set nOrigin (vOrigin.insert nOld ())
            nNew := s.nNew + 1
            vvTried := s.vvTried.set nKBucket (vTried.set nPos nId) }
        | _, _ => .error .missing

def MakeTried (s : CAddrMan) (info : CAddrInfo) (nId nOrigin : ℕ) (rand : ℕ → ℕ) :
    Except AddrStop CAddrMan :=
  match s.vvNew[nOrigin]? with
  | none => .error .missing
  | some vOrigin =>
    if nId ∉ vOrigin.keys then .error .assertion
    else
      -- the entry is erased from every bucket, and counted down for each it was in
      let nErased := s.vvNew.countP (nId ∈ OrdMap.keys ·)
      let info := { info with nRefCount := info.nRefCount - nErased }
      let s :=
        { s.setInfo nId info with
          vvNew := s.vvNew.map (OrdMap.erase · nId)
          nNew := s.nNew - 1 }
      if info.nRefCount ≠ 0 then .error .assertion
      else
        let nKBucket := info.GetTriedBucket Hash s.nKey
        match s.vvTried[nKBucket]? with
        | none => .error .missing
        | some vTried =>
          if vTried.length < ADDRMAN_TRIED_BUCKET_SIZE then
            .ok { s.setInfo nId { info with fInTried := true } with
              vvTried := s.vvTried.set nKBucket (vTried ++ [nId])
              nTried := s.nTried + 1 }
          else s.evictTried Hash info nId nOrigin nKBucket vTried rand

def Good_ (s : CAddrMan) (addr : CService) (nTime : ℤ) (rand : ℕ → ℕ) :
    Except AddrStop CAddrMan :=
  match s.Find addr.toCNetAddr with
  | none => .ok s
  | some (nId, info) =>
    if info.toCService ≠ addr then .ok s
    else
      let info :=
        { info with
          nLastSuccess := nTime
          nLastTry := nTime
          nTime := (nTime % 2 ^ 32).toNat
          nAttempts := 0 }
      let s := s.setInfo nId info
      if info.fInTried then .ok s
      else
        let nRnd := GetRandInt (rand 0) s.vvNew.length
        let order := (List.range s.vvNew.length).map fun n => (n + nRnd) % s.vvNew.length
        match order.find? fun nB => (s.vvNew[nB]?).any fun vNew => nId ∈ vNew.keys with
        | none => .ok s
        | some nUBucket => s.MakeTried Hash info nId nUBucket fun k => rand (k + 1)

/-- The end of `Add_`: the entry is put into the bucket for its source. -/
def placeNew (s : CAddrMan) (nId : ℕ) (info : CAddrInfo) (source : CNetAddr) (rand : ℕ → ℕ)
    (now : ℕ → ℤ) : Except AddrStop CAddrMan :=
  let nUBucket := info.GetNewBucket Hash s.nKey source
  match s.vvNew[nUBucket]? with
  | none => .error .missing
  | some vNew =>
    if nId ∈ vNew.keys then .ok s
    else
      let s := s.setInfo nId { info with nRefCount := info.nRefCount + 1 }
      match if vNew.size = ADDRMAN_NEW_BUCKET_SIZE then s.ShrinkNew nUBucket rand now
        else .ok (s, 0) with
      | .error e => .error e
      | .ok (s, _) =>
        match s.vvNew[nUBucket]? with
        | none => .error .missing
        | some vNew => .ok { s with vvNew := s.vvNew.set nUBucket (vNew.insert nId ()) }

/-- `max((int64_t)0, nTime - nTimePenalty)`, stored in an `unsigned int`. -/
def penalized (nTime : ℕ) (nTimePenalty : ℤ) : ℕ := (max 0 (nTime - nTimePenalty)).toNat % 2 ^ 32

def Add_ (s : CAddrMan) (addr : CAddress) (source : CNetAddr) (nTimePenalty : ℤ) (rand : ℕ → ℕ)
    (now : ℕ → ℤ) : Except AddrStop (CAddrMan × Bool) :=
  if !addr.IsRoutable then .ok (s, false)
  else
    match s.Find addr.toCNetAddr with
    | some (nId, info) =>
      let fCurrentlyOnline : Bool := now 0 - addr.nTime < 24 * 60 * 60
      let nUpdateInterval : ℤ := if fCurrentlyOnline then 60 * 60 else 24 * 60 * 60
      let nTime :=
        if addr.nTime ≠ 0 ∧
            (info.nTime = 0 ∨ (info.nTime : ℤ) < addr.nTime - nUpdateInterval - nTimePenalty) then
          penalized addr.nTime nTimePenalty
        else info.nTime
      let info := { info with nTime, nServices := info.nServices ||| addr.nServices }
      let s := s.setInfo nId info
      -- no new information
      if addr.nTime = 0 ∨ (info.nTime ≠ 0 ∧ addr.nTime ≤ info.nTime) then .ok (s, false)
      else if info.fInTried then .ok (s, false)
      else if info.nRefCount = ADDRMAN_NEW_BUCKETS_PER_ADDRESS then .ok (s, false)
      else
        let nFactor := 2 ^ info.nRefCount.toNat
        if 1 < nFactor ∧ GetRandInt (rand 0) nFactor ≠ 0 then .ok (s, false)
        else
          (s.placeNew Hash nId info source (fun k => rand (k + 1)) fun k => now (k + 1)).map
            fun s => (s, false)
    | none =>
      match s.Create addr source with
      | .error e => .error e
      | .ok (s, nId) =>
        match s.mapInfo.find nId with
        | none => .error .missing
        | some info =>
          let info := { info with nTime := penalized info.nTime nTimePenalty }
          let s := { s.setInfo nId info with nNew := s.nNew + 1 }
          (s.placeNew Hash nId info source (fun k => rand (k + 1)) fun k => now (k + 1)).map
            fun s => (s, true)

def Attempt_ (s : CAddrMan) (addr : CService) (nTime : ℤ) : CAddrMan :=
  match s.Find addr.toCNetAddr with
  | none => s
  | some (nId, info) =>
    if info.toCService ≠ addr then s
    else s.setInfo nId { info with nLastTry := nTime, nAttempts := info.nAttempts + 1 }

def Connected_ (s : CAddrMan) (addr : CService) (nTime : ℤ) : CAddrMan :=
  match s.Find addr.toCNetAddr with
  | none => s
  | some (nId, info) =>
    if info.toCService ≠ addr then s
    else if 20 * 60 < nTime - info.nTime then
      s.setInfo nId { info with nTime := (nTime % 2 ^ 32).toNat }
    else s

/-- The loop of `GetAddr_`, from the `n`th address on. -/
def getAddrLoop (rand : ℕ → ℕ) : (rounds n : ℕ) → CAddrMan → List CAddress →
    Except AddrStop (CAddrMan × List CAddress)
  | 0, _, s, vAddr => .ok (s, vAddr)
  | rounds + 1, n, s, vAddr =>
    match s.SwapRandom n (GetRandInt (rand n) (s.vRandom.length - n) + n) with
    | .error e => .error e
    | .ok s =>
      match s.vRandom[n]? with
      | none => .error .missing
      | some nId =>
        match s.mapInfo.find nId with
        | none => .error .assertion
        | some info => getAddrLoop rand rounds (n + 1) s (vAddr ++ [info.toCAddress])

def GetAddr_ (s : CAddrMan) (rand : ℕ → ℕ) : Except AddrStop (CAddrMan × List CAddress) :=
  let nNodes := ADDRMAN_GETADDR_MAX_PCT * s.vRandom.length / 100
  getAddrLoop rand (min nNodes ADDRMAN_GETADDR_MAX) 0 s []

/-- A round of the loops of `Select_`: the random bucket and position, and how the comparison with
the chance of the entry comes out. -/
structure SelectRound where
  bucket : ℕ
  pos : ℕ
  accepted : Bool
  deriving DecidableEq, Repr

/-- The loops of `Select_` over the buckets, for as many rounds as are given. -/
def chooseFrom (s : CAddrMan) (buckets : List (List ℕ)) :
    List SelectRound → Except AddrStop (Option CAddress)
  | [] => .ok none
  | round :: rounds =>
    match buckets[GetRandInt round.bucket buckets.length]? with
    | none => .error .missing
    | some bucket =>
      if bucket.length = 0 then chooseFrom s buckets rounds
      else
        match bucket[GetRandInt round.pos bucket.length]? with
        | none => .error .missing
        | some nId =>
          match s.mapInfo.find nId with
          | none => .error .assertion
          | some info =>
            if round.accepted then .ok (some info.toCAddress) else chooseFrom s buckets rounds

/-- `CAddress()`. -/
def noAddress : CAddress where
  ip := List.replicate 16 0
  length_ip := length_zeros
  port := 0
  nServices := 1
  nTime := 100000000
  nLastTry := 0

/-- `fTried` is how the choice between the tables comes out, which is made with `double`s. `none`
if more rounds are needed. -/
def Select_ (s : CAddrMan) (fTried : Bool) (rounds : List SelectRound) :
    Except AddrStop (Option CAddress) :=
  if s.vRandom.length = 0 then .ok (some noAddress)
  else if fTried then s.chooseFrom s.vvTried rounds
  else s.chooseFrom (s.vvNew.map OrdMap.keys) rounds

/-! ## The consistency check -/

/-- What `Check_` looks at in an entry; `0` if there is nothing wrong. -/
def checkInfo (s : CAddrMan) (n : ℕ) (info : CAddrInfo) : ℤ :=
  if info.fInTried ∧ info.nLastSuccess = 0 then -1
  else if info.fInTried ∧ info.nRefCount ≠ 0 then -2
  else if ¬info.fInTried ∧
      (info.nRefCount < 0 ∨ ADDRMAN_NEW_BUCKETS_PER_ADDRESS < info.nRefCount) then -3
  else if ¬info.fInTried ∧ info.nRefCount = 0 then -4
  else if (s.mapAddr info.toCNetAddr).getD 0 ≠ n then -5
  else if info.nRandomPos < 0 ∨ (s.vRandom.length : ℤ) ≤ info.nRandomPos ∨
      s.vRandom[info.nRandomPos.toNat]? ≠ some n then -14
  else if info.nLastTry < 0 then -6
  else if info.nLastSuccess < 0 then -8
  else 0

/-- The walk through `mapInfo`. -/
def checkInfos (s : CAddrMan) : List (ℕ × CAddrInfo) → OrdSet ℕ → OrdMap ℕ ℤ →
    Except ℤ (OrdSet ℕ × OrdMap ℕ ℤ)
  | [], setTried, mapNew => .ok (setTried, mapNew)
  | (n, info) :: it, setTried, mapNew =>
    if s.checkInfo n info ≠ 0 then .error (s.checkInfo n info)
    else if info.fInTried then checkInfos s it (setTried.insert n ()) mapNew
    else checkInfos s it setTried (mapNew.insert n info.nRefCount)

/-- The walk through the tried buckets. -/
def checkTried : List ℕ → OrdSet ℕ → Except ℤ (OrdSet ℕ)
  | [], setTried => .ok setTried
  | nId :: it, setTried =>
    if nId ∉ setTried.keys then .error (-11) else checkTried it (setTried.erase nId)

/-- The walk through the "new" buckets. -/
def checkNew : List ℕ → OrdMap ℕ ℤ → Except ℤ (OrdMap ℕ ℤ)
  | [], mapNew => .ok mapNew
  | nId :: it, mapNew =>
    match mapNew.find nId with
    | none => .error (-12)
    | some n => checkNew it (if n - 1 = 0 then mapNew.erase nId else mapNew.insert nId (n - 1))

def Check_ (s : CAddrMan) : ℤ :=
  if (s.vRandom.length : ℤ) ≠ s.nTried + s.nNew then -7
  else
    match s.checkInfos s.mapInfo.entries .empty .empty with
    | .error e => e
    | .ok (setTried, mapNew) =>
      if (setTried.size : ℤ) ≠ s.nTried then -9
      else if (mapNew.size : ℤ) ≠ s.nNew then -10
      else
        match checkTried s.vvTried.flatten setTried, checkNew (s.vvNew.flatMap OrdMap.keys) mapNew with
        | .error e, _ => e
        | .ok _, .error e => e
        | .ok setTried, .ok mapNew =>
          if setTried.size ≠ 0 then -13 else if mapNew.size ≠ 0 then -15 else 0

end CAddrMan

/-! ## Runs -/

inductive AddrOp where
  | Add_ (addr : CAddress) (source : CNetAddr) (nTimePenalty : ℤ) (rand : ℕ → ℕ) (now : ℕ → ℤ)
  | Good_ (addr : CService) (nTime : ℤ) (rand : ℕ → ℕ)
  | Attempt_ (addr : CService) (nTime : ℤ)
  | Connected_ (addr : CService) (nTime : ℤ)
  | GetAddr_ (rand : ℕ → ℕ)
  | Select_ (fTried : Bool) (rounds : List CAddrMan.SelectRound)

def AddrOp.run (Hash : List UInt8 → ℕ) (s : CAddrMan) : AddrOp → Except AddrStop CAddrMan
  | .Add_ addr source nTimePenalty rand now =>
    (s.Add_ Hash addr source nTimePenalty rand now).map Prod.fst
  | .Good_ addr nTime rand => s.Good_ Hash addr nTime rand
  | .Attempt_ addr nTime => .ok (s.Attempt_ addr nTime)
  | .Connected_ addr nTime => .ok (s.Connected_ addr nTime)
  | .GetAddr_ rand => (s.GetAddr_ rand).map Prod.fst
  | .Select_ fTried rounds => (s.Select_ fTried rounds).map fun _ => s

def addrRun (Hash : List UInt8 → ℕ) (s : CAddrMan) (ops : List AddrOp) : Except AddrStop CAddrMan :=
  ops.foldlM (AddrOp.run Hash) s

end Dions
