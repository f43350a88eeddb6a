import Dions.Library.BigEndian
import Dions.Model.AddrMan

/-! # The file of the address manager

The entries of the "new" table are written in the order of their ids and numbered by their places, and
the tried ones behind them; then come the "new" buckets with these numbers. What a reader needs
besides it makes anew. -/

namespace Dions

open Codec

/-! ## Entries -/

/-- `FLATDATA`: an array as it lies in memory. -/
def wireArray (size : ℕ) : Wire (List UInt8) := (Codec.symbol .endOfData).replicate size

theorem wireArray_valid {size : ℕ} {bs : List UInt8} :
    (wireArray size).Valid bs ↔ bs.length = size := by
  constructor
  · exact fun h => h.1
  · exact fun h => ⟨h, fun _ _ => trivial⟩

/-- Sixteen bytes, which a reader always has. -/
def CNetAddr.ofBytes (bs : List UInt8) : CNetAddr :=
  if h : bs.length = 16 then ⟨bs, h⟩ else ⟨List.replicate 16 0, length_zeros⟩

def CNetAddr.wire : Wire CNetAddr :=
  (wireArray 16).image CNetAddr.ofBytes CNetAddr.ip (fun _ => True)
    (fun addr _ => ⟨wireArray_valid.mpr addr.length_ip,
      by rw [CNetAddr.ofBytes, dif_pos addr.length_ip]⟩)
    (fun bs h => ⟨trivial, by rw [CNetAddr.ofBytes, dif_pos (wireArray_valid.mp h)]⟩)

/-- The port in network order. -/
def wirePort : Wire ℕ :=
  (wireArray 2).image BigEndian.value (BigEndian.toBytes 2) (· < 256 ^ 2)
    (fun port h => ⟨wireArray_valid.mpr (BigEndian.length_toBytes 2 port),
      BigEndian.value_toBytes h⟩)
    (by
      intro bs h
      have hlength := wireArray_valid.mp h
      exact ⟨hlength ▸ BigEndian.value_lt bs, hlength ▸ BigEndian.toBytes_value bs⟩)

def CService.wire : Wire CService :=
  (CNetAddr.wire.seq fun _ => wirePort).record
    { toFun := fun p => ⟨p.1, p.2⟩
      invFun := fun service => (service.toCNetAddr, service.port)
      left_inv := fun _ => rfl
      right_inv := fun _ => rfl }

namespace CAddrInfo

/-- What is written of an entry, the rest being as `Init` leaves it. -/
def stored (info : CAddrInfo) : CAddrInfo :=
  { info with nLastTry := 0, nRefCount := 0, fInTried := false, nRandomPos := -1 }

/-- The version of the stream goes in front; the values that are in memory only are not written. -/
def wire : Wire (ℤ × CAddrInfo) :=
  ((wireSigned 4).seq fun _ => (wireUnsigned 4).seq fun _ => (wireUnsigned 8).seq fun _ =>
    CService.wire.seq fun _ => CNetAddr.wire.seq fun _ => (wireSigned 8).seq fun _ =>
    wireSigned 4).image
    (fun p => (p.1,
      { toCService := p.2.2.2.1
        nTime := p.2.1
        nServices := p.2.2.1
        nLastTry := 0
        source := p.2.2.2.2.1
        nLastSuccess := p.2.2.2.2.2.1
        nAttempts := p.2.2.2.2.2.2
        nRefCount := 0
        fInTried := false
        nRandomPos := -1 }))
    (fun x => (x.1, x.2.nTime, x.2.nServices, x.2.toCService, x.2.source, x.2.nLastSuccess,
      x.2.nAttempts))
    (fun x => ((wireSigned 4).Valid x.1 ∧ (wireUnsigned 4).Valid x.2.nTime ∧
      (wireUnsigned 8).Valid x.2.nServices ∧ CService.wire.Valid x.2.toCService ∧
      CNetAddr.wire.Valid x.2.source ∧ (wireSigned 8).Valid x.2.nLastSuccess ∧
      (wireSigned 4).Valid x.2.nAttempts) ∧ x.2.stored = x.2)
    (fun _ hx => ⟨hx.1, Prod.ext rfl hx.2⟩)
    (fun _ h => ⟨⟨h, rfl⟩, rfl⟩)

end CAddrInfo

/-- `CAddrInfo()`. -/
def CAddrInfo.init : CAddrInfo where
  toCAddress := CAddrMan.noAddress
  source := ⟨List.replicate 16 0, length_zeros⟩
  nLastSuccess := 0
  nAttempts := 0
  nRefCount := 0
  fInTried := false
  nRandomPos := -1

namespace CAddrMan

/-! ## Writing -/

section Write

variable (nVersion : ℤ)

/-- The entries with a reference, up to `nNew` of them, and the number that goes with each id. -/
def writeNew (nNew : ℤ) : (it : List (ℕ × CAddrInfo)) → (nIds : ℕ) → (mapUnkIds : ℕ → ℕ) →
    List UInt8 × (ℕ → ℕ)
  | [], _, mapUnkIds => ([], mapUnkIds)
  | (n, info) :: it, nIds, mapUnkIds =>
    if (nIds : ℤ) = nNew then ([], mapUnkIds)
    else
      let mapUnkIds := Function.update mapUnkIds n nIds
      if info.nRefCount ≠ 0 then
        let (s, mapUnkIds) := writeNew nNew it (nIds + 1) mapUnkIds
        (CAddrInfo.wire.serialize (nVersion, info) ++ s, mapUnkIds)
      else writeNew nNew it nIds mapUnkIds

/-- The tried entries, up to `nTried` of them. -/
def writeTried (nTried : ℤ) : (it : List (ℕ × CAddrInfo)) → (nIds : ℕ) → List UInt8
  | [], _ => []
  | (_, info) :: it, nIds =>
    if (nIds : ℤ) = nTried then []
    else if info.fInTried then
      CAddrInfo.wire.serialize (nVersion, info) ++ writeTried nTried it (nIds + 1)
    else writeTried nTried it nIds

def writeBucket (mapUnkIds : ℕ → ℕ) (vNew : OrdSet ℕ) : List UInt8 :=
  (wireSigned 4).serialize vNew.size ++
    vNew.keys.flatMap fun (nId : ℕ) => (wireSigned 4).serialize (mapUnkIds nId : ℤ)

def Serialize (s : CAddrMan) : List UInt8 :=
  let (infos, mapUnkIds) := writeNew nVersion s.nNew s.mapInfo.entries 0 fun _ => 0
  (wireUnsigned 1).serialize 0 ++ wireBytes.serialize s.nKey ++ (wireSigned 4).serialize s.nNew ++
    (wireSigned 4).serialize s.nTried ++ (wireSigned 4).serialize ADDRMAN_NEW_BUCKET_COUNT ++
    infos ++ writeTried nVersion s.nTried s.mapInfo.entries 0 ++
    s.vvNew.flatMap (writeBucket mapUnkIds)

end Write

/-! ## Reading -/

/-- Why reading goes no further: the bytes, a bucket that is not there, or an index below zero, which
no writer writes. -/
inductive LoadStop where
  | read (e : ReadFailure)
  | noBucket
  | negative
  deriving DecidableEq, Repr

abbrev Load (α : Type) := Except LoadStop (α × List UInt8)

/-- `READWRITE` while reading. -/
def load {α : Type} (c : Wire α) (is : List UInt8) : Load α :=
  match c.unserialize is with
  | .error e => .error (.read e)
  | .ok (x, is) => .ok (x, is)

variable (Hash : List UInt8 → ℕ)

/-- An entry of the "new" table. With another number of buckets its bucket is found anew. -/
def putNew (nUBuckets : ℤ) (s : CAddrMan) (n : ℕ) (info : CAddrInfo) : Except LoadStop CAddrMan :=
  let info := { info with nRandomPos := s.vRandom.length }
  let s := { s with
    mapInfo := s.mapInfo.insert n info
    mapAddr := Function.update s.mapAddr info.toCNetAddr (some n)
    vRandom := s.vRandom ++ [n] }
  if nUBuckets ≠ ADDRMAN_NEW_BUCKET_COUNT then
    let nUBucket := info.GetNewBucket Hash s.nKey info.source
    match s.vvNew[nUBucket]? with
    | none => .error .noBucket
    | some vNew =>
      .ok { s.setInfo n { info with nRefCount := info.nRefCount + 1 } with
        vvNew := s.vvNew.set nUBucket (vNew.insert n ()) }
  else .ok s

def loadNew (nUBuckets : ℤ) : (rounds n : ℕ) → CAddrMan → List UInt8 → Load CAddrMan
  | 0, _, s, is => .ok (s, is)
  | rounds + 1, n, s, is =>
    match load CAddrInfo.wire is with
    | .error e => .error e
    | .ok ((_, info), is) =>
      match putNew Hash nUBuckets s n info with
      | .error e => .error e
      | .ok s => loadNew nUBuckets rounds (n + 1) s is

/-- A tried entry, if its bucket has room; otherwise it is lost. -/
def putTried (s : CAddrMan) (nLost : ℕ) (info : CAddrInfo) : Except LoadStop (CAddrMan × ℕ) :=
  let nKBucket := info.GetTriedBucket Hash s.nKey
  match s.vvTried[nKBucket]? with
  | none => .error .noBucket
  | some vTried =>
    if vTried.length < ADDRMAN_TRIED_BUCKET_SIZE then
      .ok ({ s with
        vRandom := s.vRandom ++ [s.nIdCount]
        mapInfo := s.mapInfo.insert s.nIdCount
          { info with nRandomPos := s.vRandom.length, fInTried := true }
        mapAddr := Function.update s.mapAddr info.toCNetAddr (some s.nIdCount)
        vvTried := s.vvTried.set nKBucket (vTried ++ [s.nIdCount])
        nIdCount := s.nIdCount + 1 }, nLost)
    else .ok (s, nLost + 1)

def loadTried : (rounds nLost : ℕ) → CAddrMan → List UInt8 → Load (CAddrMan × ℕ)
  | 0, nLost, s, is => .ok ((s, nLost), is)
  | rounds + 1, nLost, s, is =>
    match load CAddrInfo.wire is with
    | .error e => .error e
    | .ok ((_, info), is) =>
      match putTried Hash s nLost info with
      | .error e => .error e
      | .ok (s, nLost) => loadTried rounds nLost s is

/-- An index of the bucket `b`; reading `mapInfo[nIndex]` makes an entry that is not there. -/
def putIndex (nUBuckets : ℤ) (b : ℕ) (s : CAddrMan) (n : ℕ) : Except LoadStop CAddrMan :=
  let info := (s.mapInfo.find n).getD CAddrInfo.init
  let s := s.setInfo n info
  if nUBuckets = ADDRMAN_NEW_BUCKET_COUNT ∧ info.nRefCount < ADDRMAN_NEW_BUCKETS_PER_ADDRESS then
    match s.vvNew[b]? with
    | none => .error .noBucket
    | some vNew =>
      .ok { s.setInfo n { info with nRefCount := info.nRefCount + 1 } with
        vvNew := s.vvNew.set b (vNew.insert n ()) }
  else .ok s

def loadIndices (nUBuckets : ℤ) (b : ℕ) : (rounds : ℕ) → CAddrMan → List UInt8 → Load CAddrMan
  | 0, s, is => .ok (s, is)
  | rounds + 1, s, is =>
    match load (wireSigned 4) is with
    | .error e => .error e
    | .ok (nIndex, is) =>
      if nIndex < 0 then .error .negative
      else
        match putIndex nUBuckets b s nIndex.toNat with
        | .error e => .error e
        | .ok s => loadIndices nUBuckets b rounds s is

def loadBuckets (nUBuckets : ℤ) : (rounds b : ℕ) → CAddrMan → List UInt8 → Load CAddrMan
  | 0, _, s, is => .ok (s, is)
  | rounds + 1, b, s, is =>
    match load (wireSigned 4) is with
    | .error e => .error e
    | .ok (nSize, is) =>
      match loadIndices nUBuckets b nSize.toNat s is with
      | .error e => .error e
      | .ok (s, is) => loadBuckets nUBuckets rounds (b + 1) s is

/-- The three tables, when the numbers in front of them have been read. -/
def loadTables (nKey : List UInt8) (nNew nTried nUBuckets : ℤ) (is : List UInt8) : Load CAddrMan :=
  let s := { CAddrMan.empty nKey with nNew := nNew, nTried := nTried }
  match loadNew Hash nUBuckets nNew.toNat 0 s is with
  | .error e => .error e
  | .ok (s, is) =>
    match loadTried Hash nTried.toNat 0 { s with nIdCount := nNew.toNat } is with
    | .error e => .error e
    | .ok ((s, nLost), is) =>
      loadBuckets nUBuckets nUBuckets.toNat 0 { s with nTried := s.nTried - nLost } is

def Unserialize (is : List UInt8) : Load CAddrMan :=
  match load ((wireUnsigned 1).seq fun _ => wireBytes.seq fun _ => (wireSigned 4).seq fun _ =>
    (wireSigned 4).seq fun _ => wireSigned 4) is with
  | .error e => .error e
  | .ok ((_, nKey, nNew, nTried, nUBuckets), is) => loadTables Hash nKey nNew nTried nUBuckets is

end CAddrMan

end Dions
