import Mathlib.Data.Finset.Sort
import Mathlib.Data.List.Lex
import Mathlib.Data.Prod.Lex
import Dions.Model.Destination
import Dions.Model.KeyStore
import Dions.Model.Wallet

/-! # The groups of addresses of a wallet

`GetAddressGroupings` collects groups of destinations from the transactions of the wallet and joins
those that overlap, in sets that it allocates and frees. -/

namespace Dions

open Halting

/-! ## Iteration and memory -/

/-- The order in which a `std::set` is walked through. -/
structure Walk (α : Type) where
  list : Finset α → List α
  mem_list : ∀ {s : Finset α} {a : α}, a ∈ list s ↔ a ∈ s
  nodup : ∀ s : Finset α, (list s).Nodup

/-- From the smallest element to the largest. -/
def Walk.ascending (α : Type) [LinearOrder α] : Walk α where
  list s := s.sort (· ≤ ·)
  mem_list := Finset.mem_sort _
  nodup s := s.sort_nodup _

/-- `operator new`: the address of the next set, which is none of those in use. -/
structure Allocator where
  next : (nNew : ℕ) → (allocated : Finset ℕ) → ℕ
  fresh : ∀ nNew allocated, next nNew allocated ∉ allocated

abbrev Grouping := Finset CTxDestination

/-- The sets that were made with `new`. A freed set keeps its content, which nobody may read. -/
structure SetHeap where
  nNew : ℕ
  allocated : Finset ℕ
  content : ℕ → Grouping

namespace SetHeap

def empty : SetHeap := ⟨0, ∅, fun _ => ∅⟩

def new (alloc : Allocator) (heap : SetHeap) (grouping : Grouping) : ℕ × SetHeap :=
  let p := alloc.next heap.nNew heap.allocated
  (p, ⟨heap.nNew + 1, insert p heap.allocated, Function.update heap.content p grouping⟩)

def deref (heap : SetHeap) (p : ℕ) : Exec Grouping :=
  if p ∈ heap.allocated then .ok (heap.content p) else .error .undefined

/-- `p->insert(first, last)`. -/
def insertInto (heap : SetHeap) (p : ℕ) (elements : Grouping) : Exec SetHeap :=
  if p ∈ heap.allocated then
    .ok { heap with content := Function.update heap.content p (heap.content p ∪ elements) }
  else .error .undefined

def delete (heap : SetHeap) (p : ℕ) : Exec SetHeap :=
  if p ∈ heap.allocated then .ok { heap with allocated := heap.allocated.erase p }
  else .error .undefined

end SetHeap

/-! ## The groups of the transactions -/

/-- The transactions, the keys and the address book of a wallet. -/
structure GroupWallet where
  mapWallet : OrdMap uint256 WxTx
  crypto : ScriptCrypto
  IsMineScript : CScript → Bool
  HaveKey : CKeyID → Bool
  HaveCScript : uint160 → Bool
  /-- `mapAddressBook.count`. -/
  inAddressBook : CTxDestination → Bool

namespace GroupWallet

variable (w : GroupWallet)

def IsMineOut (txout : CTxOut) : Bool := w.IsMineScript txout.scriptPubKey

def IsMineIn (txin : CTxIn) : Bool :=
  match w.mapWallet.find txin.prevout.hash with
  | none => false
  | some prev =>
    match prev.vout[txin.prevout.n]? with
    | none => false
    | some txout => w.IsMineOut txout

def IsMineDestination : CTxDestination → Bool
  | .CNoDestination => false
  | .CKeyID keyID => w.HaveKey keyID
  | .CScriptID scriptID => w.HaveCScript scriptID

/-- The destination of an output. -/
def destination (txout : CTxOut) : Option CTxDestination :=
  ExtractDestination w.crypto txout.scriptPubKey

def IsChange (txout : CTxOut) : Bool :=
  match w.destination txout with
  | none => false
  | some address => w.IsMineDestination address && !w.inAddressBook address

/-- `mapWallet[txin.prevout.hash].vout[txin.prevout.n]`: for a hash that is not there the map makes an
entry, which has no outputs. -/
def previousOutput (txin : CTxIn) : Exec CTxOut :=
  let vout := ((w.mapWallet.find txin.prevout.hash).map fun prev => prev.vout).getD []
  read vout txin.prevout.n

/-- The destination of an output, if it has one, joins the group. -/
def insertDestination (grouping : Grouping) (txout : CTxOut) : Grouping :=
  match w.destination txout with
  | none => grouping
  | some address => insert address grouping

def groupInputs : List CTxIn → Grouping → Exec Grouping
  | [], grouping => .ok grouping
  | txin :: vin, grouping => do
    let txout ← w.previousOutput txin
    groupInputs vin (w.insertDestination grouping txout)

/-- Change joins the input addresses. The copy of the first previous transaction is not used. -/
def groupChange (vout : List CTxOut) (grouping : Grouping) : Grouping :=
  vout.foldl (fun grouping txout =>
    if w.IsChange txout then w.insertDestination grouping txout else grouping) grouping

/-- All input addresses are grouped with each other, and change with them. Only the first input is
tested. -/
def groupOwn (pcoin : WxTx) (groupings : Finset Grouping) : Exec (Finset Grouping) :=
  match pcoin.vin with
  | [] => .ok groupings
  | txin :: _ =>
    if w.IsMineIn txin then do
      let grouping ← w.groupInputs pcoin.vin ∅
      .ok (insert (w.groupChange pcoin.vout grouping) groupings)
    else .ok groupings

/-- Lone addresses are grouped by themselves. -/
def groupLone (vout : List CTxOut) (groupings : Finset Grouping) : Finset Grouping :=
  vout.foldl (fun groupings txout =>
    if w.IsMineOut txout then
      match w.destination txout with
      | none => groupings
      | some address => insert {address} groupings
    else groupings) groupings

def groupEntries : List (uint256 × WxTx) → Finset Grouping → Exec (Finset Grouping)
  | [], groupings => .ok groupings
  | walletEntry :: es, groupings => do
    let groupings ← w.groupOwn walletEntry.2 groupings
    groupEntries es (w.groupLone walletEntry.2.vout groupings)

end GroupWallet

/-! ## Joining them -/

/-- The orders of the sets and the memory that a run uses. -/
structure GroupRun where
  addresses : Walk CTxDestination
  groups : Walk Grouping
  pointers : Walk ℕ
  alloc : Allocator

/-- `operator<` of the variant: the kind comes first. -/
def CTxDestination.rank : CTxDestination → ℕ ×ₗ uint160
  | .CNoDestination => toLex (0, 0)
  | .CKeyID keyID => toLex (1, keyID)
  | .CScriptID scriptID => toLex (2, scriptID)

theorem CTxDestination.rank_injective : Function.Injective CTxDestination.rank := by
  intro d d' h
  cases d <;> cases d' <;> simp_all [CTxDestination.rank]

@[reducible]
def CTxDestination.order : LinearOrder CTxDestination := LinearOrder.lift' _ CTxDestination.rank_injective

/-- Groups are compared element by element. -/
@[reducible]
def Grouping.order : LinearOrder Grouping :=
  letI := CTxDestination.order
  LinearOrder.lift' (@Walk.ascending _ CTxDestination.order).list fun s s' h => by
    ext d
    rw [← Walk.mem_list, h, Walk.mem_list]

/-- The orders of the standard library. -/
def GroupRun.standard (alloc : Allocator) : GroupRun where
  addresses := @Walk.ascending _ CTxDestination.order
  groups := @Walk.ascending _ Grouping.order
  pointers := Walk.ascending ℕ
  alloc := alloc

structure JoinState where
  uniqueGroupings : Finset ℕ
  setmap : CTxDestination → Option ℕ
  heap : SetHeap

/-- The sets hit by a new group. -/
def hitsOf (setmap : CTxDestination → Option ℕ) (grouping : List CTxDestination) : Finset ℕ :=
  grouping.foldl (fun hits address =>
    match setmap address with
    | none => hits
    | some p => insert p hits) ∅

/-- All hit groups go into the new one and are deleted. -/
def mergeHits (merged : ℕ) : List ℕ → JoinState → Exec JoinState
  | [], s => .ok s
  | hit :: hits, s => do
    let elements ← s.heap.deref hit
    let heap ← s.heap.insertInto merged elements
    let heap ← heap.delete hit
    mergeHits merged hits { s with uniqueGroupings := s.uniqueGroupings.erase hit, heap := heap }

variable (run : GroupRun)

def joinGrouping (grouping : Grouping) (s : JoinState) : Exec JoinState := do
  let hits := hitsOf s.setmap (run.addresses.list grouping)
  let (merged, heap) := s.heap.new run.alloc grouping
  let s ← mergeHits merged (run.pointers.list hits) { s with heap := heap }
  let elements ← s.heap.deref merged
  .ok { s with
    uniqueGroupings := insert merged s.uniqueGroupings
    setmap := (run.addresses.list elements).foldl
      (fun setmap element => Function.update setmap element (some merged)) s.setmap }

def joinGroupings : List Grouping → JoinState → Exec JoinState
  | [], s => .ok s
  | grouping :: groupings, s => do
    let s ← joinGrouping run grouping s
    joinGroupings groupings s

/-- The contents of the sets that are left, which are freed. -/
def takeGroupings : List ℕ → SetHeap → Finset Grouping → Exec (Finset Grouping × SetHeap)
  | [], heap, ret => .ok (ret, heap)
  | uniqueGrouping :: ps, heap, ret => do
    let grouping ← heap.deref uniqueGrouping
    let heap ← heap.delete uniqueGrouping
    takeGroupings ps heap (insert grouping ret)

def GetAddressGroupings (w : GroupWallet) : Exec (Finset Grouping) := do
  let groupings ← w.groupEntries w.mapWallet.entries ∅
  let s ← joinGroupings run (run.groups.list groupings) ⟨∅, fun _ => none, .empty⟩
  let (ret, _) ← takeGroupings (run.pointers.list s.uniqueGroupings) s.heap ∅
  .ok ret

end Dions
