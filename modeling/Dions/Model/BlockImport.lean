import Dions.Model.Net

/-! # Blocks from an external file

The file is searched for the message start in a window that is read again and again from a moving
position. A block that is accepted moves the position behind its record. -/

namespace Dions

open Codec

/-- The node as far as the import sees it. -/
structure ImportEnv (σ : Type) where
  net : Network
  ProcessBlock : σ → CBlock → Bool × σ
  /-- `fRequestShutdown` at each time it is looked at. -/
  fRequestShutdown : ℕ → Bool

structure ImportState (σ : Type) where
  nPos : ℕ
  nLoaded : ℕ
  node : σ
  /-- How often `fRequestShutdown` has been looked at. -/
  looks : ℕ
  /-- The blocks that `ProcessBlock` was called with. -/
  processed : List CBlock

/-- `(unsigned int)-1`. -/
def endOfImport : ℕ := 2 ^ 32 - 1

/-- The size of `pchData`. -/
def windowSize : ℕ := 65536

/-! ## Searching the message start -/

inductive SearchRound where
  | endOfFile
  | found (nPos : ℕ)
  | again (nPos : ℕ)
  deriving DecidableEq, Repr

/-- One round of the inner loop. -/
def searchRound (net : Network) (file : List UInt8) (nPos : ℕ) : SearchRound :=
  let pchData := (file.drop nPos).take windowSize
  let nRead := pchData.length
  if nRead ≤ 8 then .endOfFile
  else
    match (pchData.take (nRead + 1 - 4)).idxOf? (net.pchMessageStart.getD 0 0) with
    | some nFind =>
      if (pchData.drop nFind).take 4 = net.pchMessageStart then .found ((nPos + nFind + 4) % 2 ^ 32)
      else .again ((nPos + nFind + 1) % 2 ^ 32)
    | none => .again ((nPos + (windowSize - 4 + 1)) % 2 ^ 32)

variable {σ : Type} (env : ImportEnv σ) (file : List UInt8)

/-- The inner loop; `none` if it has not ended after so many rounds. -/
def searchLoop : (rounds : ℕ) → ImportState σ → Option (ImportState σ)
  | 0, _ => none
  | rounds + 1, s =>
    match searchRound env.net file s.nPos with
    | .endOfFile => some { s with nPos := endOfImport }
    | .found nPos => some { s with nPos := nPos }
    | .again nPos =>
      let stop := env.fRequestShutdown s.looks
      let s := { s with nPos := nPos, looks := s.looks + 1 }
      if stop then some s else searchLoop rounds s

/-! ## Reading a record -/

/-- The size and the block behind the message start; `none` is an exception. -/
def importBlock (s : ImportState σ) : Option (ImportState σ) :=
  match (wireUnsigned 4).unserialize (file.drop s.nPos) with
  | .error _ => none
  | .ok (nSize, rest) =>
    if 0 < nSize ∧ nSize ≤ MAX_BLOCK_SIZE then
      match (CBlock.wire SER_DISK).unserialize rest with
      | .error _ => none
      | .ok (block, _) =>
        let (accepted, node) := env.ProcessBlock s.node block
        let s := { s with node := node, processed := s.processed ++ [block] }
        if accepted then
          some { s with nLoaded := s.nLoaded + 1, nPos := (s.nPos + (4 + nSize)) % 2 ^ 32 }
        else some s
    else some s

/-- The outer loop, which an exception ends. -/
def importLoop : (rounds : ℕ) → ImportState σ → Option (ImportState σ)
  | 0, _ => none
  | rounds + 1, s =>
    if s.nPos = endOfImport then some s
    else
      let stop := env.fRequestShutdown s.looks
      let s := { s with looks := s.looks + 1 }
      if stop then some s
      else
        match searchLoop env file rounds s with
        | none => none
        | some s =>
          if s.nPos = endOfImport then some s
          else
            match importBlock env file s with
            | none => some s
            | some s => importLoop rounds s

/-- The state at the end; `LoadExternalBlockFile` answers whether a block was loaded. -/
def LoadExternalBlockFile (rounds : ℕ) (node : σ) : Option (ImportState σ) :=
  importLoop env file rounds ⟨0, 0, node, 0, []⟩

def ImportState.loaded (s : ImportState σ) : Bool := 0 < s.nLoaded

end Dions
