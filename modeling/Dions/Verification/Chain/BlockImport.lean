import Dions.Model.BlockImport

/-! # Every block of a file is found

No round of the search steps over a place where the message start begins, wherever the window ends.
What lies between two records is therefore searched to its end, and the records are read one by one. -/

namespace Dions

open Codec LittleEndian

variable {pos : ℕ}

def StartsAt (net : Network) (file : List UInt8) (pos : ℕ) : Prop :=
  net.pchMessageStart <+: file.drop pos

variable {σ : Type} {net : Network} {file : List UInt8}

theorem startsAt_iff : StartsAt net file pos ↔ (file.drop pos).take 4 = net.pchMessageStart := by
  rw [StartsAt, List.prefix_iff_eq_take, net.length_pchMessageStart]
  exact eq_comm

theorem StartsAt.room (h : StartsAt net file pos) : pos + 4 ≤ file.length := by
  have hlength := h.length_le
  rw [net.length_pchMessageStart, List.length_drop] at hlength
  omega

theorem StartsAt.first (h : StartsAt net file pos) :
    file[pos]? = some (net.pchMessageStart.getD 0 0) := by
  obtain ⟨rest, hrest⟩ := h
  have hlt : 0 < net.pchMessageStart.length := by
    rw [net.length_pchMessageStart]
    decide
  have hdrop : (file.drop pos)[0]? = file[pos]? := List.getElem?_drop
  rw [← hdrop, ← hrest, List.getElem?_append_left hlt, List.getD_eq_getElem _ _ hlt,
    List.getElem?_eq_getElem hlt]

/-! ## One round of the search -/

/-- The message start begins nowhere from `first` on before `last`. -/
def MarkFree (net : Network) (file : List UInt8) (first last : ℕ) : Prop :=
  ∀ pos, first ≤ pos → pos < last → ¬ StartsAt net file pos

instance (net : Network) (file : List UInt8) (first last : ℕ) :
    Decidable (MarkFree net file first last) :=
  have : ∀ pos, Decidable (StartsAt net file pos) := fun pos =>
    inferInstanceAs (Decidable (net.pchMessageStart <+: file.drop pos))
  decidable_of_iff (∀ pos < last, first ≤ pos → ¬ StartsAt net file pos)
    ⟨fun h pos hle hlt => h pos hlt hle, fun h pos hlt hle => h pos hle hlt⟩

theorem MarkFree.trans {first mid last : ℕ} (h : MarkFree net file first mid)
    (h' : MarkFree net file mid last) : MarkFree net file first last := by
  intro pos hle hlt
  by_cases hmid : pos < mid
  · exact h pos hle hmid
  · exact h' pos (Nat.not_lt.mp hmid) hlt

/-- What a round comes to from the position `nPos`. -/
def RoundFrom (net : Network) (file : List UInt8) (nPos : ℕ) : SearchRound → Prop
  | .endOfFile => file.length ≤ nPos + 8
  | .found next => ∃ pos, nPos ≤ pos ∧ next = pos + 4 ∧ StartsAt net file pos ∧
      MarkFree net file nPos pos
  | .again next => nPos + 8 < file.length ∧ nPos < next ∧ MarkFree net file nPos next

/-- What is searched in the window lies in the file behind the position. -/
theorem getElem?_window {nPos j count : ℕ} (hj : j < count) (hcount : count ≤ windowSize) :
    (((file.drop nPos).take windowSize).take count)[j]? = file[nPos + j]? := by
  rw [List.getElem?_take, if_pos hj, List.getElem?_take, if_pos (by omega), List.getElem?_drop]

theorem searchRound_spec (hsize : file.length < 2 ^ 32 - 2 ^ 16) (nPos : ℕ) :
    RoundFrom net file nPos (searchRound net file nPos) := by
  have hwindow : windowSize = 65536 := rfl
  have hread : ((file.drop nPos).take windowSize).length =
      min windowSize (file.length - nPos) := by
    rw [List.length_take, List.length_drop]
  rw [searchRound, hread]
  split
  next hshort =>
    rw [RoundFrom]
    omega
  next hlong =>
    generalize hcount : min windowSize (file.length - nPos) + 1 - 4 = count
    have hcountLe : count ≤ windowSize := by omega
    have hsearched : (((file.drop nPos).take windowSize).take count).length = count := by
      rw [List.length_take, hread]
      omega
    -- a place whose first byte is searched and is another one is not a start
    have hclear {last : ℕ} (hlast : last ≤ count)
        (hbytes : ∀ j < last, file[nPos + j]? ≠ some (net.pchMessageStart.getD 0 0)) :
        MarkFree net file nPos (nPos + last) := by
      intro pos hle hlt hstart
      refine hbytes (pos - nPos) (by omega) ?_
      rw [Nat.add_sub_cancel' hle]
      exact hstart.first
    cases hfind : (((file.drop nPos).take windowSize).take count).idxOf?
        (net.pchMessageStart.getD 0 0) with
    | some nFind =>
      obtain ⟨hlt, hbyte, hbefore⟩ := List.idxOf?_eq_some_iff.mp hfind
      rw [hsearched] at hlt
      have hfour : (((file.drop nPos).take windowSize).drop nFind).take 4 =
          (file.drop (nPos + nFind)).take 4 := by
        rw [List.drop_take, List.drop_drop, List.take_take, min_eq_left (by omega)]
      have hclear' : MarkFree net file nPos (nPos + nFind) := by
        refine hclear hlt.le fun j hj heq => ?_
        rw [← getElem?_window (hj.trans hlt) hcountLe] at heq
        obtain ⟨_, hbyte'⟩ := List.getElem?_eq_some_iff.mp heq
        exact hbefore j hj hbyte'
      dsimp only
      rw [hfour]
      split
      next hstart =>
        refine ⟨nPos + nFind, by omega, ?_, startsAt_iff.mpr hstart, hclear'⟩
        rw [Nat.mod_eq_of_lt (by omega)]
      next hno =>
        rw [Nat.mod_eq_of_lt (by omega)]
        refine ⟨by omega, by omega, ?_⟩
        intro pos hle hlt' hstart
        by_cases heq : pos = nPos + nFind
        · exact hno (startsAt_iff.mp (heq ▸ hstart))
        · exact hclear' pos hle (by omega) hstart
    | none =>
      dsimp only
      rw [Nat.mod_eq_of_lt (by omega)]
      refine ⟨by omega, by omega, ?_⟩
      intro pos hle hlt hstart
      -- behind what is searched there is no room for the message start
      have hroom := hstart.room
      have hnone : ∀ j < count, file[nPos + j]? ≠ some (net.pchMessageStart.getD 0 0) := by
        intro j hj heq
        rw [← getElem?_window hj hcountLe] at heq
        exact List.idxOf?_eq_none_iff.mp hfind (List.mem_of_getElem? heq)
      exact hclear le_rfl hnone pos hle (by omega) hstart

/-! ## The search -/

variable {env : ImportEnv σ}

/-- What the search leaves alone. -/
structure Searched (s s' : ImportState σ) : Prop where
  nLoaded : s'.nLoaded = s.nLoaded
  node : s'.node = s.node
  processed : s'.processed = s.processed

/-- Where the search ends: behind the first message start, or at the end of the file. -/
def SearchEnds (net : Network) (file : List UInt8) (nPos next : ℕ) : Prop :=
  (∃ pos, nPos ≤ pos ∧ next = pos + 4 ∧ StartsAt net file pos ∧ MarkFree net file nPos pos) ∨
    next = endOfImport ∧ MarkFree net file nPos (file.length - 8)

theorem searchLoop_spec (hsize : file.length < 2 ^ 32 - 2 ^ 16)
    (hrunning : ∀ n, env.fRequestShutdown n = false) {rounds : ℕ} {s : ImportState σ}
    (hrounds : file.length < s.nPos + rounds) (hpos : 0 < rounds) :
    ∃ s', searchLoop env file rounds s = some s' ∧ Searched s s' ∧
      SearchEnds env.net file s.nPos s'.nPos := by
  induction rounds generalizing s with
  | zero => omega
  | succ rounds ih =>
    have hround := @searchRound_spec env.net file hsize s.nPos
    rw [searchLoop]
    cases hnext : searchRound env.net file s.nPos with
    | endOfFile =>
      rw [hnext, RoundFrom] at hround
      refine ⟨_, rfl, ⟨rfl, rfl, rfl⟩, .inr ⟨rfl, ?_⟩⟩
      intro pos hle hlt
      omega
    | found next =>
      rw [hnext, RoundFrom] at hround
      exact ⟨_, rfl, ⟨rfl, rfl, rfl⟩, .inl hround⟩
    | again next =>
      rw [hnext, RoundFrom] at hround
      obtain ⟨hinside, hlt, hclear⟩ := hround
      dsimp only
      rw [hrunning, if_neg Bool.false_ne_true]
      obtain ⟨s', hloop, hsearched, hends⟩ :=
        @ih { s with nPos := next, looks := s.looks + 1 } (by dsimp only; omega) (by omega)
      refine ⟨s', hloop, ⟨hsearched.nLoaded, hsearched.node, hsearched.processed⟩, ?_⟩
      rcases hends with ⟨pos, hle, hpos', hstart, hclear'⟩ | ⟨hend, hclear'⟩
      · exact .inl ⟨pos, hlt.le.trans hle, hpos', hstart, hclear.trans hclear'⟩
      · exact .inr ⟨hend, hclear.trans hclear'⟩

/-! ## Files of records -/

/-- What stands between two message starts: a size and the bytes of a block. -/
structure BlockRecord where
  body : List UInt8
  block : CBlock
  size_pos : 0 < body.length
  size_le : body.length ≤ MAX_BLOCK_SIZE
  reads : ∃ rest, (CBlock.wire SER_DISK).unserialize body = .ok (block, rest)

def BlockRecord.bytes (net : Network) (r : BlockRecord) : List UInt8 :=
  net.pchMessageStart ++ (toBytes 4 r.body.length ++ r.body)

/-- Records, with bytes before, between and behind them where the message start does not begin. -/
inductive ImportFile (net : Network) : List UInt8 → List CBlock → Prop where
  | last (sep : List UInt8) (hsep : MarkFree net sep 0 sep.length) : ImportFile net sep []
  | record (sep : List UInt8) (r : BlockRecord) (tail : List UInt8) (blocks : List CBlock)
      (hsep : MarkFree net (sep ++ (r.bytes net ++ tail)) 0 sep.length)
      (htail : ImportFile net tail blocks) :
      ImportFile net (sep ++ (r.bytes net ++ tail)) (r.block :: blocks)

/-- `ProcessBlock` returns true on each of the blocks in turn. -/
def AcceptsAll (env : ImportEnv σ) : σ → List CBlock → Prop
  | _, [] => True
  | node, block :: blocks =>
    (env.ProcessBlock node block).1 = true ∧ AcceptsAll env (env.ProcessBlock node block).2 blocks

theorem clear_append {front tail : List UInt8} {last : ℕ} (h : MarkFree net tail 0 last) :
    MarkFree net (front ++ tail) front.length (front.length + last) := by
  intro pos hle hlt hstart
  refine h (pos - front.length) (Nat.zero_le _) (by omega) ?_
  rw [StartsAt, List.drop_append, List.drop_of_length_le hle, List.nil_append] at hstart
  exact hstart

theorem length_bytes (net : Network) (r : BlockRecord) :
    (r.bytes net).length = r.body.length + 8 := by
  rw [BlockRecord.bytes, List.length_append, List.length_append, length_toBytes,
    net.length_pchMessageStart]
  omega

/-- A record is read whole, and the position moves behind it. -/
theorem importBlock_record {front tail : List UInt8} {r : BlockRecord} {s : ImportState σ}
    (hsize : (front ++ (r.bytes env.net ++ tail)).length < 2 ^ 32 - 2 ^ 16)
    (hpos : s.nPos = front.length + 4)
    (haccepted : (env.ProcessBlock s.node r.block).1 = true) :
    importBlock env (front ++ (r.bytes env.net ++ tail)) s = some { s with
      nLoaded := s.nLoaded + 1
      node := (env.ProcessBlock s.node r.block).2
      processed := s.processed ++ [r.block]
      nPos := front.length + (r.bytes env.net).length } := by
  have hbody : (front ++ (r.bytes env.net ++ tail)).drop s.nPos =
      toBytes 4 r.body.length ++ (r.body ++ tail) := by
    have hdrop : front.length + 4 = (front ++ env.net.pchMessageStart).length := by
      rw [List.length_append, env.net.length_pchMessageStart]
    rw [hpos, hdrop, BlockRecord.bytes, List.append_assoc, ← List.append_assoc front,
      List.drop_left, List.append_assoc]
  have hsizeRead : (wireUnsigned 4).unserialize (toBytes 4 r.body.length ++ (r.body ++ tail)) =
      .ok (r.body.length, r.body ++ tail) := by
    have hwritten : (wireUnsigned 4).serialize r.body.length = toBytes 4 r.body.length :=
      List.flatMap_singleton' _
    have hfits : r.body.length < 256 ^ 4 := by
      have hle := r.size_le
      rw [MAX_BLOCK_SIZE] at hle
      omega
    rw [← hwritten]
    exact (wireUnsigned 4).round _ _ hfits
  have hblockRead : ∃ rest, (CBlock.wire SER_DISK).unserialize (r.body ++ tail) =
      .ok (r.block, rest) := by
    obtain ⟨rest, hreads⟩ := r.reads
    obtain ⟨hvalid, hbytes⟩ := (CBlock.wire SER_DISK).canonical _ _ _ hreads
    refine ⟨rest ++ tail, ?_⟩
    rw [← hbytes, List.append_assoc]
    exact (CBlock.wire SER_DISK).round _ _ hvalid
  obtain ⟨rest, hblockRead⟩ := hblockRead
  rw [importBlock, hbody, hsizeRead]
  dsimp only
  rw [if_pos ⟨r.size_pos, r.size_le⟩, hblockRead]
  dsimp only
  rw [haccepted, if_pos rfl, hpos, length_bytes]
  rw [List.length_append, List.length_append, length_bytes] at hsize
  congr 2
  omega

/-- The search from `nPos` on ends at the next record. -/
theorem SearchEnds.at_record {nPos next start : ℕ} (h : SearchEnds net file nPos next)
    (hle : nPos ≤ start) (hstart : StartsAt net file start) (hroom : start + 8 < file.length)
    (hclear : MarkFree net file nPos start) : next = start + 4 := by
  rcases h with ⟨pos, hpos, hnext, hfound, hbefore⟩ | ⟨-, hnone⟩
  · have hge : start ≤ pos := by
      by_contra hlt
      exact hclear pos hpos (Nat.not_le.mp hlt) hfound
    have hle' : pos ≤ start := by
      by_contra hlt
      exact hbefore start hle (Nat.not_le.mp hlt) hstart
    omega
  · exact absurd hstart (hnone start hle (by omega))

theorem importLoop_spec (hsize : file.length < 2 ^ 32 - 2 ^ 16)
    (hrunning : ∀ n, env.fRequestShutdown n = false) {tail : List UInt8} {blocks : List CBlock}
    (htail : ImportFile env.net tail blocks) {front : List UInt8} (hwhole : file = front ++ tail)
    {rounds : ℕ} (hrounds : tail.length + 2 ≤ rounds) {s : ImportState σ}
    (hpos : s.nPos = front.length) (haccepts : AcceptsAll env s.node blocks) :
    ∃ s', importLoop env file rounds s = some s' ∧ s'.processed = s.processed ++ blocks := by
  induction htail generalizing front rounds s with
  | last sep hsep =>
    obtain ⟨rounds, rfl⟩ : ∃ n, rounds = n + 1 := ⟨rounds - 1, by omega⟩
    have hlength : file.length = front.length + sep.length := by
      rw [hwhole, List.length_append]
    obtain ⟨s', hloop, hsearched, hends⟩ := @searchLoop_spec σ file env hsize hrunning rounds
      { s with looks := s.looks + 1 } (by dsimp only; omega) (by omega)
    have hclear : MarkFree env.net file front.length (front.length + sep.length) := by
      rw [hwhole]
      exact clear_append hsep
    have hend : s'.nPos = endOfImport := by
      rcases hends with ⟨pos, hle, -, hstart, -⟩ | ⟨hend, -⟩
      · have hroom := hstart.room
        dsimp only at hle
        exact absurd hstart (hclear pos (by omega) (by omega))
      · exact hend
    rw [importLoop, if_neg (by rw [endOfImport]; omega), hrunning]
    dsimp only
    rw [if_neg Bool.false_ne_true, hloop]
    dsimp only
    rw [if_pos hend]
    exact ⟨s', rfl, by rw [hsearched.processed, List.append_nil]⟩
  | record sep r tail blocks hsep _ ih =>
    obtain ⟨rounds, rfl⟩ : ∃ n, rounds = n + 1 := ⟨rounds - 1, by omega⟩
    have hbytes := length_bytes env.net r
    have hpositive := r.size_pos
    rw [List.length_append, List.length_append] at hrounds
    have hwhole' : file = (front ++ sep) ++ (r.bytes env.net ++ tail) := by
      rw [hwhole, List.append_assoc]
    have hlength : file.length = front.length + sep.length + (r.body.length + 8 + tail.length) := by
      rw [hwhole', List.length_append, List.length_append, List.length_append, hbytes]
    obtain ⟨s₁, hloop, hsearched, hends⟩ := @searchLoop_spec σ file env hsize hrunning rounds
      { s with looks := s.looks + 1 } (by dsimp only; omega) (by omega)
    have hstart : StartsAt env.net file (front ++ sep).length := by
      rw [StartsAt, hwhole', List.drop_left, BlockRecord.bytes, List.append_assoc]
      exact List.prefix_append _ _
    have hclear : MarkFree env.net file s.nPos (front ++ sep).length := by
      rw [hpos, List.length_append, hwhole]
      exact clear_append hsep
    have hnext : s₁.nPos = (front ++ sep).length + 4 :=
      hends.at_record (by rw [List.length_append]; dsimp only; omega) hstart
        (by rw [List.length_append]; omega) hclear
    have haccepted : (env.ProcessBlock s₁.node r.block).1 = true := by
      rw [hsearched.node]
      exact haccepts.1
    have himport := @importBlock_record σ env (front ++ sep) tail r s₁ (hwhole' ▸ hsize) hnext
      haccepted
    rw [← hwhole'] at himport
    have hfront : file = (front ++ sep ++ r.bytes env.net) ++ tail := by
      rw [hwhole', List.append_assoc (front ++ sep)]
    have haccepts' : AcceptsAll env (env.ProcessBlock s₁.node r.block).2 blocks := by
      rw [hsearched.node]
      exact haccepts.2
    obtain ⟨s', hrest, hprocessed⟩ := @ih _ hfront rounds (by omega) { s₁ with
      nLoaded := s₁.nLoaded + 1
      node := (env.ProcessBlock s₁.node r.block).2
      processed := s₁.processed ++ [r.block]
      nPos := (front ++ sep).length + (r.bytes env.net).length } List.length_append.symm haccepts'
    rw [importLoop, if_neg (by rw [endOfImport]; omega), hrunning]
    dsimp only
    rw [if_neg Bool.false_ne_true, hloop]
    dsimp only
    rw [if_neg (by rw [hnext, List.length_append, endOfImport]; omega), himport]
    refine ⟨s', hrest, ?_⟩
    rw [hprocessed, hsearched.processed, List.append_assoc]
    rfl

/-- While no shutdown is requested every block of the file is processed, in the order of the file. -/
theorem LoadExternalBlockFile_complete (hsize : file.length < 2 ^ 32 - 2 ^ 16)
    {blocks : List CBlock} (hfile : ImportFile env.net file blocks) {node : σ}
    (haccepts : AcceptsAll env node blocks) (hrunning : ∀ n, env.fRequestShutdown n = false)
    {rounds : ℕ} (hrounds : file.length + 2 ≤ rounds) :
    ∃ s, LoadExternalBlockFile env file rounds node = some s ∧ s.processed = blocks :=
  importLoop_spec hsize hrunning hfile (List.nil_append file).symm hrounds rfl haccepts

/-! ## A file with one block -/

def mainMessages : Network where
  pchMessageStart := [0xfe, 0xc3, 0xba, 0xde]
  Hash := fun _ => 0
  length_pchMessageStart := length_mainStart

def zeroBlock : CBlock := ⟨0, 0, 0, 0, 0, 0, [], []⟩

def zeroRecord : BlockRecord where
  body := List.replicate 82 0
  block := zeroBlock
  size_pos := by decide
  size_le := by decide
  reads := ⟨[], by decide +kernel⟩

def oneBlockFile : List UInt8 := zeroRecord.bytes mainMessages

theorem oneBlockFile_records : ImportFile mainMessages oneBlockFile [zeroBlock] := by
  have hnone : ImportFile mainMessages [] [] := .last [] fun _ _ hlt => absurd hlt (Nat.not_lt_zero _)
  have hone := ImportFile.record [] zeroRecord [] [] (fun _ _ hlt => absurd hlt (Nat.not_lt_zero _))
    hnone
  rw [List.nil_append, List.append_nil] at hone
  exact hone

def importsAll (fRequestShutdown : Bool) : ImportEnv Unit where
  net := mainMessages
  ProcessBlock := fun _ _ => (true, ())
  fRequestShutdown := fun _ => fRequestShutdown

def coinBlock : CBlock := { zeroBlock with vtx := [⟨1, 0, [], [⟨5, [0x51]⟩], 0, []⟩] }

def coinRecord : BlockRecord where
  body := (CBlock.wire SER_DISK).serialize coinBlock
  block := coinBlock
  size_pos := by decide +kernel
  size_le := by decide +kernel
  reads := ⟨[], by decide +kernel⟩

/-- Zeros up to the end of the first window, a record across it, a byte of the message start, another
record and the first half of a message start. -/
def windowFile : List UInt8 :=
  List.replicate 65530 0 ++ (zeroRecord.bytes mainMessages ++
    ([0xfe] ++ (coinRecord.bytes mainMessages ++ [0xfe, 0xc3])))

theorem markFree_zeros (n : ℕ) (rest : List UInt8) :
    MarkFree mainMessages (List.replicate n 0 ++ rest) 0 n := by
  intro pos _ hlt hstart
  obtain ⟨k, rfl⟩ : ∃ k, n = pos + (k + 1) := ⟨n - pos - 1, by omega⟩
  rw [StartsAt, List.replicate_add, List.append_assoc,
    List.drop_left' (List.length_replicate), List.replicate_succ] at hstart
  obtain ⟨tail, htail⟩ := hstart
  cases htail

theorem windowFile_records : ImportFile mainMessages windowFile [zeroBlock, coinBlock] := by
  have hend : ImportFile mainMessages [0xfe, 0xc3] [] := .last _ (by decide)
  have hsecond := ImportFile.record [0xfe] coinRecord [0xfe, 0xc3] [] (by decide +kernel) hend
  refine ImportFile.record _ zeroRecord _ _ ?_ hsecond
  rw [List.length_replicate]
  exact markFree_zeros 65530 _

theorem LoadExternalBlockFile_complete_window :
    ∃ s, LoadExternalBlockFile (importsAll false) windowFile (windowFile.length + 2) () = some s ∧
      s.processed = [zeroBlock, coinBlock] := by
  have hlength : windowFile.length < 2 ^ 32 - 2 ^ 16 := by
    have hbytes := length_bytes mainMessages
    simp only [windowFile, List.length_append, List.length_replicate, hbytes, List.length_cons,
      List.length_nil]
    have hzero := zeroRecord.size_le
    have hcoin := coinRecord.size_le
    simp only [MAX_BLOCK_SIZE] at hzero hcoin
    omega
  have haccepts : AcceptsAll (importsAll false) () [zeroBlock, coinBlock] := ⟨rfl, rfl, trivial⟩
  exact LoadExternalBlockFile_complete hlength windowFile_records haccepts (fun _ => rfl) le_rfl

/-- With a shutdown requested the file is not looked at. -/
theorem LoadExternalBlockFile_stops :
    oneBlockFile.length < 2 ^ 32 - 2 ^ 16 ∧ ImportFile mainMessages oneBlockFile [zeroBlock] ∧
      AcceptsAll (importsAll true) () [zeroBlock] ∧
      ∀ rounds s, LoadExternalBlockFile (importsAll true) oneBlockFile rounds () = some s →
        s.processed ≠ [zeroBlock] := by
  refine ⟨by decide, oneBlockFile_records, ⟨rfl, trivial⟩, ?_⟩
  intro rounds s h
  cases rounds with
  | zero => cases h
  | succ rounds =>
    cases h
    decide

end Dions
