import Mathlib.Data.List.Induction
import Dions.Verification.Wallet.KeyPool

/-! # Runs of the key pool

In a run whose calls spare the reserved indices nobody gets a key that somebody else has, and no call
finds a record missing. -/

namespace Dions

variable {κ : Type} {env : KeyPoolEnv κ} {io : PoolIo}

/-! ## Before and after a run -/

/-- What the keys in the pool and the reserved ones are good for. -/
structure KeyPool.Sound (s : KeyPool κ) : Prop where
  recorded : ∀ i ∈ s.setKeyPool.keys, ∃ keypool, s.db i = some keypool
  reserved : ∀ h i, s.Holds h i → i ∉ s.setKeyPool.keys ∧
    ∃ keypool, s.db i = some keypool ∧ (s.reserveKeys h).vchPubKey = some keypool.vchPubKey
  apart : ∀ h h' i i', s.Holds h i → s.Holds h' i' →
    (s.reserveKeys h).vchPubKey = (s.reserveKeys h').vchPubKey → h = h'
  once : s.handedOut.Nodup
  unkept : ∀ h i, s.Holds h i → ∀ key ∈ (s.reserveKeys h).vchPubKey, key ∉ s.handedOut

theorem KeyPool.Pooled.sound {s : KeyPool κ} (h : s.Pooled env) : s.Sound := by
  have hreserved : ∀ n i, s.Holds n i → ∃ keypool, s.db i = some keypool ∧
      (s.reserveKeys n).vchPubKey = some keypool.vchPubKey ∧ keypool.vchPubKey ∉ s.handedOut := by
    intro n i hold
    obtain ⟨keypool, hrecord, -, hout⟩ := h.recorded i (.inr ⟨n, hold⟩)
    have hkey := (h.held n i hold).2
    rw [hrecord] at hkey
    exact ⟨keypool, hrecord, hkey.symm, hout⟩
  refine ⟨?_, ?_, ?_, h.once, ?_⟩
  · intro i hi
    obtain ⟨keypool, hrecord, -, -⟩ := h.recorded i (.inl hi)
    exact ⟨keypool, hrecord⟩
  · intro n i hold
    obtain ⟨keypool, hrecord, hkey, -⟩ := hreserved n i hold
    exact ⟨(h.held n i hold).1, keypool, hrecord, hkey⟩
  · intro n n' i i' hold hold' heq
    obtain ⟨a, ha, hkey, -⟩ := hreserved n i hold
    obtain ⟨b, hb, hkey', -⟩ := hreserved n' i' hold'
    rw [hkey, hkey'] at heq
    have hii' := h.distinct i i' (.inr ⟨n, hold⟩) (.inr ⟨n', hold'⟩) a b ha hb (Option.some.inj heq)
    exact h.apart n n' i hold (hii' ▸ hold')
  · intro n i hold key hkey
    obtain ⟨keypool, -, hkey', hout⟩ := hreserved n i hold
    rw [hkey'] at hkey
    cases hkey
    exact hout

/-- A wallet with its pool, before anybody has asked for a key. -/
structure PoolStart (env : KeyPoolEnv κ) (s : KeyPool κ) : Prop where
  unheld : ∀ h, (s.reserveKeys h).nIndex = -1
  handedOut : s.handedOut = []
  recorded : ∀ i ∈ s.setKeyPool.keys, 1 ≤ i ∧ ∃ keypool, s.db i = some keypool ∧
    keypool.vchPubKey ∈ s.keys
  distinct : ∀ i ∈ s.setKeyPool.keys, ∀ j ∈ s.setKeyPool.keys, ∀ a b, s.db i = some a →
    s.db j = some b → a.vchPubKey = b.vchPubKey → i = j
  fresh : ∀ n, s.keys.length ≤ n → env.newKey n ∉ s.keys

theorem PoolStart.pooled {s : KeyPool κ} (h : PoolStart env s) : s.Pooled env := by
  have hhold {n : ℕ} {i : ℤ} (hold : s.Holds n i) : False := hold.2 (hold.1.symm.trans (h.unheld n))
  have hset {i : ℤ} (hi : s.Live i) : i ∈ s.setKeyPool.keys := by
    rcases hi with hi | ⟨n, hold⟩
    · exact hi
    · exact (hhold hold).elim
  refine ⟨fun i hi => (h.recorded i (hset hi)).1, ?_, fun n i hold => (hhold hold).elim,
    fun n n' i hold _ => (hhold hold).elim, ?_, ?_, ?_, h.fresh⟩
  · intro i hi
    obtain ⟨-, keypool, hrecord, hkey⟩ := h.recorded i (hset hi)
    refine ⟨keypool, hrecord, hkey, ?_⟩
    rw [h.handedOut]
    exact List.not_mem_nil
  · exact fun i j hi hj => h.distinct i (hset hi) j (hset hj)
  · rw [h.handedOut]
    exact List.nodup_nil
  · rw [h.handedOut]
    exact List.forall_mem_nil _

namespace KeyPool

variable {s s' : KeyPool κ}

/-! ## Keeping and returning -/

abbrev Fair (env : KeyPoolEnv κ) (s : KeyPool κ) : PoolCall κ (KeyPool κ) → Prop :=
  Ends fun s' => s'.Pooled env ∧ s.KeepsRecords s'

theorem keepReserved_spec (h : s.Pooled env) (n : ℕ) : s.Fair env (.ok (s.keepReserved io n)) := by
  rw [keepReserved]
  dsimp only
  split
  next => exact ⟨(h.clearHold n rfl).1, fun _ _ _ _ => rfl⟩
  next hne =>
    obtain ⟨keypool, hpooled, hloose, hkey⟩ := h.release ⟨rfl, hne⟩
    obtain ⟨hpooled', hkeeps⟩ := @Pooled.keepLoose κ env io _ _ keypool hpooled hloose
    -- the record goes first in the code, then the object forgets the index
    have hcomm : ({ s.KeepKey io (s.reserveKeys n).nIndex with
        handedOut := s.handedOut ++ (s.reserveKeys n).vchPubKey.toList } : KeyPool κ).setReserveKey n
          .none = { (s.setReserveKey n .none).KeepKey io (s.reserveKeys n).nIndex with
        handedOut := (s.setReserveKey n .none).handedOut ++ [keypool.vchPubKey] } := by
      rw [hkey, KeepKey, KeepKey, ErasePool, ErasePool]
      split
      next => rfl
      next => rfl
    rw [hcomm]
    exact ⟨hpooled', fun m j _ hold => (hkeeps m j hold).2⟩

theorem returnReserved_spec (h : s.Pooled env) (n : ℕ) : s.Fair env (.ok (s.returnReserved n)) := by
  rw [returnReserved]
  split
  next => exact ⟨(h.clearHold n rfl).1, fun _ _ _ _ => rfl⟩
  next hne =>
    obtain ⟨keypool, hpooled, hloose, -⟩ := h.release ⟨rfl, hne⟩
    exact ⟨(hpooled.putBack hloose).1, fun _ _ _ _ => rfl⟩

/-! ## Reserving -/

variable [DecidableEq κ]

/-- What a call to reserve a key comes to. -/
def Reserves (env : KeyPoolEnv κ) (s : KeyPool κ) :
    PoolCall κ (KeyPool κ × Option (ℤ × CKeyPool κ)) → Prop
  | .error (e, s') => e = .writeFailed ∧ s'.Pooled env ∧ s.Undisturbed s'
  | .ok (s', none) => s'.Pooled env ∧ s.Undisturbed s'
  | .ok (s', some (i, keypool)) => s'.Pooled env ∧ s.Undisturbed s' ∧ s'.Loose i keypool

theorem ReserveKeyFromKeyPool_spec (hnew : Function.Injective env.newKey) (h : s.Pooled env)
    (hspares : s.fLocked = true ∨ s.Spares env io 0) :
    s.Reserves env (s.ReserveKeyFromKeyPool env io) := by
  have hfilled : Ends (fun s' => s'.Pooled env ∧ s.Undisturbed s')
      (if s.fLocked then .ok s else s.TopUpKeyPool env io 0) := by
    split
    next => exact ⟨h, .refl s⟩
    next => exact TopUpKeyPool_spec hnew h hspares
  rw [ReserveKeyFromKeyPool]
  generalize (if s.fLocked then Except.ok s else s.TopUpKeyPool env io 0) = filled at hfilled
  match filled, hfilled with
  | .error (e, s'), hfilled => exact hfilled
  | .ok s', ⟨hpooled, hframe⟩ =>
    dsimp only
    cases hhead : s'.setKeyPool.keys.head? with
    | none => exact ⟨hpooled, hframe⟩
    | some i =>
      obtain ⟨keypool, hrecord, hkey, hpooled', hloose⟩ := hpooled.takeHead (List.mem_of_head? hhead)
      dsimp only
      rw [hrecord]
      dsimp only
      rw [if_pos hkey]
      exact ⟨hpooled', ⟨hframe.reserveKeys, hframe.handedOut, hframe.fLocked, hframe.db⟩, hloose⟩

theorem GetKeyFromPool_spec (hnew : Function.Injective env.newKey) (h : s.Pooled env)
    (hspares : s.fLocked = true ∨ s.Spares env io 0) (fAllowReuse : Bool) :
    s.Fair env (s.GetKeyFromPool env io fAllowReuse) := by
  have hspec := ReserveKeyFromKeyPool_spec hnew h hspares
  rw [GetKeyFromPool]
  generalize s.ReserveKeyFromKeyPool env io = reserved at hspec
  match reserved, hspec with
  | .error (e, s'), ⟨herr, hpooled, hframe⟩ => exact ⟨herr, hpooled, hframe.keepsRecords⟩
  | .ok (s', none), ⟨hpooled, hframe⟩ =>
    dsimp only
    split
    next => exact ⟨hpooled, hframe.keepsRecords⟩
    next =>
      obtain ⟨hpooled', hframe', hunused, hkey⟩ := GenerateNewKey_spec hnew hpooled
      exact ⟨hpooled'.handOut hunused hkey, (hframe.trans hframe').keepsRecords⟩
  | .ok (s', some (i, keypool)), ⟨hpooled, hframe, hloose⟩ =>
    obtain ⟨hpooled', hkeeps⟩ := @Pooled.keepLoose κ env io s' i keypool hpooled hloose
    exact ⟨hpooled', fun n j hold hold' => (hkeeps n j hold').2.trans (hframe.db n j hold)⟩

theorem GetOldestKeyPoolTime_spec (hnew : Function.Injective env.newKey) (h : s.Pooled env)
    (hspares : s.fLocked = true ∨ s.Spares env io 0) :
    s.Fair env ((s.GetOldestKeyPoolTime env io).map Prod.fst) := by
  have hspec := ReserveKeyFromKeyPool_spec hnew h hspares
  rw [GetOldestKeyPoolTime]
  generalize s.ReserveKeyFromKeyPool env io = reserved at hspec
  match reserved, hspec with
  | .error (e, s'), ⟨herr, hpooled, hframe⟩ => exact ⟨herr, hpooled, hframe.keepsRecords⟩
  | .ok (s', none), ⟨hpooled, hframe⟩ => exact ⟨hpooled, hframe.keepsRecords⟩
  | .ok (s', some (i, keypool)), ⟨hpooled, hframe, hloose⟩ =>
    obtain ⟨hpooled', hframe'⟩ := hpooled.putBack hloose
    exact ⟨hpooled', (hframe.trans hframe').keepsRecords⟩

theorem GetReservedKey_spec (hnew : Function.Injective env.newKey) (h : s.Pooled env) {n : ℕ}
    (hspares : (s.reserveKeys n).nIndex ≠ -1 ∨ s.fLocked = true ∨ s.Spares env io 0) :
    s.Fair env (s.GetReservedKey env io n) := by
  rw [GetReservedKey]
  split
  next hnone =>
    have hspec := ReserveKeyFromKeyPool_spec hnew h (hspares.resolve_left fun hne => hne hnone)
    generalize s.ReserveKeyFromKeyPool env io = reserved at hspec
    match reserved, hspec with
    | .error (e, s'), ⟨herr, hpooled, hframe⟩ =>
      cases herr
      exact ⟨rfl, hpooled, hframe.keepsRecords⟩
    | .ok (s', none), ⟨hpooled, hframe⟩ =>
      dsimp only
      split
      next => exact ⟨(hpooled.clearHold n rfl).1, fun m j hold _ => hframe.db m j hold⟩
      next => exact ⟨hpooled, hframe.keepsRecords⟩
    | .ok (s', some (i, keypool)), ⟨hpooled, hframe, hloose⟩ =>
      exact ⟨hpooled.hold hloose n, fun m j hold _ => hframe.db m j hold⟩
  next => exact ⟨h, (Undisturbed.refl s).keepsRecords⟩

end KeyPool

/-! ## Calls in any order -/

variable [DecidableEq κ]

/-- No call of the event gives a new key an index that somebody has reserved, and a new pool can be
written. -/
def PoolEvent.Spares (env : KeyPoolEnv κ) (io : PoolIo) (s : KeyPool κ) : PoolEvent → Prop
  | .topUp nSize => s.fLocked = true ∨ s.Spares env io nSize
  | .newPool => s.fLocked = true ∨ ∀ i ∈ KeyPool.newIndices env, io.writeFails i = false ∧
      ∀ n, ¬ s.Holds n i
  | .reserve h => (s.reserveKeys h).nIndex ≠ -1 ∨ s.fLocked = true ∨ s.Spares env io 0
  | .take _ | .oldest => s.fLocked = true ∨ s.Spares env io 0
  | .keep _ | .giveBack _ | .lock | .unlock => True

theorem PoolEvent.run_spec (hnew : Function.Injective env.newKey) {s : KeyPool κ}
    (h : s.Pooled env) {e : PoolEvent} (hspares : e.Spares env io s) :
    s.Fair env (e.run env io s) := by
  cases e with
  | topUp nSize =>
    have hspec := @KeyPool.TopUpKeyPool_spec κ env io s hnew h nSize hspares
    rw [PoolEvent.run]
    generalize s.TopUpKeyPool env io nSize = result at hspec
    match result, hspec with
    | .error (e, s'), ⟨herr, hpooled, hframe⟩ => exact ⟨herr, hpooled, hframe.keepsRecords⟩
    | .ok s', ⟨hpooled, hframe⟩ => exact ⟨hpooled, hframe.keepsRecords⟩
  | newPool =>
    obtain ⟨hpooled, hframe⟩ := KeyPool.NewKeyPool_spec hnew h hspares
    exact ⟨hpooled, hframe.keepsRecords⟩
  | reserve n => exact KeyPool.GetReservedKey_spec hnew h hspares
  | keep n => exact KeyPool.keepReserved_spec h n
  | giveBack n => exact KeyPool.returnReserved_spec h n
  | take fAllowReuse => exact KeyPool.GetKeyFromPool_spec hnew h hspares fAllowReuse
  | oldest => exact KeyPool.GetOldestKeyPoolTime_spec hnew h hspares
  | lock | unlock =>
    exact ⟨⟨h.positive, h.recorded, h.held, h.apart, h.distinct, h.once, h.known, h.fresh⟩,
      fun _ _ _ _ => rfl⟩

/-- A step of a run in which every call spares the reserved indices. -/
def PoolStep (env : KeyPoolEnv κ) (s s' : KeyPool κ) : Prop :=
  ∃ io e, PoolEvent.Spares env io s e ∧ s' = e.next env io s

theorem PoolEvent.next_spec (hnew : Function.Injective env.newKey) {s : KeyPool κ}
    (h : s.Pooled env) {e : PoolEvent} (hspares : e.Spares env io s) :
    (e.next env io s).Pooled env ∧ s.KeepsRecords (e.next env io s) ∧
      ∀ stop s', e.run env io s = .error (stop, s') → stop = .writeFailed := by
  have hspec := e.run_spec hnew h hspares
  rw [PoolEvent.next]
  generalize e.run env io s = result at hspec
  match result, hspec with
  | .error (stop, s'), ⟨herr, hpooled, hkeeps⟩ =>
    refine ⟨hpooled, hkeeps, ?_⟩
    intro stop' s'' heq
    cases heq
    exact herr
  | .ok s', ⟨hpooled, hkeeps⟩ =>
    refine ⟨hpooled, hkeeps, ?_⟩
    intro stop' s'' heq
    cases heq

theorem pooled_of_run (hnew : Function.Injective env.newKey) {s₀ s : KeyPool κ}
    (hstart : PoolStart env s₀) (hrun : Relation.ReflTransGen (PoolStep env) s₀ s) :
    s.Pooled env := by
  induction hrun with
  | refl => exact hstart.pooled
  | tail _ hstep ih =>
    obtain ⟨io, e, hspares, rfl⟩ := hstep
    exact (PoolEvent.next_spec hnew ih hspares).1

/-- Whatever has been called in whatever order, nobody has a key that somebody else has, the records
of reserved indices stay, and only a record that cannot be written ends a call. -/
theorem keyPool_sound (hnew : Function.Injective env.newKey) {s₀ s : KeyPool κ}
    (hstart : PoolStart env s₀) (hrun : Relation.ReflTransGen (PoolStep env) s₀ s) :
    s.Sound ∧ ∀ io e, PoolEvent.Spares env io s e → s.KeepsRecords (e.next env io s) ∧
      ∀ stop s', e.run env io s = .error (stop, s') → stop = .writeFailed := by
  have hpooled := pooled_of_run hnew hstart hrun
  exact ⟨hpooled.sound, fun io e hspares => (PoolEvent.next_spec hnew hpooled hspares).2⟩

/-! ## A pool of numbered keys -/

/-- The keys are numbered as they come. -/
def numbered : KeyPoolEnv ℕ where
  newKey := id
  nKeyPool := 1
  vchDefaultKey := none

def allWritten : PoolIo where
  nTime := 0
  writeFails := fun _ => false
  eraseFails := fun _ => false

def emptyPool : KeyPool ℕ where
  setKeyPool := .empty
  db := fun _ => none
  keys := []
  fLocked := false
  reserveKeys := fun _ => .none
  handedOut := []

theorem emptyPool_start : PoolStart numbered emptyPool where
  unheld := fun _ => rfl
  handedOut := rfl
  recorded := fun i hi => by cases hi
  distinct := fun i hi => by cases hi
  fresh := fun _ _ => List.not_mem_nil

def PoolEvent.runAll (events : List PoolEvent) : KeyPool ℕ :=
  events.foldl (fun s e => e.next numbered allWritten s) emptyPool

/-- A call that fills the pool spares the reserved indices that are below the end of the set. -/
theorem PoolEvent.spares_of_below {s : KeyPool ℕ} {e : PoolEvent}
    (h : ∀ n, (s.reserveKeys n).nIndex < s.nEnd)
    (hfill : e = .topUp 0 ∨ ∃ n, e = .reserve n) : e.Spares numbered allWritten s := by
  have hspares : s.Spares numbered allWritten 0 := by
    rintro n _ ⟨rfl, -⟩ hcovered
    exact absurd (h n) (not_lt.mpr hcovered.1)
  rcases hfill with rfl | ⟨n, rfl⟩
  · exact .inr hspares
  · exact .inr (.inr hspares)

/-- The holder 0 reserves a key, the pool is filled again, and the holder 1 reserves one; then 0 keeps
its key, 1 gives its own back, and the holder 2 gets it. -/
def twoHolders : List PoolEvent :=
  [.topUp 0, .reserve 0, .topUp 0, .reserve 1, .keep 0, .giveBack 1, .reserve 2, .keep 2]

theorem runAll_steps {events : List PoolEvent}
    (h : ∀ n (hn : n < events.length),
      (events[n]).Spares numbered allWritten (PoolEvent.runAll (events.take n))) :
    Relation.ReflTransGen (PoolStep numbered) emptyPool (PoolEvent.runAll events) := by
  induction events using List.reverseRecOn with
  | nil => exact .refl
  | append_singleton events e ih =>
    have hbefore : ∀ n (hn : n < events.length),
        (events[n]).Spares numbered allWritten (PoolEvent.runAll (events.take n)) := by
      intro n hn
      have hspares := h n (by rw [List.length_append]; omega)
      rw [List.getElem_append_left hn, List.take_append_of_le_length hn.le] at hspares
      exact hspares
    have hlast := h events.length (by simp)
    rw [List.getElem_concat_length rfl, List.take_left] at hlast
    refine (ih hbefore).tail ⟨allWritten, e, hlast, ?_⟩
    rw [PoolEvent.runAll, List.foldl_append]
    rfl

theorem twoHolders_below {k n : ℕ} (hk : k ∈ [0, 1, 2, 3, 6]) :
    ((PoolEvent.runAll (twoHolders.take k)).reserveKeys n).nIndex <
      (PoolEvent.runAll (twoHolders.take k)).nEnd := by
  simp only [List.mem_cons, List.not_mem_nil, or_false] at hk
  rcases hk with rfl | rfl | rfl | rfl | rfl
  all_goals
    match n with
    | 0 | 1 | 2 => decide
    | n + 3 => exact of_decide_eq_true rfl

theorem keyPool_sound_twoHolders :
    (PoolEvent.runAll twoHolders).Sound ∧ (PoolEvent.runAll twoHolders).handedOut = [0, 1] := by
  have hrun : Relation.ReflTransGen (PoolStep numbered) emptyPool (PoolEvent.runAll twoHolders) := by
    refine runAll_steps fun n hn => ?_
    match n, hn with
    | 0, _ | 2, _ => exact PoolEvent.spares_of_below (fun _ => twoHolders_below (by decide)) (.inl rfl)
    | 1, _ | 3, _ | 6, _ =>
      exact PoolEvent.spares_of_below (fun _ => twoHolders_below (by decide)) (.inr ⟨_, rfl⟩)
    | 4, _ | 5, _ | 7, _ => trivial
  exact ⟨(@keyPool_sound ℕ numbered _ Function.injective_id _ _ emptyPool_start hrun).1, by decide⟩

/-- Both keys are reserved when the pool is filled again: the reserved indices come back with other
keys. Then one record is kept and found missing, or two objects get the same key. -/
theorem keyPool_not_sound :
    PoolStart numbered emptyPool ∧
    let filled : List PoolEvent := [.topUp 0, .lock, .reserve 0, .reserve 1, .unlock, .topUp 0]
    ((PoolEvent.runAll filled).reserveKeys 0 = ⟨1, some 0⟩ ∧
      1 ∈ (PoolEvent.runAll filled).setKeyPool.keys ∧
      (PoolEvent.runAll filled).db 1 = some ⟨0, 2⟩) ∧
    (∃ s, (PoolEvent.reserve 2).run numbered allWritten (PoolEvent.runAll (filled ++ [.keep 0])) =
      .error (.readFailed 1, s)) ∧
    (PoolEvent.runAll (filled ++ [.reserve 2, .giveBack 0, .reserve 3, .keep 2, .keep 3])).handedOut =
      [2, 2] := by
  refine ⟨emptyPool_start, ⟨by decide, by decide, by decide⟩, ⟨_, rfl⟩, by decide⟩

end Dions
