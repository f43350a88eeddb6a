import Mathlib.Data.List.Nodup
import Mathlib.Logic.Relation
import Dions.Model.KeyPool

/-! # Reserved keys

A new index is one more than the largest in the set, but a reserved index is not in the set. As long
as no new index is a reserved one, everybody gets a key of his own. -/

namespace Dions

variable {κ : Type} {env : KeyPoolEnv κ} {io : PoolIo}

namespace KeyPool

variable {s s' s₁ : KeyPool κ}

/-! ## Indices in use -/

/-- The object `h` has reserved the index `i`. -/
def Holds (s : KeyPool κ) (h : ℕ) (i : ℤ) : Prop := (s.reserveKeys h).nIndex = i ∧ i ≠ -1

/-- The index is in the set, or somebody has reserved it. -/
def Live (s : KeyPool κ) (i : ℤ) : Prop := i ∈ s.setKeyPool.keys ∨ ∃ h, s.Holds h i

/-- The key is not that of an index in use, and it has not been handed out. -/
structure Unused (s : KeyPool κ) (key : κ) : Prop where
  stored : ∀ i, s.Live i → ∀ keypool, s.db i = some keypool → keypool.vchPubKey ≠ key
  handedOut : key ∉ s.handedOut

/-- What the pool keeps. -/
structure Pooled (env : KeyPoolEnv κ) (s : KeyPool κ) : Prop where
  positive : ∀ i, s.Live i → 1 ≤ i
  recorded : ∀ i, s.Live i → ∃ keypool, s.db i = some keypool ∧ keypool.vchPubKey ∈ s.keys ∧
    keypool.vchPubKey ∉ s.handedOut
  held : ∀ h i, s.Holds h i → i ∉ s.setKeyPool.keys ∧
    (s.db i).map CKeyPool.vchPubKey = (s.reserveKeys h).vchPubKey
  apart : ∀ h h' i, s.Holds h i → s.Holds h' i → h = h'
  distinct : ∀ i j, s.Live i → s.Live j → ∀ a b, s.db i = some a → s.db j = some b →
    a.vchPubKey = b.vchPubKey → i = j
  once : s.handedOut.Nodup
  known : ∀ key ∈ s.handedOut, key ∈ s.keys
  fresh : ∀ n, s.keys.length ≤ n → env.newKey n ∉ s.keys

/-- What a call leaves alone that only fills the pool. -/
structure Undisturbed (s s' : KeyPool κ) : Prop where
  reserveKeys : s'.reserveKeys = s.reserveKeys
  handedOut : s'.handedOut = s.handedOut
  fLocked : s'.fLocked = s.fLocked
  db : ∀ h i, s.Holds h i → s'.db i = s.db i

theorem Undisturbed.refl (s : KeyPool κ) : s.Undisturbed s := ⟨rfl, rfl, rfl, fun _ _ _ => rfl⟩

theorem Undisturbed.holds (h : s.Undisturbed s') {n : ℕ} {i : ℤ} : s'.Holds n i ↔ s.Holds n i :=
  ⟨fun hold => ⟨h.reserveKeys ▸ hold.1, hold.2⟩, fun hold => ⟨h.reserveKeys ▸ hold.1, hold.2⟩⟩

theorem Undisturbed.trans (h : s.Undisturbed s₁) (h' : s₁.Undisturbed s') : s.Undisturbed s' where
  reserveKeys := h'.reserveKeys.trans h.reserveKeys
  handedOut := h'.handedOut.trans h.handedOut
  fLocked := h'.fLocked.trans h.fLocked
  db n i hold := (h'.db n i (h.holds.mpr hold)).trans (h.db n i hold)

/-- Whoever keeps his index has the record that he had. -/
def KeepsRecords (s s' : KeyPool κ) : Prop :=
  ∀ h i, s.Holds h i → s'.Holds h i → s'.db i = s.db i

theorem Undisturbed.keepsRecords (h : s.Undisturbed s') : s.KeepsRecords s' :=
  fun n i hold _ => h.db n i hold

/-! ## New keys -/

theorem GenerateNewKey_spec (hnew : Function.Injective env.newKey) (h : s.Pooled env) :
    (s.GenerateNewKey env).1.Pooled env ∧ s.Undisturbed (s.GenerateNewKey env).1 ∧
      (s.GenerateNewKey env).1.Unused (s.GenerateNewKey env).2 ∧
      (s.GenerateNewKey env).2 ∈ (s.GenerateNewKey env).1.keys := by
  have hmem {key : κ} (hkey : key ∈ s.keys) : key ∈ (s.GenerateNewKey env).1.keys :=
    List.mem_append_left _ hkey
  have hnext : env.newKey s.keys.length ∉ s.keys := h.fresh _ le_rfl
  refine ⟨⟨h.positive, ?_, h.held, h.apart, h.distinct, h.once, ?_, ?_⟩,
    ⟨rfl, rfl, rfl, fun _ _ _ => rfl⟩, ⟨?_, ?_⟩, ?_⟩
  · intro i hi
    obtain ⟨keypool, hdb, hkey, hout⟩ := h.recorded i hi
    exact ⟨keypool, hdb, hmem hkey, hout⟩
  · exact fun key hkey => hmem (h.known key hkey)
  · intro n hn hkey
    rw [GenerateNewKey, List.length_append, List.length_singleton] at hn
    rcases List.mem_append.mp hkey with hkey | hkey
    · exact h.fresh n (by omega) hkey
    · have := hnew (List.mem_singleton.mp hkey)
      omega
  · intro i hi keypool hdb heq
    obtain ⟨keypool', hdb', hkey, -⟩ := h.recorded i hi
    cases hdb.symm.trans hdb'
    have hkey' : env.newKey s.keys.length = keypool.vchPubKey := heq.symm
    exact hnext (hkey' ▸ hkey)
  · exact fun hout => hnext (h.known _ hout)
  · exact List.mem_append_right _ (List.mem_singleton.mpr rfl)

/-- A record with an unused key at an index that nobody has reserved. -/
theorem Pooled.fill (h : s.Pooled env) {i nTime : ℤ} {key : κ} (hi : 1 ≤ i)
    (hfree : ∀ n, ¬ s.Holds n i) (hunused : s.Unused key) (hkey : key ∈ s.keys) :
    Pooled env { s with
      db := Function.update s.db i (some ⟨nTime, key⟩)
      setKeyPool := s.setKeyPool.insert i () } ∧
    s.Undisturbed { s with
      db := Function.update s.db i (some ⟨nTime, key⟩)
      setKeyPool := s.setKeyPool.insert i () } := by
  generalize hs' : ({ s with
    db := Function.update s.db i (some ⟨nTime, key⟩)
    setKeyPool := s.setKeyPool.insert i () } : KeyPool κ) = s'
  have hself : s'.db i = some ⟨nTime, key⟩ := by
    rw [← hs']
    exact Function.update_self _ _ _
  have hother {j : ℤ} (hj : j ≠ i) : s'.db j = s.db j := by
    rw [← hs']
    exact Function.update_of_ne hj _ _
  have hholds {n : ℕ} {j : ℤ} : s'.Holds n j ↔ s.Holds n j := by
    rw [← hs']
    rfl
  have hset {j : ℤ} : j ∈ s'.setKeyPool.keys ↔ j = i ∨ j ∈ s.setKeyPool.keys := by
    rw [← hs']
    exact OrdMap.mem_keys_insert
  have hlive {j : ℤ} (hj : s'.Live j) (hji : j ≠ i) : s.Live j := by
    rcases hj with hj | ⟨n, hj⟩
    · exact .inl ((hset.mp hj).resolve_left hji)
    · exact .inr ⟨n, hholds.mp hj⟩
  have hrest : s'.keys = s.keys ∧ s'.handedOut = s.handedOut ∧ s'.reserveKeys = s.reserveKeys ∧
      s'.fLocked = s.fLocked := by
    rw [← hs']
    exact ⟨rfl, rfl, rfl, rfl⟩
  obtain ⟨hkeys, hout, hreserve, hlocked⟩ := hrest
  refine ⟨⟨?_, ?_, ?_, ?_, ?_, ?_, ?_, ?_⟩, ⟨hreserve, hout, hlocked, ?_⟩⟩
  · intro j hj
    by_cases hji : j = i
    · exact hji ▸ hi
    · exact h.positive j (hlive hj hji)
  · intro j hj
    rw [hkeys, hout]
    by_cases hji : j = i
    · exact ⟨_, hji ▸ hself, hkey, hunused.handedOut⟩
    · rw [hother hji]
      exact h.recorded j (hlive hj hji)
  · intro n j hold
    have hold' := hholds.mp hold
    have hji : j ≠ i := fun heq => hfree n (heq ▸ hold')
    rw [hset, hother hji, hreserve]
    exact ⟨fun hmem => (h.held n j hold').1 (hmem.resolve_left hji), (h.held n j hold').2⟩
  · exact fun n n' j hold hold' => h.apart n n' j (hholds.mp hold) (hholds.mp hold')
  · intro j k hj hk a b ha hb heq
    by_cases hji : j = i
    · by_cases hki : k = i
      · exact hji.trans hki.symm
      · rw [hji, hself] at ha
        rw [hother hki] at hb
        cases ha
        exact absurd heq.symm (hunused.stored k (hlive hk hki) b hb)
    · by_cases hki : k = i
      · rw [hki, hself] at hb
        rw [hother hji] at ha
        cases hb
        exact absurd heq (hunused.stored j (hlive hj hji) a ha)
      · rw [hother hji] at ha
        rw [hother hki] at hb
        exact h.distinct j k (hlive hj hji) (hlive hk hki) a b ha hb heq
  · rw [hout]
    exact h.once
  · rw [hout, hkeys]
    exact h.known
  · rw [hkeys]
    exact h.fresh
  · intro n j hold
    exact hother fun heq => hfree n (heq ▸ hold)

/-! ## Filling the pool -/

theorem lt_nEnd {i : ℤ} (hi : i ∈ s.setKeyPool.keys) : i < s.nEnd := by
  rw [nEnd]
  cases hlast : s.setKeyPool.keys.getLast? with
  | none =>
    rw [List.getLast?_eq_none_iff.mp hlast] at hi
    cases hi
  | some last =>
    dsimp only
    obtain ⟨front, hfront⟩ := List.getLast?_eq_some_iff.mp hlast
    have hsorted := s.setKeyPool.ordered
    change s.setKeyPool.keys.Pairwise (· < ·) at hsorted
    rw [hfront] at hi hsorted
    rcases List.mem_append.mp hi with hi | hi
    · have := (List.pairwise_append.mp hsorted).2.2 i hi last (List.mem_singleton.mpr rfl)
      omega
    · rw [List.mem_singleton.mp hi]
      omega

theorem nEnd_cases (s : KeyPool κ) :
    s.setKeyPool.keys = [] ∧ s.nEnd = 1 ∨ s.nEnd - 1 ∈ s.setKeyPool.keys := by
  rw [nEnd]
  cases hlast : s.setKeyPool.keys.getLast? with
  | none => exact .inl ⟨List.getLast?_eq_none_iff.mp hlast, rfl⟩
  | some last =>
    refine .inr ?_
    dsimp only
    rw [add_sub_cancel_right]
    exact List.mem_of_getLast? hlast

theorem nEnd_insert (hs' : s'.setKeyPool = s.setKeyPool.insert s.nEnd ()) :
    s'.nEnd = s.nEnd + 1 := by
  have hmem : s.nEnd ∈ s'.setKeyPool.keys := by
    rw [hs']
    exact OrdMap.mem_keys_insert.mpr (.inl rfl)
  have hlt := lt_nEnd hmem
  rcases nEnd_cases s' with ⟨hempty, -⟩ | hlast
  · rw [hempty] at hmem
    cases hmem
  · rw [hs', OrdMap.mem_keys_insert] at hlast
    rcases hlast with hlast | hlast
    · omega
    · have := lt_nEnd hlast
      omega

theorem Pooled.one_le_nEnd (h : s.Pooled env) : 1 ≤ s.nEnd := by
  rcases nEnd_cases s with ⟨-, hone⟩ | hlast
  · omega
  · have := h.positive _ (.inl hlast)
    omega

/-- The call ends with a state, or because a record could not be written, and the state it leaves
meets `P`. -/
def Ends (P : KeyPool κ → Prop) : PoolCall κ (KeyPool κ) → Prop
  | .ok s => P s
  | .error (e, s) => e = .writeFailed ∧ P s

/-- No reserved index is among the ones that the call gives to new keys; it ends at the first record
that cannot be written. -/
def Spares (s : KeyPool κ) (env : KeyPoolEnv κ) (io : PoolIo) (nSize : ℕ) : Prop :=
  ∀ h i, s.Holds h i → ¬ (s.nEnd ≤ i ∧ i < s.nEnd + s.missing env nSize ∧
    ∀ j, s.nEnd ≤ j → j ≤ i → io.writeFails j = false)

theorem topUpRound_spec (hnew : Function.Injective env.newKey) (h : s.Pooled env)
    (hfree : io.writeFails s.nEnd = false → ∀ n, ¬ s.Holds n s.nEnd) :
    (∃ s', s.topUpRound env io = .ok s' ∧ s'.Pooled env ∧ s.Undisturbed s' ∧
      s'.nEnd = s.nEnd + 1 ∧ io.writeFails s.nEnd = false) ∨
    ∃ s', s.topUpRound env io = .error (.writeFailed, s') ∧ s'.Pooled env ∧ s.Undisturbed s' := by
  obtain ⟨hpooled, hframe, hunused, hkey⟩ := GenerateNewKey_spec hnew h
  rw [topUpRound]
  dsimp only
  split
  next => exact .inr ⟨_, rfl, hpooled, hframe⟩
  next hwrites =>
    have hwritten : io.writeFails s.nEnd = false := eq_false_of_ne_true hwrites
    have hfree' : ∀ n, ¬ (s.GenerateNewKey env).1.Holds n s.nEnd :=
      fun n hold => hfree hwritten n (hframe.holds.mp hold)
    obtain ⟨hfilled, hframe'⟩ := @Pooled.fill κ env _ hpooled s.nEnd io.nTime _ h.one_le_nEnd hfree'
      hunused hkey
    rw [WritePool, if_neg hwrites]
    exact .inl ⟨_, rfl, hfilled, hframe.trans hframe', nEnd_insert rfl, hwritten⟩

theorem topUpLoop_spec (hnew : Function.Injective env.newKey) (rounds : ℕ) (h : s.Pooled env)
    (hfree : ∀ n i, s.Holds n i → ¬ (s.nEnd ≤ i ∧ i < s.nEnd + rounds ∧
      ∀ j, s.nEnd ≤ j → j ≤ i → io.writeFails j = false)) :
    Ends (fun s' => s'.Pooled env ∧ s.Undisturbed s') (topUpLoop env io rounds s) := by
  induction rounds generalizing s with
  | zero => exact ⟨h, .refl s⟩
  | succ rounds ih =>
    have hfirst : io.writeFails s.nEnd = false → ∀ n, ¬ s.Holds n s.nEnd := by
      intro hwritten n hold
      refine hfree n _ hold ⟨le_rfl, by omega, ?_⟩
      intro j hle hge
      rw [le_antisymm hge hle]
      exact hwritten
    rcases @topUpRound_spec κ env io s hnew h hfirst with
      ⟨s₁, hround, hpooled, hframe, hnext, hwritten⟩ | ⟨s₁, hround, hpooled, hframe⟩
    · have hfree₁ : ∀ n i, s₁.Holds n i → ¬ (s₁.nEnd ≤ i ∧ i < s₁.nEnd + rounds ∧
          ∀ j, s₁.nEnd ≤ j → j ≤ i → io.writeFails j = false) := by
        rintro n i hold ⟨hle, hlt, hwrites⟩
        refine hfree n i (hframe.holds.mp hold) ⟨by omega, by push_cast; omega, ?_⟩
        intro j hj hji
        by_cases heq : j = s.nEnd
        · rw [heq]
          exact hwritten
        · exact hwrites j (by omega) hji
      have hrest := ih hpooled hfree₁
      rw [topUpLoop, hround]
      dsimp only
      cases hloop : topUpLoop env io rounds s₁ with
      | ok s' =>
        rw [hloop] at hrest
        exact ⟨hrest.1, hframe.trans hrest.2⟩
      | error e =>
        rw [hloop] at hrest
        exact ⟨hrest.1, hrest.2.1, hframe.trans hrest.2.2⟩
    · rw [topUpLoop, hround]
      exact ⟨rfl, hpooled, hframe⟩

theorem TopUpKeyPool_spec (hnew : Function.Injective env.newKey) (h : s.Pooled env) {nSize : ℕ}
    (hspares : s.fLocked = true ∨ s.Spares env io nSize) :
    Ends (fun s' => s'.Pooled env ∧ s.Undisturbed s') (s.TopUpKeyPool env io nSize) := by
  rw [TopUpKeyPool]
  split
  next => exact ⟨h, .refl s⟩
  next hunlocked => exact topUpLoop_spec hnew _ h (hspares.resolve_left hunlocked)

theorem foldl_ErasePool (indices : List ℤ) (s : KeyPool κ) :
    ∃ db, indices.foldl (fun s nIndex => s.ErasePool io nIndex) s = { s with db := db } ∧
      ∀ i ∉ indices, db i = s.db i := by
  induction indices generalizing s with
  | nil => exact ⟨s.db, rfl, fun _ _ => rfl⟩
  | cons nIndex indices ih =>
    obtain ⟨db, hfold, hdb⟩ := ih (s.ErasePool io nIndex)
    have hone : ∃ db₁, s.ErasePool io nIndex = { s with db := db₁ } ∧
        ∀ i ≠ nIndex, db₁ i = s.db i := by
      rw [ErasePool]
      split
      next => exact ⟨s.db, rfl, fun _ _ => rfl⟩
      next => exact ⟨_, rfl, fun i hi => Function.update_of_ne hi _ _⟩
    obtain ⟨db₁, hone, hdb₁⟩ := hone
    rw [hone] at hfold hdb
    refine ⟨db, ?_, ?_⟩
    · rw [List.foldl_cons, hone]
      exact hfold
    · intro i hi
      rw [List.mem_cons, not_or] at hi
      exact (hdb i hi.2).trans (hdb₁ i hi.1)

/-- Without the set, and with other records where nobody has reserved one. -/
theorem Pooled.clear (h : s.Pooled env) {db : ℤ → Option (CKeyPool κ)}
    (hdb : ∀ i ∉ s.setKeyPool.keys, db i = s.db i) :
    Pooled env { s with db := db, setKeyPool := .empty } ∧
      s.Undisturbed { s with db := db, setKeyPool := .empty } := by
  have hheld {n : ℕ} {i : ℤ} (hold : s.Holds n i) : db i = s.db i := hdb i (h.held n i hold).1
  have hlive {i : ℤ} (hi : Live { s with db := db, setKeyPool := .empty } i) :
      s.Live i ∧ db i = s.db i := by
    rcases hi with hi | ⟨n, hi⟩
    · cases hi
    · exact ⟨.inr ⟨n, hi⟩, hheld hi⟩
  refine ⟨⟨fun i hi => h.positive i (hlive hi).1, ?_, ?_, h.apart, ?_, h.once, h.known, h.fresh⟩,
    ⟨rfl, rfl, rfl, fun n i hold => hheld hold⟩⟩
  · intro i hi
    dsimp only
    rw [(hlive hi).2]
    exact h.recorded i (hlive hi).1
  · intro n i hold
    dsimp only
    rw [hheld hold]
    exact ⟨fun hi => (by cases hi), (h.held n i hold).2⟩
  · intro i j hi hj a b ha hb heq
    dsimp only at ha hb
    rw [(hlive hi).2] at ha
    rw [(hlive hj).2] at hb
    exact h.distinct i j (hlive hi).1 (hlive hj).1 a b ha hb heq

theorem newKeyRounds_spec (hnew : Function.Injective env.newKey) (h : s.Pooled env)
    {indices : List ℤ} (hindices : ∀ i ∈ indices, 1 ≤ i ∧ io.writeFails i = false ∧
      ∀ n, ¬ s.Holds n i) :
    (indices.foldl (fun s nIndex => s.newKeyRound env io nIndex) s).Pooled env ∧
      s.Undisturbed (indices.foldl (fun s nIndex => s.newKeyRound env io nIndex) s) := by
  induction indices generalizing s with
  | nil => exact ⟨h, .refl s⟩
  | cons i indices ih =>
    rw [List.forall_mem_cons] at hindices
    obtain ⟨⟨hpos, hwrites, hfree⟩, hrest⟩ := hindices
    obtain ⟨hpooled, hframe, hunused, hkey⟩ := GenerateNewKey_spec hnew h
    have hfree' : ∀ n, ¬ (s.GenerateNewKey env).1.Holds n i :=
      fun n hold => hfree n (hframe.holds.mp hold)
    obtain ⟨hfilled, hframe'⟩ := @Pooled.fill κ env _ hpooled i io.nTime _ hpos hfree' hunused hkey
    have hround : s.newKeyRound env io i = { (s.GenerateNewKey env).1 with
        db := Function.update (s.GenerateNewKey env).1.db i
          (some ⟨io.nTime, (s.GenerateNewKey env).2⟩)
        setKeyPool := (s.GenerateNewKey env).1.setKeyPool.insert i () } := by
      rw [newKeyRound]
      dsimp only
      rw [WritePool, if_neg (by rw [hwrites]; exact Bool.false_ne_true)]
    rw [← hround] at hfilled hframe'
    have hframe₁ := hframe.trans hframe'
    obtain ⟨hend, hframe₂⟩ := ih hfilled fun j hj =>
      ⟨(hrest j hj).1, (hrest j hj).2.1, fun n hold => (hrest j hj).2.2 n (hframe₁.holds.mp hold)⟩
    exact ⟨hend, hframe₁.trans hframe₂⟩

theorem NewKeyPool_spec (hnew : Function.Injective env.newKey) (h : s.Pooled env)
    (hspares : s.fLocked = true ∨ ∀ i ∈ newIndices env, io.writeFails i = false ∧
      ∀ n, ¬ s.Holds n i) :
    (s.NewKeyPool env io).Pooled env ∧ s.Undisturbed (s.NewKeyPool env io) := by
  obtain ⟨db, hfold, hdb⟩ := @foldl_ErasePool κ io s.setKeyPool.keys s
  obtain ⟨hcleared, hframe⟩ := h.clear hdb
  rw [NewKeyPool, hfold]
  dsimp only
  split
  next => exact ⟨hcleared, hframe⟩
  next hunlocked =>
    have hindices := hspares.resolve_left hunlocked
    obtain ⟨hend, hframe'⟩ := @newKeyRounds_spec κ env io _ hnew hcleared (newIndices env) (by
      intro i hi
      refine ⟨?_, hindices i hi⟩
      obtain ⟨n, -, rfl⟩ := List.mem_map.mp hi
      omega)
    exact ⟨hend, hframe.trans hframe'⟩

/-! ## Keys between the set and their holder -/

/-- The key of the index is in nobody's hands. -/
structure Loose (s : KeyPool κ) (i : ℤ) (keypool : CKeyPool κ) : Prop where
  positive : 1 ≤ i
  free : ¬ s.Live i
  record : s.db i = some keypool
  known : keypool.vchPubKey ∈ s.keys
  unused : s.Unused keypool.vchPubKey

variable {i : ℤ} {keypool : CKeyPool κ}

/-- Fewer indices are in use. -/
theorem Pooled.drop (h : s.Pooled env) (hs' : s'.db = s.db ∧ s'.keys = s.keys ∧
      s'.handedOut = s.handedOut) (hset : ∀ j, j ∈ s'.setKeyPool.keys → j ∈ s.setKeyPool.keys)
    (hholds : ∀ n j, s'.Holds n j → s.Holds n j ∧ s'.reserveKeys n = s.reserveKeys n) :
    s'.Pooled env ∧ (∀ j, s'.Live j → s.Live j) := by
  obtain ⟨hdb, hkeys, hout⟩ := hs'
  have hlive : ∀ j, s'.Live j → s.Live j := by
    rintro j (hj | ⟨n, hj⟩)
    · exact .inl (hset j hj)
    · exact .inr ⟨n, (hholds n j hj).1⟩
  refine ⟨⟨fun j hj => h.positive j (hlive j hj), ?_, ?_, ?_, ?_, ?_, ?_, ?_⟩, hlive⟩
  · rw [hdb, hkeys, hout]
    exact fun j hj => h.recorded j (hlive j hj)
  · intro n j hold
    obtain ⟨hold', hsame⟩ := hholds n j hold
    rw [hdb, hsame]
    exact ⟨fun hj => (h.held n j hold').1 (hset j hj), (h.held n j hold').2⟩
  · exact fun n n' j hold hold' => h.apart n n' j (hholds n j hold).1 (hholds n' j hold').1
  · rw [hdb]
    exact fun j k hj hk => h.distinct j k (hlive j hj) (hlive k hk)
  · rw [hout]
    exact h.once
  · rw [hout, hkeys]
    exact h.known
  · rw [hkeys]
    exact h.fresh

/-- An index that is not in use any more leaves a loose key. -/
theorem Pooled.loose (h : s.Pooled env) (hi : s.Live i) (hfree : ¬ s'.Live i)
    (hlive : ∀ j, s'.Live j → s.Live j)
    (hs' : s'.db = s.db ∧ s'.keys = s.keys ∧ s'.handedOut = s.handedOut)
    (hrecord : s.db i = some keypool) : s'.Loose i keypool := by
  obtain ⟨hdb, hkeys, hout⟩ := hs'
  obtain ⟨keypool', hrecord', hkey, hunused⟩ := h.recorded i hi
  cases hrecord.symm.trans hrecord'
  refine ⟨h.positive i hi, hfree, by rw [hdb, hrecord], by rw [hkeys]; exact hkey, ?_,
    by rw [hout]; exact hunused⟩
  intro j hj a ha heq
  rw [hdb] at ha
  have hji : j = i := h.distinct j i (hlive j hj) hi a keypool ha hrecord heq
  exact hfree (hji ▸ hj)

theorem Pooled.putBack (h : s.Pooled env) (hloose : s.Loose i keypool) :
    (s.ReturnKey i).Pooled env ∧ s.Undisturbed (s.ReturnKey i) := by
  have hfilled := @Pooled.fill κ env s h i keypool.nTime keypool.vchPubKey hloose.positive
    (fun n hold => hloose.free (.inr ⟨n, hold⟩)) hloose.unused hloose.known
  have hdb : Function.update s.db i (some ⟨keypool.nTime, keypool.vchPubKey⟩) = s.db := by
    rw [← hloose.record, Function.update_eq_self]
  rw [hdb] at hfilled
  exact hfilled

theorem Pooled.hold (h : s.Pooled env) (hloose : s.Loose i keypool) (n : ℕ) :
    (s.setReserveKey n ⟨i, some keypool.vchPubKey⟩).Pooled env := by
  have hpos := hloose.positive
  generalize hs' : s.setReserveKey n ⟨i, some keypool.vchPubKey⟩ = s'
  have hself : s'.reserveKeys n = ⟨i, some keypool.vchPubKey⟩ := by
    rw [← hs']
    exact Function.update_self _ _ _
  have hother {m : ℕ} (hm : m ≠ n) : s'.reserveKeys m = s.reserveKeys m := by
    rw [← hs']
    exact Function.update_of_ne hm _ _
  have hrest : s'.db = s.db ∧ s'.keys = s.keys ∧ s'.handedOut = s.handedOut ∧
      s'.setKeyPool = s.setKeyPool := by
    rw [← hs']
    exact ⟨rfl, rfl, rfl, rfl⟩
  obtain ⟨hdb, hkeys, hout, hset⟩ := hrest
  have hholds {m : ℕ} {j : ℤ} (hold : s'.Holds m j) :
      m = n ∧ j = i ∨ m ≠ n ∧ s.Holds m j := by
    by_cases hm : m = n
    · refine .inl ⟨hm, ?_⟩
      have hindex := hold.1
      rw [hm, hself] at hindex
      exact hindex.symm
    · exact .inr ⟨hm, hother hm ▸ hold.1, hold.2⟩
  have hlive {j : ℤ} (hj : s'.Live j) (hji : j ≠ i) : s.Live j := by
    rcases hj with hj | ⟨m, hj⟩
    · exact .inl (hset ▸ hj)
    · rcases hholds hj with ⟨-, heq⟩ | ⟨-, hj⟩
      · exact absurd heq hji
      · exact .inr ⟨m, hj⟩
  refine ⟨?_, ?_, ?_, ?_, ?_, by rw [hout]; exact h.once, by rw [hout, hkeys]; exact h.known,
    by rw [hkeys]; exact h.fresh⟩
  · intro j hj
    by_cases hji : j = i
    · exact hji ▸ hpos
    · exact h.positive j (hlive hj hji)
  · intro j hj
    rw [hdb, hkeys, hout]
    by_cases hji : j = i
    · exact ⟨keypool, hji ▸ hloose.record, hloose.known, hloose.unused.handedOut⟩
    · exact h.recorded j (hlive hj hji)
  · intro m j hold
    rw [hset, hdb]
    rcases hholds hold with ⟨hm, hji⟩ | ⟨hm, hold'⟩
    · rw [hm, hji, hself, hloose.record]
      exact ⟨fun hj => hloose.free (.inl hj), rfl⟩
    · rw [hother hm]
      exact h.held m j hold'
  · intro m m' j hold hold'
    rcases hholds hold with ⟨hm, hji⟩ | ⟨hm, hold₁⟩
    · rcases hholds hold' with ⟨hm', -⟩ | ⟨hm', hold₁'⟩
      · exact hm.trans hm'.symm
      · exact absurd (.inr ⟨m', hji ▸ hold₁'⟩) hloose.free
    · rcases hholds hold' with ⟨hm', hji⟩ | ⟨hm', hold₁'⟩
      · exact absurd (.inr ⟨m, hji ▸ hold₁⟩) hloose.free
      · exact h.apart m m' j hold₁ hold₁'
  · intro j k hj hk a b ha hb heq
    rw [hdb] at ha hb
    by_cases hji : j = i
    · by_cases hki : k = i
      · exact hji.trans hki.symm
      · rw [hji, hloose.record] at ha
        cases ha
        exact absurd heq.symm (hloose.unused.stored k (hlive hk hki) b hb)
    · by_cases hki : k = i
      · rw [hki, hloose.record] at hb
        cases hb
        exact absurd heq (hloose.unused.stored j (hlive hj hji) a ha)
      · exact h.distinct j k (hlive hj hji) (hlive hk hki) a b ha hb heq

/-- The record of an index that is not in use goes, or stays where it cannot be erased. -/
theorem Pooled.keep (h : s.Pooled env) (hfree : ¬ s.Live i) :
    (s.KeepKey io i).Pooled env ∧ s.Undisturbed (s.KeepKey io i) := by
  rw [KeepKey, ErasePool]
  split
  next => exact ⟨h, .refl s⟩
  next =>
    have hdb {j : ℤ} (hj : s.Live j) : Function.update s.db i none j = s.db j :=
      Function.update_of_ne (fun heq : j = i => hfree (heq ▸ hj)) _ _
    refine ⟨⟨h.positive, ?_, ?_, h.apart, ?_, h.once, h.known, h.fresh⟩, ⟨rfl, rfl, rfl, ?_⟩⟩
    · intro j hj
      dsimp only
      rw [hdb hj]
      exact h.recorded j hj
    · intro n j hold
      dsimp only
      rw [hdb (.inr ⟨n, hold⟩)]
      exact h.held n j hold
    · intro j k hj hk a b ha hb heq
      dsimp only at ha hb
      rw [hdb hj] at ha
      rw [hdb hk] at hb
      exact h.distinct j k hj hk a b ha hb heq
    · exact fun n j hold => hdb (.inr ⟨n, hold⟩)

/-- An unused key is handed out for good. -/
theorem Pooled.handOut (h : s.Pooled env) {key : κ} (hunused : s.Unused key) (hkey : key ∈ s.keys) :
    Pooled env { s with handedOut := s.handedOut ++ [key] } := by
  refine ⟨h.positive, ?_, h.held, h.apart, h.distinct, ?_, ?_, h.fresh⟩
  · intro i hi
    obtain ⟨keypool, hrecord, hkeys, hout⟩ := h.recorded i hi
    refine ⟨keypool, hrecord, hkeys, ?_⟩
    rw [List.mem_append, List.mem_singleton, not_or]
    exact ⟨hout, hunused.stored i hi keypool hrecord⟩
  · rw [List.nodup_append]
    refine ⟨h.once, List.nodup_singleton _, ?_⟩
    intro a ha b hb heq
    rw [heq, List.mem_singleton.mp hb] at ha
    exact hunused.handedOut ha
  · intro a ha
    rcases List.mem_append.mp ha with ha | ha
    · exact h.known a ha
    · rw [List.mem_singleton.mp ha]
      exact hkey

theorem Pooled.keepLoose (h : s.Pooled env) (hloose : s.Loose i keypool) :
    Pooled env { s.KeepKey io i with handedOut := s.handedOut ++ [keypool.vchPubKey] } ∧
      ∀ n j, (s.KeepKey io i).Holds n j → s.Holds n j ∧ (s.KeepKey io i).db j = s.db j := by
  obtain ⟨hpooled, hframe⟩ := @Pooled.keep κ env io s i h hloose.free
  have hrest : (s.KeepKey io i).keys = s.keys ∧ (s.KeepKey io i).setKeyPool = s.setKeyPool := by
    rw [KeepKey, ErasePool]
    split
    next => exact ⟨rfl, rfl⟩
    next => exact ⟨rfl, rfl⟩
  have hunused : (s.KeepKey io i).Unused keypool.vchPubKey := by
    refine ⟨?_, by rw [hframe.handedOut]; exact hloose.unused.handedOut⟩
    intro j hj a ha
    have hj' : s.Live j := by
      rcases hj with hj | ⟨n, hold⟩
      · exact .inl (hrest.2 ▸ hj)
      · exact .inr ⟨n, hframe.holds.mp hold⟩
    refine hloose.unused.stored j hj' a (.trans ?_ ha)
    rw [KeepKey, ErasePool]
    split
    next => rfl
    next => exact (Function.update_of_ne (fun heq : j = i => hloose.free (heq ▸ hj')) _ _).symm
  have hlogged := hpooled.handOut hunused (by rw [hrest.1]; exact hloose.known)
  rw [hframe.handedOut] at hlogged
  refine ⟨hlogged, fun n j hold => ?_⟩
  have hold' := hframe.holds.mp hold
  exact ⟨hold', hframe.db n j hold'⟩

theorem Pooled.clearHold (h : s.Pooled env) (n : ℕ) {r : CReserveKey κ} (hr : r.nIndex = -1) :
    (s.setReserveKey n r).Pooled env ∧
      ∀ m j, (s.setReserveKey n r).Holds m j → s.Holds m j ∧ m ≠ n := by
  have hholds : ∀ m j, (s.setReserveKey n r).Holds m j → s.Holds m j ∧ m ≠ n := by
    intro m j hm
    have hmn : m ≠ n := by
      intro heq
      have hself : (s.setReserveKey n r).reserveKeys m = r := by
        rw [heq]
        exact Function.update_self _ _ _
      exact hm.2 (hm.1.symm.trans ((congrArg CReserveKey.nIndex hself).trans hr))
    have hsame : (s.setReserveKey n r).reserveKeys m = s.reserveKeys m :=
      Function.update_of_ne hmn _ _
    exact ⟨⟨hsame ▸ hm.1, hm.2⟩, hmn⟩
  refine ⟨(@Pooled.drop κ env s (s.setReserveKey n r) h ⟨rfl, rfl, rfl⟩ (fun _ hj => hj) ?_).1,
    hholds⟩
  exact fun m j hm => ⟨(hholds m j hm).1, Function.update_of_ne (hholds m j hm).2 _ _⟩

theorem Pooled.release (h : s.Pooled env) {n : ℕ} (hold : s.Holds n i) :
    ∃ keypool, (s.setReserveKey n .none).Pooled env ∧ (s.setReserveKey n .none).Loose i keypool ∧
      (s.reserveKeys n).vchPubKey = some keypool.vchPubKey := by
  have hlive : s.Live i := .inr ⟨n, hold⟩
  obtain ⟨keypool, hrecord, -, -⟩ := h.recorded i hlive
  obtain ⟨hset, hkey⟩ := h.held n i hold
  obtain ⟨hpooled, hholds⟩ := @Pooled.clearHold κ env s h n .none rfl
  have hsub : ∀ j, (s.setReserveKey n .none).Live j → s.Live j := by
    rintro j (hj | ⟨m, hm⟩)
    · exact .inl hj
    · exact .inr ⟨m, (hholds m j hm).1⟩
  have hfree : ¬ (s.setReserveKey n .none).Live i := by
    rintro (hi | ⟨m, hm⟩)
    · exact hset hi
    · exact (hholds m i hm).2 (h.apart m n i (hholds m i hm).1 hold)
  refine ⟨keypool, hpooled, h.loose hlive hfree hsub ⟨rfl, rfl, rfl⟩ hrecord, ?_⟩
  rw [← hkey, hrecord]
  rfl

/-- The oldest index is taken out of the set. -/
theorem Pooled.takeHead (h : s.Pooled env) (hi : i ∈ s.setKeyPool.keys) :
    ∃ keypool, s.db i = some keypool ∧ keypool.vchPubKey ∈ s.keys ∧
      Pooled env { s with setKeyPool := s.setKeyPool.erase i } ∧
      Loose { s with setKeyPool := s.setKeyPool.erase i } i keypool := by
  obtain ⟨keypool, hrecord, hkey, -⟩ := h.recorded i (.inl hi)
  obtain ⟨hpooled, hsub⟩ := @Pooled.drop κ env s { s with setKeyPool := s.setKeyPool.erase i } h
    ⟨rfl, rfl, rfl⟩ (fun j hj => (OrdMap.mem_keys_erase.mp hj).1) fun n j hold => ⟨hold, rfl⟩
  refine ⟨keypool, hrecord, hkey, hpooled, h.loose (.inl hi) ?_ hsub ⟨rfl, rfl, rfl⟩ hrecord⟩
  rintro (hj | ⟨n, hold⟩)
  · exact (OrdMap.mem_keys_erase.mp hj).2 rfl
  · exact (h.held n i hold).1 hi

end KeyPool

end Dions
