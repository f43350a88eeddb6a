import Dions.Model.KeyStore

/-! # Receiving while the wallet is locked

What a locked and an unlocked wallet make of the same transactions, described by the payments that
the wallet recognises. -/

namespace Dions

variable {ops : KeyOps}
variable {i : CKeyID} {w : CryptedKeys} {pair : CKeyID × CKeyID}
variable {j x : CPubKey}

/-! ## What is asked of the curve and the cipher -/

structure KeyLaws (ops : KeyOps) : Prop where
  decrypt_encrypt : ∀ m s iv, ops.DecryptSecret m (ops.EncryptSecret m s iv) iv = some s
  decrypt_empty : ∀ m iv, ops.DecryptSecret m [] iv = none
  /-- The public key of a payment is that of its secret key. -/
  outer_pubOf : ∀ t j s, s.length = 32 → ops.outer t j (ops.pubOf s) = ops.pubOf (ops.intern t j s)
  intern_size : ∀ t j s, s.length = 32 → (ops.intern t j s).length = 32

theorem findSome_congr {α β : Type} {f g : α → Option β} {xs : List α}
    (h : ∀ x ∈ xs, f x = g x) : xs.findSome? f = xs.findSome? g := by
  induction xs with
  | nil => rfl
  | cons x xs ih =>
      obtain ⟨hx, hxs⟩ := List.forall_mem_cons.mp h
      rw [List.findSome?_cons, List.findSome?_cons, hx, ih hxs]

namespace CryptedKeys

/-! ## Entries -/

/-- The entry decrypts to the secret of its key. -/
def Valid (ops : KeyOps) (m : List UInt8) (i : CKeyID) (entry : CPubKey × List UInt8) : Prop :=
  ∃ s, s.length = 32 ∧ entry = (ops.pubOf s, ops.EncryptSecret m s (ops.GetHash (ops.pubOf s))) ∧
    ops.GetID (ops.pubOf s) = i

/-- An encrypted wallet with no payment that waits for its secret. Metadata belongs to keys of the
store, and the path of a key that looks is the id of another one. -/
structure Encrypted (ops : KeyOps) (m : List UInt8) (w : CryptedKeys) : Prop where
  master : m ≠ []
  valid : ∀ i entry, w.mapCryptedKeys.find i = some entry → Valid ops m i entry
  settled : ∀ i, (w.keyData ops i).z = 0
  stored : ∀ i, w.mapCryptedKeys.find i = none → w.kd.find i = none
  paths : ∀ i, (w.rs_ ops i).ctrlExternalAngle = true → (w.rs_ ops i).streamID ≠ [] →
    (w.rs_ ops i).ctrlPath ≠ 0

def Spendable (ops : KeyOps) (w : CryptedKeys) (i : CKeyID) : Prop :=
  (w.GetSecret ops i).isSome = true

theorem Valid.secret {m : List UInt8} {entry : CPubKey × List UInt8} (laws : KeyLaws ops)
    (h : Valid ops m i entry) (hfind : w.mapCryptedKeys.find i = some entry) (hm : w.vMasterKey = m) :
    ∃ s, s.length = 32 ∧ w.GetSecret ops i = some s ∧ entry.1 = ops.pubOf s := by
  obtain ⟨s, hsize, rfl, -⟩ := h
  refine ⟨s, hsize, ?_, rfl⟩
  simp [GetSecret, hfind, hm, laws.decrypt_encrypt, hsize]

theorem secret_placeholder (laws : KeyLaws ops) (hfind : w.mapCryptedKeys.find i = some (x, [])) :
    w.GetSecret ops i = none := by
  simp [GetSecret, hfind, laws.decrypt_empty]

/-! ## The keys that are walked through -/

theorem kt_fold (ids : List CKeyID) (m : OrdMap CKeyID Unit) (k : CKeyID) :
    k ∈ (ids.foldl (fun m i => m.insert i ()) m).keys ↔ k ∈ ids ∨ k ∈ m.keys := by
  induction ids generalizing m with
  | nil => simp
  | cons i ids ih =>
      rw [List.foldl_cons, ih, OrdMap.mem_keys_insert, List.mem_cons]
      tauto

theorem mem_kt (hstored : ∀ k, w.mapCryptedKeys.find k = none → w.kd.find k = none) :
    i ∈ w.kt ops ↔ i ∈ w.mapCryptedKeys.keys := by
  rw [kt, kt_fold, List.mem_append, List.mem_filter]
  constructor
  · rintro ((⟨hkd, -⟩ | hkey) | hempty)
    · rw [OrdMap.mem_keys] at hkd ⊢
      by_contra hnone
      rw [Bool.not_eq_true, Option.isSome_eq_false_iff, Option.isNone_iff_eq_none] at hnone
      rw [hstored i hnone] at hkd
      cases hkd
    · exact hkey
    · cases hempty
  · intro hkey
    exact .inl (.inr hkey)

theorem kt_eq (hstored : ∀ k, w.mapCryptedKeys.find k = none → w.kd.find k = none) :
    w.kt ops = w.mapCryptedKeys.keys := by
  apply OrdMap.eq_of_mem_keys_iff (OrdMap.ordered _) w.mapCryptedKeys.ordered
  intro i
  exact mem_kt hstored

/-! ## A wallet with more keys -/

/-- The wallet has been given some keys, whose metadata is that of a new key but for what is needed
to derive their secrets. -/
structure Extends (ops : KeyOps) (w w' : CryptedKeys) (added : List CKeyID) : Prop where
  old : ∀ i, i ∉ added → w'.mapCryptedKeys.find i = w.mapCryptedKeys.find i ∧
    w'.kd.find i = w.kd.find i
  new : ∀ i ∈ added, w.mapCryptedKeys.find i = none ∧ (w'.mapCryptedKeys.find i).isSome = true ∧
    w'.rs_ ops i = ⟨ops.l7_ i, 0, []⟩

theorem Extends.refl (w : CryptedKeys) : Extends ops w w [] :=
  ⟨fun _ _ => ⟨rfl, rfl⟩, fun _ hi => absurd hi List.not_mem_nil⟩

variable {m : List UInt8} {w w' : CryptedKeys} {added : List CKeyID}

theorem Extends.keyData (h : Extends ops w w' added) {i : CKeyID} (hi : i ∉ added) :
    w'.keyData ops i = w.keyData ops i := by
  rw [CryptedKeys.keyData, CryptedKeys.keyData, (h.old i hi).2]

theorem Extends.rs_ (h : Extends ops w w' added) {i : CKeyID} (hi : i ∉ added) :
    w'.rs_ ops i = w.rs_ ops i := by
  rw [CryptedKeys.rs_, CryptedKeys.rs_, h.keyData hi]

theorem Extends.stored (h : Extends ops w w' added) (henc : Encrypted ops m w) (i : CKeyID)
    (hnone : w'.mapCryptedKeys.find i = none) : w'.kd.find i = none := by
  by_cases hi : i ∈ added
  · have hsome := (h.new i hi).2.1
    rw [hnone] at hsome
    cases hsome
  · rw [(h.old i hi).2]
    apply henc.stored
    rw [← (h.old i hi).1]
    exact hnone

theorem Extends.mem_keys (h : Extends ops w w' added) {i : CKeyID} :
    i ∈ w'.mapCryptedKeys.keys ↔ i ∈ added ∨ i ∈ w.mapCryptedKeys.keys := by
  rw [OrdMap.mem_keys, OrdMap.mem_keys]
  by_cases hi : i ∈ added
  · simp [hi, (h.new i hi).2.1]
  · simp [hi, (h.old i hi).1]

/-- A walk that skips the new keys is the walk through the old ones. -/
theorem Extends.filter_kt (h : Extends ops w w' added) (henc : Encrypted ops m w)
    {p p' : CKeyID → Bool} (hold : ∀ i, i ∉ added → p' i = p i)
    (hnew : ∀ i ∈ added, p' i = false) :
    (w'.kt ops).filter p' = (w.kt ops).filter p := by
  rw [kt_eq (h.stored henc), kt_eq henc.stored]
  apply OrdMap.eq_of_mem_keys_iff (w'.mapCryptedKeys.ordered.filter p')
    (w.mapCryptedKeys.ordered.filter p)
  intro i
  change i ∈ w'.mapCryptedKeys.keys.filter p' ↔ i ∈ w.mapCryptedKeys.keys.filter p
  rw [List.mem_filter, List.mem_filter, h.mem_keys]
  by_cases hi : i ∈ added
  · have hout : i ∉ w.mapCryptedKeys.keys := by
      rw [OrdMap.mem_keys, (h.new i hi).1]
      simp
    simp [hnew i hi, hout]
  · simp [hi, hold i hi]

/-! ## The pairs that can recognise -/

/-- A key that looks and can look. -/
def looks (ops : KeyOps) (w : CryptedKeys) (ck : CKeyID) : Bool :=
  (w.rs_ ops ck).ctrlExternalAngle && !(w.rs_ ops ck).streamID.isEmpty

def spends (ops : KeyOps) (w : CryptedKeys) (path : uint160) (ck : CKeyID) : Bool :=
  (w.rs_ ops ck).ctrlExternalDtx && (w.rs_ ops ck).ctrlPath == path

def watchedPairs (ops : KeyOps) (w : CryptedKeys) : List (CKeyID × CKeyID) :=
  ((w.kt ops).filter (w.looks ops)).flatMap fun ck =>
    ((w.kt ops).filter (w.spends ops (w.rs_ ops ck).ctrlPath)).map fun ck_ => (ck, ck_)

/-- Pairs that cannot look are passed over. -/
theorem findSome_stealthPairs {α : Type} (w : CryptedKeys) (f : CKeyID × CKeyID → Option α)
    (hf : ∀ pair, (w.rs_ ops pair.1).streamID = [] → f pair = none) :
    (w.stealthPairs ops).findSome? f = (w.watchedPairs ops).findSome? f := by
  unfold stealthPairs watchedPairs
  generalize (w.kt ops) = inner
  have houter : ∀ outer : List CKeyID,
      (outer.flatMap fun ck =>
        if (w.rs_ ops ck).ctrlExternalAngle then
          (inner.filter fun ck_ => (w.rs_ ops ck_).ctrlExternalDtx &&
            (w.rs_ ops ck_).ctrlPath == (w.rs_ ops ck).ctrlPath).map fun ck_ => (ck, ck_)
        else []).findSome? f =
      ((outer.filter (w.looks ops)).flatMap fun ck =>
        (inner.filter (w.spends ops (w.rs_ ops ck).ctrlPath)).map fun ck_ =>
          (ck, ck_)).findSome? f := by
    intro outer
    induction outer with
    | nil => rfl
    | cons ck outer ih =>
        rw [List.flatMap_cons, List.findSome?_append, ih, List.filter_cons]
        cases hangle : (w.rs_ ops ck).ctrlExternalAngle with
        | false => simp [looks, hangle]
        | true =>
            by_cases hstream : (w.rs_ ops ck).streamID = []
            · have hnone : List.findSome? f ((inner.filter fun ck_ =>
                  (w.rs_ ops ck_).ctrlExternalDtx &&
                    (w.rs_ ops ck_).ctrlPath == (w.rs_ ops ck).ctrlPath).map
                      fun ck_ => (ck, ck_)) = none := by
                rw [List.findSome?_eq_none_iff]
                intro pair hpair
                obtain ⟨ck_, -, rfl⟩ := List.mem_map.mp hpair
                exact hf _ hstream
              simp [looks, hangle, hstream, hnone]
            · simp only [looks, hangle, Bool.true_and, List.isEmpty_eq_false_iff.mpr hstream,
                Bool.not_false, ↓reduceIte, List.flatMap_cons, List.findSome?_append]
              rfl
  exact houter inner

theorem Extends.watchedPairs (h : Extends ops w w' added) (henc : Encrypted ops m w) :
    w'.watchedPairs ops = w.watchedPairs ops := by
  have hlooks : (w'.kt ops).filter (w'.looks ops) = (w.kt ops).filter (w.looks ops) := by
    apply h.filter_kt henc
    · intro i hi
      rw [looks, looks, h.rs_ hi]
    · intro i hi
      rw [looks, (h.new i hi).2.2]
      simp [RayShade.streamID]
  unfold CryptedKeys.watchedPairs
  rw [hlooks]
  apply List.flatMap_congr
  intro ck hck
  rw [List.mem_filter, looks, Bool.and_eq_true, Bool.not_eq_true', List.isEmpty_eq_false_iff,
    mem_kt henc.stored] at hck
  have hpath := henc.paths ck hck.2.1 hck.2.2
  have hin : ck ∉ added := by
    intro hadded
    have hkey := hck.1
    rw [OrdMap.mem_keys, (h.new ck hadded).1] at hkey
    cases hkey
  rw [h.rs_ hin]
  congr 1
  apply h.filter_kt henc
  · intro i hi
    rw [spends, spends, h.rs_ hi]
  · intro i hi
    rw [spends, (h.new i hi).2.2]
    change (_ && (0 == (w.rs_ ops ck).ctrlPath)) = false
    rw [beq_eq_false_iff_ne.mpr (Ne.symm hpath), Bool.and_false]

theorem mem_watchedPairs (henc : Encrypted ops m w) (h : pair ∈ w.watchedPairs ops) :
    pair.1 ∈ w.mapCryptedKeys.keys ∧ pair.2 ∈ w.mapCryptedKeys.keys := by
  obtain ⟨ck, hck, hpair⟩ := List.mem_flatMap.mp h
  obtain ⟨ck_, hck_, rfl⟩ := List.mem_map.mp hpair
  exact ⟨(mem_kt henc.stored).mp (List.mem_filter.mp hck).1,
    (mem_kt henc.stored).mp (List.mem_filter.mp hck_).1⟩

/-! ## Payments -/

/-- A payment that a locked wallet recognises: its key, what the transaction announces, and the path
of the pair. -/
structure Payment where
  id : CKeyID
  e : CPubKey
  path : uint160
  deriving DecidableEq, Repr

/-- The path of the first pair that recognises the key. -/
def recognises (ops : KeyOps) (w : CryptedKeys) (i : CKeyID) (j : CPubKey) : Option uint160 :=
  (w.watchedPairs ops).findSome? fun pair => (w.matchLocked ops i j pair).map Prod.snd

/-- The first output that pays a key which is not known and is recognised. -/
def firstPayment (ops : KeyOps) (w : CryptedKeys) (known : CKeyID → Bool) (e : CPubKey) :
    List CTxOut → Option Payment
  | [] => none
  | txout :: vout =>
    match ops.Solver txout.scriptPubKey with
    | .pubKeyHash p =>
      if known p then firstPayment ops w known e vout
      else
        match w.recognises ops p e with
        | none => firstPayment ops w known e vout
        | some path => some ⟨p, e, path⟩
    | _ => firstPayment ops w known e vout

def paymentIn (ops : KeyOps) (w : CryptedKeys) (known : CKeyID → Bool) (vout : List CTxOut) :
    Option Payment :=
  match ephemeral ops vout with
  | none => none
  | some e => firstPayment ops w known e vout

/-- The payments of transactions that arrive one after the other. -/
def payments (ops : KeyOps) (w : CryptedKeys) :
    (known : CKeyID → Bool) → List (List CTxOut) → List Payment
  | _, [] => []
  | known, vout :: txs =>
    match w.paymentIn ops known vout with
    | none => payments ops w known txs
    | some p => p :: payments ops w (fun i => known i || i == p.id) txs

/-! ## Recognising in a wallet with more keys -/

theorem Extends.matchLocked (h : Extends ops w w' added) (henc : Encrypted ops m w) {i : CKeyID}
    {j : CPubKey} {pair : CKeyID × CKeyID} (hpair : pair ∈ w.watchedPairs ops) :
    w'.matchLocked ops i j pair = w.matchLocked ops i j pair := by
  obtain ⟨hv, hs⟩ := mem_watchedPairs henc hpair
  have hout : ∀ k ∈ w.mapCryptedKeys.keys, k ∉ added := by
    intro k hk hadded
    rw [OrdMap.mem_keys, (h.new k hadded).1] at hk
    cases hk
  have hpub : w'.GetPubKey pair.2 = w.GetPubKey pair.2 := by
    rw [GetPubKey, GetPubKey, (h.old _ (hout _ hs)).1]
  rw [CryptedKeys.matchLocked, CryptedKeys.matchLocked, hpub, h.rs_ (hout _ hv),
    h.rs_ (hout _ hs)]

theorem matchLocked_stream (h : (w.rs_ ops pair.1).streamID = []) :
    w.matchLocked ops i j pair = none := by
  simp [matchLocked, h]

theorem matchUnlocked_stream (h : (w.rs_ ops pair.1).streamID = []) :
    w.matchUnlocked ops i j pair = none := by
  unfold matchUnlocked
  cases w.GetSecret ops pair.2 with
  | none => rfl
  | some s => simp [h]

theorem matchLocked_id {path : uint160} (h : w.matchLocked ops i j pair = some (x, path)) :
    ops.GetID x = i := by
  unfold matchLocked at h
  simp only at h
  split at h
  · cases h
  · split at h
    next hid =>
      cases h
      exact hid
    next => cases h

/-- A locked wallet recognises what the original one does. -/
theorem Extends.locked (h : Extends ops w w' added) (henc : Encrypted ops m w) (i : CKeyID)
    (j : CPubKey) :
    ((w'.stealthPairs ops).findSome? (w'.matchLocked ops i j)).map Prod.snd =
      w.recognises ops i j := by
  rw [findSome_stealthPairs w' _ fun pair => matchLocked_stream, h.watchedPairs henc, recognises,
    List.map_findSome?]
  apply findSome_congr
  intro pair hpair
  simp only [Function.comp_apply, h.matchLocked henc hpair]

/-- What an unlocked wallet finds from a pair is the secret of what a locked one finds. -/
theorem Extends.matchUnlocked (laws : KeyLaws ops) (h : Extends ops w w' added)
    (henc : Encrypted ops m w) (hm : w'.vMasterKey = m) {i : CKeyID} {j : CPubKey}
    {pair : CKeyID × CKeyID} (hpair : pair ∈ w.watchedPairs ops) :
    (w'.matchUnlocked ops i j pair).map ops.pubOf =
      (w.matchLocked ops i j pair).map Prod.fst ∧
    ∀ ks_x, w'.matchUnlocked ops i j pair = some ks_x →
      ks_x.length = 32 ∧ ops.GetID (ops.pubOf ks_x) = i := by
  obtain ⟨hv, hs⟩ := mem_watchedPairs henc hpair
  have hout : ∀ k ∈ w.mapCryptedKeys.keys, k ∉ added := by
    intro k hk hadded
    rw [OrdMap.mem_keys, (h.new k hadded).1] at hk
    cases hk
  rw [OrdMap.mem_keys] at hs
  obtain ⟨entry, hentry⟩ := Option.isSome_iff_exists.mp hs
  have hentry' : w'.mapCryptedKeys.find pair.2 = some entry := by
    rw [(h.old _ (hout _ (OrdMap.mem_keys.mpr hs))).1, hentry]
  obtain ⟨s, hsize, hsecret, hpub⟩ := (henc.valid _ _ hentry).secret laws hentry' hm
  have hpub' : w.GetPubKey pair.2 = ops.pubOf s := by
    rw [GetPubKey, hentry, Option.map_some, Option.getD_some, hpub]
  have hrs := h.rs_ (hout _ hv)
  unfold CryptedKeys.matchUnlocked CryptedKeys.matchLocked
  rw [hsecret, hpub', hrs]
  simp only
  split
  next => exact ⟨rfl, fun _ hnone => by cases hnone⟩
  next =>
    rw [laws.outer_pubOf _ _ _ hsize]
    split
    next hid =>
      refine ⟨rfl, ?_⟩
      intro ks_x hks
      cases hks
      exact ⟨laws.intern_size _ _ _ hsize, hid⟩
    next => exact ⟨rfl, fun _ hnone => by cases hnone⟩

/-! ## One payment -/

/-- The path that is kept of a payment: writing the placeholder to disk forgets one of them. -/
def keptPath (path : uint160) : uint160 := if path = FORM then 0 else path

/-- A key with its metadata goes into the store. -/
theorem setKeyData_sync (ops : KeyOps) (w' : CryptedKeys) (x : CPubKey) (c : List UInt8) (data : CKeyMetadata) :
    ((w'.setKeyData (ops.GetID x) data).sync ops x c).vMasterKey = w'.vMasterKey ∧
      (∀ k, ((w'.setKeyData (ops.GetID x) data).sync ops x c).mapCryptedKeys.find k =
        if k = ops.GetID x then some (x, c) else w'.mapCryptedKeys.find k) ∧
      ∀ k, ((w'.setKeyData (ops.GetID x) data).sync ops x c).kd.find k =
        if k = ops.GetID x then some { data with z := keptPath data.z } else w'.kd.find k := by
  have hdata : keyData ops { w'.setKeyData (ops.GetID x) data with
      mapCryptedKeys := (w'.setKeyData (ops.GetID x) data).mapCryptedKeys.insert (ops.GetID x)
        (x, c) } (ops.GetID x) = data := by
    simp [keyData, setKeyData, OrdMap.find_insert]
  unfold sync
  simp only [hdata, keptPath]
  refine ⟨?_, ?_, ?_⟩
  · split <;> rfl
  · intro k
    rw [← OrdMap.find_insert]
    split <;> rfl
  · intro k
    split
    · simp only [setKeyData, OrdMap.find_insert]
      split <;> rfl
    · simp only [setKeyData, OrdMap.find_insert]

theorem setKeyData_sync_data (ops : KeyOps) (w' : CryptedKeys) (x : CPubKey) (c : List UInt8)
    (data : CKeyMetadata) (k : CKeyID) :
    ((w'.setKeyData (ops.GetID x) data).sync ops x c).keyData ops k =
      if k = ops.GetID x then { data with z := keptPath data.z } else w'.keyData ops k := by
  rw [keyData, (setKeyData_sync ops w' x c data).2.2]
  split <;> rfl

theorem Extends.sync {data : CKeyMetadata} (h : Extends ops w w' added) (c : List UInt8)
    (hnone : w'.mapCryptedKeys.find (ops.GetID x) = none)
    (hrs : data.rs_ = ⟨ops.l7_ (ops.GetID x), 0, []⟩) :
    Extends ops w ((w'.setKeyData (ops.GetID x) data).sync ops x c) (ops.GetID x :: added) := by
  obtain ⟨-, hfind, hkd⟩ := setKeyData_sync ops w' x c data
  have hout : ops.GetID x ∉ added := by
    intro hadded
    have hsome := (h.new _ hadded).2.1
    rw [hnone] at hsome
    cases hsome
  refine ⟨?_, ?_⟩
  · intro k hk
    rw [List.mem_cons, not_or] at hk
    rw [hfind, hkd, if_neg hk.1, if_neg hk.1]
    exact h.old k hk.2
  · intro k hk
    rw [hfind, CryptedKeys.rs_, setKeyData_sync_data]
    by_cases heq : k = ops.GetID x
    · subst heq
      simp only [↓reduceIte, Option.isSome_some]
      exact ⟨by rw [← (h.old _ hout).1, hnone], trivial, hrs⟩
    · rw [if_neg heq, if_neg heq]
      exact h.new k ((List.mem_cons.mp hk).resolve_left heq)

theorem Extends.resync {data : CKeyMetadata} (h : Extends ops w w' added) (c : List UInt8)
    (hadded : ops.GetID x ∈ added) (hrs : data.rs_ = ⟨ops.l7_ (ops.GetID x), 0, []⟩) :
    Extends ops w ((w'.setKeyData (ops.GetID x) data).sync ops x c) added := by
  obtain ⟨-, hfind, hkd⟩ := setKeyData_sync ops w' x c data
  refine ⟨?_, ?_⟩
  · intro k hk
    have hne : k ≠ ops.GetID x := by
      rintro rfl
      exact hk hadded
    rw [hfind, hkd, if_neg hne, if_neg hne]
    exact h.old k hk
  · intro k hk
    rw [hfind, CryptedKeys.rs_, setKeyData_sync_data]
    by_cases heq : k = ops.GetID x
    · subst heq
      simp only [↓reduceIte, Option.isSome_some]
      exact ⟨(h.new _ hadded).1, trivial, hrs⟩
    · rw [if_neg heq, if_neg heq]
      exact h.new k hk

theorem intersect_locked (nTime : ℤ) {i : CKeyID} {j : CPubKey} {path : uint160}
    (h : Extends ops w w' added) (henc : Encrypted ops m w) (hm : w'.vMasterKey = [])
    (hnone : w'.mapCryptedKeys.find i = none) (hpays : w.recognises ops i j = some path) :
    ∃ x w₁, w'.intersect ops nTime i j = (true, w₁) ∧ Extends ops w w₁ (i :: added) ∧
      w₁.vMasterKey = [] ∧
      (∀ k, w₁.mapCryptedKeys.find k = if k = i then some (x, []) else w'.mapCryptedKeys.find k) ∧
      ∀ k, w₁.keyData ops k =
        if k = i then ⟨0, keptPath path, j, ⟨ops.l7_ i, 0, []⟩⟩ else w'.keyData ops k := by
  have hfound := h.locked henc i j
  rw [hpays, Option.map_eq_some_iff] at hfound
  obtain ⟨⟨x, path'⟩, hfound, hsnd⟩ := hfound
  simp only at hsnd
  subst hsnd
  obtain ⟨pair, -, hpair⟩ := List.exists_of_findSome?_eq_some hfound
  have hid := matchLocked_id hpair
  have hfresh : w'.keyData ops i = .created 0 (ops.l7_ i) := by
    rw [keyData, h.stored henc i hnone, Option.getD_none]
  have has : w'.as = true := by
    rw [as, hm]
    rfl
  subst hid
  obtain ⟨hmaster, hfind, -⟩ := setKeyData_sync ops w' x []
    { w'.keyData ops (ops.GetID x) with k := j, z := path' }
  refine ⟨x, _, ?_, h.sync [] hnone (by rw [hfresh]; rfl), hmaster.trans hm, hfind, ?_⟩
  · unfold intersect
    rw [if_pos has, hfound]
  · intro k
    rw [setKeyData_sync_data, hfresh]
    rfl

theorem intersect_locked_none {nTime : ℤ} (h : Extends ops w w' added) (henc : Encrypted ops m w)
    (hm : w'.vMasterKey = []) (hpays : w.recognises ops i j = none) :
    w'.intersect ops nTime i j = (false, w') := by
  have hfound := h.locked henc i j
  rw [hpays, Option.map_eq_none_iff] at hfound
  have has : w'.as = true := by
    rw [as, hm]
    rfl
  unfold intersect
  rw [if_pos has, hfound]

theorem Extends.unlocked (laws : KeyLaws ops) (h : Extends ops w w' added)
    (henc : Encrypted ops m w) (hm : w'.vMasterKey = m) (i : CKeyID) (j : CPubKey) :
    ((w'.stealthPairs ops).findSome? (w'.matchUnlocked ops i j)).isSome =
        (w.recognises ops i j).isSome ∧
      ∀ ks_x, (w'.stealthPairs ops).findSome? (w'.matchUnlocked ops i j) = some ks_x →
        ks_x.length = 32 ∧ ops.GetID (ops.pubOf ks_x) = i := by
  rw [findSome_stealthPairs w' _ fun pair => matchUnlocked_stream, h.watchedPairs henc]
  refine ⟨?_, ?_⟩
  · rw [recognises, Bool.eq_iff_iff, List.findSome?_isSome_iff, List.findSome?_isSome_iff]
    refine exists_congr fun pair => and_congr_right fun hpair => ?_
    have hboth := (h.matchUnlocked laws henc hm (i := i) (j := j) hpair).1
    have hsome := congrArg Option.isSome hboth
    rw [Option.isSome_map, Option.isSome_map] at hsome
    rw [Option.isSome_map, hsome]
  · intro ks_x hks
    obtain ⟨pair, hpair, hmatch⟩ := List.exists_of_findSome?_eq_some hks
    exact (h.matchUnlocked laws henc hm hpair).2 ks_x hmatch

theorem intersect_unlocked (laws : KeyLaws ops) (nTime : ℤ) {i : CKeyID} {j : CPubKey}
    {path : uint160} (h : Extends ops w w' added) (henc : Encrypted ops m w)
    (hm : w'.vMasterKey = m) (hnone : w'.mapCryptedKeys.find i = none)
    (hpays : w.recognises ops i j = some path) :
    ∃ entry w₁, w'.intersect ops nTime i j = (true, w₁) ∧ Extends ops w w₁ (i :: added) ∧
      w₁.vMasterKey = m ∧ Valid ops m i entry ∧
      ∀ k, w₁.mapCryptedKeys.find k = if k = i then some entry else w'.mapCryptedKeys.find k := by
  obtain ⟨hsome, hvalid⟩ := h.unlocked laws henc hm i j
  rw [hpays, Option.isSome_some] at hsome
  obtain ⟨ks_x, hks⟩ := Option.isSome_iff_exists.mp hsome
  obtain ⟨hsize, hid⟩ := hvalid ks_x hks
  have has : w'.as = false := by
    rw [as, hm]
    exact List.isEmpty_eq_false_iff.mpr henc.master
  subst hid
  obtain ⟨hmaster, hfind, -⟩ := setKeyData_sync ops w' (ops.pubOf ks_x)
    (ops.EncryptSecret m ks_x (ops.GetHash (ops.pubOf ks_x)))
    (.created nTime (ops.l7_ (ops.GetID (ops.pubOf ks_x))))
  refine ⟨_, _, ?_, h.sync _ hnone rfl, hmaster.trans hm, ⟨ks_x, hsize, rfl, rfl⟩, hfind⟩
  unfold intersect
  rw [if_neg (by rw [has]; decide), hks]
  simp only [ak]
  rw [← hm]
  rfl

theorem intersect_unlocked_none (laws : KeyLaws ops) {nTime : ℤ} {i : CKeyID} {j : CPubKey}
    (h : Extends ops w w' added) (henc : Encrypted ops m w) (hm : w'.vMasterKey = m)
    (hpays : w.recognises ops i j = none) : w'.intersect ops nTime i j = (false, w') := by
  have hsome := (h.unlocked laws henc hm i j).1
  rw [hpays, Option.isSome_none, Option.isSome_eq_false_iff, Option.isNone_iff_eq_none] at hsome
  have has : w'.as = false := by
    rw [as, hm]
    exact List.isEmpty_eq_false_iff.mpr henc.master
  unfold intersect
  rw [if_neg (by rw [has]; decide), hsome]

end CryptedKeys

end Dions
