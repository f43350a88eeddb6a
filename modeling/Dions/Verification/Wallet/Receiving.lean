import Dions.Verification.Wallet.Stealth

/-! # Receiving and unlocking

A wallet that receives while it is locked and is unlocked afterwards has the keys of one that was
unlocked all along exactly when no placeholder comes first among its keys, and every payment can be
derived from the first keys with its path. -/

namespace Dions

variable {known : CKeyID → Bool}
variable {p : Payment} {nTime : ℤ} {i : CKeyID}

namespace CryptedKeys

variable {ops : KeyOps} {m : List UInt8} {w w' : CryptedKeys} {added : List CKeyID}

/-! ## One transaction -/

theorem firstPayment_spec {e : CPubKey} {vout : List CTxOut}
    (h : w.firstPayment ops known e vout = some p) :
    known p.id = false ∧ w.recognises ops p.id e = some p.path ∧ p.e = e := by
  induction vout with
  | nil => cases h
  | cons txout vout ih =>
      unfold firstPayment at h
      split at h
      next hash _ =>
        split at h
        next => exact ih h
        next hknown =>
          split at h
          next => exact ih h
          next path hpath =>
            cases h
            exact ⟨Bool.eq_false_iff.mpr hknown, hpath, rfl⟩
      next => exact ih h

theorem searchOutputs_eq {e : CPubKey} (vout : List CTxOut)
    (hfound : ∀ i path, w'.HaveKey i = false → w.recognises ops i e = some path →
      (w'.intersect ops nTime i e).1 = true)
    (hmissed : ∀ i, w.recognises ops i e = none → w'.intersect ops nTime i e = (false, w')) :
    searchOutputs ops nTime e vout w' =
      match w.firstPayment ops w'.HaveKey e vout with
      | none => (false, w')
      | some p => w'.intersect ops nTime p.id e := by
  induction vout with
  | nil => rfl
  | cons txout vout ih =>
      unfold searchOutputs firstPayment
      cases ops.Solver txout.scriptPubKey with
      | nullData vch => exact ih
      | other => exact ih
      | pubKeyHash hash =>
          simp only
          cases hhave : w'.HaveKey hash with
          | true =>
              simp only [↓reduceIte]
              exact ih
          | false =>
              simp only [Bool.false_eq_true, ↓reduceIte]
              cases hpath : w.recognises ops hash e with
              | none =>
                  rw [hmissed hash hpath]
                  simp only [Bool.false_eq_true, ↓reduceIte]
                  exact ih
              | some path =>
                  have hone := hfound hash path hhave hpath
                  simp only [hone, ↓reduceIte]
                  rw [← hone]

theorem xfa_eq (vout : List CTxOut)
    (hfound : ∀ i e path, w'.HaveKey i = false → w.recognises ops i e = some path →
      (w'.intersect ops nTime i e).1 = true)
    (hmissed : ∀ i e, w.recognises ops i e = none → w'.intersect ops nTime i e = (false, w')) :
    w'.xfa ops nTime vout =
      match w.paymentIn ops w'.HaveKey vout with
      | none => (false, w')
      | some p => w'.intersect ops nTime p.id p.e := by
  unfold xfa paymentIn
  cases ephemeral ops vout with
  | none => rfl
  | some e =>
      simp only
      rw [searchOutputs_eq vout (fun i path => hfound i e path) (fun i => hmissed i e)]
      cases hfirst : w.firstPayment ops w'.HaveKey e vout with
      | none => rfl
      | some p =>
          simp only
          rw [(firstPayment_spec hfirst).2.2]

theorem paymentIn_spec {vout : List CTxOut} (h : w.paymentIn ops known vout = some p) :
    known p.id = false ∧ w.recognises ops p.id p.e = some p.path := by
  unfold paymentIn at h
  split at h
  · cases h
  next e _ =>
    obtain ⟨hknown, hpath, he⟩ := firstPayment_spec h
    exact ⟨hknown, by rw [he]; exact hpath⟩

theorem haveKey_eq_false : w'.HaveKey i = false ↔ w'.mapCryptedKeys.find i = none := by
  rw [HaveKey, Option.isSome_eq_false_iff, Option.isNone_iff_eq_none]

/-! ## Runs -/

/-- The transactions arrive one after the other, each at its time. -/
def received (ops : KeyOps) (txs : List (ℤ × List CTxOut)) (w : CryptedKeys) : CryptedKeys :=
  txs.foldl (fun w tx => (w.xfa ops tx.1 tx.2).2) w

/-- A wallet that has recognised the payments while it was locked. -/
structure LockedAfter (ops : KeyOps) (w : CryptedKeys) (ps : List Payment) (w' : CryptedKeys) :
    Prop where
  ext : Extends ops w w' (ps.map Payment.id)
  master : w'.vMasterKey = []
  entries : ∀ p ∈ ps, ∃ x, w'.mapCryptedKeys.find p.id = some (x, [])
  data : ∀ p ∈ ps, w'.keyData ops p.id = ⟨0, keptPath p.path, p.e, ⟨ops.l7_ p.id, 0, []⟩⟩

/-- A wallet that has recognised the payments while it was unlocked. -/
structure UnlockedAfter (ops : KeyOps) (m : List UInt8) (w : CryptedKeys) (ps : List Payment)
    (w' : CryptedKeys) : Prop where
  ext : Extends ops w w' (ps.map Payment.id)
  master : w'.vMasterKey = m
  entries : ∀ p ∈ ps, ∃ entry, w'.mapCryptedKeys.find p.id = some entry ∧ Valid ops m p.id entry

variable {ps : List Payment}

theorem Extends.reverse {w : CryptedKeys} {added added' : List CKeyID}
    (h : Extends ops w w' added) (hmem : ∀ i, i ∈ added ↔ i ∈ added') :
    Extends ops w w' added' :=
  ⟨fun i hi => h.old i (fun hin => hi ((hmem i).mp hin)),
    fun i hi => h.new i ((hmem i).mpr hi)⟩

/-- The keys that a wallet has after a payment. -/
theorem haveKey_insert {entry : CPubKey × List UInt8} {w₁ : CryptedKeys}
    (hknown : w'.HaveKey = known) (hfind : ∀ k, w₁.mapCryptedKeys.find k =
      if k = i then some entry else w'.mapCryptedKeys.find k) :
    w₁.HaveKey = fun k => known k || k == i := by
  funext k
  rw [HaveKey, hfind]
  by_cases hk : k = i
  · simp [hk]
  · have hsame := congrFun hknown k
    rw [HaveKey] at hsame
    simp [hk, hsame]

theorem mem_ids_append : i ∈ p.id :: ps.map Payment.id ↔ i ∈ (ps ++ [p]).map Payment.id := by
  simp [or_comm]

theorem received_locked (henc : Encrypted ops m w) (txs : List (ℤ × List CTxOut))
    {known : CKeyID → Bool} (h : LockedAfter ops w ps w') (hknown : w'.HaveKey = known) :
    LockedAfter ops w (ps ++ w.payments ops known (txs.map Prod.snd)) (received ops txs w') := by
  induction txs generalizing ps w' known with
  | nil =>
      rw [List.map_nil, payments, List.append_nil]
      exact h
  | cons tx txs ih =>
      have hone : w'.xfa ops tx.1 tx.2 =
          match w.paymentIn ops w'.HaveKey tx.2 with
          | none => (false, w')
          | some p => w'.intersect ops tx.1 p.id p.e := by
        apply xfa_eq
        · intro i e path hhave hpath
          obtain ⟨x, w₁, hrun, -⟩ := intersect_locked tx.1 h.ext henc h.master
            (haveKey_eq_false.mp hhave) hpath
          rw [hrun]
        · intro i e hpath
          exact intersect_locked_none h.ext henc h.master hpath
      rw [received, List.foldl_cons, hone, List.map_cons, payments, hknown]
      cases hpay : w.paymentIn ops known tx.2 with
      | none => exact ih h hknown
      | some p =>
          obtain ⟨hnew, hpath⟩ := paymentIn_spec hpay
          rw [← hknown] at hnew
          have hnone := haveKey_eq_false.mp hnew
          obtain ⟨x, w₁, hrun, hext, hmaster, hfind, hdata⟩ :=
            intersect_locked tx.1 h.ext henc h.master hnone hpath
          have hother : ∀ q ∈ ps, q.id ≠ p.id := by
            intro q hq heq
            obtain ⟨x', hx'⟩ := h.entries q hq
            rw [heq, hnone] at hx'
            cases hx'
          have hnext : LockedAfter ops w (ps ++ [p]) w₁ := by
            refine ⟨hext.reverse fun i => mem_ids_append, hmaster, ?_, ?_⟩
            · intro q hq
              rw [hfind]
              rcases List.mem_append.mp hq with hq | hq
              · rw [if_neg (hother q hq)]
                exact h.entries q hq
              · rw [List.mem_singleton.mp hq, if_pos rfl]
                exact ⟨x, rfl⟩
            · intro q hq
              rw [hdata]
              rcases List.mem_append.mp hq with hq | hq
              · rw [if_neg (hother q hq)]
                exact h.data q hq
              · rw [List.mem_singleton.mp hq, if_pos rfl]
          have hrest := ih hnext (haveKey_insert hknown hfind)
          simp only [hrun]
          rw [List.append_assoc] at hrest
          exact hrest

theorem received_unlocked (laws : KeyLaws ops) (henc : Encrypted ops m w)
    (txs : List (ℤ × List CTxOut)) {known : CKeyID → Bool} (h : UnlockedAfter ops m w ps w')
    (hknown : w'.HaveKey = known) :
    UnlockedAfter ops m w (ps ++ w.payments ops known (txs.map Prod.snd))
      (received ops txs w') := by
  induction txs generalizing ps w' known with
  | nil =>
      rw [List.map_nil, payments, List.append_nil]
      exact h
  | cons tx txs ih =>
      have hone : w'.xfa ops tx.1 tx.2 =
          match w.paymentIn ops w'.HaveKey tx.2 with
          | none => (false, w')
          | some p => w'.intersect ops tx.1 p.id p.e := by
        apply xfa_eq
        · intro i e path hhave hpath
          obtain ⟨x, w₁, hrun, -⟩ := intersect_unlocked laws tx.1 h.ext henc h.master
            (haveKey_eq_false.mp hhave) hpath
          rw [hrun]
        · intro i e hpath
          exact intersect_unlocked_none laws h.ext henc h.master hpath
      rw [received, List.foldl_cons, hone, List.map_cons, payments, hknown]
      cases hpay : w.paymentIn ops known tx.2 with
      | none => exact ih h hknown
      | some p =>
          obtain ⟨hnew, hpath⟩ := paymentIn_spec hpay
          rw [← hknown] at hnew
          have hnone := haveKey_eq_false.mp hnew
          obtain ⟨entry, w₁, hrun, hext, hmaster, hvalid, hfind⟩ :=
            intersect_unlocked laws tx.1 h.ext henc h.master hnone hpath
          have hnext : UnlockedAfter ops m w (ps ++ [p]) w₁ := by
            refine ⟨hext.reverse fun i => mem_ids_append, hmaster, ?_⟩
            intro q hq
            rw [hfind]
            rcases List.mem_append.mp hq with hq | hq
            · obtain ⟨old, hold, hvalid'⟩ := h.entries q hq
              have hne : q.id ≠ p.id := by
                intro heq
                rw [heq, hnone] at hold
                cases hold
              rw [if_neg hne]
              exact ⟨old, hold, hvalid'⟩
            · rw [List.mem_singleton.mp hq, if_pos rfl]
              exact ⟨entry, rfl, hvalid⟩
          have hrest := ih hnext (haveKey_insert hknown hfind)
          simp only [hrun]
          rw [List.append_assoc] at hrest
          exact hrest

/-! ## Deriving the secrets -/

def deriveFrom (ops : KeyOps) (w : CryptedKeys) (path : uint160) (e : CPubKey) : Option CSecret :=
  match (w.kt ops).find? (fun v =>
      (w.rs_ ops v).ctrlExternalAngle && (w.rs_ ops v).ctrlPath == path),
    (w.kt ops).find? (fun ex =>
      !(w.rs_ ops ex).ctrlExternalAngle && (w.rs_ ops ex).ctrlPath == path) with
  | some vID, some exID =>
    match w.GetSecret ops exID with
    | none => none
    | some s2 => some (ops.intern (w.rs_ ops vID).streamID e s2)
  | _, _ => none

def Derives (ops : KeyOps) (w : CryptedKeys) (p : Payment) : Prop :=
  keptPath p.path ≠ 0 ∧
    ∃ ks_x, w.deriveFrom ops (keptPath p.path) p.e = some ks_x ∧ ops.GetID (ops.pubOf ks_x) = p.id

theorem Extends.find_kt (h : Extends ops w w' added) (henc : Encrypted ops m w)
    (p' p : CKeyID → Bool) (hold : ∀ i, i ∉ added → p' i = p i)
    (hnew : ∀ i ∈ added, p' i = false) : (w'.kt ops).find? p' = (w.kt ops).find? p := by
  rw [← List.head?_filter, ← List.head?_filter, h.filter_kt henc hold hnew]

theorem Extends.getSecret (h : Extends ops w w' added) (hm : w.vMasterKey = m)
    (hm' : w'.vMasterKey = m) {i : CKeyID} (hi : i ∉ added) :
    w'.GetSecret ops i = w.GetSecret ops i := by
  rw [GetSecret, GetSecret, (h.old i hi).1, hm, hm']

/-- New keys are not among the first keys with a path. -/
theorem Extends.deriveFrom (h : Extends ops w w' added) (henc : Encrypted ops m w)
    (hm : w.vMasterKey = m) (hm' : w'.vMasterKey = m) {path : uint160} (hpath : path ≠ 0)
    (e : CPubKey) : w'.deriveFrom ops path e = w.deriveFrom ops path e := by
  have hnew : ∀ i ∈ added, ((w'.rs_ ops i).ctrlPath == path) = false := by
    intro i hi
    rw [(h.new i hi).2.2]
    exact beq_eq_false_iff_ne.mpr (Ne.symm hpath)
  have hin : ∀ (p : CKeyID → Bool) (i : CKeyID), (w.kt ops).find? p = some i → i ∉ added := by
    intro p i hfind hadded
    have hmem := (mem_kt henc.stored).mp (List.mem_of_find?_eq_some hfind)
    rw [OrdMap.mem_keys, (h.new i hadded).1] at hmem
    cases hmem
  unfold CryptedKeys.deriveFrom
  rw [h.find_kt henc
      (fun v => (w'.rs_ ops v).ctrlExternalAngle && (w'.rs_ ops v).ctrlPath == path)
      (fun v => (w.rs_ ops v).ctrlExternalAngle && (w.rs_ ops v).ctrlPath == path)
      (fun i hi => by rw [h.rs_ hi]) (fun i hi => by rw [hnew i hi, Bool.and_false]),
    h.find_kt henc
      (fun ex => !(w'.rs_ ops ex).ctrlExternalAngle && (w'.rs_ ops ex).ctrlPath == path)
      (fun ex => !(w.rs_ ops ex).ctrlExternalAngle && (w.rs_ ops ex).ctrlPath == path)
      (fun i hi => by rw [h.rs_ hi]) (fun i hi => by rw [hnew i hi, Bool.and_false])]
  cases hv : (w.kt ops).find? (fun v => (w.rs_ ops v).ctrlExternalAngle &&
      (w.rs_ ops v).ctrlPath == path) with
  | none => rfl
  | some vID =>
      cases hex : (w.kt ops).find? (fun ex => !(w.rs_ ops ex).ctrlExternalAngle &&
          (w.rs_ ops ex).ctrlPath == path) with
      | none => rfl
      | some exID =>
          simp only
          rw [h.getSecret hm hm' (hin _ _ hex), h.rs_ (hin _ _ hv)]

theorem derive_eq {mk : List CKeyID} (hmk : mk = w'.kt ops) (ck : CKeyID) :
    w'.derive ops mk ck =
      w'.deriveFrom ops (w'.keyData ops ck).z (w'.keyData ops ck).k := by
  subst hmk
  rfl

/-- A wallet that is deriving the secrets of its payments, and is done with some of its keys. -/
structure Deriving (ops : KeyOps) (m : List UInt8) (w : CryptedKeys) (ps : List Payment)
    (done : List CKeyID) (w' : CryptedKeys) : Prop where
  ext : Extends ops w w' (ps.map Payment.id)
  master : w'.vMasterKey = m
  derived : ∀ p ∈ ps, p.id ∈ done → Derives ops w p →
    ∃ entry, w'.mapCryptedKeys.find p.id = some entry ∧ Valid ops m p.id entry
  kept : ∀ p ∈ ps, p.id ∉ done ∨ ¬ Derives ops w p →
    (∃ x, w'.mapCryptedKeys.find p.id = some (x, [])) ∧
      w'.keyData ops p.id = ⟨0, keptPath p.path, p.e, ⟨ops.l7_ p.id, 0, []⟩⟩

theorem Deriving.skip {done : List CKeyID} {ck : CKeyID} (h : Deriving ops m w ps done w')
    (hskip : ∀ p ∈ ps, p.id = ck → ck ∉ done → ¬ Derives ops w p) :
    Deriving ops m w ps (done ++ [ck]) w' := by
  refine ⟨h.ext, h.master, ?_, ?_⟩
  · intro p hp hdone hder
    rcases List.mem_append.mp hdone with hdone | hck
    · exact h.derived p hp hdone hder
    · by_cases hin : p.id ∈ done
      · exact h.derived p hp hin hder
      · have heq := List.mem_singleton.mp hck
        exact absurd hder (hskip p hp heq (by rwa [← heq]))
  · intro p hp hout
    apply h.kept p hp
    rcases hout with hout | hnot
    · exact .inl fun hin => hout (List.mem_append_left _ hin)
    · exact .inr hnot

theorem getSecret_size {s : CSecret} (h : w.GetSecret ops i = some s) : s.length = 32 := by
  unfold GetSecret at h
  split at h
  · cases h
  · split at h
    · cases h
    · split at h
      · cases h
      next hsize =>
        cases h
        exact not_not.mp hsize

theorem deriveFrom_size (laws : KeyLaws ops) {path : uint160} {e : CPubKey} {ks_x : CSecret}
    (h : w.deriveFrom ops path e = some ks_x) : ks_x.length = 32 := by
  unfold deriveFrom at h
  split at h
  next vID exID _ _ =>
    cases hsecret : w.GetSecret ops exID with
    | none =>
        rw [hsecret] at h
        cases h
    | some s2 =>
        rw [hsecret] at h
        cases h
        exact laws.intern_size _ _ _ (getSecret_size hsecret)
  next => cases h

/-- A payment that can be derived gets its secret. -/
theorem Deriving.replace {done : List CKeyID} {ks_x : CSecret} {data : CKeyMetadata}
    (h : Deriving ops m w ps done w') (hp : p ∈ ps)
    (hsame : ∀ q ∈ ps, q.id = p.id → (Derives ops w q ↔ Derives ops w p)) (hder : Derives ops w p)
    (hsize : ks_x.length = 32) (hid : ops.GetID (ops.pubOf ks_x) = p.id)
    (hrs : data.rs_ = ⟨ops.l7_ (ops.GetID (ops.pubOf ks_x)), 0, []⟩) :
    Deriving ops m w ps (done ++ [p.id])
      ((w'.setKeyData (ops.GetID (ops.pubOf ks_x)) data).ak ops ks_x) := by
  have hak : (w'.setKeyData (ops.GetID (ops.pubOf ks_x)) data).ak ops ks_x =
      (w'.setKeyData (ops.GetID (ops.pubOf ks_x)) data).sync ops (ops.pubOf ks_x)
        (ops.EncryptSecret m ks_x (ops.GetHash (ops.pubOf ks_x))) := by
    rw [← h.master]
    rfl
  obtain ⟨hmaster, hfind, -⟩ := setKeyData_sync ops w' (ops.pubOf ks_x)
    (ops.EncryptSecret m ks_x (ops.GetHash (ops.pubOf ks_x))) data
  have hadded : ops.GetID (ops.pubOf ks_x) ∈ ps.map Payment.id := by
    rw [hid]
    exact List.mem_map_of_mem hp
  rw [hak]
  refine ⟨h.ext.resync _ hadded hrs, hmaster.trans h.master, ?_, ?_⟩
  · intro q hq hdone hq'
    rw [hfind, hid]
    by_cases heq : q.id = p.id
    · rw [if_pos heq, heq]
      exact ⟨_, rfl, ks_x, hsize, rfl, hid⟩
    · rw [if_neg heq]
      apply h.derived q hq _ hq'
      exact (List.mem_append.mp hdone).resolve_right fun hin => heq (List.mem_singleton.mp hin)
  · intro q hq hout
    have hne : q.id ≠ p.id := by
      intro heq
      rcases hout with hout | hnot
      · exact hout (by simp [heq])
      · exact hnot ((hsame q hq heq).mpr hder)
    have hkept := h.kept q hq (hout.imp_left fun hout hin => hout (List.mem_append_left _ hin))
    rw [hfind, setKeyData_sync_data, hid, if_neg hne, if_neg hne]
    exact hkept

theorem Deriving.step (laws : KeyLaws ops) (henc : Encrypted ops m w) (hm : w.vMasterKey = m)
    (nTime : ℤ) {done : List CKeyID} {ck : CKeyID} {mk : List CKeyID}
    (h : Deriving ops m w ps done w') (hmk : mk = w'.kt ops) (hck : ck ∉ done) :
    Deriving ops m w ps (done ++ [ck]) (transientKey ops nTime mk w' ck) := by
  unfold transientKey
  by_cases hpay : ∃ p ∈ ps, p.id = ck
  · obtain ⟨p, hp, rfl⟩ := hpay
    obtain ⟨⟨x, hx⟩, hdata⟩ := h.kept p hp (.inl hck)
    -- two payments with one key have the same metadata, so they are derived alike
    have hsame : ∀ q ∈ ps, q.id = p.id → (Derives ops w q ↔ Derives ops w p) := by
      intro q hq hid
      have hother := (h.kept q hq (.inl (by rwa [hid]))).2
      rw [hid, hdata] at hother
      injection hother with _ hpath he
      rw [Derives, Derives, hpath, he, hid]
    rw [derive_eq hmk, hdata]
    simp only
    split
    next hzero =>
      refine h.skip fun q hq hid _ hder => ?_
      exact ((hsame q hq hid).mp hder).1 hzero
    next hpath =>
      rw [h.ext.deriveFrom henc hm h.master hpath]
      cases hfrom : w.deriveFrom ops (keptPath p.path) p.e with
      | none =>
          refine h.skip fun q hq hid _ hder => ?_
          obtain ⟨-, ks_x, hsome, -⟩ := (hsame q hq hid).mp hder
          rw [hfrom] at hsome
          cases hsome
      | some ks_x =>
          simp only
          split
          next hid =>
            exact h.replace hp hsame ⟨hpath, ks_x, hfrom, hid⟩ (deriveFrom_size laws hfrom) hid rfl
          next hid =>
            refine h.skip fun q hq hqid _ hder => ?_
            obtain ⟨-, ks_x', hsome, hid'⟩ := (hsame q hq hqid).mp hder
            rw [hfrom, Option.some.injEq] at hsome
            subst hsome
            exact hid hid'
  · have hout : ck ∉ ps.map Payment.id := by
      intro hin
      obtain ⟨p, hp, hid⟩ := List.mem_map.mp hin
      exact hpay ⟨p, hp, hid⟩
    rw [h.ext.keyData hout, henc.settled, if_pos rfl]
    exact h.skip fun p hp hid _ => absurd ⟨p, hp, hid⟩ hpay

theorem Deriving.kt (h : Deriving ops m w ps added w') (henc : Encrypted ops m w)
    {w₁ : CryptedKeys} {done : List CKeyID} (h₁ : Deriving ops m w ps done w₁) :
    w₁.kt ops = w'.kt ops := by
  rw [kt_eq (h₁.ext.stored henc), kt_eq (h.ext.stored henc)]
  apply OrdMap.eq_of_mem_keys_iff w₁.mapCryptedKeys.ordered w'.mapCryptedKeys.ordered
  intro i
  change i ∈ w₁.mapCryptedKeys.keys ↔ i ∈ w'.mapCryptedKeys.keys
  rw [h₁.ext.mem_keys, h.ext.mem_keys]

theorem Deriving.transient (laws : KeyLaws ops) (henc : Encrypted ops m w)
    (hm : w.vMasterKey = m) (nTime : ℤ) (h : Deriving ops m w ps [] w') :
    Deriving ops m w ps (w'.kt ops) (w'.transient ops nTime) := by
  have hrun : ∀ (todo done : List CKeyID) (w₁ : CryptedKeys), (done ++ todo).Nodup →
      Deriving ops m w ps done w₁ →
      Deriving ops m w ps (done ++ todo)
        (todo.foldl (transientKey ops nTime (w'.kt ops)) w₁) := by
    intro todo
    induction todo with
    | nil =>
        intro done w₁ _ h₁
        rw [List.append_nil]
        exact h₁
    | cons ck todo ih =>
        intro done w₁ hnodup h₁
        have hck : ck ∉ done := fun hin =>
          (List.nodup_append.mp hnodup).2.2 ck hin ck List.mem_cons_self rfl
        have hstep := h₁.step laws henc hm nTime (h.kt henc h₁).symm hck
        rw [List.append_cons] at hnodup ⊢
        exact ih (done ++ [ck]) _ hnodup hstep
  have hnodup : ([] ++ w'.kt ops).Nodup := by
    rw [List.nil_append, kt_eq (h.ext.stored henc)]
    exact w'.mapCryptedKeys.ordered.imp fun hlt => hlt.ne
  exact hrun (w'.kt ops) [] w' hnodup h

/-! ## Unlocking -/

/-- Whether the master key is accepted depends on what comes first among the keys. -/
theorem unlockStore_locked (laws : KeyLaws ops) (henc : Encrypted ops m w)
    (h : LockedAfter ops w ps w') :
    w'.unlockStore ops m =
      if ∀ p ∈ ps, ∃ k ∈ w.mapCryptedKeys.keys, k < p.id then some { w' with vMasterKey := m }
      else none := by
  unfold unlockStore
  cases hhead : w'.mapCryptedKeys.entries.head? with
  | none =>
      have hempty : ∀ p ∈ ps, ∃ k ∈ w.mapCryptedKeys.keys, k < p.id := by
        intro p hp
        obtain ⟨x, hx⟩ := h.entries p hp
        have hnil := List.head?_eq_none_iff.mp hhead
        rw [OrdMap.find, hnil] at hx
        cases hx
      rw [if_pos hempty]
  | some e =>
      obtain ⟨i, vchPubKey, vchCryptedSecret⟩ := e
      have hfind := OrdMap.find_of_head hhead
      have hkey : i ∈ w'.mapCryptedKeys.keys := by
        rw [OrdMap.mem_keys, hfind]
        rfl
      by_cases hnew : i ∈ ps.map Payment.id
      · -- a placeholder comes first
        obtain ⟨p, hp, hid⟩ := List.mem_map.mp hnew
        obtain ⟨x, hx⟩ := h.entries p hp
        rw [hid, hfind, Option.some.injEq, Prod.mk.injEq] at hx
        have hno : ¬ ∀ p ∈ ps, ∃ k ∈ w.mapCryptedKeys.keys, k < p.id := by
          intro hall
          obtain ⟨k, hk, hlt⟩ := hall p hp
          have hle := OrdMap.le_of_head hhead (h.ext.mem_keys.mpr (.inr hk))
          rw [hid] at hlt
          exact absurd hlt (not_lt.mpr hle)
        rw [if_neg hno]
        simp only [hx.2, laws.decrypt_empty]
      · have hold := (h.ext.old i hnew).1
        rw [hold] at hfind
        obtain ⟨s, hsize, hentry, -⟩ := henc.valid i _ hfind
        rw [Prod.mk.injEq] at hentry
        have hall : ∀ p ∈ ps, ∃ k ∈ w.mapCryptedKeys.keys, k < p.id := by
          intro p hp
          have hpin : p.id ∈ ps.map Payment.id := List.mem_map_of_mem hp
          refine ⟨i, ?_, lt_of_le_of_ne ?_ ?_⟩
          · rw [OrdMap.mem_keys, hfind]
            rfl
          · exact OrdMap.le_of_head hhead (h.ext.mem_keys.mpr (.inl hpin))
          · rintro rfl
            exact hnew hpin
        rw [if_pos hall]
        simp [hentry.1, hentry.2, laws.decrypt_encrypt, hsize]

/-- Two payments with one key have the same metadata, so they are derived alike. -/
theorem LockedAfter.derives_congr (h : LockedAfter ops w ps w') {p q : Payment} (hp : p ∈ ps)
    (hq : q ∈ ps) (hid : q.id = p.id) : Derives ops w q ↔ Derives ops w p := by
  have hother := h.data q hq
  rw [hid, h.data p hp] at hother
  injection hother with _ hpath he
  rw [Derives, Derives, hpath, he, hid]

theorem LockedAfter.deriving (h : LockedAfter ops w ps w') :
    Deriving ops m w ps [] { w' with vMasterKey := m } where
  ext := ⟨h.ext.old, h.ext.new⟩
  master := rfl
  derived := fun _ _ hin => absurd hin List.not_mem_nil
  kept := fun p hp _ => ⟨h.entries p hp, h.data p hp⟩

/-- The keys that can be spent with after the payments were received unlocked. -/
theorem UnlockedAfter.spendable (laws : KeyLaws ops) (henc : Encrypted ops m w)
    (h : UnlockedAfter ops m w ps w') (i : CKeyID) :
    Spendable ops w' i ↔ i ∈ ps.map Payment.id ∨ i ∈ w.mapCryptedKeys.keys := by
  constructor
  · intro hspend
    rw [← h.ext.mem_keys, OrdMap.mem_keys]
    by_contra hnone
    rw [Bool.not_eq_true, Option.isSome_eq_false_iff, Option.isNone_iff_eq_none] at hnone
    simp [Spendable, GetSecret, hnone] at hspend
  · intro hin
    have hentry : ∃ entry, w'.mapCryptedKeys.find i = some entry ∧ Valid ops m i entry := by
      by_cases hnew : i ∈ ps.map Payment.id
      · obtain ⟨p, hp, rfl⟩ := List.mem_map.mp hnew
        exact h.entries p hp
      · have hkey := OrdMap.mem_keys.mp (hin.resolve_left hnew)
        obtain ⟨entry, hentry⟩ := Option.isSome_iff_exists.mp hkey
        exact ⟨entry, by rw [(h.ext.old i hnew).1, hentry], henc.valid i entry hentry⟩
    obtain ⟨entry, hfind, hvalid⟩ := hentry
    obtain ⟨s, -, hsecret, -⟩ := hvalid.secret laws hfind h.master
    rw [Spendable, hsecret]
    rfl

/-- The keys that can be spent with after the secrets of the payments were derived. -/
theorem Deriving.spendable (laws : KeyLaws ops) (henc : Encrypted ops m w) {done : List CKeyID}
    (h : Deriving ops m w ps done w') (hdone : ∀ p ∈ ps, p.id ∈ done) (i : CKeyID) :
    Spendable ops w' i ↔
      (∃ p ∈ ps, p.id = i ∧ Derives ops w p) ∨ i ∈ w.mapCryptedKeys.keys := by
  by_cases hnew : i ∈ ps.map Payment.id
  · have hout : i ∉ w.mapCryptedKeys.keys := by
      rw [OrdMap.mem_keys, (h.ext.new i hnew).1]
      simp
    obtain ⟨p, hp, rfl⟩ := List.mem_map.mp hnew
    constructor
    · intro hspend
      by_contra hno
      rw [not_or] at hno
      obtain ⟨x, hx⟩ := (h.kept p hp (.inr fun hder => hno.1 ⟨p, hp, rfl, hder⟩)).1
      rw [Spendable, secret_placeholder laws hx] at hspend
      cases hspend
    · rintro (⟨q, hq, hid, hder⟩ | hkey)
      · obtain ⟨entry, hfind, hvalid⟩ := h.derived q hq (hdone q hq) hder
        rw [hid] at hfind hvalid
        obtain ⟨s, -, hsecret, -⟩ := hvalid.secret laws hfind h.master
        rw [Spendable, hsecret]
        rfl
      · exact absurd hkey hout
  · have hno : ¬ ∃ p ∈ ps, p.id = i ∧ Derives ops w p := by
      rintro ⟨p, hp, hid, -⟩
      exact hnew (List.mem_map.mpr ⟨p, hp, hid⟩)
    rw [or_iff_right hno, OrdMap.mem_keys]
    constructor
    · intro hspend
      by_contra hnone
      rw [Bool.not_eq_true, Option.isSome_eq_false_iff, Option.isNone_iff_eq_none] at hnone
      simp [Spendable, GetSecret, (h.ext.old i hnew).1, hnone] at hspend
    · intro hkey
      obtain ⟨entry, hentry⟩ := Option.isSome_iff_exists.mp hkey
      have hfind : w'.mapCryptedKeys.find i = some entry := by
        rw [(h.ext.old i hnew).1, hentry]
      obtain ⟨s, -, hsecret, -⟩ := (henc.valid i entry hentry).secret laws hfind h.master
      rw [Spendable, hsecret]
      rfl

/-- Receiving while locked and unlocking afterwards succeeds, with the keys that can be spent with
after receiving while unlocked. -/
def ReceivesSafely (ops : KeyOps) (nTime : ℤ) (w : CryptedKeys)
    (txs : List (ℤ × List CTxOut)) : Prop :=
  ∃ w', (received ops txs w.Lock).Unlock ops nTime w.vMasterKey = some w' ∧
    ∀ i, Spendable ops w' i ↔ Spendable ops (received ops txs w) i

theorem receives_safely_iff (laws : KeyLaws ops) (nTime : ℤ) {w : CryptedKeys}
    (henc : Encrypted ops w.vMasterKey w) (txs : List (ℤ × List CTxOut)) :
    ReceivesSafely ops nTime w txs ↔
      ∀ p ∈ w.payments ops w.HaveKey (txs.map Prod.snd),
        (∃ k ∈ w.mapCryptedKeys.keys, k < p.id) ∧ Derives ops w p := by
  have hlocked : LockedAfter ops w (w.payments ops w.HaveKey (txs.map Prod.snd))
      (received ops txs w.Lock) := by
    have hstart : LockedAfter ops w [] w.Lock :=
      ⟨⟨fun _ _ => ⟨rfl, rfl⟩, fun _ hi => absurd hi List.not_mem_nil⟩, rfl,
        fun _ hp => absurd hp List.not_mem_nil, fun _ hp => absurd hp List.not_mem_nil⟩
    exact received_locked henc txs hstart rfl
  have hunlocked : UnlockedAfter ops w.vMasterKey w
      (w.payments ops w.HaveKey (txs.map Prod.snd)) (received ops txs w) := by
    have hstart : UnlockedAfter ops w.vMasterKey w [] w :=
      ⟨Extends.refl w, rfl, fun _ hp => absurd hp List.not_mem_nil⟩
    exact received_unlocked laws henc txs hstart rfl
  generalize w.payments ops w.HaveKey (txs.map Prod.snd) = ps at hlocked hunlocked ⊢
  have has : (received ops txs w.Lock).as = true := by
    rw [as, hlocked.master]
    rfl
  have hder := (hlocked.deriving (m := w.vMasterKey)).transient laws henc rfl nTime
  have hdone : ∀ p ∈ ps, p.id ∈
      ({ received ops txs w.Lock with vMasterKey := w.vMasterKey } : CryptedKeys).kt ops := by
    intro p hp
    rw [mem_kt (hlocked.deriving (m := w.vMasterKey) |>.ext.stored henc),
      (hlocked.deriving (m := w.vMasterKey)).ext.mem_keys]
    exact .inl (List.mem_map_of_mem hp)
  unfold ReceivesSafely Unlock
  rw [if_pos has, unlockStore_locked laws henc hlocked]
  constructor
  · rintro ⟨w', hok, hsame⟩ p hp
    split at hok
    next hfirst =>
      rw [Option.map_some, Option.some.injEq] at hok
      subst hok
      refine ⟨hfirst p hp, ?_⟩
      have hspend := (hunlocked.spendable laws henc p.id).mpr (.inl (List.mem_map_of_mem hp))
      rw [← hsame, hder.spendable laws henc hdone] at hspend
      rcases hspend with ⟨q, hq, hid, hq'⟩ | hkey
      · exact (hlocked.derives_congr hp hq hid).mp hq'
      · rw [OrdMap.mem_keys, (hlocked.ext.new p.id (List.mem_map_of_mem hp)).1] at hkey
        cases hkey
    next => cases hok
  · intro hall
    rw [if_pos fun p hp => (hall p hp).1]
    refine ⟨_, rfl, ?_⟩
    intro i
    rw [hder.spendable laws henc hdone, hunlocked.spendable laws henc]
    apply or_congr_left
    rw [List.mem_map]
    exact exists_congr fun p => ⟨fun h => ⟨h.1, h.2.1⟩, fun h => ⟨h.1, h.2, (hall p h.1).2⟩⟩

end CryptedKeys

/-! ## A wallet with one stealth address -/

namespace Scenario

open CryptedKeys

def shift (n : UInt8) (s : List UInt8) : List UInt8 := s.map (· + n)

/-- Keys are told apart by the first byte of the secret, and a payment adds the first bytes of what
looks and of what is announced to it. -/
def byteKeys : KeyOps where
  pubOf := fun s => 2 :: s
  GetID := fun pub => (pub.getD 1 0).toNat
  GetHash := fun _ => 0
  EncryptSecret := fun _ s _ => 1 :: s
  DecryptSecret := fun _ c _ => c.tail?
  intern := fun t j s => shift (t.headD 0 + j.headD 0) s
  outer := fun t j pub => pub.headD 0 :: shift (t.headD 0 + j.headD 0) pub.tail
  Solver := fun script =>
    match script with
    | 0x6a :: _ :: vch => .nullData vch
    | [0x76, i] => .pubKeyHash i.toNat
    | _ => .other
  l7_ := fun _ => 0

theorem byteKeys_laws : KeyLaws byteKeys where
  decrypt_encrypt := fun _ _ _ => rfl
  decrypt_empty := fun _ _ => rfl
  outer_pubOf := fun _ _ _ _ => rfl
  intern_size := fun _ _ s hs => by simpa [byteKeys, shift] using hs

def byteSecret (n : UInt8) : CSecret := List.replicate 32 n

def byteEntry (n : UInt8) : CPubKey × List UInt8 := (2 :: byteSecret n, 1 :: byteSecret n)

/-- The key 10 looks for payments, and the key 20 spends them. -/
def stealthWallet : CryptedKeys where
  mapCryptedKeys := (OrdMap.empty.insert 10 (byteEntry 10)).insert 20 (byteEntry 20)
  vMasterKey := [1]
  kd := (OrdMap.empty.insert 10 ⟨1, 0, [], ⟨RayShade.RAY_VTX, 20, byteSecret 10⟩⟩).insert 20
    ⟨1, 0, [], ⟨RayShade.RAY_SET, 20, []⟩⟩

theorem stealthWallet_keyData (i : CKeyID) : stealthWallet.keyData byteKeys i =
    if i = 20 then ⟨1, 0, [], ⟨RayShade.RAY_SET, 20, []⟩⟩
    else if i = 10 then ⟨1, 0, [], ⟨RayShade.RAY_VTX, 20, byteSecret 10⟩⟩
    else .created 0 0 := by
  simp only [keyData, stealthWallet, OrdMap.find_insert, OrdMap.find_empty]
  split
  · rfl
  · split <;> rfl

theorem stealthWallet_encrypted :
    Encrypted byteKeys stealthWallet.vMasterKey stealthWallet where
  master := List.cons_ne_nil _ _
  valid := by
    intro i entry hfind
    simp only [stealthWallet, OrdMap.find_insert, OrdMap.find_empty] at hfind
    split at hfind
    next hi =>
      cases hfind
      exact ⟨byteSecret 20, rfl, rfl, hi.symm⟩
    next =>
      split at hfind
      next hi =>
        cases hfind
        exact ⟨byteSecret 10, rfl, rfl, hi.symm⟩
      next => cases hfind
  settled := by
    intro i
    rw [stealthWallet_keyData]
    split
    · rfl
    · split <;> rfl
  stored := by
    intro i hnone
    simp only [stealthWallet, OrdMap.find_insert, OrdMap.find_empty] at hnone ⊢
    split at hnone
    · cases hnone
    next h20 =>
      split at hnone
      · cases hnone
      next h10 => rw [if_neg h20, if_neg h10]
  paths := by
    intro i hangle _
    rw [rs_, stealthWallet_keyData] at hangle ⊢
    split at hangle
    next h20 =>
      rw [if_pos h20]
      decide
    next h20 =>
      split at hangle
      next h10 =>
        rw [if_neg h20, if_pos h10]
        decide
      next => cases hangle

def stealthPayment (n : UInt8) : List CTxOut :=
  [⟨0, 0x6a :: 33 :: List.replicate 33 n⟩, ⟨500, [0x76, 30 + n]⟩]

end Scenario

open Scenario CryptedKeys

theorem receives_safely_iff_above :
    stealthWallet.payments byteKeys stealthWallet.HaveKey [stealthPayment 7] =
        [⟨37, List.replicate 33 7, 20⟩] ∧
      ReceivesSafely byteKeys 0 stealthWallet [(0, stealthPayment 7)] := by
  have hpay : stealthWallet.payments byteKeys stealthWallet.HaveKey [stealthPayment 7] =
      [⟨37, List.replicate 33 7, 20⟩] := by
    decide
  refine ⟨hpay, (receives_safely_iff byteKeys_laws 0 stealthWallet_encrypted _).mpr ?_⟩
  rw [List.map_singleton, hpay]
  intro p hp
  rw [List.mem_singleton.mp hp]
  refine ⟨by decide, by decide, ?_⟩
  exact ⟨byteSecret 37, by decide, by decide⟩

/-- The key of the payment comes before the others, and the wallet cannot be unlocked any more. -/
theorem placeholder_locks_wallet :
    KeyLaws byteKeys ∧ Encrypted byteKeys stealthWallet.vMasterKey stealthWallet ∧
      (received byteKeys [(0, stealthPayment 230)] stealthWallet.Lock).Unlock byteKeys 0
        stealthWallet.vMasterKey = none ∧
      ¬ ReceivesSafely byteKeys 0 stealthWallet [(0, stealthPayment 230)] := by
  have hlocked : (received byteKeys [(0, stealthPayment 230)] stealthWallet.Lock).Unlock byteKeys 0
      stealthWallet.vMasterKey = none := by
    have htest : ((received byteKeys [(0, stealthPayment 230)] stealthWallet.Lock).Unlock
        byteKeys 0 stealthWallet.vMasterKey).isNone = true := by
      decide
    exact Option.isNone_iff_eq_none.mp htest
  refine ⟨byteKeys_laws, stealthWallet_encrypted, hlocked, ?_⟩
  rintro ⟨w', hok, -⟩
  rw [hlocked] at hok
  cases hok

end Dions
