import Dions.Model.Destination
import Dions.Verification.Scenario
import Dions.Verification.Wallet.AliasLookup

/-! # When the lookups show the latest record

`getNodeRecord` does so for whatever the entries hold, unless one of them makes it stop. `aliasOut` does
so exactly where no other record stands in front of the latest one and nothing old is shown after it. -/

namespace Dions

open Halting

variable {le : LookupEnv} {k : vchType}
variable {S : List (AliasWalletTx × AliasRecord)}
variable {R : List AliasRecord} {tx : AliasWalletTx} {x : AliasWalletTx × AliasRecord}

/-! ## The latest record -/

/-- Among the records of the name the highest has the value. -/
def TopValue (R : List AliasRecord) (k value : vchType) : Prop :=
  ∃ r ∈ R, r.name = k ∧ r.value = value ∧ ∀ r' ∈ R, r'.name = k → r'.nHeight ≤ r.nHeight

/-- A higher record is noted under the same name. -/
def Masked (R : List AliasRecord) (r : AliasRecord) : Prop :=
  ∃ r' ∈ R, r'.key = r.key ∧ r.nHeight < r'.nHeight

/-- A record of the name with the value is not masked by those before it, and all later records of the
name are. -/
def Exposed (R : List AliasRecord) (k value : vchType) : Prop :=
  ∃ pre r post, R = pre ++ r :: post ∧ r.name = k ∧ r.value = value ∧ ¬Masked pre r ∧
    ∀ pre' r' post', post = pre' ++ r' :: post' → r'.name = k → Masked (pre ++ r :: pre') r'

theorem exposed_iff {value : vchType} :
    Exposed R k value ↔ (walkOut k R).2.map AliasRecord.value = some value := by
  have hspec := (@Latest.walk_spec _ _ AliasRecord.key AliasRecord.nHeight _ (fun r => k == r.name) R).2
  rw [Option.map_eq_some_iff]
  constructor
  · rintro ⟨pre, r, post, hR, hname, hvalue, hmasked, hlater⟩
    refine ⟨r, (hspec r).mpr ⟨pre, post, hR, beq_iff_eq.mpr hname.symm, hmasked, ?_⟩, hvalue⟩
    intro pre' r' post' hpost hname'
    exact hlater pre' r' post' hpost (beq_iff_eq.mp hname').symm
  · rintro ⟨r, hshown, hvalue⟩
    obtain ⟨pre, post, hR, hname, hmasked, hlater⟩ := (hspec r).mp hshown
    refine ⟨pre, r, post, hR, (beq_iff_eq.mp hname).symm, hvalue, hmasked, ?_⟩
    intro pre' r' post' hpost hname'
    exact hlater pre' r' post' hpost (beq_iff_eq.mpr hname'.symm)

theorem exists_topValue (h : ∃ r ∈ R, r.name = k) : ∃ v, TopValue R k v := by
  have hmem (r : AliasRecord) : r ∈ R.filter (fun r => k == r.name) ↔ r ∈ R ∧ r.name = k := by
    rw [List.mem_filter, beq_iff_eq, eq_comm]
  obtain ⟨r₀, hr₀⟩ := h
  obtain ⟨r, hshown⟩ := @Latest.exists_shown _ _ AliasRecord.name AliasRecord.nHeight
    (R.filter fun r => k == r.name) (List.ne_nil_of_mem ((hmem r₀).mpr hr₀))
  have htop := hshown.top fun a ha b hb => ((hmem a).mp ha).2.trans ((hmem b).mp hb).2.symm
  obtain ⟨hr, hname⟩ := (hmem r).mp hshown.mem.1
  exact ⟨r.value, r, hr, hname, rfl, fun r' hr' hname' => htop r' ((hmem r').mpr ⟨hr', hname'⟩)⟩

/-! ## What the wallet holds -/

def records (le : LookupEnv) (mapWallet : OrdMap uint256 AliasWalletTx) : List AliasRecord :=
  (mapWallet.entries.map Prod.snd).filterMap (recordOf le)

def heightOf (le : LookupEnv) (tx : AliasWalletTx) : Option ℤ :=
  match readAlias le tx with
  | .ok (some (_, _, _, nHeight, _)) => some nHeight
  | _ => none

def Distinct (le : LookupEnv) (mapWallet : OrdMap uint256 AliasWalletTx) : Prop :=
  ((mapWallet.entries.map Prod.snd).filterMap (heightOf le)).Nodup

theorem recordAs_fields {encrypted : Bool} {vchAlias vchValue strAddress : vchType} {nHeight : ℤ}
    {r : AliasRecord} (h : recordAs le encrypted vchAlias vchValue nHeight strAddress = .ok (some r)) :
    r.value = vchValue ∧ r.nHeight = nHeight := by
  rw [recordAs] at h
  cases encrypted with
  | false =>
    cases h
    exact ⟨rfl, rfl⟩
  | true =>
    rw [if_pos rfl] at h
    cases hkey : rsaPrivKeyOf le strAddress with
    | error e =>
      rw [hkey] at h
      cases h
    | ok o =>
      rw [hkey] at h
      cases o with
      | none => cases h
      | some rsaPrivKey =>
        cases h
        exact ⟨rfl, rfl⟩

/-- What is read of an entry that is seen. -/
theorem read_of_seen {r : AliasRecord} (h : seen le tx = .ok (some r)) :
    ∃ op__ vchAlias strAddress,
      readAlias le tx = .ok (some (op__, vchAlias, r.value, r.nHeight, strAddress)) := by
  rw [seen] at h
  cases hread : readAlias le tx with
  | error e =>
    rw [hread] at h
    cases h
  | ok o =>
    rw [hread] at h
    cases o with
    | none => cases h
    | some q =>
      obtain ⟨op__, vchAlias, vchValue, nHeight, strAddress⟩ := q
      obtain ⟨hvalue, hheight⟩ := recordAs_fields h
      exact ⟨op__, vchAlias, strAddress, by rw [hvalue, hheight]⟩

theorem objectOf_value (h : seen le x.1 = .ok (some x.2)) :
    (objectOf le x).lookup "value" = some (.str x.2.value) := by
  obtain ⟨op__, vchAlias, strAddress, hread⟩ := read_of_seen h
  exact (objectOf_spec hread x.2.encrypted x.2.name).2

theorem heights_sublist {txs : List AliasWalletTx} (h : seenAll le txs = .ok S) :
    (S.map fun x => x.2.nHeight).Sublist (txs.filterMap (heightOf le)) := by
  induction txs generalizing S with
  | nil =>
    cases h
    exact List.Sublist.refl _
  | cons tx txs ih =>
    rw [seenAll] at h
    cases htx : seen le tx with
    | error e =>
      rw [htx] at h
      cases h
    | ok o =>
      rw [htx] at h
      cases o with
      | none =>
        refine (ih h).trans ?_
        rw [List.filterMap_cons]
        cases heightOf le tx with
        | none => exact List.Sublist.refl _
        | some nHeight => exact List.sublist_cons_self nHeight _
      | some r =>
        cases hrest : seenAll le txs with
        | error e =>
          rw [hrest] at h
          cases h
        | ok S' =>
          rw [hrest] at h
          cases h
          obtain ⟨op__, vchAlias, strAddress, hread⟩ := read_of_seen htx
          have hheight : heightOf le tx = some r.nHeight := by rw [heightOf, hread]
          rw [List.filterMap_cons_some hheight]
          exact (ih hrest).cons_cons r.nHeight

/-! ## What getNodeRecord shows -/

theorem mem_named : x ∈ S.filter (fun x => k == x.2.name) ↔ x ∈ S ∧ x.2.name = k := by
  rw [List.mem_filter, beq_iff_eq, eq_comm]

theorem walkNode_eq_some (h : (walkNode k S).2 = some x) :
    x ∈ S ∧ x.2.name = k ∧ ∀ y ∈ S, y.2.name = k → y.2.nHeight ≤ x.2.nHeight := by
  have hshown := ((Latest.walk_spec _ _).2 x).mp h
  have htop := hshown.top fun a ha b hb => (mem_named.mp ha).2.trans (mem_named.mp hb).2.symm
  obtain ⟨hx, hname⟩ := mem_named.mp hshown.mem.1
  exact ⟨hx, hname, fun y hy hyname => htop y (mem_named.mpr ⟨hy, hyname⟩)⟩

/-- With heights that differ the record that is kept is the highest. -/
theorem walkNode_value (hdistinct : (S.map fun x => x.2.nHeight).Nodup) {v : vchType} :
    (∃ x, (walkNode k S).2 = some x ∧ x.2.value = v) ↔ TopValue (S.map Prod.snd) k v := by
  constructor
  · rintro ⟨x, hx, hvalue⟩
    obtain ⟨hmem, hname, htop⟩ := walkNode_eq_some hx
    refine ⟨x.2, List.mem_map_of_mem hmem, hname, hvalue, fun r' hr' hname' => ?_⟩
    obtain ⟨y, hy, heq⟩ := List.mem_map.mp hr'
    rw [← heq] at hname' ⊢
    exact htop y hy hname'
  · rintro ⟨r, hr, hname, hvalue, htop⟩
    obtain ⟨y, hy, heq⟩ := List.mem_map.mp hr
    rw [← heq] at hname hvalue htop
    obtain ⟨x, hshown⟩ := @Latest.exists_shown _ _ (fun x : AliasWalletTx × AliasRecord => x.2.name)
      (fun x => x.2.nHeight) _ (List.ne_nil_of_mem (mem_named.mpr ⟨hy, hname⟩))
    have hx : (walkNode k S).2 = some x := ((Latest.walk_spec _ _).2 x).mpr hshown
    obtain ⟨hmem, hxname, hxtop⟩ := walkNode_eq_some hx
    have hle := htop x.2 (List.mem_map_of_mem hmem) hxname
    have hsame : x = y := List.inj_on_of_nodup_map hdistinct hmem hy (le_antisymm hle (hxtop y hy hname))
    exact ⟨x, hx, hsame ▸ hvalue⟩

theorem walkNode_eq_none : (walkNode k S).2 = none ↔ ∀ x ∈ S, x.2.name ≠ k := by
  constructor
  · intro h x hx hname
    obtain ⟨y, hshown⟩ := @Latest.exists_shown _ _ (fun x : AliasWalletTx × AliasRecord => x.2.name)
      (fun x => x.2.nHeight) _ (List.ne_nil_of_mem (mem_named.mpr ⟨hx, hname⟩))
    have hy : (walkNode k S).2 = some y := ((Latest.walk_spec _ _).2 y).mpr hshown
    rw [hy] at h
    cases h
  · intro h
    by_contra hne
    obtain ⟨x, hx⟩ := Option.ne_none_iff_exists'.mp hne
    obtain ⟨hmem, hname, -⟩ := walkNode_eq_some hx
    exact h x hmem hname

/-! ## Both lookups -/

/-- Of the highest record of the name `aliasOut` exports the text that the value is compressed from, and
`getNodeRecord` tells the value. Without a record both tell that there is none. -/
def LooksUp (le : LookupEnv) (mapWallet : OrdMap uint256 AliasWalletTx) (k out__ : vchType) : Prop :=
  (∀ v, TopValue (records le mapWallet) k v →
    (∃ text, le.gunzip v = some text ∧ aliasOut le mapWallet [k, out__] = .ok (some text)) ∧
    ∃ aliasObj, getNodeRecord le mapWallet [k] = .ok [aliasObj] ∧
      aliasObj.lookup "value" = some (.str v)) ∧
  ((∀ r ∈ records le mapWallet, r.name ≠ k) →
    aliasOut le mapWallet [k, out__] = .ok none ∧ getNodeRecord le mapWallet [k] = .ok [])

/-- The value is a compressed text, and a value compressed from this text is exposed. -/
def TextExposed (le : LookupEnv) (R : List AliasRecord) (k v : vchType) : Prop :=
  ∃ text, le.gunzip v = some text ∧ ∃ w, Exposed R k w ∧ le.gunzip w = some text

/-- No entry makes a lookup stop. The highest record of the name is the highest one seen, its value is a
compressed text, and the text is exposed. Where there is no record of the name, none is seen. -/
def Unmasked (le : LookupEnv) (mapWallet : OrdMap uint256 AliasWalletTx) (k : vchType) : Prop :=
  ∃ S, seenAll le (mapWallet.entries.map Prod.snd) = .ok S ∧
    (∀ v, TopValue (records le mapWallet) k v →
      TopValue (S.map Prod.snd) k v ∧ TextExposed le (S.map Prod.snd) k v) ∧
    ((∀ r ∈ records le mapWallet, r.name ≠ k) → ∀ x ∈ S, x.2.name ≠ k)

theorem walkOut_of_absent (h : ∀ r ∈ R, r.name ≠ k) : (walkOut k R).2 = none := by
  by_contra hne
  obtain ⟨r, hr⟩ := Option.ne_none_iff_exists'.mp hne
  obtain ⟨hmem, hname⟩ := (((Latest.walk_spec _ _).2 r).mp hr).mem
  exact h r hmem (beq_iff_eq.mp hname).symm

theorem alias_lookups {mapWallet : OrdMap uint256 AliasWalletTx} {out__ : vchType}
    (hdistinct : Distinct le mapWallet) (hpath : le.pathExists out__ = true) :
    LooksUp le mapWallet k out__ ↔ Unmasked le mapWallet k := by
  have hout := @aliasOut_eq le k mapWallet out__ hpath
  have hnode := @getNodeRecord_eq le k mapWallet
  cases hseen : seenAll le (mapWallet.entries.map Prod.snd) with
  | error e =>
    rw [hseen] at hout
    refine iff_of_false (fun h => ?_) (fun h => ?_)
    · by_cases hname : ∃ r ∈ records le mapWallet, r.name = k
      · obtain ⟨v, hv⟩ := exists_topValue hname
        obtain ⟨text, -, hexport⟩ := (h.1 v hv).1
        cases hout.symm.trans hexport
      · cases hout.symm.trans (h.2 fun r hr heq => hname ⟨r, hr, heq⟩).1
    · obtain ⟨S, hS, -⟩ := h
      cases hseen.symm.trans hS
  | ok S =>
    rw [hseen] at hout hnode
    dsimp only at hout hnode
    have hheights := hdistinct.sublist (heights_sublist hseen)
    constructor
    · intro h
      refine ⟨S, hseen, fun v hv => ?_, fun hno => ?_⟩
      · obtain ⟨⟨text, htext, hexport⟩, aliasObj, hobj, hlookup⟩ := h.1 v hv
        obtain ⟨w, hw, hwtext⟩ := exported_eq_some.mp (hout.symm.trans hexport)
        refine ⟨?_, text, htext, w, exposed_iff.mpr hw, hwtext⟩
        have hlist := Except.ok.inj (hnode.symm.trans hobj)
        cases hx : (walkNode k S).2 with
        | none =>
          rw [hx] at hlist
          cases hlist
        | some x =>
          rw [hx] at hlist
          cases hlist
          rw [objectOf_value (seen_of_mem hseen x (walkNode_eq_some hx).1)] at hlookup
          cases hlookup
          exact (walkNode_value hheights).mp ⟨x, hx, rfl⟩
      · have hlist := Except.ok.inj (hnode.symm.trans (h.2 hno).2)
        rw [Option.toList_eq_nil_iff, Option.map_eq_none_iff] at hlist
        exact walkNode_eq_none.mp hlist
    · rintro ⟨S', hS', htop, hnone⟩
      cases Except.ok.inj (hseen.symm.trans hS')
      refine ⟨fun v hv => ?_, fun hno => ?_⟩
      · obtain ⟨htopSeen, text, htext, w, hexposed, hwtext⟩ := htop v hv
        obtain ⟨x, hx, hvalue⟩ := (walkNode_value hheights).mpr htopSeen
        have hexport := exported_eq_some.mpr ⟨w, exposed_iff.mp hexposed, hwtext⟩
        rw [hout, hnode, hx]
        refine ⟨⟨text, htext, hexport⟩, objectOf le x, rfl, ?_⟩
        rw [objectOf_value (seen_of_mem hseen x (walkNode_eq_some hx).1), hvalue]
      · have habsent := hnone hno
        have habsent' : ∀ r ∈ S.map Prod.snd, r.name ≠ k := by
          intro r hr
          obtain ⟨x, hx, heq⟩ := List.mem_map.mp hr
          exact heq ▸ habsent x hx
        rw [hout, hnode, walkOut_of_absent habsent', walkNode_eq_none.mpr habsent]
        exact ⟨rfl, rfl⟩

/-! ## Where no plain alias is taken for an encrypted one -/

/-- The member `op__` of a plain alias does not happen to hold the opcode of an encrypted one. -/
def AliasWalletTx.Clean (tx : AliasWalletTx) : Prop :=
  (aliasTx tx.toCTransaction).op ≠ some OP_ALIAS_ENCRYPTED → tx.op__ ≠ OP_ALIAS_ENCRYPTED

theorem aliasSet_op {op__ : ℕ} {vchAlias vchValue : vchType}
    (h : tx.aliasSet = .ok (some (op__, vchAlias, vchValue))) :
    op__ = if (aliasTx tx.toCTransaction).op = some OP_ALIAS_ENCRYPTED then OP_ALIAS_ENCRYPTED
      else tx.op__ := by
  obtain ⟨hversion, hret⟩ := aliasTx_of_aliasSet h
  have hret' : ¬(!(aliasTx tx.toCTransaction).ret) = true := by
    rw [hret]
    exact Bool.false_ne_true
  rw [AliasWalletTx.aliasSet, if_neg (not_not_intro hversion)] at h
  dsimp only at h
  rw [if_neg hret'] at h
  by_cases hset : (aliasTx tx.toCTransaction).op = some OP_ALIAS_SET
  · rw [if_pos hset] at h
    obtain ⟨_, -, h⟩ := seq_ok.mp h
    obtain ⟨_, -, h⟩ := seq_ok.mp h
    cases h
    rw [if_neg (by rw [hset]; decide)]
  · rw [if_neg hset] at h
    by_cases hrelay : (aliasTx tx.toCTransaction).op = some OP_ALIAS_RELAY
    · rw [if_pos hrelay] at h
      obtain ⟨_, -, h⟩ := seq_ok.mp h
      obtain ⟨_, -, h⟩ := seq_ok.mp h
      cases h
      rw [if_neg (by rw [hrelay]; decide)]
    · rw [if_neg hrelay] at h
      by_cases hencrypted : (aliasTx tx.toCTransaction).op = some OP_ALIAS_ENCRYPTED
      · rw [if_pos hencrypted] at h ⊢
        obtain ⟨_, -, h⟩ := seq_ok.mp h
        obtain ⟨_, -, h⟩ := seq_ok.mp h
        cases h
        rfl
      · rw [if_neg hencrypted] at h
        cases h

theorem recordOf_of_seen (hclean : tx.Clean) {o : Option AliasRecord} (h : seen le tx = .ok o) :
    recordOf le tx = o := by
  rw [seen] at h
  rw [recordOf]
  cases hread : readAlias le tx with
  | error e =>
    rw [hread] at h
    cases h
  | ok q =>
    rw [hread] at h
    cases q with
    | none =>
      cases h
      rfl
    | some q =>
      obtain ⟨op__, vchAlias, vchValue, nHeight, strAddress⟩ := q
      dsimp only at h ⊢
      have hop : (op__ == OP_ALIAS_ENCRYPTED) =
          ((aliasTx tx.toCTransaction).op == some OP_ALIAS_ENCRYPTED) := by
        rw [aliasSet_op (readAlias_eq_some hread).1]
        by_cases hencrypted : (aliasTx tx.toCTransaction).op = some OP_ALIAS_ENCRYPTED
        · rw [if_pos hencrypted, beq_iff_eq.mpr hencrypted]
          rfl
        · rw [if_neg hencrypted, beq_false_of_ne (hclean hencrypted), beq_false_of_ne hencrypted]
      rw [← hop, h]

theorem records_eq_seen {txs : List AliasWalletTx} (hclean : ∀ tx ∈ txs, tx.Clean)
    {S : List (AliasWalletTx × AliasRecord)} (hseen : seenAll le txs = .ok S) :
    txs.filterMap (recordOf le) = S.map Prod.snd := by
  induction txs generalizing S with
  | nil =>
    cases hseen
    rfl
  | cons tx txs ih =>
    rw [List.forall_mem_cons] at hclean
    rw [seenAll] at hseen
    cases htx : seen le tx with
    | error e =>
      rw [htx] at hseen
      cases hseen
    | ok o =>
      have hrecord := recordOf_of_seen hclean.1 htx
      rw [htx] at hseen
      cases o with
      | none =>
        rw [List.filterMap_cons_none hrecord]
        exact ih hclean.2 hseen
      | some r =>
        cases hrest : seenAll le txs with
        | error e =>
          rw [hrest] at hseen
          cases hseen
        | ok S' =>
          rw [hrest] at hseen
          cases hseen
          rw [List.filterMap_cons_some hrecord, ih hclean.2 hrest, List.map_cons]

/-- Without misread entries the condition is about the records alone. -/
theorem unmasked_iff {mapWallet : OrdMap uint256 AliasWalletTx}
    (hclean : ∀ tx ∈ mapWallet.entries.map Prod.snd, tx.Clean) :
    Unmasked le mapWallet k ↔ (∃ S, seenAll le (mapWallet.entries.map Prod.snd) = .ok S) ∧
      ∀ v, TopValue (records le mapWallet) k v → TextExposed le (records le mapWallet) k v := by
  constructor
  · rintro ⟨S, hseen, htop, -⟩
    refine ⟨⟨S, hseen⟩, fun v hv => ?_⟩
    rw [records, records_eq_seen hclean hseen]
    exact (htop v hv).2
  · rintro ⟨⟨S, hseen⟩, htop⟩
    have hsame : records le mapWallet = S.map Prod.snd := records_eq_seen hclean hseen
    rw [hsame] at htop
    refine ⟨S, hseen, fun v hv => ?_, fun hno x hx => ?_⟩
    · rw [hsame] at hv
      exact ⟨hv, htop v hv⟩
    · rw [hsame] at hno
      exact hno x.2 (List.mem_map_of_mem hx)

/-! ## Two encrypted aliases -/

namespace Scenario

def indexData (hash : uint256) : BlockIndexData := ⟨hash, 1, 0, false, 0, false, 0, 0⟩

def firstEntry : CBlockIndex := .child (indexData 1) (.root (indexData 0))
def secondEntry : CBlockIndex := .child (indexData 2) firstEntry

/-- The letters `"a"` and `"b"`, compressed with `gzip`. -/
def gzipA : vchType :=
  [0x1f, 0x8b, 0x08, 0, 0, 0, 0, 0, 0x02, 0x03, 0x4b, 0x04, 0, 0x43, 0xbe, 0xb7, 0xe8, 1, 0, 0, 0]
def gzipB : vchType :=
  [0x1f, 0x8b, 0x08, 0, 0, 0, 0, 0, 0x02, 0x03, 0x4b, 0x02, 0, 0xf9, 0xef, 0xbe, 0x71, 1, 0, 0, 0]

/-- The ciphers leave a text as it is, all keys are there, and the two letters are decompressed. -/
def lookupEnv : LookupEnv where
  toEnv := timed testNet
  node := { Node.empty with
    mapBlockIndex := fun hash =>
      if hash = 1 then some firstEntry else if hash = 2 then some secondEntry else none
    pnext := fun pindex => if pindex = firstEntry then some secondEntry else none
    pindexBest := some secondEntry }
  hashMerkleRoot := fun _ => 0
  GetKey := fun _ => some [2]
  envCP0 := fun pubKey => some pubKey
  DecryptMessage := fun _ encrypted => some encrypted
  Solver := fun _ => true
  pathExists := fun _ => true
  gunzip := fun v => if v = gzipA then some [0x61] else if v = gzipB then some [0x62] else none

/-- An encrypted alias with a file, in the block of the given height. -/
def encryptedAlias (name file : vchType) (nHeight : ℕ) : AliasWalletTx where
  toCTransaction := spending nHeight CTransaction.DION_TX_VERSION [⟨90 + nHeight, 0⟩]
    [⟨0, writePrefix OP_ALIAS_ENCRYPTED [name, [0x73], [0x64], [0x68], file, [0x30], [0x5f], State.GROUND]
      [OP_2DROP, OP_2DROP, OP_2DROP, OP_2DROP, OP_DROP] ++ [0x51]⟩]
  hashBlock := nHeight
  vMerkleBranch := []
  nIndex := 1
  fFromMe := true
  vfSpent := []
  fMerkleVerified := true
  op__ := 0

/-- The later alias has the smaller hash. -/
def twoAliases : OrdMap uint256 AliasWalletTx :=
  (OrdMap.empty.insert 5 (encryptedAlias [0x61] gzipA 1)).insert 3 (encryptedAlias [0x62] gzipB 2)

end Scenario

open Scenario

/-- The two records are found in the order of the hashes. -/
theorem records_twoAliases :
    records lookupEnv twoAliases = [⟨true, [0x62], gzipB, 2⟩, ⟨true, [0x61], gzipA, 1⟩] := by
  decide +kernel

theorem distinct_twoAliases : Distinct lookupEnv twoAliases := by
  rw [Distinct]
  decide +kernel

theorem alias_lookups_twoAliases :
    LooksUp lookupEnv twoAliases [0x62] [] ↔ Unmasked lookupEnv twoAliases [0x62] :=
  alias_lookups distinct_twoAliases rfl

/-- The record of the other name stands in front of it. -/
theorem aliasOut_masks :
    ¬∀ (le : LookupEnv) (mapWallet : OrdMap uint256 AliasWalletTx) (k out__ : vchType),
      Distinct le mapWallet → le.pathExists out__ = true → LooksUp le mapWallet k out__ := by
  intro h
  have hlooks := h lookupEnv twoAliases [0x61] [] distinct_twoAliases rfl
  have htop : TopValue (records lookupEnv twoAliases) [0x61] gzipA := by
    rw [records_twoAliases]
    refine ⟨⟨true, [0x61], gzipA, 1⟩, by simp, rfl, rfl, fun r hr hname => ?_⟩
    simp only [List.mem_cons, List.not_mem_nil, or_false] at hr
    rcases hr with hr | hr
    · rw [hr] at hname
      cases hname
    · rw [hr]
  have hout : aliasOut lookupEnv twoAliases [[0x61], []] = .ok none := by decide +kernel
  obtain ⟨text, -, hexport⟩ := (hlooks.1 gzipA htop).1
  cases hout.symm.trans hexport

end Dions
