import Dions.Library.Latest
import Dions.Model.AliasLookup

/-! # Which record a lookup shows

Both lookups see the same records in the same order. `getNodeRecord` notes a record under its own name.
`aliasOut` notes an encrypted one under the empty name, so records of other names can mask it. -/

namespace Dions

open Halting

variable {le : LookupEnv} {k : vchType}
variable {tx : AliasWalletTx}
variable {op__ : ℕ}

/-! ## Records -/

structure AliasRecord where
  encrypted : Bool
  name : vchType
  value : vchType
  nHeight : ℤ
  deriving DecidableEq, Repr

/-- The name under which `aliasOut` notes the height. -/
def AliasRecord.key (r : AliasRecord) : vchType := if r.encrypted then [] else r.name

/-- The record of what was read, taken as encrypted or as plain. -/
def recordAs (le : LookupEnv) (encrypted : Bool) (vchAlias vchValue : vchType) (nHeight : ℤ)
    (strAddress : vchType) : Except LookupStop (Option AliasRecord) :=
  if encrypted then
    match rsaPrivKeyOf le strAddress with
    | .error e => .error e
    | .ok none => .ok none
    | .ok (some rsaPrivKey) =>
      .ok (some ⟨true, (le.DecryptMessage rsaPrivKey vchAlias).getD [], vchValue, nHeight⟩)
  else .ok (some ⟨false, vchAlias, vchValue, nHeight⟩)

/-- The record as the lookups see it, with what `aliasSet` leaves in `op_ret`. -/
def seen (le : LookupEnv) (tx : AliasWalletTx) : Except LookupStop (Option AliasRecord) :=
  match readAlias le tx with
  | .error e => .error e
  | .ok none => .ok none
  | .ok (some (op__, vchAlias, vchValue, nHeight, strAddress)) =>
    recordAs le (op__ == OP_ALIAS_ENCRYPTED) vchAlias vchValue nHeight strAddress

/-- The record as it is: the opcode of the transaction tells whether it is encrypted. -/
def recordOf (le : LookupEnv) (tx : AliasWalletTx) : Option AliasRecord :=
  match readAlias le tx with
  | .ok (some (_, vchAlias, vchValue, nHeight, strAddress)) =>
    match recordAs le ((aliasTx tx.toCTransaction).op == some OP_ALIAS_ENCRYPTED) vchAlias vchValue
      nHeight strAddress with
    | .ok r => r
    | .error _ => none
  | _ => none

/-- The entries that are seen, up to the first that a lookup stops at. -/
def seenAll (le : LookupEnv) :
    List AliasWalletTx → Except LookupStop (List (AliasWalletTx × AliasRecord))
  | [] => .ok []
  | tx :: txs =>
    match seen le tx with
    | .error e => .error e
    | .ok none => seenAll le txs
    | .ok (some r) =>
      match seenAll le txs with
      | .error e => .error e
      | .ok S => .ok ((tx, r) :: S)

theorem foldlM_seen {σ : Type} {item : σ → AliasWalletTx → Except LookupStop σ}
    {step : σ → AliasWalletTx × AliasRecord → σ}
    (hitem : ∀ s tx, item s tx = match seen le tx with
      | .error e => .error e
      | .ok none => .ok s
      | .ok (some r) => .ok (step s (tx, r)))
    (txs : List AliasWalletTx) (s : σ) :
    txs.foldlM item s = match seenAll le txs with
      | .error e => .error e
      | .ok S => .ok (S.foldl step s) := by
  induction txs generalizing s with
  | nil => rfl
  | cons tx txs ih =>
    rw [List.foldlM_cons, hitem, seenAll]
    cases hseen : seen le tx with
    | error e => rfl
    | ok o =>
      cases o with
      | none => exact ih s
      | some r =>
        refine (ih (step s (tx, r))).trans ?_
        cases seenAll le txs <;> rfl

theorem seen_of_mem {txs : List AliasWalletTx} {S : List (AliasWalletTx × AliasRecord)}
    (hseen : seenAll le txs = .ok S) : ∀ x ∈ S, seen le x.1 = .ok (some x.2) := by
  induction txs generalizing S with
  | nil =>
    cases hseen
    exact List.forall_mem_nil _
  | cons tx txs ih =>
    rw [seenAll] at hseen
    cases htx : seen le tx with
    | error e =>
      rw [htx] at hseen
      cases hseen
    | ok o =>
      rw [htx] at hseen
      cases o with
      | none => exact ih hseen
      | some r =>
        cases hrest : seenAll le txs with
        | error e =>
          rw [hrest] at hseen
          cases hseen
        | ok S' =>
          rw [hrest] at hseen
          cases hseen
          exact List.forall_mem_cons.mpr ⟨htx, ih hrest⟩

/-! ## aliasOut -/

def outStep (k : vchType) (s : OutSearch) (r : AliasRecord) : OutSearch :=
  if s.mapAliasVchInt.above r.key r.nHeight then s
  else ⟨Function.update s.mapAliasVchInt r.key (some r.nHeight),
    if k = r.name then some r.value else s.value⟩

theorem outStep_spec {s : OutSearch} {r : AliasRecord} :
    (if s.mapAliasVchInt.above r.key r.nHeight then .ok s
      else if k ≠ r.name then
        .ok { s with mapAliasVchInt := Function.update s.mapAliasVchInt r.key (some r.nHeight) }
      else .ok ⟨Function.update s.mapAliasVchInt r.key (some r.nHeight), some r.value⟩ :
      Except LookupStop OutSearch) = .ok (outStep k s r) := by
  rw [outStep]
  by_cases habove : s.mapAliasVchInt.above r.key r.nHeight = true
  · rw [if_pos habove, if_pos habove]
  · rw [if_neg habove, if_neg habove]
    by_cases hname : k = r.name
    · rw [if_neg (not_not_intro hname), if_pos hname]
    · rw [if_pos hname, if_neg hname]

theorem aliasOutItem_eq (s : OutSearch) (tx : AliasWalletTx) :
    aliasOutItem le k s tx = match seen le tx with
      | .error e => .error e
      | .ok none => .ok s
      | .ok (some r) => .ok (outStep k s r) := by
  rw [aliasOutItem, seen]
  cases readAlias le tx with
  | error e => rfl
  | ok o =>
    cases o with
    | none => rfl
    | some read =>
      obtain ⟨op__, vchAlias, vchValue, nHeight, strAddress⟩ := read
      dsimp only
      by_cases hop : op__ = OP_ALIAS_ENCRYPTED
      · rw [if_pos hop, recordAs, if_pos (beq_iff_eq.mpr hop)]
        cases rsaPrivKeyOf le strAddress with
        | error e => rfl
        | ok o =>
          cases o with
          | none => rfl
          | some rsaPrivKey =>
            dsimp only
            exact @outStep_spec k s ⟨true, _, vchValue, nHeight⟩
      · have hop' : ¬(op__ == OP_ALIAS_ENCRYPTED) = true := mt beq_iff_eq.mp hop
        rw [if_neg hop, recordAs, if_neg hop']
        exact @outStep_spec k s ⟨false, vchAlias, vchValue, nHeight⟩

def outOf (s : HeightTable × Option AliasRecord) : OutSearch := ⟨s.1, s.2.map AliasRecord.value⟩

theorem outStep_outOf (s : HeightTable × Option AliasRecord) (r : AliasRecord) :
    outStep k (outOf s) r =
      outOf (Latest.visit AliasRecord.key AliasRecord.nHeight (fun r => k == r.name) s r) := by
  rw [outStep, Latest.visit]
  by_cases habove : Latest.above s.1 r.key r.nHeight = true
  · have habove' : (outOf s).mapAliasVchInt.above r.key r.nHeight = true := habove
    rw [if_pos habove, if_pos habove']
  · have habove' : ¬(outOf s).mapAliasVchInt.above r.key r.nHeight = true := habove
    rw [if_neg habove, if_neg habove', outOf, outOf]
    by_cases hname : k = r.name
    · rw [if_pos hname, if_pos (beq_iff_eq.mpr hname)]
      rfl
    · rw [if_neg hname, if_neg (mt beq_iff_eq.mp hname)]

/-- What the end of `aliasOut` makes of the value it has found. -/
def exported (le : LookupEnv) : Option vchType → Except LookupStop (Option vchType)
  | none => .ok none
  | some value =>
    match le.gunzip value with
    | none => .error .gzipError
    | some text => .ok (some text)

theorem exported_eq_some {o : Option vchType} {text : vchType} :
    exported le o = .ok (some text) ↔ ∃ value, o = some value ∧ le.gunzip value = some text := by
  cases o with
  | none => exact iff_of_false (fun h => nomatch h) (fun ⟨_, h, _⟩ => nomatch h)
  | some value =>
    rw [exported]
    constructor
    · intro h
      cases htext : le.gunzip value with
      | none =>
        rw [htext] at h
        cases h
      | some text' =>
        rw [htext] at h
        cases h
        exact ⟨value, rfl, htext⟩
    · rintro ⟨value', hvalue, htext⟩
      cases hvalue
      rw [htext]

def walkOut (k : vchType) (R : List AliasRecord) : HeightTable × Option AliasRecord :=
  Latest.walk AliasRecord.key AliasRecord.nHeight (fun r => k == r.name) R

theorem aliasOut_eq (mapWallet : OrdMap uint256 AliasWalletTx) {out__ : vchType}
    (hpath : le.pathExists out__ = true) :
    aliasOut le mapWallet [k, out__] = match seenAll le (mapWallet.entries.map Prod.snd) with
      | .error e => .error e
      | .ok S => exported le ((walkOut k (S.map Prod.snd)).2.map AliasRecord.value) := by
  have hpath' : ¬(!le.pathExists out__) = true := by
    rw [hpath]
    exact Bool.false_ne_true
  rw [aliasOut, if_neg hpath', @foldlM_seen le _ _ (fun s x => outStep k s x.2) aliasOutItem_eq]
  cases seenAll le (mapWallet.entries.map Prod.snd) with
  | error e => rfl
  | ok S =>
    have hfold := @List.foldl_hom _ _ _ outOf _ _ (S.map Prod.snd) (fun _ => none, none)
      (@outStep_outOf k)
    rw [List.foldl_map] at hfold
    exact congrArg (fun s : OutSearch => exported le s.value) hfold

/-! ## getNodeRecord -/

theorem aliasTx_of_aliasSet {q : ℕ × vchType × vchType} (h : tx.aliasSet = .ok (some q)) :
    tx.nVersion = CTransaction.DION_TX_VERSION ∧ (aliasTx tx.toCTransaction).ret = true := by
  rw [AliasWalletTx.aliasSet] at h
  by_cases hversion : tx.nVersion ≠ CTransaction.DION_TX_VERSION
  · rw [if_pos hversion] at h
    cases h
  · rw [if_neg hversion] at h
    dsimp only at h
    by_cases hret : (!(aliasTx tx.toCTransaction).ret) = true
    · rw [if_pos hret] at h
      cases h
    · exact ⟨not_not.mp hversion, by simpa using hret⟩

/-- What is read is the entry of a transaction in the chain, with its height and address. -/
theorem readAlias_eq_some {vchAlias vchValue strAddress : vchType} {nHeight : ℤ}
    (h : readAlias le tx = .ok (some (op__, vchAlias, vchValue, nHeight, strAddress))) :
    tx.aliasSet = .ok (some (op__, vchAlias, vchValue)) ∧ tx.aliasAddress le = .ok strAddress := by
  rw [readAlias] at h
  cases hset : tx.aliasSet with
  | error e =>
    rw [hset] at h
    cases h
  | ok o =>
    rw [hset] at h
    cases o with
    | none => cases h
    | some q =>
      dsimp only at h
      by_cases hheight : tx.GetHeightInMainChain le = -1
      · rw [if_pos hheight] at h
        cases h
      · rw [if_neg hheight] at h
        cases haddress : tx.aliasAddress le with
        | error e =>
          rw [haddress] at h
          cases h
        | ok strAddress' =>
          rw [haddress] at h
          cases h
          exact ⟨rfl, rfl⟩

/-- Where the address of an alias is found, its script is. -/
theorem IsMinePost_of_read {q : ℕ × vchType × vchType × ℤ × vchType}
    (h : readAlias le tx = .ok (some q)) : ∃ isMine, tx.IsMinePost le = .ok isMine := by
  obtain ⟨hset, haddress⟩ := readAlias_eq_some h
  obtain ⟨hversion, hret⟩ := aliasTx_of_aliasSet hset
  have hret' : ¬(!(aliasTx tx.toCTransaction).ret) = true := by
    rw [hret]
    exact Bool.false_ne_true
  rw [AliasWalletTx.aliasAddress, if_neg hret'] at haddress
  rw [AliasWalletTx.IsMinePost, if_neg (not_not_intro hversion), if_neg hret']
  cases htxout : access tx.vout ((aliasTx tx.toCTransaction).nOut.getD 0) with
  | error e =>
    rw [htxout] at haddress
    cases haddress
  | ok txout =>
    rw [htxout] at haddress
    simp only [bind, Except.bind] at haddress ⊢
    cases hstrip : aliasStrip txout.scriptPubKey with
    | none =>
      rw [hstrip] at haddress
      cases haddress
    | some scriptPubKey => exact ⟨_, rfl⟩

def objectOf (le : LookupEnv) (x : AliasWalletTx × AliasRecord) : RpcObject :=
  match readAlias le x.1 with
  | .ok (some (_, vchAlias, vchValue, nHeight, strAddress)) =>
    match aliasObject le x.1 x.2.encrypted x.2.name vchAlias (if x.2.encrypted then x.2.name else [])
      vchValue nHeight strAddress with
    | .ok aliasObj => aliasObj
    | .error _ => []
  | _ => []

def nodeStep (le : LookupEnv) (k : vchType) (s : NodeSearch) (x : AliasWalletTx × AliasRecord) :
    NodeSearch :=
  if k = x.2.name then
    if s.mapAliasVchInt.above x.2.name x.2.nHeight then s
    else ⟨Function.update s.mapAliasVchInt x.2.name (some x.2.nHeight),
      s.aliasMapVchObj.insert (nameKey x.2.name) (objectOf le x)⟩
  else s

/-- The objects are made, and they tell the values of the records. -/
theorem objectOf_spec {vchAlias vchValue strAddress : vchType} {nHeight : ℤ}
    (hread : readAlias le tx = .ok (some (op__, vchAlias, vchValue, nHeight, strAddress)))
    (encrypted : Bool) (name : vchType) :
    aliasObject le tx encrypted name vchAlias (if encrypted then name else []) vchValue nHeight
        strAddress = .ok (objectOf le (tx, ⟨encrypted, name, vchValue, nHeight⟩)) ∧
      (objectOf le (tx, ⟨encrypted, name, vchValue, nHeight⟩)).lookup "value" =
        some (.str vchValue) := by
  obtain ⟨isMine, hmine⟩ := IsMinePost_of_read hread
  rw [objectOf, hread]
  dsimp only
  rw [aliasObject, hmine]
  exact ⟨rfl, rfl⟩

theorem nodePut_eq {s : NodeSearch} {vchAlias vchValue strAddress : vchType} {nHeight : ℤ}
    (hread : readAlias le tx = .ok (some (op__, vchAlias, vchValue, nHeight, strAddress)))
    (encrypted : Bool) (name : vchType) :
    (if s.mapAliasVchInt.above name nHeight then .ok s
      else s.put le tx encrypted name vchAlias (if encrypted then name else []) vchValue nHeight
        strAddress) =
      .ok (if s.mapAliasVchInt.above name nHeight then s
        else ⟨Function.update s.mapAliasVchInt name (some nHeight), s.aliasMapVchObj.insert
          (nameKey name) (objectOf le (tx, ⟨encrypted, name, vchValue, nHeight⟩))⟩) := by
  by_cases habove : s.mapAliasVchInt.above name nHeight = true
  · rw [if_pos habove, if_pos habove]
  · rw [if_neg habove, if_neg habove, NodeSearch.put, (objectOf_spec hread encrypted name).1]

theorem getNodeRecordItem_eq (s : NodeSearch) (tx : AliasWalletTx) :
    getNodeRecordItem le k s tx = match seen le tx with
      | .error e => .error e
      | .ok none => .ok s
      | .ok (some r) => .ok (nodeStep le k s (tx, r)) := by
  rw [getNodeRecordItem, seen]
  cases hread : readAlias le tx with
  | error e => rfl
  | ok o =>
    cases o with
    | none => rfl
    | some read =>
      obtain ⟨op__, vchAlias, vchValue, nHeight, strAddress⟩ := read
      dsimp only
      by_cases hop : op__ = OP_ALIAS_ENCRYPTED
      · rw [if_pos hop, recordAs, if_pos (beq_iff_eq.mpr hop)]
        cases rsaPrivKeyOf le strAddress with
        | error e => rfl
        | ok o =>
          cases o with
          | none => rfl
          | some rsaPrivKey =>
            dsimp only
            generalize (le.DecryptMessage rsaPrivKey vchAlias).getD [] = decrypted
            rw [nodeStep]
            by_cases hname : k = decrypted
            · rw [if_neg (not_not_intro hname), if_pos hname, ← nodePut_eq hread true decrypted]
              split <;> rfl
            · rw [if_pos hname, if_neg hname]
      · have hop' : ¬(op__ == OP_ALIAS_ENCRYPTED) = true := mt beq_iff_eq.mp hop
        rw [if_neg hop, recordAs, if_neg hop']
        dsimp only
        rw [nodeStep]
        by_cases hname : k = vchAlias
        · rw [if_neg (not_not_intro hname), if_pos hname, ← nodePut_eq hread false vchAlias]
          split <;> rfl
        · rw [if_pos hname, if_neg hname, ite_self]

theorem insert_insert_empty {κ α : Type} [LinearOrder κ] (i : κ) (a b : α) :
    ((OrdMap.empty.insert i a).insert i b) = (OrdMap.empty : OrdMap κ α).insert i b := by
  simp only [OrdMap.insert, OrdMap.insertEntry, OrdMap.empty, lt_irrefl, if_false, if_true]

/-- What `getNodeRecord` has found after a walk over the records of the name. -/
def nodeOf (le : LookupEnv) (k : vchType) (s : HeightTable × Option (AliasWalletTx × AliasRecord)) :
    NodeSearch :=
  ⟨s.1, match s.2 with
    | none => .empty
    | some x => OrdMap.empty.insert (nameKey k) (objectOf le x)⟩

theorem nodeStep_nodeOf (s : HeightTable × Option (AliasWalletTx × AliasRecord))
    (x : AliasWalletTx × AliasRecord) :
    nodeStep le k (nodeOf le k s) x = nodeOf le k (if (k == x.2.name) = true then
      Latest.visit (fun x => x.2.name) (fun x => x.2.nHeight) (fun _ => true) s x else s) := by
  rw [nodeStep]
  by_cases hname : k = x.2.name
  · rw [if_pos hname, if_pos (beq_iff_eq.mpr hname), Latest.visit]
    by_cases habove : Latest.above s.1 x.2.name x.2.nHeight = true
    · have habove' : (nodeOf le k s).mapAliasVchInt.above x.2.name x.2.nHeight = true := habove
      rw [if_pos habove, if_pos habove']
    · have habove' : ¬(nodeOf le k s).mapAliasVchInt.above x.2.name x.2.nHeight = true := habove
      rw [if_neg habove, if_neg habove', if_pos rfl, nodeOf, nodeOf, hname]
      dsimp only
      cases s.2 with
      | none => rfl
      | some y => rw [insert_insert_empty]
  · rw [if_neg hname, if_neg (mt beq_iff_eq.mp hname)]

def walkNode (k : vchType) (S : List (AliasWalletTx × AliasRecord)) :
    HeightTable × Option (AliasWalletTx × AliasRecord) :=
  Latest.walk (fun x => x.2.name) (fun x => x.2.nHeight) (fun _ => true)
    (S.filter fun x => k == x.2.name)

theorem getNodeRecord_eq (mapWallet : OrdMap uint256 AliasWalletTx) :
    getNodeRecord le mapWallet [k] = match seenAll le (mapWallet.entries.map Prod.snd) with
      | .error e => .error e
      | .ok S => .ok ((walkNode k S).2.map (objectOf le)).toList := by
  rw [getNodeRecord, if_neg (show ¬1 < [k].length from lt_irrefl 1), List.headD_cons, foldlM_seen getNodeRecordItem_eq]
  cases seenAll le (mapWallet.entries.map Prod.snd) with
  | error e => rfl
  | ok S =>
    have hfold := @List.foldl_hom _ _ _ (nodeOf le k) _ _ S (fun _ => none, none)
      (@nodeStep_nodeOf le k)
    have hwalk : walkNode k S = S.foldl (fun s x => if (k == x.2.name) = true then
        Latest.visit (fun x => x.2.name) (fun x => x.2.nHeight) (fun _ => true) s x else s)
          (fun _ => none, none) := List.foldl_filter
    dsimp only
    rw [hwalk]
    refine (congrArg (fun s : NodeSearch =>
      (Except.ok (s.aliasMapVchObj.entries.map Prod.snd) : Except LookupStop _)) hfold).trans ?_
    dsimp only [nodeOf]
    cases (S.foldl (fun s x => if (k == x.2.name) = true then
      Latest.visit (fun x => x.2.name) (fun x => x.2.nHeight) (fun _ => true) s x else s)
        (fun _ => none, none)).2 with
    | none => rfl
    | some x => rfl

end Dions
