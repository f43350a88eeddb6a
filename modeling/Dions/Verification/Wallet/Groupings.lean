import Dions.Library.Components
import Dions.Model.AddressGroupings
import Mathlib.Order.Lattice.Nat

/-! # The groups are the connected components

Every set in memory is one of the unique groups, and a destination points to the one that holds it. So
the sets hit by a new group are those that overlap it, none is read after it was freed, and one round
joins the new group to them. -/

namespace Dions

open Halting Components

variable {grouping : Grouping} {pcoin : WxTx} {groupings : Finset Grouping}
variable {setmap : CTxDestination → Option ℕ} {merged : ℕ} {d : CTxDestination} {txout : CTxOut}
  {groupings' : Finset Grouping}

/-! ## Joining a group -/

/-- Every allocated set is a unique group, and a destination points to the one that holds it. -/
structure JoinState.Linked (s : JoinState) : Prop where
  allocated : s.heap.allocated = s.uniqueGroupings
  points : ∀ d p, s.setmap d = some p ↔ p ∈ s.uniqueGroupings ∧ d ∈ s.heap.content p

def JoinState.contents (s : JoinState) : Finset Grouping := s.uniqueGroupings.image s.heap.content

theorem mem_hitsOf {grouping : List CTxDestination} {p : ℕ} :
    p ∈ hitsOf setmap grouping ↔ ∃ d ∈ grouping, setmap d = some p := by
  refine (mem_foldl (R := fun d p => setmap d = some p) ?_ grouping ∅ p).trans
    (or_iff_right (Finset.notMem_empty p))
  intro hits d p
  cases setmap d with
  | none => simp
  | some q => rw [Finset.mem_insert, Option.some.injEq, or_comm, eq_comm]

theorem setmap_foldl {elements : List CTxDestination} :
    elements.foldl (fun setmap element => Function.update setmap element (some merged)) setmap d =
      if d ∈ elements then some merged else setmap d := by
  induction elements generalizing setmap with
  | nil => simp
  | cons e es ih =>
    rw [List.foldl_cons, ih]
    by_cases hes : d ∈ es
    · rw [if_pos hes, if_pos (List.mem_cons_of_mem e hes)]
    · rw [if_neg hes]
      by_cases hde : d = e
      · rw [hde, Function.update_self, if_pos List.mem_cons_self]
      · rw [Function.update_of_ne hde, if_neg fun hmem => (List.mem_cons.mp hmem).elim hde hes]

/-- The hit groups are in memory, so they go into the new one and are freed. -/
theorem mergeHits_spec {hits : List ℕ} {s : JoinState} (hnodup : hits.Nodup) (hnew : merged ∉ hits)
    (hmerged : merged ∈ s.heap.allocated) (hhits : ∀ p ∈ hits, p ∈ s.heap.allocated) :
    mergeHits merged hits s = .ok ⟨s.uniqueGroupings \ hits.toFinset, s.setmap, s.heap.nNew,
      s.heap.allocated \ hits.toFinset, Function.update s.heap.content merged
        (s.heap.content merged ∪ hits.toFinset.sup s.heap.content)⟩ := by
  induction hits generalizing s with
  | nil => simp [mergeHits]
  | cons hit hits ih =>
    obtain ⟨hfirst, hnodup⟩ := List.nodup_cons.mp hnodup
    obtain ⟨hne, hnew⟩ := List.ne_and_not_mem_of_not_mem_cons hnew
    have hhit := hhits hit List.mem_cons_self
    have hrest (p : ℕ) (hp : p ∈ hits) : p ∈ s.heap.allocated.erase hit :=
      Finset.mem_erase.mpr ⟨fun heq => hfirst (heq ▸ hp), hhits p (List.mem_cons_of_mem hit hp)⟩
    have hderef : s.heap.deref hit = .ok (s.heap.content hit) := if_pos hhit
    have hinsert : s.heap.insertInto merged (s.heap.content hit) = .ok { s.heap with
        content := Function.update s.heap.content merged (s.heap.content merged ∪ s.heap.content hit) } :=
      if_pos hmerged
    have hsup (c : Grouping) :
        hits.toFinset.sup (Function.update s.heap.content merged c) = hits.toFinset.sup s.heap.content := by
      refine Finset.sup_congr rfl fun p hp => ?_
      rw [Function.update_of_ne]
      intro heq
      rw [heq] at hp
      exact hnew (List.mem_toFinset.mp hp)
    have herase (u : Finset ℕ) : u.erase hit \ hits.toFinset = u \ insert hit hits.toFinset := by
      rw [Finset.erase_sdiff_comm, Finset.sdiff_insert]
    rw [mergeHits, hderef]
    dsimp only [bind, Except.bind]
    rw [hinsert]
    dsimp only
    rw [SetHeap.delete, if_pos hhit]
    dsimp only
    rw [ih hnodup hnew (Finset.mem_erase.mpr ⟨hne, hmerged⟩) hrest]
    dsimp only
    rw [hsup, Function.update_self, Function.update_idem, List.toFinset_cons, Finset.sup_insert,
      Finset.sup_eq_union, Finset.union_assoc, herase, herase]

section Join

variable (run : GroupRun) (s : JoinState) (grouping : Grouping)

def JoinState.fresh : ℕ := run.alloc.next s.heap.nNew s.heap.allocated

def JoinState.hits : Finset ℕ := s.uniqueGroupings.filter fun p => ¬Disjoint (s.heap.content p) grouping

def JoinState.joined : Grouping := grouping ∪ (s.hits grouping).sup s.heap.content

def JoinState.after : JoinState where
  uniqueGroupings := insert (s.fresh run) (s.uniqueGroupings \ s.hits grouping)
  setmap d := if d ∈ s.joined grouping then some (s.fresh run) else s.setmap d
  heap := ⟨s.heap.nNew + 1, insert (s.fresh run) s.heap.allocated \ s.hits grouping,
    Function.update s.heap.content (s.fresh run) (s.joined grouping)⟩

variable {run s}

namespace JoinState.Linked

theorem fresh_notMem (h : s.Linked) : s.fresh run ∉ s.uniqueGroupings := by
  rw [← h.allocated]
  exact run.alloc.fresh s.heap.nNew s.heap.allocated

theorem fresh_notMem_hits (h : s.Linked) : s.fresh run ∉ s.hits grouping := fun hmem =>
  h.fresh_notMem (Finset.mem_filter.mp hmem).1

theorem hitsOf_eq (h : s.Linked) :
    hitsOf s.setmap (run.addresses.list grouping) = s.hits grouping := by
  ext p
  rw [mem_hitsOf, JoinState.hits, Finset.mem_filter, Finset.not_disjoint_iff]
  constructor
  · rintro ⟨d, hd, hpoints⟩
    obtain ⟨hp, hheld⟩ := (h.points d p).mp hpoints
    exact ⟨hp, d, hheld, run.addresses.mem_list.mp hd⟩
  · rintro ⟨hp, d, hheld, hd⟩
    exact ⟨d, run.addresses.mem_list.mpr hd, (h.points d p).mpr ⟨hp, hheld⟩⟩

theorem joinGrouping_eq (h : s.Linked) : joinGrouping run grouping s = .ok (s.after run grouping) := by
  have hlist : (run.pointers.list (s.hits grouping)).toFinset = s.hits grouping := by
    ext p
    rw [List.mem_toFinset, run.pointers.mem_list]
  have hnew : s.heap.new run.alloc grouping = (s.fresh run, ⟨s.heap.nNew + 1,
      insert (s.fresh run) s.heap.allocated, Function.update s.heap.content (s.fresh run) grouping⟩) := rfl
  have hsup : (s.hits grouping).sup (Function.update s.heap.content (s.fresh run) grouping) =
      (s.hits grouping).sup s.heap.content := by
    refine Finset.sup_congr rfl fun p hp => ?_
    rw [Function.update_of_ne]
    intro heq
    rw [heq] at hp
    exact h.fresh_notMem_hits grouping hp
  have hheld : s.fresh run ∈ insert (s.fresh run) s.heap.allocated \ s.hits grouping :=
    Finset.mem_sdiff.mpr ⟨Finset.mem_insert_self _ _, h.fresh_notMem_hits grouping⟩
  rw [joinGrouping, h.hitsOf_eq, hnew]
  dsimp only
  rw [mergeHits_spec (run.pointers.nodup _)
    (fun hmem => h.fresh_notMem_hits grouping (run.pointers.mem_list.mp hmem))
    (Finset.mem_insert_self _ _) (fun p hp => by
      refine Finset.mem_insert_of_mem ?_
      rw [h.allocated]
      exact (Finset.mem_filter.mp (run.pointers.mem_list.mp hp)).1)]
  dsimp only [bind, Except.bind]
  rw [hlist, hsup, Function.update_self, Function.update_idem, SetHeap.deref, if_pos hheld]
  dsimp only
  rw [Function.update_self]
  refine congrArg Except.ok ?_
  rw [JoinState.after, JoinState.mk.injEq]
  refine ⟨rfl, funext fun d => ?_, rfl⟩
  rw [setmap_foldl]
  exact if_congr run.addresses.mem_list rfl rfl

theorem mem_joined (h : s.Linked) {d : CTxDestination} {p : ℕ} (hpoints : s.setmap d = some p) :
    d ∈ s.joined grouping ↔ p ∈ s.hits grouping := by
  obtain ⟨hp, hd⟩ := (h.points d p).mp hpoints
  rw [JoinState.joined, Finset.mem_union, Finset.mem_sup]
  constructor
  · rintro (hdg | ⟨q, hq, hdq⟩)
    · exact Finset.mem_filter.mpr ⟨hp, Finset.not_disjoint_iff.mpr ⟨d, hd, hdg⟩⟩
    · have hpoints' := (h.points d q).mpr ⟨(Finset.mem_filter.mp hq).1, hdq⟩
      rw [hpoints, Option.some.injEq] at hpoints'
      rwa [hpoints']
  · intro hhit
    exact .inr ⟨p, hhit, hd⟩

protected theorem after (h : s.Linked) : (s.after run grouping).Linked where
  allocated := by
    change insert (s.fresh run) s.heap.allocated \ s.hits grouping =
      insert (s.fresh run) (s.uniqueGroupings \ s.hits grouping)
    rw [h.allocated, Finset.insert_sdiff_of_notMem _ (h.fresh_notMem_hits grouping)]
  points d p := by
    change (if d ∈ s.joined grouping then some (s.fresh run) else s.setmap d) = some p ↔
      p ∈ insert (s.fresh run) (s.uniqueGroupings \ s.hits grouping) ∧
        d ∈ Function.update s.heap.content (s.fresh run) (s.joined grouping) p
    rw [Finset.mem_insert, Finset.mem_sdiff]
    by_cases hp : p = s.fresh run
    · rw [hp, Function.update_self]
      by_cases hd : d ∈ s.joined grouping
      · simp [hd]
      · rw [if_neg hd, and_iff_right (.inl rfl), iff_false_right hd]
        intro hpoints
        exact h.fresh_notMem ((h.points d _).mp hpoints).1
    · rw [Function.update_of_ne hp, or_iff_right hp]
      by_cases hd : d ∈ s.joined grouping
      · rw [if_pos hd, Option.some.injEq]
        refine iff_of_false (fun heq => hp heq.symm) ?_
        rintro ⟨⟨hunique, hmiss⟩, hheld⟩
        exact hmiss ((h.mem_joined grouping ((h.points d p).mpr ⟨hunique, hheld⟩)).mp hd)
      · rw [if_neg hd, h.points]
        constructor
        · rintro ⟨hunique, hheld⟩
          have hpoints := (h.points d p).mpr ⟨hunique, hheld⟩
          exact ⟨⟨hunique, fun hhit => hd ((h.mem_joined grouping hpoints).mpr hhit)⟩, hheld⟩
        · rintro ⟨⟨hunique, -⟩, hheld⟩
          exact ⟨hunique, hheld⟩

theorem contents_after (h : s.Linked) :
    (s.after run grouping).contents = Components.merge s.contents grouping := by
  have hrest : s.uniqueGroupings \ s.hits grouping =
      s.uniqueGroupings.filter fun p => Disjoint (s.heap.content p) grouping := by
    ext p
    rw [Finset.mem_sdiff, JoinState.hits, Finset.mem_filter, Finset.mem_filter]
    tauto
  have hsame : ((s.uniqueGroupings \ s.hits grouping).image
      (Function.update s.heap.content (s.fresh run) (s.joined grouping))) =
      (s.uniqueGroupings \ s.hits grouping).image s.heap.content := by
    refine Finset.image_congr fun p hp => Function.update_of_ne ?_ _ _
    intro heq
    rw [heq] at hp
    exact h.fresh_notMem (Finset.mem_sdiff.mp hp).1
  rw [JoinState.contents, JoinState.contents, Components.merge, Finset.filter_image, Finset.filter_image,
    Finset.sup_image, Function.id_comp]
  change (insert (s.fresh run) (s.uniqueGroupings \ s.hits grouping)).image
    (Function.update s.heap.content (s.fresh run) (s.joined grouping)) = _
  rw [Finset.image_insert, Function.update_self, hsame, hrest]
  rfl

end JoinState.Linked

/-! ## The run -/

variable (run) in
theorem joinGroupings_spec (h : s.Linked) (groupings : List Grouping) :
    ∃ s', joinGroupings run groupings s = .ok s' ∧ s'.Linked ∧
      s'.contents = groupings.foldl Components.merge s.contents := by
  induction groupings generalizing s with
  | nil => exact ⟨s, rfl, h, rfl⟩
  | cons grouping groupings ih =>
    obtain ⟨s', hrun, hlinked, hcontents⟩ := ih (@JoinState.Linked.after run s grouping h)
    refine ⟨s', ?_, hlinked, ?_⟩
    · rw [joinGroupings, h.joinGrouping_eq]
      exact hrun
    · rw [hcontents, h.contents_after, List.foldl_cons]

/-- Each set that is left is read and freed once. -/
theorem takeGroupings_spec {ps : List ℕ} {heap : SetHeap} {ret : Finset Grouping} (hnodup : ps.Nodup)
    (hps : ∀ p ∈ ps, p ∈ heap.allocated) :
    takeGroupings ps heap ret = .ok (ps.toFinset.image heap.content ∪ ret,
      { heap with allocated := heap.allocated \ ps.toFinset }) := by
  induction ps generalizing heap ret with
  | nil => simp [takeGroupings]
  | cons p ps ih =>
    obtain ⟨hfirst, hnodup⟩ := List.nodup_cons.mp hnodup
    have hp := hps p List.mem_cons_self
    have hrest (q : ℕ) (hq : q ∈ ps) : q ∈ heap.allocated.erase p :=
      Finset.mem_erase.mpr ⟨fun heq => hfirst (heq ▸ hq), hps q (List.mem_cons_of_mem p hq)⟩
    rw [takeGroupings, SetHeap.deref, if_pos hp, SetHeap.delete, if_pos hp]
    dsimp only [bind, Except.bind]
    rw [ih hnodup hrest, List.toFinset_cons, Finset.image_insert, Finset.erase_sdiff_comm,
      Finset.sdiff_insert, Finset.insert_union, Finset.union_insert]

end Join

/-! ## The groups of the transactions -/

namespace GroupWallet

variable {w : GroupWallet}

def Spends (w : GroupWallet) (txin : CTxIn) (txout : CTxOut) : Prop :=
  ∃ prev, w.mapWallet.find txin.prevout.hash = some prev ∧ prev.vout[txin.prevout.n]? = some txout

def IsOwn (w : GroupWallet) (pcoin : WxTx) : Prop :=
  ∃ txin, pcoin.vin.head? = some txin ∧ w.IsMineIn txin = true

/-- The destinations of all inputs and of the change of an own transaction. -/
def IsOwnGroup (w : GroupWallet) (pcoin : WxTx) (g : Grouping) : Prop :=
  w.IsOwn pcoin ∧ ∀ d, d ∈ g ↔
    (∃ txin ∈ pcoin.vin, ∃ txout, w.Spends txin txout ∧ w.destination txout = some d) ∨
      ∃ txout ∈ pcoin.vout, w.IsChange txout = true ∧ w.destination txout = some d

def IsLoneGroup (w : GroupWallet) (pcoin : WxTx) (g : Grouping) : Prop :=
  ∃ txout ∈ pcoin.vout, w.IsMineOut txout = true ∧ ∃ d, w.destination txout = some d ∧ g = {d}

def initialGroups (w : GroupWallet) : Set Grouping :=
  {g | ∃ hash pcoin, w.mapWallet.find hash = some pcoin ∧ (w.IsOwnGroup pcoin g ∨ w.IsLoneGroup pcoin g)}

/-- The wallet has the previous outputs of all inputs, if the first one is its own. -/
def InputsKnown (w : GroupWallet) (pcoin : WxTx) : Prop :=
  w.IsOwn pcoin → ∀ txin ∈ pcoin.vin, ∃ txout, w.Spends txin txout

theorem previousOutput_eq_ok {txin : CTxIn} :
    w.previousOutput txin = .ok txout ↔ w.Spends txin txout := by
  rw [previousOutput, read_eq_ok, Spends]
  cases w.mapWallet.find txin.prevout.hash <;> simp

theorem mem_insertDestination :
    d ∈ w.insertDestination grouping txout ↔ d ∈ grouping ∨ w.destination txout = some d := by
  rw [insertDestination]
  cases w.destination txout with
  | none => simp
  | some address => rw [Finset.mem_insert, Option.some.injEq, or_comm, eq_comm]

theorem groupInputs_ok {vin : List CTxIn} {grouping' : Grouping}
    (h : w.groupInputs vin grouping = .ok grouping') :
    (∀ txin ∈ vin, ∃ txout, w.Spends txin txout) ∧ ∀ d, d ∈ grouping' ↔ d ∈ grouping ∨
      ∃ txin ∈ vin, ∃ txout, w.Spends txin txout ∧ w.destination txout = some d := by
  induction vin generalizing grouping with
  | nil =>
    cases h
    simp
  | cons txin vin ih =>
    obtain ⟨txout, hread, hrest⟩ := seq_ok.mp h
    have hspends := previousOutput_eq_ok.mp hread
    obtain ⟨hknown, hmem⟩ := ih hrest
    have honly (txout' : CTxOut) (h' : w.Spends txin txout') : txout' = txout := by
      have hread' := previousOutput_eq_ok.mpr h'
      rw [hread] at hread'
      exact (Except.ok.inj hread').symm
    refine ⟨List.forall_mem_cons.mpr ⟨⟨txout, hspends⟩, hknown⟩, fun d => ?_⟩
    rw [hmem, mem_insertDestination, List.exists_mem_cons_iff, or_assoc]
    refine or_congr_right (or_congr_left ⟨fun hd => ⟨txout, hspends, hd⟩, ?_⟩)
    rintro ⟨txout', hspends', hd⟩
    rwa [← honly txout' hspends']

theorem groupInputs_total {vin : List CTxIn} (h : ∀ txin ∈ vin, ∃ txout, w.Spends txin txout)
    (grouping : Grouping) : ∃ grouping', w.groupInputs vin grouping = .ok grouping' := by
  induction vin generalizing grouping with
  | nil => exact ⟨grouping, rfl⟩
  | cons txin vin ih =>
    obtain ⟨⟨txout, hspends⟩, hrest⟩ := List.forall_mem_cons.mp h
    obtain ⟨grouping', hrun⟩ := ih hrest (w.insertDestination grouping txout)
    exact ⟨grouping', seq_ok.mpr ⟨txout, previousOutput_eq_ok.mpr hspends, hrun⟩⟩

theorem mem_groupChange {vout : List CTxOut} :
    d ∈ w.groupChange vout grouping ↔ d ∈ grouping ∨
      ∃ txout ∈ vout, w.IsChange txout = true ∧ w.destination txout = some d := by
  refine mem_foldl (R := fun txout d => w.IsChange txout = true ∧ w.destination txout = some d) ?_ _ _ _
  intro grouping txout d
  by_cases hchange : w.IsChange txout = true
  · rw [if_pos hchange, mem_insertDestination, and_iff_right hchange]
  · rw [if_neg hchange, or_iff_left fun h => hchange h.1]

theorem mem_groupLone {g : Grouping} :
    g ∈ w.groupLone pcoin.vout groupings ↔ g ∈ groupings ∨ w.IsLoneGroup pcoin g := by
  refine mem_foldl (R := fun txout g =>
    w.IsMineOut txout = true ∧ ∃ d, w.destination txout = some d ∧ g = ({d} : Grouping)) ?_ _ _ _
  intro groupings txout g
  by_cases hmine : w.IsMineOut txout = true
  · rw [if_pos hmine, and_iff_right hmine]
    cases w.destination txout with
    | none => simp
    | some address => simp [or_comm]
  · rw [if_neg hmine, or_iff_left fun h => hmine h.1]

theorem groupOwn_other (h : ¬w.IsOwn pcoin) (groupings : Finset Grouping) :
    w.groupOwn pcoin groupings = .ok groupings := by
  rw [groupOwn]
  cases hvin : pcoin.vin with
  | nil => rfl
  | cons txin vin => exact if_neg fun hmine => h ⟨txin, by rw [hvin, List.head?_cons], hmine⟩

theorem groupOwn_own (h : w.IsOwn pcoin) (groupings : Finset Grouping) :
    w.groupOwn pcoin groupings = (w.groupInputs pcoin.vin ∅ >>= fun grouping =>
      .ok (insert (w.groupChange pcoin.vout grouping) groupings)) := by
  obtain ⟨txin, hhead, hmine⟩ := h
  obtain ⟨vin, hvin⟩ := List.head?_eq_some_iff.mp hhead
  rw [groupOwn, hvin]
  exact if_pos hmine

theorem groupOwn_ok (h : w.groupOwn pcoin groupings = .ok groupings') :
    w.InputsKnown pcoin ∧ ∀ g, g ∈ groupings' ↔ g ∈ groupings ∨ w.IsOwnGroup pcoin g := by
  by_cases hown : w.IsOwn pcoin
  · rw [groupOwn_own hown] at h
    obtain ⟨grouping, hinputs, hok⟩ := seq_ok.mp h
    obtain ⟨hknown, hmem⟩ := groupInputs_ok hinputs
    cases hok
    refine ⟨fun _ => hknown, fun g => ?_⟩
    have hgroup : w.IsOwnGroup pcoin g ↔ g = w.groupChange pcoin.vout grouping := by
      rw [IsOwnGroup, and_iff_right hown, Finset.ext_iff]
      refine forall_congr' fun d => ?_
      rw [mem_groupChange, hmem, or_iff_right (Finset.notMem_empty d)]
    rw [Finset.mem_insert, hgroup, or_comm]
  · rw [groupOwn_other hown] at h
    cases h
    exact ⟨fun h => absurd h hown, fun g => (or_iff_left fun h => hown h.1).symm⟩

theorem groupOwn_total (h : w.InputsKnown pcoin) (groupings : Finset Grouping) :
    ∃ groupings', w.groupOwn pcoin groupings = .ok groupings' := by
  by_cases hown : w.IsOwn pcoin
  · obtain ⟨grouping, hinputs⟩ := groupInputs_total (h hown) ∅
    exact ⟨_, (groupOwn_own hown groupings).trans (seq_ok.mpr ⟨grouping, hinputs, rfl⟩)⟩
  · exact ⟨groupings, groupOwn_other hown groupings⟩

theorem groupEntries_ok {es : List (uint256 × WxTx)}
    (h : w.groupEntries es groupings = .ok groupings') :
    (∀ e ∈ es, w.InputsKnown e.2) ∧ ∀ g, g ∈ groupings' ↔ g ∈ groupings ∨
      ∃ e ∈ es, w.IsOwnGroup e.2 g ∨ w.IsLoneGroup e.2 g := by
  induction es generalizing groupings with
  | nil =>
    cases h
    simp
  | cons e es ih =>
    obtain ⟨own, hown, hrest⟩ := seq_ok.mp h
    obtain ⟨hknown, hgroups⟩ := groupOwn_ok hown
    obtain ⟨hall, hmem⟩ := ih hrest
    refine ⟨List.forall_mem_cons.mpr ⟨hknown, hall⟩, fun g => ?_⟩
    rw [hmem, mem_groupLone, hgroups, List.exists_mem_cons_iff, or_assoc, or_assoc, or_assoc]

theorem groupEntries_total {es : List (uint256 × WxTx)} (h : ∀ e ∈ es, w.InputsKnown e.2)
    (groupings : Finset Grouping) : ∃ groupings', w.groupEntries es groupings = .ok groupings' := by
  induction es generalizing groupings with
  | nil => exact ⟨groupings, rfl⟩
  | cons e es ih =>
    obtain ⟨hknown, hrest⟩ := List.forall_mem_cons.mp h
    obtain ⟨own, hown⟩ := groupOwn_total hknown groupings
    obtain ⟨groupings', hrun⟩ := ih hrest (w.groupLone e.2.vout own)
    exact ⟨groupings', seq_ok.mpr ⟨own, hown, hrun⟩⟩

end GroupWallet

/-! ## The groups that are returned -/

theorem joined_returned (run : GroupRun) (groupings : Finset Grouping) :
    ∃ s ret heap, joinGroupings run (run.groups.list groupings) ⟨∅, fun _ => none, .empty⟩ = .ok s ∧
      takeGroupings (run.pointers.list s.uniqueGroupings) s.heap ∅ = .ok (ret, heap) ∧
      IsComponents {g | g ∈ groupings} ret ∧ heap.allocated = ∅ := by
  have hempty : JoinState.Linked ⟨∅, fun _ => none, .empty⟩ := ⟨rfl, by simp⟩
  obtain ⟨s, hjoin, hlinked, hcontents⟩ :=
    joinGroupings_spec run hempty (run.groups.list groupings)
  have hlist : (run.pointers.list s.uniqueGroupings).toFinset = s.uniqueGroupings := by
    ext p
    rw [List.mem_toFinset, run.pointers.mem_list]
  have htake := @takeGroupings_spec _ s.heap ∅ (run.pointers.nodup s.uniqueGroupings) fun p hp => by
    rw [hlinked.allocated]
    exact run.pointers.mem_list.mp hp
  refine ⟨s, _, _, hjoin, htake, ?_, ?_⟩
  · have hcomponents := isComponents_foldl IsComponents.empty (run.groups.list groupings)
    rw [Set.union_empty] at hcomponents
    rw [hlist, Finset.union_empty]
    simp only [run.groups.mem_list] at hcomponents
    change IsComponents _ s.contents
    rw [hcontents]
    exact hcomponents
  · dsimp only
    rw [hlist, hlinked.allocated, Finset.sdiff_self]

theorem groupings_are_components (run : GroupRun) (w : GroupWallet) :
    (∃ ret, GetAddressGroupings run w = .ok ret ∧ IsComponents w.initialGroups ret) ↔
      ∀ hash pcoin, w.mapWallet.find hash = some pcoin → w.InputsKnown pcoin := by
  constructor
  · rintro ⟨ret, hrun, -⟩ hash pcoin hfind
    obtain ⟨groupings, hentries, -⟩ := seq_ok.mp hrun
    exact (GroupWallet.groupEntries_ok hentries).1 (hash, pcoin) (OrdMap.mem_entries.mpr hfind)
  · intro hknown
    obtain ⟨groupings, hentries⟩ := GroupWallet.groupEntries_total (w := w)
      (fun e he => hknown e.1 e.2 (OrdMap.mem_entries.mp he)) ∅
    obtain ⟨s, ret, heap, hjoin, htake, hcomponents, -⟩ := joined_returned run groupings
    have hgroups : {g | g ∈ groupings} = w.initialGroups := by
      ext g
      change g ∈ groupings ↔ ∃ hash pcoin, _
      rw [(GroupWallet.groupEntries_ok hentries).2 g, or_iff_right (Finset.notMem_empty g), Prod.exists]
      simp only [OrdMap.mem_entries]
    rw [hgroups] at hcomponents
    exact ⟨ret, seq_ok.mpr ⟨groupings, hentries, seq_ok.mpr ⟨s, hjoin, seq_ok.mpr ⟨_, htake, rfl⟩⟩⟩,
      hcomponents⟩

/-! ## An input from elsewhere -/

namespace Scenario

def aboveAll : Allocator where
  next _ allocated := allocated.sup id + 1
  fresh _ _ hmem := Nat.not_succ_le_self _ (Finset.le_sup (f := id) hmem)

/-- The output of the first transaction is spent together with one that the wallet does not know. -/
def jointWallet : GroupWallet where
  mapWallet := (OrdMap.empty.insert 1 (WxTx.ofTx ⟨1, 1, [], [⟨7, CScript.SetDestination (.CKeyID 5)⟩], 0, []⟩)).insert 2
    (WxTx.ofTx ⟨1, 2, [⟨⟨1, 0⟩, [], 0⟩, ⟨⟨9, 0⟩, [], 0⟩], [], 0, []⟩)
  crypto := ⟨fun _ => 0, id, id, id, id, id, fun _ _ _ => true⟩
  IsMineScript scriptPubKey := scriptPubKey == CScript.SetDestination (.CKeyID 5)
  HaveKey keyID := keyID == 5
  HaveCScript _ := false
  inAddressBook _ := false

end Scenario

/-- The second input is looked up without a test and read past the end. -/
theorem groupings_unknown_input :
    ¬∀ (run : GroupRun) (w : GroupWallet),
      ∃ ret, GetAddressGroupings run w = .ok ret ∧ IsComponents w.initialGroups ret := by
  intro h
  obtain ⟨ret, hrun, -⟩ := h (.standard Scenario.aboveAll) Scenario.jointWallet
  have hstop : GetAddressGroupings (.standard Scenario.aboveAll) Scenario.jointWallet =
      .error .outOfRange := by rfl
  cases hrun.symm.trans hstop

end Dions
