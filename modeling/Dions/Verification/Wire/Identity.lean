import Dions.Verification.Wire.RoundTrip

/-! # What a serialization identifies

Also where a vector is longer than any reader accepts, the bytes of a transaction tell all of it but
the text of a version that has none, whatever is written behind them. -/

namespace Dions

open Codec

/-! ## The values the types hold -/

/-- A vector is as long as a `size_t` can tell. -/
def CTxIn.Typed (txin : CTxIn) : Prop :=
  txin.prevout.Fits ∧ txin.scriptSig.length < 2 ^ 64 ∧ txin.nSequence < 2 ^ 32

def CTxOut.Typed (txout : CTxOut) : Prop :=
  (-(2 ^ 63) ≤ txout.nValue ∧ txout.nValue < 2 ^ 63) ∧ txout.scriptPubKey.length < 2 ^ 64

instance (o : COutPoint) : Decidable o.Fits := inferInstanceAs (Decidable (_ ∧ _))

instance (txin : CTxIn) : Decidable txin.Typed := inferInstanceAs (Decidable (_ ∧ _ ∧ _))

instance (txout : CTxOut) : Decidable txout.Typed := inferInstanceAs (Decidable ((_ ∧ _) ∧ _))

structure CTransaction.Typed (tx : CTransaction) : Prop where
  nVersion : -(2 ^ 31) ≤ tx.nVersion ∧ tx.nVersion < 2 ^ 31
  nTime : tx.nTime < 2 ^ 32
  vin_length : tx.vin.length < 2 ^ 64
  vin : ∀ txin ∈ tx.vin, txin.Typed
  vout_length : tx.vout.length < 2 ^ 64
  vout : ∀ txout ∈ tx.vout, txout.Typed
  nLockTime : tx.nLockTime < 2 ^ 32
  strTxInfo : tx.strTxInfo.length < 2 ^ 64

def CTransaction.written (tx : CTransaction) : CTransaction :=
  { tx with strTxInfo := if VERSION_WITH_INFO ≤ tx.nVersion then tx.strTxInfo else [] }

theorem CTransaction.written_eq_iff (a b : CTransaction) :
    a.written = b.written ↔
      (a.nVersion = b.nVersion ∧ a.nTime = b.nTime ∧ a.vin = b.vin ∧ a.vout = b.vout ∧
        a.nLockTime = b.nLockTime) ∧ (VERSION_WITH_INFO ≤ a.nVersion → a.strTxInfo = b.strTxInfo) := by
  simp only [written, mk.injEq]
  constructor
  · rintro ⟨hversion, htime, hvin, hvout, hlock, hinfo⟩
    refine ⟨⟨hversion, htime, hvin, hvout, hlock⟩, fun h => ?_⟩
    rwa [if_pos h, if_pos (hversion ▸ h)] at hinfo
  · rintro ⟨⟨hversion, htime, hvin, hvout, hlock⟩, hinfo⟩
    refine ⟨hversion, htime, hvin, hvout, hlock, ?_⟩
    rw [← hversion]
    split
    · rename_i h
      exact hinfo h
    · rfl

/-! ## The parts -/

theorem WriteCompactSize_prefixFree : PrefixFree WriteCompactSize (· < 2 ^ 64) := by
  intro m n r s hm hn heq
  have hread := readSizeForm_WriteCompactSize m r hm
  rw [heq, readSizeForm_WriteCompactSize n s hn, Except.ok.injEq, Prod.mk.injEq] at hread
  exact ⟨hread.1.symm, hread.2.symm⟩

theorem wireVector_prefixFree {α : Type} {c : Wire α} {V : α → Prop}
    (h : PrefixFree c.serialize V) :
    PrefixFree (wireVector c).serialize (fun xs => xs.length < 2 ^ 64 ∧ ∀ x ∈ xs, V x) :=
  h.list WriteCompactSize_prefixFree

theorem wireBytes_prefixFree : PrefixFree wireBytes.serialize (fun bs => bs.length < 2 ^ 64) := by
  have hsymbol := (Codec.symbol (σ := UInt8) ReadFailure.endOfData).prefixFree
  exact (hsymbol.list WriteCompactSize_prefixFree).mono fun bs hbs => ⟨hbs, fun _ _ => trivial⟩

theorem CTxIn.serialize_prefixFree : PrefixFree CTxIn.wire.serialize CTxIn.Typed := by
  have hout : PrefixFree COutPoint.wire.serialize COutPoint.Fits :=
    COutPoint.wire.prefixFree.mono fun o ho => o.wire_valid.mpr ho
  have hnat : PrefixFree (wireUnsigned 4).serialize (· < 2 ^ 32) :=
    (wireUnsigned 4).prefixFree.mono fun n hn => (wireUnsigned_valid_four n).mpr hn
  have hfields := hout.seq fun _ _ => wireBytes_prefixFree.seq fun _ _ => hnat
  refine hfields.comap (f := fun txin : CTxIn => (txin.prevout, txin.scriptSig, txin.nSequence)) ?_
  rintro ⟨prevout, scriptSig, nSequence⟩ ⟨prevout', scriptSig', nSequence'⟩ heq
  simpa using heq

theorem CTxOut.serialize_prefixFree : PrefixFree CTxOut.wire.serialize CTxOut.Typed := by
  have hint : PrefixFree (wireSigned 8).serialize (fun n => -(2 ^ 63) ≤ n ∧ n < 2 ^ 63) :=
    (wireSigned 8).prefixFree.mono fun n hn => (int_valid_iff _ 7 n).mpr hn
  have hfields := hint.seq fun _ _ => wireBytes_prefixFree
  refine hfields.comap (f := fun txout : CTxOut => (txout.nValue, txout.scriptPubKey)) ?_
  rintro ⟨nValue, scriptPubKey⟩ ⟨nValue', scriptPubKey'⟩ heq
  simpa using heq

theorem wireInfo_prefixFree (nVersion : ℤ) :
    PrefixFree (if CTransaction.VERSION_WITH_INFO ≤ nVersion then wireBytes else Codec.const [] :
        Wire (List UInt8)).serialize
      (fun strTxInfo => strTxInfo.length < 2 ^ 64 ∧
        (nVersion < CTransaction.VERSION_WITH_INFO → strTxInfo = [])) := by
  by_cases h : CTransaction.VERSION_WITH_INFO ≤ nVersion
  · rw [if_pos h]
    exact wireBytes_prefixFree.mono fun _ => And.left
  · rw [if_neg h]
    intro x y r s hx hy heq
    rw [hx.2 (not_le.mp h), hy.2 (not_le.mp h)]
    exact ⟨rfl, heq⟩

/-! ## The transaction -/

namespace CTransaction

theorem serialize_prefixFree :
    PrefixFree CTransaction.wire.serialize (fun tx => tx.Typed ∧ tx.InfoFits) := by
  have hnat : PrefixFree (wireUnsigned 4).serialize (· < 2 ^ 32) :=
    (wireUnsigned 4).prefixFree.mono fun n hn => (wireUnsigned_valid_four n).mpr hn
  have hint : PrefixFree (wireSigned 4).serialize (fun n => -(2 ^ 31) ≤ n ∧ n < 2 ^ 31) :=
    (wireSigned 4).prefixFree.mono fun n hn => (int_valid_iff _ 3 n).mpr hn
  have hvin := wireVector_prefixFree CTxIn.serialize_prefixFree
  have hvout := wireVector_prefixFree CTxOut.serialize_prefixFree
  have hfields := hint.seq fun nVersion _ => hnat.seq fun _ _ => hvin.seq fun _ _ =>
    hvout.seq fun _ _ => hnat.seq fun _ _ => wireInfo_prefixFree nVersion
  have htx := hfields.comap (f := fun tx : CTransaction =>
    (tx.nVersion, tx.nTime, tx.vin, tx.vout, tx.nLockTime, tx.strTxInfo)) (by
      rintro ⟨_, _, _, _, _, _⟩ ⟨_, _, _, _, _, _⟩ heq
      simpa using heq)
  refine PrefixFree.mono htx ?_
  rintro tx ⟨h, hinfo⟩
  exact ⟨h.nVersion, h.nTime, ⟨h.vin_length, h.vin⟩, ⟨h.vout_length, h.vout⟩, h.nLockTime,
    h.strTxInfo, hinfo⟩

theorem serialize_written (tx : CTransaction) : wire.serialize tx.written = wire.serialize tx := by
  by_cases h : VERSION_WITH_INFO ≤ tx.nVersion
  · have hwritten : tx.written = tx := by
      rw [written, if_pos h]
    rw [hwritten]
  · have htail (info : List UInt8) : (if VERSION_WITH_INFO ≤ tx.nVersion then wireBytes
        else Codec.const [] : Wire (List UInt8)).serialize info = [] := by
      rw [if_neg h]
      rfl
    simp only [wire, record, image, seq, Equiv.coe_fn_symm_mk, written, htail]

theorem Typed.written {tx : CTransaction} (h : tx.Typed) :
    tx.written.Typed ∧ tx.written.InfoFits := by
  refine ⟨⟨h.nVersion, h.nTime, h.vin_length, h.vin, h.vout_length, h.vout, h.nLockTime, ?_⟩, ?_⟩
  · rw [CTransaction.written]
    dsimp only
    split
    · exact h.strTxInfo
    · simp
  · intro hversion
    exact if_neg (not_le.mpr hversion)

/-- Behind a transaction and in front of anything, the bytes tell what is written of it. -/
theorem serialize_append_inj {a b : CTransaction} {r s : List UInt8} (ha : a.Typed) (hb : b.Typed) :
    wire.serialize a ++ r = wire.serialize b ++ s ↔ a.written = b.written ∧ r = s := by
  constructor
  · intro heq
    rw [← serialize_written a, ← serialize_written b] at heq
    exact serialize_prefixFree a.written b.written r s ha.written hb.written heq
  · rintro ⟨hwritten, hrest⟩
    rw [← serialize_written a, hwritten, serialize_written b, hrest]

theorem serialize_inj {a b : CTransaction} (ha : a.Typed) (hb : b.Typed) :
    wire.serialize a = wire.serialize b ↔ a.written = b.written := by
  have h := serialize_append_inj (r := []) (s := []) ha hb
  simpa using h

end CTransaction

end Dions
