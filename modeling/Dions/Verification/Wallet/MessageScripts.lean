import Dions.Model.Messaging
import Dions.Verification.Script.Signing
import Dions.Verification.Wire.Base32
import Dions.Verification.Wire.Base58

/-! # The parts of a message

The arguments of a paid output are read back as they were written, the ciphers undo what they did,
and behind a key there is one address. -/

namespace Dions

open Halting LittleEndian

variable {id : CKeyID}

/-! ## The transaction of a message -/

/-- The output is paid for, and the other outputs pay to keys. -/
structure PaidFor (scriptPubKey : CScript) (wtx : CTransaction) : Prop where
  version : wtx.nVersion = CTransaction.DION_TX_VERSION
  size : scriptPubKey.length < 2 ^ 32
  outputs : ∃ before after : List CTxOut, ∃ out : CTxOut, wtx.vout = before ++ out :: after ∧
    out.scriptPubKey = scriptPubKey ∧
      ∀ other ∈ before ++ after, ∃ hash160, other.scriptPubKey = SetBitcoinAddress hash160

structure Payer where
  SendMoney__ : CScript → Except String CTransaction
  paid : ∀ scriptPubKey wtx, SendMoney__ scriptPubKey = .ok wtx → PaidFor scriptPubKey wtx

theorem aliasScript_keyHash (hash160 : valtype) (op : Option ℕ) :
    aliasScript (SetBitcoinAddress hash160) op = ⟨false, op, [], 1⟩ := by
  have hfirst : (SetBitcoinAddress hash160).GetOp2 0 = ⟨true, 0x76, [], 1⟩ := rfl
  rw [aliasScript, hfirst]
  rfl

theorem aliasTxLoop_keyHashes {outs : List CTxOut} (rest : List CTxOut) (i : ℕ) (found : Bool)
    (op nOut : Option ℕ) (vvch : List vchType)
    (houts : ∀ out ∈ outs, ∃ hash160, out.scriptPubKey = SetBitcoinAddress hash160) :
    aliasTxLoop (outs ++ rest) i found op nOut vvch =
      aliasTxLoop rest (i + outs.length) found op nOut vvch := by
  induction outs generalizing i with
  | nil => rfl
  | cons out outs ih =>
    obtain ⟨⟨hash160, hout⟩, houts⟩ := List.forall_mem_cons.mp houts
    rw [List.cons_append, aliasTxLoop, hout, aliasScript_keyHash]
    simp only [Bool.false_eq_true, if_false]
    rw [ih (i + 1) houts, List.length_cons, Nat.add_assoc, Nat.add_comm 1]

section Paid

variable {op : ℕ} {drops : List ℕ} {a b third fourth : vchType} {vchSig : List UInt8}
    {hash160 : uint160} {wtx : CTransaction}

theorem aliasTx_paid (harity : aliasArity op 5 = true) (hne : drops ≠ [])
    (hdrops : ∀ d ∈ drops, isDrop d.toUInt8.toNat = true)
    (h : PaidFor (messageScript op drops a b third fourth vchSig hash160) wtx) :
    (aliasTx wtx).ret = true ∧ (aliasTx wtx).op = some op ∧
      (aliasTx wtx).vvch = [a, b, third, fourth, EncodeBase64 vchSig] := by
  obtain ⟨before, after, out, hvout, hout, hothers⟩ := h.outputs
  have hscript : messageScript op drops a b third fourth vchSig hash160 =
      aliasOutput op [a, b, third, fourth, EncodeBase64 vchSig] (drops.map Nat.toUInt8)
        (SetBitcoinAddress (toBytes 20 hash160)) := by
    simp only [messageScript, writePrefix, aliasOutput, List.append_assoc]
  have hlength := h.size
  rw [hscript] at hlength hout
  have hsizes : ([a, b, third, fourth, EncodeBase64 vchSig].flatMap pushVch).length +
      (drops.map Nat.toUInt8 ++ SetBitcoinAddress (toBytes 20 hash160)).length < 2 ^ 32 := by
    rw [aliasOutput, List.length_append, List.length_append] at hlength
    omega
  have hshort : ∀ x ∈ [a, b, third, fourth, EncodeBase64 vchSig], x.length < 2 ^ 32 := by
    intro x hx
    have hpart := List.sublist_flatten_of_mem (List.mem_map_of_mem (f := pushVch) hx)
    rw [← List.flatMap_def] at hpart
    have hle := hpart.length_le
    have hpush := length_lt_pushVch x
    omega
  have harity' : aliasArity op [a, b, third, fourth, EncodeBase64 vchSig].length = true := harity
  have hne' : drops.map Nat.toUInt8 ≠ [] := by simpa using hne
  have hdrops' : ∀ d ∈ drops.map Nat.toUInt8, isDrop d.toNat = true := by simpa using hdrops
  have hread := (aliasScript_output (R := SetBitcoinAddress (toBytes 20 hash160)) harity' hshort
    hne' hdrops' rfl none).1 (allCounted_of_short hsizes)
  have hbefore := fun other hother => hothers other (List.mem_append_left after hother)
  have hafter := fun other hother => hothers other (List.mem_append_right before hother)
  have hloop : aliasTx wtx =
      ⟨true, some op, some before.length, [a, b, third, fourth, EncodeBase64 vchSig]⟩ := by
    rw [aliasTx, hvout, aliasTxLoop_keyHashes _ 0 false none none [] hbefore, aliasTxLoop, hout,
      hread]
    simp only [if_true, Bool.false_eq_true, if_false, Nat.zero_add]
    have hend := aliasTxLoop_keyHashes [] (before.length + 1) true (some op) (some before.length)
      [a, b, third, fourth, EncodeBase64 vchSig] hafter
    rw [List.append_nil] at hend
    rw [hend]
    rfl
  rw [hloop]
  exact ⟨rfl, rfl, rfl⟩

theorem messageUpdate_paid (harity : aliasArity op 5 = true) (hne : drops ≠ [])
    (hdrops : ∀ d ∈ drops, isDrop d.toUInt8.toNat = true)
    (h : PaidFor (messageScript op drops a b third fourth vchSig hash160) wtx) :
    messageUpdate op wtx = .ok (some ⟨a, b, third, fourth, EncodeBase64 vchSig⟩) := by
  obtain ⟨hret, hop, hvvch⟩ := aliasTx_paid harity hne hdrops h
  rw [messageUpdate, if_neg (not_not.mpr h.version)]
  simp only [hret, hop, hvvch, true_and, if_true]
  rfl

end Paid

/-- A transaction carries one operation. -/
theorem messageUpdate_other {op op' : ℕ} {tx : CTransaction} {u : MessageUpdate}
    (h : messageUpdate op tx = .ok (some u)) (hop : op' ≠ op) :
    messageUpdate op' tx = .ok none := by
  unfold messageUpdate at h ⊢
  split at h
  · cases h
  · rename_i hversion
    rw [if_neg hversion]
    dsimp only at h ⊢
    split at h
    · rename_i ht
      rw [if_neg]
      intro ht'
      rw [ht.2] at ht'
      exact hop (Option.some.inj ht'.2).symm
    · cases h

/-! ## The ciphers -/

theorem c_str_EncodeBase64 (vch : List UInt8) : c_str (EncodeBase64 vch) = EncodeBase64 vch := by
  rw [c_str, List.takeWhile_eq_self_iff]
  intro c hc
  have hall : ∀ c ∈ encodeLoop64 0 0 vch, c ≠ 0 := ne_zero_of_mem_encodeLoop64 (by decide)
  simpa using hall c hc

/-- A pair of keys: what is encrypted with the public one is decrypted with the private one, as long
as it is no longer than the padding allows. -/
structure RSAPair (env : MessageEnv) extends RSAKey where
  decrypts : ∀ padding message, message.length ≤ 470 →
    ∃ encrypted, env.publicEncrypt codomainImage padding message = some encrypted ∧
      env.privateDecrypt domainImage encrypted = some message

/-- AES undoes what it did. -/
def MessageEnv.Decrypts (env : MessageEnv) : Prop :=
  ∀ key iv plaintext, key.length = 32 → iv.length = 16 →
    env.decrypt key iv (env.encrypt key iv plaintext) = some plaintext

theorem DecryptMessageAES_encrypted {env : MessageEnv} (haes : env.Decrypts)
    {key iv128 : List UInt8} (hkey : key.length = 32) (hiv : iv128.length = 16)
    (message : List UInt8) :
    DecryptMessageAES env (EncodeBase64 (env.encrypt key iv128 message)) key (EncodeBase64 iv128) =
      .ok message := by
  have htake : key.take 32 = key := List.take_of_length_le hkey.le
  have htake' : iv128.take 16 = iv128 := List.take_of_length_le hiv.le
  simp only [DecryptMessageAES, c_str_EncodeBase64, DecodeBase64_EncodeBase64, hkey, hiv, htake,
    htake', haes key iv128 message hkey hiv, lt_self_iff_false, or_self, if_false]

theorem length_EncodeBase64_key {key : List UInt8} (hkey : key.length = 32) :
    (EncodeBase64 key).length ≤ 470 ∧ EncodeBase64 key ≠ [] := by
  have hle := length_encodeLoop64_le 0 0 key
  constructor
  · rw [EncodeBase64]
    omega
  · intro hnil
    have hback := DecodeBase64_EncodeBase64 key
    rw [hnil] at hback
    have hempty : key = [] := (congrArg Prod.fst hback).symm
    rw [hempty] at hkey
    exact absurd hkey (by decide)

/-! ## Addresses -/

/-- The key that the text of an address refers to. -/
def idOf (env : MessageEnv) (a : vchType) : Option CKeyID :=
    cba.GetKeyID env (cba.ofString env.Hash a)

/-- The text is the one that the node shows for the address. -/
structure PlainAddress (env : MessageEnv) (a : vchType) : Prop where
  valid : cba.IsValid env.fTestNet (cba.ofString env.Hash a) = true
  shown : (cba.ofString env.Hash a).ToString env.Hash = a

section Plain

variable {env : MessageEnv} {a b : vchType}

theorem PlainAddress.checkAddress_eq (ha : PlainAddress env a) (ln1Db : AliasDb) :
    checkAddress env ln1Db a = some (cba.ofString env.Hash a) := by
  rw [checkAddress, if_pos ha.valid]

theorem GetKeyID_some {x : CBase58Data} (h : cba.GetKeyID env x = some id) :
    x.nVersion = (if env.fTestNet then cba.PUBKEY_ADDRESS_TEST else cba.PUBKEY_ADDRESS) ∧
      x.vchData.length = 20 ∧ uint160OfVch x.vchData = id := by
  unfold cba.GetKeyID cba.Get at h
  by_cases hvalid : cba.IsValid env.fTestNet x = true
  · rw [if_neg (by simpa using hvalid)] at h
    by_cases hkey : x.nVersion = cba.PUBKEY_ADDRESS ∨ x.nVersion = cba.PUBKEY_ADDRESS_TEST
    · rw [if_pos hkey] at h
      have hid := Option.some.inj h
      unfold cba.IsValid at hvalid
      rcases hkey with hkey | hkey
      · simp only [hkey, true_or, if_true, Bool.and_eq_true, decide_eq_true_eq] at hvalid
        rw [hkey, ← hvalid.1]
        exact ⟨rfl, hvalid.2, hid⟩
      · have hmain : ¬(x.nVersion = cba.PUBKEY_ADDRESS ∨ x.nVersion = cba.SCRIPT_ADDRESS) := by
          rw [hkey]
          decide
        rw [if_neg hmain] at hvalid
        simp only [hkey, true_or, if_true, Bool.and_eq_true, decide_eq_true_eq] at hvalid
        rw [hkey, ← hvalid.1]
        exact ⟨rfl, hvalid.2, hid⟩
    · rw [if_neg hkey] at h
      split at h
      · rename_i hscript
        split at hscript
        · cases hscript
        · cases hscript
      · cases h
  · rw [if_pos (by simpa using hvalid)] at h
    cases h

/-- Behind a key there is one plain address. -/
theorem PlainAddress.eq_of_idOf (ha : PlainAddress env a) (hb : PlainAddress env b) {id : CKeyID}
    (hida : idOf env a = some id) (hidb : idOf env b = some id) : a = b := by
  obtain ⟨hversion, hlength, hid⟩ := GetKeyID_some hida
  obtain ⟨hversion', hlength', hid'⟩ := GetKeyID_some hidb
  have hdata : cba.ofString env.Hash a = cba.ofString env.Hash b := by
    have hbytes := uint160OfVch_injective hlength hlength' (hid.trans hid'.symm)
    generalize cba.ofString env.Hash a = x at hversion hbytes
    generalize cba.ofString env.Hash b = y at hversion' hbytes
    cases x
    cases y
    exact congrArg₂ CBase58Data.mk (hversion.trans hversion'.symm) hbytes
  rw [← ha.shown, ← hb.shown, hdata]

variable (env) in
def keyAddress (id : CKeyID) : vchType :=
    (cba.ofDestination env.fTestNet (.CKeyID id)).ToString env.Hash

theorem ofString_keyAddress (id : CKeyID) :
    cba.ofString env.Hash (keyAddress env id) = cba.ofDestination env.fTestNet (.CKeyID id) := by
  rw [cba.ofString, keyAddress, SetString_ToString]

theorem idOf_keyAddress (h : id < 2 ^ 160) : idOf env (keyAddress env id) = some id := by
  rw [idOf, ofString_keyAddress, cba.GetKeyID,
    cba.Get_ofDestination env.fTestNet (d := .CKeyID id) h]

theorem plainAddress_keyAddress (h : id < 2 ^ 160) :
    PlainAddress env (keyAddress env id) where
  valid := by
    rw [ofString_keyAddress]
    have hget := cba.Get_ofDestination env.fTestNet (d := .CKeyID id) h
    unfold cba.Get at hget
    by_contra hinvalid
    rw [if_pos (by simpa using hinvalid)] at hget
    cases hget
  shown := by rw [ofString_keyAddress, keyAddress]

end Plain

end Dions
