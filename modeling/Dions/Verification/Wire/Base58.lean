import Dions.Library.Positional
import Dions.Model.Base58
import Dions.Verification.Script.Standard

/-! # Addresses in base 58

The coder carries bytes from base 256 into base 58. What the decoder reads is what the coder writes,
with white space around it. -/

namespace Dions

open LittleEndian

variable {ds : List ℕ}
variable {psz str vch : List UInt8} {n : ℕ}

/-! ## Characters -/

def base58Char (digit : ℕ) : UInt8 := pszBase58.getD digit 0

theorem idxOf_base58Char : ∀ digit < 58, pszBase58.idxOf? (base58Char digit) = some digit := by
  decide

theorem isspace_base58Char : ∀ digit < 58, isspace (base58Char digit) = false := by
  decide

theorem base58Char_ne_zero : ∀ digit < 58, base58Char digit ≠ 0 := by
  decide

theorem base58Char_eq_first : ∀ digit < 58, base58Char digit = base58Char 0 ↔ digit = 0 := by
  decide

theorem length_pszBase58 : pszBase58.length = 58 := by decide

theorem base58Char_of_idxOf {c : UInt8} {digit : ℕ} (h : pszBase58.idxOf? c = some digit) :
    digit < 58 ∧ base58Char digit = c := by
  obtain ⟨hlt, hchar, -⟩ := List.idxOf?_eq_some_iff.mp h
  refine ⟨length_pszBase58 ▸ hlt, ?_⟩
  rw [base58Char, List.getD_eq_getElem _ _ hlt, hchar]

theorem exists_base58Char (h : ∀ c ∈ str, c ∈ pszBase58) :
    ∃ ds : List ℕ, (∀ digit ∈ ds, digit < 58) ∧ str = ds.map base58Char := by
  induction str with
  | nil => exact ⟨[], List.forall_mem_nil _, rfl⟩
  | cons c str ih =>
    rw [List.forall_mem_cons] at h
    obtain ⟨ds, hds, hstr⟩ := ih h.2
    obtain ⟨digit, hlt, hdigit⟩ := List.getElem_of_mem h.1
    refine ⟨digit :: ds, List.forall_mem_cons.mpr ⟨length_pszBase58 ▸ hlt, hds⟩, ?_⟩
    rw [List.map_cons, base58Char, List.getD_eq_getElem _ _ hlt, hdigit, hstr]

def Blank (str : List UInt8) : Prop := ∀ c ∈ str, isspace c = true

theorem idxOf_of_isspace {c : UInt8} (h : isspace c = true) : pszBase58.idxOf? c = none := by
  cases hdigit : pszBase58.idxOf? c with
  | none => rfl
  | some digit =>
    obtain ⟨hlt, hchar⟩ := base58Char_of_idxOf hdigit
    rw [← hchar, isspace_base58Char digit hlt] at h
    cases h

theorem Blank.dropWhile (h : Blank str) : str.dropWhile isspace = [] :=
  List.dropWhile_eq_nil_iff.mpr h

/-! ## The number in the bytes -/

theorem ofBytes_eq_ofDigits (bs : List UInt8) :
    ofBytes bs = Nat.ofDigits 256 (bs.map UInt8.toNat) := by
  induction bs with
  | nil => rfl
  | cons b bs ih => rw [ofBytes, List.map_cons, Nat.ofDigits_cons, ih]

theorem setvch_positive (vch : List UInt8) :
    setvch (vch.reverse ++ [0]) = Positional.value 256 (vch.map UInt8.toNat) := by
  have hzero : ofBytes ([0] : List UInt8) = 0 := rfl
  rw [setvch, List.getLast?_concat]
  dsimp only
  rw [if_pos (by decide), BigEndian.ofBytes_append, hzero, Nat.mul_zero, Nat.add_zero,
    ofBytes_eq_ofDigits, Positional.value, List.map_reverse]

theorem toBytes_eq_digits {w : ℕ} (h : n < 256 ^ w) (hw : w = 0 ∨ 256 ^ (w - 1) ≤ n) :
    toBytes w n = (Nat.digits 256 n).map UInt8.ofNat := by
  induction w generalizing n with
  | zero =>
    have hzero : n = 0 := by
      rw [pow_zero] at h
      omega
    rw [hzero, Nat.digits_zero]
    rfl
  | succ w ih =>
    have hpos : 0 < n := Nat.lt_of_lt_of_le (by positivity) (hw.resolve_left (by omega))
    rw [Nat.digits_def' (by decide) hpos, toBytes, List.map_cons]
    congr 1
    refine ih ?_ ?_
    · rw [pow_succ] at h
      exact Nat.div_lt_of_lt_mul (by omega)
    · cases w with
      | zero => exact .inl rfl
      | succ w =>
        refine .inr ((Nat.le_div_iff_mul_le (by decide)).mpr ?_)
        have hle := hw.resolve_left (by omega)
        rw [Nat.add_sub_cancel, pow_succ] at hle
        exact hle

theorem trimSign_sign {front : List UInt8} {second : UInt8} (h : 0x80 ≤ second) :
    trimSign (front ++ [second] ++ [0]) = front ++ [second] := by
  have hreverse : (front ++ [second] ++ [0]).reverse = 0 :: second :: front.reverse := by
    rw [List.reverse_concat, List.reverse_concat]
  rw [trimSign, hreverse]
  exact (if_pos ⟨rfl, h⟩).trans List.dropLast_concat

theorem trimSign_of_ne {front : List UInt8} {last : UInt8} (h : last ≠ 0) :
    trimSign (front ++ [last]) = front ++ [last] := by
  rw [trimSign, List.reverse_concat]
  cases front.reverse with
  | nil => rfl
  | cons second rest => exact if_neg fun hsign => h hsign.1

/-- Without its sign byte a number has its digits in base 256. -/
theorem trimSign_getvch (n : ℕ) :
    trimSign (getvch n) = (Nat.digits 256 n).map UInt8.ofNat := by
  rcases Nat.eq_zero_or_pos n with hzero | hpos
  · rw [hzero]
    rfl
  · obtain ⟨w, hbytes, hlt, hlow⟩ := getvch_pos hpos
    have hpow : 0 < 256 ^ w := by positivity
    have htop : n / 256 ^ w < 128 := Nat.div_lt_of_lt_mul (by omega)
    rw [hbytes]
    by_cases hsign : n < 256 ^ w
    · -- the byte below the sign byte has its highest bit set, so the sign byte goes
      cases w with
      | zero => omega
      | succ w =>
        have hge : 128 * 256 ^ w ≤ n := hlow.resolve_left (by omega)
        have hw : 0 < 256 ^ w := by positivity
        have hsecond : 128 ≤ n / 256 ^ w := (Nat.le_div_iff_mul_le hw).mpr hge
        have hbound : n / 256 ^ w < 256 := Nat.div_lt_of_lt_mul (by rwa [← pow_succ])
        have hlast : UInt8.ofNat (n / 256 ^ (w + 1) % 256) = 0 := by
          rw [Nat.div_eq_of_lt hsign]
          rfl
        have hhigh : 0x80 ≤ UInt8.ofNat (n / 256 ^ w % 256) := by
          rw [UInt8.le_iff_toNat_le, UInt8.toNat_ofNat', Nat.mod_mod, Nat.mod_eq_of_lt hbound]
          exact hsecond
        have htrim : trimSign (toBytes (w + 1 + 1) n) = toBytes (w + 1) n := by
          rw [toBytes_snoc (w + 1), hlast, toBytes_snoc w, trimSign_sign hhigh]
        rw [htrim]
        exact toBytes_eq_digits hsign (.inr (by rw [Nat.add_sub_cancel]; omega))
    · have hlast : UInt8.ofNat (n / 256 ^ w % 256) ≠ 0 := by
        intro hzero
        have hnat := congrArg UInt8.toNat hzero
        have hge : 1 ≤ n / 256 ^ w := (Nat.le_div_iff_mul_le hpow).mpr (by omega)
        rw [UInt8.toNat_ofNat', Nat.mod_mod, Nat.mod_eq_of_lt (by omega), UInt8.toNat_zero] at hnat
        omega
      have htrim : trimSign (toBytes (w + 1) n) = toBytes (w + 1) n := by
        rw [toBytes_snoc, trimSign_of_ne hlast]
      rw [htrim]
      exact toBytes_eq_digits (by rw [pow_succ]; omega) (.inr (by rw [Nat.add_sub_cancel]; omega))

/-! ## Bytes as digits -/

def byteDigits (vch : List UInt8) : List ℕ := vch.map UInt8.toNat

theorem byteDigits_lt (vch : List UInt8) : ∀ digit ∈ byteDigits vch, digit < 256 := by
  intro digit hdigit
  obtain ⟨b, -, rfl⟩ := List.mem_map.mp hdigit
  exact b.toNat_lt

theorem map_ofNat_byteDigits (vch : List UInt8) : (byteDigits vch).map UInt8.ofNat = vch := by
  rw [byteDigits, List.map_map]
  exact List.map_id'' (fun b => UInt8.ofNat_toNat) vch

theorem byteDigits_map_ofNat (h : ∀ digit ∈ ds, digit < 256) :
    byteDigits (ds.map UInt8.ofNat) = ds := by
  rw [byteDigits, List.map_map]
  refine (List.map_congr_left fun digit hdigit => ?_).trans (List.map_id ds)
  exact (UInt8.toNat_ofNat').trans (Nat.mod_eq_of_lt (h digit hdigit))

/-! ## The coder -/

theorem base58Loop_eq {fuel : ℕ} (h : n ≤ fuel) :
    base58Loop fuel n = (Nat.digits 58 n).map base58Char := by
  induction fuel generalizing n with
  | zero =>
    rw [Nat.le_zero.mp h, Nat.digits_zero]
    rfl
  | succ fuel ih =>
    rw [base58Loop]
    split
    next hpos =>
      have hsmaller : n / 58 ≤ fuel := by omega
      rw [Nat.digits_def' (by decide) hpos, List.map_cons, ih hsmaller]
      rfl
    next hzero =>
      rw [Nat.eq_zero_of_not_pos hzero, Nat.digits_zero]
      rfl

/-- The coder carries the bytes into base 58. -/
theorem EncodeBase58_eq (vch : List UInt8) :
    EncodeBase58 vch = (Positional.transcode 256 58 (byteDigits vch)).map base58Char := by
  have hzeros : (vch.takeWhile (· = 0)).length = Positional.zeros (byteDigits vch) := by
    rw [Positional.zeros, byteDigits, List.takeWhile_map, List.length_map]
    congr 2
    funext b
    exact decide_eq_decide.mpr UInt8.toNat_inj.symm
  rw [EncodeBase58, setvch_positive, Int.toNat_natCast]
  rw [base58Loop_eq le_rfl, hzeros, List.reverse_append, List.reverse_replicate,
    Positional.transcode, List.map_append, List.map_replicate, Positional.digits, List.map_reverse]
  rfl

/-! ## The decoder -/

theorem digitsLoop_map (hds : ∀ digit ∈ ds, digit < 58) {r : List UInt8} (hr : Blank r)
    (before : List ℕ) :
    digitsLoop (ds.map base58Char ++ r) (Positional.value 58 before) =
      some (Positional.value 58 (before ++ ds)) := by
  induction ds generalizing before with
  | nil =>
    rw [List.map_nil, List.nil_append, List.append_nil]
    cases r with
    | nil => rfl
    | cons c r =>
      rw [digitsLoop, idxOf_of_isspace (hr c (List.mem_cons_self ..))]
      dsimp only
      rw [if_pos hr.dropWhile]
  | cons digit ds ih =>
    rw [List.forall_mem_cons] at hds
    rw [List.map_cons, List.cons_append, digitsLoop, idxOf_base58Char digit hds.1]
    dsimp only
    rw [← Positional.value_snoc, ih hds.2, List.append_assoc]
    rfl

theorem exists_of_digitsLoop {p : List UInt8} {bn : ℕ} (h : digitsLoop p bn = some n) :
    ∃ (ds : List ℕ) (r : List UInt8), (∀ digit ∈ ds, digit < 58) ∧ Blank r ∧
      p = ds.map base58Char ++ r := by
  induction p generalizing bn with
  | nil => exact ⟨[], [], List.forall_mem_nil _, List.forall_mem_nil _, rfl⟩
  | cons c p ih =>
    rw [digitsLoop] at h
    cases hdigit : pszBase58.idxOf? c with
    | none =>
      rw [hdigit] at h
      dsimp only at h
      by_cases hblank : (c :: p).dropWhile isspace = []
      · exact ⟨[], c :: p, List.forall_mem_nil _, List.dropWhile_eq_nil_iff.mp hblank, rfl⟩
      · rw [if_neg hblank] at h
        cases h
    | some digit =>
      rw [hdigit] at h
      obtain ⟨ds, r, hds, hr, hp⟩ := ih h
      obtain ⟨hlt, hchar⟩ := base58Char_of_idxOf hdigit
      refine ⟨digit :: ds, r, List.forall_mem_cons.mpr ⟨hlt, hds⟩, hr, ?_⟩
      rw [List.map_cons, List.cons_append, hchar, ← hp]

/-- The characters in front that stand for zero. -/
theorem ones_eq_zeros (hds : ∀ digit ∈ ds, digit < 58) {r : List UInt8} (hr : Blank r) :
    ((ds.map base58Char ++ r).takeWhile (· = pszBase58.getD 0 0)).length =
      Positional.zeros ds := by
  induction ds with
  | nil =>
    cases r with
    | nil => rfl
    | cons c r =>
      have hne : c ≠ pszBase58.getD 0 0 := by
        intro heq
        have hspace := hr c (List.mem_cons_self ..)
        rw [heq] at hspace
        exact absurd hspace (by decide)
      rw [List.map_nil, List.nil_append, List.takeWhile_cons, if_neg (by simpa using hne)]
      rfl
  | cons digit ds ih =>
    rw [List.forall_mem_cons] at hds
    have hfirst : base58Char digit = pszBase58.getD 0 0 ↔ digit = 0 :=
      base58Char_eq_first digit hds.1
    rw [Positional.zeros, List.map_cons, List.cons_append, List.takeWhile_cons, List.takeWhile_cons]
    by_cases hzero : digit = 0
    · rw [if_pos (decide_eq_true (hfirst.mpr hzero)), if_pos (decide_eq_true hzero),
        List.length_cons, List.length_cons, ih hds.2, Positional.zeros]
    · have hne : decide (base58Char digit = pszBase58.getD 0 0) ≠ true :=
        fun h => hzero (hfirst.mp (of_decide_eq_true h))
      have hne' : decide (digit = 0) ≠ true := fun h => hzero (of_decide_eq_true h)
      rw [if_neg hne, if_neg hne']
      rfl

/-- White space in front is skipped, and behind nothing as well. -/
theorem dropWhile_isspace (hds : ∀ digit ∈ ds, digit < 58) {l r : List UInt8} (hl : Blank l)
    (hr : Blank r) :
    ∃ r', Blank r' ∧ (l ++ ds.map base58Char ++ r).dropWhile isspace =
      ds.map base58Char ++ r' := by
  rw [List.append_assoc, List.dropWhile_append_of_pos hl]
  cases ds with
  | nil => exact ⟨[], List.forall_mem_nil _, hr.dropWhile⟩
  | cons digit ds =>
    refine ⟨r, hr, ?_⟩
    have hdigit := isspace_base58Char digit (hds digit (List.mem_cons_self ..))
    rw [List.map_cons, List.cons_append, List.dropWhile_cons_of_neg]
    rw [hdigit]
    exact Bool.false_ne_true

/-- The decoder carries the digits into base 256, whatever white space is around them. -/
theorem DecodeBase58_map {ds : List ℕ} (hds : ∀ digit ∈ ds, digit < 58) {l r : List UInt8}
    (hl : Blank l) (hr : Blank r) :
    DecodeBase58 (l ++ ds.map base58Char ++ r) =
      some ((Positional.transcode 58 256 ds).map UInt8.ofNat) := by
  obtain ⟨r', hr', hskip⟩ := dropWhile_isspace hds hl hr
  have hloop : digitsLoop (ds.map base58Char ++ r') 0 = some (Positional.value 58 ds) :=
    digitsLoop_map hds hr' []
  rw [DecodeBase58, hskip]
  dsimp only
  rw [hloop]
  dsimp only
  rw [ones_eq_zeros hds hr', trimSign_getvch, ← List.map_reverse, Positional.transcode,
    List.map_append, List.map_replicate, Positional.digits]
  rfl

/-- What the decoder reads is what the coder writes, with white space around it. -/
theorem DecodeBase58_iff :
    DecodeBase58 psz = some vch ↔
      ∃ l r, Blank l ∧ Blank r ∧ psz = l ++ EncodeBase58 vch ++ r := by
  constructor
  · intro h
    obtain ⟨ds, r, hds, hr, hpsz⟩ : ∃ (ds : List ℕ) (r : List UInt8),
        (∀ digit ∈ ds, digit < 58) ∧ Blank r ∧
          psz.dropWhile isspace = ds.map base58Char ++ r := by
      rw [DecodeBase58] at h
      dsimp only at h
      cases hloop : digitsLoop (psz.dropWhile isspace) 0 with
      | none =>
        rw [hloop] at h
        cases h
      | some bn => exact exists_of_digitsLoop hloop
    have hl : Blank (psz.takeWhile isspace) := fun c hc => List.mem_takeWhile_imp hc
    have hsplit : psz = psz.takeWhile isspace ++ ds.map base58Char ++ r := by
      rw [List.append_assoc, ← hpsz, List.takeWhile_append_dropWhile]
    refine ⟨psz.takeWhile isspace, r, hl, hr, ?_⟩
    rw [hsplit, DecodeBase58_map hds hl hr] at h
    have hback : EncodeBase58 vch = ds.map base58Char := by
      rw [← Option.some.inj h, EncodeBase58_eq,
        byteDigits_map_ofNat (Positional.transcode_lt (by decide)),
        Positional.transcode_transcode (by decide) (by decide) hds]
    rw [hback]
    exact hsplit
  · rintro ⟨l, r, hl, hr, rfl⟩
    rw [EncodeBase58_eq, DecodeBase58_map (Positional.transcode_lt (by decide)) hl hr,
      Positional.transcode_transcode (by decide) (by decide) (byteDigits_lt vch),
      map_ofNat_byteDigits]

theorem DecodeBase58_EncodeBase58 (vch : List UInt8) :
    DecodeBase58 (EncodeBase58 vch) = some vch := by
  refine DecodeBase58_iff.mpr ⟨[], [], List.forall_mem_nil _, List.forall_mem_nil _, ?_⟩
  rw [List.nil_append, List.append_nil]

theorem EncodeBase58_DecodeBase58 (h : ∀ c ∈ str, c ∈ pszBase58) :
    ∃ vch, DecodeBase58 str = some vch ∧ EncodeBase58 vch = str := by
  obtain ⟨ds, hds, rfl⟩ := exists_base58Char h
  have hdecode := @DecodeBase58_map ds hds [] [] (List.forall_mem_nil _) (List.forall_mem_nil _)
  rw [List.nil_append, List.append_nil] at hdecode
  refine ⟨_, hdecode, ?_⟩
  rw [EncodeBase58_eq, byteDigits_map_ofNat (Positional.transcode_lt (by decide)),
    Positional.transcode_transcode (by decide) (by decide) hds]

/-! ## With a check -/

section Check

variable {Hash : List UInt8 → uint256}

@[simp] theorem length_checkBytes (vch : List UInt8) : (checkBytes Hash vch).length = 4 := by
  rw [checkBytes, List.length_take, length_toBytes]
  rfl

theorem DecodeBase58Check_eq_some :
    DecodeBase58Check Hash psz = some vch ↔
      DecodeBase58 psz = some (vch ++ checkBytes Hash vch) := by
  rw [DecodeBase58Check]
  cases hdecode : DecodeBase58 psz with
  | none => exact iff_of_false (by simp) (by simp)
  | some vchRet =>
    dsimp only
    constructor
    · intro h
      split at h
      next => cases h
      next hlong =>
        split at h
        next hcheck =>
          rw [← Option.some.inj h, hcheck, List.take_append_drop]
        next => cases h
    · intro h
      have hlength : vchRet.length = vch.length + 4 := by
        rw [Option.some.inj h, List.length_append, length_checkBytes]
      rw [if_neg (by omega), hlength, Nat.add_sub_cancel, Option.some.inj h, List.take_left,
        List.drop_left, if_pos rfl]

/-- What is accepted is what is written, with white space around it. -/
theorem DecodeBase58Check_iff :
    DecodeBase58Check Hash psz = some vch ↔
      ∃ l r, Blank l ∧ Blank r ∧ psz = l ++ EncodeBase58Check Hash vch ++ r :=
  DecodeBase58Check_eq_some.trans DecodeBase58_iff

theorem c_str_EncodeBase58 (vch : List UInt8) : c_str (EncodeBase58 vch) = EncodeBase58 vch := by
  refine List.takeWhile_eq_self_iff.mpr fun c hc => ?_
  rw [EncodeBase58_eq] at hc
  obtain ⟨digit, hdigit, rfl⟩ := List.mem_map.mp hc
  exact decide_eq_true (base58Char_ne_zero digit (Positional.transcode_lt (by decide) digit hdigit))

theorem c_str_EncodeBase58Check (vch : List UInt8) :
    c_str (EncodeBase58Check Hash vch) = EncodeBase58Check Hash vch :=
  c_str_EncodeBase58 _

theorem SetString_ToString (data : CBase58Data) :
    CBase58Data.SetString Hash (c_str (data.ToString Hash)) = data := by
  have hdecode : DecodeBase58Check Hash (c_str (data.ToString Hash)) =
      some (data.nVersion :: data.vchData) := by
    rw [CBase58Data.ToString, c_str_EncodeBase58Check]
    exact DecodeBase58Check_eq_some.mpr (DecodeBase58_EncodeBase58 _)
  rw [CBase58Data.SetString, hdecode]
  rfl

end Check

/-! ## Addresses -/

/-- A key or a script is named by 20 bytes. -/
def CTxDestination.Sized : CTxDestination → Prop
  | .CKeyID id | .CScriptID id => id < 2 ^ 160
  | .CNoDestination => True

theorem cba.Get_ofDestination (fTestNet : Bool) {d : CTxDestination} (h : d.Sized) :
    cba.Get fTestNet (cba.ofDestination fTestNet d) = d := by
  cases d with
  | CNoDestination => rfl
  | CKeyID id | CScriptID id =>
    have hlength := length_toBytes 20 id
    have hid := uint160OfVch_toBytes h
    cases fTestNet with
    | false | true =>
      simp [cba.ofDestination, cba.Get, cba.IsValid, cba.PUBKEY_ADDRESS, cba.SCRIPT_ADDRESS,
        cba.PUBKEY_ADDRESS_TEST, cba.SCRIPT_ADDRESS_TEST, hlength, hid]

/-- Bytes and characters, data with a check and addresses: what is written is read back, and nothing
else is read up to white space and to what a zero byte cuts off. -/
theorem base58_roundTrip (Hash : List UInt8 → uint256) (fTestNet : Bool) :
    (∀ vch, DecodeBase58 (EncodeBase58 vch) = some vch) ∧
    (∀ str : List UInt8, (∀ c ∈ str, c ∈ pszBase58) →
      ∃ vch, DecodeBase58 str = some vch ∧ EncodeBase58 vch = str) ∧
    (∀ str vch, DecodeBase58Check Hash (c_str str) = some vch ↔
      ∃ l r, Blank l ∧ Blank r ∧ c_str str = l ++ EncodeBase58Check Hash vch ++ r) ∧
    ∀ d : CTxDestination, d.Sized →
      cba.Get fTestNet (cba.ofString Hash ((cba.ofDestination fTestNet d).ToString Hash)) = d := by
  refine ⟨DecodeBase58_EncodeBase58, fun _ => EncodeBase58_DecodeBase58,
    fun _ _ => DecodeBase58Check_iff, ?_⟩
  intro d hd
  rw [cba.ofString, SetString_ToString, cba.Get_ofDestination fTestNet hd]

/-- The check of anything is four zero bytes. -/
def zeroHash (_ : List UInt8) : uint256 := 0

/-- Bytes behind two zeros, characters, data with a check between blanks, and an address. -/
theorem base58_roundTrip_zeros :
    DecodeBase58 (EncodeBase58 [0, 0, 0xff]) = some [0, 0, 0xff] ∧
    (∃ vch, DecodeBase58 [0x31, 0x7a] = some vch ∧ EncodeBase58 vch = [0x31, 0x7a]) ∧
    DecodeBase58Check zeroHash (c_str ([0x20] ++ EncodeBase58Check zeroHash [0x80] ++ [0x0a])) =
      some [0x80] ∧
    cba.Get false (cba.ofString zeroHash ((cba.ofDestination false (.CKeyID 5)).ToString zeroHash)) =
      .CKeyID 5 := by
  obtain ⟨hbytes, hchars, hcheck, haddress⟩ := base58_roundTrip zeroHash false
  have hone : ∀ c ∈ [(0x31 : UInt8), 0x7a], c ∈ pszBase58 :=
    List.forall_mem_cons.mpr ⟨by decide, List.forall_mem_singleton.mpr (by decide)⟩
  refine ⟨hbytes [0, 0, 0xff], hchars [0x31, 0x7a] hone, (hcheck _ _).mpr ?_,
    haddress (.CKeyID 5) (by norm_num [CTxDestination.Sized])⟩
  have hblank : ∀ c : UInt8, isspace c = true → Blank [c] := by
    intro c hc c' hmem
    rw [List.mem_singleton.mp hmem]
    exact hc
  exact ⟨[0x20], [0x0a], hblank _ (by decide), hblank _ (by decide), by decide⟩

/-- A zero byte and one more character behind a string with a check: it is accepted, although a string
with a check and white space around it has no zero byte. -/
theorem DecodeBase58Check_cuts :
    DecodeBase58Check zeroHash (c_str (EncodeBase58Check zeroHash [0] ++ [0, 0x31])) = some [0] ∧
      ¬ ∃ l r vch, Blank l ∧ Blank r ∧
        EncodeBase58Check zeroHash [0] ++ [0, 0x31] = l ++ EncodeBase58Check zeroHash vch ++ r := by
  refine ⟨by decide, ?_⟩
  rintro ⟨l, r, vch, hl, hr, heq⟩
  have hzero : (0 : UInt8) ∈ l ++ EncodeBase58Check zeroHash vch ++ r := by
    rw [← heq]
    exact List.mem_append_right _ (List.mem_cons_self ..)
  rcases List.mem_append.mp hzero with hzero | hzero
  · rcases List.mem_append.mp hzero with hzero | hzero
    · exact absurd (hl 0 hzero) (by decide)
    · rw [← c_str_EncodeBase58Check] at hzero
      exact absurd (List.mem_takeWhile_imp hzero) (by decide)
  · exact absurd (hr 0 hzero) (by decide)

end Dions
