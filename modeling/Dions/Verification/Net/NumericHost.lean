import Dions.Model.Endpoint
import Dions.Verification.Wire.Base32

/-! # Numeric hosts

Numbers are printed and read in a base, and addresses as numbers with a separator. This is what the
operating system promises of the texts of addresses; a resolver that writes all numbers out keeps the
promise. -/

namespace Dions

variable {c : UInt8}

/-! ## Numbers -/

section Numbers

variable {base n : ℕ}

theorem hexDigits_getD_mem {d : ℕ} (hd : d < base) (hbase : base ≤ 16) :
    hexDigits.getD d 0 ∈ hexDigits.take base := by
  have hlen : d < (hexDigits.take base).length := by
    rw [List.length_take]
    exact lt_min hd (hd.trans_le hbase)
  rw [List.getD_eq_getElem?_getD, ← List.getElem?_take_of_lt hd, List.getElem?_eq_getElem hlen]
  exact List.getElem_mem hlen

theorem mem_printNumber (hbase : 1 < base) (hle : base ≤ 16) {c : UInt8} (hc : c ∈ printNumber base n) :
    c ∈ hexDigits.take base := by
  rw [printNumber] at hc
  by_cases hn : n = 0
  · rw [if_pos hn, List.mem_singleton] at hc
    rw [hc]
    exact hexDigits_getD_mem (by omega : 0 < base) hle
  · rw [if_neg hn] at hc
    obtain ⟨d, hd, hchar⟩ := List.mem_map.mp hc
    rw [← hchar]
    exact hexDigits_getD_mem (Positional.digits_lt hbase d hd) hle

theorem foldl_printNumber (hbase : 1 < base) {digit : UInt8 → ℕ}
    (hdigit : ∀ d < base, digit (hexDigits.getD d 0) = d) :
    (printNumber base n).foldl (fun n c => base * n + digit c) 0 = n := by
  rw [printNumber]
  by_cases hn : n = 0
  · rw [if_pos hn, hn]
    have hzero := hdigit 0 (by omega)
    change base * 0 + digit (hexDigits.getD 0 0) = 0
    rw [hzero]
    rfl
  · have hvalue := Positional.value_digits base n
    rw [Positional.value, Nat.ofDigits_eq_foldr, List.foldr_reverse] at hvalue
    rw [if_neg hn, List.foldl_map]
    conv_rhs => rw [← hvalue]
    refine List.foldl_ext _ _ 0 fun a d hd => ?_
    rw [hdigit d (Positional.digits_lt hbase d hd), Nat.add_comm]
    rfl

theorem isdigit_decimal : ∀ c ∈ hexDigits.take 10, isdigit c = true := by decide +kernel

theorem printNumber_digit (hc : c ∈ printNumber 10 n) : isdigit c = true :=
  isdigit_decimal c (mem_printNumber (by decide) (by decide) hc)

theorem digit_spec (hc : isdigit c = true) : 48 ≤ c.toNat ∧ c.toNat ≤ 57 := by
  simp only [isdigit, Bool.and_eq_true, decide_eq_true_eq] at hc
  exact ⟨UInt8.le_iff_toNat_le.mp hc.1, UInt8.le_iff_toNat_le.mp hc.2⟩

theorem ne_of_digit {d : UInt8} (hc : isdigit c = true) (hd : isdigit d = false) : c ≠ d := by
  rintro rfl
  rw [hc] at hd
  exact absurd hd (by decide)

theorem digit_not_space (hc : isdigit c = true) : isspace c = false := by
  have hlow := (digit_spec hc).1
  have hspace : c ≠ 0x20 := ne_of_digit hc (by decide)
  have hlt : ¬c ≤ 0x0d := fun hle => by
    have := UInt8.le_iff_toNat_le.mp hle
    have hthirteen : (0x0d : UInt8).toNat = 13 := by decide
    omega
  simp [isspace, hspace, hlt]

def decimalValue (cs : List UInt8) : ℕ := cs.foldl (fun n c => 10 * n + (c.toNat - 0x30)) 0

theorem foldl_decimal (cs : List UInt8) (n : ℕ) :
    cs.foldl (fun n c => 10 * n + (c.toNat - 0x30)) n = n * 10 ^ cs.length + decimalValue cs := by
  induction cs generalizing n with
  | nil => simp [decimalValue]
  | cons c cs ih =>
    rw [decimalValue, List.foldl_cons, List.foldl_cons, ih, ih (10 * 0 + _), List.length_cons, pow_succ]
    ring

theorem decimalValue_append (cs ds : List UInt8) :
    decimalValue (cs ++ ds) = decimalValue cs * 10 ^ ds.length + decimalValue ds := by
  rw [decimalValue, List.foldl_append, foldl_decimal]
  rfl

theorem decimalValue_printNumber (n : ℕ) : decimalValue (printNumber 10 n) = n :=
  foldl_printNumber (by decide) (by decide)

theorem strtol_digits {cs : List UInt8} (h : ∀ c ∈ cs, isdigit c = true) :
    strtol cs = (min LONG_MAX (decimalValue cs : ℤ), []) := by
  have htake : cs.takeWhile isdigit = cs := List.takeWhile_eq_self_iff.mpr h
  have hdrop : cs.dropWhile isdigit = [] := List.dropWhile_eq_nil_iff.mpr h
  cases cs with
  | nil => decide
  | cons c rest =>
    have hc := h c List.mem_cons_self
    have hskip : (c :: rest).dropWhile isspace = c :: rest :=
      List.dropWhile_cons_of_neg (by rw [digit_not_space hc]; decide)
    have hminus : c ≠ '-'.toUInt8 := ne_of_digit hc (by decide)
    have hplus : c ≠ '+'.toUInt8 := ne_of_digit hc (by decide)
    have hneg : (some c == some '-'.toUInt8) = false := by simpa using hminus
    have hsign : ¬(some c = some '-'.toUInt8 ∨ some c = some '+'.toUInt8) := by simp [hminus, hplus]
    have hmax : max LONG_MIN (min LONG_MAX (decimalValue (c :: rest) : ℤ))
        = min LONG_MAX (decimalValue (c :: rest)) :=
      max_eq_right (le_min (by decide) (by rw [LONG_MIN]; omega))
    rw [strtol, hskip]
    simp only [List.head?_cons, hsign, if_false, htake, hdrop, hneg, Bool.false_eq_true, List.cons_ne_nil]
    rw [← hmax]
    rfl

theorem strtol_printNumber (hn : n < 2 ^ 63) : strtol (printNumber 10 n) = ((n : ℤ), []) := by
  rw [strtol_digits fun c => printNumber_digit, decimalValue_printNumber, min_eq_right (by rw [LONG_MAX]; omega)]

theorem int32_of_lt (hn : n < 2 ^ 31) : int32 (n : ℤ) = n := by
  refine Int.bmod_eq_of_le ?_ ?_ <;> omega

end Numbers

/-! ## Numeric texts -/

/-- Numeric texts of addresses are read back, as the system promises of them. -/
structure Resolver.Numeric (net : Resolver) : Prop where
  in4 : ∀ addr, ∃ name, net.getnameinfo (.in4 addr) = some name ∧
    (∀ c ∈ name, c ∈ '.'.toUInt8 :: hexDigits.take 10) ∧
    net.getaddrinfo false name = some [.in4 addr]
  in6 : ∀ addr, ∃ name, net.getnameinfo (.in6 addr) = some name ∧
    (∀ c ∈ name, c ∈ colon :: '.'.toUInt8 :: hexDigits) ∧
    net.getaddrinfo false name = some [.in6 addr]

/-! ## Numbers with a separator -/

theorem mem_intercalate {x : UInt8} {fields : List (List UInt8)} (hc : c ∈ [x].intercalate fields) :
    c = x ∨ ∃ field ∈ fields, c ∈ field := by
  induction fields with
  | nil => exact absurd hc List.not_mem_nil
  | cons field fields ih =>
    cases fields with
    | nil =>
      rw [List.intercalate_singleton] at hc
      exact .inr ⟨field, List.mem_cons_self, hc⟩
    | cons next fields =>
      rw [List.intercalate_cons_cons, List.append_assoc, List.mem_append, List.mem_append,
        List.mem_singleton] at hc
      rcases hc with hc | hc | hc
      · exact .inr ⟨field, List.mem_cons_self, hc⟩
      · exact .inl hc
      · rcases ih hc with hx | ⟨other, hother, hmem⟩
        · exact .inl hx
        · exact .inr ⟨other, List.mem_cons_of_mem field hother, hmem⟩

def readNumber (base : ℕ) (field : List UInt8) : ℕ :=
  field.foldl (fun n c => base * n + hexDigits.idxOf c) 0

theorem readNumber_printNumber {base : ℕ} (hbase : 1 < base) (hle : base ≤ 16) (n : ℕ) :
    readNumber base (printNumber base n) = n := by
  have hall : ∀ d : Fin 16, hexDigits.idxOf (hexDigits.getD d 0) = d.val := by decide
  exact foldl_printNumber hbase fun d hd => hall ⟨d, hd.trans_le hle⟩

/-- The numbers between the separators. -/
def readFields (base : ℕ) (x : UInt8) (name : List UInt8) : List ℕ := (name.splitOn x).map (readNumber base)

theorem readFields_intercalate {base : ℕ} {x : UInt8} {ns : List ℕ} (hbase : 1 < base) (hle : base ≤ 16)
    (hx : x ∉ hexDigits.take base) (hns : ns ≠ []) :
    readFields base x ([x].intercalate (ns.map (printNumber base))) = ns := by
  rw [readFields, List.splitOn_intercalate x _ (by simpa using hns), List.map_map]
  · refine (List.map_congr_left fun n _ => ?_).trans (List.map_id ns)
    exact readNumber_printNumber hbase hle n
  · intro field hfield hmem
    obtain ⟨n, -, rfl⟩ := List.mem_map.mp hfield
    exact hx (mem_printNumber hbase hle hmem)

def splitWords (ns : List ℕ) : List UInt8 := ns.flatMap fun n => [UInt8.ofNat (n / 256), UInt8.ofNat (n % 256)]

theorem splitWords_words (bytes : List UInt8) (heven : bytes.length % 2 = 0) :
    splitWords (CNetAddr.words bytes) = bytes := by
  induction bytes using CNetAddr.words.induct with
  | case1 b b' bytes ih =>
    have hb' := b'.toNat_lt
    have hword : b.toNat <<< 8 ||| b'.toNat = b.toNat * 256 + b'.toNat := shiftLeft_or_eq (k := 8) hb'
    have hhigh : (b.toNat * 256 + b'.toNat) / 256 = b.toNat := by omega
    have hlow : (b.toNat * 256 + b'.toNat) % 256 = b'.toNat := by omega
    rw [List.length_cons, List.length_cons] at heven
    have hrest := ih (by omega)
    rw [splitWords] at hrest
    rw [CNetAddr.words, splitWords, List.flatMap_cons, hrest, hword, hhigh, hlow, UInt8.ofNat_toNat,
      UInt8.ofNat_toNat]
    rfl
  | case2 bytes hshort =>
    cases bytes with
    | nil => rfl
    | cons b bytes =>
      cases bytes with
      | nil => cases heven
      | cons b' bytes => exact absurd rfl (hshort b b' bytes)

/-! ## A resolver -/

/-- All numbers are written out, and a text with as many numbers is read. -/
def plainHost : Resolver where
  getnameinfo
    | .in4 sin_addr => some (CNetAddr.dotted sin_addr.val)
    | .in6 sin6_addr => some (CNetAddr.coloned sin6_addr.val)
    | .other => none
  getaddrinfo _ name :=
    let bytes4 := (readFields 10 '.'.toUInt8 name).map UInt8.ofNat
    let bytes6 := splitWords (readFields 16 colon name)
    if h : bytes4.length = 4 then some [.in4 ⟨bytes4, h⟩]
    else if h : bytes6.length = 16 then some [.in6 ⟨bytes6, h⟩]
    else none

theorem plainHost_in4 (sin_addr : { bytes : List UInt8 // bytes.length = 4 }) :
    plainHost.getaddrinfo false (CNetAddr.dotted sin_addr.val) = some [.in4 sin_addr] := by
  obtain ⟨bytes, hlen⟩ := sin_addr
  have hfields : readFields 10 '.'.toUInt8 (CNetAddr.dotted bytes) = bytes.map UInt8.toNat := by
    have hread := @readFields_intercalate 10 '.'.toUInt8 (bytes.map UInt8.toNat) (by decide) (by decide)
      (by decide) (by rintro h; rw [List.map_eq_nil_iff.mp h] at hlen; cases hlen)
    rwa [List.map_map] at hread
  have hbytes : (readFields 10 '.'.toUInt8 (CNetAddr.dotted bytes)).map UInt8.ofNat = bytes := by
    rw [hfields, List.map_map]
    exact (List.map_congr_left fun b _ => UInt8.ofNat_toNat).trans (List.map_id bytes)
  dsimp only [plainHost]
  simp only [hbytes, hlen, dite_true]

theorem mem_coloned {bytes : List UInt8} (hc : c ∈ CNetAddr.coloned bytes) :
    c ∈ colon :: hexDigits := by
  rcases mem_intercalate hc with hcolon | ⟨field, hfield, hmem⟩
  · rw [hcolon]
    exact List.mem_cons_self
  · obtain ⟨n, -, rfl⟩ := List.mem_map.mp hfield
    exact List.mem_cons_of_mem colon (mem_printNumber (by decide) (by decide) hmem)

theorem plainHost_in6 (sin6_addr : { bytes : List UInt8 // bytes.length = 16 }) :
    plainHost.getaddrinfo false (CNetAddr.coloned sin6_addr.val) = some [.in6 sin6_addr] := by
  obtain ⟨bytes, hlen⟩ := sin6_addr
  have heven : bytes.length % 2 = 0 := by rw [hlen]
  have hbytes := splitWords_words bytes heven
  have hne : CNetAddr.words bytes ≠ [] := by
    intro hnil
    rw [hnil] at hbytes
    rw [← hbytes] at hlen
    cases hlen
  have hfields : splitWords (readFields 16 colon (CNetAddr.coloned bytes)) = bytes := by
    rw [CNetAddr.coloned, readFields_intercalate (by decide) (by decide) (by decide) hne, hbytes]
  have hdot : '.'.toUInt8 ∉ CNetAddr.coloned bytes := fun hmem => by
    have hnot : '.'.toUInt8 ∉ colon :: hexDigits := by decide
    exact hnot (mem_coloned hmem)
  have hsplit : (CNetAddr.coloned bytes).splitOn '.'.toUInt8 = [CNetAddr.coloned bytes] := by
    have hwhole := @List.splitOn_intercalate _ [CNetAddr.coloned bytes] _ _ '.'.toUInt8 (by simpa using hdot) (by simp)
    rwa [List.intercalate_singleton] at hwhole
  have hfour : ((readFields 10 '.'.toUInt8 (CNetAddr.coloned bytes)).map UInt8.ofNat).length = 4 ↔ False := by
    rw [readFields, hsplit]
    simp
  dsimp only [plainHost]
  simp only [hfour, hfields, hlen, dite_true, dite_false]

theorem plainHost_numeric : plainHost.Numeric where
  in4 addr := by
    refine ⟨CNetAddr.dotted addr.val, rfl, fun c hc => ?_, plainHost_in4 addr⟩
    rcases mem_intercalate hc with hdot | ⟨field, hfield, hmem⟩
    · rw [hdot]
      exact List.mem_cons_self
    · obtain ⟨b, -, rfl⟩ := List.mem_map.mp hfield
      exact List.mem_cons_of_mem _ (mem_printNumber (by decide) (by decide) hmem)
  in6 addr := by
    refine ⟨CNetAddr.coloned addr.val, rfl, fun c hc => ?_, plainHost_in6 addr⟩
    rcases List.mem_cons.mp (mem_coloned hc) with hcolon | hdigit
    · rw [hcolon]
      exact List.mem_cons_self
    · exact List.mem_cons_of_mem colon (List.mem_cons_of_mem _ hdigit)

end Dions
