import Dions.Verification.Net.NumericHost

/-! # Endpoints survive their textual form

What `ToStringIPPort` writes is read back by `CService`, but for the addresses of I2P, which come back
with the prefix of Tor. -/

namespace Dions

variable {pch : List UInt8}
variable {c : UInt8}

/-! ## Splitting off the port -/

theorem idxOf?_append_cons {c : UInt8} {xs ys : List UInt8} (hc : c ∉ xs) :
    (xs ++ c :: ys).idxOf? c = some xs.length := by
  induction xs with
  | nil => simp [List.idxOf?_cons]
  | cons x xs ih =>
    obtain ⟨hne, hrest⟩ := List.ne_and_not_mem_of_not_mem_cons hc
    rw [List.cons_append, List.idxOf?_cons, if_neg (by simpa using Ne.symm hne), ih hrest]
    rfl

theorem findLast_append {front rest : List UInt8} (hc : c ∉ rest) :
    findLast c (front ++ c :: rest) = some front.length := by
  have hreverse : (front ++ c :: rest).reverse = rest.reverse ++ c :: front.reverse := by simp
  have hidx := @idxOf?_append_cons c rest.reverse front.reverse fun hmem => hc (List.mem_reverse.mp hmem)
  rw [findLast, hreverse, hidx, Option.map_some, List.length_append, List.length_cons, List.length_reverse]
  congr 1
  omega

theorem findLast_eq_none {s : List UInt8} (hc : c ∉ s) : findLast c s = none := by
  rw [findLast, List.idxOf?_eq_none_iff.mpr fun hmem => hc (List.mem_reverse.mp hmem), Option.map_none]

section Split

variable {front : List UInt8} {port : ℕ}

theorem numeric_chars :
    ∀ c ∈ '.'.toUInt8 :: hexDigits, c ≠ 0 ∧ c ≠ colon ∧ c ≠ openBracket ∧ c ≠ 'o'.toUInt8 := by
  decide +kernel

theorem ne_zero_of_mem_printNumber (hc : c ∈ printNumber 10 port) : c ≠ 0 ∧ c ≠ colon := by
  have hdigit : c ∈ hexDigits := List.mem_of_mem_take (mem_printNumber (by decide) (by decide) hc)
  have hplain := numeric_chars c (List.mem_cons_of_mem _ hdigit)
  exact ⟨hplain.1, hplain.2.1⟩

theorem c_str_eq_self {s : List UInt8} (hs : ∀ c ∈ s, c ≠ 0) : c_str s = s :=
  List.takeWhile_eq_self_iff.mpr fun c hc => decide_eq_true (hs c hc)

/-- A port is split off behind a host without a colon and behind one in brackets. -/
theorem SplitHostPort_append (hport : port < 2 ^ 16)
    (hfront : colon ∉ front ∨ ∃ host, front = openBracket :: host ++ [closeBracket]) :
    SplitHostPort (front ++ colon :: printNumber 10 port) 0 = ((port : ℤ), unbracket front) := by
  have hlast : findLast colon (front ++ colon :: printNumber 10 port) = some front.length :=
    findLast_append fun hmem => (ne_zero_of_mem_printNumber hmem).2 rfl
  have hdrop : (front ++ colon :: printNumber 10 port).drop (front.length + 1) = printNumber 10 port := by
    rw [List.drop_append, List.drop_eq_nil_of_le (Nat.le_succ _), Nat.add_sub_cancel_left]
    rfl
  have htake : (front ++ colon :: printNumber 10 port).take front.length = front := List.take_left
  have hstr : c_str (printNumber 10 port) = printNumber 10 port :=
    c_str_eq_self fun c hc => (ne_zero_of_mem_printNumber hc).1
  have hcond : front.length = 0 ∨
      ((front ++ colon :: printNumber 10 port).getD 0 0 == openBracket &&
        (front ++ colon :: printNumber 10 port).getD (front.length - 1) 0 == closeBracket) = true ∨
      (findLast colon (if front.length = 0 then front ++ colon :: printNumber 10 port else front)).isSome =
        false := by
    rcases hfront with hfree | ⟨host, rfl⟩
    · by_cases hempty : front.length = 0
      · exact .inl hempty
      · rw [if_neg hempty, findLast_eq_none hfree]
        exact .inr (.inr rfl)
    · refine .inr (.inl ?_)
      simp
  have hif : (if 0 < (port : ℤ) ∧ (port : ℤ) < 0x10000 then (port : ℤ) else 0) = port := by
    by_cases hzero : port = 0
    · rw [hzero]
      rfl
    · exact if_pos ⟨by omega, by omega⟩
  rw [SplitHostPort, hlast]
  dsimp only
  rw [hdrop, htake, if_pos hcond, hstr, strtol_printNumber (by omega)]
  dsimp only
  rw [int32_of_lt (by omega), if_pos ⟨rfl, Int.natCast_nonneg port⟩, hif]

theorem unbracket_bracketed (host : List UInt8) :
    unbracket (openBracket :: host ++ [closeBracket]) = host := by
  rw [unbracket, if_pos ⟨by simp, by simp, by simp⟩]
  simp

theorem unbracket_of_ne (h : openBracket ∉ front) : unbracket front = front := by
  refine if_neg ?_
  rintro ⟨hpos, hfirst, -⟩
  obtain ⟨c, rest, rfl⟩ := List.exists_cons_of_length_pos hpos
  rw [List.getD_cons_zero] at hfirst
  exact h (hfirst ▸ List.mem_cons_self)

end Split

/-! ## Special names -/

section Special

variable {vchAddr : List UInt8}

theorem special_chars : ∀ c ∈ (padChar :: pbase32) ++ CNetAddr.onionSuffix ++ CNetAddr.garliSuffix,
    c ≠ 0 ∧ c ≠ colon ∧ c ≠ openBracket := by
  decide +kernel

theorem mem_special {suffix : List UInt8} (hsuffix : suffix = CNetAddr.onionSuffix ∨ suffix = CNetAddr.garliSuffix)
    {c : UInt8} (hc : c ∈ EncodeBase32 vchAddr ++ suffix) : c ≠ 0 ∧ c ≠ colon ∧ c ≠ openBracket := by
  refine special_chars c ?_
  rw [List.append_assoc, List.mem_append, List.mem_append]
  rcases List.mem_append.mp hc with hc | hc
  · exact .inl (mem_EncodeBase32 hc)
  · rcases hsuffix with heq | heq
    · exact .inr (.inl (heq ▸ hc))
    · exact .inr (.inr (heq ▸ hc))

theorem decoded_special : (DecodeBase32 (c_str (EncodeBase32 vchAddr))).1 = vchAddr := by
  have hplain {c : UInt8} (hc : c ∈ EncodeBase32 vchAddr) : c ≠ 0 :=
    (mem_special (.inl rfl) (List.mem_append_left _ hc)).1
  rw [c_str_eq_self fun c hc => hplain hc, DecodeBase32_EncodeBase32]

theorem EncodeBase32_pos {addr : CNetAddr} (h : addr.ip = pchOnionCat ++ vchAddr) :
    0 < (EncodeBase32 vchAddr).length := by
  cases vchAddr with
  | nil =>
    have hip := addr.length_ip
    rw [h] at hip
    cases hip
  | cons b rest => exact Nat.succ_pos _

theorem drop_suffix (s suffix : List UInt8) : (s ++ suffix).drop ((s ++ suffix).length - suffix.length) = suffix := by
  rw [List.length_append, Nat.add_sub_cancel]
  exact List.drop_left

theorem take_suffix (s suffix : List UInt8) : (s ++ suffix).take ((s ++ suffix).length - suffix.length) = s := by
  rw [List.length_append, Nat.add_sub_cancel]
  exact List.take_left

theorem ofPrefix_eq (hpch : pch.length = 6) {addr : CNetAddr} (h : addr.ip = pch ++ vchAddr) :
    CNetAddr.ofPrefix pch hpch vchAddr = some addr := by
  have hlen : vchAddr.length = 10 := by
    have hip := addr.length_ip
    rw [h, List.length_append, hpch] at hip
    omega
  rw [CNetAddr.ofPrefix, dif_pos hlen]
  obtain ⟨ip, _⟩ := addr
  dsimp only at h
  subst h
  rfl

theorem SetSpecial_onion {addr : CNetAddr} (h : addr.ip = pchOnionCat ++ vchAddr) :
    CNetAddr.SetSpecial (EncodeBase32 vchAddr ++ CNetAddr.onionSuffix) = some addr := by
  have hpos := EncodeBase32_pos h
  have hdrop := drop_suffix (EncodeBase32 vchAddr) CNetAddr.onionSuffix
  have htake := take_suffix (EncodeBase32 vchAddr) CNetAddr.onionSuffix
  have hlen : CNetAddr.onionSuffix.length = 6 := rfl
  rw [hlen] at hdrop htake
  rw [CNetAddr.SetSpecial, if_pos ⟨by rw [List.length_append, hlen]; omega, hdrop⟩, htake, decoded_special]
  exact ofPrefix_eq rfl h

/-- The prefix of Tor is set for a name of I2P. -/
theorem SetSpecial_garli {addr : CNetAddr} (h : addr.ip = pchOnionCat ++ vchAddr) :
    CNetAddr.SetSpecial (EncodeBase32 vchAddr ++ CNetAddr.garliSuffix) = some addr := by
  have hpos := EncodeBase32_pos h
  have hdrop := drop_suffix (EncodeBase32 vchAddr) CNetAddr.garliSuffix
  have htake := take_suffix (EncodeBase32 vchAddr) CNetAddr.garliSuffix
  have hlen : CNetAddr.garliSuffix.length = 11 := rfl
  rw [hlen] at hdrop htake
  have hlast : (EncodeBase32 vchAddr ++ CNetAddr.garliSuffix).drop
      ((EncodeBase32 vchAddr ++ CNetAddr.garliSuffix).length - 6) = CNetAddr.garliSuffix.drop 5 := by
    have hrest : (EncodeBase32 vchAddr).length + 11 - 6 - (EncodeBase32 vchAddr).length = 5 := by omega
    rw [List.length_append, hlen, List.drop_append, List.drop_eq_nil_of_le (by omega), List.nil_append, hrest]
  have honion : ¬CNetAddr.garliSuffix.drop 5 = CNetAddr.onionSuffix := by decide
  rw [CNetAddr.SetSpecial, hlast, if_neg fun hand => honion hand.2,
    if_pos ⟨by rw [List.length_append, hlen]; omega, hdrop⟩, htake, decoded_special]
  exact ofPrefix_eq rfl h

/-- No name with the letter `o` at its place is a number. -/
theorem SetSpecial_eq_none {name : List UInt8} (h : 'o'.toUInt8 ∉ name) : CNetAddr.SetSpecial name = none := by
  have hends {n : ℕ} {suffix : List UInt8} (ho : 'o'.toUInt8 ∈ suffix) :
      ¬(n < name.length ∧ name.drop (name.length - n) = suffix) := by
    rintro ⟨-, hdrop⟩
    rw [← hdrop] at ho
    exact h (List.mem_of_mem_drop ho)
  rw [CNetAddr.SetSpecial, if_neg (hends (by decide)), if_neg (hends (by decide))]

end Special

/-! ## The four networks -/

section Networks

variable {net : Resolver} {addr : CNetAddr} {port : ℕ}

theorem ofString_append {front host : List UInt8} (hport : port < 2 ^ 16) (hzero : ∀ c ∈ front, c ≠ 0)
    (hfront : colon ∉ front ∨ front = openBracket :: host ++ [closeBracket]) (hhost : unbracket front = host)
    (hlookup : LookupIntern net (c_str host) 1 false = some [addr]) :
    CService.ofString net (front ++ colon :: printNumber 10 port) false = ⟨addr, port⟩ := by
  have hstr : c_str (front ++ colon :: printNumber 10 port) = front ++ colon :: printNumber 10 port := by
    refine c_str_eq_self fun c hc => ?_
    rcases List.mem_append.mp hc with hc | hc
    · exact hzero c hc
    · rcases List.mem_cons.mp hc with hc | hc
      · rw [hc]
        decide
      · exact (ne_zero_of_mem_printNumber hc).1
  have hsplit := SplitHostPort_append hport (hfront.imp_right fun heq => ⟨host, heq⟩)
  have hne : ¬front ++ colon :: printNumber 10 port = [] := by simp
  have hwrap : ((port : ℤ) % 2 ^ 16).toNat = port := by omega
  rw [CService.ofString, hstr, Lookup, LookupServices, if_neg hne, hsplit]
  dsimp only
  rw [hhost, hlookup]
  dsimp only [Option.map_some, List.map_cons, List.map_nil, Option.bind_some, List.head?_cons,
    Option.getD_some]
  rw [hwrap]
  rfl

theorem LookupIntern_special {host : List UInt8} (h : CNetAddr.SetSpecial host = some addr) :
    LookupIntern net host 1 false = some [addr] := by
  rw [LookupIntern, h]

theorem LookupIntern_numeric {name : List UInt8} {sockaddr : SockAddr} (hname : 'o'.toUInt8 ∉ name)
    (haddr : CNetAddr.ofSockAddr sockaddr = some addr)
    (h : net.getaddrinfo false name = some [sockaddr]) :
    LookupIntern net name 1 false = some [addr] := by
  have hsolutions : takeSolutions 1 [sockaddr] = [addr] := by
    rw [takeSolutions, List.filterMap_cons, haddr]
    rfl
  rw [LookupIntern, SetSpecial_eq_none hname, h]
  dsimp only
  rw [hsolutions]
  rfl

theorem ofPrefix_drop (hpch : pch.length = 6) (h : addr.startsWith pch = true) :
    addr.ip = pch ++ (addr.ip.drop 6).take 10 := by
  have htake : addr.ip.take 6 = pch := by
    rw [CNetAddr.startsWith, hpch] at h
    exact eq_of_beq h
  have hlen : (addr.ip.drop 6).length = 10 := by rw [List.length_drop, addr.length_ip]
  rw [List.take_of_length_le hlen.le]
  conv_lhs => rw [← List.take_append_drop 6 addr.ip, htake]

theorem take_two_of_startsWith (hlen : 2 ≤ pch.length) (h : addr.startsWith pch = true) :
    addr.ip.take 2 = pch.take 2 := by
  rw [CNetAddr.startsWith] at h
  rw [← eq_of_beq h, List.take_take, min_eq_left hlen]

/-- The prefixes differ in their first two bytes. -/
theorem startsWith_eq_false {pch' : List UInt8} (h : addr.startsWith pch = true)
    (hlen : 2 ≤ pch.length) (hlen' : 2 ≤ pch'.length) (hne : pch.take 2 ≠ pch'.take 2) :
    addr.startsWith pch' = false := by
  refine Bool.eq_false_iff.mpr fun h' => hne ?_
  rw [← take_two_of_startsWith hlen h, take_two_of_startsWith hlen' h']

theorem tor_roundTrip (htor : addr.IsTor = true) (hport : port < 2 ^ 16) :
    CService.ofString net ((⟨addr, port⟩ : CService).ToStringIPPort net) false = ⟨addr, port⟩ := by
  have hip := ofPrefix_drop rfl htor
  have hlookup := @LookupIntern_special net addr _ (SetSpecial_onion hip)
  have hchars {c : UInt8} := @mem_special ((addr.ip.drop 6).take 10) _ (.inl rfl) c
  have hIPPort : (⟨addr, port⟩ : CService).ToStringIPPort net =
      (EncodeBase32 ((addr.ip.drop 6).take 10) ++ CNetAddr.onionSuffix) ++ colon :: printNumber 10 port := by
    rw [CService.ToStringIPPort, if_pos (by simp [htor]), CNetAddr.ToStringIP, if_pos htor,
      CService.ToStringPort]
  rw [hIPPort]
  refine ofString_append hport (fun c hc => (hchars hc).1) (.inl fun hc => (hchars hc).2.1 rfl)
    (unbracket_of_ne fun hc => (hchars hc).2.2 rfl) ?_
  rwa [c_str_eq_self fun c hc => (hchars hc).1]

theorem i2p_changed (hi2p : addr.IsI2P = true) (hport : port < 2 ^ 16) :
    CService.ofString net ((⟨addr, port⟩ : CService).ToStringIPPort net) false ≠ ⟨addr, port⟩ := by
  have htor : addr.IsTor = false := startsWith_eq_false hi2p (by decide) (by decide) (by decide)
  have htail : ((addr.ip.drop 6).take 10).length = 10 := by
    rw [List.length_take, List.length_drop, addr.length_ip]
    rfl
  have hother : (pchOnionCat ++ (addr.ip.drop 6).take 10).length = 16 := by
    rw [List.length_append, htail]
    rfl
  have hlookup := @LookupIntern_special net _ _ (@SetSpecial_garli _ ⟨_, hother⟩ rfl)
  have hchars {c : UInt8} := @mem_special ((addr.ip.drop 6).take 10) _ (.inr rfl) c
  have hIPPort : (⟨addr, port⟩ : CService).ToStringIPPort net =
      (EncodeBase32 ((addr.ip.drop 6).take 10) ++ CNetAddr.garliSuffix) ++ colon :: printNumber 10 port := by
    rw [CService.ToStringIPPort, if_pos (by simp [hi2p]), CNetAddr.ToStringIP, if_neg (by simp [htor]),
      if_pos hi2p, CService.ToStringPort]
  rw [← c_str_eq_self fun c hc => (hchars hc).1] at hlookup
  rw [hIPPort, ofString_append hport (fun c hc => (hchars hc).1) (.inl fun hc => (hchars hc).2.1 rfl)
    (unbracket_of_ne fun hc => (hchars hc).2.2 rfl) hlookup]
  intro heq
  have haddr : addr = ⟨pchOnionCat ++ (addr.ip.drop 6).take 10, hother⟩ := (congrArg CService.toCNetAddr heq).symm
  have hagain : addr.IsTor = true := by
    rw [haddr]
    rfl
  rw [htor] at hagain
  cases hagain

theorem ipv4_roundTrip (hnet : net.Numeric) (hipv4 : addr.IsIPv4 = true) (hport : port < 2 ^ 16) :
    CService.ofString net ((⟨addr, port⟩ : CService).ToStringIPPort net) false = ⟨addr, port⟩ := by
  have htor : addr.IsTor = false := startsWith_eq_false hipv4 (by decide) (by decide) (by decide)
  have hi2p : addr.IsI2P = false := startsWith_eq_false hipv4 (by decide) (by decide) (by decide)
  have hlen : (addr.ip.drop 12).length = 4 := by rw [List.length_drop, addr.length_ip]
  obtain ⟨name, hname, hchars, hback⟩ := hnet.in4 ⟨addr.ip.drop 12, hlen⟩
  have hnot {c : UInt8} (hc : c ∈ name) : c ≠ 0 ∧ c ≠ colon ∧ c ≠ openBracket ∧ c ≠ 'o'.toUInt8 := by
    refine numeric_chars c ?_
    cases List.mem_cons.mp (hchars c hc) with
    | inl heq => exact heq ▸ List.mem_cons_self
    | inr hdigit => exact List.mem_cons_of_mem _ (List.mem_of_mem_take hdigit)
  have hstr : c_str name = name := c_str_eq_self fun c hc => (hnot hc).1
  have hip : CNetAddr.ofSockAddr (.in4 ⟨addr.ip.drop 12, hlen⟩) = some addr := by
    have htake : addr.ip.take 12 = pchIPv4 := eq_of_beq hipv4
    obtain ⟨ip, hip⟩ := addr
    dsimp only at htake
    rw [CNetAddr.ofSockAddr, Option.some.injEq, CNetAddr.mk.injEq, ← htake]
    exact List.take_append_drop 12 ip
  have hIPPort : (⟨addr, port⟩ : CService).ToStringIPPort net = name ++ colon :: printNumber 10 port := by
    rw [CService.ToStringIPPort, if_pos (by simp [hipv4]), CNetAddr.ToStringIP, if_neg (by simp [htor]),
      if_neg (by simp [hi2p]), CNetAddr.GetSockAddr, if_pos hipv4, Option.bind_some, hname,
      CService.ToStringPort]
    dsimp only
    rw [hstr]
  rw [hIPPort]
  refine ofString_append hport (fun c hc => (hnot hc).1) (.inl fun hc => (hnot hc).2.1 rfl)
    (unbracket_of_ne fun hc => (hnot hc).2.2.1 rfl) ?_
  rw [hstr]
  exact LookupIntern_numeric (fun hc => (hnot hc).2.2.2 rfl) hip hback

theorem ipv6_roundTrip (hnet : net.Numeric) (hipv6 : addr.IsIPv6 = true) (hport : port < 2 ^ 16) :
    CService.ofString net ((⟨addr, port⟩ : CService).ToStringIPPort net) false = ⟨addr, port⟩ := by
  obtain ⟨⟨hipv4, htor⟩, hi2p⟩ : (addr.IsIPv4 = false ∧ addr.IsTor = false) ∧ addr.IsI2P = false := by
    simpa [CNetAddr.IsIPv6] using hipv6
  obtain ⟨name, hname, hchars, hback⟩ := hnet.in6 ⟨addr.ip, addr.length_ip⟩
  have hnot {c : UInt8} (hc : c ∈ name) : c ≠ 0 ∧ c ≠ 'o'.toUInt8 := by
    cases List.mem_cons.mp (hchars c hc) with
    | inl heq => exact heq ▸ (by decide : colon ≠ 0 ∧ colon ≠ 'o'.toUInt8)
    | inr hplain => exact ⟨(numeric_chars c hplain).1, (numeric_chars c hplain).2.2.2⟩
  have hstr : c_str name = name := c_str_eq_self fun c hc => (hnot hc).1
  have hIPPort : (⟨addr, port⟩ : CService).ToStringIPPort net =
      (openBracket :: name ++ [closeBracket]) ++ colon :: printNumber 10 port := by
    rw [CService.ToStringIPPort, if_neg (by simp [hipv4, htor, hi2p]), CNetAddr.ToStringIP,
      if_neg (by simp [htor]), if_neg (by simp [hi2p]), CNetAddr.GetSockAddr, if_neg (by simp [hipv4]),
      if_pos hipv6, Option.bind_some, hname, CService.ToStringPort]
    dsimp only
    rw [hstr, List.append_assoc]
    rfl
  have hzero : ∀ c ∈ openBracket :: name ++ [closeBracket], c ≠ 0 := by
    have hbrackets : openBracket ≠ 0 ∧ closeBracket ≠ 0 := by decide
    intro c hc
    rw [List.cons_append, List.mem_cons, List.mem_append, List.mem_singleton] at hc
    rcases hc with hc | hc | hc
    · exact hc ▸ hbrackets.1
    · exact (hnot hc).1
    · exact hc ▸ hbrackets.2
  rw [hIPPort]
  refine ofString_append hport hzero (.inr rfl) (unbracket_bracketed name) ?_
  rw [hstr]
  exact LookupIntern_numeric (fun hc => (hnot hc).2 rfl) rfl hback

end Networks

theorem endpoints_survive {net : Resolver} (hnet : net.Numeric) :
    (∀ pch, DecodeBase32 (EncodeBase32 pch) = (pch, false)) ∧
      ∀ (addr : CNetAddr) (port : UInt16),
        CService.ofString net ((⟨addr, port.toNat⟩ : CService).ToStringIPPort net) false = ⟨addr, port.toNat⟩ ↔
          addr.IsI2P = false := by
  refine ⟨DecodeBase32_EncodeBase32, fun addr port => ?_⟩
  have hport := port.toNat_lt
  constructor
  · intro hback
    refine Bool.eq_false_iff.mpr fun hi2p => ?_
    exact i2p_changed hi2p hport hback
  · intro hi2p
    cases hipv4 : addr.IsIPv4 with
    | true => exact ipv4_roundTrip hnet hipv4 hport
    | false =>
      cases htor : addr.IsTor with
      | true => exact tor_roundTrip htor hport
      | false => exact ipv6_roundTrip hnet (by rw [CNetAddr.IsIPv6, hipv4, htor, hi2p]; rfl) hport

/-- `1.2.3.4:8333`, `[2001:db8:1:2:3:4:5:6]:8333` and an endpoint of Tor, and a text in base 32. -/
theorem endpoints_survive_networks :
    (∀ ip ∈ [pchIPv4 ++ [1, 2, 3, 4],
        [0x20, 1, 0x0d, 0xb8, 0, 1, 0, 2, 0, 3, 0, 4, 0, 5, 0, 6],
        pchOnionCat ++ [1, 2, 3, 4, 5, 6, 7, 8, 9, 10]], ∃ hip : ip.length = 16,
      CService.ofString plainHost ((⟨⟨ip, hip⟩, 8333⟩ : CService).ToStringIPPort plainHost) false =
        ⟨⟨ip, hip⟩, 8333⟩) ∧
    DecodeBase32 (EncodeBase32 [0xff, 0]) = ([0xff, 0], false) := by
  obtain ⟨hbase32, hendpoint⟩ := endpoints_survive plainHost_numeric
  refine ⟨fun ip hip => ?_, hbase32 [0xff, 0]⟩
  have hplain : ∃ hlength : ip.length = 16, CNetAddr.IsI2P ⟨ip, hlength⟩ = false := by
    simp only [List.mem_cons, List.not_mem_nil, or_false] at hip
    rcases hip with rfl | rfl | rfl
    · exact ⟨rfl, rfl⟩
    · exact ⟨rfl, rfl⟩
    · exact ⟨rfl, rfl⟩
  obtain ⟨hlength, hi2p⟩ := hplain
  exact ⟨hlength, (hendpoint ⟨ip, hlength⟩ 8333).mpr hi2p⟩

/-- An endpoint of I2P is lost. -/
theorem i2p_endpoint_lost :
    ¬∀ net : Resolver, net.Numeric → (∀ pch, DecodeBase32 (EncodeBase32 pch) = (pch, false)) ∧
      ∀ (addr : CNetAddr) (port : UInt16),
        CService.ofString net ((⟨addr, port.toNat⟩ : CService).ToStringIPPort net) false =
          ⟨addr, port.toNat⟩ := by
  intro h
  have hback := (h plainHost plainHost_numeric).2
    ⟨pchGarliCat ++ [1, 2, 3, 4, 5, 6, 7, 8, 9, 10], rfl⟩ 4444
  exact i2p_changed rfl (by decide) hback

end Dions
