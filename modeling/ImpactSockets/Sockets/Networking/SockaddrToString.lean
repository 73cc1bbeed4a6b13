import Mathlib.Data.Nat.Digits.Lemmas
import ImpactSockets.Library.BlockStream
import ImpactSockets.Sockets.Networking.AddressText

/-! `sockaddr_to_string` on a little-endian POSIX host. -/
namespace ImpactSockets.Networking

open AbnfOps Ascii

def INET_ADDRSTRLEN : Nat := 16
def INET6_ADDRSTRLEN : Nat := 46

/-- `sizeof(struct sockaddr_in)` and `sizeof(struct sockaddr_in6)`. -/
def sizeofSockaddrIn : Nat := 16
def sizeofSockaddrIn6 : Nat := 28

/-- The bytes of an IPv4 or IPv6 address, in the order of the network. -/
inductive Address where
  | inet (octets : Vector UInt8 4)
  | inet6 (octets : Vector UInt8 16)

/-- What `__address` may point to. -/
inductive Sockaddr where
  | ip (address : Address)
  | other (family : UInt16)

/-- The texts that `inet_ntop` writes. -/
structure Presentation where
  inet : Vector UInt8 4 → Bytes
  inet6 : Vector UInt8 16 → Bytes

/-- The standard texts denote their addresses and fit in the buffers the constants are for. -/
structure Presentation.Standard (ntop : Presentation) : Prop where
  inet_parses : ∀ octets, parseInet (ntop.inet octets) = some octets.toList
  inet_length : ∀ octets, (ntop.inet octets).length < INET_ADDRSTRLEN
  inet6_parses : ∀ octets, parseInet6 (ntop.inet6 octets) = some octets.toList
  inet6_length : ∀ octets, (ntop.inet6 octets).length < INET6_ADDRSTRLEN

/-- `inet_ntop`: the buffer with the text and a NUL, or `none` for `NULL` if the size is
too small. -/
def inetNtop (text buffer : Bytes) (size : Nat) : Option Bytes :=
  if text.length < size then some (text ++ 0 :: buffer.drop (text.length + 1)) else none

def digitText (d : Nat) : UInt8 := if d < 10 then 0x30 + UInt8.ofNat d else 0x57 + UInt8.ofNat d

/-- What a stream writes for a number, with the fill character '0'. -/
def put (base width n : Nat) : Bytes :=
  (if n = 0 then [0x30] else ((Nat.digits base n).map digitText).reverse).leftpad width 0x30

/-- `s_addr`, which a little-endian host reads from the bytes. -/
def sAddr (octets : Vector UInt8 4) : UInt32 :=
  (octets.get 0).toUInt32 ||| (octets.get 1).toUInt32 <<< 8 ||| (octets.get 2).toUInt32 <<< 16 |||
    (octets.get 3).toUInt32 <<< 24

/-- The hand-written text of an IPv4 address. -/
def formatInet (octets : Vector UInt8 4) : Bytes :=
  put 10 0 ((0xFF : UInt32) &&& (sAddr octets >>> 24)).toNat ++ dot ::
    (put 10 0 ((0xFF : UInt32) &&& (sAddr octets >>> 16)).toNat ++ dot ::
      (put 10 0 ((0xFF : UInt32) &&& (sAddr octets >>> 8)).toNat ++ dot :: put 10 0 (0xFF &&& sAddr octets).toNat))

/-- The loop over the bytes of an IPv6 address. -/
def formatGroups : Bytes → Bytes
  | [high, low] => put 16 2 high.toNat ++ put 16 2 low.toNat
  | high :: low :: octets => put 16 2 high.toNat ++ put 16 2 low.toNat ++ colon :: formatGroups octets
  | _ => []

def text (s : String) : Bytes := s.toList.map fun c => c.val.toUInt8

def sockaddrToString (ntop : Presentation) : Option Sockaddr → Bytes
  | none => text "[no address]"
  | some (.ip (.inet octets)) =>
      (inetNtop (ntop.inet octets) (List.replicate INET_ADDRSTRLEN 0) sizeofSockaddrIn).getD (formatInet octets)
  | some (.ip (.inet6 octets)) =>
      (inetNtop (ntop.inet6 octets) (List.replicate INET6_ADDRSTRLEN 0) sizeofSockaddrIn6).getD
        (formatGroups octets.toList)
  | some (.other _) => text "[unrecognized address family]"

/-- The whole string is a text of the address. -/
def Address.DenotedBy : Address → Bytes → Prop
  | .inet octets, s => parseInet s = some octets.toList
  | .inet6 octets, s => parseInet6 s = some octets.toList

/-! ### Texts of bytes -/

/-- A digit is written as a character with its value. -/
theorem digitText_spec : ∀ d < 16, digitValue (digitText d) = d ∧ hexdig (digitText d) = true ∧
    (d < 10 → digit (digitText d) = true) ∧ (digitText d = 0x30 → d = 0) := by
  decide

/-- One more digit at the end. -/
theorem number_concat (base : Nat) (text : Bytes) (c : UInt8) :
    number base (text ++ [c]) = base * number base text + digitValue c := by
  simp [number]

/-- The number of two texts put together. -/
theorem number_append (base : Nat) (front back : Bytes) :
    number base (front ++ back) = base ^ back.length * number base front + number base back := by
  induction back using List.reverseRecOn with
  | nil => simp [number]
  | append_singleton back c ih =>
      rw [← List.append_assoc, number_concat, number_concat, ih, List.length_append, List.length_singleton, pow_succ']
      ring

/-- Zeros denote zero. -/
theorem number_zeros (base n : Nat) : number base (List.replicate n 0x30) = 0 := by
  induction n with
  | zero => rfl
  | succ n ih =>
      rw [List.replicate_succ', number_concat, ih]
      rfl

/-- The digits of a number write it. -/
theorem number_digits {base : Nat} (ds : List Nat) (h : ∀ d ∈ ds, d < 16) :
    number base ((ds.map digitText).reverse) = Nat.ofDigits base ds := by
  induction ds with
  | nil => rfl
  | cons d ds ih =>
      rw [List.map_cons, List.reverse_cons, number_concat, ih fun e he => h e (by simp [he]),
        (digitText_spec d (h d (by simp))).1, Nat.ofDigits_cons]
      exact Nat.add_comm _ _

/-- Only digits of the number and zeros are written. -/
theorem mem_put {base width n : Nat} {c : UInt8} (hc : c ∈ put base width n) :
    c = 0x30 ∨ ∃ d ∈ Nat.digits base n, c = digitText d := by
  rcases List.mem_append.mp hc with hFill | hDigits
  · exact .inl (List.eq_of_mem_replicate hFill)
  · split_ifs at hDigits
    · exact .inl (by simpa using hDigits)
    · obtain ⟨d, hd, rfl⟩ := by simpa using hDigits
      exact .inr ⟨d, hd, rfl⟩

/-- The text that is written denotes the number, whatever it is padded to. -/
theorem number_put {base : Nat} (hBase : 1 < base) (hBase' : base ≤ 16) (width n : Nat) :
    number base (put base width n) = n := by
  have hLt : ∀ d ∈ Nat.digits base n, d < 16 := fun d hd => (Nat.digits_lt_base hBase hd).trans_le hBase'
  rw [put, List.leftpad, number_append, number_zeros, Nat.mul_zero, Nat.zero_add]
  split_ifs with hZero
  · rw [hZero]
    rfl
  · rw [number_digits _ hLt, Nat.ofDigits_digits]

/-- As many characters as there are digits, but at least one and at least the width. -/
theorem length_put {base width n k : Nat} (hBase : 1 < base) (hk : 1 ≤ k) (hn : n < base ^ k) :
    1 ≤ (put base width n).length ∧ width ≤ (put base width n).length ∧
      (put base width n).length ≤ max width k := by
  have hDigits := (Nat.digits_length_le_iff hBase n).mpr hn
  rw [put, List.length_leftpad]
  split_ifs with hZero
  · simp only [List.length_singleton]
    omega
  · have hNe : Nat.digits base n ≠ [] := Nat.digits_ne_nil_iff_ne_zero.mpr hZero
    have hPos := List.length_pos_of_ne_nil hNe
    simp only [List.length_reverse, List.length_map]
    omega

/-- An octet is written in decimal, without leading zeros. -/
theorem octet_put {n : Nat} (h : n < 256) : Octet (put 10 0 n) := by
  have hLt : ∀ d ∈ Nat.digits 10 n, d < 10 := fun d hd => Nat.digits_lt_base (by decide) hd
  obtain ⟨hOne, -, hThree⟩ := @length_put 10 0 n 3 (by decide) (by decide) (by omega)
  refine ⟨⟨hOne, hThree⟩, ?_, ?_, by rwa [number_put (by decide) (by decide)]⟩
  · intro c hc
    rcases mem_put hc with rfl | ⟨d, hd, rfl⟩
    · rfl
    · exact (digitText_spec d ((hLt d hd).trans (by decide))).2.2.1 (hLt d hd)
  · unfold put
    split_ifs with hZero
    · exact fun _ => rfl
    · intro hHead
      have hNe : Nat.digits 10 n ≠ [] := Nat.digits_ne_nil_iff_ne_zero.mpr hZero
      have hLast := Nat.getLast_digit_ne_zero 10 hZero
      have hMem := hLt _ (List.getLast_mem hNe)
      have hText : digitText ((Nat.digits 10 n).getLast hNe) = 0x30 := by
        simpa [List.leftpad, List.getLast?_eq_some_getLast hNe] using hHead
      exact absurd ((digitText_spec _ (hMem.trans (by decide))).2.2.2 hText) hLast

/-- An octet is written with two hexadecimal digits. -/
theorem length_put_hex {n : Nat} (h : n < 256) : (put 16 2 n).length = 2 := by
  obtain ⟨-, hTwo, hMax⟩ := @length_put 16 2 n 2 (by decide) (by decide) (by omega)
  omega

/-- Two octets make a group of four digits, which denotes them. -/
theorem group_put {high low : Nat} (hHigh : high < 256) (hLow : low < 256) :
    Group (put 16 2 high ++ put 16 2 low) ∧ number 16 (put 16 2 high ++ put 16 2 low) = 256 * high + low := by
  have hHex : ∀ n, ∀ c ∈ put 16 2 n, hexdig c = true := by
    intro n c hc
    rcases mem_put hc with rfl | ⟨d, hd, rfl⟩
    · rfl
    · exact (digitText_spec d (Nat.digits_lt_base (by decide) hd)).2.1
  refine ⟨⟨?_, fun c hc => ?_⟩, ?_⟩
  · rw [List.length_append, length_put_hex hHigh, length_put_hex hLow]
    decide
  · exact (List.mem_append.mp hc).elim (hHex high c) (hHex low c)
  · rw [number_append, length_put_hex hLow, number_put (by decide) (by decide), number_put (by decide) (by decide)]
    rfl

/-! ### The hand-written texts -/

/-- The texts of the groups of an address. -/
def groupTexts : Bytes → List Bytes
  | [] => []
  | [_] => []
  | high :: low :: octets => (put 16 2 high.toNat ++ put 16 2 low.toNat) :: groupTexts octets

/-- All groups are such groups. -/
theorem groupTexts_group (octets : Bytes) : ∀ group ∈ groupTexts octets, Group group := by
  induction octets using groupTexts.induct with
  | case1 => simp [groupTexts]
  | case2 octet => simp [groupTexts]
  | case3 high low octets ih =>
      intro group hGroup
      rcases List.mem_cons.mp hGroup with rfl | hGroup
      · exact (group_put high.toNat_lt low.toNat_lt).1
      · exact ih group hGroup

theorem length_groupTexts (octets : Bytes) : (groupTexts octets).length = octets.length / 2 := by
  induction octets using groupTexts.induct with
  | case1 => rfl
  | case2 octet => simp [groupTexts]
  | case3 high low octets ih =>
      rw [groupTexts, List.length_cons, ih, List.length_cons, List.length_cons]
      omega

theorem length_of_pair {high low : UInt8} {octets : Bytes} (h : (high :: low :: octets).length % 2 = 0) :
    octets.length % 2 = 0 := by
  simp only [List.length_cons] at h
  omega

/-- The loop writes the groups with colons between them. -/
theorem formatGroups_eq {octets : Bytes} (hEven : octets.length % 2 = 0) :
    formatGroups octets = [colon].intercalate (groupTexts octets) := by
  induction octets using groupTexts.induct with
  | case1 => rfl
  | case2 octet => cases hEven
  | case3 high low octets ih =>
      rcases octets with _ | ⟨next, _ | ⟨after, octets⟩⟩
      · simp [formatGroups, groupTexts]
      · simp at hEven
      · have hRest := ih (length_of_pair hEven)
        have hNe : groupTexts (next :: after :: octets) ≠ [] := by simp [groupTexts]
        rw [groupTexts, List.intercalate_cons_of_ne_nil hNe, ← hRest]
        simp [formatGroups]

/-- A group is read as its two octets. -/
theorem pieceBytes_put (high low : UInt8) : pieceBytes (put 16 2 high.toNat ++ put 16 2 low.toNat) = [high, low] := by
  obtain ⟨hGroup, hNumber⟩ := group_put high.toNat_lt low.toNat_lt
  have hLow := low.toNat_lt
  have hDiv : (256 * high.toNat + low.toNat) / 256 = high.toNat := by omega
  have hMod : (256 * high.toNat + low.toNat) % 256 = low.toNat := by omega
  rw [pieceBytes, if_pos hGroup, hNumber, hDiv, hMod, UInt8.ofNat_toNat, UInt8.ofNat_toNat]

/-- All groups together are read as the octets. -/
theorem flatMap_groupTexts {octets : Bytes} (hEven : octets.length % 2 = 0) :
    (groupTexts octets).flatMap pieceBytes = octets := by
  induction octets using groupTexts.induct with
  | case1 => rfl
  | case2 octet => cases hEven
  | case3 high low octets ih =>
      rw [groupTexts, List.flatMap_cons, pieceBytes_put, ih (length_of_pair hEven)]
      rfl

/-- The text that is written by hand parses to the address. -/
theorem parseInet6_formatGroups (octets : Vector UInt8 16) :
    parseInet6 (formatGroups octets.toList) = some octets.toList := by
  have hEven : octets.toList.length % 2 = 0 := by simp
  rw [formatGroups_eq hEven, parseInet6_intercalate _ (groupTexts_group _), flatMap_groupTexts hEven]
  simp [length_groupTexts]

/-- An octet shifted by whole octets does not leave the word. -/
theorem toNat_shiftLeft (octet : UInt8) {shift : UInt32} (h : shift.toNat ≤ 24) :
    (octet.toUInt32 <<< shift).toNat = octet.toNat <<< shift.toNat := by
  rw [UInt32.toNat_shiftLeft, UInt8.toNat_toUInt32, Nat.mod_eq_of_lt (h.trans_lt (by decide)),
    Nat.mod_eq_of_lt (BlockStream.shiftLeft_lt octet h)]

/-- `s_addr` has the first octet of the address as its lowest. -/
theorem toNat_sAddr (octets : Vector UInt8 4) :
    (sAddr octets).toNat = BlockStream.ofLittleEndian [octets.get 0, octets.get 1, octets.get 2, octets.get 3] := by
  rw [← BlockStream.or_shiftLeft_eq_ofLittleEndian, sAddr, UInt32.toNat_or, UInt32.toNat_or, UInt32.toNat_or,
    UInt8.toNat_toUInt32, toNat_shiftLeft _ (by decide), toNat_shiftLeft _ (by decide), toNat_shiftLeft _ (by decide)]
  rfl

/-- The octets taken out of it by shift and mask. -/
theorem toNat_and_shiftRight (n : UInt32) {shift : UInt32} (h : shift.toNat < 32) :
    ((0xFF : UInt32) &&& (n >>> shift)).toNat = n.toNat / 2 ^ shift.toNat % 256 := by
  rw [UInt32.toNat_and, UInt32.toNat_shiftRight, Nat.mod_eq_of_lt h, Nat.shiftRight_eq_div_pow, Nat.and_comm,
    show (0xFF : UInt32).toNat = 2 ^ 8 - 1 from rfl, Nat.and_two_pow_sub_one_eq_mod]

theorem toList_eq (octets : Vector UInt8 4) :
    octets.toList = [octets.get 0, octets.get 1, octets.get 2, octets.get 3] := by
  obtain ⟨⟨octets⟩, hSize⟩ := octets
  rcases octets with _ | ⟨a, _ | ⟨b, _ | ⟨c, _ | ⟨d, _ | ⟨e, octets⟩⟩⟩⟩⟩ <;> first | rfl | simp at hSize

/-- The hand-written IPv4 text has the bytes of a little-endian host in the wrong order. -/
theorem formatInet_eq (octets : Vector UInt8 4) :
    formatInet octets = [dot].intercalate (octets.toList.reverse.map fun octet => put 10 0 octet.toNat) := by
  have hNumber := toNat_sAddr octets
  simp only [BlockStream.ofLittleEndian, List.foldr_cons, List.foldr_nil] at hNumber
  have hLast := toNat_and_shiftRight (sAddr octets) (show UInt32.toNat 0 < 32 by decide)
  rw [UInt32.shiftRight_zero] at hLast
  have h0 := (octets.get 0).toNat_lt
  have h1 := (octets.get 1).toNat_lt
  have h2 := (octets.get 2).toNat_lt
  have h3 : (octets.get 3).toNat < 2 ^ 8 := (octets.get 3).toNat_lt
  have hByte0 : ((0xFF : UInt32) &&& sAddr octets).toNat = (octets.get 0).toNat := by
    rw [hLast, hNumber, show UInt32.toNat 0 = 0 from rfl]
    omega
  have hByte1 : ((0xFF : UInt32) &&& (sAddr octets >>> 8)).toNat = (octets.get 1).toNat := by
    rw [toNat_and_shiftRight _ (by decide), hNumber, show UInt32.toNat 8 = 8 from rfl]
    omega
  have hByte2 : ((0xFF : UInt32) &&& (sAddr octets >>> 16)).toNat = (octets.get 2).toNat := by
    rw [toNat_and_shiftRight _ (by decide), hNumber, show UInt32.toNat 16 = 16 from rfl]
    omega
  have hByte3 : ((0xFF : UInt32) &&& (sAddr octets >>> 24)).toNat = (octets.get 3).toNat := by
    rw [toNat_and_shiftRight _ (by decide), hNumber, show UInt32.toNat 24 = 24 from rfl]
    omega
  rw [formatInet, hByte0, hByte1, hByte2, hByte3, toList_eq]
  simp

/-! ### The address denoted -/

variable {ntop : Presentation}

/-- The string that `inet_ntop` has written into ends with a NUL. -/
theorem nul_mem_of_inetNtop {text buffer s : Bytes} {size : Nat} (h : inetNtop text buffer size = some s) : 0 ∈ s := by
  unfold inetNtop at h
  split_ifs at h
  cases h
  simp

/-- The text for an IPv4 address never denotes it. -/
theorem sockaddrToString_inet (hStandard : ntop.Standard) (octets : Vector UInt8 4) :
    ¬(Address.inet octets).DenotedBy (sockaddrToString ntop (some (.ip (.inet octets)))) := by
  obtain ⟨s, hWritten⟩ :
      ∃ s, inetNtop (ntop.inet octets) (List.replicate INET_ADDRSTRLEN 0) sizeofSockaddrIn = some s :=
    ⟨_, if_pos (hStandard.inet_length octets)⟩
  rw [sockaddrToString, hWritten]
  exact fun hParses => nul_not_mem_of_parseInet hParses (nul_mem_of_inetNtop hWritten)

/-- The text for an IPv6 address denotes it exactly if the buffer is too small for `inet_ntop`. -/
theorem sockaddrToString_inet6 (octets : Vector UInt8 16) :
    (Address.inet6 octets).DenotedBy (sockaddrToString ntop (some (.ip (.inet6 octets)))) ↔
      sizeofSockaddrIn6 ≤ (ntop.inet6 octets).length := by
  simp only [sockaddrToString]
  cases hWritten : inetNtop (ntop.inet6 octets) (List.replicate INET6_ADDRSTRLEN 0) sizeofSockaddrIn6 with
  | none =>
      have hLong : ¬(ntop.inet6 octets).length < sizeofSockaddrIn6 := by
        intro hShort
        rw [inetNtop, if_pos hShort] at hWritten
        cases hWritten
      exact iff_of_true (parseInet6_formatGroups octets) (Nat.le_of_not_lt hLong)
  | some s =>
      have hShort : (ntop.inet6 octets).length < sizeofSockaddrIn6 := by
        by_contra hLong
        rw [inetNtop, if_neg hLong] at hWritten
        cases hWritten
      refine iff_of_false (fun hParses => ?_) (Nat.not_le_of_lt hShort)
      exact nul_not_mem_of_parseInet6 hParses (nul_mem_of_inetNtop hWritten)

/-- The string is a text of the address exactly if the address is an IPv6 one whose
standard text does not fit in the size that `inet_ntop` is given. -/
theorem denotedBy_iff (hStandard : ntop.Standard) (address : Address) :
    address.DenotedBy (sockaddrToString ntop (some (.ip address))) ↔
      ∃ octets, address = .inet6 octets ∧ sizeofSockaddrIn6 ≤ (ntop.inet6 octets).length := by
  cases address with
  | inet octets => simpa using sockaddrToString_inet hStandard octets
  | inet6 octets => simpa using sockaddrToString_inet6 octets

/-- The texts without any abbreviation. -/
def plainTexts : Presentation where
  inet := fun octets => [dot].intercalate (octets.toList.map fun octet => put 10 0 octet.toNat)
  inet6 := fun octets => formatGroups octets.toList

/-- A bound on the length that is written. -/
theorem length_formatGroups {octets : Bytes} (hEven : octets.length % 2 = 0) :
    (formatGroups octets).length ≤ 5 * (octets.length / 2) := by
  induction octets using groupTexts.induct with
  | case1 => simp [formatGroups]
  | case2 octet => cases hEven
  | case3 high low octets ih =>
      have hPair := length_put_hex high.toNat_lt
      have hPair' := length_put_hex low.toNat_lt
      have hRest := ih (length_of_pair hEven)
      rcases octets with _ | ⟨next, octets⟩
      · simp [formatGroups, hPair, hPair']
      · simp only [formatGroups, List.length_append, List.length_cons, hPair, hPair'] at hRest ⊢
        omega

/-- A bound on the length of dotted octets. -/
theorem length_intercalate_octets (octets : List Nat) (h : ∀ n ∈ octets, n < 256) :
    ([dot].intercalate (octets.map (put 10 0))).length ≤ 4 * octets.length - 1 := by
  induction octets with
  | nil => rfl
  | cons n octets ih =>
      have hRest := ih fun m hm => h m (by simp [hm])
      obtain ⟨-, -, hLength⟩ := @length_put 10 0 n 3 (by decide) (by decide) (by have := h n (by simp); omega)
      rcases eq_or_ne octets [] with rfl | hNe
      · simp
        omega
      · rw [List.map_cons, List.intercalate_cons_of_ne_nil (by simpa using hNe)]
        have hPos := List.length_pos_of_ne_nil hNe
        simp only [List.length_append, List.length_cons, List.length_nil]
        omega

/-- A presentation that behaves as `inet_ntop` is documented to. -/
theorem plainTexts_standard : plainTexts.Standard where
  inet_parses := fun octets => by
    have hOctets : ∀ octet ∈ octets.toList.map fun octet => put 10 0 octet.toNat, Octet octet := by
      intro octet hOctet
      obtain ⟨c, -, rfl⟩ := List.mem_map.mp hOctet
      exact octet_put c.toNat_lt
    rw [plainTexts, parseInet_intercalate (by simp) hOctets, List.map_map]
    simp [Function.comp_def, number_put]
  inet_length := fun octets => by
    have hLength := length_intercalate_octets (octets.toList.map UInt8.toNat) fun n hn => by
      obtain ⟨c, -, rfl⟩ := List.mem_map.mp hn
      exact c.toNat_lt
    rw [List.map_map, List.length_map, Vector.length_toList] at hLength
    exact hLength.trans_lt (by decide)
  inet6_parses := parseInet6_formatGroups
  inet6_length := fun octets => by
    have hLength := @length_formatGroups octets.toList (by simp)
    rw [Vector.length_toList] at hLength
    exact hLength.trans_lt (by decide)

/-- An address whose text is the same with and without abbreviations. -/
def longAddress : Vector UInt8 16 := ⟨#[0x20, 0x01, 0x1D, 0xB8, 0x12, 0x34, 0x56, 0x78, 0x9A, 0xBC, 0xDE, 0xF0,
  0x11, 0x11, 0x22, 0x22], rfl⟩

/-- An address whose text is longer than the buffer. -/
theorem longAddress_denoted :
    (Address.inet6 longAddress).DenotedBy (sockaddrToString plainTexts (some (.ip (.inet6 longAddress)))) :=
  (denotedBy_iff plainTexts_standard _).mpr ⟨longAddress, rfl, by decide⟩

/-- The text of 127.0.0.1 has NULs behind it. -/
theorem loopback_not_denoted :
    ¬∀ ntop : Presentation, ntop.Standard → ∀ address : Address,
      address.DenotedBy (sockaddrToString ntop (some (.ip address))) := by
  intro h
  have hParses := h plainTexts plainTexts_standard (.inet #v[127, 0, 0, 1])
  exact absurd (nul_not_mem_of_parseInet hParses) (by decide)

end ImpactSockets.Networking
