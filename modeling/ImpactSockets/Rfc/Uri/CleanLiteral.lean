import ImpactSockets.Rfc.Uri.IpLiteralParser

/-! Which of the IP literals that the parser accepts are in the grammar. -/
namespace ImpactSockets.Uri

open Abnf AbnfOps Ascii
open scoped Computability

/-- The groups that an address writes out on both sides of its elision, if it
has some on both. An IPv4 address counts for two. -/
def writtenGroups (address : Bytes) : Nat := address.count colon + if dot ∈ address then 1 else 0

/-- The octets of the IPv4 address that an address ends with. -/
def octets (address : Bytes) : List Bytes :=
  if dot ∈ address then ((address.splitOn colon).getLastD []).splitOn dot else []

/-- What the parser of IPv6 addresses does not look at: an elision leaves out at
least one group, and octets have a digit and no leading zero. -/
structure CleanAddress (address : Bytes) : Prop where
  groups : address.head? = some colon ∨ address.getLast? = some colon ∨ writtenGroups address ≠ 8
  octets : ∀ octet ∈ octets address, octet ≠ [] ∧ (octet.head? = some 0x30 → octet.length = 1)

/-! ### Groups -/

theorem h16_chars {w : Bytes} (h : w ∈ Grammar.h16) : w ≠ [] ∧ colon ∉ w ∧ dot ∉ w := by
  obtain ⟨hNe, _, hChars⟩ := mem_h16.mp h
  refine ⟨hNe, fun hMem => ?_, fun hMem => ?_⟩
  all_goals exact absurd (hChars _ hMem) (by decide)

/-- Groups with colons behind them, by their colons. -/
theorem h16Colon_pow_chars {w : Bytes} {n : Nat} (h : w ∈ Grammar.h16Colon ^ n) :
    w.count colon = n ∧ dot ∉ w ∧ w.head? ≠ some colon := by
  induction n generalizing w with
  | zero =>
      obtain rfl := mem_pow_zero.mp h
      simp
  | succ n ih =>
      obtain ⟨first, hFirst, rest, hRest, rfl⟩ := mem_pow_succ.mp h
      obtain ⟨digits, hDigits, _, rfl, rfl⟩ := Language.mem_mul.mp hFirst
      obtain ⟨hCount, hDot, _⟩ := ih hRest
      obtain ⟨hNe, hColon, hDigitsDot⟩ := h16_chars hDigits
      obtain ⟨c, digits, rfl⟩ := List.exists_cons_of_ne_nil hNe
      have hZero : (c :: digits).count colon = 0 := List.count_eq_zero.mpr hColon
      refine ⟨?_, ?_, ?_⟩
      · rw [List.count_append, List.count_append, hZero, hCount, List.count_singleton_self]
        omega
      · have hNotColon : dot ≠ colon := by decide
        simp_all
      · intro hHead
        exact hColon (by simp [← Option.some.inj hHead])

theorem h16Colon_pow_last {w : Bytes} {n : Nat} (h : w ∈ Grammar.h16Colon ^ n) :
    w = [] ∨ ∃ init, w = init ++ [colon] := by
  cases n with
  | zero => exact .inl (mem_pow_zero.mp h)
  | succ n =>
      rw [pow_succ, Grammar.h16Colon, ← mul_assoc] at h
      obtain ⟨init, _, _, rfl, rfl⟩ := Language.mem_mul.mp h
      exact .inr ⟨init, rfl⟩

/-- Groups have one colon less than there are groups, and none at their ends. -/
theorem groups_chars {w : Bytes} {n : Nat} (h : w ∈ Grammar.groups (n + 1)) :
    w.count colon = n ∧ dot ∉ w ∧ w.head? ≠ some colon ∧ w.getLast? ≠ some colon ∧ w ≠ [] := by
  obtain ⟨front, hFront, last, hLast, rfl⟩ := Language.mem_mul.mp h
  obtain ⟨hCount, hDot, hHead⟩ := h16Colon_pow_chars hFront
  obtain ⟨hNe, hColon, hLastDot⟩ := h16_chars hLast
  have hZero : last.count colon = 0 := List.count_eq_zero.mpr hColon
  refine ⟨by rw [List.count_append, hCount, hZero, Nat.add_zero], by simp [hDot, hLastDot], ?_, ?_, by simp [hNe]⟩
  · rw [List.head?_append]
    rcases front with _ | ⟨c, front⟩
    · exact fun hMem => hColon (List.mem_of_head? hMem)
    · exact hHead
  · rw [List.getLast?_append_of_ne_nil front hNe]
    exact fun hMem => hColon (List.mem_of_getLast? hMem)

theorem groups_no_dot {w : Bytes} {n : Nat} (h : w ∈ Grammar.groups n) : dot ∉ w := by
  cases n with
  | zero =>
      obtain rfl : w = [] := h
      simp
  | succ n => exact (groups_chars h).2.1

/-- The groups of an address with some on both sides of its elision. -/
theorem writtenGroups_elided {front back : Bytes} {a : Nat} (hFront : front ∈ Grammar.groups (a + 1)) :
    writtenGroups (front ++ colon :: colon :: back) = a + 2 + writtenGroups back := by
  obtain ⟨hCount, hDot, _⟩ := groups_chars hFront
  have hNe : dot ≠ colon := by decide
  have hMem : dot ∈ front ++ colon :: colon :: back ↔ dot ∈ back := by simp [hDot, hNe]
  simp only [writtenGroups, hMem, List.count_append, List.count_cons_self, hCount]
  omega

/-- The number of groups that are written, counted by colons. -/
theorem writtenGroups_groups {w : Bytes} {n : Nat} (h : w ∈ Grammar.groups (n + 1)) : writtenGroups w = n := by
  obtain ⟨hCount, hDot, _⟩ := groups_chars h
  rw [writtenGroups, hCount, if_neg hDot, Nat.add_zero]

/-- An address with no groups in front of its elision, or none behind it, or
with few enough of them. -/
theorem few_groups {front back : Bytes} {a b : Nat} (hFront : front ∈ Grammar.groups a)
    (hBack : b = 0 ∧ back = [] ∨ writtenGroups back + 1 = b) (hSum : a + b ≤ 7) :
    (front ++ colon :: colon :: back).head? = some colon ∨
      (front ++ colon :: colon :: back).getLast? = some colon ∨
      writtenGroups (front ++ colon :: colon :: back) ≠ 8 := by
  cases a with
  | zero =>
      obtain rfl : front = [] := hFront
      exact .inl rfl
  | succ a =>
      rcases hBack with ⟨_, rfl⟩ | hBack
      · exact .inr (.inl (by simp))
      · rw [writtenGroups_elided hFront]
        exact .inr (.inr (by omega))

/-- An address with groups on both sides of its elision, and one too many of them. -/
theorem many_groups {front back : Bytes} {a b : Nat} (hFront : front ∈ Grammar.groups a)
    (hBack : writtenGroups back + 1 = b) (hLast : back.getLast? ≠ some colon) (hNe : back ≠ []) (ha : 0 < a)
    (hSum : a + b = 8) :
    ¬((front ++ colon :: colon :: back).head? = some colon ∨
      (front ++ colon :: colon :: back).getLast? = some colon ∨
      writtenGroups (front ++ colon :: colon :: back) ≠ 8) := by
  obtain ⟨a, rfl⟩ := Nat.exists_eq_add_of_le' ha
  obtain ⟨_, _, hHead, _, hFrontNe⟩ := groups_chars hFront
  obtain ⟨c, tail, rfl⟩ := List.exists_cons_of_ne_nil hFrontNe
  rintro (h | h | h)
  · exact hHead h
  · rw [List.getLast?_append_of_ne_nil _ (by simp), List.getLast?_cons_cons, List.getLast?_cons_of_ne_nil hNe] at h
    exact hLast h
  · rw [writtenGroups_elided hFront] at h
    omega

/-! ### Octets -/

theorem decOctet_chars {octet : Bytes} (h : octet ∈ Grammar.decOctet) : ∀ c ∈ octet, digit c = true := by
  have hWide {first last c : UInt8} (h : between first last c = true) (hFirst : 0x30 ≤ first) (hLast : last ≤ 0x39) :
      digit c = true := between_mono h hFirst hLast
  rcases mem_decOctet.mp h with ⟨c, hc, rfl⟩ | ⟨b, c, hb, hc, rfl⟩ | ⟨b, c, hb, hc, rfl⟩ | ⟨b, c, hb, hc, rfl⟩ |
    ⟨c, hc, rfl⟩
  · simpa using hc
  · simpa using ⟨hWide hb (by decide) (by decide), hc⟩
  · simpa using ⟨by decide, hb, hc⟩
  · simpa using ⟨by decide, hWide hb (by decide) (by decide), hc⟩
  · simpa using ⟨by decide, by decide, hWide hc (by decide) (by decide)⟩

theorem decOctet_leading_zero {octet : Bytes} (h : octet ∈ Grammar.decOctet) :
    octet ≠ [] ∧ (octet.head? = some 0x30 → octet.length = 1) := by
  rcases mem_decOctet.mp h with ⟨c, hc, rfl⟩ | ⟨b, c, hb, hc, rfl⟩ | ⟨b, c, hb, hc, rfl⟩ | ⟨b, c, hb, hc, rfl⟩ |
    ⟨c, hc, rfl⟩
  · simp
  · refine ⟨by simp, fun hHead => ?_⟩
    rw [Option.some.inj hHead] at hb
    exact absurd hb (by decide)
  all_goals
    refine ⟨by simp, fun hHead => ?_⟩
    exact absurd (Option.some.inj hHead) (by decide)

/-- An octet that is accepted is in the grammar, if it has a digit and no leading zero. -/
theorem decOctet_of_loose {octet : Bytes} (h : octet ∈ looseOctet) (hNe : octet ≠ [])
    (hZero : octet.head? = some 0x30 → octet.length = 1) : octet ∈ Grammar.decOctet := by
  rcases (Language.mem_add _ _ _).mp h with h | h
  · rcases (Language.mem_add _ _ _).mp h with h | rfl
    · exact h
    · exact absurd rfl hNe
  · obtain ⟨_, ⟨c, _, rfl⟩, rfl⟩ := mem_literal_mul.mp h
    exact absurd (hZero rfl) (by simp)

theorem looseOctet_chars {octet : Bytes} (h : octet ∈ looseOctet) : ∀ c ∈ octet, digit c = true := by
  rcases (Language.mem_add _ _ _).mp h with h | h
  · rcases (Language.mem_add _ _ _).mp h with h | rfl
    · exact decOctet_chars h
    · simp
  · obtain ⟨_, ⟨c, hc, rfl⟩, rfl⟩ := mem_literal_mul.mp h
    simpa using ⟨by decide, hc⟩

/-- Four loose octets, by the dots between them. -/
theorem mem_looseQuad {w : Bytes} :
    w ∈ looseQuad ↔ (w.splitOn dot).length = 4 ∧ ∀ octet ∈ w.splitOn dot, octet ∈ looseOctet :=
  mem_separated fun octet hOctet hDot => absurd (looseOctet_chars hOctet dot hDot) (by decide)

/-- Four octets of the grammar, by the dots between them. -/
theorem mem_ipv4Address {w : Bytes} :
    w ∈ Grammar.ipv4Address ↔ (w.splitOn dot).length = 4 ∧ ∀ octet ∈ w.splitOn dot, octet ∈ Grammar.decOctet := by
  rw [Grammar.ipv4Address, ← separated_eq]
  exact mem_separated fun octet hOctet hDot => absurd (decOctet_chars hOctet dot hDot) (by decide)

theorem looseQuad_of_ipv4Address {w : Bytes} (hw : w ∈ Grammar.ipv4Address) : w ∈ looseQuad := by
  obtain ⟨hLength, hOctets⟩ := mem_ipv4Address.mp hw
  exact mem_looseQuad.mpr ⟨hLength, fun octet hOctet => .inl (.inl (hOctets octet hOctet))⟩

theorem within_looseQuad : Within (fun c => digit c || c == dot) looseQuad := by
  have hOctet : Within (fun c => digit c || c == dot) looseOctet := fun octet hOctet c hc => by
    simp [looseOctet_chars hOctet c hc]
  have hDot : Within (fun c => digit c || c == dot) (literal [dot]) := within_literal (by simp)
  exact hOctet.mul ((hDot.mul hOctet).pow 3)

theorem looseQuad_chars {w : Bytes} (h : w ∈ looseQuad) : colon ∉ w ∧ dot ∈ w := by
  constructor
  · intro hColon
    exact absurd (within_looseQuad w h colon hColon) (by decide)
  · rw [looseQuad, pow_succ'] at h
    obtain ⟨_, _, _, ⟨_, ⟨_, rfl, _, _, rfl⟩, _, _, rfl⟩, rfl⟩ := h
    simp

theorem octets_of_quad {lead quad : Bytes} (h : quad ∈ looseQuad) :
    octets (lead ++ colon :: quad) = quad.splitOn dot := by
  obtain ⟨hColon, hDot⟩ := looseQuad_chars h
  have hSingle : quad.splitOn colon = [quad] :=
    List.splitOnP_eq_singleton fun c hc => by simpa using fun hEq : c = colon => hColon (hEq ▸ hc)
  have hSplit : (lead ++ colon :: quad).splitOn colon = lead.splitOn colon ++ quad.splitOn colon :=
    List.splitOnP_append_cons lead quad (by simp)
  rw [octets, if_pos (by simp [hDot]), hSplit, hSingle]
  simp

theorem writtenGroups_quad {back quad : Bytes} {b : Nat} (hBack : back ∈ Grammar.h16Colon ^ b)
    (hQuad : quad ∈ looseQuad) : writtenGroups (back ++ quad) = b + 1 := by
  obtain ⟨hColon, hDot⟩ := looseQuad_chars hQuad
  rw [writtenGroups, List.count_append, (h16Colon_pow_chars hBack).1, List.count_eq_zero.mpr hColon,
    if_pos (List.mem_append_right _ hDot)]

/-- The octets behind an elision. -/
theorem octets_elided {front back quad : Bytes} {b : Nat} (hBack : back ∈ Grammar.h16Colon ^ b)
    (hQuad : quad ∈ looseQuad) : octets (front ++ colon :: colon :: (back ++ quad)) = quad.splitOn dot := by
  rcases h16Colon_pow_last hBack with rfl | ⟨init, rfl⟩
  · have hText : front ++ colon :: colon :: ([] ++ quad) = (front ++ [colon]) ++ colon :: quad := by simp
    rw [hText, octets_of_quad hQuad]
  · have hText : front ++ colon :: colon :: (init ++ [colon] ++ quad) =
        (front ++ colon :: colon :: init) ++ colon :: quad := by simp
    rw [hText, octets_of_quad hQuad]

theorem octets_of_no_dot {w : Bytes} (h : dot ∉ w) : octets w = [] := if_neg h

/-! ### Addresses -/

/-- The addresses of the grammar are clean. -/
theorem cleanAddress_of_mem {w : Bytes} (h : w ∈ Grammar.ipv6Address) : CleanAddress w := by
  have hClean {quad : Bytes} (hQuad : quad ∈ Grammar.ipv4Address) :
      ∀ octet ∈ quad.splitOn dot, octet ≠ [] ∧ (octet.head? = some 0x30 → octet.length = 1) :=
    fun octet hOctet => decOctet_leading_zero ((mem_ipv4Address.mp hQuad).2 octet hOctet)
  rcases Grammar.mem_ipv6Address.mp h with h | ⟨a, b, hSum, front, hFront, back, hBack, rfl⟩
  · rcases Grammar.mem_lastGroups h with h | ⟨b, hb, front, hFront, quad, hQuad, rfl⟩
    · refine ⟨.inr (.inr ?_), ?_⟩
      · rw [writtenGroups_groups h]
        decide
      · simp [octets_of_no_dot (groups_chars h).2.1]
    · obtain rfl : b = 6 := by omega
      have hLoose := looseQuad_of_ipv4Address hQuad
      refine ⟨.inr (.inr ?_), ?_⟩
      · rw [writtenGroups_quad hFront hLoose]
        decide
      · rcases h16Colon_pow_last hFront with rfl | ⟨init, rfl⟩
        · exact absurd (h16Colon_pow_chars hFront).1 (by simp)
        · rw [List.append_assoc, List.singleton_append, octets_of_quad hLoose]
          exact hClean hQuad
  · rcases Grammar.mem_lastGroups hBack with hBack | ⟨b, rfl, front', hFront', quad, hQuad, rfl⟩
    · refine ⟨few_groups hFront ?_ hSum, ?_⟩
      · cases b with
        | zero => exact .inl ⟨rfl, hBack⟩
        | succ b => exact .inr (by rw [writtenGroups_groups hBack])
      · have hDot : dot ∉ front ++ colon :: colon :: back := by
          have hNe : dot ≠ colon := by decide
          simp [groups_no_dot hFront, groups_no_dot hBack, hNe]
        simp [octets_of_no_dot hDot]
    · have hLoose := looseQuad_of_ipv4Address hQuad
      refine ⟨few_groups hFront (.inr ?_) hSum, ?_⟩
      · rw [writtenGroups_quad hFront' hLoose]
      · rw [octets_elided hFront' hLoose]
        exact hClean hQuad

/-- The accepted addresses that are clean are in the grammar. -/
theorem mem_ipv6Address_of_clean {w : Bytes} (h : AcceptedAddress w) (hClean : CleanAddress w) :
    w ∈ Grammar.ipv6Address := by
  rw [Grammar.mem_ipv6Address]
  cases h with
  | full h => exact .inl (Grammar.lastGroups_of_groups 8 h)
  | @elided a b front back hFits hFront hBack =>
      rcases hFits with hSum | ⟨hSum, ha, hb⟩
      · exact .inr ⟨a, b, hSum, front, hFront, back, Grammar.lastGroups_of_groups b hBack, rfl⟩
      · obtain ⟨b, rfl⟩ := Nat.exists_eq_add_of_le' hb
        obtain ⟨_, _, _, hLast, hNe⟩ := groups_chars hBack
        exact absurd hClean.groups
          (many_groups hFront (by rw [writtenGroups_groups hBack]) hLast hNe ha hSum)
  | @quad a b front back quad hFits hFront hBack hQuad =>
      obtain ⟨hColon, hDot⟩ := looseQuad_chars hQuad
      have hQuadNe : quad ≠ [] := List.ne_nil_of_mem hDot
      rcases hFits with hSum | ⟨hSum, ha, hb⟩
      · have hOctets := hClean.octets
        rw [octets_elided hBack hQuad] at hOctets
        obtain ⟨hLength, hLoose⟩ := mem_looseQuad.mp hQuad
        have hAddress : quad ∈ Grammar.ipv4Address := mem_ipv4Address.mpr ⟨hLength, fun octet hOctet =>
          decOctet_of_loose (hLoose octet hOctet) (hOctets octet hOctet).1 (hOctets octet hOctet).2⟩
        have hGroups : back ++ quad ∈ Grammar.lastGroups (b + 2) :=
          Language.append_mem_mul hBack ((Language.mem_add _ _ _).mpr (.inr hAddress))
        exact .inr ⟨a, b + 2, by omega, front, hFront, back ++ quad, hGroups, rfl⟩
      · have hLast : (back ++ quad).getLast? ≠ some colon := by
          rw [List.getLast?_append_of_ne_nil back hQuadNe]
          exact fun hMem => hColon (List.mem_of_getLast? hMem)
        exact absurd hClean.groups (many_groups hFront (b := b + 2) (by rw [writtenGroups_quad hBack hQuad])
          hLast (by simp [hQuadNe]) ha (by omega))

theorem groups_head {w : Bytes} {n : Nat} (h : w ∈ Grammar.groups (n + 1)) : ∀ c ∈ w.head?, hexdig c = true := by
  rw [groups_succ] at h
  obtain ⟨digits, hDigits, tail, _, rfl⟩ := Language.mem_mul.mp h
  obtain ⟨hNe, _, hChars⟩ := mem_h16.mp hDigits
  obtain ⟨c, digits, rfl⟩ := List.exists_cons_of_ne_nil hNe
  rintro _ ⟨⟩
  exact hChars c List.mem_cons_self

theorem acceptedAddress_head {w : Bytes} (h : AcceptedAddress w) :
    ∀ c ∈ w.head?, hexdig c = true ∨ c = colon := by
  have hFront {front : Bytes} {a : Nat} (hFront : front ∈ Grammar.groups a) (rest : Bytes) :
      ∀ c ∈ (front ++ colon :: rest).head?, hexdig c = true ∨ c = colon := by
    intro c hc
    cases a with
    | zero =>
        obtain rfl : front = [] := hFront
        exact .inr (Option.some.inj hc).symm
    | succ a =>
        obtain ⟨d, front, rfl⟩ := List.exists_cons_of_ne_nil (groups_chars hFront).2.2.2.2
        exact .inl (groups_head hFront c hc)
  cases h with
  | full h => exact fun c hc => .inl (groups_head h c hc)
  | elided _ h _ => exact hFront h _
  | quad _ h _ _ => exact hFront h _

/-- What the parser of IP literals does not look at, between the brackets. -/
def CleanLiteral (text : Bytes) : Prop :=
  text.head? = some 0x76 ∨ text.head? = some 0x56 ∨ CleanAddress text -- "v" / "V"

/-- The words of the grammar are clean. -/
theorem cleanLiteral_of_mem {text : Bytes} (h : text ∈ Grammar.ipv6Address + Grammar.ipvFuture) : CleanLiteral text := by
  rcases (Language.mem_add _ _ _).mp h with h | h
  · exact .inr (.inr (cleanAddress_of_mem h))
  · rw [Grammar.ipvFuture, mul_assoc, mul_assoc] at h
    obtain ⟨_, ⟨v, hv, rfl⟩, rest, _, rfl⟩ := Language.mem_mul.mp h
    have hv : v = 0x76 ∨ v = 0x56 := by simpa using hv
    rcases hv with rfl | rfl
    · exact .inl rfl
    · exact .inr (.inl rfl)

/-- A literal that is accepted and clean is a word of the grammar. -/
theorem mem_of_cleanLiteral {text : Bytes} {errno : Imperr} (hClean : CleanLiteral text)
    (h : parseIpLiteral (openBracket :: text ++ [closeBracket]) = .ok (true, errno)) :
    text ∈ Grammar.ipv6Address + Grammar.ipvFuture := by
  rcases parseIpLiteral_split h with ⟨_, hFuture⟩ | ⟨hVersion, hAddress⟩
  · exact (Language.mem_add _ _ _).mpr (.inr hFuture)
  · rcases hClean with hHead | hHead | hClean
    · exact absurd hHead hVersion
    · exact absurd (acceptedAddress_head hAddress 0x56 hHead) (by decide)
    · exact (Language.mem_add _ _ _).mpr (.inl (mem_ipv6Address_of_clean hAddress hClean))

end ImpactSockets.Uri
