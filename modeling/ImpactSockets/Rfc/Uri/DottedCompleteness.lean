import ImpactSockets.Rfc.Uri.DottedAddress

/-! Which texts with a dot the parser of IPv6 addresses accepts, and where the
grammar does not agree. -/
namespace ImpactSockets.Uri

open Abnf AbnfOps Ascii
open scoped Computability

/-! ### The texts that are accepted -/

theorem PlainAddress.no_dot {text : Bytes} (h : PlainAddress text) : dot ∉ text := by
  rcases h with hGroups | ⟨a, b, _, front, hFront, back, hBack, rfl⟩
  · exact groups_no_dot hGroups
  · have hNe : dot ≠ colon := by decide
    simp [groups_no_dot hFront, groups_no_dot hBack, hNe]

/-- A dot that one of the last three characters but one is. -/
theorem parseIpv6Address_dotted {data : Bytes} {last : UInt8} {k : Nat} (hLength : 9 ≤ data.length)
    (hLast : readAt data (data.length - 1) = .ok last) (hDigit : hexdig last = true) (hk : k = 1 ∨ k = 2 ∨ k = 3)
    (hDot : readAt data (data.length - 1 - k) = .ok dot) : parseIpv6Address data = parseDec data (data.length - 1) := by
  obtain ⟨previous, _, hPrevious⟩ := @readAt_mem data (data.length - 1 - 1) (by omega)
  obtain ⟨second, _, hSecond⟩ := @readAt_mem data (data.length - 1 - 2) (by omega)
  obtain ⟨third, _, hThird⟩ := @readAt_mem data (data.length - 1 - 3) (by omega)
  have hNoElision : (last == colon && previous == colon) = false := by
    rw [beq_eq_false_iff_ne.mpr (colon_not_hexdig hDigit), Bool.false_and]
  have hDots : (previous == dot || second == dot || third == dot) = true := by
    rcases hk with rfl | rfl | rfl
    · rw [hPrevious] at hDot
      simp [Except.ok.inj hDot]
    · rw [hSecond] at hDot
      simp [Except.ok.inj hDot]
    · rw [hThird] at hDot
      simp [Except.ok.inj hDot]
  unfold parseIpv6Address
  rw [if_neg (by omega)]
  simp only [hLast, hPrevious, bind, Except.bind, hNoElision, Bool.false_eq_true, if_false, hDigit, if_true]
  rw [if_neg (by omega)]
  simp only [hSecond, hThird, hDots, if_true]

theorem digit_hexdig {c : UInt8} (hc : digit c = true) : hexdig c = true := by
  rw [hexdig, hc]
  rfl

/-- A text that ends with a dot and an octet is read from the label `dec` on. -/
theorem parseIpv6Address_octet {init octet : Bytes} (hOctet : octet ∈ takenOctet)
    (hLength : 9 ≤ (init ++ dot :: octet).length) :
    parseIpv6Address (init ++ dot :: octet) =
      parseDec (init ++ dot :: octet) ((init ++ dot :: octet).length - 1) := by
  obtain ⟨hTaken, hNe⟩ := mem_takenOctet.mp hOctet
  obtain ⟨digits, last, rfl⟩ := (List.eq_nil_or_concat' octet).resolve_left hNe
  have hLast : readAt (init ++ dot :: (digits ++ [last])) ((init ++ dot :: (digits ++ [last])).length - 1) =
      .ok last := by
    have hPlace := readAt_place (init ++ dot :: digits) [] last
    simpa [place] using hPlace
  have hSmall : (digits ++ [last]).length ≤ 3 := octetTaken_length hTaken
  have hDot : readAt (init ++ dot :: (digits ++ [last]))
      ((init ++ dot :: (digits ++ [last])).length - 1 - (digits ++ [last]).length) = .ok dot := by
    have hIndex : (init ++ dot :: (digits ++ [last])).length - 1 - (digits ++ [last]).length = init.length := by
      simp only [List.length_append, List.length_cons]
      omega
    rw [hIndex]
    exact readAt_place init (digits ++ [last]) dot
  refine parseIpv6Address_dotted hLength hLast (digit_hexdig (octetTaken_digits hTaken last (by simp))) ?_ hDot
  rw [List.length_append, List.length_singleton] at hSmall ⊢
  omega

theorem takenTail_last {tail : Bytes} {n : Nat} (h : tail ∈ takenTail (n + 1)) :
    ∃ init, ∃ octet ∈ takenOctet, tail = init ++ dot :: octet := by
  rw [takenTail, pow_succ] at h
  obtain ⟨init, _, last, hLast, rfl⟩ := Language.mem_mul.mp h
  obtain ⟨octet, hOctet, rfl⟩ := mem_literal_mul.mp hLast
  exact ⟨init, octet, hOctet, by simp⟩

theorem takenTail_length {tail : Bytes} {n : Nat} (h : tail ∈ takenTail n) : 2 * n ≤ tail.length := by
  induction n generalizing tail with
  | zero => simp
  | succ n ih =>
      obtain ⟨first, hFirst, rest, hRest, rfl⟩ := mem_pow_succ.mp h
      obtain ⟨octet, hOctet, rfl⟩ := mem_literal_mul.mp hFirst
      have hPositive := List.length_pos_of_ne_nil (mem_takenOctet.mp hOctet).2
      have hTail := ih hRest
      simp only [List.length_append, List.length_singleton]
      omega

theorem takenQuad_length {quad : Bytes} (h : quad ∈ takenQuad) : 7 ≤ quad.length := by
  obtain ⟨octet, hOctet, tail, hTail, rfl⟩ := Language.mem_mul.mp h
  have hPositive := List.length_pos_of_ne_nil (mem_takenOctet.mp hOctet).2
  have hSix := takenTail_length hTail
  rw [List.length_append]
  omega

theorem takenQuad_last {quad : Bytes} (h : quad ∈ takenQuad) :
    ∃ init, ∃ octet ∈ takenOctet, quad = init ++ dot :: octet := by
  obtain ⟨first, _, tail, hTail, rfl⟩ := Language.mem_mul.mp h
  obtain ⟨init, octet, hOctet, rfl⟩ := takenTail_last hTail
  exact ⟨first ++ init, octet, hOctet, by simp⟩

theorem DottedTaken.last {data : Bytes} (h : DottedTaken data) :
    9 ≤ data.length ∧ ∃ init, ∃ octet ∈ takenOctet, data = init ++ dot :: octet := by
  cases h with
  | @quad a b front back quad _ _ _ hQuad =>
      have hLength := takenQuad_length hQuad
      obtain ⟨init, octet, hOctet, rfl⟩ := takenQuad_last hQuad
      refine ⟨?_, front ++ colon :: colon :: (back ++ init), octet, hOctet, by simp⟩
      simp only [List.length_append, List.length_cons] at hLength ⊢
      omega
  | @headless quad hQuad hLength =>
      obtain ⟨init, octet, hOctet, rfl⟩ := takenTail_last hQuad
      refine ⟨?_, colon :: colon :: init, octet, hOctet, rfl⟩
      rw [List.length_cons, List.length_cons]
      omega

/-- The texts with a dot that the parser accepts. -/
theorem accepts_iff_dottedTaken {data : Bytes} (hDot : dot ∈ data) : AcceptsAddress data ↔ DottedTaken data := by
  constructor
  · rintro ⟨errno, h⟩
    rcases parseIpv6Address_parts h with hPlain | ⟨hLength, hDec⟩
    · exact absurd hDot hPlain.no_dot
    · exact dottedTaken_of_parseDec hLength hDec
  · intro h
    obtain ⟨errno, hDec⟩ := parseDec_of_dottedTaken h
    obtain ⟨hLength, init, octet, hOctet, rfl⟩ := h.last
    refine ⟨errno, ?_⟩
    rw [parseIpv6Address_octet hOctet hLength, hDec]

/-! ### The grammar -/

/-- `IPv6address` with an IPv4 address as its last 32 bits: behind six groups,
or behind an elision with at most five groups around it. -/
def Grammar.dottedAddress : Language UInt8 :=
  {w | (∃ front ∈ h16Colon ^ 6, ∃ quad ∈ ipv4Address, w = front ++ quad) ∨
    ∃ a b, a + b ≤ 5 ∧ ∃ front ∈ groups a, ∃ back ∈ h16Colon ^ b, ∃ quad ∈ ipv4Address,
      w = front ++ colon :: colon :: (back ++ quad)}

/-- With a dot there is an IPv4 part. -/
theorem mem_ipv6Address_dotted {w : Bytes} (hDot : dot ∈ w) :
    w ∈ Grammar.ipv6Address ↔ w ∈ Grammar.dottedAddress := by
  have hLast {b : Nat} {front quad : Bytes} (hFront : front ∈ Grammar.h16Colon ^ b)
      (hQuad : quad ∈ Grammar.ipv4Address) : front ++ quad ∈ Grammar.lastGroups (b + 2) :=
    Language.append_mem_mul hFront ((Language.mem_add _ _ _).mpr (.inr hQuad))
  rw [Grammar.mem_ipv6Address]
  constructor
  · rintro (h | ⟨a, b, hSum, front, hFront, back, hBack, rfl⟩)
    · rcases Grammar.mem_lastGroups h with h | ⟨b, hb, front, hFront, quad, hQuad, rfl⟩
      · exact absurd hDot (groups_no_dot h)
      · obtain rfl : b = 6 := by omega
        exact .inl ⟨front, hFront, quad, hQuad, rfl⟩
    · rcases Grammar.mem_lastGroups hBack with hBack | ⟨b, rfl, inner, hInner, quad, hQuad, rfl⟩
      · have hPlain := PlainAddress.no_dot (.inr ⟨a, b, .inl hSum, front, hFront, back, hBack, rfl⟩)
        exact absurd hDot hPlain
      · exact .inr ⟨a, b, by omega, front, hFront, inner, hInner, quad, hQuad, rfl⟩
  · rintro (⟨front, hFront, quad, hQuad, rfl⟩ | ⟨a, b, hSum, front, hFront, back, hBack, quad, hQuad, rfl⟩)
    · exact .inl (hLast hFront hQuad)
    · exact .inr ⟨a, b + 2, by omega, front, hFront, back ++ quad, hLast hBack hQuad, rfl⟩

theorem takenOctet_digits : ∀ octet ∈ takenOctet, dot ∉ octet := by
  intro octet hOctet hDot
  exact absurd (octetTaken_digits (mem_takenOctet.mp hOctet).1 dot hDot) (by decide)

theorem mem_takenQuad {quad : Bytes} :
    quad ∈ takenQuad ↔ (quad.splitOn dot).length = 4 ∧ ∀ octet ∈ quad.splitOn dot, octet ∈ takenOctet :=
  mem_separated takenOctet_digits

theorem looseOctet_of_taken {octet : Bytes} (h : octet ∈ takenOctet) : octet ∈ looseOctet := by
  rcases h with ⟨hOctet, _⟩ | ⟨c, hc, rfl⟩
  · exact .inl (.inl hOctet)
  · exact .inr (mem_literal_mul.mpr ⟨[c], ⟨c, hc, rfl⟩, rfl⟩)

theorem looseQuad_of_taken {quad : Bytes} (h : quad ∈ takenQuad) : quad ∈ looseQuad := by
  obtain ⟨hLength, hOctets⟩ := mem_takenQuad.mp h
  exact mem_looseQuad.mpr ⟨hLength, fun octet hOctet => looseOctet_of_taken (hOctets octet hOctet)⟩

theorem takenTail_loose {tail : Bytes} {n : Nat} (h : tail ∈ takenTail n) : tail ∈ (literal [dot] * looseOctet) ^ n := by
  induction n generalizing tail with
  | zero => exact h
  | succ n ih =>
      obtain ⟨first, hFirst, rest, hRest, rfl⟩ := mem_pow_succ.mp h
      obtain ⟨octet, hOctet, rfl⟩ := mem_literal_mul.mp hFirst
      exact mem_pow_succ.mpr ⟨_, mem_literal_mul.mpr ⟨octet, looseOctet_of_taken hOctet, rfl⟩, rest, ih hRest, rfl⟩

/-- Without its digits the first octet is empty. -/
theorem octets_headless {tail : Bytes} (h : tail ∈ takenTail 3) : [] ∈ octets (colon :: colon :: tail) := by
  have hEmpty : [] ∈ looseOctet := .inl (.inr rfl)
  have hLoose : tail ∈ looseQuad := Language.append_mem_mul hEmpty (takenTail_loose h)
  have hOctets : octets (colon :: colon :: tail) = tail.splitOn dot := @octets_of_quad [colon] tail hLoose
  rw [hOctets]
  obtain ⟨first, hFirst, rest, _, rfl⟩ := mem_pow_succ.mp h
  obtain ⟨octet, _, rfl⟩ := mem_literal_mul.mp hFirst
  have hSplit : ([] ++ dot :: (octet ++ rest)).splitOn dot = [].splitOn dot ++ (octet ++ rest).splitOn dot :=
    List.splitOnP_append_cons [] (octet ++ rest) (by simp)
  rw [List.append_assoc, List.singleton_append, ← List.nil_append (dot :: (octet ++ rest)), hSplit]
  simp

/-- The octets of a text that is accepted: the first one may be missing. -/
theorem DottedTaken.octets {data : Bytes} (h : DottedTaken data) :
    (∀ octet ∈ octets data, octet ∈ takenOctet) ∨ [] ∈ Uri.octets data := by
  cases h with
  | @quad a b front back quad _ _ hBack hQuad =>
      rw [octets_elided hBack (looseQuad_of_taken hQuad)]
      exact .inl (mem_takenQuad.mp hQuad).2
  | headless hQuad _ => exact .inr (octets_headless hQuad)

/-! ### Elisions -/

/-- Between the colons of an address without an elision there are digits. -/
theorem pieces_ne_nil {front quad : Bytes} {n : Nat} (hFront : front ∈ Grammar.h16Colon ^ n) (hColon : colon ∉ quad)
    (hNe : quad ≠ []) : [] ∉ (front ++ quad).splitOn colon := by
  induction n generalizing front with
  | zero =>
      obtain rfl := mem_pow_zero.mp hFront
      have hSingle : quad.splitOn colon = [quad] :=
        List.splitOnP_eq_singleton fun c hc => by simpa using fun hEq : c = colon => hColon (hEq ▸ hc)
      rw [List.nil_append, hSingle, List.mem_singleton]
      exact hNe.symm
  | succ n ih =>
      obtain ⟨first, hFirst, rest, hRest, rfl⟩ := mem_pow_succ.mp hFront
      obtain ⟨digits, hDigits, _, rfl, rfl⟩ := Language.mem_mul.mp hFirst
      obtain ⟨hDigitsNe, hDigitsColon, _⟩ := h16_chars hDigits
      have hSplit : (digits ++ colon :: (rest ++ quad)).splitOn colon = digits :: (rest ++ quad).splitOn colon :=
        List.splitOnP_append_cons_of_forall_mem (fun c hc => by
          simpa using fun hEq : c = colon => hDigitsColon (hEq ▸ hc)) colon (by simp) (rest ++ quad)
      have hText : digits ++ [colon] ++ rest ++ quad = digits ++ colon :: (rest ++ quad) := by simp
      rw [hText, hSplit, List.mem_cons]
      rintro (hNil | hMem)
      · exact hDigitsNe hNil.symm
      · exact ih hRest hMem

theorem piece_of_elision (front back : Bytes) : [] ∈ (front ++ colon :: colon :: back).splitOn colon := by
  have hSplit : (front ++ colon :: colon :: back).splitOn colon = front.splitOn colon ++ (colon :: back).splitOn colon :=
    List.splitOnP_append_cons front (colon :: back) (by simp)
  have hRest : ([] ++ colon :: back).splitOn colon = [].splitOn colon ++ back.splitOn colon :=
    List.splitOnP_append_cons [] back (by simp)
  rw [hSplit, ← List.nil_append (colon :: back), hRest]
  simp

theorem DottedTaken.elided {data : Bytes} (h : DottedTaken data) : [] ∈ data.splitOn colon := by
  cases h with
  | quad => exact piece_of_elision _ _
  | headless => exact piece_of_elision [] _

/-! ### Where they differ -/

/-- The texts with a dot on which the parser and the grammar differ. -/
inductive Misjudged : Bytes → Prop where
  /-- Six groups are refused: the test for eight of them is also made with an IPv4 part. -/
  | sixGroups {front quad : Bytes} (hFront : front ∈ Grammar.h16Colon ^ 6) (hQuad : quad ∈ Grammar.ipv4Address) :
      Misjudged (front ++ quad)
  /-- An octet from 150 to 155 is refused. -/
  | misread {a b : Nat} {front back quad octet : Bytes} (hSum : a + b ≤ 5) (hFront : front ∈ Grammar.groups a)
      (hBack : back ∈ Grammar.h16Colon ^ b) (hQuad : quad ∈ Grammar.ipv4Address) (hOctet : octet ∈ quad.splitOn dot)
      (hMisread : Misread octet) : Misjudged (front ++ colon :: colon :: (back ++ quad))
  /-- A leading zero in an octet of two digits is accepted. -/
  | zeroLed {a b : Nat} {front back quad octet : Bytes} (hSum : a + b ≤ 5) (hFront : front ∈ Grammar.groups a)
      (hBack : back ∈ Grammar.h16Colon ^ b) (hQuad : quad ∈ takenQuad) (hOctet : octet ∈ quad.splitOn dot)
      (hZero : ZeroLed octet) : Misjudged (front ++ colon :: colon :: (back ++ quad))
  /-- An elision that stands for no group is accepted. -/
  | overfull {a b : Nat} {front back quad : Bytes} (ha : 0 < a) (hb : 0 < b) (hSum : a + b = 6)
      (hFront : front ∈ Grammar.groups a) (hBack : back ∈ Grammar.h16Colon ^ b) (hQuad : quad ∈ takenQuad) :
      Misjudged (front ++ colon :: colon :: (back ++ quad))
  /-- A missing first octet is accepted, if the text is long enough to be read as an IPv4 address. -/
  | headless {quad : Bytes} (hQuad : quad ∈ takenTail 3) (hLength : 7 ≤ quad.length) :
      Misjudged (colon :: colon :: quad)

theorem misread_not_taken {octet : Bytes} (h : Misread octet) : octet ∉ takenOctet := by
  rintro (⟨_, hNot⟩ | ⟨c, _, hZero⟩)
  · exact hNot h
  · obtain ⟨d, _, rfl⟩ := h
    cases hZero

theorem zeroLed_not_clean {octet : Bytes} (h : ZeroLed octet) :
    ¬(octet ≠ [] ∧ (octet.head? = some 0x30 → octet.length = 1)) := by
  obtain ⟨c, _, rfl⟩ := h
  simp

theorem dottedAddress_of_parts {a b : Nat} {front back quad : Bytes} (hSum : a + b ≤ 5)
    (hFront : front ∈ Grammar.groups a) (hBack : back ∈ Grammar.h16Colon ^ b) (hQuad : quad ∈ Grammar.ipv4Address) :
    front ++ colon :: colon :: (back ++ quad) ∈ Grammar.dottedAddress :=
  .inr ⟨a, b, hSum, front, hFront, back, hBack, quad, hQuad, rfl⟩

/-- On a misjudged text the parser and the grammar differ. -/
theorem Misjudged.differ {data : Bytes} (h : Misjudged data) (hDot : dot ∈ data) :
    ¬(DottedTaken data ↔ data ∈ Grammar.dottedAddress) := by
  intro hAgree
  have hClean (hTaken : DottedTaken data) : CleanAddress data :=
    cleanAddress_of_mem ((mem_ipv6Address_dotted hDot).mpr (hAgree.mp hTaken))
  cases h with
  | @sixGroups front quad hFront hQuad =>
      have hTaken := hAgree.mpr (.inl ⟨front, hFront, quad, hQuad, rfl⟩)
      obtain ⟨hColon, hMem⟩ := looseQuad_chars (looseQuad_of_ipv4Address hQuad)
      exact pieces_ne_nil hFront hColon (List.ne_nil_of_mem hMem) hTaken.elided
  | @misread a b front back quad octet hSum hFront hBack hQuad hOctet hMisread =>
      have hTaken := hAgree.mpr (dottedAddress_of_parts hSum hFront hBack hQuad)
      have hOctets := hTaken.octets
      rw [octets_elided hBack (looseQuad_of_ipv4Address hQuad)] at hOctets
      rcases hOctets with hAll | hEmpty
      · exact misread_not_taken hMisread (hAll octet hOctet)
      · exact (decOctet_leading_zero ((mem_ipv4Address.mp hQuad).2 [] hEmpty)).1 rfl
  | @zeroLed a b front back quad octet hSum hFront hBack hQuad hOctet hZero =>
      have hOctets := (hClean (.quad (.inl hSum) hFront hBack hQuad)).octets
      rw [octets_elided hBack (looseQuad_of_taken hQuad)] at hOctets
      exact zeroLed_not_clean hZero (hOctets octet hOctet)
  | @overfull a b front back quad ha hb hSum hFront hBack hQuad =>
      have hGroups := (hClean (.quad (.inr ⟨hSum, ha, hb⟩) hFront hBack hQuad)).groups
      have hLoose := looseQuad_of_taken hQuad
      obtain ⟨hColon, hMem⟩ := looseQuad_chars hLoose
      have hNe : quad ≠ [] := List.ne_nil_of_mem hMem
      have hLast : (back ++ quad).getLast? ≠ some colon := by
        rw [List.getLast?_append_of_ne_nil back hNe]
        exact fun hMem => hColon (List.mem_of_getLast? hMem)
      exact @many_groups front (back ++ quad) a (b + 2) hFront (by rw [writtenGroups_quad hBack hLoose]) hLast
        (by simp [hNe]) ha (by omega) hGroups
  | headless hQuad hLength =>
      have hOctets := (hClean (.headless hQuad hLength)).octets
      exact (hOctets [] (octets_headless hQuad)).1 rfl

/-- On the other texts they agree. -/
theorem agree_of_not_misjudged {data : Bytes} (h : ¬Misjudged data) :
    DottedTaken data ↔ data ∈ Grammar.dottedAddress := by
  constructor
  · intro hTaken
    cases hTaken with
    | @quad a b front back quad hFits hFront hBack hQuad =>
        rcases hFits with hSum | ⟨hSum, ha, hb⟩
        · obtain ⟨hLength, hOctets⟩ := mem_takenQuad.mp hQuad
          refine dottedAddress_of_parts hSum hFront hBack (mem_ipv4Address.mpr ⟨hLength, fun octet hOctet => ?_⟩)
          rcases hOctets octet hOctet with ⟨hDec, _⟩ | hZero
          · exact hDec
          · exact (h (.zeroLed hSum hFront hBack hQuad hOctet hZero)).elim
        · exact (h (.overfull ha hb hSum hFront hBack hQuad)).elim
    | headless hQuad hLength => exact (h (.headless hQuad hLength)).elim
  · rintro (⟨front, hFront, quad, hQuad, rfl⟩ | ⟨a, b, hSum, front, hFront, back, hBack, quad, hQuad, rfl⟩)
    · exact (h (.sixGroups hFront hQuad)).elim
    · obtain ⟨hLength, hOctets⟩ := mem_ipv4Address.mp hQuad
      refine .quad (.inl hSum) hFront hBack (mem_takenQuad.mpr ⟨hLength, fun octet hOctet => ?_⟩)
      exact .inl ⟨hOctets octet hOctet, fun hMisread => h (.misread hSum hFront hBack hQuad hOctet hMisread)⟩

/-- On a text with a dot the parser and the grammar agree if and only if it is
not misjudged. -/
theorem accepts_dottedAddress_iff {data : Bytes} (hDot : dot ∈ data) :
    (AcceptsAddress data ↔ data ∈ Grammar.dottedAddress) ↔ ¬Misjudged data := by
  rw [accepts_iff_dottedTaken hDot]
  exact ⟨fun hAgree h => h.differ hDot hAgree, agree_of_not_misjudged⟩

/-- Groups of one digit each. -/
theorem digits_mem_h16Colon {digits : Bytes} (h : ∀ c ∈ digits, hexdig c = true) :
    (digits.flatMap fun c => [c, colon]) ∈ Grammar.h16Colon ^ digits.length := by
  induction digits with
  | nil => exact mem_pow_zero.mpr rfl
  | cons c digits ih =>
      rw [List.forall_mem_cons] at h
      have hGroup : [c] ∈ Grammar.h16 := mem_h16.mpr ⟨by simp, by simp, by simpa using h.1⟩
      exact mem_pow_succ.mpr ⟨[c] ++ [colon], Language.append_mem_mul hGroup rfl, _, ih h.2, rfl⟩

/-- The IPv4 address "1.2.3.4". -/
def dottedQuad : Bytes := [0x31, dot, 0x32, dot, 0x33, dot, 0x34]

theorem dottedQuad_mem : dottedQuad ∈ Grammar.ipv4Address := by
  refine mem_ipv4Address.mpr ⟨by decide, fun octet hOctet => ?_⟩
  have hSplit : dottedQuad.splitOn dot = [[0x31], [0x32], [0x33], [0x34]] := by decide
  rw [hSplit] at hOctet
  have hDigit : ∀ octet ∈ ([[0x31], [0x32], [0x33], [0x34]] : List Bytes), ∃ c, digit c = true ∧ octet = [c] := by
    simp [digit]
  exact mem_decOctet.mpr (.inl (hDigit octet hOctet))

/-- The address "1:2:3:4:5:6:1.2.3.4". -/
def sixGroupAddress : Bytes :=
  ([0x31, 0x32, 0x33, 0x34, 0x35, 0x36].flatMap fun c => [c, colon]) ++ dottedQuad

/-- The address is one of the grammar, and the parser refuses it. -/
theorem sixGroupAddress_refused :
    dot ∈ sixGroupAddress ∧ parseIpv6Address sixGroupAddress = .ok (false, .uriInvlIpLit) ∧
      sixGroupAddress ∈ Grammar.dottedAddress := by
  have hGroups := @digits_mem_h16Colon [0x31, 0x32, 0x33, 0x34, 0x35, 0x36] (List.all_eq_true.mp (by decide))
  exact ⟨by decide, by decide +kernel, .inl ⟨_, hGroups, dottedQuad, dottedQuad_mem, rfl⟩⟩

/-- The address "::1.2.3.4". -/
theorem accepts_dottedAddress_iff_quad :
    (AcceptsAddress (colon :: colon :: dottedQuad) ↔ colon :: colon :: dottedQuad ∈ Grammar.dottedAddress) ↔
      ¬Misjudged (colon :: colon :: dottedQuad) :=
  accepts_dottedAddress_iff (by decide)

end ImpactSockets.Uri
