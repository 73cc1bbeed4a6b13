import ImpactSockets.Rfc.Uri.CleanLiteral

/-! The IPv6 addresses without an IPv4 part, and which of them the parser
accepts. -/
namespace ImpactSockets.Uri

open Abnf AbnfOps Ascii
open scoped Computability

/-! ### The loop over groups -/

/-- An iteration that is not the last one. -/
theorem hexLoop_next {front behind : Bytes} {c : UInt8} {st next : HexState} (hNe : front ≠ [])
    (hStep : hexStep c false st = .next next) :
    hexLoop (front ++ c :: behind) front.length st = hexLoop (front ++ c :: behind) (front.length - 1) next := by
  obtain ⟨init, d, rfl⟩ := (List.eq_nil_or_concat' front).resolve_left hNe
  have hRead : readAt (init ++ [d] ++ c :: behind) (init.length + 1) = .ok c := by
    have hPlace := readAt_place (init ++ [d]) behind c
    simpa [place] using hPlace
  rw [List.length_append, List.length_singleton, Nat.add_sub_cancel, hexLoop, hRead]
  simp only [bind, Except.bind, hStep]

/-- The last iteration. -/
theorem hexLoop_first {behind : Bytes} {c : UInt8} {st next : HexState} (hStep : hexStep c true st = .next next) :
    hexLoop (c :: behind) 0 st = .ok (some (0, next)) := by
  have hRead : readAt (c :: behind) 0 = .ok c := readAt_place [] behind c
  rw [hexLoop, hRead]
  simp only [bind, Except.bind, hStep]

theorem hexStep_digit {c : UInt8} (hc : hexdig c = true) {atZero : Bool} {st : HexState} (hCount : st.hcnt < 4) :
    hexStep c atZero st = .next { st with hcnt := st.hcnt + 1 } := by
  rw [hexStep, if_pos hc, if_neg (by omega)]

/-- A colon in front of a group. -/
theorem hexStep_colon {atZero : Bool} {st : HexState} (hCount : 0 < st.hcnt) (hGroups : st.hgrp < 8) :
    hexStep Ascii.colon atZero st = .next { st with hcnt := 0, hgrp := st.hgrp + 1 } := by
  have hEight : (st.hgrp == 8) = false := by
    rw [beq_eq_false_iff_ne]
    omega
  rw [hexStep, if_neg (by decide), if_pos (by decide), if_pos hCount, hEight]
  rfl

/-- A colon in front of a colon, the first time. -/
theorem hexStep_elision {atZero : Bool} {st : HexState} (hCount : st.hcnt = 0) (hFirst : st.havePlaceholder = false) :
    hexStep Ascii.colon atZero st =
      .next { st with havePlaceholder := true, pIdxZ := atZero, hgrp := st.hgrp - 1 } := by
  rw [hexStep, if_neg (by decide), if_pos (by decide), if_neg (by omega), hFirst]
  rfl

theorem hexLoop_digits {front digits behind : Bytes} {count : Nat} {groups : Int} {placeholder atZero : Bool}
    (hNe : front ≠ []) (hDigits : ∀ c ∈ digits, hexdig c = true) (hCount : count + digits.length ≤ 4) :
    hexLoop (front ++ (digits ++ behind)) ((front ++ digits).length - 1) ⟨count, groups, placeholder, atZero⟩ =
      hexLoop (front ++ (digits ++ behind)) (front.length - 1)
        ⟨count + digits.length, groups, placeholder, atZero⟩ := by
  induction digits using List.reverseRecOn generalizing behind count with
  | nil => simp
  | append_singleton digits c ih =>
      rw [List.length_append, List.length_singleton] at hCount
      have hData : front ++ (digits ++ [c] ++ behind) = front ++ digits ++ c :: behind := by simp
      have hIndex : (front ++ (digits ++ [c])).length - 1 = (front ++ digits).length := by simp
      have hStep : hexStep c false ⟨count, groups, placeholder, atZero⟩ =
          .next ⟨count + 1, groups, placeholder, atZero⟩ :=
        hexStep_digit (hDigits c (by simp)) (show count < 4 by omega)
      rw [hData, hIndex, hexLoop_next (by simp [hNe]) hStep, List.append_assoc]
      rw [ih (fun d hd => hDigits d (List.mem_append_left _ hd)) (by omega)]
      congr 2
      rw [List.length_append, List.length_singleton]
      omega

/-- The group that the text begins with. -/
theorem hexLoop_firstGroup {digits behind : Bytes} {groups : Int} {placeholder atZero : Bool}
    (hGroup : digits ∈ Grammar.h16) :
    hexLoop (digits ++ behind) (digits.length - 1) ⟨0, groups, placeholder, atZero⟩ =
      .ok (some (0, ⟨digits.length, groups, placeholder, atZero⟩)) := by
  obtain ⟨hNe, hLength, hDigits⟩ := mem_h16.mp hGroup
  obtain ⟨c, rest, rfl⟩ := List.exists_cons_of_ne_nil hNe
  rw [List.forall_mem_cons] at hDigits
  rw [List.length_cons] at hLength
  have hRest := @hexLoop_digits [c] rest behind 0 groups placeholder atZero (by simp) hDigits.2 (by omega)
  rw [List.singleton_append, List.singleton_append] at hRest
  have hStep : hexStep c true ⟨0 + rest.length, groups, placeholder, atZero⟩ =
      .next ⟨0 + rest.length + 1, groups, placeholder, atZero⟩ :=
    hexStep_digit hDigits.1 (show 0 + rest.length < 4 by omega)
  rw [List.cons_append, hRest, List.length_singleton, Nat.sub_self, hexLoop_first hStep, List.length_cons,
    Nat.zero_add]

/-- Groups behind colons, up to the one that ends in front of them. -/
theorem hexLoop_groups {front tail behind : Bytes} {n : Nat} {groups : Int} {placeholder atZero : Bool}
    (hNe : front ≠ []) (hTail : tail ∈ colonH16 ^ n) (hRoom : groups + n ≤ 8) :
    hexLoop (front ++ (tail ++ behind)) ((front ++ tail).length - 1) ⟨0, groups, placeholder, atZero⟩ =
      hexLoop (front ++ (tail ++ behind)) (front.length - 1) ⟨0, groups + n, placeholder, atZero⟩ := by
  induction n generalizing tail behind groups with
  | zero =>
      obtain rfl := mem_pow_zero.mp hTail
      simp
  | succ n ih =>
      rw [pow_succ] at hTail
      obtain ⟨init, hInit, last, hLast, rfl⟩ := Language.mem_mul.mp hTail
      obtain ⟨digits, hDigits, rfl⟩ := mem_literal_mul.mp hLast
      obtain ⟨hSome, hLength, hHex⟩ := mem_h16.mp hDigits
      have hPositive : 0 < digits.length := List.length_pos_of_ne_nil hSome
      have hData : front ++ (init ++ ([colon] ++ digits) ++ behind) =
          front ++ init ++ [colon] ++ (digits ++ behind) := by simp
      have hIndex : (front ++ (init ++ ([colon] ++ digits))).length = (front ++ init ++ [colon] ++ digits).length := by
        simp
      have hColon : (front ++ init ++ [colon]).length - 1 = (front ++ init).length := by simp
      have hStep : hexStep Ascii.colon false ⟨0 + digits.length, groups, placeholder, atZero⟩ =
          .next ⟨0, groups + 1, placeholder, atZero⟩ :=
        hexStep_colon (show 0 < 0 + digits.length by omega) (show groups < 8 by omega)
      rw [hData, hIndex, hexLoop_digits (by simp) hHex (by omega), hColon, List.append_assoc]
      rw [List.singleton_append, hexLoop_next (by simp [hNe]) hStep]
      rw [List.append_assoc, ih hInit (by omega)]
      congr 2
      omega

/-! ### Groups -/

theorem groups_split {n : Nat} {text : Bytes} (h : text ∈ Grammar.groups (n + 1)) :
    ∃ digits ∈ Grammar.h16, ∃ tail ∈ colonH16 ^ n, text = digits ++ tail := by
  rw [groups_succ] at h
  obtain ⟨digits, hDigits, tail, hTail, rfl⟩ := Language.mem_mul.mp h
  exact ⟨digits, hDigits, tail, hTail, rfl⟩

theorem colon_cons_groups {n : Nat} {text : Bytes} (h : text ∈ Grammar.groups (n + 1)) :
    colon :: text ∈ colonH16 ^ (n + 1) := by
  obtain ⟨digits, hDigits, tail, hTail, rfl⟩ := groups_split h
  exact colon_cons_mem hDigits hTail

theorem groups_ne_nil {n : Nat} {text : Bytes} (h : text ∈ Grammar.groups (n + 1)) : text ≠ [] :=
  (groups_chars h).2.2.2.2

theorem colon_not_hexdig {c : UInt8} (hc : hexdig c = true) : c ≠ colon := by
  rintro rfl
  exact absurd hc (by decide)

theorem groups_last {n : Nat} {text : Bytes} (h : text ∈ Grammar.groups (n + 1)) :
    ∃ init last, text = init ++ [last] ∧ hexdig last = true := by
  obtain ⟨front, _, digits, hDigits, rfl⟩ := Language.mem_mul.mp h
  obtain ⟨hNe, _, hHex⟩ := mem_h16.mp hDigits
  obtain ⟨init, last, rfl⟩ := (List.eq_nil_or_concat' digits).resolve_left hNe
  exact ⟨front ++ init, last, by simp, hHex last (by simp)⟩

/-- Groups that the text begins with. -/
theorem hexLoop_text {text behind : Bytes} {n : Nat} {groups : Int} {placeholder atZero : Bool}
    (h : text ∈ Grammar.groups (n + 1)) (hRoom : groups + n ≤ 8) :
    ∃ count, hexLoop (text ++ behind) (text.length - 1) ⟨0, groups, placeholder, atZero⟩ =
      .ok (some (0, ⟨count, groups + n, placeholder, atZero⟩)) := by
  obtain ⟨digits, hDigits, tail, hTail, rfl⟩ := groups_split h
  refine ⟨digits.length, ?_⟩
  rw [List.append_assoc, hexLoop_groups (mem_h16.mp hDigits).1 hTail hRoom]
  exact hexLoop_firstGroup hDigits

/-! ### The tests behind the loop -/

theorem parseHex_ok {data : Bytes} {currentIdx : Nat} {havePlaceholder haveIpv4 : Bool} {st : HexState}
    (hNe : data ≠ []) (hLoop : hexLoop data currentIdx ⟨0, 0, havePlaceholder, false⟩ = .ok (some (0, st)))
    (hHead : st.pIdxZ = true ∨ data.head? ≠ some colon)
    (hElided : st.havePlaceholder = true → st.hgrp + 1 ≤ groupLimit haveIpv4)
    (hUnelided : st.havePlaceholder = false → haveIpv4 = false ∧ st.hgrp + 1 = 8) :
    parseHex data currentIdx havePlaceholder haveIpv4 = .ok (true, .success) := by
  obtain ⟨c, rest, rfl⟩ := List.exists_cons_of_ne_nil hNe
  have hRead : readAt (c :: rest) 0 = .ok c := readAt_place [] rest c
  have hBegin : (!st.pIdxZ && c == colon) = false := by
    rcases hHead with hZero | hHead
    · rw [hZero]
      rfl
    · rw [beq_eq_false_iff_ne.mpr fun hc => hHead (congrArg some hc), Bool.and_false]
  simp only [parseHex, hLoop, bind, Except.bind, hRead, hBegin, Bool.false_eq_true, if_false, ne_eq,
    not_true_eq_false]
  cases hPlaceholder : st.havePlaceholder with
  | true =>
      have hLimit := hElided hPlaceholder
      cases haveIpv4 with
      | true =>
          have hFive : ¬5 < st.hgrp + 1 := Int.not_lt.mpr hLimit
          simp [hFive]
      | false =>
          have hSeven : ¬7 < st.hgrp + 1 := Int.not_lt.mpr hLimit
          simp [hSeven]
  | false =>
      obtain ⟨rfl, hEight⟩ := hUnelided hPlaceholder
      simp [hEight]

/-- Eight groups. -/
theorem parseHex_full {text : Bytes} (h : text ∈ Grammar.groups 8) :
    parseHex text (text.length - 1) false false = .ok (true, .success) := by
  obtain ⟨count, hLoop⟩ := @hexLoop_text text [] 7 0 false false h (by decide)
  rw [List.append_nil] at hLoop
  apply parseHex_ok (groups_ne_nil h) hLoop (.inr (groups_chars h).2.2.1)
  · intro hFalse
    cases hFalse
  · intro _
    exact ⟨rfl, rfl⟩

/-- Groups in front of an elision that has been passed over. -/
theorem parseHex_front {text behind : Bytes} {n : Nat} {haveIpv4 : Bool} (h : text ∈ Grammar.groups (n + 1))
    (hLimit : (n : Int) + 1 ≤ groupLimit haveIpv4) :
    parseHex (text ++ behind) (text.length - 1) true haveIpv4 = .ok (true, .success) := by
  have hSmall : groupLimit haveIpv4 ≤ 7 := by cases haveIpv4 <;> decide
  obtain ⟨count, hLoop⟩ := @hexLoop_text text behind n 0 true false h (by omega)
  have hHead : (text ++ behind).head? ≠ some colon := by
    rw [List.head?_append_of_ne_nil _ (groups_ne_nil h)]
    exact (groups_chars h).2.2.1
  apply parseHex_ok (List.append_ne_nil_of_left_ne_nil (groups_ne_nil h) _) hLoop (.inr hHead)
  · intro _
    dsimp only
    omega
  · intro hTrue
    cases hTrue

/-- An elision in front of groups, with or without groups in front of it. -/
theorem parseHex_elided {front back behind : Bytes} {a b : Nat} {haveIpv4 : Bool}
    (hFits : Fits (groupLimit haveIpv4) a (b + 1)) (hFront : front ∈ Grammar.groups a)
    (hBack : back ∈ Grammar.groups (b + 1)) :
    parseHex (front ++ colon :: colon :: back ++ behind) ((front ++ colon :: colon :: back).length - 1) false haveIpv4 =
      .ok (true, .success) := by
  have hSmall : groupLimit haveIpv4 ≤ 7 := by cases haveIpv4 <;> decide
  have hRoom : (0 : Int) + (b + 1 : Nat) ≤ 8 := by
    unfold Fits at hFits
    omega
  have hData : front ++ colon :: colon :: back ++ behind = front ++ [colon] ++ (colon :: back ++ behind) := by simp
  have hLength : (front ++ colon :: colon :: back).length = (front ++ [colon] ++ colon :: back).length := by simp
  have hGroups := @hexLoop_groups (front ++ [colon]) (colon :: back) behind (b + 1) 0 false false (by simp)
    (colon_cons_groups hBack) hRoom
  have hIndex : (front ++ [colon]).length - 1 = front.length := by simp
  rw [hIndex] at hGroups
  rw [hData, hLength]
  cases a with
  | zero =>
      obtain rfl : front = [] := hFront
      have hStep : hexStep Ascii.colon true ⟨0, 0 + (b + 1 : Nat), false, false⟩ =
          .next ⟨0, 0 + (b + 1 : Nat) - 1, true, true⟩ := hexStep_elision rfl rfl
      rw [List.nil_append, List.singleton_append] at hGroups ⊢
      rw [List.length_nil, hexLoop_first hStep] at hGroups
      apply parseHex_ok (by simp) hGroups (.inl rfl)
      · intro _
        dsimp only
        unfold Fits at hFits
        omega
      · intro hTrue
        cases hTrue
  | succ n =>
      have hStep : hexStep Ascii.colon false ⟨0, 0 + (b + 1 : Nat), false, false⟩ =
          .next ⟨0, 0 + (b + 1 : Nat) - 1, true, false⟩ := hexStep_elision rfl rfl
      obtain ⟨count, hLoop⟩ := @hexLoop_text front (colon :: (colon :: back ++ behind)) n
        (0 + (b + 1 : Nat) - 1) true false hFront (by
          unfold Fits at hFits
          omega)
      rw [List.append_assoc, List.singleton_append] at hGroups ⊢
      rw [hexLoop_next (groups_ne_nil hFront) hStep, hLoop] at hGroups
      have hHead : (front ++ colon :: (colon :: back ++ behind)).head? ≠ some colon := by
        rw [List.head?_append_of_ne_nil _ (groups_ne_nil hFront)]
        exact (groups_chars hFront).2.2.1
      apply parseHex_ok (by simp) hGroups (.inr hHead)
      · intro _
        dsimp only
        unfold Fits at hFits
        omega
      · intro hTrue
        cases hTrue

/-! ### Addresses without an IPv4 part -/

/-- `_S_parse_ipv6_address` returns true. -/
def AcceptsAddress (data : Bytes) : Prop := ∃ errno, parseIpv6Address data = .ok (true, errno)

/-- `IPv6address` without the alternatives that have an IPv4 part: eight
groups, or an elision with at most seven groups on its two sides. -/
def Grammar.hexAddress : Language UInt8 :=
  {w | w ∈ groups 8 ∨ ∃ a b, a + b ≤ 7 ∧ ∃ front ∈ groups a, ∃ back ∈ groups b, w = front ++ colon :: colon :: back}

/-- An elision that stands for no group, with groups on both sides. -/
def Overfull (data : Bytes) : Prop :=
  ∃ a b, 0 < a ∧ 0 < b ∧ a + b = 8 ∧ ∃ front ∈ Grammar.groups a, ∃ back ∈ Grammar.groups b,
    data = front ++ colon :: colon :: back

/-- Without a dot there is no IPv4 part. -/
theorem mem_ipv6Address_iff {w : Bytes} (hDot : dot ∉ w) : w ∈ Grammar.ipv6Address ↔ w ∈ Grammar.hexAddress := by
  have hLast (n : Nat) (front back : Bytes) (hMem : dot ∉ front ++ back) :
      back ∈ Grammar.lastGroups n ↔ back ∈ Grammar.groups n := by
    refine ⟨?_, fun h => Grammar.lastGroups_of_groups n h⟩
    intro h
    rcases Grammar.mem_lastGroups h with hGroups | ⟨_, _, _, _, quad, hQuad, rfl⟩
    · exact hGroups
    · have hDot := (looseQuad_chars (looseQuad_of_ipv4Address hQuad)).2
      exact absurd (List.mem_append_right front (List.mem_append_right _ hDot)) hMem
  rw [Grammar.mem_ipv6Address, hLast 8 [] w (by simpa using hDot)]
  refine or_congr_right ?_
  constructor
  · rintro ⟨a, b, hSum, front, hFront, back, hBack, rfl⟩
    have hMem : dot ∉ front ++ [colon, colon] ++ back := by simpa using hDot
    exact ⟨a, b, hSum, front, hFront, back, (hLast b _ back hMem).mp hBack, rfl⟩
  · rintro ⟨a, b, hSum, front, hFront, back, hBack, rfl⟩
    exact ⟨a, b, hSum, front, hFront, back, Grammar.lastGroups_of_groups b hBack, rfl⟩

theorem readAt_mem {data : Bytes} {i : Nat} (h : i < data.length) : ∃ c ∈ data, readAt data i = .ok c := by
  refine ⟨data[i], List.getElem_mem h, ?_⟩
  rw [readAt, List.getElem?_eq_getElem h]

/-- A text that ends with a digit is read from its end on. -/
theorem parseIpv6Address_digit {init : Bytes} {last : UInt8} (hDigit : hexdig last = true) (hInit : 2 ≤ init.length)
    (hDot : dot ∉ init) :
    parseIpv6Address (init ++ [last]) = parseHex (init ++ [last]) ((init ++ [last]).length - 1) false false := by
  have hLength : (init ++ [last]).length = init.length + 1 := by simp
  have hIndex : init.length + 1 - 1 = init.length := rfl
  have hLast : readAt (init ++ [last]) init.length = .ok last := readAt_place init [] last
  have hInner (i : Nat) (hi : i < init.length) : ∃ c ∈ init, readAt (init ++ [last]) i = .ok c := by
    obtain ⟨c, hc, hRead⟩ := readAt_mem hi
    refine ⟨c, hc, ?_⟩
    rw [readAt, List.getElem?_append_left hi]
    exact hRead
  obtain ⟨previous, hPrevious, hReadPrevious⟩ := hInner (init.length - 1) (by omega)
  have hNoElision : (last == colon && previous == colon) = false := by
    rw [beq_eq_false_iff_ne.mpr (colon_not_hexdig hDigit), Bool.false_and]
  unfold parseIpv6Address
  rw [if_neg (by omega)]
  simp only [hLength, hIndex, hLast, hReadPrevious, bind, Except.bind, hNoElision, Bool.false_eq_true, if_false,
    hDigit, if_true]
  by_cases hShort : init.length + 1 < 9
  · rw [if_pos hShort, if_neg (by omega)]
  · obtain ⟨second, hSecond, hReadSecond⟩ := hInner (init.length - 2) (by omega)
    obtain ⟨third, hThird, hReadThird⟩ := hInner (init.length - 3) (by omega)
    have hNotDot (c : UInt8) (hc : c ∈ init) : (c == dot) = false := by
      rw [beq_eq_false_iff_ne]
      rintro rfl
      exact hDot hc
    rw [if_neg hShort]
    simp [hReadSecond, hReadThird, hNotDot _ hPrevious, hNotDot _ hSecond, hNotDot _ hThird]

theorem accepts_of_digit {init : Bytes} {last : UInt8} (hDigit : hexdig last = true) (hInit : 2 ≤ init.length)
    (hDot : dot ∉ init ++ [last])
    (h : parseHex (init ++ [last]) ((init ++ [last]).length - 1) false false = .ok (true, .success)) :
    AcceptsAddress (init ++ [last]) := by
  refine ⟨.success, ?_⟩
  rw [parseIpv6Address_digit hDigit hInit fun hMem => hDot (List.mem_append_left _ hMem), h]

theorem accepts_full {data : Bytes} (hDot : dot ∉ data) (h : data ∈ Grammar.groups 8) : AcceptsAddress data := by
  have hHex := parseHex_full h
  obtain ⟨init, last, rfl, hDigit⟩ := groups_last h
  have hLong : 7 ≤ (init ++ [last]).length := by
    rw [← (groups_chars h).1]
    exact List.count_le_length
  rw [List.length_append, List.length_singleton] at hLong
  exact accepts_of_digit hDigit (by omega) hDot hHex

theorem accepts_elided {front back : Bytes} {a b : Nat} (hDot : dot ∉ front ++ colon :: colon :: back)
    (hFits : Fits 7 a b) (hFront : front ∈ Grammar.groups a) (hBack : back ∈ Grammar.groups b) :
    AcceptsAddress (front ++ colon :: colon :: back) := by
  cases b with
  | zero =>
      obtain rfl : back = [] := hBack
      have hData : front ++ [colon, colon] = front ++ [colon] ++ [colon] := by simp
      have hLast : readAt (front ++ [colon, colon]) (front.length + 1) = .ok colon := by
        rw [hData]
        simpa using readAt_place (front ++ [colon]) [] colon
      have hPrevious : readAt (front ++ [colon, colon]) front.length = .ok colon := readAt_place front [colon] colon
      cases a with
      | zero =>
          obtain rfl : front = [] := hFront
          exact ⟨.uriInvlIpLit, rfl⟩
      | succ n =>
          have hLimit : (n : Int) + 1 ≤ groupLimit false := by
            unfold Fits at hFits
            simp only [groupLimit, Bool.false_eq_true, if_false]
            omega
          have hHex := @parseHex_front front [colon, colon] n false hFront hLimit
          have hNe : front.length ≠ 0 := List.length_eq_zero_iff.not.mpr (groups_ne_nil hFront)
          refine ⟨.success, ?_⟩
          unfold parseIpv6Address
          rw [if_neg (by simp)]
          simpa [hLast, hPrevious, bind, Except.bind, hNe] using hHex
  | succ b =>
      have hHex := @parseHex_elided front back [] a b false hFits hFront hBack
      rw [List.append_nil] at hHex
      obtain ⟨init, last, rfl, hDigit⟩ := groups_last hBack
      have hData : front ++ colon :: colon :: (init ++ [last]) = front ++ colon :: colon :: init ++ [last] := by simp
      rw [hData] at hDot hHex ⊢
      exact accepts_of_digit hDigit (by simp; omega) hDot hHex

/-- The texts without a dot that the parser accepts. -/
theorem accepts_iff_fits {data : Bytes} (hDot : dot ∉ data) :
    AcceptsAddress data ↔ data ∈ Grammar.hexAddress ∨ Overfull data := by
  constructor
  · rintro ⟨errno, h⟩
    cases parseIpv6Address_split h with
    | full hGroups => exact .inl (.inl hGroups)
    | @elided a b front back hFits hFront hBack =>
        rcases hFits with hSum | ⟨hSum, ha, hb⟩
        · exact .inl (.inr ⟨a, b, hSum, front, hFront, back, hBack, rfl⟩)
        · exact .inr ⟨a, b, ha, hb, hSum, front, hFront, back, hBack, rfl⟩
    | @quad a b front back quad _ _ _ hQuad =>
        exact absurd (by simp [(looseQuad_chars hQuad).2]) hDot
  · rintro ((hGroups | ⟨a, b, hSum, front, hFront, back, hBack, rfl⟩) |
      ⟨a, b, ha, hb, hSum, front, hFront, back, hBack, rfl⟩)
    · exact accepts_full hDot hGroups
    · exact accepts_elided hDot (.inl hSum) hFront hBack
    · exact accepts_elided hDot (.inr ⟨hSum, ha, hb⟩) hFront hBack

/-! ### The colons of an address -/

/-- An address with colons for an elision between eight groups, but none at its
ends, is not one of the grammar. -/
theorem not_mem_hexAddress {data : Bytes} (hHead : data.head? ≠ some colon) (hLast : data.getLast? ≠ some colon)
    (hCount : data.count colon = 8) : data ∉ Grammar.hexAddress := by
  rintro (hGroups | ⟨a, b, hSum, front, hFront, back, hBack, rfl⟩)
  · rw [(groups_chars hGroups).1] at hCount
    exact absurd hCount (by decide)
  · cases a with
    | zero =>
        obtain rfl : front = [] := hFront
        exact hHead rfl
    | succ a =>
        cases b with
        | zero =>
            obtain rfl : back = [] := hBack
            exact hLast (by simp)
        | succ b =>
            rw [List.count_append, List.count_cons_self, List.count_cons_self, (groups_chars hFront).1,
              (groups_chars hBack).1] at hCount
            omega

theorem overfull_not_mem {data : Bytes} (h : Overfull data) : data ∉ Grammar.hexAddress := by
  obtain ⟨a, b, ha, hb, hSum, front, hFront, back, hBack, rfl⟩ := h
  obtain ⟨n, rfl⟩ := Nat.exists_eq_add_of_le' ha
  obtain ⟨k, rfl⟩ := Nat.exists_eq_add_of_le' hb
  obtain ⟨hFrontCount, _, hHead, _, hFrontNe⟩ := groups_chars hFront
  obtain ⟨hBackCount, _, _, hLast, hBackNe⟩ := groups_chars hBack
  apply not_mem_hexAddress
  · rw [List.head?_append_of_ne_nil _ hFrontNe]
    exact hHead
  · rw [List.getLast?_append_of_ne_nil _ (by simp), List.getLast?_cons_cons, List.getLast?_cons_of_ne_nil hBackNe]
    exact hLast
  · rw [List.count_append, List.count_cons_self, List.count_cons_self, hFrontCount, hBackCount]
    omega

/-- On a text without a dot the parser and the grammar agree if and only if it
is not an elision with eight groups around it, some on each side. -/
theorem accepts_hexAddress_iff {data : Bytes} (hDot : dot ∉ data) :
    (AcceptsAddress data ↔ data ∈ Grammar.hexAddress) ↔ ¬Overfull data := by
  rw [accepts_iff_fits hDot]
  constructor
  · intro h hOverfull
    exact overfull_not_mem hOverfull (h.mp (.inr hOverfull))
  · intro h
    exact or_iff_left h

/-- The address "1:2:3:4:5:6:7:8" with one more colon behind its first. -/
def overfullAddress : Bytes :=
  [0x31, colon, colon, 0x32, colon, 0x33, colon, 0x34, colon, 0x35, colon, 0x36, colon, 0x37, colon, 0x38]

/-- The address is none of the grammar, as it writes out eight groups next to
its elision, and the parser accepts it. -/
theorem overfullAddress_accepted :
    dot ∉ overfullAddress ∧ parseIpv6Address overfullAddress = .ok (true, .success) ∧
      overfullAddress ∉ Grammar.hexAddress :=
  ⟨by decide, by decide +kernel, not_mem_hexAddress (by decide) (by decide) (by decide)⟩

/-- The address "1::". -/
theorem accepts_hexAddress_iff_elided :
    (AcceptsAddress [0x31, colon, colon] ↔ [0x31, colon, colon] ∈ Grammar.hexAddress) ↔
      ¬Overfull [0x31, colon, colon] :=
  accepts_hexAddress_iff (by decide)

end ImpactSockets.Uri
