import ImpactSockets.Rfc.Uri.Ipv6Completeness

/-! The octets of an IPv4 address as the loop at the label `dec` takes them, from
the last digit to the first. -/
namespace ImpactSockets.Uri

open Abnf AbnfOps Ascii
open scoped Computability

/-! ### The states -/

/-- The state behind the last digit of an octet. -/
def unitsMode (c : UInt8) : OctetMode := if c ≤ 0x35 then .five else .four

/-- The state behind the last two digits. -/
def tensMode (b c : UInt8) : OctetMode :=
  if b = 0x35 ∧ c ≤ 0x35 then .five else if b ≤ 0x34 then .four else .three

/-- The digits that are taken in front of two others. -/
def hundredsDigit : OctetMode → UInt8 → Bool
  | .five, a => a == 0x32
  | .four, a => a == 0x32 || a == 0x31
  | .three, a => a == 0x31

/-- The digits that the loop takes for an octet, of which there may be none yet. -/
def OctetTaken : Bytes → Prop
  | [] => True
  | [c] => digit c = true
  | [b, c] => digit b = true ∧ digit c = true
  | [a, b, c] => hundredsDigit (tensMode b c) a = true ∧ digit b = true ∧ digit c = true
  | _ => False

/-- The locals behind the digits of an octet. -/
def octetState : Bytes → Nat → DecState
  | [], n => ⟨.five, 0, n⟩
  | [c], n => ⟨unitsMode c, 1, n⟩
  | [b, c], n => ⟨tensMode b c, 2, n⟩
  | _ :: b :: c :: _, n => ⟨tensMode b c, 3, n⟩

@[simp]
theorem octetState_dgrp (octet : Bytes) (n : Nat) : (octetState octet n).dgrp = n := by
  rcases octet with _ | ⟨a, _ | ⟨b, _ | ⟨c, tail⟩⟩⟩ <;> rfl

theorem octetState_dcnt {octet : Bytes} (h : octet ≠ []) (n : Nat) : (octetState octet n).dcnt ≠ 0 := by
  rcases octet with _ | ⟨a, _ | ⟨b, _ | ⟨c, tail⟩⟩⟩
  · exact absurd rfl h
  all_goals exact Nat.succ_ne_zero _

/-! ### One character -/

/-- What may stand in front of an octet, by the number of octets alone. -/
def delimiter (c : UInt8) (n : Nat) : Iteration DecState :=
  if c == dot then .next ⟨.five, 0, n + 1⟩ else if c == colon then .leave else .fail

set_option maxRecDepth 4000 in
/-- The tests on the last digit. -/
theorem digit_by_six : ∀ c : UInt8,
    (between 0x30 0x35 c = true ∧ digit c = true ∧ c ≤ 0x35) ∨
      (between 0x30 0x35 c = false ∧ between 0x36 0x39 c = true ∧ digit c = true ∧ ¬c ≤ 0x35) ∨
      (between 0x30 0x35 c = false ∧ between 0x36 0x39 c = false ∧ digit c = false) := by
  decide

set_option maxRecDepth 4000 in
/-- The tests on the digit in front of one up to 5, and in front of another one. -/
theorem digit_by_five : ∀ b : UInt8,
    ((b == 0x35) = true ∧ between 0x30 0x34 b = false ∧ between 0x35 0x39 b = true ∧ digit b = true ∧ ¬b ≤ 0x34) ∨
      ((b == 0x35) = false ∧ between 0x30 0x34 b = true ∧ digit b = true ∧ b ≤ 0x34) ∨
      ((b == 0x35) = false ∧ between 0x30 0x34 b = false ∧ between 0x36 0x39 b = true ∧ between 0x35 0x39 b = true ∧
        digit b = true ∧ ¬b ≤ 0x34) ∨
      ((b == 0x35) = false ∧ between 0x30 0x34 b = false ∧ between 0x36 0x39 b = false ∧ between 0x35 0x39 b = false ∧
        digit b = false) := by
  decide

/-- The first character that is looked at is the last of its octet. -/
theorem decStep_units (c : UInt8) (n : Nat) :
    decStep c ⟨.five, 0, n⟩ = if digit c then .next ⟨unitsMode c, 1, n⟩ else .fail := by
  rcases digit_by_six c with ⟨hLow, hDigit, hLe⟩ | ⟨hLow, hHigh, hDigit, hLe⟩ | ⟨hLow, hHigh, hDigit⟩
  · simp only [decStep, unitsMode, hLow, hDigit, hLe, if_true]
  · simp only [decStep, unitsMode, hLow, hHigh, hDigit, hLe, Bool.false_eq_true, if_true, if_false]
  · simp only [decStep, hLow, hHigh, hDigit, Bool.false_eq_true, if_false]

/-- The second one decides what the third may be. -/
theorem decStep_tens (b c : UInt8) (n : Nat) :
    decStep b ⟨unitsMode c, 1, n⟩ = if digit b then .next ⟨tensMode b c, 2, n⟩ else delimiter b n := by
  have hBytes := digit_by_five b
  unfold unitsMode tensMode
  by_cases hc : c ≤ 0x35
  · rw [if_pos hc]
    rcases hBytes with ⟨hFive, _⟩ | ⟨hFive, hLow, hDigit, hLe⟩ | ⟨hFive, hLow, hHigh, _, hDigit, hLe⟩ |
      ⟨hFive, hLow, hHigh, _, hDigit⟩
    · obtain rfl : b = 0x35 := beq_iff_eq.mp hFive
      rw [if_pos (show digit 0x35 = true from rfl), if_pos ⟨rfl, hc⟩]
      rfl
    · have hNe : b ≠ 0x35 := beq_eq_false_iff_ne.mp hFive
      simp only [decStep, hFive, hNe, hLow, hDigit, hLe, false_and, Bool.false_eq_true, if_true, if_false]
    · have hNe : b ≠ 0x35 := beq_eq_false_iff_ne.mp hFive
      simp only [decStep, hFive, hNe, hLow, hHigh, hDigit, hLe, false_and, Bool.false_eq_true, if_true, if_false]
    · simp only [decStep, hFive, hLow, hHigh, hDigit, Bool.false_eq_true, if_false]
      rfl
  · rw [if_neg hc]
    rcases hBytes with ⟨_, hLow, hHigh, hDigit, hLe⟩ | ⟨_, hLow, hDigit, hLe⟩ | ⟨_, hLow, _, hHigh, hDigit, hLe⟩ |
      ⟨_, hLow, _, hHigh, hDigit⟩
    · simp only [decStep, hLow, hHigh, hDigit, hLe, hc, and_false, Bool.false_eq_true, if_true, if_false]
    · simp only [decStep, hLow, hDigit, hLe, hc, and_false, if_true, if_false]
    · simp only [decStep, hLow, hHigh, hDigit, hLe, hc, and_false, Bool.false_eq_true, if_true, if_false]
    · simp only [decStep, hLow, hHigh, hDigit, Bool.false_eq_true, if_false]
      rfl

/-- The third one, if there is one, or the delimiter. -/
theorem decStep_hundreds (a : UInt8) (mode : OctetMode) (n : Nat) :
    decStep a ⟨mode, 2, n⟩ = if hundredsDigit mode a then .next ⟨mode, 3, n⟩ else delimiter a n := by
  cases mode <;> rfl

/-- Behind three digits only the delimiter may stand. -/
theorem decStep_full (a : UInt8) (mode : OctetMode) (n : Nat) : decStep a ⟨mode, 3, n⟩ = delimiter a n := by
  cases mode <;> rfl

/-! ### One octet -/

/-- A digit that goes on with the octet. -/
theorem decStep_taken {c : UInt8} {octet : Bytes} (h : OctetTaken (c :: octet)) (n : Nat) :
    decStep c (octetState octet n) = .next (octetState (c :: octet) n) := by
  rcases octet with _ | ⟨d, _ | ⟨e, _ | ⟨f, tail⟩⟩⟩
  · have hDigit : digit c = true := h
    rw [octetState, decStep_units, if_pos hDigit, octetState]
  · have hDigit : digit c = true := h.1
    rw [octetState, decStep_tens, if_pos hDigit, octetState]
  · rw [octetState, decStep_hundreds, if_pos h.1, octetState]
  · exact h.elim

/-- Another character ends it, if it has a digit. -/
theorem decStep_untaken {c : UInt8} {octet : Bytes} (hOctet : OctetTaken octet) (h : ¬OctetTaken (c :: octet)) (n : Nat) :
    decStep c (octetState octet n) = if octet = [] then .fail else delimiter c n := by
  rcases octet with _ | ⟨d, _ | ⟨e, _ | ⟨f, _ | ⟨g, tail⟩⟩⟩⟩
  · have hDigit : ¬digit c = true := h
    rw [octetState, decStep_units, if_neg hDigit, if_pos rfl]
  · have hDigit : ¬digit c = true := fun hDigit => h ⟨hDigit, hOctet⟩
    rw [octetState, decStep_tens, if_neg hDigit, if_neg (by simp)]
  · have hHundreds : ¬hundredsDigit (tensMode d e) c = true := fun hHundreds => h ⟨hHundreds, hOctet⟩
    rw [octetState, decStep_hundreds, if_neg hHundreds, if_neg (by simp)]
  · rw [octetState, decStep_full, if_neg (by simp)]
  · exact hOctet.elim

theorem octetTaken_digits {octet : Bytes} (h : OctetTaken octet) : ∀ c ∈ octet, digit c = true := by
  have hHundreds {mode : OctetMode} {a : UInt8} (ha : hundredsDigit mode a = true) : digit a = true := by
    have hCases : a = 0x32 ∨ a = 0x31 := by
      cases mode <;> simp only [hundredsDigit, Bool.or_eq_true, beq_iff_eq] at ha <;> tauto
    rcases hCases with rfl | rfl <;> rfl
  rcases octet with _ | ⟨a, _ | ⟨b, _ | ⟨c, _ | ⟨d, tail⟩⟩⟩⟩
  · simp
  · have hDigit : digit a = true := h
    simpa using hDigit
  · have hDigits : digit a = true ∧ digit b = true := h
    simpa using hDigits
  · simpa using ⟨hHundreds h.1, h.2⟩
  · exact h.elim

theorem octetTaken_length {octet : Bytes} (h : OctetTaken octet) : octet.length ≤ 3 := by
  rcases octet with _ | ⟨a, _ | ⟨b, _ | ⟨c, _ | ⟨d, tail⟩⟩⟩⟩
  · exact Nat.zero_le 3
  · exact Nat.le_add_left 1 2
  · exact Nat.le_add_left 2 1
  · exact Nat.le_refl 3
  · exact h.elim

/-- What is taken is taken from its end on. -/
theorem octetTaken_tail {c : UInt8} {octet : Bytes} (h : OctetTaken (c :: octet)) : OctetTaken octet := by
  rcases octet with _ | ⟨d, _ | ⟨e, _ | ⟨f, tail⟩⟩⟩
  · trivial
  · exact h.2
  · exact h.2
  · exact h.elim

theorem octetTaken_suffix {digits octet : Bytes} (h : OctetTaken (digits ++ octet)) : OctetTaken octet := by
  induction digits with
  | nil => exact h
  | cons c digits ih => exact ih (octetTaken_tail h)

/-- What the loop does in the middle of an octet. -/
theorem decStep_cases {c : UInt8} {octet : Bytes} (hOctet : OctetTaken octet) (n : Nat) :
    (OctetTaken (c :: octet) ∧ decStep c (octetState octet n) = .next (octetState (c :: octet) n)) ∨
      (octet ≠ [] ∧ c = dot ∧ decStep c (octetState octet n) = .next (octetState [] (n + 1))) ∨
      (octet ≠ [] ∧ c = colon ∧ decStep c (octetState octet n) = .leave) ∨
      decStep c (octetState octet n) = .fail := by
  by_cases hTaken : OctetTaken (c :: octet)
  · exact .inl ⟨hTaken, decStep_taken hTaken n⟩
  · have hStep := decStep_untaken hOctet hTaken n
    by_cases hNil : octet = []
    · rw [if_pos hNil] at hStep
      exact .inr (.inr (.inr hStep))
    · rw [if_neg hNil] at hStep
      rw [hStep, delimiter]
      by_cases hDot : c = dot
      · subst hDot
        exact .inr (.inl ⟨hNil, rfl, rfl⟩)
      · by_cases hColon : c = colon
        · subst hColon
          exact .inr (.inr (.inl ⟨hNil, rfl, rfl⟩))
        · exact .inr (.inr (.inr (by simp [hDot, hColon])))

/-! ### The octets that are taken -/

/-- An octet from 150 to 155, whose "1" is not taken behind the "5". -/
def Misread (octet : Bytes) : Prop := ∃ c, between 0x30 0x35 c = true ∧ octet = [0x31, 0x35, c]

/-- Two digits with a leading zero. -/
def ZeroLed (octet : Bytes) : Prop := ∃ c, digit c = true ∧ octet = [0x30, c]

/-- The octets that are taken. -/
def takenOctet : Language UInt8 := {octet | (octet ∈ Grammar.decOctet ∧ ¬Misread octet) ∨ ZeroLed octet}

theorem tensMode_cases (b c : UInt8) :
    (tensMode b c = .five ∧ b = 0x35 ∧ c ≤ 0x35) ∨ (tensMode b c = .four ∧ b ≠ 0x35 ∧ b ≤ 0x34) ∨
      (tensMode b c = .three ∧ ¬(b = 0x35 ∧ c ≤ 0x35)) := by
  unfold tensMode
  by_cases hFive : b = 0x35 ∧ c ≤ 0x35
  · exact .inl ⟨if_pos hFive, hFive⟩
  · rw [if_neg hFive]
    by_cases hLe : b ≤ 0x34
    · have hNe : b ≠ 0x35 := by
        rintro rfl
        exact absurd hLe (by decide)
      exact .inr (.inl ⟨if_pos hLe, hNe, hLe⟩)
    · exact .inr (.inr ⟨if_neg hLe, hFive⟩)

/-- An octet of the grammar is taken, but for those that are misread. -/
theorem octetTaken_of_decOctet {octet : Bytes} (h : octet ∈ Grammar.decOctet) (hMisread : ¬Misread octet) :
    OctetTaken octet := by
  have hDigits := decOctet_chars h
  rcases mem_decOctet.mp h with ⟨c, hc, rfl⟩ | ⟨b, c, hb, hc, rfl⟩ | ⟨b, c, hb, hc, rfl⟩ | ⟨b, c, hb, hc, rfl⟩ |
    ⟨c, hc, rfl⟩
  · exact hc
  · exact ⟨hDigits b (by simp), hc⟩
  · refine ⟨?_, hb, hc⟩
    rcases tensMode_cases b c with ⟨_, rfl, hLe⟩ | ⟨hMode, _⟩ | ⟨hMode, _⟩
    · exact (hMisread ⟨c, between_of_digit hc hLe, rfl⟩).elim
    · rw [hMode]
      rfl
    · rw [hMode]
      rfl
  · refine ⟨?_, hDigits b (by simp), hc⟩
    rcases tensMode_cases b c with ⟨hMode, _⟩ | ⟨hMode, _⟩ | ⟨hMode, _⟩
    · rw [hMode]
      rfl
    · rw [hMode]
      rfl
    · have hLe : b ≤ 0x34 := between_le hb
      unfold tensMode at hMode
      rw [if_pos hLe] at hMode
      split_ifs at hMode
  · refine ⟨?_, by decide, hDigits c (by simp)⟩
    rw [tensMode, if_pos ⟨rfl, between_le hc⟩]
    rfl

theorem mem_takenOctet {octet : Bytes} : octet ∈ takenOctet ↔ OctetTaken octet ∧ octet ≠ [] := by
  constructor
  · rintro (⟨hOctet, hMisread⟩ | ⟨c, hc, rfl⟩)
    · exact ⟨octetTaken_of_decOctet hOctet hMisread, (decOctet_leading_zero hOctet).1⟩
    · exact ⟨⟨by decide, hc⟩, by simp⟩
  · rintro ⟨hTaken, hNe⟩
    rcases octet with _ | ⟨a, _ | ⟨b, _ | ⟨c, _ | ⟨d, tail⟩⟩⟩⟩
    · exact absurd rfl hNe
    · refine .inl ⟨mem_decOctet.mpr (.inl ⟨a, hTaken, rfl⟩), ?_⟩
      rintro ⟨c, _, hEq⟩
      cases hEq
    · rcases two_digits hTaken.1 hTaken.2 with rfl | hOctet
      · exact .inr ⟨b, hTaken.2, rfl⟩
      · refine .inl ⟨hOctet, ?_⟩
        rintro ⟨c, _, hEq⟩
        cases hEq
    · obtain ⟨hHundreds, hb, hc⟩ := hTaken
      rcases tensMode_cases b c with ⟨hMode, rfl, hLe⟩ | ⟨hMode, hFive, hLe⟩ | ⟨hMode, hNot⟩
      · -- "25" and a digit up to 5
        rw [hMode] at hHundreds
        obtain rfl : a = 0x32 := beq_iff_eq.mp hHundreds
        refine .inl ⟨mem_decOctet.mpr (.inr (.inr (.inr (.inr ⟨c, between_of_digit hc hLe, rfl⟩)))), ?_⟩
        rintro ⟨_, _, hEq⟩
        cases hEq
      · -- "1" or "2" and a digit up to 4
        have hNotMisread : ¬Misread [a, b, c] := by
          rintro ⟨_, _, hEq⟩
          exact hFive (List.cons.inj (List.cons.inj hEq).2).1
        rw [hMode] at hHundreds
        have hFirst : a = 0x32 ∨ a = 0x31 := by simpa [hundredsDigit] using hHundreds
        rcases hFirst with rfl | rfl
        · exact .inl ⟨mem_decOctet.mpr (.inr (.inr (.inr (.inl ⟨b, c, between_of_digit hb hLe, hc, rfl⟩)))), hNotMisread⟩
        · exact .inl ⟨mem_decOctet.mpr (.inr (.inr (.inl ⟨b, c, hb, hc, rfl⟩))), hNotMisread⟩
      · -- "1" and the rest
        rw [hMode] at hHundreds
        obtain rfl : a = 0x31 := beq_iff_eq.mp hHundreds
        refine .inl ⟨mem_decOctet.mpr (.inr (.inr (.inl ⟨b, c, hb, hc, rfl⟩))), ?_⟩
        rintro ⟨d, hd, hEq⟩
        obtain ⟨rfl, hTail⟩ := List.cons.inj (List.cons.inj hEq).2
        obtain rfl := (List.cons.inj hTail).1
        exact hNot ⟨rfl, between_le hd⟩
    · exact hTaken.elim

end ImpactSockets.Uri
