import ImpactSockets.AbnfParser.Fuel
import ImpactSockets.AbnfParser.Openings
import ImpactSockets.AbnfParser.TextProductions

/-! What `c_wsp`, `element` and `repetition` make of a text where nothing is recursive: no
blank stands in front of `c_wsp`, and no brackets are found closed. -/
namespace ImpactSockets.AbnfParser

open Abnf AbnfOps Fuelled Istream
open scoped Computability

variable {order : Order} {L M : Language UInt8} {F G : Bytes → Bool × Bytes} {r x : Bytes}

/-! ### Foldings -/

def gapText (order : Order) : Bytes → Bool × Bytes := attempted fun r =>
  if (cNlText order r).1 then (wsp ((cNlText order r).2.headD eofChar), (cNlText order r).2.tail)
  else (false, (cNlText order r).2)

/-- The second alternative of `c_wsp` as a function of the text. -/
theorem acts_newlineWsp : Acts (newlineWsp order) (gapText order) := by
  refine Acts.attempt ((acts_peek.bind fun _ => (acts_cNl order).bind fun success => acts_ite
    (acts_get.bind fun c => acts_pure (wsp c)) (acts_pure false)).congr fun r => ?_)
  split_ifs <;> rfl

/-- What `c_nl` reads, as a language. -/
theorem cNlText_eq_true_iff : cNlText order r = (true, x) ↔ ∃ w ∈ newline order, w ++ x = r := by
  rw [cNlText_eq_true]
  constructor
  · rintro (⟨w, hw, hText⟩ | hText)
    · exact ⟨w, .inl hw, hText⟩
    · exact ⟨_, .inr rfl, hText.symm⟩
  · rintro ⟨w, hw | rfl, hText⟩
    · exact .inl ⟨w, hw, hText⟩
    · exact .inr hText.symm

/-- What `c_wsp` reads is a folding. -/
theorem gapText_eq_true : gapText order r = (true, x) ↔ ∃ w ∈ folding order, w ++ x = r := by
  have hLanguage : (∃ w ∈ folding order, w ++ x = r) ↔
      ∃ c, wsp c = true ∧ cNlText order r = (true, c :: x) := by
    simp only [cNlText_eq_true_iff]
    constructor
    · rintro ⟨_, hw, rfl⟩
      obtain ⟨v, hv, _, ⟨c, hc, rfl⟩, rfl⟩ := Language.mem_mul.mp hw
      exact ⟨c, hc, v, hv, by simp⟩
    · rintro ⟨c, hc, v, hv, rfl⟩
      exact ⟨v ++ [c], Language.append_mem_mul hv ⟨c, hc, rfl⟩, by simp⟩
  rw [hLanguage, gapText, attempted_eq_true]
  rcases cNlText order r with ⟨_ | _, y⟩
  · simp
  · cases y with
    | nil => simp [show wsp eofChar = false from rfl]
    | cons c y => simp

theorem gapText_sound (h : (gapText order r).1 = true) : ∃ w ∈ folding order, r = w ++ (gapText order r).2 := by
  obtain ⟨w, hw, hText⟩ := gapText_eq_true.mp (Prod.ext h rfl)
  exact ⟨w, hw, hText.symm⟩

/-! ### Elements -/

/-- A choice reads a word of one of the two languages. -/
theorem either_sound (hF : (F r).1 = true → ∃ w ∈ L, r = w ++ (F r).2) (hStays : (F r).1 = false → (F r).2 = r)
    (hG : (G r).1 = true → ∃ w ∈ M, r = w ++ (G r).2) (h : (either F G r).1 = true) :
    ∃ w ∈ L + M, r = w ++ (either F G r).2 := by
  unfold either at h ⊢
  split_ifs at h ⊢ with hTrue
  · obtain ⟨w, hw, hText⟩ := hF hTrue
    exact ⟨w, .inl hw, hText⟩
  · rw [hStays (by simpa using hTrue)] at h ⊢
    obtain ⟨w, hw, hText⟩ := hG h
    exact ⟨w, .inr hw, hText⟩

theorem either_unmoved (hF : (F r).1 = false → (F r).2 = r) (hG : (G r).1 = false → (G r).2 = r)
    (h : (either F G r).1 = false) : (either F G r).2 = r := by
  unfold either at h ⊢
  split_ifs at h ⊢ with hTrue
  · rw [hTrue] at h
    cases h
  · rw [hF (by simpa using hTrue)] at h ⊢
    exact hG h

/-- Two productions that are recognised make an alternative that is. -/
theorem Recognises.either (hF : Recognises L F r) (hG : Recognises M G r) :
    Recognises (L + M) (AbnfParser.either F G) r where
  sound := either_sound hF.sound hF.unmoved hG.sound
  complete := by
    rintro ⟨w, hw | hw, hText⟩
    · exact (either_accepts_iff hF.unmoved).mpr (.inl (hF.complete ⟨w, hw, hText⟩))
    · exact (either_accepts_iff hF.unmoved).mpr (.inr (hG.complete ⟨w, hw, hText⟩))
  unmoved := either_unmoved hF.unmoved hG.unmoved

/-- The last three kinds of elements. -/
def valueText : Bytes → Bool × Bytes :=
  either (delimitedText 0x22 0x22 quotedChar) (either numText (delimitedText 0x3C 0x3E proseChar))

def simpleText : Bytes → Bool × Bytes := either rulenameText valueText

/-- The numbers in front of which `num_val` reads nothing or a number. -/
theorem recognises_simple (h : ∀ x, r = 0x25 :: x → ValueRead x) : Recognises simple simpleText r :=
  recognises_rulename.either <| recognises_charVal.either <|
    (recognises_numVal_iff.mpr h).either recognises_proseVal

theorem simpleText_sound (h : (simpleText r).1 = true) : ∃ w ∈ simple, r = w ++ (simpleText r).2 :=
  either_sound recognises_rulename.sound recognises_rulename.unmoved
    (either_sound recognises_charVal.sound attempted_false
      (either_sound numText_sound attempted_false recognises_proseVal.sound)) h

/-- An element without brackets that fails leaves the text. -/
theorem simpleText_unmoved (h : (simpleText r).1 = false) : (simpleText r).2 = r :=
  either_unmoved recognises_rulename.unmoved
    (either_unmoved attempted_false (either_unmoved attempted_false attempted_false)) h

theorem acts_value : Acts (Scan.orElse charVal (Scan.orElse numVal proseVal)) valueText :=
  acts_charVal.orElse (acts_numVal.orElse acts_proseVal)

/-! ### Repetitions -/

def repetitionText (r : Bytes) : Bool × Bytes := simpleText (repeatText r).2

theorem repeatText_read (r : Bytes) : ∃ count ∈ Abnf.optional Grammar.repeat_, r = count ++ (repeatText r).2 := by
  cases hResult : (repeatText r).1 with
  | true =>
      obtain ⟨w, hw, hText⟩ := recognises_repeat.sound hResult
      exact ⟨w, mem_optional.mpr (.inr hw), hText⟩
  | false => exact ⟨[], mem_optional.mpr (.inl rfl), (recognises_repeat.unmoved hResult).symm⟩

/-- What is read is a repeat and an element. -/
theorem repetitionText_sound (h : (repetitionText r).1 = true) :
    ∃ w ∈ Abnf.optional Grammar.repeat_ * simple, r = w ++ (repetitionText r).2 := by
  obtain ⟨count, hCount, hText⟩ := repeatText_read r
  obtain ⟨w, hw, hTextOn⟩ := simpleText_sound h
  refine ⟨count ++ w, Language.append_mem_mul hCount hw, hText.trans ?_⟩
  rw [List.append_assoc]
  exact congrArg (count ++ ·) hTextOn

/-- The characters that an element without brackets begins with. -/
def elementHead (c : UInt8) : Bool := alpha c || c == 0x22 || c == 0x25 || c == 0x3C

/-- The first character of an element without brackets. -/
theorem head_of_mem_simple {w : Bytes} (h : w ∈ simple) : ∃ c v, w = c :: v ∧ elementHead c = true := by
  have hLiteral {first : UInt8} {L : Language UInt8} (hFirst : elementHead first = true)
      (hWord : w ∈ literal [first] * L) : ∃ c v, w = c :: v ∧ elementHead c = true := by
    obtain ⟨v, -, rfl⟩ := mem_literal_mul.mp hWord
    exact ⟨first, v, rfl, hFirst⟩
  rcases h with h | h | h | h
  · obtain ⟨_, ⟨c, hc, rfl⟩, v, -, rfl⟩ := Language.mem_mul.mp h
    exact ⟨c, v, rfl, by simp [elementHead, hc]⟩
  · rw [Grammar.charVal, mul_assoc] at h
    exact hLiteral rfl h
  · exact hLiteral rfl h
  · rw [Grammar.proseVal, mul_assoc] at h
    exact hLiteral rfl h

/-- The repeat in front of an element is read to its end. -/
theorem repeatText_element {count w : Bytes} (hCount : count ∈ Abnf.optional Grammar.repeat_) (hw : w ∈ simple) :
    (repeatText (count ++ (w ++ x))).2 = w ++ x := by
  obtain ⟨c, v, rfl, hHead⟩ := head_of_mem_simple hw
  have hOther : ∀ c, elementHead c = true → c ≠ 0x2A ∧ digit c = false := by decide +kernel
  exact repeatText_append hCount (hOther c hHead).1 (hOther c hHead).2

/-- Brackets stand behind the repeat that is read. -/
theorem repeatText_bracketing (h : ∃ w ∈ Abnf.optional Grammar.repeat_ * bracketing order L, w <+: r) :
    ∃ c y, (repeatText r).2 = c :: y ∧ (c = 0x28 ∨ c = 0x5B) := by
  obtain ⟨_, hWord, x, rfl⟩ := h
  obtain ⟨count, hCount, w, hw, rfl⟩ := Language.mem_mul.mp hWord
  have hFirst {first last : UInt8} (hWord : w ∈ enclosing order first last L) : ∃ v, w = first :: v := by
    rw [enclosing, mul_assoc, mul_assoc, mul_assoc] at hWord
    obtain ⟨v, -, rfl⟩ := mem_literal_mul.mp hWord
    exact ⟨v, rfl⟩
  rw [List.append_assoc]
  rcases hw with hw | hw
  · obtain ⟨v, rfl⟩ := hFirst hw
    exact ⟨0x28, v ++ x, repeatText_append hCount (by simp) rfl, .inl rfl⟩
  · obtain ⟨v, rfl⟩ := hFirst hw
    exact ⟨0x5B, v ++ x, repeatText_append hCount (by simp) rfl, .inr rfl⟩

/-- A repetition without brackets is accepted unless it is a number that is not. -/
theorem repetitionText_complete
    (h : ∀ count ∈ Abnf.optional Grammar.repeat_, ∀ x, r = count ++ 0x25 :: x → ValueRead x)
    (hWord : ∃ w ∈ Abnf.optional Grammar.repeat_ * simple, w <+: r) : (repetitionText r).1 = true := by
  obtain ⟨_, hw, x, rfl⟩ := hWord
  obtain ⟨count, hCount, v, hv, rfl⟩ := Language.mem_mul.mp hw
  rw [List.append_assoc] at h ⊢
  rw [repetitionText, repeatText_element hCount hv]
  exact (recognises_simple fun y hText => h count hCount y (by rw [hText])).complete ⟨v, hv, x, rfl⟩

end ImpactSockets.AbnfParser
