import ImpactSockets.AbnfParser.Elements

/-! Alternations without brackets, with the blanks and the numbers that the functions of
`ABNF_Parser/main.cpp` read to their ends. -/
namespace ImpactSockets.AbnfParser

open Abnf AbnfOps Istream
open scoped Computability

variable {order : Order} {c : UInt8} {r w x y : Bytes}

/-- A decimal series of which `bin_val`, which is called first and asks for the same letter,
accepts all or nothing. -/
def wholeDecimal : Language UInt8 :=
  {w | w ∈ Grammar.series digit ∧ (w ∈ Grammar.series bit ∨ w.takeWhile (seriesChar bit) ∉ Grammar.series bit)}

def wholeNumber : Language UInt8 :=
  literal [0x25] * (literal [0x64] * wholeDecimal + literal [0x78] * Grammar.series hexdig)

def plainElement : Language UInt8 := Grammar.rulename + (Grammar.charVal + (wholeNumber + Grammar.proseVal))

def plainPart : Language UInt8 := Abnf.optional Grammar.repeat_ * plainElement

/-- What is a blank for the production, and is read by `c_wsp`. -/
def plainGap (order : Order) : Language UInt8 := Grammar.cWsp ⊓ folding order

def plainConcatenation (order : Order) : Language UInt8 := plainPart * (atLeastOne (plainGap order) * plainPart)∗

def plainAlternation (order : Order) : Language UInt8 :=
  plainConcatenation order * ((plainGap order)∗ * literal [0x2F] * (plainGap order)∗ * plainConcatenation order)∗

/-! ### The productions -/

theorem wholeNumber_le : wholeNumber ≤ Grammar.numVal := by
  intro w hw
  obtain ⟨v, hv, rfl⟩ := mem_literal_mul.mp hw
  refine cons_mem_literal_mul.mpr ⟨rfl, ?_⟩
  rcases hv with hv | hv
  · obtain ⟨digits, hDigits, rfl⟩ := mem_literal_mul.mp hv
    exact .inl (.inr ⟨[0x64], letter_mem rfl, digits, hDigits.1, rfl⟩)
  · obtain ⟨digits, hDigits, rfl⟩ := mem_literal_mul.mp hv
    exact .inr ⟨[0x78], letter_mem rfl, digits, hDigits, rfl⟩

/-- A plain element is an element without brackets. -/
theorem plainElement_le : plainElement ≤ simple := by
  unfold plainElement simple
  gcongr
  exact wholeNumber_le

/-- A plain concatenation is one of the production. -/
theorem plainConcatenation_le : plainConcatenation order ≤ Grammar.concatenation := by
  have hPart : plainPart ≤ Grammar.repetition := by
    unfold plainPart Grammar.repetition Grammar.repetitionOf
    gcongr
    exact plainElement_le.trans simple_le_element
  unfold plainConcatenation Grammar.concatenation Grammar.concatenationOf atLeastOne
  gcongr
  · exact inf_le_left
  · exact inf_le_left

/-- A plain alternation is one of the production. -/
theorem plainAlternation_le : plainAlternation order ≤ Grammar.alternation := by
  rw [Grammar.alternation_eq]
  unfold plainAlternation Grammar.alternationOf
  gcongr
  · exact plainConcatenation_le
  · exact inf_le_left
  · exact inf_le_left
  · exact plainConcatenation_le

/-! ### What follows an element -/

/-- The characters that a folding begins with, or a slash. -/
def stops (c : UInt8) : Bool := c == 0x3B || c == 0x0D || c == 0x0A || c == 0x2F

/-- The text is at its end, or a folding or a slash may follow. -/
def Ends (x : Bytes) : Prop := ∀ c ∈ x.head?, stops c = true

/-- A folding begins with a semicolon or a newline. -/
theorem head_of_mem_folding (h : w ∈ folding order) : ∃ c v, w = c :: v ∧ stops c = true ∧ c ≠ 0x2F := by
  obtain ⟨_, hNewline, _, ⟨blank, -, rfl⟩, rfl⟩ := Language.mem_mul.mp h
  rcases hNewline with hComment | rfl
  · obtain ⟨v, rfl⟩ := head_of_mem_comment hComment
    exact ⟨0x3B, _, rfl, rfl, by decide⟩
  · cases order with
    | leftToRight => exact ⟨0x0D, _, rfl, rfl, by decide⟩
    | rightToLeft => exact ⟨0x0A, _, rfl, rfl, by decide⟩

/-- Where neither a comment nor a newline begins, `c_wsp` reads nothing. -/
theorem gapText_of_head (h : ∀ c ∈ r.head?, c = 0x2F ∨ stops c = false) : (gapText order r).1 = false := by
  by_contra hTrue
  obtain ⟨w, hw, hText⟩ := gapText_sound (by simpa using hTrue)
  obtain ⟨c, v, rfl, hStops, hSlash⟩ := head_of_mem_folding hw
  rw [hText] at h
  rcases h c rfl with hc | hc
  · exact hSlash hc
  · rw [hStops] at hc
    cases hc

/-- There is one way to read foldings until there is none in front. -/
theorem foldings_unique {gaps more : Bytes} (hGaps : gaps ∈ (folding order)∗) (hMore : more ∈ (folding order)∗)
    (hText : gaps ++ x = more ++ y) (hx : (gapText order x).1 = false) (hy : (gapText order y).1 = false) :
    x = y := by
  have hFirst {first rest left : Bytes} (hFirst : first ∈ folding order) :
      gapText order (first ++ rest ++ left) = (true, rest ++ left) :=
    gapText_eq_true.mpr ⟨first, hFirst, by rw [List.append_assoc]⟩
  revert more
  refine @kstar_induction _ _ (fun gaps => ∀ more ∈ (folding order)∗, gaps ++ x = more ++ y → x = y) ?_ ?_ gaps hGaps
  · intro more hMore hText
    rcases kstar_cases hMore with rfl | ⟨first, hWord, rest, -, rfl⟩
    · exact hText
    · rw [List.nil_append] at hText
      rw [hText, hFirst hWord] at hx
      cases hx
  · intro first hWord rest ih more hMore hText
    rcases kstar_cases hMore with rfl | ⟨next, hNext, others, hOthers, rfl⟩
    · rw [List.nil_append] at hText
      rw [← hText, hFirst hWord] at hy
      cases hy
    · have hRead := @hFirst first rest x hWord
      rw [hText, hFirst hNext] at hRead
      exact ih others hOthers (congrArg Prod.snd hRead).symm

/-! ### Elements -/

/-- A run that stops at every end stops here. -/
theorem Ends.dropWhile {p : UInt8 → Bool} (h : Ends x) (hStops : ∀ c, stops c = true → p c = false) :
    x.dropWhile p = x := by
  cases x with
  | nil => rfl
  | cons c x => exact List.dropWhile_cons_of_neg (by simp [hStops c (h c rfl)])

/-- A run of characters ends where the text behind it may not go on with one. -/
theorem Ends.takeWhile_append {p : UInt8 → Bool} (h : Ends x) (hStops : ∀ c, stops c = true → p c = false) :
    (w ++ x).takeWhile p = w.takeWhile p := by
  induction w with
  | nil =>
      cases x with
      | nil => rfl
      | cons c x => exact List.takeWhile_cons_of_neg (by simp [hStops c (h c rfl)])
  | cons c w ih => rw [List.cons_append, List.takeWhile_cons, List.takeWhile_cons, ih]

/-- A name is read to its end where none of its characters follows. -/
theorem rulenameText_append (hw : w ∈ Grammar.rulename) (hx : Ends x) : rulenameText (w ++ x) = (true, x) := by
  obtain ⟨_, ⟨c, hc, rfl⟩, run, hRun, rfl⟩ := Language.mem_mul.mp hw
  have hStops : ∀ c, stops c = true → rulenameChar c = false := by decide +kernel
  rw [List.append_assoc, List.singleton_append, rulenameText, List.headD_cons, if_pos hc, List.tail_cons,
    List.dropWhile_append_of_pos (mem_kstar_oneOf.mp hRun), hx.dropWhile hStops]

/-- A series has no other characters than the run that is read. -/
theorem within_series {digit : UInt8 → Bool} : Within (seriesChar digit) (Grammar.series digit) := by
  have hNumeral : Within (seriesChar digit) (Grammar.numeral digit) :=
    (within_oneOf fun c hc => by simp [seriesChar, hc]).atLeastOne
  have hDot : Within (seriesChar digit) (literal [0x2E]) := within_literal (by simp [seriesChar])
  have hDash : Within (seriesChar digit) (literal [0x2D]) := within_literal (by simp [seriesChar])
  exact hNumeral.mul ((hDot.mul hNumeral).atLeastOne.add (hDash.mul hNumeral)).optional

/-- The longest run of digits, dots and dashes is the series. -/
theorem numericText_append {digit : UInt8 → Bool} {asked : UInt8} (hAsked : eofChar ≠ asked)
    (hDash : digit 0x2D = false) (hDot : digit 0x2E = false) (hStops : ∀ c, stops c = true → seriesChar digit c = false)
    (hw : w ∈ Grammar.series digit) (hx : Ends x) : numericText asked digit (asked :: (w ++ x)) = (true, x) := by
  have hAll : ∀ c ∈ w, seriesChar digit c = true := within_series w hw
  refine (numericText_eq_true hAsked hDash hDot).mpr ⟨_, rfl, ?_, ?_⟩
  · rwa [hx.takeWhile_append hStops, List.takeWhile_eq_self_iff.mpr hAll]
  · rw [List.dropWhile_append_of_pos hAll, hx.dropWhile hStops]

/-- Another letter than the one asked for. -/
theorem numericText_other {digit : UInt8 → Bool} {asked : UInt8} (h : c ≠ asked) :
    numericText asked digit (c :: r) = (false, c :: r) := by
  rw [numericText, attempted, List.headD_cons, if_pos h]
  rfl

/-- A whole number is read to its end: the run that is looked at ends with it. -/
theorem numText_append (hw : w ∈ wholeNumber) (hx : Ends x) : numText (w ++ x) = (true, x) := by
  have hBits : ∀ c, stops c = true → seriesChar bit c = false := by decide +kernel
  have hDigits : ∀ c, stops c = true → seriesChar digit c = false := by decide +kernel
  have hHex : ∀ c, stops c = true → seriesChar hexdig c = false := by decide +kernel
  obtain ⟨v, hv, rfl⟩ := mem_literal_mul.mp hw
  refine numText_eq_true.mpr ⟨v ++ x, rfl, ?_⟩
  rw [@either_eq_true (numericText 0x64 bit) _ _ _ attempted_false,
    @either_eq_true (numericText 0x64 digit) _ _ _ attempted_false]
  rcases hv with hv | hv
  · obtain ⟨series, hSeries, rfl⟩ := mem_literal_mul.mp hv
    rcases hSeries.2 with hBit | hOther
    · exact .inl (numericText_append (by decide) rfl rfl hBits hBit hx)
    · refine .inr ⟨?_, .inl (numericText_append (by decide) rfl rfl hDigits hSeries.1 hx)⟩
      rw [← hx.takeWhile_append hBits] at hOther
      by_contra hTrue
      obtain ⟨behind, hText, hAccepted⟩ :=
        (@numericText_accepts_iff _ bit 0x64 (by decide) rfl rfl).mp (by simpa using hTrue)
      rw [← (List.cons.inj hText).2] at hAccepted
      exact hOther hAccepted
  · obtain ⟨series, hSeries, rfl⟩ := mem_literal_mul.mp hv
    refine .inr ⟨congrArg Prod.fst (numericText_other (by decide)), .inr ⟨?_, ?_⟩⟩
    · exact congrArg Prod.fst (numericText_other (by decide))
    · exact numericText_append (by decide) rfl rfl hHex hSeries hx

/-- The first function has succeeded. -/
theorem either_of_true {F G : Bytes → Bool × Bytes} (h : F r = (true, x)) : either F G r = (true, x) := by
  rw [either, h]
  rfl

/-- The first function has failed and put the text back. -/
theorem either_of_false {F G : Bytes → Bool × Bytes} (h : F r = (false, r)) : either F G r = G r := by
  rw [either, h]
  rfl

/-- No name begins with anything but a letter. -/
theorem rulenameText_other (h : alpha c = false) : rulenameText (c :: r) = (false, c :: r) := by
  rw [rulenameText, List.headD_cons, if_neg (by simp [h])]

/-- Another first character than the delimiter. -/
theorem delimitedText_other {first last : UInt8} {inside : UInt8 → Bool} (h : c ≠ first) :
    delimitedText first last inside (c :: r) = (false, c :: r) := by
  rw [delimitedText, attempted, List.headD_cons, if_pos h]
  rfl

/-- No number begins with anything but a percent sign. -/
theorem numText_other (h : c ≠ 0x25) : numText (c :: r) = (false, c :: r) := by
  rw [numText, attempted, List.headD_cons, if_pos h]
  rfl

/-- The function whose element it is finds its first character, and the ones in front of it do
not. -/
theorem simpleText_append (hw : w ∈ plainElement) (hx : Ends x) : simpleText (w ++ x) = (true, x) := by
  rcases hw with hw | hw | hw | hw
  · exact either_of_true (rulenameText_append hw hx)
  · have hChars : delimitedText 0x22 0x22 quotedChar (w ++ x) = (true, x) :=
      (delimitedText_eq_true (by decide) (by decide) rfl).mpr ⟨w, hw, rfl⟩
    rw [Grammar.charVal, mul_assoc] at hw
    obtain ⟨v, -, rfl⟩ := mem_literal_mul.mp hw
    exact (either_of_false (rulenameText_other rfl)).trans (either_of_true hChars)
  · have hNumber := numText_append hw hx
    obtain ⟨v, -, rfl⟩ := mem_literal_mul.mp hw
    exact (either_of_false (rulenameText_other rfl)).trans
      ((either_of_false (delimitedText_other (by decide))).trans (either_of_true hNumber))
  · have hProse : delimitedText 0x3C 0x3E proseChar (w ++ x) = (true, x) :=
      (delimitedText_eq_true (by decide) (by decide) rfl).mpr ⟨w, hw, rfl⟩
    rw [Grammar.proseVal, mul_assoc] at hw
    obtain ⟨v, -, rfl⟩ := mem_literal_mul.mp hw
    exact (either_of_false (rulenameText_other rfl)).trans
      ((either_of_false (delimitedText_other (by decide))).trans
        ((either_of_false (numText_other (by decide))).trans hProse))

/-- A part is read to its end. -/
theorem repetitionText_part (hw : w ∈ plainPart) (hx : Ends x) : repetitionText (w ++ x) = (true, x) := by
  obtain ⟨count, hCount, v, hv, rfl⟩ := Language.mem_mul.mp hw
  rw [List.append_assoc, repetitionText, repeatText_element hCount (plainElement_le hv), simpleText_append hv hx]

/-- No repeat begins with a slash. -/
theorem repeatText_slash : repeatText (0x2F :: r) = (false, 0x2F :: r) :=
  repeatText_other (by rw [List.headD_cons]; decide) rfl

/-- A slash is no part. -/
theorem repetitionText_slash : repetitionText (0x2F :: r) = (false, 0x2F :: r) := by
  rw [repetitionText, repeatText_slash]
  exact (either_of_false (rulenameText_other rfl)).trans
    ((either_of_false (delimitedText_other (by decide))).trans
      ((either_of_false (numText_other (by decide))).trans (delimitedText_other (by decide))))

/-- There are no brackets in front of a slash or a part. -/
theorem no_bracketing_slash {L : Language UInt8} :
    ¬∃ w ∈ Abnf.optional Grammar.repeat_ * bracketing order L, w <+: 0x2F :: r := by
  intro h
  obtain ⟨c, y, hText, hBracket⟩ := repeatText_bracketing h
  rw [repeatText_slash] at hText
  rw [← (List.cons.inj hText).1] at hBracket
  exact absurd hBracket (by decide)

/-- No plain part begins as a bracketed one does: their first characters differ. -/
theorem no_bracketing_part {L : Language UInt8} (hw : w ∈ plainPart) :
    ¬∃ v ∈ Abnf.optional Grammar.repeat_ * bracketing order L, v <+: w ++ x := by
  intro h
  obtain ⟨c, y, hText, hBracket⟩ := repeatText_bracketing h
  obtain ⟨count, hCount, v, hv, rfl⟩ := Language.mem_mul.mp hw
  obtain ⟨d, u, rfl, hHead⟩ := head_of_mem_simple (plainElement_le hv)
  rw [List.append_assoc, repeatText_element hCount (plainElement_le hv)] at hText
  rw [← (List.cons.inj hText).1] at hBracket
  rcases hBracket with rfl | rfl
  · cases hHead
  · cases hHead

/-- A part does not begin as a folding does. -/
theorem head_of_mem_part (hw : w ∈ plainPart) : ∃ c v, w = c :: v ∧ stops c = false := by
  obtain ⟨count, hCount, element, hElement, rfl⟩ := Language.mem_mul.mp hw
  rcases mem_optional.mp hCount with rfl | hRepeat
  · obtain ⟨c, v, rfl, hHead⟩ := head_of_mem_simple (plainElement_le hElement)
    have hOther : ∀ c, elementHead c = true → stops c = false := by decide +kernel
    exact ⟨c, v, rfl, hOther c hHead⟩
  · obtain ⟨c, v, rfl, hHead⟩ := head_of_mem_repeat hRepeat
    have hOther : ∀ c, c = 0x2A ∨ digit c = true → stops c = false := by decide +kernel
    exact ⟨c, _, rfl, hOther c hHead⟩

end ImpactSockets.AbnfParser
